/-
  File:      MicrobitAlarm/Properties/Flag.lean
  Subject:   THE CONNECTED FLAG FOLLOWS THE LINK.

  The events alternate, so those not yet done are known from the handler `f` of the oldest one and
  their number: `f`, `!f`, `f`, ... They are spread over three places, the two listeners and the
  bus, and the listeners' shares differ by one at most (`Good`). A handler that assigns is `f`
  (`scrolled_first`); after it `!f` has the oldest event.

  * `good_step`, `good_run` -- the invariant, over a step and over a run;
  * `flag_follows_link` -- with no event left, `connected` is what the last event says;
  * `board_step`, `board_run` -- the board allows what the fibers do: its handlers are the events
    not yet done, and it is always the first of them that finishes.
-/
import MicrobitAlarm.Firmware.Board
import MicrobitAlarm.Runs.Handlers

namespace MicrobitAlarm

open Trace

/-! ## 1. Alternating events -/

/-- The events of `l` alternate behind `m`, and `w` is the last one. -/
def Alternates (m : Bool) (l : List Bool) (w : Bool) : Prop :=
  (m :: l).IsChain (· ≠ ·) ∧ l.getLastD m = w

theorem alternates_nil {m w : Bool} : Alternates m [] w ↔ m = w := by
  simp [Alternates]

theorem alternates_cons {m x w : Bool} {l : List Bool} :
    Alternates m (x :: l) w ↔ x = (!m) ∧ Alternates x l w := by
  rw [Alternates, Alternates, List.isChain_cons_cons, List.getLastD_cons, and_assoc, ne_comm,
    Bool.eq_not]

/-- One event more. -/
theorem Alternates.snoc {m w : Bool} {l : List Bool} (h : Alternates m l w) :
    Alternates m (l ++ [!w]) (!w) := by
  induction l generalizing m with
  | nil =>
      rw [alternates_nil] at h
      exact alternates_cons.mpr ⟨h ▸ rfl, alternates_nil.mpr rfl⟩
  | cons x l ih =>
      obtain ⟨hx, hl⟩ := alternates_cons.mp h
      exact alternates_cons.mpr ⟨hx, ih hl⟩

namespace Fibers

/-! ## 2. The events not yet done -/

/-- The events a listener has taken and not done. -/
def pending (s : Fibers) (v : Bool) : Nat :=
  (if s.stage (.handler v) = .away then 0 else 1) + s.queued v

/-- The number of events not yet done. -/
def outstanding (s : Fibers) : Nat :=
  s.pending true + s.pending false + s.bus.length

/-- Neither handler is running or queued. -/
def Settled (s : Fibers) : Prop :=
  s.bus = [] ∧ ∀ v, s.stage (.handler v) = .away ∧ s.queued v = 0

instance (s : Fibers) : Decidable s.Settled :=
  inferInstanceAs (Decidable (_ ∧ _))

/-- **The invariant of the events**, with `f` as the handler of the oldest one. The last event that
    a listener has taken is `m`. -/
structure Good (s : Fibers) (f : Bool) : Prop where
  inv : s.Inv f
  connected : s.connected = !f
  busy : ∀ v, s.queued v ≠ 0 → s.stage (.handler v) ≠ .away
  events : ∃ m, Alternates m s.bus s.link ∧
    (m = (!f) ∧ s.pending f = s.pending !f ∨ m = f ∧ s.pending f = s.pending (!f) + 1)

variable {s s' : Fibers} {f v : Bool} {ev : List Bool}

theorem pending_eq_zero (h : s.Good f) : s.pending v = 0 ↔ s.stage (.handler v) = .away := by
  unfold pending
  constructor
  · intro hp
    by_contra ha
    rw [if_neg ha] at hp
    omega
  · intro ha
    rw [if_pos ha]
    by_contra hq
    exact h.busy v (by omega) ha

theorem outstanding_eq (f : Bool) :
    s.outstanding = s.pending f + s.pending (!f) + s.bus.length := by
  cases f
  · exact congrArg (· + _) (Nat.add_comm _ _)
  · rfl

theorem good_init : init.Good true where
  inv := inv_init
  connected := rfl
  busy _ h := absurd rfl h
  events := ⟨false, alternates_nil.mpr rfl, .inl ⟨rfl, rfl⟩⟩

/-- What a step does to the events: nothing, or a new one, or the oldest one is done. -/
inductive Effect (s : Fibers) (f : Bool) (s' : Fibers) : Bool → List Bool → Prop where
  | none (hl : s'.link = s.link) (hn : s'.outstanding = s.outstanding) : Effect s f s' f []
  | link (hl : s'.link = !s.link) (hn : s'.outstanding = s.outstanding + 1) :
      Effect s f s' f [!s.link]
  | done (hl : s'.link = s.link) (hn : s.outstanding = s'.outstanding + 1) : Effect s f s' (!f) []

/-! ## 3. Steps -/

/-- A step in which no handler comes or goes. -/
theorem Good.keep (h : s.Good f) (hi : s'.Inv f)
    (ha : ∀ v, s'.stage (.handler v) = .away ↔ s.stage (.handler v) = .away)
    (hq : s'.queued = s.queued) (hc : s'.connected = s.connected) (hb : s'.bus = s.bus)
    (hl : s'.link = s.link) : s'.Good f ∧ Effect s f s' f [] := by
  have hp : ∀ v, s'.pending v = s.pending v := fun v => by
    rw [pending, pending, hq]
    simp only [ha]
  refine ⟨⟨hi, hc ▸ h.connected, fun v hv => ?_, ?_⟩, .none hl ?_⟩
  · rw [ne_eq, ha]
    exact h.busy v (hq ▸ hv)
  · rw [hb, hl, hp, hp]
    exact h.events
  · rw [outstanding, outstanding, hp, hp, hb]

/-- Whoever calls `scroll`, or was woken for the display and finds it free. -/
theorem Good.scroll (h : s.Good f) {x : Fiber} (hc : s.currentFiber = some x)
    (hs : s.stage x = .ready ∨ s.stage x = .woken ∧ s.display = none) :
    (s.scroll x).schedule.Good f ∧ Effect s f (s.scroll x).schedule f [] := by
  obtain ⟨hq, hconn, hb, hl⟩ := s.scroll_frame x
  refine h.keep (h.inv.scroll hc hs) (fun v => ?_) hq hconn hb hl
  rw [schedule_stage, scroll_away]
  refine ⟨And.right, fun ha => ⟨?_, ha⟩⟩
  rintro rfl
  rcases hs with hs | ⟨hs, -⟩ <;> rw [ha] at hs <;> cases hs

/-- Main goes to sleep, or has nothing more to do in `scroll`. -/
theorem Good.main_leave (h : s.Good f) (hc : s.currentFiber = some .main)
    (hs : s.stage .main = .woken → s.display ≠ none) :
    (s.dequeueFiber .main .away).schedule.Good f ∧
      Effect s f (s.dequeueFiber .main .away).schedule f [] := by
  refine h.keep (h.inv.main_leave hc hs) (fun v => ?_) rfl rfl rfl rfl
  rw [schedule_stage, dequeueFiber_stage, if_neg (by simp)]

/-- A listener that takes an event has one more to do. -/
theorem pending_asyncCallback (hq : s.queued v ≠ 0 → s.stage (.handler v) ≠ .away) (u : Bool) :
    (s.asyncCallback v).pending u = s.pending u + if u = v then 1 else 0 := by
  unfold asyncCallback pending
  split
  case isTrue ha =>
      have hv : s.queued v = 0 := by
        by_contra hn
        exact hq hn ha
      simp only [scroll_away, (s.scroll_frame _).1, ne_eq, Fiber.handler.injEq]
      grind
  case isFalse ha =>
      simp only [Function.update_apply]
      grind

/-- A listener takes the oldest event of the bus. -/
theorem Good.deliver (h : s.Good f) {bus : List Bool} (hc : s.currentFiber = none)
    (hb : s.bus = v :: bus) :
    ({ s with bus := bus }.asyncCallback v).Good f ∧
      Effect s f ({ s with bus := bus }.asyncCallback v) f [] := by
  obtain ⟨m, hm, hshare⟩ := h.events
  rw [hb] at hm
  obtain ⟨hv, hm⟩ := alternates_cons.mp hm
  have hi : ({ s with bus := bus } : Fibers).Inv f := h.inv.congr rfl rfl rfl rfl rfl rfl
  have hp := @pending_asyncCallback { s with bus := bus } v (h.busy v)
  have hold : ∀ u, ({ s with bus := bus } : Fibers).pending u = s.pending u := fun _ => rfl
  obtain ⟨hconn, hbus, hlink⟩ := asyncCallback_frame { s with bus := bus } v
  have hnot := not_ne f
  refine ⟨⟨?_, hconn.trans h.connected, fun u hu => ?_, v, ?_, ?_⟩, .none hlink ?_⟩
  · unfold asyncCallback
    split
    case isTrue ha =>
        rcases hshare with ⟨rfl, -⟩ | ⟨rfl, hpf⟩
        · obtain rfl : v = f := by simpa using hv
          exact hi.start_first hc ha
        · subst hv
          -- `f` has an event, so it has a fiber
          refine hi.start_second hc (fun hf => ?_) ha
          rw [(pending_eq_zero h).mpr hf] at hpf
          omega
    case isFalse => exact hi.congr rfl rfl rfl rfl rfl rfl
  · intro ha
    obtain ⟨huv, hau⟩ := (asyncCallback_away _ u v).mp ha
    have hpu := hp u
    rw [if_neg huv, hold, (pending_eq_zero h).mpr hau, pending, if_pos ha] at hpu
    omega
  · rw [hbus, hlink]
    exact hm
  · -- with equal shares the event is one of `f`, otherwise one of `!f`
    rw [hp, hp, hold, hold]
    rcases hshare with ⟨rfl, hpf⟩ | ⟨rfl, hpf⟩
    · obtain rfl : v = f := by simpa using hv
      exact .inr ⟨rfl, by simp [hnot]; omega⟩
    · exact .inl ⟨hv, by simp [hv, hnot.symm]; omega⟩
  · rw [outstanding, outstanding, hp, hp, hold, hold, hbus, hb, List.length_cons]
    cases v <;> simp <;> omega

/-- A listener that is done with an event has one less to do. -/
theorem pending_assign (ha : s.stage (.handler v) ≠ .away) (u : Bool) :
    s.pending u = (s.assign v).pending u + if u = v then 1 else 0 := by
  simp only [pending, assign_away, assign_queued]
  grind

/-- `f` exits, or goes on with its next event: then the other handler has one between the two. -/
theorem Good.assign_inv (h : s.Good f) (hc : s.currentFiber = some (.handler f))
    (hs : s.stage (.handler f) = .ended ∨ s.stage (.handler f) = .woken ∧ s.display ≠ none)
    (ha : s.stage (.handler f) ≠ .away) : (s.assign f).schedule.Inv (!f) := by
  by_cases hn : s.queued f = 0
  · exact h.inv.exit hc hs hn
  · refine h.inv.again hc hs hn fun hg => ?_
    have hzero := (pending_eq_zero h).mpr hg
    obtain ⟨m, -, ⟨-, hpf⟩ | ⟨-, hpf⟩⟩ := h.events
    all_goals
      rw [pending, if_neg ha] at hpf
      omega

/-- **A handler that has scrolled assigns**: it is `f`. -/
theorem Good.assign (h : s.Good f) (hc : s.currentFiber = some (.handler v))
    (hs : s.stage (.handler v) = .ended ∨ s.stage (.handler v) = .woken ∧ s.display ≠ none) :
    (s.assign v).schedule.Good (!f) ∧ Effect s f (s.assign v).schedule (!f) [] := by
  obtain rfl : v = f := scrolled_first h.inv hc hs
  have ha : s.stage (.handler v) ≠ .away := by
    rcases hs with hs | ⟨hs, -⟩ <;> simp [hs]
  have hp := pending_assign ha
  obtain ⟨hconn, hbus, hlink⟩ := s.assign_frame v
  have hpv : s.pending v = (s.assign v).pending v + 1 := by simpa using hp v
  have hpg : s.pending (!v) = (s.assign v).pending !v := by simpa using hp !v
  have hshare : ∃ m, Alternates m s.bus s.link ∧
      (m = v ∧ s.pending (!v) = (s.assign v).pending v ∨
        m = (!v) ∧ s.pending (!v) = (s.assign v).pending v + 1) := by
    obtain ⟨m, hm, ⟨rfl, hpf⟩ | ⟨rfl, hpf⟩⟩ := h.events
    · exact ⟨_, hm, .inr ⟨rfl, by omega⟩⟩
    · exact ⟨_, hm, .inl ⟨rfl, by omega⟩⟩
  refine ⟨⟨h.assign_inv hc hs ha, ?_, fun u hu hau => ?_, ?_⟩, .done hlink ?_⟩
  · rw [Bool.not_not]
    exact hconn
  · rcases (s.assign_away u v).mp hau with ⟨rfl, hq⟩ | ⟨huv, hg⟩
    · exact hu ((s.assign_queued u u).trans (by rw [if_pos rfl, hq]))
    · exact h.busy u (fun hz => hu ((s.assign_queued u v).trans (by rw [if_neg huv, hz]))) hg
  · obtain ⟨m, hm, hshare⟩ := hshare
    refine ⟨m, ?_, ?_⟩
    · show Alternates m (s.assign v).bus (s.assign v).link
      rwa [hbus, hlink]
    · show m = (!!v) ∧ (s.assign v).pending (!v) = (s.assign v).pending (!!v) ∨
        m = (!v) ∧ (s.assign v).pending (!v) = (s.assign v).pending (!!v) + 1
      rwa [Bool.not_not, ← hpg]
  · rw [outstanding_eq v, outstanding_eq v]
    show _ = (s.assign v).pending v + (s.assign v).pending (!v) + (s.assign v).bus.length + 1
    rw [hbus, hpv, hpg]
    omega

/-- **The step lemma.** -/
theorem good_step (h : s.Good f) (hs : s.Step s' ev) :
    ∃ f', s'.Good f' ∧ Effect s f s' f' ev := by
  cases hs with
  | link =>
      refine ⟨f, ⟨h.inv.congr rfl rfl rfl rfl rfl rfl, h.connected, h.busy, ?_⟩, .link rfl ?_⟩
      · obtain ⟨m, hm, hshare⟩ := h.events
        exact ⟨m, hm.snoc, hshare⟩
      · rw [outstanding, outstanding, List.length_append]
        rfl
  | wake ha =>
      refine ⟨f, h.keep (h.inv.wake ha) (fun v => ?_) rfl rfl rfl rfl⟩
      rw [queueFiber_stage, if_neg (by simp)]
  | @finish x hd hb =>
      obtain ⟨hq, hc, hbus, hl⟩ := s.finish_frame x
      exact ⟨f, h.keep (h.inv.finish hd hb) (finish_away h.inv.queues hd) hq hc hbus hl⟩
  | deliver hc hb => exact ⟨f, h.deliver hc hb⟩
  | switch hc hr => exact ⟨f, h.keep (h.inv.switch hc hr) (fun _ => Iff.rfl) rfl rfl rfl rfl⟩
  | @call v hc hst => exact ⟨f, h.scroll hc (.inl hst)⟩
  | @take x hc hst hd =>
      rw [← scroll_free hd]
      exact ⟨f, h.scroll hc (.inr ⟨hst, hd⟩)⟩
  | @proceed x hc hst =>
      cases x with
      | main => exact ⟨f, h.main_leave hc (by grind)⟩
      | handler v => exact ⟨!f, h.assign hc hst⟩
  | sleep hc hst => exact ⟨f, h.main_leave hc (by simp [hst])⟩
  | yield hc hst => exact ⟨f, h.keep (h.inv.yield hc hst) (fun _ => Iff.rfl) rfl rfl rfl rfl⟩
  | scroll hc hst => exact ⟨f, h.scroll hc (.inl hst)⟩

/-! ## 4. Runs -/

variable {tr : List Bool}

/-- **The run lemma.** -/
theorem good_run (h : fibers.Run s tr) : (∃ f, s.Good f) ∧ Alternates false tr s.link := by
  refine Machine.Run.inv (I := fun s tr => (∃ f, s.Good f) ∧ Alternates false tr s.link)
    ⟨⟨true, good_init⟩, alternates_nil.mpr rfl⟩ ?_ h
  rintro s tr a s' ev - ⟨⟨f, hg⟩, htr⟩ hs
  obtain ⟨f', hg', he⟩ := good_step hg (step_cases hs)
  refine ⟨⟨f', hg'⟩, ?_⟩
  cases he with
  | none hl => rwa [List.append_nil, hl]
  | link hl =>
      rw [hl]
      exact htr.snoc
  | done hl => rwa [List.append_nil, hl]

theorem Good.settled (h : s.Good f) (hs : s.Settled) : s.connected = s.link := by
  obtain ⟨hbus, haway⟩ := hs
  have hzero := fun v => (pending_eq_zero h).mpr (haway v).1
  obtain ⟨m, hm, ⟨rfl, -⟩ | ⟨-, hp⟩⟩ := h.events
  · rw [hbus, alternates_nil] at hm
    rw [h.connected, hm]
  · rw [hzero, hzero] at hp
    cases hp

end Fibers

open Fibers

variable {s s' : Fibers} {f : Bool} {tr ev : List Bool} {b : Board}

/-- **The connected flag follows the link**: in every run of the fibers, whatever the order in
    which the link, the display and the scheduler go on, once no handler is running or queued
    `connected` is set if and only if the last event was a connect. -/
theorem flag_follows_link (h : fibers.Run s tr) (hs : s.Settled) :
    s.connected = true ↔ tr.getLast? = some true := by
  obtain ⟨⟨f, hg⟩, -, hlast⟩ := good_run h
  rw [hg.settled hs, ← hlast, List.getLastD_eq_getLast?]
  cases tr.getLast? <;> simp

/-- Three events while main scrolls: the second connect waits in its listener's queue, and its
    callback has to wait for the display behind that of the disconnect. -/
theorem flag_follows_link_run :
    ∃ s, fibers.Run s [true, false, true] ∧ s.Settled ∧ s.connected = true := by
  obtain ⟨s, tr, hrun, hs, rfl⟩ :=
    Machine.exists_run_of_exec fibers (fun s tr => s.Settled ∧ tr = [true, false, true])
      [.scroll, .link, .deliver, .link, .deliver, .link, .deliver, .finish, .resume, .resume,
        .resume, .finish, .resume, .resume, .resume, .resume, .finish, .resume, .resume, .resume,
        .finish, .resume, .resume] (by decide)
  exact ⟨s, hrun, hs, (flag_follows_link hrun hs).mpr rfl⟩

/-! ## 5. The board allows it -/

/-- The link goes up, or down. -/
def Event.connects : Event → Option Bool
  | .linkUp _ => some true
  | .linkDown _ => some false
  | _ => none

/-- A handler assigns. -/
def Event.assigns : Event → Option Bool
  | .handled v => some v
  | _ => none

/-- The board and the fibers: its handlers are the events not yet done. -/
structure Matches (s : Fibers) (f : Bool) (b : Board) : Prop where
  connected : b.connected = s.connected
  up : b.link.up = s.link
  handlers : Alternates (!f) b.handlers s.link
  length : b.handlers.length = s.outstanding

/-- The event of the link comes behind those not yet done. -/
theorem board_link (hp : b.pc.halted = false) :
    ∃ a l e, firmware.step b a =
        some ({ b with link := l, handlers := b.handlers ++ [!b.link.up] }, [e]) ∧
      l.up = (!b.link.up) ∧ e.connects = some (!b.link.up) ∧ e.assigns = none := by
  cases hu : b.link.up with
  | true =>
      refine ⟨.disconnect true, { b.link with up := false, updates := false },
        .linkDown b.link.conn, ?_, rfl, rfl, rfl⟩
      simp [firmware, Board.step, hp, hu]
  | false =>
      refine ⟨.connect true, { b.link with conn := b.link.conn + 1, up := true },
        .linkUp (b.link.conn + 1), ?_, rfl, rfl, rfl⟩
      simp [firmware, Board.step, hp, hu]

/-- The first handler finishes. -/
theorem board_handler {v : Bool} {l : List Bool} (hp : b.pc.halted = false)
    (hpc : b.pc.descheduled = true) (hb : b.handlers = v :: l) :
    firmware.step b (.handler 0) =
      some ({ b with connected := v, handlers := l }, [.handled v]) := by
  simp [firmware, Board.step, hp, hpc, hb]

/-- **A step of the fibers on the board**: nothing, or the link goes up or down, or the first
    handler finishes. Main may be in any of its sleeps and waits and stays there. -/
theorem board_step (h : s.Good f) (hm : Matches s f b) (hpc : b.pc.descheduled = true)
    (hs : s.Step s' ev) :
    ∃ f' b' as evs, s'.Good f' ∧ Matches s' f' b' ∧ firmware.exec b as = some (b', evs) ∧
      b'.pc = b.pc ∧ evs.filterMap Event.connects = ev ∧
      evs.filterMap Event.assigns ++ b'.handlers = b.handlers ++ ev := by
  have hp : b.pc.halted = false := by
    cases h : b.pc <;> first | rfl | (rw [h] at hpc; cases hpc)
  obtain ⟨hconn, hup, hhand, hlen⟩ := hm
  obtain ⟨f', hg, he⟩ := good_step h hs
  cases he with
  | none hl hn =>
      refine ⟨f, b, [], [], hg, ⟨?_, ?_, ?_, ?_⟩, rfl, rfl, rfl, (List.append_nil _).symm⟩
      · rw [hconn, h.connected, hg.connected]
      · rw [hl, hup]
      · rwa [hl]
      · rw [hn, hlen]
  | link hl hn =>
      obtain ⟨a, l, e, hstep, hlup, hc, ha⟩ := board_link hp
      rw [hup] at hstep hlup hc
      refine ⟨f, _, [a], [e], hg, ⟨?_, ?_, ?_, ?_⟩, Machine.exec_singleton hstep, rfl, ?_, ?_⟩
      · show b.connected = s'.connected
        rw [hconn, h.connected, hg.connected]
      · show l.up = s'.link
        rw [hl, hlup]
      · rw [hl]
        exact hhand.snoc
      · rw [hn, ← hlen]
        exact List.length_append
      · rw [List.filterMap_cons_some hc, List.filterMap_nil]
      · rw [List.filterMap_cons_none ha, List.filterMap_nil, List.nil_append]
  | done hl hn =>
      cases hb : b.handlers with
      | nil =>
          rw [hb, hn] at hlen
          cases hlen
      | cons x l =>
          rw [hb] at hhand hlen
          obtain ⟨hx, hhand⟩ := alternates_cons.mp hhand
          rw [Bool.not_not] at hx
          subst hx
          refine ⟨!x, _, [.handler 0], [.handled x], hg, ⟨?_, ?_, ?_, ?_⟩,
            Machine.exec_singleton (board_handler hp hpc hb), rfl, rfl, (List.append_nil _).symm⟩
          · rw [hg.connected, Bool.not_not]
          · rw [hl, ← hup]
          · rwa [Bool.not_not, hl]
          · exact Nat.succ.inj (hlen.trans hn)

/-- **The handlers finish in the order of their events**: every run of the fibers is one of the
    firmware in which the handlers assign what the events say, one after the other. -/
theorem board_run (h : fibers.Run s tr) :
    ∃ f b evs, s.Good f ∧ Matches s f b ∧ firmware.Run b evs ∧ b.pc = .scroll ∧
      evs.filterMap Event.connects = tr ∧ evs.filterMap Event.assigns ++ b.handlers = tr := by
  refine Machine.Run.inv (I := fun s tr => ∃ f b evs, s.Good f ∧ Matches s f b ∧
    firmware.Run b evs ∧ b.pc = .scroll ∧ evs.filterMap Event.connects = tr ∧
      evs.filterMap Event.assigns ++ b.handlers = tr) ?_ ?_ h
  · exact ⟨true, _, [], good_init, ⟨rfl, rfl, alternates_nil.mpr rfl, rfl⟩, .start, rfl, rfl, rfl⟩
  · rintro s tr a s' ev - ⟨f, b, evs, hg, hm, hrun, hpc, rfl, hassign⟩ hs
    obtain ⟨f', b', as, evs', hg', hm', he, hpc', rfl, hassign'⟩ :=
      board_step hg hm (by rw [hpc]; rfl) (step_cases hs)
    refine ⟨f', b', evs ++ evs', hg', hm', hrun.exec he, hpc'.trans hpc, List.filterMap_append, ?_⟩
    rw [List.filterMap_append, List.append_assoc, hassign', ← List.append_assoc, hassign]

end MicrobitAlarm
