/-
  File:      MicrobitAlarm/Properties/Scheduler.lean
  Subject:   WHAT FIBERS CAN RELY ON, whatever interrupts come, and wherever they come.

  * `fibers_conserved` -- no fiber is lost, and none is in two places;
  * `wakes_exactly` -- a walk along the sleep queue or the wait queue wakes who is due, and nobody
    else;
  * `no_starvation` -- a fiber on the run queue is given the processor after a bounded number of
    turns.

  The first holds for interrupts that are nested in any way; the others, where a walk is not
  interrupted by one along the same queue.
-/
import MicrobitAlarm.Runs.Turns

namespace MicrobitAlarm.Scheduler

open Trace LinkedQueue
open MessageBus (MicroBitEvent evtAny)

variable {s s' : State} {tr ev : List Event} {f : Nat}

/-! ## 1. No fiber is lost -/

/-- All places where a fiber can be: the queues, the hands of the current code, those of the open
    walks. -/
def State.places (s : State) (h : History) (held : List Nat) : List Nat :=
  h.queue .runQueue ++ (h.queue .sleepQueue ++ (h.queue .waitQueue ++ (h.queue .fiberPool ++
    (held ++ movedOf s.walks))))

theorem places_nodup {h : History} {held : List Nat} (hwhole : Whole s h.queue held) :
    (s.places h held).Nodup := by
  have happend : ∀ q rest, rest.Nodup → (∀ x ∈ rest, s.links.queue x ≠ some q) →
      (h.queue q ++ rest).Nodup := by
    intro q rest hrest hnot
    refine List.nodup_append.mpr ⟨hwhole.holds.nodup q, hrest, fun x hx y hy e => ?_⟩
    exact hnot y hy (e ▸ hwhole.holds.queue_eq.mpr hx)
  have hqueue : ∀ q q', q ≠ q' → ∀ x ∈ h.queue q, s.links.queue x ≠ some q' := by
    intro q q' hne x hx e
    exact hne (hwhole.holds.disjoint hx (hwhole.holds.queue_eq.mp e))
  have hfree : ∀ q, ∀ x ∈ held ++ movedOf s.walks, s.links.queue x ≠ some q := by
    intro q x hx e
    rw [(hwhole.free x hx).1] at e
    cases e
  have hor : ∀ (a b : List Nat) q, (∀ x ∈ a, s.links.queue x ≠ some q) →
      (∀ x ∈ b, s.links.queue x ≠ some q) → ∀ x ∈ a ++ b, s.links.queue x ≠ some q := by
    intro a b q ha hb x hx
    exact (List.mem_append.mp hx).elim (ha x) (hb x)
  have hpool := happend .fiberPool _ hwhole.distinct (hfree _)
  have hwait := happend .waitQueue _ hpool (hor _ _ _ (hqueue _ _ (by rintro ⟨⟩)) (hfree _))
  have hsleep := happend .sleepQueue _ hwait (hor _ _ _ (hqueue _ _ (by rintro ⟨⟩))
    (hor _ _ _ (hqueue _ _ (by rintro ⟨⟩)) (hfree _)))
  exact happend .runQueue _ hsleep (hor _ _ _ (hqueue _ _ (by rintro ⟨⟩))
    (hor _ _ _ (hqueue _ _ (by rintro ⟨⟩)) (hor _ _ _ (hqueue _ _ (by rintro ⟨⟩)) (hfree _))))

theorem mem_places {h : History} {held : List Nat} (hwhole : Whole s h.queue held) :
    f ∈ s.places h held ↔ s.Fiber f := by
  have hmem : f ∈ s.places h held ↔ (∃ q, f ∈ h.queue q) ∨ f ∈ held ++ movedOf s.walks := by
    unfold State.places
    simp only [List.mem_append]
    constructor
    · rintro (h | h | h | h | h)
      · exact .inl ⟨_, h⟩
      · exact .inl ⟨_, h⟩
      · exact .inl ⟨_, h⟩
      · exact .inl ⟨_, h⟩
      · exact .inr h
    · rintro (⟨q, h⟩ | h)
      · cases q with
        | runQueue => exact .inl h
        | sleepQueue => exact .inr (.inl h)
        | waitQueue => exact .inr (.inr (.inl h))
        | fiberPool => exact .inr (.inr (.inr (.inl h)))
      · exact .inr (.inr (.inr (.inr h)))
  rw [hmem]
  constructor
  · rintro (⟨q, hf⟩ | hf)
    · exact hwhole.bound q f hf
    · exact (hwhole.free f hf).2
  · intro hf
    cases hq : s.links.queue f with
    | none => exact .inr (hwhole.lost f hf hq)
    | some q => exact .inl ⟨q, hwhole.holds.queue_eq.mp hq⟩

/-- **No fiber is lost, and none is in two places.** The links hold the four queues as the history
    of `queue_fiber` and `dequeue_fiber` says; every fiber but the idle one is on exactly one of
    them, or in the hands of the code that is about to queue it, or in those of one of the walks. -/
theorem fibers_conserved {nested : Bool} (hrun : (machine nested).Run s tr) :
    ∃ held, Holds s.links (history tr).queue ∧
      (∀ f ∈ held, ∃ q, .queue f q ∈ s.code s.currentFiber) ∧
      (s.places (history tr) held).Perm ((List.range s.created).erase s.idleFiber) := by
  obtain ⟨held, hwhole⟩ := whole_run hrun
  refine ⟨held, hwhole.holds, fun f hf => hwhole.code.queued hf, ?_⟩
  have hrange := List.nodup_range (n := s.created)
  refine (List.perm_ext_iff_of_nodup (places_nodup hwhole) (hrange.erase _)).mpr fun f => ?_
  rw [mem_places hwhole, hrange.mem_erase_iff, List.mem_range]
  exact and_comm

/-- A fiber is created, and the first one goes to sleep; it is in the hands of its own code when the
    timer interrupts it, and in none of the queues. -/
theorem fibers_conserved_run : ∃ s tr, (machine true).Run s tr ∧
    s.walks ≠ [] ∧ (history tr).queue .runQueue = [2] ∧ (history tr).queue .sleepQueue = [] ∧
    ∃ held, (s.places (history tr) held).Perm ((List.range s.created).erase s.idleFiber) := by
  obtain ⟨s, tr, hrun, hw, hrunning, hsleeping⟩ := (machine true).exists_run_of_exec
    (fun s tr => s.walks ≠ [] ∧ (history tr).queue .runQueue = [2] ∧
      (history tr).queue .sleepQueue = [])
    [.call .createFiber, .run, .call (.sleep 10), .run, .run, .tick] (by decide)
  obtain ⟨held, _, _, hplaces⟩ := fibers_conserved hrun
  exact ⟨s, tr, hrun, hw, hrunning, hsleeping, held, hplaces⟩

/-! ## 2. Who is woken -/

/-- **Whom a walk of this kind has to wake** of those it began with: the tick those whose time has
    come before it began, and at most those whose time has come by now; an event those that wait
    for it, but of those that wait on the channel `MICROBIT_ID_NOTIFY`, when it comes on
    `MICROBIT_ID_NOTIFY_ONE`, the first one. -/
def State.Due (s : State) (since : Nat) (begun woken : List Nat) : Kind → Prop
  | .tick =>
    (∀ f ∈ begun, s.context f ≤ since → f ∈ woken) ∧ ∀ f ∈ woken, s.context f ≤ s.now
  | .event evt =>
    (woken.filter fun f => s.waitsForOne f evt) =
        (begun.filter fun f => s.waitsForOne f evt).take 1 ∧
      (woken.filter fun f => !s.waitsForOne f evt) =
        begun.filter fun f => !s.waitsForOne f evt && s.waitsFor f evt

theorem perform_ended {op : Op} {kind : Kind} (hs : s.perform op = some (s', ev)) :
    .ended kind ∉ ev := by
  intro hmem
  cases op with
  | schedule =>
      simp only [State.perform, State.schedule] at hs
      split at hs
      case isTrue =>
        obtain ⟨f, _, he⟩ := Option.map_eq_some_iff.mp hs
        cases he
        cases List.mem_singleton.mp hmem
      case isFalse =>
        cases hs
        cases List.mem_singleton.mp hmem
  | _ =>
      cases hs
      simp at hmem

/-- Only a walk ends, and only at the end of its queue. -/
theorem ended_cases {nested : Bool} {a : Action} {kind : Kind}
    (hs : step nested s a = some (s', ev)) (hend : .ended kind ∈ ev) :
    ∃ w ws, s.walks = w :: ws ∧ w.kind = kind ∧ w.place = .loop none ∧
      s' = { s with walks := ws } ∧ ev = [.ended kind] := by
  cases a with
  | call c =>
      obtain ⟨_, hs⟩ := Option.ite_none_right_eq_some.mp hs
      obtain ⟨s₁, _, he⟩ := Option.map_eq_some_iff.mp hs
      cases he
      cases hend
  | run =>
      obtain ⟨_, hs⟩ := Option.ite_none_right_eq_some.mp hs
      unfold State.run at hs
      split at hs
      · cases hs
      · exact absurd hend (perform_ended hs)
  | pass dt =>
      cases hs
      cases hend
  | tick =>
      obtain ⟨_, he⟩ := Option.ite_none_right_eq_some.mp hs
      cases he
      cases List.mem_singleton.mp hend
  | event evt =>
      obtain ⟨_, he⟩ := Option.ite_none_right_eq_some.mp hs
      cases he
      cases List.mem_singleton.mp hend
  | walk =>
      have hs : s.walk = some (s', ev) := hs
      unfold State.walk at hs
      split at hs
      case h_1 => cases hs
      case h_2 w ws hw =>
        refine ⟨w, ws, hw, ?_⟩
        unfold State.goesOn at hs
        cases hplace : w.place with
        | loop o =>
            rw [hplace] at hs
            cases o with
            | none =>
                cases hs
                obtain rfl := Event.ended.inj (List.mem_singleton.mp hend)
                exact ⟨rfl, rfl, rfl, rfl⟩
            | some f =>
                cases hs
                cases hend
        | found f t =>
            rw [hplace] at hs
            simp only at hs
            split at hs <;> cases hs <;> simp at hend
        | moved f t =>
            rw [hplace] at hs
            cases hs
            simp at hend

/-- **A walk wakes exactly who is due.** When it ends, it has woken some of those it began with, in
    this order and each of them once, who are due; the others are on the queue as before. -/
theorem wakes_exactly (hrun : (machine false).Run s tr) {a : Action} {kind : Kind}
    (hs : step false s a = some (s', ev)) (hend : .ended kind ∈ ev) :
    let h := history (tr ++ ev)
    let q := kind.queue
    (h.woken q).Sublist (h.begun q) ∧ (h.begun q).Nodup ∧
      h.queue q = (h.begun q).filter (fun f => f ∉ h.woken q) ∧
      s'.Due (h.since q) (h.begun q) (h.woken q) kind := by
  obtain ⟨w, ws, hw, rfl, hplace, rfl, rfl⟩ := ended_cases hs hend
  obtain ⟨time, visited, rest, hok⟩ := (walks_run hrun).each w (hw ▸ List.mem_cons_self)
  have hat := hok.place
  rw [hplace] at hat
  obtain ⟨hnil, hwoken⟩ := hat
  obtain rfl : rest = [] := List.head?_eq_none_iff.mp hnil.symm
  have hbegun := hok.begun
  have hdistinct := hok.distinct
  have hqueue := hok.queue
  rw [List.append_nil] at hbegun hdistinct hqueue
  have hsame : history (tr ++ [.ended w.kind]) = history tr := history_append ..
  have hdue : State.Due { s with walks := ws } ((history tr).since w.kind.queue) visited
      (s.visits w.kind time visited).1 w.kind := by
    cases hkind : w.kind with
    | tick =>
        have htimes := hok.times
        rw [hkind] at htimes
        rw [visits_tick]
        refine ⟨fun f hf hle => List.mem_filter.mpr ⟨hf, ?_⟩, fun f hf => ?_⟩
        · exact decide_eq_true (Nat.le_trans hle (htimes f).1)
        · exact Nat.le_trans (of_decide_eq_true (List.mem_filter.mp hf).2) (htimes f).2
    | event evt => exact visits_event s time visited
  dsimp only
  rw [hsame, hbegun, hwoken]
  exact ⟨visits_sublist s w.kind time visited, hdistinct, hqueue, hdue⟩

/-- Two fibers wait on the channel, and an event comes on `MICROBIT_ID_NOTIFY_ONE`; its walk is
    interrupted by the timer. -/
def notified : List Action :=
  [.call .createFiber, .run, .call (.waitForEvent idNotify evtAny), .run, .run, .run, .run,
    .call (.waitForEvent idNotify 7), .run, .run, .run, .run, .event ⟨idNotifyOne, 7⟩, .walk, .walk,
    .tick, .walk, .walk, .walk, .walk]

/-- The first one is woken, the second one waits on. -/
theorem wakes_exactly_run : ∃ s tr, (machine false).Run s tr ∧
    (history tr).begun .waitQueue = [0, 2] ∧ (history tr).woken .waitQueue = [0] ∧
    (history tr).queue .waitQueue = [2] := by
  obtain ⟨s, tr, hrun, hs, hbegun, hwoken⟩ := (machine false).exists_run_of_exec
    (fun s tr => (step false s .walk).any (fun r => r.2 = [.ended (.event ⟨idNotifyOne, 7⟩)]) ∧
      (history tr).begun .waitQueue = [0, 2] ∧ (history tr).woken .waitQueue = [0])
    notified (by decide)
  obtain ⟨⟨s', ev⟩, hs, hev⟩ := Option.any_eq_true .. |>.mp hs
  obtain rfl : ev = _ := of_decide_eq_true hev
  have hqueue := (wakes_exactly hrun hs (List.mem_singleton_self _)).2.2.1
  have hsame : history (tr ++ [.ended (.event ⟨idNotifyOne, 7⟩)]) = history tr :=
    history_append ..
  rw [hsame] at hqueue
  refine ⟨s, tr, hrun, hbegun, hwoken, hqueue.trans ?_⟩
  show ((history tr).begun .waitQueue).filter (fun f => f ∉ (history tr).woken .waitQueue) = [2]
  rw [hbegun, hwoken]
  decide

/-! ## 3. Who waits for the processor -/

/-- **No starvation.** However a run goes on, a fiber on the run queue that is not the current one
    sees the processor go to others no more than `n * n + n` times before it gets it, if so many
    fibers have been created by then; and until it does, it stays on the run queue. -/
theorem no_starvation {y n : Nat} {as : List Action} (hrun : (machine false).Run s tr)
    (hy : y ∈ (history tr).queue .runQueue) (hc : s.currentFiber ≠ y)
    (he : (machine false).exec s as = some (s', ev)) (hno : .scheduled y ∉ ev)
    (hn : s'.created ≤ n) :
    turns ev ≤ n * n + n ∧ y ∈ (history (tr ++ ev)).queue .runQueue := by
  obtain ⟨hy', _, hle⟩ := waits hrun hy hc he hno hn
  obtain ⟨held, hwhole⟩ := whole_run hrun
  have hlen : ((history tr).queue .runQueue).length ≤ n :=
    Nat.le_trans (hwhole.length_le _) (Nat.le_trans (created_le_exec he) hn)
  have hbound := @RoundRobin.patience_le _ _ _ _ s.currentFiber _ hy hlen
  exact ⟨by omega, hy'⟩

/-- Of two new fibers the first one is given the processor, and ends; the turn goes back to the head
    of the run queue before it comes to the second one. -/
def backToHead : List Action := [.call .schedule, .run, .call .release, .run, .run, .run]

theorem no_starvation_run : ∃ s s' tr ev, (machine false).Run s tr ∧
    (machine false).exec s backToHead = some (s', ev) ∧ turns ev = 2 ∧ 2 ≤ 4 * 4 + 4 ∧
    3 ∈ (history (tr ++ ev)).queue .runQueue := by
  obtain ⟨s, tr, hrun, hy, hc, hback⟩ := (machine false).exists_run_of_exec
    (fun s tr => 3 ∈ (history tr).queue .runQueue ∧ s.currentFiber ≠ 3 ∧
      ((machine false).exec s backToHead).any
        (fun r => .scheduled 3 ∉ r.2 ∧ turns r.2 = 2 ∧ r.1.created ≤ 4))
    [.call .createFiber, .run, .call .createFiber, .run] (by decide)
  obtain ⟨⟨s', ev⟩, he, hev⟩ := Option.any_eq_true .. |>.mp hback
  obtain ⟨hno, hturns, hn⟩ := of_decide_eq_true hev
  obtain ⟨hle, hy'⟩ := no_starvation hrun hy hc he hno hn
  exact ⟨s, s', tr, ev, hrun, he, hturns, hturns ▸ hle, hy'⟩

end MicrobitAlarm.Scheduler
