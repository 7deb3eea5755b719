/-
  File:      MicrobitAlarm/Runs/Turns.lean
  Subject:   TURNS OF THE FIBERS: the scheduler does what a round robin does.

  Nobody but the current fiber leaves the run queue. What its code takes out of a queue is itself,
  or a fiber it has just got for a new one, which is on no queue but the pool; and the walks take
  fibers out of the queues they are along.

  * `Plan`, `Plans` -- what the code of the fibers is about;
  * `chosen_eq` -- the fiber `schedule` chooses is the next one;
  * `turn_step` -- a step is one of `RoundRobin.Turn`;
  * `waits` -- from it, how long a fiber waits that is on the run queue.
-/
import MicrobitAlarm.Runs.Walks
import MicrobitAlarm.Lib.RoundRobin

namespace MicrobitAlarm.Scheduler

open Trace Function LinkedQueue
open RoundRobin (next following following_append next_of_notMem patience Turn)

variable {s s' : State} {h : History} {qs : Queue → List Nat} {held : List Nat} {f g : Nat}
  {ops : List Op} {ev : List Event} {a : Action}

/-! ## 1. What the code is about -/

/-- A spare fiber is on no queue but the pool, and no walk holds it. -/
def State.Spare (s : State) (f : Nat) : Prop :=
  (∀ q, s.links.queue f = some q → q = .fiberPool) ∧ f ∉ movedOf s.walks

/-- The code goes on in the forked fiber. -/
def State.Forks (s : State) (ops : List Op) : Prop :=
  ∃ f behind, ops = .schedule :: behind ∧ s.fob s.currentFiber = true ∧
    s.forkedFiber = some f ∧ About f behind

/-- Operations that get a fiber, until it is queued. -/
def Taking (f : Nat) (ops : List Op) : Prop :=
  ∀ op ∈ ops, op = .dequeue f ∨ ∃ t, op = .sleepUntil f t

/-- **The code of the current fiber** is about itself, or about a spare fiber until it has queued
    it, or is about to fork. -/
inductive Plan (s : State) : List Op → Prop where
  | own {ops : List Op} (h : About s.currentFiber ops)
      (hfob : .schedule ∈ ops → s.fob s.currentFiber = false) : Plan s ops
  | other {f : Nat} {q : Queue} {taking behind : List Op} (hspare : s.Spare f)
      (htaking : Taking f taking) (hbehind : behind = [] ∨ s.Forks behind) :
      Plan s (taking ++ .queue f q :: behind)
  | forks {ops : List Op} (h : s.Forks ops) : Plan s ops

/-- The code of a fiber that is not current is about itself. -/
structure Plans (s : State) : Prop where
  waiting : ∀ f, f ≠ s.currentFiber → s.fob f = false ∧ About f (s.code f)
  current : Plan s (s.code s.currentFiber)

theorem Plan.nil : Plan s [] := .own (about_nil _) (by rintro ⟨⟩)

theorem About.tail {op : Op} (h : About f (op :: ops)) : About f ops :=
  fun o ho => h o (List.mem_cons_of_mem _ ho)

theorem Taking.about {taking behind : List Op} {q : Queue} (h : Taking f taking)
    (hbehind : About f behind) : About f (taking ++ .queue f q :: behind) := by
  intro op hop x hx
  rcases List.mem_append.mp hop with hop | hop
  · rcases h op hop with rfl | ⟨t, rfl⟩ <;> exact (Option.some.inj hx).symm
  · exact about_cons (.inr rfl) hbehind op hop x hx

/-- Nothing changes for the code, and no spare fiber is used. -/
structure Alike (s s' : State) : Prop where
  code : s'.code = s.code
  fob : s'.fob = s.fob
  current : s'.currentFiber = s.currentFiber
  forked : s'.forkedFiber = s.forkedFiber
  spare : ∀ f, s.Spare f → s'.Spare f

theorem Plan.frame (h : Plan s ops) (hsame : Alike s s') : Plan s' ops := by
  have hforks : ∀ ops, s.Forks ops → s'.Forks ops := by
    rintro ops ⟨f, behind, hops, hc, hf, habout⟩
    refine ⟨f, behind, hops, ?_, hsame.forked.trans hf, habout⟩
    rw [hsame.fob, hsame.current]
    exact hc
  cases h with
  | own habout hc =>
      refine .own ?_ fun hmem => ?_
      · rw [hsame.current]
        exact habout
      · rw [hsame.fob, hsame.current]
        exact hc hmem
  | other hs htaking hbehind =>
      exact .other (hsame.spare _ hs) htaking (hbehind.imp_right (hforks _))
  | forks hf => exact .forks (hforks _ hf)

theorem Plans.frame (h : Plans s) (hsame : Alike s s') : Plans s' := by
  refine ⟨fun f hf => ?_, ?_⟩
  · rw [hsame.fob, hsame.code]
    exact h.waiting f (hsame.current ▸ hf)
  · rw [hsame.code, hsame.current]
    exact h.current.frame hsame

/-- The current fiber has other operations left. -/
theorem Plans.goesOn (h : Plans s) (hcode : s'.code = update s.code s.currentFiber ops)
    (hfob : s'.fob = s.fob) (hcurrent : s'.currentFiber = s.currentFiber) (hplan : Plan s' ops) :
    Plans s' := by
  refine ⟨fun f hf => ?_, ?_⟩
  · rw [hcurrent] at hf
    rw [hcode, hfob, update_of_ne hf]
    exact h.waiting f hf
  · rw [hcode, hcurrent, update_self]
    exact hplan

/-! ## 2. Calls -/

/-- **`getFiberContext`, and what is done with the fiber**. -/
theorem plans_get (hwhole : Whole s qs held) (hplans : Plans s) (hw : s.walks = [])
    {get : List Op} {s₁ : State} (hget : s.getFiberContext = (f, get, s₁)) {o : Option Nat}
    {q : Queue} {taking behind : List Op} (htaking : Taking f taking)
    (hbehind : behind = [] ∨ ∃ ops, behind = .schedule :: ops ∧ s.fob s.currentFiber = true ∧
      o = some f ∧ About f ops) :
    Plans ({ s₁ with forkedFiber := o }.does (get ++ (taking ++ Op.queue f q :: behind))) := by
  have hmoved : f ∉ movedOf s.walks := by
    rw [hw]
    rintro ⟨⟩
  have habout : About f behind := by
    rcases hbehind with rfl | ⟨ops, rfl, _, _, habout⟩
    · exact about_nil f
    · exact about_cons (.inl rfl) habout
  unfold State.getFiberContext at hget
  split at hget
  case h_1 hhead =>
    cases hget
    have hpool := hwhole.holds.queue_eq.mpr (hwhole.holds.head_mem hhead)
    have htaking' : Taking f (.dequeue f :: taking) := by
      intro op hop
      rcases List.mem_cons.mp hop with rfl | hop
      · exact .inl rfl
      · exact htaking op hop
    refine ⟨fun g hg => ?_, ?_⟩
    · have hg : g ≠ s.currentFiber := hg
      obtain ⟨hfob, hcode⟩ := hplans.waiting g hg
      refine ⟨?_, ?_⟩
      · show update s.fob f false g = false
        rw [update_apply]
        split
        · rfl
        · exact hfob
      · show About g (update (update s.code f []) s.currentFiber _ g)
        rw [update_of_ne hg, update_apply]
        split
        · exact about_nil g
        · exact hcode
    · show Plan _ (update (update s.code f []) s.currentFiber _ s.currentFiber)
      rw [update_self]
      show Plan _ ((.dequeue f :: taking) ++ .queue f q :: behind)
      by_cases hc : f = s.currentFiber
      · refine .own ?_ fun _ => ?_
        · show About s.currentFiber _
          rw [← hc]
          exact htaking'.about habout
        · show update s.fob f false s.currentFiber = false
          rw [hc, update_self]
      · refine .other ⟨fun q hq => ?_, hmoved⟩ htaking' (hbehind.imp_right ?_)
        · exact Option.some.inj (hq.symm.trans hpool)
        · rintro ⟨ops, rfl, hfob, ho, habout⟩
          refine ⟨f, ops, rfl, ?_, ho, habout⟩
          show update s.fob f false s.currentFiber = true
          rw [update_of_ne (Ne.symm hc)]
          exact hfob
  case h_2 hhead =>
    cases hget
    refine hplans.goesOn rfl rfl rfl (.other ⟨fun q hq => ?_, hmoved⟩ htaking (hbehind.imp_right ?_))
    · have hq : s.links.queue s.created = some q := hq
      rw [hwhole.queue_created] at hq
      cases hq
    · rintro ⟨ops, rfl, hfob, ho, habout⟩
      exact ⟨s.created, ops, rfl, hfob, ho, habout⟩

/-- What the current fiber does with itself. -/
theorem plans_own (hplans : Plans s) (h : About s.currentFiber ops)
    (hfob : .schedule ∈ ops → s.fob s.currentFiber = false) : Plans (s.does ops) :=
  hplans.goesOn rfl rfl rfl (.own h hfob)

/-- The flag of the current fiber changes while it has nothing left to do. -/
theorem plans_setFob (hplans : Plans s) (hcode : s.code s.currentFiber = []) (b : Bool) :
    Plans { s with fob := update s.fob s.currentFiber b } := by
  refine ⟨fun f hf => ?_, ?_⟩
  · have hf : f ≠ s.currentFiber := hf
    show update s.fob s.currentFiber b f = false ∧ _
    rw [update_of_ne hf]
    exact hplans.waiting f hf
  · show Plan _ (s.code s.currentFiber)
    rw [hcode]
    exact .nil

theorem plans_sleep (hwhole : Whole s qs held) (hplans : Plans s) (hw : s.walks = []) (t : Nat) :
    Plans (s.sleep t) := by
  unfold State.sleep
  split
  case isTrue hfob =>
    rcases hget : s.getFiberContext with ⟨f, get, s₁⟩
    have htaking : Taking f [.sleepUntil f t, .dequeue f] := by
      intro op hop
      rcases List.mem_cons.mp hop with rfl | hop
      · exact .inr ⟨t, rfl⟩
      · exact .inl (List.mem_singleton.mp hop)
    exact plans_get hwhole hplans hw hget htaking (.inr ⟨[], rfl, hfob, rfl, about_nil f⟩)
  case isFalse hfob =>
    exact plans_own hplans (about_cons (.inr rfl) (about_cons (.inr rfl) (about_cons (.inr rfl)
      (about_cons (.inl rfl) (about_nil _))))) fun _ => Bool.eq_false_iff.mpr hfob

theorem plans_wakeOnEvent (hwhole : Whole s qs held) (hplans : Plans s) (hw : s.walks = [])
    (id value : Nat) {behind : List Op} (hbehind : behind = [] ∨ behind = [.schedule]) :
    Plans (s.wakeOnEvent id value behind) := by
  have habout : ∀ f, About f (State.waitOps f id value ++ behind) := by
    intro f
    refine about_wait f id value ?_
    rcases hbehind with rfl | rfl
    · exact about_nil f
    · exact about_cons (.inl rfl) (about_nil f)
  unfold State.wakeOnEvent
  split
  case isTrue hfob =>
    rcases hget : s.getFiberContext with ⟨f, get, s₁⟩
    have htaking : Taking f [.dequeue f] := fun op hop => .inl (List.mem_singleton.mp hop)
    exact plans_get hwhole hplans hw hget htaking (.inr ⟨_, rfl, hfob, rfl, habout f⟩)
  case isFalse hfob => exact plans_own hplans (habout _) fun _ => Bool.eq_false_iff.mpr hfob

theorem plans_createFiber (hwhole : Whole s qs held) (hplans : Plans s) (hw : s.walks = []) :
    Plans s.createFiber := by
  unfold State.createFiber
  rcases hget : s.getFiberContext with ⟨f, get, s₁⟩
  have htaking : Taking f [] := by
    intro op hop
    cases hop
  exact plans_get (o := s₁.forkedFiber) hwhole hplans hw hget htaking (.inl rfl)

theorem plans_release (hplans : Plans s) (hfob : s.fob s.currentFiber = false) :
    Plans s.release :=
  plans_own hplans (about_cons (.inr rfl) (about_cons (.inr rfl) (about_cons (.inl rfl)
    (about_nil _)))) fun _ => hfob

theorem plans_call (hwhole : Whole s qs held) (hplans : Plans s) (hw : s.walks = [])
    (hcode : s.code s.currentFiber = []) {c : Call} (hs : s.call c = some s') : Plans s' := by
  unfold State.call at hs
  cases c with
  | sleep t =>
      obtain ⟨_, he⟩ := Option.ite_none_left_eq_some.mp hs
      cases he
      exact plans_sleep hwhole hplans hw t
  | wakeOnEvent id value =>
      obtain ⟨_, he⟩ := Option.ite_none_left_eq_some.mp hs
      cases he
      exact plans_wakeOnEvent hwhole hplans hw id value (.inl rfl)
  | waitForEvent id value =>
      obtain ⟨_, he⟩ := Option.ite_none_left_eq_some.mp hs
      cases he
      exact plans_wakeOnEvent hwhole hplans hw id value (.inr rfl)
  | createFiber =>
      cases hs
      exact plans_createFiber hwhole hplans hw
  | release =>
      obtain ⟨hno, he⟩ := Option.ite_none_left_eq_some.mp hs
      cases he
      exact plans_release hplans (Bool.eq_false_iff.mpr (not_or.mp hno).2)
  | schedule =>
      obtain ⟨hfob, he⟩ := Option.ite_none_left_eq_some.mp hs
      cases he
      exact plans_own hplans (about_cons (.inl rfl) (about_nil _)) fun _ =>
        Bool.eq_false_iff.mpr hfob
  | invoke param =>
      cases hs
      unfold State.invoke
      simp only
      split
      · exact plans_createFiber hwhole hplans hw
      · exact plans_setFob hplans hcode true
  | returned =>
      obtain ⟨_, he⟩ := Option.ite_none_right_eq_some.mp hs
      cases he
      unfold State.returned
      simp only
      split
      · exact plans_release (plans_setFob hplans hcode false) (update_self ..)
      · exact plans_setFob hplans hcode false

/-! ## 3. Turns -/

def Event.isTurn : Event → Bool
  | .scheduled _ => true
  | _ => false

/-- How often `schedule` has given the processor to a fiber. -/
def turns (ev : List Event) : Nat := ev.countP Event.isTurn

/-- **The fiber that `schedule` chooses** is the next one on the run queue, or the idle fiber. -/
theorem chosen_eq (hwhole : Whole s qs held) :
    s.chosen = (next (qs .runQueue) (some s.currentFiber)).getD s.idleFiber := by
  have hhead := hwhole.holds.head .runQueue
  unfold State.chosen
  by_cases hc : s.currentFiber ∈ qs .runQueue
  · have hqueue := hwhole.holds.queue_eq.mpr hc
    obtain ⟨a, b, hqs⟩ := List.append_of_mem hc
    have hca : s.currentFiber ∉ a := by
      have hnodup := hwhole.holds.nodup .runQueue
      rw [hqs] at hnodup
      exact fun hmem => (List.nodup_append.mp hnodup).2.2 _ hmem _ List.mem_cons_self rfl
    have hfollowing : following (qs .runQueue) s.currentFiber = s.links.next s.currentFiber := by
      rw [hwhole.holds.next_eq hqs, hqs, following_append hca]
    rw [next, hfollowing, ← hhead]
    cases hh : s.links.head .runQueue with
    | none =>
        rw [hhead, List.head?_eq_none_iff] at hh
        rw [hh] at hc
        cases hc
    | some x =>
        simp only [hqueue, if_true]
        cases s.links.next s.currentFiber <;> rfl
  · have hqueue : s.links.queue s.currentFiber ≠ some .runQueue := fun e =>
      hc (hwhole.holds.queue_eq.mp e)
    rw [next_of_notMem hc, ← hhead]
    cases s.links.head .runQueue with
    | none => rfl
    | some x => exact if_neg hqueue

/-- **What a step does to the run queue**, and to the code. -/
structure TurnOk (s : State) (h : History) (s' : State) (ev : List Event) : Prop where
  plans : Plans s'
  turn : Turn s.idleFiber (h.queue .runQueue) s.currentFiber
    ((ev.foldl History.note h).queue .runQueue) s'.currentFiber (turns ev)
  scheduled : .scheduled s'.currentFiber ∉ ev → turns ev = 0

/-- The code does nothing to the run queue. -/
theorem TurnOk.quiet (hplans : Plans s') (hcurrent : s'.currentFiber = s.currentFiber)
    (hqueue : (ev.foldl History.note h).queue .runQueue = h.queue .runQueue)
    (hturns : turns ev = 0) : TurnOk s h s' ev := by
  refine ⟨hplans, ?_, fun _ => hturns⟩
  rw [hqueue, hcurrent, hturns]
  exact .stays

/-- A fiber that is on no queue is queued. -/
theorem TurnOk.queued (hwhole : Whole s h.queue held) (hplans : Plans s')
    (hcurrent : s'.currentFiber = s.currentFiber) (hf : s.links.queue f = none) (q : Queue) :
    TurnOk s h s' [.queued f q] := by
  refine ⟨hplans, ?_, fun _ => rfl⟩
  rw [hcurrent]
  show Turn _ _ _ (update h.queue q (h.queue q ++ [f]) .runQueue) _ 0
  by_cases hq : q = .runQueue
  · rw [hq, update_self]
    exact .comes f (hwhole.holds.not_mem hf _)
  · rw [update_of_ne (Ne.symm hq)]
    exact .stays

/-- **The current fiber hands over.** -/
theorem turn_schedule (hwhole : Whole s h.queue held) (hplans : Plans s)
    (habout : About s.currentFiber (s.code s.currentFiber))
    (hfob : s.fob s.currentFiber = false) :
    TurnOk s h { s with currentFiber := s.chosen } [.scheduled s.chosen] := by
  have hall : ∀ f, s.fob f = false ∧ About f (s.code f) := by
    intro f
    by_cases hf : f = s.currentFiber
    · rw [hf]
      exact ⟨hfob, habout⟩
    · exact hplans.waiting f hf
  refine ⟨⟨fun f _ => hall f, .own (hall s.chosen).2 fun _ => (hall s.chosen).1⟩, ?_, ?_⟩
  · show Turn _ _ _ (h.queue .runQueue) s.chosen 1
    rw [chosen_eq hwhole]
    exact .hands
  · exact fun hno => absurd (List.mem_singleton_self _) hno

/-- **The current fiber forks**, with this left to do. -/
theorem turn_fork (hplans : Plans s) (habout : About f ops) :
    TurnOk s h ((s.does ops).fork f) [.forked f] := by
  refine .quiet ⟨fun g hg => ?_, ?_⟩ rfl rfl rfl
  · have hg : g ≠ s.currentFiber := hg
    obtain ⟨hfob, hcode⟩ := hplans.waiting g hg
    refine ⟨(update_of_ne hg ..).trans hfob, ?_⟩
    show About g (update (update (update s.code s.currentFiber ops) f
      (update s.code s.currentFiber ops s.currentFiber)) s.currentFiber [] g)
    rw [update_self, update_of_ne hg, update_apply]
    split
    case isTrue hgf =>
      rw [hgf]
      exact habout
    case isFalse =>
      rw [update_of_ne hg]
      exact hcode
  · show Plan _ (update (update (update s.code s.currentFiber ops) f
      (update s.code s.currentFiber ops s.currentFiber)) s.currentFiber [] s.currentFiber)
    rw [update_self]
    exact .nil

/-- A fiber that the code is about to queue is on no queue. -/
theorem Whole.queue_none (hwhole : Whole s h.queue held) (hw : s.walks = []) {q : Queue}
    (hcode : s.code s.currentFiber = .queue f q :: ops) : s.links.queue f = none := by
  have hbalanced := hwhole.code
  rw [hcode] at hbalanced
  exact ((hwhole.held_of_walks hw).2.1 f hbalanced.1).1

/-- The code is about the current fiber itself. -/
theorem turn_own (hwhole : Whole s h.queue held) (hplans : Plans s) (hw : s.walks = []) {op : Op}
    (hcode : s.code s.currentFiber = op :: ops) (habout : About s.currentFiber (op :: ops))
    (hfob : .schedule ∈ op :: ops → s.fob s.currentFiber = false)
    (hs : (s.does ops).perform op = some (s', ev)) : TurnOk s h s' ev := by
  have hleft : ∀ s' : State, s'.code = update s.code s.currentFiber ops → s'.fob = s.fob →
      s'.currentFiber = s.currentFiber → Plans s' := fun s' hc hf hcurrent =>
    hplans.goesOn hc hf hcurrent (.own (hcurrent ▸ habout.tail) fun hmem => by
      rw [hf, hcurrent]
      exact hfob (List.mem_cons_of_mem _ hmem))
  have hmine : ∀ x, op.fiber? = some x → x = s.currentFiber := habout op List.mem_cons_self
  cases op with
  | sleepUntil x t =>
      cases hs
      exact .quiet (hleft _ rfl rfl rfl) rfl rfl rfl
  | waitFor x id value =>
      cases hs
      exact .quiet (hleft _ rfl rfl rfl) rfl rfl rfl
  | dequeue x =>
      cases hs
      obtain rfl := hmine x rfl
      exact ⟨hleft _ rfl rfl rfl, .leaves, fun _ => rfl⟩
  | queue x q =>
      cases hs
      have hnone := hwhole.queue_none hw hcode
      refine .queued hwhole ?_ ?_ hnone q
      · exact hleft _ rfl rfl rfl
      · rfl
  | schedule =>
      have hno := hfob List.mem_cons_self
      have hs : (s.does ops).schedule = some (s', ev) := hs
      have hswitch : (s.does ops).schedule =
          some ({ s.does ops with currentFiber := (s.does ops).chosen },
            [.scheduled (s.does ops).chosen]) := if_neg (Bool.eq_false_iff.mp hno)
      rw [hswitch] at hs
      cases hs
      have hdoes : Whole (s.does ops) h.queue [] := by
        obtain ⟨hnodup, hfree, hlost⟩ := hwhole.held_of_walks hw
        have hbalanced := hwhole.code
        have hops := hwhole.ops s.currentFiber
        rw [hcode] at hbalanced hops
        obtain ⟨rfl, hbalanced⟩ := hbalanced
        exact hwhole.goesOn hw s.context hwhole.holds hwhole.bound hbalanced
          (fun o ho => hops o (List.mem_cons_of_mem _ ho)) hnodup hfree hlost
      have hown : About (s.does ops).currentFiber ((s.does ops).code (s.does ops).currentFiber) := by
        show About s.currentFiber (update s.code s.currentFiber ops s.currentFiber)
        rw [update_self]
        exact habout.tail
      obtain ⟨hp, hturn, hscheduled⟩ := turn_schedule hdoes (hleft _ rfl rfl rfl) hown hno
      exact ⟨hp, hturn, hscheduled⟩

/-- The code gets a fiber. -/
theorem turn_other (hwhole : Whole s h.queue held) (hplans : Plans s) (hw : s.walks = []) {op : Op}
    {q : Queue} {taking behind : List Op} (hcode : s.code s.currentFiber = op :: ops)
    (hops : op :: ops = taking ++ .queue f q :: behind) (hspare : s.Spare f)
    (htaking : Taking f taking) (hbehind : behind = [] ∨ s.Forks behind)
    (hs : (s.does ops).perform op = some (s', ev)) : TurnOk s h s' ev := by
  cases taking with
  | nil =>
      cases hops
      cases hs
      have hnone := hwhole.queue_none hw hcode
      refine .queued hwhole ?_ ?_ hnone q
      · refine hplans.goesOn rfl rfl rfl ?_
        rcases hbehind with rfl | ⟨g, post, rfl, hfob, hforked, habout⟩
        · exact .nil
        · exact .forks ⟨g, post, rfl, hfob, hforked, habout⟩
      · rfl
  | cons o taking =>
      obtain ⟨rfl, rfl⟩ := List.cons.inj hops
      have htail : Taking f taking := fun o ho => htaking o (List.mem_cons_of_mem _ ho)
      have hbehind : ∀ s' : State, s'.fob = s.fob → s'.currentFiber = s.currentFiber →
          s'.forkedFiber = s.forkedFiber → behind = [] ∨ s'.Forks behind := by
        intro s' hf hc ho
        refine hbehind.imp_right ?_
        rintro ⟨g, post, rfl, hfob, hforked, habout⟩
        exact ⟨g, post, rfl, by rw [hf, hc]; exact hfob, ho.trans hforked, habout⟩
      rcases htaking op List.mem_cons_self with rfl | ⟨t, rfl⟩
      · cases hs
        have hnot : f ∉ h.queue .runQueue := fun hmem => by
          have := hspare.1 _ (hwhole.holds.queue_eq.mpr hmem)
          cases this
        refine .quiet (hplans.goesOn rfl rfl rfl ?_) rfl (List.erase_of_not_mem hnot) rfl
        refine .other ⟨fun q hq => ?_, hspare.2⟩ htail (hbehind _ rfl rfl rfl)
        have hqueue : (s.links.unlink f).queue f = some q := hq
        rw [(hwhole.unlink f).2, update_self] at hqueue
        cases hqueue
      · cases hs
        exact .quiet (hplans.goesOn rfl rfl rfl (.other hspare htail (hbehind _ rfl rfl rfl)))
          rfl rfl rfl

/-- **The current fiber goes on with its call.** -/
theorem turn_run (hwhole : Whole s h.queue held) (hplans : Plans s) (hw : s.walks = [])
    (hs : s.run = some (s', ev)) : TurnOk s h s' ev := by
  have hplan := hplans.current
  unfold State.run at hs
  cases hcode : s.code s.currentFiber with
  | nil =>
      rw [hcode] at hs
      cases hs
  | cons op ops =>
      rw [hcode] at hs hplan
      generalize hall : op :: ops = all at hplan
      cases hplan with
      | own habout hfob =>
          subst hall
          exact turn_own hwhole hplans hw hcode habout hfob hs
      | other hspare htaking hbehind =>
          exact turn_other hwhole hplans hw hcode hall hspare htaking hbehind hs
      | forks hforks =>
          obtain ⟨f, behind, rfl, hfob, hforked, habout⟩ := hforks
          cases hall
          have hs : (s.does ops).schedule = some (s', ev) := hs
          have hswitch : (s.does ops).schedule = some ((s.does ops).fork f, [.forked f]) := by
            rw [State.schedule]
            exact (if_pos hfob).trans (congrArg _ hforked)
          rw [hswitch] at hs
          cases hs
          exact turn_fork hplans habout

/-- **The innermost walk goes on**, along another queue. -/
theorem turn_walk (hwhole : Whole s h.queue held) (hwalks : Walks s h) (hplans : Plans s)
    (hs : s.walk = some (s', ev)) : TurnOk s h s' ev := by
  unfold State.walk at hs
  split at hs
  case h_1 => cases hs
  case h_2 w ws hw =>
    have hmoved : movedOf s.walks = w.place.holding ++ movedOf ws := by
      rw [hw, movedOf_cons]
    have hsub : ∀ f, f ∉ movedOf s.walks → f ∉ movedOf ws := fun f hf hmem =>
      hf (hmoved ▸ List.mem_append_right _ hmem)
    unfold State.goesOn at hs
    cases hplace : w.place with
    | loop f =>
        rw [hplace] at hs
        cases f with
        | none =>
            cases hs
            refine .quiet (hplans.frame ⟨rfl, rfl, rfl, rfl, fun f hf => ?_⟩) rfl rfl rfl
            exact ⟨hf.1, hsub f hf.2⟩
        | some f =>
            cases hs
            refine .quiet (hplans.frame ⟨rfl, rfl, rfl, rfl, fun f hf => ?_⟩) rfl rfl rfl
            exact ⟨hf.1, hsub f hf.2⟩
    | found f t =>
        rw [hplace] at hs
        obtain ⟨time, visited, rest, hok⟩ := hwalks.each w (hw ▸ List.mem_cons_self)
        have hf : f ∈ h.queue w.kind.queue := by
          have hat := hok.place
          rw [hplace] at hat
          obtain ⟨fs, rfl, _⟩ := hat
          rw [hok.queue_eq]
          exact List.mem_append_right _ List.mem_cons_self
        simp only at hs
        split at hs
        case isTrue =>
          cases hs
          have hnot : f ∉ h.queue .runQueue := fun hmem =>
            queue_ne_runQueue w.kind (hwhole.holds.disjoint hf hmem)
          refine .quiet (hplans.frame ⟨rfl, rfl, rfl, rfl, fun g hg => ?_⟩) rfl
            (List.erase_of_not_mem hnot) rfl
          have hgf : g ≠ f := by
            rintro rfl
            have := hg.1 _ (hwhole.holds.queue_eq.mpr hf)
            cases hkind : w.kind <;> rw [hkind] at this <;> cases this
          refine ⟨fun q hq => hg.1 q ?_, fun hmem => ?_⟩
          · have hq : (s.links.unlink f).queue g = some q := hq
            rwa [(hwhole.unlink f).2, update_of_ne hgf] at hq
          · rcases List.mem_cons.mp hmem with e | hmem
            · exact hgf e
            · exact hsub g hg.2 hmem
        case isFalse =>
          cases hs
          refine .quiet (hplans.frame ⟨rfl, rfl, rfl, rfl, fun f hf => ?_⟩) rfl rfl rfl
          exact ⟨hf.1, hsub f hf.2⟩
    | moved f t =>
        rw [hplace] at hs hmoved
        cases hs
        have hf : f ∈ movedOf s.walks := by
          rw [hmoved]
          exact List.mem_cons_self
        have hnone := (hwhole.free f (List.mem_append_right _ hf)).1
        have hplans' : Plans { s with links := s.links.append s.created f .runQueue,
                                      walks := { w with place := .loop t } :: ws } := by
          refine hplans.frame ⟨rfl, rfl, rfl, rfl, fun g hg => ⟨fun q hq => hg.1 q ?_, ?_⟩⟩
          · have hgf : g ≠ f := fun e => hg.2 (e ▸ hf)
            have hq : (s.links.append s.created f .runQueue).queue g = some q := hq
            rwa [append_queue, update_of_ne hgf] at hq
          · exact hsub g hg.2
        obtain ⟨_, hturn, _⟩ : TurnOk s h _ [.queued f .runQueue] :=
          .queued hwhole hplans' rfl hnone .runQueue
        exact ⟨hplans', hturn, fun _ => rfl⟩

/-- **A step is a turn of the round robin.** -/
theorem turn_step (hwhole : Whole s h.queue held) (hwalks : Walks s h) (hplans : Plans s)
    (hs : step false s a = some (s', ev)) : TurnOk s h s' ev := by
  cases a with
  | call c =>
      obtain ⟨hquiet, hs⟩ := Option.ite_none_right_eq_some.mp hs
      obtain ⟨s₁, hcall, he⟩ := Option.map_eq_some_iff.mp hs
      cases he
      exact .quiet (plans_call hwhole hplans hquiet.1 hquiet.2 hcall) (frame_call hcall).current
        rfl rfl
  | run =>
      obtain ⟨hw, hs⟩ := Option.ite_none_right_eq_some.mp hs
      exact turn_run hwhole hplans hw hs
  | pass dt =>
      cases hs
      exact .quiet (hplans.frame ⟨rfl, rfl, rfl, rfl, fun f hf => hf⟩) rfl rfl rfl
  | tick =>
      obtain ⟨_, he⟩ := Option.ite_none_right_eq_some.mp hs
      cases he
      exact .quiet (hplans.frame ⟨rfl, rfl, rfl, rfl, fun f hf => hf⟩) rfl rfl rfl
  | event evt =>
      obtain ⟨_, he⟩ := Option.ite_none_right_eq_some.mp hs
      cases he
      exact .quiet (hplans.frame ⟨rfl, rfl, rfl, rfl, fun f hf => hf⟩) rfl rfl rfl
  | walk => exact turn_walk hwhole hwalks hplans hs

/-! ## 4. Runs -/

theorem plans_start : Plans (machine false).start :=
  ⟨fun f _ => ⟨rfl, about_nil f⟩, .nil⟩

theorem plans_run {tr : List Event} (hrun : (machine false).Run s tr) : Plans s :=
  hrun.inv (I := fun s _ => Plans s) plans_start fun _ _ _ _ _ hrun hplans hs => by
    obtain ⟨held, hwhole⟩ := whole_run hrun
    exact (turn_step hwhole (walks_run hrun) hplans hs).plans

/-- Fibers are not taken away. -/
theorem created_le {nested : Bool} (hs : step nested s a = some (s', ev)) :
    s.created ≤ s'.created := by
  cases a with
  | call c =>
      obtain ⟨_, hs⟩ := Option.ite_none_right_eq_some.mp hs
      obtain ⟨s₁, hcall, he⟩ := Option.map_eq_some_iff.mp hs
      cases he
      exact (frame_call hcall).created
  | run =>
      obtain ⟨_, hs⟩ := Option.ite_none_right_eq_some.mp hs
      exact Nat.le_of_eq (run_frame hs).2.symm
  | pass dt =>
      cases hs
      exact Nat.le_refl _
  | tick =>
      obtain ⟨_, he⟩ := Option.ite_none_right_eq_some.mp hs
      cases he
      exact Nat.le_refl _
  | event evt =>
      obtain ⟨_, he⟩ := Option.ite_none_right_eq_some.mp hs
      cases he
      exact Nat.le_refl _
  | walk =>
      have hs : s.walk = some (s', ev) := hs
      unfold State.walk at hs
      split at hs
      case h_1 => cases hs
      case h_2 w ws hw =>
        have he := congrArg Prod.fst (Option.some.inj hs)
        rw [← show (s.goesOn w ws).1 = s' from he]
        unfold State.goesOn
        split <;> try split
        all_goals exact Nat.le_refl _

theorem created_le_exec {nested : Bool} {as : List Action}
    (he : (machine nested).exec s as = some (s', ev)) : s.created ≤ s'.created := by
  induction as generalizing s ev with
  | nil =>
      cases he
      exact Nat.le_refl _
  | cons a as ih =>
      obtain ⟨s₁, e₁, e₂, hs, hrest, rfl⟩ := Machine.exec_cons_eq_some he
      exact Nat.le_trans (created_le hs) (ih hrest)

/-- **A fiber on the run queue that is not given the processor** stays there, and every turn of
    another one is taken off how long it waits. -/
theorem waits {y n : Nat} {tr : List Event} {as : List Action} (hrun : (machine false).Run s tr)
    (hy : y ∈ (history tr).queue .runQueue) (hc : s.currentFiber ≠ y)
    (he : (machine false).exec s as = some (s', ev)) (hno : .scheduled y ∉ ev)
    (hn : s'.created ≤ n) :
    y ∈ (history (tr ++ ev)).queue .runQueue ∧ s'.currentFiber ≠ y ∧
      patience n ((history (tr ++ ev)).queue .runQueue) s'.currentFiber y + turns ev ≤
        patience n ((history tr).queue .runQueue) s.currentFiber y := by
  induction as generalizing s tr ev with
  | nil =>
      cases he
      rw [List.append_nil]
      exact ⟨hy, hc, Nat.le_refl _⟩
  | cons a as ih =>
      obtain ⟨s₁, e₁, e₂, hs, hrest, rfl⟩ := Machine.exec_cons_eq_some he
      have hno₁ : .scheduled y ∉ e₁ := fun hmem => hno (List.mem_append_left _ hmem)
      have hno₂ : .scheduled y ∉ e₂ := fun hmem => hno (List.mem_append_right _ hmem)
      obtain ⟨held, hwhole⟩ := whole_run hrun
      obtain ⟨_, hturn, hscheduled⟩ := turn_step hwhole (walks_run hrun) (plans_run hrun) hs
      have hrun₁ : (machine false).Run s₁ (tr ++ e₁) := .step _ _ _ _ _ hrun hs
      rw [← history_append] at hturn
      have hlen : ((history tr).queue .runQueue).length ≤ n :=
        Nat.le_trans (hwhole.length_le .runQueue)
          (Nat.le_trans (created_le hs) (Nat.le_trans (created_le_exec hrest) hn))
      obtain ⟨hy₁, hc₁, hle₁⟩ := hturn.patience (hwhole.holds.nodup _) hy hc hlen fun e =>
        hscheduled (e ▸ hno₁)
      obtain ⟨hy₂, hc₂, hle₂⟩ := ih hrun₁ hy₁ hc₁ hrest hno₂
      have hsplit : turns (e₁ ++ e₂) = turns e₁ + turns e₂ := List.countP_append ..
      rw [← List.append_assoc]
      exact ⟨hy₂, hc₂, by omega⟩

end MicrobitAlarm.Scheduler
