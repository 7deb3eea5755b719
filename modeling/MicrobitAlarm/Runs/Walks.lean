/-
  File:      MicrobitAlarm/Runs/Walks.lean
  Subject:   WALKS ALONG THE SLEEP QUEUE AND THE WAIT QUEUE, interrupted by one another.

  While a walk is open no code of a fiber runs, and the other walks are along the other queue; so
  the queue of a walk is what it began with, less those the walk has taken out. The walk has visited
  the front of it, and goes on at the head of the rest.

  * `State.visits` -- whom a walk wakes when it visits these fibers, one after the other;
  * `WalkOk` -- how far a walk has come; `walks_step`, `walks_run`;
  * `visits_tick`, `visits_event` -- whom a whole walk wakes.

  Two walks along the same queue are not considered here: the outer one would go on along the run
  queue, where the inner one has put the fiber it stood at.
-/
import MicrobitAlarm.Runs.Scheduler
import Mathlib.Data.List.Induction

namespace MicrobitAlarm.Scheduler

open Trace Function LinkedQueue

variable {s s' : State} {h h' : History} {held : List Nat} {f : Nat} {w : Walk} {ws : List Walk}
  {kind : Kind} {ev : List Event}

theorem queue_ne_runQueue (kind : Kind) : kind.queue ≠ .runQueue := by
  cases kind <;> rintro ⟨⟩

/-! ## 1. Visits -/

/-- The state, at this time. -/
def State.clock (s : State) (t : Nat) : State := { s with now := t }

/-- A walk that has woken these fibers visits one more, at this time. -/
def State.visit (s : State) (kind : Kind) (time : Nat → Nat) (v : List Nat × Bool) (f : Nat) :
    List Nat × Bool :=
  if (s.clock (time f)).wakes ⟨kind, v.2, .loop none⟩ f then
    (v.1 ++ [f], s.completes ⟨kind, v.2, .loop none⟩ f)
  else v

/-- **Whom a walk wakes** of these fibers, which it visits at these times, and `notifyOneComplete`
    behind them. -/
def State.visits (s : State) (kind : Kind) (time : Nat → Nat) (fs : List Nat) : List Nat × Bool :=
  fs.foldl (s.visit kind time) ([], false)

theorem visits_snoc (s : State) (kind : Kind) (time : Nat → Nat) (fs : List Nat) (f : Nat) :
    s.visits kind time (fs ++ [f]) = s.visit kind time (s.visits kind time fs) f :=
  List.foldl_append ..

/-- Who is woken was visited, in this order. -/
theorem visits_sublist (s : State) (kind : Kind) (time : Nat → Nat) (fs : List Nat) :
    (s.visits kind time fs).1.Sublist fs := by
  induction fs using List.reverseRecOn with
  | nil => exact .slnil
  | append_singleton fs f ih =>
      rw [visits_snoc, State.visit]
      split
      · exact ih.append (.refl [f])
      · exact ih.trans (List.sublist_append_left ..)

/-- A visit looks at the context of the fiber, and at the time. -/
theorem visit_congr {time time' : Nat → Nat} (hcontext : s'.context = s.context)
    (htime : time' f = time f) (v : List Nat × Bool) :
    s'.visit kind time' v f = s.visit kind time v f := by
  have hone : ∀ evt, s'.waitsForOne f evt = s.waitsForOne f evt := by
    intro evt
    unfold State.waitsForOne
    rw [hcontext]
  have hwakes : (s'.clock (time' f)).wakes ⟨kind, v.2, .loop none⟩ f =
      (s.clock (time f)).wakes ⟨kind, v.2, .loop none⟩ f := by
    unfold State.wakes State.waitsForOne State.waitsFor State.clock
    rw [hcontext, htime]
  have hcompletes : s'.completes ⟨kind, v.2, .loop none⟩ f =
      s.completes ⟨kind, v.2, .loop none⟩ f := by
    unfold State.completes
    simp only [hone]
  rw [State.visit, State.visit, hwakes, hcompletes]

theorem visits_congr {time time' : Nat → Nat} {fs : List Nat} (hcontext : s'.context = s.context)
    (htime : ∀ f ∈ fs, time' f = time f) : s'.visits kind time' fs = s.visits kind time fs := by
  induction fs using List.reverseRecOn with
  | nil => rfl
  | append_singleton fs f ih =>
      rw [visits_snoc, visits_snoc, ih fun x hx => htime x (List.mem_append_left _ hx)]
      exact visit_congr hcontext (htime f (List.mem_append_right _ (List.mem_singleton_self f))) _

/-! ## 2. How far a walk has come -/

/-- **A walk has visited the front of the queue it began with**, at these times, and taken out whom
    it wakes. -/
structure WalkOk (s : State) (h : History) (w : Walk) (time : Nat → Nat)
    (visited rest : List Nat) : Prop where
  begun : h.begun w.kind.queue = visited ++ rest
  times : ∀ f, h.since w.kind.queue ≤ time f ∧ time f ≤ s.now
  distinct : (visited ++ rest).Nodup
  queue : h.queue w.kind.queue =
    (visited ++ rest).filter fun x => x ∉ (s.visits w.kind time visited).1
  one : w.notifyOneComplete = (s.visits w.kind time visited).2
  place :
    match w.place with
    | .loop f => f = rest.head? ∧ h.woken w.kind.queue = (s.visits w.kind time visited).1
    | .found f t => ∃ fs, rest = f :: fs ∧ t = fs.head? ∧
        h.woken w.kind.queue = (s.visits w.kind time visited).1
    | .moved f t => t = rest.head? ∧
        (s.visits w.kind time visited).1 = h.woken w.kind.queue ++ [f]

variable {time : Nat → Nat} {visited rest : List Nat}

/-- What is left of the queue is what was visited and not woken, and the rest. -/
theorem WalkOk.queue_eq (hok : WalkOk s h w time visited rest) :
    h.queue w.kind.queue =
      (visited.filter fun x => x ∉ (s.visits w.kind time visited).1) ++ rest := by
  rw [hok.queue, List.filter_append]
  congr 1
  refine List.filter_eq_self.mpr fun x hx => decide_eq_true fun hmem => ?_
  exact (List.nodup_append.mp hok.distinct).2.2 x
    ((visits_sublist s w.kind time visited).subset hmem) x hx rfl

/-- A walk is not concerned by what happens to other queues. -/
theorem WalkOk.frame (hok : WalkOk s h w time visited rest) (hcontext : s'.context = s.context)
    (hnow : s.now ≤ s'.now) (hqueue : h'.queue w.kind.queue = h.queue w.kind.queue)
    (hbegun : h'.begun w.kind.queue = h.begun w.kind.queue)
    (hsince : h'.since w.kind.queue = h.since w.kind.queue)
    (hwoken : h'.woken w.kind.queue = h.woken w.kind.queue) :
    WalkOk s' h' w time visited rest := by
  have hvisits : s'.visits w.kind time visited = s.visits w.kind time visited :=
    visits_congr hcontext fun _ _ => rfl
  refine ⟨hbegun.trans hok.begun, fun f => ?_, hok.distinct, ?_, ?_, ?_⟩
  · rw [hsince]
    exact ⟨(hok.times f).1, Nat.le_trans (hok.times f).2 hnow⟩
  · rw [hqueue, hvisits]
    exact hok.queue
  · rw [hvisits]
    exact hok.one
  · rw [hwoken, hvisits]
    exact hok.place

/-- **The walks of a state**, along different queues, each of them as far as it says. -/
structure Walks (s : State) (h : History) : Prop where
  distinct : (s.walks.map fun w => w.kind.queue).Nodup
  each : ∀ w ∈ s.walks, ∃ time visited rest, WalkOk s h w time visited rest

/-- A walk that begins has the whole queue before it. -/
theorem walkOk_enter (hwhole : Whole s h.queue held) (kind : Kind) :
    WalkOk (s.enter kind).1 (h.note (.began kind s.now))
      ⟨kind, false, .loop (s.links.head kind.queue)⟩ (fun _ => s.now) [] (h.queue kind.queue) := by
  refine ⟨update_self .., fun f => ⟨?_, Nat.le_refl _⟩, hwhole.holds.nodup _, ?_, rfl,
    hwhole.holds.head _, update_self ..⟩
  · exact Nat.le_of_eq (update_self ..)
  · exact (List.filter_eq_self.mpr fun x _ => decide_eq_true (by rintro ⟨⟩)).symm

/-! ## 3. A walk goes on -/

/-- The next fiber is found. -/
theorem walkOk_found (hwhole : Whole s h.queue held) (hok : WalkOk s h w time visited rest)
    (hplace : w.place = .loop (some f)) :
    WalkOk s h { w with place := .found f (s.links.next f) } time visited rest := by
  have hat := hok.place
  rw [hplace] at hat
  obtain ⟨hf, hwoken⟩ := hat
  obtain ⟨fs, hrest⟩ := List.head?_eq_some_iff.mp hf.symm
  have hqueue := hok.queue_eq
  rw [hrest] at hqueue
  exact ⟨hok.begun, hok.times, hok.distinct, hok.queue, hok.one, fs, hrest,
    hwhole.holds.next_eq hqueue, hwoken⟩

/-- The walk visits a fiber now. -/
theorem WalkOk.visit (hok : WalkOk s h w time visited (f :: rest)) :
    s.visits w.kind (update time f s.now) (visited ++ [f]) =
        s.visit w.kind (fun _ => s.now) (s.visits w.kind time visited) f ∧
      ∀ x, h.since w.kind.queue ≤ update time f s.now x ∧ update time f s.now x ≤ s.now := by
  refine ⟨?_, fun x => ?_⟩
  · have hne : ∀ x ∈ visited, x ≠ f := fun x hx e =>
      (List.nodup_append.mp hok.distinct).2.2 x hx f List.mem_cons_self e
    have hbefore : s.visits w.kind (update time f s.now) visited = s.visits w.kind time visited :=
      visits_congr rfl fun x hx => update_of_ne (hne x hx) ..
    rw [visits_snoc, hbefore]
    refine visit_congr rfl ?_ _
    exact update_self ..
  · rw [update_apply]
    split
    · exact ⟨Nat.le_trans (hok.times f).1 (hok.times f).2, Nat.le_refl _⟩
    · exact hok.times x

/-- The fiber is not woken. -/
theorem walkOk_passed (hok : WalkOk s h w time visited rest) {t : Option Nat}
    (hplace : w.place = .found f t) (hno : ¬ s.wakes w f = true) :
    ∃ time fs, WalkOk s h { w with place := .loop t } time (visited ++ [f]) fs := by
  have hat := hok.place
  rw [hplace] at hat
  obtain ⟨fs, rfl, ht, hwoken⟩ := hat
  obtain ⟨hvisit, htimes⟩ := hok.visit
  have hvisit : s.visits w.kind (update time f s.now) (visited ++ [f]) =
      s.visits w.kind time visited := by
    rw [hvisit, State.visit, ← hok.one]
    exact if_neg hno
  have hsplit : visited ++ f :: fs = visited ++ [f] ++ fs := List.append_cons ..
  refine ⟨update time f s.now, fs, hok.begun.trans hsplit, htimes, hsplit ▸ hok.distinct, ?_, ?_,
    ht, ?_⟩
  · rw [hvisit, ← hsplit]
    exact hok.queue
  · rw [hvisit]
    exact hok.one
  · rw [hvisit]
    exact hwoken

/-- The fiber is taken out of the queue. -/
theorem walkOk_take (hok : WalkOk s h w time visited rest) {t : Option Nat}
    (hplace : w.place = .found f t) (hyes : s.wakes w f = true) (links : Links Nat Queue)
    (walks : List Walk) :
    ∃ time fs, WalkOk { s with links := links, walks := walks } (h.note (.dequeued f))
      { w with notifyOneComplete := s.completes w f, place := .moved f t } time
      (visited ++ [f]) fs := by
  have hat := hok.place
  rw [hplace] at hat
  obtain ⟨fs, rfl, ht, hwoken⟩ := hat
  obtain ⟨hvisit, htimes⟩ := hok.visit
  have hvisit : State.visits { s with links := links, walks := walks } w.kind
      (update time f s.now) (visited ++ [f]) =
      ((s.visits w.kind time visited).1 ++ [f], s.completes w f) := by
    have hsame : State.visits { s with links := links, walks := walks } w.kind
        (update time f s.now) (visited ++ [f]) =
        s.visits w.kind (update time f s.now) (visited ++ [f]) := visits_congr rfl fun _ _ => rfl
    rw [hsame, hvisit, State.visit, ← hok.one]
    exact if_pos hyes
  have hsplit : visited ++ f :: fs = visited ++ [f] ++ fs := List.append_cons ..
  refine ⟨update time f s.now, fs, hok.begun.trans hsplit, htimes, hsplit ▸ hok.distinct, ?_, ?_,
    ht, ?_⟩
  · show (h.queue w.kind.queue).erase f = _
    rw [hvisit, ← hsplit, hok.queue]
    have hnodup := hok.distinct.filter fun x => x ∉ (s.visits w.kind time visited).1
    rw [hnodup.erase_eq_filter, List.filter_filter]
    refine List.filter_congr fun x _ => ?_
    by_cases hxf : x = f <;> simp [hxf]
  · rw [hvisit]
  · rw [hvisit]
    exact congrArg (· ++ [f]) hwoken.symm

/-- The fiber is put on the run queue. -/
theorem walkOk_put (hok : WalkOk s h w time visited rest) {t : Option Nat}
    (hplace : w.place = .moved f t) (links : Links Nat Queue) (walks : List Walk) :
    WalkOk { s with links := links, walks := walks }
      ((h.note (.queued f .runQueue)).note (.woken f w.kind)) { w with place := .loop t }
      time visited rest := by
  have hat := hok.place
  rw [hplace] at hat
  obtain ⟨ht, hwoken⟩ := hat
  have hvisit : State.visits { s with links := links, walks := walks } w.kind time visited =
      s.visits w.kind time visited := visits_congr rfl fun _ _ => rfl
  have hqueue := queue_ne_runQueue w.kind
  refine ⟨hok.begun, hok.times, hok.distinct, ?_, ?_, ht, ?_⟩
  · rw [hvisit]
    exact (update_of_ne hqueue ..).trans hok.queue
  · rw [hvisit]
    exact hok.one
  · rw [hvisit, hwoken]
    exact update_self ..

/-- **The innermost walk goes on**, and the others stay where they are. -/
theorem walks_walk (hwhole : Whole s h.queue held) (hwalks : Walks s h)
    (hs : s.walk = some (s', ev)) : Walks s' (ev.foldl History.note h) := by
  unfold State.walk at hs
  split at hs
  case h_1 => cases hs
  case h_2 w ws hw =>
    have hdistinct := hwalks.distinct
    have heach := hwalks.each
    rw [hw] at hdistinct heach
    obtain ⟨hfresh, hrest⟩ := List.nodup_cons.mp hdistinct
    obtain ⟨time, visited, rest, hok⟩ := heach w List.mem_cons_self
    have hothers : ∀ w' ∈ ws, w'.kind.queue ≠ w.kind.queue ∧
        ∃ time visited rest, WalkOk s h w' time visited rest := fun w' hw' =>
      ⟨fun e => hfresh (List.mem_map.mpr ⟨w', hw', e⟩), heach w' (List.mem_cons_of_mem _ hw')⟩
    unfold State.goesOn at hs
    cases hplace : w.place with
    | loop f =>
        rw [hplace] at hs
        cases f with
        | none =>
            cases hs
            refine ⟨hrest, fun w' hw' => ?_⟩
            obtain ⟨_, time, visited, rest, hok'⟩ := hothers w' hw'
            exact ⟨time, visited, rest, hok'.frame rfl (Nat.le_refl _) rfl rfl rfl rfl⟩
        | some f =>
            cases hs
            refine ⟨hdistinct, fun w' hw' => ?_⟩
            rcases List.mem_cons.mp hw' with rfl | hw'
            · exact ⟨time, visited, rest, (walkOk_found hwhole hok hplace).frame rfl
                (Nat.le_refl _) rfl rfl rfl rfl⟩
            · obtain ⟨_, time, visited, rest, hok'⟩ := hothers w' hw'
              exact ⟨time, visited, rest, hok'.frame rfl (Nat.le_refl _) rfl rfl rfl rfl⟩
    | found f t =>
        rw [hplace] at hs
        simp only at hs
        split at hs
        case isTrue hyes =>
          cases hs
          have hf : f ∈ h.queue w.kind.queue := by
            have hat := hok.place
            rw [hplace] at hat
            obtain ⟨fs, rfl, _⟩ := hat
            rw [hok.queue_eq]
            exact List.mem_append_right _ List.mem_cons_self
          refine ⟨hdistinct, fun w' hw' => ?_⟩
          rcases List.mem_cons.mp hw' with rfl | hw'
          · obtain ⟨time, fs, hok'⟩ := walkOk_take hok hplace hyes (s.links.unlink f) _
            exact ⟨time, visited ++ [f], fs, hok'⟩
          · obtain ⟨hne, time, visited, rest, hok'⟩ := hothers w' hw'
            refine ⟨time, visited, rest, hok'.frame rfl (Nat.le_refl _) ?_ rfl rfl rfl⟩
            exact List.erase_of_not_mem fun hf' => hne (hwhole.holds.disjoint hf' hf)
        case isFalse hno =>
          cases hs
          refine ⟨hdistinct, fun w' hw' => ?_⟩
          rcases List.mem_cons.mp hw' with rfl | hw'
          · obtain ⟨time, fs, hok'⟩ := walkOk_passed hok hplace hno
            exact ⟨time, visited ++ [f], fs,
              hok'.frame rfl (Nat.le_refl _) rfl rfl rfl rfl⟩
          · obtain ⟨_, time, visited, rest, hok'⟩ := hothers w' hw'
            exact ⟨time, visited, rest, hok'.frame rfl (Nat.le_refl _) rfl rfl rfl rfl⟩
    | moved f t =>
        rw [hplace] at hs
        cases hs
        refine ⟨hdistinct, fun w' hw' => ?_⟩
        rcases List.mem_cons.mp hw' with rfl | hw'
        · exact ⟨time, visited, rest, walkOk_put hok hplace _ _⟩
        · obtain ⟨hne, time, visited, rest, hok'⟩ := hothers w' hw'
          have hrun := queue_ne_runQueue w'.kind
          exact ⟨time, visited, rest, hok'.frame rfl (Nat.le_refl _) (update_of_ne hrun ..) rfl rfl
            (update_of_ne hne ..)⟩

/-- A walk begins that is along another queue than the open ones. -/
theorem walks_enter (hwhole : Whole s h.queue held) (hwalks : Walks s h) {kind : Kind}
    (hfree : ¬ s.walking kind.queue = true) :
    Walks (s.enter kind).1 (h.note (.began kind s.now)) := by
  have hnot : ∀ w ∈ s.walks, w.kind.queue ≠ kind.queue := by
    intro w hw e
    exact hfree (List.any_eq_true.mpr ⟨w, hw, decide_eq_true e⟩)
  refine ⟨List.nodup_cons.mpr ⟨fun hmem => ?_, hwalks.distinct⟩, fun w hw => ?_⟩
  · obtain ⟨w, hw, e⟩ := List.mem_map.mp hmem
    exact hnot w hw e
  · rcases List.mem_cons.mp hw with rfl | hw
    · exact ⟨_, [], _, walkOk_enter hwhole kind⟩
    · obtain ⟨time, visited, rest, hok⟩ := hwalks.each w hw
      exact ⟨time, visited, rest, hok.frame rfl (Nat.le_refl _) rfl (update_of_ne (hnot w hw) ..)
        (update_of_ne (hnot w hw) ..) (update_of_ne (hnot w hw) ..)⟩

/-- No walk is open. -/
theorem walks_nil (hw : s.walks = []) : Walks s h := by
  refine ⟨by rw [hw]; exact .nil, fun w hmem => ?_⟩
  rw [hw] at hmem
  cases hmem

/-- What a call leaves as it was. -/
structure Frame (s s' : State) : Prop where
  links : s'.links = s.links
  current : s'.currentFiber = s.currentFiber
  idle : s'.idleFiber = s.idleFiber
  created : s.created ≤ s'.created
  walks : s'.walks = s.walks

theorem frame_does (s : State) (ops : List Op) : Frame s (s.does ops) :=
  ⟨rfl, rfl, rfl, Nat.le_refl _, rfl⟩

theorem frame_get {get : List Op} {s₁ : State} (hget : s.getFiberContext = (f, get, s₁))
    (o : Option Nat) (ops : List Op) : Frame s ({ s₁ with forkedFiber := o }.does ops) := by
  unfold State.getFiberContext at hget
  split at hget <;> cases hget
  · exact ⟨rfl, rfl, rfl, Nat.le_refl _, rfl⟩
  · exact ⟨rfl, rfl, rfl, Nat.le_succ _, rfl⟩

theorem frame_sleep (s : State) (t : Nat) : Frame s (s.sleep t) := by
  unfold State.sleep
  split
  case isTrue =>
    rcases hget : s.getFiberContext with ⟨f, get, s₁⟩
    exact frame_get hget _ _
  case isFalse => exact frame_does s _

theorem frame_wakeOnEvent (s : State) (id value : Nat) (behind : List Op) :
    Frame s (s.wakeOnEvent id value behind) := by
  unfold State.wakeOnEvent
  split
  case isTrue =>
    rcases hget : s.getFiberContext with ⟨f, get, s₁⟩
    exact frame_get hget _ _
  case isFalse => exact frame_does s _

theorem frame_createFiber (s : State) : Frame s s.createFiber := by
  unfold State.createFiber
  rcases hget : s.getFiberContext with ⟨f, get, s₁⟩
  exact frame_get hget s₁.forkedFiber _

/-- A call touches neither the queues nor the walks. -/
theorem frame_call {c : Call} (hs : s.call c = some s') : Frame s s' := by
  unfold State.call at hs
  cases c with
  | sleep t =>
      obtain ⟨_, he⟩ := Option.ite_none_left_eq_some.mp hs
      cases he
      exact frame_sleep s t
  | wakeOnEvent id value =>
      obtain ⟨_, he⟩ := Option.ite_none_left_eq_some.mp hs
      cases he
      exact frame_wakeOnEvent s id value []
  | waitForEvent id value =>
      obtain ⟨_, he⟩ := Option.ite_none_left_eq_some.mp hs
      cases he
      exact frame_wakeOnEvent s id value [.schedule]
  | createFiber =>
      cases hs
      exact frame_createFiber s
  | release =>
      obtain ⟨_, he⟩ := Option.ite_none_left_eq_some.mp hs
      cases he
      exact frame_does s _
  | schedule =>
      obtain ⟨_, he⟩ := Option.ite_none_left_eq_some.mp hs
      cases he
      exact frame_does s _
  | invoke param =>
      cases hs
      unfold State.invoke
      simp only
      split
      · exact frame_createFiber s
      · exact ⟨rfl, rfl, rfl, Nat.le_refl _, rfl⟩
  | returned =>
      obtain ⟨_, he⟩ := Option.ite_none_right_eq_some.mp hs
      cases he
      unfold State.returned
      simp only
      split <;> exact ⟨rfl, rfl, rfl, Nat.le_refl _, rfl⟩

theorem schedule_frame (hs : s.schedule = some (s', ev)) :
    s'.walks = s.walks ∧ s'.created = s.created := by
  unfold State.schedule at hs
  split at hs
  case isTrue =>
    obtain ⟨f, _, he⟩ := Option.map_eq_some_iff.mp hs
    cases he
    exact ⟨rfl, rfl⟩
  case isFalse =>
    cases hs
    exact ⟨rfl, rfl⟩

theorem run_frame (hs : s.run = some (s', ev)) :
    s'.walks = s.walks ∧ s'.created = s.created := by
  unfold State.run at hs
  split at hs
  case h_1 => cases hs
  case h_2 op ops hcode =>
    cases op with
    | schedule => exact @schedule_frame (s.does ops) s' ev hs
    | _ =>
        cases hs
        exact ⟨rfl, rfl⟩

theorem walks_step (hwhole : Whole s h.queue held) (hwalks : Walks s h) {a : Action}
    (hs : step false s a = some (s', ev)) : Walks s' (ev.foldl History.note h) := by
  cases a with
  | call c =>
      simp only [step] at hs
      split at hs
      case isFalse => cases hs
      case isTrue hquiet =>
        obtain ⟨s₁, hcall, he⟩ := Option.map_eq_some_iff.mp hs
        cases he
        exact walks_nil ((frame_call hcall).walks.trans hquiet.1)
  | run =>
      simp only [step] at hs
      split at hs
      case isFalse => cases hs
      case isTrue hw => exact walks_nil ((run_frame hs).1.trans hw)
  | pass dt =>
      cases hs
      refine ⟨hwalks.distinct, fun w hw => ?_⟩
      obtain ⟨time, visited, rest, hok⟩ := hwalks.each w hw
      exact ⟨time, visited, rest, hok.frame rfl (Nat.le_add_right ..) rfl rfl rfl rfl⟩
  | tick =>
      obtain ⟨hfree, he⟩ := Option.ite_none_right_eq_some.mp hs
      cases he
      exact walks_enter hwhole hwalks (hfree.resolve_left (by simp))
  | event evt =>
      obtain ⟨hfree, he⟩ := Option.ite_none_right_eq_some.mp hs
      cases he
      exact walks_enter hwhole hwalks (hfree.resolve_left (by simp))
  | walk => exact walks_walk hwhole hwalks hs

/-- **In every run in which no walk is interrupted by one along the same queue**, every open walk
    is as far as it says. -/
theorem walks_run {tr : List Event} (hrun : (machine false).Run s tr) : Walks s (history tr) :=
  hrun.inv (I := fun s tr => Walks s (history tr)) (walks_nil rfl)
    fun _ tr _ _ ev hrun hwalks hs => by
      obtain ⟨held, hwhole⟩ := whole_run hrun
      rw [history_append]
      exact walks_step hwhole hwalks hs

/-! ## 4. Whom a whole walk wakes -/

/-- **The tick** wakes whose time has come when it visits them. -/
theorem visits_tick (s : State) (time : Nat → Nat) (fs : List Nat) :
    s.visits .tick time fs = (fs.filter fun f => s.context f ≤ time f, false) := by
  induction fs using List.reverseRecOn with
  | nil => rfl
  | append_singleton fs f ih =>
      rw [visits_snoc, ih, State.visit, List.filter_append]
      have hwakes : (s.clock (time f)).wakes ⟨.tick, false, .loop none⟩ f =
        decide (s.context f ≤ time f) := rfl
      have hcompletes : s.completes ⟨.tick, false, .loop none⟩ f = false := rfl
      rw [hwakes, hcompletes]
      by_cases hf : s.context f ≤ time f <;> simp [hf]

variable {evt : MessageBus.MicroBitEvent}

/-- `notifyOneComplete` says that somebody waited on the channel. -/
theorem visits_one (s : State) (time : Nat → Nat) (fs : List Nat) :
    (s.visits (.event evt) time fs).2 = fs.any fun f => s.waitsForOne f evt := by
  induction fs using List.reverseRecOn with
  | nil => rfl
  | append_singleton fs f ih =>
      have hone : (s.clock (time f)).waitsForOne f evt = s.waitsForOne f evt := rfl
      have hall : (s.clock (time f)).waitsFor f evt = s.waitsFor f evt := rfl
      rw [visits_snoc, State.visit, List.any_append, ← ih]
      simp only [State.wakes, State.completes, hone, hall, List.any_cons, List.any_nil,
        Bool.or_false]
      cases hone : s.waitsForOne f evt <;> cases hv : (s.visits (.event evt) time fs).2 <;>
        cases hall : s.waitsFor f evt <;> simp [hv]

/-- **An event** wakes who waits for it; of those that wait on the channel `MICROBIT_ID_NOTIFY`,
    while it comes on `MICROBIT_ID_NOTIFY_ONE`, only the first one. -/
theorem visits_event (s : State) (time : Nat → Nat) (fs : List Nat) :
    ((s.visits (.event evt) time fs).1.filter fun f => s.waitsForOne f evt) =
        (fs.filter fun f => s.waitsForOne f evt).take 1 ∧
      ((s.visits (.event evt) time fs).1.filter fun f => !s.waitsForOne f evt) =
        fs.filter fun f => !s.waitsForOne f evt && s.waitsFor f evt := by
  induction fs using List.reverseRecOn with
  | nil => exact ⟨rfl, rfl⟩
  | append_singleton fs f ih =>
      obtain ⟨hfirst, hall⟩ := ih
      have hone := @visits_one evt s time fs
      have hlater : (fs.any fun f => s.waitsForOne f evt) = true ↔
          (fs.filter fun f => s.waitsForOne f evt) ≠ [] := by
        simp [List.any_eq_true, List.filter_eq_nil_iff]
      have hclock : (s.clock (time f)).waitsForOne f evt = s.waitsForOne f evt := rfl
      rw [visits_snoc, State.visit, List.filter_append, List.filter_append]
      cases hf : s.waitsForOne f evt with
      | false =>
          have hwakes : (s.clock (time f)).wakes
              ⟨.event evt, (s.visits (.event evt) time fs).2, .loop none⟩ f =
              s.waitsFor f evt := by
            simp only [State.wakes, hclock, hf]
            rfl
          rw [hwakes]
          cases hfor : s.waitsFor f evt <;> simp [hf, hfor, hfirst, hall]
      | true =>
          have hwakes : (s.clock (time f)).wakes
              ⟨.event evt, (s.visits (.event evt) time fs).2, .loop none⟩ f =
              !(fs.any fun f => s.waitsForOne f evt) := by
            simp [State.wakes, hclock, hf, hone]
          rw [hwakes]
          cases hany : fs.any fun f => s.waitsForOne f evt with
          | false =>
              have hnil : (fs.filter fun f => s.waitsForOne f evt) = [] := by
                by_contra hne
                rw [hlater.mpr hne] at hany
                cases hany
              simp [hf, hfirst, hall, hnil]
          | true =>
              obtain ⟨x, xs, hcons⟩ := List.exists_cons_of_ne_nil (hlater.mp hany)
              simp [hf, hfirst, hall, hcons]

end MicrobitAlarm.Scheduler
