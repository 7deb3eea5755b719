/-
  File:      MicrobitAlarm/Runs/Handlers.lean
  Subject:   THE OLDER EVENT'S HANDLER FINISHES FIRST, in whichever order the scheduler goes on.

  `f` is the handler that has the oldest event that is not yet done, `g` the other one. What has to
  be excluded is that `g` gets to the end of its `scroll` before `f`. Each ends with a turn; so the
  invariant (`Order`) says, for each pair of stages, whose turn comes first and who has the display
  in the meantime:

  * if `g` has ended its animation, or was woken, then `f` has ended its own and stands before it;
  * if `g` is animating, `f` has ended its animation, or was woken and has its turn before the
    animation of `g` can end -- `f` finds the display taken and goes on at once;
  * if `g` waits for the display, `f` has it, or gets it, or waits in front of `g`;
  * if `f` waits for the display, main has it or is about to take it, so `g` cannot.

  The rest is about the queues themselves (`Queues`) and about the current fiber (`Turn`).
-/
import MicrobitAlarm.Firmware.Fibers

namespace MicrobitAlarm

open RoundRobin

namespace Fibers

/-! ## 1. The invariant -/

/-- The queues and the display hold the fibers that belong there by what they are at. -/
structure Queues (s : Fibers) : Prop where
  runNodup : s.runQueue.Nodup
  run : ∀ x, x ∈ s.runQueue ↔ (s.stage x).runnable = true
  waitNodup : s.waitQueue.Nodup
  wait : ∀ x, x ∈ s.waitQueue ↔ s.stage x = .waiting
  display : ∀ x, s.display = some x ↔ s.stage x = .animating

/-- The current fiber is on the run queue and has not passed a fiber that was woken in `scroll`; the
    idle fiber has the processor only if no handler is about to call its callback; and the handlers
    woken while main's animation runs are those it waits for. -/
structure Turn (s : Fibers) : Prop where
  current : ∀ c, s.currentFiber = some c → c ∈ s.runQueue
  due : ∀ x, s.stage x = .woken ∨ s.stage x = .ended → ∀ c, s.currentFiber = some c →
    ¬ Precedes s.runQueue x c
  idle : s.currentFiber = none → ∀ v, s.stage (.handler v) ≠ .ready
  behind : s.stage .main = .animating → ∀ v,
    s.stage (.handler v) = .woken ∨ s.stage (.handler v) = .ended → v ∈ s.behind

/-- Main does not compute before the turn of `x`. -/
def Quiet (s : Fibers) (x : Fiber) : Prop :=
  s.stage .main = .away ∨ s.stage .main = .ended ∨
    s.stage .main = .ready ∧ Precedes s.runQueue x .main

/-- **`f` comes before `g`**, by the stage of `f`. -/
structure Order (s : Fibers) (f g : Bool) : Prop where
  active : s.stage (.handler g) ≠ .away → s.stage (.handler f) ≠ .away
  /-- `g` too is about to call its callback, and `f` has its turn first -/
  ready : s.stage (.handler f) = .ready → s.stage (.handler g) = .away ∨
    s.stage (.handler g) = .ready ∧ Precedes s.runQueue (.handler f) (.handler g) ∧
      ∀ c, s.currentFiber = some c → Precedes s.runQueue (.handler f) c →
        Precedes s.runQueue (.handler g) c
  /-- main keeps `g` from the display -/
  waiting : s.stage (.handler f) = .waiting →
    (s.stage .main = .animating ∨ s.stage .main = .woken ∧ s.currentFiber = some .main) ∧
    (s.stage (.handler g) = .away ∨ s.stage (.handler g) = .ready ∨
      s.stage (.handler g) = .waiting ∧ Precedes s.waitQueue (.handler f) (.handler g))
  animating : s.stage (.handler f) = .animating → s.stage (.handler g) = .away ∨
    s.stage (.handler g) = .ready ∨ s.stage (.handler g) = .waiting
  /-- `f` stands before `g`, unless `g` is at the start of its own `scroll` -/
  ended : s.stage (.handler f) = .ended →
    (s.stage (.handler g) = .ready → Precedes s.runQueue (.handler g) (.handler f)) ∧
    (s.stage (.handler g) = .waiting → s.stage .main = .animating ∨ s.stage .main = .woken) ∧
    (s.stage (.handler g) = .woken → Precedes s.runQueue (.handler f) (.handler g) ∧
      ¬ (Precedes s.runQueue (.handler f) .main ∧ Precedes s.runQueue .main (.handler g))) ∧
    (s.stage (.handler g) = .ended → Precedes s.runQueue (.handler f) (.handler g))
  /-- `f` has its turn now, or nothing that happens before lets `g` get far -/
  woken : s.stage (.handler f) = .woken →
    (s.stage (.handler g) = .away → s.currentFiber = none → s.stage .main = .ended) ∧
    (s.stage (.handler g) = .ready → Precedes s.runQueue (.handler g) (.handler f) ∧
      (s.currentFiber = some (.handler f) ∨
        s.stage .main = .ended ∧ s.currentFiber = some (.handler g))) ∧
    (s.stage (.handler g) = .waiting → s.Quiet (.handler f)) ∧
    (s.stage (.handler g) = .animating → f ∈ s.behind ∧ s.Quiet (.handler f)) ∧
    s.stage (.handler g) ≠ .woken ∧ s.stage (.handler g) ≠ .ended

/-- **The invariant of the fibers**, with `f` as the handler of the oldest event. -/
structure Inv (s : Fibers) (f : Bool) : Prop where
  queues : s.Queues
  turn : s.Turn
  order : s.Order f (!f)

/-! ## 2. Small facts -/

attribute [local grind →] Precedes.mem_left Precedes.mem_right
attribute [local grind] Stage.runnable

variable {s s' : Fibers} {x : Fiber} {f v : Bool}

theorem fiber_cases (f : Bool) (x : Fiber) : x = .main ∨ x = .handler f ∨ x = .handler !f := by
  cases x with
  | main => exact .inl rfl
  | handler v => cases f <;> cases v <;> simp

theorem fiberOption_cases (f : Bool) (o : Option Fiber) :
    o = none ∨ o = some .main ∨ o = some (.handler f) ∨ o = some (.handler !f) := by
  cases o with
  | none => exact .inl rfl
  | some x => simpa using fiber_cases f x

theorem nodup_snoc {q : List Fiber} (hq : q.Nodup) (hx : x ∉ q) : (q ++ [x]).Nodup := by
  refine List.nodup_append.mpr ⟨hq, by simp, fun a ha b hb => ?_⟩
  rw [List.mem_singleton.mp hb]
  exact ne_of_mem_of_not_mem ha hx

theorem Queues.not_animating (h : s.Queues) (hd : s.display = none) (x : Fiber) :
    s.stage x ≠ .animating := fun hx => by
  rw [(h.display x).mpr hx] at hd
  cases hd

theorem Queues.exists_animating (h : s.Queues) (hd : s.display ≠ none) :
    ∃ x, s.stage x = .animating := by
  obtain ⟨x, hx⟩ := Option.ne_none_iff_exists'.mp hd
  exact ⟨x, (h.display x).mp hx⟩

theorem finish_nil (h : s.waitQueue = []) :
    s.sendAnimationCompleteEvent x = { s.queueFiber x .ended with display := none } := by
  simp only [sendAnimationCompleteEvent, queueFiber, h]

theorem finish_cons {w : Fiber} {ws : List Fiber} (h : s.waitQueue = w :: ws) :
    s.sendAnimationCompleteEvent x =
      { { s.queueFiber x .ended with display := none }.queueFiber w .woken with
        waitQueue := ws } := by
  simp only [sendAnimationCompleteEvent, queueFiber, h]

theorem finish_frame (s : Fibers) (x : Fiber) :
    (s.sendAnimationCompleteEvent x).queued = s.queued ∧
      (s.sendAnimationCompleteEvent x).connected = s.connected ∧
      (s.sendAnimationCompleteEvent x).bus = s.bus ∧
      (s.sendAnimationCompleteEvent x).link = s.link := by
  cases hw : s.waitQueue with
  | nil =>
      rw [finish_nil hw]
      exact ⟨rfl, rfl, rfl, rfl⟩
  | cons w ws =>
      rw [finish_cons hw]
      exact ⟨rfl, rfl, rfl, rfl⟩

/-- Whoever is woken has a fiber. -/
theorem finish_away (h : s.Queues) (hd : s.display = some x) (v : Bool) :
    (s.sendAnimationCompleteEvent x).stage (.handler v) = .away ↔ s.stage (.handler v) = .away := by
  have hx : s.stage x = .animating := (h.display x).mp hd
  cases hw : s.waitQueue with
  | nil =>
      simp only [finish_nil hw, queueFiber_stage]
      grind
  | cons w ws =>
      have hs : s.stage w = .waiting := (h.wait w).mp (by rw [hw]; exact List.mem_cons_self)
      rw [finish_cons hw]
      simp only [queueFiber, Function.update_apply]
      grind

theorem mem_behind_schedule : v ∈ s.schedule.behind ↔
    ¬ (s.schedule.currentFiber = some .main ∧ s.stage .main = .ready) ∧ v ∈ s.behind ∧
      s.currentFiber ≠ some (.handler v) := by
  unfold schedule
  by_cases h : next s.runQueue s.currentFiber = some .main ∧ s.stage .main = .ready
  · simp [h]
  · simp [h, List.mem_filter]

theorem mem_behind_animate : v ∈ (s.animate x).behind ↔ .handler v ∈ s.runQueue.erase x := by
  simp only [animate, dequeueFiber, List.mem_filterMap]
  constructor
  · rintro ⟨y, hy, hv⟩
    cases y with
    | main => cases hv
    | handler u =>
        obtain rfl : u = v := Option.some.inj hv
        exact hy
  · exact fun h => ⟨_, h, rfl⟩

/-! ## 3. The queues -/

theorem queues_init : init.Queues where
  runNodup := by simp [init]
  run x := by cases x <;> simp [init, Stage.runnable]
  waitNodup := List.nodup_nil
  wait x := by cases x <;> simp [init]
  display x := by cases x <;> simp [init]

theorem Queues.schedule (h : s.Queues) : s.schedule.Queues :=
  ⟨h.runNodup, h.run, h.waitNodup, h.wait, h.display⟩

theorem Queues.wake (h : s.Queues) (hx : s.stage x = .away) : (s.queueFiber x .ready).Queues := by
  have hm : x ∉ s.runQueue := by
    rw [h.run, hx]
    decide
  obtain ⟨h1, h2, h3, h4, h5⟩ := h
  constructor
  · exact nodup_snoc h1 hm
  all_goals
    simp only [queueFiber, Function.update_apply]
    grind

theorem Queues.finish (h : s.Queues) (hd : s.display = some x) :
    (s.sendAnimationCompleteEvent x).Queues := by
  have hx : s.stage x = .animating := (h.display x).mp hd
  have hm : x ∉ s.runQueue := by
    rw [h.run, hx]
    decide
  obtain ⟨h1, h2, h3, h4, h5⟩ := h
  cases hw : s.waitQueue with
  | nil =>
      rw [finish_nil hw]
      constructor
      · exact nodup_snoc h1 hm
      all_goals
        simp only [queueFiber, Function.update_apply]
        grind
  | cons w ws =>
      have hs : s.stage w = .waiting := (h4 w).mp (by rw [hw]; exact List.mem_cons_self)
      rw [finish_cons hw]
      constructor
      · refine nodup_snoc (nodup_snoc h1 hm) ?_
        simp only [queueFiber]
        grind
      all_goals
        simp only [queueFiber, Function.update_apply]
        grind

theorem Queues.leave (h : s.Queues) (hx : x ∈ s.runQueue) : (s.dequeueFiber x .away).Queues := by
  rw [h.run] at hx
  obtain ⟨h1, h2, h3, h4, h5⟩ := h
  constructor
  · exact h1.erase x
  all_goals
    simp only [dequeueFiber, Function.update_apply, h1.mem_erase_iff]
    grind

theorem Queues.animate (h : s.Queues) (hw : s.stage x ≠ .waiting) (hd : s.display = none) :
    (s.animate x).Queues := by
  obtain ⟨h1, h2, h3, h4, h5⟩ := h
  constructor
  · exact h1.erase x
  all_goals
    simp only [Fibers.animate, dequeueFiber, Function.update_apply, h1.mem_erase_iff]
    grind

theorem Queues.scroll (h : s.Queues) (hw : s.stage x ≠ .waiting) (ha : s.stage x ≠ .animating) :
    (s.scroll x).Queues := by
  unfold Fibers.scroll
  cases hd : s.display with
  | none => exact h.animate hw hd
  | some y =>
      obtain ⟨h1, h2, h3, h4, h5⟩ := h
      constructor
      · exact h1.erase x
      · simp only [dequeueFiber, Function.update_apply, h1.mem_erase_iff]
        grind
      · exact nodup_snoc h3 (by rwa [h4])
      all_goals
        simp only [dequeueFiber, Function.update_apply]
        grind

theorem Queues.assign (h : s.Queues) (hx : .handler v ∈ s.runQueue) : (s.assign v).Queues := by
  unfold Fibers.assign
  split
  · obtain ⟨h1, h2, h3, h4, h5⟩ := h.leave hx
    exact ⟨h1, h2, h3, h4, h5⟩
  · rw [h.run] at hx
    obtain ⟨h1, h2, h3, h4, h5⟩ := h
    constructor
    · exact h1
    all_goals
      simp only [Function.update_apply]
      grind

/-! ## 4. The current fiber hands over -/

/-- The current fiber `x` has left the run queue and called `schedule`. -/
structure Left (s : Fibers) (x : Fiber) (s' : Fibers) : Prop where
  stage : ∀ y, y ≠ x → s'.stage y = s.stage y
  precedes : ∀ y z, Precedes s'.runQueue y z ↔ y ≠ x ∧ z ≠ x ∧ Precedes s.runQueue y z
  head : ∀ c, s'.currentFiber = some c → c ∈ s'.runQueue ∧ ∀ y, ¬ Precedes s'.runQueue y c
  idle : s'.currentFiber = none → ∀ y, y ∉ s'.runQueue
  behind : ∀ u, x ≠ .handler u →
    (s'.stage x ≠ .animating ∧ u ∈ s.behind ∨ s'.stage x = .animating ∧ .handler u ∈ s'.runQueue) →
    (s'.currentFiber = some .main → s'.stage .main ≠ .ready) → u ∈ s'.behind

theorem left_schedule {t : Fibers} (h : s.runQueue.Nodup) (hc : t.currentFiber = some x)
    (hr : t.runQueue = s.runQueue.erase x) (hs : ∀ y, y ≠ x → t.stage y = s.stage y)
    (hb : ∀ u, t.stage x ≠ .animating ∧ u ∈ s.behind ∨
      t.stage x = .animating ∧ .handler u ∈ t.runQueue → u ∈ t.behind) :
    Left s x t.schedule := by
  have hx : x ∉ t.runQueue := by
    rw [hr]
    exact fun hm => (h.mem_erase_iff.mp hm).1 rfl
  have hn : t.runQueue.Nodup := hr ▸ h.erase x
  constructor
  · exact hs
  · intro y z
    show Precedes t.runQueue y z ↔ _
    rw [hr, precedes_erase h]
  · intro c hcur
    have hnext : next t.runQueue (some x) = some c := hc ▸ hcur
    refine ⟨next_mem hn hnext, fun y => ?_⟩
    rw [next_of_notMem hx] at hnext
    exact not_precedes_head hn hnext
  · intro hcur y hy
    rw [show t.schedule.runQueue = [] from next_eq_none.mp hcur] at hy
    cases hy
  · intro u hu hin hm
    refine mem_behind_schedule.mpr ⟨fun hboth => hm hboth.1 hboth.2, hb u hin, ?_⟩
    rw [hc]
    exact fun e => hu (Option.some.inj e)

theorem left_leave (h : s.Queues) (hc : s.currentFiber = some x) :
    Left s x (s.dequeueFiber x .away).schedule :=
  left_schedule h.runNodup hc rfl (fun y hy => Function.update_of_ne hy _ _) fun u hu => by
    simpa [dequeueFiber] using hu

theorem leave_away (s : Fibers) (x : Fiber) :
    (s.dequeueFiber x .away).schedule.stage x = .away := by
  rw [schedule_stage, dequeueFiber_stage, if_pos rfl]

theorem left_animate (h : s.Queues) (hc : s.currentFiber = some x) :
    Left s x (s.animate x).schedule :=
  left_schedule h.runNodup hc rfl (fun y hy => Function.update_of_ne hy _ _) fun u hu => by
    rw [mem_behind_animate]
    simpa [animate, dequeueFiber] using hu

theorem left_scroll (h : s.Queues) (hc : s.currentFiber = some x) :
    Left s x (s.scroll x).schedule := by
  unfold scroll
  cases hd : s.display with
  | none => exact left_animate h hc
  | some y =>
      exact left_schedule h.runNodup hc rfl (fun y hy => Function.update_of_ne hy _ _)
        fun u hu => by simpa [dequeueFiber] using hu

/-! ## 5. Whose turn it is -/

theorem turn_left (ht : s.Turn) (hq : s'.Queues) (hl : Left s x s') (hc : s.currentFiber = some x)
    (hx : s'.stage x = .away ∨ s'.stage x = .waiting ∨ s'.stage x = .animating) : s'.Turn := by
  obtain ⟨t1, t2, t3, t4⟩ := ht
  obtain ⟨l1, l2, l3, l4, l5⟩ := hl
  obtain ⟨h1, h2, h3, h4, h5⟩ := hq
  constructor
  · exact fun c h => (l3 c h).1
  · exact fun y _ c h => (l3 c h).2 y
  · grind
  · intro ha u hu
    have hxu : x ≠ .handler u := by
      rintro rfl
      grind
    refine l5 u hxu ?_ fun _ => by rw [ha]; decide
    by_cases hm : x = .main
    · rw [hm]
      exact .inr ⟨ha, (h2 _).mpr (by grind)⟩
    · -- main's animation goes on, so `x` has none
      refine .inl ⟨fun hxa => ?_, t4 (l1 .main (Ne.symm hm) ▸ ha) u (l1 _ (Ne.symm hxu) ▸ hu)⟩
      have hboth := (h5 x).mpr hxa
      rw [(h5 .main).mpr ha] at hboth
      exact hm (Option.some.inj hboth).symm

theorem turn_wake (ht : s.Turn) (hq : s.Queues) (ha : s.stage .main = .away) :
    (s.queueFiber .main .ready).Turn := by
  obtain ⟨t1, t2, t3, t4⟩ := ht
  obtain ⟨h1, h2, h3, h4, h5⟩ := hq
  constructor
  all_goals
    simp only [queueFiber, Function.update_apply, precedes_snoc]
    grind

theorem turn_finish (ht : s.Turn) (hq : s.Queues) (hd : s.display = some x) :
    (s.sendAnimationCompleteEvent x).Turn := by
  have hx : s.stage x = .animating := (hq.display x).mp hd
  obtain ⟨t1, t2, t3, t4⟩ := ht
  obtain ⟨h1, h2, h3, h4, h5⟩ := hq
  cases hw : s.waitQueue with
  | nil =>
      rw [finish_nil hw]
      constructor
      all_goals
        simp only [queueFiber, Function.update_apply, precedes_snoc]
        grind
  | cons w ws =>
      have hs : s.stage w = .waiting := (h4 w).mp (by rw [hw]; exact List.mem_cons_self)
      rw [finish_cons hw]
      constructor
      all_goals
        simp only [queueFiber, Function.update_apply, precedes_snoc]
        grind

/-- The idle fiber starts a handler. -/
theorem turn_start (ht : s.Turn) (hq : s.Queues) (hc : s.currentFiber = none)
    (ha : s.stage (.handler v) = .away) : (s.scroll (.handler v)).Turn := by
  have hv : .handler v ∉ s.runQueue := by
    rw [hq.run, ha]
    decide
  obtain ⟨t1, t2, t3, t4⟩ := ht
  obtain ⟨h1, h2, h3, h4, h5⟩ := hq
  unfold scroll
  cases hd : s.display with
  | none =>
      constructor
      all_goals
        simp only [animate, dequeueFiber, Function.update_apply, List.erase_of_not_mem hv]
        grind
  | some y =>
      constructor
      all_goals
        simp only [dequeueFiber, Function.update_apply, List.erase_of_not_mem hv]
        grind

/-- **The turn goes on**, from the idle fiber or from a fiber that stays on the run queue and was
    not woken. -/
theorem turn_schedule (ht : s.Turn) (hq : s.Queues)
    (hc : ∀ c, s.currentFiber = some c → s.stage c = .ready)
    (hr : s.runQueue ≠ []) : s.schedule.Turn := by
  obtain ⟨t1, t2, t3, t4⟩ := ht
  constructor
  · exact fun c h => next_mem hq.runNodup h
  · intro x hx c hnext
    cases hcur : s.currentFiber with
    | none => exact not_precedes_head hq.runNodup (by rw [← hnext, schedule, hcur]; rfl)
    | some y =>
        have hy := hc y hcur
        refine next_not_overtaken hq.runNodup (hcur ▸ hnext) ?_ (t2 x hx y hcur)
        rintro rfl
        rw [schedule_stage, hy] at hx
        rcases hx with hx | hx <;> cases hx
  · exact fun h => absurd (next_eq_none.mp h) hr
  · intro ha u hu
    refine mem_behind_schedule.mpr ⟨fun h => ?_, t4 ha u hu, fun h => ?_⟩
    · rw [schedule_stage, h.2] at ha
      cases ha
    · rw [schedule_stage, hc _ h] at hu
      rcases hu with hu | hu <;> cases hu

/-! ## 6. The order of the handlers -/

attribute [local grind] Quiet

theorem not_ne (f : Bool) : (!f) ≠ f := by
  cases f <;> decide

theorem order_away {g : Bool} (hf : s.stage (.handler f) = .away)
    (hg : s.stage (.handler g) = .away) : s.Order f g := by
  constructor <;> simp [hf, hg]

/-- `scroll`, if the display is taken: the last one to wait. -/
theorem scroll_waitQueue (hd : s.display ≠ none) (x : Fiber) :
    (s.scroll x).waitQueue = s.waitQueue ++ [x] := by
  unfold scroll
  cases h : s.display with
  | none => exact absurd h hd
  | some y => rfl

/-- **`g` does not get to the end of its `scroll` before `f`.** -/
theorem second_not_woken (h : s.Inv f) (hc : s.currentFiber = some (.handler !f)) :
    s.stage (.handler !f) = .ready := by
  obtain ⟨⟨h1, h2, h3, h4, h5⟩, ⟨t1, t2, t3, t4⟩, ⟨o1, o2, o3, o4, o5, o6⟩⟩ := h
  have hrun := (h2 _).mp (t1 _ hc)
  cases hf : s.stage (.handler f) <;> grind

/-- **Whoever gets to the end of its `scroll` is `f`.** -/
theorem scrolled_first (h : s.Inv f) (hc : s.currentFiber = some (.handler v))
    (hs : s.stage (.handler v) = .ended ∨ s.stage (.handler v) = .woken ∧ s.display ≠ none) :
    v = f := by
  by_contra hv
  obtain rfl : v = !f := Bool.eq_not.mpr hv
  rw [second_not_woken h hc] at hs
  rcases hs with hs | ⟨hs, -⟩ <;> cases hs

/-- Main's turn, after which it is away, or waits, or animates. -/
theorem order_main (h : s.Inv f) (hq : s'.Queues) (hl : Left s .main s')
    (hc : s.currentFiber = some .main)
    (hd : s'.stage .main = .away ∧ (s.stage .main = .woken → s.display ≠ none) ∨
      s'.stage .main = .waiting ∧ s.stage .main = .ready ∧ s.display ≠ none ∨
      s'.stage .main = .animating ∧ s.stage .main ≠ .ended ∧ s.display = none)
    (hw : ∀ u v, Precedes s.waitQueue (.handler u) (.handler v) →
      Precedes s'.waitQueue (.handler u) (.handler v)) : s'.Order f (!f) := by
  have hfree := h.queues.not_animating
  have hdisp := fiberOption_cases f s.display
  obtain ⟨⟨h1, h2, h3, h4, h5⟩, ⟨t1, t2, t3, t4⟩, ⟨o1, o2, o3, o4, o5, o6⟩⟩ := h
  obtain ⟨l1, l2, l3, l4, l5⟩ := hl
  have hr := hq.run
  have hf := l1 (.handler f) (by simp)
  have hg := l1 (.handler !f) (by simp)
  have hne := not_ne f
  constructor
  all_goals grind

/-- `f` calls `scroll`, or takes the display it was woken for. -/
theorem order_first (h : s.Inv f) (hq : s'.Queues) (hl : Left s (.handler f) s')
    (hc : s.currentFiber = some (.handler f))
    (hd : s'.stage (.handler f) = .waiting ∧ s.stage (.handler f) = .ready ∧ s.display ≠ none ∨
      s'.stage (.handler f) = .animating ∧ s.stage (.handler f) ≠ .ended ∧ s.display = none) :
    s'.Order f (!f) := by
  have hfree := h.queues.not_animating
  have hdisp := fiberOption_cases f s.display
  obtain ⟨⟨h1, h2, h3, h4, h5⟩, ⟨t1, t2, t3, t4⟩, ⟨o1, o2, o3, o4, o5, o6⟩⟩ := h
  obtain ⟨l1, l2, l3, l4, l5⟩ := hl
  have hr := hq.run
  have hm := l1 .main (by simp)
  have hg := l1 (.handler !f) (by simp)
  have hne := not_ne f
  constructor
  all_goals
    cases hs : s.stage (.handler !f)
    all_goals grind

/-- `g` calls `scroll`: behind `f` if the display is taken; and if it is free, `f` has only its
    turn before it, and has it before the animation ends. -/
theorem order_second (h : s.Inv f) (hq : s'.Queues) (hl : Left s (.handler !f) s')
    (hc : s.currentFiber = some (.handler !f))
    (hd : s'.stage (.handler !f) = .waiting ∧ s.display ≠ none ∧
        s'.waitQueue = s.waitQueue ++ [.handler !f] ∨
      s'.stage (.handler !f) = .animating ∧ s.display = none) : s'.Order f (!f) := by
  have hready := second_not_woken h hc
  have hfree := h.queues.not_animating
  have hdisp := fiberOption_cases f s.display
  obtain ⟨⟨h1, h2, h3, h4, h5⟩, ⟨t1, t2, t3, t4⟩, ⟨o1, o2, o3, o4, o5, o6⟩⟩ := h
  obtain ⟨l1, l2, l3, l4, l5⟩ := hl
  have hr := hq.run
  have hm := l1 .main (by simp)
  have hf := l1 (.handler f) (by simp)
  have hne := not_ne f
  have hb := l5 f (by simp)
  -- if `f` were about to call its callback as well, its turn would come first
  have hfr : s.stage (.handler f) ≠ .ready := fun hfr => by
    rcases o2 hfr with hg | ⟨-, hfg, hcur⟩
    · rw [hready] at hg
      cases hg
    · exact (hcur _ hc hfg).ne h1 rfl
  constructor
  all_goals grind [precedes_snoc]

/-- `f` has assigned and exits: `g` has the oldest event now. -/
theorem order_exit (h : s.Inv f) (hq : s'.Queues) (hl : Left s (.handler f) s')
    (hs : s.stage (.handler f) = .ended ∨ s.stage (.handler f) = .woken ∧ s.display ≠ none)
    (ha : s'.stage (.handler f) = .away) : s'.Order (!f) f := by
  have hdisp := fiberOption_cases f s.display
  have hcur := fiberOption_cases f s'.currentFiber
  obtain ⟨⟨h1, h2, h3, h4, h5⟩, ⟨t1, t2, t3, t4⟩, ⟨o1, o2, o3, o4, o5, o6⟩⟩ := h
  obtain ⟨l1, l2, l3, l4, l5⟩ := hl
  have hr := hq.run
  have hm := l1 .main (by simp)
  have hg := l1 (.handler !f) (by simp)
  have hne := not_ne f
  constructor
  all_goals grind

/-- Where the turn goes from a fiber that stays on the run queue. -/
theorem next_turn {o : Option Fiber} (hq : s.runQueue.Nodup) (hn : o = next s.runQueue (some x)) :
    (o = none → s.runQueue = []) ∧ (∀ c, o = some c → c ∈ s.runQueue) ∧
      ∀ c, o = some c →
        (Precedes s.runQueue x c ∧ ∀ y, Precedes s.runQueue x y → ¬ Precedes s.runQueue y c) ∨
          ((∀ y, ¬ Precedes s.runQueue x y) ∧ ∀ y, ¬ Precedes s.runQueue y c) := by
  subst hn
  exact ⟨next_eq_none.mp, fun c => next_mem hq, fun c => next_cases hq⟩

/-- `f` has assigned and will call its callback again: `g` has the oldest event now, and whoever
    stands right behind `f` is next. -/
theorem order_again (h : s.Inv f) (hc : s.currentFiber = some (.handler f))
    (hs : s.stage (.handler f) = .ended ∨ s.stage (.handler f) = .woken ∧ s.display ≠ none)
    (ha : s'.stage (.handler f) = .ready) (hst : ∀ y, y ≠ .handler f → s'.stage y = s.stage y)
    (hg : s.stage (.handler !f) ≠ .away) (hr : s'.runQueue = s.runQueue)
    (hn : s'.currentFiber = next s.runQueue (some (.handler f))) : s'.Order (!f) f := by
  have hdisp := fiberOption_cases f s.display
  have hcur := fiberOption_cases f s'.currentFiber
  obtain ⟨⟨h1, h2, h3, h4, h5⟩, ⟨t1, t2, t3, t4⟩, ⟨o1, o2, o3, o4, o5, o6⟩⟩ := h
  have hm := hst .main (by simp)
  have hg' := hst (.handler !f) (by simp)
  have hne := not_ne f
  obtain ⟨hnone, hmem, hnext⟩ := next_turn h1 hn
  have htotal := @precedes_total _ s.runQueue
  have hasymm := fun x y (hxy : Precedes s.runQueue x y) => hxy.asymm h1
  constructor
  all_goals
    cases hs : s.stage (.handler !f)
    all_goals grind

/-- Main calls `schedule`. -/
theorem order_yield (h : s.Inv f) (hc : s.currentFiber = some .main)
    (hs : s.stage .main = .ready) : s.schedule.Order f (!f) := by
  have hb := @mem_behind_schedule s f
  have hcur := fiberOption_cases f s.schedule.currentFiber
  obtain ⟨⟨h1, h2, h3, h4, h5⟩, ⟨t1, t2, t3, t4⟩, ⟨o1, o2, o3, o4, o5, o6⟩⟩ := h
  have hn : s.schedule.currentFiber = next s.runQueue (some .main) := by rw [schedule, hc]
  obtain ⟨hnone, hmem, hnext⟩ := next_turn h1 hn
  have htotal := @precedes_total _ s.runQueue
  have hasymm := fun x y (hxy : Precedes s.runQueue x y) => hxy.asymm h1
  have hst := s.schedule_stage
  have hr : s.schedule.runQueue = s.runQueue := rfl
  have hw : s.schedule.waitQueue = s.waitQueue := rfl
  constructor
  all_goals
    cases hg : s.stage (.handler !f)
    all_goals grind

/-- Main is woken, behind everyone. -/
theorem order_wake (h : s.Inv f) (ha : s.stage .main = .away) :
    (s.queueFiber .main .ready).Order f (!f) := by
  have hm : .main ∉ s.runQueue := by
    rw [h.queues.run, ha]
    decide
  have hst := s.queueFiber_stage .main
  obtain ⟨⟨h1, h2, h3, h4, h5⟩, ⟨t1, t2, t3, t4⟩, ⟨o1, o2, o3, o4, o5, o6⟩⟩ := h
  have hr : ∀ y z, Precedes (s.queueFiber .main .ready).runQueue y z ↔
      Precedes s.runQueue y z ∨ y ∈ s.runQueue ∧ z = .main := fun y z => precedes_snoc
  have hcur : (s.queueFiber .main .ready).currentFiber = s.currentFiber := rfl
  have hb : (s.queueFiber .main .ready).behind = s.behind := rfl
  have hw : (s.queueFiber .main .ready).waitQueue = s.waitQueue := rfl
  constructor
  all_goals grind

/-- The idle fiber goes to the head of the run queue. -/
theorem order_switch (h : s.Inv f) (hc : s.currentFiber = none) (hr : s.runQueue ≠ []) :
    s.schedule.Order f (!f) := by
  have hb := @mem_behind_schedule s f
  obtain ⟨⟨h1, h2, h3, h4, h5⟩, ⟨t1, t2, t3, t4⟩, ⟨o1, o2, o3, o4, o5, o6⟩⟩ := h
  have hnext : s.schedule.currentFiber = s.runQueue.head? := by
    rw [schedule, hc]
    rfl
  have hnone : s.schedule.currentFiber ≠ none := fun e => hr (List.head?_eq_none_iff.mp (hnext ▸ e))
  have hhead := fun c x (e : s.schedule.currentFiber = some c) =>
    @not_precedes_head _ _ x c h1 (hnext ▸ e)
  have hst := s.schedule_stage
  have hrq : s.schedule.runQueue = s.runQueue := rfl
  have hw : s.schedule.waitQueue = s.waitQueue := rfl
  constructor
  all_goals grind

/-- Who has the display if the handlers have not. -/
theorem main_animating (h : s.Queues) (hd : s.display ≠ none)
    (hf : s.stage (.handler f) ≠ .animating) (hg : s.stage (.handler !f) ≠ .animating) :
    s.stage .main = .animating := by
  obtain ⟨x, hx⟩ := h.exists_animating hd
  rcases fiber_cases f x with rfl | rfl | rfl
  · exact hx
  · exact absurd hx hf
  · exact absurd hx hg

/-- The idle fiber starts `f`: the display is free, or main has it. -/
theorem order_start_first (h : s.Inv f) (ha : s.stage (.handler f) = .away) :
    (s.scroll (.handler f)).Order f (!f) := by
  have hg : s.stage (.handler !f) = .away := by
    by_contra hg
    exact h.order.active hg ha
  by_cases hd : s.display = none
  · rw [scroll_free hd]
    constructor <;> simp [animate_stage, hg]
  · have hm := main_animating (f := f) h.queues hd (by simp [ha]) (by simp [hg])
    constructor <;> simp [scroll_stage_busy hd, hg, hm]

/-- The idle fiber starts `g`: `f` is in its `scroll` by then, and if the display is free, `f` has
    only its turn before it. -/
theorem order_start_second (h : s.Inv f) (hc : s.currentFiber = none)
    (hf : s.stage (.handler f) ≠ .away) (ha : s.stage (.handler !f) = .away) :
    (s.scroll (.handler !f)).Order f (!f) := by
  have hg : .handler (!f) ∉ s.runQueue := by
    rw [h.queues.run, ha]
    decide
  have hfree := h.queues.not_animating
  have hmain := @main_animating s f h.queues
  obtain ⟨⟨h1, h2, h3, h4, h5⟩, ⟨t1, t2, t3, t4⟩, ⟨o1, o2, o3, o4, o5, o6⟩⟩ := h
  have hne := not_ne f
  by_cases hd : s.display = none
  · rw [scroll_free hd]
    have hst := s.animate_stage (.handler !f)
    have hb := @mem_behind_animate s (.handler !f) f
    have hr : (s.animate (.handler !f)).runQueue = s.runQueue := List.erase_of_not_mem hg
    have hcur : (s.animate (.handler !f)).currentFiber = none := hc
    rw [List.erase_of_not_mem hg] at hb
    constructor
    all_goals
      cases hs : s.stage (.handler f)
      all_goals grind
  · have hst := scroll_stage_busy hd (.handler !f)
    have hw := scroll_waitQueue hd (.handler !f)
    constructor
    all_goals
      cases hs : s.stage (.handler f)
      all_goals grind [precedes_snoc]

/-- **The end of an animation.** -/
theorem order_finish (h : s.Inv f) (hd : s.display = some x) (hb : s.behind = []) :
    (s.sendAnimationCompleteEvent x).Order f (!f) := by
  have hx : s.stage x = .animating := (h.queues.display x).mp hd
  have hm : x ∉ s.runQueue := by
    rw [h.queues.run, hx]
    decide
  have hne := not_ne f
  have hcur := fiberOption_cases f s.currentFiber
  obtain ⟨⟨h1, h2, h3, h4, h5⟩, ⟨t1, t2, t3, t4⟩, ⟨o1, o2, o3, o4, o5, o6⟩⟩ := h
  cases hw : s.waitQueue with
  | nil =>
      rw [finish_nil hw]
      rcases fiber_cases f x with rfl | rfl | rfl
      all_goals
        constructor
        all_goals
          simp only [queueFiber, Function.update_apply, precedes_snoc, Quiet]
          grind
  | cons w ws =>
      have hs : s.stage w = .waiting := (h4 w).mp (by rw [hw]; exact List.mem_cons_self)
      rw [finish_cons hw]
      rw [hw] at h3 h4 o3
      rcases fiber_cases f x with rfl | rfl | rfl
      all_goals
        rcases fiber_cases f w with rfl | rfl | rfl
        all_goals
          constructor
          all_goals
            simp only [queueFiber, Function.update_apply, precedes_snoc, Quiet]
            grind [precedes_cons]

/-! ## 7. Steps -/

/-- What is neither queue nor stage does not count. -/
theorem Inv.congr {t : Fibers} (h : s.Inv f) (hst : t.stage = s.stage)
    (hr : t.runQueue = s.runQueue) (hw : t.waitQueue = s.waitQueue)
    (hc : t.currentFiber = s.currentFiber) (hd : t.display = s.display)
    (hb : t.behind = s.behind) : t.Inv f := by
  obtain ⟨⟨h1, h2, h3, h4, h5⟩, ⟨t1, t2, t3, t4⟩, ⟨o1, o2, o3, o4, o5, o6⟩⟩ := h
  refine ⟨⟨?_, ?_, ?_, ?_, ?_⟩, ⟨?_, ?_, ?_, ?_⟩, ⟨?_, ?_, ?_, ?_, ?_, ?_⟩⟩
  all_goals
    simp only [hst, hr, hw, hc, hd, hb, Quiet]
    assumption

theorem inv_init : init.Inv true where
  queues := queues_init
  turn := by
    constructor
    · simp [init]
    · intro x hx
      cases x <;> simp [init] at hx
    · simp [init]
    · simp [init]
  order := order_away rfl rfl

theorem Inv.wake (h : s.Inv f) (ha : s.stage .main = .away) :
    (s.queueFiber .main .ready).Inv f :=
  ⟨h.queues.wake ha, turn_wake h.turn h.queues ha, order_wake h ha⟩

theorem Inv.finish (h : s.Inv f) (hd : s.display = some x) (hb : s.behind = []) :
    (s.sendAnimationCompleteEvent x).Inv f :=
  ⟨h.queues.finish hd, turn_finish h.turn h.queues hd, order_finish h hd hb⟩

theorem Inv.start_first (h : s.Inv f) (hc : s.currentFiber = none)
    (ha : s.stage (.handler f) = .away) : (s.scroll (.handler f)).Inv f :=
  ⟨h.queues.scroll (by simp [ha]) (by simp [ha]), turn_start h.turn h.queues hc ha,
    order_start_first h ha⟩

theorem Inv.start_second (h : s.Inv f) (hc : s.currentFiber = none)
    (hf : s.stage (.handler f) ≠ .away) (ha : s.stage (.handler !f) = .away) :
    (s.scroll (.handler !f)).Inv f :=
  ⟨h.queues.scroll (by simp [ha]) (by simp [ha]), turn_start h.turn h.queues hc ha,
    order_start_second h hc hf ha⟩

theorem Inv.switch (h : s.Inv f) (hc : s.currentFiber = none) (hr : s.runQueue ≠ []) :
    s.schedule.Inv f :=
  ⟨h.queues.schedule, turn_schedule h.turn h.queues (fun c e => by rw [hc] at e; cases e) hr,
    order_switch h hc hr⟩

theorem Inv.yield (h : s.Inv f) (hc : s.currentFiber = some .main)
    (hs : s.stage .main = .ready) : s.schedule.Inv f := by
  have hcur : ∀ c, s.currentFiber = some c → s.stage c = .ready := fun c e => by
    rw [← Option.some.inj (hc.symm.trans e), hs]
  exact ⟨h.queues.schedule,
    turn_schedule h.turn h.queues hcur (List.ne_nil_of_mem (h.turn.current _ hc)),
    order_yield h hc hs⟩

/-- Main goes to sleep, or has nothing more to do in `scroll`. -/
theorem Inv.main_leave (h : s.Inv f) (hc : s.currentFiber = some .main)
    (hs : s.stage .main = .woken → s.display ≠ none) :
    (s.dequeueFiber .main .away).schedule.Inv f := by
  have hl := left_leave h.queues hc
  have hq := (h.queues.leave (h.turn.current _ hc)).schedule
  have ha := s.leave_away .main
  exact ⟨hq, turn_left h.turn hq hl hc (.inl ha),
    order_main h hq hl hc (.inl ⟨ha, hs⟩) fun _ _ => id⟩

/-- Whoever calls `scroll`, or was woken for the display and finds it free. -/
theorem Inv.scroll (h : s.Inv f) (hc : s.currentFiber = some x)
    (hs : s.stage x = .ready ∨ s.stage x = .woken ∧ s.display = none) :
    (s.scroll x).schedule.Inv f := by
  have hl := left_scroll h.queues hc
  have hq : (s.scroll x).schedule.Queues := (h.queues.scroll (by grind) (by grind)).schedule
  have hst : (s.scroll x).schedule.stage x = .waiting ∧ s.stage x = .ready ∧ s.display ≠ none ∨
      (s.scroll x).schedule.stage x = .animating ∧ s.stage x ≠ .ended ∧ s.display = none := by
    rw [schedule_stage]
    by_cases hd : s.display = none
    · rw [scroll_free hd, animate_stage]
      grind
    · rw [scroll_stage_busy hd]
      grind
  refine ⟨hq, turn_left h.turn hq hl hc (by grind), ?_⟩
  rcases fiber_cases f x with rfl | rfl | rfl
  · refine order_main h hq hl hc (.inr hst) fun u v huv => ?_
    show Precedes (s.scroll .main).waitQueue _ _
    by_cases hd : s.display = none
    · rw [scroll_free hd]
      exact huv
    · rw [scroll_waitQueue hd]
      exact precedes_snoc.mpr (.inl huv)
  · exact order_first h hq hl hc hst
  · refine order_second h hq hl hc (hst.imp (fun hw => ⟨hw.1, hw.2.2, ?_⟩) fun ha => ⟨ha.1, ha.2.2⟩)
    exact scroll_waitQueue hw.2.2 _

/-- **`f` assigns and exits.** -/
theorem Inv.exit (h : s.Inv f) (hc : s.currentFiber = some (.handler f))
    (hs : s.stage (.handler f) = .ended ∨ s.stage (.handler f) = .woken ∧ s.display ≠ none)
    (hn : s.queued f = 0) : (s.assign f).schedule.Inv (!f) := by
  have hl : Left s (.handler f) (s.dequeueFiber (.handler f) .away).schedule :=
    left_leave h.queues hc
  have hq := (h.queues.leave (h.turn.current _ hc)).schedule
  have ha := s.leave_away (.handler f)
  have hi : (s.dequeueFiber (.handler f) .away).schedule.Inv (!f) :=
    ⟨hq, turn_left h.turn hq hl hc (.inl ha), (Bool.not_not f).symm ▸ order_exit h hq hl hs ha⟩
  rw [assign, if_pos hn]
  exact hi.congr rfl rfl rfl rfl rfl rfl

/-- **`f` assigns and calls its callback again.** -/
theorem Inv.again (h : s.Inv f) (hc : s.currentFiber = some (.handler f))
    (hs : s.stage (.handler f) = .ended ∨ s.stage (.handler f) = .woken ∧ s.display ≠ none)
    (hn : s.queued f ≠ 0) (hg : s.stage (.handler !f) ≠ .away) :
    (s.assign f).schedule.Inv (!f) := by
  have hm := h.turn.current _ hc
  have hq : (s.assign f).Queues := h.queues.assign hm
  have ha : s.assign f = { s with
      stage := Function.update s.stage (.handler f) .ready,
      queued := Function.update s.queued f (s.queued f - 1), connected := f } := if_neg hn
  have hst : ∀ y, (s.assign f).stage y = if y = .handler f then .ready else s.stage y := fun y => by
    simp only [ha, Function.update_apply]
  have hr : (s.assign f).runQueue = s.runQueue := by rw [ha]
  have hcur : (s.assign f).currentFiber = some (.handler f) := by rw [ha, hc]
  have hb : (s.assign f).behind = s.behind := by rw [ha]
  have ht : (s.assign f).Turn := by
    obtain ⟨t1, t2, t3, t4⟩ := h.turn
    constructor
    all_goals grind
  refine ⟨hq.schedule, turn_schedule ht hq (fun c hc' => ?_) ?_, ?_⟩
  · rw [← Option.some.inj (hcur.symm.trans hc'), hst, if_pos rfl]
  · exact List.ne_nil_of_mem (hr ▸ hm)
  · rw [Bool.not_not]
    refine order_again h hc hs ?_ (fun y hy => ?_) hg hr ?_
    · rw [schedule_stage, hst, if_pos rfl]
    · rw [schedule_stage, hst, if_neg hy]
    · show next (s.assign f).runQueue (s.assign f).currentFiber = _
      rw [hr, hcur]

end Fibers

end MicrobitAlarm
