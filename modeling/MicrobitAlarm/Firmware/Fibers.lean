/-
  File:      MicrobitAlarm/Firmware/Fibers.lean
  Subject:   THE FIBERS BEHIND THE CONNECTED FLAG: the main fiber and the fibers of `onConnected`
             and `onDisconnected`, with the scheduler (MicroBitFiber.cpp), the message bus
             (MicroBitMessageBus.cpp) and the display they meet at (MicroBitDisplay.cpp).

  The board lets any pending handler finish next; here it is worked out which one does. A step is
  what a fiber does from where it got the processor to its next call of `schedule()`, or an
  interrupt: the link going up or down, the tick that wakes main, the end of an animation. An
  interrupt inside a step finds and leaves the queues as one before or behind it does.

  `display.scroll` is `waitForFreeDisplay`, then `scrollAsync` and `fiberWait` if the display is
  free, and nothing if it is not. A test and the registration that follows it are one step; in the
  DAL a handler that forks on block registers a turn later, and an event in between is lost on it.

  Of time there is this: an animation takes 14 updates, 120 ms apart, and a handler's turn a few
  instructions. So an animation does not end before the handlers that were on the run queue when it
  began (`behind`) have had a turn, unless main has computed in the meantime -- main may keep the
  processor for as long as it likes.

  Events are neither lost by the bus nor by a listener: both queues are unbounded. Those of one
  listener are all alike, so its queue is a number.
-/
import MicrobitAlarm.Lib.RoundRobin
import MicrobitAlarm.Lib.Trace
import Mathlib.Logic.Function.Basic

namespace MicrobitAlarm

/-! ## 1. Fibers -/

/-- The fibers: main's, and that of the listener that assigns a value. -/
inductive Fiber where
  | main
  | handler (connected : Bool)
  deriving DecidableEq

/-- What a fiber is at. -/
inductive Stage where
  /-- main sleeps or waits; a handler has no fiber -/
  | away
  /-- runnable, outside `scroll`: main computes, a handler calls its callback once more -/
  | ready
  /-- in `waitForFreeDisplay`, blocked -/
  | waiting
  /-- in `waitForFreeDisplay`, woken -/
  | woken
  /-- in `fiberWait`, blocked -/
  | animating
  /-- in `fiberWait`, woken -/
  | ended
  deriving DecidableEq

/-- The stages of a fiber on the run queue. -/
def Stage.runnable : Stage → Bool
  | .ready | .woken | .ended => true
  | _ => false

/-- The listener of a handler's fiber. -/
def Fiber.listener : Fiber → Option Bool
  | .main => none
  | .handler v => some v

/-- The fibers with the queues they are on, the display and the message bus. -/
structure Fibers where
  stage : Fiber → Stage
  runQueue : List Fiber
  /-- the fibers blocked on `MICROBIT_DISPLAY_EVT_FREE` -/
  waitQueue : List Fiber
  /-- `none` is the idle fiber -/
  currentFiber : Option Fiber
  /-- the fiber whose animation is running -/
  display : Option Fiber
  /-- the handlers whose turn the animation waits for -/
  behind : List Bool
  /-- the queue of the message bus -/
  bus : List Bool
  /-- the length of a listener's queue -/
  queued : Bool → Nat
  connected : Bool
  /-- the last event was a connect -/
  link : Bool

/-- Main runs, and nothing has happened. -/
def Fibers.init : Fibers :=
  { stage := Function.update (fun _ => .away) .main .ready, runQueue := [.main], waitQueue := [],
    currentFiber := some .main, display := none, behind := [], bus := [], queued := fun _ => 0,
    connected := false, link := false }

/-! ## 2. The scheduler, the display and the message bus -/

namespace Fibers

/-- `queue_fiber(f, &runQueue)`. -/
def queueFiber (s : Fibers) (x : Fiber) (st : Stage) : Fibers :=
  { s with stage := Function.update s.stage x st, runQueue := s.runQueue ++ [x] }

/-- `dequeue_fiber(f)`. -/
def dequeueFiber (s : Fibers) (x : Fiber) (st : Stage) : Fibers :=
  { s with stage := Function.update s.stage x st, runQueue := s.runQueue.erase x }

/-- **`schedule()`**: the current fiber's turn is over. -/
def schedule (s : Fibers) : Fibers :=
  let current := RoundRobin.next s.runQueue s.currentFiber
  { s with currentFiber := current,
           behind :=
             if current = some .main ∧ s.stage .main = .ready then []
             else s.behind.filter fun v => s.currentFiber ≠ some (.handler v) }

/-- `scrollAsync`, and `fiberWait` up to its call of `schedule`. -/
def animate (s : Fibers) (x : Fiber) : Fibers :=
  { s.dequeueFiber x .animating with
    display := some x, behind := (s.runQueue.erase x).filterMap Fiber.listener }

/-- **`display.scroll`** up to its first call of `schedule`. -/
def scroll (s : Fibers) (x : Fiber) : Fibers :=
  match s.display with
  | some _ => { s.dequeueFiber x .waiting with waitQueue := s.waitQueue ++ [x] }
  | none => s.animate x

/-- **`sendAnimationCompleteEvent`**: the fiber of the animation is woken, and then the one that has
    waited longest for the display. -/
def sendAnimationCompleteEvent (s : Fibers) (x : Fiber) : Fibers :=
  let s := { s.queueFiber x .ended with display := none }
  match s.waitQueue with
  | [] => s
  | w :: ws => { s.queueFiber w .woken with waitQueue := ws }

/-- **The end of a callback** in `async_callback`: `connected` is assigned, and the listener's next
    event is taken up, or its fiber exits. -/
def assign (s : Fibers) (v : Bool) : Fibers :=
  if s.queued v = 0 then { s.dequeueFiber (.handler v) .away with connected := v }
  else { s with stage := Function.update s.stage (.handler v) .ready,
                queued := Function.update s.queued v (s.queued v - 1), connected := v }

/-- **`async_callback`** on an event: the callback is called, unless the listener is busy. -/
def asyncCallback (s : Fibers) (v : Bool) : Fibers :=
  if s.stage (.handler v) = .away then s.scroll (.handler v)
  else { s with queued := Function.update s.queued v (s.queued v + 1) }

@[simp] theorem schedule_stage (s : Fibers) : s.schedule.stage = s.stage := rfl

theorem queueFiber_stage (s : Fibers) (x y : Fiber) (st : Stage) :
    (s.queueFiber x st).stage y = if y = x then st else s.stage y := by
  simp only [queueFiber, Function.update_apply]

theorem dequeueFiber_stage (s : Fibers) (x y : Fiber) (st : Stage) :
    (s.dequeueFiber x st).stage y = if y = x then st else s.stage y := by
  simp only [dequeueFiber, Function.update_apply]

theorem animate_stage (s : Fibers) (x y : Fiber) :
    (s.animate x).stage y = if y = x then .animating else s.stage y :=
  s.dequeueFiber_stage x y .animating

/-- `scroll`, if the display is taken. -/
theorem scroll_stage_busy {s : Fibers} (hd : s.display ≠ none) (x y : Fiber) :
    (s.scroll x).stage y = if y = x then .waiting else s.stage y := by
  cases h : s.display with
  | none => exact absurd h hd
  | some z =>
      simp only [scroll, h]
      exact s.dequeueFiber_stage x y .waiting

theorem scroll_free {s : Fibers} (hd : s.display = none) (x : Fiber) :
    s.scroll x = s.animate x := by
  rw [scroll, hd]

/-- Whoever scrolls has a fiber. -/
theorem scroll_away (s : Fibers) (x y : Fiber) :
    (s.scroll x).stage y = .away ↔ y ≠ x ∧ s.stage y = .away := by
  by_cases hd : s.display = none
  · rw [scroll_free hd, animate_stage]
    split <;> simp [*]
  · rw [scroll_stage_busy hd]
    split <;> simp [*]

/-- `scroll` has nothing to do with the events. -/
theorem scroll_frame (s : Fibers) (x : Fiber) :
    (s.scroll x).queued = s.queued ∧ (s.scroll x).connected = s.connected ∧
      (s.scroll x).bus = s.bus ∧ (s.scroll x).link = s.link := by
  unfold scroll
  cases s.display <;> exact ⟨rfl, rfl, rfl, rfl⟩

theorem asyncCallback_frame (s : Fibers) (v : Bool) :
    (s.asyncCallback v).connected = s.connected ∧ (s.asyncCallback v).bus = s.bus ∧
      (s.asyncCallback v).link = s.link := by
  unfold asyncCallback
  split
  · exact (s.scroll_frame _).2
  · exact ⟨rfl, rfl, rfl⟩

theorem asyncCallback_away (s : Fibers) (u v : Bool) :
    (s.asyncCallback v).stage (.handler u) = .away ↔ u ≠ v ∧ s.stage (.handler u) = .away := by
  unfold asyncCallback
  split
  case isTrue => rw [scroll_away, ne_eq, Fiber.handler.injEq]
  case isFalse ha => exact ⟨fun hu => ⟨fun e => ha (e ▸ hu), hu⟩, And.right⟩

theorem assign_frame (s : Fibers) (v : Bool) :
    (s.assign v).connected = v ∧ (s.assign v).bus = s.bus ∧ (s.assign v).link = s.link := by
  unfold assign
  split <;> exact ⟨rfl, rfl, rfl⟩

theorem assign_away (s : Fibers) (u v : Bool) :
    (s.assign v).stage (.handler u) = .away ↔
      u = v ∧ s.queued v = 0 ∨ u ≠ v ∧ s.stage (.handler u) = .away := by
  unfold assign
  split
  · simp only [dequeueFiber_stage, Fiber.handler.injEq]
    split <;> simp [*]
  · simp only [Function.update_apply, Fiber.handler.injEq]
    split <;> simp [*]

theorem assign_queued (s : Fibers) (u v : Bool) :
    (s.assign v).queued u = if u = v then s.queued v - 1 else s.queued u := by
  unfold assign
  split
  case isTrue h =>
      split
      case isTrue e => rw [e, h]; exact h
      case isFalse => rfl
  case isFalse => exact Function.update_apply ..

/-! ## 3. Steps -/

end Fibers

/-- What can happen next. -/
inductive FiberAct where
  /-- the link goes up, or down -/
  | link
  /-- the timer or a confirmation wakes main -/
  | wake
  /-- the animation ends -/
  | finish
  /-- the idle fiber takes an event from the bus -/
  | deliver
  /-- the idle fiber calls `schedule`; a handler, or main in `scroll`, has its turn -/
  | resume
  /-- main, computing, goes to sleep or waits for an event -/
  | sleep
  /-- main calls `schedule` -/
  | yield
  /-- main calls `display.scroll` -/
  | scroll
  deriving DecidableEq

namespace Fibers

/-- A fiber goes on behind `scroll`. -/
def proceed (s : Fibers) : Fiber → Fibers
  | .main => s.dequeueFiber .main .away
  | .handler v => s.assign v

/-- The turn of a fiber that is in `scroll`, or about to call its callback once more. -/
def turn (s : Fibers) (x : Fiber) : Option Fibers :=
  match s.stage x, x with
  | .ready, .handler v => some (s.scroll (.handler v)).schedule
  | .woken, x =>
    if s.display = none then some (s.animate x).schedule else some (s.proceed x).schedule
  | .ended, x => some (s.proceed x).schedule
  | _, _ => none

/-- What main does if it computes. -/
def compute (s : Fibers) (next : Fibers) : Option (Fibers × List Bool) :=
  if s.currentFiber = some .main ∧ s.stage .main = .ready then some (next, []) else none

/-- **One action**, and the event of the link it reports. -/
def step (s : Fibers) : FiberAct → Option (Fibers × List Bool)
  | .link => some ({ s with link := !s.link, bus := s.bus ++ [!s.link] }, [!s.link])
  | .wake => if s.stage .main = .away then some (s.queueFiber .main .ready, []) else none
  | .finish =>
    match s.display with
    | none => none
    | some x => if s.behind = [] then some (s.sendAnimationCompleteEvent x, []) else none
  | .deliver =>
    match s.currentFiber, s.bus with
    | none, v :: bus => some ({ s with bus := bus }.asyncCallback v, [])
    | _, _ => none
  | .resume =>
    match s.currentFiber with
    | none => if s.runQueue = [] then none else some (s.schedule, [])
    | some x => (s.turn x).map fun s' => (s', [])
  | .sleep => s.compute (s.dequeueFiber .main .away).schedule
  | .yield => s.compute s.schedule
  | .scroll => s.compute (s.scroll .main).schedule

end Fibers

namespace Fibers

/-! ## 4. What a step is -/

/-- **The steps of the fibers**: the state left and the event reported. -/
inductive Step (s : Fibers) : Fibers → List Bool → Prop where
  | link : Step s { s with link := !s.link, bus := s.bus ++ [!s.link] } [!s.link]
  | wake (h : s.stage .main = .away) : Step s (s.queueFiber .main .ready) []
  | finish {x : Fiber} (hd : s.display = some x) (hb : s.behind = []) :
      Step s (s.sendAnimationCompleteEvent x) []
  | deliver {v : Bool} {bus : List Bool} (hc : s.currentFiber = none) (hb : s.bus = v :: bus) :
      Step s ({ s with bus := bus }.asyncCallback v) []
  | switch (hc : s.currentFiber = none) (hr : s.runQueue ≠ []) : Step s s.schedule []
  | call {v : Bool} (hc : s.currentFiber = some (.handler v))
      (hs : s.stage (.handler v) = .ready) : Step s (s.scroll (.handler v)).schedule []
  | take {x : Fiber} (hc : s.currentFiber = some x) (hs : s.stage x = .woken)
      (hd : s.display = none) : Step s (s.animate x).schedule []
  | proceed {x : Fiber} (hc : s.currentFiber = some x)
      (hs : s.stage x = .ended ∨ s.stage x = .woken ∧ s.display ≠ none) :
      Step s (s.proceed x).schedule []
  | sleep (hc : s.currentFiber = some .main) (hs : s.stage .main = .ready) :
      Step s (s.dequeueFiber .main .away).schedule []
  | yield (hc : s.currentFiber = some .main) (hs : s.stage .main = .ready) : Step s s.schedule []
  | scroll (hc : s.currentFiber = some .main) (hs : s.stage .main = .ready) :
      Step s (s.scroll .main).schedule []

variable {s s' : Fibers} {x : Fiber} {ev : List Bool}

theorem turn_cases (hc : s.currentFiber = some x) (ht : s.turn x = some s') : s.Step s' [] := by
  cases hs : s.stage x with
  | ready =>
      cases x with
      | main => simp [turn, hs] at ht
      | handler v =>
          simp only [turn, hs, Option.some.injEq] at ht
          exact ht ▸ .call hc hs
  | woken =>
      simp only [turn, hs] at ht
      split at ht
      · exact Option.some.inj ht ▸ .take hc hs ‹_›
      · exact Option.some.inj ht ▸ .proceed hc (.inr ⟨hs, ‹_›⟩)
  | ended =>
      simp only [turn, hs, Option.some.injEq] at ht
      exact ht ▸ .proceed hc (.inl hs)
  | _ => simp [turn, hs] at ht

theorem compute_cases {n : Fibers} (h : s.compute n = some (s', ev)) :
    s.currentFiber = some .main ∧ s.stage .main = .ready ∧ s' = n ∧ ev = [] := by
  unfold compute at h
  split at h
  case isTrue hm =>
      cases h
      exact ⟨hm.1, hm.2, rfl, rfl⟩
  case isFalse => cases h

/-- **Nothing else happens.** -/
theorem step_cases {a : FiberAct} (h : s.step a = some (s', ev)) : s.Step s' ev := by
  cases a with
  | link =>
      cases h
      exact .link
  | wake =>
      simp only [step] at h
      split at h
      · cases h
        exact .wake ‹_›
      · cases h
  | finish =>
      cases hd : s.display with
      | none => simp [step, hd] at h
      | some x =>
          simp only [step, hd] at h
          split at h
          · cases h
            exact .finish hd ‹_›
          · cases h
  | deliver =>
      simp only [step] at h
      split at h
      · cases h
        exact .deliver ‹_› ‹_›
      · cases h
  | resume =>
      cases hc : s.currentFiber with
      | none =>
          simp only [step, hc] at h
          split at h
          · cases h
          · cases h
            exact .switch hc ‹_›
      | some x =>
          simp only [step, hc] at h
          obtain ⟨n, hn, he⟩ := Option.map_eq_some_iff.mp h
          cases he
          exact turn_cases hc hn
  | sleep =>
      obtain ⟨hc, hs, rfl, rfl⟩ := compute_cases h
      exact .sleep hc hs
  | yield =>
      obtain ⟨hc, hs, rfl, rfl⟩ := compute_cases h
      exact .yield hc hs
  | scroll =>
      obtain ⟨hc, hs, rfl, rfl⟩ := compute_cases h
      exact .scroll hc hs

end Fibers

/-- **The fibers and the events of the link**; a run reports the events. -/
def fibers : Trace.Machine Fibers FiberAct Bool := ⟨Fibers.init, Fibers.step⟩

end MicrobitAlarm
