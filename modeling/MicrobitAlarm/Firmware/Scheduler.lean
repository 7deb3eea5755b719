/-
  File:      MicrobitAlarm/Firmware/Scheduler.lean
  Subject:   THE FIBER SCHEDULER (core/MicroBitFiber.cpp), critical section by critical section.

  A fiber is on one of four queues, which are linked through the fibers. Its own code takes it out
  of one queue and puts it into another when it sleeps, waits or ends; the timer and the events walk
  along the queues and wake who is due. An interrupt can come between any two critical sections, so
  a call is here a list of them, and a walk has a place in its loop.

  * `Queue`, `Op`, `Walk`, `State` -- the fibers, what the calls still have to do, and the open
    walks, the innermost one first;
  * `State.schedule`, `State.run`, `State.call`, `State.walk` -- the functions;
  * `step`, `machine` -- what code and interrupts can do.

  A function that `invoke` calls runs in the name of its caller until it blocks; it then goes on in
  a fiber of its own, and the caller behind `invoke`. Left out: stacks and registers, want of
  memory, `MICROBIT_FIBER_FLAG_DO_NOT_PAGE`, which nothing sets, and the registration of
  `scheduler_event` for single events, so that here it is called for any event. An invoked function
  does not call `schedule()` or `release_fiber()` itself: that would save it in the fiber that was
  forked last.
-/
import MicrobitAlarm.Firmware.MessageBus
import MicrobitAlarm.Lib.LinkedQueue

namespace MicrobitAlarm.Scheduler

open Trace Function LinkedQueue
open MessageBus (MicroBitEvent idAny evtAny)

/-! ## 1. The fibers -/

inductive Queue where
  | runQueue
  | sleepQueue
  | waitQueue
  | fiberPool
  deriving DecidableEq

/-- A critical section of a call, or a step between two of them. -/
inductive Op where
  /-- `f->context = system_timer_current_time() + t` -/
  | sleepUntil (f t : Nat)
  /-- `f->context = value << 16 | id` -/
  | waitFor (f id value : Nat)
  /-- `dequeue_fiber(f)` -/
  | dequeue (f : Nat)
  /-- `queue_fiber(f, &q)` -/
  | queue (f : Nat) (q : Queue)
  | schedule
  deriving DecidableEq

/-- The functions that walk along a queue. -/
inductive Kind where
  /-- `scheduler_tick` -/
  | tick
  /-- `scheduler_event` -/
  | event (evt : MicroBitEvent)
  deriving DecidableEq

/-- The queue a walk is along. -/
def Kind.queue : Kind → Queue
  | .tick => .sleepQueue
  | .event _ => .waitQueue

/-- Where a walk is in its loop. -/
inductive Place where
  /-- `while (f != NULL)` -/
  | loop (f : Option Nat)
  /-- `t = f->next` is done -/
  | found (f : Nat) (t : Option Nat)
  /-- `f` is to be woken, and taken out of its queue -/
  | moved (f : Nat) (t : Option Nat)
  deriving DecidableEq

structure Walk where
  kind : Kind
  notifyOneComplete : Bool
  place : Place
  deriving DecidableEq

/-- The fibers, and what stands in them; of the flags, `MICROBIT_FIBER_FLAG_FOB` and
    `MICROBIT_FIBER_FLAG_CHILD`. `code` is what a fiber has to do before its own code goes on. -/
structure State where
  links : Links Nat Queue
  context : Nat → Nat
  fob : Nat → Bool
  child : Nat → Bool
  code : Nat → List Op
  created : Nat
  currentFiber : Nat
  idleFiber : Nat
  forkedFiber : Option Nat
  now : Nat
  walks : List Walk

inductive Event where
  | queued (f : Nat) (q : Queue)
  | dequeued (f : Nat)
  /-- the fiber gets the processor -/
  | scheduled (f : Nat)
  /-- the code goes on in this fiber, its caller behind `invoke` -/
  | forked (f : Nat)
  /-- a walk begins, at this time -/
  | began (kind : Kind) (t : Nat)
  | woken (f : Nat) (kind : Kind)
  /-- the walk is over -/
  | ended (kind : Kind)
  deriving DecidableEq

/-- `MICROBIT_ID_NOTIFY_ONE`. -/
def idNotifyOne : Nat := 1022

/-- `MICROBIT_ID_NOTIFY`. -/
def idNotify : Nat := 1023

/-! ## 2. Calls -/

/-- What a fiber calls. -/
inductive Call where
  | sleep (t : Nat)
  | wakeOnEvent (id value : Nat)
  | waitForEvent (id value : Nat)
  | createFiber
  | release
  | schedule
  /-- with a parameter for the function, or without -/
  | invoke (param : Bool)
  /-- the function that `invoke` called returns -/
  | returned
  deriving DecidableEq

namespace State

/-- `getFiberContext`: the fiber, and what is to be done to get it. -/
def getFiberContext (s : State) : Nat × List Op × State :=
  match s.links.head .fiberPool with
  | some f =>
    (f, [.dequeue f], { s with fob := update s.fob f false, child := update s.child f false,
                               code := update s.code f [] })
  | none => (s.created, [], { s with created := s.created + 1 })

/-- The current fiber does this next. -/
def does (s : State) (ops : List Op) : State :=
  { s with code := update s.code s.currentFiber ops }

/-- `fiber_sleep`, for the fiber that is to sleep. -/
def sleepOps (f t : Nat) : List Op :=
  [.sleepUntil f t, .dequeue f, .queue f .sleepQueue, .schedule]

/-- `fiber_wake_on_event`, for the fiber that is to wait. -/
def waitOps (f id value : Nat) : List Op := [.waitFor f id value, .dequeue f, .queue f .waitQueue]

/-- What `fiber_wake_on_event` does first with a fiber it has forked. -/
def forkOps (f : Nat) : List Op := [.dequeue f, .queue f .runQueue, .schedule]

/-- **`fiber_sleep`**. -/
def sleep (s : State) (t : Nat) : State :=
  if s.fob s.currentFiber then
    let (f, get, s) := s.getFiberContext
    { s with forkedFiber := some f }.does (get ++ sleepOps f t)
  else s.does (sleepOps s.currentFiber t)

/-- **`fiber_wake_on_event`**, with what the caller does behind it. -/
def wakeOnEvent (s : State) (id value : Nat) (behind : List Op) : State :=
  if s.fob s.currentFiber then
    let (f, get, s) := s.getFiberContext
    { s with forkedFiber := some f }.does (get ++ (forkOps f ++ (waitOps f id value ++ behind)))
  else s.does (waitOps s.currentFiber id value ++ behind)

/-- **`__create_fiber`**. -/
def createFiber (s : State) : State :=
  let (f, get, s) := s.getFiberContext
  s.does (get ++ [.queue f .runQueue])

/-- **`release_fiber`**. -/
def release (s : State) : State :=
  s.does [.dequeue s.currentFiber, .queue s.currentFiber .fiberPool, .schedule]

/-- **`invoke`** up to the call of the function. -/
def invoke (s : State) (param : Bool) : State :=
  let c := s.currentFiber
  -- with a parameter, the flags PARENT and CHILD are asked for too
  if s.fob c ∨ (param ∧ s.child c) then s.createFiber
  else { s with fob := update s.fob c true }

/-- **`invoke`** behind the call of the function. -/
def returned (s : State) : State :=
  let c := s.currentFiber
  let s := { s with fob := update s.fob c false }
  if s.child c then s.release else s

/-- The idle fiber blocks in functions it invokes, never itself. -/
def idles (s : State) : Bool := s.currentFiber = s.idleFiber ∧ s.fob s.currentFiber = false

/-- The current fiber's own code calls. -/
def call (s : State) : Call → Option State
  | .sleep t => if s.idles then none else some (s.sleep t)
  | .wakeOnEvent id value => if s.idles then none else some (s.wakeOnEvent id value [])
  | .waitForEvent id value => if s.idles then none else some (s.wakeOnEvent id value [.schedule])
  | .createFiber => some s.createFiber
  | .release => if s.idles ∨ s.fob s.currentFiber then none else some s.release
  | .schedule => if s.fob s.currentFiber then none else some (s.does [.schedule])
  | .invoke param => some (s.invoke param)
  | .returned =>
    if s.fob s.currentFiber ∨ s.child s.currentFiber then some s.returned else none

/-! ## 3. Scheduling -/

/-- The fiber that `schedule` chooses. -/
def chosen (s : State) : Nat :=
  match s.links.head .runQueue with
  | none => s.idleFiber
  | some h =>
    if s.links.queue s.currentFiber = some .runQueue then (s.links.next s.currentFiber).getD h
    else h

/-- The code goes on in the forked fiber; its caller has returned from `invoke`. -/
def fork (s : State) (f : Nat) : State :=
  { s with fob := update s.fob s.currentFiber false, child := update s.child f true,
           code := update (update s.code f (s.code s.currentFiber)) s.currentFiber [] }

/-- **`schedule`**. -/
def schedule (s : State) : Option (State × List Event) :=
  if s.fob s.currentFiber then s.forkedFiber.map fun f => (s.fork f, [.forked f])
  else some ({ s with currentFiber := s.chosen }, [.scheduled s.chosen])

/-- An operation of a call. -/
def perform (s : State) : Op → Option (State × List Event)
  | .sleepUntil f t =>
    some ({ s with context := update s.context f ((s.now + t) % 4294967296) }, [])
  | .waitFor f id value =>
    some ({ s with context := update s.context f (value % 65536 * 65536 + id % 65536) }, [])
  | .dequeue f => some ({ s with links := s.links.unlink f }, [.dequeued f])
  | .queue f q => some ({ s with links := s.links.append s.created f q }, [.queued f q])
  | .schedule => s.schedule

/-- **The current fiber** goes on with its call. -/
def run (s : State) : Option (State × List Event) :=
  match s.code s.currentFiber with
  | [] => none
  | op :: ops => (s.does ops).perform op

/-! ## 4. Walks -/

/-- The fiber waits for an event that comes on the channel `MICROBIT_ID_NOTIFY_ONE`. -/
def waitsForOne (s : State) (f : Nat) (evt : MicroBitEvent) : Bool :=
  evt.source = idNotifyOne ∧ s.context f % 65536 = idNotify ∧
    (s.context f / 65536 % 65536 = evtAny ∨ s.context f / 65536 % 65536 = evt.value)

/-- The fiber waits for this event. -/
def waitsFor (s : State) (f : Nat) (evt : MicroBitEvent) : Bool :=
  (s.context f % 65536 = idAny ∨ s.context f % 65536 = evt.source) ∧
    (s.context f / 65536 % 65536 = evtAny ∨ s.context f / 65536 % 65536 = evt.value)

/-- A walk wakes this fiber. -/
def wakes (s : State) (w : Walk) (f : Nat) : Bool :=
  match w.kind with
  | .tick => s.context f ≤ s.now
  | .event evt => if s.waitsForOne f evt then !w.notifyOneComplete else s.waitsFor f evt

/-- `notifyOneComplete`, when the walk has woken this fiber. -/
def completes (s : State) (w : Walk) (f : Nat) : Bool :=
  match w.kind with
  | .tick => w.notifyOneComplete
  | .event evt => w.notifyOneComplete || s.waitsForOne f evt

/-- **The loop of `scheduler_tick` and of `scheduler_event`**, from where the walk `w` is. -/
def goesOn (s : State) (w : Walk) (ws : List Walk) : State × List Event :=
  match w.place with
  | .loop none => ({ s with walks := ws }, [.ended w.kind])
  | .loop (some f) => ({ s with walks := { w with place := .found f (s.links.next f) } :: ws }, [])
  | .found f t =>
    if s.wakes w f then
      ({ s with links := s.links.unlink f,
                walks := { w with notifyOneComplete := s.completes w f,
                                  place := .moved f t } :: ws }, [.dequeued f])
    else ({ s with walks := { w with place := .loop t } :: ws }, [])
  | .moved f t =>
    ({ s with links := s.links.append s.created f .runQueue,
              walks := { w with place := .loop t } :: ws },
      [.queued f .runQueue, .woken f w.kind])

/-- The innermost walk goes on. -/
def walk (s : State) : Option (State × List Event) :=
  match s.walks with
  | [] => none
  | w :: ws => some (s.goesOn w ws)

/-- A walk begins. -/
def enter (s : State) (kind : Kind) : State × List Event :=
  ({ s with walks := ⟨kind, false, .loop (s.links.head kind.queue)⟩ :: s.walks },
    [.began kind s.now])

end State

/-! ## 5. The machine -/

inductive Action where
  /-- the current fiber's own code calls a function -/
  | call (c : Call)
  /-- the current fiber's call goes on -/
  | run
  /-- time passes -/
  | pass (dt : Nat)
  /-- the timer interrupt -/
  | tick
  /-- `scheduler_event` is called -/
  | event (evt : MicroBitEvent)
  /-- the innermost walk goes on -/
  | walk
  deriving DecidableEq

/-- A walk of this kind is open. -/
def State.walking (s : State) (q : Queue) : Bool :=
  s.walks.any fun w => w.kind.queue = q

/-- **One step.** With `nested`, a walk may be interrupted by one along the same queue. -/
def step (nested : Bool) (s : State) : Action → Option (State × List Event)
  | .call c =>
    if s.walks = [] ∧ s.code s.currentFiber = [] then (s.call c).map (·, []) else none
  | .run => if s.walks = [] then s.run else none
  | .pass dt => some ({ s with now := s.now + dt }, [])
  | .tick => if nested ∨ ¬ s.walking .sleepQueue then some (s.enter .tick) else none
  | .event evt => if nested ∨ ¬ s.walking .waitQueue then some (s.enter (.event evt)) else none
  | .walk => s.walk

/-- The fibers as `scheduler_init` leaves them: the caller's on the run queue, and the idle one. -/
def machine (nested : Bool) : Machine State Action Event :=
  { start :=
      { links := Links.append ⟨fun _ => none, fun _ => none, fun _ => none, fun _ => none⟩ 1 0
          .runQueue,
        context := fun _ => 0, fob := fun _ => false, child := fun _ => false,
        code := fun _ => [], created := 2, currentFiber := 0, idleFiber := 1,
        forkedFiber := none, now := 0, walks := [] }
    step := step nested }

end MicrobitAlarm.Scheduler
