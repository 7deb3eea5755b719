/-
  File:      MicrobitAlarm/Firmware/Callback.lean
  Subject:   A LISTENER AT WORK: `async_callback` (drivers/MicroBitMessageBus.cpp) and
             `MicroBitListener::queue` (core/MicroBitListener.cpp).

  `process` writes an event into the listener and calls `async_callback`, which calls the handler
  with what is written there. A handler that blocks goes on in a fiber of its own, so events may
  come while one is inside. A listener then drops them, or queues them, or lets them in beside it.
  The fiber inside takes up queued events one by one, and calls `schedule()` between writing one
  into the listener and calling the handler.

  * `Listener`, `Stage` -- the listener, and the fibers in `async_callback`;
  * `step` -- an event comes, a handler returns, a fiber goes on behind `schedule()`;
  * `machine` -- the runs of a listener with given flags.

  Deliveries are numbered, so that two of one event are not the same. Left out: `invoke` within
  `invoke`, which starts `async_callback` in a fiber of its own and so not at once.
-/
import MicrobitAlarm.Firmware.MessageBus

namespace MicrobitAlarm.Callback

open Trace MessageBus

variable {ε : Type}

/-! ## 1. The listener -/

/-- An event that is given to the listener, and the how manieth it is. -/
structure Delivery (ε : Type) where
  number : Nat
  evt : ε
  deriving DecidableEq

/-- Where a fiber is in the loop of `async_callback`. -/
inductive Stage (ε : Type) where
  | handling
  /-- it took this one out of the queue, and has called `schedule()` -/
  | taking (d : Delivery ε)
  deriving DecidableEq

/-- What `async_callback` reads of a `MicroBitListener`, and the fibers inside. -/
structure Listener (ε : Type) where
  queueIfBusy : Bool
  dropIfBusy : Bool
  busy : Bool
  evt : Option (Delivery ε)
  evtQueue : List (Delivery ε)
  inside : List (Stage ε)
  deliveries : Nat
  deriving DecidableEq

inductive Event (ε : Type) where
  /-- the handler is called, or the event queued -/
  | accepted (d : Delivery ε)
  | dropped (d : Delivery ε)
  /-- the queue was full, with so many in it -/
  | overflowed (d : Delivery ε) (length : Nat)
  /-- the handler is called with it -/
  | called (d : Delivery ε)
  /-- `listener->evt` is written, while a fiber that wrote the first one is in `schedule()` -/
  | overwritten (d new : Delivery ε)
  deriving DecidableEq

/-- **`MicroBitListener::queue`**: whether there is room, and the queue. -/
def queue (d : Delivery ε) (q : List (Delivery ε)) : Bool × List (Delivery ε) :=
  match q with
  | [] => (true, [d])
  | p :: q =>
    if (p :: q).length < maxQueueDepth then (true, p :: q ++ [d]) else (false, p :: q)

/-- What the fibers that are in `schedule()` have taken. -/
def takingOf (inside : List (Stage ε)) : List (Delivery ε) :=
  inside.filterMap fun st => match st with | .taking d => some d | .handling => none

/-- **`async_callback`** up to the handler, for the event that is written in the listener. -/
def Listener.asyncCallback (l : Listener ε) (d : Delivery ε) : Listener ε × List (Event ε) :=
  if l.busy ∧ l.dropIfBusy then (l, [.dropped d])
  else if l.busy ∧ l.queueIfBusy then
    let (room, q) := queue d l.evtQueue
    ({ l with evtQueue := q },
      if room then [.accepted d] else [.overflowed d l.evtQueue.length])
  else ({ l with busy := true, inside := l.inside ++ [.handling] }, [.accepted d, .called d])

/-- `l->evt = evt` in `process`. -/
def Listener.write (l : Listener ε) (evt : ε) : Listener ε :=
  { l with evt := some ⟨l.deliveries, evt⟩, deliveries := l.deliveries + 1 }

/-! ## 2. The machine -/

inductive Action (ε : Type) where
  /-- `process` gives the listener an event -/
  | deliver (evt : ε)
  /-- the handler that this fiber is in returns -/
  | returned (i : Nat)
  /-- `schedule()` returns in this fiber -/
  | scheduled (i : Nat)

/-- **The loop of `async_callback`** behind the handler, in the fiber at this place. -/
def Listener.returned (l : Listener ε) (i : Nat) : Listener ε :=
  match l.queueIfBusy, l.evtQueue with
  | true, item :: q =>
    { l with evt := some item, evtQueue := q, inside := l.inside.set i (.taking item) }
  | _, _ => { l with busy := false, inside := l.inside.eraseIdx i }

/-- **One step** of the listener. -/
def step (l : Listener ε) : Action ε → Option (Listener ε × List (Event ε))
  | .deliver evt =>
    let d := ⟨l.deliveries, evt⟩
    let (l', ev) := (l.write evt).asyncCallback d
    some (l', (takingOf l.inside).map (.overwritten · d) ++ ev)
  | .returned i =>
    match l.inside[i]? with
    | some .handling => some (l.returned i, [])
    | _ => none
  | .scheduled i =>
    match l.inside[i]? with
    | some (.taking _) =>
      -- the handler is called with `listener->evt`, not with what was taken
      some ({ l with inside := l.inside.set i .handling }, l.evt.toList.map .called)
    | _ => none

/-- A listener with these flags, to which nothing has been delivered. -/
def machine (queueIfBusy dropIfBusy : Bool) : Machine (Listener ε) (Action ε) (Event ε) :=
  ⟨⟨queueIfBusy, dropIfBusy, false, none, [], [], 0⟩, step⟩

end MicrobitAlarm.Callback
