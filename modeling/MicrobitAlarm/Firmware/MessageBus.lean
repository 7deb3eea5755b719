/-
  File:      MicrobitAlarm/Firmware/MessageBus.lean
  Subject:   THE MESSAGE BUS (drivers/MicroBitMessageBus.cpp), with the scheduler running.

  `queueEvent` first gives an event to the urgent listeners, whose handlers may raise events of
  their own, and an interrupt may raise one at any point; so calls of `queueEvent` are nested, and
  each of them enters its event behind what was last in the queue when the call began. `idleTick`
  takes events out again and gives them to the other listeners. While a call is open no other
  fiber runs: urgent handlers do not block, and a handler of `idleTick` that blocks goes on in a
  fiber of its own (`invoke`). So the open calls are a stack.

  * `Listener`, `add`, `remove`, `deleteMarkedListeners` -- the list of listeners;
  * `Bus`, `Frame`, `Pass` -- the queue and the open calls, down to the place in the loop of
    `process`;
  * `step` -- what code, interrupts and the idle fiber can do; `machine` -- the runs.

  A listener is known by a number that stands for its address, and so is a queued event: by the
  number of its call of `queueEvent`. Left out: the time stamps of events, and the time before
  the scheduler runs, when every listener is urgent and nothing is queued.
-/
import MicrobitAlarm.Lib.Trace

namespace MicrobitAlarm.MessageBus

open Trace

/-! ## 1. Listeners -/

/-- `MicroBitEvent`. -/
structure MicroBitEvent where
  source : Nat
  value : Nat
  deriving DecidableEq

/-- What the union of a listener holds: a function, or the address of a `MemberFunctionCallback`
    and what that compares (the object and the method). -/
inductive Callback where
  | function (cb : Nat)
  | method (cb : Nat) (target : Nat)
  deriving DecidableEq

/-- `MicroBitListener`, with the flags the bus reads. The flag `MESSAGE_BUS_LISTENER_METHOD` is
    which callback it has. -/
structure Listener where
  ptr : Nat
  id : Nat
  value : Nat
  callback : Callback
  nonblocking : Bool
  urgent : Bool
  busy : Bool
  deleting : Bool
  deriving DecidableEq

/-- `MICROBIT_ID_ANY`. -/
def idAny : Nat := 0

/-- `MICROBIT_EVT_ANY`. -/
def evtAny : Nat := 0

/-- `MICROBIT_ID_MESSAGE_BUS_LISTENER`. -/
def idMessageBusListener : Nat := 1021

/-- `MESSAGE_BUS_LISTENER_MAX_QUEUE_DEPTH`. -/
def maxQueueDepth : Nat := 10

/-- The pointer in the union. -/
def Callback.cb : Callback → Nat
  | .function cb => cb
  | .method cb _ => cb

/-- The comparison of callbacks in `add`: of the methods if both are methods, of the pointers
    otherwise. -/
def Callback.same : Callback → Callback → Bool
  | .method _ t, .method _ t' => t = t'
  | c, c' => c.cb = c'.cb

/-- The comparison of callbacks in `remove`: of two methods or of two functions. -/
def Callback.alike : Callback → Callback → Bool
  | .method _ t, .method _ t' => t = t'
  | .function cb, .function cb' => cb = cb'
  | _, _ => false

/-- The test of `process`: does an event concern a listener? -/
def Listener.hears (l : Listener) (evt : MicroBitEvent) : Bool :=
  (l.id = evt.source ∨ l.id = idAny) ∧ (l.value = evt.value ∨ l.value = evtAny)

/-- `(flags & MESSAGE_BUS_LISTENER_IMMEDIATE) == MESSAGE_BUS_LISTENER_IMMEDIATE`. -/
def Listener.immediate (l : Listener) : Bool := l.nonblocking && l.urgent

/-- The test of `add`: is this listener on the list the new one? -/
def Listener.duplicates (l new : Listener) : Bool :=
  l.id = new.id ∧ l.value = new.value ∧ new.callback.same l.callback

/-- The first walk of `add`: the first duplicate is resurrected. `none`: there is none. -/
def resurrect (new : Listener) : List Listener → Option (List Listener)
  | [] => none
  | l :: ls =>
    if l.duplicates new then some ({ l with deleting := false } :: ls)
    else (resurrect new ls).map (l :: ·)

/-- The loops of `add` that find the place: how many listeners they pass. -/
def passed (new : Listener) (ls : List Listener) : Nat :=
  (ls.takeWhile (·.id < new.id)).length +
    ((ls.dropWhile (·.id < new.id)).takeWhile fun l => l.id = new.id ∧ l.value < new.value).length

/-- The second walk of `add`: `p` is the last listener passed, or the first of the list. -/
def insertListener (new : Listener) (ls : List Listener) : List Listener :=
  match ls with
  | [] => [new]
  | p :: _ =>
    if passed new ls ≤ 1 ∧ (new.id < p.id ∨ p.id = new.id ∧ new.value < p.value) then new :: ls
    else ls.take (passed new ls - 1 + 1) ++ new :: ls.drop (passed new ls - 1 + 1)

/-- **`add`**: whether the listener is new, and the list. -/
def add (new : Listener) (ls : List Listener) : Bool × List Listener :=
  match resurrect new ls with
  | some ls => (false, ls)
  | none => (true, insertListener new ls)

/-- The test of `remove`. -/
def Listener.removedBy (l pattern : Listener) : Bool :=
  pattern.callback.alike l.callback ∧ (pattern.id = idAny ∨ pattern.id = l.id) ∧
    (pattern.value = evtAny ∨ pattern.value = l.value)

/-- **`remove`**: the listeners that match are marked. -/
def remove (pattern : Listener) (ls : List Listener) : Bool × List Listener :=
  (ls.any (·.removedBy pattern),
    ls.map fun l => if l.removedBy pattern then { l with deleting := true } else l)

/-- **`deleteMarkedListeners`**. -/
def deleteMarkedListeners (ls : List Listener) : List Listener :=
  ls.filter fun l => !(l.deleting && !l.busy)

/-- `l->next`, of the listener with this number. -/
def next (ls : List Listener) (ptr : Nat) : Option Nat :=
  ((ls.dropWhile (·.ptr ≠ ptr)).drop 1).head?.map Listener.ptr

/-! ## 2. The queue and the open calls -/

/-- `MicroBitEventQueueItem`. -/
structure Item where
  raise : Nat
  evt : MicroBitEvent
  deriving DecidableEq

/-- A call of `process`: the listener its loop is at, and whether its handler runs. -/
structure Pass where
  evt : MicroBitEvent
  cursor : Option Nat
  complete : Bool
  handling : Bool
  deriving DecidableEq

inductive Frame where
  /-- `queueEvent`, in `process(evt, true)` -/
  | queueEvent (raise : Nat) (prev : Option Nat) (pass : Pass)
  /-- `queueEvent`, behind the test of the length of the queue -/
  | inserting (item : Item) (prev : Option Nat)
  /-- `idleTick`, in `process(item->evt)` -/
  | idleTick (raise : Nat) (pass : Pass)
  deriving DecidableEq

/-- The bus, and the open calls, the innermost one first. `raises` counts the calls of
    `queueEvent`; numbers of listeners from `created` on are not used. -/
structure Bus where
  listeners : List Listener
  evtQueue : List Item
  evtQueueTail : Option Nat
  queueLength : Nat
  frames : List Frame
  raises : Nat
  created : Nat

inductive Event where
  | raised (raise : Nat) (evt : MicroBitEvent)
  /-- a handler is called -/
  | activated (raise ptr : Nat)
  /-- all listeners that match are urgent -/
  | completed (raise : Nat)
  /-- the queue was full, with so many in it -/
  | dropped (raise length : Nat)
  | queued (raise : Nat)
  /-- `idleTick` takes it out of the queue -/
  | dispatched (raise : Nat) (evt : MicroBitEvent)
  /-- `idleTick` has given it to the listeners -/
  | passed (raise : Nat)
  | added (l : Listener)
  /-- `add` found a duplicate -/
  | refused (l : Listener)
  | removed (pattern : Listener)
  deriving DecidableEq

/-- `process` begins. -/
def Pass.begin (evt : MicroBitEvent) (ls : List Listener) : Pass :=
  ⟨evt, ls.head?.map Listener.ptr, true, false⟩

/-- One turn of the loop of `process`, at a listener: the pass, and whether the listener is
    activated. -/
def Pass.visit (p : Pass) (urgent : Bool) (ls : List Listener) (l : Listener) : Pass × Bool :=
  if l.hears p.evt then
    if l.immediate = urgent ∧ ¬ l.deleting then ({ p with handling := true }, true)
    else ({ p with complete := false, cursor := next ls l.ptr }, false)
  else ({ p with cursor := next ls l.ptr }, false)

/-- The handler has returned. -/
def Pass.resume (p : Pass) (ls : List Listener) : Pass :=
  { p with handling := false, cursor := p.cursor.bind (next ls) }

/-- `prev->next = item`, behind the item with this number. -/
def insertAfter (prev : Nat) (item : Item) : List Item → List Item
  | [] => []
  | x :: xs => if x.raise = prev then x :: item :: xs else x :: insertAfter prev item xs

/-- What is to stand behind the new item: `evt_queue_head`, or `prev->next`. -/
def nextItem (prev : Option Nat) (queue : List Item) : Option Item :=
  match prev with
  | none => queue.head?
  | some p => ((queue.dropWhile (·.raise ≠ p)).drop 1).head?

/-- The item is put at the start of the queue, or behind `prev`. -/
def putItem (item : Item) (prev : Option Nat) (queue : List Item) : List Item :=
  match prev with
  | none => item :: queue
  | some p => insertAfter p item queue

/-- The end of `queueEvent`. -/
def Bus.insert (b : Bus) (item : Item) (prev : Option Nat) : Bus :=
  { b with evtQueue := putItem item prev b.evtQueue,
           evtQueueTail := if nextItem prev b.evtQueue = none then some item.raise
             else b.evtQueueTail,
           queueLength := b.queueLength + 1 }

/-- **`dequeueEvent`**. -/
def Bus.dequeueEvent (b : Bus) : Option Item × Bus :=
  match b.evtQueue with
  | [] => (none, b)
  | item :: queue =>
    (some item, { b with evtQueue := queue,
                         evtQueueTail := if queue = [] then none else b.evtQueueTail,
                         queueLength := b.queueLength - 1 })

/-- `idleTick` takes the next event, above the calls of `frames`. -/
def Bus.dispatch (b : Bus) (frames : List Frame) : Bus × List Event :=
  match b.dequeueEvent with
  | (none, b) => ({ b with frames := frames }, [])
  | (some item, b) =>
    ({ b with frames := .idleTick item.raise (.begin item.evt b.listeners) :: frames },
      [.dispatched item.raise item.evt])

/-- **`queueEvent`** begins. -/
def Bus.queueEvent (b : Bus) (evt : MicroBitEvent) : Bus × List Event :=
  ({ b with frames := .queueEvent b.raises b.evtQueueTail (.begin evt b.listeners) :: b.frames,
            raises := b.raises + 1 }, [.raised b.raises evt])

/-! ## 3. The machine -/

inductive Action where
  /-- code or an interrupt raises an event -/
  | send (evt : MicroBitEvent)
  /-- the innermost call goes on; `idle` is `scheduler_runqueue_empty()`, for `idleTick` -/
  | advance (idle : Bool)
  /-- the handler of the innermost call returns, or goes on in a fiber of its own -/
  | handled
  | add (l : Listener)
  | remove (pattern : Listener)
  /-- a handler of this listener is running, or no more -/
  | busy (ptr : Nat) (b : Bool)
  | idleTick

/-- Code that may use the bus runs: a fiber when no call is open, or a handler. -/
def codeRuns : List Frame → Bool
  | [] => true
  | .queueEvent _ _ p :: _ => p.handling
  | .inserting _ _ :: _ => false
  | .idleTick _ p :: _ => p.handling

/-- A listener that code may add: a new object. A function and an object are never at the same
    address. -/
def Addable (l : Listener) (b : Bus) : Prop :=
  b.created ≤ l.ptr ∧ l.deleting = false ∧ l.busy = false ∧
    ∀ k ∈ b.listeners, l.callback.same k.callback = l.callback.alike k.callback

instance (l : Listener) (b : Bus) : Decidable (Addable l b) :=
  inferInstanceAs (Decidable (_ ∧ _ ∧ _ ∧ _))

/-- One turn of the loop of `process`, in a call whose frame is `frame p`. -/
def Bus.turn (b : Bus) (p : Pass) (urgent : Bool) (raise : Nat) (frame : Pass → Frame)
    (frames : List Frame) (ptr : Nat) : Option (Bus × List Event) :=
  match b.listeners.find? (·.ptr = ptr) with
  | none => none
  | some l =>
    let (p', activated) := p.visit urgent b.listeners l
    some ({ b with frames := frame p' :: frames },
      if activated then [.activated raise ptr] else [])

/-- The innermost call goes on. -/
def Bus.advance (b : Bus) (idle : Bool) : Option (Bus × List Event) :=
  match b.frames with
  | [] => none
  | .queueEvent raise prev p :: frames =>
    if p.handling then none
    else
      match p.cursor with
      | some ptr => b.turn p true raise (.queueEvent raise prev) frames ptr
      | none =>
        if p.complete then some ({ b with frames := frames }, [.completed raise])
        else if maxQueueDepth ≤ b.queueLength then
          some ({ b with frames := frames }, [.dropped raise b.queueLength])
        else some ({ b with frames := .inserting ⟨raise, p.evt⟩ prev :: frames }, [])
  | .inserting item prev :: frames =>
    some ({ b.insert item prev with frames := frames }, [.queued item.raise])
  | .idleTick raise p :: frames =>
    if p.handling then none
    else
      match p.cursor with
      | some ptr => b.turn p false raise (.idleTick raise) frames ptr
      | none =>
        if idle then
          let (b, ev) := b.dispatch frames
          some (b, .passed raise :: ev)
        else some ({ b with frames := frames }, [.passed raise])

/-- The handler of the innermost call returns. -/
def Bus.handled (b : Bus) : Option Bus :=
  match b.frames with
  | .queueEvent raise prev p :: frames =>
    if p.handling then
      some { b with frames := .queueEvent raise prev (p.resume b.listeners) :: frames }
    else none
  | .idleTick raise p :: frames =>
    if p.handling then some { b with frames := .idleTick raise (p.resume b.listeners) :: frames }
    else none
  | _ => none

/-- **One step** of the bus and of the code around it. -/
def step (b : Bus) : Action → Option (Bus × List Event)
  | .send evt => some (b.queueEvent evt)
  | .advance idle => b.advance idle
  | .handled => b.handled.map (·, [])
  | .add l =>
    if codeRuns b.frames ∧ Addable l b then
      let (new, ls) := add l b.listeners
      let b := { b with listeners := ls, created := l.ptr + 1 }
      if new then
        -- `MicroBitEvent(MICROBIT_ID_MESSAGE_BUS_LISTENER, newListener->id)`
        let (b, ev) := b.queueEvent ⟨idMessageBusListener, l.id⟩
        some (b, .added l :: ev)
      else some (b, [.refused l])
    else none
  | .remove pattern =>
    if codeRuns b.frames then
      some ({ b with listeners := (remove pattern b.listeners).2 }, [.removed pattern])
    else none
  | .busy ptr busy =>
    some ({ b with listeners := b.listeners.map fun l =>
              if l.ptr = ptr then { l with busy := busy } else l }, [])
  | .idleTick =>
    if b.frames = [] then
      some ({ b with listeners := deleteMarkedListeners b.listeners }.dispatch [])
    else none

/-- The bus as the constructor leaves it. -/
def machine : Machine Bus Action Event := ⟨⟨[], [], none, 0, [], 0, 0⟩, step⟩

end MicrobitAlarm.MessageBus
