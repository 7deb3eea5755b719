/-
  File:      MicrobitAlarm/Firmware/Board.lean
  Subject:   THE BOARD AS A MACHINE: `main()` with its loops (MicrobitAlarm.cpp), the UART service's
             blocking `send`, the two connection handlers, the clock and the Bluetooth link.

  The scheduler is cooperative: the main fiber runs from one sleep or wait to the next, and the
  handler fibers of `onConnected` and `onDisconnected` get to run only in between. Interrupts (the
  timer, a client write, a confirmation, the link going up or down) may come before any step of
  the main fiber. An action is one of these or one step of the main fiber; a step is about one
  statement of `main`, `alarm` or `send`, and where the fiber stands is its `Pc`.

  Time is the unbounded count of milliseconds since boot, and it passes only by `elapse`. A fiber
  that sleeps is woken at some tick at which the count has reached the 32-bit wake-up mark that
  `fiber_sleep` stored.

  A handler scrolls a letter before it assigns `connected`; when it is done, and in which order
  several handlers are done, is left open here (`handler i` finishes any of them; Fibers.lean has
  the scheduler and the display that decide it). The bus may also have dropped the event
  (`queued = false`).

  A `malloc` may fail whenever main makes a string (`outOfMemory`): how full the heap is stays open
  here (Heap.lean has the allocator). So what needs every `malloc` to succeed is said of runs
  without that action. A panic (`microbit_panic`) turns the interrupts off: nothing follows it.

  Left out: the display, the pins' electrical state (Pins.lean), the blocks that the bus and the
  scheduler allocate, and `uBit.init()` with the sleeps before the first byte can arrive.
-/
import MicrobitAlarm.Firmware.Commands
import MicrobitAlarm.Firmware.Uart
import MicrobitAlarm.Lib.Trace

namespace MicrobitAlarm

/-! ## 1. The link -/

/-- What `sd_ble_gatts_hvx` answers, as `nRF5xGattServer::write` tells the answers apart. -/
inductive HvxError where
  | none
  | noTxBuffers
  | busy
  | invalidState
  | sysAttrMissing
  | other
  deriving DecidableEq

/-- The Bluetooth link: how many connections there have been, whether the last one is up
    (`getGapState().connected`), whether its client has enabled indications, and the connection
    on which an indication was accepted and not yet confirmed. -/
structure Link where
  conn : Nat
  up : Bool
  updates : Bool
  indication : Option Nat
  deriving DecidableEq

/-- `areUpdatesEnabled`: the client's configuration can be read on a connection that is up only. -/
def Link.updatesEnabled (l : Link) : Bool := l.up && l.updates

/-- A confirmation can still arrive: the indication is outstanding on the connection that is up. -/
def Link.awaits (l : Link) : Bool := l.up && l.indication == some l.conn

/-! ## 2. The main fiber -/

/-- Where the main fiber stands. Sleeps carry their wake-up mark; `gotc`, `c` and the line of
    `alarm()` are locals of the code. -/
inductive Pc where
  /-- in `display.scroll('R')` before the loops -/
  | scroll
  /-- at the head of `while(true)` -/
  | outer
  /-- in `uBit.sleep(1)` of the outer loop -/
  | outerSleep (wake : Nat)
  /-- at `while(connected)` -/
  | test
  /-- at `if(alarmmil <= uBit.systemTime())` -/
  | poll
  /-- at the head of the loop of `alarm()` -/
  | replay (c : Nat) (line : ManagedString)
  /-- in a sleep of `processline`, called by `alarm()` -/
  | replayLine (wake c : Nat)
  /-- in `uBit.sleep(1)` of `alarm()` -/
  | replaySleep (wake c : Nat)
  /-- at `if(uart->rxBufferedSize() != 0)` -/
  | receive
  /-- at `uart->getc()` -/
  | getc
  /-- at `uart->send(charbuf)` -/
  | send (gotc : UInt8)
  /-- in `send`, registered for the confirmation, at `gattServer().write` -/
  | indicate (gotc : UInt8) (bytesWritten : Nat)
  /-- in `send`, in `schedule()` -/
  | blocked (gotc : UInt8) (bytesWritten : Nat)
  /-- at `line = line + charbuf` -/
  | append (gotc : UInt8)
  /-- in a sleep of `processline`, called by `main`; the value it will return -/
  | lineSleep (wake : Nat) (recordmode : Bool)
  /-- in `uBit.sleep(1)` of the inner loop -/
  | innerSleep (wake : Nat)
  /-- in `microbit_panic`: a string would be larger than the RAM -/
  | panicked
  /-- in `microbit_panic`: a `malloc` has failed, and where main stood then -/
  | outOfMemory (pc : Pc)
  deriving DecidableEq

/-- The fiber has called the scheduler: other fibers may run. -/
def Pc.descheduled : Pc → Bool
  | .scroll | .outerSleep _ | .replayLine _ _ | .replaySleep _ _ | .blocked _ _ | .lineSleep _ _
  | .innerSleep _ => true
  | _ => false

/-- The board has panicked. -/
def Pc.halted : Pc → Bool
  | .panicked => true
  | .outOfMemory _ => true
  | _ => false

/-- Main is inside the wait of `send`. -/
def Pc.echoing : Pc → Bool
  | .indicate _ _ => true
  | .blocked _ _ => true
  | _ => false

/-- The board: the clock, the link, the handlers not yet finished (by the value they assign), the
    globals, the service, whether main waits for the confirmation, and main's locals. -/
structure Board where
  now : Nat
  link : Link
  handlers : List Bool
  connected : Bool
  globals : Globals
  uart : Uart
  waiting : Bool
  recordmode : Bool
  line : ManagedString
  pc : Pc
  deriving DecidableEq

/-- The board when `main` reaches its loops. -/
def Board.init : Board :=
  { now := 0, link := ⟨0, false, false, none⟩, handlers := [], connected := false,
    globals := .init, uart := .init, waiting := false, recordmode := false, line := .empty,
    pc := .scroll }

/-! ## 3. Actions and events -/

/-- What can happen next. -/
inductive Act where
  /-- the main fiber takes a step that does not depend on the Bluetooth stack -/
  | main
  /-- the main fiber's `gattServer().write` gets this answer -/
  | hvx (answer : HvxError)
  /-- a `malloc` for a string of main's fails -/
  | outOfMemory
  /-- time passes -/
  | elapse (ms : Nat)
  /-- a client writes to the receive characteristic -/
  | write (data : List UInt8)
  /-- a link comes up, and its event is queued or dropped -/
  | connect (queued : Bool)
  /-- the link goes down, and its event is queued or dropped -/
  | disconnect (queued : Bool)
  /-- the client switches indications on or off -/
  | enableUpdates (on : Bool)
  /-- the client confirms the indication -/
  | confirm
  /-- a handler finishes -/
  | handler (i : Nat)
  deriving DecidableEq

/-- What a run reports. -/
inductive Event where
  | linkUp (conn : Nat)
  | linkDown (conn : Nat)
  /-- a handler has assigned `connected` -/
  | handled (connected : Bool)
  /-- a byte written on a connection is in the receive buffer -/
  | stored (conn : Nat) (b : UInt8)
  /-- a byte written on a connection found the receive buffer full -/
  | dropped (conn : Nat) (b : UInt8)
  /-- the answer to an indication -/
  | indicated (answer : HvxError)
  | confirmed
  /-- an iteration of the outer loop begins -/
  | outer (time : Nat)
  /-- an iteration of the inner loop begins -/
  | inner (time : Nat)
  /-- the deadline has been compared with the clock and lies ahead of it -/
  | polled (time : Nat)
  /-- it has been reached: `alarm()` is called, with main's `recordmode` and the script -/
  | alarm (time : Nat) (recordmode : Bool) (recscr : ManagedString)
  /-- `alarm()` has called `processline(line, false)` -/
  | replayed (line : ManagedString) (actions : List Action)
  /-- `alarm()` has returned -/
  | returned
  /-- `getc()` has taken a byte -/
  | taken (b : UInt8)
  /-- main has called `processline(line, recordmode)` -/
  | line (time : Nat) (line : ManagedString) (recordmode : Bool) (actions : List Action)
  /-- main's line is destroyed because the inner loop ends -/
  | discarded (line : ManagedString)
  deriving DecidableEq

/-- The event of a byte of a client write. -/
def Event.ofReceipt (conn : Nat) : Receipt → Event
  | .stored b => .stored conn b
  | .dropped b => .dropped conn b

/-! ## 4. Steps -/

namespace Board

/-- The mark `fiber_sleep(t)` stores: `context` is 32 bits wide. -/
def wakeMark (b : Board) (t : Nat) : Nat := (b.now + t) % wordSize

/-- Back in the outer loop: main's line is destroyed. -/
def leave (b : Board) : Board := { b with line := .empty, pc := .outer }

/-- The loop condition of `send` holds: bytes are left and the gap state says connected. That
    indications are enabled is tested at the first pass only (`areUpdatesEnabled` never resets
    its result). -/
def sendOn (b : Board) (gotc : UInt8) (bytesWritten : Nat) : Bool :=
  decide (bytesWritten < (ManagedString.ofChar gotc).length) && b.link.up

/-- One pass of the loop of `send`, up to the write: fill the buffer and register for the
    confirmation. -/
def fill (b : Board) (gotc : UInt8) (bytesWritten : Nat) : Board :=
  let r := b.uart.fill (ManagedString.ofChar gotc).data bytesWritten
  { b with uart := r.1, waiting := true, pc := .indicate gotc r.2 }

/-- `line = line + charbuf`, and what follows when the byte is a newline. -/
def appendChar (b : Board) (gotc : UInt8) : Board × List Event :=
  match b.line.concat (.ofChar gotc) with
  | none => ({ b with pc := .panicked }, [])
  | some line =>
    if gotc = 10 then
      match processline b.globals b.now line b.recordmode with
      | none => ({ b with line := line, pc := .panicked }, [.line b.now line b.recordmode []])
      | some out =>
        let b' := { b with line := line, globals := out.globals }
        match sleepOf out.actions with
        | some ms =>
          ({ b' with pc := .lineSleep (b.wakeMark ms) out.recordmode },
            [.line b.now line b.recordmode out.actions])
        | none =>
          ({ b'.leave with recordmode := out.recordmode },
            [.line b.now line b.recordmode out.actions])
    else ({ b with line := line, pc := .innerSleep (b.wakeMark 1) }, [])

/-- Where `alarm()` goes on once `processline` has done its actions: in the sleep of the line, or
    in its own. -/
def afterCall (b : Board) (actions : List Action) (c : Nat) : Pc :=
  match sleepOf actions with
  | some ms => .replayLine (b.wakeMark ms) c
  | none => .replaySleep (b.wakeMark 1) c

/-- One pass of the loop of `alarm()`. -/
def replayPass (b : Board) (c : Nat) (line : ManagedString) : Board × List Event :=
  match alarmPass b.globals b.now c line with
  | none => ({ b with pc := .panicked }, [])
  | some (.char line) => ({ b with pc := .replay (c + 1) line }, [])
  | some (.call line out) =>
    ({ b with globals := out.globals, pc := b.afterCall out.actions (c + 1) },
      [.replayed line out.actions])

/-- **A step of the main fiber.** -/
def mainStep (b : Board) : Option (Board × List Event) :=
  match b.pc with
  | .scroll => some ({ b with pc := .outer }, [])
  | .outer => some ({ b with pc := .outerSleep (b.wakeMark 1) }, [.outer b.now])
  | .outerSleep wake =>
    if wake ≤ b.now then some ({ b with line := .empty, pc := .test }, []) else none
  | .test =>
    if b.connected then some ({ b with pc := .poll }, [.inner b.now])
    else some (b.leave, [.discarded b.line])
  | .poll =>
    if b.globals.alarmmil ≤ systemTime b.now then
      some ({ b with globals := { b.globals with alarmmil := disarmed }, pc := .replay 0 .empty },
        [.alarm b.now b.recordmode b.globals.recscr])
    else some ({ b with pc := .receive }, [.polled b.now])
  | .replay c line =>
    if c < b.globals.recscr.length then some (b.replayPass c line)
    else some ({ b with pc := .receive }, [.returned])
  | .replayLine wake c =>
    if wake ≤ b.now then some ({ b with pc := .replaySleep (b.wakeMark 1) c }, []) else none
  | .replaySleep wake c =>
    if wake ≤ b.now then some ({ b with pc := .replay c .empty }, []) else none
  | .receive =>
    if b.uart.rxBufferedSize ≠ 0 then some ({ b with pc := .getc }, [])
    else some ({ b with pc := .innerSleep (b.wakeMark 1) }, [])
  | .getc =>
    -- `SYNC_SLEEP` would wait here for a byte
    if b.uart.rxBufferedSize ≠ 0 then
      some ({ b with uart := b.uart.getc.2, pc := .send b.uart.getc.1 }, [.taken b.uart.getc.1])
    else none
  | .send gotc =>
    -- an empty string is refused; so is a link that is down or without indications
    if b.sendOn gotc 0 ∧ b.link.updatesEnabled then some (b.fill gotc 0, [])
    else some ({ b with pc := .append gotc }, [])
  | .indicate _ _ => none
  | .blocked gotc bytesWritten =>
    if b.waiting then none
    else if b.sendOn gotc bytesWritten then some (b.fill gotc bytesWritten, [])
    else some ({ b with pc := .append gotc }, [])
  | .append gotc => some (b.appendChar gotc)
  | .lineSleep wake recordmode =>
    if wake ≤ b.now then some ({ b.leave with recordmode := recordmode }, []) else none
  | .innerSleep wake => if wake ≤ b.now then some ({ b with pc := .test }, []) else none
  | .panicked => none
  | .outOfMemory _ => none

/-- Main is about to make a string: the argument of `send`, its line with one more byte and what
    `processline` makes of it, or a line of `alarm()`. The empty string has no block. -/
def allocates (b : Board) : Bool :=
  match b.pc with
  | .send gotc => gotc != 0
  | .append gotc => gotc != 0
  | .replay c _ => decide (c < b.globals.recscr.length)
  | _ => false

/-- The answer to main's `gattServer().write`. Main waits for the confirmation whatever it is. -/
def hvxStep (b : Board) (answer : HvxError) : Option (Board × List Event) :=
  match b.pc with
  | .indicate gotc bytesWritten =>
    if answer = .none then
      if b.link.updatesEnabled ∧ b.link.indication ≠ some b.link.conn then
        some ({ b with link := { b.link with indication := some b.link.conn },
                       pc := .blocked gotc bytesWritten }, [.indicated answer])
      else none
    else some ({ b with pc := .blocked gotc bytesWritten }, [.indicated answer])
  | _ => none

/-- **One action.** Nothing happens behind a panic. -/
def step (b : Board) (a : Act) : Option (Board × List Event) :=
  if b.pc.halted then none
  else
    match a with
    | .main => b.mainStep
    | .hvx answer => b.hvxStep answer
    | .outOfMemory =>
      if b.allocates then some ({ b with pc := .outOfMemory b.pc }, []) else none
    | .elapse ms => some ({ b with now := b.now + ms }, [])
    | .write data =>
      if b.link.up then
        some ({ b with uart := (b.uart.onDataWritten data).1 },
          (b.uart.onDataWritten data).2.map (Event.ofReceipt b.link.conn))
      else none
    | .connect queued =>
      if b.link.up then none
      else
        some ({ b with link := { b.link with conn := b.link.conn + 1, up := true },
                       handlers := if queued then b.handlers ++ [true] else b.handlers },
          [.linkUp (b.link.conn + 1)])
    | .disconnect queued =>
      if b.link.up then
        some ({ b with link := { b.link with up := false, updates := false },
                       handlers := if queued then b.handlers ++ [false] else b.handlers },
          [.linkDown b.link.conn])
      else none
    | .enableUpdates on =>
      if b.link.up then some ({ b with link := { b.link with updates := on } }, []) else none
    | .confirm =>
      if b.link.awaits then
        some ({ b with link := { b.link with indication := none },
                       uart := b.uart.onConfirmation, waiting := false }, [.confirmed])
      else none
    | .handler i =>
      if b.pc.descheduled then
        match b.handlers[i]? with
        | some v =>
          some ({ b with connected := v, handlers := b.handlers.eraseIdx i }, [.handled v])
        | none => none
      else none

end Board

/-- **The firmware on its board.** -/
def firmware : Trace.Machine Board Act Event := ⟨Board.init, Board.step⟩

end MicrobitAlarm
