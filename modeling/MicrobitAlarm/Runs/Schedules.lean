/-
  File:      MicrobitAlarm/Runs/Schedules.lean
  Subject:   SCHEDULES: lists of actions that take the board through one turn of its loops.

  Explicit runs are put together from these. The timer ticks every 6 ms
  (`SYSTEM_TICK_PERIOD_MS`), and a sleep of 1 ms ends at the next tick.
-/
import MicrobitAlarm.Firmware.Steps

namespace MicrobitAlarm

/-! ## 1. Turns of the loops -/

/-- The next tick of the timer. -/
def tick : Act := .elapse 6

/-- Main enters its loops, a client connects and `onConnected` finishes in main's first sleep. -/
def boot : List Act := [.main, .main, .connect true, .handler 0, tick, .main]

/-- At the head of the outer loop the client disconnects, main notices and leaves the inner loop,
    and a client connects again. -/
def reconnect : List Act :=
  [.main, .disconnect true, .handler 0, tick, .main, .main, .main, .connect true, .handler 0, tick,
    .main]

/-- An iteration of the outer loop from its head to `while(connected)`. -/
def outerTurn : List Act := [.main, tick, .main]

/-- An iteration of the inner loop with no byte waiting. -/
def idleTurn : List Act := [.main, .main, .main, tick, .main]

/-- An iteration of the inner loop that takes a byte without an echo and goes on. -/
def byteTurn : List Act := [.main, .main, .main, .main, .main, .main, tick, .main]

/-- An iteration of the inner loop that takes a newline and leaves the loop. -/
def newlineTurn : List Act := [.main, .main, .main, .main, .main, .main]

/-- The client writes a line, and main takes its bytes. -/
def lineTurns (line : List UInt8) : List Act :=
  .write line :: (List.replicate (line.length - 1) byteTurn).flatten ++ newlineTurn

end MicrobitAlarm
