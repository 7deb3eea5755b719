/-
  File:      MicrobitAlarm/App/MainActivity.lean
  Subject:   THE APP (MainActivity.java): its listeners, its queue, and what the user means by the
             clicks.

  Every listener but Send's puts one line on the queue; Send hands the queue to `send()`, line by
  line, and clears it. The values the listeners read off the screen come with the click: the two
  seek bars go from 0 to 180 (`android:max="180"`), and the two text fields take digits only
  (`android:inputType="number"`). A Java string is the list of its bytes here: all of them are
  ASCII.

  * `sent_send` -- behind a Send everything that was queued has been handed to `send()`, in order;
  * `Intent` -- what the clicks mean, without lines: the commands to execute now, the commands
    recorded since the Record switch was last turned on, and the delay shown then.

  Left out: scanning and connecting, and the log on the screen. What becomes of a message behind
  `writeCharacteristic` is in Gatt.lean.
-/
import MicrobitAlarm.Firmware.Commands

namespace MicrobitAlarm

/-! ## 1. The listeners -/

/-- The text of a number field: digits, possibly none. -/
structure NumberText where
  text : List UInt8
  digits : ∀ b ∈ text, Decimal.isdigit b = true
  deriving DecidableEq

/-- What the user does, with what the listener reads off the screen. -/
inductive UiAction where
  | servo1 (progress : Fin 181)
  | servo2 (progress : Fin 181)
  | pause (pauseText : NumberText)
  | record (isChecked : Bool) (recordText : NumberText)
  | send
  deriving DecidableEq

/-- The queue, and the messages handed to `send()` so far. -/
structure MainActivity where
  queue : List (List UInt8)
  sent : List (List UInt8)

/-- A letter, a text and a newline. -/
def message (letter : Char) (text : List UInt8) : List UInt8 := letter.toUInt8 :: (text ++ [10])

namespace MainActivity

def init : MainActivity := ⟨[], []⟩

/-- `queue.add(d)`. -/
def add (m : MainActivity) (d : List UInt8) : MainActivity := { m with queue := m.queue ++ [d] }

/-- **The listeners.** -/
def click (m : MainActivity) : UiAction → MainActivity
  | .servo1 progress => m.add (message 's' (Decimal.render progress))
  | .servo2 progress => m.add (message 's' (Decimal.render progress))
  | .pause pauseText => m.add (message 'p' pauseText.text)
  | .record isChecked recordText =>
    if isChecked then m.add (message 'a' recordText.text) else m.add (message 'e' [])
  | .send => { queue := [], sent := m.sent ++ m.queue }

/-- The app behind a sequence of clicks. -/
def run (acts : List UiAction) : MainActivity := acts.foldl click init

end MainActivity

/-! ## 2. Nothing queued is lost -/

/-- What one click puts on the queue. -/
def queued (a : UiAction) : List (List UInt8) := (MainActivity.init.click a).queue

/-- What a sequence of clicks puts on the queue. -/
def messages (acts : List UiAction) : List (List UInt8) := acts.flatMap queued

theorem click_all (m : MainActivity) (a : UiAction) :
    (m.click a).sent ++ (m.click a).queue = m.sent ++ m.queue ++ queued a := by
  cases a with
  | record isChecked recordText =>
      cases isChecked <;> simp [queued, MainActivity.click, MainActivity.add, MainActivity.init]
  | _ => simp [queued, MainActivity.click, MainActivity.add, MainActivity.init]

/-- What has been handed to `send()` and what waits are all the messages. -/
theorem run_all (acts : List UiAction) :
    (MainActivity.run acts).sent ++ (MainActivity.run acts).queue = messages acts := by
  have h : ∀ m : MainActivity, (acts.foldl MainActivity.click m).sent ++
      (acts.foldl MainActivity.click m).queue = m.sent ++ m.queue ++ messages acts := by
    induction acts with
    | nil => intro m; simp [messages]
    | cons a acts ih =>
        intro m
        rw [List.foldl_cons, ih, click_all, messages, messages, List.flatMap_cons,
          List.append_assoc]
  exact h MainActivity.init

/-- **Behind a Send everything queued has been handed to `send()`**, in order. -/
theorem sent_send (acts : List UiAction) :
    (MainActivity.run (acts ++ [.send])).sent = messages acts := by
  rw [← run_all acts, MainActivity.run, MainActivity.run, List.foldl_append]
  rfl

/-! ## 3. What the clicks mean -/

/-- The number a field shows. `atoi` cuts it off at the end of `int`. -/
def NumberText.number (t : NumberText) : Nat := min (Decimal.value t.text) 2147483647

/-- What a command asks of the devices. -/
def UiAction.perform : UiAction → List Action
  | .servo1 progress => [.setServoValue progress servoRange servoN, .sleep 30]
  | .servo2 progress => [.setServoValue progress servoRange servoN, .sleep 30]
  | .pause pauseText => [.sleep pauseText.number]
  | .record _ _ => []
  | .send => []

/-- **What the user means**: whether the Record switch is on, the commands to execute now, the
    commands recorded since it was last turned on, and the delay shown then. -/
structure Intent where
  recording : Bool
  live : List UiAction
  script : List UiAction
  delay : Option Nat

namespace Intent

def start : Intent := ⟨false, [], [], none⟩

/-- A command goes where the Record switch says. -/
def command (i : Intent) (a : UiAction) : Intent :=
  if i.recording then { i with script := i.script ++ [a] } else { i with live := i.live ++ [a] }

def read (i : Intent) : UiAction → Intent
  | .servo1 progress => i.command (.servo1 progress)
  | .servo2 progress => i.command (.servo2 progress)
  | .pause pauseText => i.command (.pause pauseText)
  | .record true recordText => ⟨true, i.live, [], some recordText.number⟩
  | .record false _ => { i with recording := false }
  | .send => i

end Intent

/-- **What a sequence of clicks means.** -/
def intent (acts : List UiAction) : Intent := acts.foldl Intent.read .start

end MicrobitAlarm
