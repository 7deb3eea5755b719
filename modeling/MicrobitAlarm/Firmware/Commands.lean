/-
  File:      MicrobitAlarm/Firmware/Commands.lean
  Subject:   THE COMMAND INTERPRETER (MicrobitAlarm.cpp: `processline`, `music`, `alarm`).

  `processline` is modelled as a function of the globals, the clock and its two arguments; the
  calls it makes on the devices come back as a list of actions, in order. Every sleep it requests
  is its last action, so the fiber that called it resumes behind the call. `alarm()` is a loop over
  the recorded script that calls `processline`; one pass of the loop is `alarmPass`, and `alarm`
  runs the loop to its end, with the clock read afresh in each pass.

  `none` is always the panic of a `malloc` that cannot succeed (ManagedString.lean) -- in `alarm`
  also passes run out, which `alarm_frames` (Script.lean) excludes.
-/
import MicrobitAlarm.Firmware.ManagedString
import MicrobitAlarm.Lib.Decimal

namespace MicrobitAlarm

/-! ## 1. Globals and device actions -/

/-- `unsigned long` is 32 bits wide. -/
def wordSize : Nat := 4294967296

/-- `alarmmil = -1L`: the value that stands for "no alarm". -/
def disarmed : Nat := wordSize - 1

/-- `uBit.systemTime()`: the low 32 bits of the milliseconds since boot. -/
def systemTime (now : Nat) : Nat := now % wordSize

/-- An `int` as `unsigned long` or `uint32_t`. -/
def toULong (v : Int) : Nat := (v % wordSize).toNat

/-- The globals the interpreter reads and writes. -/
structure Globals where
  servovalue : Int
  alarmmil : Nat
  recscr : ManagedString
  deriving DecidableEq

/-- What `processline` asks of the devices. -/
inductive Action where
  | setServoValue (value range center : Int)
  | music (folder : ManagedString)
  | sleep (milliseconds : Nat)
  deriving DecidableEq

/-- `MICROBIT_PIN_DEFAULT_SERVO_RANGE`. -/
def servoRange : Int := 2000

/-- `MICROBIT_PIN_DEFAULT_SERVO_CENTER`. -/
def servoN : Int := 1500

/-- The globals after static initialisation. -/
def Globals.init : Globals := ⟨90, disarmed, .empty⟩

/-! ## 2. `processline` -/

/-- What one call of `processline` leaves: the globals, the value it returns and its actions. -/
structure Outcome where
  globals : Globals
  recordmode : Bool
  actions : List Action
  deriving DecidableEq

/-- `line.substring(1, line.length() - 1)`. -/
def argument (line : ManagedString) : ManagedString := line.substring 1 ((line.length : Int) - 1)

/-- `atoi`/`atol` of the argument. -/
def number (line : ManagedString) : Int := Decimal.strtol (argument line).data

/-- **`bool processline(ManagedString line, bool recordmode)`** at the time `now`. -/
def processline (g : Globals) (now : Nat) (line : ManagedString) (recordmode : Bool) :
    Option Outcome :=
  let modchar := line.charAt 0
  if modchar = 'e'.toUInt8 then
    some ⟨g, false, []⟩
  else if modchar = 'a'.toUInt8 then
    some ⟨{ g with recscr := .empty, alarmmil := toULong (number line + systemTime now) }, true, []⟩
  else if recordmode then
    match g.recscr.concat line with
    | none => none
    | some recscr => some ⟨{ g with recscr := recscr }, recordmode, []⟩
  else if modchar = 's'.toUInt8 then
    some ⟨{ g with servovalue := number line }, false,
      [.setServoValue (number line) servoRange servoN, .sleep 30]⟩
  else if modchar = 'm'.toUInt8 then
    some ⟨g, false, [.music (argument line)]⟩
  else if modchar = 'p'.toUInt8 then
    some ⟨g, false, [.sleep (toULong (number line))]⟩
  else
    some ⟨g, false, []⟩

/-- The sleep a call of `processline` ends in, if it sleeps at all. -/
def sleepOf : List Action → Option Nat
  | [] => none
  | [.sleep ms] => some ms
  | _ :: as => sleepOf as

/-! ## 3. `alarm` -/

/-- What one pass of the loop of `alarm()` comes to: the line has grown by a character, or it was
    complete and `processline(line, false)` was called. -/
inductive Pass where
  | char (line : ManagedString)
  | call (line : ManagedString) (out : Outcome)

/-- **One pass of the loop of `alarm()`** at index `c`. -/
def alarmPass (g : Globals) (now : Nat) (c : Nat) (line : ManagedString) : Option Pass :=
  match ManagedString.ofChars [g.recscr.charAt c, 0] with
  | none => none
  | some charbuf =>
    match line.concat charbuf with
    | none => none
    | some line =>
      if g.recscr.charAt c = 10 then
        match processline g now line false with
        | none => none
        | some out => some (.call line out)
      else some (.char line)

/-- The loop of `alarm()` from index `c` on, for at most the given number of passes; the clock
    reads `clock c` in the pass at index `c`. It answers the globals left and the calls of
    `processline` made, each with its actions. -/
def alarmLoop (clock : Nat → Nat) :
    Nat → Globals → Nat → ManagedString → Option (Globals × List (ManagedString × List Action))
  | 0, g, c, _ => if c < g.recscr.length then none else some (g, [])
  | n + 1, g, c, line =>
    if c < g.recscr.length then
      match alarmPass g (clock c) c line with
      | none => none
      | some (.char line) => alarmLoop clock n g (c + 1) line
      | some (.call line out) =>
        match alarmLoop clock n out.globals (c + 1) .empty with
        | none => none
        | some (g, calls) => some (g, (line, out.actions) :: calls)
    else some (g, [])

/-- **`void alarm()`**: disarms, then replays the script. -/
def alarm (clock : Nat → Nat) (g : Globals) :
    Option (Globals × List (ManagedString × List Action)) :=
  alarmLoop clock g.recscr.length { g with alarmmil := disarmed } 0 .empty

/-! ## 4. Control lines, recorded lines, live lines -/

/-- A line that opens a recording. -/
def isArm (l : List UInt8) : Bool := l.headD 0 == 'a'.toUInt8

/-- A line that closes one. -/
def isEnd (l : List UInt8) : Bool := l.headD 0 == 'e'.toUInt8

/-- A control line begins with 'a' or 'e'. -/
def isControl (l : List UInt8) : Bool := isArm l || isEnd l

/-- What a line that is no control line does when it is executed. -/
def liveActions (line : ManagedString) : List Action :=
  if line.charAt 0 = 's'.toUInt8 then
    [.setServoValue (number line) servoRange servoN, .sleep 30]
  else if line.charAt 0 = 'm'.toUInt8 then [.music (argument line)]
  else if line.charAt 0 = 'p'.toUInt8 then [.sleep (toULong (number line))]
  else []

/-- The servo value a line that is no control line leaves when it is executed. -/
def liveServo (v : Int) (line : ManagedString) : Int :=
  if line.charAt 0 = 's'.toUInt8 then number line else v

theorem isArm_iff {line : ManagedString} :
    isArm line.data = true ↔ line.charAt 0 = 'a'.toUInt8 := by
  rw [ManagedString.charAt_zero, isArm, beq_iff_eq]

theorem isEnd_iff {line : ManagedString} :
    isEnd line.data = true ↔ line.charAt 0 = 'e'.toUInt8 := by
  rw [ManagedString.charAt_zero, isEnd, beq_iff_eq]

theorem not_isEnd_of_isArm {l : List UInt8} (h : isArm l = true) : isEnd l = false := by
  rw [isArm, beq_iff_eq] at h
  rw [isEnd, h]
  decide

/-- **An 'e' line** leaves everything and returns false. -/
theorem processline_end {line : ManagedString} (h : isEnd line.data = true) (g : Globals)
    (now : Nat) (rm : Bool) : processline g now line rm = some ⟨g, false, []⟩ := by
  simp only [processline, isEnd_iff.mp h, if_true]

/-- **An 'a' line** empties the script, arms the alarm and returns true. -/
theorem processline_arm {line : ManagedString} (h : isArm line.data = true) (g : Globals)
    (now : Nat) (rm : Bool) :
    processline g now line rm =
      some ⟨{ g with recscr := .empty, alarmmil := toULong (number line + systemTime now) },
        true, []⟩ := by
  have he : ¬ 'a'.toUInt8 = 'e'.toUInt8 := by decide
  simp only [processline, isArm_iff.mp h, if_neg he, if_true]

/-- **A line recorded** goes to the end of the script, or the script no longer fits. -/
theorem processline_record {line : ManagedString} (h : isControl line.data = false) (g : Globals)
    (now : Nat) :
    processline g now line true =
      (g.recscr.concat line).map fun s => ⟨{ g with recscr := s }, true, []⟩ := by
  rw [isControl, Bool.or_eq_false_iff] at h
  have ha : ¬ line.charAt 0 = 'a'.toUInt8 := fun e => by rw [isArm_iff.mpr e] at h; cases h.1
  have he : ¬ line.charAt 0 = 'e'.toUInt8 := fun e => by rw [isEnd_iff.mpr e] at h; cases h.2
  simp only [processline, if_neg ha, if_neg he, if_true]
  cases g.recscr.concat line <;> rfl

/-- **A line executed** changes the servo value at most, and its actions are its own. -/
theorem processline_live {line : ManagedString} (h : isControl line.data = false) (g : Globals)
    (now : Nat) :
    processline g now line false =
      some ⟨{ g with servovalue := liveServo g.servovalue line }, false, liveActions line⟩ := by
  rw [isControl, Bool.or_eq_false_iff] at h
  have ha : ¬ line.charAt 0 = 'a'.toUInt8 := fun e => by rw [isArm_iff.mpr e] at h; cases h.1
  have he : ¬ line.charAt 0 = 'e'.toUInt8 := fun e => by rw [isEnd_iff.mpr e] at h; cases h.2
  simp only [processline, if_neg ha, if_neg he, Bool.false_eq_true, if_false, liveActions,
    liveServo]
  split
  · rfl
  · split
    · rfl
    · split <;> rfl

section Calls

variable {g : Globals} {now : Nat} {line : ManagedString} {rm : Bool} {out : Outcome}

/-- **What a call of `processline` can come to**, said once. -/
theorem processline_cases (hp : processline g now line rm = some out) :
    (isArm line.data = true ∧
      out = ⟨{ g with recscr := .empty, alarmmil := toULong (number line + systemTime now) },
        true, []⟩) ∨
    (isEnd line.data = true ∧ out = ⟨g, false, []⟩) ∨
    (isControl line.data = false ∧ rm = true ∧
      ∃ s, g.recscr.concat line = some s ∧ out = ⟨{ g with recscr := s }, true, []⟩) ∨
    (isControl line.data = false ∧ rm = false ∧
      out = ⟨{ g with servovalue := liveServo g.servovalue line }, false, liveActions line⟩) := by
  cases hc : isControl line.data with
  | true =>
      rcases Bool.or_eq_true_iff.mp hc with ha | he
      · rw [processline_arm ha] at hp
        exact .inl ⟨ha, (Option.some.inj hp).symm⟩
      · rw [processline_end he] at hp
        exact .inr (.inl ⟨he, (Option.some.inj hp).symm⟩)
  | false =>
      cases rm with
      | true =>
          rw [processline_record hc] at hp
          obtain ⟨s, hs, ho⟩ := Option.map_eq_some_iff.mp hp
          exact .inr (.inr (.inl ⟨rfl, rfl, s, hs, ho.symm⟩))
      | false =>
          rw [processline_live hc] at hp
          exact .inr (.inr (.inr ⟨rfl, rfl, (Option.some.inj hp).symm⟩))

/-- **A call panics only** where a line to be recorded does not fit behind the script. -/
theorem processline_eq_none (hp : processline g now line rm = none) :
    isControl line.data = false ∧ rm = true ∧
      maxLength < g.recscr.data.length + line.data.length := by
  cases hc : isControl line.data with
  | true =>
      rcases Bool.or_eq_true_iff.mp hc with ha | he
      · rw [processline_arm ha] at hp
        cases hp
      · rw [processline_end he] at hp
        cases hp
  | false =>
      cases rm with
      | true =>
          rw [processline_record hc, Option.map_eq_none_iff] at hp
          exact ⟨rfl, rfl, ManagedString.concat_eq_none.mp hp⟩
      | false =>
          rw [processline_live hc] at hp
          cases hp

end Calls

end MicrobitAlarm
