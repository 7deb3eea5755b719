/-
  File:      MicrobitAlarm/Firmware/Pins.lean
  Subject:   THE SERVO AND AUDIO PINS (MicroBitPin.cpp, DynamicPwm.cpp) and how `main` sets them up.

  A `MicroBitPin` in analogue output mode holds one of three PWM channels (`DynamicPwm`), and the
  three run on one timer: there is one period for all. Below `DynamicPwm` lies mbed's `PwmOut`,
  which is not here; it is a parameter (`Mbed`), as are the GPIOTE registers and `float`, and
  `Mbed.Documented` is what PwmOut.h says of it.

  A pointer to a `DynamicPwm` is its slot in `pwms`. `none` is a call through a pointer that is
  null or was deleted. `lastValue` has no initialiser in the code; what it holds is left open.
-/
import MicrobitAlarm.Firmware.Commands
import Mathlib.Tactic.MkIffOfInductiveProp

namespace MicrobitAlarm

/-! ## 1. mbed -/

/-- The names of the two pins in use: `MICROBIT_PIN_P0` (audio) and `MICROBIT_PIN_P2` (servo). -/
inductive PinName where
  | p0_3
  | p0_1
  deriving DecidableEq

/-- What an operation of a pin answers (ErrorNo.h). -/
inductive ErrorNo where
  | ok
  | invalidParameter
  | notSupported
  deriving DecidableEq

/-- **mbed's `PwmOut`** and the registers `σ` behind it, with `float` as `φ`. -/
structure Mbed (σ φ : Type) where
  /-- `PwmOut(pin)` -/
  create : PinName → σ → σ
  /-- `pwmout_free` and the GPIOTE channel off -/
  free : PinName → σ → σ
  /-- `gpiote_reinit(pin, oldPin)` -/
  gpioteReinit : PinName → PinName → σ → σ
  write : PinName → φ → σ → σ
  periodUs : PinName → Int → σ → σ
  pulsewidthUs : PinName → Int → σ → σ
  /-- `value / 1023` -/
  level : Int → φ
  /-- `value < 0` -/
  isNegative : φ → Bool
  /-- what the memory of a new `DynamicPwm` holds for its `lastValue` -/
  stale : φ
  /-- the PWM period in microseconds, one for all channels -/
  period : σ → Int
  /-- the pulse width in microseconds on a pin -/
  pulse : PinName → σ → Int

/-- What PwmOut.h documents: `period_us` sets the period, `pulsewidth_us` sets the width "keeping
    the period the same", and `write` sets the duty cycle only. -/
structure Mbed.Documented {σ φ : Type} (mb : Mbed σ φ) : Prop where
  period_periodUs : ∀ p us s, 0 < us → mb.period (mb.periodUs p us s) = us
  period_write : ∀ p x s, mb.period (mb.write p x s) = mb.period s
  period_pulsewidthUs : ∀ p us s, mb.period (mb.pulsewidthUs p us s) = mb.period s
  pulse_pulsewidthUs : ∀ p us s, 0 ≤ us → mb.pulse p (mb.pulsewidthUs p us s) = us

/-! ## 2. `DynamicPwm` -/

/-- `PwmPersistence`. -/
inductive PwmPersistence where
  | transient
  | persistent
  deriving DecidableEq

/-- A `DynamicPwm`: the pin of its `_pwm`, and its own fields. -/
structure DynamicPwm (φ : Type) where
  pin : PinName
  flags : PwmPersistence
  lastValue : φ

/-- `MICROBIT_DEFAULT_PWM_PERIOD`. -/
def defaultPwmPeriod : Int := 20000

/-- The PWM module: mbed's side, and the statics of `DynamicPwm`. -/
structure PwmModule (σ φ : Type) where
  hardware : σ
  pwms : List (Option (DynamicPwm φ))
  lastUsed : Nat
  sharedPeriod : Nat

/-- The module after static initialisation: `NO_PWMS` empty slots. -/
def PwmModule.init {σ : Type} (φ : Type) (hardware : σ) : PwmModule σ φ :=
  ⟨hardware, [none, none, none], 4, 0⟩

section Drivers

variable {σ φ : Type} (mb : Mbed σ φ)

namespace PwmModule

/-- The `DynamicPwm` a pointer points to. -/
def deref (d : PwmModule σ φ) (ptr : Option Nat) : Option (DynamicPwm φ) :=
  ptr.bind fun i => (d.pwms[i]?).join

/-- The slot behind `i`, around the three. -/
def nextSlot (i : Nat) : Nat := if i + 1 > 2 then 0 else i + 1

/-- The slot holds a channel that may be given away. -/
def isTransient (d : PwmModule σ φ) (i : Nat) : Bool :=
  (d.deref (some i)).any fun c => c.flags = .transient

/-- **`DynamicPwm::allocate`**: the first empty slot; else the first transient channel from the one
    last used on, redirected; else null. -/
def allocate (d : PwmModule σ φ) (pin : PinName) (persistence : PwmPersistence) :
    PwmModule σ φ × Option Nat :=
  match d.pwms.findIdx? Option.isNone with
  | some i =>
    ({ d with hardware := mb.create pin d.hardware,
              pwms := d.pwms.set i (some ⟨pin, persistence, mb.stale⟩), lastUsed := i }, some i)
  | none =>
    -- the loop stops in front of `lastUsed`, which comes last
    match [nextSlot d.lastUsed, nextSlot (nextSlot d.lastUsed), d.lastUsed].find? d.isTransient with
    | none => (d, none)
    | some i =>
      match d.deref (some i) with
      | none => (d, none)
      | some c =>
        ({ d with hardware := mb.gpioteReinit pin c.pin d.hardware,
                  pwms := d.pwms.set i (some { c with pin := pin, flags := persistence }),
                  lastUsed := i }, some i)

/-- **`DynamicPwm::release`**. -/
def release (d : PwmModule σ φ) (ptr : Option Nat) : PwmModule σ φ :=
  match ptr, d.deref ptr with
  | some i, some c =>
    { d with hardware := mb.free c.pin d.hardware, pwms := d.pwms.set i none }
  | _, _ => d

/-- **`DynamicPwm::write`**. -/
def write (d : PwmModule σ φ) (ptr : Option Nat) (value : φ) :
    Option (ErrorNo × PwmModule σ φ) :=
  match ptr, d.deref ptr with
  | some i, some c =>
    if mb.isNegative value then some (.invalidParameter, d)
    else some (.ok, { d with hardware := mb.write c.pin value d.hardware,
                             pwms := d.pwms.set i (some { c with lastValue := value }) })
  | _, _ => none

/-- **`DynamicPwm::setPeriodUs`**. The field `sharedPeriod` has 16 bits. -/
def setPeriodUs (d : PwmModule σ φ) (ptr : Option Nat) (period : Int) :
    Option (ErrorNo × PwmModule σ φ) :=
  match d.deref ptr with
  | none => none
  | some c =>
    if period < 0 then some (.invalidParameter, d)
    else
      match { d with hardware := mb.periodUs c.pin period d.hardware }.write mb ptr c.lastValue with
      | none => none
      | some (_, d) => some (.ok, { d with sharedPeriod := (period % 65536).toNat })

/-- `DynamicPwm::getPeriodUs`. -/
def getPeriodUs (d : PwmModule σ φ) : Int := d.sharedPeriod

/-- `PwmOut::pulsewidth_us` on a `DynamicPwm`. -/
def pulsewidthUs (d : PwmModule σ φ) (ptr : Option Nat) (us : Int) : Option (PwmModule σ φ) :=
  match d.deref ptr with
  | none => none
  | some c => some { d with hardware := mb.pulsewidthUs c.pin us d.hardware }

end PwmModule

/-! ## 3. `MicroBitPin` -/

/-- `PinCapability`. -/
inductive PinCapability where
  | digital
  | analog
  | ad
  | all
  deriving DecidableEq

/-- `PIN_CAPABILITY_ANALOG & capability`. -/
def PinCapability.hasAnalog : PinCapability → Bool
  | .digital => false
  | _ => true

/-- A `MicroBitPin`. Of `status` the bit `IO_STATUS_ANALOG_OUT` is here: no other is ever set on
    these two pins. -/
structure MicroBitPin where
  name : PinName
  capability : PinCapability
  analogOut : Bool
  pin : Option Nat
  deriving DecidableEq

namespace MicroBitPin

/-- **`MicroBitPin::disconnect`**. -/
def disconnect (p : MicroBitPin) (d : PwmModule σ φ) : Option (MicroBitPin × PwmModule σ φ) :=
  let p' := { p with analogOut := false, pin := none }
  if p.analogOut then
    match d.deref p.pin with
    | none => none
    | some c => if c.pin = p.name then some (p', d.release mb p.pin) else some (p', d)
  else some (p', d)

/-- **`MicroBitPin::obtainAnalogChannel`**. -/
def obtainAnalogChannel (p : MicroBitPin) (d : PwmModule σ φ) :
    Option (MicroBitPin × PwmModule σ φ) :=
  match
    if p.analogOut then (d.deref p.pin).map fun c => decide (c.pin = p.name) else some false
  with
  | none => none
  | some true => some (p, d)
  | some false =>
    match p.disconnect mb d with
    | none => none
    | some (p, d) =>
      let r := d.allocate mb p.name .transient
      some ({ p with analogOut := true, pin := r.2 }, r.1)

/-- **`MicroBitPin::setAnalogValue`**. -/
def setAnalogValue (p : MicroBitPin) (d : PwmModule σ φ) (value : Int) :
    Option (ErrorNo × MicroBitPin × PwmModule σ φ) :=
  if !p.capability.hasAnalog then some (.notSupported, p, d)
  else if value < 0 ∨ value > 1023 then some (.invalidParameter, p, d)
  else
    match p.obtainAnalogChannel mb d with
    | none => none
    | some (p, d) => (d.write mb p.pin (mb.level value)).map fun r => (r.1, p, r.2)

/-- **`MicroBitPin::setServoPulseUs`**. -/
def setServoPulseUs (p : MicroBitPin) (d : PwmModule σ φ) (pulseWidth : Int) :
    Option (ErrorNo × MicroBitPin × PwmModule σ φ) :=
  if !p.capability.hasAnalog then some (.notSupported, p, d)
  else if pulseWidth < 0 then some (.invalidParameter, p, d)
  else
    match p.obtainAnalogChannel mb d with
    | none => none
    | some (p, d) =>
      match if d.getPeriodUs ≠ defaultPwmPeriod then
          (d.setPeriodUs mb p.pin defaultPwmPeriod).map Prod.snd else some d with
      | none => none
      | some d => (d.pulsewidthUs mb p.pin pulseWidth).map fun d => (.ok, p, d)

/-- **`MicroBitPin::setServoValue`**: a negative value is refused, one above 180 is clipped. -/
def setServoValue (p : MicroBitPin) (d : PwmModule σ φ) (value range center : Int) :
    Option (ErrorNo × MicroBitPin × PwmModule σ φ) :=
  if !p.capability.hasAnalog then some (.notSupported, p, d)
  else if value < 0 ∨ range < 1 ∨ center < 1 then some (.invalidParameter, p, d)
  else
    let value := if value > 180 then 180 else value
    let lower := (center - range.tdiv 2) * 1000
    let scaled := lower + range * (value * 1000).tdiv 180
    p.setServoPulseUs mb d (scaled.tdiv 1000)

/-- **`MicroBitPin::setAnalogPeriodUs`**: only on a pin in analogue output mode. -/
def setAnalogPeriodUs (p : MicroBitPin) (d : PwmModule σ φ) (period : Int) :
    Option (ErrorNo × MicroBitPin × PwmModule σ φ) :=
  if !p.analogOut then some (.notSupported, p, d)
  else (d.setPeriodUs mb p.pin period).map fun r => (r.1, p, r.2)

/-- **`MicroBitPin::setAnalogPeriod`**. -/
def setAnalogPeriod (p : MicroBitPin) (d : PwmModule σ φ) (period : Int) :
    Option (ErrorNo × MicroBitPin × PwmModule σ φ) :=
  p.setAnalogPeriodUs mb d (period * 1000)

end MicroBitPin

/-! ## 4. The pins of the program -/

/-- The two pins with the PWM module under them. -/
structure Pins (σ φ : Type) where
  servo : MicroBitPin
  audio : MicroBitPin
  pwm : PwmModule σ φ

namespace Pins

/-- The pins after static initialisation. -/
def init (φ : Type) (hardware : σ) : Pins σ φ :=
  ⟨⟨.p0_1, .all, false, none⟩, ⟨.p0_3, .all, false, none⟩, .init φ hardware⟩

/-- A call on the servo pin; its answer is dropped. -/
def onServo (ps : Pins σ φ)
    (call : MicroBitPin → PwmModule σ φ → Option (ErrorNo × MicroBitPin × PwmModule σ φ)) :
    Option (Pins σ φ) :=
  (call ps.servo ps.pwm).map fun r => { ps with servo := r.2.1, pwm := r.2.2 }

/-- A call on the audio pin; its answer is dropped. -/
def onAudio (ps : Pins σ φ)
    (call : MicroBitPin → PwmModule σ φ → Option (ErrorNo × MicroBitPin × PwmModule σ φ)) :
    Option (Pins σ φ) :=
  (call ps.audio ps.pwm).map fun r => { ps with audio := r.2.1, pwm := r.2.2 }

/-- **The calls of `main` on the pins before its loops**, in their order. -/
def setUp (ps : Pins σ φ) (servovalue : Int) : Option (Pins σ φ) := do
  let ps ← ps.onServo fun p d => p.setAnalogPeriod mb d 20
  let ps ← ps.onServo fun p d => p.setServoValue mb d servovalue servoRange servoN
  let ps ← ps.onAudio fun p d => p.setAnalogValue mb d 0
  ps.onAudio fun p d => p.setAnalogPeriodUs mb d 32

/-- What an action of `processline` does to the pins. -/
def act (ps : Pins σ φ) : Action → Option (Pins σ φ)
  | .setServoValue value range center =>
    ps.onServo fun p d => p.setServoValue mb d value range center
  | .music _ => some ps
  | .sleep _ => some ps

/-- The actions of a run, one after the other. -/
def actAll (ps : Pins σ φ) (as : List Action) : Option (Pins σ φ) := as.foldlM (act mb) ps

end Pins

end Drivers

/-! ## 5. What the calls come to -/

section Specs

variable {σ φ : Type} {mb : Mbed σ φ} {d : PwmModule σ φ} {p : MicroBitPin} {ptr : Option Nat}

namespace PwmModule

/-- The pin of the channel behind a pointer. -/
def pinOf (d : PwmModule σ φ) (ptr : Option Nat) : Option PinName := (d.deref ptr).map (·.pin)

theorem exists_of_pinOf {name : PinName} (h : d.pinOf ptr = some name) :
    ∃ i c, ptr = some i ∧ d.deref ptr = some c ∧ c.pin = name := by
  obtain ⟨c, hc, hn⟩ := Option.map_eq_some_iff.mp h
  cases ptr with
  | none => cases hc
  | some i => exact ⟨i, c, rfl, hc, hn⟩

/-- Another value in a slot leaves every channel on its pin. -/
theorem pinOf_set {i : Nat} {c c' : DynamicPwm φ} (h : d.deref (some i) = some c)
    (hp : c'.pin = c.pin) (hw : σ) (n : Nat) (q : Option Nat) :
    pinOf ⟨hw, d.pwms.set i (some c'), d.lastUsed, n⟩ q = d.pinOf q := by
  cases q with
  | none => rfl
  | some j =>
      simp only [deref, Option.bind_some, Option.join_eq_some_iff] at h
      simp only [pinOf, deref, Option.bind_some, List.getElem?_set]
      by_cases hij : i = j
      · subst hij
        have hlt : i < d.pwms.length := (List.getElem?_eq_some_iff.mp h).1
        rw [if_pos rfl, if_pos hlt, h]
        exact congrArg some hp
      · rw [if_neg hij]

/-- **`write`** changes the duty cycle only, or nothing. -/
theorem write_spec (hm : mb.Documented) {c : DynamicPwm φ} (h : d.deref ptr = some c) (x : φ) :
    ∃ r d', d.write mb ptr x = some (r, d') ∧ d'.sharedPeriod = d.sharedPeriod ∧
      mb.period d'.hardware = mb.period d.hardware ∧ ∀ q, d'.pinOf q = d.pinOf q := by
  have hpin : d.pinOf ptr = some c.pin := by rw [pinOf, h, Option.map_some]
  obtain ⟨i, _, rfl, -, -⟩ := exists_of_pinOf hpin
  unfold write
  simp only [h]
  by_cases hx : mb.isNegative x = true
  · exact ⟨_, _, if_pos hx, rfl, rfl, fun _ => rfl⟩
  · exact ⟨_, _, if_neg hx, rfl, hm.period_write _ _ _, pinOf_set h (by rfl) _ _⟩

/-- **`setPeriodUs`** sets the period of the module. -/
theorem setPeriodUs_spec (hm : mb.Documented) {c : DynamicPwm φ} (h : d.deref ptr = some c)
    {us : Int} (h0 : 0 < us) (h1 : us < 65536) :
    ∃ d', d.setPeriodUs mb ptr us = some (.ok, d') ∧ d'.sharedPeriod = us ∧
      mb.period d'.hardware = us ∧ ∀ q, d'.pinOf q = d.pinOf q := by
  have h' : PwmModule.deref { d with hardware := mb.periodUs c.pin us d.hardware } ptr = some c := h
  obtain ⟨r, d', hw, -, hper, hpin⟩ := write_spec hm h' c.lastValue
  refine ⟨{ d' with sharedPeriod := (us % 65536).toNat }, ?_, ?_, ?_, hpin⟩
  · unfold setPeriodUs
    simp only [h, if_neg (Int.not_lt.mpr h0.le), hw]
  · show (((us % 65536).toNat : Nat) : Int) = us
    omega
  · exact hper.trans (hm.period_periodUs _ _ _ h0)

end PwmModule

namespace MicroBitPin

/-- The pin is in analogue output mode, and its channel is still its own. -/
@[mk_iff]
structure Held (p : MicroBitPin) (d : PwmModule σ φ) : Prop where
  analog : p.capability = .all
  out : p.analogOut = true
  channel : d.pinOf p.pin = some p.name

theorem obtainAnalogChannel_held (h : p.Held d) : p.obtainAnalogChannel mb d = some (p, d) := by
  obtain ⟨i, c, -, hc, hn⟩ := PwmModule.exists_of_pinOf h.channel
  unfold obtainAnalogChannel
  rw [if_pos h.out, hc, Option.map_some, hn, decide_eq_true rfl]

/-- **`setServoPulseUs`** sets the period to 20 ms and the width to its argument. -/
theorem setServoPulseUs_spec (hm : mb.Documented) (h : p.Held d)
    (hper : mb.period d.hardware = d.sharedPeriod) {w : Int} (hw : 0 ≤ w) :
    ∃ d', p.setServoPulseUs mb d w = some (.ok, p, d') ∧ p.Held d' ∧
      mb.period d'.hardware = d'.sharedPeriod ∧ mb.period d'.hardware = 20000 ∧
      mb.pulse p.name d'.hardware = w := by
  obtain ⟨i, c, -, hc, -⟩ := PwmModule.exists_of_pinOf h.channel
  -- the period first, if it is another one
  obtain ⟨d₁, h₁, hs₁, hp₁, hpin₁⟩ : ∃ d₁,
      (if d.getPeriodUs ≠ defaultPwmPeriod then
        (d.setPeriodUs mb p.pin defaultPwmPeriod).map Prod.snd else some d) = some d₁ ∧
      (d₁.sharedPeriod : Int) = 20000 ∧ mb.period d₁.hardware = 20000 ∧
      ∀ q, d₁.pinOf q = d.pinOf q := by
    by_cases hd : d.getPeriodUs = defaultPwmPeriod
    · exact ⟨d, if_neg (not_not_intro hd), hd, hper.trans hd, fun _ => rfl⟩
    · obtain ⟨d₁, h₁, hs₁, hp₁, hpin₁⟩ :=
        PwmModule.setPeriodUs_spec hm hc (show 0 < defaultPwmPeriod by decide) (by decide)
      exact ⟨d₁, by rw [if_pos hd, h₁]; rfl, hs₁, hp₁, hpin₁⟩
  -- then the pulse
  have hch : d₁.pinOf p.pin = some p.name := (hpin₁ _).trans h.channel
  obtain ⟨-, c₁, -, hc₁, hn₁⟩ := PwmModule.exists_of_pinOf hch
  have hper' := (hm.period_pulsewidthUs c₁.pin w d₁.hardware).trans hp₁
  refine ⟨{ d₁ with hardware := mb.pulsewidthUs c₁.pin w d₁.hardware }, ?_,
    ⟨h.analog, h.out, hch⟩, hper'.trans hs₁.symm, hper', ?_⟩
  · unfold setServoPulseUs
    simp only [h.analog, PinCapability.hasAnalog, Bool.not_true, Bool.false_eq_true, if_false,
      if_neg (Int.not_lt.mpr hw), obtainAnalogChannel_held h, h₁, PwmModule.pulsewidthUs, hc₁,
      Option.map_some]
  · rw [← hn₁]
    exact hm.pulse_pulsewidthUs _ _ _ hw

end MicroBitPin

/-- The pulse width of an angle between 0 and 180 degrees, in microseconds. -/
def servoPulse (v : Int) : Int := (500000 + 2000 * (1000 * v / 180)) / 1000

theorem servoPulse_nonneg {v : Int} (h : 0 ≤ v) : 0 ≤ servoPulse v := by
  unfold servoPulse
  omega

/-- The arithmetic of `setServoValue`. -/
theorem scaled_eq {v : Int} (h : 0 ≤ v) :
    ((servoN - servoRange.tdiv 2) * 1000 + servoRange * (v * 1000).tdiv 180).tdiv 1000 =
      servoPulse v := by
  have hv : 0 ≤ v * 1000 := by omega
  have hs : 0 ≤ 500000 + 2000 * (v * 1000 / 180) := by omega
  have hlower : (servoN - servoRange.tdiv 2) * 1000 = 500000 := by decide
  rw [hlower, Int.tdiv_eq_ediv_of_nonneg hv, servoRange, Int.tdiv_eq_ediv_of_nonneg hs,
    Int.mul_comm v, servoPulse]

/-- **`setServoValue`** of an angle that is not negative: one above 180 is treated as 180. -/
theorem MicroBitPin.setServoValue_eq (ha : p.capability = .all) {v : Int} (h : 0 ≤ v) :
    p.setServoValue mb d v servoRange servoN =
      p.setServoPulseUs mb d (servoPulse (if v > 180 then 180 else v)) := by
  have hu : (0 : Int) ≤ if v > 180 then 180 else v := by
    split <;> omega
  have hok : ¬ (v < 0 ∨ servoRange < 1 ∨ servoN < 1) := by
    simp only [servoRange, servoN]
    omega
  rw [← scaled_eq hu]
  unfold setServoValue
  rw [ha, if_neg (by decide), if_neg hok]

/-- A negative angle is refused. -/
theorem MicroBitPin.setServoValue_refuse (ha : p.capability = .all) {v : Int} (h : v < 0) :
    p.setServoValue mb d v servoRange servoN = some (.invalidParameter, p, d) := by
  unfold setServoValue
  rw [ha, if_neg (by decide), if_pos (.inl h)]

namespace Pins

/-- The servo pin is P2 and holds a channel, and the timer runs at the period the module has
    stored. -/
@[mk_iff]
structure Ready (mb : Mbed σ φ) (ps : Pins σ φ) : Prop where
  name : ps.servo.name = .p0_1
  held : ps.servo.Held ps.pwm
  period : mb.period ps.pwm.hardware = ps.pwm.sharedPeriod

/-- **After the set-up** the servo pin holds its channel; but the period of the module is the one
    of the audio pin. -/
theorem setUp_spec (hm : mb.Documented) (hw : σ) :
    ∃ ps, (init φ hw).setUp mb Globals.init.servovalue = some ps ∧ ps.Ready mb ∧
      mb.period ps.pwm.hardware = 32 := by
  -- an uninitialised `lastValue` may be refused by `write`, and so may the level 0
  have hper : ∀ p s, mb.period (mb.periodUs p 32 s) = 32 := fun p s =>
    hm.period_periodUs p 32 s (by decide)
  cases h1 : mb.isNegative mb.stale <;> cases h2 : mb.isNegative (mb.level 0)
  all_goals
    simp [init, setUp, onServo, onAudio, PwmModule.init, MicroBitPin.setAnalogPeriod,
      MicroBitPin.setAnalogPeriodUs, MicroBitPin.setServoValue_eq, MicroBitPin.setServoPulseUs,
      MicroBitPin.setAnalogValue, MicroBitPin.obtainAnalogChannel, MicroBitPin.disconnect,
      PinCapability.hasAnalog, PwmModule.allocate, PwmModule.setPeriodUs, PwmModule.write,
      PwmModule.deref, PwmModule.getPeriodUs, PwmModule.pulsewidthUs, defaultPwmPeriod,
      List.findIdx?, List.findIdx?.go, Globals.init, servoPulse, h1, h2, hper, hm.period_write,
      ready_iff, MicroBitPin.held_iff, PwmModule.pinOf]

/-- **A servo command** keeps the pins ready; an angle between 0 and 180 degrees comes out on P2 as
    its pulse in a period of 20 ms. -/
theorem Ready.act {ps : Pins σ φ} (hm : mb.Documented) (h : ps.Ready mb) (v : Int) :
    ∃ ps', ps.act mb (.setServoValue v servoRange servoN) = some ps' ∧ ps'.Ready mb ∧
      (0 ≤ v → v ≤ 180 → mb.period ps'.pwm.hardware = 20000 ∧
        mb.pulse .p0_1 ps'.pwm.hardware = servoPulse v) := by
  -- what an angle in range does
  have hrange : ∀ u, 0 ≤ u → u ≤ 180 → ∃ d',
      ps.servo.setServoPulseUs mb ps.pwm (servoPulse u) = some (.ok, ps.servo, d') ∧
      Ready mb { ps with pwm := d' } ∧ mb.period d'.hardware = 20000 ∧
      mb.pulse .p0_1 d'.hardware = servoPulse u := by
    intro u hu0 hu1
    obtain ⟨d', hd', hheld, hper, hp, hw⟩ := ps.servo.setServoPulseUs_spec hm h.held h.period
      (servoPulse_nonneg hu0)
    exact ⟨d', hd', ⟨h.name, hheld, hper⟩, hp, by rw [← h.name]; exact hw⟩
  simp only [Pins.act, onServo]
  rcases Int.lt_or_le v 0 with hneg | h0
  · rw [MicroBitPin.setServoValue_refuse h.held.analog hneg]
    exact ⟨ps, rfl, h, fun h0 => absurd h0 (Int.not_le.mpr hneg)⟩
  · rw [MicroBitPin.setServoValue_eq h.held.analog h0]
    by_cases h1 : v > 180
    · obtain ⟨d', hd', hr, -⟩ := hrange 180 (by decide) (by decide)
      rw [if_pos h1, hd']
      exact ⟨_, rfl, hr, fun _ hv => absurd hv (Int.not_le.mpr h1)⟩
    · obtain ⟨d', hd', hr, hp⟩ := hrange v h0 (Int.not_lt.mp h1)
      rw [if_neg h1, hd']
      exact ⟨_, rfl, hr, fun _ _ => hp⟩

end Pins

end Specs

end MicrobitAlarm
