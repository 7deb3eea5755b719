/-
  File:      MicrobitAlarm/Properties/Servo.lean
  Subject:   WHAT THE SERVO IS DRIVEN WITH, against `servovalue`.

  `servovalue` is assigned before the driver has looked at the value, and the PWM period is one for
  the servo and the audio pin. So two things go wrong: an angle that the driver refuses or clips
  stays in `servovalue`; and from the set-up of the audio pin, which comes last, to the first
  servo command the servo pin runs at the audio pin's period.

  * `servovalue_run`, `pins_run` -- `servovalue` and the pins, from the angles executed in a run;
  * `servo_iff` -- `servovalue` describes the output exactly if an angle has been executed and the
    last one was between 0 and 180; both ways to fail (`servo_not_described`).
-/
import MicrobitAlarm.Firmware.Pins
import MicrobitAlarm.Properties.Sleeps

namespace MicrobitAlarm

open Trace

/-! ## 1. The angles of a run -/

/-- The angle of an 's' line. -/
def angleOf (l : ManagedString) : Option Int :=
  if l.data.headD 0 = 's'.toUInt8 then some (decimal l.data) else none

/-- The angle of an 's' line that an event reports as executed, live or replayed. -/
def Event.angle (e : Event) : Option Int := e.ran.bind angleOf

/-- **The angles executed in a run**, oldest first. -/
def angles (tr : List Event) : List Int := tr.filterMap Event.angle

/-- The device actions that an event reports. -/
def Event.calls : Event → List Action
  | .line _ _ _ as => as
  | .replayed _ as => as
  | _ => []

variable {b b' : Board} {tr ev : List Event} {line : ManagedString}

theorem liveServo_eq (h : ∀ y ∈ line.data, y ≠ 0) (v : Int) :
    liveServo v line = (angleOf line).getD v := by
  unfold liveServo angleOf
  rw [ManagedString.charAt_zero, number_eq h]
  split <;> rfl

/-- What a line that is executed leaves in `servovalue`. -/
theorem servovalue_call {g : Globals} {now t : Nat} {rm : Bool} {out : Outcome} {as : List Action}
    (hn : ∀ y ∈ line.data, y ≠ 0) (hq : processline g now line rm = some out) :
    out.globals.servovalue = (Event.angle (.line t line rm as)).getD g.servovalue := by
  rcases processline_cases hq with ⟨ha, rfl⟩ | ⟨he, rfl⟩ | ⟨hc, hr, s, _, rfl⟩ | ⟨hc, hr, rfl⟩
  · simp [Event.angle, Event.ran, treat, isControl, ha]
  · simp [Event.angle, Event.ran, treat, isControl, he]
  · simp [Event.angle, Event.ran, treat, hc, hr]
  · simp [Event.angle, Event.ran, treat, hc, hr, liveServo_eq hn]

theorem angles_receipts (conn : Nat) (rs : List Receipt) :
    angles (rs.map (Event.ofReceipt conn)) = [] := by
  rw [angles, List.filterMap_eq_nil_iff]
  intro e he
  obtain ⟨r, -, rfl⟩ := List.mem_map.mp he
  cases r <;> rfl

theorem servovalue_step (hsi : ScriptInv b) (hs : b.Step b' ev) :
    b'.globals.servovalue = (angles ev).getLastD b.globals.servovalue := by
  have hsingle : ∀ e : Event, (angles [e]).getLastD b.globals.servovalue =
      e.angle.getD b.globals.servovalue := fun e => by
    cases h : e.angle <;> simp [angles, h]
  cases hs with
  | write data hu => rw [angles_receipts]; rfl
  | @replayed c line line' out h hc hp =>
      obtain ⟨_, hr⟩ := hsi.position (c, line.data) (by rw [h]; rfl)
      obtain ⟨hrec, -, hg⟩ := alarmPass_live hsi.script hc hr hp
      rw [hsingle, hg]
      exact liveServo_eq hrec.noNul _
  | linePanic h hl hq =>
      obtain ⟨hc, hr, _⟩ := processline_eq_none hq
      simp [angles, Event.angle, Event.ran, treat, hc, hr]
  | lineSleeps h hl hq hs =>
      rw [hsingle]
      exact servovalue_call (append_noNul hsi hl) hq
  | line h hl hq hs =>
      rw [hsingle]
      exact servovalue_call (append_noNul hsi hl) hq
  | _ => rfl

/-- **`servovalue` is the last angle executed**, in range or not. -/
theorem servovalue_run (h : firmware.Run b tr) :
    b.globals.servovalue = (angles tr).getLastD 90 :=
  firmware_inv (I := fun b tr => b.globals.servovalue = (angles tr).getLastD 90) rfl
    (fun b tr b' ev hr _ hi hs => by
      rw [servovalue_step (scriptInv_run hr) hs, hi, angles, angles, angles, List.filterMap_append]
      simp only [List.getLastD_eq_getLast?, List.getLast?_append]
      cases (List.filterMap Event.angle ev).getLast? <;> rfl) h

/-! ## 2. The pins in a run -/

variable {σ φ : Type} {mb : Mbed σ φ}

/-- **The pins after a run**: `main`'s set-up, and then the actions the run reports. -/
def Pins.after (mb : Mbed σ φ) (hw : σ) (tr : List Event) : Option (Pins σ φ) :=
  ((Pins.init φ hw).setUp mb Globals.init.servovalue).bind fun ps =>
    ps.actAll mb (tr.flatMap Event.calls)

/-- Only the angle of a line reaches the pins. -/
theorem actAll_liveActions (h : ∀ y ∈ line.data, y ≠ 0) (ps : Pins σ φ) :
    ps.actAll mb (liveActions line) =
      match angleOf line with
      | some v => ps.act mb (.setServoValue v servoRange servoN)
      | none => some ps := by
  unfold liveActions angleOf Pins.actAll
  rw [ManagedString.charAt_zero, number_eq h]
  by_cases hs : line.data.headD 0 = 's'.toUInt8
  · simp only [if_pos hs, List.foldlM_cons, List.foldlM_nil]
    cases ps.act mb (.setServoValue (decimal line.data) servoRange servoN) <;> rfl
  · simp only [if_neg hs]
    split
    · rfl
    · split <;> rfl

/-- The same for an event. -/
theorem actAll_calls {pre : List Event} {e : Event} (h : Regular pre e) (ps : Pins σ φ) :
    ps.actAll mb e.calls =
      match e.angle with
      | some v => ps.act mb (.setServoValue v servoRange servoN)
      | none => some ps := by
  cases e with
  | line t l rm as =>
      obtain ⟨hn, rfl⟩ := h
      by_cases ht : treat l.data rm = .executed
      · simp only [Event.calls, Event.angle, Event.ran, if_pos ht, actAll_liveActions hn,
          Option.bind_some]
      · simp only [Event.calls, Event.angle, Event.ran, if_neg ht, Option.bind_none]
        rfl
  | replayed l as =>
      obtain ⟨hn, rfl⟩ := h
      exact actAll_liveActions hn ps
  | _ => rfl

/-- The pins drive the servo as an angle says: with its pulse, in a period of 20 ms. -/
structure Pins.Drives (mb : Mbed σ φ) (ps : Pins σ φ) (v : Int) : Prop where
  period : mb.period ps.pwm.hardware = 20000
  pulse : mb.pulse .p0_1 ps.pwm.hardware = servoPulse v

/-- **The pins after a run**: ready; at the audio pin's period before the first angle, and driving
    the last angle if it is in range. -/
theorem pins_run (hm : mb.Documented) (hw : σ) (h : ∀ e ∈ tr, Regular [] e) :
    ∃ ps, Pins.after mb hw tr = some ps ∧ ps.Ready mb ∧
      ((angles tr).getLast? = none → mb.period ps.pwm.hardware = 32) ∧
      ∀ v, (angles tr).getLast? = some v → 0 ≤ v → v ≤ 180 → ps.Drives mb v := by
  induction tr using List.reverseRecOn with
  | nil =>
      obtain ⟨ps, hps, hr, hp⟩ := Pins.setUp_spec hm hw
      exact ⟨ps, by rw [Pins.after, hps]; rfl, hr, fun _ => hp, fun _ hv => by cases hv⟩
  | append_singleton tr e ih =>
      obtain ⟨ps, hps, hr, hnone, hsome⟩ := ih fun x hx => h x (List.mem_append_left _ hx)
      have hact : ps.actAll mb e.calls = _ := actAll_calls (h e (by simp)) ps
      have hafter : Pins.after mb hw (tr ++ [e]) = ps.actAll mb e.calls := by
        rw [Pins.after, List.flatMap_append, List.flatMap_singleton]
        rw [Pins.after] at hps
        obtain ⟨ps₀, h₀, h₁⟩ := Option.bind_eq_some_iff.mp hps
        rw [h₀, Option.bind_some, Pins.actAll, List.foldlM_append]
        rw [Pins.actAll] at h₁
        rw [h₁]
        rfl
      have hangles : angles (tr ++ [e]) = angles tr ++ e.angle.toList := by
        rw [angles, List.filterMap_append, angles]
        cases he : e.angle <;> simp [he]
      rw [hafter, hact, hangles]
      cases he : e.angle with
      | none => exact ⟨ps, rfl, hr, by simpa using hnone, by simpa using hsome⟩
      | some v =>
          obtain ⟨ps', hps', hr', hv⟩ := hr.act hm v
          refine ⟨ps', hps', hr', by simp, fun u hu h0 h1 => ?_⟩
          obtain rfl : v = u := by simpa using hu
          exact ⟨(hv h0 h1).1, (hv h0 h1).2⟩

/-! ## 3. `servovalue` and the output -/

/-- **The law of the servo**: `servovalue` is an angle between 0 and 180, and P2 is driven with a
    period of 20000 us and the angle's pulse. -/
def ServoDescribed (mb : Mbed σ φ) (hw : σ) (tr : List Event) (servovalue : Int) : Prop :=
  0 ≤ servovalue ∧ servovalue ≤ 180 ∧
    ∃ ps, Pins.after mb hw tr = some ps ∧ ps.pwm.pinOf ps.servo.pin = some .p0_1 ∧
      mb.period ps.pwm.hardware = 20000 ∧
      mb.pulse .p0_1 ps.pwm.hardware = (500000 + 2000 * (1000 * servovalue / 180)) / 1000

/-- **`servovalue` describes the output of the servo if and only if** an angle has been executed,
    live or replayed, and the last one was between 0 and 180. -/
theorem servo_iff (hm : mb.Documented) (hw : σ) (h : firmware.Run b tr) :
    ServoDescribed mb hw tr b.globals.servovalue ↔
      ∃ v, (angles tr).getLast? = some v ∧ 0 ≤ v ∧ v ≤ 180 := by
  have hreg : ∀ e ∈ tr, Regular [] e := fun e he => by
    obtain ⟨pre, post, htr⟩ := List.append_of_mem he
    exact regular_run h pre e post htr
  obtain ⟨ps, hps, hr, hnone, hsome⟩ := pins_run hm hw hreg
  have hv : b.globals.servovalue = (angles tr).getLast?.getD 90 := by
    rw [servovalue_run h, List.getLastD_eq_getLast?]
  unfold ServoDescribed
  rw [hv]
  cases hlast : (angles tr).getLast? with
  | none =>
      -- no angle yet: the period is the audio pin's
      constructor
      · rintro ⟨-, -, ps', hps', -, hp, -⟩
        obtain rfl : ps = ps' := Option.some.inj (hps.symm.trans hps')
        rw [hnone hlast] at hp
        cases hp
      · rintro ⟨v, hv, -⟩
        cases hv
  | some v =>
      constructor
      · rintro ⟨h0, h1, -⟩
        exact ⟨v, rfl, h0, h1⟩
      · rintro ⟨w, hw, h0, h1⟩
        obtain rfl : v = w := Option.some.inj hw
        have hd := hsome v hlast h0 h1
        exact ⟨h0, h1, ps, hps, by rw [hr.held.channel, hr.name], hd.period, hd.pulse⟩

/-! ## 4. Runs -/

/-- A PWM timer with one period and a pulse for each pin. -/
structure PwmTimer where
  period : Int
  pulse : PinName → Int

/-- `PwmOut` on such a timer; a duty cycle is counted in steps of 1/1023. -/
def pwmTimer : Mbed PwmTimer Int where
  create p s := ⟨20000, Function.update s.pulse p 0⟩
  free p s := { s with pulse := Function.update s.pulse p 0 }
  gpioteReinit p old s :=
    { s with pulse := Function.update (Function.update s.pulse old 0) p 0 }
  write p x s := { s with pulse := Function.update s.pulse p (x * s.period / 1023) }
  periodUs p us s := ⟨us, Function.update s.pulse p (s.pulse p * us / s.period)⟩
  pulsewidthUs p us s := { s with pulse := Function.update s.pulse p us }
  level v := v
  isNegative x := x < 0
  stale := 0
  period := PwmTimer.period
  pulse p s := s.pulse p

theorem pwmTimer_documented : pwmTimer.Documented where
  period_periodUs _ _ _ _ := rfl
  period_write _ _ _ := rfl
  period_pulsewidthUs _ _ _ := rfl
  pulse_pulsewidthUs _ _ _ _ := Function.update_self _ _ _

/-- "s45\n" executed behind "s-1\n": the output is described again. -/
theorem servo_iff_run :
    ∃ b tr, firmware.Run b tr ∧ angles tr = [-1, 45] ∧
      ServoDescribed pwmTimer ⟨0, fun _ => 0⟩ tr b.globals.servovalue := by
  obtain ⟨b, tr, hr, ha⟩ := Machine.exists_run_of_exec firmware
    (fun _ tr => angles tr = [-1, 45])
    (boot ++ lineTurns [115, 45, 49, 10] ++ [.elapse 30, .main] ++ outerTurn ++
      lineTurns [115, 52, 53, 10]) (by decide +kernel)
  exact ⟨b, tr, hr, ha, (servo_iff pwmTimer_documented _ hr).mpr
    ⟨45, by rw [ha]; rfl, by decide, by decide⟩⟩

/-- **The output is not what `servovalue` says.** Main is in its polling loop, no line has been
    executed, and P2 runs at 32 us; and behind "s181\n", `servovalue` is 181 while the pulse is
    that of 180 degrees. -/
theorem servo_not_described :
    (∃ b tr, firmware.Run b tr ∧ b.pc = .poll ∧ b.globals.servovalue = 90 ∧
      ((Pins.after pwmTimer ⟨0, fun _ => 0⟩ tr).map fun ps => ps.pwm.hardware.period) = some 32 ∧
      ¬ ServoDescribed pwmTimer ⟨0, fun _ => 0⟩ tr b.globals.servovalue) ∧
    ∃ b tr, firmware.Run b tr ∧ b.pc = .outer ∧ b.globals.servovalue = 181 ∧
      ((Pins.after pwmTimer ⟨0, fun _ => 0⟩ tr).map fun ps => ps.pwm.hardware.pulse .p0_1) =
        some 2500 ∧
      ¬ ServoDescribed pwmTimer ⟨0, fun _ => 0⟩ tr b.globals.servovalue := by
  constructor
  · obtain ⟨b, tr, hr, hpc, hv, hp⟩ := Machine.exists_run_of_exec firmware
      (fun b tr => b.pc = .poll ∧ b.globals.servovalue = 90 ∧
        ((Pins.after pwmTimer ⟨0, fun _ => 0⟩ tr).map fun ps => ps.pwm.hardware.period) = some 32)
      (boot ++ [.main]) (by decide +kernel)
    refine ⟨b, tr, hr, hpc, hv, hp, ?_⟩
    rintro ⟨-, -, ps, hps, -, hper, -⟩
    rw [hps] at hp
    exact absurd ((Option.some.inj hp).symm.trans hper) (by decide)
  · obtain ⟨b, tr, hr, hpc, hv, hp⟩ := Machine.exists_run_of_exec firmware
      (fun b tr => b.pc = .outer ∧ b.globals.servovalue = 181 ∧
        ((Pins.after pwmTimer ⟨0, fun _ => 0⟩ tr).map fun ps => ps.pwm.hardware.pulse .p0_1) =
          some 2500)
      (boot ++ lineTurns [115, 49, 56, 49, 10] ++ [.elapse 30, .main]) (by decide +kernel)
    refine ⟨b, tr, hr, hpc, hv, hp, ?_⟩
    rintro ⟨-, h1, -⟩
    rw [hv] at h1
    exact absurd h1 (by decide)

end MicrobitAlarm
