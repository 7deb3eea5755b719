/-
  File:      MicrobitAlarm/Properties/Sleeps.lean
  Subject:   THE TIME A LINE ASKS FOR, and the time `uBit.sleep` is asked for.

  A 'p' line's argument goes through `atoi` to an `int` and from there into the unsigned parameter
  of `uBit.sleep` (whose documentation has negative numbers refused). A negative one comes out as a
  sleep of more than 2^31 - 1 milliseconds; nothing else in a line can.

  * `sleepTime_eq_iff` -- one line: what its actions sleep is what it asks for exactly if it is no
    'p' line with a negative argument;
  * `regular_run` -- the lines and actions that a run reports;
  * `time_iff` -- the replay of a script and the sleeps of a run; a run in which both go wrong
    (`long_sleep`).
-/
import MicrobitAlarm.Properties.Scripts
import MicrobitAlarm.Properties.Segments
import Mathlib.Algebra.Order.BigOperators.Group.List

namespace MicrobitAlarm

open Trace Framing

/-! ## 1. One line -/

/-- The decimal argument of a line. -/
def decimal (l : List UInt8) : Int := Decimal.strtol l.tail

/-- The milliseconds a line asks for: 30 for an 's' line, its argument for a 'p' line, and none
    for a negative one. -/
def asked (l : List UInt8) : Nat :=
  if l.headD 0 = 's'.toUInt8 then 30
  else if l.headD 0 = 'p'.toUInt8 then (max 0 (decimal l)).toNat
  else 0

/-- A 'p' line with a negative argument. -/
def NegativePause (l : List UInt8) : Prop := l.headD 0 = 'p'.toUInt8 ∧ decimal l < 0

/-- The arguments of the calls of `uBit.sleep`. -/
def sleeps (as : List Action) : List Nat :=
  as.filterMap fun
    | .sleep ms => some ms
    | _ => none

/-- What is asked of `uBit.sleep` in all. -/
def sleepTime (as : List Action) : Nat := (sleeps as).sum

theorem number_eq {line : ManagedString} (h : ∀ y ∈ line.data, y ≠ 0) :
    number line = decimal line.data := by
  rw [number, argument, ManagedString.substring_argument h, decimal]

/-- An `int` that is not negative goes through the conversion as it is. -/
theorem toULong_of_nonneg {v : Int} (h0 : 0 ≤ v) (h1 : v ≤ 2147483647) : toULong v = v.toNat := by
  unfold toULong wordSize
  omega

/-- A negative `int` comes out of the conversion above 2^31 - 1. -/
theorem toULong_of_neg {v : Int} (h0 : v < 0) (h1 : -2147483648 ≤ v) :
    2147483647 < toULong v := by
  unfold toULong wordSize
  omega

/-- The sleeps of a line that is executed. -/
theorem sleeps_liveActions {line : ManagedString} (h : ∀ y ∈ line.data, y ≠ 0) :
    sleeps (liveActions line) =
      if line.data.headD 0 = 's'.toUInt8 then [30]
      else if line.data.headD 0 = 'p'.toUInt8 then [toULong (decimal line.data)]
      else [] := by
  have hpm : ¬ 'p'.toUInt8 = 'm'.toUInt8 := by decide
  unfold liveActions
  rw [ManagedString.charAt_zero, number_eq h]
  by_cases hs : line.data.headD 0 = 's'.toUInt8
  · rw [if_pos hs, if_pos hs]
    rfl
  · rw [if_neg hs, if_neg hs]
    by_cases hp : line.data.headD 0 = 'p'.toUInt8
    · rw [hp, if_neg hpm, if_pos rfl, if_pos rfl]
      rfl
    · rw [if_neg hp, if_neg hp]
      split <;> rfl

theorem decimal_range (l : List UInt8) : -2147483648 ≤ decimal l ∧ decimal l ≤ 2147483647 :=
  Decimal.strtol_range _

/-- **A line sleeps what it asks for**, unless it is a 'p' line with a negative argument, which
    sleeps longer. -/
theorem asked_le_sleepTime {line : ManagedString} (h : ∀ y ∈ line.data, y ≠ 0) :
    asked line.data ≤ sleepTime (liveActions line) := by
  obtain ⟨hlo, hhi⟩ := decimal_range line.data
  unfold sleepTime asked
  rw [sleeps_liveActions h]
  split
  · simp
  · split
    · rcases Int.lt_or_le (decimal line.data) 0 with hn | hn
      · have := toULong_of_neg hn hlo
        simp only [List.sum_cons, List.sum_nil]
        omega
      · rw [toULong_of_nonneg hn hhi]
        simp only [List.sum_cons, List.sum_nil]
        omega
    · simp

theorem sleepTime_eq_iff {line : ManagedString} (h : ∀ y ∈ line.data, y ≠ 0) :
    asked line.data = sleepTime (liveActions line) ↔ ¬ NegativePause line.data := by
  obtain ⟨hlo, hhi⟩ := decimal_range line.data
  have hps : ¬ 'p'.toUInt8 = 's'.toUInt8 := by decide
  unfold sleepTime asked NegativePause
  rw [sleeps_liveActions h]
  by_cases hp : line.data.headD 0 = 'p'.toUInt8
  · rw [hp, if_neg hps, if_neg hps, if_pos rfl, if_pos rfl]
    simp only [List.sum_cons, List.sum_nil, true_and, Int.not_lt]
    rcases Int.lt_or_le (decimal line.data) 0 with hn | hn
    · have := toULong_of_neg hn hlo
      omega
    · rw [toULong_of_nonneg hn hhi]
      omega
  · have hneg : ¬ (line.data.headD 0 = 'p'.toUInt8 ∧ decimal line.data < 0) := fun h => hp h.1
    rw [if_neg hp, if_neg hp]
    simp only [hneg, not_false_eq_true, iff_true]
    split <;> rfl

/-- **A line's sleeps are short** exactly if it is no 'p' line with a negative argument. -/
theorem sleeps_le_iff {line : ManagedString} (h : ∀ y ∈ line.data, y ≠ 0) :
    (∀ ms ∈ sleeps (liveActions line), ms ≤ 2147483647) ↔ ¬ NegativePause line.data := by
  obtain ⟨hlo, hhi⟩ := decimal_range line.data
  have hps : ¬ 'p'.toUInt8 = 's'.toUInt8 := by decide
  unfold NegativePause
  rw [sleeps_liveActions h]
  by_cases hp : line.data.headD 0 = 'p'.toUInt8
  · rw [hp, if_neg hps, if_pos rfl, List.forall_mem_singleton]
    simp only [true_and, Int.not_lt]
    rcases Int.lt_or_le (decimal line.data) 0 with hn | hn
    · have := toULong_of_neg hn hlo
      omega
    · rw [toULong_of_nonneg hn hhi]
      omega
  · have hneg : ¬ (line.data.headD 0 = 'p'.toUInt8 ∧ decimal line.data < 0) := fun h => hp h.1
    rw [if_neg hp]
    simp only [hneg, not_false_eq_true, iff_true]
    split
    · simp
    · simp

/-! ## 2. The replay of a script -/

/-- What `alarm()` asks of `uBit.sleep` in all: what the lines sleep, and one millisecond behind
    each of them. -/
def requested (calls : List (ManagedString × List Action)) : Nat :=
  (calls.map fun q => sleepTime q.2 + 1).sum

/-- **A replay takes the time its script asks for** exactly if no line of the script is a 'p' line
    with a negative argument. -/
theorem requested_eq_iff {calls : List (ManagedString × List Action)}
    (hn : ∀ q ∈ calls, ∀ y ∈ q.1.data, y ≠ 0) (ha : ∀ q ∈ calls, q.2 = liveActions q.1) :
    requested calls = ((calls.map (·.1.data)).map fun l => asked l + 1).sum ↔
      ∀ l ∈ calls.map (·.1.data), ¬ NegativePause l := by
  rw [requested, List.map_map]
  have hle : ∀ q ∈ calls, asked q.1.data + 1 ≤ sleepTime q.2 + 1 := fun q hq => by
    rw [ha q hq]
    exact Nat.succ_le_succ (asked_le_sleepTime (hn q hq))
  constructor
  · intro h l hl
    obtain ⟨q, hq, rfl⟩ := List.mem_map.mp hl
    by_contra hneg
    have hlt : asked q.1.data + 1 < sleepTime q.2 + 1 := by
      refine Nat.lt_of_le_of_ne (hle q hq) fun he => ?_
      rw [ha q hq] at he
      exact (sleepTime_eq_iff (hn q hq)).mp (Nat.succ.inj he) hneg
    exact absurd h.symm (Nat.ne_of_lt (List.sum_lt_sum _ _ hle ⟨q, hq, hlt⟩))
  · intro h
    refine congrArg List.sum (List.map_congr_left fun q hq => ?_)
    have hq' := (sleepTime_eq_iff (hn q hq)).mpr (h _ (List.mem_map_of_mem hq))
    show sleepTime q.2 + 1 = asked q.1.data + 1
    rw [ha q hq, ← hq']

/-! ## 3. The sleeps of a run -/

/-- The line that an event reports as executed, live or replayed. -/
def Event.ran : Event → Option ManagedString
  | .line _ l rm _ => if treat l.data rm = .executed then some l else none
  | .replayed l _ => some l
  | _ => none

/-- What a line makes the main fiber ask of `uBit.sleep`. -/
def Event.sleeps : Event → List Nat
  | .line _ _ _ as => MicrobitAlarm.sleeps as
  | .replayed _ as => MicrobitAlarm.sleeps as
  | _ => []

/-- The actions of a line are its own if it is executed, and none otherwise. -/
def Regular (_ : List Event) : Event → Prop
  | .line _ l rm as => (∀ y ∈ l.data, y ≠ 0) ∧
      as = if treat l.data rm = .executed then liveActions l else []
  | .replayed l as => (∀ y ∈ l.data, y ≠ 0) ∧ as = liveActions l
  | _ => True

variable {b b' : Board} {tr ev : List Event}

theorem regular_call {l : ManagedString} {out : Outcome} (hn : ∀ y ∈ l.data, y ≠ 0)
    (hq : processline b.globals b.now l b.recordmode = some out) :
    Regular tr (.line b.now l b.recordmode out.actions) := by
  refine ⟨hn, ?_⟩
  rcases processline_cases hq with ⟨ha, rfl⟩ | ⟨he, rfl⟩ | ⟨hc, hr, s, _, rfl⟩ | ⟨hc, hr, rfl⟩
  · simp [treat, isControl, ha]
  · simp [treat, isControl, he]
  · simp [treat, hc, hr]
  · simp [treat, hc, hr]

/-- The events of a step. -/
theorem regular_step (hsi : ScriptInv b) (hs : b.Step b' ev) : ∀ e ∈ ev, ∀ pre, Regular pre e := by
  intro e he pre
  cases hs with
  | write data hu =>
      obtain ⟨x, rfl | rfl⟩ := mem_receipts he <;> trivial
  | @replayed c line line' out h hc hp =>
      obtain ⟨_, hr⟩ := hsi.position (c, line.data) (by rw [h]; rfl)
      obtain ⟨hrec, has, _⟩ := alarmPass_live hsi.script hc hr hp
      rw [List.mem_singleton.mp he]
      exact ⟨hrec.noNul, has⟩
  | linePanic h hl hq =>
      rw [List.mem_singleton.mp he]
      refine ⟨append_noNul hsi hl, ?_⟩
      obtain ⟨hc, hr, _⟩ := processline_eq_none hq
      simp [treat, hc, hr]
  | lineSleeps h hl hq hs =>
      rw [List.mem_singleton.mp he]
      exact regular_call (append_noNul hsi hl) hq
  | line h hl hq hs =>
      rw [List.mem_singleton.mp he]
      exact regular_call (append_noNul hsi hl) hq
  | move h => cases he
  | elapse ms => cases he
  | enableUpdates on hu => cases he
  | declare h hw => cases he
  | fill h hs => cases he
  | grown h hl hn => cases he
  | lineWoken h hw => cases he
  | _ => rw [List.mem_singleton.mp he]; trivial

/-- **Every line a run reports** has no NUL byte, and the actions it has when it is executed. -/
theorem regular_run (h : firmware.Run b tr) : Always Regular tr :=
  firmware_inv (I := fun _ tr => Always Regular tr) always_nil
    (fun _ _ _ _ hr _ hi hs => always_append.mpr ⟨hi, always_of_mem fun e he _ =>
      regular_step (scriptInv_run hr) hs e he _⟩) h

/-- The sleeps of one event. -/
theorem Regular.sleeps_le_iff {pre : List Event} {e : Event} (h : Regular pre e) :
    (∀ ms ∈ e.sleeps, ms ≤ 2147483647) ↔ ∀ l, e.ran = some l → ¬ NegativePause l.data := by
  cases e with
  | line t l rm as =>
      obtain ⟨hn, rfl⟩ := h
      by_cases ht : treat l.data rm = .executed
      · simp only [Event.sleeps, Event.ran, if_pos ht, MicrobitAlarm.sleeps_le_iff hn,
          Option.some.injEq, forall_eq']
      · simp [Event.sleeps, Event.ran, if_neg ht, sleeps]
  | replayed l as =>
      obtain ⟨hn, rfl⟩ := h
      simp only [Event.sleeps, Event.ran, MicrobitAlarm.sleeps_le_iff hn, Option.some.injEq,
        forall_eq']
  | _ => simp [Event.sleeps, Event.ran]

/-! ## 4. Every run -/

/-- **The law of sleeping**: `alarm()`, called with the script of the board, asks for one
    millisecond for each line and for what the lines ask for; and no line of the run, live or
    replayed, has made the main fiber ask for more than 2^31 - 1 ms at once. -/
def TimeAsAsked (b : Board) (tr : List Event) : Prop :=
  (∀ clock g calls, alarm clock b.globals = some (g, calls) →
    requested calls = ((frames newline b.globals.recscr.data).map fun l => asked l + 1).sum) ∧
  ∀ e ∈ tr, ∀ ms ∈ e.sleeps, ms ≤ 2147483647

/-- **A run sleeps as it is asked to if and only if** no line of its script and no line executed so
    far, live or replayed, is a 'p' line with a negative argument. -/
theorem time_iff (h : firmware.Run b tr) :
    TimeAsAsked b tr ↔
      (∀ l ∈ frames newline b.globals.recscr.data, ¬ NegativePause l) ∧
        ∀ e ∈ tr, ∀ l, e.ran = some l → ¬ NegativePause l.data := by
  have hsi := scriptInv_run h
  have hevents : (∀ e ∈ tr, ∀ ms ∈ e.sleeps, ms ≤ 2147483647) ↔
      ∀ e ∈ tr, ∀ l, e.ran = some l → ¬ NegativePause l.data := by
    refine forall_congr' fun e => forall_congr' fun he => ?_
    obtain ⟨pre, post, htr⟩ := List.append_of_mem he
    exact (regular_run h pre e post htr).sleeps_le_iff
  -- the calls of `alarm()` are the lines of the script
  have hcalls : ∀ clock g calls, alarm clock b.globals = some (g, calls) →
      (requested calls =
        ((frames newline b.globals.recscr.data).map fun l => asked l + 1).sum ↔
        ∀ l ∈ frames newline b.globals.recscr.data, ¬ NegativePause l) := by
    intro clock g calls hal
    obtain ⟨v, calls', hal', hf, ha⟩ := alarm_frames clock hsi.script
    rw [hal'] at hal
    obtain rfl : calls' = calls := (Prod.mk.inj (Option.some.inj hal)).2
    rw [← hf]
    refine requested_eq_iff (fun q hq => ?_) ha
    refine (hsi.script.2 q.1.data ?_).noNul
    rw [← hf]
    exact List.mem_map_of_mem hq
  rw [TimeAsAsked, hevents]
  refine and_congr_left fun _ => ⟨fun hreq => ?_, fun hneg clock g calls hal => ?_⟩
  · obtain ⟨v, calls, hal, _⟩ := alarm_frames (fun _ => 0) hsi.script
    exact (hcalls _ _ _ hal).mp (hreq _ _ _ hal)
  · exact (hcalls clock g calls hal).mpr hneg

/-- "a99\n" and "p5\n" recorded, and "p7\n" executed behind "e\n". -/
theorem time_iff_run :
    ∃ b tr, firmware.Run b tr ∧ b.globals.recscr.data = [112, 53, 10] ∧
      executed tr = [(⟨[112, 55, 10], by decide⟩, [.sleep 7])] ∧ TimeAsAsked b tr := by
  obtain ⟨b, tr, hr, hs, hx, hran⟩ := Machine.exists_run_of_exec firmware
    (fun b tr => b.globals.recscr.data = [112, 53, 10] ∧
      executed tr = [(⟨[112, 55, 10], by decide⟩, [.sleep 7])] ∧
      tr.filterMap Event.ran = [⟨[112, 55, 10], by decide⟩])
    (boot ++ lineTurns [97, 57, 57, 10] ++ outerTurn ++ lineTurns [112, 53, 10] ++ outerTurn ++
      lineTurns [101, 10] ++ outerTurn ++ lineTurns [112, 55, 10]) (by decide +kernel)
  refine ⟨b, tr, hr, hs, hx, (time_iff hr).mpr ⟨?_, fun e he l hl => ?_⟩⟩
  · rw [hs]
    intro l hl
    rw [show frames newline [112, 53, 10] = [[112, 53, 10]] by decide +kernel,
      List.mem_singleton] at hl
    rw [hl]
    exact fun hn => absurd hn.2 (by decide +kernel)
  · have hm : l ∈ tr.filterMap Event.ran := List.mem_filterMap.mpr ⟨e, he, hl⟩
    rw [hran, List.mem_singleton] at hm
    rw [hm]
    exact fun hn => absurd hn.2 (by decide +kernel)

/-- **A pause of 49 days**: "p-1\n" is executed, and main asks for 4294967295 ms; and it is
    recorded, and the replay of this one line asks for 4294967296 ms where its script asks for
    one. -/
theorem long_sleep :
    ∃ b tr, firmware.Run b tr ∧ b.globals.recscr.data = [112, 45, 49, 10] ∧
      ((alarm (fun _ => 0) b.globals).map fun r => requested r.2) = some 4294967296 ∧
      ((frames newline b.globals.recscr.data).map fun l => asked l + 1).sum = 1 ∧
      (∃ e ∈ tr, 4294967295 ∈ e.sleeps) ∧ ¬ TimeAsAsked b tr := by
  obtain ⟨b, tr, hr, hs, hq, hk, e, he, hms⟩ := Machine.exists_run_of_exec firmware
    (fun b tr => b.globals.recscr.data = [112, 45, 49, 10] ∧
      ((alarm (fun _ => 0) b.globals).map fun r => requested r.2) = some 4294967296 ∧
      ((frames newline b.globals.recscr.data).map fun l => asked l + 1).sum = 1 ∧
      ∃ e ∈ tr, 4294967295 ∈ e.sleeps)
    (boot ++ lineTurns [97, 57, 57, 10] ++ outerTurn ++ lineTurns [112, 45, 49, 10] ++ outerTurn ++
      lineTurns [101, 10] ++ outerTurn ++ lineTurns [112, 45, 49, 10]) (by decide +kernel)
  exact ⟨b, tr, hr, hs, hq, hk, ⟨e, he, hms⟩, fun hT => absurd (hT.2 e he _ hms) (by decide)⟩

end MicrobitAlarm
