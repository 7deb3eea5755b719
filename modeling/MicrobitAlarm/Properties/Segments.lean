/-
  File:      MicrobitAlarm/Properties/Segments.lean
  Subject:   THE INTERPRETER IS THE REFERENCE SEGMENTER.

  The interpreter carries its mode through `processline`'s return value and its script in a global,
  and `alarm()` enters the same function again. The reference carries nothing: it looks back over
  the lines passed so far (`Segments`), whose markers are the control lines.

  * `ledger_segments` -- what the ledger of a run carries along is what the reference sees behind
    it;
  * `executed_eq` -- the lines executed live are those outside all recordings;
  * `segmenter` -- mode, script and live lines of every run, and how each line is treated.
-/
import MicrobitAlarm.Lib.Segments
import MicrobitAlarm.Properties.Replay

namespace MicrobitAlarm

open Trace Framing Segments

/-! ## 1. The reference -/

/-- A line that opens a recording. -/
def armLine (l : ManagedString) : Bool := isArm l.data

/-- A line that closes one. -/
def endLine (l : ManagedString) : Bool := isEnd l.data

/-- The markers are the control lines. -/
theorem marker_line (l : ManagedString) : marker armLine endLine l = isControl l.data := rfl

/-- **What the ledger carries along is what the reference sees behind it.** -/
theorem ledger_segments (tr : List Event) :
    (ledger tr).opened.isSome = isOpen armLine endLine (passed tr) ∧
      (ledger tr).script = segment armLine endLine (passed tr) := by
  induction tr using List.reverseRecOn with
  | nil => exact ⟨rfl, rfl⟩
  | append_singleton tr e ih =>
      obtain ⟨ho, hs⟩ := ih
      rw [ledger_snoc, passed_append]
      cases e with
      | line t l rm as =>
          rw [show passed [Event.line t l rm as] = [l] from rfl, isOpen_snoc, segment_snoc,
            marker_line, ← ho, ← hs]
          refine ⟨opened_line, ?_⟩
          cases ha : isArm l.data with
          | true =>
              rw [ledger_arm ha, if_pos (show armLine l = true from ha)]
          | false =>
              rw [if_neg (show ¬ armLine l = true by simp [armLine, ha])]
              cases he : isEnd l.data with
              | true =>
                  rw [ledger_end he]
                  simp [isControl, he]
              | false =>
                  have hc : isControl l.data = false := by simp [isControl, ha, he]
                  rw [ledger_plain hc, hc, Bool.not_false, Bool.and_true]
                  split <;> rfl
      | _ =>
          -- no other event passes a line
          rw [← List.append_nil (passed tr)] at ho hs
          exact ⟨ho, hs⟩

/-! ## 2. The lines executed live -/

/-- A line that `processline` executed for main, with its actions. -/
def Event.executed : Event → Option (ManagedString × List Action)
  | .line _ l rm as => if treat l.data rm = .executed then some (l, as) else none
  | _ => none

/-- The lines executed live, in order. -/
def executed (tr : List Event) : List (ManagedString × List Action) := tr.filterMap Event.executed

/-- **The lines executed live are those outside all recordings**, each with its own actions. -/
theorem executed_eq {tr : List Event} (hag : Always Agrees tr) :
    executed tr = (outside armLine endLine (passed tr)).map fun l => (l, liveActions l) := by
  induction tr using List.reverseRecOn with
  | nil => rfl
  | append_singleton tr e ih =>
      obtain ⟨hag, hA⟩ := always_snoc.mp hag
      rw [passed_append, executed, List.filterMap_append, ← executed, ih hag]
      cases e with
      | line t l rm as =>
          obtain ⟨hrm, _, has⟩ := hA
          rw [(ledger_segments tr).1] at hrm
          rw [show passed [Event.line t l rm as] = [l] from rfl, outside_snoc, marker_line, ← hrm]
          cases hc : isControl l.data with
          | true => simp [Event.executed, treat, hc]
          | false =>
              cases hm : rm with
              | true => simp [Event.executed, treat, hc]
              | false => simp [Event.executed, treat, hc, has hm hc]
      | _ =>
          show _ ++ [] = (outside armLine endLine (passed tr ++ [])).map _
          rw [List.append_nil, List.append_nil]

/-! ## 3. How a line is treated -/

/-- **What main's call of `processline` comes to** for a line, from the board before it to the
    board behind it, with the actions it asked for. -/
def Treated (b : Board) (l : ManagedString) (as : List Action) (b' : Board) : LineClass → Prop
  | .control => isControl l.data = true ∧ as = [] ∧ b'.mode = isArm l.data ∧
      b'.globals.recscr.data = if isArm l.data then [] else b.globals.recscr.data
  | .recorded => isControl l.data = false ∧ as = [] ∧ b'.mode = b.mode ∧
      b'.globals.recscr.data = b.globals.recscr.data ++ l.data
  | .executed => isControl l.data = false ∧ as = liveActions l ∧ b'.mode = b.mode ∧
      b'.globals.recscr.data = b.globals.recscr.data

variable {b b' : Board} {tr : List Event}

/-- The step in which main calls `processline`, unless the script no longer fits. -/
theorem line_step {ev : List Event} {t : Nat} {l : ManagedString} {rm : Bool} {as : List Action}
    (hs : b.Step b' ev) (hev : ev = [.line t l rm as]) (hp : b'.pc ≠ .panicked) :
    ∃ out, processline b.globals b.now l b.recordmode = some out ∧ b'.globals = out.globals ∧
      b'.mode = out.recordmode ∧ b.mode = b.recordmode ∧ rm = b.recordmode ∧ as = out.actions := by
  cases hs with
  | write data hu =>
      obtain ⟨x, hx | hx⟩ := mem_receipts (e := .line t l rm as) (by rw [hev]; simp) <;> cases hx
  | linePanic h hl hq => exact absurd rfl hp
  | lineSleeps h hl hq hs =>
      cases hev
      exact ⟨_, hq, rfl, rfl, by simp [Board.mode, h], rfl, rfl⟩
  | line h hl hq hs =>
      cases hev
      exact ⟨_, hq, rfl, rfl, by simp [Board.mode, h], rfl, rfl⟩
  | _ => cases hev

/-- **Every line is treated in exactly one way**, which the mode decides. -/
theorem treated_iff {l : ManagedString} {out : Outcome} (hf : IsFrame newline l.data)
    (hq : processline b.globals b.now l b.recordmode = some out) (hg : b'.globals = out.globals)
    (hm' : b'.mode = out.recordmode) (hm : b.mode = b.recordmode) (w : LineClass) :
    Treated b l out.actions b' w ↔ w = treat l.data b.recordmode := by
  -- no line is empty, so a recorded line changes the script
  have hne : ¬ b.globals.recscr.data = b.globals.recscr.data ++ l.data := by
    obtain ⟨d, x, hd, _⟩ := hf
    rw [hd]
    simp
  rcases processline_cases hq with ⟨ha, rfl⟩ | ⟨he, rfl⟩ | ⟨hc, hr, s, hcat, rfl⟩ | ⟨hc, hr, rfl⟩
  · have hc : isControl l.data = true := by rw [isControl, ha, Bool.true_or]
    cases w <;> simp [Treated, treat, hc, ha, hg, hm', ManagedString.empty]
  · have ha : isArm l.data = false := by
      cases ha : isArm l.data with
      | false => rfl
      | true => rw [not_isEnd_of_isArm ha] at he; cases he
    have hc : isControl l.data = true := by rw [isControl, he, Bool.or_true]
    cases w <;> simp [Treated, treat, hc, ha, hg, hm']
  · rw [hr] at hm ⊢
    have hs := ManagedString.concat_eq_some.mp hcat
    have hne' : ¬ b.globals.recscr.data ++ l.data = b.globals.recscr.data := fun e => hne e.symm
    cases w <;> simp [Treated, treat, hc, hg, hm', hm, hs]
    exact fun _ h => hne' (by simp [h])
  · rw [hr] at hm ⊢
    cases w <;> simp [Treated, treat, hc, hg, hm', hm]
    exact fun _ h => hne (by simp [h])

/-! ## 4. Every run -/

/-- **The interpreter is the reference segmenter.** On every board a run reaches, with any number
    of replays in between: a recording is open exactly if the last control line is an 'a' line; the
    script is the lines behind the last 'a' line and before the next control line, joined; the
    lines executed live are exactly those whose last control line before them is no 'a' line, in
    order; and the next line main passes is treated in exactly one of the three ways. -/
theorem segmenter (h : firmware.Run b tr) (hp : b.pc ≠ .panicked) :
    b.mode = isOpen armLine endLine (passed tr) ∧
      b.globals.recscr.data =
        ((segment armLine endLine (passed tr)).map (·.data)).flatten ∧
      executed tr = (outside armLine endLine (passed tr)).map (fun l => (l, liveActions l)) ∧
      ∀ a b' t l rm as, b.step a = some (b', [.line t l rm as]) → b'.pc ≠ .panicked →
        ∀ w, Treated b l as b' w ↔
          w = treat l.data (isOpen armLine endLine (passed tr)) := by
  have hl := ledger_run h hp
  obtain ⟨ho, hs⟩ := ledger_segments tr
  refine ⟨hl.mode.trans ho, ?_, executed_eq (agrees_run h), fun a b' t l rm as hstep hp' w => ?_⟩
  · rw [hl.script, Ledger.body, hs]
  · have hstep' := (Board.step_cases hstep).2
    obtain ⟨out, hq, hg, hm', hm, hrm, rfl⟩ := line_step hstep' rfl hp'
    have hf : IsFrame newline l.data :=
      (agrees_run (.step _ _ _ _ _ h hstep) tr (.line t l rm out.actions) [] rfl).2.1
    rw [treated_iff hf hq hg hm' hm, ← hm, hl.mode, ho]

/-- "a99\n", "s9\n" and "e\n", the replay of "s9\n", and "m\n". -/
theorem segmenter_run :
    ∃ b tr, firmware.Run b tr ∧
      passed tr = [⟨[97, 57, 57, 10], by decide⟩, ⟨[115, 57, 10], by decide⟩,
        ⟨[101, 10], by decide⟩, ⟨[109, 10], by decide⟩] ∧
      calls tr ≠ [] ∧ b.mode = false ∧ b.globals.recscr.data = [115, 57, 10] ∧
      executed tr = [(⟨[109, 10], by decide⟩, [.music ⟨[10], by decide⟩])] := by
  obtain ⟨b, tr, hr, hp, hl, hc⟩ := Machine.exists_run_of_exec firmware
    (fun b tr => b.pc ≠ .panicked ∧ passed tr = [⟨[97, 57, 57, 10], by decide⟩,
      ⟨[115, 57, 10], by decide⟩, ⟨[101, 10], by decide⟩, ⟨[109, 10], by decide⟩] ∧ calls tr ≠ [])
    (boot ++ lineTurns [97, 57, 57, 10] ++ outerTurn ++ lineTurns [115, 57, 10] ++ outerTurn ++
      lineTurns [101, 10] ++ outerTurn ++ [.elapse 100, .main, .main, .main, .main, .main,
        .elapse 36, .main, tick, .main, .main, .main, tick, .main] ++ lineTurns [109, 10])
    (by decide +kernel)
  obtain ⟨hm, hs, hx, _⟩ := segmenter hr hp
  rw [hl] at hm hs hx
  exact ⟨b, tr, hr, hl, hc, hm.trans (by decide +kernel), hs.trans (by decide +kernel),
    hx.trans (by decide +kernel)⟩

end MicrobitAlarm
