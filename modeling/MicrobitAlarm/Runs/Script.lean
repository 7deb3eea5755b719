/-
  File:      MicrobitAlarm/Runs/Script.lean
  Subject:   STORED SCRIPTS ARE WELL FORMED, on every board a run reaches.

  A script is a concatenation of lines, each with its only newline at the end, free of NUL bytes
  and no control line. Nothing but a recorded line is ever added to it, and a recorded line is of
  that kind because main's line is cut at its first newline and control lines are not recorded. So
  a replay meets no control line: it never touches the script, the deadline or main's
  `recordmode`, and where the loop of `alarm()` stands its line is what the script has from the
  last newline on.

  * `ScriptInv`, `scriptInv_run` -- the invariant, on every run;
  * `alarmPass_live` -- so a replayed line is a line of the script, executed;
  * `alarmPass_ne_none` -- and no string of a replay is too long for the RAM;
  * `alarm_frames` -- `alarm()` as a whole: it calls `processline` on the lines of the script.
-/
import MicrobitAlarm.Firmware.Steps
import MicrobitAlarm.Lib.Framing

namespace MicrobitAlarm

open Framing

/-! ## 1. Well-formed scripts -/

/-- The byte that ends a line. -/
def newline (b : UInt8) : Bool := b == 10

/-- **A line that can be recorded.** -/
structure Recordable (l : List UInt8) : Prop where
  frame : IsFrame newline l
  noNul : ∀ y ∈ l, y ≠ 0
  noControl : isControl l = false

/-- **A well-formed script**: nothing behind the last newline, and only lines that can be
    recorded. -/
def WellFormed (s : List UInt8) : Prop :=
  rest newline s = [] ∧ ∀ l ∈ frames newline s, Recordable l

theorem wellFormed_nil : WellFormed [] := ⟨rfl, by simp⟩

/-- The script as the lines it is made of. -/
theorem frames_append_line {s l : List UInt8} (hs : rest newline s = []) (hl : IsFrame newline l) :
    frames newline (s ++ l) = frames newline s ++ [l] ∧ rest newline (s ++ l) = [] := by
  have h := cut_append_of_rest_nil hs l
  have hc := cut_of_isFrame hl
  constructor
  · show (cut newline (s ++ l)).1 = _
    rw [h, frames, frames, hc]
  · show (cut newline (s ++ l)).2 = _
    rw [h, rest, hc]

theorem WellFormed.append {s l : List UInt8} (hs : WellFormed s) (hl : Recordable l) :
    WellFormed (s ++ l) := by
  obtain ⟨hf, hr⟩ := frames_append_line hs.1 hl.frame
  refine ⟨hr, fun l' hl' => ?_⟩
  rw [hf] at hl'
  rcases List.mem_append.mp hl' with h | h
  · exact hs.2 l' h
  · rw [List.mem_singleton.mp h]
    exact hl

/-- What `processline` is called with in `main`: one newline, at the end, and no NUL byte. -/
theorem processline_wellFormed {g : Globals} {now : Nat} {line : ManagedString} {rm : Bool}
    {out : Outcome} (hs : WellFormed g.recscr.data) (hf : IsFrame newline line.data)
    (hn : ∀ y ∈ line.data, y ≠ 0) (hp : processline g now line rm = some out) :
    WellFormed out.globals.recscr.data := by
  rcases processline_cases hp with ⟨_, rfl⟩ | ⟨_, rfl⟩ | ⟨hc, _, s, hcat, rfl⟩ | ⟨_, _, rfl⟩
  · exact wellFormed_nil
  · exact hs
  · show WellFormed s.data
    rw [ManagedString.concat_eq_some.mp hcat]
    exact hs.append ⟨hf, hn, hc⟩
  · exact hs

/-! ## 2. One pass of a replay -/

section Pass

variable {g : Globals} {now c : Nat} {line line' : ManagedString} {out : Outcome}

/-- The byte at an index of the script. -/
theorem take_charAt (hc : c < g.recscr.length) :
    g.recscr.data.take (c + 1) = g.recscr.data.take c ++ [g.recscr.charAt c] := by
  have h : c < g.recscr.data.length := hc
  rw [ManagedString.charAt_of_lt hc, List.take_add_one, List.getD_eq_getElem?_getD]
  simp [h]

/-- The line of `alarm()` with one more byte of the script. -/
theorem rest_take (hc : c < g.recscr.length) :
    rest newline (g.recscr.data.take (c + 1)) =
      if newline (g.recscr.charAt c) then []
      else rest newline (g.recscr.data.take c) ++ [g.recscr.charAt c] := by
  rw [take_charAt hc, rest_snoc]

theorem charAt_ne_zero (hs : WellFormed g.recscr.data) (hc : c < g.recscr.length) :
    g.recscr.charAt c ≠ 0 := by
  have hm : g.recscr.charAt c ∈ g.recscr.data.take (c + 1) := by simp [take_charAt hc]
  have hm' : g.recscr.charAt c ∈ (frames newline g.recscr.data).flatten := by
    have h := flatten_frames (d := newline) g.recscr.data
    rw [hs.1, List.append_nil] at h
    rw [h]
    exact List.mem_of_mem_take hm
  obtain ⟨l, hl, hml⟩ := List.mem_flatten.mp hm'
  exact (hs.2 l hl).noNul _ hml

/-- **What a pass of `alarm()` is**: the byte goes to the line, and a newline is followed by a call
    of `processline`. -/
theorem alarmPass_cases {p : Pass} (hp : alarmPass g now c line = some p) :
    ∃ l, l.data = line.data ++ (ManagedString.ofChar (g.recscr.charAt c)).data ∧
      (g.recscr.charAt c ≠ 10 ∧ p = .char l ∨
        g.recscr.charAt c = 10 ∧ ∃ out, processline g now l false = some out ∧ p = .call l out) := by
  unfold alarmPass at hp
  rw [ManagedString.ofChars_pair] at hp
  simp only at hp
  cases hl : line.concat (.ofChar (g.recscr.charAt c)) with
  | none => rw [hl] at hp; cases hp
  | some l =>
      rw [hl] at hp
      simp only at hp
      refine ⟨l, ManagedString.concat_eq_some.mp hl, ?_⟩
      split at hp
      case isTrue hn =>
          split at hp
          · cases hp
          · rename_i out ho
            cases hp
            exact .inr ⟨hn, out, ho, rfl⟩
      case isFalse hn =>
          cases hp
          exact .inl ⟨hn, rfl⟩

/-- A pass at a byte that is no newline. -/
theorem alarmPass_char (hp : alarmPass g now c line = some (.char line')) :
    newline (g.recscr.charAt c) = false ∧
      line'.data = line.data ++ (ManagedString.ofChar (g.recscr.charAt c)).data := by
  obtain ⟨l, hl, ⟨hn, he⟩ | ⟨_, _, _, he⟩⟩ := alarmPass_cases hp <;> cases he
  exact ⟨by simpa [newline] using hn, hl⟩

/-- A pass at a newline: `processline` was called. -/
theorem alarmPass_call (hp : alarmPass g now c line = some (.call line' out)) :
    newline (g.recscr.charAt c) = true ∧ line'.data = line.data ++ [10] ∧
      processline g now line' false = some out := by
  obtain ⟨l, hl, ⟨_, he⟩ | ⟨hn, _, ho, he⟩⟩ := alarmPass_cases hp <;> cases he
  refine ⟨by simpa [newline] using hn, ?_, ho⟩
  rw [hl, hn]
  rfl

variable (hs : WellFormed g.recscr.data) (hc : c < g.recscr.length)
  (hr : rest newline (g.recscr.data.take c) = line.data)

include hs hc hr

/-- The line the pass at a newline completes is a line of the script. -/
theorem frames_take (hn : newline (g.recscr.charAt c) = true) :
    frames newline (g.recscr.data.take (c + 1)) =
        frames newline (g.recscr.data.take c) ++ [line.data ++ [10]] ∧
      Recordable (line.data ++ [10]) := by
  have h10 : g.recscr.charAt c = 10 := by simpa [newline] using hn
  have hf : frames newline (g.recscr.data.take (c + 1)) =
      frames newline (g.recscr.data.take c) ++ [line.data ++ [10]] := by
    rw [take_charAt hc, frames_snoc, if_pos hn, hr, h10]
  refine ⟨hf, ?_⟩
  obtain ⟨fs, hfs⟩ := frames_append (d := newline) (g.recscr.data.take (c + 1))
    (g.recscr.data.drop (c + 1))
  rw [List.take_append_drop] at hfs
  exact hs.2 _ (by rw [hfs, hf]; simp)

/-- A pass at any other byte: the line goes on. -/
theorem rest_of_char (hp : alarmPass g now c line = some (.char line')) :
    frames newline (g.recscr.data.take (c + 1)) = frames newline (g.recscr.data.take c) ∧
      rest newline (g.recscr.data.take (c + 1)) = line'.data := by
  obtain ⟨hn, hd⟩ := alarmPass_char hp
  constructor
  · rw [take_charAt hc, frames_snoc, hn, if_neg Bool.false_ne_true]
  · rw [rest_take hc, hn, hr, hd, ManagedString.data_ofChar, if_neg (charAt_ne_zero hs hc)]
    rfl

/-- A pass at a newline: the line is the next of the script, and a new one begins. -/
theorem rest_of_call (hp : alarmPass g now c line = some (.call line' out)) :
    frames newline (g.recscr.data.take (c + 1)) =
        frames newline (g.recscr.data.take c) ++ [line'.data] ∧
      rest newline (g.recscr.data.take (c + 1)) = [] := by
  obtain ⟨hn, hd, _⟩ := alarmPass_call hp
  constructor
  · rw [(frames_take hs hc hr hn).1, hd]
  · rw [rest_take hc, hn, if_pos rfl]

/-- **A replayed line is executed**: it is a line of the script, so it changes the servo value at
    most. -/
theorem alarmPass_live (hp : alarmPass g now c line = some (.call line' out)) :
    Recordable line'.data ∧ out.actions = liveActions line' ∧
      out.globals = { g with servovalue := liveServo g.servovalue line' } := by
  obtain ⟨hn, hd, ho⟩ := alarmPass_call hp
  have hrec := (frames_take hs hc hr hn).2
  rw [← hd] at hrec
  rw [processline_live hrec.noControl] at ho
  cases ho
  exact ⟨hrec, rfl, rfl⟩

/-- **No string of a replay is too long for the RAM**: its line is no longer than the script. -/
theorem alarmPass_ne_none : alarmPass g now c line ≠ none := by
  have hfit : (line.data ++ [g.recscr.charAt c]).length ≤ maxLength := by
    have h := flatten_frames (d := newline) (g.recscr.data.take (c + 1))
    have hl : (line.data ++ [g.recscr.charAt c]).length ≤ c + 1 := by
      have h1 := congrArg List.length (flatten_frames (d := newline) (g.recscr.data.take c))
      rw [hr, List.length_append, List.length_take] at h1
      rw [List.length_append, List.length_singleton]
      omega
    have := g.recscr.length_le
    omega
  have hcat : ∃ l, line.concat (.ofChar (g.recscr.charAt c)) = some l ∧
      l.data = line.data ++ [g.recscr.charAt c] := by
    refine ⟨⟨_, hfit⟩, ManagedString.concat_eq_some.mpr ?_, rfl⟩
    rw [ManagedString.data_ofChar, if_neg (charAt_ne_zero hs hc)]
  obtain ⟨l, hl, hd⟩ := hcat
  unfold alarmPass
  rw [ManagedString.ofChars_pair]
  simp only [hl]
  split
  · rename_i hn
    have hrec := (frames_take hs hc hr (by simpa [newline] using hn)).2
    have hnc : isControl l.data = false := by rw [hd, hn]; exact hrec.noControl
    rw [processline_live hnc]
    simp
  · simp

end Pass

/-- **The loop of `alarm()`** from an index on, by induction on the passes left: it calls
    `processline` on the lines that end behind the index. -/
theorem alarmLoop_frames {clock : Nat → Nat} {g : Globals} {n c : Nat} {line : ManagedString}
    (hs : WellFormed g.recscr.data) (hr : rest newline (g.recscr.data.take c) = line.data)
    (hn : g.recscr.length ≤ c + n) :
    ∃ v calls, alarmLoop clock n g c line = some ({ g with servovalue := v }, calls) ∧
      frames newline g.recscr.data =
        frames newline (g.recscr.data.take c) ++ calls.map (·.1.data) ∧
      ∀ q ∈ calls, q.2 = liveActions q.1 := by
  induction n generalizing g c line with
  | zero =>
      have hc : ¬ c < g.recscr.length := by omega
      refine ⟨g.servovalue, [], if_neg hc, ?_, by simp⟩
      rw [List.take_of_length_le (Nat.not_lt.mp hc)]
      simp
  | succ n ih =>
      unfold alarmLoop
      by_cases hc : c < g.recscr.length
      · rw [if_pos hc]
        cases hp : alarmPass g (clock c) c line with
        | none => exact absurd hp (alarmPass_ne_none hs hc hr)
        | some p =>
            cases p with
            | char line' =>
                obtain ⟨hf, hr'⟩ := rest_of_char hs hc hr hp
                rw [← hf]
                exact ih hs hr' (by omega)
            | call line' out =>
                obtain ⟨hf, hr'⟩ := rest_of_call hs hc hr hp
                obtain ⟨_, has, hg⟩ := alarmPass_live hs hc hr hp
                have hrec : out.globals.recscr = g.recscr := by rw [hg]
                have hempty : rest newline (out.globals.recscr.data.take (c + 1)) =
                    ManagedString.empty.data := by
                  rw [hrec]
                  exact hr'
                obtain ⟨v, calls, hloop, hfr, hact⟩ := ih (hrec ▸ hs) hempty (by rw [hrec]; omega)
                rw [hrec, hf, List.append_assoc] at hfr
                refine ⟨v, (line', out.actions) :: calls, ?_, hfr, fun q hq => ?_⟩
                · simp only [hloop]
                  rw [hg]
                · rcases List.mem_cons.mp hq with rfl | hq
                  · exact has
                  · exact hact q hq
      · rw [if_neg hc]
        refine ⟨g.servovalue, [], rfl, ?_, by simp⟩
        rw [List.take_of_length_le (Nat.not_lt.mp hc)]
        simp

/-- **`alarm()` on a well-formed script** returns: it disarms, calls `processline` on the lines of
    the script, in order and each once, with the actions they have when they are executed, and
    leaves the script. -/
theorem alarm_frames (clock : Nat → Nat) {g : Globals} (hs : WellFormed g.recscr.data) :
    ∃ v calls, alarm clock g = some ({ g with alarmmil := disarmed, servovalue := v }, calls) ∧
      calls.map (·.1.data) = frames newline g.recscr.data ∧
      ∀ q ∈ calls, q.2 = liveActions q.1 := by
  obtain ⟨v, calls, hl, hf, ha⟩ := @alarmLoop_frames clock { g with alarmmil := disarmed } _ 0
    .empty hs rfl (Nat.le_of_eq (Nat.zero_add g.recscr.length).symm)
  exact ⟨v, calls, hl, hf.symm, ha⟩

/-! ## 3. The invariant -/

/-- Where the loop of `alarm()` stands: the index, and the line built so far. -/
def Pc.position : Pc → Option (Nat × List UInt8)
  | .replay c line => some (c, line.data)
  | .replayLine _ c => some (c, [])
  | .replaySleep _ c => some (c, [])
  | .outOfMemory pc => pc.position
  | _ => none

/-- `processline` has been called on main's line and main still holds it. -/
def Pc.called : Pc → Bool
  | .lineSleep _ _ | .panicked => true
  | _ => false

/-- The part of main's line that has not been passed to `processline`. -/
def Board.unterminated (b : Board) : List UInt8 := if b.pc.called then [] else b.line.data

/-- **What holds of script and lines on every board.** -/
structure ScriptInv (b : Board) : Prop where
  script : WellFormed b.globals.recscr.data
  position : ∀ p, b.pc.position = some p →
    p.1 ≤ b.globals.recscr.length ∧ rest newline (b.globals.recscr.data.take p.1) = p.2
  noNul : ∀ y ∈ b.line.data, y ≠ 0
  noNewline : ∀ y ∈ b.unterminated, newline y = false

theorem scriptInv_init : ScriptInv Board.init :=
  ⟨wellFormed_nil, (fun _ h => by cases h), (fun _ h => by cases h), (fun _ h => by cases h)⟩

variable {b b' : Board} {ev : List Event}

/-- A step that leaves the script and main's line alone. -/
theorem ScriptInv.transfer (hi : ScriptInv b) (hg : b'.globals.recscr = b.globals.recscr)
    (hl : b'.line = b.line) (hp : b'.pc.position = none ∨ b'.pc.position = b.pc.position)
    (hc : b.pc.called = false ∨ b'.pc.called = true) : ScriptInv b' := by
  refine ⟨hg ▸ hi.script, fun p hpos => ?_, hl ▸ hi.noNul, fun y hy => ?_⟩
  · rcases hp with h | h
    · rw [h] at hpos
      cases hpos
    · rw [hg]
      exact hi.position p (h ▸ hpos)
  · unfold Board.unterminated at hy
    rcases hc with h | h
    · split at hy
      · cases hy
      · refine hi.noNewline y ?_
        rw [Board.unterminated, h, ← hl]
        exact hy
    · rw [h] at hy
      cases hy

/-- A step that leaves main with an empty line, outside a replay. -/
theorem ScriptInv.emptied (hi : ScriptInv b) (hg : b'.globals.recscr = b.globals.recscr)
    (hl : b'.line = .empty) (hp : b'.pc.position = none) : ScriptInv b' := by
  refine ⟨hg ▸ hi.script, fun p hpos => ?_, fun y hy => ?_, fun y hy => ?_⟩
  · rw [hp] at hpos
    cases hpos
  · rw [hl] at hy
    cases hy
  · rw [Board.unterminated, hl] at hy
    split at hy <;> cases hy

/-- The main fiber moves on. -/
theorem scriptInv_move {pc : Pc} (hi : ScriptInv b) (h : b.Move pc) :
    ScriptInv { b with pc := pc } := by
  cases h with
  | start h => exact hi.transfer rfl rfl (.inl rfl) (.inl (by rw [h]; rfl))
  | @character c line line' h hc hp =>
      obtain ⟨_, hr⟩ := hi.position (c, line.data) (by rw [h]; rfl)
      refine ⟨hi.script, fun p hpos => ?_, hi.noNul, fun y hy => hi.noNewline y ?_⟩
      · cases hpos
        exact ⟨hc, (rest_of_char hi.script hc hr hp).2⟩
      · rw [Board.unterminated, h]
        exact hy
  | lineOver h hw => exact hi.transfer rfl rfl (.inr (by rw [h]; rfl)) (.inl (by rw [h]; rfl))
  | replayOn h hw => exact hi.transfer rfl rfl (.inr (by rw [h]; rfl)) (.inl (by rw [h]; rfl))
  | bytes h hs => exact hi.transfer rfl rfl (.inl rfl) (.inl (by rw [h]; rfl))
  | noBytes h hs => exact hi.transfer rfl rfl (.inl rfl) (.inl (by rw [h]; rfl))
  | unsent h hs => exact hi.transfer rfl rfl (.inl rfl) (.inl (by rw [h]; rfl))
  | sent h hw hs => exact hi.transfer rfl rfl (.inl rfl) (.inl (by rw [h]; rfl))
  | innerOn h hw => exact hi.transfer rfl rfl (.inl rfl) (.inl (by rw [h]; rfl))
  | replayPanic h hc hp => exact hi.transfer rfl rfl (.inl rfl) (.inr rfl)
  | appendPanic h hl => exact hi.transfer rfl rfl (.inl rfl) (.inr rfl)
  | noMemory ha =>
      refine hi.transfer rfl rfl (.inr rfl) (.inl ?_)
      obtain ⟨gotc, h⟩ | ⟨gotc, h⟩ | ⟨c, line, h⟩ := Board.allocates_cases ha <;> rw [h] <;> rfl

/-- Main's line with one more byte. -/
theorem append_noNul {line : ManagedString} {gotc : UInt8} (hi : ScriptInv b)
    (hl : b.line.concat (.ofChar gotc) = some line) : ∀ y ∈ line.data, y ≠ 0 := by
  intro y hy
  rw [ManagedString.concat_eq_some.mp hl, ManagedString.data_ofChar] at hy
  rcases List.mem_append.mp hy with h | h
  · exact hi.noNul y h
  · split at h
    · cases h
    · rename_i hz
      rw [List.mem_singleton.mp h]
      exact hz

/-- **A line passed by main is a frame**: its newline is its last byte and its only one. -/
theorem append_isFrame {line : ManagedString} (hi : ScriptInv b) (h : b.pc = .append 10)
    (hl : b.line.concat (.ofChar 10) = some line) : IsFrame newline line.data := by
  refine ⟨b.line.data, 10, ManagedString.concat_eq_some.mp hl, rfl, fun y hy => ?_⟩
  refine hi.noNewline y ?_
  rw [Board.unterminated, h]
  exact hy

/-- **Every step keeps the invariant.** -/
theorem scriptInv_step (hi : ScriptInv b) (hs : b.Step b' ev) : ScriptInv b' := by
  cases hs with
  | move h => exact scriptInv_move hi h
  | elapse ms => exact ⟨hi.script, hi.position, hi.noNul, hi.noNewline⟩
  | write data hu => exact ⟨hi.script, hi.position, hi.noNul, hi.noNewline⟩
  | connect queued hu => exact ⟨hi.script, hi.position, hi.noNul, hi.noNewline⟩
  | disconnect queued hu => exact ⟨hi.script, hi.position, hi.noNul, hi.noNewline⟩
  | enableUpdates on hu => exact ⟨hi.script, hi.position, hi.noNul, hi.noNewline⟩
  | confirm ha => exact ⟨hi.script, hi.position, hi.noNul, hi.noNewline⟩
  | handler hd hv => exact ⟨hi.script, hi.position, hi.noNul, hi.noNewline⟩
  | accepted h hu hx => exact hi.transfer rfl rfl (.inl rfl) (.inl (by rw [h]; rfl))
  | refused h ha => exact hi.transfer rfl rfl (.inl rfl) (.inl (by rw [h]; rfl))
  | outer h => exact hi.transfer rfl rfl (.inl rfl) (.inl (by rw [h]; rfl))
  | declare h hw => exact hi.emptied rfl rfl rfl
  | inner h hc => exact hi.transfer rfl rfl (.inl rfl) (.inl (by rw [h]; rfl))
  | leave h hc => exact hi.emptied rfl rfl rfl
  | alarm h hd =>
      refine ⟨hi.script, fun p hp => ?_, hi.noNul, fun y hy => hi.noNewline y ?_⟩
      · cases hp
        exact ⟨Nat.zero_le _, by simp [ManagedString.empty]⟩
      · rw [Board.unterminated, h]
        exact hy
  | noAlarm h hd => exact hi.transfer rfl rfl (.inl rfl) (.inl (by rw [h]; rfl))
  | @replayed c line line' out h hc hp =>
      obtain ⟨_, hr⟩ := hi.position (c, line.data) (by rw [h]; rfl)
      obtain ⟨_, _, hg⟩ := alarmPass_live hi.script hc hr hp
      have hpos : (b.afterCall out.actions (c + 1)).position = some (c + 1, []) ∧
          (b.afterCall out.actions (c + 1)).called = false := by
        unfold Board.afterCall
        split <;> exact ⟨rfl, rfl⟩
      rw [hg]
      refine ⟨hi.script, fun p hp' => ?_, hi.noNul, fun y hy => hi.noNewline y ?_⟩
      · obtain rfl : (c + 1, []) = p := Option.some.inj (hpos.1.symm.trans hp')
        exact ⟨hc, (rest_of_call hi.script hc hr hp).2⟩
      · rw [Board.unterminated, h]
        rw [Board.unterminated, hpos.2] at hy
        exact hy
  | returned h hc => exact hi.transfer rfl rfl (.inl rfl) (.inl (by rw [h]; rfl))
  | taken h hs => exact hi.transfer rfl rfl (.inl rfl) (.inl (by rw [h]; rfl))
  | fill h hs =>
      refine hi.transfer rfl rfl (.inl rfl) (.inl ?_)
      rcases h with ⟨h, _⟩ | ⟨h, _⟩ <;> rw [h] <;> rfl
  | @grown gotc line h hl hn =>
      refine ⟨hi.script, (fun _ h => by cases h), append_noNul hi hl, fun y hy => ?_⟩
      have hy' : y ∈ line.data := hy
      rw [ManagedString.concat_eq_some.mp hl, ManagedString.data_ofChar] at hy'
      rcases List.mem_append.mp hy' with h' | h'
      · refine hi.noNewline y ?_
        rw [Board.unterminated, h]
        exact h'
      · split at h'
        · cases h'
        · rw [List.mem_singleton.mp h']
          simpa [newline] using hn
  | linePanic h hl hp =>
      exact ⟨hi.script, (fun _ h => by cases h), append_noNul hi hl, (fun _ h => by cases h)⟩
  | lineSleeps h hl hp hs =>
      exact ⟨processline_wellFormed hi.script (append_isFrame hi h hl) (append_noNul hi hl) hp,
        (fun _ h => by cases h), append_noNul hi hl, (fun _ h => by cases h)⟩
  | line h hl hp hs =>
      exact ⟨processline_wellFormed hi.script (append_isFrame hi h hl) (append_noNul hi hl) hp,
        (fun _ h => by cases h), (fun _ h => by cases h), (fun _ h => by cases h)⟩
  | lineWoken h hw => exact hi.emptied rfl rfl rfl

/-- **On every board a run reaches, the script is well formed.** -/
theorem scriptInv_run {tr : List Event} (h : firmware.Run b tr) : ScriptInv b :=
  firmware_inv (I := fun b _ => ScriptInv b) scriptInv_init
    (fun _ _ _ _ _ _ hi hs => scriptInv_step hi hs) h

end MicrobitAlarm
