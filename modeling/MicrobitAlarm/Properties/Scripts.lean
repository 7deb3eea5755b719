/-
  File:      MicrobitAlarm/Properties/Scripts.lean
  Subject:   A STORED SCRIPT CAN BE REPLAYED: `alarm()` from any board a run reaches.

  `alarm()` iterates over a global that the function it calls could empty, and that function could
  arm the alarm again. It does neither, because a stored script holds no control line, and it drops
  no tail, because a stored script ends in a newline (`ScriptInv`).

  * `alarmLoop_isSome` -- the loop takes one pass for each byte of the script, no less and no more;
  * `during_replay` -- script, mode and deadline while a replay is under way, on the board with
    everything that goes on around it;
  * `replay_harmless` -- all of it, on every run.
-/
import MicrobitAlarm.Properties.Replay

namespace MicrobitAlarm

open Trace Framing

/-! ## 1. The loop of `alarm()` -/

/-- A well-formed script, as lines. -/
theorem WellFormed.lines {s : List UInt8} (h : WellFormed s) :
    s = (frames newline s).flatten ∧
      ∀ l ∈ frames newline s, IsFrame newline l ∧ isControl l = false := by
  refine ⟨?_, fun l hl => ⟨(h.2 l hl).frame, (h.2 l hl).noControl⟩⟩
  have hf := flatten_frames (d := newline) s
  rw [h.1, List.append_nil] at hf
  exact hf.symm

/-- Too few passes do not reach the end of the script. -/
theorem alarmLoop_eq_none {clock : Nat → Nat} {g : Globals} {n c : Nat} {line : ManagedString}
    (hs : WellFormed g.recscr.data) (hr : rest newline (g.recscr.data.take c) = line.data)
    (hn : c + n < g.recscr.length) : alarmLoop clock n g c line = none := by
  induction n generalizing g c line with
  | zero => exact if_pos (by omega)
  | succ n ih =>
      have hc : c < g.recscr.length := by omega
      unfold alarmLoop
      rw [if_pos hc]
      cases hp : alarmPass g (clock c) c line with
      | none => rfl
      | some p =>
          cases p with
          | char line' =>
              exact ih hs (rest_of_char hs hc hr hp).2 (by omega)
          | call line' out =>
              have hrec : out.globals.recscr = g.recscr := by
                rw [(alarmPass_live hs hc hr hp).2.2]
              have hempty : rest newline (out.globals.recscr.data.take (c + 1)) =
                  ManagedString.empty.data := by
                rw [hrec]
                exact (rest_of_call hs hc hr hp).2
              simp only [ih (hrec ▸ hs) hempty (by rw [hrec]; omega)]

/-- **The loop takes exactly one pass for each byte of the script.** -/
theorem alarmLoop_isSome (clock : Nat → Nat) {g : Globals} (hs : WellFormed g.recscr.data)
    (n : Nat) : (alarmLoop clock n g 0 .empty).isSome = true ↔ g.recscr.length ≤ n := by
  constructor
  · intro h
    by_contra hlt
    rw [alarmLoop_eq_none hs rfl (by omega)] at h
    cases h
  · intro h
    obtain ⟨v, calls, hl, _⟩ := @alarmLoop_frames clock g n 0 .empty hs rfl (by omega)
    rw [hl]
    rfl

/-! ## 2. On the board -/

/-- Events that pass no line leave the open recording, and arm nothing. -/
theorem ledger_of_passed_nil {l : Ledger} {seg : List Event} (h : passed seg = []) :
    (seg.foldl Ledger.read l).opened = l.opened ∧
      (l.armed = none → (seg.foldl Ledger.read l).armed = none) := by
  induction seg generalizing l with
  | nil => exact ⟨rfl, id⟩
  | cons e seg ih =>
      rw [List.foldl_cons]
      cases e with
      | line t x rm as => cases h
      | alarm t rm s =>
          obtain ⟨ho, ha⟩ := @ih (l.read (.alarm t rm s)) h
          exact ⟨ho, fun _ => ha rfl⟩
      | _ => exact ih h

/-- A replay passes no line of main. -/
theorem passed_of_replay {pre mid : List Event} {t : Nat} {rm : Bool} {s : ManagedString}
    (h : Always InReplay (pre ++ .alarm t rm s :: mid)) (hr : .returned ∉ mid) :
    passed mid = [] := by
  rw [passed, List.filterMap_eq_nil_iff]
  intro e he
  cases e with
  | line t' x rm' as =>
      exfalso
      obtain ⟨m₁, m₂, rfl⟩ := List.append_of_mem he
      have hno : .returned ∉ m₁ := fun hm => hr (List.mem_append_left _ hm)
      have hrun := running_calls pre m₁ (.line t' x rm' as :: m₂) h hno
      have hin := h (pre ++ .alarm t rm s :: m₁) (.line t' x rm' as) m₂ (by simp)
      rw [show running _ = none from hin] at hrun
      cases hrun
  | _ => rfl

variable {b : Board} {pre mid : List Event} {t : Nat} {rm : Bool} {s : ManagedString}

/-- **While a replay is under way** the script is the one it was called with, so is main's mode,
    and nothing is armed. -/
theorem during_replay (h : firmware.Run b (pre ++ .alarm t rm s :: mid)) (hr : .returned ∉ mid) :
    b.pc.position.isSome = true ∧ b.globals.recscr = s ∧ b.recordmode = rm ∧
      b.globals.alarmmil = disarmed := by
  have hi := replayInv_run h
  have hrun := running_calls pre mid [] (by simpa using hi.events) hr
  cases hpos : b.pc.position with
  | none =>
      rw [hi.outside hpos] at hrun
      cases hrun
  | some p =>
      obtain ⟨r, hrun', _⟩ := hi.inside p hpos
      rw [hrun'] at hrun
      have hpc : b.pc ≠ .panicked := fun hx => by rw [hx] at hpos; cases hpos
      have hm : b.mode = b.recordmode := by
        unfold Board.mode
        split
        · rename_i hx
          rw [hx] at hpos
          cases hpos
        · rfl
      have hl := ledger_run h hpc
      have hpass := passed_of_replay hi.events hr
      have hled := ledger_append pre (.alarm t rm s :: mid)
      rw [List.foldl_cons] at hled
      obtain ⟨ho, ha⟩ := @ledger_of_passed_nil ((ledger pre).read (.alarm t rm s)) mid hpass
      have hag := agrees_run h pre (.alarm t rm s) mid rfl
      refine ⟨rfl, (Prod.mk.inj (Option.some.inj hrun)).1, ?_, ?_⟩
      · rw [← hm, hl.mode, hled, ho, hag.2.2.1]
        rfl
      · rw [hl.alarmmil, hled, ha rfl]
        rfl

/-- The step in which `alarm()` returns changes none of it. -/
theorem returned_step {b' : Board} {ev : List Event} (hs : b.Step b' ev) (hev : ev = [.returned]) :
    b'.globals = b.globals ∧ b'.recordmode = b.recordmode := by
  cases hs with
  | write data hu =>
      obtain ⟨x, hx | hx⟩ := mem_receipts (e := .returned) (by rw [hev]; simp) <;> cases hx
  | returned h hc => exact ⟨rfl, rfl⟩
  | _ => cases hev

/-! ## 3. Every run -/

/-- **Stored scripts are well formed, and a replay cannot harm itself.** On every board a run
    reaches, `recscr` is a concatenation of lines, each ending in its only newline and none
    beginning with 'a' or 'e'. So `alarm()`, called with it, returns after exactly one pass for
    each byte of `recscr`, leaves it, ends disarmed and hands each byte to `processline` once, in
    order, as long as its strings get their memory. While a replay of a run is under way, script
    and mode are those at its call and nothing is armed; unless a `malloc` has failed, time and the
    main fiber bring it to its return; and when it returns they are the same, and the lines it has
    handed to `processline` make up the script. -/
theorem replay_harmless {tr : List Event} (h : firmware.Run b tr) :
    (∃ ls : List (List UInt8), b.globals.recscr.data = ls.flatten ∧
      ∀ l ∈ ls, IsFrame newline l ∧ isControl l = false) ∧
    (∀ clock,
      (∀ n, (alarmLoop clock n { b.globals with alarmmil := disarmed } 0 .empty).isSome = true ↔
        b.globals.recscr.length ≤ n) ∧
      ∃ v calls, alarm clock b.globals = some (⟨v, disarmed, b.globals.recscr⟩, calls) ∧
        (calls.map (·.1.data)).flatten = b.globals.recscr.data) ∧
    ∀ pre t rm s mid, tr = pre ++ .alarm t rm s :: mid → .returned ∉ mid →
      (b.globals.recscr = s ∧ b.recordmode = rm ∧ b.globals.alarmmil = disarmed) ∧
      (b.pc.halted = false → ∃ acts b' ev, (∀ x ∈ acts, x.isQuiet = true) ∧
        firmware.exec b acts = some (b', ev ++ [.returned]) ∧ .returned ∉ ev) ∧
      ∀ a b', b.step a = some (b', [.returned]) →
        (b'.globals.recscr = s ∧ b'.recordmode = rm ∧ b'.globals.alarmmil = disarmed) ∧
        ((calls mid).map (·.1.data)).flatten = s.data := by
  have hsi := scriptInv_run h
  refine ⟨⟨_, hsi.script.lines⟩, fun clock => ⟨?_, ?_⟩, fun pre t rm s mid htr hno => ?_⟩
  · exact @alarmLoop_isSome clock { b.globals with alarmmil := disarmed } hsi.script
  · obtain ⟨v, calls, hal, hf, _⟩ := alarm_frames clock hsi.script
    refine ⟨v, calls, hal, ?_⟩
    rw [hf]
    exact hsi.script.lines.1.symm
  · subst htr
    obtain ⟨hpos, hs, hm, hd⟩ := during_replay h hno
    refine ⟨⟨hs, hm, hd⟩, fun hh => ?_, fun a b' hstep => ?_⟩
    · obtain ⟨acts, b', _, hq, hx, _, _, _, _, ev, rfl, hev⟩ := replay_returns hsi hpos hh
      exact ⟨acts, b', ev, hq, hx, hev⟩
    · obtain ⟨hg, hrm⟩ := returned_step (Board.step_cases hstep).2 rfl
      rw [hg, hrm]
      refine ⟨⟨hs, hm, hd⟩, ?_⟩
      have hin := (replayInv_run (.step _ _ _ _ _ h hstep)).events
      obtain ⟨s', r, hr, hf, _⟩ := hin (pre ++ .alarm t rm s :: mid) .returned [] rfl
      rw [running_calls pre mid [.returned] (by simpa using hin) hno] at hr
      cases hr
      rw [hf]
      exact (hs ▸ hsi.script.lines.1).symm

/-- "a99\n", "s9\n", an empty command and "e\n", and the replay is asleep behind its second line. -/
theorem replay_harmless_run :
    ∃ b pre mid, firmware.Run b (pre ++ .alarm 166 false ⟨[115, 57, 10, 10], by decide⟩ :: mid) ∧
      (calls mid).map (·.1.data) = [[115, 57, 10], [10]] ∧
      b.globals.recscr.data = [115, 57, 10, 10] ∧ b.recordmode = false ∧
      b.globals.alarmmil = disarmed := by
  have he : (firmware.exec firmware.start (boot ++ lineTurns [97, 57, 57, 10] ++ outerTurn ++
      lineTurns [115, 57, 10] ++ outerTurn ++ lineTurns [10] ++ outerTurn ++
      lineTurns [101, 10] ++ outerTurn ++ [.elapse 100, .main, .main, .main, .main, .main,
        .elapse 36, .main, tick, .main, .main])).map Prod.snd = some
      (([.outer 0, .linkUp 1, .handled true, .stored 1 97, .stored 1 57, .stored 1 57, .stored 1 10,
        .inner 6, .polled 6, .taken 97, .inner 12, .polled 12, .taken 57, .inner 18, .polled 18,
        .taken 57, .inner 24, .polled 24, .taken 10,
        .line 24 ⟨[97, 57, 57, 10], by decide⟩ false [], .outer 24, .stored 1 115, .stored 1 57,
        .stored 1 10, .inner 30, .polled 30, .taken 115, .inner 36, .polled 36, .taken 57,
        .inner 42, .polled 42, .taken 10, .line 42 ⟨[115, 57, 10], by decide⟩ true [], .outer 42,
        .stored 1 10, .inner 48, .polled 48, .taken 10, .line 48 ⟨[10], by decide⟩ true [],
        .outer 48, .stored 1 101, .stored 1 10, .inner 54, .polled 54, .taken 101, .inner 60,
        .polled 60, .taken 10, .line 60 ⟨[101, 10], by decide⟩ true [], .outer 60, .inner 166] :
        List Event) ++ .alarm 166 false ⟨[115, 57, 10, 10], by decide⟩ ::
        [.replayed ⟨[115, 57, 10], by decide⟩ [.setServoValue 9 servoRange servoN, .sleep 30],
          .replayed ⟨[10], by decide⟩ []]) := by decide +kernel
  obtain ⟨b, hr⟩ := Machine.run_of_trace he
  obtain ⟨⟨hs, hm, hd⟩, _⟩ := (replay_harmless hr).2.2 _ _ _ _ _ rfl (by decide)
  exact ⟨b, _, _, hr, by decide, congrArg ManagedString.data hs, hm, hd⟩

end MicrobitAlarm
