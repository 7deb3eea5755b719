/-
  File:      MicrobitAlarm/Runs/Ledger.lean
  Subject:   THE LEDGER OF A RUN: what the lines passed and the alarms so far come to, read off
             the events alone.

  `ledger` folds the events of a run: the alarm that is armed (when its 'a' line was processed and
  the number in it), the recording that is open, and the lines recorded since the last 'a' line.
  It says what the protocol means, without the variables of the code:

  * `armed_iff` -- the armed alarm is the last 'a' line, with no other and no alarm behind it;
  * `ledger_run` -- the variables of the code agree with it on every board a run reaches:
    `alarmmil` is the wrapped deadline of the armed alarm or the mark for none, `recscr` is the
    recorded lines, and the mode `main` works in is whether a recording is open;
  * `agrees_run` -- and so does every event: an alarm goes off exactly when the clock reads the
    mark or more, with the mode and the script of the ledger.
-/
import MicrobitAlarm.Runs.Script
import Mathlib.Data.List.Induction

namespace MicrobitAlarm

open Trace

/-! ## 1. The ledger -/

/-- What a run has come to. Times are in milliseconds since boot, unbounded. -/
structure Ledger where
  /-- the last 'a' line, unless an alarm has gone off since: its time and its number -/
  armed : Option (Nat × Int)
  /-- the 'a' line whose recording is still open -/
  opened : Option (Nat × Int)
  /-- the lines recorded since the last 'a' line -/
  script : List ManagedString

namespace Ledger

/-- Nothing has happened. -/
def start : Ledger := ⟨none, none, []⟩

/-- One event. -/
def read (l : Ledger) : Event → Ledger
  | .line time line _ _ =>
    if isEnd line.data then { l with opened := none }
    else if isArm line.data then ⟨some (time, number line), some (time, number line), []⟩
    else if l.opened.isSome then { l with script := l.script ++ [line] }
    else l
  | .alarm _ _ _ => { l with armed := none }
  | _ => l

/-- The script as one string. -/
def body (l : Ledger) : List UInt8 := (l.script.map (·.data)).flatten

end Ledger

/-- **The ledger of a run**, from its events. -/
def ledger (tr : List Event) : Ledger := tr.foldl Ledger.read .start

/-- The line main passed. -/
def Event.passed : Event → Option ManagedString
  | .line _ l _ _ => some l
  | _ => none

/-- The lines main passed, in order. -/
def passed (tr : List Event) : List ManagedString := tr.filterMap Event.passed

theorem passed_append (tr ev : List Event) : passed (tr ++ ev) = passed tr ++ passed ev :=
  List.filterMap_append

/-- The deadline of an 'a' line on the 32-bit clock. -/
def deadline (p : Nat × Int) : Nat := toULong (p.1 + p.2)

/-- What `alarmmil` holds: the deadline of the armed alarm, or the mark for none. -/
def mark : Option (Nat × Int) → Nat
  | none => disarmed
  | some p => deadline p

theorem ledger_append (tr ev : List Event) : ledger (tr ++ ev) = ev.foldl Ledger.read (ledger tr) :=
  List.foldl_append

/-- Client writes say nothing about lines. -/
theorem ledger_receipts (tr : List Event) (conn : Nat) (rs : List Receipt) :
    ledger (tr ++ rs.map (Event.ofReceipt conn)) = ledger tr := by
  rw [ledger_append]
  exact foldl_receipts (fun _ _ => rfl) (fun _ _ => rfl) _ rs

theorem ledger_end {l : Ledger} {t : Nat} {line : ManagedString} {rm : Bool} {as : List Action}
    (h : isEnd line.data = true) : l.read (.line t line rm as) = { l with opened := none } := by
  simp only [Ledger.read, h, if_true]

theorem ledger_arm {l : Ledger} {t : Nat} {line : ManagedString} {rm : Bool} {as : List Action}
    (h : isArm line.data = true) :
    l.read (.line t line rm as) = ⟨some (t, number line), some (t, number line), []⟩ := by
  simp only [Ledger.read, not_isEnd_of_isArm h, h, Bool.false_eq_true, if_false, if_true]

theorem ledger_plain {l : Ledger} {t : Nat} {line : ManagedString} {rm : Bool} {as : List Action}
    (h : isControl line.data = false) :
    l.read (.line t line rm as) =
      if l.opened.isSome then { l with script := l.script ++ [line] } else l := by
  rw [isControl, Bool.or_eq_false_iff] at h
  simp only [Ledger.read, h.1, h.2, Bool.false_eq_true, if_false]

/-! ## 2. The armed alarm, read off the events -/

/-- An event that arms an alarm anew or uses it up. -/
def Event.rearms : Event → Bool
  | .line _ l _ _ => isArm l.data
  | .alarm _ _ _ => true
  | _ => false

/-- Every other event leaves the armed alarm. -/
theorem read_armed {l : Ledger} {e : Event} (h : e.rearms = false) :
    (l.read e).armed = l.armed := by
  cases e with
  | line t line rm as =>
      have ha : isArm line.data = false := h
      unfold Ledger.read
      simp only [ha]
      split
      · rfl
      · split
        · contradiction
        · split <;> rfl
  | alarm t rm s => cases h
  | _ => rfl

theorem ledger_snoc (tr : List Event) (e : Event) : ledger (tr ++ [e]) = (ledger tr).read e :=
  ledger_append tr [e]

/-- **The armed alarm**: the last 'a' line, with no other 'a' line and no alarm behind it. -/
theorem armed_iff {tr : List Event} {p : Nat × Int} :
    (ledger tr).armed = some p ↔
      ∃ pre line rm as post, tr = pre ++ .line p.1 line rm as :: post ∧ isArm line.data = true ∧
        number line = p.2 ∧ ∀ e ∈ post, e.rearms = false := by
  induction tr using List.reverseRecOn with
  | nil =>
      constructor
      · intro h
        cases h
      · rintro ⟨pre, line, rm, as, post, h, _⟩
        simp at h
  | append_singleton tr e ih =>
      rw [ledger_snoc]
      cases he : e.rearms with
      | false =>
          rw [read_armed he, ih]
          constructor
          · rintro ⟨pre, line, rm, as, post, rfl, ha, hn, hp⟩
            refine ⟨pre, line, rm, as, post ++ [e], by simp, ha, hn, fun x hx => ?_⟩
            rcases List.mem_append.mp hx with hx | hx
            · exact hp x hx
            · rw [List.mem_singleton.mp hx]
              exact he
          · rintro ⟨pre, line, rm, as, post, htr, ha, hn, hp⟩
            rcases snoc_eq_append_cons htr with ⟨rfl, rfl, rfl⟩ | ⟨post', rfl, rfl⟩
            · rw [show Event.rearms (.line p.1 line rm as) = isArm line.data from rfl, ha] at he
              cases he
            · exact ⟨pre, line, rm, as, post', rfl, ha, hn, fun y hy => hp y (by simp [hy])⟩
      | true =>
          constructor
          · intro h
            cases e with
            | line t line rm as =>
                have ha : isArm line.data = true := he
                rw [ledger_arm ha] at h
                cases h
                exact ⟨tr, line, rm, as, [], rfl, ha, rfl, List.forall_mem_nil _⟩
            | alarm t rm s => cases h
            | _ => cases he
          · rintro ⟨pre, line, rm, as, post, htr, ha, hn, hp⟩
            rcases snoc_eq_append_cons htr with ⟨rfl, rfl, rfl⟩ | ⟨post', rfl, rfl⟩
            · rw [ledger_arm ha, hn]
            · rw [hp e (by simp)] at he
              cases he

/-! ## 3. The variables of the code agree with the ledger -/

/-- The mode main works in: `recordmode`, or what the call under way will return. -/
def Board.mode (b : Board) : Bool :=
  match b.pc with
  | .lineSleep _ recordmode => recordmode
  | _ => b.recordmode

/-- **Code and ledger agree.** -/
structure LedgerInv (b : Board) (l : Ledger) : Prop where
  alarmmil : b.globals.alarmmil = mark l.armed
  script : b.globals.recscr.data = l.body
  mode : b.mode = l.opened.isSome
  armed : ∀ p, l.armed = some p → p.1 ≤ b.now
  opened : ∀ p, l.opened = some p → p.1 ≤ b.now

/-- What an event says about the ledger before it. -/
def Agrees (pre : List Event) : Event → Prop
  | .polled t => ¬ mark (ledger pre).armed ≤ systemTime t ∧
      ∀ p, (ledger pre).armed = some p → p.1 ≤ t
  | .alarm t rm s => mark (ledger pre).armed ≤ systemTime t ∧
      (∀ p, (ledger pre).armed = some p → p.1 ≤ t) ∧
      rm = (ledger pre).opened.isSome ∧ s.data = (ledger pre).body
  | .line _ line rm as => rm = (ledger pre).opened.isSome ∧ Framing.IsFrame newline line.data ∧
      (rm = false → isControl line.data = false → as = liveActions line)
  | .replayed line as => Recordable line.data ∧ as = liveActions line
  | _ => True

variable {b b' : Board} {tr ev : List Event}

/-- A step that touches none of it. -/
theorem LedgerInv.transfer {l : Ledger} (hi : LedgerInv b l)
    (ha : b'.globals.alarmmil = b.globals.alarmmil) (hr : b'.globals.recscr = b.globals.recscr)
    (hm : b'.mode = b.mode) (hn : b.now ≤ b'.now) : LedgerInv b' l :=
  ⟨ha.trans hi.alarmmil, hr ▸ hi.script, hm.trans hi.mode,
    fun p hp => Nat.le_trans (hi.armed p hp) hn, fun p hp => Nat.le_trans (hi.opened p hp) hn⟩

/-- The deadline as the code computes it. -/
theorem toULong_deadline (now : Nat) (d : Int) :
    toULong (d + systemTime now) = deadline (now, d) := by
  have h : (d + ((now % wordSize : Nat) : Int)) % (wordSize : Int) =
      ((now : Int) + d) % (wordSize : Int) := by
    unfold wordSize
    omega
  unfold toULong deadline toULong systemTime
  rw [h]

/-- **A line passed by main**: what `processline` leaves is what the ledger reads. -/
theorem LedgerInv.call {l : Ledger} {line : ManagedString} {out : Outcome} (as : List Action)
    (hi : LedgerInv b l) (hm : b.mode = b.recordmode)
    (hp : processline b.globals b.now line b.recordmode = some out) (hb : b'.globals = out.globals)
    (hm' : b'.mode = out.recordmode) (hn : b'.now = b.now) :
    LedgerInv b' (l.read (.line b.now line b.recordmode as)) := by
  have hmode : b.recordmode = l.opened.isSome := hm ▸ hi.mode
  have harmed : ∀ p, l.armed = some p → p.1 ≤ b'.now := fun p h => hn ▸ hi.armed p h
  have hopened : ∀ p, l.opened = some p → p.1 ≤ b'.now := fun p h => hn ▸ hi.opened p h
  rcases processline_cases hp with ⟨ha, rfl⟩ | ⟨he, rfl⟩ | ⟨hc, hrm, s, hcat, rfl⟩ | ⟨hc, hrm, rfl⟩
  · rw [ledger_arm ha]
    refine ⟨?_, by rw [hb]; rfl, hm', fun p h => ?_, fun p h => ?_⟩
    · rw [hb]
      exact toULong_deadline b.now (number line)
    · cases h
      exact Nat.le_of_eq hn.symm
    · cases h
      exact Nat.le_of_eq hn.symm
  · rw [ledger_end he]
    exact ⟨by rw [hb]; exact hi.alarmmil, by rw [hb]; exact hi.script, hm', harmed,
      (fun _ h => by cases h)⟩
  · rw [ledger_plain hc, ← hmode, hrm, if_pos rfl]
    refine ⟨by rw [hb]; exact hi.alarmmil, ?_, by rw [hm', ← hmode, hrm], harmed, hopened⟩
    rw [hb]
    show s.data = _
    rw [ManagedString.concat_eq_some.mp hcat, hi.script]
    simp [Ledger.body]
  · rw [ledger_plain hc, ← hmode, hrm, if_neg Bool.false_ne_true]
    exact ⟨by rw [hb]; exact hi.alarmmil, by rw [hb]; exact hi.script,
      by rw [hm', ← hmode, hrm], harmed, hopened⟩

/-- The event of a line passed by main. -/
theorem LedgerInv.agrees_line {line : ManagedString} {out : Outcome}
    (hi : LedgerInv b (ledger tr)) (hm : b.mode = b.recordmode)
    (hf : Framing.IsFrame newline line.data)
    (hp : processline b.globals b.now line b.recordmode = some out) :
    Agrees tr (.line b.now line b.recordmode out.actions) := by
  refine ⟨hm ▸ hi.mode, hf, fun hrm hc => ?_⟩
  rw [hrm, processline_live hc] at hp
  cases hp
  rfl

/-- The invariant over runs: the events agree, and so does the board, unless it has panicked. -/
def LedgerRun (b : Board) (tr : List Event) : Prop :=
  Always Agrees tr ∧ (b.pc ≠ .panicked → LedgerInv b (ledger tr))

/-- A step of the main fiber that only moves it on. -/
theorem LedgerInv.move {l : Ledger} {pc : Pc} (hi : LedgerInv b l) (h : b.Move pc) :
    LedgerInv { b with pc := pc } l := by
  cases h with
  | start h => exact hi.transfer rfl rfl (by simp [Board.mode, h]) (Nat.le_refl _)
  | character h hc hp => exact hi.transfer rfl rfl (by simp [Board.mode, h]) (Nat.le_refl _)
  | lineOver h hw => exact hi.transfer rfl rfl (by simp [Board.mode, h]) (Nat.le_refl _)
  | replayOn h hw => exact hi.transfer rfl rfl (by simp [Board.mode, h]) (Nat.le_refl _)
  | bytes h hs => exact hi.transfer rfl rfl (by simp [Board.mode, h]) (Nat.le_refl _)
  | noBytes h hs => exact hi.transfer rfl rfl (by simp [Board.mode, h]) (Nat.le_refl _)
  | unsent h hs => exact hi.transfer rfl rfl (by simp [Board.mode, h]) (Nat.le_refl _)
  | sent h hw hs => exact hi.transfer rfl rfl (by simp [Board.mode, h]) (Nat.le_refl _)
  | innerOn h hw => exact hi.transfer rfl rfl (by simp [Board.mode, h]) (Nat.le_refl _)
  | replayPanic h hc hp => exact hi.transfer rfl rfl (by simp [Board.mode, h]) (Nat.le_refl _)
  | appendPanic h hl => exact hi.transfer rfl rfl (by simp [Board.mode, h]) (Nat.le_refl _)
  | noMemory ha =>
      refine hi.transfer rfl rfl ?_ (Nat.le_refl _)
      obtain ⟨gotc, h⟩ | ⟨gotc, h⟩ | ⟨c, line, h⟩ := Board.allocates_cases ha <;>
        simp [Board.mode, h]

/-- A step that reports nothing and touches none of it. -/
theorem LedgerInv.silent (hl : LedgerInv b (ledger tr)) (hag : Always Agrees tr)
    (hg : b'.globals = b.globals) (hm : b'.mode = b.mode) (hn : b.now ≤ b'.now) :
    LedgerRun b' (tr ++ []) := by
  rw [List.append_nil]
  exact ⟨hag, fun _ => hl.transfer (by rw [hg]) (by rw [hg]) hm hn⟩

/-- A step that reports one event, which the ledger passes over, and touches none of it. -/
theorem LedgerInv.reports {e : Event} (hl : LedgerInv b (ledger tr)) (hag : Always Agrees tr)
    (he : Agrees tr e) (hr : (ledger tr).read e = ledger tr)
    (ha : b'.globals.alarmmil = b.globals.alarmmil) (hs : b'.globals.recscr = b.globals.recscr)
    (hm : b'.mode = b.mode) (hn : b'.now = b.now) : LedgerRun b' (tr ++ [e]) := by
  refine ⟨always_snoc.mpr ⟨hag, he⟩, fun _ => ?_⟩
  rw [ledger_snoc, hr]
  exact hl.transfer ha hs hm (Nat.le_of_eq hn.symm)

/-- A step that passes a line. -/
theorem LedgerInv.line {line : ManagedString} {out : Outcome} (hl : LedgerInv b (ledger tr))
    (hag : Always Agrees tr) (hm : b.mode = b.recordmode)
    (hf : Framing.IsFrame newline line.data)
    (hp : processline b.globals b.now line b.recordmode = some out) (hb : b'.globals = out.globals)
    (hm' : b'.mode = out.recordmode) (hn : b'.now = b.now) :
    LedgerRun b' (tr ++ [.line b.now line b.recordmode out.actions]) := by
  refine ⟨always_snoc.mpr ⟨hag, hl.agrees_line hm hf hp⟩, fun _ => ?_⟩
  rw [ledger_snoc]
  exact hl.call out.actions hm hp hb hm' hn

/-- **Every step keeps code and ledger together.** -/
theorem ledgerRun_step (hsi : ScriptInv b) (hpc : b.pc ≠ .panicked) (hi : LedgerRun b tr)
    (hs : b.Step b' ev) : LedgerRun b' (tr ++ ev) := by
  obtain ⟨hag, hl⟩ := hi
  have hl := hl hpc
  cases hs with
  | move h => rw [List.append_nil]; exact ⟨hag, fun _ => hl.move h⟩
  | elapse ms => exact hl.silent hag rfl rfl (Nat.le_add_right _ _)
  | write data hu =>
      refine ⟨always_append.mpr ⟨hag, ?_⟩, fun _ => ?_⟩
      · exact always_receipts (fun _ _ => trivial) (fun _ _ => trivial) _
      · rw [ledger_receipts]
        exact hl.transfer rfl rfl rfl (Nat.le_refl _)
  | connect queued hu => exact hl.reports hag trivial rfl rfl rfl rfl rfl
  | disconnect queued hu => exact hl.reports hag trivial rfl rfl rfl rfl rfl
  | enableUpdates on hu => exact hl.silent hag rfl rfl (Nat.le_refl _)
  | confirm ha => exact hl.reports hag trivial rfl rfl rfl rfl rfl
  | handler hd hv => exact hl.reports hag trivial rfl rfl rfl rfl rfl
  | accepted h hu hx => exact hl.reports hag trivial rfl rfl rfl (by simp [Board.mode, h]) rfl
  | refused h ha => exact hl.reports hag trivial rfl rfl rfl (by simp [Board.mode, h]) rfl
  | outer h => exact hl.reports hag trivial rfl rfl rfl (by simp [Board.mode, h]) rfl
  | declare h hw => exact hl.silent hag rfl (by simp [Board.mode, h]) (Nat.le_refl _)
  | inner h hc => exact hl.reports hag trivial rfl rfl rfl (by simp [Board.mode, h]) rfl
  | leave h hc =>
      exact hl.reports hag trivial rfl rfl rfl (by simp [Board.mode, Board.leave, h]) rfl
  | alarm h hd =>
      have hm : b.mode = b.recordmode := by simp [Board.mode, h]
      have he : Agrees tr (.alarm b.now b.recordmode b.globals.recscr) :=
        ⟨hl.alarmmil ▸ hd, hl.armed, hm ▸ hl.mode, hl.script⟩
      refine ⟨always_snoc.mpr ⟨hag, he⟩, fun _ => ?_⟩
      rw [ledger_snoc]
      exact ⟨rfl, hl.script, hm ▸ hl.mode, (fun _ h => by cases h), hl.opened⟩
  | noAlarm h hd =>
      exact hl.reports hag ⟨hl.alarmmil ▸ hd, hl.armed⟩ rfl rfl rfl (by simp [Board.mode, h]) rfl
  | @replayed c line line' out h hc hp =>
      obtain ⟨_, hr⟩ := hsi.position (c, line.data) (by rw [h]; rfl)
      obtain ⟨hrec, has, hg⟩ := alarmPass_live hsi.script hc hr hp
      refine hl.reports hag ⟨hrec, has⟩ rfl (by rw [hg]) (by rw [hg]) ?_ rfl
      unfold Board.mode Board.afterCall
      rw [h]
      cases sleepOf out.actions <;> rfl
  | returned h hc => exact hl.reports hag trivial rfl rfl rfl (by simp [Board.mode, h]) rfl
  | taken h hs => exact hl.reports hag trivial rfl rfl rfl (by simp [Board.mode, h]) rfl
  | fill h hs =>
      refine hl.silent hag rfl ?_ (Nat.le_refl _)
      rcases h with ⟨h, _⟩ | ⟨h, _⟩ <;> simp [Board.mode, Board.fill, h]
  | grown h hl' hn => exact hl.silent hag rfl (by simp [Board.mode, h]) (Nat.le_refl _)
  | @linePanic line h hl' hp =>
      have hm : b.mode = b.recordmode := by simp [Board.mode, h]
      have he : Agrees tr (.line b.now line b.recordmode []) := by
        refine ⟨hm ▸ hl.mode, append_isFrame hsi h hl', fun hrm _ => ?_⟩
        -- a line that is executed makes no string longer than itself
        rw [(processline_eq_none hp).2.1] at hrm
        cases hrm
      exact ⟨always_snoc.mpr ⟨hag, he⟩, fun hx => absurd rfl hx⟩
  | lineSleeps h hl' hp hs =>
      exact hl.line hag (by simp [Board.mode, h]) (append_isFrame hsi h hl') hp rfl rfl rfl
  | line h hl' hp hs =>
      exact hl.line hag (by simp [Board.mode, h]) (append_isFrame hsi h hl') hp rfl rfl rfl
  | lineWoken h hw =>
      exact hl.silent hag rfl (by simp [Board.mode, Board.leave, h]) (Nat.le_refl _)

theorem ledgerRun_run (h : firmware.Run b tr) : LedgerRun b tr :=
  firmware_inv (I := LedgerRun)
    ⟨always_nil, fun _ => ⟨rfl, rfl, rfl, (fun _ h => by cases h), (fun _ h => by cases h)⟩⟩
    (fun _ _ _ _ hr hp hi hs => ledgerRun_step (scriptInv_run hr) hp hi hs) h

/-- **On every board a run reaches, the code's variables are the ledger's.** -/
theorem ledger_run (h : firmware.Run b tr) (hp : b.pc ≠ .panicked) : LedgerInv b (ledger tr) :=
  (ledgerRun_run h).2 hp

/-- **Every event of a run agrees with the ledger before it.** -/
theorem agrees_run (h : firmware.Run b tr) : Always Agrees tr :=
  (ledgerRun_run h).1

end MicrobitAlarm
