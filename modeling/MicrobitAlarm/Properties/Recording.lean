/-
  File:      MicrobitAlarm/Properties/Recording.lean
  Subject:   RECORDINGS: when a recording is a transaction, and what an open one does to the lines
             of a later connection.

  The 'a' line arms the alarm when the recording begins, and nothing keeps the poll from firing
  while it is still open. `recordmode` is a local of `main` that nothing but a line changes.

  * `transaction_iff` -- the alarms of a run find every recording closed and complete if and only
    if no poll of an open recording comes at or behind its deadline; a run in which one does
    (`alarm_while_recording`);
  * `classes_eq_iff` -- how the lines of a later connection are treated depends on everything
    before it through one bit, whether a recording was left open; two runs that differ in it
    (`recording_outlives_connection`).
-/
import MicrobitAlarm.Properties.Deadline

namespace MicrobitAlarm

open Trace

/-! ## 1. Is a recording a transaction? -/

/-- **The law of the transaction.** An alarm finds no recording open, with main's `recordmode`
    false, and replays what was recorded from the last 'a' line to its 'e' line; and an 'e' line
    that closes a recording finds its alarm still armed. -/
def Transaction (pre : List Event) : Event → Prop
  | .alarm _ rm s => rm = false ∧ (ledger pre).opened = none ∧ s.data = (ledger pre).body
  | .line _ l _ _ => isEnd l.data = true →
      ∀ p, (ledger pre).opened = some p → (ledger pre).armed = some p
  | _ => True

/-- A poll of an open recording comes before the recording's deadline, on the 32-bit clock. -/
def PollsAhead (pre : List Event) (e : Event) : Prop :=
  ∀ t p, e.pollTime = some t → (ledger pre).opened = some p → systemTime t < deadline p

/-- No alarm has gone off since the open recording was opened. -/
def Intact (tr : List Event) : Prop := ∀ p, (ledger tr).opened = some p → (ledger tr).armed = some p

/-- A recording stays intact unless an alarm goes off while it is open. -/
theorem intact_snoc {tr : List Event} {e : Event} (hi : Intact tr)
    (he : ∀ t rm s, e = .alarm t rm s → (ledger tr).opened = none) : Intact (tr ++ [e]) := by
  intro p hp
  rw [ledger_snoc] at hp ⊢
  cases e with
  | line t l rm as =>
      cases hend : isEnd l.data with
      | true =>
          rw [ledger_end hend] at hp
          cases hp
      | false =>
          cases harm : isArm l.data with
          | true =>
              rw [ledger_arm harm] at hp ⊢
              exact hp
          | false =>
              have hc : isControl l.data = false := by simp [isControl, harm, hend]
              rw [ledger_plain hc] at hp ⊢
              split at hp
              · rename_i ho
                rw [if_pos ho]
                exact hi p hp
              · rename_i ho
                rw [if_neg ho]
                exact hi p hp
  | alarm t rm s =>
      have hp' : (ledger tr).opened = some p := hp
      rw [he t rm s rfl] at hp'
      cases hp'
  | _ => exact hi p hp

/-- A trace whose alarms all find no recording open. -/
theorem intact_of_alarms {tr : List Event}
    (h : ∀ pre t rm s post, tr = pre ++ .alarm t rm s :: post → (ledger pre).opened = none) :
    Intact tr := by
  induction tr using List.reverseRecOn with
  | nil => exact (fun _ h => by cases h)
  | append_singleton tr e ih =>
      refine intact_snoc (ih fun pre t rm s post htr => ?_) fun t rm s he => ?_
      · exact h pre t rm s (post ++ [e]) (by rw [htr]; simp)
      · exact h tr t rm s [] (by rw [he])

/-- If polls keep ahead of the deadlines of open recordings, no alarm goes off in one. -/
theorem opened_of_pollsAhead {tr : List Event} (hag : Always Agrees tr)
    (hpoll : Always PollsAhead tr) :
    ∀ pre t rm s post, tr = pre ++ .alarm t rm s :: post → (ledger pre).opened = none := by
  induction tr using List.reverseRecOn with
  | nil => exact fun pre t rm s post h => by simp at h
  | append_singleton tr e ih =>
      intro pre t rm s post htr
      have hbefore := ih hag.of_append hpoll.of_append
      rcases snoc_eq_append_cons htr with ⟨rfl, rfl, rfl⟩ | ⟨post', rfl, rfl⟩
      · cases ho : (ledger tr).opened with
        | none => rfl
        | some p =>
            have harm : (ledger tr).armed = some p := intact_of_alarms hbefore p ho
            have hlt := hpoll tr _ [] rfl t p rfl ho
            have hle := (hag tr _ [] rfl).1
            rw [harm] at hle
            exact absurd hle (Nat.not_le.mpr hlt)
      · exact hbefore pre t rm s post' rfl

/-- **A recording is a transaction exactly when no poll catches it open**: every alarm of a run
    finds its recording closed and complete, and no recording loses its alarm before its 'e' line,
    if and only if every poll made while a recording is open reads a 32-bit clock below the
    recording's deadline. -/
theorem transaction_iff {b : Board} {tr : List Event} (h : firmware.Run b tr) :
    Always Transaction tr ↔ Always PollsAhead tr := by
  have hag := agrees_run h
  constructor
  · intro hT pre e post htr t p hpt ho
    have hint : Intact pre := intact_of_alarms fun pre' t' rm s post' hpre =>
      (hT pre' (.alarm t' rm s) (post' ++ e :: post) (by rw [htr, hpre]; simp)).2.1
    have hA := hag pre e post htr
    cases e with
    | polled u =>
        cases hpt
        have hm := hA.1
        rw [hint p ho] at hm
        exact Nat.not_le.mp hm
    | alarm u rm s =>
        have hnone := (hT pre _ post htr).2.1
        rw [ho] at hnone
        cases hnone
    | _ => cases hpt
  · intro hP pre e post htr
    have hopened := opened_of_pollsAhead hag hP
    have hA := hag pre e post htr
    cases e with
    | alarm t rm s =>
        have ho := hopened pre t rm s post htr
        obtain ⟨_, _, hrm, hs⟩ := hA
        exact ⟨by rw [hrm, ho]; rfl, ho, hs⟩
    | line t l rm as =>
        intro _
        exact intact_of_alarms fun pre' t' rm' s post' hpre =>
          hopened pre' t' rm' s (post' ++ .line t l rm as :: post) (by rw [htr, hpre]; simp)
    | _ => trivial

/-- "a99\n" and "e\n", sent together: no poll catches the recording at its deadline. -/
theorem transaction_iff_run :
    ∃ b tr, firmware.Run b tr ∧ (Always Transaction tr ↔ Always PollsAhead tr) ∧
      (ledger tr).opened = none ∧ (ledger tr).armed = some (24, 99) := by
  have he : (firmware.exec firmware.start (boot ++ lineTurns [97, 57, 57, 10] ++ outerTurn ++
      lineTurns [101, 10])).map Prod.snd = some
      [.outer 0, .linkUp 1, .handled true, .stored 1 97, .stored 1 57, .stored 1 57, .stored 1 10,
        .inner 6, .polled 6, .taken 97, .inner 12, .polled 12, .taken 57, .inner 18, .polled 18,
        .taken 57, .inner 24, .polled 24, .taken 10,
        .line 24 ⟨[97, 57, 57, 10], by decide⟩ false [], .outer 24, .stored 1 101, .stored 1 10,
        .inner 30, .polled 30, .taken 101, .inner 36, .polled 36, .taken 10,
        .line 36 ⟨[101, 10], by decide⟩ true []] := by decide +kernel
  obtain ⟨b, hr⟩ := Machine.run_of_trace he
  exact ⟨b, _, hr, transaction_iff hr, by decide +kernel, by decide +kernel⟩

/-- **An alarm in the middle of a recording**: "a0\n", with nothing else sent yet, and the next
    poll calls `alarm()` with `recordmode` true. -/
theorem alarm_while_recording : ∃ b tr, firmware.Run b tr ∧ ¬ Always Transaction tr := by
  have he : (firmware.exec firmware.start (boot ++ lineTurns [97, 48, 10] ++ outerTurn ++
      [.main, .main])).map Prod.snd = some
      (([.outer 0, .linkUp 1, .handled true, .stored 1 97, .stored 1 48, .stored 1 10, .inner 6,
        .polled 6, .taken 97, .inner 12, .polled 12, .taken 48, .inner 18, .polled 18, .taken 10,
        .line 18 ⟨[97, 48, 10], by decide⟩ false [], .outer 18, .inner 24] : List Event) ++
        [.alarm 24 true .empty]) := by decide +kernel
  obtain ⟨b, hr⟩ := Machine.run_of_trace he
  refine ⟨b, _, hr, fun hT => ?_⟩
  have hrm := (hT _ (.alarm 24 true .empty) [] rfl).1
  cases hrm

/-! ## 2. What an open recording does to the lines that follow -/

/-- The three ways a line is treated. -/
inductive LineClass where
  | control
  | recorded
  | executed
  deriving DecidableEq

/-- How `processline` treats a line in the given mode. -/
def treat (l : List UInt8) (recordmode : Bool) : LineClass :=
  if isControl l then .control else if recordmode then .recorded else .executed

/-- How it was treated. -/
def Event.lineClass : Event → Option LineClass
  | .line _ l rm _ => some (treat l.data rm)
  | _ => none

/-- How they were treated, in order. -/
def classes (tr : List Event) : List LineClass := tr.filterMap Event.lineClass

/-- How lines are treated from a mode on: a control line decides the mode behind it. -/
def classify : Bool → List ManagedString → List LineClass
  | _, [] => []
  | o, l :: ls => treat l.data o :: classify (if isControl l.data then isArm l.data else o) ls

/-- Whether a recording is open behind a line. -/
theorem opened_line {l : Ledger} {t : Nat} {line : ManagedString} {rm : Bool} {as : List Action} :
    (l.read (.line t line rm as)).opened.isSome =
      if isControl line.data then isArm line.data else l.opened.isSome := by
  cases harm : isArm line.data with
  | true =>
      rw [ledger_arm harm]
      simp [isControl, harm]
  | false =>
      cases hend : isEnd line.data with
      | true =>
          rw [ledger_end hend]
          simp [isControl, harm, hend]
      | false =>
          have hc : isControl line.data = false := by simp [isControl, harm, hend]
          rw [ledger_plain hc, hc]
          split <;> rfl

/-- **The treatment of the lines behind any point of a run** depends on the run before it through
    one bit. -/
theorem classes_eq_classify {b : Board} {pre post : List Event}
    (h : firmware.Run b (pre ++ post)) :
    classes post = classify (ledger pre).opened.isSome (passed post) := by
  have hag := agrees_run h
  clear h
  induction post generalizing pre with
  | nil => rfl
  | cons e post ih =>
      have hA := hag pre e post rfl
      have ih := @ih (pre ++ [e]) (by rw [List.append_assoc]; exact hag)
      rw [ledger_snoc] at ih
      cases e with
      | line t l rm as =>
          rw [opened_line] at ih
          show treat l.data rm :: classes post = treat l.data _ :: _
          rw [ih, hA.1]
          rfl
      | _ => exact ih

/-- Two modes treat lines alike exactly if they are the same, or the first line is a control
    line, or there is none. -/
theorem classify_eq_iff {o₁ o₂ : Bool} {ls : List ManagedString} :
    classify o₁ ls = classify o₂ ls ↔
      o₁ = o₂ ∨ ∀ l, ls.head? = some l → isControl l.data = true := by
  cases ls with
  | nil => exact ⟨fun _ => .inr (fun _ h => by cases h), fun _ => rfl⟩
  | cons l ls =>
      simp only [classify, treat, List.head?_cons, Option.some.injEq, forall_eq']
      cases hc : isControl l.data with
      | true => simp
      | false =>
          cases o₁ <;> cases o₂ <;> simp

/-- Behind the first control line the mode does not matter. -/
theorem classify_drop (o₁ o₂ : Bool) (ls : List ManagedString) :
    (classify o₁ ls).drop (ls.takeWhile fun l => !isControl l.data).length =
      (classify o₂ ls).drop (ls.takeWhile fun l => !isControl l.data).length := by
  induction ls with
  | nil => rfl
  | cons l ls ih =>
      cases hc : isControl l.data with
      | true => simp [classify, treat, hc]
      | false => simpa [classify, treat, hc] using ih

/-- **What outlives a connection.** Let two runs pass the same lines from some point of each on,
    for instance from the beginning of a later connection. Up to the first control line these
    lines are treated alike if and only if the runs have both left a recording open there or both
    left none open (or the first line is a control line, or there is none); from the first control
    line on they are treated alike in any case. -/
theorem classes_eq_iff {b₁ b₂ : Board} {pre₁ pre₂ post₁ post₂ : List Event}
    (h₁ : firmware.Run b₁ (pre₁ ++ post₁)) (h₂ : firmware.Run b₂ (pre₂ ++ post₂))
    (hl : passed post₁ = passed post₂) :
    (classes post₁ = classes post₂ ↔
      (ledger pre₁).opened.isSome = (ledger pre₂).opened.isSome ∨
        ∀ l, (passed post₁).head? = some l → isControl l.data = true) ∧
      (classes post₁).drop ((passed post₁).takeWhile fun l => !isControl l.data).length =
        (classes post₂).drop ((passed post₁).takeWhile fun l => !isControl l.data).length := by
  rw [classes_eq_classify h₁, classes_eq_classify h₂, ← hl]
  exact ⟨classify_eq_iff, classify_drop _ _ _⟩

/-- **A recording left open records the next client's lines**: the same line "m\n" of a second
    connection is recorded behind a first one that sent only "a99\n", and executed behind one that
    sent only "m\n". -/
theorem recording_outlives_connection :
    ∃ b₁ b₂ pre₁ pre₂ post₁ post₂,
      firmware.Run b₁ (pre₁ ++ .linkUp 2 :: post₁) ∧ firmware.Run b₂ (pre₂ ++ .linkUp 2 :: post₂) ∧
      passed post₁ = passed post₂ ∧ classes post₁ = [.recorded] ∧ classes post₂ = [.executed] := by
  have he₁ : (firmware.exec firmware.start (boot ++ lineTurns [97, 57, 57, 10] ++ reconnect ++
      lineTurns [109, 10])).map Prod.snd = some
      (([.outer 0, .linkUp 1, .handled true, .stored 1 97, .stored 1 57, .stored 1 57, .stored 1 10,
        .inner 6, .polled 6, .taken 97, .inner 12, .polled 12, .taken 57, .inner 18, .polled 18,
        .taken 57, .inner 24, .polled 24, .taken 10,
        .line 24 ⟨[97, 57, 57, 10], by decide⟩ false [], .outer 24, .linkDown 1, .handled false,
        .discarded .empty, .outer 30] : List Event) ++
        .linkUp 2 :: [.handled true, .stored 2 109, .stored 2 10, .inner 36, .polled 36,
        .taken 109, .inner 42, .polled 42, .taken 10,
        .line 42 ⟨[109, 10], by decide⟩ true []]) := by decide +kernel
  have he₂ : (firmware.exec firmware.start (boot ++ lineTurns [109, 10] ++ reconnect ++
      lineTurns [109, 10])).map Prod.snd = some
      (([.outer 0, .linkUp 1, .handled true, .stored 1 109, .stored 1 10, .inner 6, .polled 6,
        .taken 109, .inner 12, .polled 12, .taken 10,
        .line 12 ⟨[109, 10], by decide⟩ false [.music ⟨[10], by decide⟩], .outer 12, .linkDown 1,
        .handled false, .discarded .empty, .outer 18] : List Event) ++
        .linkUp 2 :: [.handled true, .stored 2 109, .stored 2 10, .inner 24, .polled 24,
        .taken 109, .inner 30, .polled 30, .taken 10,
        .line 30 ⟨[109, 10], by decide⟩ false [.music ⟨[10], by decide⟩]]) := by
    decide +kernel
  obtain ⟨b₁, hr₁⟩ := Machine.run_of_trace he₁
  obtain ⟨b₂, hr₂⟩ := Machine.run_of_trace he₂
  exact ⟨b₁, b₂, _, _, _, _, hr₁, hr₂, by decide, by decide, by decide⟩

/-- "m\n" behind "e\n", in the same connection and in a later one: treated alike. -/
theorem classes_eq_iff_run :
    ∃ b₁ b₂ pre₁ pre₂ post₁ post₂,
      firmware.Run b₁ (pre₁ ++ post₁) ∧ firmware.Run b₂ (pre₂ ++ post₂) ∧
      passed post₁ ≠ [] ∧ passed post₁ = passed post₂ ∧
      (classes post₁ = classes post₂ ↔
        (ledger pre₁).opened.isSome = (ledger pre₂).opened.isSome ∨
          ∀ l, (passed post₁).head? = some l → isControl l.data = true) ∧
      (classes post₁).drop ((passed post₁).takeWhile fun l => !isControl l.data).length =
        (classes post₂).drop ((passed post₁).takeWhile fun l => !isControl l.data).length := by
  have he₁ : (firmware.exec firmware.start (boot ++ lineTurns [101, 10] ++ outerTurn ++
      lineTurns [109, 10])).map Prod.snd = some
      (([.outer 0, .linkUp 1, .handled true, .stored 1 101, .stored 1 10, .inner 6, .polled 6,
        .taken 101, .inner 12, .polled 12, .taken 10, .line 12 ⟨[101, 10], by decide⟩ false [],
        .outer 12] : List Event) ++
        ([.stored 1 109, .stored 1 10, .inner 18, .polled 18, .taken 109, .inner 24, .polled 24,
        .taken 10, .line 24 ⟨[109, 10], by decide⟩ false [.music ⟨[10], by decide⟩]] :
        List Event)) := by decide +kernel
  have he₂ : (firmware.exec firmware.start (boot ++ lineTurns [101, 10] ++ reconnect ++
      lineTurns [109, 10])).map Prod.snd = some
      (([.outer 0, .linkUp 1, .handled true, .stored 1 101, .stored 1 10, .inner 6, .polled 6,
        .taken 101, .inner 12, .polled 12, .taken 10, .line 12 ⟨[101, 10], by decide⟩ false [],
        .outer 12, .linkDown 1, .handled false, .discarded .empty, .outer 18, .linkUp 2,
        .handled true] : List Event) ++
        ([.stored 2 109, .stored 2 10, .inner 24, .polled 24, .taken 109, .inner 30, .polled 30,
        .taken 10, .line 30 ⟨[109, 10], by decide⟩ false [.music ⟨[10], by decide⟩]] :
        List Event)) := by decide +kernel
  obtain ⟨b₁, hr₁⟩ := Machine.run_of_trace he₁
  obtain ⟨b₂, hr₂⟩ := Machine.run_of_trace he₂
  exact ⟨b₁, b₂, _, _, _, _, hr₁, hr₂, by decide, rfl, classes_eq_iff hr₁ hr₂ rfl⟩

end MicrobitAlarm
