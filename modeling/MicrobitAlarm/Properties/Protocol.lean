/-
  File:      MicrobitAlarm/Properties/Protocol.lean
  Subject:   PHONE AND BOARD AGREE: what the user means by the clicks is what the board does.

  The app writes one line for each click, and `Intent` (MainActivity.lean) says what the clicks
  mean without a word about lines. A board that has received the lines whole and in order has
  executed the commands meant for now, has recorded those meant for later, and replays them.

  * `follows` -- the lines of any sequence of clicks, passed by main, leave in the ledger and in
    the devices what the clicks mean;
  * `panic_cases` -- a string does not fit in the RAM only if it is main's line or the script;
  * `phone_and_board` -- so app and board agree, unless a `malloc` fails;
  * `recording_exhausts` -- the `malloc` may fail on any line of a recording, and a long one fills
    the heap (`long_recording_panics`).
-/
import MicrobitAlarm.App.MainActivity
import MicrobitAlarm.Properties.Delivery
import MicrobitAlarm.Properties.Replay
import Mathlib.Data.List.Infix

namespace MicrobitAlarm

open Trace Framing

variable {b b' : Board} {tr ev : List Event}

/-! ## 1. The lines of the app -/

theorem digit_ne {x : UInt8} (h : Decimal.isdigit x = true) : x ≠ 10 ∧ x ≠ 0 := by
  constructor
  · rintro rfl
    cases h
  · rintro rfl
    cases h

section Message

variable {letter : Char} {txt : List UInt8} (ht : ∀ x ∈ txt, Decimal.isdigit x = true)

include ht

theorem noNul_message (hl : letter.toUInt8 ≠ 0) : ∀ y ∈ message letter txt, y ≠ 0 := by
  intro y hy
  rcases List.mem_cons.mp hy with rfl | hy
  · exact hl
  · rcases List.mem_append.mp hy with hy | hy
    · exact (digit_ne (ht y hy)).2
    · rw [List.mem_singleton.mp hy]
      decide

theorem isFrame_message (hl : letter.toUInt8 ≠ 10) : IsFrame newline (message letter txt) := by
  refine ⟨letter.toUInt8 :: txt, 10, rfl, rfl, fun y hy => ?_⟩
  rcases List.mem_cons.mp hy with rfl | hy
  · simpa [newline] using hl
  · simpa [newline] using (digit_ne (ht y hy)).1

/-- **The argument of a line of the app** is the number of its text. -/
theorem number_message {line : ManagedString} (hl : letter.toUInt8 ≠ 0)
    (h : line.data = message letter txt) :
    number line = min (Decimal.value txt : Int) 2147483647 := by
  have harg : (argument line).data = txt ++ [10] := by
    rw [argument, ManagedString.substring_argument (h ▸ noNul_message ht hl), h]
    rfl
  rw [number, harg]
  by_cases hne : txt = []
  · subst hne
    exact Decimal.strtol_newline
  · refine Decimal.strtol_digits hne ht fun y hy => ?_
    cases hy
    rfl

end Message

/-- What a click queues: a line, free of NUL bytes. -/
theorem queued_line (a : UiAction) : ∀ m ∈ queued a, IsFrame newline m ∧ ∀ y ∈ m, y ≠ 0 := by
  have hone : ∀ letter txt, letter.toUInt8 ≠ 0 → letter.toUInt8 ≠ 10 →
      (∀ x ∈ txt, Decimal.isdigit x = true) →
      ∀ m ∈ [message letter txt], IsFrame newline m ∧ ∀ y ∈ m, y ≠ 0 := by
    intro letter txt h0 h10 ht m hm
    rw [List.mem_singleton.mp hm]
    exact ⟨isFrame_message ht h10, noNul_message ht h0⟩
  cases a with
  | servo1 progress => exact hone _ _ (by decide) (by decide) (Decimal.isdigit_render _)
  | servo2 progress => exact hone _ _ (by decide) (by decide) (Decimal.isdigit_render _)
  | pause pauseText => exact hone _ _ (by decide) (by decide) pauseText.digits
  | record isChecked recordText =>
      cases isChecked with
      | true => exact hone _ _ (by decide) (by decide) recordText.digits
      | false => exact hone _ _ (by decide) (by decide) (fun _ h => absurd h (by simp))
  | send => exact List.forall_mem_nil _

/-- A click queues one line, unless it is Send. -/
theorem queued_cases (a : UiAction) : a = .send ∨ ∃ m, queued a = [m] := by
  cases a with
  | send => exact .inl rfl
  | record isChecked recordText => cases isChecked <;> exact .inr ⟨_, rfl⟩
  | _ => exact .inr ⟨_, rfl⟩

/-- A click that is a command: neither the Record switch nor Send. -/
def UiAction.isCommand : UiAction → Bool
  | .servo1 _ => true
  | .servo2 _ => true
  | .pause _ => true
  | _ => false

/-- **A command's line does what the command means.** -/
theorem command_line {a : UiAction} {line : ManagedString} (ha : a.isCommand = true)
    (h : queued a = [line.data]) :
    isControl line.data = false ∧ liveActions line = a.perform := by
  have hservo : ∀ p : Fin 181, message 's' (Decimal.render p) = line.data →
      isControl line.data = false ∧
        liveActions line = [.setServoValue p servoRange servoN, .sleep 30] := by
    intro p h
    have hn := number_message (Decimal.isdigit_render p) (by decide) h.symm
    rw [Decimal.value_render] at hn
    have hp : number line = p := by
      have := p.isLt
      omega
    have hc : line.charAt 0 = 's'.toUInt8 := by
      rw [ManagedString.charAt_zero, ← h]
      rfl
    refine ⟨by rw [← h]; rfl, ?_⟩
    rw [liveActions, if_pos hc, hp]
  cases a with
  | servo1 progress => exact hservo progress (List.singleton_inj.mp h)
  | servo2 progress => exact hservo progress (List.singleton_inj.mp h)
  | pause pauseText =>
      have hd : message 'p' pauseText.text = line.data := List.singleton_inj.mp h
      have hn := number_message pauseText.digits (by decide) hd.symm
      have hc : line.charAt 0 = 'p'.toUInt8 := by
        rw [ManagedString.charAt_zero, ← hd]
        rfl
      refine ⟨by rw [← hd]; rfl, ?_⟩
      have hs : ¬ 'p'.toUInt8 = 's'.toUInt8 := by decide
      have hm : ¬ 'p'.toUInt8 = 'm'.toUInt8 := by decide
      rw [liveActions, hc, if_neg hs, if_neg hm, if_pos rfl, hn]
      have hnum : toULong (min (Decimal.value pauseText.text : Int) 2147483647) =
          pauseText.number := by
        unfold toULong wordSize NumberText.number
        omega
      rw [hnum]
      rfl
  | record isChecked recordText => cases ha
  | send => cases ha

/-! ## 2. What lines come to -/

/-- What the calls of `processline` by main did, in order. -/
def performed (tr : List Event) : List Action := (passes tr).flatMap (·.2)

theorem performed_append (tr ev : List Event) :
    performed (tr ++ ev) = performed tr ++ performed ev := by
  rw [performed, passes, List.filterMap_append, List.flatMap_append]
  rfl

/-- A control line and a recorded line do nothing. -/
def Idle (_ : List Event) : Event → Prop
  | .line _ l rm as => rm = true ∨ isControl l.data = true → as = []
  | _ => True

theorem idle_of_processline {g : Globals} {now : Nat} {line : ManagedString} {rm : Bool}
    {out : Outcome} (hp : processline g now line rm = some out)
    (h : rm = true ∨ isControl line.data = true) : out.actions = [] := by
  rcases processline_cases hp with ⟨_, rfl⟩ | ⟨_, rfl⟩ | ⟨_, _, s, _, rfl⟩ | ⟨hc, hrm, rfl⟩
  · rfl
  · rfl
  · rfl
  · rw [hc, hrm] at h
    rcases h with h | h <;> cases h

theorem idle_run (h : firmware.Run b tr) : Always Idle tr := by
  refine firmware_inv (I := fun _ tr => Always Idle tr) always_nil ?_ h
  intro b tr b' ev _ _ hi hs
  refine always_append.mpr ⟨hi, ?_⟩
  cases hs with
  | linePanic h hl hp => exact always_singleton.mpr fun _ => rfl
  | lineSleeps h hl hp hs => exact always_singleton.mpr (idle_of_processline hp)
  | line h hl hp hs => exact always_singleton.mpr (idle_of_processline hp)
  | write data hu => exact always_receipts (fun _ _ => trivial) (fun _ _ => trivial) _
  | _ => first | exact always_nil | exact always_singleton.mpr trivial

/-- An alarm. -/
def Event.isAlarm : Event → Bool
  | .alarm _ _ _ => true
  | _ => false

/-- **A trace does what the clicks mean**: in the mode, in the commands executed and recorded, and,
    if no alarm has gone off, in the delay armed. -/
structure Follows (i : Intent) (tr : List Event) : Prop where
  mode : (ledger tr).opened.isSome = i.recording
  live : performed tr = i.live.flatMap UiAction.perform
  script : (ledger tr).script.map (·.data) = i.script.flatMap queued
  replay : (ledger tr).script.map liveActions = i.script.map UiAction.perform
  armed : (∀ e ∈ tr, e.isAlarm = false) →
    (ledger tr).armed.map (·.2) = i.delay.map Int.ofNat

theorem follows_start : Follows .start [] := ⟨rfl, rfl, rfl, rfl, fun _ => rfl⟩

variable {i : Intent}

/-- Events other than lines change nothing. -/
theorem Follows.quiet (h : Follows i tr) (hev : passed ev = []) : Follows i (tr ++ ev) := by
  induction ev using List.reverseRecOn with
  | nil => rwa [List.append_nil]
  | append_singleton ev e ih =>
      rw [passed_append] at hev
      obtain ⟨hev, he⟩ := List.append_eq_nil_iff.mp hev
      obtain ⟨hm, hl, hs, hr, ha⟩ := ih hev
      rw [← List.append_assoc]
      have hsame : ∀ l : Ledger, (l.read e).opened = l.opened ∧ (l.read e).script = l.script := by
        intro l
        cases e with
        | line t x rm as => simp [passed, Event.passed] at he
        | _ => exact ⟨rfl, rfl⟩
      have hnone : performed [e] = [] := by
        cases e with
        | line t x rm as => simp [passed, Event.passed] at he
        | _ => rfl
      refine ⟨?_, ?_, ?_, ?_, fun hno => ?_⟩
      · rw [ledger_snoc, (hsame _).1, hm]
      · rw [performed_append, hnone, List.append_nil, hl]
      · rw [ledger_snoc, (hsame _).2, hs]
      · rw [ledger_snoc, (hsame _).2, hr]
      · have hrearm : e.rearms = false := by
          cases e with
          | line t x rm as => simp [passed, Event.passed] at he
          | alarm t rm x => exact hno (.alarm t rm x) (by simp)
          | _ => rfl
        rw [ledger_snoc, read_armed hrearm]
        exact ha fun x hx => hno x (List.mem_append_left _ hx)

/-- The line of a command, passed by main. -/
theorem Follows.command {a : UiAction} {t : Nat} {l : ManagedString} {rm : Bool} {as : List Action}
    (h : Follows i tr) (hcmd : a.isCommand = true) (hq : queued a = [l.data])
    (hag : Agrees tr (.line t l rm as)) (hid : Idle tr (.line t l rm as)) :
    Follows (i.command a) (tr ++ [.line t l rm as]) := by
  obtain ⟨hc, hlive⟩ := command_line hcmd hq
  obtain ⟨hrm, _, has⟩ := hag
  rw [h.mode] at hrm
  have hperf : performed [.line t l rm as] = as := by simp [performed, passes, Event.pass]
  have hled := @ledger_plain (ledger tr) t l rm as hc
  have harm : (∀ e ∈ tr ++ [Event.line t l rm as], e.isAlarm = false) →
      (ledger (tr ++ [.line t l rm as])).armed.map (·.2) = i.delay.map Int.ofNat := by
    intro hno
    have hrearm : (Event.line t l rm as).rearms = false := by
      rw [isControl, Bool.or_eq_false_iff] at hc
      exact hc.1
    rw [ledger_snoc, read_armed hrearm]
    exact h.armed fun x hx => hno x (List.mem_append_left _ hx)
  unfold Intent.command
  cases hrec : i.recording with
  | true =>
      rw [hrec] at hrm
      rw [h.mode, hrec, if_pos rfl] at hled
      obtain rfl := hid (.inl hrm)
      refine ⟨?_, ?_, ?_, ?_, harm⟩
      · rw [ledger_snoc, hled]
        exact h.mode.trans hrec
      · rw [performed_append, hperf, List.append_nil]
        exact h.live
      · rw [ledger_snoc, hled, if_pos rfl]
        simp [h.script, hq]
      · rw [ledger_snoc, hled, if_pos rfl]
        simp [h.replay, hlive]
  | false =>
      rw [hrec] at hrm
      rw [h.mode, hrec, if_neg Bool.false_ne_true] at hled
      refine ⟨?_, ?_, ?_, ?_, harm⟩
      · rw [ledger_snoc, hled]
        exact h.mode.trans hrec
      · rw [performed_append, hperf, h.live, has hrm hc, hlive]
        simp
      · rw [ledger_snoc, hled]
        exact h.script
      · rw [ledger_snoc, hled]
        exact h.replay

/-- **The line of any click**, passed by main. -/
theorem Follows.line {a : UiAction} {t : Nat} {l : ManagedString} {rm : Bool} {as : List Action}
    (h : Follows i tr) (hq : queued a = [l.data]) (hag : Agrees tr (.line t l rm as))
    (hid : Idle tr (.line t l rm as)) : Follows (i.read a) (tr ++ [.line t l rm as]) := by
  have hperf : performed [.line t l rm as] = as := by simp [performed, passes, Event.pass]
  cases a with
  | servo1 progress => exact h.command rfl hq hag hid
  | servo2 progress => exact h.command rfl hq hag hid
  | pause pauseText => exact h.command rfl hq hag hid
  | record isChecked recordText =>
      cases isChecked with
      | true =>
          have hd : message 'a' recordText.text = l.data := List.singleton_inj.mp hq
          have ha : isArm l.data = true := by rw [← hd]; rfl
          have hn := number_message recordText.digits (by decide) hd.symm
          obtain rfl := hid (.inr (by rw [isControl, ha, Bool.true_or]))
          refine ⟨?_, ?_, ?_, ?_, fun _ => ?_⟩
          · rw [ledger_snoc, ledger_arm ha]
            rfl
          · rw [performed_append, hperf, List.append_nil]
            exact h.live
          · rw [ledger_snoc, ledger_arm ha]
            rfl
          · rw [ledger_snoc, ledger_arm ha]
            rfl
          · rw [ledger_snoc, ledger_arm ha]
            show some (number l) = some ((recordText.number : Nat) : Int)
            rw [hn, NumberText.number]
            simp
      | false =>
          have hd : message 'e' [] = l.data := List.singleton_inj.mp hq
          have he : isEnd l.data = true := by rw [← hd]; rfl
          obtain rfl := hid (.inr (by rw [isControl, he, Bool.or_true]))
          refine ⟨?_, ?_, ?_, ?_, fun hno => ?_⟩
          · rw [ledger_snoc, ledger_end he]
            rfl
          · rw [performed_append, hperf, List.append_nil]
            exact h.live
          · rw [ledger_snoc, ledger_end he]
            exact h.script
          · rw [ledger_snoc, ledger_end he]
            exact h.replay
          · rw [ledger_snoc, ledger_end he]
            exact h.armed fun x hx => hno x (List.mem_append_left _ hx)
  | send => cases hq

/-- A trace cut behind its first lines. -/
theorem split_passed {tr : List Event} {xs ys : List (List UInt8)} {m : List UInt8}
    (h : (passed tr).map (·.data) = xs ++ m :: ys) :
    ∃ tr₁ t l rm as tr₂, tr = tr₁ ++ .line t l rm as :: tr₂ ∧
      (passed tr₁).map (·.data) = xs ∧ l.data = m ∧ (passed tr₂).map (·.data) = ys := by
  obtain ⟨ls, rs, hpass, hls, hrs⟩ := List.map_eq_append_iff.mp h
  obtain ⟨l, ls₂, rfl, hl, hls₂⟩ := List.map_eq_cons_iff.mp hrs
  obtain ⟨tr₁, tr', rfl, h₁, h₂⟩ := List.filterMap_eq_append_iff.mp hpass
  obtain ⟨tr₁', e, tr₂, rfl, hnone, he, htail⟩ := List.filterMap_eq_cons_iff.mp h₂
  cases e with
  | line t x rm as =>
      obtain rfl : x = l := Option.some.inj he
      refine ⟨tr₁ ++ tr₁', t, x, rm, as, tr₂, by simp, ?_, hl, by rw [← hls₂, ← htail]; rfl⟩
      rw [passed_append, ← hls, ← h₁,
        show passed tr₁' = [] from List.filterMap_eq_nil_iff.mpr hnone, List.append_nil]
      rfl
  | _ => cases he

/-- **A board that passes the lines of the clicks does what the clicks mean.** -/
theorem follows {acts : List UiAction} (hag : Always Agrees tr) (hid : Always Idle tr)
    (hp : (passed tr).map (·.data) = messages acts) : Follows (intent acts) tr := by
  induction acts using List.reverseRecOn generalizing tr with
  | nil =>
      have hnil : passed tr = [] := List.map_eq_nil_iff.mp hp
      have h := follows_start.quiet hnil
      rwa [List.nil_append] at h
  | append_singleton acts a ih =>
      have hint : intent (acts ++ [a]) = (intent acts).read a := by
        rw [intent, List.foldl_append]
        rfl
      have hmsg : messages (acts ++ [a]) = messages acts ++ queued a := by simp [messages]
      rw [hint]
      rw [hmsg] at hp
      rcases queued_cases a with rfl | ⟨m, hq⟩
      · rw [show queued .send = [] from rfl, List.append_nil] at hp
        exact ih hag hid hp
      · rw [hq] at hp
        obtain ⟨tr₁, t, l, rm, as, tr₂, rfl, h₁, hl, h₂⟩ := split_passed hp
        have hline := (ih hag.of_append hid.of_append h₁).line (hl.symm ▸ hq)
          (hag tr₁ _ tr₂ rfl) (hid tr₁ _ tr₂ rfl)
        have hquiet := hline.quiet (List.map_eq_nil_iff.mp h₂)
        rwa [List.append_assoc] at hquiet

/-! ## 3. Strings longer than the RAM -/

/-- The last line passed is recorded, and the script does not fit with it. -/
def ScriptFull (tr : List Event) : Prop :=
  ∃ pre t l as, tr = pre ++ [.line t l true as] ∧ isControl l.data = false ∧
    maxLength < ((ledger pre).body ++ l.data).length

theorem afterCall_ne_panicked (b : Board) (as : List Action) (c : Nat) :
    b.afterCall as c ≠ .panicked := by
  unfold Board.afterCall
  split <;> exact Pc.noConfusion

/-- **Main's line and the script are the only strings** that can fail to fit in the RAM. -/
theorem panic_cases (h : firmware.Run b tr) (hp : b.pc = .panicked) :
    Overlong b (bytes (flow tr).held) ∨ ScriptFull tr := by
  refine firmware_inv (I := fun b tr => b.pc = .panicked →
    Overlong b (bytes (flow tr).held) ∨ ScriptFull tr) (fun h => by cases h) ?_ h hp
  intro b tr b' ev hr hpk _ hs hp'
  cases hs with
  | @move pc hm =>
      rw [List.append_nil]
      cases hm with
      | @replayPanic c line h hc hp =>
          have hsi := scriptInv_run hr
          exact absurd hp (alarmPass_ne_none hsi.script hc
            (hsi.position (c, line.data) (by rw [h]; rfl)).2)
      | appendPanic h hl => exact .inl ((flowInv_run hr).overlong (scriptInv_run hr) h hl)
      | _ => cases hp'
  | @linePanic line h hl hp =>
      obtain ⟨hc, hrm, hlen⟩ := processline_eq_none hp
      rw [hrm]
      refine .inr ⟨tr, b.now, line, [], rfl, hc, ?_⟩
      rw [List.length_append, ← (ledger_run hr hpk).script]
      exact hlen
  | write data hu => exact absurd hp' hpk
  | elapse ms => exact absurd hp' hpk
  | connect queued hu => exact absurd hp' hpk
  | disconnect queued hu => exact absurd hp' hpk
  | enableUpdates on hu => exact absurd hp' hpk
  | confirm ha => exact absurd hp' hpk
  | handler hd hv => exact absurd hp' hpk
  | replayed h hc hp => exact absurd hp' (afterCall_ne_panicked b _ _)
  | _ => cases hp'

/-- **The clicks fit in the RAM**: every line, and the script recorded behind any of them. -/
def Fits (acts : List UiAction) : Prop :=
  (∀ m ∈ messages acts, m.length ≤ maxLength) ∧
    ∀ pre, pre <+: acts → ((intent pre).script.flatMap queued).flatten.length ≤ maxLength

/-- The messages of clicks, cut behind some of them. -/
theorem split_messages {acts : List UiAction} {xs ys : List (List UInt8)} {m : List UInt8}
    (h : messages acts = xs ++ m :: ys) :
    ∃ acts₁ a acts₂, acts = acts₁ ++ a :: acts₂ ∧ messages acts₁ = xs ∧ queued a = [m] := by
  induction acts generalizing xs with
  | nil => simp [messages] at h
  | cons a acts ih =>
      rw [messages, List.flatMap_cons, ← messages] at h
      rcases queued_cases a with rfl | ⟨m', hq⟩
      · rw [show queued .send = [] from rfl, List.nil_append] at h
        obtain ⟨acts₁, a', acts₂, rfl, h₁, h₂⟩ := ih h
        exact ⟨.send :: acts₁, a', acts₂, rfl, h₁, h₂⟩
      · rw [hq] at h
        cases xs with
        | nil =>
            obtain ⟨rfl, _⟩ := List.cons.inj h
            exact ⟨[], a, acts, rfl, rfl, hq⟩
        | cons x xs =>
            obtain ⟨rfl, htail⟩ := List.cons.inj h
            obtain ⟨acts₁, a', acts₂, rfl, h₁, h₂⟩ := ih htail
            exact ⟨a :: acts₁, a', acts₂, rfl, by
              simp only [messages, List.flatMap_cons, hq] at h₁ ⊢
              rw [h₁]
              rfl, h₂⟩

/-- All that was written is what the clicks wrote, none of it was dropped, and the connection was
    not lost. -/
structure Received (acts : List UiAction) (tr : List Event) : Prop where
  written : written tr = (MainActivity.run (acts ++ [.send])).sent.flatten
  whole : Whole (arrivals tr)
  connection : ended tr = []

/-- What was written is what is stored. -/
theorem Received.stored {acts : List UiAction} (h : Received acts tr) :
    bytes (stored tr) = (messages acts).flatten := by
  rw [stored_eq_kept, kept_of_whole h.whole, ← MicrobitAlarm.written, h.written, sent_send]

theorem noNul_messages (acts : List UiAction) : ∀ y ∈ (messages acts).flatten, y ≠ 0 := by
  intro y hy
  obtain ⟨m, hm, hy⟩ := List.mem_flatten.mp hy
  obtain ⟨a, _, hm⟩ := List.mem_flatMap.mp hm
  exact (queued_line a m hm).2 y hy

theorem isFrame_messages (acts : List UiAction) : ∀ m ∈ messages acts, IsFrame newline m := by
  intro m hm
  obtain ⟨a, _, hm⟩ := List.mem_flatMap.mp hm
  exact (queued_line a m hm).1

/-- The lines passed are the first of the app's. -/
theorem Received.passed {acts : List UiAction} (hr : Received acts tr) (h : firmware.Run b tr) :
    (passed tr).map (·.data) <+: messages acts := by
  have hcut := cut_stored h (handled_of_ended h hr.connection).2
    (text (bytes (flow tr).held) ++ text (bytes (flow tr).queue))
  have hst : text (bytes (flow tr).gone) ++ (text (bytes (flow tr).held) ++
      text (bytes (flow tr).queue)) = (messages acts).flatten := by
    rw [← text_of_noNul (noNul_messages acts), ← hr.stored, stored_eq_flow]
    simp only [bytes, List.map_append, text_append, List.append_assoc]
  have hfr := frames_of_flatten (isFrame_messages acts)
  rw [← hst, frames, hcut] at hfr
  exact ⟨_, hfr⟩

/-- **Clicks that fit in the RAM** make no string that does not. -/
theorem Received.ne_panicked {acts : List UiAction} (hr : Received acts tr)
    (h : firmware.Run b tr) (hf : Fits acts) : b.pc ≠ .panicked := by
  intro hp
  rcases panic_cases h hp with ho | ⟨pre, t, l, as, rfl, hc, hlen⟩
  · refine not_overlong h (handled_of_ended h hr.connection).2 ?_ ho
    rw [hr.stored, text_of_noNul (noNul_messages acts), LinesFit,
      frames_of_flatten (isFrame_messages acts), rest_of_flatten (isFrame_messages acts)]
    exact ⟨hf.1, Nat.zero_le _⟩
  · -- the clicks up to the line that was recorded, and the script they mean
    have hag := agrees_run h
    obtain ⟨ys, hys⟩ := hr.passed h
    have hmsg : messages acts = (MicrobitAlarm.passed pre).map (·.data) ++ l.data :: ys := by
      rw [← hys, passed_append, List.map_append, List.append_assoc]
      rfl
    obtain ⟨acts₁, a, acts₂, rfl, h₁, hq⟩ := split_messages hmsg
    have hfol := follows hag.of_append (idle_run h).of_append h₁.symm
    obtain ⟨hrm, _, _⟩ := hag pre _ [] rfl
    rw [hfol.mode] at hrm
    have hint : (intent (acts₁ ++ [a])).script = (intent acts₁).script ++ [a] := by
      rw [intent, List.foldl_append, ← intent]
      cases a with
      | record isChecked recordText =>
          -- a line that is recorded is not of the Record switch
          cases isChecked with
          | true =>
              rw [← List.singleton_inj.mp hq] at hc
              cases hc
          | false =>
              rw [← List.singleton_inj.mp hq] at hc
              cases hc
      | send => cases hq
      | _ => simp [Intent.read, Intent.command, ← hrm]
    have hfit := hf.2 (acts₁ ++ [a]) ⟨acts₂, by simp⟩
    rw [hint, List.flatMap_append, List.flatten_append, ← hfol.script] at hfit
    have hone : ([a].flatMap queued).flatten = l.data := by simp [hq]
    rw [hone] at hfit
    exact absurd hlen (Nat.not_lt.mpr hfit)

/-! ## 4. App and board -/

/-- **The board agrees with what the clicks mean.** It has executed the commands meant for now, in
    order; its script is the lines of those recorded; if no alarm has gone off the deadline is the
    delay shown, from the line of the Record switch on; and an alarm that goes off before any
    further line replays the commands recorded, in order. -/
structure Agreement (i : Intent) (b : Board) (tr : List Event) : Prop where
  live : performed tr = i.live.flatMap UiAction.perform
  script : b.globals.recscr.data = (i.script.flatMap queued).flatten
  deadline : (∀ e ∈ tr, e.isAlarm = false) →
    match i.delay with
    | none => b.globals.alarmmil = disarmed
    | some d => ∃ t, (ledger tr).armed = some (t, (d : Int)) ∧ b.globals.alarmmil = deadline (t, d)
  replay : ∀ b' mid t rm s ev post,
    firmware.Run b' (tr ++ (mid ++ .alarm t rm s :: (ev ++ .returned :: post))) →
    passed mid = [] → .returned ∉ ev → (calls ev).map (·.2) = i.script.map UiAction.perform

/-- What a board does that has passed all lines. -/
theorem agreement {acts : List UiAction} (h : firmware.Run b tr) (hp : b.pc ≠ .panicked)
    (hpass : (passed tr).map (·.data) = messages acts) : Agreement (intent acts) b tr := by
  have hli := ledger_run h hp
  have hfol := follows (agrees_run h) (idle_run h) hpass
  refine ⟨hfol.live, ?_, fun hno => ?_, ?_⟩
  · rw [hli.script, Ledger.body, hfol.script]
  · have ha := hfol.armed hno
    have hm := hli.alarmmil
    cases hd : (intent acts).delay with
    | none =>
        rw [hd, Option.map_none, Option.map_eq_none_iff] at ha
        rw [ha] at hm
        exact hm
    | some d =>
        rw [hd] at ha
        obtain ⟨⟨t, v⟩, hv, rfl⟩ := Option.map_eq_some_iff.mp ha
        rw [hv] at hm
        exact ⟨t, hv, hm⟩
  · intro b' mid t rm s ev post hrun hmid hno
    have hfol' := hfol.quiet hmid
    have hsplit : tr ++ (mid ++ .alarm t rm s :: (ev ++ .returned :: post)) =
        (tr ++ mid) ++ .alarm t rm s :: (ev ++ .returned :: post) := by simp
    rw [hsplit] at hrun
    obtain ⟨_, _, _, hs⟩ := agrees_run hrun (tr ++ mid) _ _ rfl
    have hin := (replayInv_run hrun).events
    have hcalls := running_calls (tr ++ mid) ev (.returned :: post) hin hno
    obtain ⟨s', r, hr, hf, hl⟩ := hin ((tr ++ mid) ++ .alarm t rm s :: ev) .returned post (by simp)
    rw [hcalls] at hr
    cases hr
    -- the script is cut into the lines it was made of
    have hlines : frames newline s.data = ((ledger (tr ++ mid)).script.map (·.data)) := by
      rw [hs, Ledger.body, hfol'.script]
      refine frames_of_flatten fun m hm => ?_
      obtain ⟨a, _, hm⟩ := List.mem_flatMap.mp hm
      exact (queued_line a m hm).1
    have hq := calls_of_frames (hf.trans hlines) hl
    rw [hq, List.map_map, ← hfol'.replay]
    rfl

/-- **Phone and board agree**: a board that has received what the clicks wrote, whole, in order and
    in one connection, and has consumed it, agrees with what the clicks mean, unless it has run out
    of memory. -/
theorem Received.agreement {acts : List UiAction} (hr : Received acts tr)
    (h : firmware.Run b tr) (hp : b.pc ≠ .panicked) (hd : Drained b) :
    Agreement (intent acts) b tr := by
  refine MicrobitAlarm.agreement h hp ?_
  obtain ⟨consumed, hc, hcut⟩ := delivery h (handled_of_ended h hr.connection).2
    fun ho => hp ho.1
  rw [hd.1, hd.2, List.append_nil, List.append_nil, hr.stored] at hc
  have hfr := frames_of_flatten (isFrame_messages acts)
  rw [← text_of_noNul (noNul_messages acts), hc, frames, hcut] at hfr
  exact hfr

/-- **Phone and board agree.** Let the clicks end with Send, and let the board have received what
    they wrote, whole, in order and in one connection. If it has consumed it and has not run out of
    memory, it agrees with what the clicks mean. And as long as no `malloc` fails, which takes
    clicks that fit in the RAM, time and main alone bring it there once `connected` is set (the app
    never enables indications). -/
theorem phone_and_board (acts : List UiAction) (b : Board) (tr : List Event)
    (h : firmware.Run b tr) (hr : Received acts tr) :
    (Drained b → b.pc ≠ .panicked → Agreement (intent acts) b tr) ∧
      (Fits acts → b.pc.halted = false → b.connected = true → b.link.updatesEnabled = false →
        b.pc.echoing = false →
        ∃ as b' ev, (∀ a ∈ as, a.isQuiet = true) ∧ firmware.exec b as = some (b', ev) ∧
          Drained b' ∧ b'.pc.halted = false ∧ Agreement (intent acts) b' (tr ++ ev)) := by
  refine ⟨fun hd hp => hr.agreement h hp hd, fun hf hh hc hu he => ?_⟩
  obtain ⟨as, b', ev, hq, hx, _, hev, hend⟩ := main_drains h hc hu he hh
  have hrun : firmware.Run b' (tr ++ ev) := h.exec hx
  have harr : arrivals ev = [] := by
    refine List.filterMap_eq_nil_iff.mpr fun e hm => ?_
    have := hev e hm
    cases e <;> first | rfl | cases this
  have hdown : ended ev = [] := by
    refine List.filterMap_eq_nil_iff.mpr fun e hm => ?_
    have := hev e hm
    cases e <;> first | rfl | cases this
  have hr' : Received acts (tr ++ ev) := by
    have hall : arrivals (tr ++ ev) = arrivals tr := by
      rw [arrivals_append, harr, List.append_nil]
    refine ⟨?_, hall ▸ hr.whole, by rw [ended_append, hr.connection, hdown]; rfl⟩
    rw [MicrobitAlarm.written, hall]
    exact hr.written
  have hp' := hr'.ne_panicked hrun hf
  obtain ⟨hd', hh'⟩ := hend.resolve_left hp'
  exact ⟨as, b', ev, hq, hx, hd', hh', hr'.agreement hrun hp' hd'⟩

/-- Bytes that were all stored, on a link that stayed up, have been received. -/
theorem received_of_stored {acts : List UiAction}
    (ha : arrivals tr = (messages acts).flatten.map .stored) (he : ended tr = []) :
    Received acts tr := by
  refine ⟨?_, ?_, he⟩
  · rw [written, ha, sent_send, List.map_map]
    exact List.map_id _
  · rw [ha]
    intro x hx
    obtain ⟨y, _, hy⟩ := List.mem_map.mp hx
    cases hy

/-- Record on at "9999", a servo at 90, Record off, a pause of "5", and Send: a board that has taken
    all bytes, and one that has just received them in one write. -/
theorem phone_and_board_run :
    ∃ acts, (intent acts).script = [.servo1 90] ∧ (intent acts).delay = some 9999 ∧
      (∃ b tr, firmware.Run b tr ∧ Agreement (intent acts) b tr) ∧
      ∃ b tr, firmware.Run b tr ∧ passed tr = [] ∧ ∃ as b' ev,
        firmware.exec b as = some (b', ev) ∧ Agreement (intent acts) b' (tr ++ ev) := by
  let acts : List UiAction := [.record true ⟨[57, 57, 57, 57], by decide +kernel⟩, .servo1 90,
    .record false ⟨[], List.forall_mem_nil _⟩, .pause ⟨[53], by decide +kernel⟩]
  let P : Board → List Event → Prop := fun b tr =>
    arrivals tr = (messages acts).flatten.map .stored ∧ ended tr = [] ∧ b.pc ≠ .panicked
  have hfits : Fits acts := by
    refine ⟨by decide +kernel, fun pre hpre => ?_⟩
    have hall : ∀ pre ∈ acts.inits,
        ((intent pre).script.flatMap queued).flatten.length ≤ maxLength := by decide +kernel
    exact hall pre ((List.mem_inits _ _).mpr hpre)
  obtain ⟨b₁, tr₁, hr₁, ⟨ha₁, he₁, hp₁⟩, hd₁⟩ := Machine.exists_run_of_exec firmware
    (fun b tr => P b tr ∧ Drained b) (boot ++ lineTurns [97, 57, 57, 57, 57, 10] ++ outerTurn ++
      lineTurns [115, 57, 48, 10] ++ outerTurn ++ lineTurns [101, 10] ++ outerTurn ++
      lineTurns [112, 53, 10]) (by decide +kernel)
  obtain ⟨b₂, tr₂, hr₂, ⟨ha₂, he₂, _⟩, hh, hc, hu, he, hn⟩ := Machine.exists_run_of_exec firmware
    (fun b tr => P b tr ∧ b.pc.halted = false ∧ b.connected = true ∧
      b.link.updatesEnabled = false ∧ b.pc.echoing = false ∧ passed tr = [])
    (boot ++ [.write [97, 57, 57, 57, 57, 10, 115, 57, 48, 10, 101, 10, 112, 53, 10]])
    (by decide +kernel)
  have hend := (phone_and_board acts b₁ tr₁ hr₁ (received_of_stored ha₁ he₁)).1 hd₁ hp₁
  obtain ⟨as, b', ev, _, hx, _, _, hag⟩ :=
    (phone_and_board acts b₂ tr₂ hr₂ (received_of_stored ha₂ he₂)).2 hfits hh hc hu he
  exact ⟨acts, rfl, rfl, ⟨b₁, tr₁, hr₁, hend⟩, b₂, tr₂, hr₂, hn, as, b', ev, hx, hag⟩

/-! ## 5. A recording the heap does not hold -/

/-- Main waits for bytes in a recording: indications are off, and the alarm is more than so many
    milliseconds ahead. -/
structure Waits (b : Board) (ms : Nat) : Prop where
  pc : b.pc = .test
  connected : b.connected = true
  up : b.link.up = true
  updates : b.link.updates = false
  recordmode : b.recordmode = true
  ahead : b.now + ms < b.globals.alarmmil
  clock : b.globals.alarmmil < wordSize

/-- Nothing happens but that bytes are stored and taken. -/
def Calm (ev : List Event) : Prop := ∀ e ∈ ev, e.down = none ∧ e.isAlarm = false

theorem Calm.append {ev evs : List Event} (h : Calm ev) (h' : Calm evs) : Calm (ev ++ evs) := by
  intro e he
  rcases List.mem_append.mp he with he | he
  · exact h e he
  · exact h' e he

/-- **A message written in one piece** waits in the receive buffer. -/
theorem exec_write {ms : Nat} {m : List UInt8} (hw : Waits b ms) (he : b.uart.rx.contents = [])
    (hm : m.length ≤ 64) :
    ∃ u ev, firmware.exec b [.write m] = some ({ b with uart := u }, ev) ∧ u.rx.contents = m ∧
      arrivals ev = m.map .stored ∧ Calm ev := by
  have hr : (b.uart.onDataWritten m).2 = m.map .stored := by
    refine Uart.receive_room ?_
    rw [(CircularBuffer.size_eq_zero _).mpr he]
    omega
  refine ⟨(b.uart.onDataWritten m).1, (m.map .stored).map (Event.ofReceipt b.link.conn), ?_, ?_,
    ?_, ?_⟩
  · simp [Machine.exec, firmware, Board.step, Pc.halted, hw.pc, hw.up, hr]
  · rw [Uart.contents_onDataWritten, hr, Uart.kept_stored, he, List.nil_append]
  · rw [arrivals, filterMap_receipts, List.filterMap_map]
    induction m with
    | nil => rfl
    | cons x m _ => simp [Event.ofReceipt, Event.receipt]
  · intro e hm
    obtain ⟨x, rfl | rfl⟩ := mem_receipts hm <;> exact ⟨rfl, rfl⟩

/-- **A byte taken**: main stands before `line = line + charbuf`. -/
theorem exec_taken {ms : Nat} {x : UInt8} {xs : List UInt8} (hw : Waits b ms)
    (hx : b.uart.rx.contents = x :: xs) :
    firmware.exec b [.main, .main, .main, .main, .main] =
      some ({ b with uart := { b.uart with rx := b.uart.rx.pop }, pc := .append x },
        [.inner b.now, .polled b.now, .taken x]) ∧ b.uart.rx.pop.contents = xs := by
  have hsize : b.uart.rx.size ≠ 0 := by
    rw [Ne, CircularBuffer.size_eq_zero, hx]
    exact List.cons_ne_nil _ _
  have hq := CircularBuffer.contents_pop hsize
  rw [hx] at hq
  obtain ⟨hfront, hpop⟩ := List.cons.inj hq
  have hpoll : ¬ b.globals.alarmmil ≤ systemTime b.now := by
    have h1 := hw.ahead
    have h2 := hw.clock
    rw [systemTime, Nat.mod_eq_of_lt (by omega)]
    omega
  have hup : b.link.updatesEnabled = false := by
    rw [Link.updatesEnabled, hw.updates, Bool.and_false]
  refine ⟨?_, hpop.symm⟩
  simp [Machine.exec, firmware, Board.step, Board.mainStep, Pc.halted, hw.pc, hw.connected,
    hpoll, hup, Uart.rxBufferedSize, Uart.getc, hsize, ← hfront]

/-- **A turn of the inner loop**: main's line grows by a byte. -/
theorem exec_byteTurn {ms : Nat} {x : UInt8} {xs : List UInt8} (h10 : x ≠ 10) (h0 : x ≠ 0)
    (hw : Waits b (ms + 6)) (hx : b.uart.rx.contents = x :: xs)
    (hfit : b.line.data.length < maxLength) :
    ∃ b' ev, firmware.exec b byteTurn = some (b', ev) ∧ arrivals ev = [] ∧ Calm ev ∧
      Waits b' ms ∧ b'.uart.rx.contents = xs ∧ b'.line.data = b.line.data ++ [x] ∧
      b'.globals = b.globals ∧ b'.now = b.now + 6 := by
  obtain ⟨htake, hpop⟩ := exec_taken hw hx
  have hdata : (ManagedString.ofChar x).data = [x] := by
    rw [ManagedString.data_ofChar, if_neg h0]
  obtain ⟨line, hcat, hline⟩ := @ManagedString.concat_of_fits b.line (.ofChar x)
    (by rw [hdata]; exact hfit)
  have hwake : (b.now + 1) % wordSize ≤ b.now + 6 := by
    have := Nat.mod_le (b.now + 1) wordSize
    omega
  have hgrow : firmware.exec
      { b with uart := { b.uart with rx := b.uart.rx.pop }, pc := .append x } [.main, tick, .main] =
      some ({ b with uart := { b.uart with rx := b.uart.rx.pop }, now := b.now + 6, line := line,
                     pc := .test }, []) := by
    simp [Machine.exec, firmware, Board.step, Board.mainStep, Board.appendChar, Pc.halted, hcat,
      h10, Board.wakeMark, hwake, tick]
  have hahead := hw.ahead
  refine ⟨_, _, Machine.exec_append htake hgrow, rfl, ?_, ⟨rfl, hw.connected, hw.up, hw.updates,
    hw.recordmode, ?_, hw.clock⟩, hpop, ?_, rfl, rfl⟩
  · simp [Calm, Event.down, Event.isAlarm]
  · show b.now + 6 + ms < b.globals.alarmmil
    omega
  · rw [← hdata]
    exact hline

/-- Main's line grows by bytes that end no line, by induction on them. -/
theorem exec_line {ms : Nat} {xs ys : List UInt8} (hxs : ∀ x ∈ xs, x ≠ 10 ∧ x ≠ 0)
    (hw : Waits b (ms + 6 * xs.length)) (hx : b.uart.rx.contents = xs ++ ys)
    (hfit : b.line.data.length + xs.length ≤ maxLength) :
    ∃ as b' ev, firmware.exec b as = some (b', ev) ∧ arrivals ev = [] ∧ Calm ev ∧ Waits b' ms ∧
      b'.uart.rx.contents = ys ∧ b'.line.data = b.line.data ++ xs ∧ b'.globals = b.globals := by
  induction xs generalizing b with
  | nil => exact ⟨[], b, [], rfl, rfl, List.forall_mem_nil _, hw, hx, by simp, rfl⟩
  | cons x xs ih =>
      obtain ⟨h10, h0⟩ := hxs x List.mem_cons_self
      rw [List.length_cons] at hfit
      have hw' : Waits b (ms + 6 * xs.length + 6) := by
        rw [List.length_cons] at hw
        exact hw
      obtain ⟨b₁, ev₁, he₁, ha₁, hc₁, hw₁, hx₁, hl₁, hg₁, _⟩ :=
        exec_byteTurn h10 h0 hw' hx (by omega)
      have hlen : b₁.line.data.length = b.line.data.length + 1 := by rw [hl₁]; simp
      obtain ⟨as, b', ev, he, ha, hc, hw₂, hx₂, hl₂, hg₂⟩ :=
        ih (fun y hy => hxs y (List.mem_cons_of_mem x hy)) hw₁ hx₁ (by omega)
      refine ⟨_, b', _, Machine.exec_append he₁ he, ?_, hc₁.append hc, hw₂, hx₂, ?_, hg₂.trans hg₁⟩
      · rw [arrivals_append, ha₁, ha]
        rfl
      · rw [hl₂, hl₁]
        simp

/-- The line of a click on Servo1 at 90. -/
def servoLine : List UInt8 := [115, 57, 48, 10]

/-- **A command on its way into the script**: the client has written it and main has it in its
    hand but for the newline, and stands before the `malloc` for the script with the line. -/
theorem exec_command {ms : Nat} (hw : Waits b (ms + 18)) (he : b.uart.rx.contents = [])
    (hl : b.line.data = []) :
    ∃ as b' ev, firmware.exec b as = some (b', ev) ∧ arrivals ev = servoLine.map .stored ∧
      Calm ev ∧ b'.pc = .append 10 ∧ b'.uart.rx.contents = [] ∧
      b'.line.data = [115, 57, 48] ∧ b'.globals = b.globals ∧
      Waits { b' with pc := .test } ms := by
  obtain ⟨u, ev₁, he₁, hu, ha₁, hc₁⟩ := @exec_write b _ servoLine hw he (by decide)
  have hw₁ : Waits { b with uart := u } (ms + 6 * [115, 57, 48].length) :=
    ⟨hw.pc, hw.connected, hw.up, hw.updates, hw.recordmode, hw.ahead, hw.clock⟩
  obtain ⟨as, b₂, ev₂, he₂, ha₂, hc₂, hw₂, hx₂, hl₂, hg₂⟩ :=
    @exec_line _ ms [115, 57, 48] [10] (by decide +kernel) hw₁ hu (by
      show b.line.data.length + 3 ≤ maxLength
      rw [hl]
      decide)
  obtain ⟨he₃, hp₃⟩ := exec_taken hw₂ hx₂
  refine ⟨_, _, _, Machine.exec_append (Machine.exec_append he₁ he₂) he₃, ?_, ?_, rfl, hp₃, ?_,
    hg₂, ⟨rfl, hw₂.connected, hw₂.up, hw₂.updates, hw₂.recordmode, hw₂.ahead, hw₂.clock⟩⟩
  · rw [arrivals_append, arrivals_append, ha₁, ha₂, List.append_nil]
    exact List.append_nil _
  · refine (hc₁.append hc₂).append ?_
    simp [Calm, Event.down, Event.isAlarm]
  · exact hl₂.trans (by rw [hl]; rfl)

/-- **A command recorded**, if the script fits: main is back at `while(connected)`. -/
theorem exec_recorded {ms : Nat} (hw : Waits b (ms + 24)) (he : b.uart.rx.contents = [])
    (hl : b.line.data = []) (hfit : b.globals.recscr.data.length + 4 ≤ maxLength) :
    ∃ as b' ev, firmware.exec b as = some (b', ev) ∧ arrivals ev = servoLine.map .stored ∧
      Calm ev ∧ Waits b' ms ∧ b'.uart.rx.contents = [] ∧ b'.line.data = [] ∧
      b'.globals.recscr.data = b.globals.recscr.data ++ servoLine := by
  obtain ⟨as, b₁, ev, he₁, ha, hc, hp, hx, hl₁, hg, hw₁⟩ := @exec_command b (ms + 6) hw he hl
  have hten : (ManagedString.ofChar 10).data = [10] := by rw [ManagedString.data_ofChar]; decide
  -- the line is complete, and goes behind the script
  obtain ⟨line, hcat, hline⟩ := @ManagedString.concat_of_fits b₁.line (.ofChar 10)
    (by rw [hl₁, hten]; decide)
  have hline : line.data = servoLine := by
    rw [hline, hl₁, hten]
    rfl
  obtain ⟨script, hscr, hdata⟩ := @ManagedString.concat_of_fits b₁.globals.recscr line
    (by rw [hg, hline]; exact hfit)
  have hproc : processline b₁.globals b₁.now line b₁.recordmode =
      some ⟨{ b₁.globals with recscr := script }, true, []⟩ := by
    have hcontrol : isControl line.data = false := by rw [hline]; rfl
    rw [show b₁.recordmode = true from hw₁.recordmode, processline_record hcontrol, hscr]
    rfl
  have hwake : (b₁.now + 1) % wordSize ≤ b₁.now + 6 := by
    have := Nat.mod_le (b₁.now + 1) wordSize
    omega
  have hturn : firmware.exec b₁ (.main :: outerTurn) =
      some ({ b₁ with globals := { b₁.globals with recscr := script }, recordmode := true,
                      now := b₁.now + 6, line := .empty, pc := .test },
        [.line b₁.now line b₁.recordmode [], .outer b₁.now]) := by
    simp [outerTurn, Machine.exec, firmware, Board.step, Board.mainStep, Board.appendChar,
      Board.leave, Pc.halted, hp, hcat, hproc, sleepOf, Board.wakeMark, hwake, tick]
  have hahead := hw₁.ahead
  refine ⟨_, _, _, Machine.exec_append he₁ hturn, ?_, hc.append ?_, ⟨rfl, hw₁.connected, hw₁.up,
    hw₁.updates, rfl, ?_, hw₁.clock⟩, hx, rfl, ?_⟩
  · rw [arrivals_append, ha]
    exact List.append_nil _
  · simp [Calm, Event.down, Event.isAlarm]
  · show b₁.now + 6 + ms < b₁.globals.alarmmil
    have : b₁.now + (ms + 6) < b₁.globals.alarmmil := hahead
    omega
  · show script.data = _
    rw [hdata, hg, hline]

/-- So many commands recorded, by induction on them. -/
theorem exec_recording {ms n : Nat} (hw : Waits b (ms + 24 * n)) (he : b.uart.rx.contents = [])
    (hl : b.line.data = []) (hfit : b.globals.recscr.data.length + 4 * n ≤ maxLength) :
    ∃ as b' ev, firmware.exec b as = some (b', ev) ∧
      arrivals ev = (List.replicate n servoLine).flatten.map .stored ∧ Calm ev ∧ Waits b' ms ∧
      b'.uart.rx.contents = [] ∧ b'.line.data = [] ∧
      b'.globals.recscr.data = b.globals.recscr.data ++ (List.replicate n servoLine).flatten := by
  induction n generalizing b with
  | zero => exact ⟨[], b, [], rfl, rfl, List.forall_mem_nil _, hw, he, hl, (List.append_nil _).symm⟩
  | succ n ih =>
      have hw' : Waits b (ms + 24 * n + 24) := by
        rw [Nat.mul_succ] at hw
        exact hw
      obtain ⟨as₁, b₁, ev₁, he₁, ha₁, hc₁, hw₁, hx₁, hl₁, hs₁⟩ := exec_recorded hw' he hl (by omega)
      obtain ⟨as₂, b₂, ev₂, he₂, ha₂, hc₂, hw₂, hx₂, hl₂, hs₂⟩ := ih hw₁ hx₁ hl₁ (by
        rw [hs₁, List.length_append, show servoLine.length = 4 from rfl]
        omega)
      refine ⟨_, b₂, _, Machine.exec_append he₁ he₂, ?_, hc₁.append hc₂, hw₂, hx₂, hl₂, ?_⟩
      · rw [arrivals_append, ha₁, ha₂, List.replicate_succ, List.flatten_cons, List.map_append]
      · rw [hs₂, hs₁, List.replicate_succ, List.flatten_cons, List.append_assoc]

/-- Record on at "999999999", and so many clicks on Servo1 at 90, each sent at once. -/
def recording (n : Nat) : List UiAction :=
  .record true ⟨List.replicate 9 57, by decide +kernel⟩ :: .send ::
    (List.replicate n [.servo1 90, .send]).flatten

/-- The 'a' line of the Record switch. -/
def recordLine : List UInt8 := [97, 57, 57, 57, 57, 57, 57, 57, 57, 57, 10]

theorem messages_recording (n : Nat) :
    messages (recording n) = recordLine :: List.replicate n servoLine := by
  have hq : ([.servo1 90, .send] : List UiAction).flatMap queued = [servoLine] := by decide +kernel
  have hr : messages (List.replicate n [.servo1 90, .send]).flatten =
      List.replicate n servoLine := by
    induction n with
    | zero => rfl
    | succ n ih =>
        rw [List.replicate_succ, List.flatten_cons, messages, List.flatMap_append, hq, ← messages,
          ih]
        rfl
  have hcons : messages (recording n) =
      recordLine :: messages (List.replicate n [UiAction.servo1 90, .send]).flatten := rfl
  rw [hcons, hr]

theorem script_recording (n : Nat) :
    (intent (recording n)).script = List.replicate n (.servo1 90) := by
  have h : ∀ i : Intent, i.recording = true →
      ((List.replicate n [UiAction.servo1 90, .send]).flatten.foldl Intent.read i).script =
        i.script ++ List.replicate n (.servo1 90) := by
    induction n with
    | zero => exact fun i _ => (List.append_nil _).symm
    | succ n ih =>
        intro i hi
        rw [List.replicate_succ, List.flatten_cons, List.foldl_append]
        refine (ih _ ?_).trans ?_
        · simp [Intent.read, Intent.command, hi]
        · simp [Intent.read, Intent.command, hi, List.replicate_succ]
  exact h _ rfl

/-- **A recording exhausts the heap**: on whatever line the `malloc` for the script fails, the
    board has received all lines up to it whole, in order and in one connection, no alarm has gone
    off, and the board has panicked with a script that lacks the line. -/
theorem recording_exhausts (n : Nat) (hn : 4 * n ≤ maxLength) :
    ∃ b tr, firmware.Run b tr ∧ Received (recording (n + 1)) tr ∧
      (∀ e ∈ tr, e.isAlarm = false) ∧ b.pc = .outOfMemory (.append 10) ∧
      b.globals.recscr.data = (List.replicate n servoLine).flatten := by
  have hmax : maxLength = 16371 := rfl
  let P : Board → List Event → Prop := fun b tr =>
    (b.pc = .test ∧ b.connected = true ∧ b.link.up = true ∧ b.link.updates = false ∧
      b.recordmode = true ∧ b.now = 72 ∧ b.globals.alarmmil = 1000000065 ∧
      b.uart.rx.contents = [] ∧ b.line.data = [] ∧ b.globals.recscr.data = []) ∧
      arrivals tr = recordLine.map .stored ∧ ∀ e ∈ tr, e.down = none ∧ e.isAlarm = false
  obtain ⟨b₀, tr₀, hr₀, ⟨hp, hc, hu, hup, hrm, ht, hd, hx, hl, hs⟩, harr, hcalm⟩ :=
    Machine.exists_run_of_exec firmware P (boot ++ lineTurns recordLine ++ outerTurn)
      (by decide +kernel)
  have hw₀ : Waits b₀ (18 + 24 * n) := by
    refine ⟨hp, hc, hu, hup, hrm, ?_, ?_⟩
    · rw [ht, hd]
      omega
    · rw [hd]
      decide
  -- the commands that are recorded
  obtain ⟨as₁, b₁, ev₁, he₁, ha₁, hc₁, hw₁, hx₁, hl₁, hs₁⟩ := exec_recording hw₀ hx hl (by
    rw [hs]
    simpa using hn)
  -- the one that is not
  obtain ⟨as₂, b₂, ev₂, he₂, ha₂, hc₂, hp₂, _, _, hg₂, _⟩ := @exec_command b₁ 0 hw₁ hx₁ hl₁
  have he₃ : firmware.exec b₂ [.outOfMemory] =
      some ({ b₂ with pc := .outOfMemory (.append 10) }, []) := by
    simp [Machine.exec, firmware, Board.step, Board.allocates, Pc.halted, hp₂]
  have hrun := ((hr₀.exec he₁).exec he₂).exec he₃
  rw [List.append_nil] at hrun
  have hquiet : Calm (tr₀ ++ ev₁ ++ ev₂) := (Calm.append hcalm hc₁).append hc₂
  have hall : arrivals (tr₀ ++ ev₁ ++ ev₂) =
      (messages (recording (n + 1))).flatten.map .stored := by
    rw [arrivals_append, arrivals_append, harr, ha₁, ha₂, messages_recording, List.flatten_cons,
      List.replicate_succ', List.flatten_append, List.map_append, List.map_append]
    simp
  refine ⟨_, _, hrun, received_of_stored hall ?_, fun e he => (hquiet e he).2, rfl, ?_⟩
  · exact List.filterMap_eq_nil_iff.mpr fun e he => (hquiet e he).1
  · show b₂.globals.recscr.data = _
    rw [hg₂, hs₁, hs]
    rfl

/-- **A recording of 766 commands panics**, at its last line at the latest: the script without the
    line and the script with it are on the heap at once, in blocks of 3072 and 3076 bytes, and
    from the end of the SoftDevice's RAM to `MICROBIT_HEAP_END` there are 6144. -/
theorem long_recording_panics :
    ∃ b tr, firmware.Run b tr ∧ Received (recording 766) tr ∧ (∀ e ∈ tr, e.isAlarm = false) ∧
      b.pc.halted = true ∧
      b.globals.recscr.data ≠ ((intent (recording 766)).script.flatMap queued).flatten := by
  obtain ⟨b, tr, hr, hrec, hno, hp, hs⟩ := recording_exhausts 765 (by decide)
  refine ⟨b, tr, hr, hrec, hno, by rw [hp]; rfl, fun h => ?_⟩
  have hq : queued (.servo1 90) = [servoLine] := by decide +kernel
  rw [hs, script_recording, List.flatMap_replicate, hq, List.flatten_replicate_singleton] at h
  have hlen := congrArg List.length h
  simp only [List.length_flatten, List.map_replicate, List.sum_replicate_nat] at hlen
  exact absurd hlen (by decide)

end MicrobitAlarm
