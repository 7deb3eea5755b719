/-
  File:      MicrobitAlarm/Firmware/Steps.lean
  Subject:   WHAT A STEP OF THE BOARD CAN DO, said once.

  `Board.Step b b' ev` lists the steps by name, each with its guard, the state it leaves and what
  it reports; a step that only moves the main fiber on is one rule (`move`), whose cases are the
  relation `Board.Move`. `step_cases` says that nothing else happens, so every invariant is a case
  split over these rules. A write reports any number of events, all of one kind: what they leave
  alone is said once, too (`always_receipts`, `foldl_receipts`).
-/
import MicrobitAlarm.Firmware.Board

namespace MicrobitAlarm

namespace Board

/-! ## 1. The rules -/

/-- **The moves of the main fiber** that change nothing but where it stands. -/
inductive Move (b : Board) : Pc → Prop where
  | start (h : b.pc = .scroll) : Move b .outer
  | character {c : Nat} {line line' : ManagedString} (h : b.pc = .replay c line)
      (hc : c < b.globals.recscr.length)
      (hp : alarmPass b.globals b.now c line = some (.char line')) : Move b (.replay (c + 1) line')
  | lineOver {wake c : Nat} (h : b.pc = .replayLine wake c) (hw : wake ≤ b.now) :
      Move b (.replaySleep (b.wakeMark 1) c)
  | replayOn {wake c : Nat} (h : b.pc = .replaySleep wake c) (hw : wake ≤ b.now) :
      Move b (.replay c .empty)
  | bytes (h : b.pc = .receive) (hs : b.uart.rx.size ≠ 0) : Move b .getc
  | noBytes (h : b.pc = .receive) (hs : b.uart.rx.size = 0) : Move b (.innerSleep (b.wakeMark 1))
  | unsent {gotc : UInt8} (h : b.pc = .send gotc)
      (hs : ¬ (b.sendOn gotc 0 = true ∧ b.link.updatesEnabled = true)) : Move b (.append gotc)
  | sent {gotc : UInt8} {n : Nat} (h : b.pc = .blocked gotc n) (hw : b.waiting = false)
      (hs : b.sendOn gotc n = false) : Move b (.append gotc)
  | innerOn {wake : Nat} (h : b.pc = .innerSleep wake) (hw : wake ≤ b.now) : Move b .test
  | replayPanic {c : Nat} {line : ManagedString} (h : b.pc = .replay c line)
      (hc : c < b.globals.recscr.length) (hp : alarmPass b.globals b.now c line = none) :
      Move b .panicked
  | appendPanic {gotc : UInt8} (h : b.pc = .append gotc)
      (hl : b.line.concat (.ofChar gotc) = none) : Move b .panicked
  | noMemory (ha : b.allocates = true) : Move b (.outOfMemory b.pc)

/-- Where `send` fills the transmit buffer: at its first pass, or again behind a wait. -/
def Filling (b : Board) (gotc : UInt8) (n : Nat) : Prop :=
  (b.pc = .send gotc ∧ n = 0 ∧ b.link.updatesEnabled = true) ∨
    (b.pc = .blocked gotc n ∧ b.waiting = false)

/-- **The steps of the board**: the state left and the events reported. -/
inductive Step (b : Board) : Board → List Event → Prop where
  | move {pc : Pc} (h : b.Move pc) : Step b { b with pc := pc } []
  | elapse (ms : Nat) : Step b { b with now := b.now + ms } []
  | write (data : List UInt8) (hu : b.link.up = true) :
      Step b { b with uart := (b.uart.onDataWritten data).1 }
        ((b.uart.onDataWritten data).2.map (Event.ofReceipt b.link.conn))
  | connect (queued : Bool) (hu : b.link.up = false) :
      Step b { b with link := { b.link with conn := b.link.conn + 1, up := true },
                      handlers := if queued then b.handlers ++ [true] else b.handlers }
        [.linkUp (b.link.conn + 1)]
  | disconnect (queued : Bool) (hu : b.link.up = true) :
      Step b { b with link := { b.link with up := false, updates := false },
                      handlers := if queued then b.handlers ++ [false] else b.handlers }
        [.linkDown b.link.conn]
  | enableUpdates (on : Bool) (hu : b.link.up = true) :
      Step b { b with link := { b.link with updates := on } } []
  | confirm (ha : b.link.awaits = true) :
      Step b { b with link := { b.link with indication := none },
                      uart := b.uart.onConfirmation, waiting := false } [.confirmed]
  | handler {i : Nat} {v : Bool} (hd : b.pc.descheduled = true) (hv : b.handlers[i]? = some v) :
      Step b { b with connected := v, handlers := b.handlers.eraseIdx i } [.handled v]
  | accepted {gotc : UInt8} {n : Nat} (h : b.pc = .indicate gotc n)
      (hu : b.link.updatesEnabled = true) (hi : b.link.indication ≠ some b.link.conn) :
      Step b { b with link := { b.link with indication := some b.link.conn },
                      pc := .blocked gotc n } [.indicated .none]
  | refused {gotc : UInt8} {n : Nat} {answer : HvxError} (h : b.pc = .indicate gotc n)
      (ha : answer ≠ .none) : Step b { b with pc := .blocked gotc n } [.indicated answer]
  | outer (h : b.pc = .outer) :
      Step b { b with pc := .outerSleep (b.wakeMark 1) } [.outer b.now]
  | declare {wake : Nat} (h : b.pc = .outerSleep wake) (hw : wake ≤ b.now) :
      Step b { b with line := .empty, pc := .test } []
  | inner (h : b.pc = .test) (hc : b.connected = true) :
      Step b { b with pc := .poll } [.inner b.now]
  | leave (h : b.pc = .test) (hc : b.connected = false) : Step b b.leave [.discarded b.line]
  | alarm (h : b.pc = .poll) (hd : b.globals.alarmmil ≤ systemTime b.now) :
      Step b { b with globals := { b.globals with alarmmil := disarmed }, pc := .replay 0 .empty }
        [.alarm b.now b.recordmode b.globals.recscr]
  | noAlarm (h : b.pc = .poll) (hd : ¬ b.globals.alarmmil ≤ systemTime b.now) :
      Step b { b with pc := .receive } [.polled b.now]
  | replayed {c : Nat} {line line' : ManagedString} {out : Outcome} (h : b.pc = .replay c line)
      (hc : c < b.globals.recscr.length)
      (hp : alarmPass b.globals b.now c line = some (.call line' out)) :
      Step b { b with globals := out.globals, pc := b.afterCall out.actions (c + 1) }
        [.replayed line' out.actions]
  | returned {c : Nat} {line : ManagedString} (h : b.pc = .replay c line)
      (hc : ¬ c < b.globals.recscr.length) : Step b { b with pc := .receive } [.returned]
  | taken (h : b.pc = .getc) (hs : b.uart.rx.size ≠ 0) :
      Step b { b with uart := { b.uart with rx := b.uart.rx.pop }, pc := .send b.uart.rx.front }
        [.taken b.uart.rx.front]
  | fill {gotc : UInt8} {n : Nat} (h : b.Filling gotc n) (hs : b.sendOn gotc n = true) :
      Step b (b.fill gotc n) []
  | grown {gotc : UInt8} {line : ManagedString} (h : b.pc = .append gotc)
      (hl : b.line.concat (.ofChar gotc) = some line) (hn : gotc ≠ 10) :
      Step b { b with line := line, pc := .innerSleep (b.wakeMark 1) } []
  | linePanic {line : ManagedString} (h : b.pc = .append 10)
      (hl : b.line.concat (.ofChar 10) = some line)
      (hp : processline b.globals b.now line b.recordmode = none) :
      Step b { b with line := line, pc := .panicked } [.line b.now line b.recordmode []]
  | lineSleeps {line : ManagedString} {out : Outcome} {ms : Nat} (h : b.pc = .append 10)
      (hl : b.line.concat (.ofChar 10) = some line)
      (hp : processline b.globals b.now line b.recordmode = some out)
      (hs : sleepOf out.actions = some ms) :
      Step b { b with line := line, globals := out.globals,
                      pc := .lineSleep (b.wakeMark ms) out.recordmode }
        [.line b.now line b.recordmode out.actions]
  | line {line : ManagedString} {out : Outcome} (h : b.pc = .append 10)
      (hl : b.line.concat (.ofChar 10) = some line)
      (hp : processline b.globals b.now line b.recordmode = some out)
      (hs : sleepOf out.actions = none) :
      Step b { b.leave with globals := out.globals, recordmode := out.recordmode }
        [.line b.now line b.recordmode out.actions]
  | lineWoken {wake : Nat} {recordmode : Bool} (h : b.pc = .lineSleep wake recordmode)
      (hw : wake ≤ b.now) : Step b { b.leave with recordmode := recordmode } []

variable {b b' : Board} {ev : List Event}

/-- Where main makes a string. -/
theorem allocates_cases (h : b.allocates = true) :
    (∃ gotc, b.pc = .send gotc) ∨ (∃ gotc, b.pc = .append gotc) ∨
      ∃ c line, b.pc = .replay c line := by
  unfold allocates at h
  split at h
  case h_1 gotc hp => exact .inl ⟨gotc, hp⟩
  case h_2 gotc hp => exact .inr (.inl ⟨gotc, hp⟩)
  case h_3 c line hp => exact .inr (.inr ⟨c, line, hp⟩)
  case h_4 => cases h

/-! ## 2. Nothing else happens -/

theorem appendChar_cases {gotc : UInt8} (h : b.pc = .append gotc)
    (hs : b.appendChar gotc = (b', ev)) : b.Step b' ev := by
  rw [show b' = (b.appendChar gotc).1 by rw [hs], show ev = (b.appendChar gotc).2 by rw [hs]]
  unfold appendChar
  cases hl : b.line.concat (.ofChar gotc) with
  | none => exact .move (.appendPanic h hl)
  | some line =>
      by_cases hn : gotc = 10
      · subst hn
        simp only [if_true]
        cases hp : processline b.globals b.now line b.recordmode with
        | none => exact .linePanic h hl hp
        | some out =>
            cases hs : sleepOf out.actions with
            | none => simp only [hs]; exact .line h hl hp hs
            | some ms => simp only [hs]; exact .lineSleeps h hl hp hs
      · simp only [if_neg hn]
        exact .grown h hl hn

theorem replayPass_cases {c : Nat} {line : ManagedString} (h : b.pc = .replay c line)
    (hc : c < b.globals.recscr.length) (hs : b.replayPass c line = (b', ev)) : b.Step b' ev := by
  rw [show b' = (b.replayPass c line).1 by rw [hs], show ev = (b.replayPass c line).2 by rw [hs]]
  unfold replayPass
  cases hp : alarmPass b.globals b.now c line with
  | none => exact .move (.replayPanic h hc hp)
  | some p =>
      cases p with
      | char line' => exact .move (.character h hc hp)
      | call line' out => exact .replayed h hc hp

/-- A step of the main fiber. -/
theorem mainStep_cases (hs : b.mainStep = some (b', ev)) : b.Step b' ev := by
  unfold mainStep at hs
  split at hs
  case h_1 h => cases hs; exact .move (.start h)
  case h_2 h => cases hs; exact .outer h
  case h_3 wake h =>
      split at hs
      · cases hs; exact .declare h ‹_›
      · cases hs
  case h_4 h =>
      split at hs
      · cases hs; exact .inner h ‹_›
      · cases hs; exact .leave h (by simpa using ‹¬ b.connected = true›)
  case h_5 h =>
      split at hs
      · cases hs; exact .alarm h ‹_›
      · cases hs; exact .noAlarm h ‹_›
  case h_6 c line h =>
      split at hs
      · exact replayPass_cases h ‹_› (Option.some.inj hs)
      · cases hs; exact .returned h ‹_›
  case h_7 wake c h =>
      split at hs
      · cases hs; exact .move (.lineOver h ‹_›)
      · cases hs
  case h_8 wake c h =>
      split at hs
      · cases hs; exact .move (.replayOn h ‹_›)
      · cases hs
  case h_9 h =>
      split at hs
      · cases hs; exact .move (.bytes h ‹_›)
      · rename_i hz
        cases hs
        exact .move (.noBytes h (by simpa [Uart.rxBufferedSize] using hz))
  case h_10 h =>
      split at hs
      · cases hs; exact .taken h ‹_›
      · cases hs
  case h_11 gotc h =>
      split at hs
      · rename_i hc
        cases hs
        exact .fill (.inl ⟨h, rfl, hc.2⟩) hc.1
      · cases hs; exact .move (.unsent h ‹_›)
  case h_12 => cases hs
  case h_13 gotc n h =>
      split at hs
      · cases hs
      · rename_i hw
        have hw' : b.waiting = false := by simpa using hw
        split at hs
        · cases hs; exact .fill (.inr ⟨h, hw'⟩) ‹_›
        · rename_i hc
          cases hs
          exact .move (.sent h hw' (by simpa using hc))
  case h_14 gotc h => exact appendChar_cases h (Option.some.inj hs)
  case h_15 wake rm h =>
      split at hs
      · cases hs; exact .lineWoken h ‹_›
      · cases hs
  case h_16 wake h =>
      split at hs
      · cases hs; exact .move (.innerOn h ‹_›)
      · cases hs
  case h_17 => cases hs
  case h_18 => cases hs

/-- The answer to an indication. -/
theorem hvxStep_cases {answer : HvxError} (hs : b.hvxStep answer = some (b', ev)) :
    b.Step b' ev := by
  unfold hvxStep at hs
  split at hs
  · rename_i gotc n h
    split at hs
    · rename_i ha
      split at hs
      · rename_i hc
        cases hs
        rw [ha]
        exact .accepted h hc.1 hc.2
      · cases hs
    · cases hs; exact .refused h ‹_›
  · cases hs

/-- **Every step is one of the rules**, and there is none behind a panic. -/
theorem step_cases {a : Act} (hs : b.step a = some (b', ev)) :
    b.pc.halted = false ∧ b.Step b' ev := by
  unfold step at hs
  split at hs
  · cases hs
  · rename_i hp
    refine ⟨by simpa using hp, ?_⟩
    cases a with
    | main => exact mainStep_cases hs
    | hvx answer => exact hvxStep_cases hs
    | outOfMemory =>
        simp only at hs
        split at hs
        · cases hs; exact .move (.noMemory ‹_›)
        · cases hs
    | elapse ms => cases hs; exact .elapse ms
    | write data =>
        simp only at hs
        split at hs
        · cases hs; exact .write data ‹_›
        · cases hs
    | connect queued =>
        simp only at hs
        split at hs
        · cases hs
        · cases hs; exact .connect queued (by simpa using ‹¬ b.link.up = true›)
    | disconnect queued =>
        simp only at hs
        split at hs
        · cases hs; exact .disconnect queued ‹_›
        · cases hs
    | enableUpdates on =>
        simp only at hs
        split at hs
        · cases hs; exact .enableUpdates on ‹_›
        · cases hs
    | confirm =>
        simp only at hs
        split at hs
        · cases hs; exact .confirm ‹_›
        · cases hs
    | handler i =>
        simp only at hs
        split at hs
        · split at hs
          · cases hs; exact .handler ‹_› ‹_›
          · cases hs
        · cases hs

end Board

/-! ## 3. What a write reports -/

section Receipts

variable {conn : Nat}

theorem mem_receipts {e : Event} {rs : List Receipt} (h : e ∈ rs.map (Event.ofReceipt conn)) :
    ∃ x, e = .stored conn x ∨ e = .dropped conn x := by
  obtain ⟨r, _, rfl⟩ := List.mem_map.mp h
  cases r with
  | stored x => exact ⟨x, .inl rfl⟩
  | dropped x => exact ⟨x, .inr rfl⟩

/-- What holds of any byte stored or dropped holds of a write. -/
theorem always_receipts {P : List Event → Event → Prop} (hs : ∀ pre x, P pre (.stored conn x))
    (hd : ∀ pre x, P pre (.dropped conn x)) (rs : List Receipt) :
    Trace.Always P (rs.map (Event.ofReceipt conn)) := by
  refine Trace.always_of_mem fun e he pre => ?_
  obtain ⟨x, rfl | rfl⟩ := mem_receipts he
  · exact hs pre x
  · exact hd pre x

/-- A fold that passes over the bytes of a write. -/
theorem foldl_receipts {σ : Type} {f : σ → Event → σ} (hs : ∀ s x, f s (.stored conn x) = s)
    (hd : ∀ s x, f s (.dropped conn x) = s) (s : σ) (rs : List Receipt) :
    (rs.map (Event.ofReceipt conn)).foldl f s = s := by
  induction rs with
  | nil => rfl
  | cons r rs ih =>
      rw [List.map_cons, List.foldl_cons]
      cases r with
      | stored x => rw [Event.ofReceipt, hs, ih]
      | dropped x => rw [Event.ofReceipt, hd, ih]

theorem filterMap_receipts {β : Type} (g : Event → Option β) (rs : List Receipt) :
    (rs.map (Event.ofReceipt conn)).filterMap g =
      rs.filterMap fun r => g (Event.ofReceipt conn r) :=
  List.filterMap_map

end Receipts

/-! ## 4. Runs -/

/-- **The induction over runs of the firmware**: one case for each rule. -/
theorem firmware_inv {I : Board → List Event → Prop} (h0 : I Board.init [])
    (hstep : ∀ b tr b' ev, firmware.Run b tr → b.pc ≠ .panicked → I b tr → b.Step b' ev →
      I b' (tr ++ ev))
    {b : Board} {tr : List Event} (h : firmware.Run b tr) : I b tr := by
  refine h.inv h0 fun b tr _ b' ev hr hi hs => ?_
  obtain ⟨hh, hs⟩ := Board.step_cases hs
  exact hstep b tr b' ev hr (fun hp => by rw [hp] at hh; cases hh) hi hs

end MicrobitAlarm
