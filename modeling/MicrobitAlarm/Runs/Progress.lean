/-
  File:      MicrobitAlarm/Runs/Progress.lean
  Subject:   WHAT TIME AND THE MAIN FIBER ALONE BRING ABOUT.

  `Leads b P` says that time and steps of main take the board to a state with `P`, and that nothing
  else is needed on the way. What the outside has set (the link, `connected`, the handlers not yet
  finished) stays.

  No `malloc` fails on the way, for that is an action of its own: what main brings about here it
  brings about as long as there is memory.

  * `replay_returns` -- a replay under way returns;
  * `main_drains` -- while the client is connected and has not enabled indications, main takes
    every byte that waits, unless a string does not fit in the RAM.
-/
import MicrobitAlarm.Runs.Script
import MicrobitAlarm.Runs.Stream

namespace MicrobitAlarm

open Trace Framing

/-! ## 1. Quiet actions -/

/-- Time and steps of the main fiber. -/
def Act.isQuiet : Act → Bool
  | .main => true
  | .elapse _ => true
  | _ => false

/-- An event of the main fiber's own. -/
def Event.ofMain : Event → Bool
  | .outer _ => true
  | .inner _ => true
  | .polled _ => true
  | .alarm _ _ _ => true
  | .replayed _ _ => true
  | .returned => true
  | .taken _ => true
  | .line _ _ _ _ => true
  | .discarded _ => true
  | _ => false

/-- What only the outside changes. -/
def Board.surroundings (b : Board) : Link × Bool × List Bool := (b.link, b.connected, b.handlers)

/-- **Time and steps of the main fiber can lead there.** -/
def Leads (b : Board) (P : Board → List Event → Prop) : Prop :=
  ∃ as b' ev, (∀ a ∈ as, a.isQuiet = true) ∧ firmware.exec b as = some (b', ev) ∧
    b'.surroundings = b.surroundings ∧ (∀ e ∈ ev, e.ofMain = true) ∧ P b' ev

variable {b b' : Board} {tr ev : List Event} {P Q : Board → List Event → Prop}

theorem leads_here (h : P b []) : Leads b P :=
  ⟨[], b, [], List.forall_mem_nil _, rfl, rfl, List.forall_mem_nil _, h⟩

/-- A quiet action in front. -/
theorem leads_step (a : Act) (ha : a.isQuiet = true) (hs : b.step a = some (b', ev))
    (hsur : b'.surroundings = b.surroundings) (hev : ∀ e ∈ ev, e.ofMain = true)
    (h : Leads b' fun b'' evs => P b'' (ev ++ evs)) : Leads b P := by
  obtain ⟨as, b'', evs, hq, he, hsur', hev', hp⟩ := h
  refine ⟨a :: as, b'', ev ++ evs, fun x hx => ?_, ?_, hsur'.trans hsur, fun e hm => ?_, hp⟩
  · rcases List.mem_cons.mp hx with rfl | hx
    · exact ha
    · exact hq x hx
  · rw [Machine.exec_cons hs, he]
    rfl
  · rcases List.mem_append.mp hm with hm | hm
    · exact hev e hm
    · exact hev' e hm

theorem scriptInv_exec {as : List Act} (hsi : ScriptInv b)
    (he : firmware.exec b as = some (b', ev)) : ScriptInv b' := by
  induction as generalizing b ev with
  | nil =>
      cases he
      exact hsi
  | cons a as ih =>
      obtain ⟨b₁, ev₁, ev₂, hs, hq, rfl⟩ := Machine.exec_cons_eq_some he
      exact ih (scriptInv_step hsi (Board.step_cases hs).2) hq

/-- One after the other. -/
theorem Leads.trans (h : Leads b P)
    (hpq : ∀ b' ev, (ScriptInv b → ScriptInv b') → b'.surroundings = b.surroundings → P b' ev →
      Leads b' fun b'' evs => Q b'' (ev ++ evs)) : Leads b Q := by
  obtain ⟨as, b', ev, hq, he, hsur, hev, hp⟩ := h
  have hscript : ScriptInv b → ScriptInv b' := fun hsi => scriptInv_exec hsi he
  obtain ⟨bs, b'', evs, hq', he', hsur', hev', hp'⟩ := hpq b' ev hscript hsur hp
  refine ⟨as ++ bs, b'', ev ++ evs, fun x hx => ?_, Machine.exec_append he he', hsur'.trans hsur,
    fun e hm => ?_, hp'⟩
  · rcases List.mem_append.mp hx with hx | hx
    · exact hq x hx
    · exact hq' x hx
  · rcases List.mem_append.mp hm with hm | hm
    · exact hev e hm
    · exact hev' e hm

theorem Leads.mono (h : Leads b P) (hpq : ∀ b' ev, P b' ev → Q b' ev) : Leads b Q := by
  obtain ⟨as, b', ev, hq, he, hsur, hev, hp⟩ := h
  exact ⟨as, b', ev, hq, he, hsur, hev, hpq b' ev hp⟩

theorem step_main (h : b.pc.halted = false) : b.step .main = b.mainStep := by
  unfold Board.step
  rw [if_neg (by rw [h]; exact Bool.false_ne_true)]

/-- A silent step of main. -/
theorem leads_main (h : b.mainStep = some (b', [])) (hp : b.pc.halted = false)
    (hsur : b'.surroundings = b.surroundings) (hl : Leads b' P) : Leads b P :=
  leads_step .main rfl ((step_main hp).trans h) hsur (List.forall_mem_nil _) hl

/-- Time passes. -/
theorem leads_elapse (ms : Nat) (hp : b.pc.halted = false)
    (hl : Leads { b with now := b.now + ms } P) : Leads b P := by
  have hs : b.step (.elapse ms) = some ({ b with now := b.now + ms }, []) := by
    unfold Board.step
    rw [if_neg (by rw [hp]; exact Bool.false_ne_true)]
  exact leads_step (.elapse ms) rfl hs rfl (List.forall_mem_nil _) hl

/-! ## 2. A replay returns -/

/-- The replay has returned, and the service is as it was. -/
def Returned (u : Uart) (b : Board) (ev : List Event) : Prop :=
  b.pc = .receive ∧ b.uart = u ∧ ∃ calls, ev = calls ++ [.returned] ∧ .returned ∉ calls

/-- Events other than the return come before it. -/
theorem Returned.cons {u : Uart} {e : Event} (he : e ≠ .returned) (h : Returned u b ev) :
    Returned u b (e :: ev) := by
  obtain ⟨hp, hu, calls, rfl, hno⟩ := h
  refine ⟨hp, hu, e :: calls, rfl, fun hm => ?_⟩
  rcases List.mem_cons.mp hm with h | h
  · exact he h.symm
  · exact hno h

/-- A sleep of a replay ends. -/
theorem returns_of_sleep {wake c : Nat} (hp : b.pc = .replaySleep wake c)
    (h : ∀ b' : Board, b'.globals = b.globals → b'.uart = b.uart → b'.pc = .replay c .empty →
      Leads b' (Returned b.uart)) : Leads b (Returned b.uart) := by
  have hs : Board.mainStep { b with now := b.now + wake } =
      some ({ b with now := b.now + wake, pc := .replay c .empty }, []) := by
    simp [Board.mainStep, hp]
  exact leads_elapse wake (by rw [hp]; rfl) (leads_main hs (by rw [hp]; rfl) rfl (h _ rfl rfl rfl))

/-- A sleep of a replayed line ends. -/
theorem returns_of_lineSleep {wake c : Nat} (hp : b.pc = .replayLine wake c)
    (h : ∀ b' : Board, b'.globals = b.globals → b'.uart = b.uart → b'.pc = .replay c .empty →
      Leads b' (Returned b.uart)) : Leads b (Returned b.uart) := by
  have hs : Board.mainStep { b with now := b.now + wake } =
      some ({ b with now := b.now + wake,
                     pc := .replaySleep ((b.now + wake + 1) % wordSize) c }, []) := by
    simp [Board.mainStep, Board.wakeMark, hp]
  exact leads_elapse wake (by rw [hp]; rfl)
    (leads_main hs (by rw [hp]; rfl) rfl (returns_of_sleep rfl h))

/-- **A replay returns**, from the head of its loop: every character takes it one further, and
    behind the last one it is done. -/
theorem returns_of_replay {n c : Nat} {line : ManagedString} (hs : WellFormed b.globals.recscr.data)
    (hp : b.pc = .replay c line) (hr : rest newline (b.globals.recscr.data.take c) = line.data)
    (hn : b.globals.recscr.length - c = n) : Leads b (Returned b.uart) := by
  have hpk : b.pc.halted = false := by rw [hp]; rfl
  induction n generalizing b c line with
  | zero =>
      have hc : ¬ c < b.globals.recscr.length := by omega
      have h1 : b.step .main = some ({ b with pc := .receive }, [.returned]) := by
        rw [step_main hpk]
        simp only [Board.mainStep, hp, if_neg hc]
      exact leads_step .main rfl h1 rfl (by simp [Event.ofMain])
        (leads_here ⟨rfl, rfl, [], rfl, List.not_mem_nil⟩)
  | succ n ih =>
      have hc : c < b.globals.recscr.length := by omega
      have h1 : b.step .main = some (b.replayPass c line) := by
        rw [step_main hpk]
        simp only [Board.mainStep, hp, if_pos hc]
      unfold Board.replayPass at h1
      cases hpass : alarmPass b.globals b.now c line with
      | none => exact absurd hpass (alarmPass_ne_none hs hc hr)
      | some p =>
          rw [hpass] at h1
          cases p with
          | char line' =>
              have hrest := (rest_of_char hs hc hr hpass).2
              have hleft : b.globals.recscr.length - (c + 1) = n := by omega
              exact leads_step .main rfl h1 rfl (List.forall_mem_nil _)
                (ih hs rfl hrest hleft rfl)
          | call line' out =>
              obtain ⟨_, _, hg⟩ := alarmPass_live hs hc hr hpass
              have hrest := (rest_of_call hs hc hr hpass).2
              -- behind the sleeps the loop stands at the next character, with an empty line
              have hnext : ∀ b' : Board, b'.globals = out.globals → b'.uart = b.uart →
                  b'.pc = .replay (c + 1) .empty → Leads b' (Returned b.uart) := by
                intro b' hb' hu hp'
                have hscr : b'.globals.recscr = b.globals.recscr := by rw [hb', hg]
                rw [← hu]
                refine ih (hscr ▸ hs) hp' ?_ ?_ (by rw [hp']; rfl)
                · rw [hscr, hrest]
                  rfl
                · rw [hscr]
                  omega
              refine leads_step .main rfl h1 rfl (by simp [Event.ofMain]) ?_
              have hcons : ∀ b'' evs, Returned b.uart b'' evs →
                  Returned b.uart b'' (.replayed line' out.actions :: evs) :=
                fun _ _ h => h.cons (fun h => by cases h)
              refine Leads.mono ?_ hcons
              unfold Board.afterCall
              split
              · exact returns_of_lineSleep rfl hnext
              · exact returns_of_sleep rfl hnext

/-- **A replay under way returns**, on a board that has not run out of memory. -/
theorem replay_returns (hsi : ScriptInv b) (hp : b.pc.position.isSome = true)
    (hh : b.pc.halted = false) : Leads b (Returned b.uart) := by
  have hnext : ∀ c, b.pc.position = some (c, []) → ∀ b' : Board, b'.globals = b.globals →
      b'.uart = b.uart → b'.pc = .replay c .empty → Leads b' (Returned b.uart) := by
    intro c hpos b' hg hu hp'
    rw [← hu]
    refine returns_of_replay (hg ▸ hsi.script) hp' ?_ rfl
    rw [hg]
    exact (hsi.position (c, []) hpos).2
  cases hpc : b.pc with
  | replay c line =>
      exact returns_of_replay hsi.script hpc (hsi.position (c, line.data) (by rw [hpc]; rfl)).2 rfl
  | replayLine wake c =>
      exact returns_of_lineSleep hpc (hnext c (by rw [hpc]; rfl))
  | replaySleep wake c =>
      exact returns_of_sleep hpc (hnext c (by rw [hpc]; rfl))
  | outOfMemory pc => rw [hpc] at hh; cases hh
  | _ => rw [hpc] at hp; cases hp

/-! ## 3. Main drains the receive buffer -/

/-- Main stands at `if(uart->rxBufferedSize() != 0)`, and the service is as it was. -/
def AtReceive (u : Uart) (b : Board) (_ : List Event) : Prop := b.pc = .receive ∧ b.uart = u

theorem connected_of_surroundings (h : b'.surroundings = b.surroundings) :
    b'.connected = b.connected := (Prod.mk.inj (Prod.mk.inj h).2).1

theorem link_of_surroundings (h : b'.surroundings = b.surroundings) : b'.link = b.link :=
  (Prod.mk.inj h).1

/-- From the comparison of the deadline, through a replay if it is due. -/
theorem leads_poll (hw : WellFormed b.globals.recscr.data) (hp : b.pc = .poll) :
    Leads b (AtReceive b.uart) := by
  have hpk : b.pc.halted = false := by rw [hp]; rfl
  by_cases hd : b.globals.alarmmil ≤ systemTime b.now
  · have hs : b.step .main = some
        ({ b with globals := { b.globals with alarmmil := disarmed }, pc := .replay 0 .empty },
          [.alarm b.now b.recordmode b.globals.recscr]) := by
      rw [step_main hpk]
      simp only [Board.mainStep, hp, if_pos hd]
    refine leads_step .main rfl hs rfl (by simp [Event.ofMain]) ?_
    refine Leads.mono (P := Returned b.uart) ?_ fun _ _ h => ⟨h.1, h.2.1⟩
    exact returns_of_replay hw rfl rfl rfl
  · have hs : b.step .main = some ({ b with pc := .receive }, [.polled b.now]) := by
      rw [step_main hpk]
      simp only [Board.mainStep, hp, if_neg hd]
    exact leads_step .main rfl hs rfl (by simp [Event.ofMain]) (leads_here ⟨rfl, rfl⟩)

/-- From `while(connected)`. -/
theorem leads_test (hw : WellFormed b.globals.recscr.data) (hp : b.pc = .test)
    (hc : b.connected = true) : Leads b (AtReceive b.uart) := by
  have hs : b.step .main = some ({ b with pc := .poll }, [.inner b.now]) := by
    rw [step_main (by rw [hp]; rfl)]
    simp only [Board.mainStep, hp, if_pos hc]
  exact leads_step .main rfl hs rfl (by simp [Event.ofMain]) (leads_poll hw rfl)

/-- From the sleep of the inner loop. -/
theorem leads_innerSleep {wake : Nat} (hw : WellFormed b.globals.recscr.data)
    (hp : b.pc = .innerSleep wake) (hc : b.connected = true) : Leads b (AtReceive b.uart) := by
  have hs : Board.mainStep { b with now := b.now + wake } =
      some ({ b with now := b.now + wake, pc := .test }, []) := by
    simp [Board.mainStep, hp]
  exact leads_elapse wake (by rw [hp]; rfl)
    (leads_main hs (by rw [hp]; rfl) rfl (leads_test hw rfl hc))

/-- From the sleep of the outer loop. -/
theorem leads_outerSleep {wake : Nat} (hw : WellFormed b.globals.recscr.data)
    (hp : b.pc = .outerSleep wake) (hc : b.connected = true) : Leads b (AtReceive b.uart) := by
  have hs : Board.mainStep { b with now := b.now + wake } =
      some ({ b with now := b.now + wake, line := .empty, pc := .test }, []) := by
    simp [Board.mainStep, hp]
  exact leads_elapse wake (by rw [hp]; rfl)
    (leads_main hs (by rw [hp]; rfl) rfl (leads_test hw rfl hc))

/-- From the head of the outer loop. -/
theorem leads_outer (hw : WellFormed b.globals.recscr.data) (hp : b.pc = .outer)
    (hc : b.connected = true) : Leads b (AtReceive b.uart) := by
  have hs : b.step .main = some ({ b with pc := .outerSleep (b.wakeMark 1) }, [.outer b.now]) := by
    rw [step_main (by rw [hp]; rfl)]
    simp only [Board.mainStep, hp]
  exact leads_step .main rfl hs rfl (by simp [Event.ofMain]) (leads_outerSleep hw rfl hc)

/-- From the sleep of a line. -/
theorem leads_lineSleep {wake : Nat} {rm : Bool} (hw : WellFormed b.globals.recscr.data)
    (hp : b.pc = .lineSleep wake rm) (hc : b.connected = true) : Leads b (AtReceive b.uart) := by
  have hs : Board.mainStep { b with now := b.now + wake } =
      some ({ Board.leave { b with now := b.now + wake } with recordmode := rm }, []) := by
    simp [Board.mainStep, hp]
  exact leads_elapse wake (by rw [hp]; rfl)
    (leads_main hs (by rw [hp]; rfl) rfl (leads_outer hw rfl hc))

/-- **From a byte in main's hand**, through the line it may end, unless a string does not fit. -/
theorem leads_append {gotc : UInt8} (hsi : ScriptInv b) (hp : b.pc = .append gotc)
    (hc : b.connected = true) :
    Leads b fun b' ev => b'.pc = .panicked ∨ AtReceive b.uart b' ev := by
  have hpk : b.pc.halted = false := by rw [hp]; rfl
  have h1 : b.step .main = some (b.appendChar gotc) := by
    rw [step_main hpk]
    simp only [Board.mainStep, hp]
  have hsi' := scriptInv_step hsi (Board.step_cases h1).2
  unfold Board.appendChar at h1 hsi'
  cases hl : b.line.concat (.ofChar gotc) with
  | none =>
      rw [hl] at h1
      exact leads_step .main rfl h1 rfl (List.forall_mem_nil _) (leads_here (.inl rfl))
  | some line =>
      rw [hl] at h1 hsi'
      by_cases hn : gotc = 10
      · simp only [if_pos hn] at h1 hsi'
        cases hpl : processline b.globals b.now line b.recordmode with
        | none =>
            rw [hpl] at h1
            exact leads_step .main rfl h1 rfl (by simp [Event.ofMain]) (leads_here (.inl rfl))
        | some out =>
            rw [hpl] at h1 hsi'
            simp only at h1 hsi'
            cases hsl : sleepOf out.actions with
            | none =>
                rw [hsl] at h1 hsi'
                refine leads_step .main rfl h1 rfl (by simp [Event.ofMain]) ?_
                exact (leads_outer hsi'.script rfl hc).mono fun _ _ h => .inr h
            | some ms =>
                rw [hsl] at h1 hsi'
                refine leads_step .main rfl h1 rfl (by simp [Event.ofMain]) ?_
                exact (leads_lineSleep hsi'.script rfl hc).mono fun _ _ h => .inr h
      · simp only [if_neg hn] at h1 hsi'
        exact leads_step .main rfl h1 rfl (List.forall_mem_nil _)
          ((leads_innerSleep hsi'.script rfl hc).mono fun _ _ h => .inr h)

/-- From `uart->send(charbuf)`, with indications off. -/
theorem leads_send {gotc : UInt8} (hsi : ScriptInv b) (hp : b.pc = .send gotc)
    (hc : b.connected = true) (hu : b.link.updatesEnabled = false) :
    Leads b fun b' ev => b'.pc = .panicked ∨ AtReceive b.uart b' ev := by
  have hs : b.mainStep = some ({ b with pc := .append gotc }, []) := by
    simp only [Board.mainStep, hp, hu, Bool.false_eq_true, and_false, if_false]
  have hsi' := scriptInv_step hsi (Board.mainStep_cases hs)
  exact leads_main hs (by rw [hp]; rfl) rfl (leads_append hsi' rfl hc)

/-- **One byte taken.** -/
theorem leads_getc (hsi : ScriptInv b) (hp : b.pc = .getc) (hs : b.uart.rx.size ≠ 0)
    (hc : b.connected = true) (hu : b.link.updatesEnabled = false) :
    Leads b fun b' _ => b'.pc = .panicked ∨
      b'.pc = .receive ∧ b'.uart.rx.size + 1 = b.uart.rx.size := by
  have h1 : b.step .main = some
      ({ b with uart := { b.uart with rx := b.uart.rx.pop }, pc := .send b.uart.rx.front },
        [.taken b.uart.rx.front]) := by
    rw [step_main (by rw [hp]; rfl)]
    simp only [Board.mainStep, hp, Uart.rxBufferedSize, Uart.getc, ne_eq, hs, not_false_eq_true,
      if_true]
  have hsi' := scriptInv_step hsi (Board.step_cases h1).2
  refine leads_step .main rfl h1 rfl (by simp [Event.ofMain]) ?_
  refine (leads_send hsi' rfl hc hu).mono fun b' _ h => ?_
  rcases h with h | ⟨hp', hu'⟩
  · exact .inl h
  · refine .inr ⟨hp', ?_⟩
    rw [hu']
    exact CircularBuffer.size_pop hs

/-- Main has taken every byte, and it has not run out of memory. -/
def CaughtUp (b : Board) : Prop := Drained b ∧ b.pc.halted = false

/-- **From the test of the receive buffer main takes every byte**, by induction on their number. -/
theorem drains_of_receive {n : Nat} (hsi : ScriptInv b) (hp : b.pc = .receive)
    (hc : b.connected = true) (hu : b.link.updatesEnabled = false) (hn : b.uart.rx.size = n) :
    Leads b fun b' _ => b'.pc = .panicked ∨ CaughtUp b' := by
  induction n generalizing b with
  | zero =>
      refine leads_here (.inr ⟨⟨by rw [hp]; rfl, ?_⟩, by rw [hp]; rfl⟩)
      rw [← List.length_eq_zero_iff, CircularBuffer.length_contents, hn]
  | succ n ih =>
      have hs : b.uart.rx.size ≠ 0 := by omega
      have h1 : b.mainStep = some ({ b with pc := .getc }, []) := by
        simp only [Board.mainStep, hp, Uart.rxBufferedSize, ne_eq, hs, not_false_eq_true, if_true]
      have hsi' := scriptInv_step hsi (Board.mainStep_cases h1)
      refine leads_main h1 (by rw [hp]; rfl) rfl ?_
      refine (leads_getc hsi' rfl hs hc hu).trans fun b' _ hs' hsur h => ?_
      rcases h with h | ⟨hp', hn'⟩
      · exact leads_here (.inl h)
      · refine ih (hs' hsi') hp' ?_ ?_ ?_
        · rw [connected_of_surroundings hsur]
          exact hc
        · rw [link_of_surroundings hsur]
          exact hu
        · have : b'.uart.rx.size + 1 = b.uart.rx.size := hn'
          omega

/-- Main calls `getc` only with a byte waiting. -/
theorem getc_ready (h : firmware.Run b tr) : b.pc = .getc → b.uart.rx.size ≠ 0 := by
  refine firmware_inv (I := fun b _ => b.pc = .getc → b.uart.rx.size ≠ 0) (fun h => by cases h) ?_ h
  intro b tr b' ev _ _ hi hs hp'
  cases hs with
  | @move pc hm =>
      cases hm with
      | bytes h hs => exact hs
      | _ => cases hp'
  | write data hu =>
      have hold := hi hp'
      have hlen := congrArg List.length (Uart.contents_onDataWritten b.uart data)
      simp only [List.length_append, CircularBuffer.length_contents] at hlen
      show (b.uart.onDataWritten data).1.rx.size ≠ 0
      omega
  | elapse ms => exact hi hp'
  | connect queued hu => exact hi hp'
  | disconnect queued hu => exact hi hp'
  | enableUpdates on hu => exact hi hp'
  | confirm ha => exact hi hp'
  | handler hd hv => exact hi hp'
  | @replayed c line line' out h hc hp =>
      exfalso
      change b.afterCall out.actions (c + 1) = .getc at hp'
      unfold Board.afterCall at hp'
      split at hp' <;> cases hp'
  | _ => cases hp'

/-- **Main takes every byte that waits**, while the client is connected and has not enabled
    indications, unless a string does not fit in the RAM. -/
theorem main_drains (h : firmware.Run b tr) (hc : b.connected = true)
    (hu : b.link.updatesEnabled = false) (he : b.pc.echoing = false)
    (hh : b.pc.halted = false) :
    Leads b fun b' _ => b'.pc = .panicked ∨ CaughtUp b' := by
  have hsi := scriptInv_run h
  -- from the test of the receive buffer on
  have hgo : ∀ u, Leads b (fun b' ev => b'.pc = .panicked ∨ AtReceive u b' ev) →
      Leads b fun b' _ => b'.pc = .panicked ∨ CaughtUp b' := by
    intro u hl
    refine hl.trans fun b' _ hs' hsur hp => ?_
    rcases hp with hp | ⟨hp, _⟩
    · exact leads_here (.inl hp)
    · refine drains_of_receive (hs' hsi) hp ?_ ?_ rfl
      · rw [connected_of_surroundings hsur, hc]
      · rw [link_of_surroundings hsur, hu]
  have hat : Leads b (AtReceive b.uart) → Leads b fun b' _ => b'.pc = .panicked ∨ CaughtUp b' :=
    fun hl => hgo b.uart (hl.mono fun _ _ hp => .inr hp)
  have hreplay : b.pc.position.isSome = true →
      Leads b fun b' _ => b'.pc = .panicked ∨ CaughtUp b' := fun hp =>
    hat ((replay_returns hsi hp hh).mono fun _ _ hr => ⟨hr.1, hr.2.1⟩)
  cases hp : b.pc with
  | scroll =>
      have hs : b.mainStep = some ({ b with pc := .outer }, []) := by simp [Board.mainStep, hp]
      exact hat (leads_main hs (by rw [hp]; rfl) rfl (leads_outer hsi.script rfl hc))
  | outer => exact hat (leads_outer hsi.script hp hc)
  | outerSleep wake => exact hat (leads_outerSleep hsi.script hp hc)
  | test => exact hat (leads_test hsi.script hp hc)
  | poll => exact hat (leads_poll hsi.script hp)
  | replay c line => exact hreplay (by rw [hp]; rfl)
  | replayLine wake c => exact hreplay (by rw [hp]; rfl)
  | replaySleep wake c => exact hreplay (by rw [hp]; rfl)
  | receive => exact drains_of_receive hsi hp hc hu rfl
  | getc =>
      refine (leads_getc hsi hp (getc_ready h hp) hc hu).trans fun b' _ hs' hsur hq => ?_
      rcases hq with hq | ⟨hq, _⟩
      · exact leads_here (.inl hq)
      · refine drains_of_receive (hs' hsi) hq ?_ ?_ rfl
        · rw [connected_of_surroundings hsur, hc]
        · rw [link_of_surroundings hsur, hu]
  | send gotc => exact hgo b.uart (leads_send hsi hp hc hu)
  | indicate gotc n => rw [hp] at he; cases he
  | blocked gotc n => rw [hp] at he; cases he
  | append gotc => exact hgo b.uart (leads_append hsi hp hc)
  | lineSleep wake rm => exact hat (leads_lineSleep hsi.script hp hc)
  | innerSleep wake => exact hat (leads_innerSleep hsi.script hp hc)
  | panicked => rw [hp] at hh; cases hh
  | outOfMemory pc => rw [hp] at hh; cases hh

end MicrobitAlarm
