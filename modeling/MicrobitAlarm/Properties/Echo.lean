/-
  File:      MicrobitAlarm/Properties/Echo.lean
  Subject:   THE ECHO: main in `uart->send(charbuf)`, waiting for the confirmation.

  `send` registers for `MICROBIT_UART_S_EVT_TX_EMPTY`, writes the indication without a look at
  the answer, and calls the scheduler. Its loop tests the connection again behind the wait, but
  only a confirmation ends the wait: the answer to a refused indication does not, and a
  disconnection does not.

  * `echo_returns_iff` -- main waits for a confirmation that can still arrive, in every state of a
    run, if and only if every indication was accepted and no connection ended with an indication
    outstanding;
  * `hung_forever` -- otherwise main never takes a step again, whatever happens;
  * `echo_hangs` -- a disconnection with the echo outstanding, and one just before the write.
-/
import MicrobitAlarm.Runs.Schedules
import Mathlib.Data.List.Induction

namespace MicrobitAlarm

open Trace

/-! ## 1. Waiting for the confirmation -/

/-- Main is blocked in `send`, waiting for `MICROBIT_UART_S_EVT_TX_EMPTY`. -/
def Board.blocked (b : Board) : Bool :=
  match b.pc with
  | .blocked _ _ => b.waiting
  | _ => false

/-- Main waits for a confirmation that can no longer arrive. -/
def Board.hung (b : Board) : Bool := b.blocked && !b.link.awaits

/-- One event, for the indication outstanding. -/
def Event.echo (outstanding : Bool) : Event → Bool
  | .indicated .none => true
  | .confirmed => false
  | _ => outstanding

/-- An indication has been accepted and not been confirmed. -/
def outstanding (tr : List Event) : Bool := tr.foldl Event.echo false

/-- **The echo returns**: the indication is accepted, and no connection ends with an indication
    outstanding. -/
def EchoReturns (pre : List Event) : Event → Prop
  | .indicated answer => answer = .none
  | .linkDown _ => outstanding pre = false
  | _ => True

/-- Events that say nothing about indications. -/
def Event.silent : Event → Bool
  | .indicated _ => false
  | .confirmed => false
  | .linkDown _ => false
  | _ => true

theorem outstanding_snoc (tr : List Event) (e : Event) :
    outstanding (tr ++ [e]) = e.echo (outstanding tr) := by
  simp [outstanding]

theorem outstanding_silent {tr ev : List Event} (h : ∀ e ∈ ev, e.silent = true) :
    outstanding (tr ++ ev) = outstanding tr := by
  induction ev using List.reverseRecOn with
  | nil => rw [List.append_nil]
  | append_singleton ev e ih =>
      have he : e.silent = true := h e (by simp)
      rw [← List.append_assoc, outstanding_snoc, ih fun e' he' => h e' (List.mem_append_left _ he')]
      cases e with
      | indicated answer => cases he
      | confirmed => cases he
      | _ => rfl

theorem echoReturns_silent {tr ev : List Event} (h : ∀ e ∈ ev, e.silent = true) :
    Always EchoReturns (tr ++ ev) ↔ Always EchoReturns tr := by
  rw [always_append]
  refine and_iff_left (always_of_mem fun e hm pre => ?_)
  have he := h e hm
  cases e with
  | indicated answer => cases he
  | linkDown conn => cases he
  | _ => trivial

/-! ## 2. The invariant -/

/-- **What is true of main and its echo.** An indication is outstanding only while main is
    blocked, and main is hung as soon as the echo has failed to return once. -/
structure EchoInv (b : Board) (tr : List Event) : Prop where
  standing : outstanding tr = b.link.indication.isSome
  waited : ∀ c, b.link.indication = some c → b.blocked = true ∧ c ≤ b.link.conn
  registered : ∀ gotc n, b.pc = .indicate gotc n → b.waiting = true
  returns : Always EchoReturns tr ↔ b.hung = false

variable {b b' : Board} {tr ev : List Event}

theorem hung_of_not_blocked (h : b.blocked = false) : b.hung = false := by
  rw [Board.hung, h, Bool.false_and]

theorem EchoInv.indication_none (hi : EchoInv b tr) (h : b.blocked = false) :
    b.link.indication = none := by
  cases hc : b.link.indication with
  | none => rfl
  | some c =>
      have := (hi.waited c hc).1
      rw [h] at this
      cases this

/-- A step of main outside the wait. -/
theorem EchoInv.awake (hi : EchoInv b tr) (hb : b.blocked = false) (hb' : b'.blocked = false)
    (hl : b'.link = b.link) (hev : ∀ e ∈ ev, e.silent = true)
    (hr : ∀ gotc n, b'.pc = .indicate gotc n → b'.waiting = true) : EchoInv b' (tr ++ ev) := by
  have hnone := hi.indication_none hb
  refine ⟨by rw [outstanding_silent hev, hl]; exact hi.standing, ?_, hr, ?_⟩
  · intro c hc
    rw [hl, hnone] at hc
    cases hc
  · rw [echoReturns_silent hev, hi.returns, hung_of_not_blocked hb, hung_of_not_blocked hb']

/-- A step beside the wait and the link. -/
theorem EchoInv.beside (hi : EchoInv b tr) (hp : b'.pc = b.pc) (hw : b'.waiting = b.waiting)
    (hl : b'.link.conn = b.link.conn ∧ b'.link.up = b.link.up ∧
      b'.link.indication = b.link.indication) (hev : ∀ e ∈ ev, e.silent = true) :
    EchoInv b' (tr ++ ev) := by
  obtain ⟨hc, hu, hn⟩ := hl
  have hb : b'.blocked = b.blocked := by rw [Board.blocked, Board.blocked, hp, hw]
  have ha : b'.link.awaits = b.link.awaits := by rw [Link.awaits, Link.awaits, hc, hu, hn]
  refine ⟨by rw [outstanding_silent hev, hn]; exact hi.standing, ?_, ?_, ?_⟩
  · rw [hn, hb, hc]
    exact hi.waited
  · rw [hp, hw]
    exact hi.registered
  · rw [echoReturns_silent hev, hi.returns, Board.hung, Board.hung, hb, ha]

theorem blocked_of_not_echoing (h : b.pc.echoing = false) : b.blocked = false := by
  unfold Board.blocked
  split
  · rename_i hp
    rw [hp] at h
    cases h
  · rfl

/-- A step of main that neither begins nor ends inside the wait. -/
theorem EchoInv.outside (hi : EchoInv b tr) (hp : b.pc.echoing = false)
    (hp' : b'.pc.echoing = false) (hl : b'.link = b.link) (hev : ∀ e ∈ ev, e.silent = true) :
    EchoInv b' (tr ++ ev) := by
  refine hi.awake (blocked_of_not_echoing hp) (blocked_of_not_echoing hp') hl hev ?_
  intro gotc n h
  rw [h] at hp'
  cases hp'

/-- The main fiber moves on. -/
theorem echoInv_move {pc : Pc} (hi : EchoInv b tr) (h : b.Move pc) :
    EchoInv { b with pc := pc } (tr ++ []) := by
  have hnil : ∀ e ∈ ([] : List Event), e.silent = true := List.forall_mem_nil _
  cases h with
  | sent h hw hs =>
      have hb : b.blocked = false := by
        rw [Board.blocked, h]
        exact hw
      exact hi.awake hb rfl rfl hnil (fun _ _ h => by cases h)
  | start h => exact hi.outside (by rw [h]; rfl) rfl rfl hnil
  | character h hc hp => exact hi.outside (by rw [h]; rfl) rfl rfl hnil
  | lineOver h hw => exact hi.outside (by rw [h]; rfl) rfl rfl hnil
  | replayOn h hw => exact hi.outside (by rw [h]; rfl) rfl rfl hnil
  | bytes h hs => exact hi.outside (by rw [h]; rfl) rfl rfl hnil
  | noBytes h hs => exact hi.outside (by rw [h]; rfl) rfl rfl hnil
  | unsent h hs => exact hi.outside (by rw [h]; rfl) rfl rfl hnil
  | innerOn h hw => exact hi.outside (by rw [h]; rfl) rfl rfl hnil
  | replayPanic h hc hp => exact hi.outside (by rw [h]; rfl) rfl rfl hnil
  | appendPanic h hl => exact hi.outside (by rw [h]; rfl) rfl rfl hnil
  | noMemory ha =>
      refine hi.outside ?_ rfl rfl hnil
      obtain ⟨gotc, h⟩ | ⟨gotc, h⟩ | ⟨c, line, h⟩ := Board.allocates_cases ha <;> rw [h] <;> rfl

/-- **Every step keeps the invariant.** -/
theorem echoInv_step (hi : EchoInv b tr) (hs : b.Step b' ev) : EchoInv b' (tr ++ ev) := by
  have hone : ∀ e : Event, e.silent = true → ∀ e' ∈ [e], e'.silent = true := by
    intro e he e' he'
    rw [List.mem_singleton.mp he']
    exact he
  have hnil : ∀ e ∈ ([] : List Event), e.silent = true := List.forall_mem_nil _
  cases hs with
  | move h => exact echoInv_move hi h
  | elapse ms => exact hi.beside rfl rfl ⟨rfl, rfl, rfl⟩ hnil
  | write data hu =>
      refine hi.beside rfl rfl ⟨rfl, rfl, rfl⟩ fun e he => ?_
      obtain ⟨x, rfl | rfl⟩ := mem_receipts he <;> rfl
  | enableUpdates on hu => exact hi.beside rfl rfl ⟨rfl, rfl, rfl⟩ hnil
  | handler hd hv => exact hi.beside rfl rfl ⟨rfl, rfl, rfl⟩ (hone _ rfl)
  | connect queued hu =>
      -- an indication of an earlier connection is not one of the new connection
      have ha : b.link.awaits = false := by rw [Link.awaits, hu, Bool.false_and]
      refine ⟨by rw [outstanding_silent (hone _ rfl)]; exact hi.standing, fun c hc => ?_,
        hi.registered, ?_⟩
      · exact ⟨(hi.waited c hc).1, Nat.le_succ_of_le (hi.waited c hc).2⟩
      · have ha' : ({ b.link with conn := b.link.conn + 1, up := true } : Link).awaits = false := by
          cases hc : b.link.indication with
          | none => simp [Link.awaits, hc]
          | some c =>
              have := (hi.waited c hc).2
              have hne : c ≠ b.link.conn + 1 := by omega
              simp [Link.awaits, hc, hne]
        rw [echoReturns_silent (hone _ rfl), hi.returns, Board.hung, Board.hung, ha, ha']
        rfl
  | disconnect queued hu =>
      refine ⟨by rw [outstanding_snoc]; exact hi.standing, hi.waited, hi.registered, ?_⟩
      rw [always_snoc, hi.returns]
      show b.hung = false ∧ outstanding tr = false ↔ (b.blocked && !(false && _)) = false
      rw [hi.standing, Bool.false_and, Bool.not_false, Bool.and_true]
      constructor
      · rintro ⟨hh, hn⟩
        cases hb : b.blocked with
        | false => rfl
        | true =>
            -- blocked and not hung: the indication is outstanding
            rw [Board.hung, hb, Bool.true_and, Bool.not_eq_false', Link.awaits,
              Bool.and_eq_true, beq_iff_eq] at hh
            rw [hh.2] at hn
            cases hn
      · intro hb
        exact ⟨hung_of_not_blocked hb, by rw [hi.indication_none hb]; rfl⟩
  | confirm ha =>
      have hb : b.hung = false := by rw [Board.hung, ha, Bool.not_true, Bool.and_false]
      refine ⟨by rw [outstanding_snoc]; rfl, (fun _ h => by cases h), fun gotc n h => ?_, ?_⟩
      · -- the indication is of a blocked main
        have hsome : b.link.indication = some b.link.conn := by
          rw [Link.awaits, Bool.and_eq_true, beq_iff_eq] at ha
          exact ha.2
        have hbl := (hi.waited _ hsome).1
        rw [Board.blocked, show b.pc = .indicate gotc n from h] at hbl
        cases hbl
      · rw [always_snoc, hi.returns, hb, hung_of_not_blocked]
        · exact ⟨fun _ => rfl, fun _ => ⟨rfl, trivial⟩⟩
        · cases hp : b.pc <;> rw [Board.blocked]
  | @accepted gotc n h hu hi' =>
      have hw := hi.registered _ _ h
      have hb : b.blocked = false := by rw [Board.blocked, h]
      have hup : b.link.up = true := by
        rw [Link.updatesEnabled, Bool.and_eq_true] at hu
        exact hu.1
      refine ⟨by rw [outstanding_snoc]; rfl, fun c hc => ?_, (fun _ _ h => by cases h), ?_⟩
      · cases hc
        exact ⟨hw, Nat.le_refl _⟩
      · rw [always_snoc, hi.returns, hung_of_not_blocked hb]
        simp [EchoReturns, Board.hung, Link.awaits, hup]
  | @refused gotc n answer h ha =>
      have hw := hi.registered _ _ h
      have hb : b.blocked = false := by rw [Board.blocked, h]
      have hnone := hi.indication_none hb
      refine ⟨?_, fun c hc => ?_, (fun _ _ h => by cases h), ?_⟩
      · rw [outstanding_snoc, show (Event.indicated answer).echo (outstanding tr) = outstanding tr
          by cases answer <;> first | rfl | exact absurd rfl ha]
        exact hi.standing
      · rw [show b.link.indication = some c from hc] at hnone
        cases hnone
      · rw [always_snoc]
        simp [EchoReturns, ha, Board.hung, Board.blocked, Link.awaits, hw, hnone]
  | fill h hs =>
      have hb : b.blocked = false := by
        rcases h with ⟨h, _, _⟩ | ⟨h, hw⟩
        · rw [Board.blocked, h]
        · rw [Board.blocked, h]
          exact hw
      exact hi.awake hb rfl rfl hnil fun _ _ _ => rfl
  | @replayed c line line' out h hc hp =>
      have he : (b.afterCall out.actions (c + 1)).echoing = false := by
        unfold Board.afterCall
        split <;> rfl
      exact hi.outside (by rw [h]; rfl) he rfl (hone _ rfl)
  | outer h => exact hi.outside (by rw [h]; rfl) rfl rfl (hone _ rfl)
  | declare h hw => exact hi.outside (by rw [h]; rfl) rfl rfl hnil
  | inner h hc => exact hi.outside (by rw [h]; rfl) rfl rfl (hone _ rfl)
  | leave h hc => exact hi.outside (by rw [h]; rfl) rfl rfl (hone _ rfl)
  | alarm h hd => exact hi.outside (by rw [h]; rfl) rfl rfl (hone _ rfl)
  | noAlarm h hd => exact hi.outside (by rw [h]; rfl) rfl rfl (hone _ rfl)
  | returned h hc => exact hi.outside (by rw [h]; rfl) rfl rfl (hone _ rfl)
  | taken h hs => exact hi.outside (by rw [h]; rfl) rfl rfl (hone _ rfl)
  | grown h hl hn => exact hi.outside (by rw [h]; rfl) rfl rfl hnil
  | linePanic h hl hp => exact hi.outside (by rw [h]; rfl) rfl rfl (hone _ rfl)
  | lineSleeps h hl hp hs => exact hi.outside (by rw [h]; rfl) rfl rfl (hone _ rfl)
  | line h hl hp hs => exact hi.outside (by rw [h]; rfl) rfl rfl (hone _ rfl)
  | lineWoken h hw => exact hi.outside (by rw [h]; rfl) rfl rfl hnil

theorem echoInv_run (h : firmware.Run b tr) : EchoInv b tr :=
  firmware_inv
    ⟨rfl, (fun _ h => by cases h), (fun _ _ h => by cases h), fun _ => rfl, fun _ => always_nil⟩
    (fun _ _ _ _ _ _ hi hs => echoInv_step hi hs) h

/-! ## 3. When the echo returns -/

/-- **The echo does not hang the alarm if and only if it returns**: in every state that a run
    reaches, main waits for a confirmation that can still arrive exactly if every indication of
    the run was accepted and no connection ended with one outstanding. -/
theorem echo_returns_iff (b : Board) (tr : List Event) (h : firmware.Run b tr) :
    (b.blocked = true → b.link.awaits = true) ↔ Always EchoReturns tr := by
  rw [(echoInv_run h).returns, Board.hung]
  cases b.blocked <;> cases b.link.awaits <;> simp

/-- Main waits for the confirmation of "p". -/
theorem echo_returns_iff_run :
    ∃ b tr, firmware.Run b tr ∧ b.blocked = true ∧ .indicated .none ∈ tr ∧
      Always EchoReturns tr := by
  let P : Board → List Event → Prop := fun b tr =>
    b.blocked = true ∧ b.link.awaits = true ∧ .indicated .none ∈ tr
  obtain ⟨b, tr, hr, hb, ha, hm⟩ := Machine.exists_run_of_exec firmware P
    (boot ++ [.enableUpdates true, .write [112], .main, .main, .main, .main, .main, .hvx .none])
    (by decide +kernel)
  exact ⟨b, tr, hr, hb, hm, (echo_returns_iff b tr hr).mp fun _ => ha⟩

/-- **Main waits for a confirmation that cannot arrive**: the client disconnects before it
    confirms; and it disconnects just before the write, which is then refused. -/
theorem echo_hangs :
    (∃ b tr, firmware.Run b tr ∧ b.blocked = true ∧ b.link.up = false) ∧
      ∃ b tr, firmware.Run b tr ∧ b.blocked = true ∧ b.link.up = true ∧
        b.link.indication = none := by
  constructor
  · exact Machine.exists_run_of_exec firmware (fun b _ => b.blocked = true ∧ b.link.up = false)
      (boot ++ [.enableUpdates true, .write [112], .main, .main, .main, .main, .main, .hvx .none,
        .disconnect true]) (by decide +kernel)
  · exact Machine.exists_run_of_exec firmware
      (fun b _ => b.blocked = true ∧ b.link.up = true ∧ b.link.indication = none)
      (boot ++ [.enableUpdates true, .write [112], .main, .main, .main, .main, .main,
        .disconnect true, .hvx .other, .connect true]) (by decide +kernel)

/-! ## 4. Hung for good -/

/-- A hung main takes no step. -/
theorem mainStep_of_hung (h : b.hung = true) : b.step .main = none := by
  rw [Board.hung, Bool.and_eq_true] at h
  obtain ⟨hb, _⟩ := h
  cases hp : b.pc with
  | blocked gotc n =>
      have hw : b.waiting = true := by rwa [Board.blocked, hp] at hb
      simp [Board.step, Board.mainStep, hp, hw]
  | _ => simp [Board.blocked, hp] at hb

/-- **Once main is hung it is hung for good**: whatever happens, it never takes a step again, so it
    never polls the deadline again. -/
theorem hung_forever {as : List Act} (h : firmware.Run b tr) (hh : b.hung = true)
    (he : firmware.exec b as = some (b', ev)) : b'.hung = true ∧ .main ∉ as := by
  have hkeep : ∀ b tr b' ev, firmware.Run b tr → firmware.Run b' (tr ++ ev) → b.hung = true →
      b'.hung = true := by
    intro b tr b' ev hr hr' hh
    cases hh' : b'.hung with
    | true => rfl
    | false =>
        have := ((echoInv_run hr').returns.mpr hh').of_append
        rw [(echoInv_run hr).returns, hh] at this
        cases this
  refine ⟨hkeep b tr b' ev h (h.exec he) hh, ?_⟩
  induction as generalizing b tr ev with
  | nil => exact List.not_mem_nil
  | cons a as ih =>
      obtain ⟨b₁, ev₁, ev₂, hs, he₂, rfl⟩ := Machine.exec_cons_eq_some he
      have hr₁ : firmware.Run b₁ (tr ++ ev₁) := .step _ _ _ _ _ h hs
      have hne : a ≠ .main := by
        rintro rfl
        rw [show firmware.step b .main = none from mainStep_of_hung hh] at hs
        cases hs
      intro hm
      rcases List.mem_cons.mp hm with rfl | hm
      · exact hne rfl
      · exact ih hr₁ (hkeep b tr b₁ ev₁ h hr₁ hh) he₂ hm

end MicrobitAlarm
