/-
  File:      MicrobitAlarm/Properties/Gatt.lean
  Subject:   THE APP'S LINK: what the Send button conserves, and what service discovery ends on.

  `send()` returns the answer of `writeCharacteristic`, and its callers drop it: the Send button
  clears the whole queue, also what was not transmitted, and `displayGattServices` does not look
  whether a service has the UART characteristic before it sends to it.

  * `flush_conserves_iff` -- no command is lost exactly if every write of the flush is started; a
    flush that loses one (`flush_loses_command`);
  * `discovery_finds_iff` -- discovery ends on the UART characteristic exactly if no other service
    has a characteristic; a discovery that throws (`discovery_throws`).
-/
import MicrobitAlarm.App.Gatt

namespace MicrobitAlarm

/-! ## 1. The Send button -/

/-- The commands whose write was started. -/
def accepted (ws : List Write) : List (List UInt8) := (ws.filter (·.started)).map (·.value)

/-- **The law of conservation**: the listener runs to its end, and the commands it transmitted,
    followed by those still queued, are the commands that were queued. -/
def Conserves (answers : Nat → Bool) (m : MainActivity) (g : Gatt) : Prop :=
  ∃ m' g' ws, g.sendButton answers m = some (m', g') ∧ g'.writes = g.writes ++ ws ∧
    accepted ws ++ m'.queue = m.queue

variable {answers : Nat → Bool}

theorem value_writesOf (c : BluetoothGattCharacteristic) (i : Nat) (queue : List (List UInt8)) :
    (Gatt.writesOf answers c i queue).map (·.value) = queue := by
  induction queue generalizing i with
  | nil => rfl
  | cons tq queue ih => rw [Gatt.writesOf, List.map_cons, ih]

/-- All writes of a queue are started exactly if they all get the answer true. -/
theorem started_writesOf (c : BluetoothGattCharacteristic) (i : Nat) (queue : List (List UInt8)) :
    (∀ w ∈ Gatt.writesOf answers c i queue, w.started = true) ↔
      ∀ j, j < queue.length → answers (i + j) = true := by
  induction queue generalizing i with
  | nil => exact ⟨(fun _ _ h => absurd h (Nat.not_lt_zero _)), fun _ => List.forall_mem_nil _⟩
  | cons tq queue ih =>
      rw [Gatt.writesOf, List.forall_mem_cons, ih]
      constructor
      · rintro ⟨h0, hs⟩ j hj
        cases j with
        | zero => exact h0
        | succ j =>
            have := hs j (by simpa using hj)
            rwa [Nat.add_right_comm] at this
      · intro h
        refine ⟨h 0 (by simp), fun j hj => ?_⟩
        have := h (j + 1) (by simpa using hj)
        rwa [← Nat.add_assoc, Nat.add_right_comm] at this

/-- What was transmitted is everything written exactly if every write was started. -/
theorem accepted_eq_iff {ws : List Write} :
    accepted ws = ws.map (·.value) ↔ ∀ w ∈ ws, w.started = true := by
  constructor
  · intro h
    have hlen := congrArg List.length h
    rw [accepted, List.length_map, List.length_map] at hlen
    exact List.length_filter_eq_length_iff.mp hlen
  · intro h
    rw [accepted, List.filter_eq_self.mpr h]

/-- **Send loses no command if and only if every write of the flush is started.** -/
theorem flush_conserves_iff (answers : Nat → Bool) (m : MainActivity)
    (c : BluetoothGattCharacteristic) (ws : List Write) :
    Conserves answers m ⟨some c, ws⟩ ↔
      ∀ j, j < m.queue.length → answers (ws.length + j) = true := by
  have hsend : Gatt.sendButton answers m ⟨some c, ws⟩ =
      some (m.click .send, ⟨some c, ws ++ Gatt.writesOf answers c ws.length m.queue⟩) := by
    unfold Gatt.sendButton
    rw [Gatt.sendAll_some rfl]
  have hall : accepted (Gatt.writesOf answers c ws.length m.queue) = m.queue ↔
      ∀ j, j < m.queue.length → answers (ws.length + j) = true := by
    rw [← started_writesOf c, ← accepted_eq_iff, value_writesOf]
  rw [← hall]
  constructor
  · rintro ⟨m', g', ws', hs, hw, hq⟩
    rw [hsend] at hs
    cases hs
    rw [← List.append_cancel_left hw] at hq
    exact (List.append_nil _).symm.trans hq
  · intro h
    exact ⟨_, _, _, hsend, rfl, (List.append_nil _).trans h⟩

/-- **A refused write is a lost command**: of "a5\n" and "s9\n" the first is transmitted, the
    second is refused because the first is still under way, and the queue is cleared. -/
theorem flush_loses_command :
    ¬ Conserves (fun i => i == 0) ⟨[[97, 53, 10], [115, 57, 10]], []⟩
      ⟨some ⟨uartRxUuid, 0⟩, []⟩ := by
  rintro ⟨m', g', ws, hs, hw, hq⟩
  have hsend : Gatt.sendButton (fun i => i == 0) ⟨[[97, 53, 10], [115, 57, 10]], []⟩
      ⟨some ⟨uartRxUuid, 0⟩, []⟩ = some (⟨[], [[97, 53, 10], [115, 57, 10]]⟩,
        ⟨some ⟨uartRxUuid, 0⟩, [⟨⟨uartRxUuid, 0⟩, [97, 53, 10], true⟩,
          ⟨⟨uartRxUuid, 0⟩, [115, 57, 10], false⟩]⟩) := rfl
  rw [hsend] at hs
  cases hs
  rw [List.nil_append] at hw
  subst hw
  revert hq
  decide

/-! ## 2. Service discovery -/

/-- **Discovery ends on the characteristic**: the method runs to its end, the field holds the
    characteristic, and whatever is sent afterwards is written to it. -/
def EndsOn (answers : Nat → Bool) (g : Gatt) (services : List BluetoothGattService)
    (c : BluetoothGattCharacteristic) : Prop :=
  ∃ g', g.displayGattServices answers (some services) = some g' ∧ g'.btTXCharac = some c ∧
    ∀ ds, g'.sendAll answers ds =
      some { g' with writes := g'.writes ++ Gatt.writesOf answers c g'.writes.length ds }

variable {g : Gatt}

theorem visitServices_append (g : Gatt) (l₁ l₂ : List BluetoothGattService) :
    g.visitServices answers (l₁ ++ l₂) =
      (g.visitServices answers l₁).bind fun g => g.visitServices answers l₂ := by
  induction l₁ generalizing g with
  | nil => rfl
  | cons s l₁ ih =>
      rw [List.cons_append, Gatt.visitServices, Gatt.visitServices]
      cases g.visitCharacteristics answers s s.characteristics with
      | none => rfl
      | some g' => exact ih g'

/-- Services without the UART characteristic are passed over if they have none at all. -/
theorem visitServices_without {l : List BluetoothGattService}
    (h : ∀ s ∈ l, s.getCharacteristic uartRxUuid = none) :
    g.visitServices answers l = if ∀ s ∈ l, s.characteristics = [] then some g else none := by
  induction l generalizing g with
  | nil => simp [Gatt.visitServices]
  | cons s l ih =>
      unfold Gatt.visitServices
      rw [Gatt.visitCharacteristics_without (h s List.mem_cons_self)]
      by_cases hs : s.characteristics = []
      · rw [if_pos hs]
        simp only [ih fun x hx => h x (List.mem_cons_of_mem _ hx), List.forall_mem_cons, hs,
          true_and]
      · rw [if_neg hs, if_neg fun hx => hs (hx s List.mem_cons_self)]

/-- **Discovery ends on the UART characteristic if and only if no other service has any
    characteristic**, where exactly one service has this one. -/
theorem discovery_finds_iff {pre post : List BluetoothGattService} {s : BluetoothGattService}
    {c : BluetoothGattCharacteristic} (hs : s.getCharacteristic uartRxUuid = some c)
    (hpre : ∀ x ∈ pre, x.getCharacteristic uartRxUuid = none)
    (hpost : ∀ x ∈ post, x.getCharacteristic uartRxUuid = none) (answers : Nat → Bool) (g : Gatt) :
    EndsOn answers g (pre ++ s :: post) c ↔
      (∀ x ∈ pre, x.characteristics = []) ∧ ∀ x ∈ post, x.characteristics = [] := by
  obtain ⟨g₁, hg₁, hc₁⟩ := @Gatt.visitCharacteristics_with answers g s c hs s.characteristics
  have hne : s.characteristics ≠ [] := by
    intro he
    rw [BluetoothGattService.getCharacteristic, he] at hs
    cases hs
  have hrun : g.displayGattServices answers (some (pre ++ s :: post)) =
      if (∀ x ∈ pre, x.characteristics = []) ∧ ∀ x ∈ post, x.characteristics = []
      then some g₁ else none := by
    unfold Gatt.displayGattServices
    simp only [visitServices_append, visitServices_without hpre]
    by_cases hp : ∀ x ∈ pre, x.characteristics = []
    · simp only [if_pos hp, Option.bind_some, Gatt.visitServices, hg₁, visitServices_without hpost,
        and_iff_right hp]
    · rw [if_neg hp, if_neg fun h => hp h.1]
      rfl
  constructor
  · rintro ⟨g', hg', _⟩
    by_contra hx
    rw [hrun, if_neg hx] at hg'
    cases hg'
  · intro hx
    have hc := hc₁ (.inl hne)
    exact ⟨g₁, hrun.trans (if_pos hx), hc, fun ds => Gatt.sendAll_some hc ds⟩

/-- An empty service and the UART. -/
theorem discovery_finds_iff_uart :
    EndsOn (fun _ => true) ⟨none, []⟩
      [⟨0x0000180100001000800000805F9B34FB#128, []⟩,
        ⟨0x6E400001B5A3F393E0A9E50E24DCCA9E#128,
          [⟨0x6E400003B5A3F393E0A9E50E24DCCA9E#128, 1⟩, ⟨uartRxUuid, 2⟩]⟩] ⟨uartRxUuid, 2⟩ :=
  (@discovery_finds_iff [⟨0x0000180100001000800000805F9B34FB#128, []⟩] []
    ⟨0x6E400001B5A3F393E0A9E50E24DCCA9E#128,
      [⟨0x6E400003B5A3F393E0A9E50E24DCCA9E#128, 1⟩, ⟨uartRxUuid, 2⟩]⟩
    ⟨uartRxUuid, 2⟩ (by decide) (by decide) (by decide) _ _).mpr ⟨by decide, by decide⟩

/-- Generic Access with the device's name, which every device has, and the UART. -/
def generalAndUart : List BluetoothGattService :=
  [⟨0x0000180000001000800000805F9B34FB#128, [⟨0x00002A0000001000800000805F9B34FB#128, 1⟩]⟩,
    ⟨0x6E400001B5A3F393E0A9E50E24DCCA9E#128, [⟨uartRxUuid, 2⟩]⟩]

/-- **Discovery throws** at the device's name, though exactly one service has the UART
    characteristic. -/
theorem discovery_throws :
    (generalAndUart.filter fun s => (s.getCharacteristic uartRxUuid).isSome).length = 1 ∧
      ¬ EndsOn (fun _ => true) ⟨none, []⟩ generalAndUart ⟨uartRxUuid, 2⟩ := by
  refine ⟨by decide, ?_⟩
  rintro ⟨g', hg', _⟩
  rw [show Gatt.displayGattServices _ _ (some generalAndUart) = none by decide] at hg'
  cases hg'

end MicrobitAlarm
