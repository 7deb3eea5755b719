/-
  File:      MicrobitAlarm/Properties/Deadline.lean
  Subject:   WHEN THE ALARM GOES OFF: never early, never missed -- as far as the 32-bit clock and
             the connection allow.

  The deadline is a wrapped 32-bit sum, compared with the clock by a plain `<=`, and all ones
  stands for "no alarm". So a poll can be wrong in two ways: the sum has overflowed and the clock
  has not wrapped yet, or no alarm is armed and the clock reads all ones.

  * `onTime_iff` -- every alarm of a run is on time if and only if no poll of it is wrong in one
    of these ways; a run in which the clock reads all ones (`early_and_spurious_alarm`);
  * `alarm_not_missed` -- an iteration of the inner loop that begins at or behind the deadline
    calls `alarm()`, as long as the clock has not wrapped since the deadline; the outer loop never
    looks, and a wrap hides the deadline (`alarm_missed`).
-/
import MicrobitAlarm.Runs.Ledger
import MicrobitAlarm.Runs.Schedules
import MicrobitAlarm.Lib.Clock

namespace MicrobitAlarm

open Trace

/-! ## 1. Deadlines on the clock -/

/-- The number of an 'a' line. -/
def Event.delay : Event → Option Int
  | .line _ l _ _ => if isArm l.data then some (number l) else none
  | _ => none

/-- No 'a' line of the run has a negative number. -/
def NonnegDelays (tr : List Event) : Prop := ∀ e ∈ tr, ∀ d ∈ e.delay, 0 ≤ d

instance (tr : List Event) : Decidable (NonnegDelays tr) :=
  inferInstanceAs (Decidable (∀ e ∈ tr, ∀ d ∈ e.delay, 0 ≤ d))

/-- The number of an armed alarm: not negative, and at most the greatest `long`. -/
theorem NonnegDelays.armed {tr pre post : List Event} {p : Nat × Int} (hn : NonnegDelays tr)
    (htr : tr = pre ++ post) (h : (ledger pre).armed = some p) : 0 ≤ p.2 ∧ p.2 < wordSize := by
  obtain ⟨pre', line, rm, as, post', rfl, ha, hnum, _⟩ := armed_iff.mp h
  refine ⟨hn (.line p.1 line rm as) (by rw [htr]; simp) p.2 ?_, ?_⟩
  · rw [Event.delay, if_pos ha, hnum]
    rfl
  have hmax := (Decimal.strtol_range (argument line).data).2
  rw [← hnum]
  show Decimal.strtol (argument line).data < 4294967296
  omega

/-- The deadline on the clock. -/
theorem deadline_eq {t : Nat} {d : Int} (h : 0 ≤ d) :
    deadline (t, d) = (t + d.toNat) % wordSize := by
  obtain ⟨n, rfl⟩ := Int.eq_ofNat_of_zero_le h
  show (((t : Int) + (n : Int)) % (wordSize : Int)).toNat = (t + n) % wordSize
  rw [← Int.natCast_add, ← Int.natCast_emod]
  rfl

/-! ## 2. No early and no spurious alarm -/

/-- **An alarm is on time**: an 'a' line armed it, neither replaced nor used up since, and its
    delay has passed. -/
def OnTime (pre : List Event) : Event → Prop
  | .alarm t _ _ => ∃ p, (ledger pre).armed = some p ∧ p.1 ≤ t ∧ (p.1 : Int) + p.2 ≤ t
  | _ => True

/-- The clock reading `t` cannot mislead: with no alarm armed it is not the mark, and the sum of
    an armed alarm has not overflowed, or the clock has wrapped since the 'a' line. -/
def Clear (armed : Option (Nat × Int)) (t : Nat) : Prop :=
  match armed with
  | none => systemTime t ≠ disarmed
  | some p => (p.1 % wordSize : Nat) + p.2 < wordSize ∨ p.1 / wordSize < t / wordSize

/-- **A poll is clear.** -/
def ClearPoll (pre : List Event) : Event → Prop
  | .polled t => Clear (ledger pre).armed t
  | .alarm t _ _ => Clear (ledger pre).armed t
  | _ => True

/-- The only clock reading at or above the mark is the mark. -/
theorem disarmed_le_iff {t : Nat} : disarmed ≤ systemTime t ↔ systemTime t = disarmed := by
  have h : systemTime t < wordSize := Nat.mod_lt _ (by decide)
  unfold disarmed
  omega

/-- One poll: the alarm is on time exactly if the poll is clear. -/
theorem onTime_iff_clear {pre : List Event} {e : Event} (ha : Agrees pre e)
    (hd : ∀ p, (ledger pre).armed = some p → 0 ≤ p.2 ∧ p.2 < wordSize) :
    OnTime pre e ↔ ClearPoll pre e := by
  cases e with
  | polled t =>
      obtain ⟨hm, hp⟩ := ha
      refine ⟨fun _ => ?_, fun _ => trivial⟩
      show Clear (ledger pre).armed t
      cases harm : (ledger pre).armed with
      | none =>
          rw [harm] at hm
          exact fun h => hm (disarmed_le_iff.mpr h)
      | some p =>
          obtain ⟨h0, hlt⟩ := hd p harm
          rw [harm] at hm
          have hm' : ¬ (p.1 + p.2.toNat) % wordSize ≤ t % wordSize := by
            rw [← deadline_eq h0]
            exact hm
          have h := Clock.clear_of_not_shown (by omega) (hp p harm) hm'
          show _ ∨ _
          omega
  | alarm t rm s =>
      obtain ⟨hm, hp, _⟩ := ha
      show (∃ p, (ledger pre).armed = some p ∧ p.1 ≤ t ∧ (p.1 : Int) + p.2 ≤ t) ↔
        Clear (ledger pre).armed t
      cases harm : (ledger pre).armed with
      | none =>
          rw [harm] at hm
          constructor
          · rintro ⟨p, h, _⟩
            cases h
          · intro h
            exact absurd (disarmed_le_iff.mp hm) h
      | some p =>
          obtain ⟨h0, hlt⟩ := hd p harm
          rw [harm] at hm
          have hm' : (p.1 + p.2.toNat) % wordSize ≤ t % wordSize := by
            rw [← deadline_eq h0]
            exact hm
          have h := Clock.reached_iff (by omega) (hp p harm) hm'
          have hle := hp p harm
          constructor
          · rintro ⟨q, hq, _, hqt⟩
            cases hq
            show _ ∨ _
            omega
          · intro hc
            have hc' : (p.1 % wordSize : Nat) + p.2 < wordSize ∨ p.1 / wordSize < t / wordSize := hc
            exact ⟨p, rfl, hle, by omega⟩
  | _ => exact ⟨fun _ => trivial, fun _ => trivial⟩

/-- **No early and no spurious alarm, exactly when every poll is clear**: in a run whose 'a' lines
    have no negative number, every alarm was armed by an 'a' line whose delay has passed if and
    only if no poll came at an all-ones clock with no alarm armed, or behind an 'a' line whose sum
    overflowed and before the clock wrapped. -/
theorem onTime_iff {b : Board} {tr : List Event} (h : firmware.Run b tr) (hn : NonnegDelays tr) :
    Always OnTime tr ↔ Always ClearPoll tr := by
  have hev : ∀ pre e post, tr = pre ++ e :: post → (OnTime pre e ↔ ClearPoll pre e) :=
    fun pre e post htr => onTime_iff_clear (agrees_run h pre e post htr) fun _ => hn.armed htr
  exact ⟨fun hp pre e post htr => (hev pre e post htr).mp (hp pre e post htr),
    fun hp pre e post htr => (hev pre e post htr).mpr (hp pre e post htr)⟩

/-- An hour after the boot, "a0\n" arrives, and the alarm goes off at the next poll. -/
theorem onTime_iff_run :
    ∃ b tr, firmware.Run b tr ∧ NonnegDelays tr ∧ (Always OnTime tr ↔ Always ClearPoll tr) ∧
      .alarm 3600024 true .empty ∈ tr := by
  have he : (firmware.exec firmware.start (.elapse 3600000 :: boot ++ lineTurns [97, 48, 10] ++
      outerTurn ++ [.main, .main])).map Prod.snd = some
      [.outer 3600000, .linkUp 1, .handled true, .stored 1 97, .stored 1 48, .stored 1 10,
        .inner 3600006, .polled 3600006, .taken 97, .inner 3600012, .polled 3600012, .taken 48,
        .inner 3600018, .polled 3600018, .taken 10,
        .line 3600018 ⟨[97, 48, 10], by decide⟩ false [], .outer 3600018, .inner 3600024,
        .alarm 3600024 true .empty] := by decide +kernel
  obtain ⟨b, hr⟩ := Machine.run_of_trace he
  refine ⟨b, _, hr, ?_, onTime_iff hr ?_, ?_⟩
  · decide +kernel
  · decide +kernel
  · decide +kernel

/-- **Alarms that no deadline asked for**: with no alarm armed at an all-ones clock, and behind
    "a99\n" at a clock that would wrap before the deadline. -/
theorem early_and_spurious_alarm :
    (∃ b tr, firmware.Run b tr ∧ (∀ e ∈ tr, e.delay = none) ∧ ¬ Always OnTime tr) ∧
      ∃ b tr, firmware.Run b tr ∧ NonnegDelays tr ∧ ¬ Always OnTime tr := by
  constructor
  · have he : (firmware.exec firmware.start
        (boot ++ [.elapse 4294967289, .main, .main])).map Prod.snd = some
        [.outer 0, .linkUp 1, .handled true, .inner 4294967295,
          .alarm 4294967295 false .empty] := by decide +kernel
    obtain ⟨b, hr⟩ := Machine.run_of_trace he
    refine ⟨b, _, hr, by decide, fun hP => ?_⟩
    obtain ⟨p, hp, _⟩ := hP [.outer 0, .linkUp 1, .handled true, .inner 4294967295] _ [] rfl
    cases hp
  · have he : (firmware.exec firmware.start (.elapse 4294967256 :: boot ++
        lineTurns [97, 57, 57, 10] ++ outerTurn ++ [.main, .main])).map Prod.snd = some
        (([.outer 4294967256, .linkUp 1, .handled true, .stored 1 97, .stored 1 57, .stored 1 57,
          .stored 1 10, .inner 4294967262, .polled 4294967262, .taken 97, .inner 4294967268,
          .polled 4294967268, .taken 57, .inner 4294967274, .polled 4294967274, .taken 57,
          .inner 4294967280, .polled 4294967280, .taken 10,
          .line 4294967280 ⟨[97, 57, 57, 10], by decide⟩ false [], .outer 4294967280,
          .inner 4294967286] : List Event) ++ [.alarm 4294967286 true .empty]) := by decide +kernel
    obtain ⟨b, hr⟩ := Machine.run_of_trace he
    refine ⟨b, _, hr, by decide +kernel, fun hP => ?_⟩
    obtain ⟨p, hp, _, hle⟩ := hP _ _ [] rfl
    obtain rfl : p = (4294967280, 99) :=
      Option.some.inj (hp.symm.trans (by decide +kernel))
    omega

/-! ## 3. No missed alarm -/

/-- When the deadline was compared with the clock. -/
def Event.pollTime : Event → Option Nat
  | .polled t => some t
  | .alarm t _ _ => some t
  | _ => none

/-- An iteration of one of the two loops begins. -/
def Event.begins : Event → Bool
  | .inner _ => true
  | .outer _ => true
  | _ => false

/-- The beginning of the iteration whose poll is still to come. -/
def readPending (s : Option Nat) : Event → Option Nat
  | .inner t => some t
  | .polled _ => none
  | .alarm _ _ _ => none
  | _ => s

/-- **The iteration of the inner loop whose poll is still to come**, from the events. -/
def pending (tr : List Event) : Option Nat := tr.foldl readPending none

theorem pending_append (tr ev : List Event) :
    pending (tr ++ ev) = ev.foldl readPending (pending tr) := List.foldl_append

/-- What can happen between the beginning of an iteration and its poll: no line is processed, no
    other iteration begins, and the poll reads a clock no earlier. -/
def BeforePoll (pre : List Event) (e : Event) : Prop :=
  ∀ s, pending pre = some s →
    match e with
    | .line _ _ _ _ => False
    | .inner _ => False
    | .outer _ => False
    | .polled t => s ≤ t
    | .alarm t _ _ => s ≤ t
    | _ => True

/-- While a poll is to come, the main fiber stands at it. -/
def PendingInv (b : Board) (tr : List Event) : Prop :=
  Always BeforePoll tr ∧ ∀ s, pending tr = some s → b.pc = .poll ∧ s ≤ b.now

variable {b b' : Board} {tr ev : List Event}

theorem PendingInv.eq_none (hi : PendingInv b tr) (h : b.pc ≠ .poll) : pending tr = none := by
  cases hp : pending tr with
  | none => rfl
  | some s => exact absurd (hi.2 s hp).1 h

/-- A step of the main fiber elsewhere, which reports at most one event. -/
theorem PendingInv.away (hi : PendingInv b tr) (h : b.pc ≠ .poll)
    (he : ev.foldl readPending none = none) (hl : ev.length ≤ 1) : PendingInv b' (tr ++ ev) := by
  have hn := hi.eq_none h
  refine ⟨always_append.mpr ⟨hi.1, ?_⟩, fun s hs => ?_⟩
  · intro pre e post hev s hs
    have hpre : pre = [] := by
      rw [hev, List.length_append, List.length_cons] at hl
      exact List.eq_nil_of_length_eq_zero (by omega)
    subst hpre
    rw [List.append_nil, hn] at hs
    cases hs
  · rw [pending_append, hn, he] at hs
    cases hs

/-- A step of somebody else. -/
theorem PendingInv.other (hi : PendingInv b tr) (hpc : b'.pc = b.pc) (hn : b.now ≤ b'.now)
    (he : ∀ s, ev.foldl readPending s = s)
    (ha : Always (fun pre e => BeforePoll (tr ++ pre) e) ev) : PendingInv b' (tr ++ ev) := by
  refine ⟨always_append.mpr ⟨hi.1, ha⟩, fun s hs => ?_⟩
  rw [pending_append, he] at hs
  obtain ⟨h1, h2⟩ := hi.2 s hs
  exact ⟨hpc.trans h1, Nat.le_trans h2 hn⟩

/-- The poll. -/
theorem PendingInv.polled {e : Event} (hi : PendingInv b tr) (he : ∀ s, readPending s e = none)
    (hb : BeforePoll tr e) : PendingInv b' (tr ++ [e]) := by
  refine ⟨always_snoc.mpr ⟨hi.1, hb⟩, fun s hs => ?_⟩
  rw [pending_append] at hs
  exact absurd ((he _).symm.trans hs) (by simp)

theorem pendingInv_step (hi : PendingInv b tr) (hs : b.Step b' ev) : PendingInv b' (tr ++ ev) := by
  have hone : ∀ e, (∀ pre, BeforePoll pre e) →
      Always (fun pre e => BeforePoll (tr ++ pre) e) [e] :=
    fun e h => always_singleton.mpr (h _)
  cases hs with
  | move h =>
      refine hi.away ?_ rfl (Nat.zero_le _)
      intro hp
      cases h with
      | noMemory ha =>
          obtain ⟨gotc, h⟩ | ⟨gotc, h⟩ | ⟨c, line, h⟩ := Board.allocates_cases ha <;>
            rw [h] at hp <;> cases hp
      | _ => simp_all
  | elapse ms => exact hi.other rfl (Nat.le_add_right _ _) (fun _ => rfl) always_nil
  | write data hu =>
      refine hi.other rfl (Nat.le_refl _) (fun s => ?_) ?_
      · exact foldl_receipts (fun _ _ => rfl) (fun _ _ => rfl) s _
      · exact always_receipts (fun _ _ _ _ => trivial) (fun _ _ _ _ => trivial) _
  | connect queued hu =>
      exact hi.other rfl (Nat.le_refl _) (fun _ => rfl) (hone _ fun _ _ _ => trivial)
  | disconnect queued hu =>
      exact hi.other rfl (Nat.le_refl _) (fun _ => rfl) (hone _ fun _ _ _ => trivial)
  | enableUpdates on hu => exact hi.other rfl (Nat.le_refl _) (fun _ => rfl) always_nil
  | confirm ha =>
      exact hi.other rfl (Nat.le_refl _) (fun _ => rfl) (hone _ fun _ _ _ => trivial)
  | handler hd hv =>
      exact hi.other rfl (Nat.le_refl _) (fun _ => rfl) (hone _ fun _ _ _ => trivial)
  | accepted h hu hx => exact hi.away (by simp [h]) rfl (Nat.le_refl _)
  | refused h ha => exact hi.away (by simp [h]) rfl (Nat.le_refl _)
  | outer h => exact hi.away (by simp [h]) rfl (Nat.le_refl _)
  | declare h hw => exact hi.away (by simp [h]) rfl (Nat.zero_le _)
  | inner h hc =>
      have hn := hi.eq_none (by simp [h])
      refine ⟨always_append.mpr ⟨hi.1, always_singleton.mpr fun s hs => ?_⟩, fun s hs => ?_⟩
      · rw [List.append_nil, hn] at hs
        cases hs
      · rw [pending_append] at hs
        cases hs
        exact ⟨rfl, Nat.le_refl _⟩
  | leave h hc => exact hi.away (by simp [h]) rfl (Nat.le_refl _)
  | alarm h hd => exact hi.polled (fun _ => rfl) fun s hs => (hi.2 s hs).2
  | noAlarm h hd => exact hi.polled (fun _ => rfl) fun s hs => (hi.2 s hs).2
  | replayed h hc hp => exact hi.away (by simp [h]) rfl (Nat.le_refl _)
  | returned h hc => exact hi.away (by simp [h]) rfl (Nat.le_refl _)
  | taken h hs => exact hi.away (by simp [h]) rfl (Nat.le_refl _)
  | fill h hs =>
      refine hi.away ?_ rfl (Nat.zero_le _)
      rcases h with ⟨h, _⟩ | ⟨h, _⟩ <;> simp [h]
  | grown h hl hn => exact hi.away (by simp [h]) rfl (Nat.zero_le _)
  | linePanic h hl hp => exact hi.away (by simp [h]) rfl (Nat.le_refl _)
  | lineSleeps h hl hp hs => exact hi.away (by simp [h]) rfl (Nat.le_refl _)
  | line h hl hp hs => exact hi.away (by simp [h]) rfl (Nat.le_refl _)
  | lineWoken h hw => exact hi.away (by simp [h]) rfl (Nat.zero_le _)

theorem pendingInv_run (h : firmware.Run b tr) : PendingInv b tr :=
  firmware_inv (I := PendingInv) ⟨always_nil, (fun _ h => by cases h)⟩
    (fun _ _ _ _ _ _ hi hs => pendingInv_step hi hs) h

/-- Until its poll, nothing touches the armed alarm of an iteration that has begun. -/
theorem pending_armed {pre mid : List Event} (post : List Event) {s : Nat}
    (h : firmware.Run b (pre ++ .inner s :: (mid ++ post)))
    (hmid : ∀ e ∈ mid, e.pollTime = none) :
    pending (pre ++ .inner s :: mid) = some s ∧
      (ledger (pre ++ .inner s :: mid)).armed = (ledger pre).armed := by
  induction mid using List.reverseRecOn generalizing post with
  | nil =>
      rw [pending_append, ledger_snoc]
      exact ⟨rfl, rfl⟩
  | append_singleton mid x ih =>
      have h' : firmware.Run b (pre ++ .inner s :: (mid ++ x :: post)) := by
        rw [List.append_assoc] at h
        exact h
      obtain ⟨hp, ha⟩ := ih (x :: post) h' fun e he => hmid e (List.mem_append_left _ he)
      have hx := (pendingInv_run h').1 (pre ++ .inner s :: mid) x post (by simp) s hp
      have hpoll : x.pollTime = none := hmid x (by simp)
      rw [show pre ++ Event.inner s :: (mid ++ [x]) = (pre ++ .inner s :: mid) ++ [x] by simp,
        pending_append, ledger_snoc, hp]
      cases x with
      | line t l rm as => exact hx.elim
      | inner t => exact hx.elim
      | outer t => exact hx.elim
      | polled t => cases hpoll
      | alarm t rm s => cases hpoll
      | _ => exact ⟨rfl, ha⟩

/-- **No missed alarm.** Let an alarm with delay `d` have been armed at `t₀`, and let an iteration
    of the inner loop begin at `t₀ + d` or later. By the time the next iteration of either loop
    begins, the deadline has been compared with the clock, and if the clock has not wrapped
    between deadline and comparison, this has called `alarm()`. -/
theorem alarm_not_missed {pre mid post : List Event} {x : Event} {s t₀ : Nat} {d : Int}
    (h : firmware.Run b (pre ++ .inner s :: (mid ++ x :: post))) (hx : x.begins = true)
    (harm : (ledger pre).armed = some (t₀, d)) (hd : 0 ≤ d) (hs : (t₀ : Int) + d ≤ s) :
    ∃ m₁ e m₂ t, mid = m₁ ++ e :: m₂ ∧ e.pollTime = some t ∧ s ≤ t ∧
      (t / wordSize = (t₀ + d.toNat) / wordSize → ∃ rm script, e = .alarm t rm script) := by
  have hsplit := List.takeWhile_append_dropWhile (p := fun e => Event.pollTime e == none)
    (l := mid)
  have hm₁ : ∀ e ∈ mid.takeWhile (fun e => Event.pollTime e == none), e.pollTime = none :=
    fun e he => by simpa using List.mem_takeWhile_imp he
  cases hd₂ : mid.dropWhile (fun e => Event.pollTime e == none) with
  | nil =>
      -- the next iteration cannot begin before the poll
      rw [hd₂, List.append_nil] at hsplit
      have hno : ∀ e ∈ mid, e.pollTime = none := fun e he => hm₁ e (by rw [hsplit]; exact he)
      obtain ⟨hp, _⟩ := pending_armed (x :: post) h hno
      have hb := (pendingInv_run h).1 (pre ++ .inner s :: mid) x post (by simp) s hp
      cases x with
      | inner t => exact hb.elim
      | outer t => exact hb.elim
      | _ => cases hx
  | cons e m₂ =>
      generalize mid.takeWhile (fun e => Event.pollTime e == none) = m₁ at hsplit hm₁
      rw [hd₂] at hsplit
      subst hsplit
      have hpe : e.pollTime.isSome = true := by
        have hhead := List.head?_dropWhile_not (fun e => Event.pollTime e == none) (m₁ ++ e :: m₂)
        rw [hd₂] at hhead
        simpa using hhead
      obtain ⟨t, ht⟩ := Option.isSome_iff_exists.mp hpe
      rw [List.append_assoc] at h
      obtain ⟨hp, ha⟩ := pending_armed (e :: (m₂ ++ x :: post)) h hm₁
      have hb := (pendingInv_run h).1 (pre ++ .inner s :: m₁) e (m₂ ++ x :: post) (by simp) s hp
      have hag := agrees_run h (pre ++ .inner s :: m₁) e (m₂ ++ x :: post) (by simp)
      rw [harm] at ha
      cases e with
      | polled u =>
          cases ht
          refine ⟨m₁, .polled t, m₂, t, rfl, rfl, hb, fun hw => ?_⟩
          have hst : s ≤ t := hb
          obtain ⟨hn, _⟩ := hag
          rw [ha] at hn
          refine absurd ?_ hn
          show deadline (t₀, d) ≤ t % wordSize
          rw [deadline_eq hd]
          exact Clock.shown_of_reached (by omega) hw
      | alarm u rm script =>
          cases ht
          exact ⟨m₁, .alarm t rm script, m₂, t, rfl, rfl, hb, fun _ => ⟨rm, script, rfl⟩⟩
      | _ => cases ht

/-- "a0\n" is processed at 18 ms, and the inner iteration that begins at 24 ms calls `alarm()`. -/
theorem alarm_not_missed_run :
    ∃ b pre mid x post, firmware.Run b (pre ++ .inner 24 :: (mid ++ x :: post)) ∧
      (ledger pre).armed = some (18, 0) ∧
      ∃ m₁ e m₂ t, mid = m₁ ++ e :: m₂ ∧ e.pollTime = some t ∧ 24 ≤ t ∧
        (t / wordSize = (18 + (0 : Int).toNat) / wordSize →
          ∃ rm script, e = .alarm t rm script) := by
  have he : (firmware.exec firmware.start (boot ++ lineTurns [97, 48, 10] ++ outerTurn ++
      [.main, .main, .main, .main, tick, .main, .main])).map Prod.snd = some
      (([.outer 0, .linkUp 1, .handled true, .stored 1 97, .stored 1 48, .stored 1 10, .inner 6,
        .polled 6, .taken 97, .inner 12, .polled 12, .taken 48, .inner 18, .polled 18, .taken 10,
        .line 18 ⟨[97, 48, 10], by decide⟩ false [], .outer 18] : List Event) ++
        .inner 24 :: ([.alarm 24 true .empty, .returned] ++ .inner 30 :: [])) := by decide +kernel
  obtain ⟨b, hr⟩ := Machine.run_of_trace he
  exact ⟨b, _, _, _, _, hr, by decide +kernel,
    alarm_not_missed hr rfl (by decide +kernel) (Int.le_refl 0) (by decide)⟩

/-- **Overdue alarms that no iteration calls**: an iteration of the outer loop that begins at the
    deadline finds the client gone and never looks ("a0\n" processed at 18 ms); and an iteration
    of the inner loop that begins behind the deadline compares it with a clock that has wrapped
    ("a14\n", 16 ms before the clock wraps). -/
theorem alarm_missed :
    (∃ b pre mid, firmware.Run b (pre ++ .outer 18 :: (mid ++ [.outer 24])) ∧
        (ledger pre).armed = some (18, 0) ∧ ∀ e ∈ mid, e.rearms = false) ∧
      ∃ b pre, firmware.Run b (pre ++ [.inner 4294967298, .polled 4294967298]) ∧
        (ledger pre).armed = some (4294967280, 14) := by
  constructor
  · have he : (firmware.exec firmware.start (boot ++ lineTurns [97, 48, 10] ++
        [.main, .disconnect true, .handler 0, tick, .main, .main, .main])).map Prod.snd = some
        (([.outer 0, .linkUp 1, .handled true, .stored 1 97, .stored 1 48, .stored 1 10, .inner 6,
          .polled 6, .taken 97, .inner 12, .polled 12, .taken 48, .inner 18, .polled 18,
          .taken 10, .line 18 ⟨[97, 48, 10], by decide⟩ false []] : List Event) ++
          .outer 18 :: ([.linkDown 1, .handled false, .discarded .empty] ++ [.outer 24])) := by
      decide +kernel
    obtain ⟨b, hr⟩ := Machine.run_of_trace he
    exact ⟨b, _, _, hr, by decide +kernel, by decide⟩
  · have he : (firmware.exec firmware.start (.elapse 4294967256 :: boot ++
        lineTurns [97, 49, 52, 10] ++ outerTurn ++ idleTurn ++ idleTurn ++
        [.main, .main])).map Prod.snd = some
        (([.outer 4294967256, .linkUp 1, .handled true, .stored 1 97, .stored 1 49, .stored 1 52,
          .stored 1 10, .inner 4294967262, .polled 4294967262, .taken 97, .inner 4294967268,
          .polled 4294967268, .taken 49, .inner 4294967274, .polled 4294967274, .taken 52,
          .inner 4294967280, .polled 4294967280, .taken 10,
          .line 4294967280 ⟨[97, 49, 52, 10], by decide⟩ false [], .outer 4294967280,
          .inner 4294967286, .polled 4294967286, .inner 4294967292,
          .polled 4294967292] : List Event) ++ [.inner 4294967298, .polled 4294967298]) := by
      decide +kernel
    obtain ⟨b, hr⟩ := Machine.run_of_trace he
    exact ⟨b, _, hr, by decide +kernel⟩

end MicrobitAlarm
