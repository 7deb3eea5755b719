/-
  File:      MicrobitAlarm/Lib/Clock.lean
  Subject:   DEADLINES ON A CLOCK THAT WRAPS, for any modulus.

  Time is unbounded; a clock of modulus `W` shows `t % W`. A deadline `t₀ + d` is stored as the
  clock will show it, `(t₀ + d) % W`, and taken to be reached when the clock shows that value or
  more. For delays below `W` the lemmas say when this is right:

  * `reached_iff` -- once the clock shows the stored deadline or more, the deadline has really
    come exactly if the sum did not overflow, or the clock has wrapped since `t₀`;
  * `clear_of_not_shown` -- as long as the clock shows less, that is the case;
  * `shown_of_reached` -- a deadline that has come is seen, as long as the clock has not wrapped
    since.
-/
import Mathlib.Data.Nat.Basic

namespace Clock

variable {W t₀ t d : Nat}

/-- The sum on the clock, with and without an overflow. -/
theorem add_mod_cases (t₀ : Nat) (hd : d < W) :
    (t₀ % W + d < W ∧ (t₀ + d) % W = t₀ % W + d) ∨
      (W ≤ t₀ % W + d ∧ (t₀ + d) % W + W = t₀ % W + d) := by
  have hr : t₀ % W < W := Nat.mod_lt _ (by omega)
  have hm : (t₀ + d) % W = (t₀ % W + d) % W := by rw [Nat.mod_add_mod]
  rcases Nat.lt_or_ge (t₀ % W + d) W with h | h
  · exact .inl ⟨h, by rw [hm, Nat.mod_eq_of_lt h]⟩
  · refine .inr ⟨h, ?_⟩
    rw [hm, Nat.mod_eq_sub_mod h, Nat.mod_eq_of_lt (by omega)]
    omega

/-- **When a deadline that is shown has really come.** -/
theorem reached_iff (hd : d < W) (h0 : t₀ ≤ t) (hs : (t₀ + d) % W ≤ t % W) :
    t₀ + d ≤ t ↔ t₀ % W + d < W ∨ t₀ / W < t / W := by
  have e0 := Nat.div_add_mod t₀ W
  have e := Nat.div_add_mod t W
  have hr : t % W < W := Nat.mod_lt _ (by omega)
  have hq : t₀ / W ≤ t / W := Nat.div_le_div_right h0
  rcases Nat.lt_or_ge (t₀ / W) (t / W) with hlt | hge
  · -- the clock has wrapped: `t` is a whole modulus further, or shows the deadline
    have hmul : W * (t₀ / W) + W ≤ W * (t / W) := by
      have := Nat.mul_le_mul_left W hlt
      rwa [Nat.mul_succ] at this
    refine ⟨fun _ => .inr hlt, fun _ => ?_⟩
    rcases add_mod_cases t₀ hd with ⟨_, hm⟩ | ⟨_, hm⟩ <;> omega
  · have hqe : t₀ / W = t / W := Nat.le_antisymm hq hge
    rw [hqe] at e0
    rcases add_mod_cases t₀ hd with ⟨hlt, hm⟩ | ⟨hle, hm⟩
    · exact ⟨fun _ => .inl hlt, fun _ => by omega⟩
    · refine ⟨fun _ => by omega, fun h => ?_⟩
      rcases h with h | h <;> omega

/-- A sum that has overflowed is shown at once, until the clock wraps. -/
theorem clear_of_not_shown (hd : d < W) (h0 : t₀ ≤ t) (hs : ¬ (t₀ + d) % W ≤ t % W) :
    t₀ % W + d < W ∨ t₀ / W < t / W := by
  rcases add_mod_cases t₀ hd with ⟨hlt, _⟩ | ⟨_, hm⟩
  · exact .inl hlt
  · rcases Nat.lt_or_ge (t₀ / W) (t / W) with hlt | hge
    · exact .inr hlt
    · have e0 := Nat.div_add_mod t₀ W
      have e := Nat.div_add_mod t W
      rw [Nat.le_antisymm (Nat.div_le_div_right h0) hge] at e0
      omega

/-- **A deadline that has come is seen**, unless the clock has wrapped since. -/
theorem shown_of_reached {u : Nat} (hu : u ≤ t) (hq : t / W = u / W) : u % W ≤ t % W := by
  have eu := Nat.div_add_mod u W
  have et := Nat.div_add_mod t W
  rw [hq] at et
  omega

end Clock
