/-
  File:      MicrobitAlarm/Lib/Decimal.lean
  Subject:   C'S DECIMAL CONVERSION over byte strings, for a 32-bit `long`.

  `strtol` with base 10, as the C library documents it: white space is skipped, one sign is read,
  then digits up to the first byte that is none; a value outside the range of `long` is clamped to
  its nearest end. `atoi` and `atol` are this function (`int` and `long` are both 32 bits wide).

  * `strtol_range` -- the result always fits;
  * `strtol_digits` -- a digit string followed by anything but a digit gives the number it writes,
    clamped; no digits give 0 (`strtol_newline`);
  * `value_render` -- a number printed is the number read.
-/
import Mathlib.Data.Nat.Digits.Defs

namespace Decimal

/-- The white space of the C locale: the blank and the bytes from tab to carriage return. -/
def isspace (b : UInt8) : Bool := b == 32 || (decide (9 ≤ b) && decide (b ≤ 13))

def isdigit (b : UInt8) : Bool := decide (48 ≤ b) && decide (b ≤ 57)

/-- The number a digit string writes, most significant digit first. -/
def value (ds : List UInt8) : Nat := ds.foldl (fun n b => 10 * n + (b.toNat - 48)) 0

/-- The nearest `long`. -/
def clamp (v : Int) : Int := max (-2147483648) (min v 2147483647)

/-- The digits in front, read as a number with the given sign. -/
def magnitude (neg : Bool) (s : List UInt8) : Int :=
  let v : Int := value (s.takeWhile isdigit)
  clamp (if neg then -v else v)

/-- **`strtol(s, NULL, 10)`.** -/
def strtol (s : List UInt8) : Int :=
  match s.dropWhile isspace with
  | [] => 0
  | b :: r =>
    if b = 45 then magnitude true r
    else if b = 43 then magnitude false r
    else magnitude false (b :: r)

theorem clamp_range (v : Int) : -2147483648 ≤ clamp v ∧ clamp v ≤ 2147483647 := by
  unfold clamp
  omega

theorem clamp_of_nonneg {v : Int} (h0 : 0 ≤ v) : clamp v = min v 2147483647 := by
  unfold clamp
  omega

/-- **The result fits in a `long`.** -/
theorem strtol_range (s : List UInt8) : -2147483648 ≤ strtol s ∧ strtol s ≤ 2147483647 := by
  unfold strtol
  split
  · omega
  · split
    · exact clamp_range _
    · split <;> exact clamp_range _

/-- A digit is neither white space nor a sign. -/
theorem digit_cases {b : UInt8} (h : isdigit b = true) :
    isspace b = false ∧ b ≠ 45 ∧ b ≠ 43 := by
  simp only [isdigit, Bool.and_eq_true, decide_eq_true_eq, UInt8.le_iff_toNat_le] at h
  have h1 : (48 : UInt8).toNat = 48 := rfl
  have h2 : (57 : UInt8).toNat = 57 := rfl
  have ne : ∀ c : UInt8, c.toNat < 48 → b ≠ c := fun c hc e => by subst e; omega
  refine ⟨?_, ne 45 (by decide), ne 43 (by decide)⟩
  have h32 : (b == 32) = false := by simpa using ne 32 (by decide)
  have h13 : decide (b ≤ 13) = false := by
    simp only [decide_eq_false_iff_not, UInt8.le_iff_toNat_le]
    have : (13 : UInt8).toNat = 13 := rfl
    omega
  simp [isspace, h32, h13]

theorem takeWhile_digits {ds t : List UInt8} (h : ∀ b ∈ ds, isdigit b = true)
    (ht : ∀ b ∈ t.head?, isdigit b = false) : (ds ++ t).takeWhile isdigit = ds := by
  induction ds with
  | nil =>
      cases t with
      | nil => rfl
      | cons b t =>
          have hb : isdigit b = false := ht b rfl
          simp [hb]
  | cons b ds ih =>
      have hb := h b List.mem_cons_self
      rw [List.cons_append, List.takeWhile_cons_of_pos hb,
        ih fun c hc => h c (List.mem_cons_of_mem _ hc)]

/-- **A digit string gives the number it writes, clamped.** -/
theorem strtol_digits {ds t : List UInt8} (hne : ds ≠ []) (h : ∀ b ∈ ds, isdigit b = true)
    (ht : ∀ b ∈ t.head?, isdigit b = false) :
    strtol (ds ++ t) = min (value ds : Int) 2147483647 := by
  cases ds with
  | nil => exact absurd rfl hne
  | cons b ds =>
      obtain ⟨h1, h2, h3⟩ := digit_cases (h b List.mem_cons_self)
      have hd : ((b :: ds) ++ t).dropWhile isspace = b :: (ds ++ t) := by
        simp [h1]
      unfold strtol
      rw [hd]
      simp only [h2, h3, if_false]
      rw [magnitude, show b :: (ds ++ t) = (b :: ds) ++ t from rfl, takeWhile_digits h ht]
      exact clamp_of_nonneg (by simp)

/-- No digit before the end of the line gives 0. -/
theorem strtol_newline : strtol [10] = 0 := by decide

/-! ## Numerals -/

/-- The decimal numeral of a number. -/
def render (n : Nat) : List UInt8 :=
  if n = 0 then [48] else (Nat.digits 10 n).reverse.map fun d => 48 + UInt8.ofNat d

/-- The byte of a digit. -/
theorem toNat_digit {d : Nat} (h : d < 10) : (48 + UInt8.ofNat d).toNat = 48 + d := by
  have h48 : (48 : UInt8).toNat = 48 := rfl
  rw [UInt8.toNat_add, UInt8.toNat_ofNat', h48]
  omega

theorem isdigit_render (n : Nat) : ∀ b ∈ render n, isdigit b = true := by
  unfold render
  split
  · intro b hb
    rw [List.mem_singleton.mp hb]
    rfl
  · intro b hb
    obtain ⟨d, hd, rfl⟩ := List.mem_map.mp hb
    have hlt : d < 10 := Nat.digits_lt_base (by decide) (List.mem_reverse.mp hd)
    simp only [isdigit, Bool.and_eq_true, decide_eq_true_eq, UInt8.le_iff_toNat_le,
      toNat_digit hlt]
    have h48 : (48 : UInt8).toNat = 48 := rfl
    have h57 : (57 : UInt8).toNat = 57 := rfl
    omega

/-- **A number printed is the number read.** -/
theorem value_render (n : Nat) : value (render n) = n := by
  unfold render
  split
  · rename_i h
    rw [h]
    rfl
  · have hfold : ∀ ds : List Nat, (∀ d ∈ ds, d < 10) →
        ds.foldr (fun d n => 10 * n + ((48 + UInt8.ofNat d).toNat - 48)) 0 =
          Nat.ofDigits 10 ds := by
      intro ds hds
      induction ds with
      | nil => rfl
      | cons d ds ih =>
          rw [List.foldr_cons, ih fun e he => hds e (List.mem_cons_of_mem d he), Nat.ofDigits_cons,
            toNat_digit (hds d List.mem_cons_self)]
          omega
    rw [value, List.foldl_map, List.foldl_reverse,
      hfold _ fun d hd => Nat.digits_lt_base (by decide) hd, Nat.ofDigits_digits]

end Decimal
