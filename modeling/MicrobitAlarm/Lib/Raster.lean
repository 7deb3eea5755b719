/-
  File:      MicrobitAlarm/Lib/Raster.lean
  Subject:   PICTURES IN A LINEAR BUFFER: cells row after row, transfers that stay inside, and
             loops that work row by row.

  A buffer has a fixed number of cells. A transfer that would reach past the end is an error
  (`none`), so a program whose transfers all succeed has touched nothing else.

  * `Buffer.load`, `Buffer.store` -- the two transfers, and `get_put` for what a store leaves;
  * `pixel` -- a buffer seen as a picture in the plane, zero outside;
  * `pixel_store`, `load_row` -- the transfers within one row;
  * `loop`, `loop_spec` -- a loop that can fail, with its invariant rule;
  * `loop_draws` -- **the rule of drawing loops**: each turn draws some points, and may read
    those that are not drawn yet; `loop_all_rows` for the loops over all rows.
-/
import Mathlib.Data.List.Basic
import Mathlib.Data.List.GetD
import Mathlib.Algebra.Group.Defs
import Mathlib.Algebra.Order.Ring.Nat

namespace Raster

/-! ## 1. Buffers -/

/-- `n` cells in a row. -/
structure Buffer (α : Type) (n : Nat) where
  cells : List α
  length_eq : cells.length = n
  deriving DecidableEq

variable {α : Type} {n : Nat}

namespace Buffer

/-- `k` cells from the address `a` on. -/
def load (b : Buffer α n) (a k : Nat) : Option (List α) :=
  if a + k ≤ n then some ((b.cells.drop a).take k) else none

/-- The buffer with the cells from `a` on replaced. -/
def put (b : Buffer α n) (a : Nat) (xs : List α) (h : a + xs.length ≤ n) : Buffer α n where
  cells := b.cells.take a ++ (xs ++ b.cells.drop (a + xs.length))
  length_eq := by
    have := b.length_eq
    simp only [List.length_append, List.length_take, List.length_drop]
    omega

/-- Cells written from the address `a` on. -/
def store (b : Buffer α n) (a : Nat) (xs : List α) : Option (Buffer α n) :=
  if h : a + xs.length ≤ n then some (b.put a xs h) else none

theorem store_eq (b : Buffer α n) {a : Nat} {xs : List α} (h : a + xs.length ≤ n) :
    b.store a xs = some (b.put a xs h) := dif_pos h

variable [Zero α]

/-- A buffer of zeros. -/
def zeros (n : Nat) : Buffer α n := ⟨List.replicate n 0, List.length_replicate⟩

/-- The cell at an address; zero past the end. -/
def get (b : Buffer α n) (i : Nat) : α := b.cells.getD i 0

@[simp] theorem get_zeros (i : Nat) : (zeros n : Buffer α n).get i = 0 := by
  unfold get zeros
  by_cases h : i < n
  · rw [List.getD_eq_getElem _ _ (by simpa using h), List.getElem_replicate]
  · rw [List.getD_eq_default _ _ (by simpa using h)]

theorem get_put (b : Buffer α n) {a : Nat} {xs : List α} (h : a + xs.length ≤ n) (i : Nat) :
    (b.put a xs h).get i =
      if a ≤ i ∧ i < a + xs.length then xs.getD (i - a) 0 else b.get i := by
  have hb := b.length_eq
  have ht : (b.cells.take a).length = a := by rw [List.length_take]; omega
  unfold get put
  by_cases h1 : i < a
  · rw [if_neg (by omega), List.getD_append _ _ _ _ (by omega), List.getD_eq_getElem?_getD,
      List.getElem?_take_of_lt h1, ← List.getD_eq_getElem?_getD]
  · rw [List.getD_append_right _ _ _ _ (by omega), ht]
    by_cases h2 : i < a + xs.length
    · rw [if_pos ⟨by omega, h2⟩, List.getD_append _ _ _ _ (by omega)]
    · rw [if_neg (by omega), List.getD_append_right _ _ _ _ (by omega),
        List.getD_eq_getElem?_getD, List.getElem?_drop, ← List.getD_eq_getElem?_getD]
      congr 1
      omega

theorem load_eq (b : Buffer α n) {a k : Nat} (h : a + k ≤ n) :
    ∃ xs, b.load a k = some xs ∧ xs.length = k ∧ ∀ j < k, xs.getD j 0 = b.get (a + j) := by
  have hb := b.length_eq
  refine ⟨_, if_pos h, ?_, fun j hj => ?_⟩
  · rw [List.length_take, List.length_drop]
    omega
  · unfold get
    rw [List.getD_eq_getElem?_getD, List.getElem?_take_of_lt hj, List.getElem?_drop,
      ← List.getD_eq_getElem?_getD]

end Buffer

/-! ## 2. Pictures -/

variable [Zero α] {w h : Nat}

/-- **The picture in a buffer**: the cell in column `x` of row `y`, and zero outside. -/
def pixel (b : Buffer α (w * h)) (x y : Int) : α :=
  if 0 ≤ x ∧ x < w ∧ 0 ≤ y ∧ y < h then b.get (y.toNat * w + x.toNat) else 0

theorem pixel_nat (b : Buffer α (w * h)) {x y : Nat} (hx : x < w) (hy : y < h) :
    pixel b x y = b.get (y * w + x) := by
  unfold pixel
  rw [if_pos ⟨by omega, by omega, by omega, by omega⟩, Int.toNat_natCast, Int.toNat_natCast]

theorem pixel_outside (b : Buffer α (w * h)) {x y : Int}
    (ho : ¬ (0 ≤ x ∧ x < w ∧ 0 ≤ y ∧ y < h)) : pixel b x y = 0 := if_neg ho

@[simp] theorem pixel_zeros (x y : Int) :
    pixel (Buffer.zeros (w * h) : Buffer α (w * h)) x y = 0 := by
  unfold pixel
  split
  · exact Buffer.get_zeros _
  · rfl

/-- The end of a stretch within a row is within the buffer. -/
theorem row_end_le {x0 k y : Nat} (hx : x0 + k ≤ w) (hy : y < h) : y * w + x0 + k ≤ w * h := by
  have h1 : (y + 1) * w ≤ h * w := Nat.mul_le_mul_right w hy
  rw [Nat.succ_mul] at h1
  rw [Nat.mul_comm w h]
  omega

/-- An address is in a stretch within a row just when its column and its row are. -/
theorem mem_row_iff {x0 k y0 x y : Nat} (hk : x0 + k ≤ w) (hx : x < w) :
    (y0 * w + x0 ≤ y * w + x ∧ y * w + x < y0 * w + x0 + k) ↔
      y = y0 ∧ x0 ≤ x ∧ x < x0 + k := by
  constructor
  · rintro ⟨h1, h2⟩
    have hy : y = y0 := by
      rcases Nat.lt_trichotomy y y0 with hlt | heq | hgt
      · have := Nat.mul_le_mul_right w (Nat.succ_le_of_lt hlt)
        rw [Nat.succ_mul] at this
        omega
      · exact heq
      · have := Nat.mul_le_mul_right w (Nat.succ_le_of_lt hgt)
        rw [Nat.succ_mul] at this
        omega
    subst hy
    omega
  · rintro ⟨rfl, h1, h2⟩
    omega

/-- **A store within a row.** -/
theorem pixel_store (b : Buffer α (w * h)) (x0 : Nat) {y0 : Nat} (xs : List α)
    (hx : x0 + xs.length ≤ w) (hy : y0 < h) :
    ∃ b', b.store (y0 * w + x0) xs = some b' ∧ ∀ x y : Int, pixel b' x y =
      if y = y0 ∧ x0 ≤ x ∧ x < x0 + xs.length then xs.getD (x - x0).toNat 0
      else pixel b x y := by
  refine ⟨_, b.store_eq (row_end_le hx hy), fun x y => ?_⟩
  by_cases hin : 0 ≤ x ∧ x < w ∧ 0 ≤ y ∧ y < h
  · obtain ⟨x, rfl⟩ := Int.eq_ofNat_of_zero_le hin.1
    obtain ⟨y, rfl⟩ := Int.eq_ofNat_of_zero_le hin.2.2.1
    have hxw : x < w := by omega
    have hyh : y < h := by omega
    rw [pixel_nat _ hxw hyh, pixel_nat _ hxw hyh, Buffer.get_put]
    by_cases hm : y = y0 ∧ x0 ≤ x ∧ x < x0 + xs.length
    · rw [if_pos ((mem_row_iff hx hxw).mpr hm), if_pos (by omega)]
      obtain ⟨rfl, _, _⟩ := hm
      congr 1
      omega
    · rw [if_neg (fun hc => hm ((mem_row_iff hx hxw).mp hc)), if_neg (by omega)]
  · rw [pixel_outside _ hin, pixel_outside _ hin, if_neg (by omega)]

/-- **A load within a row.** -/
theorem load_row (b : Buffer α (w * h)) (x0 k : Nat) {y0 : Nat} (hx : x0 + k ≤ w) (hy : y0 < h) :
    ∃ xs, b.load (y0 * w + x0) k = some xs ∧ xs.length = k ∧
      ∀ j < k, xs.getD j 0 = pixel b (x0 + j : Nat) y0 := by
  obtain ⟨xs, hl, hlen, hget⟩ := b.load_eq (row_end_le hx hy)
  refine ⟨xs, hl, hlen, fun j hj => ?_⟩
  rw [hget j hj, pixel_nat _ (by omega) hy, Nat.add_assoc]

/-! ## 3. Loops -/

/-- `for (i = 0; i < m; i++) f(i)`. -/
def loop {σ : Type} (f : Nat → σ → Option σ) : Nat → σ → Option σ
  | 0, s => some s
  | m + 1, s => (loop f m s).bind (f m)

/-- **The invariant rule.** -/
theorem loop_spec {σ : Type} {f : Nat → σ → Option σ} (P : Nat → σ → Prop) {m : Nat} {s : σ}
    (h0 : P 0 s) (hs : ∀ i s', i < m → P i s' → ∃ s'', f i s' = some s'' ∧ P (i + 1) s'') :
    ∃ s', loop f m s = some s' ∧ P m s' := by
  induction m with
  | zero => exact ⟨s, rfl, h0⟩
  | succ m ih =>
      obtain ⟨s', he, hp⟩ := ih fun i s' hi => hs i s' (by omega)
      obtain ⟨s'', hf, hp'⟩ := hs m s' (Nat.lt_succ_self m) hp
      exact ⟨s'', by rw [loop, he, Option.bind_some, hf], hp'⟩

/-- **The rule of drawing loops**, for a state with a picture `v` in it: turn `i` draws the
    points `D i` of the picture `new`, and finds those that are not drawn yet as they were. What
    else holds at turn `i` is `Q i`. -/
theorem loop_draws {σ : Type} {f : Nat → σ → Option σ} {m : Nat} {s : σ}
    (v : σ → Buffer α (w * h)) (Q : Nat → σ → Prop) (D : Nat → Int → Int → Prop)
    (new : Int → Int → α) (h0 : Q 0 s)
    (hf : ∀ i < m, ∀ s', Q i s' →
      (∀ x y, (∀ j < i, ¬ D j x y) → pixel (v s') x y = pixel (v s) x y) →
      ∃ s'', f i s' = some s'' ∧ Q (i + 1) s'' ∧ (∀ x y, D i x y → pixel (v s'') x y = new x y) ∧
        ∀ x y, ¬ D i x y → pixel (v s'') x y = pixel (v s') x y) :
    ∃ s', loop f m s = some s' ∧ Q m s' ∧
      (∀ i < m, ∀ x y, D i x y → pixel (v s') x y = new x y) ∧
      ∀ x y, (∀ i < m, ¬ D i x y) → pixel (v s') x y = pixel (v s) x y := by
  refine loop_spec (fun i s' => Q i s' ∧
    (∀ j < i, ∀ x y, D j x y → pixel (v s') x y = new x y) ∧
    ∀ x y, (∀ j < i, ¬ D j x y) → pixel (v s') x y = pixel (v s) x y) ⟨h0, by simp, by simp⟩ ?_
  rintro i s' hi ⟨hq, hdone, hleft⟩
  obtain ⟨s'', he, hq', hnew, hold⟩ := hf i hi s' hq hleft
  refine ⟨s'', he, hq', fun j hj x y hd => ?_, fun x y hy => ?_⟩
  · -- a point that is drawn twice is drawn with the same colour
    by_cases hdi : D i x y
    · exact hnew x y hdi
    · have hj' : j ≠ i := fun hc => hdi (hc ▸ hd)
      rw [hold x y hdi]
      exact hdone j (by omega) x y hd
  · rw [hold x y (hy i (Nat.lt_succ_self i))]
    exact hleft x y fun j hj => hy j (by omega)

/-- A loop that draws every row, in any order. -/
theorem loop_all_rows {f : Nat → Buffer α (w * h) → Option (Buffer α (w * h))}
    {b : Buffer α (w * h)} (ρ : Nat → Int) (new : Int → Int → α)
    (hρ : ∀ y : Nat, y < h → ∃ i < h, ρ i = y)
    (hf : ∀ i < h, ∀ b', (∀ x y, (∀ j < i, ρ j ≠ y) → pixel b' x y = pixel b x y) →
      ∃ b'', f i b' = some b'' ∧
        ∀ x y, pixel b'' x y = if y = ρ i then new x y else pixel b' x y) :
    ∃ b', loop f h b = some b' ∧
      ∀ x y, pixel b' x y = if 0 ≤ y ∧ y < h then new x y else 0 := by
  obtain ⟨b', he, -, hnew, -⟩ := loop_draws (m := h) (fun b => b) (fun _ _ => True)
    (fun i _ y => ρ i = y) new trivial fun i hi b' _ hb => by
      obtain ⟨b'', hb', hpx⟩ := hf i hi b' hb
      exact ⟨b'', hb', trivial, fun x y hy => by rw [hpx, if_pos hy.symm],
        fun x y hy => by rw [hpx, if_neg fun hc => hy hc.symm]⟩
  refine ⟨b', he, fun x y => ?_⟩
  split
  · rename_i hy
    obtain ⟨y, rfl⟩ := Int.eq_ofNat_of_zero_le hy.1
    obtain ⟨i, hi, hi'⟩ := hρ y (by omega)
    exact hnew i hi x _ hi'
  · exact pixel_outside _ (by omega)

end Raster
