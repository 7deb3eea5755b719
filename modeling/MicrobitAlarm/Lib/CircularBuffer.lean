/-
  File:      MicrobitAlarm/Lib/CircularBuffer.lean
  Subject:   THE CIRCULAR BUFFER THAT KEEPS ONE SLOT FREE, over any type and any size.

  A buffer of `n` cells with a head (where the producer writes) and a tail (where the consumer
  reads); equal indices mean empty, so `n - 1` cells can be filled. Both indices are below `n` by
  their type. `contents` reads the buffer as a queue, oldest first:

  * `contents_put` / `put_full` -- a put on a buffer that is not full appends one item, a put on a
    full one changes nothing;
  * `contents_pop` -- the front and a pop take the queue apart;
  * `full_iff` -- full means exactly `n - 1` items.
-/
import Mathlib.Data.List.Basic

/-- A circular buffer of `n` cells. -/
structure CircularBuffer (α : Type) (n : Nat) where
  buf : Vector α n
  head : Fin n
  tail : Fin n
  deriving DecidableEq, Repr

namespace CircularBuffer

variable {α : Type} {n : Nat}

/-! ## 1. The operations -/

/-- The index after `i`, wrapped. -/
def next (i : Fin n) : Fin n := ⟨(i.val + 1) % n, Nat.mod_lt _ (by have := i.isLt; omega)⟩

/-- The number of buffered items. -/
def size (r : CircularBuffer α n) : Nat :=
  if r.head.val < r.tail.val then (n - r.tail.val) + r.head.val else r.head.val - r.tail.val

/-- No room: one more item would make head and tail equal. -/
def full (r : CircularBuffer α n) : Bool := next r.head == r.tail

/-- Writes at the head, unless the buffer is full. -/
def put (r : CircularBuffer α n) (a : α) : CircularBuffer α n :=
  if r.full then r else { r with buf := r.buf.set r.head.val a, head := next r.head }

/-- The item at the tail. -/
def front (r : CircularBuffer α n) : α := r.buf[r.tail.val]

/-- Moves the tail on by one. -/
def pop (r : CircularBuffer α n) : CircularBuffer α n := { r with tail := next r.tail }

/-- Moves the tail up to the head. -/
def drain (r : CircularBuffer α n) : CircularBuffer α n := { r with tail := r.head }

/-- The index of the `i`th item from the tail. -/
def slot (r : CircularBuffer α n) (i : Nat) : Fin n :=
  ⟨(r.tail.val + i) % n, Nat.mod_lt _ (by have := r.tail.isLt; omega)⟩

/-- **The buffer read as a queue**, oldest item first. -/
def contents (r : CircularBuffer α n) : List α :=
  (List.range r.size).map fun i => r.buf[(r.slot i).val]

/-! ## 2. Sizes -/

theorem next_val (i : Fin n) : (next i).val = if i.val + 1 = n then 0 else i.val + 1 := by
  have hi := i.isLt
  unfold next
  split
  · rename_i h
    simp [h]
  · exact Nat.mod_eq_of_lt (by omega)

theorem slot_val (r : CircularBuffer α n) {i : Nat} (hi : i < n) :
    (r.slot i).val = if r.tail.val + i < n then r.tail.val + i else r.tail.val + i - n := by
  have ht := r.tail.isLt
  unfold slot
  split
  · rename_i h
    exact Nat.mod_eq_of_lt h
  · rename_i h
    show (r.tail.val + i) % n = _
    rw [Nat.mod_eq_sub_mod (by omega), Nat.mod_eq_of_lt (by omega)]

theorem size_lt (r : CircularBuffer α n) : r.size < n := by
  have hh := r.head.isLt
  have ht := r.tail.isLt
  unfold size
  split <;> omega

@[simp] theorem length_contents (r : CircularBuffer α n) : r.contents.length = r.size := by
  simp [contents]

/-- Full is: one item short of the number of cells. -/
theorem full_iff (r : CircularBuffer α n) : r.full = true ↔ r.size + 1 = n := by
  have hh := r.head.isLt
  have ht := r.tail.isLt
  have e : r.full = true ↔ (next r.head).val = r.tail.val := by
    unfold full
    rw [beq_iff_eq, Fin.ext_iff]
  rw [e, next_val]
  unfold size
  split <;> split <;> omega

theorem size_eq_zero (r : CircularBuffer α n) : r.size = 0 ↔ r.contents = [] := by
  rw [← length_contents, List.length_eq_zero_iff]

/-! ## 3. The operations on the queue -/

theorem put_full {r : CircularBuffer α n} (h : r.full = true) (a : α) : r.put a = r := by
  simp [put, h]

theorem size_put {r : CircularBuffer α n} (h : r.full = false) (a : α) :
    (r.put a).size = r.size + 1 := by
  have hh := r.head.isLt
  have ht := r.tail.isLt
  have hs := r.size_lt
  have hf : ¬ r.size + 1 = n := fun e => by rw [(full_iff r).mpr e] at h; cases h
  have e1 : (r.put a).head = next r.head := by simp [put, h]
  have e2 : (r.put a).tail = r.tail := by simp [put, h]
  unfold size at hf hs ⊢
  rw [e1, e2, next_val]
  split at hf <;> split <;> split <;> omega

/-- The cell written by a put is not one of the buffered ones. -/
theorem slot_ne_head (r : CircularBuffer α n) {i : Nat} (hi : i < r.size) :
    (r.slot i).val ≠ r.head.val := by
  have hh := r.head.isLt
  have ht := r.tail.isLt
  have hs := r.size_lt
  rw [slot_val r (by omega)]
  unfold size at hi hs
  split at hi <;> split <;> omega

/-- The cell after the last buffered one is the head. -/
theorem slot_size (r : CircularBuffer α n) : (r.slot r.size).val = r.head.val := by
  have hh := r.head.isLt
  have ht := r.tail.isLt
  rw [slot_val r r.size_lt]
  unfold size
  split <;> split <;> omega

/-- **A put on a buffer that is not full appends to the queue.** -/
theorem contents_put {r : CircularBuffer α n} (h : r.full = false) (a : α) :
    (r.put a).contents = r.contents ++ [a] := by
  have eb : (r.put a).buf = r.buf.set r.head.val a := by simp [put, h]
  have ea : ∀ i, (r.put a).slot i = r.slot i := fun i => by simp [slot, put, h]
  unfold contents
  rw [size_put h, List.range_succ, List.map_append]
  congr 1
  · refine List.map_congr_left fun i hi => ?_
    have hne := slot_ne_head r (List.mem_range.mp hi)
    simp only [eb, ea]
    exact Vector.getElem_set_ne _ _ (Ne.symm hne)
  · simp only [List.map_cons, List.map_nil, eb, ea, List.cons.injEq, and_true]
    have e := slot_size r
    simp [e]

theorem size_pop {r : CircularBuffer α n} (h : r.size ≠ 0) : (r.pop).size + 1 = r.size := by
  have hh := r.head.isLt
  have ht := r.tail.isLt
  have e1 : r.pop.head = r.head := rfl
  have e2 : r.pop.tail = next r.tail := rfl
  unfold size at h ⊢
  rw [e1, e2, next_val]
  split at h <;> split <;> split <;> omega

/-- **Front and pop take the first item off the queue.** -/
theorem contents_pop {r : CircularBuffer α n} (h : r.size ≠ 0) :
    r.contents = r.front :: r.pop.contents := by
  have ht := r.tail.isLt
  have hs := r.size_lt
  unfold contents
  rw [← size_pop h, List.range_succ_eq_map, List.map_cons, List.map_map]
  congr 1
  · have e : (r.slot 0).val = r.tail.val := by
      rw [slot_val r (by omega)]
      split <;> omega
    simp [front, e]
  · refine List.map_congr_left fun i hi => ?_
    have hi' := List.mem_range.mp hi
    have hp := size_pop h
    have e : (r.slot (i + 1)).val = (r.pop.slot i).val := by
      rw [slot_val r (by omega), slot_val r.pop (by omega)]
      have e2 : r.pop.tail = next r.tail := rfl
      rw [e2, next_val]
      split <;> split <;> split <;> omega
    show r.buf[(r.slot (i + 1)).val] = r.buf[(r.pop.slot i).val]
    simp only [e]

end CircularBuffer
