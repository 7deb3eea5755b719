/-
  File:      MicrobitAlarm/Lib/Cursor.lean
  Subject:   A LOOP OVER A LINKED LIST that may grow while the loop runs.

  The loop holds a pointer to an element, or nothing at the end. What is AHEAD of it are that
  element and those behind it in the list as it is now, so an element that is put into the list
  somewhere adds itself at most, and every element that is there is come to once.

  * `ahead`, `succ` -- what is still to come; the next pointer;
  * `ahead_succ` -- a step of the loop leaves one element behind;
  * `mem_ahead_insert`, `ahead_subset_insert`, and the same for what is behind the pointer
    (`rest`): an insertion only adds.
-/
import Mathlib.Data.List.Nodup
import Mathlib.Data.List.TakeWhile

namespace Cursor

variable {α : Type} [DecidableEq α]

/-- The elements from the pointer on. -/
def ahead (l : List α) : Option α → List α
  | none => []
  | some a => l.dropWhile (· ≠ a)

/-- The elements behind the one the pointer is at. -/
def rest (l : List α) (c : Option α) : List α := (ahead l c).drop 1

/-- The pointer to the next element. -/
def succ (l : List α) (a : α) : Option α := (rest l (some a)).head?

@[simp] theorem ahead_none (l : List α) : ahead l none = [] := rfl

@[simp] theorem rest_none (l : List α) : rest l none = [] := rfl

/-- A loop begins at the first element. -/
theorem ahead_head (l : List α) : ahead l l.head? = l := by
  cases l with
  | nil => rfl
  | cons a l => rw [List.head?_cons, ahead, List.dropWhile_cons_of_neg (by simp)]

/-- Where the pointer stands. -/
theorem ahead_append {a : α} {l r : List α} (h : a ∉ l) : ahead (l ++ a :: r) (some a) = a :: r := by
  have hpass : ∀ b ∈ l, decide (b ≠ a) = true := fun b hb => by
    simpa using fun e : b = a => h (e ▸ hb)
  rw [ahead, List.dropWhile_append_of_pos hpass, List.dropWhile_cons_of_neg (by simp)]

theorem rest_append {a : α} {l r : List α} (h : a ∉ l) : rest (l ++ a :: r) (some a) = r := by
  rw [rest, ahead_append h]
  rfl

theorem ahead_eq_cons {a : α} {l : List α} (h : a ∈ l) :
    ahead l (some a) = a :: rest l (some a) := by
  obtain ⟨s, t, rfl, hs⟩ := List.eq_append_cons_of_mem h
  rw [ahead_append hs, rest_append hs]

/-- **A step of the loop** leaves one element behind. -/
theorem ahead_succ {a : α} {l : List α} (hl : l.Nodup) (h : a ∈ l) :
    ahead l (succ l a) = rest l (some a) := by
  obtain ⟨s, t, rfl, hs⟩ := List.eq_append_cons_of_mem h
  rw [succ, rest_append hs]
  cases t with
  | nil => rfl
  | cons b t =>
      have hb : b ∉ s ++ [a] := fun hb => by
        rw [List.append_cons] at hl
        exact (List.nodup_append.mp hl).2.2 b hb b List.mem_cons_self rfl
      rw [List.append_cons, List.head?_cons, ahead_append hb]

/-- The pointer moves to an element of the list. -/
theorem succ_mem {a b : α} {l : List α} (h : succ l a = some b) : b ∈ l := by
  have hb : b ∈ rest l (some a) := List.mem_of_head? h
  exact (l.dropWhile_suffix _).mem (List.mem_of_mem_drop hb)

/-- The element at the pointer is not behind it. -/
theorem notMem_rest {a : α} {l : List α} (hl : l.Nodup) : a ∉ rest l (some a) := by
  by_cases h : a ∈ l
  · obtain ⟨s, t, rfl, hs⟩ := List.eq_append_cons_of_mem h
    rw [rest_append hs]
    exact (List.nodup_cons.mp (List.nodup_append.mp hl).2.1).1
  · exact fun ha => h ((l.dropWhile_suffix _).mem (List.mem_of_mem_drop ha))

/-! ## An insertion -/

variable {a n x : α} {s t : List α} {c : Option α}

/-- An element is put into the list, in front of the pointer or behind it. -/
theorem rest_insert (hn : n ≠ a) (h : a ∈ s ++ t) : ∃ p q, rest (s ++ t) (some a) = p ++ q ∧
    (rest (s ++ n :: t) (some a) = p ++ n :: q ∨ rest (s ++ n :: t) (some a) = p ++ q) := by
  by_cases hs : a ∈ s
  · obtain ⟨u, v, rfl, hu⟩ := List.eq_append_cons_of_mem hs
    rw [List.append_assoc, List.append_assoc, List.cons_append, List.cons_append, rest_append hu,
      rest_append hu]
    exact ⟨v, t, rfl, .inl rfl⟩
  · obtain ⟨u, v, rfl, hu⟩ := List.eq_append_cons_of_mem ((List.mem_append.mp h).resolve_left hs)
    have h1 : a ∉ s ++ u := fun hm => (List.mem_append.mp hm).elim hs hu
    have h2 : a ∉ s ++ n :: u := fun hm => by
      rcases List.mem_append.mp hm with hm | hm
      · exact hs hm
      · exact (List.mem_cons.mp hm).elim (fun e => hn e.symm) hu
    rw [← List.append_assoc, rest_append h1, ← List.cons_append, ← List.append_assoc,
      rest_append h2]
    exact ⟨v, [], (List.append_nil v).symm, .inr (List.append_nil v).symm⟩

/-- Nothing but the new element is added to what is to come. -/
theorem mem_rest_insert (hn : n ≠ a) (h : a ∈ s ++ t) (hx : x ∈ rest (s ++ n :: t) (some a)) :
    x = n ∨ x ∈ rest (s ++ t) (some a) := by
  obtain ⟨p, q, hold, hnew | hnew⟩ := rest_insert hn h
  · rw [hnew] at hx
    rw [hold]
    simp only [List.mem_append, List.mem_cons] at hx ⊢
    tauto
  · exact .inr (by rwa [hold, ← hnew])

/-- Nothing is lost. -/
theorem rest_subset_insert (hn : n ≠ a) (h : a ∈ s ++ t) :
    rest (s ++ t) (some a) ⊆ rest (s ++ n :: t) (some a) := by
  obtain ⟨p, q, hold, hnew | hnew⟩ := rest_insert hn h
  · rw [hold, hnew]
    exact List.append_subset.mpr ⟨List.subset_append_left .., fun y hy =>
      List.mem_append_right _ (List.mem_cons_of_mem _ hy)⟩
  · rw [hold, hnew]
    exact List.Subset.refl _

omit [DecidableEq α] in
/-- An element of the list stays one. -/
theorem mem_insert (h : a ∈ s ++ t) : a ∈ s ++ n :: t := by
  simp only [List.mem_append, List.mem_cons] at h ⊢
  tauto

theorem mem_ahead_insert (hc : ∀ a, c = some a → n ≠ a ∧ a ∈ s ++ t)
    (hx : x ∈ ahead (s ++ n :: t) c) : x = n ∨ x ∈ ahead (s ++ t) c := by
  cases c with
  | none => cases hx
  | some a =>
      obtain ⟨hn, ha⟩ := hc a rfl
      rw [ahead_eq_cons (mem_insert ha)] at hx
      rw [ahead_eq_cons ha]
      rcases List.mem_cons.mp hx with rfl | hx
      · exact .inr List.mem_cons_self
      · exact (mem_rest_insert hn ha hx).imp_right (List.mem_cons_of_mem _)

theorem ahead_subset_insert (hc : ∀ a, c = some a → n ≠ a ∧ a ∈ s ++ t) :
    ahead (s ++ t) c ⊆ ahead (s ++ n :: t) c := by
  cases c with
  | none => exact List.Subset.refl _
  | some a =>
      obtain ⟨hn, ha⟩ := hc a rfl
      rw [ahead_eq_cons ha, ahead_eq_cons (mem_insert ha)]
      exact List.cons_subset_cons _ (rest_subset_insert hn ha)

end Cursor
