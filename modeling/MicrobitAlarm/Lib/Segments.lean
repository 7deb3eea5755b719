/-
  File:      MicrobitAlarm/Lib/Segments.lean
  Subject:   SEQUENCES WITH MARKERS: some items open a segment, some close one, and what the other
             items are depends on the last marker before them. Over any type.

  Everything is said by looking back from where one stands, without a state that is carried along:
  a segment is open if the last marker opens one (`isOpen`), the segment opened last is what lies
  behind the last opening up to the next marker (`segment`), and the items outside are those whose
  last marker before them opens nothing (`outside`).

  * `isOpen_snoc`, `segment_snoc`, `outside_snoc` -- what one more item does to each of them; a
    program that keeps them in variables is right if its step does the same.
-/
import Mathlib.Data.List.Induction
import Mathlib.Data.List.TakeWhile

namespace Segments

variable {α : Type} (opens closes : α → Bool)

/-! ## 1. Looking back -/

/-- An item that opens or closes a segment. -/
def marker (x : α) : Bool := opens x || closes x

/-- The last marker. -/
def lastMarker (xs : List α) : Option α := xs.reverse.find? (marker opens closes)

/-- **A segment is open** behind the items. -/
def isOpen (xs : List α) : Bool := (lastMarker opens closes xs).any opens

/-- What lies behind the last opening; nothing if there is none. -/
def behindOpening (xs : List α) : List α :=
  if xs.any opens then (xs.reverse.takeWhile fun x => !opens x).reverse else []

/-- **The segment opened last**: the items behind the last opening and before the next marker. -/
def segment (xs : List α) : List α :=
  (behindOpening opens xs).takeWhile fun x => !marker opens closes x

/-- The items, each with those before it. -/
def withPast : List α → List α → List (List α × α)
  | _, [] => []
  | past, x :: xs => (past, x) :: withPast (past ++ [x]) xs

/-- **The items outside all segments**: no markers, and the last marker before them opens
    nothing. -/
def outside (xs : List α) : List α :=
  ((withPast [] xs).filter fun p => !marker opens closes p.2 && !isOpen opens closes p.1).map (·.2)

/-! ## 2. One more item -/

variable {opens closes} {xs : List α} {x : α}

theorem withPast_append (past xs ys : List α) :
    withPast past (xs ++ ys) = withPast past xs ++ withPast (past ++ xs) ys := by
  induction xs generalizing past with
  | nil => simp [withPast]
  | cons x xs ih =>
      rw [List.cons_append, withPast, withPast, ih, List.append_assoc]
      rfl

theorem lastMarker_snoc :
    lastMarker opens closes (xs ++ [x]) =
      if marker opens closes x then some x else lastMarker opens closes xs := by
  unfold lastMarker
  rw [List.reverse_append, List.reverse_singleton, List.singleton_append, List.find?_cons]
  cases marker opens closes x <;> rfl

/-- A marker decides what is open behind it; any other item leaves it. -/
theorem isOpen_snoc :
    isOpen opens closes (xs ++ [x]) =
      if marker opens closes x then opens x else isOpen opens closes xs := by
  unfold isOpen
  rw [lastMarker_snoc]
  split <;> rfl

theorem marker_of_opens (h : opens x = true) : marker opens closes x = true := by
  rw [marker, h, Bool.true_or]

theorem behindOpening_snoc :
    behindOpening opens (xs ++ [x]) =
      if opens x then [] else if xs.any opens then behindOpening opens xs ++ [x] else [] := by
  unfold behindOpening
  rw [List.any_append, List.reverse_append, List.reverse_singleton, List.singleton_append,
    List.takeWhile_cons]
  cases hx : opens x with
  | true => simp [hx]
  | false =>
      cases hxs : xs.any opens with
      | true => simp [hx]
      | false => simp [hx]

/-- **A segment is open exactly if** there is an opening and no marker behind the last one. -/
theorem isOpen_iff :
    isOpen opens closes xs = true ↔
      xs.any opens = true ∧ ∀ y ∈ behindOpening opens xs, marker opens closes y = false := by
  induction xs using List.reverseRecOn with
  | nil => simp [isOpen, lastMarker]
  | append_singleton xs x ih =>
      rw [isOpen_snoc, behindOpening_snoc, List.any_append]
      cases hx : opens x with
      | true => simp [marker_of_opens hx, hx]
      | false =>
          cases hm : marker opens closes x with
          | true =>
              cases hxs : xs.any opens with
              | true => simp [hm]
              | false => simp [hx]
          | false =>
              rw [if_neg Bool.false_ne_true, ih]
              cases hxs : xs.any opens with
              | true => simp [or_imp, forall_and, hm]
              | false => simp [hx]

/-- An opening starts a new segment, an item of an open segment goes to its end, and anything else
    leaves it. -/
theorem segment_snoc :
    segment opens closes (xs ++ [x]) =
      if opens x then []
      else if isOpen opens closes xs && !marker opens closes x then segment opens closes xs ++ [x]
      else segment opens closes xs := by
  unfold segment
  rw [behindOpening_snoc]
  cases hx : opens x with
  | true => simp
  | false =>
      cases hxs : xs.any opens with
      | false =>
          have ho : isOpen opens closes xs = false := by
            rw [← Bool.not_eq_true, isOpen_iff, hxs]
            simp
          simp [ho, behindOpening, hxs]
      | true =>
          simp only [Bool.false_eq_true, if_false, if_true]
          cases ho : isOpen opens closes xs with
          | true =>
              have hall : ∀ y ∈ behindOpening opens xs, (!marker opens closes y) = true :=
                fun y hy => by simp [(isOpen_iff.mp ho).2 y hy]
              rw [List.takeWhile_append_of_pos hall, List.takeWhile_eq_self_iff.mpr hall,
                List.takeWhile_cons]
              cases marker opens closes x <;> simp
          | false =>
              -- a marker lies behind the last opening already
              have hex : ¬ ∀ y ∈ behindOpening opens xs, marker opens closes y = false := by
                intro hall
                rw [isOpen_iff.mpr ⟨hxs, hall⟩] at ho
                cases ho
              rw [List.takeWhile_append, if_neg]
              · simp
              · intro hlen
                have hself := (List.takeWhile_prefix (l := behindOpening opens xs)
                  (fun y => !marker opens closes y)).eq_of_length hlen
                exact hex fun y hy => by simpa using List.takeWhile_eq_self_iff.mp hself y hy

/-- An item that is no marker is outside exactly if no segment is open. -/
theorem outside_snoc :
    outside opens closes (xs ++ [x]) =
      if !marker opens closes x && !isOpen opens closes xs then outside opens closes xs ++ [x]
      else outside opens closes xs := by
  unfold outside
  rw [withPast_append, List.filter_append, List.map_append, List.nil_append, withPast, withPast,
    List.filter_cons, List.filter_nil]
  split <;> simp

end Segments
