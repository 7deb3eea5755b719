/-
  File:      MicrobitAlarm/Lib/Framing.lean
  Subject:   STREAMS CUT INTO FRAMES BY A TERMINATOR, over any type.

  A stream is read item by item; an item that ends a frame closes the one being built. `frames`
  are the closed frames (each with its terminator), `rest` is what has been read of the next one.
  The terminator is a predicate `d`, so that items may carry more than what ends a frame.

  * `flatten_frames` -- nothing is lost: the frames and the rest are the stream;
  * `isFrame_of_mem` -- each frame ends in a terminator and has no other;
  * `frames_of_flatten` -- cutting undoes joining: a list of frames followed by an open rest is
    recovered from the joined stream;
  * `frames_append` -- what is read later never changes a closed frame;
  * `cut_filterMap` -- cutting commutes with a translation of the items.
-/
import Mathlib.Data.List.Induction

namespace Framing

variable {α : Type} (d : α → Bool)

/-! ## 1. Cutting a stream -/

/-- One item read: it goes to the open frame, and closes it if it is a terminator. -/
def feed (st : List (List α) × List α) (x : α) : List (List α) × List α :=
  if d x then (st.1 ++ [st.2 ++ [x]], []) else (st.1, st.2 ++ [x])

/-- The closed frames of a stream and the open rest. -/
def cut (xs : List α) : List (List α) × List α := xs.foldl (feed d) ([], [])

/-- The closed frames, terminators included. -/
def frames (xs : List α) : List (List α) := (cut d xs).1

/-- What has been read of the frame not yet closed. -/
def rest (xs : List α) : List α := (cut d xs).2

/-- **A frame**: its last item is its only terminator. -/
def IsFrame (l : List α) : Prop := ∃ b x, l = b ++ [x] ∧ d x = true ∧ ∀ y ∈ b, d y = false

variable {d}

@[simp] theorem frames_nil : frames d [] = [] := rfl

@[simp] theorem rest_nil : rest d [] = [] := rfl

theorem cut_snoc (xs : List α) (x : α) : cut d (xs ++ [x]) = feed d (cut d xs) x := by
  simp [cut]

theorem frames_snoc (xs : List α) (x : α) :
    frames d (xs ++ [x]) =
      if d x then frames d xs ++ [rest d xs ++ [x]] else frames d xs := by
  simp only [frames, rest, cut_snoc, feed]
  split <;> rfl

theorem rest_snoc (xs : List α) (x : α) :
    rest d (xs ++ [x]) = if d x then [] else rest d xs ++ [x] := by
  simp only [rest, cut_snoc, feed]
  split <;> rfl

/-! ## 2. Frames and rest are the stream -/

/-- **Nothing is lost.** -/
theorem flatten_frames (xs : List α) : (frames d xs).flatten ++ rest d xs = xs := by
  induction xs using List.reverseRecOn with
  | nil => rfl
  | append_singleton xs x ih =>
      rw [frames_snoc, rest_snoc]
      split
      · rw [List.flatten_append, List.append_nil, List.flatten_singleton, ← List.append_assoc, ih]
      · rw [← List.append_assoc, ih]

/-- The rest holds no terminator. -/
theorem not_mem_rest (xs : List α) : ∀ y ∈ rest d xs, d y = false := by
  induction xs using List.reverseRecOn with
  | nil => simp
  | append_singleton xs x ih =>
      rw [rest_snoc]
      split
      · simp
      · rename_i hx
        intro y hy
        rcases List.mem_append.mp hy with hy | hy
        · exact ih y hy
        · rw [List.mem_singleton.mp hy]
          simpa using hx

/-- **Each closed frame ends in its only terminator.** -/
theorem isFrame_of_mem {xs l : List α} (h : l ∈ frames d xs) : IsFrame d l := by
  induction xs using List.reverseRecOn with
  | nil => simp at h
  | append_singleton xs x ih =>
      rw [frames_snoc] at h
      split at h
      · rename_i hx
        rcases List.mem_append.mp h with h | h
        · exact ih h
        · rw [List.mem_singleton.mp h]
          exact ⟨rest d xs, x, rfl, hx, not_mem_rest xs⟩
      · exact ih h

/-! ## 3. Reading on -/

/-- The two components of a fold started with frames already closed. -/
theorem foldl_feed (fs : List (List α)) (cur xs : List α) :
    xs.foldl (feed d) (fs, cur) =
      (fs ++ (xs.foldl (feed d) ([], cur)).1, (xs.foldl (feed d) ([], cur)).2) := by
  induction xs using List.reverseRecOn with
  | nil => simp
  | append_singleton xs x ih =>
      simp only [List.foldl_append, List.foldl_cons, List.foldl_nil, ih, feed]
      split <;> simp

/-- **What is read later only adds frames.** -/
theorem frames_append (xs ys : List α) :
    ∃ fs, frames d (xs ++ ys) = frames d xs ++ fs := by
  refine ⟨(ys.foldl (feed d) ([], rest d xs)).1, ?_⟩
  simp only [frames, cut, List.foldl_append]
  rw [show xs.foldl (feed d) ([], []) = (frames d xs, rest d xs) from rfl, foldl_feed]

/-- Behind a closed frame the stream is cut afresh. -/
theorem cut_append_of_rest_nil {xs : List α} (h : rest d xs = []) (ys : List α) :
    cut d (xs ++ ys) = (frames d xs ++ frames d ys, rest d ys) := by
  simp only [cut, List.foldl_append]
  rw [show xs.foldl (feed d) ([], []) = (frames d xs, rest d xs) from rfl, h, foldl_feed]
  rfl

/-- Items that end no frame are all rest. -/
theorem cut_of_open {b : List α} (h : ∀ y ∈ b, d y = false) : cut d b = ([], b) := by
  induction b using List.reverseRecOn with
  | nil => rfl
  | append_singleton b x ih =>
      have hb : ∀ y ∈ b, d y = false := fun y hy => h y (List.mem_append_left _ hy)
      have hx : d x = false := h x (by simp)
      rw [cut_snoc, ih hb]
      simp [feed, hx]

theorem cut_of_isFrame {l : List α} (h : IsFrame d l) : cut d l = ([l], []) := by
  obtain ⟨b, x, rfl, hx, hb⟩ := h
  rw [cut_snoc, cut_of_open hb]
  simp [feed, hx]

/-- **Cutting undoes joining**: frames followed by an open rest are recovered from the stream. -/
theorem cut_of_flatten {ls : List (List α)} {r : List α} (hl : ∀ l ∈ ls, IsFrame d l)
    (hr : ∀ y ∈ r, d y = false) : cut d (ls.flatten ++ r) = (ls, r) := by
  induction ls with
  | nil => simpa using cut_of_open hr
  | cons l ls ih =>
      have h1 := cut_of_isFrame (hl l List.mem_cons_self)
      have h2 := ih fun l' hl' => hl l' (List.mem_cons_of_mem _ hl')
      rw [List.flatten_cons, List.append_assoc,
        cut_append_of_rest_nil (by rw [rest, h1]), frames, frames, rest, h1, h2]
      rfl

theorem frames_of_flatten {ls : List (List α)} (hl : ∀ l ∈ ls, IsFrame d l) :
    frames d ls.flatten = ls := by
  have h := cut_of_flatten (r := []) hl (by simp)
  rw [List.append_nil] at h
  rw [frames, h]

theorem rest_of_flatten {ls : List (List α)} (hl : ∀ l ∈ ls, IsFrame d l) :
    rest d ls.flatten = [] := by
  have h := cut_of_flatten (r := []) hl (by simp)
  rw [List.append_nil] at h
  rw [rest, h]

/-- A stream that begins with open items has a frame or a rest at least as long. -/
theorem length_le_of_open {b : List α} (hb : ∀ y ∈ b, d y = false) (ys : List α) :
    ∃ l, (l ∈ frames d (b ++ ys) ∨ l = rest d (b ++ ys)) ∧ b.length ≤ l.length := by
  induction ys generalizing b with
  | nil =>
      refine ⟨b, .inr ?_, Nat.le_refl _⟩
      rw [List.append_nil, rest, cut_of_open hb]
  | cons y ys ih =>
      rw [show b ++ y :: ys = (b ++ [y]) ++ ys by simp]
      cases hy : d y with
      | true =>
          have hf : IsFrame d (b ++ [y]) := ⟨b, y, rfl, hy, hb⟩
          have hc := cut_of_isFrame hf
          refine ⟨b ++ [y], .inl ?_, by simp⟩
          rw [frames, cut_append_of_rest_nil (by rw [rest, hc]), frames, hc]
          simp
      | false =>
          have hb' : ∀ z ∈ b ++ [y], d z = false := by
            intro z hz
            rcases List.mem_append.mp hz with hz | hz
            · exact hb z hz
            · rw [List.mem_singleton.mp hz]
              exact hy
          obtain ⟨l, hl, hlen⟩ := ih hb'
          rw [List.length_append] at hlen
          exact ⟨l, hl, by omega⟩

/-! ## 4. Translated streams -/

/-- **Cutting commutes with a translation** that may drop items but keeps what ends a frame. -/
theorem cut_filterMap {β : Type} {e : β → Bool} {g : α → Option β}
    (hd : ∀ x, d x = true → ∃ y, g x = some y) (he : ∀ x y, g x = some y → e y = d x)
    (xs : List α) :
    cut e (xs.filterMap g) =
      ((frames d xs).map (List.filterMap g), (rest d xs).filterMap g) := by
  induction xs using List.reverseRecOn with
  | nil => rfl
  | append_singleton xs x ih =>
      rw [List.filterMap_append, frames_snoc, rest_snoc]
      cases hx : d x with
      | true =>
          obtain ⟨y, hy⟩ := hd x hx
          have hey : e y = true := (he x y hy).trans hx
          have hone : [x].filterMap g = [y] := by simp [hy]
          rw [hone, cut_snoc, ih]
          simp [feed, hey, hy]
      | false =>
          cases hg : g x with
          | none => simpa [hg] using ih
          | some y =>
              have hey : e y = false := (he x y hg).trans hx
              have hone : [x].filterMap g = [y] := by simp [hg]
              rw [hone, cut_snoc, ih]
              simp [feed, hey, hg]

/-- A frame among the frames of a stream, and what surrounds it. -/
theorem split_at_frame {xs f : List α} (h : f ∈ frames d xs) :
    ∃ a c, xs = a ++ (f ++ c) ∧ rest d a = [] := by
  obtain ⟨fs, gs, hfg⟩ := List.append_of_mem h
  have hflat := flatten_frames (d := d) xs
  rw [hfg] at hflat
  refine ⟨fs.flatten, gs.flatten ++ rest d xs, ?_, ?_⟩
  · simpa using hflat.symm
  · refine rest_of_flatten fun l hl => @isFrame_of_mem _ d xs l ?_
    rw [hfg]
    exact List.mem_append_left _ hl

/-- A frame read behind closed frames is a frame of the stream. -/
theorem mem_frames_of_isFrame {a f : List α} (ha : rest d a = []) (hf : IsFrame d f)
    (c : List α) : f ∈ frames d (a ++ (f ++ c)) := by
  have hc := cut_of_isFrame hf
  have hfc : cut d (f ++ c) = ([f] ++ frames d c, rest d c) := by
    rw [cut_append_of_rest_nil (by rw [rest, hc]), frames, hc]
  rw [frames, cut_append_of_rest_nil ha, frames, frames, hfc]
  simp

end Framing
