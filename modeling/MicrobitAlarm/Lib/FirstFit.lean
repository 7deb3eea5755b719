/-
  File:      MicrobitAlarm/Lib/FirstFit.lean
  Subject:   FIRST FIT WITH COALESCING, on a region cut into blocks.

  A region is the list of its blocks, each with its size and whether it is free; where a block
  begins is the sum of the sizes before it. A search passes the used blocks, joins each stretch of
  free blocks it meets into one, and stops at the first stretch that is large enough. A block that
  is released is only marked: it is joined to its neighbours by the next search.

  * `search`, `allocate`, `release` -- the algorithm;
  * `usedAt o bs` -- the used blocks with where they begin; allocating adds one (`allocate_some`),
    releasing takes one out (`usedAt_release`), and they never overlap (`usedAt_pairwise`);
  * `allocate_none` -- a request fails only if every stretch of free blocks is too small: what is
    joined late is not lost.
-/
import Mathlib.Data.List.Infix
import Mathlib.Data.List.TakeWhile

namespace FirstFit

/-! ## 1. Blocks -/

/-- A block of a region. -/
structure Block where
  size : Nat
  free : Bool
  deriving DecidableEq

/-- The size of a stretch of blocks. -/
def total : List Block → Nat
  | [] => 0
  | b :: bs => b.size + total bs

/-- The used blocks of a region that begins at `o`: where each begins, and its size. -/
def usedAt (o : Nat) : List Block → List (Nat × Nat)
  | [] => []
  | b :: bs => if b.free then usedAt (o + b.size) bs else (o, b.size) :: usedAt (o + b.size) bs

@[simp] theorem total_nil : total [] = 0 := rfl

@[simp] theorem total_cons (b : Block) (bs : List Block) : total (b :: bs) = b.size + total bs :=
  rfl

@[simp] theorem total_append (bs cs : List Block) : total (bs ++ cs) = total bs + total cs := by
  induction bs with
  | nil => simp
  | cons b bs ih => rw [List.cons_append, total_cons, ih, total_cons, Nat.add_assoc]

theorem total_takeWhile_add (p : Block → Bool) (bs : List Block) :
    total (bs.takeWhile p) + total (bs.dropWhile p) = total bs := by
  rw [← total_append, List.takeWhile_append_dropWhile]

theorem usedAt_append (o : Nat) (bs cs : List Block) :
    usedAt o (bs ++ cs) = usedAt o bs ++ usedAt (o + total bs) cs := by
  induction bs generalizing o with
  | nil => rfl
  | cons b bs ih =>
      simp only [List.cons_append, usedAt, total_cons, ih, Nat.add_assoc]
      split <;> rfl

theorem usedAt_of_free {o : Nat} {bs : List Block} (h : ∀ b ∈ bs, b.free = true) :
    usedAt o bs = [] := by
  induction bs generalizing o with
  | nil => rfl
  | cons b bs ih =>
      rw [usedAt, if_pos (h b List.mem_cons_self)]
      exact ih fun c hc => h c (List.mem_cons_of_mem _ hc)

theorem usedAt_bounds {o : Nat} {bs : List Block} {u : Nat × Nat} (h : u ∈ usedAt o bs) :
    o ≤ u.1 ∧ u.1 + u.2 ≤ o + total bs := by
  induction bs generalizing o with
  | nil => cases h
  | cons b bs ih =>
      rw [usedAt] at h
      rw [total_cons]
      split at h
      · have := ih h
        omega
      · rcases List.mem_cons.mp h with rfl | h
        · exact ⟨Nat.le_refl _, by simp only; omega⟩
        · have := ih h
          omega

/-- **Used blocks do not overlap**: they stand one behind the other. -/
theorem usedAt_pairwise (o : Nat) (bs : List Block) :
    (usedAt o bs).Pairwise fun u v => u.1 + u.2 ≤ v.1 := by
  induction bs generalizing o with
  | nil => exact .nil
  | cons b bs ih =>
      rw [usedAt]
      split
      · exact ih _
      · exact List.pairwise_cons.mpr ⟨fun v hv => (usedAt_bounds hv).1, ih _⟩

/-! ## 2. The search -/

theorem length_dropWhile_lt (p : Block → Bool) (b : Block) (bs : List Block) :
    (bs.dropWhile p).length < (b :: bs).length :=
  Nat.lt_succ_of_le (bs.dropWhile_suffix p).length_le

/-- **The search** for a free stretch of a size: the blocks passed, with their free stretches joined,
    and what it stops at: the size of the stretch, and the blocks behind it. -/
def search (need : Nat) : List Block → List Block × Option (Nat × List Block)
  | [] => ([], none)
  | b :: bs =>
    if b.free then
      if need ≤ b.size + total (bs.takeWhile Block.free) then
        ([], some (b.size + total (bs.takeWhile Block.free), bs.dropWhile Block.free))
      else
        (⟨b.size + total (bs.takeWhile Block.free), true⟩ ::
            (search need (bs.dropWhile Block.free)).1,
          (search need (bs.dropWhile Block.free)).2)
    else (b :: (search need bs).1, (search need bs).2)
termination_by bs => bs.length
decreasing_by
  · exact length_dropWhile_lt _ b bs
  · exact Nat.lt_succ_self _

/-- The stretch found, with what is asked for cut off its front. What is left must hold more than
    one unit. -/
def cut (need n : Nat) : List Block :=
  if n ≤ need + 1 then [⟨n, false⟩] else [⟨need, false⟩, ⟨n - need, true⟩]

/-- **Allocation**: the blocks left, and where the new one begins. -/
def allocate (need : Nat) (bs : List Block) : List Block × Option Nat :=
  match search need bs with
  | (pre, none) => (pre, none)
  | (pre, some (n, rest)) => (pre ++ cut need n ++ rest, some (total pre))

/-- **Release** of the block that begins at an offset. -/
def release : Nat → List Block → List Block
  | _, [] => []
  | o, b :: bs => if o = 0 then ⟨b.size, true⟩ :: bs else b :: release (o - b.size) bs

variable {need o n : Nat} {bs pre rest : List Block}

theorem search_used {b : Block} (h : b.free = false) :
    search need (b :: bs) = (b :: (search need bs).1, (search need bs).2) := by
  rw [search, if_neg (by simp [h])]

theorem search_enough {b : Block} (h : b.free = true)
    (hn : need ≤ b.size + total (bs.takeWhile Block.free)) :
    search need (b :: bs) =
      ([], some (b.size + total (bs.takeWhile Block.free), bs.dropWhile Block.free)) := by
  rw [search, if_pos h]
  exact if_pos hn

theorem search_short {b : Block} (h : b.free = true)
    (hn : ¬ need ≤ b.size + total (bs.takeWhile Block.free)) :
    search need (b :: bs) =
      (⟨b.size + total (bs.takeWhile Block.free), true⟩ ::
          (search need (bs.dropWhile Block.free)).1,
        (search need (bs.dropWhile Block.free)).2) := by
  rw [search, if_pos h]
  exact if_neg hn

/-- The blocks behind a search, the stretch found as one free block. -/
def joined : Option (Nat × List Block) → List Block
  | none => []
  | some (n, rest) => ⟨n, true⟩ :: rest

/-- Joining a stretch of free blocks does not move the used ones. -/
theorem usedAt_join {b : Block} (h : b.free = true) :
    usedAt o (⟨b.size + total (bs.takeWhile Block.free), true⟩ :: bs.dropWhile Block.free) =
      usedAt o (b :: bs) := by
  have hfree : usedAt (o + b.size) (bs.takeWhile Block.free) = [] :=
    usedAt_of_free fun c hc => List.mem_takeWhile_imp hc
  have hsplit := usedAt_append (o + b.size) (bs.takeWhile Block.free) (bs.dropWhile Block.free)
  rw [List.takeWhile_append_dropWhile, hfree, List.nil_append] at hsplit
  rw [usedAt, if_pos rfl, usedAt, if_pos h, hsplit, Nat.add_assoc]

theorem total_join (b : Block) :
    b.size + total (bs.takeWhile Block.free) + total (bs.dropWhile Block.free) =
      total (b :: bs) := by
  rw [Nat.add_assoc, total_takeWhile_add, total_cons]

/-- **A search only joins free blocks.** -/
theorem search_spec (need : Nat) (bs : List Block) :
    total ((search need bs).1 ++ joined (search need bs).2) = total bs ∧
      ∀ o, usedAt o ((search need bs).1 ++ joined (search need bs).2) = usedAt o bs := by
  induction bs using search.induct need with
  | case1 =>
      rw [search]
      exact ⟨rfl, fun _ => rfl⟩
  | case2 b bs hb hn =>
      rw [search_enough hb hn]
      exact ⟨total_join b, fun o => usedAt_join hb⟩
  | case3 b bs hb hn ih =>
      rw [search_short hb hn]
      refine ⟨?_, fun o => ?_⟩
      · rw [List.cons_append, total_cons, ih.1, total_join]
      · rw [← usedAt_join hb, List.cons_append, usedAt, ih.2, usedAt]
  | case4 b bs hb ih =>
      rw [search_used (by simpa using hb)]
      refine ⟨?_, fun o => ?_⟩
      · rw [List.cons_append, total_cons, ih.1, total_cons]
      · rw [List.cons_append, usedAt, ih.2, usedAt]

/-- What a search stops at is large enough. -/
theorem search_le (h : (search need bs).2 = some (n, rest)) : need ≤ n := by
  induction bs using search.induct need with
  | case1 => rw [search] at h; cases h
  | case2 b bs hb hn =>
      rw [search_enough hb hn] at h
      cases h
      exact hn
  | case3 b bs hb hn ih =>
      rw [search_short hb hn] at h
      exact ih h
  | case4 b bs hb ih =>
      rw [search_used (by simpa using hb)] at h
      exact ih h

/-- A stretch of free blocks lies within the first maximal one, or behind it. -/
theorem stretch_cases {l run r : List Block} (h : bs = l ++ run ++ r)
    (hrun : ∀ b ∈ run, b.free = true) :
    total run ≤ total (bs.takeWhile Block.free) ∨
      ∃ l', bs.dropWhile Block.free = l' ++ run ++ r := by
  induction bs generalizing l with
  | nil =>
      obtain ⟨h', rfl⟩ := List.append_eq_nil_iff.mp h.symm
      obtain ⟨rfl, rfl⟩ := List.append_eq_nil_iff.mp h'
      exact .inl (Nat.le_refl _)
  | cons b bs ih =>
      by_cases hb : b.free = true
      · rw [List.takeWhile_cons_of_pos hb, List.dropWhile_cons_of_pos hb]
        cases l with
        | nil =>
            left
            rw [← List.takeWhile_cons_of_pos hb, h, List.nil_append,
              List.takeWhile_append_of_pos hrun, total_append]
            exact Nat.le_add_right _ _
        | cons c l =>
            obtain ⟨-, hbs⟩ := List.cons.inj h
            exact (ih hbs).imp_left Nat.le_add_left_of_le
      · rw [List.dropWhile_cons_of_neg hb]
        exact .inr ⟨l, h⟩

/-- **A search stops nowhere only if every free stretch is too small.** -/
theorem search_none (hneed : 0 < need) (h : (search need bs).2 = none) {l run r : List Block}
    (hbs : bs = l ++ run ++ r) (hrun : ∀ b ∈ run, b.free = true) : total run < need := by
  induction bs using search.induct need generalizing l with
  | case1 =>
      obtain ⟨h', rfl⟩ := List.append_eq_nil_iff.mp hbs.symm
      obtain ⟨rfl, rfl⟩ := List.append_eq_nil_iff.mp h'
      exact hneed
  | case2 b bs hb hn => rw [search_enough hb hn] at h; cases h
  | case3 b bs hb hn ih =>
      rw [search_short hb hn] at h
      rcases stretch_cases hbs hrun with hle | ⟨l', hl'⟩
      · rw [List.takeWhile_cons_of_pos hb, total_cons] at hle
        omega
      · rw [List.dropWhile_cons_of_pos hb] at hl'
        exact ih h hl'
  | case4 b bs hb ih =>
      rw [search_used (by simpa using hb)] at h
      cases l with
      | nil =>
          cases run with
          | nil => exact hneed
          | cons c run =>
              obtain ⟨rfl, -⟩ := List.cons.inj hbs
              exact absurd (hrun _ List.mem_cons_self) hb
      | cons c l => exact ih h (List.cons.inj hbs).2

/-- A place that meets no used block lies in one stretch of free blocks. -/
theorem exists_stretch {a : Nat} (hneed : 0 < need) (ho : o ≤ a)
    (hend : a + need ≤ o + total bs)
    (hclear : ∀ u ∈ usedAt o bs, u.1 + u.2 ≤ a ∨ a + need ≤ u.1) :
    ∃ l run r, bs = l ++ run ++ r ∧ (∀ b ∈ run, b.free = true) ∧ need ≤ total run := by
  induction bs generalizing o with
  | nil =>
      rw [total_nil] at hend
      omega
  | cons b bs ih =>
      rw [total_cons] at hend
      by_cases hin : o + b.size ≤ a
      · -- it begins behind the first block
        obtain ⟨l, run, r, rfl, hrun, hle⟩ := ih hin (by omega) fun u hu => hclear u <| by
          rw [usedAt]
          split
          · exact hu
          · exact List.mem_cons_of_mem _ hu
        exact ⟨b :: l, run, r, rfl, hrun, hle⟩
      · -- it begins in the first block, which is free, and ends before the next used one
        have hb : b.free = true := by
          by_contra hb
          have := hclear (o, b.size) (by rw [usedAt, if_neg hb]; exact List.mem_cons_self)
          simp only at this
          omega
        refine ⟨[], (b :: bs).takeWhile Block.free, (b :: bs).dropWhile Block.free,
          List.takeWhile_append_dropWhile.symm, fun c hc => List.mem_takeWhile_imp hc, ?_⟩
        rw [List.takeWhile_cons_of_pos hb, total_cons]
        have hsum := total_takeWhile_add Block.free bs
        cases hd : bs.dropWhile Block.free with
        | nil =>
            rw [hd, total_nil] at hsum
            omega
        | cons c cs =>
            have hc : c.free = false := by
              simpa [hd] using List.head?_dropWhile_not Block.free bs
            have hmem : (o + (b.size + total (bs.takeWhile Block.free)), c.size) ∈
                usedAt o (b :: bs) := by
              rw [← usedAt_join hb, hd, usedAt, if_pos rfl, usedAt, if_neg (by simp [hc])]
              exact List.mem_cons_self
            have := hclear _ hmem
            simp only at this
            omega

/-! ## 3. Allocation and release -/

theorem total_cut (need n : Nat) : total (cut need n) = n := by
  unfold cut
  split
  · rfl
  · simp only [total_cons, total_nil]
    omega

/-- The block cut off, which is used, holds what was asked for, and at most one unit more. -/
theorem usedAt_cut (h : need ≤ n) (o : Nat) :
    ∃ k, need ≤ k ∧ k ≤ need + 1 ∧ usedAt o (cut need n) = [(o, k)] := by
  unfold cut
  split
  case isTrue hn => exact ⟨n, h, hn, rfl⟩
  case isFalse => exact ⟨need, Nat.le_refl _, Nat.le_succ _, rfl⟩

/-- **A request that is met**: one used block more, and the others where they were. -/
theorem allocate_some {bs' : List Block} {p : Nat} (h : allocate need bs = (bs', some p)) :
    total bs' = total bs ∧ ∀ o, ∃ k l r, need ≤ k ∧ k ≤ need + 1 ∧ usedAt o bs = l ++ r ∧
      usedAt o bs' = l ++ (o + p, k) :: r := by
  obtain ⟨ht, hu⟩ := search_spec need bs
  have hle := fun n rest => @search_le need n bs rest
  unfold allocate at h
  cases hs : search need bs with
  | mk pre found =>
      rw [hs] at h ht hu hle
      cases found with
      | none => cases h
      | some nr =>
          obtain ⟨n, rest⟩ := nr
          cases h
          simp only [joined, total_append, total_cons] at ht hu
          have hn : need ≤ n := hle n rest rfl
          refine ⟨by rw [total_append, total_append, total_cut, Nat.add_assoc]; exact ht,
            fun o => ?_⟩
          obtain ⟨k, hk, hk', hcut⟩ := usedAt_cut hn (o + total pre)
          refine ⟨k, usedAt o pre, usedAt (o + total pre + n) rest, hk, hk', ?_, ?_⟩
          · rw [← hu o, usedAt_append, usedAt, if_pos rfl]
          · rw [List.append_assoc, usedAt_append, usedAt_append, hcut, total_cut]
            rfl

/-- **A request that is not met**: the used blocks are where they were, and every stretch of free
    blocks is too small. -/
theorem allocate_none {bs' : List Block} (hneed : 0 < need) (h : allocate need bs = (bs', none)) :
    total bs' = total bs ∧ (∀ o, usedAt o bs' = usedAt o bs) ∧
      ∀ l run r, bs = l ++ run ++ r → (∀ b ∈ run, b.free = true) → total run < need := by
  obtain ⟨ht, hu⟩ := search_spec need bs
  unfold allocate at h
  cases hs : search need bs with
  | mk pre found =>
      rw [hs] at h ht hu
      cases found with
      | some nr => cases h
      | none =>
          cases h
          simp only [joined, List.append_nil] at ht hu
          exact ⟨ht, hu, fun l run r => search_none hneed (by rw [hs])⟩

/-- Where a used block stands. -/
theorem mem_usedAt {u : Nat × Nat} :
    u ∈ usedAt o bs ↔ ∃ l r, bs = l ++ ⟨u.2, false⟩ :: r ∧ u.1 = o + total l := by
  constructor
  · intro h
    induction bs generalizing o with
    | nil => cases h
    | cons b bs ih =>
        obtain ⟨size, free⟩ := b
        cases free with
        | true =>
            obtain ⟨l, r, rfl, hu⟩ := ih h
            exact ⟨⟨size, true⟩ :: l, r, rfl, by rw [hu, total_cons, Nat.add_assoc]⟩
        | false =>
            rcases List.mem_cons.mp h with rfl | h
            · exact ⟨[], bs, rfl, rfl⟩
            · obtain ⟨l, r, rfl, hu⟩ := ih h
              exact ⟨⟨size, false⟩ :: l, r, rfl, by rw [hu, total_cons, Nat.add_assoc]⟩
  · rintro ⟨l, r, rfl, hu⟩
    rw [usedAt_append]
    refine List.mem_append_right _ ?_
    rw [usedAt, if_neg (by simp), ← hu]
    exact List.mem_cons_self

/-- A release marks the block, and leaves the others. -/
theorem release_append {l r : List Block} {b : Block} (h : ∀ c ∈ l, 0 < c.size) :
    release (total l) (l ++ b :: r) = l ++ ⟨b.size, true⟩ :: r := by
  induction l with
  | nil => rfl
  | cons c l ih =>
      have hc := h c List.mem_cons_self
      rw [List.cons_append, total_cons, release, if_neg (by omega), Nat.add_sub_cancel_left,
        ih fun d hd => h d (List.mem_cons_of_mem _ hd)]
      rfl

/-- **A release**: one used block less, and the others where they were. -/
theorem usedAt_release {l r : List Block} {k : Nat} (h : ∀ c ∈ l, 0 < c.size) :
    usedAt o (release (total l) (l ++ ⟨k, false⟩ :: r)) =
        usedAt o l ++ usedAt (o + total l + k) r ∧
      usedAt o (l ++ ⟨k, false⟩ :: r) =
        usedAt o l ++ (o + total l, k) :: usedAt (o + total l + k) r := by
  rw [release_append h, usedAt_append, usedAt_append]
  exact ⟨rfl, rfl⟩

end FirstFit
