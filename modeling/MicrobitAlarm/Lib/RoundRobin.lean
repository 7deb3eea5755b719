/-
  File:      MicrobitAlarm/Lib/RoundRobin.lean
  Subject:   A RUN QUEUE WITH ROUND-ROBIN SCHEDULING, and the order in which its members have their
             turns.

  Members come in at the tail and may leave from anywhere. When the member whose turn it is hands
  over, the one behind it is next; at the end of the queue, and when the member has left the queue
  before it handed over, the head is next. So a turn can go back to the head before the tail is
  reached, and what can be relied on is a relation, not a cycle: whoever stands behind the current
  member and has not had its turn is not overtaken by members that come in later.

  * `Precedes q x y` -- `x` stands before `y`; what it becomes when a member comes in or leaves;
  * `next q c` -- who is next behind `c`;
  * `next_not_overtaken` -- a member that the turn has not passed is not passed by the next one;
    `next_cases` -- and the next one is right behind the current one, or the head;
  * `patience` -- how many turns a member waits at most: every turn takes one off, and neither
    members that come in nor the current member when it leaves add to it;
  * `Turn`, `Turn.patience` -- what can happen to the queue and the current member, and what it
    costs those that wait.
-/
import Mathlib.Data.List.Basic

namespace RoundRobin

variable {α : Type}

/-! ## 1. Order in the queue -/

/-- **`x` stands before `y`.** -/
def Precedes : List α → α → α → Prop
  | [], _, _ => False
  | a :: q, x, y => (a = x ∧ y ∈ q) ∨ Precedes q x y

@[simp] theorem precedes_nil {x y : α} : ¬ Precedes [] x y := id

@[simp] theorem precedes_cons {a x y : α} {q : List α} :
    Precedes (a :: q) x y ↔ (a = x ∧ y ∈ q) ∨ Precedes q x y := Iff.rfl

variable {q : List α} {x y z : α}

theorem Precedes.mem_left (h : Precedes q x y) : x ∈ q := by
  induction q with
  | nil => exact h.elim
  | cons a q ih =>
      rcases h with ⟨rfl, _⟩ | h
      · exact List.mem_cons_self
      · exact List.mem_cons_of_mem _ (ih h)

theorem Precedes.mem_right (h : Precedes q x y) : y ∈ q := by
  induction q with
  | nil => exact h.elim
  | cons a q ih =>
      rcases h with ⟨_, hy⟩ | h
      · exact List.mem_cons_of_mem _ hy
      · exact List.mem_cons_of_mem _ (ih h)

/-- Nobody stands before themselves. -/
theorem Precedes.ne (hq : q.Nodup) (h : Precedes q x y) : x ≠ y := by
  induction q with
  | nil => exact h.elim
  | cons a q ih =>
      obtain ⟨ha, hq⟩ := List.nodup_cons.mp hq
      rcases h with ⟨rfl, hy⟩ | h
      · rintro rfl
        exact ha hy
      · exact ih hq h

theorem Precedes.asymm (hq : q.Nodup) (h : Precedes q x y) : ¬ Precedes q y x := by
  induction q with
  | nil => exact id
  | cons a q ih =>
      obtain ⟨ha, hq⟩ := List.nodup_cons.mp hq
      rintro (⟨rfl, hx⟩ | hyx)
      · rcases h with ⟨rfl, hy⟩ | h
        · exact ha hy
        · exact ha h.mem_right
      · rcases h with ⟨rfl, _⟩ | h
        · exact ha hyx.mem_right
        · exact ih hq h hyx

/-- Of two members one stands before the other. -/
theorem precedes_total (hx : x ∈ q) (hy : y ∈ q) (hne : x ≠ y) :
    Precedes q x y ∨ Precedes q y x := by
  induction q with
  | nil => cases hx
  | cons a q ih =>
      rcases List.mem_cons.mp hx with rfl | hx
      · exact .inl (.inl ⟨rfl, List.mem_of_ne_of_mem (Ne.symm hne) hy⟩)
      · rcases List.mem_cons.mp hy with rfl | hy
        · exact .inr (.inl ⟨rfl, List.mem_of_ne_of_mem hne hx⟩)
        · exact (ih hx hy).imp .inr .inr

/-- **A member comes in** at the tail. -/
theorem precedes_snoc : Precedes (q ++ [z]) x y ↔ Precedes q x y ∨ (x ∈ q ∧ y = z) := by
  induction q with
  | nil => simp
  | cons a q ih =>
      simp only [List.cons_append, precedes_cons, ih, List.mem_append, List.mem_singleton,
        @List.mem_cons _ a q x]
      constructor
      · rintro (⟨rfl, hy | hy⟩ | h | ⟨hx, hy⟩)
        · exact .inl (.inl ⟨rfl, hy⟩)
        · exact .inr ⟨.inl rfl, hy⟩
        · exact .inl (.inr h)
        · exact .inr ⟨.inr hx, hy⟩
      · rintro ((⟨rfl, hy⟩ | h) | ⟨rfl | hx, hy⟩)
        · exact .inl ⟨rfl, .inl hy⟩
        · exact .inr (.inl h)
        · exact .inl ⟨rfl, .inr hy⟩
        · exact .inr (.inr ⟨hx, hy⟩)

variable [DecidableEq α]

/-- **A member leaves.** -/
theorem precedes_erase (hq : q.Nodup) :
    Precedes (q.erase z) x y ↔ x ≠ z ∧ y ≠ z ∧ Precedes q x y := by
  induction q with
  | nil => simp
  | cons a q ih =>
      obtain ⟨ha, hq⟩ := List.nodup_cons.mp hq
      by_cases haz : a = z
      · subst haz
        rw [List.erase_cons_head, precedes_cons]
        constructor
        · intro h
          exact ⟨fun e => ha (e ▸ h.mem_left), fun e => ha (e ▸ h.mem_right), .inr h⟩
        · rintro ⟨hx, _, ⟨rfl, _⟩ | h⟩
          · exact (hx rfl).elim
          · exact h
      · rw [List.erase_cons_tail (by simpa using haz), precedes_cons, precedes_cons, ih hq,
          hq.mem_erase_iff]
        constructor
        · rintro (⟨rfl, hy, hm⟩ | ⟨hx, hy, h⟩)
          · exact ⟨haz, hy, .inl ⟨rfl, hm⟩⟩
          · exact ⟨hx, hy, .inr h⟩
        · rintro ⟨hx, hy, ⟨rfl, hm⟩ | h⟩
          · exact .inl ⟨rfl, hy, hm⟩
          · exact .inr ⟨hx, hy, h⟩

/-! ## 2. Who is next -/

/-- The member behind `c`, if there is one. -/
def following : List α → α → Option α
  | [], _ => none
  | a :: q, c => if a = c then q.head? else following q c

/-- **Who is next**: the member behind `c`, or the head, if there is none or nobody had the turn. -/
def next (q : List α) : Option α → Option α
  | none => q.head?
  | some c => (following q c).or q.head?

variable {c d : α}

theorem following_append {a b : List α} (hc : c ∉ a) : following (a ++ c :: b) c = b.head? := by
  induction a with
  | nil => exact if_pos rfl
  | cons x a ih =>
      rw [List.cons_append, following, if_neg (List.ne_of_not_mem_cons hc).symm,
        ih (List.not_mem_of_not_mem_cons hc)]

theorem following_of_notMem (hc : c ∉ q) : following q c = none := by
  induction q with
  | nil => rfl
  | cons a q ih =>
      rw [following, if_neg (List.ne_of_not_mem_cons hc).symm, ih (List.not_mem_of_not_mem_cons hc)]

/-- The member behind `c` is the first one that `c` stands before. -/
theorem following_eq_some (hq : q.Nodup) (h : following q c = some d) :
    Precedes q c d ∧ ∀ x, Precedes q c x → ¬ Precedes q x d := by
  induction q with
  | nil => cases h
  | cons a q ih =>
      obtain ⟨ha, hq'⟩ := List.nodup_cons.mp hq
      by_cases hac : a = c
      · subst hac
        rw [following, if_pos rfl] at h
        cases q with
        | nil => cases h
        | cons b q =>
            obtain rfl : b = d := Option.some.inj h
            refine ⟨.inl ⟨rfl, List.mem_cons_self⟩, fun x hx hxb => ?_⟩
            rcases hxb with ⟨rfl, _⟩ | ⟨rfl, hb⟩ | hxb
            · exact hx.ne hq rfl
            · exact (List.nodup_cons.mp hq').1 hb
            · exact (List.nodup_cons.mp hq').1 hxb.mem_right
      · rw [following, if_neg hac] at h
        obtain ⟨hcd, hmin⟩ := ih hq' h
        refine ⟨.inr hcd, fun x hx hxd => ?_⟩
        have hx : Precedes q c x := hx.resolve_left fun e => hac e.1
        rcases hxd with ⟨rfl, _⟩ | hxd
        · exact ha hx.mem_right
        · exact hmin x hx hxd

theorem following_eq_none (h : following q c = none) (x : α) (hx : Precedes q c x) (hq : q.Nodup) :
    False := by
  induction q with
  | nil => exact hx
  | cons a q ih =>
      obtain ⟨ha, hq⟩ := List.nodup_cons.mp hq
      by_cases hac : a = c
      · subst hac
        rw [following, if_pos rfl] at h
        rcases hx with ⟨_, hx⟩ | hx
        · rw [List.head?_eq_none_iff.mp h] at hx
          cases hx
        · exact ha hx.mem_left
      · rw [following, if_neg hac] at h
        exact ih h (hx.resolve_left fun e => hac e.1) hq

omit [DecidableEq α] in
/-- Nobody stands before the head. -/
theorem not_precedes_head (hq : q.Nodup) (h : q.head? = some d) : ¬ Precedes q x d := by
  cases q with
  | nil => cases h
  | cons a q =>
      obtain rfl : a = d := Option.some.inj h
      rintro (⟨_, ha⟩ | hx)
      · exact (List.nodup_cons.mp hq).1 ha
      · exact (List.nodup_cons.mp hq).1 hx.mem_right

theorem next_of_notMem (hc : c ∉ q) : next q (some c) = q.head? := by
  rw [next, following_of_notMem hc, Option.none_or]

theorem next_eq_none {o : Option α} : next q o = none ↔ q = [] := by
  cases o with
  | none => exact List.head?_eq_none_iff
  | some c =>
      rw [next, Option.or_eq_none_iff, List.head?_eq_none_iff]
      refine ⟨And.right, fun h => ⟨?_, h⟩⟩
      rw [h, following]

theorem next_mem {o : Option α} (hq : q.Nodup) (h : next q o = some d) : d ∈ q := by
  cases o with
  | none => exact List.mem_of_mem_head? h
  | some c =>
      rcases Option.or_eq_some_iff.mp h with hb | ⟨_, hh⟩
      · exact (following_eq_some hq hb).1.mem_right
      · exact List.mem_of_mem_head? hh

/-- **A member that the turn has not passed is not passed by the next turn**: nobody who does not
    stand before the current member stands before the next one. -/
theorem next_not_overtaken (hq : q.Nodup) (h : next q (some c) = some d) (hx : x ≠ c)
    (hxc : ¬ Precedes q x c) : ¬ Precedes q x d := by
  rcases Option.or_eq_some_iff.mp h with hb | ⟨_, hh⟩
  · obtain ⟨hcd, hmin⟩ := following_eq_some hq hb
    intro hxd
    rcases precedes_total hxd.mem_left hcd.mem_left hx with hxc' | hcx
    · exact hxc hxc'
    · exact hmin x hcx hxd
  · exact not_precedes_head hq hh

/-- **The next member is right behind the current one, or the head.** -/
theorem next_cases (hq : q.Nodup) (h : next q (some c) = some d) :
    (Precedes q c d ∧ ∀ x, Precedes q c x → ¬ Precedes q x d) ∨
      ((∀ x, ¬ Precedes q c x) ∧ ∀ x, ¬ Precedes q x d) := by
  rcases Option.or_eq_some_iff.mp h with hb | ⟨hb, hh⟩
  · exact .inl (following_eq_some hq hb)
  · exact .inr ⟨fun x hx => following_eq_none hb x hx hq, fun x => not_precedes_head hq hh⟩

/-! ## 3. How long a member waits -/

/-- **How many turns `y` waits at most**, when it is `c`'s turn and the queue does not grow beyond
    `n`. Each member before `y` can leave once and send the turn back to the head. -/
def patience (n : Nat) (q : List α) (c y : α) : Nat :=
  if c ∈ q then
    if q.idxOf c < q.idxOf y then q.idxOf y * n + (q.idxOf y - q.idxOf c)
    else q.idxOf y * n + q.idxOf y + 1 + (n - q.idxOf c)
  else q.idxOf y * n + q.idxOf y + 1 + (n - q.length)

theorem following_eq_getElem? (hc : c ∈ q) : following q c = q[q.idxOf c + 1]? := by
  induction q with
  | nil => cases hc
  | cons a q ih =>
      by_cases hac : a = c
      · rw [following, if_pos hac, List.idxOf_cons_eq _ hac, List.head?_eq_getElem?]
        rfl
      · have hc : c ∈ q := (List.mem_cons.mp hc).resolve_left (Ne.symm hac)
        rw [following, if_neg hac, List.idxOf_cons_ne _ hac, ih hc]
        rfl

/-- **A turn takes one off.** -/
theorem patience_next {n : Nat} (hq : q.Nodup) (hy : y ∈ q) (hn : q.length ≤ n)
    (h : next q (some c) = some d) (hd : d ≠ y) : patience n q d y < patience n q c y := by
  have hmem := next_mem hq h
  have hylt := List.idxOf_lt_length_of_mem hy
  have hne : q.idxOf d ≠ q.idxOf y := fun e => hd ((List.idxOf_inj hmem).mp e)
  have hidx : ∀ i, q[i]? = some d → q.idxOf d = i := by
    intro i hi
    obtain ⟨hlt, rfl⟩ := List.getElem?_eq_some_iff.mp hi
    exact hq.idxOf_getElem i hlt
  unfold patience
  rw [if_pos hmem]
  by_cases hc : c ∈ q
  · have hclt := List.idxOf_lt_length_of_mem hc
    rw [if_pos hc]
    rcases Option.or_eq_some_iff.mp h with hb | ⟨hb, hh⟩
    · rw [following_eq_getElem? hc] at hb
      rw [hidx _ hb] at hne ⊢
      split <;> split <;> omega
    · rw [following_eq_getElem? hc, List.getElem?_eq_none_iff] at hb
      rw [List.head?_eq_getElem?] at hh
      rw [hidx _ hh] at hne ⊢
      split <;> split <;> omega
  · rw [next_of_notMem hc, List.head?_eq_getElem?] at h
    rw [if_neg hc]
    rw [hidx _ h] at hne ⊢
    split <;> omega

/-- **A member that comes in** adds nothing. -/
theorem patience_snoc {n : Nat} (hy : y ∈ q) (hz : z ∉ q) :
    patience n (q ++ [z]) c y ≤ patience n q c y := by
  have hidxy : (q ++ [z]).idxOf y = q.idxOf y := List.idxOf_append_of_mem hy
  have hylt := List.idxOf_lt_length_of_mem hy
  unfold patience
  rw [hidxy]
  by_cases hc : c ∈ q
  · refine Nat.le_of_eq ?_
    rw [if_pos hc, if_pos (List.mem_append_left _ hc), List.idxOf_append_of_mem hc]
  · rw [if_neg hc]
    by_cases hcz : c = z
    · subst hcz
      rw [if_pos (List.mem_append_right _ (List.mem_singleton_self c)),
        List.idxOf_append_of_notMem hc, List.idxOf_cons_self]
      split <;> omega
    · have hnot : c ∉ q ++ [z] := by simp [hc, hcz]
      rw [if_neg hnot, List.length_append]
      simp only [List.length_singleton]
      omega

/-- **The current member leaves**, and adds nothing. -/
theorem patience_erase {n : Nat} (hq : q.Nodup) (hy : y ∈ q) (hcy : c ≠ y) (hn : q.length ≤ n) :
    patience n (q.erase c) c y ≤ patience n q c y := by
  by_cases hc : c ∈ q
  · obtain ⟨a, b, rfl⟩ := List.append_of_mem hc
    obtain ⟨_, hcb, hdisj⟩ := List.nodup_append.mp hq
    have hca : c ∉ a := fun hmem => hdisj c hmem c List.mem_cons_self rfl
    have hcb : c ∉ b := (List.nodup_cons.mp hcb).1
    have herase : (a ++ c :: b).erase c = a ++ b := by
      rw [List.erase_append_right _ hca, List.erase_cons_head]
    have hidxc : (a ++ c :: b).idxOf c = a.length := by
      rw [List.idxOf_append_of_notMem hca, List.idxOf_cons_self, Nat.add_zero]
    unfold patience
    rw [herase, if_pos hc, if_neg (by simp [hca, hcb]), hidxc]
    simp only [List.length_append, List.length_cons] at hn ⊢
    by_cases hya : y ∈ a
    · have hlt := List.idxOf_lt_length_of_mem hya
      rw [List.idxOf_append_of_mem hya, List.idxOf_append_of_mem hya, if_neg (by omega)]
      omega
    · have hidx : (a ++ c :: b).idxOf y = (a ++ b).idxOf y + 1 := by
        rw [List.idxOf_append_of_notMem hya, List.idxOf_append_of_notMem hya,
          List.idxOf_cons_ne _ hcy]
        omega
      have hle : a.length ≤ (a ++ b).idxOf y := by
        rw [List.idxOf_append_of_notMem hya]
        exact Nat.le_add_right ..
      rw [hidx, if_pos (Nat.lt_succ_of_le hle), Nat.succ_mul]
      omega
  · refine Nat.le_of_eq ?_
    rw [List.erase_of_not_mem hc]

/-- **No member waits longer than this.** -/
theorem patience_le {n : Nat} (hy : y ∈ q) (hn : q.length ≤ n) : patience n q c y ≤ n * n + n := by
  have hylt := List.idxOf_lt_length_of_mem hy
  have hmul : q.idxOf y * n + n ≤ n * n := by
    rw [← Nat.succ_mul]
    exact Nat.mul_le_mul_right n (Nat.le_trans hylt hn)
  unfold patience
  split
  · split <;> omega
  · omega

/-! ## 4. Turns -/

/-- **What can happen** to the queue and the current member, and how many turns it takes: a member
    comes in, the current one leaves or hands over, to `idle` if nobody is there. -/
inductive Turn (idle : α) (q : List α) (c : α) : List α → α → Nat → Prop where
  | stays : Turn idle q c q c 0
  | comes (z : α) (hz : z ∉ q) : Turn idle q c (q ++ [z]) c 0
  | leaves : Turn idle q c (q.erase c) c 0
  | hands : Turn idle q c q ((next q (some c)).getD idle) 1

/-- **Who waits, keeps waiting**, and every turn that somebody else has is taken off. -/
theorem Turn.patience {n k : Nat} {idle : α} {q' : List α} (h : Turn idle q c q' d k)
    (hq : q.Nodup) (hy : y ∈ q) (hc : c ≠ y) (hn : q.length ≤ n) (hd : d = y → k = 0) :
    y ∈ q' ∧ d ≠ y ∧ patience n q' d y + k ≤ patience n q c y := by
  cases h with
  | stays => exact ⟨hy, hc, Nat.le_refl _⟩
  | comes z hz => exact ⟨List.mem_append_left _ hy, hc, patience_snoc hy hz⟩
  | leaves => exact ⟨(List.mem_erase_of_ne hc.symm).mpr hy, hc, patience_erase hq hy hc hn⟩
  | hands =>
      cases hnext : next q (some c) with
      | none =>
          rw [next_eq_none.mp hnext] at hy
          cases hy
      | some d =>
          rw [hnext] at hd
          have hd : d ≠ y := fun e => Nat.one_ne_zero (hd e)
          exact ⟨hy, hd, patience_next hq hy hn hnext hd⟩

end RoundRobin
