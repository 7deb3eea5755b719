/-
  File:      MicrobitAlarm/Lib/LinkedQueue.lean
  Subject:   QUEUES AS DOUBLY LINKED LISTS through the nodes themselves.

  A node is on one queue at most: it has one pair of links, and says which queue they are for. A
  node is entered at the tail, which is found by a scan from the head, and is taken out wherever it
  stands.

  * `Links`, `append`, `unlink` -- the links, and the two operations on them;
  * `Seg`, `Holds` -- the links describe these lists;
  * `holds_append`, `holds_unlink` -- the operations do to the lists what they should, if the scan
    may take as many steps as the queue is long.
-/
import Mathlib.Data.List.Nodup
import Mathlib.Logic.Function.Basic

namespace LinkedQueue

open Function

variable {ν κ : Type}

/-! ## 1. The links -/

/-- The heads of the queues, and what stands in a node. -/
structure Links (ν κ : Type) where
  head : κ → Option ν
  next : ν → Option ν
  prev : ν → Option ν
  queue : ν → Option κ

/-- Where a scan along the links ends, or is after so many steps. -/
def last (next : ν → Option ν) : Nat → ν → ν
  | 0, x => x
  | fuel + 1, x =>
    match next x with
    | none => x
    | some y => last next fuel y

section Operations

variable [DecidableEq ν] [DecidableEq κ]

/-- A node is entered in an empty queue. -/
def Links.enterFirst (m : Links ν κ) (x : ν) (k : κ) : Links ν κ :=
  { head := update m.head k (some x), next := update m.next x none,
    prev := update m.prev x none, queue := update m.queue x (some k) }

/-- A node is entered behind the tail. -/
def Links.enterBehind (m : Links ν κ) (tail x : ν) (k : κ) : Links ν κ :=
  { m with next := update (update m.next tail (some x)) x none,
           prev := update m.prev x (some tail), queue := update m.queue x (some k) }

/-- **A node is entered at the tail of a queue.** -/
def Links.append (m : Links ν κ) (fuel : Nat) (x : ν) (k : κ) : Links ν κ :=
  match m.head k with
  | none => m.enterFirst x k
  | some h => m.enterBehind (last m.next fuel h) x k

/-- The node before the one that leaves, or the head, is led past it. -/
def Links.bypass (m : Links ν κ) (x : ν) (k : κ) : Links ν κ :=
  match m.prev x with
  | some p => { m with next := update m.next p (m.next x) }
  | none => { m with head := update m.head k (m.next x) }

/-- And so is the node behind it. -/
def Links.bypassBack (m : Links ν κ) (x : ν) : Links ν κ :=
  match m.next x with
  | some n => { m with prev := update m.prev n (m.prev x) }
  | none => m

/-- **A node is taken out of its queue**, if it is on one. -/
def Links.unlink (m : Links ν κ) (x : ν) : Links ν κ :=
  match m.queue x with
  | none => m
  | some k =>
    let m := (m.bypass x k).bypassBack x
    { m with next := update m.next x none, prev := update m.prev x none,
             queue := update m.queue x none }

end Operations

/-! ## 2. Segments -/

variable {m m' : Links ν κ} {k : κ} {p e : Option ν} {x y : ν} {a b l : List ν}

/-- **A list is linked** from behind `p` up to `e`. -/
def Seg (m : Links ν κ) (k : κ) : Option ν → List ν → Option ν → Prop
  | _, [], _ => True
  | p, x :: xs, e =>
    m.prev x = p ∧ m.next x = xs.head?.or e ∧ m.queue x = some k ∧ Seg m k (some x) xs e

theorem Seg.append : Seg m k p (a ++ b) e ↔
    Seg m k p a (b.head?.or e) ∧ Seg m k (a.getLast?.or p) b e := by
  induction a generalizing p with
  | nil => simp [Seg]
  | cons x xs ih =>
      have hlast : (x :: xs).getLast?.or p = xs.getLast?.or (some x) := by
        cases xs with
        | nil => rfl
        | cons y ys => simp [List.getLast?_cons]
      have hhead : (xs ++ b).head?.or e = xs.head?.or (b.head?.or e) := by
        cases xs <;> rfl
      simp only [List.cons_append, Seg, ih, hlast, hhead, and_assoc]

/-- Only the nodes of the list matter. -/
theorem Seg.congr (h : Seg m k p l e)
    (hsame : ∀ x ∈ l, m'.prev x = m.prev x ∧ m'.next x = m.next x ∧ m'.queue x = m.queue x) :
    Seg m' k p l e := by
  induction l generalizing p with
  | nil => trivial
  | cons x xs ih =>
      obtain ⟨hprev, hnext, hqueue, hxs⟩ := h
      obtain ⟨hp, hn, hq⟩ := hsame x List.mem_cons_self
      exact ⟨hp.trans hprev, hn.trans hnext, hq.trans hqueue,
        ih hxs fun y hy => hsame y (List.mem_cons_of_mem _ hy)⟩

theorem Seg.queue (h : Seg m k p l e) (hx : x ∈ l) : m.queue x = some k := by
  induction l generalizing p with
  | nil => cases hx
  | cons y ys ih =>
      rcases List.mem_cons.mp hx with rfl | hx
      · exact h.2.2.1
      · exact ih h.2.2.2 hx

/-- The list goes on somewhere else. -/
theorem Seg.setEnd {e' : Option ν} (h : Seg m k p (a ++ [y]) e)
    (hsame : ∀ z ∈ a ++ [y], m'.prev z = m.prev z ∧ m'.queue z = m.queue z)
    (hnext : ∀ z ∈ a, m'.next z = m.next z) (hy : m'.next y = e') :
    Seg m' k p (a ++ [y]) e' := by
  obtain ⟨ha, hp, _, hq, _⟩ := Seg.append.mp h
  obtain ⟨hp', hq'⟩ := hsame y (List.mem_append_right _ (List.mem_singleton_self y))
  refine Seg.append.mpr ⟨ha.congr fun z hz => ?_, hp'.trans hp, hy, hq'.trans hq, trivial⟩
  obtain ⟨hpz, hqz⟩ := hsame z (List.mem_append_left _ hz)
  exact ⟨hpz, hnext z hz, hqz⟩

/-- The list stands behind another node. -/
theorem Seg.setStart {p' : Option ν} (h : Seg m k p (y :: b) e)
    (hsame : ∀ z ∈ y :: b, m'.next z = m.next z ∧ m'.queue z = m.queue z)
    (hprev : ∀ z ∈ b, m'.prev z = m.prev z) (hy : m'.prev y = p') :
    Seg m' k p' (y :: b) e := by
  obtain ⟨_, hn, hq, hb⟩ := h
  obtain ⟨hn', hq'⟩ := hsame y List.mem_cons_self
  refine ⟨hy, hn'.trans hn, hq'.trans hq, hb.congr fun z hz => ?_⟩
  obtain ⟨hnz, hqz⟩ := hsame z (List.mem_cons_of_mem _ hz)
  exact ⟨hprev z hz, hnz, hqz⟩

/-- The scan finds the tail of a list. -/
theorem last_eq (h : Seg m k p (x :: l) none) {fuel : Nat} (hfuel : l.length ≤ fuel) :
    (x :: l).getLast? = some (last m.next fuel x) := by
  induction l generalizing p x fuel with
  | nil =>
      cases fuel with
      | zero => rfl
      | succ fuel => rw [last, h.2.1]; rfl
  | cons y ys ih =>
      cases fuel with
      | zero => cases hfuel
      | succ fuel =>
          rw [last, h.2.1, List.getLast?_cons_cons]
          exact ih h.2.2.2 (Nat.le_of_succ_le_succ hfuel)

/-! ## 3. The operations on the lists -/

/-- **The links hold these queues**, and no node is on a queue but those. -/
structure Holds (m : Links ν κ) (qs : κ → List ν) : Prop where
  head : ∀ k, m.head k = (qs k).head?
  seg : ∀ k, Seg m k none (qs k) none
  nodup : ∀ k, (qs k).Nodup
  mem : ∀ x k, m.queue x = some k → x ∈ qs k

variable {qs : κ → List ν}

theorem Holds.queue_eq (h : Holds m qs) : m.queue x = some k ↔ x ∈ qs k :=
  ⟨h.mem x k, (h.seg k).queue⟩

theorem Holds.not_mem (h : Holds m qs) (hx : m.queue x = none) (k : κ) : x ∉ qs k := by
  intro hmem
  rw [h.queue_eq.mpr hmem] at hx
  cases hx

/-- No node is on two queues. -/
theorem Holds.disjoint (h : Holds m qs) {k' : κ} (hx : x ∈ qs k) (hx' : x ∈ qs k') : k = k' :=
  Option.some.inj ((h.queue_eq.mpr hx).symm.trans (h.queue_eq.mpr hx'))

/-- The link of a node, read off the list. -/
theorem Holds.next_eq (h : Holds m qs) (hqs : qs k = a ++ x :: b) : m.next x = b.head? := by
  have hseg := h.seg k
  rw [hqs] at hseg
  exact (Seg.append.mp hseg).2.2.1.trans (Option.or_none ..)

/-- The node behind a node is another one, on the same queue. -/
theorem Holds.next_mem (h : Holds m qs) (hx : x ∈ qs k) (hy : m.next x = some y) :
    y ∈ qs k ∧ y ≠ x := by
  obtain ⟨a, b, hqs⟩ := List.append_of_mem hx
  have hnodup := h.nodup k
  rw [h.next_eq hqs] at hy
  have hmem := List.mem_of_head? hy
  rw [hqs] at hnodup ⊢
  refine ⟨List.mem_append_right _ (List.mem_cons_of_mem _ hmem), ?_⟩
  rintro rfl
  exact (List.nodup_cons.mp (List.nodup_append.mp hnodup).2.1).1 hmem

theorem Holds.head_mem (h : Holds m qs) (hx : m.head k = some x) : x ∈ qs k :=
  List.mem_of_head? ((h.head k).symm.trans hx)

section Operations

variable [DecidableEq ν] [DecidableEq κ]

/-- The other queues, and what stands in the other nodes, when a node `x` is entered. -/
theorem Holds.appended (h : Holds m qs) (hx : m.queue x = none)
    (hprev : ∀ z, z ≠ x → m'.prev z = m.prev z)
    (hnext : ∀ z, z ≠ x → (qs k).getLast? ≠ some z → m'.next z = m.next z)
    (hqueue : m'.queue = update m.queue x (some k)) (hhead : ∀ k', k' ≠ k → m'.head k' = m.head k')
    (hheadk : m'.head k = (qs k ++ [x]).head?) (hseg : Seg m' k none (qs k ++ [x]) none) :
    Holds m' (update qs k (qs k ++ [x])) := by
  have hne : ∀ k' z, z ∈ qs k' → z ≠ x := fun k' z hz e => h.not_mem hx k' (e ▸ hz)
  refine ⟨fun k' => ?_, fun k' => ?_, fun k' => ?_, fun z k' hz => ?_⟩
  · by_cases hk : k' = k
    · rw [hk, update_self]
      exact hheadk
    · rw [update_of_ne hk, hhead k' hk]
      exact h.head k'
  · by_cases hk : k' = k
    · rw [hk, update_self]
      exact hseg
    · rw [update_of_ne hk]
      refine (h.seg k').congr fun z hz =>
        ⟨hprev z (hne k' z hz), hnext z (hne k' z hz) fun hlast => ?_, ?_⟩
      · exact hk (h.disjoint hz (List.mem_of_getLast? hlast))
      · rw [hqueue, update_of_ne (hne k' z hz)]
  · by_cases hk : k' = k
    · rw [hk, update_self]
      exact List.nodup_append.mpr ⟨h.nodup k, List.nodup_singleton x,
        fun z hz w hw => List.mem_singleton.mp hw ▸ hne k z hz⟩
    · rw [update_of_ne hk]
      exact h.nodup k'
  · rw [hqueue] at hz
    by_cases hzx : z = x
    · rw [hzx, update_self] at hz
      cases hz
      rw [hzx, update_self]
      exact List.mem_append_right _ (List.mem_singleton_self x)
    · rw [update_of_ne hzx] at hz
      by_cases hk : k' = k
      · rw [hk] at hz ⊢
        rw [update_self]
        exact List.mem_append_left _ (h.mem z k hz)
      · rw [update_of_ne hk]
        exact h.mem z k' hz

/-- **Entering a node** that is on no queue. -/
theorem holds_append (h : Holds m qs) (hx : m.queue x = none) {fuel : Nat}
    (hfuel : (qs k).length ≤ fuel) :
    Holds (m.append fuel x k) (update qs k (qs k ++ [x])) := by
  have hne : ∀ z, z ∈ qs k → z ≠ x := fun z hz e => h.not_mem hx k (e ▸ hz)
  have hhead := h.head k
  have hseg := h.seg k
  have hnodup := h.nodup k
  unfold Links.append
  by_cases hqs : qs k = []
  · rw [hqs] at hhead
    rw [show m.head k = none from hhead]
    have hhead' : ∀ k', k' ≠ k → (m.enterFirst x k).head k' = m.head k' :=
      fun k' hk => update_of_ne hk ..
    refine h.appended hx (fun z hz => update_of_ne hz ..) (fun z hz _ => update_of_ne hz ..) rfl
      hhead' ?_ ?_
    · rw [hqs]
      exact update_self ..
    · rw [hqs]
      exact ⟨update_self .., update_self .., update_self .., trivial⟩
  · obtain ⟨hd, l, hqs⟩ := List.exists_cons_of_ne_nil hqs
    have hlast : (qs k).getLast? = some (last m.next fuel hd) := by
      rw [hqs] at hseg hfuel ⊢
      exact last_eq hseg (Nat.le_of_succ_le hfuel)
    rw [hqs] at hhead
    rw [show m.head k = some hd from hhead]
    show Holds (m.enterBehind (last m.next fuel hd) x k) _
    generalize last m.next fuel hd = t at hlast ⊢
    obtain ⟨a, ht⟩ := List.getLast?_eq_some_iff.mp hlast
    have htx : t ≠ x := hne t (List.mem_of_getLast? hlast)
    refine h.appended hx (fun z hz => update_of_ne hz ..) (fun z hz hzt => ?_) rfl
      (fun k' hk => rfl) ?_ ?_
    · have hzt : z ≠ t := fun e => hzt (e ▸ hlast)
      simp only [Links.enterBehind, update_of_ne hz, update_of_ne hzt]
    · rw [List.head?_append, hqs]
      exact hhead
    · rw [ht] at hseg hnodup hne ⊢
      refine Seg.append.mpr ⟨hseg.setEnd (fun z hz => ?_) (fun z hz => ?_) ?_, ?_⟩
      · exact ⟨update_of_ne (hne z hz) .., update_of_ne (hne z hz) ..⟩
      · have hzx : z ≠ x := hne z (List.mem_append_left _ hz)
        have hzt : z ≠ t := (List.nodup_append.mp hnodup).2.2 z hz t (List.mem_singleton_self t)
        simp only [Links.enterBehind, update_of_ne hzx, update_of_ne hzt]
      · simp only [Links.enterBehind, update_of_ne htx, update_self]
        rfl
      · refine ⟨?_, update_self .., update_self .., trivial⟩
        rw [List.getLast?_append]
        exact update_self ..

theorem bypass_spec (m : Links ν κ) (x : ν) (k : κ) :
    (∀ z, (m.bypass x k).next z = if m.prev x = some z then m.next x else m.next z) ∧
      (m.bypass x k).head = (if m.prev x = none then update m.head k (m.next x) else m.head) ∧
      (m.bypass x k).prev = m.prev ∧ (m.bypass x k).queue = m.queue := by
  unfold Links.bypass
  cases m.prev x with
  | none => exact ⟨fun z => rfl, rfl, rfl, rfl⟩
  | some p =>
      refine ⟨fun z => ?_, rfl, rfl, rfl⟩
      show update m.next p (m.next x) z = _
      rw [update_apply]
      exact if_congr ⟨fun e => e ▸ rfl, fun e => (Option.some.inj e).symm⟩ rfl rfl

omit [DecidableEq κ] in
theorem bypassBack_spec (m : Links ν κ) (x : ν) :
    (∀ z, (m.bypassBack x).prev z = if m.next x = some z then m.prev x else m.prev z) ∧
      (m.bypassBack x).head = m.head ∧ (m.bypassBack x).next = m.next ∧
      (m.bypassBack x).queue = m.queue := by
  unfold Links.bypassBack
  cases m.next x with
  | none => exact ⟨fun z => rfl, rfl, rfl, rfl⟩
  | some n =>
      refine ⟨fun z => ?_, rfl, rfl, rfl⟩
      show update m.prev n (m.prev x) z = _
      rw [update_apply]
      exact if_congr ⟨fun e => e ▸ rfl, fun e => (Option.some.inj e).symm⟩ rfl rfl

/-- **What taking a node out writes**, if its links do not lead to itself. -/
theorem unlink_spec (hx : m.queue x = some k) (hprev : m.prev x ≠ some x) :
    (∀ z, z ≠ x → (m.unlink x).next z = if m.prev x = some z then m.next x else m.next z) ∧
      (∀ z, z ≠ x → (m.unlink x).prev z = if m.next x = some z then m.prev x else m.prev z) ∧
      (m.unlink x).queue = update m.queue x none ∧
      (m.unlink x).head = if m.prev x = none then update m.head k (m.next x) else m.head := by
  obtain ⟨hnext₁, hhead₁, hprev₁, hqueue₁⟩ := bypass_spec m x k
  obtain ⟨hprev₂, hhead₂, hnext₂, hqueue₂⟩ := bypassBack_spec (m.bypass x k) x
  -- the first write leaves the node's own link as it was
  have hown : (m.bypass x k).next x = m.next x := by rw [hnext₁, if_neg hprev]
  rw [Links.unlink, hx]
  refine ⟨fun z hz => ?_, fun z hz => ?_, ?_, ?_⟩
  · show update ((m.bypass x k).bypassBack x).next x none z = _
    rw [update_of_ne hz, hnext₂, hnext₁]
  · show update ((m.bypass x k).bypassBack x).prev x none z = _
    rw [update_of_ne hz, hprev₂, hown, hprev₁]
  · show update ((m.bypass x k).bypassBack x).queue x none = _
    rw [hqueue₂, hqueue₁]
  · show ((m.bypass x k).bypassBack x).head = _
    rw [hhead₂, hhead₁]

theorem append_queue (m : Links ν κ) (fuel : Nat) (x : ν) (k : κ) :
    (m.append fuel x k).queue = update m.queue x (some k) := by
  unfold Links.append
  cases m.head k <;> rfl

theorem unlink_of_queue_eq_none (hx : m.queue x = none) : m.unlink x = m := by
  rw [Links.unlink, hx]

/-- The other queues, and the node itself, when it is taken out from between `a` and `b`. -/
theorem Holds.unlinked (h : Holds m qs) (hqs : qs k = a ++ x :: b)
    (hnext : ∀ z, z ≠ x → m'.next z = if a.getLast? = some z then b.head? else m.next z)
    (hprev : ∀ z, z ≠ x → m'.prev z = if b.head? = some z then a.getLast? else m.prev z)
    (hqueue : m'.queue = update m.queue x none)
    (hhead : m'.head = if a.getLast? = none then update m.head k b.head? else m.head)
    (hseg : Seg m' k none (a ++ b) none) : Holds m' (update qs k (a ++ b)) := by
  have hx : x ∈ qs k := by
    rw [hqs]
    exact List.mem_append_right _ List.mem_cons_self
  have ha : ∀ z, a.getLast? = some z → z ∈ qs k := fun z hz => by
    rw [hqs]
    exact List.mem_append_left _ (List.mem_of_getLast? hz)
  have hb : ∀ z, b.head? = some z → z ∈ qs k := fun z hz => by
    rw [hqs]
    exact List.mem_append_right _ (List.mem_cons_of_mem _ (List.mem_of_head? hz))
  refine ⟨fun k' => ?_, fun k' => ?_, fun k' => ?_, fun z k' hz => ?_⟩
  · rw [hhead]
    by_cases hk : k' = k
    · rw [hk, update_self, List.head?_append]
      rcases List.eq_nil_or_concat a with rfl | ⟨a, p, rfl⟩
      · exact update_self ..
      · rw [if_neg (by simp), h.head k, hqs]
        simp
    · rw [update_of_ne hk]
      split
      · rw [update_of_ne hk]
        exact h.head k'
      · exact h.head k'
  · by_cases hk : k' = k
    · rw [hk, update_self]
      exact hseg
    · rw [update_of_ne hk]
      refine (h.seg k').congr fun z hz => ?_
      have hzx : z ≠ x := fun e => hk (h.disjoint hz (e ▸ hx))
      refine ⟨?_, ?_, ?_⟩
      · rw [hprev z hzx, if_neg fun e => hk (h.disjoint hz (hb z e))]
      · rw [hnext z hzx, if_neg fun e => hk (h.disjoint hz (ha z e))]
      · rw [hqueue, update_of_ne hzx]
  · by_cases hk : k' = k
    · have hnodup := h.nodup k
      rw [hqs] at hnodup
      rw [hk, update_self]
      exact hnodup.sublist ((List.sublist_cons_self x b).append_left a)
    · rw [update_of_ne hk]
      exact h.nodup k'
  · have hzx : z ≠ x := by
      rintro rfl
      rw [hqueue, update_self] at hz
      cases hz
    rw [hqueue, update_of_ne hzx] at hz
    have hmem := h.mem z k' hz
    by_cases hk : k' = k
    · rw [hk, hqs] at hmem
      rw [hk, update_self]
      rcases List.mem_append.mp hmem with hmem | hmem
      · exact List.mem_append_left _ hmem
      · exact List.mem_append_right _ ((List.mem_cons.mp hmem).resolve_left hzx)
    · rw [update_of_ne hk]
      exact hmem

/-- **Taking a node out** of the queue it is on. -/
theorem holds_unlink (h : Holds m qs) (hx : m.queue x = some k) :
    Holds (m.unlink x) (update qs k ((qs k).erase x)) := by
  have hseg := h.seg k
  have hnodup := h.nodup k
  obtain ⟨a, b, hqs⟩ := List.append_of_mem (h.mem x k hx)
  rw [hqs] at hseg hnodup
  obtain ⟨ha, hprev, hnext, _, hb⟩ := Seg.append.mp hseg
  have hprev : m.prev x = a.getLast? := by simpa using hprev
  have hnext : m.next x = b.head? := by simpa using hnext
  obtain ⟨hnda, hndxb, hdisj⟩ := List.nodup_append.mp hnodup
  obtain ⟨hxb, hndb⟩ := List.nodup_cons.mp hndxb
  have hxa : x ∉ a := fun hmem => hdisj x hmem x List.mem_cons_self rfl
  have hab : ∀ z ∈ a, ∀ w ∈ b, z ≠ w := fun z hz w hw => hdisj z hz w (List.mem_cons_of_mem _ hw)
  have herase : (qs k).erase x = a ++ b := by
    rw [hqs, List.erase_append_right _ hxa, List.erase_cons_head]
  obtain ⟨hnext', hprev', hqueue', hhead'⟩ := unlink_spec hx fun e =>
    hxa (List.mem_of_getLast? (hprev ▸ e))
  rw [hprev, hnext] at hnext' hprev' hhead'
  rw [herase]
  refine h.unlinked hqs hnext' hprev' hqueue' hhead' (Seg.append.mpr ⟨?_, ?_⟩)
  · rcases List.eq_nil_or_concat a with rfl | ⟨a, p, rfl⟩
    · trivial
    · rw [List.concat_eq_append] at *
      have hz : ∀ z ∈ a ++ [p], z ≠ x := fun z hz e => hxa (e ▸ hz)
      refine ha.setEnd (fun z hmem => ⟨?_, ?_⟩) (fun z hmem => ?_) ?_
      · rw [hprev' z (hz z hmem), if_neg fun e => hab z hmem z (List.mem_of_head? e) rfl]
      · rw [hqueue', update_of_ne (hz z hmem)]
      · have hzp : z ≠ p := (List.nodup_append.mp hnda).2.2 z hmem p (List.mem_singleton_self p)
        rw [hnext' z (hz z (List.mem_append_left _ hmem)), if_neg (by simpa using hzp.symm)]
      · rw [hnext' p (hz p (List.mem_append_right _ (List.mem_singleton_self p))),
          if_pos (by simp), Option.or_none]
  · cases b with
    | nil => trivial
    | cons n b =>
        have hz : ∀ z ∈ n :: b, z ≠ x := fun z hz e => hxb (e ▸ hz)
        refine hb.setStart (fun z hmem => ⟨?_, ?_⟩) (fun z hmem => ?_) ?_
        · rw [hnext' z (hz z hmem), if_neg fun e => hab z (List.mem_of_getLast? e) z hmem rfl]
        · rw [hqueue', update_of_ne (hz z hmem)]
        · have hzn : n ≠ z := fun e => (List.nodup_cons.mp hndb).1 (e ▸ hmem)
          rw [hprev' z (hz z (List.mem_cons_of_mem _ hmem)), if_neg (by simpa using hzn)]
        · rw [hprev' n (hz n List.mem_cons_self), if_pos List.head?_cons, Option.or_none]

theorem unlink_queue (h : Holds m qs) (x : ν) : (m.unlink x).queue = update m.queue x none := by
  cases hx : m.queue x with
  | none =>
      rw [unlink_of_queue_eq_none hx, ← hx]
      exact (update_eq_self x m.queue).symm
  | some k =>
      refine (unlink_spec hx fun e => ?_).2.2.1
      -- a node that stood before itself would stand twice in the list
      obtain ⟨a, b, hqs⟩ := List.append_of_mem (h.mem x k hx)
      have hseg := h.seg k
      have hnodup := h.nodup k
      rw [hqs] at hseg hnodup
      have hprev : m.prev x = a.getLast? := by simpa using (Seg.append.mp hseg).2.1
      exact (List.nodup_append.mp hnodup).2.2 x (List.mem_of_getLast? (hprev ▸ e)) x
        List.mem_cons_self rfl

end Operations

end LinkedQueue
