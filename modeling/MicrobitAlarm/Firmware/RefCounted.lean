/-
  File:      MicrobitAlarm/Firmware/RefCounted.lean
  Subject:   COUNTED OBJECTS AND THEIR HANDLES (types/RefCounted.cpp), and what is the same in every
             class that is a handle: the copy constructor, `operator=` and the destructor.

  A handle is a variable that holds a pointer to a counted object: an object on the heap, whose
  count is two for each handle and one more, or one in flash, whose count says that it is not
  counted. An object that nobody holds any more is freed; who comes to it afterwards, comes to
  nothing.

  * `Counted`, `Ptr`, `Store` -- the objects, and the handles in the order in which they came;
  * `incr`, `decr` -- the counts;
  * `copy`, `assign`, `destroy` -- the handles.
-/
import Mathlib.Logic.Function.Basic

namespace MicrobitAlarm.RefCounted

open Function

/-- A counted object, with what stands behind its count. -/
structure Counted (ν : Type) where
  refCount : Nat
  value : ν
  deriving DecidableEq

/-- A pointer to a counted object. -/
inductive Ptr (ν : Type) where
  | flash (value : ν)
  | heap (p : Nat)
  deriving DecidableEq

/-- What ends a program. -/
inductive Fault where
  /-- an object is used that is freed -/
  | dangling
  /-- `microbit_panic(MICROBIT_HEAP_ERROR)` -/
  | heapError
  /-- `microbit_panic(MICROBIT_OOM)` -/
  | outOfMemory
  deriving DecidableEq

/-- The objects on the heap, and the handles; a handle that was destroyed leaves its place empty. -/
structure Store (ν : Type) where
  blocks : Nat → Option (Counted ν)
  handles : List (Option (Ptr ν))

/-- `isReadOnlyInline`. -/
def isReadOnly (refCount : Nat) : Except Fault Bool :=
  if refCount = 65535 then .ok true
  else if refCount = 1 ∨ refCount % 2 = 0 then .error .heapError
  else .ok false

namespace Store

variable {ν : Type}

/-- The pointer of a handle. -/
def get (s : Store ν) (v : Nat) : Option (Ptr ν) := (s.handles[v]?).join

/-- What stands in the object. -/
def value (s : Store ν) : Ptr ν → Option ν
  | .flash x => some x
  | .heap p => (s.blocks p).map Counted.value

/-- `init`: an object on the heap, with one handle. -/
def create (s : Store ν) (x : ν) (p : Nat) : Store ν :=
  { blocks := update s.blocks p (some ⟨3, x⟩), handles := s.handles ++ [some (.heap p)] }

/-- A handle for an object in flash. -/
def literal (s : Store ν) (x : ν) : Store ν := { s with handles := s.handles ++ [some (.flash x)] }

/-- `incr`. -/
def incr (s : Store ν) : Ptr ν → Except Fault (Store ν)
  | .flash _ => .ok s
  | .heap p =>
    match s.blocks p with
    | none => .error .dangling
    | some d =>
      match isReadOnly d.refCount with
      | .error f => .error f
      | .ok true => .ok s
      | .ok false =>
        .ok { s with blocks := update s.blocks p (some ⟨(d.refCount + 2) % 65536, d.value⟩) }

/-- `decr`. -/
def decr (s : Store ν) : Ptr ν → Except Fault (Store ν)
  | .flash _ => .ok s
  | .heap p =>
    match s.blocks p with
    | none => .error .dangling
    | some d =>
      match isReadOnly d.refCount with
      | .error f => .error f
      | .ok true => .ok s
      | .ok false =>
        if d.refCount - 2 = 1 then .ok { s with blocks := update s.blocks p none }
        else .ok { s with blocks := update s.blocks p (some ⟨d.refCount - 2, d.value⟩) }

/-- The copy constructor, on a pointer. -/
def copy (s : Store ν) (r : Ptr ν) : Except Fault (Store ν) :=
  (s.incr r).map fun s => { s with handles := s.handles ++ [some r] }

/-- The destructor of a handle that holds `r`. -/
def destroy (s : Store ν) (v : Nat) (r : Ptr ν) : Except Fault (Store ν) :=
  (s.decr r).map fun s => { s with handles := s.handles.set v none }

/-- `operator=` of a handle that holds `old`. -/
def assign [DecidableEq ν] (s : Store ν) (v : Nat) (old r : Ptr ν) : Except Fault (Store ν) :=
  if old = r then .ok s
  else (s.decr old).bind fun s => { s with handles := s.handles.set v (some r) }.incr r

/-- What the handles hold. -/
def values (s : Store ν) : List (Option ν) := s.handles.map fun h => h.bind s.value

/-- How many handles there are. -/
def live (s : Store ν) : Nat := s.handles.countP Option.isSome

/-! ## 1. The counts are right -/

/-- The count of an object that so many handles hold: two for each and one more; or, if `full`, it
    has been held so often at once that it is not counted any more. -/
def Count (full : Prop) (n : Nat) : Option (Counted ν) → Prop
  | none => n = 0
  | some d => (d.refCount = 2 * n + 1 ∧ 0 < n ∧ n < 32767) ∨ (full ∧ d.refCount = 65535)

/-- **The counts are right** for these numbers of holders. -/
def Counts (full : Prop) (blocks : Nat → Option (Counted ν)) (n : Nat → Nat) : Prop :=
  ∀ p, Count full (n p) (blocks p)

variable {full : Prop} {s s' : Store ν} {n m : Nat → Nat} {r old : Ptr ν} {p v : Nat} {x : ν}
  {blocks : Nat → Option (Counted ν)}

/-- An object that is held is there. -/
theorem Counts.held (h : Counts full blocks n) (hp : 0 < n p) :
    ∃ d, blocks p = some d ∧ Count full (n p) (some d) := by
  have hcount := h p
  cases hb : blocks p with
  | none =>
      rw [hb] at hcount
      exact absurd hcount (Nat.ne_of_gt hp)
  | some d =>
      rw [hb] at hcount
      exact ⟨d, rfl, hcount⟩

/-- One object has another count, and another number of holders. -/
theorem Counts.update (h : Counts full blocks n) {o : Option (Counted ν)}
    (hn : ∀ q, q ≠ p → m q = n q) (ho : Count full (m p) o) :
    Counts full (update blocks p o) m := by
  intro q
  by_cases hq : q = p
  · subst hq
    rw [update_self]
    exact ho
  · rw [update_of_ne hq, hn q hq]
    exact h q

theorem value_update {d : Counted ν} (hb : blocks p = some d) (k q : Nat) :
    (update blocks p (some ⟨k, d.value⟩) q).map Counted.value =
      (blocks q).map Counted.value := by
  by_cases hqp : q = p
  · rw [hqp, update_self, hb]
    rfl
  · rw [update_of_ne hqp]

/-- **`incr`**: one holder more. -/
theorem incr_ok (h : Counts full s.blocks n)
    (hr : ∀ p, r = .heap p → 0 < n p ∧ (full ∨ n p + 1 < 32767) ∧ m p = n p + 1)
    (hother : ∀ p, r ≠ .heap p → m p = n p) :
    ∃ blocks, s.incr r = .ok { s with blocks := blocks } ∧ Counts full blocks m ∧
      ∀ q, (blocks q).map Counted.value = (s.blocks q).map Counted.value := by
  cases r with
  | flash x =>
      have hsame : m = n := funext fun p => hother p (by rintro ⟨⟩)
      exact ⟨s.blocks, rfl, hsame ▸ h, fun q => rfl⟩
  | heap p =>
      obtain ⟨hpos, hfew, hp⟩ := hr p rfl
      obtain ⟨d, hb, hcount⟩ := h.held hpos
      have hq : ∀ q, q ≠ p → m q = n q := fun q hq => hother q fun e => hq (Ptr.heap.inj e).symm
      simp only [incr, hb, isReadOnly]
      by_cases hsat : d.refCount = 65535
      · have hfull : full := by
          rcases hcount with ⟨hc, _, hlt⟩ | ⟨hf, _⟩
          · omega
          · exact hf
        refine ⟨s.blocks, by rw [if_pos hsat], ?_, fun q => rfl⟩
        rw [← update_eq_self p s.blocks, hb]
        exact h.update hq (.inr ⟨hfull, hsat⟩)
      · obtain ⟨hc, _, hlt⟩ := hcount.resolve_right fun hf => hsat hf.2
        rw [if_neg hsat, if_neg (by omega)]
        refine ⟨_, rfl, h.update hq ?_, value_update hb _⟩
        have hk : (d.refCount + 2) % 65536 = 2 * m p + 1 := by omega
        by_cases hlast : n p + 1 < 32767
        · exact .inl ⟨hk, by omega, by omega⟩
        · exact .inr ⟨hfew.resolve_right hlast, by show (d.refCount + 2) % 65536 = _; omega⟩

/-- **`decr`**: one holder less; what is held on is there as before. -/
theorem decr_ok (h : Counts full s.blocks n) (hr : ∀ p, r = .heap p → n p = m p + 1)
    (hother : ∀ p, r ≠ .heap p → m p = n p) :
    ∃ blocks, s.decr r = .ok { s with blocks := blocks } ∧ Counts full blocks m ∧
      ∀ q, 0 < m q → (blocks q).map Counted.value = (s.blocks q).map Counted.value := by
  cases r with
  | flash x =>
      have hsame : m = n := funext fun p => hother p (by rintro ⟨⟩)
      exact ⟨s.blocks, rfl, hsame ▸ h, fun q _ => rfl⟩
  | heap p =>
      have hp := hr p rfl
      obtain ⟨d, hb, hcount⟩ := h.held (p := p) (by omega)
      have hq : ∀ q, q ≠ p → m q = n q := fun q hq => hother q fun e => hq (Ptr.heap.inj e).symm
      simp only [decr, hb, isReadOnly]
      by_cases hsat : d.refCount = 65535
      · have hfull : full := by
          rcases hcount with ⟨hc, _, hlt⟩ | ⟨hf, _⟩
          · omega
          · exact hf
        refine ⟨s.blocks, by rw [if_pos hsat], ?_, fun q _ => rfl⟩
        rw [← update_eq_self p s.blocks, hb]
        exact h.update hq (.inr ⟨hfull, hsat⟩)
      · obtain ⟨hc, _, hlt⟩ := hcount.resolve_right fun hf => hsat hf.2
        rw [if_neg hsat, if_neg (by omega)]
        by_cases hlast : d.refCount - 2 = 1
        · simp only [if_pos hlast]
          refine ⟨_, rfl, h.update hq (show m p = 0 by omega), fun q hpos => ?_⟩
          have hqp : q ≠ p := by
            rintro rfl
            omega
          rw [update_of_ne hqp]
        · simp only [if_neg hlast]
          refine ⟨_, rfl, h.update hq (.inl ⟨?_, by omega, by omega⟩),
            fun q _ => value_update hb _ q⟩
          show d.refCount - 2 = 2 * m p + 1
          omega

/-! ## 2. The handles -/

theorem mem_of_get (h : s.get v = some r) : s.handles[v]? = some (some r) :=
  Option.join_eq_some_iff.mp h

/-- The objects held have the values they had. -/
theorem values_congr {handles : List (Option (Ptr ν))}
    (h : ∀ p, some (.heap p) ∈ handles →
      (blocks p).map Counted.value = (s.blocks p).map Counted.value) :
    values ⟨blocks, handles⟩ = handles.map fun o => o.bind s.value := by
  refine List.map_congr_left fun o ho => ?_
  cases o with
  | none => rfl
  | some r =>
      cases r with
      | flash x => rfl
      | heap p => exact h p ho

/-- The value of a handle. -/
theorem values_get (h : s.get v = some r) : s.values[v]? = some (s.value r) := by
  rw [values, List.getElem?_map, mem_of_get h]
  rfl

variable [DecidableEq ν]

/-- How many handles hold the object at `p`. -/
def holders (s : Store ν) (p : Nat) : Nat := s.handles.count (some (.heap p))

/-- The counts say how many handles there are. -/
def Ok (full : Prop) (s : Store ν) : Prop := Counts full s.blocks s.holders

theorem holders_le_live (s : Store ν) (p : Nat) : s.holders p ≤ s.live := by
  refine List.countP_mono_left fun o _ ho => ?_
  rw [eq_of_beq ho]
  rfl

theorem count_snoc (handles : List (Option (Ptr ν))) (r : Ptr ν) (p : Nat) :
    (handles ++ [some r]).count (some (.heap p)) =
      handles.count (some (.heap p)) + if r = .heap p then 1 else 0 := by
  rw [List.count_append, List.count_singleton]
  simp

/-- A handle that holds `old` gets something else. -/
theorem count_set {handles : List (Option (Ptr ν))} (h : handles[v]? = some (some old))
    (o : Option (Ptr ν)) (p : Nat) :
    (handles.set v o).count (some (.heap p)) + (if old = .heap p then 1 else 0) =
      handles.count (some (.heap p)) + if o = some (.heap p) then 1 else 0 := by
  obtain ⟨hlt, hv⟩ := List.getElem?_eq_some_iff.mp h
  have hmem : old = .heap p → 0 < handles.count (some (.heap p)) := fun e =>
    List.count_pos_iff.mpr (e ▸ List.mem_of_getElem? h)
  rw [List.count_set hlt, hv]
  simp only [beq_iff_eq, Option.some.injEq]
  by_cases hold : old = .heap p
  · have := hmem hold
    rw [if_pos hold]
    omega
  · rw [if_neg hold]
    omega

/-- It is one holder less for what it held. -/
theorem count_unset (h : s.get v = some old) (p : Nat) :
    s.holders p = (s.handles.set v none).count (some (.heap p)) +
      if old = .heap p then 1 else 0 :=
  (count_set (mem_of_get h) none p).symm

/-- It is one holder more for what it gets. -/
theorem count_reset (h : s.get v = some old) (r : Ptr ν) (p : Nat) :
    (s.handles.set v (some r)).count (some (.heap p)) =
      (s.handles.set v none).count (some (.heap p)) + if r = .heap p then 1 else 0 := by
  have hset := count_set (mem_of_get h) (some r) p
  have hunset := count_unset h p
  rw [show s.handles.count _ = _ from hunset] at hset
  simp only [Option.some.injEq] at hset
  omega

omit [DecidableEq ν] in
theorem live_set (h : s.get v = some old) :
    (s.handles.set v none).countP Option.isSome + 1 = s.live := by
  obtain ⟨hlt, hv⟩ := List.getElem?_eq_some_iff.mp (mem_of_get h)
  have hpos : 0 < s.handles.countP Option.isSome :=
    List.countP_pos_iff.mpr ⟨some old, List.mem_of_getElem? (mem_of_get h), rfl⟩
  rw [List.countP_set hlt, hv]
  exact Nat.sub_add_cancel hpos

/-- What is held is there. -/
theorem Ok.value (h : Ok full s) (hr : some r ∈ s.handles) : (s.value r).isSome = true := by
  cases r with
  | flash x => rfl
  | heap p =>
      obtain ⟨d, hb, _⟩ := Counts.held h (List.count_pos_iff.mpr hr)
      rw [Store.value, hb]
      rfl

/-- A new object. -/
theorem create_ok (h : Ok full s) (hp : s.blocks p = none) :
    Ok full (s.create x p) ∧ (s.create x p).values = s.values ++ [some x] := by
  have hnone : s.holders p = 0 := by
    have := h p
    rwa [hp] at this
  have hnot : some (.heap p) ∉ s.handles := fun hmem => by
    have := List.count_pos_iff.mpr hmem
    exact absurd hnone (Nat.ne_of_gt this)
  refine ⟨Counts.update h (fun q hq => ?_) (.inl ?_), ?_⟩
  · show (s.handles ++ [some (Ptr.heap p)]).count _ = _
    rw [count_snoc, if_neg fun e => hq (Ptr.heap.inj e).symm]
    rfl
  · have hone : (s.create x p).holders p = 1 := by
      show (s.handles ++ [some (Ptr.heap p)]).count _ = _
      rw [count_snoc, if_pos rfl]
      exact congrArg (· + 1) hnone
    rw [hone]
    exact ⟨rfl, Nat.one_pos, by decide⟩
  · show (s.handles ++ [some (Ptr.heap p)]).map _ = _
    rw [List.map_append]
    congr 1
    · have hothers : values ⟨update s.blocks p (some ⟨3, x⟩), s.handles⟩ = s.values :=
        values_congr fun q hq => by
          have hqp : q ≠ p := fun e => hnot (e ▸ hq)
          rw [update_of_ne hqp]
      exact hothers
    · show [(update s.blocks p (some ⟨3, x⟩) p).map Counted.value] = _
      rw [update_self]
      rfl

theorem literal_ok (h : Ok full s) :
    Ok full (s.literal x) ∧ (s.literal x).values = s.values ++ [some x] := by
  refine ⟨fun p => ?_, List.map_append ..⟩
  have hsame : (s.literal x).holders p = s.holders p := by
    show (s.handles ++ [some (Ptr.flash x)]).count _ = _
    rw [count_snoc, if_neg (by rintro ⟨⟩)]
    rfl
  rw [hsame]
  exact h p

/-- **A copy** has the value of what it is a copy of. -/
theorem copy_ok (h : Ok full s) (hr : some r ∈ s.handles) (hfew : full ∨ s.live + 1 < 32767) :
    ∃ s', s.copy r = .ok s' ∧ Ok full s' ∧ s'.values = s.values ++ [s.value r] := by
  obtain ⟨blocks, hincr, hcounts, hvalues⟩ := incr_ok (r := r)
    (m := fun p => s.holders p + if r = .heap p then 1 else 0) h (fun p hp => by
      have hle := s.holders_le_live p
      exact ⟨List.count_pos_iff.mpr (hp ▸ hr), hfew.imp_right (by omega), by rw [if_pos hp]⟩)
    (fun p hp => by rw [if_neg hp]; rfl)
  refine ⟨_, by rw [copy, hincr]; rfl, ?_, ?_⟩
  · show Counts full blocks (fun p => (s.handles ++ [some r]).count (some (.heap p)))
    simp only [count_snoc]
    exact hcounts
  · rw [values_congr (s := s) fun p _ => hvalues p, List.map_append]
    rfl

/-- **A handle is destroyed**, and the others have their values. -/
theorem destroy_ok (h : Ok full s) (hv : s.get v = some r) :
    ∃ s', s.destroy v r = .ok s' ∧ Ok full s' ∧ s'.values = s.values.set v none := by
  obtain ⟨blocks, hdecr, hcounts, hvalues⟩ := decr_ok (r := r)
    (m := fun p => (s.handles.set v none).count (some (.heap p))) h
    (fun p hp => by rw [count_unset hv, if_pos hp])
    (fun p hp => by rw [count_unset hv, if_neg hp]; rfl)
  refine ⟨⟨blocks, s.handles.set v none⟩, by rw [destroy, hdecr]; rfl, hcounts, ?_⟩
  rw [values_congr (s := s) fun p hp => hvalues p (List.count_pos_iff.mpr hp), List.map_set]
  rfl

/-- **Assignment** gives a handle the value of another one. -/
theorem assign_ok (h : Ok full s) (hv : s.get v = some old) (hr : some r ∈ s.handles)
    (hfew : full ∨ s.live < 32767) :
    ∃ s', s.assign v old r = .ok s' ∧ Ok full s' ∧ s'.values = s.values.set v (s.value r) := by
  unfold assign
  by_cases hsame : old = r
  · refine ⟨s, if_pos hsame, h, ?_⟩
    obtain ⟨hlt, hget⟩ := List.getElem?_eq_some_iff.mp (values_get hv)
    rw [← hsame, ← hget]
    exact (List.set_getElem_self hlt).symm
  · rw [if_neg hsame]
    obtain ⟨blocks, hdecr, hcounts, hvalues⟩ := decr_ok (r := old)
      (m := fun p => (s.handles.set v none).count (some (.heap p))) h
      (fun p hp => by rw [count_unset hv, if_pos hp])
      (fun p hp => by rw [count_unset hv, if_neg hp]; rfl)
    -- the other handle holds its object, also when this one has let go of its own
    have hheld : ∀ p, r = .heap p → 0 < (s.handles.set v none).count (some (.heap p)) := by
      intro p hp
      have hpos : 0 < s.holders p := List.count_pos_iff.mpr (hp ▸ hr)
      rw [count_unset hv, if_neg fun e => hsame (e.trans hp.symm)] at hpos
      exact hpos
    have hlive : ∀ p, (s.handles.set v none).count (some (.heap p)) + 1 ≤ s.live := fun p =>
      live_set hv ▸ Nat.succ_le_succ (holders_le_live ⟨blocks, s.handles.set v none⟩ p)
    obtain ⟨blocks', hincr, hcounts', hvalues'⟩ :=
      incr_ok (s := ⟨blocks, s.handles.set v (some r)⟩) (r := r)
        (m := fun p => (s.handles.set v (some r)).count (some (.heap p))) hcounts
        (fun p hp => ⟨hheld p hp, hfew.imp_right (Nat.lt_of_le_of_lt (hlive p)),
          by rw [count_reset hv, if_pos hp]⟩)
        (fun p hp => by rw [count_reset hv, if_neg hp]; rfl)
    refine ⟨⟨blocks', s.handles.set v (some r)⟩, by rw [hdecr]; exact hincr, hcounts', ?_⟩
    rw [values_congr (s := s) fun p hp => ?_, List.map_set]
    · rfl
    · have hpos := List.count_pos_iff.mpr hp
      rw [count_reset hv] at hpos
      refine (hvalues' p).trans (hvalues p ?_)
      by_cases hrp : r = .heap p
      · exact hheld p hrp
      · rwa [if_neg hrp] at hpos

end Store

end MicrobitAlarm.RefCounted
