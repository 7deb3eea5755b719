/-
  File:      MicrobitAlarm/Runs/Heap.lean
  Subject:   RUNS OF A PROGRAM ON THE HEAP ALLOCATOR, and what the memory of the blocks it holds is.

  A program creates heaps, allocates, frees what it holds and writes into what it holds; the rest
  of the memory (stacks, globals, the tables of the native allocator) changes as it likes. What
  `native_malloc` answers is part of the action: a block outside the heaps and apart from
  everything that is held.

  * `machine`, `Event`, `effect` -- the runs, and what a program may expect of its blocks by the
    events alone: that they are separate arrays;
  * `Blocks live mem h` -- a heap in memory: its blocks, and that the used ones are those held;
  * `mallocHeaps_spec`, `HeapInv`, `heapInv_run` -- the invariant of all runs.
-/
import Mathlib.Data.List.Pairwise
import MicrobitAlarm.Lib.Trace
import MicrobitAlarm.Firmware.Heap

namespace MicrobitAlarm.Heap

open FirstFit Trace

/-! ## 1. The machine -/

/-- The allocator, and what the program holds: where each block begins, and its words. -/
structure World where
  store : Store
  live : List (Nat × Nat)
  panicked : Bool

inductive Action where
  | createHeap (start hend : Word)
  | malloc (size : Word) (native : Option Nat)
  | free (p : Nat)
  | write (p i : Nat) (w : Word)
  /-- the rest of the program writes a word of its own -/
  | other (x : Nat) (w : Word)

inductive Event where
  | created (code : Int)
  /-- a block, with what stands in it at first -/
  | allocated (p : Nat) (contents : List Word)
  | freed (p : Nat)
  | wrote (p i : Nat) (w : Word)
  | outOfMemory
  deriving DecidableEq

/-- The words of an allocation. -/
def words (size : Word) : Nat := (size.toNat + 3) / 4

/-- What stands in memory from an address on. -/
def contents (mem : Memory) (u : Nat × Nat) : List Word :=
  (List.range u.2).map fun i => mem (u.1 + i)

/-- A stretch of words lies outside a heap. -/
def Outside (h : HeapDefinition) (u : Nat × Nat) : Prop :=
  u.1 + u.2 ≤ h.heapStart ∨ h.heapEnd ≤ u.1

/-- Two blocks are different and do not overlap. -/
def Apart (u v : Nat × Nat) : Prop :=
  u.1 ≠ v.1 ∧ (u.1 + u.2 ≤ v.1 ∨ v.1 + v.2 ≤ u.1)

instance (h : HeapDefinition) (u : Nat × Nat) : Decidable (Outside h u) :=
  inferInstanceAs (Decidable (_ ∨ _))

instance (u v : Nat × Nat) : Decidable (Apart u v) := inferInstanceAs (Decidable (_ ∧ _))

/-- What the native allocator may answer: NULL, or a block of its own. -/
def NativeAnswer (w : World) (size : Word) : Option Nat → Prop
  | none => True
  | some p => p ≠ 0 ∧ (∀ h ∈ w.store.heaps, Outside h (p, words size)) ∧
      ∀ u ∈ w.live, Apart (p, words size) u

instance (w : World) (size : Word) : ∀ native, Decidable (NativeAnswer w size native)
  | none => inferInstanceAs (Decidable True)
  | some _ => inferInstanceAs (Decidable (_ ∧ _ ∧ _))

/-- A region that becomes a heap belongs to nobody else. -/
def FreshRegion (w : World) (h : HeapDefinition) : Prop :=
  (∀ g ∈ w.store.heaps, Outside g (h.heapStart, h.heapEnd - h.heapStart)) ∧
    ∀ u ∈ w.live, Outside h u

instance (w : World) (h : HeapDefinition) : Decidable (FreshRegion w h) :=
  inferInstanceAs (Decidable (_ ∧ _))

/-- One step of a program that keeps to what it holds. -/
def step (w : World) : Action → Option (World × List Event)
  | .createHeap start hend =>
    if !w.panicked ∧ ((createHeap start hend w.store).1 = microbitOk →
        FreshRegion w ⟨start.toNat / 4, hend.toNat / 4⟩) then
      some ({ w with store := (createHeap start hend w.store).2 },
        [.created (createHeap start hend w.store).1])
    else none
  | .malloc size native =>
    if !w.panicked ∧ NativeAnswer w size native then
      match malloc size native w.store with
      | none => none
      | some (store, none) => some ({ w with store := store, panicked := true }, [.outOfMemory])
      | some (store, some p) =>
        some ({ w with store := store, live := (p, words size) :: w.live },
          [.allocated p (contents store.mem (p, words size))])
    else none
  | .free p =>
    if !w.panicked ∧ (p = 0 ∨ ∃ u ∈ w.live, u.1 = p) then
      some ({ w with store := free p w.store, live := w.live.filter (·.1 ≠ p) }, [.freed p])
    else none
  | .write p i x =>
    if !w.panicked ∧ ∃ u ∈ w.live, u.1 = p ∧ i < u.2 then
      some ({ w with store := { w.store with mem := Function.update w.store.mem (p + i) x } },
        [.wrote p i x])
    else none
  | .other x v =>
    if !w.panicked ∧ (∀ h ∈ w.store.heaps, Outside h (x, 1)) ∧
        ∀ u ∈ w.live, x < u.1 ∨ u.1 + u.2 ≤ x then
      some ({ w with store := { w.store with mem := Function.update w.store.mem x v } }, [])
    else none

/-- From a start without heaps, whatever the memory is. -/
def machine (mem : Memory) : Machine World Action Event :=
  ⟨⟨⟨mem, []⟩, [], false⟩, step⟩

/-! ## 2. What the program expects -/

/-- What an event does to the blocks held, as separate arrays. -/
def effect (objects : List (Nat × List Word)) : Event → List (Nat × List Word)
  | .allocated p cs => (p, cs) :: objects
  | .freed p => objects.filter (·.1 ≠ p)
  | .wrote p i w => objects.map fun o => if o.1 = p then (p, o.2.set i w) else o
  | .created _ | .outOfMemory => objects

/-- What stands in the blocks held. -/
def objects (w : World) : List (Nat × List Word) :=
  w.live.map fun u => (u.1, contents w.store.mem u)

/-! ## 3. A heap in memory -/

/-- The blocks in use of a heap, as `microbit_heap_print` finds them. -/
def inUse (mem : Memory) (h : HeapDefinition) : List (Nat × Nat) :=
  usedAt h.heapStart (heapPrint mem h.heapEnd (h.heapEnd - h.heapStart + 1) h.heapStart)

/-- The used blocks of a heap are those held in it, each behind its header and with at most one
    word more than was asked for. -/
structure Holds (live : List (Nat × Nat)) (h : HeapDefinition) (us : List (Nat × Nat)) : Prop where
  held : ∀ u ∈ us, ∃ n, (u.1 + 1, n) ∈ live ∧ 0 < n ∧ n + 1 ≤ u.2 ∧ u.2 ≤ n + 2
  used : ∀ v ∈ live, Outside h v ∨ ∃ u ∈ us, v.1 = u.1 + 1 ∧ v.2 + 1 ≤ u.2

/-- **A heap in memory.** -/
def Blocks (live : List (Nat × Nat)) (mem : Memory) (h : HeapDefinition) : Prop :=
  ∃ bs, Tiles mem h.heapEnd h.heapStart bs ∧ Holds live h (usedAt h.heapStart bs)

/-- Some words in a row, of a heap, that meet no block in use. -/
def Room (need : Nat) (mem : Memory) (h : HeapDefinition) : Prop :=
  ∃ a, h.heapStart ≤ a ∧ a + need ≤ h.heapEnd ∧
    ∀ u ∈ inUse mem h, u.1 + u.2 ≤ a ∨ a + need ≤ u.1

variable {mem mem' : Memory} {h g : HeapDefinition} {live us : List (Nat × Nat)} {bs : List Block}
  {n o k : Nat} {size : Word}

theorem inUse_eq (ht : Tiles mem h.heapEnd h.heapStart bs) (hend : h.heapEnd < 0x40000000) :
    inUse mem h = usedAt h.heapStart bs := by
  rw [inUse, heapPrint_eq ht hend (Nat.lt_succ_of_le ht.length_le)]

/-- A heap is what stands in its region. -/
theorem Blocks.congr (hb : Blocks live mem h)
    (hm : ∀ x, h.heapStart ≤ x → x < h.heapEnd → mem' x = mem x) : Blocks live mem' h := by
  obtain ⟨bs, ht, hh⟩ := hb
  exact ⟨bs, ht.congr hm, hh⟩

theorem inUse_congr (hb : Blocks live mem h) (hend : h.heapEnd < 0x40000000)
    (hm : ∀ x, h.heapStart ≤ x → x < h.heapEnd → mem' x = mem x) : inUse mem' h = inUse mem h := by
  obtain ⟨bs, ht, hh⟩ := hb
  rw [inUse_eq ht hend, inUse_eq (ht.congr hm) hend]

/-- A block outside the heap is held. -/
theorem Holds.cons_outside (hh : Holds live h us) {v : Nat × Nat} (hv : Outside h v) :
    Holds (v :: live) h us := by
  refine ⟨fun u hu => ?_, fun w hw => ?_⟩
  · obtain ⟨n, hn, hle⟩ := hh.held u hu
    exact ⟨n, List.mem_cons_of_mem _ hn, hle⟩
  · rcases List.mem_cons.mp hw with rfl | hw
    · exact .inl hv
    · exact hh.used w hw

theorem Blocks.cons_outside (hb : Blocks live mem h) {v : Nat × Nat} (hv : Outside h v) :
    Blocks (v :: live) mem h := by
  obtain ⟨bs, ht, hh⟩ := hb
  exact ⟨bs, ht, hh.cons_outside hv⟩

/-- A new block in use is held, and is apart from all that was. -/
theorem Holds.add {l r : List (Nat × Nat)} (hh : Holds live h (l ++ r))
    (hpair : (l ++ (o, k) :: r).Pairwise fun u v => u.1 + u.2 ≤ v.1) (hstart : h.heapStart ≤ o)
    (hend : o + k ≤ h.heapEnd) (hn : 0 < n) (hk : n + 1 ≤ k) (hk' : k ≤ n + 2) :
    Holds ((o + 1, n) :: live) h (l ++ (o, k) :: r) ∧ ∀ v ∈ live, Apart (o + 1, n) v := by
  have hmem : ∀ u, u ∈ l ++ (o, k) :: r ↔ u = (o, k) ∨ u ∈ l ++ r := by
    intro u
    simp only [List.mem_append, List.mem_cons]
    tauto
  refine ⟨⟨fun u hu => ?_, fun v hv => ?_⟩, fun v hv => ?_⟩
  · rcases (hmem u).mp hu with rfl | hu
    · exact ⟨n, List.mem_cons_self, hn, hk, hk'⟩
    · obtain ⟨m, hm, hle⟩ := hh.held u hu
      exact ⟨m, List.mem_cons_of_mem _ hm, hle⟩
  · rcases List.mem_cons.mp hv with rfl | hv
    · exact .inr ⟨(o, k), (hmem _).mpr (.inl rfl), rfl, hk⟩
    · refine (hh.used v hv).imp_right fun ⟨u, hu, hle⟩ => ⟨u, (hmem u).mpr (.inr hu), hle⟩
  · rcases hh.used v hv with hout | ⟨u, hu, hv1, hv2⟩
    · simp only [Outside, Apart] at hout ⊢
      omega
    · obtain ⟨-, hr, hl⟩ := List.pairwise_append.mp hpair
      rcases List.mem_append.mp hu with hu | hu
      · have := hl u hu (o, k) List.mem_cons_self
        simp only [Apart] at this ⊢
        omega
      · have := (List.pairwise_cons.mp hr).1 u hu
        simp only [Apart] at this ⊢
        omega

/-- What a held block contains does not change when the used blocks do not. -/
theorem contents_of_keeps (hb : Holds live h (usedAt h.heapStart bs))
    (hk : Keeps mem mem' h.heapEnd h.heapStart bs) {v : Nat × Nat} (hv : v ∈ live) :
    contents mem' v = contents mem v := by
  refine List.map_congr_left fun i hi => ?_
  rw [List.mem_range] at hi
  rcases hb.used v hv with hout | ⟨u, hu, h1, h2⟩
  · exact hk.1 _ (by unfold Outside at hout; omega)
  · exact hk.2 u hu _ (by omega) (by omega)

/-! ## 4. Allocation -/

/-- What an allocation comes to: a block apart from all that are held, or nothing changed for
    the program. -/
def Outcome (heaps : List HeapDefinition) (live : List (Nat × Nat)) (n : Nat) (mem : Memory) :
    Option Nat → Prop
  | none => ∀ h ∈ heaps, Blocks live mem h
  | some p => p ≠ 0 ∧ (∀ h ∈ heaps, Blocks ((p, n) :: live) mem h) ∧ ∀ u ∈ live, Apart (p, n) u

theorem words_pos (hsize : size ≠ 0) : 0 < words size := by
  have hne : size.toNat ≠ 0 := fun e => hsize (BitVec.eq_of_toNat_eq e)
  unfold words
  omega

/-- **One heap.** It has no block for the request only if no stretch of its words is free. -/
theorem mallocIn_blocks (hsize : size ≠ 0) (hb : Blocks live mem h) (hend : h.heapEnd < 0x40000000) :
    ∃ mem' r, mallocIn size h mem = some (mem', r) ∧
      (∀ x, x < h.heapStart ∨ h.heapEnd ≤ x → mem' x = mem x) ∧
      (∀ u ∈ live, contents mem' u = contents mem u) ∧
      ((r = none ∧ Blocks live mem' h ∧ inUse mem' h = inUse mem h ∧
          ¬ Room (words size + 1) mem h) ∨
        ∃ p, r = some p ∧ h.heapStart < p ∧ p + words size ≤ h.heapEnd ∧
          Blocks ((p, words size) :: live) mem' h ∧ (∀ u ∈ live, Apart (p, words size) u) ∧
          Room (words size + 1) mem h) := by
  obtain ⟨bs, ht, hh⟩ := hb
  obtain ⟨mem', hmalloc, ht', hkeep⟩ := mallocIn_spec hsize ht hend
  have hneed : (blocksNeeded size).toNat = words size + 1 := toNat_blocksNeeded size
  have huse := inUse_eq ht hend
  rw [hneed] at hmalloc ht'
  refine ⟨mem', _, hmalloc, hkeep.1, fun u hu => contents_of_keeps hh hkeep hu, ?_⟩
  cases ha : allocate (words size + 1) bs with
  | mk bs' r =>
      rw [ha] at ht'
      cases r with
      | none =>
          obtain ⟨-, hused, hnone⟩ := allocate_none (Nat.succ_pos _) ha
          refine .inl ⟨rfl, ⟨bs', ht', (hused h.heapStart).symm ▸ hh⟩, ?_, ?_⟩
          · rw [huse, inUse_eq ht' hend, hused]
          · rintro ⟨a, h1, h2, hclear⟩
            rw [huse] at hclear
            obtain ⟨l, run, r, hbs, hrun, hle⟩ := exists_stretch (Nat.succ_pos _) h1
              (by rw [ht.end_eq]; exact h2) hclear
            exact absurd (hnone l run r hbs hrun) (Nat.not_lt.mpr hle)
      | some p =>
          obtain ⟨-, hused⟩ := allocate_some ha
          obtain ⟨k, l, r, hk, hk', hbs, hbs'⟩ := hused h.heapStart
          have hpair := usedAt_pairwise h.heapStart bs'
          have hmem : (h.heapStart + p, k) ∈ usedAt h.heapStart bs' := by
            rw [hbs']
            exact List.mem_append_right _ List.mem_cons_self
          have hbounds := usedAt_bounds hmem
          rw [ht'.end_eq] at hbounds
          simp only at hbounds
          rw [hbs'] at hpair
          rw [hbs] at hh huse
          obtain ⟨hh', hapart⟩ := hh.add hpair hbounds.1 hbounds.2 (words_pos hsize) hk hk'
          refine .inr ⟨h.heapStart + p + 1, rfl, by omega, by omega, ⟨bs', ht', hbs' ▸ hh'⟩,
            hapart, h.heapStart + p, hbounds.1, by omega, fun u hu => ?_⟩
          rw [huse] at hu
          obtain ⟨-, hr, hl⟩ := List.pairwise_append.mp hpair
          rcases List.mem_append.mp hu with hu | hu
          · exact .inl (hl u hu _ List.mem_cons_self)
          · have := (List.pairwise_cons.mp hr).1 u hu
            exact .inr (by simp only at this; omega)

/-- Two heaps do not overlap. -/
def Disjoint (g h : HeapDefinition) : Prop := g.heapEnd ≤ h.heapStart ∨ h.heapEnd ≤ g.heapStart

instance : Std.Symm Disjoint := ⟨fun _ _ h => Or.symm h⟩

/-- **All heaps.** The loop ends, and answers NULL only if no heap has room. -/
theorem mallocHeaps_spec {all heaps : List HeapDefinition} (hsub : heaps ⊆ all)
    (hbound : ∀ h ∈ all, h.heapEnd < 0x40000000) (hdis : all.Pairwise Disjoint)
    (hb : ∀ h ∈ all, Blocks live mem h) :
    ∃ mem' r, mallocHeaps size heaps mem = some (mem', r) ∧
      (∀ x, (∀ h ∈ all, x < h.heapStart ∨ h.heapEnd ≤ x) → mem' x = mem x) ∧
      (∀ u ∈ live, contents mem' u = contents mem u) ∧
      Outcome all live (words size) mem' r ∧
      (size ≠ 0 → (r ≠ none ↔ ∃ h ∈ heaps, Room (words size + 1) mem h)) := by
  induction heaps generalizing mem with
  | nil => exact ⟨mem, none, rfl, fun _ _ => rfl, fun _ _ => rfl, hb, by simp⟩
  | cons h heaps ih =>
      have hall := hsub List.mem_cons_self
      have hsub' : heaps ⊆ all := fun g hg => hsub (List.mem_cons_of_mem _ hg)
      by_cases hsize : size = 0
      · have hnull : mallocIn size h mem = some (mem, none) := by
          rw [hsize]
          rfl
        simp only [mallocHeaps, hnull]
        obtain ⟨mem', r, h1, h2, h3, h4, -⟩ := ih hsub' hb
        exact ⟨mem', r, h1, h2, h3, h4, fun hne => absurd hsize hne⟩
      · obtain ⟨mem₁, r, hmalloc, hout, hcont, hr⟩ := mallocIn_blocks hsize (hb h hall)
          (hbound h hall)
        -- what another heap is does not change
        have hother : ∀ g ∈ all, g ≠ h → ∀ x, g.heapStart ≤ x → x < g.heapEnd →
            mem₁ x = mem x := by
          intro g hg hne x h1 h2
          have := hdis.forall hg hall hne
          unfold Disjoint at this
          exact hout x (by omega)
        simp only [mallocHeaps, hmalloc]
        rcases hr with ⟨rfl, hb₁, huse, hroom⟩ | ⟨p, rfl, hp, hp', hb₁, hapart, hroom⟩
        · have hb₁' : ∀ g ∈ all, Blocks live mem₁ g := fun g hg => by
            by_cases hne : g = h
            · exact hne ▸ hb₁
            · exact (hb g hg).congr (hother g hg hne)
          have huse' : ∀ g ∈ all, inUse mem₁ g = inUse mem g := fun g hg => by
            by_cases hne : g = h
            · exact hne ▸ huse
            · exact inUse_congr (hb g hg) (hbound g hg) (hother g hg hne)
          obtain ⟨mem', r, h1, h2, h3, h4, h5⟩ := ih hsub' hb₁'
          refine ⟨mem', r, h1, fun x hx => (h2 x hx).trans (hout x (hx h hall)),
            fun u hu => (h3 u hu).trans (hcont u hu), h4, fun _ => ?_⟩
          rw [h5 hsize]
          constructor
          · rintro ⟨g, hg, hroom'⟩
            exact ⟨g, List.mem_cons_of_mem _ hg, by unfold Room; rwa [← huse' g (hsub' hg)]⟩
          · rintro ⟨g, hg, hroom'⟩
            rcases List.mem_cons.mp hg with rfl | hg
            · exact absurd hroom' hroom
            · exact ⟨g, hg, by unfold Room; rwa [huse' g (hsub' hg)]⟩
        · refine ⟨mem₁, some p, rfl, fun x hx => hout x (hx h hall), hcont,
            ⟨by omega, fun g hg => ?_, hapart⟩, fun _ => ?_⟩
          · by_cases hne : g = h
            · exact hne ▸ hb₁
            · refine ((hb g hg).congr (hother g hg hne)).cons_outside ?_
              have := hdis.forall hg hall hne
              simp only [Disjoint, Outside] at this ⊢
              omega
          · exact ⟨fun _ => ⟨h, List.mem_cons_self, hroom⟩, fun _ => Option.some_ne_none p⟩

/-! ## 5. The invariant -/

/-- **The invariant of the runs.** -/
structure HeapInv (w : World) : Prop where
  bound : ∀ h ∈ w.store.heaps, h.heapEnd < 0x40000000
  disjoint : w.store.heaps.Pairwise Disjoint
  blocks : ∀ h ∈ w.store.heaps, Blocks w.live w.store.mem h
  apart : w.live.Pairwise Apart
  nonzero : ∀ u ∈ w.live, u.1 ≠ 0

instance : Std.Symm Apart := ⟨fun _ _ h => ⟨h.1.symm, h.2.symm⟩⟩

variable {w w' : World} {ev : List Event} {p : Nat}

/-- A block is known by its address. -/
theorem HeapInv.eq_of_addr (hinv : HeapInv w) {u v : Nat × Nat} (hu : u ∈ w.live)
    (hv : v ∈ w.live) (h : u.1 = v.1) : u = v := by
  by_contra hne
  exact (hinv.apart.forall hu hv hne).1 h

/-- What a successful `createHeap` leaves: a heap of one free block. -/
theorem createHeap_ok {start hend : Word} {s : Store}
    (hok : (createHeap start hend s).1 = microbitOk) :
    (createHeap start hend s).2.heaps = s.heaps ++ [⟨start.toNat / 4, hend.toNat / 4⟩] ∧
      start.toNat / 4 < hend.toNat / 4 ∧
      (createHeap start hend s).2.mem = Function.update s.mem (start.toNat / 4)
        (header ⟨hend.toNat / 4 - start.toNat / 4, true⟩) := by
  unfold createHeap at hok ⊢
  split at hok
  · cases hok
  · split at hok
    · cases hok
    · rename_i h1 h2
      rw [if_neg h1, if_neg h2]
      refine ⟨rfl, ?_, ?_⟩
      · simp only [not_or, BitVec.not_le, BitVec.lt_def, not_not] at h2
        obtain ⟨hlt, -, hend4, hstart4⟩ := h2
        have he : hend.toNat % 4 = 0 := congrArg BitVec.toNat hend4
        have hs : start.toNat % 4 = 0 := congrArg BitVec.toNat hstart4
        omega
      · simp only [initialiseHeap, Function.update_self, Function.update_idem]
        rw [header_free, ← Nat.mul_sub, heapBlockSize, Nat.mul_div_cancel_left _ (by decide)]

theorem createHeap_err {start hend : Word} {s : Store}
    (herr : (createHeap start hend s).1 ≠ microbitOk) : (createHeap start hend s).2 = s := by
  unfold createHeap at herr ⊢
  split
  · rfl
  · rename_i h1
    rw [if_neg h1] at herr
    split
    · rfl
    · rename_i h2
      rw [if_neg h2] at herr
      exact absurd rfl herr

/-- The blocks held contain what they contained. -/
theorem objects_congr (hlive : w'.live = w.live)
    (hc : ∀ u ∈ w.live, contents w'.store.mem u = contents w.store.mem u) :
    objects w' = objects w := by
  rw [objects, objects, hlive]
  exact List.map_congr_left fun u hu => by rw [hc u hu]

/-- A write outside a block. -/
theorem contents_update {u : Nat × Nat} {x : Nat} (hx : x < u.1 ∨ u.1 + u.2 ≤ x) (v : Word) :
    contents (Function.update mem x v) u = contents mem u := by
  refine List.map_congr_left fun i hi => ?_
  rw [List.mem_range] at hi
  exact Function.update_of_ne (by omega) _ _

theorem heapInv_createHeap (hinv : HeapInv w) {start hend : Word}
    (hfresh : (createHeap start hend w.store).1 = microbitOk →
      FreshRegion w ⟨start.toNat / 4, hend.toNat / 4⟩) :
    HeapInv { w with store := (createHeap start hend w.store).2 } ∧
      objects { w with store := (createHeap start hend w.store).2 } = objects w := by
  by_cases hok : (createHeap start hend w.store).1 = microbitOk
  · obtain ⟨hheaps, hlt, hmem⟩ := createHeap_ok hok
    obtain ⟨hfresh, hlive⟩ := hfresh hok
    have hlt32 := hend.isLt
    simp only [Outside] at hfresh hlive
    refine ⟨⟨?_, ?_, ?_, hinv.apart, hinv.nonzero⟩, objects_congr rfl fun u hu => ?_⟩
    · simp only [hheaps, List.mem_append, List.mem_singleton]
      rintro h (hh | rfl)
      · exact hinv.bound h hh
      · simp only
        omega
    · simp only [hheaps, List.pairwise_append, List.mem_singleton]
      refine ⟨hinv.disjoint, List.pairwise_singleton _ _, ?_⟩
      rintro g hg _ rfl
      have := hfresh g hg
      simp only [Disjoint]
      omega
    · simp only [hheaps, hmem, List.mem_append, List.mem_singleton]
      rintro h (hh | rfl)
      · refine (hinv.blocks h hh).congr fun x h1 h2 => Function.update_of_ne ?_ _ _
        have := hfresh h hh
        omega
      · refine ⟨[⟨hend.toNat / 4 - start.toNat / 4, true⟩],
          ⟨Nat.sub_pos_of_lt hlt, Function.update_self .., ?_⟩,
          ⟨fun u hu => absurd hu List.not_mem_nil, fun v hv => .inl (hlive v hv)⟩⟩
        simp only [Tiles]
        omega
    · simp only [hmem]
      exact contents_update (by have := hlive u hu; omega) _
  · rw [createHeap_err hok]
    exact ⟨hinv, rfl⟩

theorem heapInv_malloc (hinv : HeapInv w) {native : Option Nat}
    (hnative : NativeAnswer w size native) :
    ∃ store r, malloc size native w.store = some (store, r) ∧
      (r = none → HeapInv { w with store := store, panicked := true } ∧
        objects { w with store := store, panicked := true } = objects w) ∧
      ∀ p, r = some p → HeapInv { w with store := store, live := (p, words size) :: w.live } ∧
        objects { w with store := store, live := (p, words size) :: w.live } =
          (p, contents store.mem (p, words size)) :: objects w := by
  obtain ⟨mem', r, hmalloc, -, hcont, hout, -⟩ := @mallocHeaps_spec _ _ size w.store.heaps _
    (List.Subset.refl _) hinv.bound hinv.disjoint hinv.blocks
  have hobjects : ∀ p,
      objects ⟨⟨mem', w.store.heaps⟩, (p, words size) :: w.live, w.panicked⟩ =
        (p, contents mem' (p, words size)) :: objects w := fun p =>
    congrArg (List.cons (p, contents mem' (p, words size)))
      (List.map_congr_left fun u hu => congrArg (Prod.mk u.1) (hcont u hu))
  have hadd : ∀ p, p ≠ 0 → (∀ h ∈ w.store.heaps, Blocks ((p, words size) :: w.live) mem' h) →
      (∀ u ∈ w.live, Apart (p, words size) u) →
      HeapInv ⟨⟨mem', w.store.heaps⟩, (p, words size) :: w.live, w.panicked⟩ := fun p hp hb ha =>
    ⟨hinv.bound, hinv.disjoint, hb, List.pairwise_cons.mpr ⟨ha, hinv.apart⟩, fun u hu => by
      rcases List.mem_cons.mp hu with rfl | hu
      · exact hp
      · exact hinv.nonzero u hu⟩
  cases r with
  | some p =>
      refine ⟨{ w.store with mem := mem' }, some p, by rw [malloc, hmalloc],
        fun h => absurd h (Option.some_ne_none p), ?_⟩
      rintro q ⟨⟩
      exact ⟨hadd p hout.1 hout.2.1 hout.2.2, hobjects p⟩
  | none =>
      refine ⟨{ w.store with mem := mem' }, native, by rw [malloc, hmalloc], fun h => ?_,
        fun p hp => ?_⟩
      · exact ⟨⟨hinv.bound, hinv.disjoint, hout, hinv.apart, hinv.nonzero⟩,
          objects_congr rfl hcont⟩
      · subst hp
        obtain ⟨hp, houtside, hapart⟩ := hnative
        exact ⟨hadd p hp (fun h hh => (hout h hh).cons_outside (houtside h hh)) hapart, hobjects p⟩

/-- What is no longer held. -/
theorem Holds.filter (hh : Holds live h us) (hne : ∀ u ∈ us, u.1 + 1 ≠ p) :
    Holds (live.filter (·.1 ≠ p)) h us := by
  refine ⟨fun u hu => ?_, fun v hv => hh.used v (List.mem_of_mem_filter hv)⟩
  obtain ⟨n, hn, hle⟩ := hh.held u hu
  exact ⟨n, List.mem_filter.mpr ⟨hn, by simpa using hne u hu⟩, hle⟩

/-- A block in use that is released. -/
theorem Blocks.free (hb : Blocks live mem h) (hp : ∃ u ∈ live, u.1 = p) (h1 : h.heapStart < p)
    (h2 : p < h.heapEnd) :
    Blocks (live.filter (·.1 ≠ p)) (Function.update mem (p - 1) (mem (p - 1) ||| blockFree)) h ∧
      ∀ v ∈ live, v.1 ≠ p → p - 1 < v.1 ∨ v.1 + v.2 ≤ p - 1 := by
  obtain ⟨bs, ht, hh⟩ := hb
  obtain ⟨v, hv, rfl⟩ := hp
  have hin : ∃ u ∈ usedAt h.heapStart bs, v.1 = u.1 + 1 := by
    rcases hh.used v hv with hout | ⟨u, hu, hv1, -⟩
    · unfold Outside at hout
      omega
    · exact ⟨u, hu, hv1⟩
  obtain ⟨⟨o, k⟩, hu, hvo⟩ := hin
  have hpair := usedAt_pairwise h.heapStart bs
  obtain ⟨l, r, rfl, ho⟩ := mem_usedAt.mp hu
  simp only at hvo ho
  have hpo : v.1 - 1 = h.heapStart + total l := by omega
  obtain ⟨hfree, hused⟩ := @usedAt_release h.heapStart l r k (tiles_append.mp ht).1.pos
  rw [hused] at hpair hh
  -- the other used blocks stand before the released one, or behind it
  have hsides : ∀ u ∈ usedAt h.heapStart l ++ usedAt (h.heapStart + total l + k) r,
      u.1 + u.2 ≤ o ∨ o + k ≤ u.1 := by
    intro u hu
    obtain ⟨-, hr, hl⟩ := List.pairwise_append.mp hpair
    rw [← ho] at hr hl
    rcases List.mem_append.mp hu with hu | hu
    · exact .inl (hl u hu _ List.mem_cons_self)
    · rw [← ho] at hu
      exact .inr ((List.pairwise_cons.mp hr).1 u hu)
  have hmem : ∀ u, u ∈ usedAt h.heapStart l ++
      (h.heapStart + total l, k) :: usedAt (h.heapStart + total l + k) r ↔
        u = (o, k) ∨ u ∈ usedAt h.heapStart l ++ usedAt (h.heapStart + total l + k) r := by
    intro u
    rw [ho]
    simp only [List.mem_append, List.mem_cons]
    tauto
  obtain ⟨n, hn, hn0, hnk, -⟩ := hh.held (o, k) ((hmem _).mpr (.inl rfl))
  simp only at hn hnk
  refine ⟨⟨release (total l) (l ++ ⟨k, false⟩ :: r), hpo ▸ tiles_free ht, ?_⟩, fun v' hv' hne => ?_⟩
  · rw [hfree]
    refine ⟨fun u hu => ?_, fun v' hv' => ?_⟩
    · obtain ⟨m, hm, hle⟩ := hh.held u ((hmem u).mpr (.inr hu))
      have := hsides u hu
      exact ⟨m, List.mem_filter.mpr ⟨hm, by simp only [decide_eq_true_eq]; omega⟩, hle⟩
    · obtain ⟨hv', hne⟩ := List.mem_filter.mp hv'
      simp only [decide_eq_true_eq] at hne
      refine (hh.used v' hv').imp_right fun ⟨u, hu, h3, h4⟩ => ⟨u, ?_, h3, h4⟩
      rcases (hmem u).mp hu with rfl | hu
      · exact absurd (h3.trans hvo.symm) hne
      · exact hu
  · rcases hh.used v' hv' with hout | ⟨u, hu, h3, h4⟩
    · unfold Outside at hout
      omega
    · rcases (hmem u).mp hu with rfl | hu
      · exact absurd (h3.trans hvo.symm) hne
      · have := hsides u hu
        omega

theorem objects_filter {store : Store}
    (hc : ∀ u ∈ w.live, u.1 ≠ p → contents store.mem u = contents w.store.mem u) :
    objects ⟨store, w.live.filter (·.1 ≠ p), w.panicked⟩ = (objects w).filter (·.1 ≠ p) := by
  rw [objects, objects, List.filter_map]
  refine List.map_congr_left fun u hu => ?_
  obtain ⟨hu, hne⟩ := List.mem_filter.mp hu
  rw [hc u hu (by simpa using hne)]

/-- A header of a block in use lies in its heap, and so does the block. -/
theorem Holds.bounds (hh : Holds live h (usedAt h.heapStart bs))
    (ht : Tiles mem h.heapEnd h.heapStart bs) {u : Nat × Nat} (hu : u ∈ usedAt h.heapStart bs) :
    h.heapStart ≤ u.1 ∧ u.1 + 2 ≤ h.heapEnd := by
  obtain ⟨n, -, hn, hk, -⟩ := hh.held u hu
  have := usedAt_bounds hu
  rw [ht.end_eq] at this
  omega

theorem heapInv_free (hinv : HeapInv w) (hp : p = 0 ∨ ∃ u ∈ w.live, u.1 = p) :
    HeapInv ⟨free p w.store, w.live.filter (·.1 ≠ p), w.panicked⟩ ∧
      objects ⟨free p w.store, w.live.filter (·.1 ≠ p), w.panicked⟩ =
        (objects w).filter (·.1 ≠ p) := by
  have hkeep : (∀ h ∈ w.store.heaps, ¬ (h.heapStart < p ∧ p < h.heapEnd)) →
      HeapInv ⟨w.store, w.live.filter (·.1 ≠ p), w.panicked⟩ ∧
        objects ⟨w.store, w.live.filter (·.1 ≠ p), w.panicked⟩ =
          (objects w).filter (·.1 ≠ p) := fun hnone => by
    refine ⟨⟨hinv.bound, hinv.disjoint, fun h hh => ?_, hinv.apart.filter _, fun u hu =>
      hinv.nonzero u (List.mem_of_mem_filter hu)⟩, objects_filter fun _ _ _ => rfl⟩
    obtain ⟨bs, ht, hb⟩ := hinv.blocks h hh
    refine ⟨bs, ht, hb.filter fun u hu heq => hnone h hh ?_⟩
    have := hb.bounds ht hu
    omega
  unfold free
  by_cases h0 : p = 0
  · rw [if_pos h0]
    exact hkeep fun h _ hlt => by omega
  · rw [if_neg h0]
    obtain ⟨u, hu, hup⟩ := hp.resolve_left h0
    cases hf : w.store.heaps.find? fun h => h.heapStart < p ∧ p < h.heapEnd with
    | none =>
        exact hkeep fun h hh hlt => by simpa [hlt.1, hlt.2] using List.find?_eq_none.mp hf h hh
    | some h =>
        have hh := List.mem_of_find?_eq_some hf
        obtain ⟨h1, h2⟩ : h.heapStart < p ∧ p < h.heapEnd := by simpa using List.find?_some hf
        obtain ⟨hb, hc⟩ := (hinv.blocks h hh).free ⟨u, hu, hup⟩ h1 h2
        refine ⟨⟨hinv.bound, hinv.disjoint, fun g hg => ?_, hinv.apart.filter _, fun v hv =>
          hinv.nonzero v (List.mem_of_mem_filter hv)⟩,
          objects_filter fun v hv hne => contents_update (hc v hv hne) _⟩
        by_cases hne : g = h
        · exact hne ▸ hb
        · have hdis := hinv.disjoint.forall hg hh hne
          unfold Disjoint at hdis
          obtain ⟨bs, ht, hb'⟩ := hinv.blocks g hg
          refine ⟨bs, ht.congr fun x _ _ => Function.update_of_ne (by omega) _ _,
            hb'.filter fun v hv heq => ?_⟩
          have := hb'.bounds ht hv
          omega

/-- The program writes into a block it holds. -/
theorem heapInv_write (hinv : HeapInv w) {u : Nat × Nat} (hu : u ∈ w.live) {i : Nat}
    (hi : i < u.2) (x : Word) :
    HeapInv { w with store := { w.store with
        mem := Function.update w.store.mem (u.1 + i) x } } ∧
      objects { w with store := { w.store with
          mem := Function.update w.store.mem (u.1 + i) x } } =
        effect (objects w) (.wrote u.1 i x) := by
  refine ⟨⟨hinv.bound, hinv.disjoint, fun h hh => ?_, hinv.apart, hinv.nonzero⟩, ?_⟩
  · obtain ⟨bs, ht, hb⟩ := hinv.blocks h hh
    rcases hb.used u hu with hout | ⟨v, hv, h1, h2⟩
    · unfold Outside at hout
      exact ⟨bs, ht.congr fun y _ _ => Function.update_of_ne (by omega) _ _, hb⟩
    · exact ⟨bs, ht.update hv (by omega) (by omega) x, hb⟩
  · simp only [objects, effect, List.map_map]
    refine List.map_congr_left fun v hv => ?_
    by_cases heq : v.1 = u.1
    · obtain rfl := hinv.eq_of_addr hv hu heq
      simp only [Function.comp_apply, if_pos]
      refine congrArg (Prod.mk v.1) (List.ext_getElem (by simp [contents]) fun j h1 h2 => ?_)
      simp [contents, List.getElem_set, Function.update_apply, eq_comm]
    · have hne : v ≠ u := fun e => heq (congrArg Prod.fst e)
      have := (hinv.apart.forall hv hu hne).2
      simp only [Function.comp_apply, if_neg heq]
      rw [contents_update (by omega)]

/-- The rest of the program writes a word of its own. -/
theorem heapInv_other (hinv : HeapInv w) {x : Nat} (hheaps : ∀ h ∈ w.store.heaps, Outside h (x, 1))
    (hlive : ∀ u ∈ w.live, x < u.1 ∨ u.1 + u.2 ≤ x) (v : Word) :
    HeapInv { w with store := { w.store with mem := Function.update w.store.mem x v } } ∧
      objects { w with store := { w.store with mem := Function.update w.store.mem x v } } =
        objects w := by
  refine ⟨⟨hinv.bound, hinv.disjoint, fun h hh => ?_, hinv.apart, hinv.nonzero⟩,
    objects_congr rfl fun u hu => contents_update (hlive u hu) v⟩
  have := hheaps h hh
  simp only [Outside] at this
  exact (hinv.blocks h hh).congr fun y _ _ => Function.update_of_ne (by omega) _ _

/-- **One step** keeps the invariant, and does to the blocks what its event says. -/
theorem heapInv_step {a : Action} (hinv : HeapInv w) (hs : step w a = some (w', ev)) :
    HeapInv w' ∧ objects w' = ev.foldl effect (objects w) := by
  cases a with
  | createHeap start hend =>
      simp only [step, Option.ite_none_right_eq_some, Option.some.injEq, Prod.mk.injEq] at hs
      obtain ⟨⟨-, hfresh⟩, rfl, rfl⟩ := hs
      exact heapInv_createHeap hinv hfresh
  | malloc size native =>
      simp only [step, Option.ite_none_right_eq_some] at hs
      obtain ⟨⟨-, hnative⟩, hs⟩ := hs
      obtain ⟨store, r, hmalloc, hnone, hsome⟩ := heapInv_malloc hinv hnative
      rw [hmalloc] at hs
      cases r with
      | none =>
          cases hs
          exact hnone rfl
      | some p =>
          cases hs
          exact hsome p rfl
  | free p =>
      simp only [step, Option.ite_none_right_eq_some, Option.some.injEq, Prod.mk.injEq] at hs
      obtain ⟨⟨-, hp⟩, rfl, rfl⟩ := hs
      exact heapInv_free hinv hp
  | write p i x =>
      simp only [step, Option.ite_none_right_eq_some, Option.some.injEq, Prod.mk.injEq] at hs
      obtain ⟨⟨-, u, hu, rfl, hi⟩, rfl, rfl⟩ := hs
      exact heapInv_write hinv hu hi x
  | other x v =>
      simp only [step, Option.ite_none_right_eq_some, Option.some.injEq, Prod.mk.injEq] at hs
      obtain ⟨⟨-, hheaps, hlive⟩, rfl, rfl⟩ := hs
      exact heapInv_other hinv hheaps hlive v

/-- **Every run** keeps it. -/
theorem heapInv_run {tr : List Event} (h : (machine mem).Run w tr) :
    HeapInv w ∧ objects w = tr.foldl effect [] := by
  refine h.inv (I := fun w tr => HeapInv w ∧ objects w = tr.foldl effect []) ⟨⟨?_, .nil, ?_, .nil,
    ?_⟩, rfl⟩ fun w tr a w' ev _ hinv hs => ?_
  · exact fun h hh => absurd hh List.not_mem_nil
  · exact fun h hh => absurd hh List.not_mem_nil
  · exact fun u hu => absurd hu List.not_mem_nil
  · obtain ⟨h1, h2⟩ := heapInv_step hinv.1 hs
    exact ⟨h1, by rw [h2, hinv.2, List.foldl_append]⟩

end MicrobitAlarm.Heap
