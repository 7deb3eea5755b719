/-
  File:      MicrobitAlarm/Properties/Heap.lean
  Subject:   WHAT THE HEAP ALLOCATOR GIVES A PROGRAM, in all its runs.

  * `blocks_are_separate` -- the blocks held are separate arrays: what stands in them is what the
    program's own allocations, writes and frees say, and every allocation comes back;
  * `finds_room_iff` -- an allocation is met by the heaps exactly when some stretch of free words
    is large enough, and a heap in which nothing is held is whole again.
-/
import MicrobitAlarm.Runs.Heap

namespace MicrobitAlarm.Heap

open FirstFit Trace

variable {mem : Memory} {w : World} {tr : List Event}

/-! ## 1. Separate blocks -/

/-- **The blocks held are separate arrays**, behind their headers in one heap or outside all of
    them, and nothing but the program's own events changes what stands in them. -/
theorem blocks_are_separate (hrun : (machine mem).Run w tr) :
    objects w = tr.foldl effect [] ∧ w.live.Pairwise Apart ∧
      (∀ h ∈ w.store.heaps, ∀ u ∈ w.live,
        Outside h u ∨ h.heapStart < u.1 ∧ u.1 + u.2 ≤ h.heapEnd) ∧
      ∀ size native, malloc size native w.store ≠ none := by
  obtain ⟨hinv, hobjects⟩ := heapInv_run hrun
  refine ⟨hobjects, hinv.apart, fun h hh u hu => ?_, fun size native => ?_⟩
  · obtain ⟨bs, ht, hb⟩ := hinv.blocks h hh
    refine (hb.used u hu).imp_right fun ⟨v, hv, h1, h2⟩ => ?_
    have := usedAt_bounds hv
    rw [ht.end_eq] at this
    omega
  · obtain ⟨mem', r, hmalloc, -⟩ := @mallocHeaps_spec _ _ size w.store.heaps _
      (List.Subset.refl _) hinv.bound hinv.disjoint hinv.blocks
    rw [malloc, hmalloc]
    cases r <;> exact Option.some_ne_none _

/-- A heap of ten words. Two blocks are taken, the first is returned, the second is written, and a
    third does not fit where the first was. -/
theorem blocks_are_separate_run : ∃ w tr, (machine fun _ => 0).Run w tr ∧
    w.live = [(22, 3), (19, 2)] ∧ objects w = tr.foldl effect [] := by
  obtain ⟨w, tr, hrun, hlive⟩ := (machine fun _ => 0).exists_run_of_exec
    (fun w _ => w.live = [(22, 3), (19, 2)])
    [.createHeap 64 104, .malloc 4 none, .malloc 8 none, .free 17, .write 19 1 7, .other 26 9,
      .malloc 12 none] (by decide)
  exact ⟨w, tr, hrun, hlive, (blocks_are_separate hrun).1⟩

/-! ## 2. Room -/

/-- The heaps have a block for a request. -/
def Finds (size : Word) (s : Store) : Prop :=
  ∃ mem' p, mallocHeaps size s.heaps s.mem = some (mem', some p)

/-- **No free word is lost**: a request is met exactly when some heap has words enough in a row
    that meet no block in use, however they are cut into free blocks; the blocks in use are those
    held, with at most two words more; and where nothing is held, everything is free. -/
theorem finds_room_iff (hrun : (machine mem).Run w tr) {size : Word} (hsize : size ≠ 0) :
    (Finds size w.store ↔ ∃ h ∈ w.store.heaps, Room (words size + 1) w.store.mem h) ∧
      ∀ h ∈ w.store.heaps,
        (∀ u ∈ inUse w.store.mem h, ∃ n, (u.1 + 1, n) ∈ w.live ∧ u.2 ≤ n + 2) ∧
        ((∀ u ∈ w.live, Outside h u) → h.heapStart + words size < h.heapEnd →
          Finds size w.store) := by
  obtain ⟨hinv, -⟩ := heapInv_run hrun
  obtain ⟨mem', r, hmalloc, -, -, -, hiff⟩ := @mallocHeaps_spec _ _ size w.store.heaps _
    (List.Subset.refl _) hinv.bound hinv.disjoint hinv.blocks
  have hfinds : Finds size w.store ↔ ∃ h ∈ w.store.heaps, Room (words size + 1) w.store.mem h := by
    rw [← hiff hsize, Finds, hmalloc, Option.ne_none_iff_exists']
    simp
  refine ⟨hfinds, fun h hh => ?_⟩
  obtain ⟨bs, ht, hb⟩ := hinv.blocks h hh
  have huse := inUse_eq ht (hinv.bound h hh)
  have hheld : ∀ u ∈ inUse w.store.mem h, ∃ n, (u.1 + 1, n) ∈ w.live ∧ u.2 ≤ n + 2 :=
    fun u hu => by
      obtain ⟨n, hn, -, -, hle⟩ := hb.held u (huse ▸ hu)
      exact ⟨n, hn, hle⟩
  refine ⟨hheld, fun hnothing hroom => hfinds.mpr ⟨h, hh, h.heapStart, Nat.le_refl _, hroom,
    fun u hu => ?_⟩⟩
  -- a block in use would be held in the heap
  obtain ⟨n, hn, -⟩ := hheld u hu
  have hout := hnothing _ hn
  have := hb.bounds ht (huse ▸ hu)
  simp only [Outside] at hout
  omega

/-- After two blocks are returned, side by side and not joined, both together serve a request. -/
theorem finds_room_iff_run : ∃ w tr, (machine fun _ => 0).Run w tr ∧ w.live = [] ∧
    Finds 36 w.store := by
  obtain ⟨w, tr, hrun, hlive, hheaps⟩ := (machine fun _ => 0).exists_run_of_exec
    (fun w _ => w.live = [] ∧ w.store.heaps = [⟨16, 26⟩])
    [.createHeap 64 104, .malloc 4 none, .malloc 8 none, .free 17, .free 19] (by decide)
  have hmem : (⟨16, 26⟩ : HeapDefinition) ∈ w.store.heaps := hheaps ▸ List.mem_cons_self
  refine ⟨w, tr, hrun, hlive, ((finds_room_iff hrun (by decide)).2 _ hmem).2 ?_ (by decide)⟩
  rw [hlive]
  exact fun u hu => absurd hu List.not_mem_nil

end MicrobitAlarm.Heap
