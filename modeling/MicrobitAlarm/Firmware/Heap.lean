/-
  File:      MicrobitAlarm/Firmware/Heap.lean
  Subject:   THE HEAP ALLOCATOR (core/MicroBitHeapAllocator.cpp).

  A heap is a region of words cut into blocks; the first word of a block is its size in words, and
  its top bit says that the block is free. `malloc` walks the blocks of the heaps in the order
  they were created, joins the free blocks it meets and takes the first that is large enough;
  `free` sets the bit of one block and leaves the joining to the next walk.

  Addresses are those of words: the regions, the blocks and what `malloc` hands out are aligned to
  four bytes. A loop takes fuel, and `mallocIn_spec` shows that the fuel given is enough.

  * `createHeap`, `mallocIn`, `malloc`, `free` -- the functions of the source;
  * `Tiles mem hend a bs` -- in memory, the words from `a` to `hend` are the blocks `bs`;
  * `findBlock_spec`, `mallocIn_spec`, `tiles_free` -- on such a region the functions are the first
    fit of the library, and the words of the used blocks stay as they are.

  Left out: the tracing behind `MICROBIT_HEAP_DBG`, which is off.
-/
import Mathlib.Logic.Function.Basic
import Mathlib.Data.List.Basic
import MicrobitAlarm.Lib.FirstFit

namespace MicrobitAlarm.Heap

open FirstFit

/-! ## 1. The allocator -/

/-- `uint32_t`. -/
abbrev Word := BitVec 32

/-- The memory, by the address of a word. -/
abbrev Memory := Nat → Word

/-- `MICROBIT_HEAP_BLOCK_FREE`. -/
def blockFree : Word := 0x80000000#32

/-- `MICROBIT_HEAP_BLOCK_SIZE`. -/
def heapBlockSize : Nat := 4

/-- `MICROBIT_MAXIMUM_HEAPS`. -/
def maximumHeaps : Nat := 2

/-- `MICROBIT_OK`. -/
def microbitOk : Int := 0

/-- `MICROBIT_INVALID_PARAMETER`. -/
def microbitInvalidParameter : Int := -1001

/-- `MICROBIT_NO_RESOURCES`. -/
def microbitNoResources : Int := -1005

/-- `HeapDefinition`. -/
structure HeapDefinition where
  heapStart : Nat
  heapEnd : Nat
  deriving DecidableEq

/-- The memory and the globals of the allocator: `heap[0]`, .., `heap[heap_count - 1]`. -/
structure Store where
  mem : Memory
  heaps : List HeapDefinition

/-- The test `w & MICROBIT_HEAP_BLOCK_FREE` of a header. -/
def isFree (w : Word) : Bool := w &&& blockFree != 0

/-- `w & ~MICROBIT_HEAP_BLOCK_FREE`. -/
def withoutFree (w : Word) : Word := w &&& ~~~blockFree

/-- **`microbit_initialise_heap`**: one free block. -/
def initialiseHeap (heap : HeapDefinition) (mem : Memory) : Memory :=
  let mem := Function.update mem heap.heapStart
    (BitVec.ofNat 32 ((4 * heap.heapEnd - 4 * heap.heapStart) / heapBlockSize))
  Function.update mem heap.heapStart (mem heap.heapStart ||| blockFree)

/-- **`microbit_create_heap`**, with the addresses in bytes. -/
def createHeap (start hend : Word) (s : Store) : Int × Store :=
  if s.heaps.length = maximumHeaps then (microbitNoResources, s)
  else if hend ≤ start ∨ (hend - start).toNat < heapBlockSize * 2 ∨ hend % 4 ≠ 0 ∨ start % 4 ≠ 0 then
    (microbitInvalidParameter, s)
  else
    let heap := ⟨start.toNat / 4, hend.toNat / 4⟩
    (microbitOk, ⟨initialiseHeap heap s.mem, s.heaps ++ [heap]⟩)

/-- The walk of `microbit_heap_print`: the blocks of a heap, as it prints them. -/
def heapPrint (mem : Memory) (hend : Nat) : Nat → Nat → List Block
  | 0, _ => []
  | fuel + 1, block =>
    if block < hend then
      ⟨(withoutFree (mem block)).toNat, isFree (mem block)⟩ ::
        heapPrint mem hend fuel (block + (withoutFree (mem block)).toNat)
    else []

/-- The inner loop of `microbit_malloc`: joins the free blocks behind `block`. The flag of the word
    at `next` is read before `next` is compared with the end of the heap. -/
def merge (hend block : Nat) : Nat → Memory → Word → Option (Memory × Word)
  | 0, _, _ => none
  | fuel + 1, mem, blockSize =>
    if isFree (mem (block + blockSize.toNat)) then
      if hend ≤ block + blockSize.toNat then some (mem, blockSize)
      else
        merge hend block fuel
          (Function.update mem block
            ((blockSize + withoutFree (mem (block + blockSize.toNat))) ||| blockFree))
          (blockSize + withoutFree (mem (block + blockSize.toNat)))
    else some (mem, blockSize)

/-- The outer loop of `microbit_malloc`: where it stops, and the last `blockSize`. -/
def findBlock (hend : Nat) (needed : Word) :
    Nat → Memory → Nat → Word → Option (Memory × Nat × Word)
  | 0, _, _, _ => none
  | fuel + 1, mem, block, blockSize =>
    if block < hend then
      if isFree (mem block) then
        match merge hend block (hend - block + 1) mem (withoutFree (mem block)) with
        | none => none
        | some (mem, blockSize) =>
          if needed ≤ blockSize then some (mem, block, blockSize)
          else findBlock hend needed fuel mem (block + blockSize.toNat) blockSize
      else findBlock hend needed fuel mem (block + (mem block).toNat) blockSize
    else some (mem, block, blockSize)

/-- The words a request takes, the header among them. -/
def blocksNeeded (size : Word) : Word :=
  (if size % 4 = 0 then size / 4 else size / 4 + 1) + 1

/-- The end of `microbit_malloc`: the block found is marked as used, or split if more than a word
    is left. -/
def takeBlock (hend : Nat) (needed : Word) (mem : Memory) (block : Nat) (blockSize : Word) :
    Memory :=
  if blockSize ≤ needed + 1 ∨ hend ≤ block + needed.toNat + 1 then
    Function.update mem block (withoutFree (mem block))
  else
    let splitBlock := block + needed.toNat
    let mem := Function.update mem splitBlock (blockSize - needed)
    let mem := Function.update mem splitBlock (mem splitBlock ||| blockFree)
    Function.update mem block needed

/-- **`microbit_malloc(size_t size, HeapDefinition &heap)`**: `some none` is NULL, `none` a walk
    that does not end. -/
def mallocIn (size : Word) (heap : HeapDefinition) (mem : Memory) :
    Option (Memory × Option Nat) :=
  if size ≤ 0 then some (mem, none)
  else
    match findBlock heap.heapEnd (blocksNeeded size) (heap.heapEnd - heap.heapStart + 1) mem
        heap.heapStart 0 with
    | none => none
    | some (mem, block, blockSize) =>
      if heap.heapEnd ≤ block then some (mem, none)
      else some (takeBlock heap.heapEnd (blocksNeeded size) mem block blockSize, some (block + 1))

/-- The loop of `microbit_malloc(size_t size)` over the heaps. -/
def mallocHeaps (size : Word) : List HeapDefinition → Memory → Option (Memory × Option Nat)
  | [], mem => some (mem, none)
  | heap :: heaps, mem =>
    match mallocIn size heap mem with
    | none => none
    | some (mem, some p) => some (mem, some p)
    | some (mem, none) => mallocHeaps size heaps mem

/-- **`microbit_malloc(size_t size)`**, given what `native_malloc(size)` answers. NULL is
    `microbit_panic(MICROBIT_OOM)`. -/
def malloc (size : Word) (native : Option Nat) (s : Store) : Option (Store × Option Nat) :=
  match mallocHeaps size s.heaps s.mem with
  | none => none
  | some (mem, some p) => some ({ s with mem := mem }, some p)
  | some (mem, none) => some ({ s with mem := mem }, native)

/-- **`microbit_free`**. What lies in no heap goes to `native_free`, which touches no heap. -/
def free (memory : Nat) (s : Store) : Store :=
  if memory = 0 then s
  else
    match s.heaps.find? fun h => h.heapStart < memory ∧ memory < h.heapEnd with
    | some _ =>
      { s with mem := Function.update s.mem (memory - 1) (s.mem (memory - 1) ||| blockFree) }
    | none => s

/-! ## 2. Headers -/

/-- The header of a block. -/
def header (b : Block) : Word := BitVec.ofNat 32 b.size ||| if b.free then blockFree else 0

theorem blockFree_eq : blockFree = BitVec.twoPow 32 31 := rfl

theorem isFree_eq (w : Word) : isFree w = w.getLsbD 31 := by
  rw [isFree, blockFree_eq, BitVec.and_twoPow]
  cases w.getLsbD 31 <;> rfl

theorem getLsbD_header (b : Block) (i : Nat) :
    (header b).getLsbD i =
      (decide (i < 32) && b.size.testBit i || b.free && decide (i = 31)) := by
  obtain ⟨n, _ | _⟩ := b
  · simp [header, BitVec.getLsbD_ofNat]
  · simp only [header, blockFree_eq, if_pos, BitVec.getLsbD_or, BitVec.getLsbD_ofNat,
      BitVec.getLsbD_twoPow]
    simp [eq_comm]

theorem toNat_ofNat {n : Nat} (h : n < 0x80000000) : (BitVec.ofNat 32 n).toNat = n := by
  rw [BitVec.toNat_ofNat, Nat.mod_eq_of_lt (by omega)]

@[simp] theorem header_used (n : Nat) : header ⟨n, false⟩ = BitVec.ofNat 32 n := by
  simp [header]

@[simp] theorem header_free (n : Nat) : header ⟨n, true⟩ = BitVec.ofNat 32 n ||| blockFree := rfl

theorem header_eq {b : Block} {free : Bool} (h : b.free = free) : header b = header ⟨b.size, free⟩ := by
  rw [← h]

theorem isFree_header {b : Block} (h : b.size < 0x80000000) : isFree (header b) = b.free := by
  rw [isFree_eq, getLsbD_header, Nat.testBit_lt_two_pow h]
  simp

theorem withoutFree_header {b : Block} (h : b.size < 0x80000000) :
    withoutFree (header b) = BitVec.ofNat 32 b.size := by
  refine BitVec.eq_of_getLsbD_eq fun i hi => ?_
  rw [withoutFree, BitVec.getLsbD_and, BitVec.getLsbD_not, blockFree_eq, BitVec.getLsbD_twoPow,
    getLsbD_header, BitVec.getLsbD_ofNat]
  by_cases h31 : i = 31
  · subst h31
    rw [Nat.testBit_lt_two_pow h]
    simp
  · have : ¬ 31 = i := fun e => h31 e.symm
    simp [h31, this, hi]

theorem header_or (b : Block) : header b ||| blockFree = header ⟨b.size, true⟩ := by
  obtain ⟨n, _ | _⟩ := b
  · rw [header_used]
    rfl
  · rw [header_free, BitVec.or_assoc, BitVec.or_self]

/-! ## 3. A region of blocks -/

/-- In memory, the words from `a` to `hend` are these blocks. -/
def Tiles (mem : Memory) (hend : Nat) : Nat → List Block → Prop
  | a, [] => a = hend
  | a, b :: bs => 0 < b.size ∧ mem a = header b ∧ Tiles mem hend (a + b.size) bs

/-- Nothing changed outside a region, nor in its used blocks. -/
def Keeps (mem mem' : Memory) (hend a : Nat) (bs : List Block) : Prop :=
  (∀ x, x < a ∨ hend ≤ x → mem' x = mem x) ∧
    ∀ u ∈ usedAt a bs, ∀ x, u.1 ≤ x → x < u.1 + u.2 → mem' x = mem x

variable {mem mem' : Memory} {hend a block n fuel : Nat} {bs cs : List Block} {needed sz : Word}

theorem Tiles.end_eq (h : Tiles mem hend a bs) : a + total bs = hend := by
  induction bs generalizing a with
  | nil => exact h
  | cons b bs ih =>
      rw [total_cons, ← Nat.add_assoc]
      exact ih h.2.2

/-- The blocks are what the memory says they are. -/
theorem Tiles.congr (h : Tiles mem hend a bs) (hm : ∀ x, a ≤ x → x < hend → mem' x = mem x) :
    Tiles mem' hend a bs := by
  induction bs generalizing a with
  | nil => exact h
  | cons b bs ih =>
      have hend := h.end_eq
      rw [total_cons] at hend
      obtain ⟨hb, hh, ht⟩ := h
      refine ⟨hb, ?_, ih ht fun x hx => hm x (by omega)⟩
      rw [hm a (Nat.le_refl _) (by omega), hh]

theorem tiles_append :
    Tiles mem hend a (bs ++ cs) ↔
      Tiles mem (a + total bs) a bs ∧ Tiles mem hend (a + total bs) cs := by
  induction bs generalizing a with
  | nil => simp [Tiles]
  | cons b bs ih =>
      rw [List.cons_append, Tiles, ih, Tiles, total_cons, Nat.add_assoc, and_assoc, and_assoc]

theorem Tiles.pos (h : Tiles mem hend a bs) : ∀ b ∈ bs, 0 < b.size := by
  induction bs generalizing a with
  | nil => exact fun _ hb => absurd hb List.not_mem_nil
  | cons b bs ih =>
      intro c hc
      rcases List.mem_cons.mp hc with rfl | hc
      · exact h.1
      · exact ih h.2.2 c hc

/-- There are at most as many blocks as words. -/
theorem Tiles.length_le (h : Tiles mem hend a bs) : bs.length ≤ hend - a := by
  induction bs generalizing a with
  | nil => exact Nat.zero_le _
  | cons b bs ih =>
      have := ih h.2.2
      have := h.end_eq
      have := h.1
      rw [total_cons] at *
      rw [List.length_cons]
      omega

/-- The walk that prints a heap prints its blocks. -/
theorem heapPrint_eq (h : Tiles mem hend a bs) (hend_lt : hend < 0x40000000) (hf : bs.length < fuel) :
    heapPrint mem hend fuel a = bs := by
  induction bs generalizing a fuel with
  | nil =>
      obtain ⟨fuel, rfl⟩ : ∃ k, fuel = k + 1 := ⟨fuel - 1, by omega⟩
      rw [heapPrint, if_neg (Nat.not_lt.mpr (Nat.le_of_eq (Eq.symm h)))]
  | cons b bs ih =>
      rw [List.length_cons] at hf
      obtain ⟨fuel, rfl⟩ : ∃ k, fuel = k + 1 := ⟨fuel - 1, by omega⟩
      have hend_eq := h.end_eq
      rw [total_cons] at hend_eq
      obtain ⟨hb, hh, ht⟩ := h
      rw [heapPrint, if_pos (by omega), hh, withoutFree_header (by omega),
        isFree_header (by omega), toNat_ofNat (by omega), ih ht (by omega)]

/-- A word inside a used block is not a header: the client may write it. -/
theorem Tiles.update (h : Tiles mem hend a bs) {u : Nat × Nat} (hu : u ∈ usedAt a bs) {x : Nat}
    (h1 : u.1 < x) (h2 : x < u.1 + u.2) (w : Word) : Tiles (Function.update mem x w) hend a bs := by
  induction bs generalizing a with
  | nil => cases hu
  | cons b bs ih =>
      obtain ⟨hb, hh, ht⟩ := h
      rw [usedAt] at hu
      split at hu
      · have := usedAt_bounds hu
        exact ⟨hb, by rw [Function.update_of_ne (by omega), hh], ih ht hu⟩
      · rcases List.mem_cons.mp hu with rfl | hu
        · refine ⟨hb, by rw [Function.update_of_ne (Nat.ne_of_lt h1), hh], ?_⟩
          exact ht.congr fun y hy _ => Function.update_of_ne (by simp only at h2; omega) _ _
        · have := usedAt_bounds hu
          exact ⟨hb, by rw [Function.update_of_ne (by omega), hh], ih ht hu⟩

/-- The inner loop joins the free blocks behind a free block. -/
theorem merge_spec (hm : mem block = header ⟨n, true⟩) (hn : 0 < n)
    (ht : Tiles mem hend (block + n) bs) (hend_lt : hend < 0x40000000) (hf : bs.length < fuel) :
    merge hend block fuel mem (BitVec.ofNat 32 n) =
      some (Function.update mem block (header ⟨n + total (bs.takeWhile Block.free), true⟩),
        BitVec.ofNat 32 (n + total (bs.takeWhile Block.free))) := by
  induction bs generalizing n mem fuel with
  | nil =>
      obtain ⟨fuel, rfl⟩ : ∃ k, fuel = k + 1 := ⟨fuel - 1, by omega⟩
      have hend_eq : block + n = hend := ht
      have hsame : Function.update mem block (header ⟨n, true⟩) = mem := by
        rw [← hm, Function.update_eq_self]
      rw [merge, toNat_ofNat (by omega), if_pos (Nat.le_of_eq hend_eq.symm), ite_self]
      simp only [List.takeWhile_nil, total_nil, Nat.add_zero, hsame]
  | cons b bs ih =>
      obtain ⟨fuel, rfl⟩ : ∃ k, fuel = k + 1 := ⟨fuel - 1, by rw [List.length_cons] at hf; omega⟩
      have hend_eq := ht.end_eq
      rw [total_cons] at hend_eq
      obtain ⟨hb, hh, ht⟩ := ht
      rw [merge, toNat_ofNat (by omega), hh, isFree_header (by omega)]
      by_cases hfree : b.free = true
      · rw [if_pos hfree, if_neg (by omega), withoutFree_header (by omega), ← BitVec.ofNat_add,
          List.takeWhile_cons_of_pos hfree, total_cons, ← Nat.add_assoc]
        have ht' : Tiles (Function.update mem block (header ⟨n + b.size, true⟩)) hend
            (block + (n + b.size)) bs := by
          rw [← Nat.add_assoc]
          exact ht.congr fun x hx _ => Function.update_of_ne (by omega) _ _
        rw [List.length_cons] at hf
        exact (ih (Function.update_self ..) (by omega) ht' (by omega)).trans
          (by rw [Function.update_idem])
      · have hsame : Function.update mem block (header ⟨n, true⟩) = mem := by
          rw [← hm, Function.update_eq_self]
        rw [if_neg hfree, List.takeWhile_cons_of_neg hfree, total_nil, Nat.add_zero, hsame]

theorem Keeps.refl (mem : Memory) (hend a : Nat) (bs : List Block) : Keeps mem mem hend a bs :=
  ⟨fun _ _ => rfl, fun _ _ _ _ _ => rfl⟩

/-- Two changes, the second of them behind the first free blocks. -/
theorem Keeps.behind {mem₁ : Memory} (h1 : Keeps mem mem₁ hend a bs)
    (h2 : Keeps mem₁ mem' hend (a + n) cs) (hused : usedAt a bs = usedAt (a + n) cs) :
    Keeps mem mem' hend a bs := by
  refine ⟨fun x hx => ?_, fun u hu x hx hx' => ?_⟩
  · rw [h2.1 x (by omega), h1.1 x hx]
  · rw [h2.2 u (hused ▸ hu) x hx hx', h1.2 u hu x hx hx']

/-- A change behind a used block. -/
theorem Keeps.cons {b : Block} (h : Keeps mem mem' hend (a + b.size) bs) (hb : b.free = false) :
    Keeps mem mem' hend a (b :: bs) := by
  refine ⟨fun x hx => h.1 x (by omega), fun u hu x hx hx' => ?_⟩
  rw [usedAt, if_neg (by simp [hb])] at hu
  rcases List.mem_cons.mp hu with rfl | hu
  · exact h.1 x (.inl hx')
  · exact h.2 u hu x hx hx'

/-- The first block is free: it is joined with the free blocks behind it. -/
theorem merge_head {b : Block} (ht : Tiles mem hend a (b :: bs)) (hb : b.free = true)
    (hend_lt : hend < 0x40000000) :
    ∃ mem₁, merge hend a (hend - a + 1) mem (withoutFree (mem a)) =
        some (mem₁, BitVec.ofNat 32 (b.size + total (bs.takeWhile Block.free))) ∧
      Tiles mem₁ hend a
        (⟨b.size + total (bs.takeWhile Block.free), true⟩ :: bs.dropWhile Block.free) ∧
      Keeps mem mem₁ hend a (b :: bs) := by
  have hend_eq := ht.end_eq
  have hlen := ht.length_le
  rw [total_cons] at hend_eq
  rw [List.length_cons] at hlen
  obtain ⟨hpos, hh, ht⟩ := ht
  refine ⟨Function.update mem a (header ⟨b.size + total (bs.takeWhile Block.free), true⟩),
    ?_, ?_, ?_⟩
  · rw [hh, withoutFree_header (by omega)]
    exact merge_spec (hh.trans (header_eq hb)) hpos ht hend_lt (by omega)
  · refine ⟨Nat.add_pos_left hpos _, Function.update_self .., ?_⟩
    rw [← List.takeWhile_append_dropWhile (p := Block.free) (l := bs), tiles_append] at ht
    rw [← Nat.add_assoc]
    exact ht.2.congr fun x hx _ => Function.update_of_ne (by omega) _ _
  · refine ⟨fun x hx => Function.update_of_ne (by omega) _ _, fun u hu x hx _ => ?_⟩
    rw [usedAt, if_pos hb] at hu
    have := usedAt_bounds hu
    exact Function.update_of_ne (by omega) _ _

/-- **The walk is the search of the library.** -/
theorem findBlock_spec (needed sz : Word) (ht : Tiles mem hend a bs) (hend_lt : hend < 0x40000000)
    (hf : bs.length < fuel) :
    ∃ mem' sz', findBlock hend needed fuel mem a sz =
        some (mem', a + total (search needed.toNat bs).1, sz') ∧
      Tiles mem' hend a ((search needed.toNat bs).1 ++ joined (search needed.toNat bs).2) ∧
      (∀ n rest, (search needed.toNat bs).2 = some (n, rest) → sz' = BitVec.ofNat 32 n) ∧
      Keeps mem mem' hend a bs := by
  induction bs using search.induct needed.toNat generalizing a mem fuel sz with
  | case1 =>
      obtain ⟨fuel, rfl⟩ : ∃ k, fuel = k + 1 := ⟨fuel - 1, by omega⟩
      have ha : a = hend := ht
      refine ⟨mem, sz, ?_, ?_, ?_, .refl ..⟩
      · rw [findBlock, if_neg (by omega), search]
        rfl
      · rw [search]
        exact ha
      · rw [search]
        exact fun _ _ h => by cases h
  | case2 b bs hb hn =>
      obtain ⟨fuel, rfl⟩ : ∃ k, fuel = k + 1 := ⟨fuel - 1, by rw [List.length_cons] at hf; omega⟩
      have hend_eq := ht.end_eq
      have hjoin := @total_join bs b
      obtain ⟨mem₁, hmerge, hT, hkeep⟩ := merge_head ht hb hend_lt
      have hpos := ht.1
      rw [total_cons] at hend_eq hjoin
      rw [search_enough hb hn]
      refine ⟨mem₁, BitVec.ofNat 32 (b.size + total (bs.takeWhile Block.free)), ?_, hT, ?_, hkeep⟩
      · rw [findBlock, if_pos (by omega), ht.2.1, isFree_header (by omega), if_pos hb, ← ht.2.1,
          hmerge]
        exact if_pos (by rw [BitVec.le_def, toNat_ofNat (by omega)]; exact hn)
      · rintro n rest h
        cases h
        rfl
  | case3 b bs hb hn ih =>
      obtain ⟨fuel, rfl⟩ : ∃ k, fuel = k + 1 := ⟨fuel - 1, by rw [List.length_cons] at hf; omega⟩
      have hend_eq := ht.end_eq
      have hjoin := @total_join bs b
      have hlen := (bs.dropWhile_suffix Block.free).length_le
      obtain ⟨mem₁, hmerge, hT, hkeep⟩ := merge_head ht hb hend_lt
      have hpos := ht.1
      rw [total_cons] at hend_eq hjoin
      rw [List.length_cons] at hf
      obtain ⟨mem', sz', hfind, hT', hsz, hkeep'⟩ := @ih _ _ fuel
        (BitVec.ofNat 32 (b.size + total (bs.takeWhile Block.free))) hT.2.2 (by omega)
      rw [search_short hb hn]
      refine ⟨mem', sz', ?_, ?_, hsz, hkeep.behind hkeep' ?_⟩
      · rw [findBlock, if_pos (by omega), ht.2.1, isFree_header (by omega), if_pos hb, ← ht.2.1,
          hmerge]
        simp only [BitVec.le_def]
        rw [toNat_ofNat (by omega), if_neg hn, total_cons]
        simpa only [Nat.add_assoc] using hfind
      · refine ⟨hT.1, ?_, hT'⟩
        rw [hkeep'.1 a (by simp only; omega), hT.2.1]
      · rw [← usedAt_join hb]
        rfl
  | case4 b bs hb ih =>
      obtain ⟨fuel, rfl⟩ : ∃ k, fuel = k + 1 := ⟨fuel - 1, by rw [List.length_cons] at hf; omega⟩
      have hend_eq := ht.end_eq
      rw [total_cons] at hend_eq
      obtain ⟨hpos, hh, ht⟩ := ht
      rw [List.length_cons] at hf
      have hfree : b.free = false := by simpa using hb
      obtain ⟨mem', sz', hfind, hT, hsz, hkeep⟩ := @ih _ _ fuel sz ht (by omega)
      rw [search_used hfree]
      refine ⟨mem', sz', ?_, ⟨hpos, ?_, hT⟩, hsz, hkeep.cons hfree⟩
      · rw [findBlock, if_pos (by omega), hh, isFree_header (by omega), if_neg hb]
        rw [header_eq hfree, header_used, toNat_ofNat (by omega), total_cons, ← Nat.add_assoc]
        exact hfind
      · rw [hkeep.1 a (by omega), hh]

/-! ## 4. The functions on such a region -/

theorem toNat_blocksNeeded (size : Word) :
    (blocksNeeded size).toNat = (size.toNat + 3) / 4 + 1 := by
  have := size.isLt
  unfold blocksNeeded
  split
  case isTrue h =>
      have h4 : size.toNat % 4 = 0 := congrArg BitVec.toNat h
      have h1 : (1 : Word).toNat = 1 := rfl
      have h2 : (4 : Word).toNat = 4 := rfl
      rw [BitVec.toNat_add, BitVec.toNat_udiv, h1, h2]
      omega
  case isFalse h =>
      have h4 : size.toNat % 4 ≠ 0 := fun e => h (BitVec.eq_of_toNat_eq e)
      have h1 : (1 : Word).toNat = 1 := rfl
      have h2 : (4 : Word).toNat = 4 := rfl
      rw [BitVec.toNat_add, BitVec.toNat_add, BitVec.toNat_udiv, h1, h2]
      omega

/-- A stretch of blocks is cut anew. -/
theorem Tiles.replace {pre ds rest : List Block} (ht : Tiles mem hend a (pre ++ cs ++ rest))
    (htotal : total ds = total cs)
    (hm : ∀ x, x < a + total pre ∨ a + total pre + total cs ≤ x → mem' x = mem x)
    (hds : Tiles mem' (a + total pre + total cs) (a + total pre) ds) :
    Tiles mem' hend a (pre ++ ds ++ rest) := by
  rw [List.append_assoc, tiles_append, tiles_append] at ht ⊢
  obtain ⟨hpre, -, hrest⟩ := ht
  rw [htotal]
  exact ⟨hpre.congr fun x _ hx => hm x (.inl hx), hds, hrest.congr fun x hx _ => hm x (.inr hx)⟩

/-- A change within a free block. -/
theorem keeps_of_free {pre rest : List Block} (ht : Tiles mem hend a (pre ++ ⟨n, true⟩ :: rest))
    (hm : ∀ x, x < a + total pre ∨ a + total pre + n ≤ x → mem' x = mem x) :
    Keeps mem mem' hend a (pre ++ ⟨n, true⟩ :: rest) := by
  have hend_eq := ht.end_eq
  rw [total_append, total_cons] at hend_eq
  simp only at hend_eq
  refine ⟨fun x hx => hm x (by omega), fun u hu x hx hx' => ?_⟩
  rw [usedAt_append, usedAt, if_pos rfl] at hu
  rcases List.mem_append.mp hu with hu | hu
  · have := usedAt_bounds hu
    exact hm x (by omega)
  · have := usedAt_bounds hu
    exact hm x (by simp only at this; omega)

/-- The block found is taken: the whole of it when at most one word would be left. -/
theorem take_spec {pre rest : List Block} (ht : Tiles mem hend a (pre ++ ⟨n, true⟩ :: rest))
    (hend_lt : hend < 0x40000000) (hneed : 0 < needed.toNat) (hn : needed.toNat ≤ n) :
    Tiles (takeBlock hend needed mem (a + total pre) (BitVec.ofNat 32 n)) hend a
        (pre ++ cut needed.toNat n ++ rest) ∧
      Keeps mem (takeBlock hend needed mem (a + total pre) (BitVec.ofNat 32 n)) hend a
        (pre ++ ⟨n, true⟩ :: rest) := by
  have hend_eq := ht.end_eq
  rw [total_append, total_cons] at hend_eq
  simp only at hend_eq
  have hhead : mem (a + total pre) = header ⟨n, true⟩ := (tiles_append.mp ht).2.2.1
  have ht' : Tiles mem hend a (pre ++ [⟨n, true⟩] ++ rest) := by
    rwa [List.append_assoc, List.singleton_append]
  have hsum : (needed + 1).toNat = needed.toNat + 1 := by
    have h1 : (1 : Word).toNat = 1 := rfl
    rw [BitVec.toNat_add, h1]
    omega
  have hiff : (BitVec.ofNat 32 n ≤ needed + 1 ∨ hend ≤ a + total pre + needed.toNat + 1) ↔
      n ≤ needed.toNat + 1 := by
    rw [BitVec.le_def, toNat_ofNat (by omega), hsum]
    omega
  unfold takeBlock
  by_cases hle : n ≤ needed.toNat + 1
  · rw [if_pos (hiff.mpr hle)]
    have hm : ∀ x, x < a + total pre ∨ a + total pre + n ≤ x →
        Function.update mem (a + total pre) (withoutFree (mem (a + total pre))) x = mem x :=
      fun x hx => Function.update_of_ne (by omega) _ _
    refine ⟨ht'.replace (total_cut ..) hm ?_, keeps_of_free ht hm⟩
    rw [cut, if_pos hle]
    refine ⟨by simp only; omega, ?_, rfl⟩
    rw [Function.update_self, hhead, withoutFree_header (by simp only; omega), header_used]
  · rw [if_neg fun h => hle (hiff.mp h)]
    simp only [Function.update_self, Function.update_idem]
    have hm : ∀ x, x < a + total pre ∨ a + total pre + n ≤ x →
        Function.update (Function.update mem (a + total pre + needed.toNat)
          ((BitVec.ofNat 32 n - needed) ||| blockFree)) (a + total pre) needed x = mem x :=
      fun x hx => by
        rw [Function.update_of_ne (by omega), Function.update_of_ne (by omega)]
    refine ⟨ht'.replace (total_cut ..) hm ?_, keeps_of_free ht hm⟩
    rw [cut, if_neg hle]
    have hsub : BitVec.ofNat 32 n - needed = BitVec.ofNat 32 (n - needed.toNat) := by
      apply BitVec.eq_of_toNat_eq
      rw [BitVec.toNat_sub, BitVec.toNat_ofNat, BitVec.toNat_ofNat]
      omega
    refine ⟨hneed, ?_, ⟨by simp only; omega, ?_, ?_⟩⟩
    · rw [Function.update_self, header_used, BitVec.ofNat_toNat, BitVec.setWidth_eq]
    · rw [Function.update_of_ne (by simp only; omega), Function.update_self, hsub]
      rfl
    · simp only [Tiles, total_cons, total_nil]
      omega

/-- **`malloc` in one heap is the allocation of the library**, and what is handed out lies behind
    the header of the new block. -/
theorem mallocIn_spec {size : Word} {heap : HeapDefinition} (hsize : size ≠ 0)
    (ht : Tiles mem heap.heapEnd heap.heapStart bs) (hend_lt : heap.heapEnd < 0x40000000) :
    ∃ mem', mallocIn size heap mem =
        some (mem', (allocate (blocksNeeded size).toNat bs).2.map (heap.heapStart + · + 1)) ∧
      Tiles mem' heap.heapEnd heap.heapStart (allocate (blocksNeeded size).toNat bs).1 ∧
      Keeps mem mem' heap.heapEnd heap.heapStart bs := by
  have hlen := ht.length_le
  obtain ⟨mem₁, sz, hfind, hT, hsz, hkeep⟩ := findBlock_spec (blocksNeeded size) 0 ht
    hend_lt (show bs.length < heap.heapEnd - heap.heapStart + 1 by omega)
  have hle := fun n rest => @search_le (blocksNeeded size).toNat n bs rest
  have hused := (search_spec (blocksNeeded size).toNat bs).2 heap.heapStart
  have hpos : ¬ size ≤ 0 := fun h => hsize (BitVec.le_zero_iff.mp h)
  rw [mallocIn, if_neg hpos, hfind]
  unfold allocate
  cases hs : search (blocksNeeded size).toNat bs with
  | mk pre found =>
      rw [hs] at hT hsz hle hused
      cases found with
      | none =>
          have hend_eq := hT.end_eq
          simp only [joined, List.append_nil] at hT hend_eq
          exact ⟨mem₁, if_pos (Nat.le_of_eq hend_eq.symm), hT, hkeep⟩
      | some nr =>
          obtain ⟨n, rest⟩ := nr
          have hpos := (tiles_append.mp hT).2.1
          have hend_eq := hT.end_eq
          rw [total_append] at hend_eq
          simp only [joined, total_cons] at hend_eq hpos
          obtain ⟨hT', hkeep'⟩ := take_spec hT hend_lt
            (by rw [toNat_blocksNeeded]; exact Nat.succ_pos _) (hle n rest rfl)
          refine ⟨_, ?_, hT', hkeep.behind (n := 0) hkeep' hused.symm⟩
          simp only
          rw [if_neg (by omega), hsz n rest rfl]
          rfl

/-- **`free` of a block in use is the release of the library.** -/
theorem tiles_free {l r : List Block} {k : Nat} (ht : Tiles mem hend a (l ++ ⟨k, false⟩ :: r)) :
    Tiles (Function.update mem (a + total l) (mem (a + total l) ||| blockFree)) hend a
      (release (total l) (l ++ ⟨k, false⟩ :: r)) := by
  rw [release_append (tiles_append.mp ht).1.pos]
  have hpos := (tiles_append.mp ht).2.1
  have hhead : mem (a + total l) = header ⟨k, false⟩ := (tiles_append.mp ht).2.2.1
  have ht' : Tiles mem hend a (l ++ [⟨k, false⟩] ++ r) := by
    rwa [List.append_assoc, List.singleton_append]
  simp only at hpos
  rw [← List.singleton_append, ← List.append_assoc]
  refine ht'.replace (by rfl) (fun x hx => Function.update_of_ne ?_ _ _) ⟨hpos, ?_, by rfl⟩
  · simp only [total_cons, total_nil] at hx
    omega
  · rw [Function.update_self, hhead, header_or]

end MicrobitAlarm.Heap
