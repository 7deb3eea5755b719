/-
  File:      MicrobitAlarm/Runs/Listeners.lean
  Subject:   THE LISTENERS OF THE MESSAGE BUS, over its runs: the list, and the passes over it.

  * `insertListener_spec` -- `add` keeps the list in order;
  * `listening`, `TableInv`, `table_step` -- what is in the list is what the calls of `add` and
    `remove` say: a set of keys;
  * `attends`, `PassInv`, `pass_step`, `pass_run` -- a pass gives its event once to every listener
    that attends from its beginning on.
-/
import MicrobitAlarm.Lib.Cursor
import MicrobitAlarm.Runs.MessageBus

namespace MicrobitAlarm.MessageBus

open Trace

/-! ## 1. The order of the list -/

/-- The order of the list: by id, then by value. -/
def Listener.before (k l : Listener) : Prop := k.id < l.id ∨ k.id = l.id ∧ k.value ≤ l.value

def Sorted (ls : List Listener) : Prop := ls.Pairwise Listener.before

variable {new l : Listener} {ls : List Listener}

theorem Listener.before.trans {k l m : Listener} (h1 : k.before l) (h2 : l.before m) :
    k.before m := by
  unfold Listener.before at *
  omega

/-- What the first loop does not pass. -/
theorem le_of_mem_dropWhile (h : Sorted ls) :
    ∀ k ∈ ls.dropWhile (·.id < new.id), new.id ≤ k.id := by
  induction ls with
  | nil => exact fun k hk => absurd hk List.not_mem_nil
  | cons l ls ih =>
      obtain ⟨hl, hls⟩ := List.pairwise_cons.mp h
      by_cases hlt : l.id < new.id
      · rw [List.dropWhile_cons_of_pos (by simpa using hlt)]
        exact ih hls
      · rw [List.dropWhile_cons_of_neg (by simpa using hlt)]
        intro k hk
        rcases List.mem_cons.mp hk with rfl | hk
        · omega
        · have := hl k hk
          unfold Listener.before at this
          omega

/-- What the second loop does not pass, behind the first. -/
theorem before_of_mem_dropWhile (h : Sorted ls) (hid : ∀ k ∈ ls, new.id ≤ k.id) :
    ∀ k ∈ ls.dropWhile fun l => l.id = new.id ∧ l.value < new.value, new.before k := by
  induction ls with
  | nil => exact fun k hk => absurd hk List.not_mem_nil
  | cons l ls ih =>
      obtain ⟨hl, hls⟩ := List.pairwise_cons.mp h
      by_cases hlt : l.id = new.id ∧ l.value < new.value
      · rw [List.dropWhile_cons_of_pos (by simpa using hlt)]
        exact ih hls fun k hk => hid k (List.mem_cons_of_mem _ hk)
      · rw [List.dropWhile_cons_of_neg (by simpa using hlt)]
        have hnew : new.before l := by
          have := hid l List.mem_cons_self
          unfold Listener.before
          omega
        intro k hk
        rcases List.mem_cons.mp hk with rfl | hk
        · exact hnew
        · exact hnew.trans (hl k hk)

/-- **What the loops of `add` pass**, and what they do not. -/
theorem passed_spec (h : Sorted ls) :
    ∃ s t, ls = s ++ t ∧ passed new ls = s.length ∧
      (∀ k ∈ s, k.id < new.id ∨ k.id = new.id ∧ k.value < new.value) ∧
      ∀ k ∈ t, new.before k := by
  have hrest : Sorted (ls.dropWhile (·.id < new.id)) :=
    h.sublist (List.dropWhile_sublist _)
  refine ⟨ls.takeWhile (·.id < new.id) ++ (ls.dropWhile (·.id < new.id)).takeWhile
      fun l => l.id = new.id ∧ l.value < new.value,
    (ls.dropWhile (·.id < new.id)).dropWhile fun l => l.id = new.id ∧ l.value < new.value,
    ?_, ?_, ?_, before_of_mem_dropWhile hrest (le_of_mem_dropWhile h)⟩
  · rw [List.append_assoc, List.takeWhile_append_dropWhile, List.takeWhile_append_dropWhile]
  · rw [passed, List.length_append]
  · intro k hk
    rcases List.mem_append.mp hk with hk | hk
    · exact .inl (by simpa using List.mem_takeWhile_imp hk)
    · exact .inr (by simpa using List.mem_takeWhile_imp hk)

/-- **The new listener is put where it belongs.** -/
theorem insertListener_spec (h : Sorted ls) :
    ∃ s t, ls = s ++ t ∧ insertListener new ls = s ++ new :: t ∧
      (∀ k ∈ s, k.before new) ∧ ∀ k ∈ t, new.before k := by
  obtain ⟨s, t, rfl, hp, hs, ht⟩ := @passed_spec new _ h
  have hs' : ∀ k ∈ s, k.before new := fun k hk => by
    have := hs k hk
    unfold Listener.before
    omega
  cases s with
  | nil =>
      cases t with
      | nil => exact ⟨[], [], rfl, rfl, hs', ht⟩
      | cons p t =>
          have hp0 := ht p List.mem_cons_self
          simp only [List.nil_append, List.length_nil] at hp ⊢
          rw [insertListener, hp]
          by_cases hlt : new.id < p.id ∨ p.id = new.id ∧ new.value < p.value
          · rw [if_pos ⟨Nat.zero_le _, hlt⟩]
            exact ⟨[], p :: t, rfl, rfl, hs', ht⟩
          · -- the first of the list is equal: the new one follows it
            rw [if_neg fun h => hlt h.2]
            refine ⟨[p], t, rfl, rfl, fun k hk => ?_, fun k hk =>
              ht k (List.mem_cons_of_mem _ hk)⟩
            rw [List.mem_singleton.mp hk]
            unfold Listener.before at hp0 ⊢
            omega
  | cons p s =>
      have hlt := hs p List.mem_cons_self
      refine ⟨p :: s, t, rfl, ?_, hs', ht⟩
      rw [List.length_cons] at hp
      rw [List.cons_append, insertListener, ← List.cons_append, hp, if_neg (by omega),
        Nat.add_sub_cancel]
      simp

theorem sorted_insertListener (h : Sorted ls) : Sorted (insertListener new ls) := by
  obtain ⟨s, t, rfl, hins, hs, ht⟩ := @insertListener_spec new _ h
  rw [hins]
  obtain ⟨h1, h2, h3⟩ := List.pairwise_append.mp h
  refine List.pairwise_append.mpr ⟨h1, List.pairwise_cons.mpr ⟨ht, h2⟩, fun k hk m hm => ?_⟩
  rcases List.mem_cons.mp hm with rfl | hm
  · exact hs k hk
  · exact h3 k hk m hm

/-! ## 2. The list is a set of keys -/

/-- What a callback is compared by: the function, or what the method is of. -/
def Callback.what : Callback → Nat ⊕ Nat
  | .function cb => .inl cb
  | .method _ target => .inr target

/-- What makes two listeners the same to the bus: id, value and callback. -/
def Listener.key (l : Listener) : Nat × Nat × (Nat ⊕ Nat) := (l.id, l.value, l.callback.what)

/-- The keys a call of `remove` concerns. -/
def Listener.covers (pattern : Listener) (key : Nat × Nat × (Nat ⊕ Nat)) : Bool :=
  pattern.callback.what = key.2.2 ∧ (pattern.id = idAny ∨ pattern.id = key.1) ∧
    (pattern.value = evtAny ∨ pattern.value = key.2.1)

/-- What an event does to whether a key is listened to. -/
def hearing (key : Nat × Nat × (Nat ⊕ Nat)) (on : Bool) : Event → Bool
  | .added l | .refused l => on || decide (l.key = key)
  | .removed pattern => on && !pattern.covers key
  | _ => on

/-- A key is listened to: it was added, and not removed since. -/
def listening (key : Nat × Nat × (Nat ⊕ Nat)) (tr : List Event) : Bool :=
  tr.foldl (hearing key) false

variable {key : Nat × Nat × (Nat ⊕ Nat)} {b b' : Bus} {tr ev : List Event}

theorem alike_iff (c c' : Callback) : c.alike c' = true ↔ c.what = c'.what := by
  cases c <;> cases c' <;> simp [Callback.alike, Callback.what]

theorem removedBy_eq (l pattern : Listener) : l.removedBy pattern = pattern.covers l.key := by
  simp only [Listener.removedBy, Listener.covers, Listener.key, alike_iff]
  exact decide_eq_decide.mpr Iff.rfl

/-- Where functions and objects have different addresses, a duplicate has the key. -/
theorem duplicates_iff (h : new.callback.same l.callback = new.callback.alike l.callback) :
    l.duplicates new = true ↔ l.key = new.key := by
  rw [Listener.duplicates, h, decide_eq_true_iff, alike_iff, eq_comm (a := new.callback.what)]
  simp only [Listener.key, Prod.mk.injEq]

theorem resurrect_none (h : resurrect new ls = none) : ∀ l ∈ ls, l.duplicates new = false := by
  induction ls with
  | nil => exact fun l hl => absurd hl List.not_mem_nil
  | cons k ls ih =>
      rw [resurrect] at h
      split at h
      · cases h
      · rename_i hk
        intro l hl
        rcases List.mem_cons.mp hl with rfl | hl
        · simpa using hk
        · exact ih (Option.map_eq_none_iff.mp h) l hl

/-- The first duplicate, which is resurrected. -/
theorem resurrect_some {ls' : List Listener} (h : resurrect new ls = some ls') :
    ∃ s l t, ls = s ++ l :: t ∧ l.duplicates new = true ∧
      ls' = s ++ { l with deleting := false } :: t := by
  induction ls generalizing ls' with
  | nil => cases h
  | cons k ls ih =>
      rw [resurrect] at h
      split at h
      · rename_i hk
        cases h
        exact ⟨[], k, ls, rfl, hk, rfl⟩
      · obtain ⟨ls₁, h₁, rfl⟩ := Option.map_eq_some_iff.mp h
        obtain ⟨s, l, t, rfl, hl, rfl⟩ := ih h₁
        exact ⟨k :: s, l, t, rfl, hl, rfl⟩

/-- **The invariant of the list.** -/
structure TableInv (b : Bus) (tr : List Event) : Prop where
  sorted : Sorted b.listeners
  keys : (b.listeners.map Listener.key).Nodup
  ptrs : (b.listeners.map Listener.ptr).Nodup
  fresh : ∀ l ∈ b.listeners, l.ptr < b.created
  listens : ∀ key, listening key tr = true ↔
    ∃ l ∈ b.listeners, l.key = key ∧ l.deleting = false

theorem listening_append (key : Nat × Nat × (Nat ⊕ Nat)) (tr ev : List Event) :
    listening key (tr ++ ev) = ev.foldl (hearing key) (listening key tr) :=
  List.foldl_append ..

/-- The list stays, but for marks and flags. -/
structure Alike (ls ls' : List Listener) : Prop where
  keys : ls'.map Listener.key = ls.map Listener.key
  ptrs : ls'.map Listener.ptr = ls.map Listener.ptr
  back : ∀ l' ∈ ls', ∃ l ∈ ls, l.ptr = l'.ptr ∧ l.key = l'.key ∧ l.immediate = l'.immediate

theorem Alike.refl (ls : List Listener) : Alike ls ls := ⟨rfl, rfl, fun l hl => ⟨l, hl, rfl, rfl, rfl⟩⟩

theorem alike_map {f : Listener → Listener} (hk : ∀ l, (f l).key = l.key)
    (hp : ∀ l, (f l).ptr = l.ptr) (hi : ∀ l, (f l).immediate = l.immediate) (ls : List Listener) :
    Alike ls (ls.map f) := by
  refine ⟨?_, ?_, fun l' hl' => ?_⟩
  · rw [List.map_map]
    exact List.map_congr_left fun l _ => hk l
  · rw [List.map_map]
    exact List.map_congr_left fun l _ => hp l
  · obtain ⟨l, hl, rfl⟩ := List.mem_map.mp hl'
    exact ⟨l, hl, (hp l).symm, (hk l).symm, (hi l).symm⟩

theorem alike_resurrect {s t : List Listener} :
    Alike (s ++ l :: t) (s ++ { l with deleting := false } :: t) := by
  refine ⟨by simp [Listener.key], by simp, fun l' hl' => ?_⟩
  simp only [List.mem_append, List.mem_cons] at hl'
  rcases hl' with hl' | rfl | hl'
  · exact ⟨l', by simp [hl'], rfl, rfl, rfl⟩
  · exact ⟨l, by simp, rfl, rfl, rfl⟩
  · exact ⟨l', by simp [hl'], rfl, rfl, rfl⟩

/-- The order depends on the keys. -/
theorem Alike.sorted {ls' : List Listener} (h : Alike ls ls') (hs : Sorted ls) : Sorted ls' := by
  have hiff : ∀ ls : List Listener, Sorted ls ↔
      (ls.map Listener.key).Pairwise fun k m => k.1 < m.1 ∨ k.1 = m.1 ∧ k.2.1 ≤ m.2.1 :=
    fun ls => by
      rw [List.pairwise_map]
      rfl
  rw [hiff, h.keys, ← hiff]
  exact hs

/-- What `add` does with a key that is not in the list. -/
theorem add_new (ha : Addable l b) (hn : (add l b.listeners).1 = true) :
    (add l b.listeners).2 = insertListener l b.listeners ∧
      ∀ k ∈ b.listeners, k.key ≠ l.key := by
  unfold add at hn ⊢
  cases hr : resurrect l b.listeners with
  | some ls => rw [hr] at hn; cases hn
  | none =>
      refine ⟨rfl, fun k hk he => ?_⟩
      have := resurrect_none hr k hk
      rw [(duplicates_iff (ha.2.2.2 k hk)).mpr he] at this
      cases this

/-- What `add` does with a key that is. -/
theorem add_old (ha : Addable l b) (hn : (add l b.listeners).1 = false) :
    ∃ s k t, b.listeners = s ++ k :: t ∧ k.key = l.key ∧
      (add l b.listeners).2 = s ++ { k with deleting := false } :: t := by
  unfold add at hn ⊢
  cases hr : resurrect l b.listeners with
  | none => rw [hr] at hn; cases hn
  | some ls =>
      obtain ⟨s, k, t, hls, hk, rfl⟩ := resurrect_some hr
      have hmem : k ∈ b.listeners := by simp [hls]
      exact ⟨s, k, t, hls, (duplicates_iff (ha.2.2.2 k hmem)).mp hk, rfl⟩

/-- A step that does not touch the list. -/
theorem TableInv.quiet (h : TableInv b tr) (hl : b'.listeners = b.listeners)
    (hc : b'.created = b.created) (he : ∀ key on, ev.foldl (hearing key) on = on) :
    TableInv b' (tr ++ ev) := by
  refine ⟨hl ▸ h.sorted, hl ▸ h.keys, hl ▸ h.ptrs, hl ▸ hc ▸ h.fresh, fun key => ?_⟩
  rw [listening_append, he, hl]
  exact h.listens key

/-- A step that only sets marks and flags. -/
theorem TableInv.alike (h : TableInv b tr) (ha : Alike b.listeners b'.listeners)
    (hc : b.created ≤ b'.created)
    (he : ∀ key, listening key (tr ++ ev) = true ↔
      ∃ l ∈ b'.listeners, l.key = key ∧ l.deleting = false) : TableInv b' (tr ++ ev) := by
  refine ⟨ha.sorted h.sorted, ha.keys ▸ h.keys, ha.ptrs ▸ h.ptrs, fun l hl => ?_, he⟩
  obtain ⟨k, hk, hp, -⟩ := ha.back l hl
  have := h.fresh k hk
  omega

theorem TableInv.added (h : TableInv b tr) (ha : Addable l b)
    (hn : (add l b.listeners).1 = true) (hl : b'.listeners = (add l b.listeners).2)
    (hc : b'.created = l.ptr + 1) : TableInv b' (tr ++ [.added l]) := by
  obtain ⟨hadd, hnew⟩ := add_new ha hn
  obtain ⟨s, t, hls, hins, -⟩ := @insertListener_spec l _ h.sorted
  have hsorted := @sorted_insertListener l _ h.sorted
  have hkeys := h.keys
  have hptrs := h.ptrs
  have hfresh := ha.1
  rw [hadd] at hl
  rw [hls] at hkeys hptrs
  have hmem : ∀ k, k ∈ s ++ l :: t ↔ k = l ∨ k ∈ b.listeners := fun k => by
    rw [hls]
    simp only [List.mem_append, List.mem_cons]
    tauto
  refine ⟨hl ▸ hsorted, ?_, ?_, fun k hk => ?_, fun key => ?_⟩
  · rw [hl, hins, List.map_append, List.map_cons, List.nodup_middle, List.nodup_cons,
      ← List.map_append]
    refine ⟨fun hm => ?_, hkeys⟩
    obtain ⟨k, hk, he⟩ := List.mem_map.mp hm
    exact hnew k (hls ▸ hk) he
  · rw [hl, hins, List.map_append, List.map_cons, List.nodup_middle, List.nodup_cons,
      ← List.map_append]
    refine ⟨fun hm => ?_, hptrs⟩
    obtain ⟨k, hk, he⟩ := List.mem_map.mp hm
    have := h.fresh k (hls ▸ hk)
    omega
  · rw [hl, hins, hmem] at hk
    rw [hc]
    rcases hk with rfl | hk
    · exact Nat.lt_succ_self _
    · have := h.fresh k hk
      omega
  · rw [listening_append, List.foldl_cons, List.foldl_nil, hearing, Bool.or_eq_true, h.listens,
      decide_eq_true_iff, hl, hins]
    constructor
    · rintro (⟨k, hk, hk'⟩ | he)
      · exact ⟨k, (hmem k).mpr (.inr hk), hk'⟩
      · exact ⟨l, (hmem l).mpr (.inl rfl), he, ha.2.1⟩
    · rintro ⟨k, hk, hk'⟩
      rcases (hmem k).mp hk with rfl | hk
      · exact .inr hk'.1
      · exact .inl ⟨k, hk, hk'⟩

theorem TableInv.refused (h : TableInv b tr) (ha : Addable l b)
    (hn : (add l b.listeners).1 = false) :
    TableInv { b with listeners := (add l b.listeners).2, created := l.ptr + 1 }
        (tr ++ [.refused l]) ∧ Alike b.listeners (add l b.listeners).2 := by
  obtain ⟨s, k, t, hls, hk, hadd⟩ := add_old ha hn
  have halike : Alike b.listeners (add l b.listeners).2 := by
    rw [hadd, hls]
    exact alike_resurrect
  refine ⟨h.alike halike (Nat.le_succ_of_le ha.1) fun key => ?_, halike⟩
  rw [listening_append, List.foldl_cons, List.foldl_nil, hearing, Bool.or_eq_true, h.listens,
    decide_eq_true_iff, hadd, hls]
  simp only [List.mem_append, List.mem_cons]
  constructor
  · rintro (⟨m, hm | rfl | hm, hm'⟩ | rfl)
    · exact ⟨m, .inl hm, hm'⟩
    · exact ⟨{ m with deleting := false }, .inr (.inl rfl), hm'.1, rfl⟩
    · exact ⟨m, .inr (.inr hm), hm'⟩
    · exact ⟨{ k with deleting := false }, .inr (.inl rfl), hk, rfl⟩
  · rintro ⟨m, hm | rfl | hm, hm'⟩
    · exact .inl ⟨m, .inl hm, hm'⟩
    · exact .inr (hk.symm.trans hm'.1)
    · exact .inl ⟨m, .inr (.inr hm), hm'⟩

theorem alike_remove (pattern : Listener) (ls : List Listener) :
    Alike ls (remove pattern ls).2 :=
  alike_map (fun l => by split <;> rfl) (fun l => by split <;> rfl) (fun l => by split <;> rfl) ls

theorem TableInv.removed (h : TableInv b tr) (pattern : Listener) :
    TableInv { b with listeners := (remove pattern b.listeners).2 } (tr ++ [.removed pattern]) := by
  refine h.alike (alike_remove pattern _) (Nat.le_refl _) fun key => ?_
  rw [listening_append, List.foldl_cons, List.foldl_nil, hearing, Bool.and_eq_true, h.listens]
  simp only [remove, List.mem_map, Bool.not_eq_true']
  constructor
  · rintro ⟨⟨l, hl, rfl, hd⟩, hcov⟩
    refine ⟨l, ⟨l, hl, ?_⟩, rfl, hd⟩
    rw [removedBy_eq, if_neg (by simp [hcov])]
  · rintro ⟨_, ⟨l, hl, rfl⟩, hk, hd⟩
    by_cases hr : l.removedBy pattern = true
    · rw [if_pos hr] at hd
      cases hd
    · rw [if_neg hr] at hk hd
      refine ⟨⟨l, hl, hk, hd⟩, ?_⟩
      rw [removedBy_eq, hk] at hr
      simpa using hr

theorem alike_busy (ptr : Nat) (v : Bool) (ls : List Listener) :
    Alike ls (ls.map fun l => if l.ptr = ptr then { l with busy := v } else l) :=
  alike_map (fun l => by split <;> rfl) (fun l => by split <;> rfl) (fun l => by split <;> rfl) ls

theorem TableInv.busy (h : TableInv b tr) (ptr : Nat) (v : Bool) :
    TableInv { b with listeners := b.listeners.map fun l =>
      if l.ptr = ptr then { l with busy := v } else l } (tr ++ []) := by
  refine h.alike (alike_busy ptr v _) (Nat.le_refl _) fun key => ?_
  rw [List.append_nil, h.listens]
  simp only [List.mem_map]
  constructor
  · rintro ⟨l, hl, hk, hd⟩
    exact ⟨_, ⟨l, hl, rfl⟩, by split <;> exact hk, by split <;> exact hd⟩
  · rintro ⟨_, ⟨l, hl, rfl⟩, hk, hd⟩
    refine ⟨l, hl, ?_, ?_⟩
    · split at hk <;> exact hk
    · split at hd <;> exact hd

/-- Only listeners that are marked leave the list. -/
theorem TableInv.delete (h : TableInv b tr) :
    TableInv { b with listeners := deleteMarkedListeners b.listeners } tr := by
  refine ⟨h.sorted.filter _, h.keys.sublist (List.filter_sublist.map _),
    h.ptrs.sublist (List.filter_sublist.map _),
    fun l hl => h.fresh l (List.mem_of_mem_filter hl), fun key => ?_⟩
  rw [h.listens]
  simp only [deleteMarkedListeners, List.mem_filter]
  constructor
  · rintro ⟨l, hl, hk, hd⟩
    exact ⟨l, ⟨hl, by simp [hd]⟩, hk, hd⟩
  · rintro ⟨l, ⟨hl, -⟩, hk, hd⟩
    exact ⟨l, hl, hk, hd⟩

theorem dispatch_listeners (b : Bus) (frames : List Frame) :
    (b.dispatch frames).1.listeners = b.listeners ∧ (b.dispatch frames).1.created = b.created ∧
      ∀ key on, (b.dispatch frames).2.foldl (hearing key) on = on := by
  cases hq : b.evtQueue with
  | nil =>
      rw [dispatch_nil hq]
      exact ⟨rfl, rfl, fun _ _ => rfl⟩
  | cons item queue =>
      rw [dispatch_cons hq]
      exact ⟨rfl, rfl, fun _ _ => rfl⟩

/-- **Every step** keeps the list. -/
theorem table_step (h : TableInv b tr) (hs : Goes b b' ev) : TableInv b' (tr ++ ev) := by
  cases hs with
  | send evt => exact h.quiet rfl rfl fun _ _ => rfl
  | visit hf hh hc hl => exact h.quiet rfl rfl fun _ _ => by split <;> rfl
  | handled hf hh => exact h.quiet rfl rfl fun _ _ => rfl
  | complete hf hh hc hp => exact h.quiet rfl rfl fun _ _ => rfl
  | drop hf hh hc hlen => exact h.quiet rfl rfl fun _ _ => rfl
  | enter hf hh hc => exact h.quiet rfl rfl fun _ _ => rfl
  | insert hf => exact h.quiet rfl rfl fun _ _ => rfl
  | passed hf hh hc => exact h.quiet rfl rfl fun _ _ => rfl
  | again hf hh hc =>
      obtain ⟨h1, h2, h3⟩ := dispatch_listeners b _
      exact h.quiet h1 h2 fun key on => h3 key on
  | @added l ha hn =>
      have hadd := @TableInv.added l b
        { b with listeners := (add l b.listeners).2, created := l.ptr + 1 } tr h ha hn rfl rfl
      have hsend := @TableInv.quiet _ ({ b with
        listeners := (add l b.listeners).2, created := l.ptr + 1 }.queueEvent
          ⟨idMessageBusListener, l.id⟩).1 _ [.raised b.raises ⟨idMessageBusListener, l.id⟩] hadd
        rfl rfl fun _ _ => rfl
      rw [List.append_assoc] at hsend
      exact hsend
  | refused ha hn => exact (h.refused ha hn).1
  | removed pattern => exact h.removed pattern
  | busy ptr v => exact h.busy ptr v
  | tick hf =>
      obtain ⟨h1, h2, h3⟩ :=
        dispatch_listeners { b with listeners := deleteMarkedListeners b.listeners } []
      exact h.delete.quiet h1 h2 h3

/-! ## 3. Who attends -/

def Event.activated? : Event → Option (Nat × Nat)
  | .activated s q => some (s, q)
  | _ => none

/-- The handlers called: the event's number, and the listener. -/
def activatedOf (tr : List Event) : List (Nat × Nat) := tr.filterMap Event.activated?

/-- The beginning of a pass: of the urgent one when the event is raised, of the other when
    `idleTick` takes it out of the queue. -/
def starts (urgent : Bool) (s : Nat) : Event → Bool
  | .raised t _ => urgent && t == s
  | .dispatched t _ => !urgent && t == s
  | _ => false

/-- The end of listening. -/
def ends (key : Nat × Nat × (Nat ⊕ Nat)) : Event → Bool
  | .removed pattern => pattern.covers key
  | _ => false

/-- Whether a key is listened to, and whether it has been since the pass began. -/
def attendStep (urgent : Bool) (s : Nat) (key : Nat × Nat × (Nat ⊕ Nat)) (st : Bool × Bool)
    (e : Event) : Bool × Bool :=
  (hearing key st.1 e, if starts urgent s e then st.1 else st.2 && !ends key e)

/-- **A key attends a pass**: it was listened to when the pass began, and not removed since. -/
def attends (urgent : Bool) (s : Nat) (key : Nat × Nat × (Nat ⊕ Nat)) (tr : List Event) : Bool :=
  (tr.foldl (attendStep urgent s key) (false, false)).2

variable {urgent : Bool} {s : Nat} {p : Pass}

theorem attend_fst (st : Bool × Bool) (tr : List Event) :
    (tr.foldl (attendStep urgent s key) st).1 = tr.foldl (hearing key) st.1 := by
  induction tr generalizing st with
  | nil => rfl
  | cons e tr ih =>
      rw [List.foldl_cons, ih]
      rfl

theorem hearing_of_starts {e : Event} (h : starts urgent s e = true) (on : Bool) :
    hearing key on e = on := by
  cases e with
  | raised | dispatched => rfl
  | _ => cases h

theorem hearing_of_not_ends {e : Event} (h : ends key e = false) : hearing key true e = true := by
  cases e with
  | removed pattern => simpa [hearing, ends] using h
  | _ => rfl

theorem attendStep_le {st : Bool × Bool} (hst : st.2 = true → st.1 = true) (e : Event)
    (h : (attendStep urgent s key st e).2 = true) : (attendStep urgent s key st e).1 = true := by
  simp only [attendStep] at h ⊢
  split at h
  · rename_i hs
    rw [hearing_of_starts hs, h]
  · simp only [Bool.and_eq_true, Bool.not_eq_true'] at h
    rw [hst h.1, hearing_of_not_ends h.2]

/-- Who attends, listens. -/
theorem listening_of_attends (h : attends urgent s key tr = true) : listening key tr = true := by
  have hkeep : ∀ (tr : List Event) (st : Bool × Bool), (st.2 = true → st.1 = true) →
      (tr.foldl (attendStep urgent s key) st).2 = true →
        (tr.foldl (attendStep urgent s key) st).1 = true := by
    intro tr
    induction tr with
    | nil => exact fun st hst => hst
    | cons e tr ih => exact fun st hst => ih _ (attendStep_le hst e)
  have := hkeep tr (false, false) (fun h => h) h
  rwa [attend_fst] at this

/-- Who attends a pass in the end, has attended it before. -/
theorem attends_of_append (hev : ∀ e ∈ ev, starts urgent s e = false)
    (h : attends urgent s key (tr ++ ev) = true) : attends urgent s key tr = true := by
  unfold attends at h ⊢
  rw [List.foldl_append] at h
  generalize tr.foldl (attendStep urgent s key) (false, false) = st at h ⊢
  induction ev generalizing st with
  | nil => exact h
  | cons e ev ih =>
      have hstep := ih (fun e he => hev e (List.mem_cons_of_mem _ he)) _ h
      rw [attendStep, hev e List.mem_cons_self] at hstep
      exact (Bool.and_eq_true_iff.mp hstep).1

theorem activatedOf_append : activatedOf (tr ++ ev) = activatedOf tr ++ activatedOf ev :=
  List.filterMap_append ..

/-! ## 4. The passes -/

/-- The listeners a pass is still to come to. -/
def Pass.todo (p : Pass) (ptrs : List Nat) : List Nat :=
  if p.handling then Cursor.rest ptrs p.cursor else Cursor.ahead ptrs p.cursor

/-- **The invariant of a pass**: nobody it is to come to was called for its event; who attends it
    was called or is still to come; and so is, while it counts as complete, who is not for it to
    call. -/
structure PassOk (ls : List Listener) (tr : List Event) (urgent : Bool) (s : Nat) (p : Pass) :
    Prop where
  evt : ∀ e, .raised s e ∈ tr → e = p.evt
  cursor : ∀ q, p.cursor = some q → q ∈ ls.map Listener.ptr
  fresh : ∀ l ∈ ls, l.ptr ∈ p.todo (ls.map Listener.ptr) → l.immediate = urgent →
    (s, l.ptr) ∉ activatedOf tr
  served : ∀ l ∈ ls, attends urgent s l.key tr = true → l.immediate = urgent →
    l.hears p.evt = true → l.ptr ∈ p.todo (ls.map Listener.ptr) ∨ (s, l.ptr) ∈ activatedOf tr
  others : p.complete = true → ∀ l ∈ ls, attends urgent s l.key tr = true →
    l.immediate ≠ urgent → l.hears p.evt = true → l.ptr ∈ p.todo (ls.map Listener.ptr)

/-- The invariant of an open call. -/
def FrameOk (ls : List Listener) (tr : List Event) : Frame → Prop
  | .queueEvent s _ p => PassOk ls tr true s p
  | .inserting item _ => PassOk ls tr true item.raise ⟨item.evt, none, false, false⟩
  | .idleTick s p => s ∈ dispatchedOf tr ∧ PassOk ls tr false s p

/-- What happens does not concern the pass of an event. -/
structure Still (urgent : Bool) (s : Nat) (ev : List Event) : Prop where
  activated : ∀ q, (s, q) ∉ activatedOf ev
  starts : ∀ e ∈ ev, starts urgent s e = false
  raised : ∀ e, .raised s e ∉ ev

theorem PassOk.still (h : PassOk ls tr urgent s p) (hev : Still urgent s ev) :
    PassOk ls (tr ++ ev) urgent s p := by
  have hact : ∀ q, (s, q) ∈ activatedOf (tr ++ ev) ↔ (s, q) ∈ activatedOf tr := fun q => by
    rw [activatedOf_append, List.mem_append]
    exact or_iff_left (hev.activated q)
  refine ⟨fun e he => ?_, h.cursor, fun l hl ht hi => ?_, fun l hl ha hi hh => ?_,
    fun hp l hl ha => h.others hp l hl (attends_of_append hev.starts ha)⟩
  · rcases List.mem_append.mp he with he | he
    · exact h.evt e he
    · exact absurd he (hev.raised e)
  · rw [hact]
    exact h.fresh l hl ht hi
  · rw [hact]
    exact h.served l hl (attends_of_append hev.starts ha) hi hh

theorem hears_of_key {k l : Listener} (h : k.key = l.key) (evt : MicroBitEvent) :
    k.hears evt = l.hears evt := by
  simp only [Listener.key, Prod.mk.injEq] at h
  rw [Listener.hears, Listener.hears, h.1, h.2.1]

/-- Marks and flags do not concern a pass. -/
theorem PassOk.alike {ls' : List Listener} (h : PassOk ls tr urgent s p) (ha : Alike ls ls') :
    PassOk ls' tr urgent s p := by
  refine ⟨h.evt, fun q hq => ha.ptrs ▸ h.cursor q hq, fun l' hl' ht hi => ?_,
    fun l' hl' hat hi hh => ?_, fun hp l' hl' hat hi hh => ?_⟩
  · obtain ⟨l, hl, hp, -, himm⟩ := ha.back l' hl'
    rw [← hp] at ht ⊢
    rw [ha.ptrs] at ht
    exact h.fresh l hl ht (himm.trans hi)
  · obtain ⟨l, hl, hp, hk, himm⟩ := ha.back l' hl'
    rw [← hp, ha.ptrs]
    exact h.served l hl (hk ▸ hat) (himm.trans hi) (hears_of_key hk _ ▸ hh)
  · obtain ⟨l, hl, hptr, hk, himm⟩ := ha.back l' hl'
    rw [← hptr, ha.ptrs]
    exact h.others hp l hl (hk ▸ hat) (himm ▸ hi) (hears_of_key hk _ ▸ hh)

/-- A listener that is added may be come to. -/
theorem PassOk.insert {s₁ s₂ : List Listener} (h : PassOk (s₁ ++ s₂) tr urgent s p)
    (hp : new.ptr ∉ (s₁ ++ s₂).map Listener.ptr) (hact : (s, new.ptr) ∉ activatedOf tr)
    (hat : attends urgent s new.key tr = false) : PassOk (s₁ ++ new :: s₂) tr urgent s p := by
  have hmap : (s₁ ++ new :: s₂).map Listener.ptr =
      s₁.map Listener.ptr ++ new.ptr :: s₂.map Listener.ptr := by simp
  have hmap' : (s₁ ++ s₂).map Listener.ptr = s₁.map Listener.ptr ++ s₂.map Listener.ptr := by simp
  have hmem : ∀ k, k ∈ s₁ ++ new :: s₂ ↔ k = new ∨ k ∈ s₁ ++ s₂ := fun k => by
    simp only [List.mem_append, List.mem_cons]
    tauto
  have hc : ∀ q, p.cursor = some q →
      new.ptr ≠ q ∧ q ∈ s₁.map Listener.ptr ++ s₂.map Listener.ptr := fun q hq => by
    have := h.cursor q hq
    refine ⟨fun e => hp (e ▸ this), hmap' ▸ this⟩
  have htodo : ∀ x, x ∈ p.todo ((s₁ ++ new :: s₂).map Listener.ptr) →
      x = new.ptr ∨ x ∈ p.todo ((s₁ ++ s₂).map Listener.ptr) := fun x hx => by
    rw [hmap] at hx
    rw [hmap']
    unfold Pass.todo at hx ⊢
    by_cases hh : p.handling = true
    · rw [if_pos hh] at hx ⊢
      cases hcur : p.cursor with
      | none => rw [hcur] at hx; cases hx
      | some q =>
          rw [hcur] at hx
          obtain ⟨h1, h2⟩ := hc q hcur
          exact Cursor.mem_rest_insert h1 h2 hx
    · rw [if_neg hh] at hx ⊢
      exact Cursor.mem_ahead_insert hc hx
  have hsub : p.todo ((s₁ ++ s₂).map Listener.ptr) ⊆
      p.todo ((s₁ ++ new :: s₂).map Listener.ptr) := by
    rw [hmap, hmap']
    unfold Pass.todo
    split
    · cases hcur : p.cursor with
      | none => exact List.Subset.refl _
      | some q =>
          obtain ⟨h1, h2⟩ := hc q hcur
          exact Cursor.rest_subset_insert h1 h2
    · exact Cursor.ahead_subset_insert hc
  refine ⟨h.evt, fun q hq => ?_, fun l hl ht hi => ?_, fun l hl ha hi hh => ?_,
    fun hc l hl ha hi hh => ?_⟩
  · rw [hmap]
    exact Cursor.mem_insert (hc q hq).2
  · rcases (hmem l).mp hl with rfl | hl
    · exact hact
    · rcases htodo _ ht with he | ht
      · exact absurd (List.mem_map_of_mem hl) (he ▸ hp)
      · exact h.fresh l hl ht hi
  · rcases (hmem l).mp hl with rfl | hl
    · rw [hat] at ha
      cases ha
    · exact (h.served l hl ha hi hh).imp_left fun ht => hsub ht
  · rcases (hmem l).mp hl with rfl | hl
    · rw [hat] at ha
      cases ha
    · exact hsub (h.others hc l hl ha hi hh)

theorem next_eq (ls : List Listener) (q : Nat) :
    next ls q = Cursor.succ (ls.map Listener.ptr) q := by
  rw [Cursor.succ, Cursor.rest, Cursor.ahead, List.dropWhile_map, ← List.map_drop, List.head?_map]
  rfl

/-- A listener is known by its pointer. -/
theorem eq_of_ptr (h : (ls.map Listener.ptr).Nodup) {k : Listener} (hk : k ∈ ls) (hl : l ∈ ls)
    (he : k.ptr = l.ptr) : k = l :=
  List.inj_on_of_nodup_map h hk hl he

theorem eq_of_key (h : (ls.map Listener.key).Nodup) {k : Listener} (hk : k ∈ ls) (hl : l ∈ ls)
    (he : k.key = l.key) : k = l :=
  List.inj_on_of_nodup_map h hk hl he

/-- Who attends is not marked. -/
theorem TableInv.unmarked (h : TableInv b tr) (hl : l ∈ b.listeners)
    (ha : attends urgent s l.key tr = true) : l.deleting = false := by
  obtain ⟨k, hk, he, hd⟩ := (h.listens _).mp (listening_of_attends ha)
  rwa [← eq_of_key h.keys hk hl he]

/-- A pass begins. -/
theorem passOk_begin {evt : MicroBitEvent} (hevt : ∀ e, .raised s e ∈ tr → e = evt)
    (hact : ∀ l ∈ ls, l.immediate = urgent → (s, l.ptr) ∉ activatedOf tr) :
    PassOk ls tr urgent s (.begin evt ls) := by
  have hall : (Pass.begin evt ls).todo (ls.map Listener.ptr) = ls.map Listener.ptr := by
    rw [Pass.todo, if_neg (by simp [Pass.begin]), Pass.begin, ← List.head?_map, Cursor.ahead_head]
  refine ⟨hevt, fun q hq => ?_, fun l hl _ hi => hact l hl hi, fun l hl _ _ _ => .inl ?_,
    fun _ l hl _ _ _ => ?_⟩
  · rw [Pass.begin, ← List.head?_map] at hq
    exact List.mem_of_head? hq
  · rw [hall]
    exact List.mem_map_of_mem hl
  · rw [hall]
    exact List.mem_map_of_mem hl

/-- What a pass is to come to, and the rest of it. -/
theorem todo_cons (hl : l ∈ ls) (hc : p.cursor = some l.ptr) (hh : p.handling = false) :
    p.todo (ls.map Listener.ptr) =
      l.ptr :: Cursor.rest (ls.map Listener.ptr) (some l.ptr) := by
  rw [Pass.todo, if_neg (by simp [hh]), hc, Cursor.ahead_eq_cons (List.mem_map_of_mem hl)]

section
variable (h : PassOk ls tr urgent s p) (hn : (ls.map Listener.ptr).Nodup) (hl : l ∈ ls)
  (hc : p.cursor = some l.ptr) (hh : p.handling = false)
include h hn hl hc hh

/-- A listener that is not to be called is passed. -/
theorem PassOk.next (hskip : attends urgent s l.key tr = true → l.immediate = urgent →
    l.hears p.evt = true → False) {c : Bool}
    (hcomplete : c = true → p.complete = true ∧ l.hears p.evt = false) :
    PassOk ls tr urgent s { p with complete := c, cursor := next ls l.ptr } := by
  have htodo : ({ p with complete := c, cursor := MessageBus.next ls l.ptr } : Pass).todo
      (ls.map Listener.ptr) = Cursor.rest (ls.map Listener.ptr) (some l.ptr) := by
    rw [Pass.todo, if_neg (by simp [hh]), next_eq, Cursor.ahead_succ hn (List.mem_map_of_mem hl)]
  have hold := todo_cons hl hc hh
  refine ⟨h.evt, fun q hq => ?_, fun k hk ht hi => ?_, fun k hk ha hi hhears => ?_,
    fun hc k hk ha hi hhears => ?_⟩
  · simp only [next_eq] at hq
    exact Cursor.succ_mem hq
  · rw [htodo] at ht
    exact h.fresh k hk (hold ▸ List.mem_cons_of_mem _ ht) hi
  · rw [htodo]
    rcases h.served k hk ha hi hhears with ht | hact
    · rw [hold] at ht
      rcases List.mem_cons.mp ht with he | ht
      · obtain rfl := eq_of_ptr hn hk hl he
        exact (hskip ha hi hhears).elim
      · exact .inl ht
    · exact .inr hact
  · obtain ⟨hp, hnot⟩ := hcomplete hc
    have ht := h.others hp k hk ha hi hhears
    rw [hold] at ht
    rw [htodo]
    refine (List.mem_cons.mp ht).resolve_left fun he => ?_
    obtain rfl := eq_of_ptr hn hk hl he
    rw [hnot] at hhears
    cases hhears

/-- A listener is called. -/
theorem PassOk.call (hi : l.immediate = urgent) :
    PassOk ls (tr ++ [.activated s l.ptr]) urgent s { p with handling := true } ∧
      (s, l.ptr) ∉ activatedOf tr := by
  have hold := todo_cons hl hc hh
  have htodo : ({ p with handling := true } : Pass).todo (ls.map Listener.ptr) =
      Cursor.rest (ls.map Listener.ptr) (some l.ptr) := by
    rw [Pass.todo, if_pos rfl, hc]
  have hact : activatedOf (tr ++ [.activated s l.ptr]) = activatedOf tr ++ [(s, l.ptr)] :=
    activatedOf_append
  have hev : ∀ e ∈ [Event.activated s l.ptr], starts urgent s e = false := by simp [starts]
  refine ⟨⟨fun e he => h.evt e (by simpa using he), h.cursor, fun k hk ht hik => ?_,
    fun k hk ha hik hhears => ?_, fun hp k hk ha hik hhears => ?_⟩,
    h.fresh l hl (hold ▸ List.mem_cons_self) hi⟩
  · rw [htodo] at ht
    rw [hact, List.mem_append, List.mem_singleton]
    rintro (hm | he)
    · exact h.fresh k hk (hold ▸ List.mem_cons_of_mem _ ht) hik hm
    · have hptr : k.ptr = l.ptr := (Prod.mk.inj he).2
      exact Cursor.notMem_rest hn (hptr ▸ ht)
  · rw [htodo, hact]
    have ha' := attends_of_append hev ha
    rcases h.served k hk ha' hik hhears with ht | hm
    · rw [hold] at ht
      rcases List.mem_cons.mp ht with he | ht
      · exact .inr (by simp [he])
      · exact .inl ht
    · exact .inr (List.mem_append_left _ hm)
  · have ht := h.others hp k hk (attends_of_append hev ha) hik hhears
    rw [hold] at ht
    rw [htodo]
    refine (List.mem_cons.mp ht).resolve_left fun he => ?_
    obtain rfl := eq_of_ptr hn hk hl he
    exact hik hi

end

/-- The handler returns. -/
theorem PassOk.resume (h : PassOk ls tr urgent s p) (hn : (ls.map Listener.ptr).Nodup)
    (hh : p.handling = true) : PassOk ls tr urgent s (p.resume ls) := by
  have htodo : (p.resume ls).todo (ls.map Listener.ptr) = p.todo (ls.map Listener.ptr) := by
    rw [Pass.todo, if_neg (by simp [Pass.resume]), Pass.todo, if_pos hh, Pass.resume]
    cases hc : p.cursor with
    | none => rfl
    | some q =>
        simp only [Option.bind_some, next_eq]
        exact Cursor.ahead_succ hn (h.cursor q hc)
  refine ⟨h.evt, fun q hq => ?_, fun l hl ht hi => h.fresh l hl (htodo ▸ ht) hi,
    fun l hl ha hi hhears => htodo ▸ h.served l hl ha hi hhears,
    fun hp l hl ha hi hhears => htodo ▸ h.others hp l hl ha hi hhears⟩
  obtain ⟨q', -, hq'⟩ := Option.bind_eq_some_iff.mp hq
  rw [next_eq] at hq'
  exact Cursor.succ_mem hq'

/-- One turn of the loop of `process`. -/
theorem PassOk.visit (h : PassOk b.listeners tr urgent s p) (ht : TableInv b tr)
    (hl : l ∈ b.listeners) (hc : p.cursor = some l.ptr) (hh : p.handling = false) :
    PassOk b.listeners (tr ++ if (p.visit urgent b.listeners l).2 then [.activated s l.ptr] else [])
        urgent s (p.visit urgent b.listeners l).1 ∧
      ((p.visit urgent b.listeners l).2 = true →
        l.immediate = urgent ∧ (s, l.ptr) ∉ activatedOf tr) := by
  unfold Pass.visit
  by_cases hhears : l.hears p.evt = true
  · rw [if_pos hhears]
    by_cases hcall : l.immediate = urgent ∧ ¬ l.deleting = true
    · rw [if_pos hcall]
      obtain ⟨h1, h2⟩ := h.call ht.ptrs hl hc hh hcall.1
      exact ⟨h1, fun _ => ⟨hcall.1, h2⟩⟩
    · rw [if_neg hcall]
      refine ⟨?_, fun h => by cases h⟩
      rw [if_neg Bool.false_ne_true, List.append_nil]
      refine h.next ht.ptrs hl hc hh (fun ha hi _ => hcall ⟨hi, ?_⟩) fun hf => by cases hf
      simp [ht.unmarked hl ha]
  · rw [if_neg hhears]
    refine ⟨?_, fun h => by cases h⟩
    rw [if_neg Bool.false_ne_true, List.append_nil]
    exact h.next ht.ptrs hl hc hh (fun _ _ hx => hhears hx) fun hp =>
      ⟨hp, Bool.eq_false_iff.mpr hhears⟩

/-! ## 5. The invariant of the passes -/

/-- The event a frame is about. -/
def Frame.raise : Frame → Nat
  | .queueEvent s _ _ => s
  | .inserting item _ => item.raise
  | .idleTick s _ => s

/-- **The invariant of the passes.** -/
structure PassInv (b : Bus) (tr : List Event) : Prop where
  queue : QueueInv b tr
  table : TableInv b tr
  once : (activatedOf tr).Nodup
  bound : ∀ a ∈ activatedOf tr, a.1 < b.raises ∧ a.2 < b.created
  raised : ∀ s e, .raised s e ∈ tr → s < b.raises
  items : ∀ item ∈ b.evtQueue, ∀ e, .raised item.raise e ∈ tr → e = item.evt
  waiting : ∀ s, s ∈ numbers b.evtQueue ∨ s ∈ (openOf b.frames).map Prod.fst →
    ∀ l ∈ b.listeners, (s, l.ptr) ∈ activatedOf tr → l.immediate = true
  frames : ∀ f ∈ b.frames, FrameOk b.listeners tr f

theorem FrameOk.still {f : Frame} (h : FrameOk ls tr f)
    (hev : ∀ urgent, (f.open? ≠ none → urgent = true) → Still urgent f.raise ev) :
    FrameOk ls (tr ++ ev) f := by
  cases f with
  | queueEvent s prev p => exact PassOk.still h (hev true fun _ => rfl)
  | inserting item prev => exact PassOk.still h (hev true fun _ => rfl)
  | idleTick s p =>
      refine ⟨?_, h.2.still (hev false fun hne => absurd rfl hne)⟩
      rw [dispatchedOf_append]
      exact List.mem_append_left _ h.1

theorem FrameOk.alike {ls' : List Listener} {f : Frame} (h : FrameOk ls tr f)
    (ha : Alike ls ls') : FrameOk ls' tr f := by
  cases f with
  | queueEvent s prev p => exact PassOk.alike h ha
  | inserting item prev => exact PassOk.alike h ha
  | idleTick s p => exact ⟨h.1, h.2.alike ha⟩

/-- An open call is of a raise that is known. -/
theorem PassInv.lt (h : PassInv b tr) {f : Frame} (hf : f ∈ b.frames) : f.raise < b.raises := by
  have hok := h.frames f hf
  have hopen : ∀ g, f.open? = some g → g.1 < b.raises := fun g hg =>
    h.queue.lt (.inr (.inl (List.mem_map_of_mem (List.mem_filterMap.mpr ⟨f, hf, hg⟩))))
  cases f with
  | queueEvent s prev p => exact hopen (s, prev) rfl
  | inserting item prev => exact hopen (item.raise, prev) rfl
  | idleTick s p => exact h.queue.lt (.inr (.inr hok.1))

/-- The open calls below the innermost one are of other raises. -/
theorem PassInv.raise_ne (h : PassInv b tr) {f : Frame} {frames : List Frame}
    (hf : b.frames = f :: frames) {g : Frame} (hg : g ∈ frames) : g.raise ≠ f.raise := by
  have hok := h.frames g (hf ▸ List.mem_cons_of_mem _ hg)
  have hidle := h.queue.idle
  have hstack := h.queue.stack
  have hlater := h.queue.later
  rw [hf] at hidle hstack hlater
  have hopen : ∀ t, f.open? = some t → g.raise < t.1 := fun t ht => by
    have hcons : openOf (f :: frames) = t :: openOf frames := List.filterMap_cons_some ht
    rw [hcons] at hstack hlater
    cases g with
    | queueEvent s prev p =>
        exact (List.pairwise_cons.mp hstack).1 (s, prev) (List.mem_filterMap.mpr ⟨_, hg, rfl⟩)
    | inserting item prev =>
        exact (List.pairwise_cons.mp hstack).1 (item.raise, prev)
          (List.mem_filterMap.mpr ⟨_, hg, rfl⟩)
    | idleTick s p => exact hlater t List.mem_cons_self s hok.1
  cases f with
  | queueEvent s prev p => exact Nat.ne_of_lt (hopen (s, prev) rfl)
  | inserting item prev => exact Nat.ne_of_lt (hopen (item.raise, prev) rfl)
  | idleTick s p =>
      obtain rfl : frames = [] := hidle
      exact absurd hg List.not_mem_nil

/-- A step that calls no handler and raises no event. -/
theorem PassInv.silent (h : PassInv b tr) (hq : QueueInv b' (tr ++ ev))
    (ht : TableInv b' (tr ++ ev)) (hact : activatedOf ev = []) (hev : ∀ s e, .raised s e ∉ ev)
    (hr : b'.raises = b.raises) (hc : b.created ≤ b'.created)
    (hitems : ∀ i ∈ b'.evtQueue, i ∈ b.evtQueue ∨ ∀ e, .raised i.raise e ∈ tr → e = i.evt)
    (hwait : ∀ s, s ∈ numbers b'.evtQueue ∨ s ∈ (openOf b'.frames).map Prod.fst →
      s ∈ numbers b.evtQueue ∨ s ∈ (openOf b.frames).map Prod.fst)
    (hls : ∀ l' ∈ b'.listeners,
      (∃ l ∈ b.listeners, l.ptr = l'.ptr ∧ l.immediate = l'.immediate) ∨ b.created ≤ l'.ptr)
    (hframes : ∀ f ∈ b'.frames, FrameOk b'.listeners (tr ++ ev) f) : PassInv b' (tr ++ ev) := by
  have hsame : activatedOf (tr ++ ev) = activatedOf tr := by
    rw [activatedOf_append, hact, List.append_nil]
  have hraised : ∀ s e, .raised s e ∈ tr ++ ev → .raised s e ∈ tr := fun s e he =>
    (List.mem_append.mp he).resolve_right (hev s e)
  refine ⟨hq, ht, hsame ▸ h.once, fun a ha => ?_, fun s e he => ?_, fun i hi e he => ?_,
    fun s hs l' hl' ha => ?_, hframes⟩
  · have := h.bound a (hsame ▸ ha)
    omega
  · exact hr ▸ h.raised s e (hraised s e he)
  · rcases hitems i hi with hi | hi
    · exact h.items i hi e (hraised _ e he)
    · exact hi e (hraised _ e he)
  · rw [hsame] at ha
    rcases hls l' hl' with ⟨l, hl, hp, hi⟩ | hnew
    · exact hi ▸ h.waiting s (hwait s hs) l hl (hp ▸ ha)
    · have := (h.bound _ ha).2
      simp only at this
      omega

/-- Nothing concerns the passes. -/
theorem still_of_silent {f : Frame} (hact : activatedOf ev = []) (hev : ∀ s e, .raised s e ∉ ev)
    (hst : ∀ u s, ∀ e ∈ ev, starts u s e = false) :
    ∀ urgent, (f.open? ≠ none → urgent = true) → Still urgent f.raise ev := fun urgent _ =>
  ⟨fun q => by simp [hact], hst urgent f.raise, hev f.raise⟩

/-- **An event is raised.** -/
theorem PassInv.send (h : PassInv b tr) (evt : MicroBitEvent) :
    PassInv (b.queueEvent evt).1 (tr ++ (b.queueEvent evt).2) := by
  have hact : activatedOf (tr ++ (b.queueEvent evt).2) = activatedOf tr := by
    rw [activatedOf_append]
    exact List.append_nil _
  have hraised : ∀ s e, .raised s e ∈ tr ++ (b.queueEvent evt).2 →
      .raised s e ∈ tr ∨ s = b.raises ∧ e = evt := fun s e he =>
    (List.mem_append.mp he).imp_right fun he => by simpa [Bus.queueEvent] using he
  refine ⟨queueInv_step h.queue (.send evt), table_step h.table (.send evt), hact ▸ h.once,
    fun a ha => ?_, fun s e he => ?_, fun i hi e he => ?_, fun s hs l hl ha => ?_, fun f hf => ?_⟩
  · exact (h.bound a (hact ▸ ha)).imp_left Nat.lt_succ_of_lt
  · rcases hraised s e he with he | ⟨rfl, -⟩
    · exact Nat.lt_succ_of_lt (h.raised s e he)
    · exact Nat.lt_succ_self _
  · rcases hraised _ e he with he | ⟨he, -⟩
    · exact h.items i hi e he
    · have hlt := h.queue.lt (.inl (List.mem_map_of_mem hi))
      omega
  · rw [hact] at ha
    have hlt := (h.bound _ ha).1
    rcases hs with hs | hs
    · exact h.waiting s (.inl hs) l hl ha
    · rcases List.mem_cons.mp hs with rfl | hs
      · exact absurd hlt (Nat.lt_irrefl _)
      · exact h.waiting s (.inr hs) l hl ha
  · rcases List.mem_cons.mp hf with rfl | hf
    · refine passOk_begin (fun e he => ?_) fun l hl _ ha => ?_
      · rcases hraised _ e he with he | ⟨-, he⟩
        · exact absurd (h.raised _ e he) (Nat.lt_irrefl _)
        · exact he
      · rw [hact] at ha
        exact absurd (h.bound _ ha).1 (Nat.lt_irrefl _)
    · refine (h.frames f hf).still fun urgent _ => ?_
      have hne : b.raises ≠ f.raise := Nat.ne_of_gt (h.lt hf)
      refine ⟨fun q => List.not_mem_nil, fun e he => ?_, fun e he => ?_⟩
      · obtain rfl := List.mem_singleton.mp he
        simp [starts, hne]
      · exact hne (Event.raised.inj (List.mem_singleton.mp he)).1.symm

/-- **`idleTick` takes an event**, when nothing else is open. -/
theorem PassInv.dispatch (h : PassInv b tr) (pre : List Event)
    (hq : QueueInv (b.dispatch []).1 (tr ++ (pre ++ (b.dispatch []).2)))
    (ht : TableInv (b.dispatch []).1 (tr ++ (pre ++ (b.dispatch []).2)))
    (hact : activatedOf pre = []) (hev : ∀ s e, .raised s e ∉ pre) :
    PassInv (b.dispatch []).1 (tr ++ (pre ++ (b.dispatch []).2)) := by
  cases hqueue : b.evtQueue with
  | nil =>
      rw [dispatch_nil hqueue, List.append_nil] at hq ht ⊢
      refine h.silent hq ht hact hev rfl (Nat.le_refl _) (fun i hi => .inl hi) (fun s hs => ?_)
        (fun l hl => .inl ⟨l, hl, rfl, rfl⟩) fun g hg => absurd hg List.not_mem_nil
      exact hs.imp_right fun hs => absurd hs List.not_mem_nil
  | cons item queue =>
      rw [dispatch_cons hqueue] at hq ht ⊢
      have hmem : item ∈ b.evtQueue := hqueue ▸ List.mem_cons_self
      have hact' : activatedOf (pre ++ [.dispatched item.raise item.evt]) = [] := by
        rw [activatedOf_append, hact]
        rfl
      have hev' : ∀ s e, .raised s e ∉ pre ++ [.dispatched item.raise item.evt] := fun s e he =>
        (List.mem_append.mp he).elim (hev s e) (by simp)
      refine h.silent hq ht hact' hev' rfl (Nat.le_refl _)
        (fun i hi => .inl (hqueue ▸ List.mem_cons_of_mem _ hi)) (fun s hs => ?_)
        (fun l hl => .inl ⟨l, hl, rfl, rfl⟩) fun g hg => ?_
      · rcases hs with hs | hs
        · exact .inl (by rw [hqueue]; exact List.mem_cons_of_mem _ hs)
        · cases hs
      · obtain rfl := List.mem_singleton.mp hg
        refine ⟨?_, passOk_begin (fun e he => ?_) fun l hl himm ha => ?_⟩
        · rw [dispatchedOf_append, dispatchedOf_append]
          exact List.mem_append_right _ (List.mem_append_right _ List.mem_cons_self)
        · exact h.items item hmem e ((List.mem_append.mp he).resolve_right (hev' _ e))
        · rw [activatedOf_append, hact', List.append_nil] at ha
          rw [h.waiting _ (.inl (List.mem_map_of_mem hmem)) l hl ha] at himm
          cases himm

theorem frameOk_ofPass {raise : Nat} {prev : Option Nat} :
    FrameOk ls tr (.ofPass urgent raise prev p) ↔
      PassOk ls tr urgent raise p ∧ (urgent = false → raise ∈ dispatchedOf tr) := by
  cases urgent with
  | true => exact ⟨fun h => ⟨h, fun hf => by cases hf⟩, fun h => h.1⟩
  | false => exact ⟨fun h => ⟨h.2, fun _ => h.1⟩, fun h => ⟨h.2 rfl, h.1⟩⟩

theorem raise_ofPass (urgent : Bool) (raise : Nat) (prev : Option Nat) (p : Pass) :
    (Frame.ofPass urgent raise prev p).raise = raise := by
  cases urgent <;> rfl

/-- The innermost call ends, or goes on in another place. -/
theorem PassInv.frame (h : PassInv b tr) {f : Frame} {frames : List Frame} (mid : List Frame)
    (hf : b.frames = f :: frames) (hq : QueueInv { b with frames := mid ++ frames } (tr ++ ev))
    (ht : TableInv { b with frames := mid ++ frames } (tr ++ ev)) (hact : activatedOf ev = [])
    (hev : ∀ s e, .raised s e ∉ ev) (hst : ∀ u s, ∀ e ∈ ev, starts u s e = false)
    (hmid : ∀ f' ∈ mid, f'.open?.map Prod.fst = f.open?.map Prod.fst ∧
      FrameOk b.listeners (tr ++ ev) f') :
    PassInv { b with frames := mid ++ frames } (tr ++ ev) := by
  refine h.silent hq ht hact hev rfl (Nat.le_refl _) (fun i hi => .inl hi) (fun s hs => ?_)
    (fun l hl => .inl ⟨l, hl, rfl, rfl⟩) fun g hg => ?_
  · refine hs.imp_right fun hs => ?_
    rw [openOf, List.map_filterMap] at hs ⊢
    rw [hf]
    obtain ⟨g, hg, hgs⟩ := List.mem_filterMap.mp hs
    rcases List.mem_append.mp hg with hg | hg
    · exact List.mem_filterMap.mpr ⟨f, List.mem_cons_self, (hmid g hg).1 ▸ hgs⟩
    · exact List.mem_filterMap.mpr ⟨g, List.mem_cons_of_mem _ hg, hgs⟩
  · rcases List.mem_append.mp hg with hg | hg
    · exact (hmid g hg).2
    · exact (h.frames g (hf ▸ List.mem_cons_of_mem _ hg)).still (still_of_silent hact hev hst)

/-- At its end a pass is to come to nobody. -/
theorem todo_nil (hc : p.cursor = none) (hh : p.handling = false) :
    p.todo (ls.map Listener.ptr) = [] := by
  rw [Pass.todo, if_neg (by simp [hh]), hc, Cursor.ahead_none]

/-- A pass that has come to its end. -/
theorem PassOk.done (h : PassOk ls tr urgent s p) (hc : p.cursor = none)
    (hh : p.handling = false) : PassOk ls tr urgent s ⟨p.evt, none, false, false⟩ := by
  have htodo := @todo_nil ls p hc hh
  refine ⟨h.evt, fun q hq => (by cases hq), fun l _ ht _ => (by cases ht),
    fun l hl ha hi hhears => ?_, fun hp => (by cases hp)⟩
  rcases h.served l hl ha hi hhears with ht | hact
  · rw [htodo] at ht
    cases ht
  · exact .inr hact

theorem mem_putItem {item x : Item} {prev : Option Nat} {queue : List Item}
    (h : x ∈ putItem item prev queue) : x = item ∨ x ∈ queue := by
  cases prev with
  | none => exact List.mem_cons.mp h
  | some q =>
      rw [putItem] at h
      induction queue with
      | nil => cases h
      | cons y ys ih =>
          rw [insertAfter] at h
          split at h
          · simp only [List.mem_cons] at h ⊢
            tauto
          · rcases List.mem_cons.mp h with rfl | h
            · exact .inr List.mem_cons_self
            · exact (ih h).imp_right (List.mem_cons_of_mem _)

/-- **A handler is called.** -/
theorem PassInv.call (h : PassInv b tr) {raise : Nat} {prev : Option Nat} {frames : List Frame}
    {p' : Pass} (hf : b.frames = .ofPass urgent raise prev p :: frames) (hl : l ∈ b.listeners)
    (hq : QueueInv { b with frames := .ofPass urgent raise prev p' :: frames }
      (tr ++ [.activated raise l.ptr]))
    (ht : TableInv { b with frames := .ofPass urgent raise prev p' :: frames }
      (tr ++ [.activated raise l.ptr]))
    (hok : PassOk b.listeners (tr ++ [.activated raise l.ptr]) urgent raise p')
    (hi : l.immediate = urgent) (hnew : (raise, l.ptr) ∉ activatedOf tr) :
    PassInv { b with frames := .ofPass urgent raise prev p' :: frames }
      (tr ++ [.activated raise l.ptr]) := by
  have hact : activatedOf (tr ++ [.activated raise l.ptr]) = activatedOf tr ++ [(raise, l.ptr)] :=
    activatedOf_append
  have htop := h.frames _ (hf ▸ List.mem_cons_self)
  have hraise := h.lt (hf ▸ List.mem_cons_self)
  rw [raise_ofPass] at hraise
  have hdisp := (frameOk_ofPass.mp htop).2
  refine ⟨hq, ht, ?_, fun a ha => ?_, fun s e he => ?_, fun i hi e he => ?_,
    fun s hs k hk ha => ?_, fun g hg => ?_⟩
  · rw [hact]
    exact List.nodup_append.mpr ⟨h.once, List.nodup_singleton _, fun a ha a' ha' he => by
      rw [List.mem_singleton.mp ha'] at he
      exact hnew (he ▸ ha)⟩
  · rw [hact] at ha
    rcases List.mem_append.mp ha with ha | ha
    · exact h.bound a ha
    · rw [List.mem_singleton.mp ha]
      exact ⟨hraise, h.table.fresh l hl⟩
  · exact h.raised s e (by simpa using he)
  · exact h.items i hi e (by simpa using he)
  · have hs' : s ∈ numbers b.evtQueue ∨ s ∈ (openOf b.frames).map Prod.fst := by
      rw [hf, openOf_ofPass urgent raise p' p frames]
      exact hs
    rw [hact] at ha
    rcases List.mem_append.mp ha with ha | ha
    · exact h.waiting s hs' k hk ha
    · obtain ⟨rfl, hp⟩ := Prod.mk.inj (List.mem_singleton.mp ha)
      rw [eq_of_ptr h.table.ptrs hk hl hp, hi]
      -- an event taken out of the queue waits no more
      by_contra hurgent
      have hd := hdisp (by simpa using hurgent)
      rcases hs' with hs' | hs'
      · exact Nat.lt_irrefl _ ((List.pairwise_append.mp h.queue.order).2.2 _ hd _ hs')
      · obtain ⟨g, hg, rfl⟩ := List.mem_map.mp hs'
        exact Nat.lt_irrefl _ (h.queue.later g hg _ hd)
  · rcases List.mem_cons.mp hg with rfl | hg
    · refine frameOk_ofPass.mpr ⟨hok, fun hu => ?_⟩
      rw [dispatchedOf_append]
      exact List.mem_append_left _ (hdisp hu)
    · have hne := h.raise_ne hf hg
      rw [raise_ofPass] at hne
      refine (h.frames g (hf ▸ List.mem_cons_of_mem _ hg)).still fun u _ => ⟨fun q hq => ?_, ?_, ?_⟩
      · exact hne (Prod.mk.inj (List.mem_singleton.mp hq)).1
      · simp [starts]
      · simp

/-- Marks and flags are set. -/
theorem PassInv.alike (h : PassInv b tr) {ls : List Listener} {c : Nat}
    (hq : QueueInv { b with listeners := ls, created := c } (tr ++ ev))
    (ht : TableInv { b with listeners := ls, created := c } (tr ++ ev)) (hc : b.created ≤ c)
    (ha : Alike b.listeners ls) (hact : activatedOf ev = []) (hev : ∀ s e, .raised s e ∉ ev)
    (hst : ∀ u s, ∀ e ∈ ev, starts u s e = false) :
    PassInv { b with listeners := ls, created := c } (tr ++ ev) :=
  h.silent hq ht hact hev rfl hc (fun _ hi => .inl hi) (fun _ hs => hs)
    (fun l' hl' => by
      obtain ⟨l, hl, hp, -, hi⟩ := ha.back l' hl'
      exact .inl ⟨l, hl, hp, hi⟩)
    fun f hf => ((h.frames f hf).alike ha).still (still_of_silent hact hev hst)

/-- **A listener is added.** -/
theorem PassInv.added (h : PassInv b tr) (ha : Addable l b) (hn : (add l b.listeners).1 = true)
    (hq : QueueInv { b with listeners := (add l b.listeners).2, created := l.ptr + 1 }
      (tr ++ [.added l])) :
    PassInv { b with listeners := (add l b.listeners).2, created := l.ptr + 1 }
      (tr ++ [.added l]) := by
  have ht := @TableInv.added l b
    { b with listeners := (add l b.listeners).2, created := l.ptr + 1 } tr h.table ha hn rfl rfl
  obtain ⟨hadd, hnew⟩ := add_new ha hn
  obtain ⟨s₁, s₂, hls, hins, -⟩ := @insertListener_spec l _ h.table.sorted
  have hmem : ∀ k, k ∈ (add l b.listeners).2 → k = l ∨ k ∈ b.listeners := fun k hk => by
    rw [hadd, hins] at hk
    rw [hls]
    simp only [List.mem_append, List.mem_cons] at hk ⊢
    tauto
  have hptr : l.ptr ∉ b.listeners.map Listener.ptr := fun hm => by
    obtain ⟨k, hk, he⟩ := List.mem_map.mp hm
    have hlt := h.table.fresh k hk
    have := ha.1
    omega
  have hact : ∀ s, (s, l.ptr) ∉ activatedOf tr := fun s hm => by
    have hlt := (h.bound _ hm).2
    have := ha.1
    simp only at hlt
    omega
  have hat : ∀ u s, attends u s l.key tr = false := fun u s => by
    by_contra hne
    obtain ⟨k, hk, he, -⟩ := (h.table.listens _).mp (listening_of_attends (by simpa using hne))
    exact hnew k hk he
  have hpass : ∀ {u s p}, PassOk b.listeners tr u s p →
      PassOk (add l b.listeners).2 tr u s p := fun {u s p} hp => by
    rw [hls] at hp hptr
    rw [hadd, hins]
    exact hp.insert hptr (hact s) (hat u s)
  have hst : ∀ u s, ∀ e ∈ [Event.added l], starts u s e = false := by simp [starts]
  refine h.silent hq ht rfl (by simp) rfl (Nat.le_succ_of_le ha.1) (fun i hi => .inl hi)
    (fun s hs => hs) (fun k hk => ?_) fun f hf => ?_
  · rcases hmem k hk with rfl | hk
    · exact .inr ha.1
    · exact .inl ⟨k, hk, rfl, rfl⟩
  · have hf' : FrameOk (add l b.listeners).2 tr f := by
      have hok := h.frames f hf
      cases f with
      | queueEvent s prev p => exact hpass hok
      | inserting item prev => exact hpass hok
      | idleTick s p => exact ⟨hok.1, hpass hok.2⟩
    exact hf'.still (still_of_silent rfl (by simp) hst)

/-- Listeners that are marked leave the list, when no call is open. -/
theorem PassInv.delete (h : PassInv b tr) (hf : b.frames = []) :
    PassInv { b with listeners := deleteMarkedListeners b.listeners } tr := by
  have hq := @QueueInv.quiet b { b with listeners := deleteMarkedListeners b.listeners } tr []
    h.queue rfl rfl rfl rfl h.queue.idle rfl rfl rfl fun s n hn => by cases hn
  rw [List.append_nil] at hq
  refine ⟨hq, h.table.delete, h.once, h.bound, h.raised, h.items, fun s hs l hl =>
    h.waiting s hs l (List.mem_of_mem_filter hl), fun f hfm => ?_⟩
  rw [hf] at hfm
  cases hfm

/-- **An event is put into the queue.** -/
theorem PassInv.insert (h : PassInv b tr) {item : Item} {prev : Option Nat} {frames : List Frame}
    (hf : b.frames = .inserting item prev :: frames)
    (hq : QueueInv { b.insert item prev with frames := frames } (tr ++ [.queued item.raise]))
    (ht : TableInv { b.insert item prev with frames := frames } (tr ++ [.queued item.raise])) :
    PassInv { b.insert item prev with frames := frames } (tr ++ [.queued item.raise]) := by
  have hopen : openOf b.frames = (item.raise, prev) :: openOf frames := congrArg openOf hf
  refine h.silent hq ht rfl (by simp) rfl (Nat.le_refl _) (fun i hi => ?_) (fun s hs => ?_)
    (fun l hl => .inl ⟨l, hl, rfl, rfl⟩) fun g hg => ?_
  · rcases mem_putItem hi with rfl | hi
    · have hok : PassOk b.listeners tr true i.raise ⟨i.evt, none, false, false⟩ :=
        h.frames (.inserting i prev) (hf ▸ List.mem_cons_self)
      exact .inr hok.evt
    · exact .inl hi
  · rw [hopen, List.map_cons]
    rcases hs with hs | hs
    · obtain ⟨x, hx, rfl⟩ := List.mem_map.mp hs
      rcases mem_putItem hx with rfl | hx
      · exact .inr List.mem_cons_self
      · exact .inl (List.mem_map_of_mem hx)
    · exact .inr (List.mem_cons_of_mem _ hs)
  · exact (h.frames g (hf ▸ List.mem_cons_of_mem _ hg)).still
      (still_of_silent rfl (by simp) (by simp [starts]))

/-- **Every step** keeps the invariant of the passes. -/
theorem pass_step (h : PassInv b tr) (hs : Goes b b' ev) : PassInv b' (tr ++ ev) := by
  have hq := queueInv_step h.queue hs
  have ht := table_step h.table hs
  cases hs with
  | send evt => exact h.send evt
  | @visit urgent raise prev p frames l hf hh hc hl =>
      obtain ⟨hok, hdisp⟩ := frameOk_ofPass.mp (h.frames _ (hf ▸ List.mem_cons_self))
      obtain ⟨hok', hcall⟩ := hok.visit h.table hl hc hh
      by_cases hact : (p.visit urgent b.listeners l).2 = true
      · rw [if_pos hact] at hq ht hok' ⊢
        obtain ⟨hi, hnew⟩ := hcall hact
        exact h.call hf hl hq ht hok' hi hnew
      · rw [if_neg hact] at hq ht hok' ⊢
        refine h.frame [_] hf hq ht rfl (by simp) (by simp) fun g hg => ?_
        obtain rfl := List.mem_singleton.mp hg
        refine ⟨by cases urgent <;> rfl, ?_⟩
        rw [List.append_nil] at hok' ⊢
        exact frameOk_ofPass.mpr ⟨hok', hdisp⟩
  | @handled urgent raise prev p frames hf hh =>
      obtain ⟨hok, hdisp⟩ := frameOk_ofPass.mp (h.frames _ (hf ▸ List.mem_cons_self))
      refine h.frame [_] hf hq ht rfl (by simp) (by simp) fun g hg => ?_
      obtain rfl := List.mem_singleton.mp hg
      refine ⟨by cases urgent <;> rfl, ?_⟩
      rw [List.append_nil]
      exact frameOk_ofPass.mpr ⟨hok.resume h.table.ptrs hh, hdisp⟩
  | complete hf hh hc hp =>
      exact h.frame [] hf hq ht rfl (by simp) (by simp [starts]) fun g hg => by cases hg
  | drop hf hh hc hlen =>
      exact h.frame [] hf hq ht rfl (by simp) (by simp [starts]) fun g hg => by cases hg
  | @enter raise prev p frames hf hh hc =>
      refine h.frame [_] hf hq ht rfl (by simp) (by simp) fun g hg => ?_
      obtain rfl := List.mem_singleton.mp hg
      have hok : PassOk b.listeners tr true raise p :=
        h.frames (.queueEvent raise prev p) (hf ▸ List.mem_cons_self)
      refine ⟨rfl, ?_⟩
      rw [List.append_nil]
      exact hok.done hc hh
  | insert hf => exact h.insert hf hq ht
  | passed hf hh hc =>
      exact h.frame [] hf hq ht rfl (by simp) (by simp [starts]) fun g hg => by cases hg
  | @again raise p frames hf hh hc =>
      have hidle := h.queue.idle
      rw [hf] at hidle
      obtain rfl : frames = [] := hidle
      exact h.dispatch [.passed raise] hq ht rfl (by simp)
  | @added l ha hn =>
      have hquiet := @QueueInv.quiet b
        { b with listeners := (add l b.listeners).2, created := l.ptr + 1 } tr [.added l] h.queue
        rfl rfl rfl rfl h.queue.idle rfl rfl rfl fun s n hn => by simp at hn
      have hsend := (h.added ha hn hquiet).send ⟨idMessageBusListener, l.id⟩
      rw [List.append_assoc] at hsend
      exact hsend
  | refused ha hn =>
      exact h.alike hq ht (Nat.le_succ_of_le ha.1) (h.table.refused ha hn).2 rfl (by simp)
        (by simp [starts])
  | removed pattern =>
      exact h.alike hq ht (Nat.le_refl _) (alike_remove pattern _) rfl (by simp) (by simp [starts])
  | busy ptr v =>
      exact h.alike hq ht (Nat.le_refl _) (alike_busy ptr v _) rfl (by simp) (by simp)
  | tick hf => exact (h.delete hf).dispatch [] hq ht rfl (by simp)

/-- **In every run** it holds. -/
theorem pass_run (h : machine.Run b tr) : PassInv b tr := by
  refine h.inv (I := PassInv) ?_ fun b tr a b' ev _ hinv hs => pass_step hinv (step_goes hs)
  have hnone : ∀ key, listening key [] = true ↔
      ∃ l ∈ ([] : List Listener), l.key = key ∧ l.deleting = false := fun key =>
    ⟨fun h => (by cases h), fun ⟨l, hl, _⟩ => absurd hl List.not_mem_nil⟩
  exact ⟨queueInv_run .start, ⟨.nil, .nil, .nil, fun l hl => absurd hl List.not_mem_nil, hnone⟩,
    .nil, fun a ha => absurd ha List.not_mem_nil, fun s e he => absurd he List.not_mem_nil,
    fun i hi => absurd hi List.not_mem_nil, fun s _ l hl => absurd hl List.not_mem_nil,
    fun f hf => absurd hf List.not_mem_nil⟩

/-! ## 6. The end of a pass -/

theorem dispatch_events (b : Bus) (frames : List Frame) :
    ∀ e ∈ (b.dispatch frames).2, ∃ s evt, e = .dispatched s evt := by
  cases hq : b.evtQueue with
  | nil =>
      rw [dispatch_nil hq]
      exact fun e he => absurd he List.not_mem_nil
  | cons item queue =>
      rw [dispatch_cons hq]
      exact fun e he => ⟨_, _, List.mem_singleton.mp he⟩

/-- **The calls that end**, by what they report. -/
theorem ends_cases (hs : Goes b b' ev) (s : Nat) :
    (.completed s ∈ ev → ∃ prev p frames, b.frames = .queueEvent s prev p :: frames ∧
      p.handling = false ∧ p.cursor = none ∧ p.complete = true) ∧
    (∀ n, .dropped s n ∈ ev → ∃ prev p frames, b.frames = .queueEvent s prev p :: frames ∧
      p.handling = false ∧ p.cursor = none) ∧
    (.queued s ∈ ev → ∃ item prev frames, b.frames = .inserting item prev :: frames ∧
      item.raise = s) ∧
    (.passed s ∈ ev → ∃ p frames, b.frames = .idleTick s p :: frames ∧
      p.handling = false ∧ p.cursor = none) := by
  have hdispatch : ∀ (b₁ : Bus) (frames : List Frame) (e : Event),
      (∀ t evt, e ≠ .dispatched t evt) → e ∉ (b₁.dispatch frames).2 := fun b₁ frames e hne he => by
    obtain ⟨t, evt, rfl⟩ := dispatch_events b₁ frames e he
    exact hne t evt rfl
  cases hs with
  | send evt => simp [Bus.queueEvent]
  | visit hf hh hc hl => split <;> simp
  | complete hf hh hc hp =>
      refine ⟨fun h => ?_, by simp, by simp, by simp⟩
      obtain rfl := Event.completed.inj (List.mem_singleton.mp h)
      exact ⟨_, _, _, hf, hh, hc, hp⟩
  | drop hf hh hc hlen =>
      refine ⟨by simp, fun n h => ?_, by simp, by simp⟩
      obtain rfl := (Event.dropped.inj (List.mem_singleton.mp h)).1
      exact ⟨_, _, _, hf, hh, hc⟩
  | insert hf =>
      refine ⟨by simp, by simp, fun h => ?_, by simp⟩
      exact ⟨_, _, _, hf, (Event.queued.inj (List.mem_singleton.mp h)).symm⟩
  | passed hf hh hc =>
      refine ⟨by simp, by simp, by simp, fun h => ?_⟩
      obtain rfl := Event.passed.inj (List.mem_singleton.mp h)
      exact ⟨_, _, hf, hh, hc⟩
  | @again raise p frames hf hh hc =>
      simp only [List.mem_cons, reduceCtorEq, false_or]
      refine ⟨fun h => absurd h (hdispatch b frames _ (by simp)),
        fun n h => absurd h (hdispatch b frames _ (by simp)),
        fun h => absurd h (hdispatch b frames _ (by simp)), fun h => ?_⟩
      obtain rfl := Event.passed.inj (h.resolve_right (hdispatch b frames _ (by simp)))
      exact ⟨_, _, hf, hh, hc⟩
  | tick hf =>
      exact ⟨fun h => absurd h (hdispatch _ _ _ (by simp)),
        fun n h => absurd h (hdispatch _ _ _ (by simp)),
        fun h => absurd h (hdispatch _ _ _ (by simp)),
        fun h => absurd h (hdispatch _ _ _ (by simp))⟩
  | _ => simp

/-- At the end of a pass, all that attend were called, or they are not for it to call. -/
theorem PassOk.ended (h : PassOk ls tr urgent s p) (hc : p.cursor = none) (hh : p.handling = false)
    (hl : l ∈ ls) {e : MicroBitEvent} (he : .raised s e ∈ tr) (hhears : l.hears e = true)
    (ha : attends urgent s l.key tr = true) :
    (l.immediate = urgent → (s, l.ptr) ∈ activatedOf tr) ∧
      (p.complete = true → l.immediate = urgent) := by
  have htodo := @todo_nil ls p hc hh
  rw [h.evt e he] at hhears
  refine ⟨fun hi => (h.served l hl ha hi hhears).resolve_left (by simp [htodo]), fun hp => ?_⟩
  by_contra hi
  have := h.others hp l hl ha hi hhears
  rw [htodo] at this
  cases this

/-- **A pass that ends** has come to all that attend it. -/
theorem PassInv.ends (h : PassInv b tr) (hs : Goes b b' ev) {s : Nat} {e : MicroBitEvent}
    (he : .raised s e ∈ tr) (hl : l ∈ b.listeners) (hhears : l.hears e = true) :
    (.completed s ∈ ev → attends true s l.key tr = true → l.immediate = true) ∧
      (.completed s ∈ ev ∨ (∃ n, .dropped s n ∈ ev) ∨ .queued s ∈ ev → l.immediate = true →
        attends true s l.key tr = true → (s, l.ptr) ∈ activatedOf tr) ∧
      (.passed s ∈ ev → l.immediate = false → attends false s l.key tr = true →
        (s, l.ptr) ∈ activatedOf tr) := by
  obtain ⟨hcompleted, hdropped, hqueued, hpassed⟩ := ends_cases hs s
  refine ⟨fun hev ha => ?_, fun hev hi ha => ?_, fun hev hi ha => ?_⟩
  · obtain ⟨prev, p, frames, hf, hh, hc, hp⟩ := hcompleted hev
    have hok : PassOk b.listeners tr true s p :=
      h.frames (.queueEvent s prev p) (hf ▸ List.mem_cons_self)
    exact (hok.ended hc hh hl he hhears ha).2 hp
  · rcases hev with hev | ⟨n, hev⟩ | hev
    · obtain ⟨prev, p, frames, hf, hh, hc, -⟩ := hcompleted hev
      have hok : PassOk b.listeners tr true s p :=
        h.frames (.queueEvent s prev p) (hf ▸ List.mem_cons_self)
      exact (hok.ended hc hh hl he hhears ha).1 hi
    · obtain ⟨prev, p, frames, hf, hh, hc⟩ := hdropped n hev
      have hok : PassOk b.listeners tr true s p :=
        h.frames (.queueEvent s prev p) (hf ▸ List.mem_cons_self)
      exact (hok.ended hc hh hl he hhears ha).1 hi
    · obtain ⟨item, prev, frames, hf, rfl⟩ := hqueued hev
      have hok : PassOk b.listeners tr true item.raise ⟨item.evt, none, false, false⟩ :=
        h.frames (.inserting item prev) (hf ▸ List.mem_cons_self)
      exact (hok.ended rfl rfl hl he hhears ha).1 hi
  · obtain ⟨p, frames, hf, hh, hc⟩ := hpassed hev
    have hok : FrameOk b.listeners tr (.idleTick s p) := h.frames _ (hf ▸ List.mem_cons_self)
    exact (hok.2.ended hc hh hl he hhears ha).1 hi

end MicrobitAlarm.MessageBus
