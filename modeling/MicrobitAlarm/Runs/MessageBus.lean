/-
  File:      MicrobitAlarm/Runs/MessageBus.lean
  Subject:   RUNS OF THE MESSAGE BUS: what becomes of a raised event.

  An open call of `queueEvent` holds a pointer to the item that was last when it began. What is
  behind that item was raised later, by calls that began within it, so entering the event there
  keeps the queue in the order in which the events were raised.

  * `dispatchedOf`, `completedOf`, `droppedOf`, `openOf` -- where the numbers of raises are;
  * `QueueInv` -- the queue is in order, and so is the stack; every pointer is to the last item
    that was raised before;
  * `queueInv_step`, `queueInv_run`.
-/
import Mathlib.Data.List.Nodup
import MicrobitAlarm.Firmware.MessageBus

namespace MicrobitAlarm.MessageBus

open Trace

/-! ## 1. The numbers of raises -/

def Event.dispatched? : Event → Option Nat
  | .dispatched s _ => some s
  | _ => none

def Event.completed? : Event → Option Nat
  | .completed s => some s
  | _ => none

def Event.dropped? : Event → Option Nat
  | .dropped s _ => some s
  | _ => none

/-- The raise of an open call of `queueEvent`, and the pointer it holds. -/
def Frame.open? : Frame → Option (Nat × Option Nat)
  | .queueEvent s prev _ => some (s, prev)
  | .inserting item prev => some (item.raise, prev)
  | .idleTick _ _ => none

def Event.raised? : Event → Option Nat
  | .raised s _ => some s
  | _ => none

/-- The events raised, in this order. -/
def raisedOf (tr : List Event) : List Nat := tr.filterMap Event.raised?

/-- The events `idleTick` took out of the queue, in this order. -/
def dispatchedOf (tr : List Event) : List Nat := tr.filterMap Event.dispatched?

def completedOf (tr : List Event) : List Nat := tr.filterMap Event.completed?

def droppedOf (tr : List Event) : List Nat := tr.filterMap Event.dropped?

/-- The open calls of `queueEvent`, the innermost one first. -/
def openOf (frames : List Frame) : List (Nat × Option Nat) := frames.filterMap Frame.open?

/-- The numbers of the queued events. -/
def numbers (queue : List Item) : List Nat := queue.map Item.raise

/-! ## 2. Entering an item where it belongs -/

variable {queue : List Item} {item : Item} {s : Nat} {prev : Option Nat}

/-- A queue in order is cut by a number. -/
theorem split_at (h : (numbers queue).Pairwise (· < ·)) (s : Nat) :
    queue = queue.filter (·.raise < s) ++ queue.filter (¬ ·.raise < s) := by
  induction queue with
  | nil => rfl
  | cons x xs ih =>
      obtain ⟨hx, hxs⟩ := List.pairwise_cons.mp h
      by_cases hlt : x.raise < s
      · rw [List.filter_cons_of_pos (by simpa using hlt),
          List.filter_cons_of_neg (by simpa using hlt), List.cons_append, ← ih hxs]
      · have hnone : xs.filter (·.raise < s) = [] := by
          refine List.filter_eq_nil_iff.mpr fun y hy => ?_
          have := hx y.raise (List.mem_map_of_mem hy)
          simp only [decide_eq_true_eq]
          omega
        have hall : xs.filter (¬ ·.raise < s) = xs := by
          refine List.filter_eq_self.mpr fun y hy => ?_
          have := hx y.raise (List.mem_map_of_mem hy)
          simp only [decide_eq_true_eq]
          omega
        rw [List.filter_cons_of_neg (by simpa using hlt),
          List.filter_cons_of_pos (by simpa using hlt), hnone, hall]
        rfl

theorem insertAfter_append {a b : List Item} {x : Item} (h : ∀ y ∈ a, y.raise ≠ x.raise) :
    insertAfter x.raise item (a ++ x :: b) = a ++ x :: item :: b := by
  induction a with
  | nil => simp [insertAfter]
  | cons y ys ih =>
      rw [List.cons_append, insertAfter, if_neg (h y List.mem_cons_self),
        ih fun z hz => h z (List.mem_cons_of_mem _ hz)]
      rfl

theorem nextItem_append {a b : List Item} {x : Item} (h : ∀ y ∈ a, y.raise ≠ x.raise) :
    nextItem (some x.raise) (a ++ x :: b) = b.head? := by
  have hdrop : (a ++ x :: b).dropWhile (·.raise ≠ x.raise) = x :: b := by
    rw [List.dropWhile_append_of_pos (by simpa using h), List.dropWhile_cons_of_neg (by simp)]
  rw [nextItem, hdrop]
  rfl

/-- **The item is put behind all that were raised before it, and before the others.** -/
theorem putItem_spec (h : (numbers queue).Pairwise (· < ·))
    (hprev : prev = ((numbers queue).filter (· < s)).getLast?) (item : Item) :
    putItem item prev queue =
        queue.filter (·.raise < s) ++ item :: queue.filter (¬ ·.raise < s) ∧
      nextItem prev queue = (queue.filter (¬ ·.raise < s)).head? := by
  have hsplit := split_at h s
  have hfilter : (numbers queue).filter (· < s) = (queue.filter (·.raise < s)).map Item.raise :=
    List.filter_map ..
  rw [hfilter, List.getLast?_map] at hprev
  generalize queue.filter (¬ ·.raise < s) = back at hsplit ⊢
  generalize queue.filter (·.raise < s) = front at hsplit hprev ⊢
  subst hsplit
  rcases List.eq_nil_or_concat front with rfl | ⟨ys, x, rfl⟩
  · subst hprev
    exact ⟨rfl, rfl⟩
  · rw [List.concat_eq_append] at h hprev ⊢
    rw [List.getLast?_concat, Option.map_some] at hprev
    subst hprev
    rw [List.append_assoc, List.singleton_append] at h ⊢
    have hne : ∀ y ∈ ys, y.raise ≠ x.raise := fun y hy => by
      rw [numbers, List.map_append] at h
      have := (List.pairwise_append.mp h).2.2 _ (List.mem_map_of_mem hy) x.raise (by simp)
      omega
    rw [putItem, insertAfter_append hne, nextItem_append hne, List.append_assoc]
    exact ⟨rfl, rfl⟩

/-- The same on the numbers: between those that are smaller and those that are larger. -/
theorem numbers_putItem (h : (numbers queue).Pairwise (· < ·)) (hs : item.raise ∉ numbers queue)
    (hprev : prev = ((numbers queue).filter (· < item.raise)).getLast?) :
    ∃ front back, numbers queue = front ++ back ∧
      numbers (putItem item prev queue) = front ++ item.raise :: back ∧
      (∀ x ∈ front, x < item.raise) ∧ (∀ x ∈ back, item.raise < x) ∧
      (nextItem prev queue = none ↔ back = []) := by
  obtain ⟨hput, hnext⟩ := putItem_spec h hprev item
  have hsplit := split_at h item.raise
  refine ⟨numbers (queue.filter (·.raise < item.raise)),
    numbers (queue.filter (¬ ·.raise < item.raise)), ?_, ?_, ?_, ?_, ?_⟩
  · rw [numbers, numbers, numbers, ← List.map_append, ← hsplit]
  · rw [hput, numbers, List.map_append]
    rfl
  · intro x hx
    obtain ⟨y, hy, rfl⟩ := List.mem_map.mp hx
    simpa using List.of_mem_filter hy
  · intro x hx
    obtain ⟨y, hy, rfl⟩ := List.mem_map.mp hx
    have hle : ¬ y.raise < item.raise := by simpa using List.of_mem_filter hy
    have hne : y.raise ≠ item.raise := fun e =>
      hs (e ▸ List.mem_map_of_mem (List.mem_of_mem_filter hy))
    omega
  · rw [hnext, List.head?_eq_none_iff, numbers, List.map_eq_nil_iff]

/-! ## 3. What a step can do -/

/-- The frame of a pass: over the urgent listeners in `queueEvent`, over the others in
    `idleTick`. -/
def Frame.ofPass (urgent : Bool) (raise : Nat) (prev : Option Nat) (p : Pass) : Frame :=
  if urgent then .queueEvent raise prev p else .idleTick raise p

/-- **What a step can do.** -/
inductive Goes (b : Bus) : Bus → List Event → Prop where
  | send (evt : MicroBitEvent) : Goes b (b.queueEvent evt).1 (b.queueEvent evt).2
  | visit {urgent : Bool} {raise : Nat} {prev : Option Nat} {p : Pass} {frames : List Frame}
      {l : Listener} (hf : b.frames = .ofPass urgent raise prev p :: frames)
      (hh : p.handling = false) (hc : p.cursor = some l.ptr) (hl : l ∈ b.listeners) :
      Goes b { b with frames := .ofPass urgent raise prev (p.visit urgent b.listeners l).1 :: frames }
        (if (p.visit urgent b.listeners l).2 then [.activated raise l.ptr] else [])
  | handled {urgent : Bool} {raise : Nat} {prev : Option Nat} {p : Pass} {frames : List Frame}
      (hf : b.frames = .ofPass urgent raise prev p :: frames) (hh : p.handling = true) :
      Goes b { b with frames := .ofPass urgent raise prev (p.resume b.listeners) :: frames } []
  | complete {raise : Nat} {prev : Option Nat} {p : Pass} {frames : List Frame}
      (hf : b.frames = .queueEvent raise prev p :: frames) (hh : p.handling = false)
      (hc : p.cursor = none) (hp : p.complete = true) :
      Goes b { b with frames := frames } [.completed raise]
  | drop {raise : Nat} {prev : Option Nat} {p : Pass} {frames : List Frame}
      (hf : b.frames = .queueEvent raise prev p :: frames) (hh : p.handling = false)
      (hc : p.cursor = none) (hlen : maxQueueDepth ≤ b.queueLength) :
      Goes b { b with frames := frames } [.dropped raise b.queueLength]
  | enter {raise : Nat} {prev : Option Nat} {p : Pass} {frames : List Frame}
      (hf : b.frames = .queueEvent raise prev p :: frames) (hh : p.handling = false)
      (hc : p.cursor = none) :
      Goes b { b with frames := .inserting ⟨raise, p.evt⟩ prev :: frames } []
  | insert {item : Item} {prev : Option Nat} {frames : List Frame}
      (hf : b.frames = .inserting item prev :: frames) :
      Goes b { b.insert item prev with frames := frames } [.queued item.raise]
  | passed {raise : Nat} {p : Pass} {frames : List Frame}
      (hf : b.frames = .idleTick raise p :: frames) (hh : p.handling = false)
      (hc : p.cursor = none) :
      Goes b { b with frames := frames } [.passed raise]
  | again {raise : Nat} {p : Pass} {frames : List Frame}
      (hf : b.frames = .idleTick raise p :: frames) (hh : p.handling = false)
      (hc : p.cursor = none) :
      Goes b (b.dispatch frames).1 (.passed raise :: (b.dispatch frames).2)
  | added {l : Listener} (ha : Addable l b) (hn : (add l b.listeners).1 = true) :
      Goes b ({ b with listeners := (add l b.listeners).2, created := l.ptr + 1 }.queueEvent
          ⟨idMessageBusListener, l.id⟩).1
        [.added l, .raised b.raises ⟨idMessageBusListener, l.id⟩]
  | refused {l : Listener} (ha : Addable l b) (hn : (add l b.listeners).1 = false) :
      Goes b { b with listeners := (add l b.listeners).2, created := l.ptr + 1 } [.refused l]
  | removed (pattern : Listener) :
      Goes b { b with listeners := (remove pattern b.listeners).2 } [.removed pattern]
  | busy (ptr : Nat) (v : Bool) :
      Goes b { b with listeners := b.listeners.map fun l =>
        if l.ptr = ptr then { l with busy := v } else l } []
  | tick (hf : b.frames = []) :
      Goes b ({ b with listeners := deleteMarkedListeners b.listeners }.dispatch []).1
        ({ b with listeners := deleteMarkedListeners b.listeners }.dispatch []).2

variable {b b' : Bus} {a : Action} {tr ev : List Event}

theorem turn_goes (urgent : Bool) {raise ptr : Nat} {p : Pass} {frames : List Frame}
    (hf : b.frames = .ofPass urgent raise prev p :: frames) (hh : p.handling = false)
    (hc : p.cursor = some ptr)
    (h : b.turn p urgent raise (.ofPass urgent raise prev) frames ptr = some (b', ev)) :
    Goes b b' ev := by
  unfold Bus.turn at h
  split at h
  · cases h
  · rename_i l hl
    have hptr : l.ptr = ptr := by simpa using List.find?_some hl
    subst hptr
    cases h
    exact .visit hf hh hc (List.mem_of_find?_eq_some hl)

theorem advance_goes {idle : Bool} (h : b.advance idle = some (b', ev)) : Goes b b' ev := by
  unfold Bus.advance at h
  split at h
  · cases h
  · rename_i raise prev p frames hf
    split at h
    · cases h
    · rename_i hh
      have hh := Bool.eq_false_iff.mpr hh
      split at h
      · rename_i ptr hc
        exact turn_goes true hf hh hc h
      · rename_i hc
        split at h
        · rename_i hp
          cases h
          exact .complete hf hh hc hp
        · split at h
          · rename_i hlen
            cases h
            exact .drop hf hh hc hlen
          · cases h
            exact .enter hf hh hc
  · rename_i item prev frames hf
    cases h
    exact .insert hf
  · rename_i raise p frames hf
    split at h
    · cases h
    · rename_i hh
      have hh := Bool.eq_false_iff.mpr hh
      split at h
      · rename_i ptr hc
        exact @turn_goes none b b' ev false raise ptr p frames hf hh hc h
      · rename_i hc
        split at h
        · cases h
          exact .again hf hh hc
        · cases h
          exact .passed hf hh hc

/-- **Every step is one of these.** -/
theorem step_goes (h : step b a = some (b', ev)) : Goes b b' ev := by
  cases a with
  | send evt =>
      cases h
      exact .send evt
  | advance idle => exact advance_goes h
  | handled =>
      obtain ⟨b₁, hb, heq⟩ := Option.map_eq_some_iff.mp h
      cases heq
      unfold Bus.handled at hb
      split at hb
      · rename_i raise prev p frames hf
        simp only [Option.ite_none_right_eq_some, Option.some.injEq] at hb
        obtain ⟨hh, rfl⟩ := hb
        exact @Goes.handled b true raise prev p frames hf hh
      · rename_i raise p frames hf
        simp only [Option.ite_none_right_eq_some, Option.some.injEq] at hb
        obtain ⟨hh, rfl⟩ := hb
        exact @Goes.handled b false raise none p frames hf hh
      · cases hb
  | add l =>
      simp only [step, Option.ite_none_right_eq_some] at h
      obtain ⟨⟨-, ha⟩, h⟩ := h
      cases hn : (add l b.listeners).1 with
      | true =>
          rw [if_pos hn] at h
          cases h
          exact .added ha hn
      | false =>
          rw [if_neg (by simp [hn])] at h
          cases h
          exact .refused ha hn
  | remove pattern =>
      simp only [step, Option.ite_none_right_eq_some, Option.some.injEq, Prod.mk.injEq] at h
      obtain ⟨-, rfl, rfl⟩ := h
      exact .removed pattern
  | busy ptr v =>
      cases h
      exact .busy ptr v
  | idleTick =>
      simp only [step, Option.ite_none_right_eq_some, Option.some.injEq] at h
      obtain ⟨hf, h⟩ := h
      have hb : b' = _ := (congrArg Prod.fst h).symm
      have hev : ev = _ := (congrArg Prod.snd h).symm
      rw [hb, hev]
      exact .tick hf

/-! ## 4. The queue is in order -/

/-- `idleTick` is never called from within another call. -/
def IdleLast : List Frame → Prop
  | [] => True
  | .idleTick _ _ :: frames => frames = []
  | _ :: frames => IdleLast frames

/-- **The invariant of the queue.** -/
structure QueueInv (b : Bus) (tr : List Event) : Prop where
  order : (dispatchedOf tr ++ numbers b.evtQueue).Pairwise (· < ·)
  tail : b.evtQueueTail = (numbers b.evtQueue).getLast?
  length : b.queueLength = b.evtQueue.length
  stack : (openOf b.frames).Pairwise (·.1 > ·.1)
  behind : ∀ f ∈ openOf b.frames, f.2 = ((numbers b.evtQueue).filter (· < f.1)).getLast?
  later : ∀ f ∈ openOf b.frames, ∀ d ∈ dispatchedOf tr, d < f.1
  idle : IdleLast b.frames
  account : ∀ s, (List.range b.raises).count s = (dispatchedOf tr).count s +
    (numbers b.evtQueue).count s + ((openOf b.frames).map Prod.fst).count s +
    (completedOf tr).count s + (droppedOf tr).count s
  full : ∀ s n, .dropped s n ∈ tr → maxQueueDepth ≤ n

theorem dispatchedOf_append : dispatchedOf (tr ++ ev) = dispatchedOf tr ++ dispatchedOf ev :=
  List.filterMap_append ..

theorem completedOf_append : completedOf (tr ++ ev) = completedOf tr ++ completedOf ev :=
  List.filterMap_append ..

theorem droppedOf_append : droppedOf (tr ++ ev) = droppedOf tr ++ droppedOf ev :=
  List.filterMap_append ..

/-- The numbers in use are below the number of calls. -/
theorem QueueInv.lt (h : QueueInv b tr) {s : Nat} (hs : s ∈ numbers b.evtQueue ∨
    s ∈ (openOf b.frames).map Prod.fst ∨ s ∈ dispatchedOf tr) : s < b.raises := by
  have hcount := h.account s
  rcases hs with hs | hs | hs
  all_goals
    have := List.count_pos_iff.mpr hs
    exact List.mem_range.mp (List.count_pos_iff.mp (by omega))

/-- The number of an open call is not in the queue. -/
theorem QueueInv.notMem (h : QueueInv b tr) {s : Nat} (hs : s ∈ (openOf b.frames).map Prod.fst) :
    s ∉ numbers b.evtQueue := by
  intro hq
  have hcount := h.account s
  have hone := List.nodup_iff_count_le_one.mp (@List.nodup_range b.raises) s
  have := List.count_pos_iff.mpr hs
  have := List.count_pos_iff.mpr hq
  omega

/-- A step that leaves the queue and the open calls of `queueEvent`, and reports neither end. -/
theorem QueueInv.quiet (h : QueueInv b tr) (hq : b'.evtQueue = b.evtQueue)
    (ht : b'.evtQueueTail = b.evtQueueTail) (hl : b'.queueLength = b.queueLength)
    (ho : openOf b'.frames = openOf b.frames) (hi : IdleLast b'.frames) (hr : b'.raises = b.raises)
    (hd : dispatchedOf ev = []) (hc : completedOf ev = [])
    (hdr : ∀ s n, .dropped s n ∉ ev) : QueueInv b' (tr ++ ev) := by
  have hdr' : droppedOf ev = [] := by
    refine List.filterMap_eq_nil_iff.mpr fun e he => ?_
    cases e with
    | dropped s n => exact absurd he (hdr s n)
    | _ => rfl
  refine ⟨?_, ?_, ?_, ?_, ?_, ?_, hi, ?_, ?_⟩
  · rw [dispatchedOf_append, hd, List.append_nil, hq]
    exact h.order
  · rw [ht, hq]
    exact h.tail
  · rw [hl, hq]
    exact h.length
  · rw [ho]
    exact h.stack
  · rw [ho, hq]
    exact h.behind
  · rw [ho, dispatchedOf_append, hd, List.append_nil]
    exact h.later
  · intro s
    rw [ho, hq, hr, dispatchedOf_append, completedOf_append, droppedOf_append, hd, hc, hdr']
    simp only [List.append_nil]
    exact h.account s
  · intro s n hn
    rcases List.mem_append.mp hn with hn | hn
    · exact h.full s n hn
    · exact absurd hn (hdr s n)

/-- **A call begins**: it holds the last item of the queue. -/
theorem QueueInv.queueEvent (h : QueueInv b tr) (evt : MicroBitEvent) :
    QueueInv (b.queueEvent evt).1 (tr ++ (b.queueEvent evt).2) := by
  have hd : dispatchedOf (tr ++ (b.queueEvent evt).2) = dispatchedOf tr := by
    rw [dispatchedOf_append]
    exact List.append_nil _
  have hopen : openOf (b.queueEvent evt).1.frames =
      (b.raises, b.evtQueueTail) :: openOf b.frames := rfl
  have hall : (numbers b.evtQueue).filter (· < b.raises) = numbers b.evtQueue :=
    List.filter_eq_self.mpr fun s hs => by simpa using h.lt (.inl hs)
  refine ⟨?_, h.tail, h.length, ?_, ?_, ?_, h.idle, ?_, ?_⟩
  · rw [hd]
    exact h.order
  · rw [hopen]
    refine List.pairwise_cons.mpr ⟨fun f hf => ?_, h.stack⟩
    exact h.lt (.inr (.inl (List.mem_map_of_mem hf)))
  · rw [hopen]
    intro f hf
    rcases List.mem_cons.mp hf with rfl | hf
    · exact h.tail.trans (congrArg List.getLast? hall.symm)
    · exact h.behind f hf
  · rw [hopen, hd]
    intro f hf d hd
    rcases List.mem_cons.mp hf with rfl | hf
    · exact h.lt (.inr (.inr hd))
    · exact h.later f hf d hd
  · intro s
    have hcount := h.account s
    have hraises : (b.queueEvent evt).1.raises = b.raises + 1 := rfl
    have hqueue : (b.queueEvent evt).1.evtQueue = b.evtQueue := rfl
    have hc : completedOf (b.queueEvent evt).2 = [] := rfl
    have hdr : droppedOf (b.queueEvent evt).2 = [] := rfl
    rw [hopen, hd, hraises, hqueue, List.range_succ, List.count_append, completedOf_append,
      droppedOf_append, hc, hdr, List.map_cons, hcount, List.append_nil, List.append_nil]
    simp only [List.count_cons, List.count_nil]
    omega
  · intro s n hn
    exact h.full s n (by simpa [Bus.queueEvent] using hn)

/-- **A call ends without entering its event.** -/
theorem QueueInv.close (h : QueueInv b tr) {f : Nat × Option Nat} {frames : List Frame}
    (hopen : openOf b.frames = f :: openOf frames) (hi : IdleLast frames) {e : Event}
    (he : e = .completed f.1 ∨ e = .dropped f.1 b.queueLength ∧ maxQueueDepth ≤ b.queueLength) :
    QueueInv { b with frames := frames } (tr ++ [e]) := by
  have hd : dispatchedOf (tr ++ [e]) = dispatchedOf tr := by
    rw [dispatchedOf_append]
    rcases he with rfl | ⟨rfl, -⟩ <;> exact List.append_nil _
  have hstack := h.stack
  rw [hopen] at hstack
  refine ⟨?_, h.tail, h.length, (List.pairwise_cons.mp hstack).2, fun g hg => ?_, fun g hg => ?_,
    hi, fun s => ?_, fun s n hn => ?_⟩
  · rw [hd]
    exact h.order
  · exact h.behind g (hopen ▸ List.mem_cons_of_mem _ hg)
  · rw [hd]
    exact h.later g (hopen ▸ List.mem_cons_of_mem _ hg)
  · have hcount := h.account s
    rw [hopen, List.map_cons, List.count_cons] at hcount
    rw [hd, completedOf_append, droppedOf_append, List.count_append, List.count_append]
    have hone : (completedOf [e]).count s + (droppedOf [e]).count s = if f.1 == s then 1 else 0 := by
      rcases he with rfl | ⟨rfl, -⟩
      · have hc : completedOf [.completed f.1] = [f.1] := rfl
        have hdr : droppedOf [.completed f.1] = [] := rfl
        rw [hc, hdr, List.count_singleton, List.count_nil, Nat.add_zero]
      · have hc : completedOf [.dropped f.1 b.queueLength] = [] := rfl
        have hdr : droppedOf [.dropped f.1 b.queueLength] = [f.1] := rfl
        rw [hc, hdr, List.count_singleton, List.count_nil, Nat.zero_add]
    simp only at hcount ⊢
    omega
  · rcases List.mem_append.mp hn with hn | hn
    · exact h.full s n hn
    · rcases he with rfl | ⟨rfl, hlen⟩
      · simp at hn
      · simp only [List.mem_singleton, Event.dropped.injEq] at hn
        exact hn.2 ▸ hlen

/-- **A call enters its event**, behind the item it holds. -/
theorem QueueInv.insert (h : QueueInv b tr) {item : Item} {frames : List Frame}
    (hf : b.frames = .inserting item prev :: frames) :
    QueueInv { b.insert item prev with frames := frames } (tr ++ [.queued item.raise]) := by
  have hopen : openOf b.frames = (item.raise, prev) :: openOf frames := by
    rw [hf]
    rfl
  have hi : IdleLast frames := by
    have := h.idle
    rwa [hf] at this
  have hd : dispatchedOf (tr ++ [.queued item.raise]) = dispatchedOf tr := by
    rw [dispatchedOf_append]
    exact List.append_nil _
  have hmem : (item.raise, prev) ∈ openOf b.frames := hopen ▸ List.mem_cons_self
  obtain ⟨front, back, hold, hqueue, hfront, hback, hnext⟩ := numbers_putItem
    (List.pairwise_append.mp h.order).2.1 (h.notMem (List.mem_map_of_mem hmem)) (h.behind _ hmem)
  have hstack := h.stack
  rw [hopen] at hstack
  obtain ⟨hbelow, hstack⟩ := List.pairwise_cons.mp hstack
  simp only at hbelow
  have horder := h.order
  have htail := h.tail
  rw [hold] at horder htail
  refine ⟨?_, ?_, ?_, hstack, fun g hg => ?_, fun g hg => ?_, hi, fun s => ?_, fun s n hn => ?_⟩
  · rw [hd]
    simp only [Bus.insert, hqueue]
    have hlater := h.later _ hmem
    simp only [List.pairwise_append, List.pairwise_cons, List.mem_append, List.mem_cons] at horder ⊢
    obtain ⟨h1, ⟨h2, h3, h4⟩, h5⟩ := horder
    refine ⟨h1, ⟨h2, ⟨hback, h3⟩, ?_⟩, ?_⟩
    · rintro x hx y (rfl | hy)
      · exact hfront x hx
      · exact h4 x hx y hy
    · rintro x hx y (hy | rfl | hy)
      · exact h5 x hx y (.inl hy)
      · exact hlater x hx
      · exact h5 x hx y (.inr hy)
  · simp only [Bus.insert, hqueue]
    rcases List.eq_nil_or_concat back with rfl | ⟨ys, x, rfl⟩
    · rw [if_pos (hnext.mpr rfl), List.getLast?_concat]
    · rw [if_neg fun e => by simpa using hnext.mp e, htail, List.concat_eq_append,
        ← List.append_assoc, List.getLast?_concat, ← List.cons_append, ← List.append_assoc,
        List.getLast?_concat]
  · have hlen := congrArg List.length hqueue
    have hlen' := congrArg List.length hold
    simp only [numbers, List.length_map, List.length_append, List.length_cons] at hlen hlen'
    simp only [Bus.insert]
    rw [h.length]
    omega
  · have hlt := hbelow g hg
    have hback' : back.filter (· < g.1) = [] :=
      List.filter_eq_nil_iff.mpr fun x hx => by
        have := hback x hx
        simp only [decide_eq_true_eq]
        omega
    rw [h.behind g (hopen ▸ List.mem_cons_of_mem _ hg), hold]
    simp only [Bus.insert, hqueue]
    rw [List.filter_append, List.filter_append, List.filter_cons_of_neg (by simp; omega)]
  · rw [hd]
    exact h.later g (hopen ▸ List.mem_cons_of_mem _ hg)
  · have hcount := h.account s
    have hc : completedOf [.queued item.raise] = [] := rfl
    have hdr : droppedOf [.queued item.raise] = [] := rfl
    rw [hopen, hold, List.map_cons] at hcount
    rw [hd, completedOf_append, droppedOf_append, hc, hdr, List.append_nil, List.append_nil]
    simp only [Bus.insert, hqueue, List.count_append, List.count_cons] at hcount ⊢
    omega
  · rcases List.mem_append.mp hn with hn | hn
    · exact h.full s n hn
    · simp at hn

theorem dispatch_nil (hq : b.evtQueue = []) (frames : List Frame) :
    b.dispatch frames = ({ b with frames := frames }, []) := by
  simp only [Bus.dispatch, Bus.dequeueEvent, hq]

theorem dispatch_cons (hq : b.evtQueue = item :: queue) (frames : List Frame) :
    b.dispatch frames = ({ b with
        evtQueue := queue, evtQueueTail := if queue = [] then none else b.evtQueueTail,
        queueLength := b.queueLength - 1,
        frames := .idleTick item.raise (.begin item.evt b.listeners) :: frames },
      [.dispatched item.raise item.evt]) := by
  simp only [Bus.dispatch, Bus.dequeueEvent, hq]

/-- **The next event is taken out**, when no call of `queueEvent` is open. -/
theorem QueueInv.dispatch (h : QueueInv b tr) (hopen : openOf b.frames = []) (pre : List Event)
    (hd : dispatchedOf pre = []) (hc : completedOf pre = []) (hdr : ∀ s n, .dropped s n ∉ pre) :
    QueueInv (b.dispatch []).1 (tr ++ (pre ++ (b.dispatch []).2)) := by
  cases hq : b.evtQueue with
  | nil =>
      rw [dispatch_nil hq, List.append_nil]
      exact h.quiet rfl rfl rfl hopen.symm trivial rfl hd hc hdr
  | cons item queue =>
      have hpre := @QueueInv.quiet b b _ _ h rfl rfl rfl rfl h.idle rfl hd hc hdr
      rw [dispatch_cons hq, ← List.append_assoc]
      generalize tr ++ pre = tr' at hpre ⊢
      have hdisp : dispatchedOf (tr' ++ [.dispatched item.raise item.evt]) =
          dispatchedOf tr' ++ [item.raise] := dispatchedOf_append
      have horder := hpre.order
      have htail := hpre.tail
      have hlen := hpre.length
      rw [hq] at horder htail hlen
      refine ⟨?_, ?_, ?_, .nil, fun g hg => absurd hg List.not_mem_nil,
        fun g hg => absurd hg List.not_mem_nil, rfl, fun s => ?_, fun s n hn => ?_⟩
      · rw [hdisp, List.append_assoc]
        exact horder
      · simp only
        rw [htail]
        cases queue with
        | nil => rfl
        | cons x xs => rfl
      · simp only
        rw [hlen]
        rfl
      · have hcount := hpre.account s
        have hc' : completedOf [.dispatched item.raise item.evt] = [] := rfl
        have hdr' : droppedOf [.dispatched item.raise item.evt] = [] := rfl
        have hopen' : openOf [.idleTick item.raise (.begin item.evt b.listeners)] = [] := rfl
        rw [hopen, hq] at hcount
        rw [hdisp, completedOf_append, droppedOf_append, hc', hdr', List.append_nil,
          List.append_nil]
        simp only [hopen', numbers, List.map_cons, List.count_append, List.count_cons,
          List.map_nil, List.count_nil] at hcount ⊢
        omega
      · rcases List.mem_append.mp hn with hn | hn
        · exact hpre.full s n hn
        · simp at hn

/-- What an open pass does, does not concern the queue. -/
theorem openOf_ofPass (urgent : Bool) (raise : Nat) (p p' : Pass) (frames : List Frame) :
    openOf (.ofPass urgent raise prev p' :: frames) = openOf (.ofPass urgent raise prev p :: frames) := by
  cases urgent <;> rfl

theorem idleLast_ofPass {urgent : Bool} {raise : Nat} {p p' : Pass} {frames : List Frame}
    (h : IdleLast (.ofPass urgent raise prev p :: frames)) :
    IdleLast (.ofPass urgent raise prev p' :: frames) := by
  cases urgent <;> exact h

/-- **Every step** keeps the queue in order. -/
theorem queueInv_step (h : QueueInv b tr) (hs : Goes b b' ev) : QueueInv b' (tr ++ ev) := by
  have hidle := h.idle
  cases hs with
  | send evt => exact h.queueEvent evt
  | visit hf hh hc hl =>
      rw [hf] at hidle
      refine h.quiet rfl rfl rfl ?_ (idleLast_ofPass hidle) rfl ?_ ?_ fun s n hn => ?_
      · rw [hf]
        exact openOf_ofPass ..
      · split <;> rfl
      · split <;> rfl
      · split at hn <;> simp at hn
  | handled hf hh =>
      rw [hf] at hidle
      refine h.quiet rfl rfl rfl ?_ (idleLast_ofPass hidle) rfl rfl rfl fun s n hn => ?_
      · rw [hf]
        exact openOf_ofPass ..
      · cases hn
  | complete hf hh hc hp =>
      rw [hf] at hidle
      exact h.close (congrArg openOf hf) hidle (.inl rfl)
  | drop hf hh hc hlen =>
      rw [hf] at hidle
      exact h.close (congrArg openOf hf) hidle (.inr ⟨rfl, hlen⟩)
  | enter hf hh hc =>
      rw [hf] at hidle
      refine h.quiet rfl rfl rfl ?_ hidle rfl rfl rfl fun s n hn => ?_
      · rw [hf]
        rfl
      · cases hn
  | insert hf => exact h.insert hf
  | passed hf hh hc =>
      rw [hf] at hidle
      obtain rfl : _ = [] := hidle
      exact h.quiet rfl rfl rfl (congrArg openOf hf).symm trivial rfl rfl rfl
        fun s n hn => by simp at hn
  | again hf hh hc =>
      rw [hf] at hidle
      obtain rfl : _ = [] := hidle
      exact h.dispatch (congrArg openOf hf) [.passed _] rfl rfl fun s n hn => by simp at hn
  | @added l ha hn =>
      have hquiet := @QueueInv.quiet b
        { b with listeners := (add l b.listeners).2, created := l.ptr + 1 } tr [.added l] h
        rfl rfl rfl rfl hidle rfl rfl rfl fun s n hn => by simp at hn
      have hsend := hquiet.queueEvent ⟨idMessageBusListener, l.id⟩
      rw [List.append_assoc] at hsend
      exact hsend
  | refused ha hn =>
      exact h.quiet rfl rfl rfl rfl hidle rfl rfl rfl fun s n hn => by simp at hn
  | removed pattern =>
      exact h.quiet rfl rfl rfl rfl hidle rfl rfl rfl fun s n hn => by simp at hn
  | busy ptr v => exact h.quiet rfl rfl rfl rfl hidle rfl rfl rfl fun s n hn => by cases hn
  | tick hf =>
      have hquiet := @QueueInv.quiet b
        { b with listeners := deleteMarkedListeners b.listeners } tr [] h
        rfl rfl rfl rfl hidle rfl rfl rfl fun s n hn => by cases hn
      rw [List.append_nil] at hquiet
      exact hquiet.dispatch (congrArg openOf hf) [] rfl rfl fun s n hn => by cases hn

/-- **In every run** it is. -/
theorem queueInv_run (h : machine.Run b tr) : QueueInv b tr := by
  refine h.inv (I := QueueInv) ?_ fun b tr a b' ev _ hinv hs => queueInv_step hinv (step_goes hs)
  exact ⟨.nil, rfl, rfl, .nil, fun f hf => absurd hf List.not_mem_nil,
    fun f hf => absurd hf List.not_mem_nil, trivial, fun _ => rfl,
    fun _ _ h => absurd h List.not_mem_nil⟩

theorem dispatch_raises (b : Bus) (frames : List Frame) :
    raisedOf (b.dispatch frames).2 = [] ∧ (b.dispatch frames).1.raises = b.raises := by
  cases hq : b.evtQueue with
  | nil =>
      rw [dispatch_nil hq]
      exact ⟨rfl, rfl⟩
  | cons item queue =>
      rw [dispatch_cons hq]
      exact ⟨rfl, rfl⟩

theorem raised_step (h : raisedOf tr = List.range b.raises) (hs : Goes b b' ev) :
    raisedOf (tr ++ ev) = List.range b'.raises := by
  have hsplit : raisedOf (tr ++ ev) = List.range b.raises ++ raisedOf ev := by
    rw [← h]
    exact List.filterMap_append ..
  rw [hsplit]
  cases hs with
  | send evt => exact List.range_succ.symm
  | added ha hn => exact List.range_succ.symm
  | visit hf hh hc hl => split <;> exact List.append_nil _
  | @again raise p frames hf hh hc =>
      obtain ⟨h1, h2⟩ := dispatch_raises b frames
      rw [h2]
      exact (congrArg (List.range b.raises ++ ·) h1).trans (List.append_nil _)
  | tick hf =>
      obtain ⟨h1, h2⟩ :=
        dispatch_raises { b with listeners := deleteMarkedListeners b.listeners } []
      rw [h1, h2, List.append_nil]
  | _ => exact List.append_nil _

/-- Every event is raised under the next number. -/
theorem raised_run (h : machine.Run b tr) : raisedOf tr = List.range b.raises :=
  h.inv (I := fun b tr => raisedOf tr = List.range b.raises) rfl
    fun _ _ _ _ _ _ hinv hs => raised_step hinv (step_goes hs)

end MicrobitAlarm.MessageBus
