/-
  File:      MicrobitAlarm/Runs/Callback.lean
  Subject:   RUNS OF A LISTENER: who is inside, and what becomes of a delivery.

  The event a fiber has taken stands in the listener while the fiber waits for its turn, and
  `process` writes the next event over it. So a delivery is handled as the last one that was written
  over it.

  * `handledAs` -- what the handler is called with for an accepted event;
  * `Shape`, `Goes` -- who is inside, and what one step does then;
  * `Account`, `Deliveries` -- what became of the accepted events, and of the others;
  * `account_run`, `deliveries_run`.
-/
import MicrobitAlarm.Firmware.Callback

namespace MicrobitAlarm.Callback

open Trace MessageBus

variable {ε : Type} {l l' : Listener ε} {tr ev : List (Event ε)} {d t n : Delivery ε}

/-! ## 1. The history -/

def Event.accepted? : Event ε → Option (Delivery ε)
  | .accepted d => some d
  | _ => none

def Event.called? : Event ε → Option (Delivery ε)
  | .called d => some d
  | _ => none

/-- What stands in the listener instead of a delivery. -/
def Event.instead? (d : Delivery ε) : Event ε → Option (Delivery ε)
  | .overwritten t n => if t.number = d.number then some n else none
  | _ => none

/-- The deliveries the listener accepted, in this order. -/
def acceptedOf (tr : List (Event ε)) : List (Delivery ε) := tr.filterMap Event.accepted?

/-- What the handler was called with, in this order. -/
def calledOf (tr : List (Event ε)) : List (Delivery ε) := tr.filterMap Event.called?

/-- **What the handler is called with for a delivery**: the delivery, or the last one that was
    written over it. -/
def handledAs (tr : List (Event ε)) (d : Delivery ε) : Delivery ε :=
  ((tr.filterMap (Event.instead? d)).getLast?).getD d

/-- The deliveries a step writes `new` over. -/
def overwrites (l : Listener ε) (new : Delivery ε) : List (Event ε) :=
  (takingOf l.inside).map (.overwritten · new)

@[simp] theorem acceptedOf_append (tr ev : List (Event ε)) :
    acceptedOf (tr ++ ev) = acceptedOf tr ++ acceptedOf ev := List.filterMap_append ..

@[simp] theorem calledOf_append (tr ev : List (Event ε)) :
    calledOf (tr ++ ev) = calledOf tr ++ calledOf ev := List.filterMap_append ..

@[simp] theorem acceptedOf_overwrites (l : Listener ε) (new : Delivery ε) :
    acceptedOf (overwrites l new) = [] := by
  refine List.filterMap_eq_nil_iff.mpr fun e he => ?_
  obtain ⟨t, _, rfl⟩ := List.mem_map.mp he
  rfl

@[simp] theorem calledOf_overwrites (l : Listener ε) (new : Delivery ε) :
    calledOf (overwrites l new) = [] := by
  refine List.filterMap_eq_nil_iff.mpr fun e he => ?_
  obtain ⟨t, _, rfl⟩ := List.mem_map.mp he
  rfl

theorem mem_overwrites {new : Delivery ε} (h : .overwritten t n ∈ overwrites l new) :
    t ∈ takingOf l.inside ∧ n = new := by
  obtain ⟨t', ht, he⟩ := List.mem_map.mp h
  cases he
  exact ⟨ht, rfl⟩

/-- Only what is written over a delivery changes what it is handled as. -/
theorem handledAs_append (h : ∀ t n, .overwritten t n ∈ ev → t.number ≠ d.number) :
    handledAs (tr ++ ev) d = handledAs tr d := by
  have hnone : ev.filterMap (Event.instead? d) = [] := by
    refine List.filterMap_eq_nil_iff.mpr fun e he => ?_
    cases e with
    | overwritten t n => exact if_neg (h t n he)
    | _ => rfl
  rw [handledAs, handledAs, List.filterMap_append, hnone, List.append_nil]

theorem handledAs_snoc_overwritten (tr : List (Event ε)) (t n : Delivery ε) :
    handledAs (tr ++ [.overwritten t n]) t = n := by
  simp [handledAs, Event.instead?]

theorem handledAs_of_not_overwritten (h : ∀ t n, .overwritten t n ∈ tr → t.number ≠ d.number) :
    handledAs tr d = d := by
  rw [← List.nil_append tr, handledAs_append h]
  rfl

/-! ## 2. Who is inside -/

/-- The listener lets one fiber in at a time. -/
def Listener.guarded (l : Listener ε) : Prop := l.queueIfBusy = true ∨ l.dropIfBusy = true

/-- **The flag `MESSAGE_BUS_LISTENER_BUSY` and the fibers inside.** -/
structure Shape (l : Listener ε) : Prop where
  alone : l.guarded → (l.inside = [] ∧ l.busy = false) ∨ ∃ st, l.inside = [st] ∧ l.busy = true
  empty : l.inside = [] → l.evtQueue = []
  plain : l.queueIfBusy = false → l.evtQueue = [] ∧ takingOf l.inside = []

/-- **What one step does** to a listener of this shape. -/
inductive Goes (l : Listener ε) : Listener ε → List (Event ε) → Prop where
  | entered (evt : ε) (htaking : takingOf l.inside = []) (hqueue : l.evtQueue = [])
      (hin : l.guarded → l.inside = []) :
      Goes l { l.write evt with busy := true, inside := l.inside ++ [.handling] }
        [.accepted ⟨l.deliveries, evt⟩, .called ⟨l.deliveries, evt⟩]
  | dropped (evt : ε) (hdrop : l.dropIfBusy = true) (hbusy : l.inside ≠ []) :
      Goes l (l.write evt)
        (overwrites l ⟨l.deliveries, evt⟩ ++ [.dropped ⟨l.deliveries, evt⟩])
  | queued (evt : ε) (hq : l.queueIfBusy = true) (hbusy : l.inside ≠ [])
      (hroom : l.evtQueue.length < maxQueueDepth) :
      Goes l { l.write evt with evtQueue := l.evtQueue ++ [⟨l.deliveries, evt⟩] }
        (overwrites l ⟨l.deliveries, evt⟩ ++ [.accepted ⟨l.deliveries, evt⟩])
  | overflowed (evt : ε) (hq : l.queueIfBusy = true) (hfull : maxQueueDepth ≤ l.evtQueue.length) :
      Goes l (l.write evt)
        (overwrites l ⟨l.deliveries, evt⟩ ++
          [.overflowed ⟨l.deliveries, evt⟩ l.evtQueue.length])
  | took (item : Delivery ε) (q : List (Delivery ε)) (hq : l.queueIfBusy = true)
      (hin : l.inside = [.handling]) (hqueue : l.evtQueue = item :: q) :
      Goes l { l with evt := some item, evtQueue := q, inside := [.taking item] } []
  | left (i : Nat) (hi : l.inside[i]? = some .handling) (hqueue : l.evtQueue = []) :
      Goes l { l with busy := false, inside := l.inside.eraseIdx i } []
  | called (t : Delivery ε) (hq : l.queueIfBusy = true) (hin : l.inside = [.taking t]) :
      Goes l { l with inside := [.handling] } (l.evt.toList.map .called)

theorem queue_spec (d : Delivery ε) (q : List (Delivery ε)) :
    q.length < maxQueueDepth ∧ queue d q = (true, q ++ [d]) ∨
      maxQueueDepth ≤ q.length ∧ queue d q = (false, q) := by
  cases q with
  | nil => exact .inl ⟨Nat.zero_lt_succ 9, rfl⟩
  | cons p q =>
      by_cases hlen : (p :: q).length < maxQueueDepth
      · exact .inl ⟨hlen, if_pos hlen⟩
      · exact .inr ⟨Nat.le_of_not_lt hlen, if_neg hlen⟩

theorem eq_of_getElem?_singleton {α : Type} {a b : α} {i : Nat} (h : [a][i]? = some b) :
    i = 0 ∧ a = b := by
  obtain ⟨hi, hb⟩ := List.getElem?_eq_some_iff.mp h
  have hi : i = 0 := by simpa using hi
  subst hi
  exact ⟨rfl, hb⟩

/-- A fiber that leaves has not taken anything. -/
theorem takingOf_eraseIdx {inside : List (Stage ε)} {i : Nat}
    (hi : inside[i]? = some .handling) : takingOf (inside.eraseIdx i) = takingOf inside := by
  induction inside generalizing i with
  | nil => rfl
  | cons st inside ih =>
      cases i with
      | zero =>
          cases hi
          rfl
      | succ i =>
          cases st with
          | handling => exact ih hi
          | taking t => exact congrArg (t :: ·) (ih hi)

theorem goes_deliver (h : Shape l) (evt : ε) :
    Goes l ((l.write evt).asyncCallback ⟨l.deliveries, evt⟩).1
      (overwrites l ⟨l.deliveries, evt⟩ ++
        ((l.write evt).asyncCallback ⟨l.deliveries, evt⟩).2) := by
  have hbusy : l.guarded → l.busy = true → l.inside ≠ [] := by
    rintro hg hb hin
    rcases h.alone hg with ⟨_, hb'⟩ | ⟨st, hst, _⟩
    · rw [hb] at hb'
      cases hb'
    · rw [hin] at hst
      cases hst
  unfold Listener.asyncCallback
  split
  case isTrue hd => exact .dropped evt hd.2 (hbusy (.inr hd.2) hd.1)
  case isFalse hd =>
    split
    case isTrue hq =>
      rcases queue_spec ⟨l.deliveries, evt⟩ l.evtQueue with ⟨hlen, hroom⟩ | ⟨hfull, hroom⟩
      · simp only [Listener.write, hroom]
        exact .queued evt hq.2 (hbusy (.inl hq.2) hq.1) hlen
      · simp only [Listener.write, hroom]
        exact .overflowed evt hq.2 hfull
    case isFalse hq =>
      have hin : l.guarded → l.inside = [] := by
        intro hg
        rcases h.alone hg with ⟨hin, _⟩ | ⟨st, _, hb⟩
        · exact hin
        · rcases hg with hqueue | hdrop
          · exact absurd ⟨hb, hqueue⟩ hq
          · exact absurd ⟨hb, hdrop⟩ hd
      have hplain : l.evtQueue = [] ∧ takingOf l.inside = [] := by
        cases hqueue : l.queueIfBusy with
        | false => exact h.plain hqueue
        | true =>
            have := hin (.inl hqueue)
            exact ⟨h.empty this, by rw [this]; rfl⟩
      have hover : overwrites l ⟨l.deliveries, evt⟩ = [] := by
        rw [overwrites, hplain.2]
        rfl
      rw [hover]
      exact .entered evt hplain.2 hplain.1 hin

theorem goes_returned (h : Shape l) {i : Nat} (hi : l.inside[i]? = some .handling) :
    Goes l (l.returned i) [] := by
  unfold Listener.returned
  split
  case h_1 item q hq hqueue =>
    rcases h.alone (.inl hq) with ⟨hin, _⟩ | ⟨st, hin, _⟩
    · rw [hin] at hi
      cases hi
    · rw [hin] at hi
      obtain ⟨rfl, rfl⟩ := eq_of_getElem?_singleton hi
      rw [hin]
      exact .took item q hq hin hqueue
  case h_2 hnot =>
    refine .left i hi ?_
    cases hq : l.queueIfBusy with
    | false => exact (h.plain hq).1
    | true =>
        cases hqueue : l.evtQueue with
        | nil => rfl
        | cons item q => exact absurd hqueue (hnot item q hq)

theorem goes_scheduled (h : Shape l) {i : Nat} (hi : l.inside[i]? = some (.taking t)) :
    Goes l { l with inside := l.inside.set i .handling } (l.evt.toList.map .called) := by
  have hmem : t ∈ takingOf l.inside := List.mem_filterMap.mpr ⟨_, List.mem_of_getElem? hi, rfl⟩
  by_cases hq : l.queueIfBusy = true
  · rcases h.alone (.inl hq) with ⟨hin, _⟩ | ⟨st, hin, _⟩
    · rw [hin] at hi
      cases hi
    · rw [hin] at hi
      obtain ⟨rfl, rfl⟩ := eq_of_getElem?_singleton hi
      rw [hin]
      exact .called t hq hin
  · rw [(h.plain (Bool.eq_false_iff.mpr hq)).2] at hmem
    cases hmem

theorem step_goes (h : Shape l) {a : Action ε} (hs : step l a = some (l', ev)) :
    Goes l l' ev := by
  cases a with
  | deliver evt =>
      cases hs
      exact goes_deliver h evt
  | returned i =>
      simp only [step] at hs
      split at hs
      case h_1 hi =>
        cases hs
        exact goes_returned h hi
      case h_2 => cases hs
  | scheduled i =>
      simp only [step] at hs
      split at hs
      case h_1 hi =>
        cases hs
        exact goes_scheduled h hi
      case h_2 => cases hs

/-- The shape is kept, and the flags do not change. -/
theorem shape_step (h : Shape l) (hg : Goes l l' ev) :
    Shape l' ∧ l'.queueIfBusy = l.queueIfBusy ∧ l'.dropIfBusy = l.dropIfBusy := by
  cases hg with
  | entered evt htaking hqueue hin =>
      refine ⟨⟨fun hg => .inr ⟨.handling, by rw [hin hg]; rfl, rfl⟩, fun _ => hqueue,
        fun _ => ⟨hqueue, ?_⟩⟩, rfl, rfl⟩
      rw [takingOf, List.filterMap_append]
      exact List.append_eq_nil_iff.mpr ⟨htaking, rfl⟩
  | dropped evt => exact ⟨⟨h.alone, h.empty, h.plain⟩, rfl, rfl⟩
  | queued evt hq hbusy hroom =>
      refine ⟨⟨h.alone, fun hin => absurd hin hbusy, fun hno => ?_⟩, rfl, rfl⟩
      rw [show l.queueIfBusy = false from hno] at hq
      cases hq
  | overflowed evt => exact ⟨⟨h.alone, h.empty, h.plain⟩, rfl, rfl⟩
  | took item q hq hin hqueue =>
      have hb : l.busy = true := by
        rcases h.alone (.inl hq) with ⟨hin', _⟩ | ⟨_, _, hb⟩
        · rw [hin] at hin'
          cases hin'
        · exact hb
      refine ⟨⟨fun _ => .inr ⟨_, rfl, hb⟩, (by rintro ⟨⟩), fun hno => ?_⟩, rfl, rfl⟩
      rw [show l.queueIfBusy = false from hno] at hq
      cases hq
  | left i hi hqueue =>
      refine ⟨⟨fun hg => .inl ⟨?_, rfl⟩, fun _ => hqueue, fun hno => ⟨hqueue, ?_⟩⟩, rfl, rfl⟩
      · rcases h.alone hg with ⟨hin, _⟩ | ⟨st, hin, _⟩
        · simp [hin]
        · rw [hin] at hi
          simp [hin, (eq_of_getElem?_singleton hi).1]
      · exact (takingOf_eraseIdx hi).trans (h.plain hno).2
  | called t hq hin =>
      have hb : l.busy = true := by
        rcases h.alone (.inl hq) with ⟨hin', _⟩ | ⟨_, _, hb⟩
        · rw [hin] at hin'
          cases hin'
        · exact hb
      refine ⟨⟨fun _ => .inr ⟨_, rfl, hb⟩, (by rintro ⟨⟩), fun hno => ?_⟩, rfl, rfl⟩
      rw [show l.queueIfBusy = false from hno] at hq
      cases hq

/-! ## 3. What becomes of the accepted events -/

/-- **The accepted events** are called, taken or queued, in this order, and the handler is called
    with what they are handled as. -/
structure Account (l : Listener ε) (tr : List (Event ε)) : Prop where
  shape : Shape l
  order : ∃ done, acceptedOf tr = done ++ takingOf l.inside ++ l.evtQueue ∧
    calledOf tr = done.map (handledAs tr)
  current : ∀ t ∈ takingOf l.inside, l.evt = some (handledAs tr t)
  distinct : (acceptedOf tr).Pairwise (·.number < ·.number)
  fresh : ∀ d ∈ acceptedOf tr, d.number < l.deliveries
  later : ∀ t n, .overwritten t n ∈ tr → t ∈ acceptedOf tr ∧ t.number < n.number
  waiting : ∀ d ∈ l.evtQueue, ∀ t n, .overwritten t n ∈ tr → t.number ≠ d.number

theorem account_start (queueIfBusy dropIfBusy : Bool) :
    Account (machine (ε := ε) queueIfBusy dropIfBusy).start [] where
  shape := ⟨fun _ => .inl ⟨rfl, rfl⟩, fun _ => rfl, fun _ => ⟨rfl, rfl⟩⟩
  order := ⟨[], rfl, rfl⟩
  current := (by rintro t ⟨⟩)
  distinct := .nil
  fresh := (by rintro d ⟨⟩)
  later := (by rintro t n ⟨⟩)
  waiting := (by rintro d ⟨⟩)

/-- The fiber inside has taken one delivery, or none. -/
theorem takingOf_guarded (h : Shape l) (hg : l.guarded) :
    takingOf l.inside = [] ∨ ∃ t, takingOf l.inside = [t] := by
  rcases h.alone hg with ⟨hin, _⟩ | ⟨st, hin, _⟩
  · exact .inl (by rw [hin]; rfl)
  · rw [hin]
    cases st with
    | handling => exact .inl rfl
    | taking t => exact .inr ⟨t, rfl⟩

/-- What is being taken was not called, and does not wait. -/
theorem taking_apart {ds done taking waiting : List (Delivery ε)}
    (hdistinct : ds.Pairwise (·.number < ·.number)) (horder : ds = done ++ taking ++ waiting) :
    ∀ t ∈ taking, ∀ s ∈ done ++ waiting, t.number ≠ s.number := by
  intro t ht s hs
  rw [horder, List.append_assoc] at hdistinct
  obtain ⟨_, hright, hbefore⟩ := List.pairwise_append.mp hdistinct
  rcases List.mem_append.mp hs with hs | hs
  · exact Nat.ne_of_gt (hbefore s hs t (List.mem_append_left _ ht))
  · exact Nat.ne_of_lt ((List.pairwise_append.mp hright).2.2 t ht s hs)

/-- **A delivery to a busy listener**: what was taken is handled as it; what was called before, and
    what waits, is not concerned. -/
theorem account_deliver (h : Account l tr) (hg : l.guarded) {x : Event ε}
    (hx : ∀ t n, x ≠ .overwritten t n) (hcalled : calledOf [x] = [])
    (haccepted : acceptedOf [x] = [] ∨ acceptedOf [x] = [⟨l.deliveries, d.evt⟩])
    (hd : d.number = l.deliveries) (hshape : Shape l') (hin : l'.inside = l.inside)
    (hqueue : l'.evtQueue = l.evtQueue ++ acceptedOf [x]) (hevt : l'.evt = some d)
    (hdeliveries : l'.deliveries = l.deliveries + 1) :
    Account l' (tr ++ (overwrites l d ++ [x])) := by
  obtain ⟨done, horder, hdone⟩ := h.order
  have hover : ∀ t n, .overwritten t n ∈ overwrites l d ++ [x] →
      t ∈ takingOf l.inside ∧ n = d := by
    intro t n ht
    rcases List.mem_append.mp ht with ht | ht
    · exact mem_overwrites ht
    · exact absurd (List.mem_singleton.mp ht).symm (hx t n)
  have hnew : ∀ e ∈ acceptedOf [x], e.number = l.deliveries := by
    intro e he
    rcases haccepted with hno | hone
    · rw [hno] at he
      cases he
    · rw [hone] at he
      rw [List.mem_singleton.mp he]
  have htr : acceptedOf (tr ++ (overwrites l d ++ [x])) = acceptedOf tr ++ acceptedOf [x] := by simp
  have hsep := taking_apart h.distinct horder
  refine ⟨hshape, ⟨done, ?_, ?_⟩, ?_, ?_, ?_, ?_, ?_⟩
  · rw [htr, hin, hqueue, horder]
    simp only [List.append_assoc]
  · rw [calledOf_append, calledOf_append, calledOf_overwrites, hcalled, List.append_nil,
      List.append_nil, hdone]
    refine List.map_congr_left fun s hs => (handledAs_append fun t n ht => ?_).symm
    exact hsep t (hover t n ht).1 s (List.mem_append_left _ hs)
  · intro t ht
    rw [hin] at ht
    have hlast : ∀ u n, .overwritten u n ∈ [x] → u.number ≠ t.number :=
      fun u n hu => absurd (List.mem_singleton.mp hu).symm (hx u n)
    rw [hevt, ← List.append_assoc, handledAs_append hlast]
    rcases takingOf_guarded h.shape hg with hno | ⟨t', hone⟩
    · rw [hno] at ht
      cases ht
    · rw [hone] at ht
      rw [overwrites, hone, List.mem_singleton.mp ht]
      exact congrArg some (handledAs_snoc_overwritten tr t' d).symm
  · rw [htr]
    refine List.pairwise_append.mpr ⟨h.distinct, ?_, fun a ha b hb => ?_⟩
    · rcases haccepted with hno | hone
      · rw [hno]
        exact .nil
      · rw [hone]
        exact List.pairwise_singleton ..
    · rw [hnew b hb]
      exact h.fresh a ha
  · intro e he
    rw [htr] at he
    rw [hdeliveries]
    rcases List.mem_append.mp he with he | he
    · exact Nat.lt_succ_of_lt (h.fresh e he)
    · rw [hnew e he]
      exact Nat.lt_succ_self _
  · intro t n ht
    rw [htr]
    rcases List.mem_append.mp ht with ht | ht
    · exact ⟨List.mem_append_left _ (h.later t n ht).1, (h.later t n ht).2⟩
    · obtain ⟨htaking, rfl⟩ := hover t n ht
      have hmem : t ∈ acceptedOf tr := by
        rw [horder]
        exact List.mem_append_left _ (List.mem_append_right _ htaking)
      exact ⟨List.mem_append_left _ hmem, by rw [hd]; exact h.fresh t hmem⟩
  · intro e he t n ht
    rw [hqueue] at he
    have hold : .overwritten t n ∈ tr → e ∈ acceptedOf [x] → t.number ≠ e.number := by
      intro ht he
      rw [hnew e he]
      exact Nat.ne_of_lt (h.fresh t (h.later t n ht).1)
    rcases List.mem_append.mp ht with ht | ht <;> rcases List.mem_append.mp he with he | he
    · exact h.waiting e he t n ht
    · exact hold ht he
    · exact hsep t (hover t n ht).1 e (List.mem_append_right _ he)
    · have hmem : t ∈ acceptedOf tr := by
        rw [horder]
        exact List.mem_append_left _ (List.mem_append_right _ (hover t n ht).1)
      rw [hnew e he]
      exact Nat.ne_of_lt (h.fresh t hmem)

/-- A listener that lets the fiber in: the handler is called with the event itself. -/
theorem account_entered (h : Account l tr) (evt : ε) (htaking : takingOf l.inside = [])
    (hqueue : l.evtQueue = []) {l' : Listener ε} (hshape : Shape l')
    (hin : l'.inside = l.inside ++ [.handling]) (hqueue' : l'.evtQueue = [])
    (hdeliveries : l'.deliveries = l.deliveries + 1) :
    Account l' (tr ++ [.accepted ⟨l.deliveries, evt⟩, .called ⟨l.deliveries, evt⟩]) := by
  obtain ⟨done, horder, hdone⟩ := h.order
  rw [htaking, hqueue, List.append_nil, List.append_nil] at horder
  have htaking' : takingOf l'.inside = [] := by
    rw [hin, takingOf, List.filterMap_append]
    exact List.append_eq_nil_iff.mpr ⟨htaking, rfl⟩
  have hold : ∀ t n, .overwritten t n ∈ tr ++ [.accepted ⟨l.deliveries, evt⟩,
      .called ⟨l.deliveries, evt⟩] → .overwritten t n ∈ tr := by
    intro t n ht
    simpa using ht
  refine ⟨hshape, ⟨done ++ [⟨l.deliveries, evt⟩], ?_, ?_⟩, ?_, ?_, ?_, fun t n ht => ?_, ?_⟩
  · rw [acceptedOf_append, htaking', hqueue', horder, List.append_nil, List.append_nil]
    rfl
  · rw [calledOf_append, hdone, List.map_append]
    congr 1
    · exact List.map_congr_left fun s _ => (handledAs_append (by simp)).symm
    · rw [List.map_singleton, handledAs_of_not_overwritten fun t n ht =>
        Nat.ne_of_lt (h.fresh t (h.later t n (hold t n ht)).1)]
      rfl
  · rw [htaking']
    rintro t ⟨⟩
  · rw [acceptedOf_append]
    refine List.pairwise_append.mpr ⟨h.distinct, List.pairwise_singleton .., fun a ha b hb => ?_⟩
    rw [List.mem_singleton.mp hb]
    exact h.fresh a ha
  · intro e he
    rw [acceptedOf_append] at he
    rw [hdeliveries]
    rcases List.mem_append.mp he with he | he
    · exact Nat.lt_succ_of_lt (h.fresh e he)
    · rw [List.mem_singleton.mp he]
      exact Nat.lt_succ_self _
  · obtain ⟨hmem, hlt⟩ := h.later t n (hold t n ht)
    exact ⟨by rw [acceptedOf_append]; exact List.mem_append_left _ hmem, hlt⟩
  · rw [hqueue']
    rintro e ⟨⟩

/-- The fiber inside goes on behind `schedule()`. -/
theorem account_called (h : Account l tr) (hin : l.inside = [.taking t])
    (hshape : Shape { l with inside := [.handling] }) :
    Account { l with inside := [.handling] } (tr ++ l.evt.toList.map .called) := by
  obtain ⟨done, horder, hdone⟩ := h.order
  have htaking : takingOf l.inside = [t] := by
    rw [hin]
    rfl
  have hevt : l.evt.toList.map .called = [Event.called (handledAs tr t)] := by
    rw [h.current t (by rw [htaking]; exact List.mem_singleton_self t)]
    rfl
  rw [htaking] at horder
  rw [hevt]
  have haccepted : acceptedOf (tr ++ [.called (handledAs tr t)]) = acceptedOf tr := by
    rw [acceptedOf_append]
    exact List.append_nil _
  have hold : ∀ u n, .overwritten u n ∈ tr ++ [.called (handledAs tr t)] →
      .overwritten u n ∈ tr := by
    intro u n hu
    simpa using hu
  refine ⟨hshape, ⟨done ++ [t], ?_, ?_⟩, (by rintro u ⟨⟩), ?_, ?_, ?_, ?_⟩
  · rw [haccepted, horder]
    exact congrArg (· ++ l.evtQueue) (List.append_nil (done ++ [t])).symm
  · have hsame : handledAs (tr ++ [.called (handledAs tr t)]) = handledAs tr :=
      funext fun s => handledAs_append (by simp)
    rw [calledOf_append, hdone, hsame, List.map_append]
    rfl
  · rw [haccepted]
    exact h.distinct
  · rw [haccepted]
    exact h.fresh
  · rw [haccepted]
    exact fun u n hu => h.later u n (hold u n hu)
  · exact fun e he u n hu => h.waiting e he u n (hold u n hu)

theorem account_step (h : Account l tr) (hg : Goes l l' ev) : Account l' (tr ++ ev) := by
  have hshape := (shape_step h.shape hg).1
  cases hg with
  | entered evt htaking hqueue hin =>
      exact account_entered h evt htaking hqueue hshape rfl hqueue rfl
  | dropped evt hdrop hbusy =>
      exact account_deliver h (.inr hdrop) (by simp) rfl (.inl rfl) rfl hshape rfl
        (List.append_nil _).symm rfl rfl
  | queued evt hq hbusy hroom =>
      exact account_deliver h (.inl hq) (by simp) rfl (.inr rfl) rfl hshape rfl rfl rfl rfl
  | overflowed evt hq hfull =>
      exact account_deliver h (.inl hq) (by simp) rfl (.inl rfl) rfl hshape rfl
        (List.append_nil _).symm rfl rfl
  | took item q hq hin hqueue =>
      obtain ⟨done, horder, hdone⟩ := h.order
      rw [hin, hqueue] at horder
      rw [List.append_nil]
      refine ⟨hshape, ⟨done, ?_, hdone⟩, fun u hu => ?_, h.distinct, h.fresh, h.later,
        fun e he => h.waiting e ?_⟩
      · rw [horder]
        exact (congrArg (· ++ item :: q) (List.append_nil done)).trans
          (List.append_assoc done [item] q).symm
      · rw [List.mem_singleton.mp hu, handledAs_of_not_overwritten fun t n ht =>
          h.waiting item (by rw [hqueue]; exact List.mem_cons_self) t n ht]
      · rw [hqueue]
        exact List.mem_cons_of_mem _ he
  | left i hi hqueue =>
      have htaking := takingOf_eraseIdx hi
      rw [List.append_nil]
      refine ⟨hshape, ?_, fun u hu => h.current u (htaking ▸ hu), h.distinct, h.fresh, h.later,
        h.waiting⟩
      rw [htaking]
      exact h.order
  | called t hq hin => exact account_called h hin hshape

/-- A delivery is handled as itself exactly if nothing was written over it. -/
theorem handledAs_eq_iff (h : Account l tr) (ht : t ∈ acceptedOf tr) :
    handledAs tr t = t ↔ ∀ n, .overwritten t n ∉ tr := by
  constructor
  · intro heq n hn
    -- the last one written over it has a greater number
    cases hlast : (tr.filterMap (Event.instead? t)).getLast? with
    | none =>
        have hmem : n ∈ tr.filterMap (Event.instead? t) :=
          List.mem_filterMap.mpr ⟨_, hn, if_pos rfl⟩
        rw [List.getLast?_eq_none_iff.mp hlast] at hmem
        cases hmem
    | some last =>
        obtain ⟨e, he, hinstead⟩ := List.mem_filterMap.mp (List.mem_of_getLast? hlast)
        cases e with
        | overwritten u last' =>
            rw [Event.instead?] at hinstead
            split at hinstead
            case isTrue hu =>
              cases hinstead
              rw [handledAs, hlast] at heq
              have hlt := (h.later u last he).2
              rw [hu, show last = t from heq] at hlt
              exact Nat.lt_irrefl _ hlt
            case isFalse => cases hinstead
        | _ => cases hinstead
  · intro hno
    refine handledAs_of_not_overwritten fun u n hu hnumber => ?_
    obtain ⟨i, hi, rfl⟩ := List.mem_iff_getElem.mp (h.later u n hu).1
    obtain ⟨j, hj, rfl⟩ := List.mem_iff_getElem.mp ht
    rcases Nat.lt_trichotomy i j with hij | rfl | hij
    · exact Nat.ne_of_lt (List.pairwise_iff_getElem.mp h.distinct i j hi hj hij) hnumber
    · exact hno n hu
    · exact Nat.ne_of_gt (List.pairwise_iff_getElem.mp h.distinct j i hj hi hij) hnumber

/-! ## 4. Every delivery -/

def Event.refused? : Event ε → Option (Delivery ε)
  | .dropped d => some d
  | .overflowed d _ => some d
  | _ => none

/-- The deliveries that were dropped, or came to a full queue. -/
def refusedOf (tr : List (Event ε)) : List (Delivery ε) := tr.filterMap Event.refused?

@[simp] theorem refusedOf_append (tr ev : List (Event ε)) :
    refusedOf (tr ++ ev) = refusedOf tr ++ refusedOf ev := List.filterMap_append ..

@[simp] theorem refusedOf_overwrites (l : Listener ε) (new : Delivery ε) :
    refusedOf (overwrites l new) = [] := by
  refine List.filterMap_eq_nil_iff.mpr fun e he => ?_
  obtain ⟨t, _, rfl⟩ := List.mem_map.mp he
  rfl

/-- **Every delivery** is accepted or refused; one that comes to a full queue comes to a queue of
    `MESSAGE_BUS_LISTENER_MAX_QUEUE_DEPTH`. -/
structure Deliveries (l : Listener ε) (tr : List (Event ε)) : Prop where
  each : ((acceptedOf tr ++ refusedOf tr).map Delivery.number).Perm (List.range l.deliveries)
  bound : l.evtQueue.length ≤ maxQueueDepth
  full : ∀ d n, .overflowed d n ∈ tr → n = maxQueueDepth

/-- One delivery more. -/
theorem each_snoc {accepted refused more no : List (Delivery ε)} {k : Nat}
    (h : ((accepted ++ refused).map Delivery.number).Perm (List.range k))
    (hone : (more ++ no).map Delivery.number = [k]) :
    ((accepted ++ more ++ (refused ++ no)).map Delivery.number).Perm (List.range (k + 1)) := by
  have hswap : (accepted ++ more ++ (refused ++ no)).Perm ((accepted ++ refused) ++ (more ++ no)) := by
    simp only [List.append_assoc]
    refine List.Perm.append_left _ ?_
    rw [← List.append_assoc, ← List.append_assoc]
    exact List.perm_append_comm.append_right _
  refine (hswap.map _).trans ?_
  rw [List.map_append, hone, List.range_succ]
  exact h.append_right _

theorem deliveries_step (h : Deliveries l tr) (hg : Goes l l' ev) : Deliveries l' (tr ++ ev) := by
  cases hg with
  | entered evt htaking hqueue hin =>
      refine ⟨?_, h.bound, fun d n hd => h.full d n (by simpa using hd)⟩
      rw [acceptedOf_append, refusedOf_append]
      exact each_snoc h.each rfl
  | dropped evt hdrop hbusy =>
      refine ⟨?_, h.bound, fun d n hd => h.full d n (by simpa [overwrites] using hd)⟩
      rw [acceptedOf_append, refusedOf_append, acceptedOf_append, refusedOf_append,
        acceptedOf_overwrites, refusedOf_overwrites]
      exact each_snoc h.each rfl
  | queued evt hq hbusy hroom =>
      refine ⟨?_, ?_, fun d n hd => h.full d n (by simpa [overwrites] using hd)⟩
      · rw [acceptedOf_append, refusedOf_append, acceptedOf_append, refusedOf_append,
          acceptedOf_overwrites, refusedOf_overwrites]
        exact each_snoc h.each rfl
      · rw [List.length_append]
        exact hroom
  | overflowed evt hq hfull =>
      refine ⟨?_, h.bound, fun d n hd => ?_⟩
      · rw [acceptedOf_append, refusedOf_append, acceptedOf_append, refusedOf_append,
          acceptedOf_overwrites, refusedOf_overwrites]
        exact each_snoc h.each rfl
      · rcases List.mem_append.mp hd with hd | hd
        · exact h.full d n hd
        · have hn : n = l.evtQueue.length := by
            rcases List.mem_append.mp hd with hd | hd
            · obtain ⟨t, _, ht⟩ := List.mem_map.mp hd
              cases ht
            · cases List.mem_singleton.mp hd
              rfl
          rw [hn]
          exact Nat.le_antisymm h.bound hfull
  | took item q hq hin hqueue =>
      have hlen := h.bound
      rw [hqueue] at hlen
      rw [List.append_nil]
      exact ⟨h.each, Nat.le_of_succ_le hlen, h.full⟩
  | left i hi hqueue =>
      rw [List.append_nil]
      exact ⟨h.each, h.bound, h.full⟩
  | called t hq hin =>
      have hcalled : acceptedOf (l.evt.toList.map Event.called) = [] ∧
          refusedOf (l.evt.toList.map Event.called) = [] := by
        cases l.evt <;> exact ⟨rfl, rfl⟩
      refine ⟨?_, h.bound, fun d n hd => h.full d n (by simpa using hd)⟩
      rw [acceptedOf_append, refusedOf_append, hcalled.1, hcalled.2, List.append_nil,
        List.append_nil]
      exact h.each

/-! ## 5. Runs -/

section Run

variable {queueIfBusy dropIfBusy : Bool}

theorem account_run (hrun : (machine queueIfBusy dropIfBusy).Run l tr) : Account l tr :=
  hrun.inv (account_start queueIfBusy dropIfBusy) fun _ _ _ _ _ _ h hs =>
    account_step h (step_goes h.shape hs)

theorem deliveries_run (hrun : (machine queueIfBusy dropIfBusy).Run l tr) : Deliveries l tr :=
  hrun.inv ⟨.refl _, Nat.zero_le _, (by rintro d n ⟨⟩)⟩ fun _ _ _ _ _ hrun h hs =>
    deliveries_step h (step_goes (account_run hrun).shape hs)

theorem flags_run (hrun : (machine queueIfBusy dropIfBusy).Run l tr) :
    l.queueIfBusy = queueIfBusy ∧ l.dropIfBusy = dropIfBusy :=
  hrun.inv (I := fun l _ => l.queueIfBusy = queueIfBusy ∧ l.dropIfBusy = dropIfBusy) ⟨rfl, rfl⟩
    fun _ _ _ _ _ hrun h hs => by
      obtain ⟨hq, hd⟩ := (shape_step (account_run hrun).shape
        (step_goes (account_run hrun).shape hs)).2
      exact ⟨hq.trans h.1, hd.trans h.2⟩

end Run

end MicrobitAlarm.Callback
