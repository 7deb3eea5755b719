/-
  File:      MicrobitAlarm/Properties/MessageBus.lean
  Subject:   WHAT THE MESSAGE BUS PROMISES, however calls and interrupts are nested.

  * `total_order` -- events leave the queue in the order in which they were raised, and none is
    lost but when the queue is full;
  * `listeners_are_a_set` -- the list of listeners, in order, is what `add` and `remove` say;
  * `each_listener_once` -- an event reaches every listener that attends, once.
-/
import MicrobitAlarm.Runs.Listeners

namespace MicrobitAlarm.MessageBus

open Trace

variable {b : Bus} {tr : List Event}

/-! ## 1. The order of events -/

/-- **Total order**: events are dispatched in the order in which they were raised, wherever
    handlers and interrupts raise them. A raised event is dispatched, waits, is still being
    raised, was for urgent listeners only, or met a full queue; and the pointer that an open call
    holds is to an item that is still queued. -/
theorem total_order (hrun : machine.Run b tr) :
    (dispatchedOf tr ++ numbers b.evtQueue).Pairwise (· < ·) ∧
      raisedOf tr = List.range b.raises ∧
      (raisedOf tr).Perm (dispatchedOf tr ++ numbers b.evtQueue ++
        (openOf b.frames).map Prod.fst ++ completedOf tr ++ droppedOf tr) ∧
      (∀ s n, .dropped s n ∈ tr → maxQueueDepth ≤ n) ∧
      (∀ f ∈ openOf b.frames, ∀ q, f.2 = some q → q ∈ numbers b.evtQueue) := by
  have hinv := queueInv_run hrun
  have hraised := raised_run hrun
  refine ⟨hinv.order, hraised, List.perm_iff_count.mpr fun s => ?_, hinv.full,
    fun f hf q hq => ?_⟩
  · rw [hraised, hinv.account s]
    simp only [List.count_append]
  · have hlast := hinv.behind f hf
    rw [hq] at hlast
    exact List.mem_of_mem_filter (List.mem_of_getLast? hlast.symm)

/-- An urgent listener and a plain one, to everything from 5. -/
def urgentListener : Listener := ⟨0, 5, 0, .function 1, true, true, false, false⟩

def plainListener : Listener := ⟨1, 5, 0, .function 2, false, false, false, false⟩

/-- Both are added; an event is raised, in its urgent handler another one, and while that is about
    to be put into the queue, an interrupt raises a third. -/
def nested : List Action :=
  [.add urgentListener, .advance true, .advance true, .add plainListener, .advance true,
    .advance true, .advance true, .send ⟨5, 1⟩, .advance true, .send ⟨5, 2⟩, .advance true, .handled,
    .advance true, .advance true, .send ⟨5, 3⟩, .advance true, .handled, .advance true, .advance true,
    .advance true, .advance true, .handled, .advance true, .advance true, .advance true]

/-- They wait in the order in which they were raised, not in which they were entered. -/
theorem total_order_run : ∃ b tr, machine.Run b tr ∧
    tr.filterMap (fun e => match e with | .queued s => some s | _ => none) = [4, 3, 2] ∧
    numbers b.evtQueue = [2, 3, 4] ∧ (dispatchedOf tr ++ numbers b.evtQueue).Pairwise (· < ·) := by
  obtain ⟨b, tr, hrun, hqueued, hqueue⟩ := machine.exists_run_of_exec
    (fun b tr => tr.filterMap (fun e => match e with | .queued s => some s | _ => none) = [4, 3, 2] ∧
      numbers b.evtQueue = [2, 3, 4]) nested (by decide)
  exact ⟨b, tr, hrun, hqueued, hqueue, (total_order hrun).1⟩

/-! ## 2. The listeners -/

/-- **The list of listeners is an ordered set**: by id, then by value, no key twice; and a key has
    a listener that is not marked exactly when it was added and not removed since. -/
theorem listeners_are_a_set (hrun : machine.Run b tr) :
    Sorted b.listeners ∧ (b.listeners.map Listener.key).Nodup ∧
      ∀ key, listening key tr = true ↔
        ∃ l ∈ b.listeners, l.key = key ∧ l.deleting = false := by
  have hinv := (pass_run hrun).table
  exact ⟨hinv.sorted, hinv.keys, hinv.listens⟩

/-- A listener is removed, added again before it is deleted, and so keeps its place. -/
theorem listeners_are_a_set_run : ∃ b tr, machine.Run b tr ∧
    listening plainListener.key tr = true ∧
    ∃ l ∈ b.listeners, l.key = plainListener.key ∧ l.deleting = false := by
  obtain ⟨b, tr, hrun, hlistening⟩ := machine.exists_run_of_exec
    (fun _ tr => listening plainListener.key tr = true)
    [.add plainListener, .advance true, .advance true, .remove plainListener,
      .add { plainListener with ptr := 2 }] (by decide)
  exact ⟨b, tr, hrun, hlistening, ((listeners_are_a_set hrun).2.2 _).mp hlistening⟩

/-! ## 3. Every listener once -/

/-- **Every listener once.** No handler is called twice for an event. When an event is done with
    in `queueEvent`, its urgent listeners were called, and it is let go only if all that attend
    are urgent; when `idleTick` is done with it, so were the others. -/
theorem each_listener_once (hrun : machine.Run b tr) {a : Action} {b' : Bus} {ev : List Event}
    (hs : step b a = some (b', ev)) :
    (activatedOf (tr ++ ev)).Nodup ∧
      ∀ s e l, .raised s e ∈ tr → l ∈ b.listeners → l.hears e = true →
        (.completed s ∈ ev → attends true s l.key tr = true → l.immediate = true) ∧
        (.completed s ∈ ev ∨ (∃ n, .dropped s n ∈ ev) ∨ .queued s ∈ ev → l.immediate = true →
          attends true s l.key tr = true → (s, l.ptr) ∈ activatedOf tr) ∧
        (.passed s ∈ ev → l.immediate = false → attends false s l.key tr = true →
          (s, l.ptr) ∈ activatedOf tr) := by
  have hinv := pass_run hrun
  exact ⟨(pass_step hinv (step_goes hs)).once,
    fun s e l he hl hhears => hinv.ends (step_goes hs) he hl hhears⟩

/-- The nested events again: `idleTick` gives the first of them to the plain listener. -/
theorem each_listener_once_run : ∃ b tr b' ev, machine.Run b tr ∧
    step b (.advance true) = some (b', ev) ∧ .passed 2 ∈ ev ∧ (2, 1) ∈ activatedOf tr := by
  obtain ⟨b, tr, hrun, hl, he, ha, hs⟩ := machine.exists_run_of_exec
    (fun b tr => plainListener ∈ b.listeners ∧ .raised 2 ⟨5, 1⟩ ∈ tr ∧
      attends false 2 plainListener.key tr = true ∧
      ((step b (.advance true)).any fun r => .passed 2 ∈ r.2) = true)
    (nested ++ [.idleTick, .advance true, .advance true, .handled]) (by decide)
  obtain ⟨⟨b', ev⟩, hstep, hev⟩ := Option.any_eq_true .. |>.mp hs
  have hpassed : .passed 2 ∈ ev := by simpa using hev
  exact ⟨b, tr, b', ev, hrun, hstep, hpassed,
    ((each_listener_once hrun hstep).2 2 ⟨5, 1⟩ plainListener he hl (by decide)).2.2 hpassed
      (by decide) ha⟩

end MicrobitAlarm.MessageBus
