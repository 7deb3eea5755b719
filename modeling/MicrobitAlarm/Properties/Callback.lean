/-
  File:      MicrobitAlarm/Properties/Callback.lean
  Subject:   WHAT A LISTENER DOES WITH THE EVENTS IT IS GIVEN.

  A listener that queues or drops when busy has at most one fiber inside, and takes the events it
  accepts in the order in which they come. But while a fiber waits for its turn with the event it
  has taken, the next event is written over it: the handler is called with the later event, and
  called with it again when that is taken itself.

  * `one_at_a_time` -- one fiber inside, and what is refused;
  * `calls_in_order` -- what the handler is called with.
-/
import MicrobitAlarm.Runs.Callback

namespace MicrobitAlarm.Callback

open Trace MessageBus

variable {ε : Type} {l : Listener ε} {tr : List (Event ε)} {queueIfBusy dropIfBusy : Bool}

/-- **One at a time.** A listener that queues or drops when busy has at most one fiber inside, and
    is marked busy exactly then. Every delivery is accepted or refused, once; one is refused for a
    full queue only at ten. -/
theorem one_at_a_time (hrun : (machine queueIfBusy dropIfBusy).Run l tr)
    (hflags : queueIfBusy = true ∨ dropIfBusy = true) :
    l.inside.length ≤ 1 ∧ (l.busy = true ↔ l.inside ≠ []) ∧ l.evtQueue.length ≤ maxQueueDepth ∧
      ((acceptedOf tr ++ refusedOf tr).map Delivery.number).Perm (List.range l.deliveries) ∧
      ∀ d n, .overflowed d n ∈ tr → n = maxQueueDepth := by
  have hdeliveries := deliveries_run hrun
  obtain ⟨hq, hd⟩ := flags_run hrun
  have hg : l.guarded := by
    rw [Listener.guarded, hq, hd]
    exact hflags
  refine ⟨?_, ?_, hdeliveries.bound, hdeliveries.each, hdeliveries.full⟩
  · rcases (account_run hrun).shape.alone hg with ⟨hin, _⟩ | ⟨st, hin, _⟩
    · rw [hin]
      exact Nat.zero_le 1
    · rw [hin]
      exact Nat.le_refl 1
  · rcases (account_run hrun).shape.alone hg with ⟨hin, hb⟩ | ⟨st, hin, hb⟩
    · simp [hin, hb]
    · simp [hin, hb]

/-- **Calls in order.** The handler is called with the accepted deliveries in the order in which
    they came, each as what it is handled as; the others have been taken or wait. So the calls are
    the deliveries themselves exactly if none of them was written over between the moment it was
    taken out of the queue and its call. -/
theorem calls_in_order (hrun : (machine queueIfBusy dropIfBusy).Run l tr) :
    calledOf tr = ((acceptedOf tr).take (calledOf tr).length).map (handledAs tr) ∧
      (acceptedOf tr).drop (calledOf tr).length = takingOf l.inside ++ l.evtQueue ∧
      (l.inside = [] → (calledOf tr).length = (acceptedOf tr).length) ∧
      (calledOf tr <+: acceptedOf tr ↔
        ∀ t ∈ (acceptedOf tr).take (calledOf tr).length, ∀ n, .overwritten t n ∉ tr) := by
  have hinv := account_run hrun
  obtain ⟨done, horder, hdone⟩ := hinv.order
  rw [List.append_assoc] at horder
  have hlen : (calledOf tr).length = done.length := by rw [hdone, List.length_map]
  have htake : (acceptedOf tr).take (calledOf tr).length = done := by
    rw [horder, hlen, List.take_left]
  have hmem : ∀ t ∈ done, t ∈ acceptedOf tr := by
    intro t ht
    rw [horder]
    exact List.mem_append_left _ ht
  refine ⟨by rw [htake]; exact hdone, ?_, fun hin => ?_, ?_⟩
  · rw [horder, hlen, List.drop_left]
  · rw [horder, hin, hinv.shape.empty hin, hlen]
    exact congrArg List.length (List.append_nil done).symm
  · have hsame : done.map (handledAs tr) = done ↔ ∀ t ∈ done, handledAs tr t = t := by
      have := List.map_inj_left (l := done) (f := handledAs tr) (g := id)
      rwa [List.map_id] at this
    rw [List.prefix_iff_eq_take, htake, hdone, hsame]
    exact forall₂_congr fun t ht => handledAs_eq_iff hinv (hmem t ht)

/-- The handler runs, and a second event is queued. It is taken, and before the handler is called
    with it, a third one comes. -/
def late : List (Action MicroBitEvent) :=
  [.deliver ⟨5, 1⟩, .deliver ⟨5, 2⟩, .returned 0, .deliver ⟨5, 3⟩, .scheduled 0, .returned 0,
    .scheduled 0, .returned 0]

/-- One fiber inside, for ten events and more. -/
theorem one_at_a_time_run : ∃ l tr, (machine (ε := MicroBitEvent) true false).Run l tr ∧
    .overflowed ⟨11, ⟨5, 2⟩⟩ maxQueueDepth ∈ tr ∧ l.inside.length ≤ 1 := by
  obtain ⟨l, tr, hrun, hfull⟩ := (machine true false).exists_run_of_exec
    (fun _ tr => Event.overflowed ⟨11, MicroBitEvent.mk 5 2⟩ maxQueueDepth ∈ tr)
    (List.replicate 12 (.deliver ⟨5, 2⟩)) (by decide)
  exact ⟨l, tr, hrun, hfull, (one_at_a_time hrun (.inl rfl)).1⟩

/-- The second event is not handled, the third one twice. -/
theorem calls_in_order_run : ∃ l tr, (machine (ε := MicroBitEvent) true false).Run l tr ∧
    (calledOf tr).map Delivery.number = [0, 2, 2] ∧
    (acceptedOf tr).map Delivery.number = [0, 1, 2] ∧
    calledOf tr = ((acceptedOf tr).take (calledOf tr).length).map (handledAs tr) := by
  obtain ⟨l, tr, hrun, hcalled, haccepted⟩ := (machine true false).exists_run_of_exec
    (fun _ tr => (calledOf tr).map Delivery.number = [0, 2, 2] ∧
      (acceptedOf tr).map Delivery.number = [0, 1, 2]) late (by decide)
  exact ⟨l, tr, hrun, hcalled, haccepted, (calls_in_order hrun).1⟩

end MicrobitAlarm.Callback
