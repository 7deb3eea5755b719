/-
  File:      MicrobitAlarm/Runs/Scheduler.lean
  Subject:   RUNS OF THE SCHEDULER: no fiber is lost, and none is on two queues.

  Between `dequeue_fiber` and `queue_fiber` a fiber is on no queue. It is then held: by the code of
  the current fiber, which an interrupt has come between, or by a walk. Who is interrupted does not
  run before the interrupt is over, and an interrupt finds fibers on queues only; so nobody comes
  upon a fiber that another one holds, however deep interrupts are nested.

  * `Balanced` -- code queues what it holds, and nothing else, before it calls `schedule()`;
  * `Apart` -- no walk stands at a fiber that is held by those it has interrupted;
  * `Whole` -- every fiber is on one queue, or held by one;
  * `whole_step`, `whole_run`.
-/
import MicrobitAlarm.Firmware.Scheduler

namespace MicrobitAlarm.Scheduler

open Trace Function LinkedQueue

variable {s s' : State} {qs : Queue → List Nat} {held : List Nat} {f x : Nat} {ops : List Op}
  {w : Walk} {ws : List Walk} {ev : List Event}

/-! ## 1. Who holds a fiber -/

/-- The fiber an operation is about. -/
def Op.fiber? : Op → Option Nat
  | .sleepUntil f _ => some f
  | .waitFor f _ _ => some f
  | .dequeue f => some f
  | .queue f _ => some f
  | .schedule => none

/-- Operations about one fiber. -/
def About (f : Nat) (ops : List Op) : Prop := ∀ op ∈ ops, ∀ x, op.fiber? = some x → x = f

theorem about_nil (f : Nat) : About f [] := by
  rintro op ⟨⟩

theorem about_cons {op : Op} (hop : op.fiber? = none ∨ op.fiber? = some f) (h : About f ops) :
    About f (op :: ops) := by
  intro o ho x hx
  rcases List.mem_cons.mp ho with rfl | ho
  · rcases hop with hop | hop
    · rw [hop] at hx
      cases hx
    · exact Option.some.inj (hx.symm.trans hop)
  · exact h o ho x hx

/-- **Code that holds these fibers** queues them, and takes others only to queue them; it holds none
    when it calls `schedule()`. -/
def Balanced : List Nat → List Op → Prop
  | held, [] => held = []
  | held, .sleepUntil _ _ :: ops => Balanced held ops
  | held, .waitFor _ _ _ :: ops => Balanced held ops
  | held, .dequeue f :: ops => Balanced (if f ∈ held then held else f :: held) ops
  | held, .queue f _ :: ops => f ∈ held ∧ Balanced (held.erase f) ops
  | held, .schedule :: ops => held = [] ∧ Balanced [] ops

/-- What the code holds, it is about to queue. -/
theorem Balanced.queued (h : Balanced held ops) (hf : f ∈ held) : ∃ q, .queue f q ∈ ops := by
  induction ops generalizing held with
  | nil =>
      rw [show held = [] from h] at hf
      cases hf
  | cons op ops ih =>
      have hmem : (∃ q, .queue f q ∈ ops) → ∃ q, .queue f q ∈ op :: ops :=
        fun ⟨q, hq⟩ => ⟨q, List.mem_cons_of_mem _ hq⟩
      cases op with
      | sleepUntil x t => exact hmem (ih h hf)
      | waitFor x id value => exact hmem (ih h hf)
      | dequeue x =>
          refine hmem (ih h ?_)
          split
          · exact hf
          · exact List.mem_cons_of_mem _ hf
      | queue x q =>
          by_cases hfx : f = x
          · exact ⟨q, hfx ▸ List.mem_cons_self⟩
          · exact hmem (ih h.2 ((List.mem_erase_of_ne hfx).mpr hf))
      | schedule =>
          rw [h.1] at hf
          cases hf

/-- The fibers a walk may come to. -/
def Place.pointers : Place → List Nat
  | .loop f => f.toList
  | .found f t => f :: t.toList
  | .moved _ t => t.toList

/-- The fiber a walk holds. -/
def Place.holding : Place → List Nat
  | .loop _ => []
  | .found _ _ => []
  | .moved f _ => [f]

/-- The fibers the walks hold. -/
def movedOf (walks : List Walk) : List Nat := walks.flatMap fun w => w.place.holding

/-- A walk does not go back to the fiber it stands at. -/
def Place.forward : Place → Prop
  | .loop _ => True
  | .found f t => t ≠ some f
  | .moved f t => t ≠ some f

/-- **The walks are apart**: none will come to a fiber that is held by what it has interrupted. -/
def Apart (held : List Nat) (good : Nat → Prop) : List Walk → Prop
  | [] => True
  | w :: ws => w.place.forward ∧ (∀ p ∈ w.place.pointers, good p ∧ p ∉ held ++ movedOf ws) ∧
      Apart held good ws

/-! ## 2. The history of the queues -/

/-- What the history says: the queues, and for each of them what stood in it when the last walk
    along it began, since when this walk goes on, and whom it has woken. -/
structure History where
  queue : Queue → List Nat
  begun : Queue → List Nat
  since : Queue → Nat
  woken : Queue → List Nat

def History.note (h : History) : Event → History
  | .queued f q => { h with queue := update h.queue q (h.queue q ++ [f]) }
  | .dequeued f => { h with queue := fun q => (h.queue q).erase f }
  | .began kind t => { h with begun := update h.begun kind.queue (h.queue kind.queue),
                              since := update h.since kind.queue t,
                              woken := update h.woken kind.queue [] }
  | .woken f kind => { h with woken := update h.woken kind.queue (h.woken kind.queue ++ [f]) }
  | .scheduled _ => h
  | .forked _ => h
  | .ended _ => h

/-- The history, from where `scheduler_init` leaves the fibers. -/
def history (tr : List Event) : History :=
  tr.foldl History.note ⟨update (fun _ => []) .runQueue [0], fun _ => [], fun _ => 0, fun _ => []⟩

theorem history_append (tr ev : List Event) :
    history (tr ++ ev) = ev.foldl History.note (history tr) := List.foldl_append ..

/-! ## 3. Every fiber in its place -/

/-- A fiber that may be on a queue. -/
def State.Fiber (s : State) (f : Nat) : Prop := f < s.created ∧ f ≠ s.idleFiber

/-- **The fibers are whole**: the links hold these queues, the current code holds these fibers, and
    there is no other place where a fiber can be. -/
structure Whole (s : State) (qs : Queue → List Nat) (held : List Nat) : Prop where
  holds : Holds s.links qs
  bound : ∀ q, ∀ f ∈ qs q, s.Fiber f
  code : Balanced held (s.code s.currentFiber)
  others : ∀ f, f ≠ s.currentFiber → Balanced [] (s.code f)
  ops : ∀ f, ∀ op ∈ s.code f, ∀ x, op.fiber? = some x → s.Fiber x
  distinct : (held ++ movedOf s.walks).Nodup
  free : ∀ f ∈ held ++ movedOf s.walks, s.links.queue f = none ∧ s.Fiber f
  lost : ∀ f, s.Fiber f → s.links.queue f = none → f ∈ held ++ movedOf s.walks
  apart : Apart held s.Fiber s.walks
  current : s.currentFiber < s.created
  idle : s.idleFiber < s.created ∧ s.child s.idleFiber = false
  forked : ∀ f, s.forkedFiber = some f → s.Fiber f

/-- A fiber that nobody holds is on a queue. -/
theorem Whole.on_queue (h : Whole s qs held) (hf : s.Fiber f) (hfree : f ∉ held ++ movedOf s.walks) :
    ∃ q, s.links.queue f = some q := by
  cases hq : s.links.queue f with
  | none => exact absurd (h.lost f hf hq) hfree
  | some q => exact ⟨q, rfl⟩

/-- A fiber on a queue is held by nobody. -/
theorem Whole.not_held (h : Whole s qs held) {q : Queue} (hf : f ∈ qs q) :
    f ∉ held ++ movedOf s.walks := by
  intro hmem
  have := (h.free f hmem).1
  rw [h.holds.queue_eq.mpr hf] at this
  cases this

theorem Whole.length_le (h : Whole s qs held) (q : Queue) : (qs q).length ≤ s.created := by
  have := (h.holds.nodup q).length_le_of_subset fun f hf => List.mem_range.mpr (h.bound q f hf).1
  rwa [List.length_range] at this

/-- A fiber is taken off its queue, if it is on one. -/
theorem Whole.unlink (h : Whole s qs held) (f : Nat) :
    Holds (s.links.unlink f) (fun q => (qs q).erase f) ∧
      (s.links.unlink f).queue = update s.links.queue f none := by
  refine ⟨?_, unlink_queue h.holds f⟩
  cases hq : s.links.queue f with
  | none =>
      have hsame : (fun q => (qs q).erase f) = qs :=
        funext fun q => List.erase_of_not_mem (h.holds.not_mem hq q)
      rw [unlink_of_queue_eq_none hq, hsame]
      exact h.holds
  | some k =>
      have hsame : (fun q => (qs q).erase f) = update qs k ((qs k).erase f) := by
        funext q
        rw [update_apply]
        split
        case isTrue hqk => rw [hqk]
        case isFalse hqk =>
          refine List.erase_of_not_mem fun hf => hqk (h.holds.disjoint hf (h.holds.mem f k hq))
      rw [hsame]
      exact holds_unlink h.holds hq

/-- The fiber `f` is queued. -/
theorem Whole.append (h : Whole s qs held) (hf : s.links.queue f = none) (hgood : s.Fiber f)
    (q : Queue) :
    Holds (s.links.append s.created f q) (update qs q (qs q ++ [f])) ∧
      ∀ q', ∀ x ∈ update qs q (qs q ++ [f]) q', s.Fiber x := by
  refine ⟨holds_append h.holds hf (h.length_le q), fun q' x hx => ?_⟩
  by_cases hqq : q' = q
  · rw [hqq, update_self] at hx
    rcases List.mem_append.mp hx with hx | hx
    · exact h.bound q x hx
    · rw [List.mem_singleton.mp hx]
      exact hgood
  · rw [update_of_ne hqq] at hx
    exact h.bound q' x hx

/-! ## 4. Walks -/

theorem movedOf_cons (w : Walk) (ws : List Walk) : movedOf (w :: ws) = w.place.holding ++ movedOf ws :=
  List.flatMap_cons ..

/-- A walk begins at the head of a queue. -/
theorem whole_enter (h : Whole s qs held) (kind : Kind) : Whole (s.enter kind).1 qs held := by
  have hmoved : movedOf (s.enter kind).1.walks = movedOf s.walks := rfl
  refine ⟨h.holds, h.bound, h.code, h.others, h.ops, hmoved ▸ h.distinct, hmoved ▸ h.free,
    hmoved ▸ h.lost, ⟨trivial, fun p hp => ?_, h.apart⟩, h.current, h.idle, h.forked⟩
  have hmem := h.holds.head_mem (Option.mem_toList.mp hp)
  exact ⟨h.bound _ p hmem, h.not_held hmem⟩

/-- The walk goes to a place where it holds the same, and comes to fibers that nobody holds. -/
theorem Whole.move (h : Whole s qs held) (hw : s.walks = w :: ws) {p : Place}
    (hheld : p.holding = w.place.holding) (hforward : p.forward)
    (hpointers : ∀ x ∈ p.pointers, s.Fiber x ∧ x ∉ held ++ movedOf ws) :
    Whole { s with walks := { w with place := p } :: ws } qs held := by
  have hmoved : movedOf ({ w with place := p } :: ws) = movedOf s.walks := by
    rw [hw, movedOf_cons, movedOf_cons]
    exact congrArg (· ++ movedOf ws) hheld
  have hapart := h.apart
  rw [hw] at hapart
  exact ⟨h.holds, h.bound, h.code, h.others, h.ops, hmoved ▸ h.distinct, hmoved ▸ h.free,
    hmoved ▸ h.lost, ⟨hforward, hpointers, hapart.2.2⟩, h.current, h.idle, h.forked⟩

/-- The walk takes the fiber it stands at. -/
theorem Whole.take (h : Whole s qs held) (hw : s.walks = w :: ws) {t : Option Nat}
    (hplace : w.place = .found f t) (b : Bool) :
    Whole { s with links := s.links.unlink f,
                   walks := { w with notifyOneComplete := b, place := .moved f t } :: ws }
      (fun q => (qs q).erase f) held := by
  have hapart := h.apart
  have hdistinct := h.distinct
  have hfree := h.free
  have hlost := h.lost
  rw [hw, movedOf_cons, hplace, Place.holding, List.nil_append] at hdistinct hfree hlost
  rw [hw, Apart, hplace] at hapart
  obtain ⟨hforward, hpointers, hrest⟩ := hapart
  obtain ⟨hgood, hf⟩ := hpointers f List.mem_cons_self
  obtain ⟨hholds, hqueue⟩ := h.unlink f
  have hmem : ∀ x, x ∈ held ++ ([f] ++ movedOf ws) ↔ x = f ∨ x ∈ held ++ movedOf ws := by
    intro x
    simp only [List.mem_append, List.mem_singleton]
    tauto
  refine ⟨hholds, fun q x hx => h.bound q x (List.mem_of_mem_erase hx), h.code, h.others, h.ops,
    ?_, ?_, ?_, ⟨hforward, fun p hp => hpointers p (List.mem_cons_of_mem _ hp), hrest⟩, h.current,
    h.idle, h.forked⟩
  · show (held ++ ([f] ++ movedOf ws)).Nodup
    exact List.nodup_middle.mpr (List.nodup_cons.mpr ⟨hf, hdistinct⟩)
  · intro x hx
    rw [show (s.links.unlink f).queue x = _ from congrFun hqueue x]
    rcases (hmem x).mp hx with rfl | hx
    · exact ⟨update_self .., hgood⟩
    · have hxf : x ≠ f := fun e => hf (e ▸ hx)
      rw [update_of_ne hxf]
      exact hfree x hx
  · intro x hx hq
    rw [show (s.links.unlink f).queue x = _ from congrFun hqueue x] at hq
    refine (hmem x).mpr ?_
    by_cases hxf : x = f
    · exact .inl hxf
    · rw [update_of_ne hxf] at hq
      exact .inr (hlost x hx hq)

/-- The walk puts the fiber it holds on the run queue. -/
theorem Whole.put (h : Whole s qs held) (hw : s.walks = w :: ws) {t : Option Nat}
    (hplace : w.place = .moved f t) :
    Whole { s with links := s.links.append s.created f .runQueue,
                   walks := { w with place := .loop t } :: ws }
      (update qs .runQueue (qs .runQueue ++ [f])) held := by
  have hapart := h.apart
  have hdistinct := h.distinct
  have hfree := h.free
  have hlost := h.lost
  rw [hw, movedOf_cons, hplace, Place.holding] at hdistinct hfree hlost
  rw [hw, Apart, hplace] at hapart
  obtain ⟨hforward, hpointers, hrest⟩ := hapart
  obtain ⟨hf, hdistinct⟩ := List.nodup_cons.mp (List.nodup_middle.mp hdistinct)
  obtain ⟨hnone, hgood⟩ := hfree f (List.mem_append_right _ List.mem_cons_self)
  obtain ⟨hholds, hbound⟩ := h.append hnone hgood .runQueue
  have hqueue := append_queue s.links s.created f Queue.runQueue
  have hmem : ∀ x, x ∈ held ++ movedOf ws → x ∈ held ++ ([f] ++ movedOf ws) := by
    intro x hx
    rcases List.mem_append.mp hx with hx | hx
    · exact List.mem_append_left _ hx
    · exact List.mem_append_right _ (List.mem_append_right _ hx)
  refine ⟨hholds, hbound, h.code, h.others, h.ops, hdistinct, ?_, ?_,
    ⟨trivial, hpointers, hrest⟩, h.current, h.idle, h.forked⟩
  · intro x hx
    have hxf : x ≠ f := fun e => hf (e ▸ hx)
    rw [show (s.links.append s.created f .runQueue).queue x = _ from congrFun hqueue x,
      update_of_ne hxf]
    exact hfree x (hmem x hx)
  · intro x hx hq
    rw [show (s.links.append s.created f .runQueue).queue x = _ from congrFun hqueue x] at hq
    by_cases hxf : x = f
    · rw [hxf, update_self] at hq
      cases hq
    · rw [update_of_ne hxf] at hq
      have := hlost x hx hq
      simp only [List.mem_append, List.mem_singleton] at this ⊢
      tauto

variable {h₀ : History}

theorem whole_goesOn (h : Whole s h₀.queue held) (hw : s.walks = w :: ws) :
    Whole (s.goesOn w ws).1 ((s.goesOn w ws).2.foldl History.note h₀).queue held := by
  have hapart := h.apart
  rw [hw, Apart] at hapart
  obtain ⟨hforward, hpointers, hrest⟩ := hapart
  unfold State.goesOn
  cases hplace : w.place with
  | loop f =>
      rw [hplace] at hpointers
      have hmoved : movedOf s.walks = movedOf ws := by
        rw [hw, movedOf_cons, hplace]
        rfl
      cases f with
      | none =>
          exact ⟨h.holds, h.bound, h.code, h.others, h.ops, hmoved ▸ h.distinct,
            hmoved ▸ h.free, hmoved ▸ h.lost, hrest, h.current, h.idle, h.forked⟩
      | some f =>
          obtain ⟨hgood, hf⟩ := hpointers f (Option.mem_toList.mpr rfl)
          obtain ⟨q, hq⟩ := h.on_queue hgood (hmoved ▸ hf)
          have hfq := h.holds.queue_eq.mp hq
          refine h.move hw (by rw [hplace]; rfl) (fun e => ?_) fun x hx => ?_
          · exact (h.holds.next_mem hfq e).2 rfl
          · rcases List.mem_cons.mp hx with rfl | hx
            · exact ⟨hgood, hf⟩
            · have hmem := (h.holds.next_mem hfq (Option.mem_toList.mp hx)).1
              exact ⟨h.bound q x hmem, hmoved ▸ h.not_held hmem⟩
  | found f t =>
      rw [hplace] at hpointers
      simp only
      split
      case isTrue => exact h.take hw hplace _
      case isFalse =>
        exact h.move hw (by rw [hplace]; rfl) trivial fun x hx =>
          hpointers x (List.mem_cons_of_mem _ hx)
  | moved f t => exact h.put hw hplace

theorem whole_walk (h : Whole s h₀.queue held) (hs : s.walk = some (s', ev)) :
    Whole s' (ev.foldl History.note h₀).queue held := by
  unfold State.walk at hs
  split at hs
  case h_1 => cases hs
  case h_2 w ws hw =>
    have he := Option.some.inj hs
    rw [← show (s.goesOn w ws).1 = s' from congrArg Prod.fst he,
      ← show (s.goesOn w ws).2 = ev from congrArg Prod.snd he]
    exact whole_goesOn h hw

/-! ## 5. Calls -/

/-- **The current code goes on**: it has `ops` left, and the links and the fibers it holds may have
    changed. -/
theorem Whole.goesOn (h : Whole s qs held) (hw : s.walks = []) {links : Links Nat Queue}
    (context : Nat → Nat) {qs' : Queue → List Nat} {held' : List Nat} (hholds : Holds links qs')
    (hbound : ∀ q, ∀ f ∈ qs' q, s.Fiber f) (hcode : Balanced held' ops)
    (hops : ∀ op ∈ ops, ∀ x, op.fiber? = some x → s.Fiber x) (hdistinct : held'.Nodup)
    (hfree : ∀ f ∈ held', links.queue f = none ∧ s.Fiber f)
    (hlost : ∀ f, s.Fiber f → links.queue f = none → f ∈ held') :
    Whole { s.does ops with links := links, context := context } qs' held' := by
  have hmoved : held' ++ movedOf s.walks = held' := by
    rw [hw]
    exact List.append_nil held'
  refine ⟨hholds, hbound, ?_, fun f hf => ?_, fun f op hop x hx => ?_, ?_, fun f hf => ?_,
    fun f hf hq => ?_, ?_, h.current, h.idle, h.forked⟩
  · show Balanced held' (update s.code s.currentFiber ops s.currentFiber)
    rw [update_self]
    exact hcode
  · show Balanced [] (update s.code s.currentFiber ops f)
    rw [update_of_ne (show f ≠ s.currentFiber from hf)]
    exact h.others f hf
  · have hop : op ∈ update s.code s.currentFiber ops f := hop
    rw [update_apply] at hop
    split at hop
    case isTrue => exact hops op hop x hx
    case isFalse => exact h.ops f op hop x hx
  · show (held' ++ movedOf s.walks).Nodup
    rw [hmoved]
    exact hdistinct
  · have hf : f ∈ held' ++ movedOf s.walks := hf
    rw [hmoved] at hf
    exact hfree f hf
  · show f ∈ held' ++ movedOf s.walks
    rw [hmoved]
    exact hlost f hf hq
  · show Apart held' s.Fiber s.walks
    rw [hw]
    trivial

/-- No walk is open: what is held, is held by the current code. -/
theorem Whole.held_of_walks (h : Whole s qs held) (hw : s.walks = []) :
    held.Nodup ∧ (∀ f ∈ held, s.links.queue f = none ∧ s.Fiber f) ∧
      ∀ f, s.Fiber f → s.links.queue f = none → f ∈ held := by
  have hmoved : held ++ movedOf s.walks = held := by
    rw [hw]
    exact List.append_nil held
  exact ⟨hmoved ▸ h.distinct, hmoved ▸ h.free, hmoved ▸ h.lost⟩

/-- A forked fiber takes over the code. -/
theorem whole_fork (h : Whole s qs []) (hforked : s.forkedFiber = some f) :
    Whole (s.fork f) qs [] := by
  have hcode : ∀ g, (s.fork f).code g = [] ∨ ∃ f', (s.fork f).code g = s.code f' := by
    intro g
    by_cases hg : g = s.currentFiber
    · exact .inl (by rw [hg]; exact update_self ..)
    · refine .inr ?_
      rw [show (s.fork f).code g = update s.code f (s.code s.currentFiber) g from
        update_of_ne hg .., update_apply]
      split
      · exact ⟨_, rfl⟩
      · exact ⟨_, rfl⟩
  have hbalanced : ∀ g, Balanced [] ((s.fork f).code g) := by
    intro g
    rcases hcode g with hno | ⟨f', hf'⟩
    · rw [hno]
      rfl
    · rw [hf']
      by_cases hc : f' = s.currentFiber
      · rw [hc]
        exact h.code
      · exact h.others f' hc
  have hchild : (s.fork f).child s.idleFiber = false :=
    (update_of_ne (h.forked f hforked).2.symm ..).trans h.idle.2
  refine ⟨h.holds, h.bound, hbalanced _, fun g _ => hbalanced g, fun g op hop => ?_, h.distinct,
    h.free, h.lost, h.apart, h.current, ⟨h.idle.1, hchild⟩, h.forked⟩
  rcases hcode g with hno | ⟨f', hf'⟩
  · rw [hno] at hop
    cases hop
  · exact h.ops f' op (hf' ▸ hop)

/-- `schedule` chooses a fiber. -/
theorem Whole.chosen (h : Whole s qs held) : s.chosen < s.created := by
  unfold State.chosen
  split
  case h_1 => exact h.idle.1
  case h_2 hd hhead =>
    have hmem := h.holds.head_mem hhead
    split
    case isTrue hrun =>
      cases hnext : s.links.next s.currentFiber with
      | none => exact (h.bound _ hd hmem).1
      | some x => exact (h.bound _ x (h.holds.next_mem (h.holds.queue_eq.mp hrun) hnext).1).1
    case isFalse => exact (h.bound _ hd hmem).1

theorem whole_schedule (h : Whole s h₀.queue []) (hs : s.schedule = some (s', ev)) :
    Whole s' (ev.foldl History.note h₀).queue [] := by
  unfold State.schedule at hs
  split at hs
  case isTrue =>
    obtain ⟨f, hforked, he⟩ := Option.map_eq_some_iff.mp hs
    cases he
    exact whole_fork h hforked
  case isFalse =>
    cases hs
    refine ⟨h.holds, h.bound, ?_, fun g hg => ?_, h.ops, h.distinct, h.free, h.lost, h.apart,
      h.chosen, h.idle, h.forked⟩
    · show Balanced [] (s.code s.chosen)
      by_cases hc : s.chosen = s.currentFiber
      · rw [hc]
        exact h.code
      · exact h.others _ hc
    · show Balanced [] (s.code g)
      by_cases hc : g = s.currentFiber
      · rw [hc]
        exact h.code
      · exact h.others g hc

/-- **The current fiber goes on with its call.** -/
theorem whole_run_step (h : Whole s h₀.queue held) (hw : s.walks = [])
    (hs : s.run = some (s', ev)) : ∃ held', Whole s' (ev.foldl History.note h₀).queue held' := by
  obtain ⟨hnodup, hfree, hlost⟩ := h.held_of_walks hw
  have hcode := h.code
  have hops := h.ops s.currentFiber
  unfold State.run at hs
  cases hc : s.code s.currentFiber with
  | nil =>
      rw [hc] at hs
      cases hs
  | cons op ops =>
      rw [hc] at hs hcode hops
      have hops' : ∀ op ∈ ops, ∀ x, op.fiber? = some x → s.Fiber x :=
        fun o ho => hops o (List.mem_cons_of_mem _ ho)
      cases op with
      | sleepUntil f t =>
          cases hs
          exact ⟨held, h.goesOn hw _ h.holds h.bound hcode hops' hnodup hfree hlost⟩
      | waitFor f id value =>
          cases hs
          exact ⟨held, h.goesOn hw _ h.holds h.bound hcode hops' hnodup hfree hlost⟩
      | dequeue f =>
          cases hs
          obtain ⟨hholds, hqueue⟩ := h.unlink f
          have hgood := hops _ List.mem_cons_self f rfl
          have hqueue : ∀ x, ((s.does ops).links.unlink f).queue x =
            update s.links.queue f none x := congrFun hqueue
          refine ⟨_, h.goesOn hw _ hholds (fun q x hx => h.bound q x (List.mem_of_mem_erase hx))
            hcode hops' ?_ (fun x hx => ?_) fun x hx hq => ?_⟩
          · split
            case isTrue => exact hnodup
            case isFalse hf => exact List.nodup_cons.mpr ⟨hf, hnodup⟩
          · rw [hqueue, update_apply]
            split
            case isTrue hxf => exact ⟨rfl, hxf ▸ hgood⟩
            case isFalse hxf =>
              refine hfree x ?_
              split at hx
              · exact hx
              · exact (List.mem_cons.mp hx).resolve_left hxf
          · rw [hqueue, update_apply] at hq
            split at hq
            case isTrue hxf =>
              subst hxf
              split
              · assumption
              · exact List.mem_cons_self
            case isFalse hxf =>
              have := hlost x hx hq
              split
              · exact this
              · exact List.mem_cons_of_mem _ this
      | queue f q =>
          cases hs
          obtain ⟨hf, hcode⟩ := hcode
          obtain ⟨hnone, hgood⟩ := hfree f hf
          obtain ⟨hholds, hbound⟩ := h.append hnone hgood q
          have hqueue : ∀ x, ((s.does ops).links.append (s.does ops).created f q).queue x =
            update s.links.queue f (some q) x := congrFun (append_queue s.links s.created f q)
          refine ⟨_, h.goesOn hw _ hholds hbound hcode hops' (hnodup.erase f) (fun x hx => ?_)
            fun x hx hq => ?_⟩
          · obtain ⟨hxf, hx⟩ := (hnodup.mem_erase_iff).mp hx
            rw [hqueue, update_of_ne hxf]
            exact hfree x hx
          · rw [hqueue, update_apply] at hq
            split at hq
            case isTrue => cases hq
            case isFalse hxf => exact (List.mem_erase_of_ne hxf).mpr (hlost x hx hq)
      | schedule =>
          obtain ⟨rfl, hcode⟩ := hcode
          exact ⟨[], whole_schedule
            (h.goesOn hw _ h.holds h.bound hcode hops' hnodup hfree hlost) hs⟩

/-- A fiber from the pool: it is taken out of it first. -/
theorem whole_get_pool (h : Whole s qs []) {o : Option Nat}
    (hhead : s.links.head .fiberPool = some f)
    (hops : About f ops) (hbalanced : Balanced [f] ops)
    (ho : ∀ g, o = some g → g = f ∨ s.forkedFiber = some g) :
    Whole (State.does { s with fob := update s.fob f false, child := update s.child f false,
                               code := update s.code f [], forkedFiber := o } (.dequeue f :: ops))
      qs [] := by
  have hgood := h.bound _ f (h.holds.head_mem hhead)
  refine ⟨h.holds, h.bound, ?_, fun g hg => ?_, fun g op hop x hx => ?_, h.distinct, h.free, h.lost,
    h.apart, h.current, ⟨h.idle.1, ?_⟩, fun g hg => ?_⟩
  · show Balanced [] (update (update s.code f []) s.currentFiber (.dequeue f :: ops) s.currentFiber)
    rw [update_self]
    exact hbalanced
  · show Balanced [] (update (update s.code f []) s.currentFiber (.dequeue f :: ops) g)
    rw [update_of_ne (show g ≠ s.currentFiber from hg), update_apply]
    split
    · rfl
    · exact h.others g hg
  · have hop : op ∈ update (update s.code f []) s.currentFiber (.dequeue f :: ops) g := hop
    rw [update_apply, update_apply] at hop
    show s.Fiber x
    split at hop
    case isTrue =>
      rcases List.mem_cons.mp hop with rfl | hop
      · cases hx
        exact hgood
      · rw [hops op hop x hx]
        exact hgood
    case isFalse =>
      split at hop
      · cases hop
      · exact h.ops g op hop x hx
  · show update s.child f false s.idleFiber = false
    rw [update_of_ne hgood.2.symm]
    exact h.idle.2
  · rcases ho g hg with rfl | hg
    · exact hgood
    · exact h.forked g hg

theorem Whole.queue_created (h : Whole s qs held) : s.links.queue s.created = none := by
  cases hq : s.links.queue s.created with
  | none => rfl
  | some q => exact absurd (h.bound q _ (h.holds.queue_eq.mp hq)).1 (Nat.lt_irrefl _)

/-- A new fiber: it is on no queue, and the code holds it at once. -/
theorem whole_get_new (h : Whole s qs []) (hw : s.walks = []) {o : Option Nat}
    (hops : About s.created ops)
    (hbalanced : Balanced [s.created] ops)
    (ho : ∀ g, o = some g → g = s.created ∨ s.forkedFiber = some g) :
    Whole (State.does { s with created := s.created + 1, forkedFiber := o } ops) qs
      [s.created] := by
  have hmoved : movedOf s.walks = [] := by
    rw [hw]
    rfl
  let s₁ : State := { s with created := s.created + 1 }
  have hmono : ∀ x, s.Fiber x → s₁.Fiber x := fun x hx => ⟨Nat.lt_succ_of_lt hx.1, hx.2⟩
  have hgood : s₁.Fiber s.created := ⟨Nat.lt_succ_self _, (Nat.ne_of_lt h.idle.1).symm⟩
  refine ⟨h.holds, fun q x hx => hmono x (h.bound q x hx), ?_, fun g hg => ?_,
    fun g op hop x hx => ?_, ?_, fun x hx => ?_, fun x hx hq => ?_, ?_,
    Nat.lt_succ_of_lt h.current, ⟨Nat.lt_succ_of_lt h.idle.1, h.idle.2⟩, fun g hg => ?_⟩
  · show Balanced [s.created] (update s.code s.currentFiber ops s.currentFiber)
    rw [update_self]
    exact hbalanced
  · show Balanced [] (update s.code s.currentFiber ops g)
    rw [update_of_ne (show g ≠ s.currentFiber from hg)]
    exact h.others g hg
  · have hop : op ∈ update s.code s.currentFiber ops g := hop
    rw [update_apply] at hop
    show s₁.Fiber x
    split at hop
    case isTrue =>
      rw [hops op hop x hx]
      exact hgood
    case isFalse => exact hmono x (h.ops g op hop x hx)
  · show ([s.created] ++ movedOf s.walks).Nodup
    rw [hmoved]
    exact List.nodup_singleton _
  · have hx : x ∈ [s.created] ++ movedOf s.walks := hx
    rw [hmoved, List.append_nil, List.mem_singleton] at hx
    rw [hx]
    exact ⟨h.queue_created, hgood⟩
  · show x ∈ [s.created] ++ movedOf s.walks
    rw [hmoved, List.append_nil, List.mem_singleton]
    by_cases hlt : x < s.created
    · have := h.lost x ⟨hlt, hx.2⟩ hq
      rw [hmoved] at this
      cases this
    · exact Nat.le_antisymm (Nat.le_of_lt_succ hx.1) (Nat.le_of_not_lt hlt)
  · show Apart _ _ s.walks
    rw [hw]
    trivial
  · rcases ho g hg with rfl | hg
    · exact hgood
    · exact hmono g (h.forked g hg)

/-- **`getFiberContext`, and what is done with the fiber**: code that queues it if it holds it. -/
theorem whole_get (h : Whole s qs []) (hw : s.walks = []) {o : Option Nat} {get : List Op}
    {s₁ : State} (hget : s.getFiberContext = (f, get, s₁)) (hops : About f ops)
    (hbalanced : Balanced [f] ops) (ho : ∀ g, o = some g → g = f ∨ s.forkedFiber = some g) :
    ∃ held', Whole ({ s₁ with forkedFiber := o }.does (get ++ ops)) qs held' := by
  unfold State.getFiberContext at hget
  split at hget
  case h_1 f' hhead =>
    cases hget
    exact ⟨[], whole_get_pool h hhead hops hbalanced ho⟩
  case h_2 hhead =>
    cases hget
    exact ⟨[s.created], whole_get_new h hw hops hbalanced ho⟩

/-- The current fiber takes itself out of its queue, and puts itself into another one. -/
theorem whole_own (h : Whole s qs []) (hw : s.walks = []) (hc : s.Fiber s.currentFiber)
    (hops : About s.currentFiber ops) (hbalanced : Balanced [] ops) :
    Whole (s.does ops) qs [] := by
  obtain ⟨hnodup, hfree, hlost⟩ := h.held_of_walks hw
  exact h.goesOn hw s.context h.holds h.bound hbalanced
    (fun op hop x hx => by rw [hops op hop x hx]; exact hc) hnodup hfree hlost

/-- Code that is not invoked is that of a fiber which may block. -/
theorem Whole.fiber_current (h : Whole s qs held) (hidle : s.idles = false)
    (hfob : ¬ s.fob s.currentFiber = true) : s.Fiber s.currentFiber := by
  refine ⟨h.current, fun e => ?_⟩
  have := of_decide_eq_false hidle
  exact this ⟨e, Bool.eq_false_iff.mpr hfob⟩

theorem about_wait (f id value : Nat) {behind : List Op} (h : About f behind) :
    About f (State.waitOps f id value ++ behind) :=
  about_cons (.inr rfl) (about_cons (.inr rfl) (about_cons (.inr rfl) h))

theorem about_fork (f : Nat) (h : About f ops) : About f (State.forkOps f ++ ops) :=
  about_cons (.inr rfl) (about_cons (.inr rfl) (about_cons (.inl rfl) h))

theorem balanced_wait (f id value : Nat) {behind : List Op} (h : Balanced [] behind) :
    Balanced [] (State.waitOps f id value ++ behind) := by
  simpa [State.waitOps, Balanced] using h

theorem balanced_fork (f : Nat) (h : Balanced [] ops) : Balanced [f] (State.forkOps f ++ ops) := by
  simpa [State.forkOps, Balanced] using h

theorem whole_sleep (h : Whole s qs []) (hw : s.walks = []) (hidle : s.idles = false) (t : Nat) :
    ∃ held', Whole (s.sleep t) qs held' := by
  have habout : ∀ f, About f (State.sleepOps f t) := fun f =>
    about_cons (.inr rfl) (about_cons (.inr rfl) (about_cons (.inr rfl)
      (about_cons (.inl rfl) (about_nil f))))
  unfold State.sleep
  split
  case isTrue =>
    rcases hget : s.getFiberContext with ⟨f, get, s₁⟩
    exact whole_get h hw hget (habout f) (by simp [State.sleepOps, Balanced])
      fun g hg => .inl (Option.some.inj hg).symm
  case isFalse hfob =>
    exact ⟨[], whole_own h hw (h.fiber_current hidle hfob) (habout _)
      (by simp [State.sleepOps, Balanced])⟩

theorem whole_wakeOnEvent (h : Whole s qs []) (hw : s.walks = []) (hidle : s.idles = false)
    (id value : Nat) {behind : List Op} (hbehind : behind = [] ∨ behind = [.schedule]) :
    ∃ held', Whole (s.wakeOnEvent id value behind) qs held' := by
  have habout : ∀ f, About f behind := by
    intro f
    rcases hbehind with rfl | rfl
    · exact about_nil f
    · exact about_cons (.inl rfl) (about_nil f)
  have hbalanced : Balanced [] behind := by
    rcases hbehind with rfl | rfl
    · rfl
    · exact ⟨rfl, rfl⟩
  unfold State.wakeOnEvent
  split
  case isTrue =>
    rcases hget : s.getFiberContext with ⟨f, get, s₁⟩
    exact whole_get h hw hget (about_fork f (about_wait f id value (habout f)))
      (balanced_fork f (balanced_wait f id value hbalanced))
      fun g hg => .inl (Option.some.inj hg).symm
  case isFalse hfob =>
    exact ⟨[], whole_own h hw (h.fiber_current hidle hfob) (about_wait _ id value (habout _))
      (balanced_wait _ id value hbalanced)⟩

theorem whole_createFiber (h : Whole s qs []) (hw : s.walks = []) :
    ∃ held', Whole s.createFiber qs held' := by
  unfold State.createFiber
  rcases hget : s.getFiberContext with ⟨f, get, s₁⟩
  have hsame : s₁.forkedFiber = s.forkedFiber := by
    unfold State.getFiberContext at hget
    split at hget <;> cases hget <;> rfl
  exact whole_get h hw hget (about_cons (.inr rfl) (about_nil f)) (by simp [Balanced])
    fun g hg => .inr (hsame ▸ hg)

theorem whole_release (h : Whole s qs []) (hw : s.walks = []) (hc : s.Fiber s.currentFiber) :
    Whole s.release qs [] :=
  whole_own h hw hc (about_cons (.inr rfl) (about_cons (.inr rfl) (about_cons (.inl rfl)
    (about_nil _)))) (by simp [Balanced])

/-- The flag `MICROBIT_FIBER_FLAG_FOB` is not of concern. -/
theorem Whole.setFob (h : Whole s qs held) (fob : Nat → Bool) : Whole { s with fob := fob } qs held :=
  ⟨h.holds, h.bound, h.code, h.others, h.ops, h.distinct, h.free, h.lost, h.apart, h.current,
    h.idle, h.forked⟩

/-- **A call of the current fiber's own code**, which holds nothing. -/
theorem whole_call (h : Whole s qs held) (hw : s.walks = []) (hcode : s.code s.currentFiber = [])
    {c : Call} (hs : s.call c = some s') : ∃ held', Whole s' qs held' := by
  obtain rfl : held = [] := by
    have := h.code
    rwa [hcode] at this
  cases c with
  | sleep t =>
      simp only [State.call] at hs
      split at hs
      case isTrue => cases hs
      case isFalse hidle =>
        cases hs
        exact whole_sleep h hw (Bool.eq_false_iff.mpr hidle) t
  | wakeOnEvent id value =>
      simp only [State.call] at hs
      split at hs
      case isTrue => cases hs
      case isFalse hidle =>
        cases hs
        exact whole_wakeOnEvent h hw (Bool.eq_false_iff.mpr hidle) id value (.inl rfl)
  | waitForEvent id value =>
      simp only [State.call] at hs
      split at hs
      case isTrue => cases hs
      case isFalse hidle =>
        cases hs
        exact whole_wakeOnEvent h hw (Bool.eq_false_iff.mpr hidle) id value (.inr rfl)
  | createFiber =>
      cases hs
      exact whole_createFiber h hw
  | release =>
      simp only [State.call] at hs
      split at hs
      case isTrue => cases hs
      case isFalse hno =>
        cases hs
        obtain ⟨hidle, hfob⟩ := not_or.mp hno
        exact ⟨[], whole_release h hw (h.fiber_current (Bool.eq_false_iff.mpr hidle) hfob)⟩
  | schedule =>
      simp only [State.call] at hs
      split at hs
      case isTrue => cases hs
      case isFalse =>
        cases hs
        obtain ⟨hnodup, hfree, hlost⟩ := h.held_of_walks hw
        refine ⟨[], h.goesOn hw s.context h.holds h.bound ⟨rfl, rfl⟩ (fun op hop x hx => ?_) hnodup
          hfree hlost⟩
        rw [List.mem_singleton.mp hop] at hx
        cases hx
  | invoke param =>
      cases hs
      unfold State.invoke
      simp only
      split
      case isTrue => exact whole_createFiber h hw
      case isFalse => exact ⟨[], h.setFob _⟩
  | returned =>
      simp only [State.call] at hs
      split at hs
      case isFalse => cases hs
      case isTrue =>
        cases hs
        unfold State.returned
        simp only
        split
        case isFalse => exact ⟨[], h.setFob _⟩
        case isTrue hchild =>
          refine ⟨[], whole_release (h.setFob _) hw ⟨h.current, fun e => ?_⟩⟩
          have hno := h.idle.2
          rw [← show s.currentFiber = s.idleFiber from e] at hno
          rw [show s.child s.currentFiber = true from hchild] at hno
          cases hno

/-! ## 6. Runs -/

theorem whole_start (nested : Bool) :
    Whole (machine nested).start (history []).queue [] := by
  have hempty : Holds (⟨fun _ => none, fun _ => none, fun _ => none, fun _ => none⟩ : Links Nat Queue)
      fun _ => [] :=
    ⟨fun _ => rfl, fun _ => trivial, fun _ => .nil, fun x k hx => by cases hx⟩
  have hholds : Holds (machine nested).start.links (update (fun _ => []) .runQueue [0]) :=
    holds_append hempty rfl (Nat.zero_le 1)
  have hfiber : ∀ f, (machine nested).start.Fiber f ↔ f = 0 := by
    intro f
    show f < 2 ∧ f ≠ 1 ↔ f = 0
    omega
  have hmain : ∀ q, ∀ f ∈ update (fun _ => []) Queue.runQueue [0] q, f = 0 := by
    intro q f hf
    rw [update_apply] at hf
    split at hf
    · exact List.mem_singleton.mp hf
    · cases hf
  refine ⟨hholds, fun q f hf => (hfiber f).mpr (hmain q f hf), rfl, fun _ _ => rfl, ?_, .nil, ?_,
    fun f hf hq => ?_, trivial, Nat.zero_lt_two, ⟨Nat.one_lt_two, rfl⟩, ?_⟩
  · rintro f op ⟨⟩
  · rintro f ⟨⟩
  · rw [(hfiber f).mp hf] at hq
    cases hq
  · rintro f ⟨⟩

theorem whole_step (h : Whole s h₀.queue held) {nested : Bool} {a : Action}
    (hs : step nested s a = some (s', ev)) :
    ∃ held', Whole s' (ev.foldl History.note h₀).queue held' := by
  cases a with
  | call c =>
      simp only [step] at hs
      split at hs
      case isFalse => cases hs
      case isTrue hquiet =>
        obtain ⟨s₁, hcall, he⟩ := Option.map_eq_some_iff.mp hs
        cases he
        exact whole_call h hquiet.1 hquiet.2 hcall
  | run =>
      simp only [step] at hs
      split at hs
      case isFalse => cases hs
      case isTrue hw => exact whole_run_step h hw hs
  | pass dt =>
      cases hs
      exact ⟨held, h.holds, h.bound, h.code, h.others, h.ops, h.distinct, h.free, h.lost, h.apart,
        h.current, h.idle, h.forked⟩
  | tick =>
      obtain ⟨_, he⟩ := Option.ite_none_right_eq_some.mp hs
      cases he
      exact ⟨held, whole_enter h .tick⟩
  | event evt =>
      obtain ⟨_, he⟩ := Option.ite_none_right_eq_some.mp hs
      cases he
      exact ⟨held, whole_enter h (.event evt)⟩
  | walk =>
      exact ⟨held, whole_walk h hs⟩

/-- **In every run the fibers are whole**, and the links hold the queues of the history. -/
theorem whole_run {nested : Bool} {tr : List Event} (hrun : (machine nested).Run s tr) :
    ∃ held, Whole s (history tr).queue held :=
  hrun.inv (I := fun s tr => ∃ held, Whole s (history tr).queue held) ⟨[], whole_start nested⟩
    fun _ tr _ _ ev _ ⟨_, h⟩ hs => by
      rw [history_append]
      exact whole_step h hs

end MicrobitAlarm.Scheduler
