/-
  File:      MicrobitAlarm/Runs/Stream.lean
  Subject:   THE BYTES OF A RUN, from the client's writes to main's lines.

  `flow` follows every byte by its events: stored in the receive buffer, taken by `getc`, gone
  with the line it was taken for, which is passed or destroyed. Each byte keeps the number of the
  connection it was written on. The bytes themselves say nothing about buffers or locals:

  * `stored_eq_flow` -- the bytes stored are those gone, held and waiting, in this order;
  * `flowInv_run` -- the waiting ones are the contents of the receive buffer, the held ones are
    main's line with the byte in its hand, NUL bytes aside, and a line that is passed or destroyed
    is made of the bytes held for it;
  * `droppedFull_run` -- a byte is dropped only while 64 bytes wait.
-/
import MicrobitAlarm.Runs.Script
import Mathlib.Data.List.Induction

namespace MicrobitAlarm

open Trace Framing

/-! ## 1. The bytes, read off the events -/

/-- A byte and the connection it was written on. -/
abbrev Cell := Nat × UInt8

def Event.storedCell : Event → Option Cell
  | .stored conn b => some (conn, b)
  | _ => none

def Event.takenByte : Event → Option UInt8
  | .taken b => some b
  | _ => none

def Event.receipt : Event → Option Receipt
  | .stored _ b => some (.stored b)
  | .dropped _ b => some (.dropped b)
  | _ => none

/-- The bytes put into the receive buffer, in order. -/
def stored (tr : List Event) : List Cell := tr.filterMap Event.storedCell

/-- The bytes `getc` took out. -/
def taken (tr : List Event) : List UInt8 := tr.filterMap Event.takenByte

/-- What became of the bytes that clients wrote, in order. -/
def arrivals (tr : List Event) : List Receipt := tr.filterMap Event.receipt

/-- A byte that was written, whatever became of it. -/
def Receipt.byte : Receipt → UInt8
  | .stored b => b
  | .dropped b => b

/-- The bytes clients wrote. -/
def written (tr : List Event) : List UInt8 := (arrivals tr).map Receipt.byte

/-- The text of a list of bytes: a NUL byte adds nothing to a string. -/
def text (bs : List UInt8) : List UInt8 := bs.filter (· != 0)

/-- The bytes of cells. -/
def bytes (cs : List Cell) : List UInt8 := cs.map (·.2)

/-- Where the bytes of a run are. -/
structure Flow where
  /-- taken for a line that has been passed or destroyed -/
  gone : List Cell
  /-- taken for the line being built -/
  held : List Cell
  /-- in the receive buffer -/
  queue : List Cell

/-- One event. -/
def Flow.read (f : Flow) : Event → Flow
  | .stored conn b => { f with queue := f.queue ++ [(conn, b)] }
  | .taken _ =>
    match f.queue with
    | [] => f
    | x :: q => { f with held := f.held ++ [x], queue := q }
  | .line _ _ _ _ => { f with gone := f.gone ++ f.held, held := [] }
  | .discarded _ => { f with gone := f.gone ++ f.held, held := [] }
  | _ => f

/-- **Where the bytes of a run are**, from its events. -/
def flow (tr : List Event) : Flow := tr.foldl Flow.read ⟨[], [], []⟩

theorem flow_append (tr ev : List Event) : flow (tr ++ ev) = ev.foldl Flow.read (flow tr) :=
  List.foldl_append

theorem flow_snoc (tr : List Event) (e : Event) : flow (tr ++ [e]) = (flow tr).read e :=
  flow_append tr [e]

theorem stored_append (tr ev : List Event) : stored (tr ++ ev) = stored tr ++ stored ev :=
  List.filterMap_append

theorem arrivals_append (tr ev : List Event) :
    arrivals (tr ++ ev) = arrivals tr ++ arrivals ev := List.filterMap_append

/-- **Nothing is lost or reordered**: the bytes stored are those gone, held and waiting. -/
theorem stored_eq_flow (tr : List Event) :
    stored tr = (flow tr).gone ++ (flow tr).held ++ (flow tr).queue := by
  induction tr using List.reverseRecOn with
  | nil => rfl
  | append_singleton tr e ih =>
      rw [flow_snoc, stored_append, ih]
      cases e with
      | stored conn b => simp [Flow.read, stored, Event.storedCell]
      | taken b =>
          show _ ++ [] = _
          rw [List.append_nil]
          cases hq : (flow tr).queue with
          | nil => simp [Flow.read, hq]
          | cons x q => simp [Flow.read, hq]
      | line t l rm as => simp [Flow.read, stored, Event.storedCell]
      | discarded l => simp [Flow.read, stored, Event.storedCell]
      | _ => exact List.append_nil _

theorem text_append (xs ys : List UInt8) : text (xs ++ ys) = text xs ++ text ys :=
  List.filter_append xs ys

theorem text_of_noNul {bs : List UInt8} (h : ∀ b ∈ bs, b ≠ 0) : text bs = bs :=
  List.filter_eq_self.mpr fun b hb => by simpa using h b hb

theorem data_ofChar_eq_text (b : UInt8) : (ManagedString.ofChar b).data = text [b] := by
  rw [ManagedString.data_ofChar, text]
  by_cases h : b = 0
  · simp [h]
  · simp [h]

/-! ## 2. The receipts of a write -/

theorem flow_receipts (f : Flow) (conn : Nat) (rs : List Receipt) :
    (rs.map (Event.ofReceipt conn)).foldl Flow.read f =
      { f with queue := f.queue ++ (Uart.kept rs).map fun b => (conn, b) } := by
  induction rs generalizing f with
  | nil => simp [Uart.kept]
  | cons r rs ih =>
      rw [List.map_cons, List.foldl_cons, ih]
      cases r with
      | stored b => simp [Flow.read, Event.ofReceipt, Uart.kept]
      | dropped b => simp [Flow.read, Event.ofReceipt, Uart.kept]

/-! ## 3. Buffers and lines -/

/-- The byte `getc` has returned and main has not yet appended. -/
def Pc.inHand : Pc → List UInt8
  | .send gotc => [gotc]
  | .indicate gotc _ => [gotc]
  | .blocked gotc _ => [gotc]
  | .append gotc => [gotc]
  | .outOfMemory pc => pc.inHand
  | _ => []

/-- Outside the scope of main's line. -/
def Pc.outside : Pc → Bool
  | .scroll => true
  | .outer => true
  | .outerSleep _ => true
  | _ => false

/-- Nothing is on its way to main. -/
def Drained (b : Board) : Prop := b.pc.inHand = [] ∧ b.uart.rx.contents = []

instance (b : Board) : Decidable (Drained b) := inferInstanceAs (Decidable (_ ∧ _))

/-- The board has panicked because main's line did not fit with one more byte. -/
def Overlong (b : Board) (held : List UInt8) : Prop :=
  b.pc = .panicked ∧ (∀ y ∈ b.line.data, newline y = false) ∧
    ∃ gotc, text held = b.line.data ++ text [gotc] ∧ maxLength < (text held).length

/-- What an event says about the bytes before it. -/
def FromHeld (pre : List Event) : Event → Prop
  | .line _ l _ _ => text (bytes (flow pre).held) = l.data
  | .discarded l => text (bytes (flow pre).held) = l.data
  | .taken b => ∃ conn q, (flow pre).queue = (conn, b) :: q
  | _ => True

/-- **The bytes are where the events say.** -/
structure FlowInv (b : Board) (tr : List Event) : Prop where
  events : Always FromHeld tr
  queue : bytes (flow tr).queue = b.uart.rx.contents
  held : (∃ h, bytes (flow tr).held = h ++ b.pc.inHand ∧ text h = b.unterminated) ∨
    Overlong b (bytes (flow tr).held)
  fresh : b.pc.outside = true → b.line = .empty

theorem flowInv_init : FlowInv Board.init [] :=
  ⟨always_nil, by decide, .inl ⟨[], rfl, rfl⟩, fun _ => rfl⟩

variable {b b' : Board} {tr ev : List Event}

/-- Before a panic the held bytes are main's line and the byte in its hand. -/
theorem FlowInv.holds (hi : FlowInv b tr) (hp : b.pc ≠ .panicked) :
    ∃ h, bytes (flow tr).held = h ++ b.pc.inHand ∧ text h = b.unterminated := by
  rcases hi.held with h | h
  · exact h
  · exact absurd h.1 hp

/-- A step that moves no byte. -/
theorem FlowInv.still (hi : FlowInv b tr) (hp : b.pc ≠ .panicked)
    (he : ev.foldl Flow.read (flow tr) = flow tr)
    (hev : Always (fun pre e => FromHeld (tr ++ pre) e) ev) (hrx : b'.uart.rx = b.uart.rx)
    (hh : b'.pc.inHand = b.pc.inHand) (hc : b'.pc.called = b.pc.called) (hl : b'.line = b.line)
    (ho : b'.pc.outside = true → b.line = .empty) : FlowInv b' (tr ++ ev) := by
  have hu : b'.unterminated = b.unterminated := by
    rw [Board.unterminated, Board.unterminated, hc, hl]
  refine ⟨always_append.mpr ⟨hi.events, hev⟩, ?_, ?_, fun h => hl.trans (ho h)⟩
  · rw [flow_append, he, hrx]
    exact hi.queue
  · rw [flow_append, he, hh, hu]
    exact .inl (hi.holds hp)

/-- Main's line does not fit with the byte in its hand. -/
theorem FlowInv.overlong {gotc : UInt8} (hi : FlowInv b tr) (hsi : ScriptInv b)
    (h : b.pc = .append gotc) (hl : b.line.concat (.ofChar gotc) = none) :
    Overlong { b with pc := .panicked } (bytes (flow tr).held) := by
  obtain ⟨x, hx, ht⟩ := hi.holds (by simp [h])
  have hopen : b.unterminated = b.line.data := by simp [Board.unterminated, h, Pc.called]
  refine ⟨rfl, hopen ▸ hsi.noNewline, gotc, ?_⟩
  rw [hx, h, text_append, ht, hopen]
  refine ⟨rfl, ?_⟩
  have hlen := ManagedString.concat_eq_none.mp hl
  rw [data_ofChar_eq_text] at hlen
  rw [List.length_append]
  exact hlen

/-- The main fiber moves on. -/
theorem flowInv_move {pc : Pc} (hsi : ScriptInv b) (hpk : b.pc ≠ .panicked) (hi : FlowInv b tr)
    (h : b.Move pc) : FlowInv { b with pc := pc } (tr ++ []) := by
  have hquiet : ∀ {p q : Pc}, b.pc = p → q.inHand = p.inHand → q.called = p.called →
      q.outside = false → FlowInv { b with pc := q } (tr ++ []) := by
    intro p q h hh hc ho
    refine hi.still hpk rfl always_nil rfl (h ▸ hh) (h ▸ hc) rfl fun ho' => ?_
    rw [show q.outside = true from ho'] at ho
    cases ho
  cases h with
  | start h =>
      have hf : b.line = .empty := hi.fresh (by rw [h]; rfl)
      refine hi.still hpk rfl always_nil rfl ?_ ?_ rfl (fun _ => hf) <;> rw [h] <;> rfl
  | character h hc hp => exact hquiet h rfl rfl rfl
  | lineOver h hw => exact hquiet h rfl rfl rfl
  | replayOn h hw => exact hquiet h rfl rfl rfl
  | bytes h hs => exact hquiet h rfl rfl rfl
  | noBytes h hs => exact hquiet h rfl rfl rfl
  | unsent h hs => exact hquiet h rfl rfl rfl
  | sent h hw hs => exact hquiet h rfl rfl rfl
  | innerOn h hw => exact hquiet h rfl rfl rfl
  | @replayPanic c line h hc hp =>
      exact absurd hp (alarmPass_ne_none hsi.script hc
        (hsi.position (c, line.data) (by rw [h]; rfl)).2)
  | @appendPanic gotc h hl =>
      rw [List.append_nil]
      exact ⟨hi.events, hi.queue, .inr (hi.overlong hsi h hl), (fun h => by cases h)⟩
  | noMemory ha =>
      refine hi.still hpk rfl always_nil rfl rfl ?_ rfl (fun h => by cases h)
      obtain ⟨gotc, h⟩ | ⟨gotc, h⟩ | ⟨c, line, h⟩ := Board.allocates_cases ha <;> rw [h] <;> rfl

/-- **A line main passes is made of the bytes held for it**; behind the call none is held. -/
theorem FlowInv.passes {line : ManagedString} {gotc : UInt8} (hi : FlowInv b tr)
    (h : b.pc = .append gotc) (hl : b.line.concat (.ofChar gotc) = some line) :
    text (bytes (flow tr).held) = line.data := by
  obtain ⟨x, hx, ht⟩ := hi.holds (by simp [h])
  rw [hx, h, text_append, ht, ManagedString.concat_eq_some.mp hl, data_ofChar_eq_text]
  simp [Board.unterminated, h, Pc.called, Pc.inHand]

/-- A step that ends main's line. -/
theorem FlowInv.ends {e : Event} (hi : FlowInv b tr) (hf : FromHeld tr e)
    (he : ∀ f : Flow, f.read e = { f with gone := f.gone ++ f.held, held := [] })
    (hrx : b'.uart.rx = b.uart.rx) (hh : b'.pc.inHand = []) (hu : b'.unterminated = [])
    (ho : b'.pc.outside = true → b'.line = .empty) : FlowInv b' (tr ++ [e]) := by
  refine ⟨always_snoc.mpr ⟨hi.events, hf⟩, ?_, .inl ⟨[], ?_, ?_⟩, ho⟩
  · rw [flow_snoc, he, hrx]
    exact hi.queue
  · rw [flow_snoc, he, hh]
    rfl
  · rw [hu]
    rfl

/-- A step that reports one event and moves no byte. -/
theorem FlowInv.reports {e : Event} (hi : FlowInv b tr) (hp : b.pc ≠ .panicked)
    (he : (flow tr).read e = flow tr) (hf : FromHeld tr e) (hrx : b'.uart.rx = b.uart.rx)
    (hl : b'.line = b.line) (hh : b'.pc.inHand = b.pc.inHand) (hc : b'.pc.called = b.pc.called)
    (ho : b'.pc.outside = true → b.line = .empty) : FlowInv b' (tr ++ [e]) := by
  refine hi.still hp he ?_ hrx hh hc hl ho
  rw [always_singleton, List.append_nil]
  exact hf

/-- Main goes on behind an event, within the scope of its line. -/
theorem FlowInv.goes {e : Event} {p : Pc} (hi : FlowInv b tr) (hpk : b.pc ≠ .panicked)
    (h : b.pc = p) (he : (flow tr).read e = flow tr) (hf : FromHeld tr e)
    (hrx : b'.uart.rx = b.uart.rx) (hl : b'.line = b.line) (hh : b'.pc.inHand = p.inHand)
    (hc : b'.pc.called = p.called) (ho : b'.pc.outside = false) : FlowInv b' (tr ++ [e]) := by
  refine hi.reports hpk he hf hrx hl (h ▸ hh) (h ▸ hc) fun ho' => ?_
  rw [ho] at ho'
  cases ho'

/-- **Every step keeps track of the bytes.** -/
theorem flowInv_step (hsi : ScriptInv b) (hpk : b.pc ≠ .panicked) (hi : FlowInv b tr)
    (hs : b.Step b' ev) : FlowInv b' (tr ++ ev) := by
  cases hs with
  | move h => exact flowInv_move hsi hpk hi h
  | elapse ms => exact hi.still hpk rfl always_nil rfl rfl rfl rfl hi.fresh
  | write data hu =>
      refine ⟨always_append.mpr ⟨hi.events, ?_⟩, ?_, ?_, hi.fresh⟩
      · exact always_receipts (fun _ _ => trivial) (fun _ _ => trivial) _
      · rw [flow_append, flow_receipts]
        show bytes ((flow tr).queue ++ _) = (b.uart.onDataWritten data).1.rx.contents
        rw [Uart.contents_onDataWritten, bytes, List.map_append, ← bytes, hi.queue, List.map_map]
        exact congrArg (b.uart.rx.contents ++ ·) (List.map_id _)
      · rw [flow_append, flow_receipts]
        exact .inl (hi.holds hpk)
  | connect queued hu => exact hi.reports hpk rfl trivial rfl rfl rfl rfl hi.fresh
  | disconnect queued hu => exact hi.reports hpk rfl trivial rfl rfl rfl rfl hi.fresh
  | enableUpdates on hu => exact hi.still hpk rfl always_nil rfl rfl rfl rfl hi.fresh
  | confirm ha => exact hi.reports hpk rfl trivial rfl rfl rfl rfl hi.fresh
  | handler hd hv => exact hi.reports hpk rfl trivial rfl rfl rfl rfl hi.fresh
  | accepted h hu hx => exact hi.goes hpk h rfl trivial rfl rfl rfl rfl rfl
  | refused h ha => exact hi.goes hpk h rfl trivial rfl rfl rfl rfl rfl
  | outer h =>
      have hf : b.line = .empty := hi.fresh (by rw [h]; rfl)
      refine hi.reports hpk rfl trivial rfl rfl ?_ ?_ (fun _ => hf) <;> rw [h] <;> rfl
  | declare h hw =>
      have hf : b.line = .empty := hi.fresh (by rw [h]; rfl)
      refine hi.still hpk rfl always_nil rfl ?_ ?_ hf.symm (fun h => by cases h) <;> rw [h] <;> rfl
  | inner h hc => exact hi.goes hpk h rfl trivial rfl rfl rfl rfl rfl
  | leave h hc =>
      refine hi.ends ?_ (fun _ => rfl) rfl rfl rfl fun _ => rfl
      obtain ⟨x, hx, ht⟩ := hi.holds hpk
      show text (bytes (flow tr).held) = b.line.data
      rw [hx, h, text_append, ht]
      simp [Board.unterminated, h, Pc.called, Pc.inHand, text]
  | alarm h hd => exact hi.goes hpk h rfl trivial rfl rfl rfl rfl rfl
  | noAlarm h hd => exact hi.goes hpk h rfl trivial rfl rfl rfl rfl rfl
  | replayed h hc hp =>
      refine hi.goes hpk h rfl trivial rfl rfl ?_ ?_ ?_ <;> unfold Board.afterCall <;> split <;> rfl
  | returned h hc => exact hi.goes hpk h rfl trivial rfl rfl rfl rfl rfl
  | taken h hs =>
      have hq := hi.queue
      rw [CircularBuffer.contents_pop hs] at hq
      cases hqueue : (flow tr).queue with
      | nil => rw [hqueue] at hq; cases hq
      | cons x q =>
          rw [hqueue] at hq
          obtain ⟨hx, hq⟩ := List.cons.inj hq
          obtain ⟨y, hy, ht⟩ := hi.holds hpk
          have hread : (flow tr).read (.taken b.uart.rx.front) =
              { flow tr with held := (flow tr).held ++ [x], queue := q } := by
            simp [Flow.read, hqueue]
          have he : FromHeld tr (.taken b.uart.rx.front) := ⟨x.1, q, by rw [hqueue, ← hx]⟩
          refine ⟨always_snoc.mpr ⟨hi.events, he⟩, ?_, .inl ⟨y, ?_, ?_⟩, (fun h => by cases h)⟩
          · rw [flow_snoc, hread]
            exact hq
          · rw [flow_snoc, hread]
            show bytes ((flow tr).held ++ [x]) = y ++ [b.uart.rx.front]
            rw [bytes, List.map_append, ← bytes, hy, h, ← hx]
            simp [Pc.inHand]
          · rw [ht]
            simp [Board.unterminated, h, Pc.called]
  | fill h hs =>
      refine hi.still hpk rfl always_nil rfl ?_ ?_ rfl (fun h => by cases h) <;>
        rcases h with ⟨h, _⟩ | ⟨h, _⟩ <;> rw [h] <;> rfl
  | @grown gotc line h hl hn =>
      obtain ⟨x, hx, _⟩ := hi.holds hpk
      have hp := hi.passes h hl
      rw [List.append_nil]
      refine ⟨hi.events, hi.queue, .inl ⟨x ++ [gotc], ?_, ?_⟩, (fun h => by cases h)⟩
      · rw [hx, h]
        simp [Pc.inHand]
      · rw [hx, h] at hp
        exact hp
  | linePanic h hl hp =>
      exact hi.ends (hi.passes h hl) (fun _ => rfl) rfl rfl rfl (fun h => by cases h)
  | lineSleeps h hl hp hs =>
      exact hi.ends (hi.passes h hl) (fun _ => rfl) rfl rfl rfl (fun h => by cases h)
  | line h hl hp hs => exact hi.ends (hi.passes h hl) (fun _ => rfl) rfl rfl rfl fun _ => rfl
  | lineWoken h hw =>
      rw [List.append_nil]
      obtain ⟨x, hx, ht⟩ := hi.holds hpk
      refine ⟨hi.events, hi.queue, .inl ⟨x, by rw [hx, h]; rfl, ?_⟩, fun _ => rfl⟩
      rw [ht]
      simp [Board.unterminated, Board.leave, h, Pc.called, ManagedString.empty]

theorem flowInv_run (h : firmware.Run b tr) : FlowInv b tr :=
  firmware_inv flowInv_init
    (fun _ _ _ _ hr hp hi hs => flowInv_step (scriptInv_run hr) hp hi hs) h

/-! ## 4. Dropped bytes -/

/-- A byte is dropped only while 64 bytes wait. -/
def DroppedFull (pre : List Event) : Event → Prop
  | .dropped _ _ => (flow pre).queue.length = 64
  | _ => True

theorem droppedFull_run (h : firmware.Run b tr) : Always DroppedFull tr := by
  refine firmware_inv (I := fun _ tr => Always DroppedFull tr) always_nil ?_ h
  intro b tr b' ev hr _ hi hs
  refine always_append.mpr ⟨hi, ?_⟩
  cases hs with
  | write data hu =>
      intro pre e post hp
      cases e with
      | dropped conn x =>
          obtain ⟨rs₁, rs₂, hrs, rfl, hpost⟩ := List.map_eq_append_iff.mp hp
          obtain ⟨r, rs₃, rfl, hr', rfl⟩ := List.map_eq_cons_iff.mp hpost
          cases r with
          | stored y => cases hr'
          | dropped y =>
              show (flow (tr ++ _)).queue.length = 64
              rw [flow_append, flow_receipts, List.length_append, List.length_map]
              have hlen : (flow tr).queue.length = b.uart.rx.size := by
                rw [← CircularBuffer.length_contents, ← (flowInv_run hr).queue, bytes,
                  List.length_map]
              rw [hlen]
              exact Uart.receive_dropped hrs
      | _ => trivial
  | _ => first | exact always_nil | exact always_singleton.mpr trivial

end MicrobitAlarm
