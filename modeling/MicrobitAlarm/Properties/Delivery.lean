/-
  File:      MicrobitAlarm/Properties/Delivery.lean
  Subject:   FROM THE CLIENT'S BYTES TO THE LINES PASSED.

  While main never loses its connection, the lines it passes are what the stored bytes cut at
  their newlines are, NUL bytes aside, whatever the writes, the replays and the scheduling. What
  spoils this is a byte dropped at a full buffer.

  * `delivery_exact` -- with at most 64 bytes waiting, the lines passed are exactly the lines of
    the bytes consumed, the tail is main's line and the rest is in the buffer;
  * `passed_stretches` -- in general a line passed is what was stored of a stretch of bytes between
    two stored newlines, and a whole line of the client if nothing of the stretch was dropped; a
    run in which a line is spliced (`spliced_line`).
-/
import MicrobitAlarm.Runs.Stream
import MicrobitAlarm.Runs.Ledger
import MicrobitAlarm.Runs.Schedules

namespace MicrobitAlarm

open Trace Framing

variable {b b' : Board} {tr ev : List Event}

/-! ## 1. Runs in which `connected` is never reset -/

/-- Where main stands before it has ever found `connected` set. -/
def Pc.early : Pc → Bool
  | .scroll => true
  | .outer => true
  | .outerSleep _ => true
  | .test => true
  | _ => false

/-- **As long as `connected` is not reset** no byte is destroyed: the bytes gone are the lines
    passed. -/
structure KeptInv (b : Board) (tr : List Event) : Prop where
  gone : .handled false ∉ tr → text (bytes (flow tr).gone) = ((passed tr).map (·.data)).flatten
  early : .handled false ∉ tr → b.connected = false → (flow tr).held = [] ∧ b.pc.early = true

theorem keptInv_init : KeptInv Board.init [] := ⟨fun _ => rfl, fun _ _ => ⟨rfl, rfl⟩⟩

/-- A step that takes no byte and ends no line. -/
theorem KeptInv.still (hi : KeptInv b tr)
    (he : ∀ f : Flow, (ev.foldl Flow.read f).gone = f.gone ∧ (ev.foldl Flow.read f).held = f.held)
    (hp : passed ev = []) (hc : b'.connected = b.connected)
    (hpc : b.pc.early = true → b'.pc.early = true) : KeptInv b' (tr ++ ev) := by
  refine ⟨fun hn => ?_, fun hn hcon => ?_⟩
  · rw [flow_append, (he _).1, passed_append, hp, List.append_nil]
    exact hi.gone fun h => hn (List.mem_append_left _ h)
  · rw [flow_append, (he _).2]
    obtain ⟨h1, h2⟩ := hi.early (fun h => hn (List.mem_append_left _ h)) (hc ▸ hcon)
    exact ⟨h1, hpc h2⟩

/-- A line passed. -/
theorem KeptInv.pass {t : Nat} {l : ManagedString} {rm : Bool} {as : List Action}
    (hi : KeptInv b tr) (hl : text (bytes (flow tr).held) = l.data) (hpc : b.pc.early = false)
    (hc : b'.connected = b.connected) : KeptInv b' (tr ++ [.line t l rm as]) := by
  refine ⟨fun hn => ?_, fun hn hcon => ?_⟩
  · rw [flow_snoc, passed_append]
    show text (bytes ((flow tr).gone ++ (flow tr).held)) = _
    rw [bytes, List.map_append, text_append, ← bytes, ← bytes,
      hi.gone fun h => hn (List.mem_append_left _ h), hl, List.map_append, List.flatten_append]
    simp [passed, Event.passed]
  · obtain ⟨_, h⟩ := hi.early (fun h => hn (List.mem_append_left _ h)) (hc ▸ hcon)
    rw [hpc] at h
    cases h

/-- **Every step keeps the bytes**, as long as `connected` is not reset. -/
theorem keptInv_step (hf : FlowInv b tr) (hi : KeptInv b tr) (hs : b.Step b' ev) :
    KeptInv b' (tr ++ ev) := by
  have hsame : ∀ f : Flow, f.gone = f.gone ∧ f.held = f.held := fun _ => ⟨rfl, rfl⟩
  cases hs with
  | move h =>
      refine hi.still hsame rfl rfl fun he => ?_
      cases h with
      | noMemory ha =>
          obtain ⟨gotc, h⟩ | ⟨gotc, h⟩ | ⟨c, line, h⟩ := Board.allocates_cases ha <;>
            rw [h] at he <;> cases he
      | _ => simp_all [Pc.early]
  | elapse ms => exact hi.still hsame rfl rfl id
  | write data hu =>
      refine hi.still (fun f => ?_) ?_ rfl id
      · rw [flow_receipts]
        exact ⟨rfl, rfl⟩
      · rw [passed, filterMap_receipts]
        refine List.filterMap_eq_nil_iff.mpr fun r _ => ?_
        cases r <;> rfl
  | connect queued hu => exact hi.still hsame rfl rfl id
  | disconnect queued hu => exact hi.still hsame rfl rfl id
  | enableUpdates on hu => exact hi.still hsame rfl rfl id
  | confirm ha => exact hi.still hsame rfl rfl id
  | @handler i v hd hv =>
      refine ⟨fun hn => ?_, fun hn hcon => ?_⟩
      · rw [flow_snoc, passed_append]
        have h := hi.gone fun h => hn (List.mem_append_left _ h)
        rw [show passed [Event.handled v] = [] from rfl, List.append_nil]
        exact h
      · obtain rfl : v = false := hcon
        exact absurd (List.mem_append_right _ List.mem_cons_self) hn
  | accepted h hu hx => exact hi.still hsame rfl rfl (fun he => by rw [h] at he; cases he)
  | refused h ha => exact hi.still hsame rfl rfl (fun he => by rw [h] at he; cases he)
  | outer h => exact hi.still hsame rfl rfl fun _ => rfl
  | declare h hw => exact hi.still hsame rfl rfl fun _ => rfl
  | inner h hc =>
      refine ⟨fun hn => ?_, fun _ hcon => ?_⟩
      · rw [flow_snoc, passed_append, show passed [Event.inner b.now] = [] from rfl,
          List.append_nil]
        exact hi.gone fun h => hn (List.mem_append_left _ h)
      · rw [show b.connected = false from hcon] at hc
        cases hc
  | leave h hc =>
      refine ⟨fun hn => ?_, fun _ _ => ⟨by rw [flow_snoc]; rfl, rfl⟩⟩
      have hn' : .handled false ∉ tr := fun h => hn (List.mem_append_left _ h)
      rw [flow_snoc, passed_append, show passed [Event.discarded b.line] = [] from rfl,
        List.append_nil]
      show text (bytes ((flow tr).gone ++ (flow tr).held)) = _
      rw [(hi.early hn' hc).1, List.append_nil]
      exact hi.gone hn'
  | alarm h hd => exact hi.still hsame rfl rfl (fun he => by rw [h] at he; cases he)
  | noAlarm h hd => exact hi.still hsame rfl rfl (fun he => by rw [h] at he; cases he)
  | replayed h hc hp => exact hi.still hsame rfl rfl (fun he => by rw [h] at he; cases he)
  | returned h hc => exact hi.still hsame rfl rfl (fun he => by rw [h] at he; cases he)
  | taken h hs =>
      refine ⟨fun hn => ?_, fun hn hcon => ?_⟩
      · have hg : ((flow tr).read (.taken b.uart.rx.front)).gone = (flow tr).gone := by
          cases hq : (flow tr).queue <;> simp [Flow.read, hq]
        rw [flow_snoc, hg, passed_append,
          show passed [Event.taken b.uart.rx.front] = [] from rfl, List.append_nil]
        exact hi.gone fun h => hn (List.mem_append_left _ h)
      · obtain ⟨_, he⟩ := hi.early (fun h => hn (List.mem_append_left _ h)) hcon
        rw [h] at he
        cases he
  | fill h hs =>
      refine hi.still hsame rfl rfl ?_
      intro he
      rcases h with ⟨h, _⟩ | ⟨h, _⟩ <;> rw [h] at he <;> cases he
  | grown h hl hn => exact hi.still hsame rfl rfl (fun he => by rw [h] at he; cases he)
  | linePanic h hl hp => exact hi.pass (hf.passes h hl) (by rw [h]; rfl) rfl
  | lineSleeps h hl hp hs => exact hi.pass (hf.passes h hl) (by rw [h]; rfl) rfl
  | line h hl hp hs => exact hi.pass (hf.passes h hl) (by rw [h]; rfl) rfl
  | lineWoken h hw => exact hi.still hsame rfl rfl (fun he => by rw [h] at he; cases he)

theorem keptInv_run (h : firmware.Run b tr) : KeptInv b tr :=
  firmware_inv keptInv_init (fun _ _ _ _ hr _ hi hs => keptInv_step (flowInv_run hr) hi hs) h

/-- The lines passed are a script of their own: each ends in its only newline. -/
theorem passed_isFrame (h : firmware.Run b tr) :
    ∀ l ∈ (passed tr).map (·.data), IsFrame newline l := by
  intro l hl
  obtain ⟨x, hx, rfl⟩ := List.mem_map.mp hl
  obtain ⟨e, he, hpass⟩ := List.mem_filterMap.mp hx
  obtain ⟨pre, post, rfl⟩ := List.append_of_mem he
  have hA := agrees_run h pre e post rfl
  cases e with
  | line t y rm as =>
      cases hpass
      exact hA.2.1
  | _ => cases hpass

/-- **The stored bytes, cut at their newlines, begin with the lines passed.** -/
theorem cut_stored (h : firmware.Run b tr) (hn : .handled false ∉ tr) (ys : List UInt8) :
    cut newline (text (bytes (flow tr).gone) ++ ys) =
      ((passed tr).map (·.data) ++ frames newline ys, rest newline ys) := by
  have hl := passed_isFrame h
  rw [(keptInv_run h).gone hn, cut_append_of_rest_nil (rest_of_flatten hl), frames_of_flatten hl]

/-! ## 2. Exact delivery -/

/-- Every line of a text fits in the RAM, the unfinished one included. -/
def LinesFit (s : List UInt8) : Prop :=
  (∀ l ∈ frames newline s, l.length ≤ maxLength) ∧ (rest newline s).length ≤ maxLength

/-- If the lines of the stored bytes fit, main's line never overflows. -/
theorem not_overlong (h : firmware.Run b tr) (hn : .handled false ∉ tr)
    (hf : LinesFit (text (bytes (stored tr)))) : ¬ Overlong b (bytes (flow tr).held) := by
  intro ho
  obtain ⟨_, hopen, gotc, ht, hlen⟩ := ho
  rw [stored_eq_flow, bytes, List.map_append, List.map_append, ← bytes, ← bytes, ← bytes,
    text_append, text_append, List.append_assoc] at hf
  have hcut := cut_stored h hn (text (bytes (flow tr).held) ++ text (bytes (flow tr).queue))
  obtain ⟨hfr, hre⟩ := hf
  rw [frames, hcut] at hfr
  rw [rest, hcut] at hre
  -- the bytes that did not fit begin a line of the stored bytes
  obtain ⟨l, hl, hle⟩ : ∃ l, (l ∈ frames newline (text (bytes (flow tr).held) ++
      text (bytes (flow tr).queue)) ∨ l = rest newline (text (bytes (flow tr).held) ++
      text (bytes (flow tr).queue))) ∧ (text (bytes (flow tr).held)).length ≤ l.length := by
    cases hnl : newline gotc with
    | false =>
        refine length_le_of_open (fun y hy => ?_) _
        rw [ht] at hy
        rcases List.mem_append.mp hy with hy | hy
        · exact hopen y hy
        · rw [List.mem_singleton.mp (List.mem_of_mem_filter hy)]
          exact hnl
    | true =>
        have hg : gotc = 10 := by simpa [newline] using hnl
        have hframe : IsFrame newline (text (bytes (flow tr).held)) :=
          ⟨b.line.data, 10, by rw [ht, hg]; rfl, rfl, hopen⟩
        have hc := cut_of_isFrame hframe
        refine ⟨_, .inl ?_, Nat.le_refl _⟩
        rw [frames, cut_append_of_rest_nil (by rw [rest, hc]), frames, hc]
        simp
  rcases hl with hl | rfl
  · have := hfr l (List.mem_append_right _ hl)
    omega
  · have : (rest newline (text (bytes (flow tr).held) ++
      text (bytes (flow tr).queue))).length ≤ maxLength := hre
    omega

/-- **Delivery**: the stored bytes are those consumed, the one in main's hand and those waiting,
    and the consumed ones, cut at their newlines, are the lines passed and main's line. -/
theorem delivery (h : firmware.Run b tr) (hn : .handled false ∉ tr)
    (ho : ¬ Overlong b (bytes (flow tr).held)) :
    ∃ consumed, bytes (stored tr) = consumed ++ b.pc.inHand ++ b.uart.rx.contents ∧
      cut newline (text consumed) = ((passed tr).map (·.data), b.unterminated) := by
  have hi := flowInv_run h
  obtain ⟨x, hx, ht⟩ := hi.held.resolve_right ho
  refine ⟨bytes (flow tr).gone ++ x, ?_, ?_⟩
  · rw [stored_eq_flow, bytes, List.map_append, List.map_append, ← bytes, ← bytes, ← bytes, hx,
      hi.queue]
    simp
  · rw [text_append, cut_stored h hn, ht]
    have hc := cut_of_open (scriptInv_run h).noNewline
    rw [frames, rest, hc, List.append_nil]

/-- **The condition of exact delivery**: `connected` is never reset, no write leaves more than 64
    bytes waiting, and the client's lines fit in the RAM. -/
structure Smooth (tr : List Event) : Prop where
  connected : .handled false ∉ tr
  waiting : ∀ pre post, tr = pre ++ post → (written pre).length ≤ (taken pre).length + 64
  fits : LinesFit (text (written tr))

/-- The bytes taken are those gone and held. -/
theorem taken_eq_flow (h : Always FromHeld tr) :
    taken tr = bytes ((flow tr).gone ++ (flow tr).held) := by
  induction tr using List.reverseRecOn with
  | nil => rfl
  | append_singleton tr e ih =>
      have ih := ih h.of_append
      have he := h tr e [] rfl
      rw [flow_snoc, taken, List.filterMap_append, ← taken, ih]
      cases e with
      | taken b =>
          obtain ⟨conn, q, hq⟩ := he
          simp [Flow.read, hq, Event.takenByte, bytes]
      | stored conn b => simp [Flow.read, Event.takenByte]
      | line t l rm as => simp [Flow.read, Event.takenByte]
      | discarded l => simp [Flow.read, Event.takenByte]
      | _ => exact List.append_nil _

/-- The bytes stored are the bytes written that were not dropped. -/
theorem stored_eq_kept (tr : List Event) : bytes (stored tr) = Uart.kept (arrivals tr) := by
  induction tr with
  | nil => rfl
  | cons e tr ih =>
      cases e with
      | stored conn b => exact congrArg (b :: ·) ih
      | dropped conn b => exact ih
      | _ => exact ih

theorem written_append (tr ev : List Event) : written (tr ++ ev) = written tr ++ written ev := by
  rw [written, arrivals_append, List.map_append, ← written, ← written]

/-- With room for every byte nothing is dropped. -/
theorem written_eq_stored (h : firmware.Run b tr)
    (hw : ∀ pre post, tr = pre ++ post → (written pre).length ≤ (taken pre).length + 64) :
    written tr = bytes (stored tr) := by
  have hfrom := (flowInv_run h).events
  have hfull := droppedFull_run h
  clear h
  induction tr using List.reverseRecOn with
  | nil => rfl
  | append_singleton tr e ih =>
      have hw' : ∀ pre post, tr = pre ++ post → (written pre).length ≤ (taken pre).length + 64 :=
        fun pre post hp => hw pre (post ++ [e]) (by rw [hp, List.append_assoc])
      have ih := ih hw' hfrom.of_append hfull.of_append
      rw [written_append, stored_append, bytes, List.map_append, ← bytes, ← bytes, ih]
      cases e with
      | dropped conn x =>
          -- 64 bytes waited, and this one would have been the 65th
          have hq : (flow tr).queue.length = 64 := hfull tr _ [] rfl
          have hlen := hw (tr ++ [.dropped conn x]) [] (by simp)
          have ht : taken (tr ++ [.dropped conn x]) = taken tr := by simp [taken, Event.takenByte]
          rw [written_append, ih, stored_eq_flow, ht, taken_eq_flow hfrom.of_append] at hlen
          simp only [bytes, List.length_append, List.length_map, hq] at hlen
          have hone : (written [Event.dropped conn x]).length = 1 := rfl
          omega
      | _ => rfl

/-- **Line delivery is exact**, and independent of how the client splits its bytes into writes and
    of the scheduling: on a smooth run, whatever main has consumed, the lines passed are its lines,
    each once and in order, the unfinished rest is in main's line, and what has been written behind
    it is in main's hand or in the receive buffer. So two drained runs on the same bytes pass the
    same lines. -/
theorem delivery_exact :
    (∀ b tr, firmware.Run b tr → Smooth tr →
      ∃ consumed, written tr = consumed ++ b.pc.inHand ++ b.uart.rx.contents ∧
        (passed tr).map (·.data) = frames newline (text consumed) ∧
        b.unterminated = rest newline (text consumed)) ∧
    (∀ b₁ tr₁ b₂ tr₂, firmware.Run b₁ tr₁ → firmware.Run b₂ tr₂ → Smooth tr₁ → Smooth tr₂ →
      written tr₁ = written tr₂ → Drained b₁ → Drained b₂ → passed tr₁ = passed tr₂) := by
  have hex : ∀ b tr, firmware.Run b tr → Smooth tr →
      ∃ consumed, written tr = consumed ++ b.pc.inHand ++ b.uart.rx.contents ∧
        (passed tr).map (·.data) = frames newline (text consumed) ∧
        b.unterminated = rest newline (text consumed) := by
    intro b tr h hs
    have hws := written_eq_stored h hs.waiting
    obtain ⟨consumed, hb, hc⟩ := delivery h hs.connected
      (not_overlong h hs.connected (hws ▸ hs.fits))
    exact ⟨consumed, hws.trans hb, by rw [frames, hc], by rw [rest, hc]⟩
  refine ⟨hex, fun b₁ tr₁ b₂ tr₂ h₁ h₂ hs₁ hs₂ hw hd₁ hd₂ => ?_⟩
  obtain ⟨c₁, hc₁, hp₁, _⟩ := hex b₁ tr₁ h₁ hs₁
  obtain ⟨c₂, hc₂, hp₂, _⟩ := hex b₂ tr₂ h₂ hs₂
  rw [hd₁.1, hd₁.2, List.append_nil, List.append_nil] at hc₁
  rw [hd₂.1, hd₂.2, List.append_nil, List.append_nil] at hc₂
  have hc : c₁ = c₂ := by rw [← hc₁, ← hc₂, hw]
  have hmap : (passed tr₁).map (·.data) = (passed tr₂).map (·.data) := by rw [hp₁, hp₂, hc]
  exact List.map_injective_iff.mpr (fun _ _ => ManagedString.ext) hmap

/-- A client that writes no more than 64 bytes never has more waiting. -/
theorem waiting_of_short (h : (written tr).length ≤ 64) (pre post : List Event)
    (hp : tr = pre ++ post) : (written pre).length ≤ (taken pre).length + 64 := by
  rw [hp, written_append, List.length_append] at h
  omega

/-- "p9\n" in one write, and in two with a turn of the loop between them. -/
theorem delivery_exact_run :
    ∃ b₁ tr₁ b₂ tr₂, firmware.Run b₁ tr₁ ∧ firmware.Run b₂ tr₂ ∧ written tr₁ = [112, 57, 10] ∧
      (∃ consumed, written tr₁ = consumed ++ b₁.pc.inHand ++ b₁.uart.rx.contents ∧
        (passed tr₁).map (·.data) = frames newline (text consumed) ∧
        b₁.unterminated = rest newline (text consumed)) ∧
      passed tr₁ = passed tr₂ := by
  let P : Board → List Event → Prop := fun b tr =>
    Drained b ∧ .handled false ∉ tr ∧ written tr = [112, 57, 10]
  have hrun : ∀ as : List Act,
      (firmware.exec firmware.start as).any (fun r => decide (P r.1 r.2)) = true →
      ∃ b tr, firmware.Run b tr ∧ Drained b ∧ Smooth tr ∧ written tr = [112, 57, 10] := by
    intro as h
    obtain ⟨b, tr, hr, hd, hc, hw⟩ := Machine.exists_run_of_exec firmware P as h
    have hw' : (written tr).length ≤ 64 := by rw [hw]; decide
    exact ⟨b, tr, hr, hd, ⟨hc, waiting_of_short hw', by rw [hw]; unfold LinesFit; decide⟩, hw⟩
  obtain ⟨b₁, tr₁, hr₁, hd₁, hs₁, hw₁⟩ := hrun (boot ++ lineTurns [112, 57, 10]) (by decide +kernel)
  obtain ⟨b₂, tr₂, hr₂, hd₂, hs₂, hw₂⟩ :=
    hrun (boot ++ .write [112] :: byteTurn ++ idleTurn ++ .write [57, 10] :: byteTurn ++
      newlineTurn) (by decide +kernel)
  exact ⟨b₁, tr₁, b₂, tr₂, hr₁, hr₂, hw₁, delivery_exact.1 b₁ tr₁ hr₁ hs₁,
    delivery_exact.2 b₁ tr₁ b₂ tr₂ hr₁ hr₂ hs₁ hs₂ (hw₁.trans hw₂.symm) hd₁ hd₂⟩

/-! ## 3. Delivery with bytes dropped -/

def Event.down : Event → Option Nat
  | .linkDown conn => some conn
  | _ => none

/-- The connections that have ended. -/
def ended (tr : List Event) : List Nat := tr.filterMap Event.down

theorem ended_append (tr ev : List Event) : ended (tr ++ ev) = ended tr ++ ended ev :=
  List.filterMap_append

theorem ended_receipts (conn : Nat) (rs : List Receipt) :
    ended (rs.map (Event.ofReceipt conn)) = [] := by
  rw [ended, filterMap_receipts]
  exact List.filterMap_eq_nil_iff.mpr fun r _ => by cases r <;> rfl

/-- As long as the link stays up `connected` is not reset. -/
theorem handled_of_ended (h : firmware.Run b tr) (he : ended tr = []) :
    false ∉ b.handlers ∧ .handled false ∉ tr := by
  refine firmware_inv (I := fun b tr => ended tr = [] → false ∉ b.handlers ∧ .handled false ∉ tr)
    (fun _ => ⟨List.not_mem_nil, List.not_mem_nil⟩) ?_ h he
  intro b tr b' ev _ _ hi hs he
  rw [ended_append] at he
  obtain ⟨htr, hev⟩ := List.append_eq_nil_iff.mp he
  obtain ⟨hh, hn⟩ := hi htr
  have hstill : b'.handlers = b.handlers → .handled false ∉ ev →
      false ∉ b'.handlers ∧ .handled false ∉ tr ++ ev := fun h1 h2 =>
    ⟨h1 ▸ hh, fun hm => (List.mem_append.mp hm).elim hn h2⟩
  cases hs with
  | connect queued hu =>
      refine ⟨?_, fun hm => (List.mem_append.mp hm).elim hn (by simp)⟩
      cases queued with
      | false => exact hh
      | true => simpa using hh
  | disconnect queued hu => simp [ended, Event.down] at hev
  | @handler i v hd hv =>
      refine ⟨fun hm => hh (List.mem_of_mem_eraseIdx hm), fun hm => ?_⟩
      rcases List.mem_append.mp hm with hm | hm
      · exact hn hm
      · obtain rfl : v = false := by simpa using (List.mem_singleton.mp hm).symm
        exact hh (List.mem_of_getElem? hv)
  | write data hu =>
      refine hstill rfl fun hm => ?_
      obtain ⟨x, hx | hx⟩ := mem_receipts hm <;> cases hx
  | _ => exact hstill rfl (by simp)

/-- A newline that was stored ends a line on the board. -/
def Receipt.ends : Receipt → Bool
  | .stored b => newline b
  | .dropped _ => false

/-- The client's bytes, cut behind each newline that was stored. -/
def stretches (tr : List Event) : List (List Receipt) := frames Receipt.ends (arrivals tr)

/-- No byte of the stretch was dropped. -/
def Whole (f : List Receipt) : Prop := ∀ b, Receipt.dropped b ∉ f

/-- What a receipt adds to a line. -/
def Receipt.char : Receipt → Option UInt8
  | .stored b => if b = 0 then none else some b
  | .dropped _ => none

theorem text_kept (rs : List Receipt) : text (Uart.kept rs) = rs.filterMap Receipt.char := by
  induction rs with
  | nil => rfl
  | cons r rs ih =>
      cases r with
      | dropped b => exact ih
      | stored b =>
          by_cases hb : b = 0
          · subst hb
            simpa [Uart.kept, text, Receipt.char] using ih
          · simpa [Uart.kept, text, Receipt.char, hb] using ih

theorem frames_kept (rs : List Receipt) :
    frames newline (text (Uart.kept rs)) =
      (frames Receipt.ends rs).map fun f => text (Uart.kept f) := by
  have hcut := @cut_filterMap _ Receipt.ends _ newline Receipt.char ?_ ?_ rs
  · rw [text_kept, frames, hcut]
    exact List.map_congr_left fun f _ => (text_kept f).symm
  · intro r hr
    cases r with
    | dropped b => cases hr
    | stored b =>
        have hb : b = 10 := by simpa [Receipt.ends, newline] using hr
        exact ⟨10, by rw [hb]; rfl⟩
  · intro r y hy
    cases r with
    | dropped b => cases hy
    | stored b =>
        by_cases hb : b = 0
        · simp [Receipt.char, hb] at hy
        · simp only [Receipt.char, hb, if_false, Option.some.injEq] at hy
          rw [← hy]
          rfl

theorem kept_of_whole {f : List Receipt} (hw : Whole f) : Uart.kept f = f.map Receipt.byte := by
  induction f with
  | nil => rfl
  | cons r f ih =>
      have ih := ih fun b hb => hw b (List.mem_cons_of_mem r hb)
      cases r with
      | stored b => rw [Uart.kept, ih]; rfl
      | dropped b => exact absurd List.mem_cons_self (hw b)

/-- Bytes that end in a stored newline leave the client's last line finished. -/
theorem rest_bytes {rs : List Receipt} (h : rest Receipt.ends rs = []) :
    rest newline (rs.map Receipt.byte) = [] := by
  induction rs using List.reverseRecOn with
  | nil => rfl
  | append_singleton rs r _ =>
      rw [rest_snoc] at h
      cases r with
      | dropped b => simp [Receipt.ends] at h
      | stored b =>
          cases hb : newline b with
          | false => simp [Receipt.ends, hb] at h
          | true => simp [rest_snoc, Receipt.byte, hb]

/-- **A stretch of which nothing was dropped is a line of the client.** -/
theorem line_of_whole {rs f : List Receipt} (hf : f ∈ frames Receipt.ends rs) (hw : Whole f) :
    f.map Receipt.byte ∈ frames newline (rs.map Receipt.byte) := by
  obtain ⟨a, c, rfl, ha⟩ := split_at_frame hf
  have hframe : IsFrame newline (f.map Receipt.byte) := by
    obtain ⟨l, r, rfl, hr, hl⟩ := isFrame_of_mem hf
    refine ⟨l.map Receipt.byte, r.byte, by simp, ?_, fun y hy => ?_⟩
    · cases r with
      | dropped b => cases hr
      | stored b => exact hr
    · obtain ⟨q, hq, rfl⟩ := List.mem_map.mp hy
      cases q with
      | dropped b => exact absurd (List.mem_append_left _ hq) (hw b)
      | stored b => exact hl _ hq
  rw [List.map_append, List.map_append]
  exact mem_frames_of_isFrame (rest_bytes ha) hframe _

/-- **No line is spliced without a byte dropped.** On a link that stays up the lines passed are
    what was stored of the first stretches of the client's bytes between stored newlines, in order;
    a stretch of which nothing was dropped is a whole line of the client; and a byte is dropped
    only if it arrives while 64 bytes wait. -/
theorem passed_stretches (b : Board) (tr : List Event) (h : firmware.Run b tr)
    (hup : ended tr = []) :
    (passed tr).map (·.data) <+: (stretches tr).map (fun f => text (Uart.kept f)) ∧
      (∀ f ∈ stretches tr, Whole f → Uart.kept f ∈ frames newline (written tr)) ∧
      Always DroppedFull tr := by
  refine ⟨?_, fun f hf hw => ?_, droppedFull_run h⟩
  · have hcut := cut_stored h (handled_of_ended h hup).2
      (text (bytes (flow tr).held) ++ text (bytes (flow tr).queue))
    have hst : text (bytes (flow tr).gone) ++ (text (bytes (flow tr).held) ++
        text (bytes (flow tr).queue)) = text (Uart.kept (arrivals tr)) := by
      rw [← stored_eq_kept, stored_eq_flow]
      simp only [bytes, List.map_append, text_append, List.append_assoc]
    rw [stretches, ← frames_kept, ← hst, frames, hcut]
    exact List.prefix_append _ _
  · rw [kept_of_whole hw]
    exact line_of_whole hf hw

/-- The client writes "mxx..x\ns45\n", 67 bytes, of which 64 fit into the receive buffer; once main
    has taken them it writes "p9\n". -/
def splicing : List Act :=
  boot ++ [.write (109 :: List.replicate 19 120), .write (List.replicate 20 120),
    .write (List.replicate 20 120), .write [120, 120, 10, 115, 52, 53, 10]] ++
    (List.replicate 62 byteTurn).flatten ++ newlineTurn ++ outerTurn ++ byteTurn ++
    lineTurns [112, 57, 10]

/-- Of the second stretch "45\n" was dropped, and main passes what was stored of both. -/
theorem passed_stretches_run :
    ∃ b tr, firmware.Run b tr ∧ ended tr = [] ∧ .dropped 52 ∈ arrivals tr ∧
      (passed tr).map (·.data) = [109 :: List.replicate 61 120 ++ [10], [115, 112, 57, 10]] ∧
      (passed tr).map (·.data) <+: (stretches tr).map (fun f => text (Uart.kept f)) := by
  let P : Board → List Event → Prop := fun _ tr =>
    ended tr = [] ∧ .dropped 52 ∈ arrivals tr ∧
      (passed tr).map (·.data) = [109 :: List.replicate 61 120 ++ [10], [115, 112, 57, 10]]
  obtain ⟨b, tr, hr, he, hd, hp⟩ :=
    Machine.exists_run_of_exec firmware P splicing (by decide +kernel)
  exact ⟨b, tr, hr, he, hd, hp, (passed_stretches b tr hr he).1⟩

/-- **A spliced line**: the line "sp9\n" that main passes behind the drop is made of parts of two
    lines, and the client never wrote it. -/
theorem spliced_line :
    ∃ b tr, firmware.Run b tr ∧ ended tr = [] ∧
      ∃ l ∈ passed tr, ∀ w ∈ frames newline (written tr), text w ≠ l.data := by
  let P : Board → List Event → Prop := fun _ tr =>
    ended tr = [] ∧ ∃ l ∈ passed tr, ∀ w ∈ frames newline (written tr), text w ≠ l.data
  exact Machine.exists_run_of_exec firmware P splicing (by decide +kernel)

end MicrobitAlarm
