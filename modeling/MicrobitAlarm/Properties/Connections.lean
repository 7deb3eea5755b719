/-
  File:      MicrobitAlarm/Properties/Connections.lean
  Subject:   LINES AND CONNECTIONS.

  A byte is stored with the number of its connection. What a connection leaves behind when it ends
  may stand in main's line or wait in the receive buffer: main's line is destroyed when main sees
  `connected` reset, the buffer is never cleared.

  * `away_append` -- what is dropped of a connection that has ended is dropped for good;
  * `line_of_one_connection` -- if every connection that has ended finished its last line, or left
    it to be dropped, a line is made of bytes of one connection;
  * `line_of_two_connections` -- runs in which a line is made of bytes of two: main does not notice
    the disconnection, or the bytes wait in the receive buffer.
-/
import MicrobitAlarm.Properties.Delivery

namespace MicrobitAlarm

open Trace Framing

variable {b b' : Board} {tr ev : List Event}

/-! ## 1. Connections come one after the other -/

/-- A byte is stored on a connection that has not ended, and all connections before it have. -/
def FromLink (pre : List Event) : Event → Prop
  | .stored conn _ => conn ∉ ended pre ∧ ∀ x ∈ stored pre, x.1 = conn ∨ x.1 ∈ ended pre
  | _ => True

/-- **Connections come one after the other.** -/
structure LinkInv (b : Board) (tr : List Event) : Prop where
  events : Always FromLink tr
  past : ∀ c ∈ ended tr, c ≤ b.link.conn ∧ (b.link.up = true → c < b.link.conn)
  present : ∀ x ∈ stored tr, (x.1 = b.link.conn ∧ b.link.up = true) ∨ x.1 ∈ ended tr

/-- A step that leaves the link as it is and stores nothing. -/
theorem LinkInv.still (hi : LinkInv b tr) (hl : b'.link.conn = b.link.conn ∧ b'.link.up = b.link.up)
    (he : ended ev = []) (hs : stored ev = []) : LinkInv b' (tr ++ ev) := by
  refine ⟨always_append.mpr ⟨hi.events, fun pre e post hp => ?_⟩, ?_, ?_⟩
  · cases e with
    | stored c x =>
        rw [hp, stored_append] at hs
        simp [stored, Event.storedCell] at hs
    | _ => trivial
  · rw [ended_append, he, List.append_nil, hl.1, hl.2]
    exact hi.past
  · rw [ended_append, he, stored_append, hs, List.append_nil, List.append_nil, hl.1, hl.2]
    exact hi.present

/-- What a write stores is of the connection that is up. -/
theorem stored_receipts (conn : Nat) (rs : List Receipt) :
    ∀ x ∈ stored (rs.map (Event.ofReceipt conn)), x.1 = conn := by
  intro x hx
  obtain ⟨e, he, hc⟩ := List.mem_filterMap.mp hx
  obtain ⟨y, rfl | rfl⟩ := mem_receipts he
  · cases hc
    rfl
  · cases hc

theorem linkInv_step (hi : LinkInv b tr) (hs : b.Step b' ev) : LinkInv b' (tr ++ ev) := by
  cases hs with
  | write data hu =>
      have hnew := stored_receipts b.link.conn (b.uart.onDataWritten data).2
      refine ⟨always_append.mpr ⟨hi.events, fun pre e post hp => ?_⟩, ?_, ?_⟩
      · have hpre : pre <+: (b.uart.onDataWritten data).2.map (Event.ofReceipt b.link.conn) :=
          ⟨_, hp.symm⟩
        obtain ⟨rs, hrs, rfl⟩ := List.prefix_map_iff.mp hpre
        have hmem : e ∈ (b.uart.onDataWritten data).2.map (Event.ofReceipt b.link.conn) := by
          rw [hp]; simp
        obtain ⟨r, _, rfl⟩ := List.mem_map.mp hmem
        cases r with
        | dropped y => trivial
        | stored y =>
            show b.link.conn ∉ ended (tr ++ _) ∧ ∀ x ∈ stored (tr ++ _), _
            rw [ended_append, ended_receipts, List.append_nil, stored_append]
            refine ⟨fun hc => Nat.lt_irrefl _ ((hi.past _ hc).2 hu), fun x hx => ?_⟩
            rcases List.mem_append.mp hx with hx | hx
            · exact (hi.present x hx).imp_left And.left
            · exact .inl (stored_receipts _ rs x hx)
      · rw [ended_append, ended_receipts, List.append_nil]
        exact hi.past
      · rw [ended_append, ended_receipts, List.append_nil, stored_append]
        intro x hx
        rcases List.mem_append.mp hx with hx | hx
        · exact hi.present x hx
        · exact .inl ⟨hnew x hx, hu⟩
  | connect queued hu =>
      refine ⟨always_snoc.mpr ⟨hi.events, trivial⟩, ?_, ?_⟩
      · intro c hc
        rw [ended_append, show ended [Event.linkUp (b.link.conn + 1)] = [] from rfl,
          List.append_nil] at hc
        have := (hi.past c hc).1
        exact ⟨Nat.le_succ_of_le this, fun _ => Nat.lt_succ_of_le this⟩
      · intro x hx
        rw [stored_append, show stored [Event.linkUp (b.link.conn + 1)] = [] from rfl,
          List.append_nil] at hx
        rw [ended_append]
        rcases hi.present x hx with ⟨_, h⟩ | h
        · rw [hu] at h
          cases h
        · exact .inr (List.mem_append_left _ h)
  | disconnect queued hu =>
      refine ⟨always_snoc.mpr ⟨hi.events, trivial⟩, ?_, ?_⟩
      · intro c hc
        rw [ended_append] at hc
        refine ⟨?_, (fun h => by cases h)⟩
        rcases List.mem_append.mp hc with hc | hc
        · exact (hi.past c hc).1
        · exact Nat.le_of_eq (List.mem_singleton.mp hc)
      · intro x hx
        rw [stored_append, show stored [Event.linkDown b.link.conn] = [] from rfl,
          List.append_nil] at hx
        rw [ended_append]
        rcases hi.present x hx with ⟨h, _⟩ | h
        · exact .inr (List.mem_append_right _ (List.mem_singleton.mpr h))
        · exact .inr (List.mem_append_left _ h)
  | _ => exact hi.still ⟨rfl, rfl⟩ rfl rfl

theorem linkInv_run (h : firmware.Run b tr) : LinkInv b tr :=
  firmware_inv ⟨always_nil, List.forall_mem_nil _, List.forall_mem_nil _⟩
    (fun _ _ _ _ _ _ hi hs => linkInv_step hi hs) h

/-- Behind a byte of another connection no byte of an earlier one is stored. -/
theorem ended_of_apart (h : Always FromLink tr) {A B : List Cell} {x y : Cell}
    (hs : stored tr = A ++ y :: B) (hx : x ∈ A) (hne : x.1 ≠ y.1) :
    x.1 ∈ ended tr ∧ ∀ z ∈ B, z.1 ≠ x.1 := by
  induction tr using List.reverseRecOn generalizing B with
  | nil => simp [stored] at hs
  | append_singleton tr e ih =>
      have hold := fun B (hs : stored tr = A ++ y :: B) => ih h.of_append hs
      cases e with
      | stored conn v =>
          obtain ⟨hn, hc⟩ := h tr _ [] rfl
          have hsn : stored (tr ++ [Event.stored conn v]) = stored tr ++ [(conn, v)] := by
            simp [stored, Event.storedCell]
          have hen : ended (tr ++ [Event.stored conn v]) = ended tr := by
            simp [ended, Event.down]
          rw [hsn] at hs
          rw [hen]
          rcases snoc_eq_append_cons hs with ⟨rfl, rfl, rfl⟩ | ⟨B', hst, rfl⟩
          · exact ⟨(hc x hx).resolve_left hne, List.forall_mem_nil _⟩
          · obtain ⟨hend, hB⟩ := hold B' hst
            refine ⟨hend, fun w hw => ?_⟩
            rcases List.mem_append.mp hw with hw | hw
            · exact hB w hw
            · rw [List.mem_singleton.mp hw]
              rintro rfl
              exact hn hend
      | linkDown conn =>
          have hsn : stored (tr ++ [Event.linkDown conn]) = stored tr := by
            simp [stored, Event.storedCell]
          obtain ⟨hend, hB⟩ := hold B (hsn ▸ hs)
          exact ⟨by rw [ended_append]; exact List.mem_append_left _ hend, hB⟩
      | _ =>
          rw [ended_append]
          rw [stored_append] at hs
          obtain ⟨hend, hB⟩ := hold B ((List.append_nil _).symm.trans hs)
          exact ⟨List.mem_append_left _ hend, hB⟩

/-! ## 2. What a connection leaves behind -/

/-- No byte of a connection is on its way to a line. -/
def Away (c : Nat) (f : Flow) : Prop := (∀ x ∈ f.held, x.1 ≠ c) ∧ ∀ x ∈ f.queue, x.1 ≠ c

/-- **What has been dropped of a connection that has ended is dropped for good.** -/
theorem away_append {c : Nat} (h : Always FromLink (tr ++ ev)) (hc : c ∈ ended tr)
    (ha : Away c (flow tr)) : Away c (flow (tr ++ ev)) := by
  induction ev using List.reverseRecOn with
  | nil => rwa [List.append_nil]
  | append_singleton ev e ih =>
      rw [← List.append_assoc] at h ⊢
      obtain ⟨hh, hq⟩ := ih h.of_append
      rw [flow_snoc]
      cases e with
      | stored conn v =>
          obtain ⟨hn, _⟩ := h (tr ++ ev) _ [] rfl
          refine ⟨hh, fun x hx => ?_⟩
          rcases List.mem_append.mp hx with hx | hx
          · exact hq x hx
          · rw [List.mem_singleton.mp hx]
            rintro rfl
            exact hn (by rw [ended_append]; exact List.mem_append_left _ hc)
      | taken v =>
          cases hqu : (flow (tr ++ ev)).queue with
          | nil => simpa [Flow.read, hqu, Away] using hh
          | cons y q =>
              rw [hqu] at hq
              refine ⟨fun x hx => ?_, fun x hx => ?_⟩
              · simp only [Flow.read, hqu] at hx
                rcases List.mem_append.mp hx with hx | hx
                · exact hh x hx
                · rw [List.mem_singleton.mp hx]
                  exact hq y List.mem_cons_self
              · simp only [Flow.read, hqu] at hx
                exact hq x (List.mem_cons_of_mem y hx)
      | line t l rm as => exact ⟨List.forall_mem_nil _, hq⟩
      | discarded l => exact ⟨List.forall_mem_nil _, hq⟩
      | _ => exact ⟨hh, hq⟩

/-- **A connection that has ended and left nothing behind**: the last byte stored of it is a
    newline; or main has left the inner loop since, with none of its bytes in the receive
    buffer. -/
def Settled (c : Nat) (pre : List Event) : Prop :=
  (∀ z ∈ ((stored pre).filter (·.1 == c)).getLast?, z.2 = 10) ∨
    ∃ p l q, pre = p ++ .discarded l :: q ∧ c ∈ ended p ∧ ∀ x ∈ (flow p).queue, x.1 ≠ c

/-! ## 3. The bytes of a line -/

/-- The newline of a line that main passes, among the bytes held for it. -/
theorem newline_of_line {held : List Cell} {l : List UInt8} (ht : text (bytes held) = l)
    (hl : IsFrame newline l) :
    ∃ H y K, held = H ++ y :: K ∧ (∀ x ∈ H, x.2 ≠ 10) ∧ ∀ x ∈ K, x.2 = 0 := by
  obtain ⟨body, z, rfl, hz, hb⟩ := hl
  obtain ⟨H, K', rfl, hH, hK⟩ : ∃ H K, held = H ++ K ∧ text (bytes H) = body ∧
      text (bytes K) = [z] := by
    obtain ⟨bs, cs, hbc, h1, h2⟩ := List.filter_eq_append_iff.mp ht
    obtain ⟨H, K, rfl, rfl, rfl⟩ := List.map_eq_append_iff.mp hbc
    exact ⟨H, K, rfl, h1, h2⟩
  have hopen : ∀ x ∈ H, x.2 ≠ 10 := by
    intro x hx he
    have hm : x.2 ∈ text (bytes H) :=
      List.mem_filter.mpr ⟨List.mem_map_of_mem hx, by rw [he]; decide⟩
    rw [hH] at hm
    have := hb _ hm
    rw [he] at this
    cases this
  obtain ⟨bs, cs, hbc, hnul, hy, hrest⟩ := List.filter_eq_cons_iff.mp hK
  obtain ⟨J, K'', rfl, rfl, hK''⟩ := List.map_eq_append_iff.mp hbc
  obtain ⟨y, K, rfl, rfl, rfl⟩ := List.map_eq_cons_iff.mp hK''
  refine ⟨H ++ J, y, K, by simp, fun x hx => ?_, fun x hx => ?_⟩
  · rcases List.mem_append.mp hx with hx | hx
    · exact hopen x hx
    · have h0 := hnul x.2 (List.mem_map_of_mem hx)
      intro he
      rw [he] at h0
      exact h0 (by decide)
  · have h0 := List.filter_eq_nil_iff.mp hrest x.2 (List.mem_map_of_mem hx)
    simpa using h0

/-- **A line is made of bytes of one connection**, NUL bytes aside, if every connection that has
    ended before it has left nothing behind. -/
theorem line_of_one_connection (b : Board) (tr pre post : List Event) (t : Nat)
    (l : ManagedString) (rm : Bool) (as : List Action) (h : firmware.Run b tr)
    (hp : tr = pre ++ .line t l rm as :: post) :
    text (bytes (flow pre).held) = l.data ∧
      ((∀ c ∈ ended pre, Settled c pre) →
        ∃ c, ∀ x ∈ (flow pre).held, x.2 ≠ 0 → x.1 = c) := by
  have hheld : text (bytes (flow pre).held) = l.data := (flowInv_run h).events pre _ post hp
  refine ⟨hheld, fun hset => ?_⟩
  have hlink : Always FromLink pre := by
    have := (linkInv_run h).events
    rw [hp] at this
    exact this.of_append
  have hframe : IsFrame newline l.data := (agrees_run h pre _ post hp).2.1
  obtain ⟨H, y, K, hH, hopen, hnul⟩ := newline_of_line hheld hframe
  refine ⟨y.1, fun x hx hx0 => ?_⟩
  rw [hH] at hx
  rcases List.mem_append.mp hx with hx | hx
  · by_contra hne
    -- the bytes of an earlier connection: none of it is stored behind them
    have hst : stored pre = ((flow pre).gone ++ H) ++ y :: (K ++ (flow pre).queue) := by
      rw [stored_eq_flow, hH]
      simp
    obtain ⟨hend, hlater⟩ := ended_of_apart hlink hst (List.mem_append_right _ hx) hne
    rcases hset _ hend with hfin | ⟨p, l', q, rfl, hc, hq⟩
    · obtain ⟨z, hz, hzH⟩ : ∃ z ∈ ((stored pre).filter (·.1 == x.1)).getLast?, z ∈ H := by
        have hnone : (y :: (K ++ (flow pre).queue)).filter (·.1 == x.1) = [] := by
          refine List.filter_eq_nil_iff.mpr fun w hw => ?_
          rcases List.mem_cons.mp hw with rfl | hw
          · simpa using fun hcon => hne hcon.symm
          · simpa using hlater w hw
        have hmem : x ∈ H.filter (·.1 == x.1) := List.mem_filter.mpr ⟨hx, by simp⟩
        have hsome := List.getLast?_eq_some_getLast (List.ne_nil_of_mem hmem)
        refine ⟨_, ?_, List.mem_of_mem_filter (List.getLast_mem (List.ne_nil_of_mem hmem))⟩
        rw [hst, List.filter_append, hnone, List.append_nil, List.filter_append,
          List.getLast?_append, hsome]
        rfl
      exact hopen z hzH (hfin z hz)
    · have haway : Away x.1 (flow (p ++ [.discarded l'])) := by
        rw [flow_snoc]
        exact ⟨List.forall_mem_nil _, hq⟩
      have hsplit : p ++ .discarded l' :: q = (p ++ [.discarded l']) ++ q := by simp
      rw [hsplit] at hlink hH
      have hheldAway := (away_append hlink
        (by rw [ended_append]; exact List.mem_append_left _ hc) haway).1
      exact hheldAway x (by rw [hH]; exact List.mem_append_left _ hx) rfl
  · rcases List.mem_cons.mp hx with rfl | hx
    · rfl
    · exact absurd (hnul x hx) hx0

/-- "p9" on the first connection, which main takes and drops, and "\n" on the second: the line is
    that of the second. -/
theorem line_of_one_connection_run :
    ∃ b pre, firmware.Run b (pre ++ [.line 30 ⟨[10], by decide⟩ false []]) ∧ ended pre = [1] ∧
      ∃ c, ∀ x ∈ (flow pre).held, x.2 ≠ 0 → x.1 = c := by
  have he : (firmware.exec firmware.start (boot ++ .write [112, 57] :: byteTurn ++ byteTurn ++
      [.main, .main, .main, .disconnect true, .handler 0, tick, .main, .main, .main,
        .connect true, .handler 0, tick, .main] ++ lineTurns [10])).map Prod.snd = some
      ((([.outer 0, .linkUp 1, .handled true, .stored 1 112, .stored 1 57, .inner 6, .polled 6,
        .taken 112, .inner 12, .polled 12, .taken 57, .inner 18, .polled 18, .linkDown 1,
        .handled false] : List Event) ++ .discarded ⟨[112, 57], by decide⟩ ::
        [.outer 24, .linkUp 2, .handled true, .stored 2 10, .inner 30, .polled 30, .taken 10]) ++
        [.line 30 ⟨[10], by decide⟩ false []]) := by decide +kernel
  obtain ⟨b, hr⟩ := Machine.run_of_trace he
  refine ⟨b, _, hr, by decide +kernel,
    (line_of_one_connection b _ _ _ _ _ _ _ hr rfl).2 fun c hc => .inr ⟨_, _, _, rfl, ?_, ?_⟩⟩
  · obtain rfl : 1 = c := by simpa [ended, Event.down] using hc
    decide
  · exact List.forall_mem_nil _

/-- **Lines made of two connections**, "p9" on the first and "\n" on the second. The connection
    changes while main sleeps behind the "9", and both handlers finish before it looks; or "p9"
    waits in the receive buffer while main sees the disconnection and leaves the inner loop. -/
theorem line_of_two_connections :
    (∃ b pre, firmware.Run b (pre ++ [.line 18 ⟨[112, 57, 10], by decide⟩ false [.sleep 9]]) ∧
      (flow pre).held = [(1, 112), (1, 57), (2, 10)]) ∧
    ∃ b pre, firmware.Run b (pre ++ [.line 36 ⟨[112, 57, 10], by decide⟩ false [.sleep 9]]) ∧
      .discarded .empty ∈ pre ∧ (flow pre).held = [(1, 112), (1, 57), (2, 10)] := by
  constructor
  · have he : (firmware.exec firmware.start (boot ++ .write [112, 57] :: byteTurn ++
        [.main, .main, .main, .main, .main, .main, .disconnect true, .connect true, .handler 0,
          .handler 0, tick, .main] ++ lineTurns [10])).map Prod.snd = some
        (([.outer 0, .linkUp 1, .handled true, .stored 1 112, .stored 1 57, .inner 6, .polled 6,
          .taken 112, .inner 12, .polled 12, .taken 57, .linkDown 1, .linkUp 2, .handled false,
          .handled true, .stored 2 10, .inner 18, .polled 18, .taken 10] : List Event) ++
          [.line 18 ⟨[112, 57, 10], by decide⟩ false [.sleep 9]]) := by decide +kernel
    obtain ⟨b, hr⟩ := Machine.run_of_trace he
    exact ⟨b, _, hr, by decide +kernel⟩
  · have he : (firmware.exec firmware.start (boot ++ idleTurn ++ [.main, .main, .main,
        .write [112, 57], .disconnect true, .handler 0, tick, .main, .main, .main, .connect true,
        .handler 0, tick, .main, .write [10]] ++ byteTurn ++ byteTurn ++ newlineTurn)).map
        Prod.snd = some
        (([.outer 0, .linkUp 1, .handled true, .inner 6, .polled 6, .inner 12, .polled 12,
          .stored 1 112, .stored 1 57, .linkDown 1, .handled false, .discarded .empty, .outer 18,
          .linkUp 2, .handled true, .stored 2 10, .inner 24, .polled 24, .taken 112, .inner 30,
          .polled 30, .taken 57, .inner 36, .polled 36, .taken 10] : List Event) ++
          [.line 36 ⟨[112, 57, 10], by decide⟩ false [.sleep 9]]) := by decide +kernel
    obtain ⟨b, hr⟩ := Machine.run_of_trace he
    exact ⟨b, _, hr, by decide +kernel, by decide +kernel⟩

end MicrobitAlarm
