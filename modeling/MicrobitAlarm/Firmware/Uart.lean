/-
  File:      MicrobitAlarm/Firmware/Uart.lean
  Subject:   THE BLUETOOTH UART SERVICE (bluetooth/MicroBitUARTService.cpp), as `main` builds it:
             64 bytes for receiving, 32 for sending, one more slot each.

  The service has two circular buffers. `onDataWritten` runs in the interrupt of a client write
  and fills the receive buffer byte by byte; `getc` takes a byte out; `send` fills the transmit
  buffer and `on_confirmation` empties it. What the blocking part of `send` does is a matter of
  the main fiber (Board.lean).

  * `contents_onDataWritten` -- a write appends exactly the bytes it reports as stored;
  * `receive_dropped` -- a byte is dropped only while 64 bytes wait.

  Left out: the delimiters and the head match, which the firmware never sets (no delimiter, no
  `eventOn`), and the events `onDataWritten` raises for them and for a full buffer (nobody
  listens).
-/
import MicrobitAlarm.Lib.CircularBuffer

namespace MicrobitAlarm

/-! ## 1. The buffers -/

/-- `rxBufferSize` behind the constructor's `+= 1`. -/
def rxSlots : Nat := 64 + 1

/-- `txBufferSize` behind the constructor's `+= 1`. -/
def txSlots : Nat := 32 + 1

/-- The two buffers of the service. -/
structure Uart where
  rx : CircularBuffer UInt8 rxSlots
  tx : CircularBuffer UInt8 txSlots
  deriving DecidableEq

/-- What becomes of a byte that a client writes. -/
inductive Receipt where
  | stored (b : UInt8)
  | dropped (b : UInt8)
  deriving DecidableEq

namespace Uart

/-- Both buffers empty. -/
def init : Uart :=
  ⟨⟨Vector.replicate rxSlots 0, ⟨0, by decide⟩, ⟨0, by decide⟩⟩,
    ⟨Vector.replicate txSlots 0, ⟨0, by decide⟩, ⟨0, by decide⟩⟩⟩

/-! ## 2. Receiving -/

/-- The loop of `onDataWritten`: each byte is stored, or dropped if the buffer is full. -/
def receive :
    CircularBuffer UInt8 rxSlots → List UInt8 → CircularBuffer UInt8 rxSlots × List Receipt
  | rx, [] => (rx, [])
  | rx, b :: bs =>
    let r := receive (rx.put b) bs
    (r.1, (if rx.full then .dropped b else .stored b) :: r.2)

/-- **`onDataWritten`**: a client writes `data` to the receive characteristic. -/
def onDataWritten (u : Uart) (data : List UInt8) : Uart × List Receipt :=
  ({ u with rx := (receive u.rx data).1 }, (receive u.rx data).2)

/-- `rxBufferedSize()`. -/
def rxBufferedSize (u : Uart) : Nat := u.rx.size

/-- `getc()` on a buffer that is not empty: the byte, and the service without it. -/
def getc (u : Uart) : UInt8 × Uart := (u.rx.front, { u with rx := u.rx.pop })

/-! ## 3. Sending -/

/-- The inner loop of `send`: the bytes from `bytesWritten` on go to the transmit buffer while it
    has room. It answers the service and the new `bytesWritten`. -/
def fill (u : Uart) (buf : List UInt8) (bytesWritten : Nat) : Uart × Nat :=
  let r := (buf.drop bytesWritten).foldl
    (fun st c => if st.1.full then st else (st.1.put c, st.2 + 1)) (u.tx, bytesWritten)
  ({ u with tx := r.1 }, r.2)

/-- `on_confirmation`: the bytes sent are gone. -/
def onConfirmation (u : Uart) : Uart := { u with tx := u.tx.drain }

/-! ## 4. What a write leaves -/

/-- The bytes of a list of receipts that were stored. -/
def kept : List Receipt → List UInt8
  | [] => []
  | .stored b :: rs => b :: kept rs
  | .dropped _ :: rs => kept rs

/-- **A write appends exactly the bytes it reports as stored.** -/
theorem contents_onDataWritten (u : Uart) (data : List UInt8) :
    (u.onDataWritten data).1.rx.contents = u.rx.contents ++ kept (u.onDataWritten data).2 := by
  show (receive u.rx data).1.contents = _ ++ kept (receive u.rx data).2
  generalize u.rx = rx
  induction data generalizing rx with
  | nil => simp [receive, kept]
  | cons b bs ih =>
      simp only [receive]
      rw [ih]
      cases h : rx.full with
      | true => rw [CircularBuffer.put_full h, if_pos rfl, kept]
      | false =>
          rw [CircularBuffer.contents_put h, if_neg Bool.false_ne_true, kept, List.append_assoc]
          rfl

/-- **With room for all of them** no byte is dropped. -/
theorem receive_room {rx : CircularBuffer UInt8 rxSlots} {data : List UInt8}
    (h : rx.size + data.length ≤ 64) : (receive rx data).2 = data.map .stored := by
  induction data generalizing rx with
  | nil => rfl
  | cons b bs ih =>
      rw [List.length_cons] at h
      have hf : rx.full = false := by
        cases hf : rx.full with
        | false => rfl
        | true =>
            have hsize : rx.size + 1 = 64 + 1 := (CircularBuffer.full_iff rx).mp hf
            omega
      have hroom : (rx.put b).size + bs.length ≤ 64 := by
        rw [CircularBuffer.size_put hf]
        omega
      simp only [receive, ih hroom, hf, Bool.false_eq_true, if_false, List.map_cons]

theorem kept_stored (data : List UInt8) : kept (data.map .stored) = data := by
  induction data with
  | nil => rfl
  | cons b bs ih => rw [List.map_cons, kept, ih]

/-- **A byte is dropped only while 64 bytes wait.** -/
theorem receive_dropped {rx : CircularBuffer UInt8 rxSlots} {data : List UInt8}
    {rs₁ rs₂ : List Receipt} {b : UInt8} (h : (receive rx data).2 = rs₁ ++ .dropped b :: rs₂) :
    rx.size + (kept rs₁).length = 64 := by
  induction data generalizing rx rs₁ with
  | nil => simp [receive] at h
  | cons x xs ih =>
      simp only [receive] at h
      cases hf : rx.full with
      | true =>
          have hsize : rx.size + 1 = rxSlots := (CircularBuffer.full_iff rx).mp hf
          rw [CircularBuffer.put_full hf, hf, if_pos rfl] at h
          cases rs₁ with
          | nil => exact Nat.succ.inj hsize
          | cons r rs₁ =>
              simp only [List.cons_append, List.cons.injEq] at h
              obtain ⟨rfl, h⟩ := h
              show rx.size + (kept rs₁).length = 64
              exact ih h
      | false =>
          rw [hf, if_neg Bool.false_ne_true] at h
          cases rs₁ with
          | nil => simp at h
          | cons r rs₁ =>
              simp only [List.cons_append, List.cons.injEq] at h
              obtain ⟨rfl, h⟩ := h
              have hi := ih h
              rw [CircularBuffer.size_put hf] at hi
              simp only [kept, List.length_cons]
              omega

end Uart

end MicrobitAlarm
