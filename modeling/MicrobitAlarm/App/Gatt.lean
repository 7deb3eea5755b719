/-
  File:      MicrobitAlarm/App/Gatt.lean
  Subject:   THE APP'S SIDE OF THE BLUETOOTH LINK (MainActivity.java): `send()`, the listener of the
             Send button and `displayGattServices`.

  `writeCharacteristic` answers whether it has started the write; what it does not start is not
  transmitted. Its answers are a parameter, one for each write. A null reference that is used ends
  the method with a `NullPointerException`, which is `none` here; nothing in these methods catches
  it. `getCharacteristic` is documented to return the first characteristic of the service with the
  UUID, or null.

  Left out: the texts on the screen and on the console.
-/
import MicrobitAlarm.App.MainActivity

namespace MicrobitAlarm

/-! ## 1. Services and characteristics -/

/-- `java.util.UUID`. -/
abbrev Uuid := BitVec 128

/-- The characteristic the UART service receives on. -/
def uartRxUuid : Uuid := 0x6E400002B5A3F393E0A9E50E24DCCA9E#128

/-- A `BluetoothGattCharacteristic`: the instance id tells two of one UUID apart. -/
structure BluetoothGattCharacteristic where
  uuid : Uuid
  instanceId : Nat
  deriving DecidableEq

/-- A `BluetoothGattService`. -/
structure BluetoothGattService where
  uuid : Uuid
  characteristics : List BluetoothGattCharacteristic
  deriving DecidableEq

/-- `getCharacteristic(uuid)`: the first one with the UUID, or null. -/
def BluetoothGattService.getCharacteristic (s : BluetoothGattService) (uuid : Uuid) :
    Option BluetoothGattCharacteristic := s.characteristics.find? fun c => c.uuid == uuid

/-! ## 2. `send()` -/

/-- A call of `writeCharacteristic`, with the value set before it and its answer. -/
structure Write where
  charac : BluetoothGattCharacteristic
  value : List UInt8
  started : Bool
  deriving DecidableEq

/-- The fields of `MainActivity` that the link needs, with the calls of `writeCharacteristic` made
    so far. -/
structure Gatt where
  btTXCharac : Option BluetoothGattCharacteristic
  writes : List Write
  deriving DecidableEq

variable (answers : Nat → Bool)

namespace Gatt

/-- **`boolean send(String d)`**, where the `i`th write gets the answer `answers i`. -/
def send (g : Gatt) (d : List UInt8) : Option (Gatt × Bool) :=
  match g.btTXCharac with
  | none => none
  | some c =>
    let answer := answers g.writes.length
    some ({ g with writes := g.writes ++ [⟨c, d, answer⟩] }, answer)

/-- `queue.forEach(tq -> send(tq))`. -/
def sendAll (g : Gatt) : List (List UInt8) → Option Gatt
  | [] => some g
  | tq :: queue =>
    match g.send answers tq with
    | none => none
    | some (g, _) => sendAll g queue

/-- **The listener of the Send button**: it sends what is queued, then clears the queue. -/
def sendButton (m : MainActivity) (g : Gatt) : Option (MainActivity × Gatt) :=
  match g.sendAll answers m.queue with
  | none => none
  | some g => some (m.click .send, g)

/-! ## 3. `displayGattServices` -/

/-- The loop over the characteristics of a service. -/
def visitCharacteristics (s : BluetoothGattService) (g : Gatt) :
    List BluetoothGattCharacteristic → Option Gatt
  | [] => some g
  | _ :: cs =>
    match Gatt.send answers { g with btTXCharac := s.getCharacteristic uartRxUuid } [] with
    | none => none
    | some (g, _) => visitCharacteristics s g cs

/-- The loop over the services. -/
def visitServices (g : Gatt) : List BluetoothGattService → Option Gatt
  | [] => some g
  | s :: services =>
    match visitCharacteristics answers s g s.characteristics with
    | none => none
    | some g => visitServices g services

/-- **`void displayGattServices(List<BluetoothGattService>)`**; the list may be null. -/
def displayGattServices (g : Gatt) : Option (List BluetoothGattService) → Option Gatt
  | none => some g
  | some services => g.visitServices answers services

/-! ## 4. What they compute -/

variable {answers} {g g' : Gatt}

/-- **`send()`** writes to the characteristic it has. -/
theorem send_some {c : BluetoothGattCharacteristic} (h : g.btTXCharac = some c) (d : List UInt8) :
    g.send answers d = some ({ g with writes := g.writes ++ [⟨c, d, answers g.writes.length⟩] },
      answers g.writes.length) := by
  unfold send
  rw [h]

theorem send_none (h : g.btTXCharac = none) (d : List UInt8) : g.send answers d = none := by
  unfold send
  rw [h]

/-- The writes of a whole queue, from the `i`th on. -/
def writesOf (answers : Nat → Bool) (c : BluetoothGattCharacteristic) :
    Nat → List (List UInt8) → List Write
  | _, [] => []
  | i, tq :: queue => ⟨c, tq, answers i⟩ :: writesOf answers c (i + 1) queue

/-- **The whole queue is handed to `writeCharacteristic`**, whatever it answers. -/
theorem sendAll_some {c : BluetoothGattCharacteristic} (h : g.btTXCharac = some c)
    (queue : List (List UInt8)) :
    g.sendAll answers queue =
      some { g with writes := g.writes ++ writesOf answers c g.writes.length queue } := by
  induction queue generalizing g with
  | nil => simp [sendAll, writesOf]
  | cons tq queue ih =>
      unfold sendAll
      rw [send_some h]
      have hg :
          ({ g with writes := g.writes ++ [⟨c, tq, answers g.writes.length⟩] } : Gatt).btTXCharac =
            some c := h
      simp only [ih hg, writesOf, List.length_append, List.length_singleton, List.append_assoc,
        List.singleton_append]

/-- A service without the UART characteristic: the loop over its characteristics does nothing if
    there are none, and throws otherwise. -/
theorem visitCharacteristics_without {s : BluetoothGattService}
    (h : s.getCharacteristic uartRxUuid = none) (cs : List BluetoothGattCharacteristic) :
    g.visitCharacteristics answers s cs = if cs = [] then some g else none := by
  cases cs with
  | nil => rfl
  | cons c cs =>
      unfold visitCharacteristics
      rw [h, send_none rfl]
      rfl

/-- A service with it: the loop ends with it, and has written to nothing else. -/
theorem visitCharacteristics_with {s : BluetoothGattService} {c : BluetoothGattCharacteristic}
    (h : s.getCharacteristic uartRxUuid = some c) (cs : List BluetoothGattCharacteristic) :
    ∃ g', g.visitCharacteristics answers s cs = some g' ∧
      (cs ≠ [] ∨ g.btTXCharac = some c → g'.btTXCharac = some c) := by
  induction cs generalizing g with
  | nil => exact ⟨g, rfl, fun hc => hc.resolve_left fun hx => hx rfl⟩
  | cons x cs ih =>
      unfold visitCharacteristics
      rw [h, send_some rfl]
      obtain ⟨g', hg', hc⟩ := @ih
        ⟨some c, g.writes ++ [⟨c, [], answers g.writes.length⟩]⟩
      exact ⟨g', hg', fun _ => hc (.inr rfl)⟩

end Gatt

end MicrobitAlarm
