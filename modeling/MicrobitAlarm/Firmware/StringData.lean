/-
  File:      MicrobitAlarm/Firmware/StringData.lean
  Subject:   STRINGS AS THEY ARE IN THE MEMORY (types/ManagedString.cpp, types/RefCounted.cpp).

  A `ManagedString` is a handle for a `StringData`, which it shares with those it was copied from
  and to. What it says there is in the other strings is in ManagedString.lean; here are the blocks,
  and when they are allocated, counted and freed.

  * `chars` -- the bytes in the memory from `toCharArray() + start` on, for any `start`;
  * `ofChars`, `ofChar`, `concat`, `substring` -- the constructors that allocate;
  * `step`, `machine` -- a program that makes, copies, assigns and destroys strings;
  * `effect` -- the same program with strings that are values.

  `malloc` answers with any address at which no string stands, or not at all. Left out: the
  constructors from an integer and from a `PacketBuffer`, `leakData`, and the comparisons, which
  write nothing. Fibers do not come between the lines of a constructor.
-/
import MicrobitAlarm.Firmware.ManagedString
import MicrobitAlarm.Firmware.RefCounted
import MicrobitAlarm.Lib.Trace

namespace MicrobitAlarm.StringData

open Trace RefCounted

/-- The strings of a program. -/
abbrev Strings := Store ManagedString

/-! ## 1. Constructors -/

/-- A block for these bytes; `p` is the answer of `malloc`. -/
def initString (s : Strings) (bytes : List UInt8) (p : Option Nat) : Except Fault Strings :=
  match mallocString bytes, p with
  | some x, some p => .ok (s.create x p)
  | _, _ => .error .outOfMemory

/-- `ManagedString(const char *str)`. -/
def ofChars (s : Strings) (str : List UInt8) (p : Option Nat) : Except Fault Strings :=
  if str.headD 0 = 0 then .ok (s.literal .empty) else initString s (str.takeWhile (· != 0)) p

/-- `ManagedString(const char value)`, which does not look for a NUL. -/
def ofChar (s : Strings) (value : UInt8) (p : Option Nat) : Except Fault Strings :=
  initString s ([value, 0].takeWhile (· != 0)) p

/-- `ManagedString(const char *str, const int16_t length)`. -/
def ofBuffer (s : Strings) (str : List UInt8) (length : Int) (p : Option Nat) :
    Except Fault Strings :=
  if str.headD 0 = 0 ∨ (strlen str : Int) < length % 65536 then .ok (s.literal .empty)
  else initString s (str.take length.toNat) p

/-- The `StringData` of a handle; the count of one in flash says that it is not counted. -/
def object (s : Strings) : Ptr ManagedString → Option (Counted ManagedString)
  | .flash x => some ⟨65535, x⟩
  | .heap p => s.blocks p

/-- What stands in front of the bytes of a string: its count and its length, in little endian. -/
def header (d : Counted ManagedString) : List UInt8 :=
  [.ofNat d.refCount, .ofNat (d.refCount / 256), .ofNat d.value.length,
    .ofNat (d.value.length / 256)]

/-- The bytes from `toCharArray() + start` to the end of the string, with `before` in the memory
    in front of its block: a negative `start` leads into the header or beyond it. -/
def chars (d : Counted ManagedString) (before : List UInt8) (start : Int) : List UInt8 :=
  (before ++ header d ++ d.value.data).drop ((before.length : Int) + 4 + start).toNat

/-- `substring(int16_t start, int16_t length)`. A negative `start` is not refused. -/
def substring (s : Strings) (r : Ptr ManagedString) (start length : Int) (before : List UInt8)
    (p : Option Nat) : Except Fault Strings :=
  match object s r with
  | none => .error .dangling
  | some d =>
    if d.value.length ≤ start then .ok (s.literal .empty)
    else ofBuffer s (chars d before start) (min ((d.value.length : Int) - start) length) p

/-- `operator+`: a copy of one side, or a new block. -/
def concat (s : Strings) (l r : Ptr ManagedString) (p : Option Nat) : Except Fault Strings :=
  match s.value l, s.value r with
  | some lhs, some rhs =>
    if rhs.length = 0 then s.copy l
    else if lhs.length = 0 then s.copy r
    else initString s (lhs.data ++ rhs.data) p
  | _, _ => .error .dangling

/-! ## 2. A program with strings -/

/-- What a program does with its strings, which are numbered in the order in which they come. -/
inductive Action where
  | empty
  | ofChars (str : List UInt8) (p : Option Nat)
  | ofChar (value : UInt8) (p : Option Nat)
  /-- with what stands in the memory in front of the string -/
  | substring (v : Nat) (start length : Int) (before : List UInt8) (p : Option Nat)
  /-- `v + w` -/
  | concat (v w : Nat) (p : Option Nat)
  | copy (v : Nat)
  /-- `v = w` -/
  | assign (v w : Nat)
  | destroy (v : Nat)
  deriving DecidableEq

/-- What `malloc` may answer. -/
def fresh (s : Strings) (p : Option Nat) : Bool := p.all fun p => (s.blocks p).isNone

/-- The code of an action, on strings that exist. -/
def perform (s : Strings) : Action → Option (Except Fault Strings)
  | .empty => some (.ok (s.literal .empty))
  | .ofChars str p => if fresh s p then some (ofChars s str p) else none
  | .ofChar value p => if fresh s p then some (ofChar s value p) else none
  | .substring v start length before p =>
    if fresh s p = true ∧ 0 ≤ (before.length : Int) + 4 + start then
      (s.get v).map fun r => substring s r start length before p
    else none
  | .concat v w p =>
    if fresh s p then (s.get v).bind fun l => (s.get w).map fun r => concat s l r p else none
  | .copy v => (s.get v).map s.copy
  | .assign v w => (s.get v).bind fun old => (s.get w).map fun r => s.assign v old r
  | .destroy v => (s.get v).map fun r => s.destroy v r

/-- **One step**; a fault is the end. -/
def step (s : Except Fault Strings) (a : Action) : Option (Except Fault Strings × List Action) :=
  match s with
  | .error _ => none
  | .ok s => (perform s a).map (·, [a])

/-- A program, from where it has no strings yet. -/
def machine : Machine (Except Fault Strings) Action Action := ⟨.ok ⟨fun _ => none, []⟩, step⟩

/-! ## 3. Strings as values -/

/-- The action reads no byte in front of a string. -/
def Action.inside : Action → Bool
  | .substring _ start _ _ _ => decide (0 ≤ start)
  | _ => true

/-- How many strings there are behind an action, if it has its memory. -/
def Action.alive (n : Nat) : Action → Nat
  | .assign _ _ => n
  | .destroy _ => n - 1
  | _ => n + 1

/-- **What an action does to strings that are values**, if it reads no byte in front of one. -/
def effect (xs : List (Option ManagedString)) : Action → List (Option ManagedString)
  | .empty => xs ++ [some .empty]
  | .ofChars str _ => xs ++ [ManagedString.ofChars str]
  | .ofChar value _ => xs ++ [some (.ofChar value)]
  | .substring v start length _ _ =>
    xs ++ [(xs[v]?).join.map fun x => x.substring start.toNat length]
  | .concat v w _ =>
    xs ++ [(xs[v]?).join.bind fun lhs => (xs[w]?).join.bind fun rhs => lhs.concat rhs]
  | .copy v => xs ++ [(xs[v]?).join]
  | .assign v w => xs.set v (xs[w]?).join
  | .destroy v => xs.set v none

end MicrobitAlarm.StringData
