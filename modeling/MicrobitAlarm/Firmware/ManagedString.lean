/-
  File:      MicrobitAlarm/Firmware/ManagedString.lean
  Subject:   STRINGS OF THE DEVICE ABSTRACTION LAYER (types/ManagedString.cpp), as far as the
             firmware uses them.

  A `ManagedString` is an immutable, reference-counted byte string. Its block on the heap has a
  header of four bytes and a closing NUL, and the whole RAM of the board is 16 KB, so a string
  that exists is short: the bound is a field of the type, and with it `len` (`uint16_t`) and
  `length()` (`int16_t`) never truncate (`length_lt`). An allocation larger than the RAM fails,
  and a failed `malloc` is `microbit_panic(MICROBIT_OOM)`: the constructors that allocate answer
  `none` then. A smaller one may fail as well, for want of a stretch of the heap that is free and
  long enough; the constructors here say what is made if it does not, and Board.lean has the
  failure as an action of its own. A `char` is an unsigned byte on this processor.

  Left out: the reference counts (StringData.lean has them), a `start` of `substring` below zero,
  which reads them (the firmware passes 1), and the constructors and comparisons the firmware does
  not call.
-/
import Mathlib.Data.List.TakeWhile

namespace MicrobitAlarm

/-! ## 1. The heap -/

/-- `MICROBIT_SRAM_END - MICROBIT_SRAM_BASE`: no block is larger. -/
def sramBytes : Nat := 0x20004000 - 0x20000008

/-- The longest string whose block (`4 + len + 1` bytes) fits in the RAM. -/
def maxLength : Nat := sramBytes - 5

/-- A string that exists: its block fits in the RAM. -/
structure ManagedString where
  data : List UInt8
  fits : data.length ≤ maxLength
  deriving DecidableEq

/-- `malloc(4 + len + 1)` and the copy of the bytes; `none` is the panic of a `malloc` that cannot
    succeed. -/
def mallocString (bytes : List UInt8) : Option ManagedString :=
  if h : bytes.length ≤ maxLength then some ⟨bytes, h⟩ else none

/-- `strlen`: the bytes before the first NUL (`toCharArray()` ends in one). -/
def strlen (str : List UInt8) : Nat := (str.takeWhile (· != 0)).length

namespace ManagedString

/-! ## 2. The operations -/

/-- The empty string, in flash. -/
def empty : ManagedString := ⟨[], Nat.zero_le _⟩

/-- `length()`. -/
def length (s : ManagedString) : Nat := s.data.length

/-- `ManagedString(const char *str)`: the bytes up to the first NUL. -/
def ofChars (str : List UInt8) : Option ManagedString :=
  if str.headD 0 = 0 then some empty else mallocString (str.takeWhile (· != 0))

/-- `charAt(int16_t index)`: zero outside the string. -/
def charAt (s : ManagedString) (index : Int) : UInt8 :=
  if 0 ≤ index ∧ index < s.length then s.data.getD index.toNat 0 else 0

/-- `ManagedString(const char *str, const int16_t length)` on the bytes of a string from
    `start` on. The length is compared as `(uint16_t)length`, so a negative one is refused. -/
def ofBuffer (s : ManagedString) (start : Nat) (length : Int) : ManagedString :=
  let str := s.data.drop start
  if str.headD 0 = 0 ∨ (strlen str : Int) < length % 65536 then empty
  else ⟨str.take length.toNat, by
    have h := s.fits
    simp only [str, List.length_take, List.length_drop]
    omega⟩

/-- `substring(int16_t start, int16_t length)`, from a `start` that is not negative. -/
def substring (s : ManagedString) (start : Nat) (length : Int) : ManagedString :=
  if s.length ≤ start then empty
  else s.ofBuffer start (min ((s.length : Int) - start) length)

/-- `operator+`: an empty side is dropped, otherwise both are copied into a new block. -/
def concat (lhs rhs : ManagedString) : Option ManagedString :=
  if rhs.length = 0 then some lhs
  else if lhs.length = 0 then some rhs
  else mallocString (lhs.data ++ rhs.data)

/-! ## 3. What they compute -/

@[ext] theorem ext {s t : ManagedString} (h : s.data = t.data) : s = t := by
  cases s
  cases t
  simpa using h

@[simp] theorem data_empty : empty.data = [] := rfl

theorem length_le (s : ManagedString) : s.length ≤ maxLength := s.fits

/-- **A length is never truncated**: it is far below the end of `int16_t`. -/
theorem length_lt (s : ManagedString) : s.length < 32768 :=
  Nat.lt_of_le_of_lt s.length_le (by decide)

theorem mallocString_eq_some {bytes : List UInt8} {s : ManagedString} :
    mallocString bytes = some s ↔ s.data = bytes := by
  unfold mallocString
  constructor
  · intro h
    split at h
    · cases h
      rfl
    · cases h
  · intro h
    subst h
    rw [dif_pos s.fits]

/-- A concatenation that succeeds is the concatenation. -/
theorem concat_eq_some {lhs rhs s : ManagedString} :
    lhs.concat rhs = some s ↔ s.data = lhs.data ++ rhs.data := by
  unfold concat length
  split
  · rename_i h
    rw [List.length_eq_zero_iff.mp h, List.append_nil, Option.some.injEq, eq_comm]
    exact ManagedString.ext_iff
  · split
    · rename_i h
      rw [List.length_eq_zero_iff.mp h, List.nil_append, Option.some.injEq, eq_comm]
      exact ManagedString.ext_iff
    · exact mallocString_eq_some

theorem concat_eq_none {lhs rhs : ManagedString} :
    lhs.concat rhs = none ↔ maxLength < lhs.data.length + rhs.data.length := by
  have hl := lhs.fits
  have hr := rhs.fits
  unfold concat length mallocString
  split
  · rename_i h
    rw [h]
    simpa using hl
  · split
    · rename_i h
      rw [h]
      simpa using hr
    · split
      · rename_i h
        rw [List.length_append] at h
        simpa using h
      · rename_i h
        rw [List.length_append] at h
        simpa using h

/-- A concatenation that fits in the RAM. -/
theorem concat_of_fits {lhs rhs : ManagedString}
    (h : lhs.data.length + rhs.data.length ≤ maxLength) :
    ∃ s, lhs.concat rhs = some s ∧ s.data = lhs.data ++ rhs.data := by
  cases hc : lhs.concat rhs with
  | none => exact absurd (concat_eq_none.mp hc) (Nat.not_lt.mpr h)
  | some s => exact ⟨s, rfl, concat_eq_some.mp hc⟩

theorem charAt_of_lt {s : ManagedString} {i : Nat} (h : i < s.length) :
    s.charAt i = s.data.getD i 0 := by
  unfold charAt
  rw [if_pos ⟨by omega, by omega⟩]
  rfl

theorem charAt_zero (s : ManagedString) : s.charAt 0 = s.data.headD 0 := by
  cases h : s.data with
  | nil => simp [charAt, length, h]
  | cons b r => simp [charAt, length, h]

/-- A string without NUL bytes is all before its first NUL. -/
theorem strlen_of_no_nul {str : List UInt8} (h : ∀ b ∈ str, b ≠ 0) :
    strlen str = str.length := by
  unfold strlen
  rw [List.takeWhile_eq_self_iff.mpr fun b hb => by simpa using h b hb]

/-- **The argument of a command**: of a line without NUL bytes, everything behind the first
    character (`line.substring(1, line.length() - 1)`). -/
theorem substring_argument {s : ManagedString} (h : ∀ b ∈ s.data, b ≠ 0) :
    (s.substring 1 ((s.length : Int) - 1)).data = s.data.tail := by
  have hlt := s.length_lt
  unfold substring
  split
  · rename_i h1
    unfold length at h1
    cases hd : s.data with
    | nil => rfl
    | cons b r => rw [hd] at h1; simp at h1; simp [h1]
  · rename_i h1
    have hlen : (s.data.drop 1).length = s.length - 1 := by simp [length]
    have hno : ∀ b ∈ s.data.drop 1, b ≠ 0 := fun b hb => h b (List.mem_of_mem_drop hb)
    have hhead : (s.data.drop 1).headD 0 ≠ 0 := by
      cases hd : s.data.drop 1 with
      | nil => rw [hd] at hlen; simp only [List.length_nil] at hlen; omega
      | cons b r => exact hno b (by simp [hd])
    have hmin : min ((s.length : Int) - (1 : Nat)) ((s.length : Int) - 1) = s.length - 1 := by
      omega
    have hmod : ((s.length : Int) - 1) % 65536 = (s.length : Int) - 1 :=
      Int.emod_eq_of_lt (by omega) (by omega)
    unfold ofBuffer
    simp only [strlen_of_no_nul hno, hlen, hmin, hmod]
    rw [if_neg (by rintro (he | he); exact hhead he; omega)]
    show (s.data.drop 1).take _ = _
    rw [List.take_of_length_le (by rw [hlen]; omega), List.drop_one]

/-- The string of a `char` and a NUL: the byte itself, or nothing for a NUL byte. -/
def ofChar (c : UInt8) : ManagedString :=
  if c = 0 then empty else ⟨[c], by simp only [List.length_singleton]; decide⟩

theorem ofChars_pair (c : UInt8) : ofChars [c, 0] = some (ofChar c) := by
  unfold ofChars ofChar
  by_cases h : c = 0
  · simp [h]
  · have ht : [c, 0].takeWhile (· != 0) = [c] := by simp [h]
    simp only [List.headD_cons, h, if_false, ht]
    exact mallocString_eq_some.mpr rfl

/-- The bytes one `char` adds to a string. -/
theorem data_ofChar (c : UInt8) : (ofChar c).data = if c = 0 then [] else [c] := by
  unfold ofChar
  split <;> rfl

end ManagedString

end MicrobitAlarm
