/-
  File:      MicrobitAlarm/Firmware/Image.lean
  Subject:   PICTURES: `MicroBitImage` (types/MicroBitImage.cpp) and the font
             (core/MicroBitFont.cpp).

  An image is a block of bytes, one for each pixel, row after row. Its operations move bytes with
  computed addresses. Here an operation answers `none` when it reads or writes outside the block.

  * `clear`, `shiftLeft` .. `shiftDown`, `paste`, `print` -- the operations, loop by loop;
  * `moved_shiftLeft` .., `pixel_paste`, `pixel_print` -- what they do to the picture in the
    plane, for all arguments (of `print`, for places that are not negative), and that they stay
    inside.

  Left out: reference counts and read-only images, `crop`, and pasting an image into itself,
  where `memcpy` would be given overlapping blocks.
-/
import Mathlib.Data.UInt
import MicrobitAlarm.Lib.Raster

namespace MicrobitAlarm.Display

open Raster

/-! ## 1. The font -/

/-- What an operation answers (ErrorNo.h). -/
inductive Answer where
  | ok
  | invalidParameter
  | busy
  deriving DecidableEq

/-- `MICROBIT_FONT_ASCII_START`. -/
def fontAsciiStart : Nat := 32

/-- `MICROBIT_FONT_ASCII_END`. -/
def fontAsciiEnd : Nat := 126

/-- `MICROBIT_FONT_WIDTH`, and as many rows of one byte each (`MICROBIT_FONT_HEIGHT`). -/
def fontWidth : Nat := 5

/-- `MicroBitFont`: five bytes for each character up to `asciiEnd`. -/
structure MicroBitFont where
  characters : List UInt8
  asciiEnd : Nat
  covers : 5 * (asciiEnd + 1 - fontAsciiStart) ≤ characters.length

/-- `pendolino3`. -/
def pendolino3 : List UInt8 :=
  [0x0, 0x0, 0x0, 0x0, 0x0, 0x8, 0x8, 0x8, 0x0, 0x8, 0xa, 0x4a, 0x40, 0x0, 0x0, 0xa, 0x5f, 0xea,
    0x5f, 0xea, 0xe, 0xd9, 0x2e, 0xd3, 0x6e, 0x19, 0x32, 0x44, 0x89, 0x33, 0xc, 0x92, 0x4c, 0x92,
    0x4d, 0x8, 0x8, 0x0, 0x0, 0x0, 0x4, 0x88, 0x8, 0x8, 0x4, 0x8, 0x4, 0x84, 0x84, 0x88, 0x0, 0xa,
    0x44, 0x8a, 0x40, 0x0, 0x4, 0x8e, 0xc4, 0x80, 0x0, 0x0, 0x0, 0x4, 0x88, 0x0, 0x0, 0xe, 0xc0,
    0x0, 0x0, 0x0, 0x0, 0x8, 0x0, 0x1, 0x22, 0x44, 0x88, 0x10, 0xc, 0x92, 0x52, 0x52, 0x4c, 0x4,
    0x8c, 0x84, 0x84, 0x8e, 0x1c, 0x82, 0x4c, 0x90, 0x1e, 0x1e, 0xc2, 0x44, 0x92, 0x4c, 0x6, 0xca,
    0x52, 0x5f, 0xe2, 0x1f, 0xf0, 0x1e, 0xc1, 0x3e, 0x2, 0x44, 0x8e, 0xd1, 0x2e, 0x1f, 0xe2, 0x44,
    0x88, 0x10, 0xe, 0xd1, 0x2e, 0xd1, 0x2e, 0xe, 0xd1, 0x2e, 0xc4, 0x88, 0x0, 0x8, 0x0, 0x8, 0x0,
    0x0, 0x4, 0x80, 0x4, 0x88, 0x2, 0x44, 0x88, 0x4, 0x82, 0x0, 0xe, 0xc0, 0xe, 0xc0, 0x8, 0x4,
    0x82, 0x44, 0x88, 0xe, 0xd1, 0x26, 0xc0, 0x4, 0xe, 0xd1, 0x35, 0xb3, 0x6c, 0xc, 0x92, 0x5e,
    0xd2, 0x52, 0x1c, 0x92, 0x5c, 0x92, 0x5c, 0xe, 0xd0, 0x10, 0x10, 0xe, 0x1c, 0x92, 0x52, 0x52,
    0x5c, 0x1e, 0xd0, 0x1c, 0x90, 0x1e, 0x1e, 0xd0, 0x1c, 0x90, 0x10, 0xe, 0xd0, 0x13, 0x71, 0x2e,
    0x12, 0x52, 0x5e, 0xd2, 0x52, 0x1c, 0x88, 0x8, 0x8, 0x1c, 0x1f, 0xe2, 0x42, 0x52, 0x4c, 0x12,
    0x54, 0x98, 0x14, 0x92, 0x10, 0x10, 0x10, 0x10, 0x1e, 0x11, 0x3b, 0x75, 0xb1, 0x31, 0x11, 0x39,
    0x35, 0xb3, 0x71, 0xc, 0x92, 0x52, 0x52, 0x4c, 0x1c, 0x92, 0x5c, 0x90, 0x10, 0xc, 0x92, 0x52,
    0x4c, 0x86, 0x1c, 0x92, 0x5c, 0x92, 0x51, 0xe, 0xd0, 0xc, 0x82, 0x5c, 0x1f, 0xe4, 0x84, 0x84,
    0x84, 0x12, 0x52, 0x52, 0x52, 0x4c, 0x11, 0x31, 0x31, 0x2a, 0x44, 0x11, 0x31, 0x35, 0xbb, 0x71,
    0x12, 0x52, 0x4c, 0x92, 0x52, 0x11, 0x2a, 0x44, 0x84, 0x84, 0x1e, 0xc4, 0x88, 0x10, 0x1e, 0xe,
    0xc8, 0x8, 0x8, 0xe, 0x10, 0x8, 0x4, 0x82, 0x41, 0xe, 0xc2, 0x42, 0x42, 0x4e, 0x4, 0x8a, 0x40,
    0x0, 0x0, 0x0, 0x0, 0x0, 0x0, 0x1f, 0x8, 0x4, 0x80, 0x0, 0x0, 0x0, 0xe, 0xd2, 0x52, 0x4f, 0x10,
    0x10, 0x1c, 0x92, 0x5c, 0x0, 0xe, 0xd0, 0x10, 0xe, 0x2, 0x42, 0x4e, 0xd2, 0x4e, 0xc, 0x92,
    0x5c, 0x90, 0xe, 0x6, 0xc8, 0x1c, 0x88, 0x8, 0xe, 0xd2, 0x4e, 0xc2, 0x4c, 0x10, 0x10, 0x1c,
    0x92, 0x52, 0x8, 0x0, 0x8, 0x8, 0x8, 0x2, 0x40, 0x2, 0x42, 0x4c, 0x10, 0x14, 0x98, 0x14, 0x92,
    0x8, 0x8, 0x8, 0x8, 0x6, 0x0, 0x1b, 0x75, 0xb1, 0x31, 0x0, 0x1c, 0x92, 0x52, 0x52, 0x0, 0xc,
    0x92, 0x52, 0x4c, 0x0, 0x1c, 0x92, 0x5c, 0x90, 0x0, 0xe, 0xd2, 0x4e, 0xc2, 0x0, 0xe, 0xd0,
    0x10, 0x10, 0x0, 0x6, 0xc8, 0x4, 0x98, 0x8, 0x8, 0xe, 0xc8, 0x7, 0x0, 0x12, 0x52, 0x52, 0x4f,
    0x0, 0x11, 0x31, 0x2a, 0x44, 0x0, 0x11, 0x31, 0x35, 0xbb, 0x0, 0x12, 0x4c, 0x8c, 0x92, 0x0,
    0x11, 0x2a, 0x44, 0x98, 0x0, 0x1e, 0xc4, 0x88, 0x1e, 0x6, 0xc4, 0x8c, 0x84, 0x86, 0x8, 0x8,
    0x8, 0x8, 0x8, 0x18, 0x8, 0xc, 0x88, 0x18, 0x0, 0x0, 0xc, 0x83, 0x60]

/-- `MicroBitFont()`. -/
def defaultFont : MicroBitFont := ⟨pendolino3, fontAsciiEnd, by decide +kernel⟩

/-- Whether the font has the character. -/
def MicroBitFont.has (font : MicroBitFont) (c : UInt8) : Prop :=
  fontAsciiStart ≤ c.toNat ∧ c.toNat ≤ font.asciiEnd

instance (font : MicroBitFont) (c : UInt8) : Decidable (font.has c) :=
  inferInstanceAs (Decidable (_ ∧ _))

/-- The pixel that the row byte `v` has in a column: `(v & (0x10 >> col)) ? 255 : 0`. -/
def columnOf (v : UInt8) (col : Nat) : UInt8 :=
  if v &&& (0x10 >>> UInt8.ofNat col) ≠ 0 then 255 else 0

/-- The picture of a character. -/
def MicroBitFont.glyph (font : MicroBitFont) (c : UInt8) (col row : Nat) : UInt8 :=
  columnOf (font.characters.getD ((c.toNat - fontAsciiStart) * 5 + row) 0) col

/-! ## 2. The operations -/

/-- The pixels of an image of `w` columns and `h` rows. -/
abbrev Bitmap (w h : Nat) := Buffer UInt8 (w * h)

/-- `MicroBitImage`. -/
structure MicroBitImage where
  width : Nat
  height : Nat
  bitmap : Bitmap width height

variable {w h : Nat}

/-- `clear()`. -/
def clear (_ : Bitmap w h) : Bitmap w h := Buffer.zeros (w * h)

/-- `shiftLeft(int16_t n)`. Its `memcpy` moves a row onto itself, which C leaves open; it is taken
    as the `memmove` of `shiftRight`. -/
def shiftLeft (b : Bitmap w h) (n : Int) : Option (Answer × Bitmap w h) :=
  if n ≤ 0 then some (.invalidParameter, b)
  else if w ≤ n then some (.ok, clear b)
  else
    let n := n.toNat
    let pixels := w - n
    (loop (fun y b => do
      let row ← b.load (y * w + n) pixels
      let b ← b.store (y * w) row
      b.store (y * w + pixels) (List.replicate n 0)) h b).map (.ok, ·)

/-- `shiftRight(int16_t n)`. -/
def shiftRight (b : Bitmap w h) (n : Int) : Option (Answer × Bitmap w h) :=
  if n ≤ 0 then some (.invalidParameter, b)
  else if w ≤ n then some (.ok, clear b)
  else
    let n := n.toNat
    let pixels := w - n
    (loop (fun y b => do
      let row ← b.load (y * w) pixels
      let b ← b.store (y * w + n) row
      b.store (y * w) (List.replicate n 0)) h b).map (.ok, ·)

/-- `shiftUp(int16_t n)`. -/
def shiftUp (b : Bitmap w h) (n : Int) : Option (Answer × Bitmap w h) :=
  if n ≤ 0 then some (.invalidParameter, b)
  else if h ≤ n then some (.ok, clear b)
  else
    let n := n.toNat
    (loop (fun y b =>
      if y < h - n then do
        let row ← b.load (w * n + y * w) w
        b.store (y * w) row
      else b.store (y * w) (List.replicate w 0)) h b).map (.ok, ·)

/-- `shiftDown(int16_t n)`: the rows from the last one up. -/
def shiftDown (b : Bitmap w h) (n : Int) : Option (Answer × Bitmap w h) :=
  if n ≤ 0 then some (.invalidParameter, b)
  else if h ≤ n then some (.ok, clear b)
  else
    let n := n.toNat
    (loop (fun y b =>
      let pOut := w * (h - 1) - y * w
      if y < h - n then do
        let row ← b.load (pOut - w * n) w
        b.store pOut row
      else b.store pOut (List.replicate w 0)) h b).map (.ok, ·)

/-- `memcpy(pOut, pIn, cx)` in turn `i` of `paste`, with the count of the pixels written. -/
def copyRow (image : MicroBitImage) (pIn pOut cx i : Nat) (s : Nat × Bitmap w h) :
    Option (Nat × Bitmap w h) := do
  let row ← image.bitmap.load (pIn + i * image.width) cx
  let b ← s.2.store (pOut + i * w) row
  some (s.1 + cx, b)

/-- One byte of the transparent copy: past the zeros of the image. -/
def mergePixel (image : MicroBitImage) (pIn pOut i j : Nat) (s : Nat × Bitmap w h) :
    Option (Nat × Bitmap w h) := do
  let v ← image.bitmap.load (pIn + i * image.width + j) 1
  if v ≠ [0] then
    let b ← s.2.store (pOut + i * w + j) v
    some (s.1 + 1, b)
  else some s

/-- **`paste(image, x, y, alpha)`**: the number of pixels written, and the bitmap. -/
def paste (b : Bitmap w h) (image : MicroBitImage) (x y : Int) (alpha : Nat) :
    Option (Nat × Bitmap w h) :=
  if w ≤ x ∨ h ≤ y ∨ x + image.width ≤ 0 ∨ y + image.height ≤ 0 then some (0, b)
  else
    let cx := (if x < 0 then min (image.width + x) w else min (image.width : Int) (w - x)).toNat
    let cy := (if y < 0 then min (image.height + y) h else min (image.height : Int) (h - y)).toNat
    let pIn := ((if x < 0 then -x else 0) + (if y < 0 then -image.width * y else 0)).toNat
    let pOut := ((if 0 < x then x else 0) + (if 0 < y then w * y else 0)).toNat
    if alpha ≠ 0 then loop (fun i => loop (mergePixel image pIn pOut i) cx) cy (0, b)
    else loop (copyRow image pIn pOut cx) cy (0, b)

/-- `getBitmap()[a] = v`, where `a` may be negative. -/
def poke (b : Bitmap w h) (a : Int) (v : UInt8) : Option (Bitmap w h) :=
  if a < 0 then none else b.store a.toNat [v]

/-- **`print(c, x, y)`**: only the far edges are checked. -/
def print (font : MicroBitFont) (b : Bitmap w h) (c : UInt8) (x y : Int) :
    Option (Answer × Bitmap w h) :=
  if w ≤ x ∨ h ≤ y ∨ c.toNat < fontAsciiStart ∨ font.asciiEnd < c.toNat then
    some (.invalidParameter, b)
  else
    let offset := (c.toNat - fontAsciiStart) * 5
    (loop (fun row b => do
      let v ← font.characters[offset + row]?
      loop (fun col b =>
        if x + col < w ∧ y + row < h then poke b ((y + row) * w + (x + col)) (columnOf v col)
        else some b) fontWidth b) fontWidth b).map (.ok, ·)

/-! ## 3. The shifts -/

/-- `b'` is `b` moved by `(-dx, -dy)`, with zeros where nothing came from. -/
def Moved (b b' : Bitmap w h) (dx dy : Int) : Prop :=
  ∀ x y, pixel b' x y = if 0 ≤ x ∧ x < w ∧ 0 ≤ y ∧ y < h then pixel b (x + dx) (y + dy) else 0

/-- A shift by the whole width or height leaves nothing. -/
theorem moved_clear {b : Bitmap w h} {dx dy : Int}
    (ho : w ≤ dx ∨ dx ≤ -w ∨ h ≤ dy ∨ dy ≤ -h) : Moved b (clear b) dx dy := by
  intro x y
  unfold clear
  rw [pixel_zeros]
  split
  · rw [pixel_outside _ (by omega)]
  · rfl

/-- **A loop that moves a picture**: turn `i` fills row `ρ i` from the rows that are not drawn
    yet. -/
theorem moved_of_loop {f : Nat → Bitmap w h → Option (Bitmap w h)} {b : Bitmap w h}
    (ρ : Nat → Int) {dx dy : Int} (hρ : ∀ y : Nat, y < h → ∃ i < h, ρ i = y)
    (hf : ∀ i < h, ∀ b', (∀ x y, (∀ j < i, ρ j ≠ y) → pixel b' x y = pixel b x y) →
      ∃ b'', f i b' = some b'' ∧ ∀ x y, pixel b'' x y =
        if y = ρ i then (if 0 ≤ x ∧ x < w then pixel b (x + dx) (y + dy) else 0)
        else pixel b' x y) :
    ∃ b', (loop f h b).map (Answer.ok, ·) = some (.ok, b') ∧ Moved b b' dx dy := by
  obtain ⟨b', he, hpx⟩ := loop_all_rows ρ
    (fun x y => if 0 ≤ x ∧ x < w then pixel b (x + dx) (y + dy) else 0) hρ hf
  refine ⟨b', by rw [he, Option.map_some], fun x y => ?_⟩
  rw [hpx]
  by_cases hy : 0 ≤ y ∧ y < h
  · rw [if_pos hy]
    split
    · rename_i hx
      rw [if_pos ⟨hx.1, hx.2, hy⟩]
    · rw [if_neg (by omega)]
  · rw [if_neg hy, if_neg (by omega)]

theorem moved_shiftLeft (b : Bitmap w h) {n : Int} (hn : 0 < n) :
    ∃ b', shiftLeft b n = some (.ok, b') ∧ Moved b b' n 0 := by
  unfold shiftLeft
  rw [if_neg (by omega)]
  by_cases hw : w ≤ n
  · exact ⟨clear b, if_pos hw, moved_clear (.inl hw)⟩
  rw [if_neg hw]
  obtain ⟨k, rfl⟩ := Int.eq_ofNat_of_zero_le (show 0 ≤ n by omega)
  refine moved_of_loop (fun i => i) (fun y hy => ⟨y, hy, rfl⟩) fun y hy b' hb => ?_
  simp only [Int.toNat_natCast]
  obtain ⟨row, hload, hlen, hrow⟩ := load_row b' k (w - k) (by omega) hy
  obtain ⟨b₁, hb₁, hp₁⟩ := pixel_store b' 0 row (by omega) hy
  obtain ⟨b₂, hb₂, hp₂⟩ := pixel_store b₁ (w - k) (List.replicate k 0)
    (by rw [List.length_replicate]; omega) hy
  rw [Nat.add_zero] at hb₁
  refine ⟨b₂, by simp [hload, hb₁, hb₂], fun x z => ?_⟩
  rw [hp₂, hp₁, hlen, List.length_replicate]
  by_cases hin : z = y ∧ 0 ≤ x ∧ x < w
  · obtain ⟨rfl, hx⟩ := hin
    rw [if_pos rfl, if_pos hx]
    by_cases hx' : x < (w - k : Nat)
    · rw [if_neg (by omega), if_pos ⟨rfl, by omega, by omega⟩, hrow _ (by omega),
        hb _ _ fun j hj => by omega]
      congr 1
      omega
    · rw [if_pos ⟨rfl, by omega, by omega⟩, List.getD_replicate _ (by omega),
        pixel_outside _ (by omega)]
  · rw [if_neg (by omega), if_neg (by omega)]
    split
    · rw [if_neg (by omega), pixel_outside _ (by omega)]
    · rfl

theorem moved_shiftRight (b : Bitmap w h) {n : Int} (hn : 0 < n) :
    ∃ b', shiftRight b n = some (.ok, b') ∧ Moved b b' (-n) 0 := by
  unfold shiftRight
  rw [if_neg (by omega)]
  by_cases hw : w ≤ n
  · exact ⟨clear b, if_pos hw, moved_clear (.inr (.inl (by omega)))⟩
  rw [if_neg hw]
  obtain ⟨k, rfl⟩ := Int.eq_ofNat_of_zero_le (show 0 ≤ n by omega)
  refine moved_of_loop (fun i => i) (fun y hy => ⟨y, hy, rfl⟩) fun y hy b' hb => ?_
  simp only [Int.toNat_natCast]
  obtain ⟨row, hload, hlen, hrow⟩ := load_row b' 0 (w - k) (by omega) hy
  obtain ⟨b₁, hb₁, hp₁⟩ := pixel_store b' k row (by omega) hy
  obtain ⟨b₂, hb₂, hp₂⟩ := pixel_store b₁ 0 (List.replicate k 0)
    (by rw [List.length_replicate]; omega) hy
  rw [Nat.add_zero] at hload hb₂
  refine ⟨b₂, by simp [hload, hb₁, hb₂], fun x z => ?_⟩
  rw [hp₂, hp₁, hlen, List.length_replicate]
  by_cases hin : z = y ∧ 0 ≤ x ∧ x < w
  · obtain ⟨rfl, hx⟩ := hin
    rw [if_pos rfl, if_pos hx]
    by_cases hx' : x < k
    · rw [if_pos ⟨rfl, by omega, by omega⟩, List.getD_replicate _ (by omega),
        pixel_outside _ (by omega)]
    · rw [if_neg (by omega), if_pos ⟨rfl, by omega, by omega⟩, hrow _ (by omega),
        hb _ _ fun j hj => by omega]
      congr 1
      omega
  · rw [if_neg (by omega), if_neg (by omega)]
    split
    · rw [if_neg (by omega), pixel_outside _ (by omega)]
    · rfl

/-- A whole row stored. -/
theorem pixel_store_row (b : Bitmap w h) {y : Nat} (xs : List UInt8) (hx : xs.length = w)
    (hy : y < h) : ∃ b', b.store (y * w) xs = some b' ∧ ∀ x z, pixel b' x z =
      if z = y then (if 0 ≤ x ∧ x < w then xs.getD x.toNat 0 else 0) else pixel b x z := by
  obtain ⟨b', hb, hp⟩ := pixel_store b 0 xs (by omega) hy
  refine ⟨b', hb, fun x z => ?_⟩
  rw [hp]
  by_cases hin : z = y ∧ 0 ≤ x ∧ x < w
  · rw [if_pos ⟨hin.1, by omega, by omega⟩, if_pos hin.1, if_pos hin.2]
    congr 1
    omega
  · rw [if_neg (by omega)]
    split
    · rw [if_neg (by omega), pixel_outside _ (by omega)]
    · rfl

/-- A row copied to another one. -/
theorem pixel_copy_row (b : Bitmap w h) {y y' : Nat} (hy : y < h) (hy' : y' < h) :
    ∃ row b', b.load (y' * w) w = some row ∧ b.store (y * w) row = some b' ∧
      ∀ x z, pixel b' x z =
        if z = y then (if 0 ≤ x ∧ x < w then pixel b x y' else 0) else pixel b x z := by
  obtain ⟨row, hload, hlen, hrow⟩ := load_row b 0 w (by omega) hy'
  obtain ⟨b', hb, hp⟩ := pixel_store_row b row hlen hy
  refine ⟨row, b', hload, hb, fun x z => ?_⟩
  rw [hp]
  split
  · split
    · rename_i hx
      rw [hrow _ (by omega), Nat.zero_add, Int.toNat_of_nonneg hx.1]
    · rfl
  · rfl

theorem moved_shiftUp (b : Bitmap w h) {n : Int} (hn : 0 < n) :
    ∃ b', shiftUp b n = some (.ok, b') ∧ Moved b b' 0 n := by
  unfold shiftUp
  rw [if_neg (by omega)]
  by_cases hh : h ≤ n
  · exact ⟨clear b, if_pos hh, moved_clear (.inr (.inr (.inl hh)))⟩
  rw [if_neg hh]
  obtain ⟨k, rfl⟩ := Int.eq_ofNat_of_zero_le (show 0 ≤ n by omega)
  refine moved_of_loop (fun i => i) (fun y hy => ⟨y, hy, rfl⟩) fun y hy b' hb => ?_
  simp only [Int.toNat_natCast]
  split
  · rename_i hk
    obtain ⟨row, b'', hload, hstore, hp⟩ := pixel_copy_row b' hy (show k + y < h by omega)
    rw [show w * k + y * w = (k + y) * w by rw [Nat.add_mul, Nat.mul_comm w k]]
    refine ⟨b'', by simp [hload, hstore], fun x z => ?_⟩
    rw [hp]
    split
    · rename_i hz
      rw [hb _ _ fun j hj => by omega, Int.add_zero, hz]
      congr 2
      omega
    · rfl
  · obtain ⟨b'', hstore, hp⟩ := pixel_store_row b' (List.replicate w 0) (by simp) hy
    refine ⟨b'', hstore, fun x z => ?_⟩
    rw [hp]
    split
    · split
      · rw [List.getD_replicate _ (by omega), pixel_outside _ (by omega)]
      · rfl
    · rfl

theorem moved_shiftDown (b : Bitmap w h) {n : Int} (hn : 0 < n) :
    ∃ b', shiftDown b n = some (.ok, b') ∧ Moved b b' 0 (-n) := by
  unfold shiftDown
  rw [if_neg (by omega)]
  by_cases hh : h ≤ n
  · exact ⟨clear b, if_pos hh, moved_clear (.inr (.inr (.inr (by omega))))⟩
  rw [if_neg hh]
  obtain ⟨k, rfl⟩ := Int.eq_ofNat_of_zero_le (show 0 ≤ n by omega)
  -- from the last row up
  refine moved_of_loop (fun i => ((h - 1 - i : Nat) : Int))
    (fun y hy => ⟨h - 1 - y, by omega, by congr 1; omega⟩) fun y hy b' hb => ?_
  simp only [Int.toNat_natCast]
  rw [show w * (h - 1) - y * w = (h - 1 - y) * w by
    rw [Nat.mul_comm w, Nat.sub_mul (h - 1) y w]]
  split
  · rename_i hk
    obtain ⟨row, b'', hload, hstore, hp⟩ := pixel_copy_row b' (show h - 1 - y < h by omega)
      (show h - 1 - y - k < h by omega)
    rw [show (h - 1 - y) * w - w * k = (h - 1 - y - k) * w by
      rw [Nat.mul_comm w, Nat.sub_mul (h - 1 - y) k w]]
    refine ⟨b'', by simp [hload, hstore], fun x z => ?_⟩
    rw [hp]
    split
    · rename_i hz
      rw [hb _ _ fun j hj => by omega, Int.add_zero, hz]
      congr 2
      omega
    · rfl
  · obtain ⟨b'', hstore, hp⟩ := pixel_store_row b' (List.replicate w 0) (by simp)
      (show h - 1 - y < h by omega)
    refine ⟨b'', hstore, fun x z => ?_⟩
    rw [hp]
    split
    · split
      · rw [List.getD_replicate _ (by omega), pixel_outside _ (by omega)]
      · rfl
    · rfl

/-! ## 4. Pasting -/

/-- Whether the point is inside an image of `w` columns and `h` rows, and under `image` when that
    has its corner at `(x, y)`. -/
def Under (w h : Nat) (image : MicroBitImage) (x y px py : Int) : Prop :=
  (0 ≤ px ∧ px < w ∧ 0 ≤ px - x ∧ px - x < image.width) ∧
    0 ≤ py ∧ py < h ∧ 0 ≤ py - y ∧ py - y < image.height

instance (image : MicroBitImage) (x y px py : Int) : Decidable (Under w h image x y px py) :=
  inferInstanceAs (Decidable (_ ∧ _))

/-- The clipping of one axis: where the copy starts in the image (`s`) and in the bitmap (`d`),
    and how long it is (`c`). -/
theorem clip (iw : Nat) {w : Nat} {x : Int} (hx : x < w) (hi : 0 < x + iw) :
    ∃ s d c : Nat, (if x < 0 then -x else 0) = (s : Int) ∧ (if 0 < x then x else 0) = (d : Int) ∧
      (if x < 0 then min (iw + x) w else min (iw : Int) (w - x)).toNat = c ∧ (d : Int) = x + s ∧
      s + c ≤ iw ∧ d + c ≤ w ∧
      ∀ p : Int, (d ≤ p ∧ p < d + c) ↔ (0 ≤ p ∧ p < w ∧ 0 ≤ p - x ∧ p - x < iw) := by
  by_cases h0 : x < 0
  · refine ⟨(-x).toNat, 0, (min (iw + x) w).toNat, ?_, ?_, ?_, ?_, ?_, ?_, fun p => ?_⟩
    · rw [if_pos h0]
      omega
    · exact if_neg (by omega)
    · rw [if_pos h0]
    all_goals omega
  · refine ⟨0, x.toNat, (min (iw : Int) (w - x)).toNat, ?_, ?_, ?_, ?_, ?_, ?_, fun p => ?_⟩
    · exact if_neg h0
    · split <;> omega
    · rw [if_neg h0]
    all_goals omega

/-- The address of a corner: rows above it, and columns left of it. -/
theorem corner_eq {w sx sy : Nat} {x y : Int} (hx : x = sx) (hy : y = sy) (w' : Int)
    (hw : w' = w * y) : (x + w').toNat = sy * w + sx := by
  have hz : (x + w') = ((sy * w + sx : Nat) : Int) := by
    rw [hw, hx, hy, Int.natCast_add, Int.natCast_mul, Int.mul_comm, Int.add_comm]
  rw [hz, Int.toNat_natCast]

/-- **What pasting draws**: what of the image is in the bitmap, and with `alpha` not its zeros. -/
def Pasted (b b' : Bitmap w h) (image : MicroBitImage) (x y : Int) (alpha : Nat) : Prop :=
  ∀ px py, pixel b' px py =
    if Under w h image x y px py ∧ (alpha = 0 ∨ pixel image.bitmap (px - x) (py - y) ≠ 0) then
      pixel image.bitmap (px - x) (py - y)
    else pixel b px py

section Loops

variable (b : Bitmap w h) (image : MicroBitImage) {sx sy dx dy cx cy : Nat}
  (hsx : sx + cx ≤ image.width) (hdx : dx + cx ≤ w) (hsy : sy + cy ≤ image.height)
  (hdy : dy + cy ≤ h)
include hsx hdx hsy hdy

/-- The copy row by row. -/
theorem pixel_copyRow :
    ∃ b', loop (copyRow image (sy * image.width + sx) (dy * w + dx) cx) cy (0, b) =
        some (cy * cx, b') ∧
      ∀ px py : Int, pixel b' px py =
        if (dx ≤ px ∧ px < dx + cx) ∧ dy ≤ py ∧ py < dy + cy then
          pixel image.bitmap (px - dx + sx) (py - dy + sy)
        else pixel b px py := by
  obtain ⟨⟨n, b'⟩, he, hn, hnew, hold⟩ := loop_draws (m := cy) (s := ((0, b) : Nat × Bitmap w h))
    (f := copyRow image (sy * image.width + sx) (dy * w + dx) cx)
    Prod.snd (fun i s => s.1 = i * cx) (fun i px py => py = dy + i ∧ dx ≤ px ∧ px < dx + cx)
    (fun px py => pixel image.bitmap (px - dx + sx) (py - dy + sy)) (Nat.zero_mul _).symm
    fun i hi s hs _ => by
      unfold copyRow
      rw [show sy * image.width + sx + i * image.width = (sy + i) * image.width + sx by
        rw [Nat.add_mul]; omega,
        show dy * w + dx + i * w = (dy + i) * w + dx by rw [Nat.add_mul]; omega]
      obtain ⟨row, hload, hlen, hrow⟩ := load_row image.bitmap sx cx hsx
        (show sy + i < image.height by omega)
      obtain ⟨b', hb, hp⟩ := pixel_store s.2 dx row (by omega)
        (show dy + i < h by omega)
      refine ⟨(s.1 + cx, b'), by simp [hload, hb], ?_, fun px py hd => ?_, fun px py hd => ?_⟩
      · show s.1 + cx = (i + 1) * cx
        rw [hs, Nat.succ_mul]
      · show pixel b' px py = _
        rw [hp, if_pos (by omega), hrow _ (by omega)]
        congr 1 <;> omega
      · show pixel b' px py = _
        rw [hp, if_neg (by omega)]
  refine ⟨b', by rw [he, show n = cy * cx from hn], fun px py => ?_⟩
  split
  · rename_i hc
    exact hnew (py - dy).toNat (by omega) px py ⟨by omega, hc.1⟩
  · exact hold px py fun i hi => by omega

/-- The transparent copy of one row. -/
theorem pixel_mergePixel {i : Nat} (hi : i < cy) (s : Nat × Bitmap w h) :
    ∃ s', loop (mergePixel image (sy * image.width + sx) (dy * w + dx) i) cx s = some s' ∧
      ∀ px py : Int, pixel s'.2 px py =
        if (dx ≤ px ∧ px < dx + cx) ∧ py = dy + i ∧
          pixel image.bitmap (px - dx + sx) (py - dy + sy) ≠ 0 then
          pixel image.bitmap (px - dx + sx) (py - dy + sy)
        else pixel s.2 px py := by
  obtain ⟨s', he, -, hnew, hold⟩ := loop_draws (m := cx) (s := s)
    (f := mergePixel image (sy * image.width + sx) (dy * w + dx) i)
    Prod.snd (fun _ _ => True)
    (fun j px py => px = dx + j ∧ py = dy + i ∧
      pixel image.bitmap (px - dx + sx) (py - dy + sy) ≠ 0)
    (fun px py => pixel image.bitmap (px - dx + sx) (py - dy + sy)) trivial
    fun j hj s _ _ => by
      unfold mergePixel
      rw [show sy * image.width + sx + i * image.width + j =
          (sy + i) * image.width + (sx + j) by rw [Nat.add_mul]; omega,
        show dy * w + dx + i * w + j = (dy + i) * w + (dx + j) by rw [Nat.add_mul]; omega]
      obtain ⟨v, hload, hlen, hv⟩ := load_row image.bitmap (sx + j) 1 (by omega)
        (show sy + i < image.height by omega)
      obtain ⟨c, rfl⟩ := List.length_eq_one_iff.mp hlen
      have hc : c = pixel image.bitmap (sx + j : Nat) (sy + i : Nat) := hv 0 Nat.one_pos
      by_cases h0 : c = 0
      · refine ⟨s, by simp [hload, h0], trivial, fun px py hd => ?_, fun px py hd => rfl⟩
        refine absurd ?_ hd.2.2
        rw [← h0, hc]
        congr 1 <;> omega
      · obtain ⟨b', hb, hp⟩ := pixel_store s.2 (dx + j) [c]
          (by rw [List.length_singleton]; omega) (show dy + i < h by omega)
        refine ⟨(s.1 + 1, b'), by simp [hload, h0, hb], trivial, fun px py hd => ?_,
          fun px py hd => ?_⟩
        · show pixel b' px py = _
          rw [hp, if_pos ⟨by omega, by omega, by rw [List.length_singleton]; omega⟩]
          rw [show (px - (dx + j : Nat)).toNat = 0 by omega, List.getD_cons_zero, hc]
          congr 1 <;> omega
        · show pixel b' px py = _
          rw [hp, if_neg]
          rintro ⟨hy, hx, hx'⟩
          rw [List.length_singleton] at hx'
          refine hd ⟨by omega, by omega, fun hz => h0 ?_⟩
          rw [hc, ← hz]
          congr 1 <;> omega
  refine ⟨s', he, fun px py => ?_⟩
  split
  · rename_i hc
    exact hnew (px - dx).toNat (by omega) px py ⟨by omega, hc.2⟩
  · rename_i hc
    exact hold px py fun j hj hd => hc ⟨by omega, hd.2⟩

/-- The transparent copy. -/
theorem pixel_mergeRow :
    ∃ s', loop (fun i => loop (mergePixel image (sy * image.width + sx) (dy * w + dx) i) cx) cy
        (0, b) = some s' ∧
      ∀ px py : Int, pixel s'.2 px py =
        if ((dx ≤ px ∧ px < dx + cx) ∧ dy ≤ py ∧ py < dy + cy) ∧
          pixel image.bitmap (px - dx + sx) (py - dy + sy) ≠ 0 then
          pixel image.bitmap (px - dx + sx) (py - dy + sy)
        else pixel b px py := by
  obtain ⟨s', he, -, hnew, hold⟩ := loop_draws (m := cy) (s := ((0, b) : Nat × Bitmap w h))
    (f := fun i => loop (mergePixel image (sy * image.width + sx) (dy * w + dx) i) cx)
    Prod.snd (fun _ _ => True)
    (fun i px py => (dx ≤ px ∧ px < dx + cx) ∧ py = dy + i ∧
      pixel image.bitmap (px - dx + sx) (py - dy + sy) ≠ 0)
    (fun px py => pixel image.bitmap (px - dx + sx) (py - dy + sy)) trivial
    fun i hi s _ _ => by
      obtain ⟨s', he, hp⟩ := pixel_mergePixel image hsx hdx hsy hdy hi s
      exact ⟨s', he, trivial, fun px py hd => by rw [hp, if_pos hd],
        fun px py hd => by rw [hp, if_neg hd]⟩
  refine ⟨s', he, fun px py => ?_⟩
  split
  · rename_i hc
    exact hnew (py - dy).toNat (by omega) px py ⟨hc.1.1, by omega, hc.2⟩
  · rename_i hc
    exact hold px py fun i hi hd => hc ⟨⟨hd.1, by omega⟩, hd.2.2⟩

end Loops

/-- **Pasting, at any place**: nothing outside the two bitmaps is read or written, what of the
    image is inside is drawn, and none was drawn just when the answer is zero. -/
theorem pixel_paste (b : Bitmap w h) (image : MicroBitImage) (x y : Int) (alpha : Nat) :
    ∃ n b', paste b image x y alpha = some (n, b') ∧ Pasted b b' image x y alpha ∧
      (alpha = 0 → (n = 0 ↔ ∀ px py, ¬ Under w h image x y px py)) := by
  unfold paste
  by_cases hap : w ≤ x ∨ h ≤ y ∨ x + image.width ≤ 0 ∨ y + image.height ≤ 0
  · rw [if_pos hap]
    have hno : ∀ px py, ¬ Under w h image x y px py := by
      unfold Under
      omega
    exact ⟨0, b, rfl, fun px py => (if_neg fun hc => hno px py hc.1).symm, fun _ => by simp [hno]⟩
  obtain ⟨sx, dx, cx, hsx, hdx, hcx, hx, hsx', hdx', hux⟩ :=
    clip image.width (w := w) (x := x) (by omega) (by omega)
  obtain ⟨sy, dy, cy, hsy, hdy, hcy, hy, hsy', hdy', huy⟩ :=
    clip image.height (w := h) (x := y) (by omega) (by omega)
  have hin : ((if x < 0 then -x else 0) + (if y < 0 then -image.width * y else 0) : Int).toNat =
      sy * image.width + sx :=
    corner_eq hsx hsy _ (by rw [mul_ite, Int.mul_zero, Int.mul_neg, Int.neg_mul])
  have hout : ((if 0 < x then x else 0) + (if 0 < y then w * y else 0) : Int).toNat =
      dy * w + dx :=
    corner_eq hdx hdy _ (by rw [mul_ite, Int.mul_zero])
  -- the rectangle that is copied is what of the image is inside
  have hunder : ∀ px py : Int, ((dx ≤ px ∧ px < dx + cx) ∧ dy ≤ py ∧ py < dy + cy) ↔
      Under w h image x y px py := fun px py => and_congr (hux px) (huy py)
  have hsrc : ∀ px py : Int, pixel image.bitmap (px - dx + sx) (py - dy + sy) =
      pixel image.bitmap (px - x) (py - y) := by
    intro px py
    congr 1 <;> omega
  simp only [if_neg hap, hin, hout, hcx, hcy]
  by_cases ha : alpha = 0
  · obtain ⟨b', he, hp⟩ := pixel_copyRow b image hsx' hdx' hsy' hdy'
    refine ⟨_, b', by rw [if_neg (by omega), he], fun px py => ?_, fun _ => ?_⟩
    · rw [hp, hsrc]
      exact if_congr ((hunder px py).trans (by simp [ha])) rfl rfl
    · rw [Nat.mul_eq_zero]
      constructor
      · intro hz px py hu
        have := (hunder px py).mpr hu
        omega
      · intro hno
        by_contra hne
        exact hno dx dy ((hunder dx dy).mp (by omega))
  · obtain ⟨⟨n, b'⟩, he, hp⟩ := pixel_mergeRow b image hsx' hdx' hsy' hdy'
    refine ⟨n, b', by rw [if_pos ha, he], fun px py => ?_, fun hc => absurd hc ha⟩
    rw [hp, hsrc]
    exact if_congr (by rw [hunder, or_iff_right ha]) rfl rfl

/-! ## 5. Printing -/

/-- **What printing draws**: the character's picture, as far as it is in the bitmap. -/
def Printed (font : MicroBitFont) (b b' : Bitmap w h) (c : UInt8) (x y : Int) : Prop :=
  ∀ px py, pixel b' px py =
    if font.has c ∧ (px < w ∧ py < h) ∧ (x ≤ px ∧ px < x + 5) ∧ y ≤ py ∧ py < y + 5 then
      font.glyph c (px - x).toNat (py - y).toNat
    else pixel b px py

/-- One row of a character. -/
theorem pixel_printRow (b : Bitmap w h) (v : UInt8) {x y : Nat} :
    ∃ b', loop (fun col b =>
        if (x : Int) + col < w ∧ (y : Int) < h then
          poke b ((y : Int) * w + (x + col)) (columnOf v col) else some b) fontWidth b = some b' ∧
      ∀ px py : Int, pixel b' px py =
        if (px < w ∧ py < h) ∧ (x ≤ px ∧ px < x + 5) ∧ py = y then columnOf v (px - x).toNat
        else pixel b px py := by
  obtain ⟨b', he, -, hnew, hold⟩ := loop_draws (m := fontWidth) (s := b)
    (f := fun col b => if (x : Int) + col < w ∧ (y : Int) < h then
      poke b ((y : Int) * w + (x + col)) (columnOf v col) else some b)
    (fun b => b) (fun _ _ => True) (fun col px py => (px < w ∧ py < h) ∧ px = x + col ∧ py = y)
    (fun px py => columnOf v (px - x).toNat) trivial
    fun col hcol b _ _ => by
      split
      · rename_i hin
        have hy : y < h := by omega
        obtain ⟨b', hb, hp⟩ := pixel_store b (x + col) [columnOf v col]
          (by rw [List.length_singleton]; omega) hy
        have hpoke : poke b ((y : Int) * w + (x + col)) (columnOf v col) = some b' := by
          have hz : (y : Int) * w + (x + col) = ((y * w + (x + col) : Nat) : Int) := by
            simp only [Int.natCast_add, Int.natCast_mul]
          unfold poke
          rw [hz, if_neg (by omega), Int.toNat_natCast, hb]
        refine ⟨b', hpoke, trivial, fun px py hd => ?_, fun px py hd => ?_⟩
        · rw [hp, if_pos ⟨hd.2.2, by omega, by rw [List.length_singleton]; omega⟩,
            show (px - (x + col : Nat)).toNat = 0 by omega, List.getD_cons_zero]
          congr 1
          omega
        · rw [hp, if_neg]
          rw [List.length_singleton]
          rintro ⟨hrow, hx⟩
          exact hd ⟨by omega, by omega, hrow⟩
      · exact ⟨b, rfl, trivial, fun px py hd => absurd hd (by omega), fun px py _ => rfl⟩
  refine ⟨b', he, fun px py => ?_⟩
  split
  · rename_i hc
    have : (px - x).toNat < fontWidth := by
      unfold fontWidth
      omega
    exact hnew (px - x).toNat this px py ⟨hc.1, by omega, hc.2.2⟩
  · rename_i hc
    refine hold px py fun i hi hd => hc ⟨hd.1, ?_, hd.2.2⟩
    unfold fontWidth at hi
    omega

/-- The bytes of a character are in the table. -/
theorem MicroBitFont.offset_lt (font : MicroBitFont) {c : UInt8} (hc : font.has c) {row : Nat}
    (hr : row < fontWidth) :
    (c.toNat - fontAsciiStart) * 5 + row < font.characters.length := by
  have := font.covers
  unfold MicroBitFont.has fontAsciiStart at hc
  unfold fontAsciiStart at this ⊢
  unfold fontWidth at hr
  omega

/-- **Printing, right of the left edge and below the upper one**: nothing outside the bitmap or
    the font is touched, and what of the character is inside is drawn. -/
theorem pixel_print (font : MicroBitFont) (b : Bitmap w h) (c : UInt8) (x y : Nat) :
    ∃ r b', print font b c x y = some (r, b') ∧ Printed font b b' c x y := by
  unfold print
  by_cases hap : (w : Int) ≤ x ∨ (h : Int) ≤ y ∨ c.toNat < fontAsciiStart ∨ font.asciiEnd < c.toNat
  · refine ⟨_, b, if_pos hap, fun px py => (if_neg ?_).symm⟩
    rintro ⟨hc, hin, hx, hy⟩
    unfold MicroBitFont.has at hc
    omega
  rw [if_neg hap]
  have hc : font.has c := by
    unfold MicroBitFont.has
    omega
  obtain ⟨b', he, -, hnew, hold⟩ := loop_draws (m := fontWidth) (s := b)
    (f := fun row b => do
      let v ← font.characters[(c.toNat - fontAsciiStart) * 5 + row]?
      loop (fun col b => if (x : Int) + col < w ∧ (y : Int) + row < h then
        poke b (((y : Int) + row) * w + (x + col)) (columnOf v col) else some b) fontWidth b)
    (fun b => b) (fun _ _ => True)
    (fun row px py => (px < w ∧ py < h) ∧ (x ≤ px ∧ px < x + 5) ∧ py = y + row)
    (fun px py => font.glyph c (px - x).toNat (py - y).toNat) trivial
    fun row hrow b _ _ => by
      obtain ⟨b', he, hp⟩ := pixel_printRow b
        (font.characters.getD ((c.toNat - fontAsciiStart) * 5 + row) 0) (x := x) (y := y + row)
      rw [Int.natCast_add] at he hp
      refine ⟨b', ?_, trivial, fun px py hd => ?_, fun px py hd => by rw [hp, if_neg hd]⟩
      · have hlt := font.offset_lt hc hrow
        simp only [List.getElem?_eq_getElem hlt, ← List.getD_eq_getElem _ 0 hlt]
        exact he
      · rw [hp, if_pos hd, MicroBitFont.glyph, show (py - y).toNat = row by omega]
  refine ⟨.ok, b', by simp only [he, Option.map_some], fun px py => ?_⟩
  split
  · rename_i hd
    have : (py - y).toNat < fontWidth := by
      unfold fontWidth
      omega
    exact hnew (py - y).toNat this px py ⟨hd.2.1, hd.2.2.1, by omega⟩
  · rename_i hd
    refine hold px py fun i hi hd' => hd ⟨hc, hd'.1, hd'.2.1, ?_⟩
    unfold fontWidth at hi
    omega

end MicrobitAlarm.Display
