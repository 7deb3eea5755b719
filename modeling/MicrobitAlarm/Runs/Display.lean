/-
  File:      MicrobitAlarm/Runs/Display.lean
  Subject:   HOW LONG AN ANIMATION LASTS: the updates and ticks that are left as functions of the
             display's state, and that each tick takes one off.

  * `WellSet` -- the invariant: counters and places within the bounds of their animation;
  * `updatesLeft`, `ticksLeft` -- what is still to come, read off the state;
  * `update_spec`, `tick_spec` -- **an update, or a tick, takes exactly one off, and the one that
    finds one left ends the animation**;
  * `exec_going` -- so over any ticks and calls in a row;
  * `Call.ticks`, `perform_begun` -- what is left when a call has begun its animation.
-/
import Mathlib.Algebra.Order.Floor.Div
import MicrobitAlarm.Firmware.Display

namespace MicrobitAlarm.Display

open Raster Trace

/-! ## 1. The operations do not fail -/

theorem shiftLeft_some {w h : Nat} (b : Bitmap w h) (n : Int) :
    ∃ r, shiftLeft b n = some r ∧ (0 < n → Moved b r.2 n 0) := by
  by_cases hn : 0 < n
  · obtain ⟨b', he, hm⟩ := moved_shiftLeft b hn
    exact ⟨_, he, fun _ => hm⟩
  · exact ⟨_, if_pos (by omega), fun hc => absurd hc hn⟩

theorem print_some {w h : Nat} (font : MicroBitFont) (b : Bitmap w h) (c : UInt8) (x : Nat) :
    ∃ r, print font b c x 0 = some r ∧ Printed font b r.2 c x 0 := by
  obtain ⟨r, b', he, hp⟩ := pixel_print font b c x 0
  exact ⟨(r, b'), he, hp⟩

theorem paste_some {w h : Nat} (b : Bitmap w h) (i : MicroBitImage) (x y : Int) (alpha : Nat) :
    ∃ r, paste b i x y alpha = some r ∧ Pasted b r.2 i x y alpha ∧
      (alpha = 0 → (r.1 = 0 ↔ ∀ px py, ¬ Under w h i x y px py)) := by
  obtain ⟨n, b', he, hp, hn⟩ := pixel_paste b i x y alpha
  exact ⟨(n, b'), he, hp, hn⟩

/-! ## 2. What is left -/

/-- The bounds of the counters and places, and the order of tick and delay. -/
structure WellSet (d : MicroBitDisplay) : Prop where
  mode : d.animationMode ≠ .stopped
  delay : d.animationDelay < 65536
  tick : d.animationTick < d.animationDelay ∨ d.animationDelay = 0
  tickBound : d.animationTick < 65536
  position : d.scrollingPosition ≤ displayWidth
  char : d.scrollingChar ≤ d.scrollingText.length + 1
  printing : d.printingChar ≤ d.printingText.length + 1
  place : -32768 ≤ d.scrollingImagePosition ∧ d.scrollingImagePosition < 32768
  stride : -128 ≤ d.scrollingImageStride ∧ d.scrollingImageStride < 128

/-- Whether an image with its left edge at `p` reaches into the display's image. -/
def Reaches (i : MicroBitImage) (p : Int) : Prop :=
  0 < i.width ∧ 0 < i.height ∧ -i.width < p ∧ p < (displayWidth * 2 : Nat)

instance (i : MicroBitImage) (p : Int) : Decidable (Reaches i p) :=
  inferInstanceAs (Decidable (_ ∧ _))

/-- The updates from the place `p` on until nothing of a scrolled image is left. -/
def slidesLeft (i : MicroBitImage) (stride p : Int) : Nat :=
  if Reaches i p then
    1 + if stride < 0 then (p + i.width).toNat ⌈/⌉ (-stride).toNat
      else ((displayWidth * 2 : Nat) - p).toNat ⌈/⌉ stride.toNat
  else 1

/-- The place from which on `updateAnimateImage` has shown the last frame. -/
def lastFrame (i : MicroBitImage) (stride : Int) : Int := -i.width + (displayWidth + stride)

/-- The updates from the place `p` on until the last frame of an animated image has been shown.
    A stride to the right gets there when the place passes the end of `int16_t`. -/
def framesLeft (i : MicroBitImage) (stride p : Int) : Nat :=
  if lastFrame i stride < p then
    1 + if stride < 0 then (p - lastFrame i stride).toNat ⌈/⌉ (-stride).toNat
      else (32768 - p).toNat ⌈/⌉ stride.toNat
  else 1

/-- The updates of an image that moves by `stride`, counted by `f` once it has been shown. -/
def movesLeft (f : MicroBitImage → Int → Int → Nat) (d : MicroBitDisplay) : Nat :=
  if d.scrollingImageStride = 0 then 1
  else if d.scrollingImageRendered then
    f d.scrollingImage d.scrollingImageStride d.scrollingImagePosition
  else 1 + f d.scrollingImage d.scrollingImageStride
    (int16 (d.scrollingImagePosition + d.scrollingImageStride))

/-- **The updates that are left**, with the one that ends the animation. -/
def updatesLeft (d : MicroBitDisplay) : Nat :=
  match d.animationMode with
  | .none => 0
  | .stopped => 0
  | .scrollText => (d.scrollingText.length + 1 - d.scrollingChar) *
      (displayWidth + displaySpacing) + (displayWidth + displaySpacing - d.scrollingPosition)
  | .printText => d.printingText.length + 2 - d.printingChar
  | .scrollImage => movesLeft slidesLeft d
  | .animateImage => movesLeft framesLeft d
  | .animateImageWithClear => movesLeft framesLeft d
  | .printCharacter => 1

/-- The ticks until `delay` milliseconds have passed: one at least. -/
def ticksFor (period delay : Nat) : Nat := max 1 (delay ⌈/⌉ period)

/-- The ticks from one update to the next. -/
def ticksPerUpdate (period : Nat) (d : MicroBitDisplay) : Nat := ticksFor period d.animationDelay

/-- The ticks until the next update, with the one that does it. -/
def ticksToUpdate (period : Nat) (d : MicroBitDisplay) : Nat :=
  ticksFor period (d.animationDelay - d.animationTick)

/-- **The ticks that are left**, with the one that ends the animation. -/
def ticksLeft (period : Nat) (d : MicroBitDisplay) : Nat :=
  if updatesLeft d = 0 then 0
  else ticksToUpdate period d + (updatesLeft d - 1) * ticksPerUpdate period d

/-- No image is so wide that its place passes the end of `int16_t` on the way out: from its left
    end there are two strides left, which are of `int8_t`. (An image in the RAM is far narrower.) -/
def Fits (d : MicroBitDisplay) : Prop :=
  match d.animationMode with
  | .scrollImage => d.scrollingImage.width ≤ 32512
  | .animateImage => d.scrollingImage.width ≤ 32512
  | .animateImageWithClear => d.scrollingImage.width ≤ 32512
  | _ => True

/-! ## 3. An update -/

/-- What no update changes. -/
structure SameShow (d d' : MicroBitDisplay) : Prop where
  font : d'.font = d.font
  delay : d'.animationDelay = d.animationDelay
  tick : d'.animationTick = d.animationTick
  text : d'.scrollingText = d.scrollingText
  printed : d'.printingText = d.printingText
  shown : d'.scrollingImage = d.scrollingImage
  stride : d'.scrollingImageStride = d.scrollingImageStride

/-- **One update**: the animation goes on with one less, or it had one left and ends with its two
    events. -/
def OneOff (d d' : MicroBitDisplay) (ev : List Event) : Prop :=
  (d'.animationMode = .none ∧ ev = [.complete, .free false] ∧ updatesLeft d = 1) ∨
    (d'.animationMode = d.animationMode ∧ ev = [] ∧
      (Fits d → updatesLeft d = updatesLeft d' + 1))

theorem ceilDiv_of_le {a k : Nat} (h0 : 0 < a) (h : a ≤ k) : a ⌈/⌉ k = 1 := by
  rw [Nat.ceilDiv_eq_add_pred_div, show a + k - 1 = (a - 1) + k by omega,
    Nat.add_div_right _ (by omega), Nat.div_eq_of_lt (by omega)]

theorem ceilDiv_of_lt {a k : Nat} (hk : 0 < k) (h : k < a) : a ⌈/⌉ k = (a - k) ⌈/⌉ k + 1 := by
  rw [Nat.ceilDiv_eq_add_pred_div, Nat.ceilDiv_eq_add_pred_div,
    show a + k - 1 = (a - k + k - 1) + k by omega, Nat.add_div_right _ hk]

theorem ceilDiv_pos {a k : Nat} (h0 : 0 < a) (hk : 0 < k) : 0 < a ⌈/⌉ k := by
  rw [Nat.ceilDiv_eq_add_pred_div]
  exact Nat.div_pos (by omega) hk

/-- **What `updateScrollText` does**: a column to the left, and every sixth time a character. -/
theorem updateScrollText_cases {d : MicroBitDisplay} (hw : WellSet d) :
    ∃ b, Moved d.image b 1 0 ∧
      ((d.scrollingPosition < displayWidth ∧ d.updateScrollText =
          some ({ d with image := b, scrollingPosition := d.scrollingPosition + 1 }, [])) ∨
        d.scrollingPosition = displayWidth ∧ ∃ b',
          Printed d.font b b' (charOf d.scrollingText d.scrollingChar) displayWidth 0 ∧
          ((d.scrollingText.length < d.scrollingChar ∧ d.updateScrollText =
              some ({ d with image := b', scrollingPosition := 0, animationMode := .none },
                [.complete, .free false])) ∨
            (d.scrollingChar ≤ d.scrollingText.length ∧ d.updateScrollText =
              some ({ d with image := b', scrollingPosition := 0,
                             scrollingChar := d.scrollingChar + 1 }, [])))) := by
  obtain ⟨r, he, hm⟩ := shiftLeft_some d.image 1
  obtain ⟨r', he', hp⟩ := print_some d.font r.2 (charOf d.scrollingText d.scrollingChar)
    displayWidth
  have hpos := hw.position
  have hchar := hw.char
  have hlen := d.scrollingText.length_lt
  refine ⟨r.2, hm Int.one_pos, ?_⟩
  rcases Nat.lt_or_eq_of_le hpos with hlt | heq
  · refine .inl ⟨hlt, ?_⟩
    unfold displayWidth at hlt
    have hne : (d.scrollingPosition + 1) % 256 ≠ displayWidth + displaySpacing := by
      unfold displayWidth displaySpacing
      omega
    simp only [MicroBitDisplay.updateScrollText, he, Option.bind_eq_bind, Option.bind_some,
      if_neg hne]
    rw [Nat.mod_eq_of_lt (by omega)]
  · refine .inr ⟨heq, r'.2, hp, ?_⟩
    have hsix : (d.scrollingPosition + 1) % 256 = displayWidth + displaySpacing := by
      rw [heq]
      rfl
    rcases Nat.lt_or_ge d.scrollingText.length d.scrollingChar with hlt | hge
    · refine .inl ⟨hlt, ?_⟩
      simp only [MicroBitDisplay.updateScrollText, he, Option.bind_eq_bind, Option.bind_some,
        if_pos hsix, he', if_pos hlt, MicroBitDisplay.finish]
    · refine .inr ⟨hge, ?_⟩
      simp only [MicroBitDisplay.updateScrollText, he, Option.bind_eq_bind, Option.bind_some,
        if_pos hsix, he', if_neg (Nat.not_lt.mpr hge)]
      rw [Nat.mod_eq_of_lt (by omega)]

theorem updatePrintText_cases {d : MicroBitDisplay} (hw : WellSet d) :
    ∃ b, Printed d.font d.image b (charOf d.printingText d.printingChar) 0 0 ∧
      ((d.printingText.length < d.printingChar ∧ d.updatePrintText =
          some ({ d with image := b, animationMode := .none }, [.complete, .free false])) ∨
        (d.printingChar ≤ d.printingText.length ∧ d.updatePrintText =
          some ({ d with image := b, printingChar := d.printingChar + 1 }, []))) := by
  obtain ⟨r, he, hp⟩ := print_some d.font d.image (charOf d.printingText d.printingChar) 0
  rw [Int.natCast_zero] at he hp
  have hchar := hw.printing
  have hlen := d.printingText.length_lt
  refine ⟨r.2, hp, ?_⟩
  rcases Nat.lt_or_ge d.printingText.length d.printingChar with hlt | hge
  · refine .inl ⟨hlt, ?_⟩
    simp only [MicroBitDisplay.updatePrintText, he, Option.bind_eq_bind, Option.bind_some,
      if_pos hlt, MicroBitDisplay.finish]
  · refine .inr ⟨hge, ?_⟩
    simp only [MicroBitDisplay.updatePrintText, he, Option.bind_eq_bind, Option.bind_some,
      if_neg (Nat.not_lt.mpr hge)]
    rw [Nat.mod_eq_of_lt (by omega)]

/-- Whether an image with its left edge at `p` draws anything. -/
theorem under_iff_reaches {i : MicroBitImage} {p : Int} :
    (∀ px py, ¬ Under (displayWidth * 2) displayHeight i p 0 px py) ↔ ¬ Reaches i p := by
  unfold Reaches Under displayWidth displayHeight
  constructor
  · rintro hno ⟨hw, hh, hl, hr⟩
    refine hno (max p 0) 0 ?_
    omega
  · rintro hno px py hu
    omega

theorem updateScrollImage_cases (d : MicroBitDisplay) :
    ∃ b, Pasted (clear d.image) b d.scrollingImage d.scrollingImagePosition 0 0 ∧
      (((¬ Reaches d.scrollingImage d.scrollingImagePosition ∧ d.scrollingImageRendered = true ∨
          d.scrollingImageStride = 0) ∧ d.updateScrollImage =
          some ({ d with image := b, animationMode := .none }, [.complete, .free false])) ∨
        (Reaches d.scrollingImage d.scrollingImagePosition ∨ d.scrollingImageRendered = false) ∧
          d.scrollingImageStride ≠ 0 ∧ d.updateScrollImage = some ({ d with
            image := b, scrollingImageRendered := true,
            scrollingImagePosition :=
              int16 (d.scrollingImagePosition + d.scrollingImageStride) }, [])) := by
  obtain ⟨r, he, hp, hn⟩ := paste_some (clear d.image) d.scrollingImage d.scrollingImagePosition 0 0
  have hzero := (hn rfl).trans under_iff_reaches
  refine ⟨r.2, hp, ?_⟩
  by_cases hend : (r.1 = 0 ∧ d.scrollingImageRendered = true) ∨ d.scrollingImageStride = 0
  · refine .inl ⟨by rwa [← hzero], ?_⟩
    simp only [MicroBitDisplay.updateScrollImage, he, Option.bind_eq_bind, Option.bind_some,
      if_pos hend, MicroBitDisplay.finish]
  · refine .inr ⟨?_, fun hs => hend (.inr hs), ?_⟩
    · by_contra hno
      rw [not_or, Bool.not_eq_false] at hno
      exact hend (.inl ⟨hzero.mpr hno.1, hno.2⟩)
    · simp only [MicroBitDisplay.updateScrollImage, he, Option.bind_eq_bind, Option.bind_some,
        if_neg hend]

theorem updateAnimateImage_cases (d : MicroBitDisplay) :
    ∃ b₀ b, Pasted b₀ b d.scrollingImage d.scrollingImagePosition 0 0 ∧
      ((d.scrollingImagePosition ≤ lastFrame d.scrollingImage d.scrollingImageStride ∧
        d.scrollingImageRendered = true ∧ d.updateAnimateImage =
          some ({ d with
            image := if d.animationMode = .animateImageWithClear then clear d.image else d.image,
            animationMode := .none }, [.complete, .free false])) ∨
      (lastFrame d.scrollingImage d.scrollingImageStride < d.scrollingImagePosition ∨
          d.scrollingImageRendered = false) ∧
        ((d.scrollingImageStride = 0 ∧ d.updateAnimateImage = some ({ d with
            image := b, scrollingImageRendered := true, animationMode := .none,
            scrollingImagePosition := int16 (d.scrollingImagePosition + d.scrollingImageStride) },
            [.complete, .free false])) ∨
          (d.scrollingImageStride ≠ 0 ∧ d.updateAnimateImage = some ({ d with
            image := b, scrollingImageRendered := true,
            scrollingImagePosition :=
              int16 (d.scrollingImagePosition + d.scrollingImageStride) }, [])))) := by
  obtain ⟨r, he⟩ : ∃ r, (if 0 < d.scrollingImagePosition then
      shiftLeft d.image (-d.scrollingImageStride) else some (.ok, d.image)) = some r := by
    split
    · obtain ⟨r, he, -⟩ := shiftLeft_some d.image (-d.scrollingImageStride)
      exact ⟨r, he⟩
    · exact ⟨_, rfl⟩
  obtain ⟨r', he', hp, -⟩ := paste_some r.2 d.scrollingImage d.scrollingImagePosition 0 0
  refine ⟨r.2, r'.2, hp, ?_⟩
  by_cases hend : d.scrollingImagePosition ≤ lastFrame d.scrollingImage d.scrollingImageStride ∧
      d.scrollingImageRendered = true
  · refine .inl ⟨hend.1, hend.2, ?_⟩
    unfold MicroBitDisplay.updateAnimateImage
    exact if_pos hend
  · refine .inr ⟨?_, ?_⟩
    · by_contra hno
      rw [not_or, Bool.not_eq_false] at hno
      exact hend ⟨Int.not_lt.mp hno.1, hno.2⟩
    · have hgo : ¬ (d.scrollingImagePosition ≤ -d.scrollingImage.width +
          (displayWidth + d.scrollingImageStride) ∧ d.scrollingImageRendered = true) := hend
      unfold MicroBitDisplay.updateAnimateImage
      rw [if_neg hgo]
      by_cases hs : d.scrollingImageStride = 0
      · refine .inl ⟨hs, ?_⟩
        simp only [he, he', Option.bind_eq_bind, Option.bind_some, if_pos hs]
        rfl
      · refine .inr ⟨hs, ?_⟩
        simp only [he, he', Option.bind_eq_bind, Option.bind_some, if_neg hs]

theorem int16_of_mem {i : Int} (h1 : -32768 ≤ i) (h2 : i < 32768) : int16 i = i := by
  unfold int16
  omega

theorem int16_mem (i : Int) : -32768 ≤ int16 i ∧ int16 i < 32768 := by
  unfold int16
  omega

/-- **A place on**: one of the updates that a scrolled image has left. -/
theorem slidesLeft_step {i : MicroBitImage} {stride p : Int} (hi : i.width ≤ 32512)
    (hs : -128 ≤ stride ∧ stride < 128) (h0 : stride ≠ 0) (hr : Reaches i p) :
    slidesLeft i stride p = slidesLeft i stride (int16 (p + stride)) + 1 := by
  obtain ⟨hw, hh, hl, hd⟩ := id hr
  unfold displayWidth at hd
  rw [int16_of_mem (by omega) (by omega)]
  unfold slidesLeft
  rw [if_pos hr]
  have hdec : Reaches i (p + stride) ↔ -i.width < p + stride ∧ p + stride < 10 := by
    unfold Reaches displayWidth
    omega
  by_cases hneg : stride < 0
  · simp only [if_pos hneg]
    rcases Nat.lt_or_ge (-stride).toNat (p + i.width).toNat with hlt | hge
    · rw [ceilDiv_of_lt (by omega) hlt, if_pos (hdec.mpr (by omega)),
        show (p + i.width).toNat - (-stride).toNat = (p + stride + i.width).toNat by omega]
      omega
    · rw [ceilDiv_of_le (by omega) hge, if_neg fun hc => by have := hdec.mp hc; omega]
  · simp only [if_neg hneg, displayWidth]
    rcases Nat.lt_or_ge stride.toNat (((5 * 2 : Nat) : Int) - p).toNat with hlt | hge
    · rw [ceilDiv_of_lt (by omega) hlt, if_pos (hdec.mpr (by omega)),
        show (((5 * 2 : Nat) : Int) - p).toNat - stride.toNat =
          (((5 * 2 : Nat) : Int) - (p + stride)).toNat by omega]
      omega
    · rw [ceilDiv_of_le (by omega) hge, if_neg fun hc => by have := hdec.mp hc; omega]

/-- A place on: one of the updates that an animated image has left. -/
theorem framesLeft_step {i : MicroBitImage} {stride p : Int} (hi : i.width ≤ 32512)
    (hs : -128 ≤ stride ∧ stride < 128) (h0 : stride ≠ 0) (hp : -32768 ≤ p ∧ p < 32768)
    (hr : lastFrame i stride < p) :
    framesLeft i stride p = framesLeft i stride (int16 (p + stride)) + 1 := by
  have hlow : -32512 + 5 + stride ≤ lastFrame i stride := by
    unfold lastFrame displayWidth
    omega
  have hhigh : lastFrame i stride ≤ 5 + stride := by
    unfold lastFrame displayWidth
    omega
  unfold framesLeft
  rw [if_pos hr]
  by_cases hneg : stride < 0
  · rw [int16_of_mem (by omega) (by omega)]
    simp only [if_pos hneg]
    rcases Nat.lt_or_ge (-stride).toNat (p - lastFrame i stride).toNat with hlt | hge
    · rw [ceilDiv_of_lt (by omega) hlt, if_pos (by omega),
        show (p - lastFrame i stride).toNat - (-stride).toNat =
          (p + stride - lastFrame i stride).toNat by omega]
      omega
    · rw [ceilDiv_of_le (by omega) hge, if_neg (by omega)]
  · simp only [if_neg hneg]
    rcases Nat.lt_or_ge stride.toNat (32768 - p).toNat with hlt | hge
    · rw [int16_of_mem (by omega) (by omega), ceilDiv_of_lt (by omega) hlt, if_pos (by omega),
        show (32768 - p).toNat - stride.toNat = (32768 - (p + stride)).toNat by omega]
      omega
    · have hwrap : int16 (p + stride) = p + stride - 65536 := by
        unfold int16
        omega
      rw [ceilDiv_of_le (by omega) hge, hwrap, if_neg (by omega)]

theorem slidesLeft_pos (i : MicroBitImage) (stride p : Int) : 0 < slidesLeft i stride p := by
  unfold slidesLeft
  split <;> omega

theorem framesLeft_pos (i : MicroBitImage) (stride p : Int) : 0 < framesLeft i stride p := by
  unfold framesLeft
  split <;> omega

/-- **An update of a scrolled text.** -/
theorem scrollText_spec {d : MicroBitDisplay} (hw : WellSet d)
    (hm : d.animationMode = .scrollText) :
    ∃ d' ev, d.update = some (d', ev) ∧ WellSet d' ∧ SameShow d d' ∧ OneOff d d' ev := by
  have hup : d.update = d.updateScrollText := by simp only [MicroBitDisplay.update, hm]
  obtain ⟨b, -, ⟨hpos, he⟩ | ⟨hpos, b', -, ⟨hlt, he⟩ | ⟨hge, he⟩⟩⟩ := updateScrollText_cases hw
  · refine ⟨_, _, hup.trans he, { hw with position := hpos }, ⟨rfl, rfl, rfl, rfl, rfl, rfl, rfl⟩,
      .inr ⟨rfl, rfl, fun _ => ?_⟩⟩
    simp only [updatesLeft, hm]
    unfold displayWidth displaySpacing at *
    omega
  · refine ⟨_, _, hup.trans he, { hw with position := Nat.zero_le _, mode := by simp },
      ⟨rfl, rfl, rfl, rfl, rfl, rfl, rfl⟩, .inl ⟨rfl, rfl, ?_⟩⟩
    have := hw.char
    simp only [updatesLeft, hm]
    unfold displayWidth displaySpacing at *
    omega
  · refine ⟨_, _, hup.trans he, { hw with position := Nat.zero_le _, char := Nat.succ_le_succ hge },
      ⟨rfl, rfl, rfl, rfl, rfl, rfl, rfl⟩, .inr ⟨rfl, rfl, fun _ => ?_⟩⟩
    simp only [updatesLeft, hm]
    unfold displayWidth displaySpacing at *
    omega

theorem printText_spec {d : MicroBitDisplay} (hw : WellSet d)
    (hm : d.animationMode = .printText) :
    ∃ d' ev, d.update = some (d', ev) ∧ WellSet d' ∧ SameShow d d' ∧ OneOff d d' ev := by
  have hup : d.update = d.updatePrintText := by simp only [MicroBitDisplay.update, hm]
  obtain ⟨b, -, ⟨hlt, he⟩ | ⟨hge, he⟩⟩ := updatePrintText_cases hw
  · refine ⟨_, _, hup.trans he, { hw with mode := by simp },
      ⟨rfl, rfl, rfl, rfl, rfl, rfl, rfl⟩, .inl ⟨rfl, rfl, ?_⟩⟩
    have := hw.printing
    simp only [updatesLeft, hm]
    omega
  · refine ⟨_, _, hup.trans he, { hw with printing := Nat.succ_le_succ hge },
      ⟨rfl, rfl, rfl, rfl, rfl, rfl, rfl⟩, .inr ⟨rfl, rfl, fun _ => ?_⟩⟩
    simp only [updatesLeft, hm]
    omega

/-- An update of a scrolled image. -/
theorem scrollImage_spec {d : MicroBitDisplay} (hw : WellSet d)
    (hm : d.animationMode = .scrollImage) :
    ∃ d' ev, d.update = some (d', ev) ∧ WellSet d' ∧ SameShow d d' ∧ OneOff d d' ev := by
  have hup : d.update = d.updateScrollImage := by simp only [MicroBitDisplay.update, hm]
  obtain ⟨b, -, ⟨hend, he⟩ | ⟨hgo, hs, he⟩⟩ := updateScrollImage_cases d
  · refine ⟨_, _, hup.trans he, { hw with mode := by simp },
      ⟨rfl, rfl, rfl, rfl, rfl, rfl, rfl⟩, .inl ⟨rfl, rfl, ?_⟩⟩
    rcases hend with ⟨hno, hr⟩ | hs <;> simp only [updatesLeft, hm, movesLeft]
    · split
      · rfl
      · rw [slidesLeft, if_neg hno]
    · rw [if_pos hs]
  · refine ⟨_, _, hup.trans he, { hw with place := int16_mem _ },
      ⟨rfl, rfl, rfl, rfl, rfl, rfl, rfl⟩, .inr ⟨rfl, rfl, fun hf => ?_⟩⟩
    have hi : d.scrollingImage.width ≤ 32512 := by simpa only [Fits, hm] using hf
    simp only [updatesLeft, hm, movesLeft, if_neg hs, if_true]
    split
    · rename_i hr
      exact slidesLeft_step hi hw.stride hs (hgo.resolve_right (by simp [hr]))
    · exact Nat.add_comm _ _

theorem updatesLeft_animated {d : MicroBitDisplay}
    (hm : d.animationMode = .animateImage ∨ d.animationMode = .animateImageWithClear) :
    updatesLeft d = movesLeft framesLeft d := by
  rcases hm with hm | hm <;> simp only [updatesLeft, hm]

/-- An update of an animated image. -/
theorem animateImage_spec {d : MicroBitDisplay} (hw : WellSet d)
    (hm : d.animationMode = .animateImage ∨ d.animationMode = .animateImageWithClear) :
    ∃ d' ev, d.update = some (d', ev) ∧ WellSet d' ∧ SameShow d d' ∧ OneOff d d' ev := by
  have hup : d.update = d.updateAnimateImage := by
    rcases hm with hm | hm <;> simp only [MicroBitDisplay.update, hm]
  have hleft : ∀ d' : MicroBitDisplay, d'.animationMode = d.animationMode →
      updatesLeft d' = movesLeft framesLeft d' :=
    fun d' hd' => updatesLeft_animated (hd' ▸ hm)
  obtain ⟨b₀, b, -, ⟨hp, hr, he⟩ | ⟨hgo, ⟨hs, he⟩ | ⟨hs, he⟩⟩⟩ := updateAnimateImage_cases d
  · refine ⟨_, _, hup.trans he, { hw with mode := by simp },
      ⟨rfl, rfl, rfl, rfl, rfl, rfl, rfl⟩, .inl ⟨rfl, rfl, ?_⟩⟩
    rw [hleft d rfl, movesLeft]
    split
    · rfl
    · rw [framesLeft, if_neg (Int.not_lt.mpr hp)]
  · refine ⟨_, _, hup.trans he, { hw with mode := by simp, place := int16_mem _ },
      ⟨rfl, rfl, rfl, rfl, rfl, rfl, rfl⟩, .inl ⟨rfl, rfl, ?_⟩⟩
    rw [hleft d rfl, movesLeft, if_pos hs]
  · refine ⟨_, _, hup.trans he, { hw with place := int16_mem _ },
      ⟨rfl, rfl, rfl, rfl, rfl, rfl, rfl⟩, .inr ⟨rfl, rfl, fun hf => ?_⟩⟩
    have hi : d.scrollingImage.width ≤ 32512 := by
      rcases hm with hm | hm <;> simpa only [Fits, hm] using hf
    rw [hleft d rfl, hleft]
    case a => rfl
    simp only [movesLeft, if_neg hs, if_true]
    split
    · rename_i hr
      exact framesLeft_step hi hw.stride hs hw.place (hgo.resolve_right (by simp [hr]))
    · exact Nat.add_comm _ _

/-- **An update takes one off.** -/
theorem update_spec {d : MicroBitDisplay} (hw : WellSet d) (hm : d.animationMode ≠ .none) :
    ∃ d' ev, d.update = some (d', ev) ∧ WellSet d' ∧ SameShow d d' ∧ OneOff d d' ev := by
  cases hmode : d.animationMode with
  | none => exact absurd hmode hm
  | stopped => exact absurd hmode hw.mode
  | scrollText => exact scrollText_spec hw hmode
  | printText => exact printText_spec hw hmode
  | scrollImage => exact scrollImage_spec hw hmode
  | animateImage => exact animateImage_spec hw (.inl hmode)
  | animateImageWithClear => exact animateImage_spec hw (.inr hmode)
  | printCharacter =>
      have hup : d.update = some d.finish := by simp only [MicroBitDisplay.update, hmode]
      exact ⟨_, _, hup, { hw with mode := by simp }, ⟨rfl, rfl, rfl, rfl, rfl, rfl, rfl⟩,
        .inl ⟨rfl, rfl, by simp only [updatesLeft, hmode]⟩⟩

theorem updatesLeft_pos {d : MicroBitDisplay} (hw : WellSet d) (hm : d.animationMode ≠ .none) :
    0 < updatesLeft d := by
  have hmoves : ∀ f : MicroBitImage → Int → Int → Nat, (∀ i s p, 0 < f i s p) →
      0 < movesLeft f d := by
    intro f hf
    unfold movesLeft
    split
    · exact Nat.one_pos
    · split
      · exact hf _ _ _
      · omega
  have h1 := hw.position
  have h2 := hw.printing
  unfold displayWidth at h1
  unfold updatesLeft
  split
  · rename_i h
    exact absurd h hm
  · rename_i h
    exact absurd h hw.mode
  · unfold displayWidth displaySpacing
    omega
  · omega
  · exact hmoves _ slidesLeft_pos
  · exact hmoves _ framesLeft_pos
  · exact hmoves _ framesLeft_pos
  · exact Nat.one_pos

/-! ## 4. A tick -/

theorem ticksFor_pos (period delay : Nat) : 0 < ticksFor period delay := Nat.le_max_left _ _

theorem ticksFor_of_le {period delay : Nat} (h : delay ≤ period) : ticksFor period delay = 1 := by
  unfold ticksFor
  rcases Nat.eq_zero_or_pos delay with h0 | h0
  · rw [h0, zero_ceilDiv]
    rfl
  · rw [ceilDiv_of_le h0 h]
    rfl

theorem ticksFor_of_lt {period delay : Nat} (hp : 0 < period) (h : period < delay) :
    ticksFor period delay = ticksFor period (delay - period) + 1 := by
  have h2 := ceilDiv_pos (show 0 < delay - period by omega) hp
  unfold ticksFor
  rw [ceilDiv_of_lt hp h]
  omega

/-- The timer ticks, its count of milliseconds does not overflow, and the image fits. -/
structure Timely (period : Nat) (d : MicroBitDisplay) : Prop where
  period_pos : 0 < period
  delay_le : d.animationDelay + period ≤ 65536
  fits : Fits d

/-- **What a tick does**: it counts, or when the delay is reached does one update. -/
theorem animationUpdate_cases (period : Nat) {d : MicroBitDisplay} (hw : WellSet d)
    (hm : d.animationMode ≠ .none) :
    (∃ t < d.animationDelay, d.animationUpdate period = some ({ d with animationTick := t }, []) ∧
        (Timely period d →
          ticksToUpdate period d = ticksFor period (d.animationDelay - t) + 1)) ∨
      (d.animationUpdate period = { d with animationTick := 0 }.update ∧
        (Timely period d → ticksToUpdate period d = 1)) := by
  have ht := hw.tick
  unfold MicroBitDisplay.animationUpdate ticksToUpdate
  rw [if_neg hm]
  by_cases hfire : d.animationDelay ≤ (d.animationTick + period) % 65536
  · refine .inr ⟨if_pos hfire, fun htm => ticksFor_of_le ?_⟩
    have := htm.delay_le
    omega
  · refine .inl ⟨_, Nat.lt_of_not_le hfire, if_neg hfire, fun htm => ?_⟩
    have hd := htm.delay_le
    have hp := htm.period_pos
    rw [Nat.mod_eq_of_lt (by omega)] at hfire ⊢
    rw [ticksFor_of_lt hp (by omega), Nat.sub_sub]

/-- **One tick**: the animation goes on with one less, or it had one left and ends with its two
    events. -/
def OneTickOff (period : Nat) (d d' : MicroBitDisplay) (ev : List Event) : Prop :=
  (d'.animationMode = .none ∧ ev = [.complete, .free false] ∧
      (Timely period d → ticksLeft period d = 1)) ∨
    (d'.animationMode = d.animationMode ∧ ev = [] ∧
      (Timely period d → ticksLeft period d = ticksLeft period d' + 1))

theorem ticksLeft_eq {period : Nat} {d : MicroBitDisplay} (h : 0 < updatesLeft d) :
    ticksLeft period d = ticksToUpdate period d + (updatesLeft d - 1) * ticksPerUpdate period d :=
  if_neg (by omega)

theorem ticksLeft_pos (period : Nat) {d : MicroBitDisplay} (hw : WellSet d)
    (hm : d.animationMode ≠ .none) : 0 < ticksLeft period d := by
  rw [ticksLeft_eq (updatesLeft_pos hw hm)]
  exact Nat.add_pos_left (ticksFor_pos _ _) _

/-- **A tick takes one off.** -/
theorem tick_spec (period : Nat) {d : MicroBitDisplay} (hw : WellSet d)
    (hm : d.animationMode ≠ .none) :
    ∃ d' ev, d.animationUpdate period = some (d', ev) ∧ WellSet d' ∧
      SameShow { d with animationTick := d'.animationTick } d' ∧ OneTickOff period d d' ev := by
  have hpos := updatesLeft_pos hw hm
  rcases animationUpdate_cases period hw hm with ⟨t, hlt, he, htk⟩ | ⟨he, htk⟩
  · have hw' : WellSet { d with animationTick := t } :=
      { hw with tick := .inl hlt, tickBound := Nat.lt_trans hlt hw.delay }
    refine ⟨_, _, he, hw', ⟨rfl, rfl, rfl, rfl, rfl, rfl, rfl⟩, .inr ⟨rfl, rfl, fun htm => ?_⟩⟩
    rw [ticksLeft_eq hpos, ticksLeft_eq (updatesLeft_pos hw' hm), htk htm]
    exact Nat.add_right_comm _ _ _
  · have hw0 : WellSet { d with animationTick := 0 } :=
      { hw with
        tick := (Nat.eq_zero_or_pos d.animationDelay).symm
        tickBound := by simp }
    obtain ⟨d', ev, hup, hw', hsame, hoff⟩ := update_spec hw0 hm
    refine ⟨d', ev, he.trans hup, hw', hsame.tick ▸ hsame, ?_⟩
    rcases hoff with ⟨hmode, hev, h1⟩ | ⟨hmode, hev, h1⟩
    · refine .inl ⟨hmode, hev, fun htm => ?_⟩
      rw [ticksLeft_eq hpos, htk htm, show updatesLeft d = 1 from h1, Nat.sub_self, Nat.zero_mul]
    · refine .inr ⟨hmode, hev, fun htm => ?_⟩
      have h2 : 0 < updatesLeft d' := updatesLeft_pos hw' (hmode ▸ hm)
      have hto : ticksToUpdate period d' = ticksPerUpdate period d := by
        unfold ticksToUpdate ticksPerUpdate
        rw [hsame.tick, hsame.delay]
        rfl
      have hper : ticksPerUpdate period d' = ticksPerUpdate period d := by
        unfold ticksPerUpdate
        rw [hsame.delay]
      obtain ⟨m, hm'⟩ := Nat.exists_eq_add_of_lt h2
      rw [ticksLeft_eq hpos, ticksLeft_eq h2, htk htm, hto, hper,
        show updatesLeft d = updatesLeft d' + 1 from h1 htm.fits, hm',
        show 0 + m + 1 + 1 - 1 = m + 1 by omega, show 0 + m + 1 - 1 = m by omega, Nat.succ_mul]
      omega

/-! ## 5. A call -/

theorem isFree_iff {d : MicroBitDisplay} (hw : WellSet d) : d.isFree ↔ d.animationMode = .none :=
  or_iff_left hw.mode

/-- **A call that finds an animation going on changes nothing.** -/
theorem perform_busy {d : MicroBitDisplay} (hb : ¬ d.isFree) (c : Call) :
    ∃ a, d.perform c = some (a, d) ∧ (a = .busy ∨ a = .invalidParameter) := by
  have hguard : ∀ (p : Prop) [Decidable p] (x : Option (Answer × MicroBitDisplay)),
      ∃ a, (if p then some (.invalidParameter, d) else if d.isFree then x
        else some (.busy, d)) = some (a, d) ∧ (a = .busy ∨ a = .invalidParameter) := by
    intro p _ x
    by_cases h : p
    · exact ⟨_, if_pos h, .inr rfl⟩
    · exact ⟨.busy, by rw [if_neg h, if_neg hb], .inl rfl⟩
  cases c with
  | printChar c delay => exact hguard (delay < 0) _
  | printText s delay =>
      simp only [MicroBitDisplay.perform, MicroBitDisplay.printTextAsync]
      by_cases h1 : s.length = 1
      · rw [if_pos h1]
        exact hguard ((0 : Int) < 0) _
      · rw [if_neg h1]
        exact hguard (delay ≤ 0) _
  | printImage i x y alpha delay => exact hguard (delay < 0) _
  | scrollText s delay => exact hguard (delay ≤ 0) _
  | scrollImage i delay stride => exact hguard (delay ≤ 0) _
  | animateImage i delay stride start autoClear => exact hguard (delay ≤ 0) _

theorem uint16_lt (i : Int) : uint16 i < 65536 := by
  unfold uint16
  omega

theorem int8_mem (i : Int) : -128 ≤ int8 i ∧ int8 i < 128 := by
  unfold int8
  omega

/-- A call is not told that the display is busy, and leaves it well set. -/
def Accepted (x : Option (Answer × MicroBitDisplay)) : Prop :=
  ∃ a d', x = some (a, d') ∧ a ≠ .busy ∧ WellSet d' ∧ (¬ d'.isFree → a = .ok)

/-- The guards of a call, when the display is free. -/
theorem accepted_of_guards (p : Prop) [Decidable p] {d d' : MicroBitDisplay} (hw : WellSet d)
    (hb : d.isFree) (hw' : WellSet d') :
    Accepted (if p then some (.invalidParameter, d) else if d.isFree then some (.ok, d')
      else some (.busy, d)) := by
  by_cases h : p
  · exact ⟨_, _, if_pos h, by simp, hw, fun hc => absurd hb hc⟩
  · exact ⟨_, _, by rw [if_neg h, if_pos hb], by simp, hw', fun _ => rfl⟩

/-- A new animation whose count starts at zero. -/
theorem WellSet.begin {d : MicroBitDisplay} (hw : WellSet d) {m : AnimationMode}
    (hm : m ≠ .stopped) (delay : Int) : WellSet { d with
      animationDelay := uint16 delay, animationTick := 0, animationMode := m } :=
  { hw with
    mode := hm
    delay := uint16_lt _
    tick := (Nat.eq_zero_or_pos _).symm
    tickBound := by simp }

theorem printChar_accepted {d : MicroBitDisplay} (hw : WellSet d) (hb : d.isFree) (c : UInt8)
    (delay : Int) : Accepted (d.printCharAsync c delay) := by
  obtain ⟨r, he, -⟩ := print_some d.font d.image c 0
  rw [Int.natCast_zero] at he
  have hw₁ : WellSet { d with image := r.2 } := { hw with }
  simp only [MicroBitDisplay.printCharAsync, he, Option.bind_eq_bind, Option.bind_some]
  by_cases h0 : 0 < delay
  · simp only [if_pos h0]
    exact accepted_of_guards (delay < 0) hw hb (hw₁.begin (by simp) delay)
  · simp only [if_neg h0]
    exact accepted_of_guards (delay < 0) hw hb hw₁

/-- The mode of an animated image. -/
theorem animating_mode (autoClear : Int) :
    (if autoClear = 0 then AnimationMode.animateImage else .animateImageWithClear) =
        .animateImage ∨
      (if autoClear = 0 then AnimationMode.animateImage else .animateImageWithClear) =
        .animateImageWithClear := by
  split <;> simp

/-- **A call that finds the display free** is not told that it is busy. -/
theorem perform_free {d : MicroBitDisplay} (hw : WellSet d) (hb : d.isFree) (c : Call) :
    Accepted (d.perform c) := by
  cases c with
  | printChar c delay => exact printChar_accepted hw hb c delay
  | printText s delay =>
      simp only [MicroBitDisplay.perform, MicroBitDisplay.printTextAsync]
      by_cases h1 : s.length = 1
      · rw [if_pos h1]
        exact printChar_accepted hw hb _ _
      · rw [if_neg h1]
        exact accepted_of_guards (delay ≤ 0) hw hb
          { hw.begin (m := .printText) (by simp) delay with printing := Nat.zero_le _ }
  | printImage i x y alpha delay =>
      obtain ⟨r, he, -⟩ := paste_some d.image i (int16 x) (int16 y) (alpha % 256).toNat
      have hw₁ : WellSet { d with image := r.2 } := { hw with }
      simp only [MicroBitDisplay.perform, MicroBitDisplay.printImageAsync, he,
        Option.bind_eq_bind, Option.bind_some]
      by_cases h0 : 0 < delay
      · simp only [if_pos h0]
        exact accepted_of_guards (delay < 0) hw hb (hw₁.begin (by simp) delay)
      · simp only [if_neg h0]
        exact accepted_of_guards (delay < 0) hw hb hw₁
  | scrollText s delay =>
      exact accepted_of_guards (delay ≤ 0) hw hb
        { hw.begin (m := .scrollText) (by simp) delay with
          position := Nat.sub_le _ _
          char := Nat.zero_le _ }
  | scrollImage i delay stride =>
      exact accepted_of_guards (delay ≤ 0) hw hb
        { hw.begin (m := .scrollImage) (by simp) (if stride = 0 then 0 else delay) with
          place := int16_mem _
          stride := int8_mem _ }
  | animateImage i delay stride start autoClear =>
      -- the first frame is shown by the next tick: the count starts one short of the delay
      have htick : uint16 (delay - 1) < uint16 (if -stride = 0 then 0 else delay) ∨
          uint16 (if -stride = 0 then 0 else delay) = 0 := by
        unfold uint16
        split <;> omega
      have hmode : (if autoClear = 0 then AnimationMode.animateImage else .animateImageWithClear) ≠
          .stopped := by
        rcases animating_mode autoClear with h | h <;> simp [h]
      exact accepted_of_guards (delay ≤ 0) hw hb
        { hw with
          mode := hmode
          delay := uint16_lt _
          tick := htick
          tickBound := uint16_lt _
          place := int16_mem _
          stride := int8_mem _ }

/-! ## 6. Many of them -/

/-- **No call and no tick touches anything outside the images**, and the bounds are kept. -/
theorem step_wellSet (period : Nat) {d : MicroBitDisplay} (hw : WellSet d) (a : Action) :
    ∃ d' ev, step period d a = some (d', ev) ∧ WellSet d' := by
  cases a with
  | tick =>
      by_cases hm : d.animationMode = .none
      · refine ⟨d, [.ticked], ?_, hw⟩
        simp only [step, MicroBitDisplay.animationUpdate, if_pos hm, Option.map_some]
      · obtain ⟨d', ev, he, hw', -⟩ := tick_spec period hw hm
        exact ⟨d', .ticked :: ev, by simp only [step, he, Option.map_some], hw'⟩
  | call c =>
      by_cases hb : d.isFree
      · obtain ⟨a, d', he, -, hw', -⟩ := perform_free hw hb c
        exact ⟨d', _, by simp only [step, he, Option.map_some]; rfl, hw'⟩
      · obtain ⟨a, he, -⟩ := perform_busy hb c
        exact ⟨d, _, by simp only [step, he, Option.map_some]; rfl, hw⟩
  | stopAnimation =>
      by_cases hm : d.animationMode = .none
      · exact ⟨_, _, congrArg some (if_pos hm), { hw with }⟩
      · exact ⟨_, _, congrArg some (if_neg hm), { hw with mode := by simp }⟩
  | clear => exact ⟨_, _, rfl, { hw with }⟩

theorem wellSet_initial (font : MicroBitFont) : WellSet (.initial font) where
  mode := by simp [MicroBitDisplay.initial]
  delay := by simp [MicroBitDisplay.initial]
  tick := .inr rfl
  tickBound := by simp [MicroBitDisplay.initial]
  position := Nat.zero_le _
  char := Nat.zero_le _
  printing := Nat.zero_le _
  place := by simp [MicroBitDisplay.initial]
  stride := by simp [MicroBitDisplay.initial]

theorem wellSet_of_run {font : MicroBitFont} {period : Nat} {d : MicroBitDisplay}
    {tr : List Event} (h : (machine font period).Run d tr) : WellSet d := by
  induction h with
  | start => exact wellSet_initial font
  | step d d' a tr ev _ hs ih =>
      obtain ⟨d₁, ev₁, he, hw⟩ := step_wellSet period ih a
      rw [show step period d a = some (d', ev) from hs] at he
      cases he
      exact hw

/-- How many of the actions are ticks. -/
def ticksOf : List Action → Nat
  | [] => 0
  | .tick :: as => ticksOf as + 1
  | _ :: as => ticksOf as

@[simp] theorem ticksOf_replicate (n : Nat) : ticksOf (List.replicate n .tick) = n := by
  induction n with
  | zero => rfl
  | succ n ih => rw [List.replicate_succ, ticksOf, ih]

theorem not_mem_ticks {a : Action} (ha : a ≠ .tick) (n : Nat) : a ∉ List.replicate n .tick :=
  fun h => ha (List.eq_of_mem_replicate h)

/-- Neither an animation's begin nor its end. -/
def Event.Inner : Event → Prop
  | .answered _ => True
  | .ticked => True
  | _ => False

theorem Timely.of_same {period : Nat} {d d' : MicroBitDisplay} (ht : Timely period d)
    (hd : d'.animationDelay = d.animationDelay) (hi : d'.scrollingImage = d.scrollingImage)
    (hm : d'.animationMode = d.animationMode) : Timely period d' where
  period_pos := ht.period_pos
  delay_le := hd ▸ ht.delay_le
  fits := by
    have := ht.fits
    unfold Fits at this ⊢
    rwa [hm, hi]

/-- The end of the animation: the tick that finds one left. -/
theorem tick_last {period : Nat} {d : MicroBitDisplay} (hw : WellSet d) (ht : Timely period d)
    (hm : d.animationMode ≠ .none) (h1 : ticksLeft period d = 1) :
    ∃ d', step period d .tick = some (d', [.ticked, .complete, .free false]) ∧ d'.isFree := by
  obtain ⟨d', ev, he, hw', -, ⟨hmode, rfl, -⟩ | ⟨hmode, -, hleft⟩⟩ := tick_spec period hw hm
  · exact ⟨d', by simp only [step, he, Option.map_some], .inl hmode⟩
  · have := hleft ht
    have := ticksLeft_pos period hw' (hmode ▸ hm)
    omega

/-- One action while the animation goes on, when that leaves at least one tick. -/
theorem step_going {period : Nat} {a : Action} {d : MicroBitDisplay} (I : MicroBitDisplay → Prop)
    (hw : WellSet d) (ht : Timely period d) (hm : d.animationMode ≠ .none) (hi : I d)
    (hstop : a ≠ .stopAnimation)
    (hclear : a = .clear → ∀ d, I d → I { d with image := clear d.image })
    (htick : ∀ d d', WellSet d → Timely period d → d.animationMode ≠ .none → I d →
      d.animationUpdate period = some (d', []) → d'.animationMode = d.animationMode → I d')
    (hn : ticksOf [a] < ticksLeft period d) :
    ∃ d' ev, step period d a = some (d', ev) ∧ WellSet d' ∧ Timely period d' ∧
      d'.animationMode = d.animationMode ∧ ticksLeft period d' + ticksOf [a] = ticksLeft period d ∧
      I d' ∧ ∀ e ∈ ev, e.Inner := by
  cases a with
  | tick =>
      obtain ⟨d₁, ev₁, he, hw₁, hsame, hoff⟩ := tick_spec period hw hm
      rcases hoff with ⟨-, -, h1⟩ | ⟨hmode, rfl, hleft⟩
      · have := h1 ht
        simp only [ticksOf] at hn
        omega
      · have ht₁ := ht.of_same hsame.delay hsame.shown hmode
        exact ⟨d₁, [.ticked], by simp only [step, he, Option.map_some], hw₁, ht₁, hmode,
          (hleft ht).symm, htick d d₁ hw ht hm hi he hmode, by simp [Event.Inner]⟩
  | call c =>
      have hb : ¬ d.isFree := fun hc => hm ((isFree_iff hw).mp hc)
      obtain ⟨a, he, -⟩ := perform_busy hb c
      refine ⟨d, [.answered a], ?_, hw, ht, rfl, rfl, hi, by simp [Event.Inner]⟩
      simp only [step, he, Option.map_some]
      rw [if_neg fun hc => hb hc.1]
  | stopAnimation => exact absurd rfl hstop
  | clear =>
      exact ⟨_, _, rfl, { hw with }, ht.of_same rfl rfl rfl, rfl, rfl, hclear rfl d hi, by simp⟩

/-- **While it goes on**: over ticks, calls and clears that leave at least one tick, the
    animation goes on, each tick takes one off, and what each tick and clear keeps is kept. -/
theorem exec_going (font : MicroBitFont) {period : Nat} {as : List Action} {d : MicroBitDisplay}
    (I : MicroBitDisplay → Prop) (hw : WellSet d) (ht : Timely period d)
    (hm : d.animationMode ≠ .none) (hi : I d) (hstop : .stopAnimation ∉ as)
    (hclear : .clear ∈ as → ∀ d, I d → I { d with image := clear d.image })
    (htick : ∀ d d', WellSet d → Timely period d → d.animationMode ≠ .none → I d →
      d.animationUpdate period = some (d', []) → d'.animationMode = d.animationMode → I d')
    (hn : ticksOf as < ticksLeft period d) :
    ∃ d' ev, (machine font period).exec d as = some (d', ev) ∧ WellSet d' ∧ Timely period d' ∧
      d'.animationMode = d.animationMode ∧ ticksLeft period d' + ticksOf as = ticksLeft period d ∧
      I d' ∧ ∀ e ∈ ev, e.Inner := by
  induction as generalizing d with
  | nil => exact ⟨d, [], rfl, hw, ht, rfl, rfl, hi, by simp⟩
  | cons a as ih =>
      have hcount : ticksOf (a :: as) = ticksOf [a] + ticksOf as := by
        cases a <;> simp only [ticksOf] <;> omega
      obtain ⟨d₁, ev₁, he, hw₁, ht₁, hm₁, hleft, hi₁, hin⟩ := step_going I hw ht hm hi
        (fun hc => hstop (hc ▸ List.mem_cons_self)) (fun hc => hclear (hc ▸ List.mem_cons_self))
        htick (show ticksOf [a] < ticksLeft period d by omega)
      obtain ⟨d₂, ev₂, he₂, hw₂, ht₂, hm₂, hleft₂, hi₂, hin₂⟩ := ih hw₁ ht₁ (hm₁ ▸ hm) hi₁
        (fun hc => hstop (List.mem_cons_of_mem _ hc))
        (fun hc => hclear (List.mem_cons_of_mem _ hc)) (by omega)
      refine ⟨d₂, ev₁ ++ ev₂, ?_, hw₂, ht₂, hm₂.trans hm₁, by omega, hi₂, ?_⟩
      · rw [Machine.exec_cons he, he₂]
        rfl
      · intro e hmem
        rcases List.mem_append.mp hmem with h | h
        · exact hin e h
        · exact hin₂ e h

/-! ## 7. How long a call's animation lasts -/

/-- `animationDelay` of the animation a call begins. -/
def Call.delay : Call → Nat
  | .printChar _ delay => uint16 delay
  | .printText _ delay => uint16 delay
  | .printImage _ _ _ _ delay => uint16 delay
  | .scrollText _ delay => uint16 delay
  | .scrollImage _ delay stride => uint16 (if stride = 0 then 0 else delay)
  | .animateImage _ delay stride _ _ => uint16 (if stride = 0 then 0 else delay)

/-- Where an animated image begins. -/
def startOf (stride startingPosition : Int) : Int :=
  if startingPosition = animateDefaultPos then displayWidth - stride else startingPosition

/-- **The updates of the animation a call begins.** A text is followed by blanks until it is off
    the display; a scrolled image by one update that finds nothing left; an image that is animated
    to the right goes on until its place has left the range of `int16_t`. -/
def Call.updates : Call → Nat
  | .printChar _ _ => 1
  | .printText s _ => s.length + 2
  | .printImage _ _ _ _ _ => 1
  | .scrollText s _ => 6 * s.length + 8
  | .scrollImage i _ stride =>
    if stride = 0 then 1
    else if i.width = 0 ∨ i.height = 0 then 2
    else 1 + (i.width + if stride < 0 then 5 else 10) ⌈/⌉ stride.natAbs
  | .animateImage i _ stride start _ =>
    if stride = 0 then 1
    else if 0 < stride then 2 + (startOf stride start + i.width - 5).toNat ⌈/⌉ stride.toNat
    else if 5 - i.width < startOf stride start then
      1 + (32768 - startOf stride start).toNat ⌈/⌉ (-stride).toNat
    else 2

theorem Call.updates_pos (c : Call) : 0 < c.updates := by
  cases c <;> simp only [Call.updates]
  case scrollImage => repeat' first | split | omega
  case animateImage => repeat' first | split | omega
  all_goals omega

/-- **The ticks of the animation a call begins.** The first frame of an animated image is shown
    by the next tick. -/
def Call.ticks (period : Nat) (c : Call) : Nat :=
  match c with
  | .animateImage _ _ _ _ _ => 1 + (c.updates - 1) * ticksFor period c.delay
  | _ => c.updates * ticksFor period c.delay

/-- The timer ticks, its count does not overflow, and nothing is cut by a conversion: a stride is one
    of `int8_t`, and an image and the place where it begins are two strides short of the end of
    `int16_t`. -/
def Call.Timely (period : Nat) (c : Call) : Prop :=
  0 < period ∧ c.delay + period ≤ 65536 ∧
    match c with
    | .scrollImage i _ stride => i.width ≤ 32512 ∧ -128 ≤ stride ∧ stride < 128
    | .animateImage i _ stride start _ =>
      i.width ≤ 32512 ∧ -128 < stride ∧ stride < 128 ∧ -32512 ≤ start ∧ start < 32768
    | _ => True

/-- The updates and the first tick make up the ticks. -/
theorem ticksLeft_of_tick_zero {period n : Nat} {d : MicroBitDisplay} (hn : 0 < n)
    (h : updatesLeft d = n) (h0 : d.animationTick = 0) :
    ticksLeft period d = n * ticksFor period d.animationDelay := by
  rw [ticksLeft_eq (h ▸ hn), ticksToUpdate, ticksPerUpdate, h0, h]
  obtain ⟨m, rfl⟩ := Nat.exists_eq_add_of_lt hn
  rw [show 0 + m + 1 - 1 = m by omega, show 0 + m + 1 = m + 1 by omega, Nat.succ_mul,
    Nat.sub_zero, Nat.add_comm]

theorem int8_of_mem {i : Int} (h1 : -128 ≤ i) (h2 : i < 128) : int8 i = i := by
  unfold int8
  omega

/-- The updates of a scrolled image. -/
theorem scrollImage_updates {i : MicroBitImage} {stride : Int} (hi : i.width ≤ 32512)
    (h1 : -128 ≤ stride) (h2 : stride < 128) (h0 : stride ≠ 0) :
    1 + slidesLeft i stride (int16 (int16 (if stride < 0 then (displayWidth : Int) else -i.width) +
        stride)) =
      if i.width = 0 ∨ i.height = 0 then 2
      else 1 + (i.width + if stride < 0 then 5 else 10) ⌈/⌉ stride.natAbs := by
  by_cases hwh : i.width = 0 ∨ i.height = 0
  · rw [if_pos hwh, slidesLeft, if_neg (by unfold Reaches; omega)]
  rw [if_neg hwh]
  have hstart : int16 (if stride < 0 then (displayWidth : Int) else -i.width) =
      if stride < 0 then (displayWidth : Int) else -i.width := by
    unfold displayWidth
    split <;> exact int16_of_mem (by omega) (by omega)
  rw [hstart]
  by_cases hneg : stride < 0
  · -- it begins at the right edge of the display, where it already reaches in
    have hr : Reaches i (displayWidth : Int) := by
      unfold Reaches displayWidth
      omega
    have hstep := slidesLeft_step hi ⟨h1, h2⟩ h0 hr
    rw [if_pos hneg, if_pos hneg, Nat.add_comm 1, ← hstep, slidesLeft, if_pos hr, if_pos hneg,
      show ((displayWidth : Int) + i.width).toNat = i.width + 5 by unfold displayWidth; omega,
      show (-stride).toNat = stride.natAbs by omega]
  · -- it begins left of the display: the first update finds nothing yet
    rw [if_neg hneg, if_neg hneg, int16_of_mem (by omega) (by omega)]
    unfold slidesLeft
    rw [show stride.natAbs = stride.toNat by omega]
    by_cases hr : Reaches i (-i.width + stride)
    · have hb : -i.width + stride < (10 : Nat) := hr.2.2.2
      rw [if_pos hr, if_neg hneg, ceilDiv_of_lt (show 0 < stride.toNat by omega)
        (show stride.toNat < i.width + 10 by omega),
        show ((displayWidth * 2 : Nat) - (-(i.width : Int) + stride)).toNat =
          i.width + 10 - stride.toNat by unfold displayWidth; omega]
      omega
    · have hb : ¬ -i.width + stride < (10 : Nat) := fun hc =>
        hr ⟨by omega, by omega, by omega, hc⟩
      rw [if_neg hr, ceilDiv_of_le (by omega) (by omega)]

/-- The updates of an animated image; the place moves against the sign of the call's stride. -/
theorem animateImage_updates {i : MicroBitImage} {stride p : Int} (hi : i.width ≤ 32512)
    (h1 : -128 < stride) (h2 : stride < 128) (h0 : stride ≠ 0) (hp : -32512 ≤ p) (hp' : p < 32768) :
    1 + framesLeft i (-stride) (int16 (p + -stride)) =
      if 0 < stride then 2 + (p + i.width - 5).toNat ⌈/⌉ stride.toNat
      else if 5 - i.width < p then 1 + (32768 - p).toNat ⌈/⌉ (-stride).toNat else 2 := by
  have hlast : lastFrame i (-stride) = 5 - i.width - stride := by
    unfold lastFrame displayWidth
    omega
  unfold framesLeft
  rw [hlast]
  by_cases hs : 0 < stride
  · rw [if_pos hs, int16_of_mem (by omega) (by omega), if_pos (show -stride < 0 by omega),
      show (p + -stride - (5 - i.width - stride)).toNat = (p + i.width - 5).toNat by omega,
      show (- -stride).toNat = stride.toNat by omega]
    split
    · omega
    · have hzero : (p + i.width - 5).toNat ⌈/⌉ stride.toNat = 0 := by
        rw [show (p + i.width - 5).toNat = 0 by omega, zero_ceilDiv]
      omega
  · simp only [if_neg hs, if_neg (show ¬ -stride < 0 by omega)]
    by_cases hfar : 5 - i.width < p
    · rw [if_pos hfar]
      rcases Nat.lt_or_ge (-stride).toNat (32768 - p).toNat with hlt | hge
      · rw [int16_of_mem (by omega) (by omega), if_pos (by omega), ceilDiv_of_lt (by omega) hlt,
          show (32768 - (p + -stride)).toNat = (32768 - p).toNat - (-stride).toNat by omega]
        omega
      · have hwrap : int16 (p + -stride) = p + -stride - 65536 := by
          unfold int16
          omega
        rw [ceilDiv_of_le (by omega) hge, hwrap, if_neg (by omega)]
    · rw [if_neg hfar, int16_of_mem (by omega) (by omega), if_neg (by omega)]

/-- What a call that begins an animation leaves, where the animation needs no first tick. -/
theorem begun_of_tick_zero {period : Nat} {c : Call} {d : MicroBitDisplay} (ht : c.Timely period)
    (hd : d.animationDelay = c.delay) (h0 : d.animationTick = 0) (hf : Fits d)
    (hu : updatesLeft d = c.updates)
    (hc : c.ticks period = c.updates * ticksFor period c.delay) :
    Timely period d ∧ updatesLeft d = c.updates ∧ ticksLeft period d = c.ticks period :=
  ⟨⟨ht.1, hd ▸ ht.2.1, hf⟩, hu, by rw [ticksLeft_of_tick_zero c.updates_pos hu h0, hd, hc]⟩

/-- The same of an animation whose first update is done by the next tick. -/
theorem animation_begun {period : Nat} {i : MicroBitImage} {delay stride start autoClear : Int}
    {d : MicroBitDisplay} (ht : (Call.animateImage i delay stride start autoClear).Timely period)
    (hd : d.animationDelay = (Call.animateImage i delay stride start autoClear).delay)
    (h1 : d.animationDelay - d.animationTick ≤ period) (hf : Fits d)
    (hu : updatesLeft d = (Call.animateImage i delay stride start autoClear).updates) :
    Timely period d ∧ updatesLeft d = (Call.animateImage i delay stride start autoClear).updates ∧
      ticksLeft period d = (Call.animateImage i delay stride start autoClear).ticks period := by
  refine ⟨⟨ht.1, hd ▸ ht.2.1, hf⟩, hu, ?_⟩
  rw [ticksLeft_eq (hu ▸ Call.updates_pos _), ticksToUpdate, ticksPerUpdate, ticksFor_of_le h1, hd,
    hu]
  rfl

/-- The first update of an animated image takes one tick. -/
theorem animation_ticks (period : Nat) (i : MicroBitImage) (delay stride start autoClear : Int) :
    (Call.animateImage i delay stride start autoClear).ticks period +
        (ticksFor period (Call.animateImage i delay stride start autoClear).delay - 1) =
      (Call.animateImage i delay stride start autoClear).updates *
        ticksFor period (Call.animateImage i delay stride start autoClear).delay := by
  have hfor := ticksFor_pos period (Call.animateImage i delay stride start autoClear).delay
  obtain ⟨m, hm⟩ := Nat.exists_eq_add_of_lt
    (Call.updates_pos (.animateImage i delay stride start autoClear))
  rw [Call.ticks, hm, show 0 + m + 1 - 1 = m by omega, show 0 + m + 1 = m + 1 by omega,
    Nat.succ_mul]
  omega

/-- What the guards of a call leave of a call that has begun an animation. -/
theorem guards_of_begun {p : Prop} [Decidable p] {d d₁ d' : MicroBitDisplay} {a : Answer}
    (hb : d.isFree) (hg : ¬ d'.isFree)
    (h : (if p then some (Answer.invalidParameter, d) else if d.isFree then some (.ok, d₁)
      else some (.busy, d)) = some (a, d')) : ¬ p ∧ d' = d₁ := by
  by_cases hp : p
  · rw [if_pos hp] at h
    cases h
    exact absurd hb hg
  · rw [if_neg hp, if_pos hb] at h
    cases h
    exact ⟨hp, rfl⟩

theorem printChar_begun {d d' : MicroBitDisplay} {a : Answer} {c : UInt8} {delay : Int}
    (hb : d.isFree) (hg : ¬ d'.isFree) (he : d.printCharAsync c delay = some (a, d')) :
    0 < delay ∧ ∃ b, d' = { d with
      image := b, animationDelay := uint16 delay, animationTick := 0,
      animationMode := .printCharacter } := by
  obtain ⟨r, hr, -⟩ := print_some d.font d.image c 0
  rw [Int.natCast_zero] at hr
  simp only [MicroBitDisplay.printCharAsync, hr, Option.bind_eq_bind, Option.bind_some] at he
  by_cases h0 : 0 < delay
  · simp only [if_pos h0] at he
    exact ⟨h0, _, (guards_of_begun hb hg he).2⟩
  · simp only [if_neg h0] at he
    obtain ⟨-, rfl⟩ := guards_of_begun hb hg he
    exact absurd hb hg

/-- An animated image that begins: the first place, and the updates from there. -/
theorem animateImage_begun {period : Nat} {d d' : MicroBitDisplay} {a : Answer} {i : MicroBitImage}
    {delay stride start autoClear : Int} (hb : d.isFree) (hg : ¬ d'.isFree)
    (he : d.animateAsync i delay stride start autoClear = some (a, d'))
    (ht : (Call.animateImage i delay stride start autoClear).Timely period) :
    Timely period d' ∧
      updatesLeft d' = (Call.animateImage i delay stride start autoClear).updates ∧
      ticksLeft period d' = (Call.animateImage i delay stride start autoClear).ticks period := by
  obtain ⟨hdelay, rfl⟩ := guards_of_begun hb hg he
  obtain ⟨hi, h1, h2, h3, h4⟩ := ht.2.2
  obtain ⟨hs1, hs2⟩ : -32512 ≤ startOf stride start ∧ startOf stride start < 32768 := by
    unfold startOf displayWidth
    split <;> omega
  have hstart : int16 (if start = animateDefaultPos then displayWidth + -stride else start) =
      startOf stride start := int16_of_mem (i := startOf stride start) (by omega) hs2
  have hzero : (-stride = 0) = (stride = 0) := propext (by omega)
  rw [hstart]
  simp only [hzero]
  refine animation_begun ht rfl ?_ ?_ ?_
  · -- the count starts one short of the delay
    change uint16 (if stride = 0 then 0 else delay) - uint16 (delay - 1) ≤ period
    have := ht.1
    unfold uint16
    split <;> omega
  · unfold Fits
    split <;> first | exact hi | trivial
  · have hmoves : Call.updates (.animateImage i delay stride start autoClear) =
        if int8 (-stride) = 0 then 1 else 1 + framesLeft i (int8 (-stride))
          (int16 (startOf stride start + int8 (-stride))) := by
      rw [int8_of_mem (by omega) (by omega), Call.updates]
      by_cases h0 : stride = 0
      · rw [if_pos h0, if_pos (show -stride = 0 by omega)]
      · rw [if_neg h0, if_neg (show -stride ≠ 0 by omega)]
        exact (animateImage_updates hi h1 h2 h0 hs1 hs2).symm
    rw [hmoves, updatesLeft_animated (animating_mode autoClear)]
    rfl

/-- **A call that begins an animation** sets what is left to the updates and ticks of its
    animation. -/
theorem perform_begun {period : Nat} {d d' : MicroBitDisplay} {c : Call} {a : Answer}
    (hb : d.isFree) (hg : ¬ d'.isFree) (he : d.perform c = some (a, d')) (ht : c.Timely period) :
    Timely period d' ∧ updatesLeft d' = c.updates ∧ ticksLeft period d' = c.ticks period := by
  cases c with
  | printChar c delay =>
      obtain ⟨-, b, rfl⟩ := printChar_begun hb hg he
      exact begun_of_tick_zero ht rfl rfl trivial rfl rfl
  | printText s delay =>
      simp only [MicroBitDisplay.perform, MicroBitDisplay.printTextAsync] at he
      by_cases h1 : s.length = 1
      · rw [if_pos h1] at he
        obtain ⟨h0, -⟩ := printChar_begun hb hg he
        exact absurd h0 (Int.lt_irrefl 0)
      · rw [if_neg h1] at he
        obtain ⟨-, rfl⟩ := guards_of_begun hb hg he
        exact begun_of_tick_zero ht rfl rfl trivial rfl rfl
  | printImage i x y alpha delay =>
      obtain ⟨r, hr, -⟩ := paste_some d.image i (int16 x) (int16 y) (alpha % 256).toNat
      simp only [MicroBitDisplay.perform, MicroBitDisplay.printImageAsync, hr,
        Option.bind_eq_bind, Option.bind_some] at he
      by_cases h0 : 0 < delay
      · simp only [if_pos h0] at he
        obtain ⟨-, rfl⟩ := guards_of_begun hb hg he
        exact begun_of_tick_zero ht rfl rfl trivial rfl rfl
      · simp only [if_neg h0] at he
        obtain ⟨-, rfl⟩ := guards_of_begun hb hg he
        exact absurd hb hg
  | scrollText s delay =>
      obtain ⟨-, rfl⟩ := guards_of_begun hb hg he
      refine begun_of_tick_zero ht rfl rfl trivial ?_ rfl
      simp only [updatesLeft, Call.updates, displayWidth, displaySpacing]
      omega
  | scrollImage i delay stride =>
      obtain ⟨-, rfl⟩ := guards_of_begun hb hg he
      obtain ⟨hi, h1, h2⟩ := ht.2.2
      refine begun_of_tick_zero ht rfl rfl hi ?_ rfl
      simp only [updatesLeft, movesLeft, Call.updates, int8_of_mem h1 h2]
      by_cases h0 : stride = 0
      · rw [if_pos h0, if_pos h0]
      · rw [if_neg h0, if_neg h0]
        exact scrollImage_updates hi h1 h2 h0
  | animateImage i delay stride start autoClear => exact animateImage_begun hb hg he ht

/-- A step that reports a begin. -/
theorem begun_of_step {font : MicroBitFont} {period : Nat} {d d' : MicroBitDisplay} {c : Call}
    {ev : List Event} (h : (machine font period).step d (.call c) = some (d', ev))
    (hs : .started c ∈ ev) : d.isFree ∧ ¬ d'.isFree ∧ ∃ a, d.perform c = some (a, d') := by
  obtain ⟨r, he, heq⟩ := Option.map_eq_some_iff.mp h
  cases heq
  split at hs
  · rename_i hc
    exact ⟨hc.1, hc.2, r.1, he⟩
  · simp at hs

end MicrobitAlarm.Display
