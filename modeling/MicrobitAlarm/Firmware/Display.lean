/-
  File:      MicrobitAlarm/Firmware/Display.lean
  Subject:   THE DISPLAY'S ANIMATIONS (drivers/MicroBitDisplay.cpp): the calls that start one and
             return at once, and the timer tick that carries it on.

  The display shows the left half of an image of ten by five pixels. A call that finds no
  animation going on notes its parameters and sets `animationMode`. Each tick of the system timer
  adds its period to `animationTick`, and when that reaches `animationDelay` does one update of
  the animation: a column further, a character further, a place further. The update that finds
  nothing more to show ends the animation and says so to the message bus.

  A call, `clear` and `stopAnimation` are steps of their own here, none of which a tick splits; in
  the source a tick may come between two lines of them, as between the test of `stopAnimation` and
  its assignment, which then ends an animation that has ended already.

  * `printCharAsync`, `scrollAsync`, .. -- the calls, with the conversions of their `int`s;
  * `updateScrollText`, .., `animationUpdate`, `stopAnimation` -- what goes on and what ends it;
  * `machine` -- the runs, over all calls at all times.

  Left out: the calls that block (each is one of these between two waits), a listener that starts
  an animation from within the event of the last one's end, sharing of one block between the
  display's own image and an image that is shown, and the fields no animation reads.
-/
import MicrobitAlarm.Firmware.Image
import MicrobitAlarm.Firmware.ManagedString
import MicrobitAlarm.Lib.Trace

namespace MicrobitAlarm.Display

open Raster Trace

/-! ## 1. The state -/

/-- `AnimationMode`. -/
inductive AnimationMode where
  | none
  | stopped
  | scrollText
  | printText
  | scrollImage
  | animateImage
  | animateImageWithClear
  | printCharacter
  deriving DecidableEq

/-- `MICROBIT_DISPLAY_WIDTH`, the width of the matrix map. -/
def displayWidth : Nat := 5

/-- `MICROBIT_DISPLAY_HEIGHT`. -/
def displayHeight : Nat := 5

/-- `MICROBIT_DISPLAY_SPACING`. -/
def displaySpacing : Nat := 1

/-- `MICROBIT_DISPLAY_ANIMATE_DEFAULT_POS`. -/
def animateDefaultPos : Int := -255

/-- The image of a display: `image(map.width*2, map.height)`. -/
abbrev Screen := Bitmap (displayWidth * 2) displayHeight

/-- What the animations read and write of a `MicroBitDisplay`. -/
structure MicroBitDisplay where
  font : MicroBitFont
  image : Screen
  animationMode : AnimationMode
  /-- `uint16_t` -/
  animationDelay : Nat
  /-- `uint16_t` -/
  animationTick : Nat
  scrollingText : ManagedString
  /-- `uint16_t` -/
  scrollingChar : Nat
  /-- `uint8_t` -/
  scrollingPosition : Nat
  printingText : ManagedString
  /-- `uint16_t` -/
  printingChar : Nat
  scrollingImage : MicroBitImage
  /-- `int16_t` -/
  scrollingImagePosition : Int
  /-- `int8_t` -/
  scrollingImageStride : Int
  scrollingImageRendered : Bool

/-- The conversion to `uint16_t`. -/
def uint16 (i : Int) : Nat := (i % 65536).toNat

/-- The conversion to `int16_t`. -/
def int16 (i : Int) : Int := (i + 32768) % 65536 - 32768

/-- The conversion to `int8_t`. -/
def int8 (i : Int) : Int := (i + 128) % 256 - 128

/-- `MicroBitImage::EmptyImage`: one dark pixel. -/
def emptyImage : MicroBitImage := ⟨1, 1, Buffer.zeros 1⟩

/-- The display of `MicroBit uBit`, an object with static storage. -/
def MicroBitDisplay.initial (font : MicroBitFont) : MicroBitDisplay where
  font := font
  image := Buffer.zeros _
  animationMode := .none
  animationDelay := 0
  animationTick := 0
  scrollingText := .empty
  scrollingChar := 0
  scrollingPosition := 0
  printingText := .empty
  printingChar := 0
  scrollingImage := emptyImage
  scrollingImagePosition := 0
  scrollingImageStride := 0
  scrollingImageRendered := false

/-! ## 2. The calls -/

/-- A call that shows something and returns at once. -/
inductive Call where
  | printChar (c : UInt8) (delay : Int)
  | printText (s : ManagedString) (delay : Int)
  | printImage (i : MicroBitImage) (x y alpha delay : Int)
  | scrollText (s : ManagedString) (delay : Int)
  | scrollImage (i : MicroBitImage) (delay stride : Int)
  | animateImage (i : MicroBitImage) (delay stride startingPosition autoClear : Int)

inductive Event where
  /-- a call has returned -/
  | answered (answer : Answer)
  /-- a call has begun an animation -/
  | started (call : Call)
  /-- the system timer has ticked -/
  | ticked
  /-- `MICROBIT_DISPLAY_EVT_ANIMATION_COMPLETE` -/
  | complete
  /-- `MICROBIT_DISPLAY_EVT_FREE`, for one fiber that waits or for all -/
  | free (all : Bool)

namespace MicroBitDisplay

/-- Whether no animation goes on. -/
def isFree (d : MicroBitDisplay) : Prop := d.animationMode = .none ∨ d.animationMode = .stopped

instance (d : MicroBitDisplay) : Decidable d.isFree := inferInstanceAs (Decidable (_ ∨ _))

/-- `printCharAsync(c, delay)`. -/
def printCharAsync (d : MicroBitDisplay) (c : UInt8) (delay : Int) :
    Option (Answer × MicroBitDisplay) :=
  if delay < 0 then some (.invalidParameter, d)
  else if d.isFree then do
    let r ← print d.font d.image c 0 0
    let d := { d with image := r.2 }
    if 0 < delay then
      some (.ok, { d with
        animationDelay := uint16 delay, animationTick := 0, animationMode := .printCharacter })
    else some (.ok, d)
  else some (.busy, d)

/-- `printAsync(s, delay)`: one character is printed for good, and `delay` not looked at. -/
def printTextAsync (d : MicroBitDisplay) (s : ManagedString) (delay : Int) :
    Option (Answer × MicroBitDisplay) :=
  if s.length = 1 then d.printCharAsync (s.charAt 0) 0
  else if delay ≤ 0 then some (.invalidParameter, d)
  else if d.isFree then
    some (.ok, { d with
      printingChar := 0, printingText := s, animationDelay := uint16 delay, animationTick := 0,
      animationMode := .printText })
  else some (.busy, d)

/-- `printAsync(i, x, y, alpha, delay)`. -/
def printImageAsync (d : MicroBitDisplay) (i : MicroBitImage) (x y alpha delay : Int) :
    Option (Answer × MicroBitDisplay) :=
  if delay < 0 then some (.invalidParameter, d)
  else if d.isFree then do
    let r ← paste d.image i (int16 x) (int16 y) (alpha % 256).toNat
    let d := { d with image := r.2 }
    if 0 < delay then
      some (.ok, { d with
        animationDelay := uint16 delay, animationTick := 0, animationMode := .printCharacter })
    else some (.ok, d)
  else some (.busy, d)

/-- `scrollAsync(s, delay)`. -/
def scrollTextAsync (d : MicroBitDisplay) (s : ManagedString) (delay : Int) :
    Option (Answer × MicroBitDisplay) :=
  if delay ≤ 0 then some (.invalidParameter, d)
  else if d.isFree then
    some (.ok, { d with
      scrollingPosition := displayWidth - 1, scrollingChar := 0, scrollingText := s,
      animationDelay := uint16 delay, animationTick := 0, animationMode := .scrollText })
  else some (.busy, d)

/-- `scrollAsync(image, delay, stride)`. -/
def scrollImageAsync (d : MicroBitDisplay) (i : MicroBitImage) (delay stride : Int) :
    Option (Answer × MicroBitDisplay) :=
  if delay ≤ 0 then some (.invalidParameter, d)
  else if d.isFree then
    some (.ok, { d with
      scrollingImagePosition := int16 (if stride < 0 then displayWidth else -i.width),
      scrollingImageStride := int8 stride, scrollingImage := i, scrollingImageRendered := false,
      animationDelay := uint16 (if stride = 0 then 0 else delay), animationTick := 0,
      animationMode := .scrollImage })
  else some (.busy, d)

/-- `animateAsync(image, delay, stride, startingPosition, autoClear)`. -/
def animateAsync (d : MicroBitDisplay) (i : MicroBitImage)
    (delay stride startingPosition autoClear : Int) : Option (Answer × MicroBitDisplay) :=
  if delay ≤ 0 then some (.invalidParameter, d)
  else if d.isFree then
    let stride := -stride
    some (.ok, { d with
      scrollingImagePosition := int16 (if startingPosition = animateDefaultPos then
        displayWidth + stride else startingPosition),
      scrollingImageStride := int8 stride, scrollingImage := i, scrollingImageRendered := false,
      animationDelay := uint16 (if stride = 0 then 0 else delay),
      animationTick := uint16 (delay - 1),
      animationMode := if autoClear = 0 then .animateImage else .animateImageWithClear })
  else some (.busy, d)

/-- The call that is made. -/
def perform (d : MicroBitDisplay) : Call → Option (Answer × MicroBitDisplay)
  | .printChar c delay => d.printCharAsync c delay
  | .printText s delay => d.printTextAsync s delay
  | .printImage i x y alpha delay => d.printImageAsync i x y alpha delay
  | .scrollText s delay => d.scrollTextAsync s delay
  | .scrollImage i delay stride => d.scrollImageAsync i delay stride
  | .animateImage i delay stride start autoClear => d.animateAsync i delay stride start autoClear

/-! ## 3. The updates -/

/-- `animationMode = ANIMATION_MODE_NONE` and `sendAnimationCompleteEvent()`. -/
def finish (d : MicroBitDisplay) : MicroBitDisplay × List Event :=
  ({ d with animationMode := .none }, [.complete, .free false])

end MicroBitDisplay

/-- The character for the place `i` of a text: a blank behind its end. -/
def charOf (s : ManagedString) (i : Nat) : UInt8 := if i < s.length then s.charAt i else 32

namespace MicroBitDisplay

/-- **`updateScrollText()`.** -/
def updateScrollText (d : MicroBitDisplay) : Option (MicroBitDisplay × List Event) := do
  let r ← shiftLeft d.image 1
  let d := { d with image := r.2, scrollingPosition := (d.scrollingPosition + 1) % 256 }
  if d.scrollingPosition = displayWidth + displaySpacing then
    let r ← print d.font d.image (charOf d.scrollingText d.scrollingChar) displayWidth 0
    let d := { d with image := r.2, scrollingPosition := 0 }
    if d.scrollingText.length < d.scrollingChar then some d.finish
    else some ({ d with scrollingChar := (d.scrollingChar + 1) % 65536 }, [])
  else some (d, [])

/-- `updatePrintText()`. -/
def updatePrintText (d : MicroBitDisplay) : Option (MicroBitDisplay × List Event) := do
  let r ← print d.font d.image (charOf d.printingText d.printingChar) 0 0
  let d := { d with image := r.2 }
  if d.printingText.length < d.printingChar then some d.finish
  else some ({ d with printingChar := (d.printingChar + 1) % 65536 }, [])

/-- `updateScrollImage()`. -/
def updateScrollImage (d : MicroBitDisplay) : Option (MicroBitDisplay × List Event) := do
  let r ← paste (clear d.image) d.scrollingImage d.scrollingImagePosition 0 0
  let d := { d with image := r.2 }
  if (r.1 = 0 ∧ d.scrollingImageRendered) ∨ d.scrollingImageStride = 0 then some d.finish
  else some ({ d with
    scrollingImagePosition := int16 (d.scrollingImagePosition + d.scrollingImageStride),
    scrollingImageRendered := true }, [])

/-- `updateAnimateImage()`. -/
def updateAnimateImage (d : MicroBitDisplay) : Option (MicroBitDisplay × List Event) :=
  if d.scrollingImagePosition ≤ -d.scrollingImage.width + (displayWidth + d.scrollingImageStride) ∧
      d.scrollingImageRendered then
    let image := if d.animationMode = .animateImageWithClear then clear d.image else d.image
    some { d with image := image }.finish
  else do
    let r ← (if 0 < d.scrollingImagePosition then shiftLeft d.image (-d.scrollingImageStride)
      else some (.ok, d.image))
    let r ← paste r.2 d.scrollingImage d.scrollingImagePosition 0 0
    let d' := { d with
      image := r.2, scrollingImageRendered := true,
      scrollingImagePosition := int16 (d.scrollingImagePosition + d.scrollingImageStride) }
    some (if d.scrollingImageStride = 0 then d'.finish else (d', []))

/-- The update of the animation that goes on. -/
def update (d : MicroBitDisplay) : Option (MicroBitDisplay × List Event) :=
  match d.animationMode with
  | .scrollText => d.updateScrollText
  | .printText => d.updatePrintText
  | .scrollImage => d.updateScrollImage
  | .animateImage => d.updateAnimateImage
  | .animateImageWithClear => d.updateAnimateImage
  | .printCharacter => some d.finish
  | .none => some (d, [])
  | .stopped => some (d, [])

/-- **`animationUpdate()`**, with `system_timer_get_period()` in milliseconds. -/
def animationUpdate (period : Nat) (d : MicroBitDisplay) :
    Option (MicroBitDisplay × List Event) :=
  if d.animationMode = .none then some (d, [])
  else
    let d := { d with animationTick := (d.animationTick + period) % 65536 }
    if d.animationDelay ≤ d.animationTick then { d with animationTick := 0 }.update
    else some (d, [])

/-- `stopAnimation()`. -/
def stopAnimation (d : MicroBitDisplay) : MicroBitDisplay × List Event :=
  if d.animationMode = .none then ({ d with image := clear d.image }, [])
  else ({ d with animationMode := .none, image := clear d.image }, [.complete, .free true])

end MicroBitDisplay

/-! ## 4. The machine -/

/-- What can happen to a display. -/
inductive Action where
  | tick
  | call (c : Call)
  | stopAnimation
  | clear

/-- A tick of the timer, or what a fiber does. -/
def step (period : Nat) (d : MicroBitDisplay) : Action → Option (MicroBitDisplay × List Event)
  | .tick => (d.animationUpdate period).map fun r => (r.1, .ticked :: r.2)
  | .call c => (d.perform c).map fun r =>
      (r.2, if d.isFree ∧ ¬ r.2.isFree then [.started c, .answered r.1] else [.answered r.1])
  | .stopAnimation => some d.stopAnimation
  | .clear => some ({ d with image := clear d.image }, [])

/-- **The display**, with the period of the system timer. -/
def machine (font : MicroBitFont) (period : Nat) : Machine MicroBitDisplay Action Event where
  start := .initial font
  step := step period

end MicrobitAlarm.Display
