/-
  File:      MicrobitAlarm/Runs/Film.lean
  Subject:   WHAT AN ANIMATION SHOWS, update by update.

  * `exec_shows` -- **what each update carries on holds after as many updates as the ticks make**;
  * `film`, `Filmed` -- a scrolled text as one long picture, and the display as a window on it;
  * `slide`, `Sliding` -- a scrolled image, which stands one stride further with each update;
  * `Framed` -- an animated image, whose frames lie over what was there;
  * `page`, `Paged` -- a printed text.
-/
import MicrobitAlarm.Runs.Display

namespace MicrobitAlarm.Display

open Raster Trace

/-! ## 1. Updates and ticks -/

theorem ticksFor_mono (period : Nat) {a b : Nat} (h : a ≤ b) :
    ticksFor period a ≤ ticksFor period b := by
  have : a ⌈/⌉ period ≤ b ⌈/⌉ period := by
    rw [Nat.ceilDiv_eq_add_pred_div, Nat.ceilDiv_eq_add_pred_div]
    exact Nat.div_le_div_right (by omega)
  unfold ticksFor
  omega

/-- **The updates that are done** after some ticks of an animation. -/
theorem updates_done {period u t : Nat} {d : MicroBitDisplay} (hw : WellSet d)
    (hm : d.animationMode ≠ .none)
    (h : ticksLeft period d + t = u * ticksPerUpdate period d) :
    t / ticksPerUpdate period d + updatesLeft d = u := by
  have hpos := updatesLeft_pos hw hm
  have h1 : 0 < ticksToUpdate period d := ticksFor_pos _ _
  have h2 : ticksToUpdate period d ≤ ticksPerUpdate period d := ticksFor_mono _ (Nat.sub_le _ _)
  rw [ticksLeft_eq hpos] at h
  obtain ⟨l, hl⟩ : ∃ l, updatesLeft d = l + 1 := ⟨updatesLeft d - 1, by omega⟩
  rw [hl, Nat.add_sub_cancel] at h
  have hlt : l < u := Nat.lt_of_mul_lt_mul_right (a := ticksPerUpdate period d) (by omega)
  obtain ⟨k, rfl⟩ := Nat.exists_eq_add_of_lt hlt
  rw [show l + k + 1 = l + (k + 1) by omega, Nat.add_mul, Nat.succ_mul] at h
  have hk : t / ticksPerUpdate period d = k :=
    Nat.div_eq_of_lt_le (by omega) (by rw [Nat.succ_mul]; omega)
  omega

/-- A tick after which the animation goes on has counted, or done one of the updates. -/
theorem goes_on {period : Nat} {d d' : MicroBitDisplay} (hw : WellSet d)
    (hm : d.animationMode ≠ .none) (h : d.animationUpdate period = some (d', [])) :
    (∃ t, d' = { d with animationTick := t }) ∨
      MicroBitDisplay.update { d with animationTick := 0 } = some (d', []) := by
  rcases animationUpdate_cases period hw hm with ⟨t, -, he, -⟩ | ⟨he, -⟩
  · rw [he] at h
    cases h
    exact .inl ⟨t, rfl⟩
  · exact .inr (he.symm.trans h)

/-- **What each update carries on**, counted by `n`, holds after as many updates as the ticks
    make: all but the first take the ticks of a delay, the first one `lead` less. -/
theorem exec_shows (font : MicroBitFont) {period u lead : Nat} {as : List Action}
    {d : MicroBitDisplay} (Shows : Nat → MicroBitDisplay → Prop) (hw : WellSet d)
    (ht : Timely period d) (hm : d.animationMode ≠ .none) (hstop : .stopAnimation ∉ as)
    (hclear : .clear ∉ as)
    (hcount : ∀ n d t, Shows n d → Shows n { d with animationTick := t })
    (hupdate : ∀ n d d', WellSet d → Shows n d → d.update = some (d', []) → Shows (n + 1) d')
    (h0 : Shows 0 d) (hu : updatesLeft d = u)
    (hleft : ticksLeft period d + lead = u * ticksPerUpdate period d)
    (hn : ticksOf as < ticksLeft period d) :
    ∃ d' ev, (machine font period).exec d as = some (d', ev) ∧ WellSet d' ∧
      (ticksOf as + lead) / ticksPerUpdate period d + updatesLeft d' = u ∧
      Shows ((ticksOf as + lead) / ticksPerUpdate period d) d' := by
  obtain ⟨d', ev, he, hw', -, hm', hleft', ⟨hdelay, n, hn', hshows⟩, -⟩ := exec_going font
    (fun x => x.animationDelay = d.animationDelay ∧ ∃ n, n + updatesLeft x = u ∧ Shows n x)
    hw ht hm ⟨rfl, 0, by omega, h0⟩ hstop (fun hc => absurd hc hclear)
    (by
      rintro x x' hx htx hmx ⟨hdelay, n, hleft, hshows⟩ he hmode
      rcases goes_on hx hmx he with ⟨t, rfl⟩ | hup
      · exact ⟨hdelay, n, hleft, hcount n x t hshows⟩
      · have hx0 : WellSet { x with animationTick := 0 } :=
          { hx with tick := (Nat.eq_zero_or_pos _).symm, tickBound := by simp }
        obtain ⟨y, ev, hy, -, hsame, hoff⟩ := update_spec hx0 hmx
        rw [hup] at hy
        cases hy
        rcases hoff with ⟨-, hev, -⟩ | ⟨-, -, hone⟩
        · cases hev
        · have hone : updatesLeft x = updatesLeft x' + 1 := hone htx.fits
          exact ⟨hsame.delay.trans hdelay, n + 1, by omega,
            hupdate n _ x' hx0 (hcount n x 0 hshows) hup⟩)
    hn
  have hper : ticksPerUpdate period d' = ticksPerUpdate period d := by
    unfold ticksPerUpdate
    rw [hdelay]
  have hdone := updates_done (u := u) hw' (hm' ▸ hm) (by rw [← Nat.add_assoc, hleft', hleft, hper])
  rw [hper] at hdone
  refine ⟨d', ev, he, hw', hdone, ?_⟩
  rwa [show (ticksOf as + lead) / ticksPerUpdate period d = n by omega]

/-! ## 2. A scrolled text -/

/-- **A scrolled text as one long picture**: what the image held, with the characters drawn into
    it from the eighth column on, one column apart. -/
def film (font : MicroBitFont) (s : ManagedString) (b : Screen) (c y : Nat) : UInt8 :=
  if 7 ≤ c ∧ (c - 7) % 6 < 5 ∧ font.has (charOf s ((c - 7) / 6)) then
    font.glyph (charOf s ((c - 7) / 6)) ((c - 7) % 6) y
  else pixel b c y

theorem film_of_lt (font : MicroBitFont) (s : ManagedString) (b : Screen) {c : Nat} (hc : c < 7)
    (y : Nat) : film font s b c y = pixel b c y := if_neg fun h => by omega

/-- The display after `n` updates of a scrolled text: a window on the picture, as far as it is
    drawn. -/
structure Filmed (font : MicroBitFont) (s : ManagedString) (b : Screen) (n : Nat)
    (d : MicroBitDisplay) : Prop where
  mode : d.animationMode = .scrollText
  text : d.scrollingText = s
  turns : 6 * d.scrollingChar + d.scrollingPosition = n + 4
  shows : ∀ x < 10, ∀ y < 5, pixel d.image (x : Nat) (y : Nat) =
    if x + n < 7 + 6 * d.scrollingChar then film font s b (x + n) y else pixel b (x + n : Nat) y
  font : d.font = font

/-- What a column more brings in. -/
theorem filmed_moved {font : MicroBitFont} {s : ManagedString} {b b' : Screen} {n : Nat}
    {d : MicroBitDisplay} (h : Filmed font s b n d) (hm : Moved d.image b' 1 0) {x y : Nat}
    (hx : x < 10) (hy : y < 5) : pixel b' (x : Nat) (y : Nat) =
      if x + (n + 1) < 7 + 6 * d.scrollingChar then film font s b (x + (n + 1)) y
      else pixel b (x + (n + 1) : Nat) y := by
  have hz : pixel b' (x : Nat) (y : Nat) = pixel d.image (x + 1 : Nat) (y : Nat) := by
    rw [hm, if_pos (by unfold displayWidth displayHeight; omega), Int.add_zero]
    rfl
  rw [hz]
  rcases Nat.lt_or_eq_of_le (Nat.succ_le_of_lt hx) with hlt | heq
  · rw [h.shows (x + 1) hlt y hy, show x + 1 + n = x + (n + 1) by omega]
  · -- the column that comes in is empty, as the image is out there
    have hout : ∀ k : Nat, 10 ≤ k → pixel b k y = 0 := fun k hk =>
      pixel_outside b (by unfold displayWidth; omega)
    have hturns := h.turns
    rw [pixel_outside d.image (by unfold displayWidth; omega)]
    split
    · unfold film
      rw [if_neg fun hc => by omega, hout _ (by omega)]
    · exact (hout _ (by omega)).symm

/-- **An update of a scrolled text** moves the window by one column. -/
theorem filmed_update {font : MicroBitFont} {s : ManagedString} {b : Screen} {n : Nat}
    {d d' : MicroBitDisplay} (hw : WellSet d) (h : Filmed font s b n d)
    (hup : d.update = some (d', [])) : Filmed font s b (n + 1) d' := by
  have hturns := h.turns
  have hupd : d.updateScrollText = some (d', []) := by
    rw [← hup]
    simp only [MicroBitDisplay.update, h.mode]
  obtain ⟨b₁, hm, ⟨hpos, he⟩ | ⟨hpos, b₂, hp, ⟨-, he⟩ | ⟨-, he⟩⟩⟩ := updateScrollText_cases hw
  · rw [he] at hupd
    cases hupd
    exact { mode := h.mode, text := h.text, font := h.font,
            turns := by simp only; omega,
            shows := fun x hx y hy => filmed_moved h hm hx hy }
  · rw [he] at hupd
    cases hupd
  · -- a character more: it stands in the right half, and all of the image is drawn
    rw [he] at hupd
    cases hupd
    unfold displayWidth at hpos
    refine { mode := h.mode, text := h.text, font := h.font,
             turns := show 6 * (d.scrollingChar + 1) + 0 = n + 1 + 4 by omega,
             shows := fun x hx y hy => ?_ }
    change pixel b₂ x y = if x + (n + 1) < 7 + 6 * (d.scrollingChar + 1) then _ else _
    rw [if_pos (by omega), hp, h.font, h.text, filmed_moved h hm hx hy]
    rcases Nat.lt_or_ge x 5 with hlt | hge
    · rw [if_neg (by unfold displayWidth; omega), if_pos (by omega)]
    · rw [if_neg (show ¬ x + (n + 1) < 7 + 6 * d.scrollingChar by omega), film,
        show (x + (n + 1) - 7) % 6 = x - 5 by omega,
        show (x + (n + 1) - 7) / 6 = d.scrollingChar by omega]
      refine if_congr ?_ ?_ rfl
      · unfold displayWidth displayHeight
        constructor
        · rintro ⟨hhas, -⟩
          exact ⟨by omega, by omega, hhas⟩
        · rintro ⟨-, -, hhas⟩
          exact ⟨hhas, by omega⟩
      · congr 1
        unfold displayWidth
        omega

/-! ## 3. A scrolled image -/

/-- **A scrolled image** after some updates: one stride further with each. -/
def slide (i : MicroBitImage) (stride start : Int) (b : Screen) (n : Nat) (x y : Int) : UInt8 :=
  match n with
  | 0 => pixel b x y
  | n + 1 => pixel i.bitmap (x - (start + n * stride)) y

/-- The display after `n` updates of a scrolled image. -/
structure Sliding (i : MicroBitImage) (stride start : Int) (b : Screen) (n : Nat)
    (d : MicroBitDisplay) : Prop where
  mode : d.animationMode = .scrollImage
  shown : d.scrollingImage = i
  moves : d.scrollingImageStride = stride
  place : d.scrollingImagePosition = start + n * stride
  first : d.scrollingImageRendered = false → n = 0
  shows : ∀ x < 10, ∀ y < 5,
    pixel d.image (x : Nat) (y : Nat) = slide i stride start b n (x : Nat) (y : Nat)

/-- **An update of a scrolled image** moves it by one stride. -/
theorem sliding_update {i : MicroBitImage} {stride start : Int} {b : Screen} {n : Nat}
    {d d' : MicroBitDisplay} (hi : i.width ≤ 32512) (h1 : -32512 ≤ start) (h2 : start ≤ 32512)
    (hw : WellSet d) (h : Sliding i stride start b n d) (hup : d.update = some (d', [])) :
    Sliding i stride start b (n + 1) d' := by
  have hupd : d.updateScrollImage = some (d', []) := by
    rw [← hup]
    simp only [MicroBitDisplay.update, h.mode]
  obtain ⟨b₁, hp, ⟨-, he⟩ | ⟨hgo, -, he⟩⟩ := updateScrollImage_cases d
  · rw [he] at hupd
    cases hupd
  · rw [he] at hupd
    cases hupd
    have hstride := h.moves ▸ hw.stride
    rw [h.shown, h.place] at hp hgo
    -- it reaches into the display, or stands where it begins
    have hmem : -32600 ≤ start + n * stride ∧ start + n * stride ≤ 32600 := by
      rcases hgo with ⟨-, -, hl, hr⟩ | hf
      · unfold displayWidth at hr
        omega
      · rw [h.first hf]
        omega
    refine { mode := h.mode, shown := h.shown, moves := h.moves, place := ?_,
             first := fun hc => Bool.noConfusion hc, shows := fun x hx y hy => ?_ }
    · change int16 (d.scrollingImagePosition + d.scrollingImageStride) = _
      rw [h.place, h.moves, int16_of_mem (by omega) (by omega), Int.natCast_add, Int.add_mul,
        Int.add_assoc]
      simp
    · change pixel b₁ x y = pixel i.bitmap (x - (start + n * stride)) y
      rw [hp, Int.sub_zero]
      split
      · rfl
      · rename_i hno
        have hun : ¬ Under (displayWidth * 2) displayHeight i (start + n * stride) 0 x y :=
          fun hc => hno ⟨hc, .inl rfl⟩
        unfold Under displayWidth displayHeight at hun
        rw [pixel_outside i.bitmap (by omega), clear, pixel_zeros]

/-! ## 4. An animated image -/

theorem int16_add (a b : Int) : int16 (int16 a + b) = int16 (a + b) := by
  unfold int16
  omega

/-- The display after `n` updates of an animated image: as far as the image reaches into the
    display, it stands there whole. -/
structure Framed (i : MicroBitImage) (stride start : Int) (n : Nat) (d : MicroBitDisplay) :
    Prop where
  mode : d.animationMode = .animateImage ∨ d.animationMode = .animateImageWithClear
  shown : d.scrollingImage = i
  moves : d.scrollingImageStride = stride
  place : d.scrollingImagePosition = int16 (start + n * stride)
  shows : ∀ k, n = k + 1 → ∀ x y, Under 10 5 i (int16 (start + k * stride)) 0 x y →
    pixel d.image x y = pixel i.bitmap (x - int16 (start + k * stride)) y

/-- **An update of an animated image** pastes the next frame. -/
theorem framed_update {i : MicroBitImage} {stride start : Int} {n : Nat} {d d' : MicroBitDisplay}
    (h : Framed i stride start n d) (hup : d.update = some (d', [])) :
    Framed i stride start (n + 1) d' := by
  have hupd : d.updateAnimateImage = some (d', []) := by
    rw [← hup]
    rcases h.mode with hm | hm <;> simp only [MicroBitDisplay.update, hm]
  obtain ⟨b₀, b, hp, ⟨-, -, he⟩ | ⟨-, ⟨-, he⟩ | ⟨-, he⟩⟩⟩ := updateAnimateImage_cases d
  · rw [he] at hupd
    cases hupd
  · rw [he] at hupd
    cases hupd
  · rw [he] at hupd
    cases hupd
    rw [h.shown, h.place] at hp
    refine { mode := h.mode, shown := h.shown, moves := h.moves, place := ?_,
             shows := fun k hk x y hu => ?_ }
    · change int16 (d.scrollingImagePosition + d.scrollingImageStride) = _
      rw [h.place, h.moves, int16_add, Int.natCast_add, Int.add_mul, Int.add_assoc]
      simp
    · obtain rfl : n = k := by omega
      change pixel b x y = _
      rw [hp, if_pos ⟨hu, .inl rfl⟩, Int.sub_zero]

/-! ## 5. A printed text -/

/-- What stands on the display after `n` characters: the last one the font has. -/
def page (font : MicroBitFont) (s : ManagedString) (b : Screen) (n x y : Nat) : UInt8 :=
  match n with
  | 0 => pixel b x y
  | n + 1 =>
    if font.has (charOf s n) then font.glyph (charOf s n) x y else page font s b n x y

/-- The display after `n` updates of a printed text. -/
structure Paged (font : MicroBitFont) (s : ManagedString) (b : Screen) (n : Nat)
    (d : MicroBitDisplay) : Prop where
  mode : d.animationMode = .printText
  text : d.printingText = s
  turns : d.printingChar = n
  shows : ∀ x < 5, ∀ y < 5, pixel d.image (x : Nat) (y : Nat) = page font s b n x y
  font : d.font = font

theorem paged_update {font : MicroBitFont} {s : ManagedString} {b : Screen} {n : Nat}
    {d d' : MicroBitDisplay} (hw : WellSet d) (h : Paged font s b n d)
    (hup : d.update = some (d', [])) : Paged font s b (n + 1) d' := by
  have hupd : d.updatePrintText = some (d', []) := by
    rw [← hup]
    simp only [MicroBitDisplay.update, h.mode]
  obtain ⟨b₁, hp, ⟨-, he⟩ | ⟨-, he⟩⟩ := updatePrintText_cases hw
  · rw [he] at hupd
    cases hupd
  · rw [he] at hupd
    cases hupd
    refine { mode := h.mode, text := h.text, turns := congrArg (· + 1) h.turns, font := h.font,
             shows := fun x hx y hy => ?_ }
    change pixel b₁ x y = page font s b (n + 1) x y
    rw [hp, h.font, h.text, h.turns, h.shows x hx y hy, page]
    refine if_congr ?_ ?_ rfl
    · unfold displayWidth displayHeight
      constructor
      · exact fun hc => hc.1
      · exact fun hc => ⟨hc, by omega⟩
    · congr 1

end MicrobitAlarm.Display
