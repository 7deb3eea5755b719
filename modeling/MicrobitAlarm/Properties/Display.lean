/-
  File:      MicrobitAlarm/Properties/Display.lean
  Subject:   WHAT THE DISPLAY SHOWS, FOR HOW LONG, AND THAT IT SAYS SO.

  An animation that is not stopped ends with the tick that its parameters give, in that tick
  alone, and what stands on the display until then is a window on one long picture. The fibers
  that wait for the display are told of each end, directly behind it.

  * `animations_alternate` -- begins and ends, and what a call is answered;
  * `ends_on_time` -- the tick in which an animation ends;
  * `scrolls_text`, `scrolls_image`, `animates_image`, `prints_text` -- what it shows at each tick
    before that;
  * `operations_stay_inside` -- what the operations of an image draw.
-/
import MicrobitAlarm.Runs.Film

namespace MicrobitAlarm.Display

open Raster Trace

variable {font : MicroBitFont} {period : Nat} {d d' : MicroBitDisplay} {tr ev : List Event}
  {c : Call} {as : List Action}

/-! ## 1. One animation after the other -/

/-- The call whose animation goes on after an event. -/
def Event.carries (c : Option Call) : Event → Option Call
  | .started c => some c
  | .complete => none
  | _ => c

/-- The call whose animation goes on. -/
def underway (tr : List Event) : Option Call := tr.foldl Event.carries none

theorem underway_append (tr ev : List Event) :
    underway (tr ++ ev) = ev.foldl Event.carries (underway tr) := List.foldl_append

/-- Whether it tells the fibers that wait that the display is free. -/
def Event.Frees : Event → Prop
  | .free _ => True
  | _ => False

/-- What is said of an event, with the events before it. -/
def InOrder (pre : List Event) (e : Event) : Prop :=
  (pre.getLast? = some .complete ↔ e.Frees) ∧
    match e with
    | .started _ => underway pre = none
    | .complete => underway pre ≠ none
    | .answered .busy => underway pre ≠ none
    | .answered .ok => underway pre = none ∨ ∃ c, pre.getLast? = some (.started c)
    | _ => True

/-- Nothing is said behind an end but that the display is free, and what goes on is known. -/
structure Told (d : MicroBitDisplay) (tr : List Event) : Prop where
  order : Always InOrder tr
  closed : tr.getLast? ≠ some .complete
  going : underway tr = none ↔ d.isFree

theorem Told.quiet {d d' : MicroBitDisplay} (h : Told d tr) {e : Event}
    (hmode : d'.isFree ↔ d.isFree) (hc : ∀ c, Event.carries c e = c) (he : e ≠ .complete)
    (ho : InOrder tr e) : Told d' (tr ++ [e]) where
  order := always_snoc.mpr ⟨h.order, ho⟩
  closed := by simpa using he
  going := by
    rw [underway_append, List.foldl_cons, List.foldl_nil, hc, hmode]
    exact h.going

/-- An animation ends. -/
theorem Told.ends {d d' : MicroBitDisplay} (h : Told d tr) {all : Bool} (hd : ¬ d.isFree)
    (hd' : d'.isFree) : Told d' (tr ++ [.complete, .free all]) where
  order := by
    rw [always_append, always_cons, always_singleton]
    refine ⟨h.order, ?_, ?_⟩
    · rw [List.append_nil]
      exact ⟨iff_of_false h.closed id, fun hc => hd (h.going.mp hc)⟩
    · exact ⟨iff_of_true (by simp) trivial, trivial⟩
  closed := by simp
  going := by
    rw [underway_append]
    exact iff_of_true rfl hd'

/-- An animation begins. -/
theorem Told.begins {d d' : MicroBitDisplay} (h : Told d tr) (hd : d.isFree) (hd' : ¬ d'.isFree) :
    Told d' (tr ++ [.started c, .answered .ok]) where
  order := by
    rw [always_append, always_cons, always_singleton]
    refine ⟨h.order, ?_, ?_⟩
    · rw [List.append_nil]
      exact ⟨iff_of_false h.closed id, h.going.mpr hd⟩
    · exact ⟨iff_of_false (by simp) id, .inr ⟨c, by simp⟩⟩
  closed := by simp
  going := by
    rw [underway_append]
    exact iff_of_false (by simp [Event.carries]) hd'

/-- A tick. -/
theorem told_tick {d d' : MicroBitDisplay} (hw : WellSet d) (h : Told d tr)
    (hs : (machine font period).step d .tick = some (d', ev)) : Told d' (tr ++ ev) := by
  change step period d .tick = some (d', ev) at hs
  have hticked : Told d (tr ++ [.ticked]) :=
    h.quiet Iff.rfl (fun _ => rfl) (by simp) ⟨iff_of_false h.closed id, trivial⟩
  by_cases hm : d.animationMode = .none
  · simp only [step, MicroBitDisplay.animationUpdate, if_pos hm, Option.map_some] at hs
    cases hs
    exact hticked
  · have hd : ¬ d.isFree := fun hc => hm ((isFree_iff hw).mp hc)
    obtain ⟨d₁, ev₁, he, hw₁, -, hoff⟩ := tick_spec period hw hm
    simp only [step, he, Option.map_some] at hs
    cases hs
    rcases hoff with ⟨hmode, rfl, -⟩ | ⟨hmode, rfl, -⟩
    · rw [List.append_cons]
      exact hticked.ends hd (.inl hmode)
    · refine h.quiet ?_ (fun _ => rfl) (by simp) ⟨iff_of_false h.closed id, trivial⟩
      unfold MicroBitDisplay.isFree
      rw [hmode]

/-- A call. -/
theorem told_call {d d' : MicroBitDisplay} (hw : WellSet d) (h : Told d tr)
    (hs : (machine font period).step d (.call c) = some (d', ev)) : Told d' (tr ++ ev) := by
  change step period d (.call c) = some (d', ev) at hs
  by_cases hb : d.isFree
  · obtain ⟨a, d₁, he, hbusy, -, hok⟩ := perform_free hw hb c
    simp only [step, he, Option.map_some] at hs
    by_cases hg : d₁.isFree
    · rw [if_neg (fun hc => hc.2 hg)] at hs
      cases hs
      refine h.quiet (iff_of_true hg hb) (fun _ => rfl) (by simp) ⟨iff_of_false h.closed id, ?_⟩
      cases a with
      | ok => exact .inl (h.going.mpr hb)
      | busy => exact absurd rfl hbusy
      | invalidParameter => trivial
    · rw [if_pos ⟨hb, hg⟩] at hs
      cases hs
      rw [hok hg]
      exact h.begins hb hg
  · obtain ⟨a, he, ha⟩ := perform_busy hb c
    simp only [step, he, Option.map_some] at hs
    rw [if_neg (fun hc => hb hc.1)] at hs
    cases hs
    refine h.quiet Iff.rfl (fun _ => rfl) (by simp) ⟨iff_of_false h.closed id, ?_⟩
    rcases ha with rfl | rfl
    · exact fun hc => hb (h.going.mp hc)
    · trivial

theorem told_run (hrun : (machine font period).Run d tr) : Told d tr := by
  induction hrun with
  | start => exact ⟨always_nil, by simp, iff_of_true rfl (.inl rfl)⟩
  | step d d' a tr ev hrun hs ih =>
      have hw := wellSet_of_run hrun
      cases a with
      | tick => exact told_tick hw ih hs
      | call c => exact told_call hw ih hs
      | stopAnimation =>
          change some d.stopAnimation = some (d', ev) at hs
          unfold MicroBitDisplay.stopAnimation at hs
          by_cases hm : d.animationMode = .none
          · rw [if_pos hm] at hs
            cases hs
            rw [List.append_nil]
            exact { ih with }
          · rw [if_neg hm] at hs
            cases hs
            exact ih.ends (fun hc => hm ((isFree_iff hw).mp hc)) (.inl rfl)
      | clear =>
          cases hs
          rw [List.append_nil]
          exact { ih with }

/-- **One animation after the other.** Begins and ends alternate, and one goes on exactly if the
    display is not free. A call is refused as busy only while one goes on, and answered with `ok`
    only if none did before it. Each end is followed at once by the event that the display is
    free, and nothing else by that event. -/
theorem animations_alternate (hrun : (machine font period).Run d tr) :
    Always InOrder tr ∧ tr.getLast? ≠ some .complete ∧ (underway tr = none ↔ d.isFree) :=
  have h := told_run hrun
  ⟨h.order, h.closed, h.going⟩

/-- The text "Hi". -/
def greeting : ManagedString := ⟨[72, 105], by decide⟩

/-- A text is scrolled, a character refused, and the text stopped. -/
theorem animations_alternate_run : ∃ d tr, (machine defaultFont 6).Run d tr ∧ tr.length = 6 ∧
    Always InOrder tr := by
  obtain ⟨d, tr, hrun, hlen⟩ := (machine defaultFont 6).exists_run_of_exec
    (fun _ tr => tr.length = 6)
    [.call (.scrollText greeting 120), .call (.printChar 65 0), .tick, .stopAnimation] (by decide)
  exact ⟨d, tr, hrun, hlen, (animations_alternate hrun).1⟩

/-! ## 2. When it ends -/

/-- **On time.** The animation that a call begins goes on, whatever is called meanwhile, until as
    many ticks have passed as the call's parameters give, and ends in the last of them. -/
theorem ends_on_time (hrun : (machine font period).Run d tr)
    (hcall : (machine font period).step d (.call c) = some (d', ev)) (hbegin : .started c ∈ ev)
    (ht : c.Timely period) (hstop : .stopAnimation ∉ as) :
    (ticksOf as < c.ticks period → ∃ d'' evs, (machine font period).exec d' as = some (d'', evs) ∧
        ¬ d''.isFree ∧ ∀ e ∈ evs, e.Inner) ∧
      (ticksOf as + 1 = c.ticks period → ∃ d'' evs,
        (machine font period).exec d' (as ++ [.tick]) =
          some (d'', evs ++ [.ticked, .complete, .free false]) ∧
        d''.isFree ∧ ∀ e ∈ evs, e.Inner) := by
  obtain ⟨hb, hg, a, he⟩ := begun_of_step hcall hbegin
  have hw' := wellSet_of_run (.step _ _ _ _ _ hrun hcall)
  have hm : d'.animationMode ≠ .none := fun hc => hg (.inl hc)
  obtain ⟨hd', -, hleft⟩ := perform_begun hb hg he ht
  have hgo : ticksOf as < c.ticks period → _ := fun hn =>
    exec_going font (fun _ => True) hw' hd' hm trivial hstop
      (fun _ _ _ => trivial) (fun _ _ _ _ _ _ _ _ => trivial) (hleft ▸ hn)
  refine ⟨fun hn => ?_, fun hn => ?_⟩
  · obtain ⟨d'', evs, hexec, hw'', -, hmode, -, -, hin⟩ := hgo hn
    exact ⟨d'', evs, hexec, fun hc => hm (hmode ▸ (isFree_iff hw'').mp hc), hin⟩
  · obtain ⟨d'', evs, hexec, hw'', hd'', hmode, hcount, -, hin⟩ := hgo (by omega)
    obtain ⟨e, hlast, hfree⟩ := tick_last hw'' hd'' (hmode ▸ hm) (by omega)
    exact ⟨e, evs, Machine.exec_append hexec (Machine.exec_singleton hlast), hfree, hin⟩

/-- "Hi" takes four hundred ticks, and is going on after the last but one. -/
theorem ends_on_time_run : (Call.scrollText greeting 120).ticks 6 = 400 ∧
    ∃ d ev, (machine defaultFont 6).step (.initial defaultFont) (.call (.scrollText greeting 120)) =
      some (d, ev) ∧ ∃ d' evs,
        (machine defaultFont 6).exec d (List.replicate 399 .tick ++ [.tick]) =
          some (d', evs ++ [.ticked, .complete, .free false]) := by
  refine ⟨by decide, _, _, rfl, ?_⟩
  have hcall : (machine defaultFont 6).step (.initial defaultFont)
      (.call (.scrollText greeting 120)) = some _ := rfl
  obtain ⟨d', evs, he, -⟩ := (ends_on_time .start hcall List.mem_cons_self
    ⟨by decide, by decide, trivial⟩
    (not_mem_ticks (by simp) 399)).2 (by rw [ticksOf_replicate]; decide)
  exact ⟨d', evs, he⟩

/-! ## 3. What it shows -/

/-- The display after some ticks, by what its updates carry on. -/
theorem shows_after (lead : Nat) (Shows : Nat → MicroBitDisplay → Prop)
    (hrun : (machine font period).Run d tr)
    (hcall : (machine font period).step d (.call c) = some (d', ev)) (hbegin : .started c ∈ ev)
    (ht : c.Timely period) (hstop : .stopAnimation ∉ as) (hclear : .clear ∉ as)
    (hcount : ∀ n d t, Shows n d → Shows n { d with animationTick := t })
    (hupdate : ∀ n d d', WellSet d → Shows n d → d.update = some (d', []) → Shows (n + 1) d')
    (h0 : Shows 0 d') (hdelay : d'.animationDelay = c.delay)
    (hticks : c.ticks period + lead = c.updates * ticksFor period c.delay)
    (hn : ticksOf as < c.ticks period) :
    ∃ d'' evs, (machine font period).exec d' as = some (d'', evs) ∧ WellSet d'' ∧
      (ticksOf as + lead) / ticksFor period c.delay + updatesLeft d'' = c.updates ∧
      Shows ((ticksOf as + lead) / ticksFor period c.delay) d'' := by
  obtain ⟨hb, hg, a, he⟩ := begun_of_step hcall hbegin
  obtain ⟨hd', hu, hleft⟩ := perform_begun hb hg he ht
  have hper : ticksPerUpdate period d' = ticksFor period c.delay := by
    unfold ticksPerUpdate
    rw [hdelay]
  have hshows := exec_shows font Shows (wellSet_of_run (.step _ _ _ _ _ hrun hcall)) hd'
    (fun hc => hg (.inl hc)) hstop hclear hcount hupdate h0 hu (by rw [hleft, hticks, hper])
    (hleft ▸ hn)
  rwa [hper] at hshows

variable {s : ManagedString} {i : MicroBitImage} {delay stride start autoClear : Int}

/-- **A scrolled text.** At each tick the display is a window on the picture of the text: as many
    columns on as updates have been made. -/
theorem scrolls_text (hrun : (machine font period).Run d tr)
    (hcall : (machine font period).step d (.call (.scrollText s delay)) = some (d', ev))
    (hbegin : .started (.scrollText s delay) ∈ ev)
    (ht : (Call.scrollText s delay).Timely period) (hstop : .stopAnimation ∉ as)
    (hclear : .clear ∉ as) (hn : ticksOf as < (Call.scrollText s delay).ticks period) :
    ∃ d'' evs, (machine font period).exec d' as = some (d'', evs) ∧ ∀ x < 5, ∀ y < 5,
      pixel d''.image (x : Nat) (y : Nat) =
        film d.font s d.image (x + ticksOf as / ticksFor period (uint16 delay)) y := by
  obtain ⟨hb, hg, a, he⟩ := begun_of_step hcall hbegin
  obtain ⟨-, rfl⟩ := guards_of_begun hb hg he
  obtain ⟨d'', evs, hexec, hw'', hdone, hshows⟩ := shows_after 0 (Filmed d.font s d.image) hrun
    hcall hbegin ht hstop hclear (fun _ _ _ h => { h with })
    (fun _ _ _ hw h hup => filmed_update hw h hup)
    { mode := rfl, text := rfl, turns := rfl, font := rfl,
      shows := fun x hx y hy => by
        split
        · rename_i hlt
          rw [film_of_lt _ _ _ (by simpa using hlt)]
          rfl
        · rfl } rfl rfl hn
  refine ⟨d'', evs, hexec, fun x hx y hy => ?_⟩
  have hturns := hshows.turns
  have hpos := hw''.position
  unfold displayWidth at hpos
  rw [hshows.shows x (by omega) y hy]
  exact if_pos (by unfold Call.delay at *; omega)

/-- After three updates the H of "Hi" begins to come in. -/
theorem scrolls_text_run : ∃ d ev, (machine defaultFont 6).step (.initial defaultFont)
      (.call (.scrollText greeting 120)) = some (d, ev) ∧ ∃ d' evs,
    (machine defaultFont 6).exec d (List.replicate 60 .tick) = some (d', evs) ∧
      ∀ y < 5, pixel d'.image (4 : Nat) (y : Nat) = 255 := by
  have hcall : (machine defaultFont 6).step (.initial defaultFont)
      (.call (.scrollText greeting 120)) = some _ := rfl
  refine ⟨_, _, hcall, ?_⟩
  obtain ⟨d', evs, he, hshows⟩ := scrolls_text .start hcall List.mem_cons_self
    ⟨by decide, by decide, trivial⟩ (not_mem_ticks (by simp) 60) (not_mem_ticks (by simp) 60)
    (by rw [ticksOf_replicate]; decide)
  refine ⟨d', evs, he, fun y hy => ?_⟩
  rw [hshows 4 (by decide) y hy, ticksOf_replicate]
  revert y
  decide

/-- **A scrolled image.** At each tick after the first update it stands as many strides from its
    first place as updates have been made since, whole and alone on the display. -/
theorem scrolls_image (hrun : (machine font period).Run d tr)
    (hcall : (machine font period).step d (.call (.scrollImage i delay stride)) = some (d', ev))
    (hbegin : .started (.scrollImage i delay stride) ∈ ev)
    (ht : (Call.scrollImage i delay stride).Timely period) (hstop : .stopAnimation ∉ as)
    (hclear : .clear ∉ as) (hn : ticksOf as < (Call.scrollImage i delay stride).ticks period) :
    ∃ d'' evs, (machine font period).exec d' as = some (d'', evs) ∧ ∀ x < 5, ∀ y < 5,
      pixel d''.image (x : Nat) (y : Nat) =
        slide i stride (if stride < 0 then displayWidth else -i.width) d.image
          (ticksOf as / ticksFor period (Call.scrollImage i delay stride).delay)
          (x : Nat) (y : Nat) := by
  obtain ⟨hb, hg, a, he⟩ := begun_of_step hcall hbegin
  obtain ⟨-, rfl⟩ := guards_of_begun hb hg he
  obtain ⟨hi, h1, h2⟩ := ht.2.2
  have hmem : -32512 ≤ (if stride < 0 then (displayWidth : Int) else -i.width) ∧
      (if stride < 0 then (displayWidth : Int) else -i.width) ≤ 32512 := by
    unfold displayWidth
    split <;> omega
  have hplace : int16 (if stride < 0 then (displayWidth : Int) else -i.width) =
      (if stride < 0 then (displayWidth : Int) else -i.width) + (0 : Nat) * stride := by
    rw [int16_of_mem (by omega) (by omega), Int.natCast_zero, Int.zero_mul, Int.add_zero]
  obtain ⟨d'', evs, hexec, -, -, hshows⟩ := shows_after 0
    (Sliding i stride (if stride < 0 then displayWidth else -i.width) d.image) hrun hcall hbegin ht
    hstop hclear (fun _ _ _ h => { h with })
    (fun _ _ _ hw h hup => sliding_update hi hmem.1 hmem.2 hw h hup)
    { mode := rfl, shown := rfl, moves := int8_of_mem h1 h2, place := hplace,
      first := fun _ => rfl, shows := fun x hx y hy => rfl } rfl rfl hn
  exact ⟨d'', evs, hexec, fun x hx y hy => hshows.shows x (by omega) y hy⟩

/-- One lit pixel. -/
def dot : MicroBitImage := ⟨1, 1, ⟨[255], rfl⟩⟩

/-- The pixel comes in from the right. -/
theorem scrolls_image_run : ∃ d ev, (machine defaultFont 6).step (.initial defaultFont)
      (.call (.scrollImage dot 120 (-1))) = some (d, ev) ∧ ∃ d' evs,
    (machine defaultFont 6).exec d (List.replicate 60 .tick) = some (d', evs) ∧
      pixel d'.image (3 : Nat) (0 : Nat) = 255 := by
  have hcall : (machine defaultFont 6).step (.initial defaultFont)
      (.call (.scrollImage dot 120 (-1))) = some _ := rfl
  refine ⟨_, _, hcall, ?_⟩
  obtain ⟨d', evs, he, hshows⟩ := scrolls_image .start hcall List.mem_cons_self
    ⟨by decide, by decide, by decide⟩ (not_mem_ticks (by simp) 60)
    (not_mem_ticks (by simp) 60) (by rw [ticksOf_replicate]; decide)
  refine ⟨d', evs, he, ?_⟩
  rw [hshows 3 (by decide) 0 (by decide), ticksOf_replicate]
  decide

/-- **An animated image.** From the first tick on, and at each tick before its end, it stands as
    many strides to the left of its first place as updates have been made since, over what was
    there. -/
theorem animates_image (hrun : (machine font period).Run d tr)
    (hcall : (machine font period).step d (.call (.animateImage i delay stride start autoClear)) =
      some (d', ev)) (hbegin : .started (.animateImage i delay stride start autoClear) ∈ ev)
    (ht : (Call.animateImage i delay stride start autoClear).Timely period)
    (hstop : .stopAnimation ∉ as) (hclear : .clear ∉ as)
    (hn : ticksOf as < (Call.animateImage i delay stride start autoClear).ticks period) :
    ∃ d'' evs, (machine font period).exec d' as = some (d'', evs) ∧ ∀ k x y,
      ticksOf as ⌈/⌉ ticksFor period
        (Call.animateImage i delay stride start autoClear).delay = k + 1 →
      Under displayWidth displayHeight i (int16 (startOf stride start + k * -stride)) 0 x y →
      pixel d''.image x y =
        pixel i.bitmap (x - int16 (startOf stride start + k * -stride)) y := by
  obtain ⟨hb, hg, a, he⟩ := begun_of_step hcall hbegin
  obtain ⟨-, rfl⟩ := guards_of_begun hb hg he
  obtain ⟨hi, h1, h2, h3, h4⟩ := ht.2.2
  have hplace : int16 (if start = animateDefaultPos then displayWidth + -stride else start) =
      int16 (startOf stride start + (0 : Nat) * -stride) := by
    rw [Int.natCast_zero, Int.zero_mul, Int.add_zero]
    rfl
  have hdelay : uint16 (if -stride = 0 then 0 else delay) =
      uint16 (if stride = 0 then 0 else delay) := by
    rw [if_congr (show -stride = 0 ↔ stride = 0 by omega) rfl rfl]
  obtain ⟨d'', evs, hexec, -, -, hshows⟩ := shows_after
    (ticksFor period (Call.animateImage i delay stride start autoClear).delay - 1)
    (Framed i (-stride) (startOf stride start)) hrun hcall hbegin ht
    hstop hclear (fun _ _ _ h => { h with }) (fun _ _ _ hw h hup => framed_update h hup)
    { mode := animating_mode autoClear, shown := rfl, place := hplace,
      moves := int8_of_mem (by omega) (by omega), shows := fun k hk => absurd hk (by omega) }
    hdelay (animation_ticks period i delay stride start autoClear) hn
  refine ⟨d'', evs, hexec, fun k x y hk hu => hshows.shows k ?_ x y ?_⟩
  · rw [← hk, Nat.ceilDiv_eq_add_pred_div, Nat.add_sub_assoc (ticksFor_pos _ _)]
  · unfold Under displayWidth displayHeight at *
    omega

/-- The first tick shows the pixel at the right edge. -/
theorem animates_image_run : ∃ d ev, (machine defaultFont 6).step (.initial defaultFont)
      (.call (.animateImage dot 120 1 animateDefaultPos 0)) = some (d, ev) ∧ ∃ d' evs,
    (machine defaultFont 6).exec d (List.replicate 1 .tick) = some (d', evs) ∧
      pixel d'.image 4 0 = 255 := by
  have hcall : (machine defaultFont 6).step (.initial defaultFont)
      (.call (.animateImage dot 120 1 animateDefaultPos 0)) = some _ := rfl
  refine ⟨_, _, hcall, ?_⟩
  obtain ⟨d', evs, he, hshows⟩ := animates_image .start hcall List.mem_cons_self
    ⟨by decide, by decide, by decide⟩ (not_mem_ticks (by simp) 1)
    (not_mem_ticks (by simp) 1) (by rw [ticksOf_replicate]; decide)
  refine ⟨d', evs, he, ?_⟩
  rw [hshows 0 4 0 (by decide) (by decide)]
  decide

/-- **A printed text.** At each tick the last character stands there that the font has. -/
theorem prints_text (hrun : (machine font period).Run d tr)
    (hcall : (machine font period).step d (.call (.printText s delay)) = some (d', ev))
    (hbegin : .started (.printText s delay) ∈ ev)
    (ht : (Call.printText s delay).Timely period) (hstop : .stopAnimation ∉ as)
    (hclear : .clear ∉ as) (hn : ticksOf as < (Call.printText s delay).ticks period) :
    ∃ d'' evs, (machine font period).exec d' as = some (d'', evs) ∧ ∀ x < 5, ∀ y < 5,
      pixel d''.image (x : Nat) (y : Nat) =
        page d.font s d.image (ticksOf as / ticksFor period (uint16 delay)) x y := by
  obtain ⟨hb, hg, a, he⟩ := begun_of_step hcall hbegin
  simp only [MicroBitDisplay.perform, MicroBitDisplay.printTextAsync] at he
  by_cases h1 : s.length = 1
  · rw [if_pos h1] at he
    obtain ⟨h0, -⟩ := printChar_begun hb hg he
    exact absurd h0 (Int.lt_irrefl 0)
  · rw [if_neg h1] at he
    obtain ⟨-, rfl⟩ := guards_of_begun hb hg he
    obtain ⟨d'', evs, hexec, -, -, hshows⟩ := shows_after 0 (Paged d.font s d.image) hrun hcall
      hbegin ht hstop hclear (fun _ _ _ h => { h with })
      (fun _ _ _ hw h hup => paged_update hw h hup)
      { mode := rfl, text := rfl, turns := rfl, font := rfl, shows := fun x hx y hy => rfl }
      rfl rfl hn
    exact ⟨d'', evs, hexec, hshows.shows⟩

/-- After one update the H of "Hi" stands there. -/
theorem prints_text_run : ∃ d ev, (machine defaultFont 6).step (.initial defaultFont)
      (.call (.printText greeting 120)) = some (d, ev) ∧ ∃ d' evs,
    (machine defaultFont 6).exec d (List.replicate 20 .tick) = some (d', evs) ∧
      ∀ y < 5, pixel d'.image (0 : Nat) (y : Nat) = 255 := by
  have hcall : (machine defaultFont 6).step (.initial defaultFont)
      (.call (.printText greeting 120)) = some _ := rfl
  refine ⟨_, _, hcall, ?_⟩
  obtain ⟨d', evs, he, hshows⟩ := prints_text .start hcall List.mem_cons_self
    ⟨by decide, by decide, trivial⟩ (not_mem_ticks (by simp) 20) (not_mem_ticks (by simp) 20)
    (by rw [ticksOf_replicate]; decide)
  refine ⟨d', evs, he, fun y hy => ?_⟩
  rw [hshows 0 (by decide) y hy, ticksOf_replicate]
  revert y
  decide

/-! ## 4. The operations of an image -/

/-- **The operations stay inside the bitmap and draw what they say**, whatever the size of the
    image. A shift moves the picture and leaves zeros; rows are copied in the order in which none
    is overwritten before it is read. Pasting draws what of the other image is in this one, and
    answers zero only if nothing is; printing draws what of the character is. -/
theorem operations_stay_inside {w h : Nat} (b : Bitmap w h) :
    (∀ n : Int, 0 < n →
      (∃ b', shiftLeft b n = some (.ok, b') ∧ Moved b b' n 0) ∧
      (∃ b', shiftRight b n = some (.ok, b') ∧ Moved b b' (-n) 0) ∧
      (∃ b', shiftUp b n = some (.ok, b') ∧ Moved b b' 0 n) ∧
      ∃ b', shiftDown b n = some (.ok, b') ∧ Moved b b' 0 (-n)) ∧
    (∀ (image : MicroBitImage) (x y : Int) (alpha : Nat), ∃ n b',
      paste b image x y alpha = some (n, b') ∧ Pasted b b' image x y alpha ∧
        (alpha = 0 → (n = 0 ↔ ∀ px py, ¬ Under w h image x y px py))) ∧
    ∀ (font : MicroBitFont) (c : UInt8) (x y : Nat), ∃ r b',
      print font b c x y = some (r, b') ∧ Printed font b b' c x y :=
  ⟨fun _ hn => ⟨moved_shiftLeft b hn, moved_shiftRight b hn, moved_shiftUp b hn,
    moved_shiftDown b hn⟩, pixel_paste b, fun font => pixel_print font b⟩

end MicrobitAlarm.Display
