/-
  File:      MicrobitAlarm/Properties/Replay.lean
  Subject:   A REPLAY IS THE RECORDED LINES, EXECUTED.

  A script is stored as one flat string and cut into lines again by the loop of `alarm()`, one
  character at a time. Behind `c` characters the loop has called `processline` on the lines that
  end there, so at its end on all lines of the script, and these are the lines that were recorded.

  * `replayInv_run` -- the calls made so far, in every state of every run;
  * `replay_eq_live` -- the alarm behind a recording calls `processline` on the recorded lines, in
    order, each once, with the actions they have when main executes them.
-/
import MicrobitAlarm.Properties.Recording
import MicrobitAlarm.Runs.Progress

namespace MicrobitAlarm

open Trace Framing

/-! ## 1. The calls of a replay -/

/-- A call of `processline` by `alarm()`: the line and the actions. -/
def Event.call : Event → Option (ManagedString × List Action)
  | .replayed l as => some (l, as)
  | _ => none

/-- A call of `processline` by `main`. -/
def Event.pass : Event → Option (ManagedString × List Action)
  | .line _ l _ as => some (l, as)
  | _ => none

/-- The calls made by `alarm()`, in order. -/
def calls (tr : List Event) : List (ManagedString × List Action) := tr.filterMap Event.call

/-- The calls made by `main`, in order. -/
def passes (tr : List Event) : List (ManagedString × List Action) := tr.filterMap Event.pass

/-- The replay under way: its script and its calls so far. -/
def readRunning (r : Option (ManagedString × List (ManagedString × List Action))) :
    Event → Option (ManagedString × List (ManagedString × List Action))
  | .alarm _ _ s => some (s, [])
  | .replayed l as => r.map fun q => (q.1, q.2 ++ [(l, as)])
  | .returned => none
  | _ => r

/-- **The replay under way at the end of a trace.** -/
def running (tr : List Event) : Option (ManagedString × List (ManagedString × List Action)) :=
  tr.foldl readRunning none

theorem running_append (tr ev : List Event) :
    running (tr ++ ev) = ev.foldl readRunning (running tr) := List.foldl_append

/-- What an event says about the replay under way before it. -/
def InReplay (pre : List Event) : Event → Prop
  | .alarm _ _ _ => running pre = none
  | .line _ _ _ _ => running pre = none
  | .returned => ∃ s r, running pre = some (s, r) ∧ r.map (·.1.data) = frames newline s.data ∧
      ∀ q ∈ r, q.2 = liveActions q.1
  | _ => True

/-- **Behind `c` characters the lines that end there have been replayed.** -/
structure ReplayInv (b : Board) (tr : List Event) : Prop where
  events : Always InReplay tr
  inside : ∀ p, b.pc.position = some p → ∃ r, running tr = some (b.globals.recscr, r) ∧
    r.map (·.1.data) = frames newline (b.globals.recscr.data.take p.1) ∧
    ∀ q ∈ r, q.2 = liveActions q.1
  outside : b.pc.position = none → running tr = none

variable {b b' : Board} {tr ev : List Event}

/-- A step outside a replay that calls nothing. -/
theorem ReplayInv.away (hi : ReplayInv b tr) (hpc : b.pc.position = none)
    (hpc' : b'.pc.position = none) (he : ev.foldl readRunning none = none)
    (hin : Always (fun pre e => InReplay (tr ++ pre) e) ev) : ReplayInv b' (tr ++ ev) := by
  have hn := hi.outside hpc
  refine ⟨always_append.mpr ⟨hi.events, hin⟩, fun p h => ?_, fun _ => ?_⟩
  · rw [hpc'] at h
    cases h
  · rw [running_append, hn, he]

/-- A step that leaves the replay alone, if there is one. -/
theorem ReplayInv.other (hi : ReplayInv b tr) (hpc : b'.pc.position = b.pc.position)
    (hg : b'.globals.recscr = b.globals.recscr) (he : ∀ r, ev.foldl readRunning r = r)
    (hin : Always (fun pre e => InReplay (tr ++ pre) e) ev) : ReplayInv b' (tr ++ ev) := by
  refine ⟨always_append.mpr ⟨hi.events, hin⟩, fun p h => ?_, fun h => ?_⟩
  · rw [running_append, he, hg]
    exact hi.inside p (hpc ▸ h)
  · rw [running_append, he]
    exact hi.outside (hpc ▸ h)

/-- The main fiber moves on. -/
theorem replayInv_move {pc : Pc} (hsi : ScriptInv b) (hi : ReplayInv b tr) (h : b.Move pc) :
    ReplayInv { b with pc := pc } (tr ++ []) := by
  have hstay : ∀ q : Pc, b.pc.position = none → q.position = none →
      ReplayInv { b with pc := q } (tr ++ []) :=
    fun q h1 h2 => hi.away h1 h2 rfl always_nil
  have hin : ∀ (q : Pc) c, q.position.map (·.1) = some c →
      (∃ r, running tr = some (b.globals.recscr, r) ∧
        r.map (·.1.data) = frames newline (b.globals.recscr.data.take c) ∧
        ∀ x ∈ r, x.2 = liveActions x.1) → ReplayInv { b with pc := q } (tr ++ []) := by
    intro q c hq hr
    rw [List.append_nil]
    refine ⟨hi.events, fun p hp => ?_, fun hp => ?_⟩
    · have hp' : q.position = some p := hp
      rw [hp'] at hq
      obtain rfl : p.1 = c := Option.some.inj hq
      exact hr
    · have hp' : q.position = none := hp
      rw [hp'] at hq
      cases hq
  cases h with
  | start h => exact hstay _ (by rw [h]; rfl) rfl
  | @character c line line' h hc hp =>
      obtain ⟨r, hr, hf, ha⟩ := hi.inside (c, line.data) (by rw [h]; rfl)
      obtain ⟨_, hrest⟩ := hsi.position (c, line.data) (by rw [h]; rfl)
      -- a character that ends no line
      have hsame := (rest_of_char hsi.script hc hrest hp).1
      exact hin _ (c + 1) rfl ⟨r, hr, hsame ▸ hf, ha⟩
  | @lineOver wake c h hw => exact hin _ c rfl (hi.inside (c, []) (by rw [h]; rfl))
  | @replayOn wake c h hw => exact hin _ c rfl (hi.inside (c, []) (by rw [h]; rfl))
  | bytes h hs => exact hstay _ (by rw [h]; rfl) rfl
  | noBytes h hs => exact hstay _ (by rw [h]; rfl) rfl
  | unsent h hs => exact hstay _ (by rw [h]; rfl) rfl
  | sent h hw hs => exact hstay _ (by rw [h]; rfl) rfl
  | innerOn h hw => exact hstay _ (by rw [h]; rfl) rfl
  | @replayPanic c line h hc hp =>
      exact absurd hp (alarmPass_ne_none hsi.script hc
        (hsi.position (c, line.data) (by rw [h]; rfl)).2)
  | appendPanic h hl => exact hstay _ (by rw [h]; rfl) rfl
  | noMemory ha => exact hi.other rfl rfl (fun _ => rfl) always_nil

/-- **Every step keeps the replay exact.** -/
theorem replayInv_step (hsi : ScriptInv b) (hi : ReplayInv b tr) (hs : b.Step b' ev) :
    ReplayInv b' (tr ++ ev) := by
  have hone : ∀ e, InReplay tr e → Always (fun pre e => InReplay (tr ++ pre) e) [e] := fun e h =>
    always_singleton.mpr (by rw [List.append_nil]; exact h)
  cases hs with
  | move h => exact replayInv_move hsi hi h
  | elapse ms => exact hi.other rfl rfl (fun _ => rfl) always_nil
  | write data hu =>
      refine hi.other rfl rfl (fun r => ?_) ?_
      · exact foldl_receipts (fun _ _ => rfl) (fun _ _ => rfl) r _
      · exact always_receipts (fun _ _ => trivial) (fun _ _ => trivial) _
  | connect queued hu => exact hi.other rfl rfl (fun _ => rfl) (hone _ trivial)
  | disconnect queued hu => exact hi.other rfl rfl (fun _ => rfl) (hone _ trivial)
  | enableUpdates on hu => exact hi.other rfl rfl (fun _ => rfl) always_nil
  | confirm ha => exact hi.other rfl rfl (fun _ => rfl) (hone _ trivial)
  | handler hd hv => exact hi.other rfl rfl (fun _ => rfl) (hone _ trivial)
  | accepted h hu hx => exact hi.away (by rw [h]; rfl) rfl rfl (hone _ trivial)
  | refused h ha => exact hi.away (by rw [h]; rfl) rfl rfl (hone _ trivial)
  | outer h => exact hi.away (by rw [h]; rfl) rfl rfl (hone _ trivial)
  | declare h hw => exact hi.away (by rw [h]; rfl) rfl rfl always_nil
  | inner h hc => exact hi.away (by rw [h]; rfl) rfl rfl (hone _ trivial)
  | leave h hc => exact hi.away (by rw [h]; rfl) rfl rfl (hone _ trivial)
  | alarm h hd =>
      have he : running tr = none := hi.outside (by rw [h]; rfl)
      refine ⟨always_snoc.mpr ⟨hi.events, he⟩, fun p hp => ?_, (fun h => by cases h)⟩
      cases hp
      rw [running_append]
      exact ⟨[], rfl, by simp, List.forall_mem_nil _⟩
  | noAlarm h hd => exact hi.away (by rw [h]; rfl) rfl rfl (hone _ trivial)
  | @replayed c line line' out h hc hp =>
      obtain ⟨r, hr, hf, ha⟩ := hi.inside (c, line.data) (by rw [h]; rfl)
      obtain ⟨_, hrest⟩ := hsi.position (c, line.data) (by rw [h]; rfl)
      obtain ⟨_, has, hg⟩ := alarmPass_live hsi.script hc hrest hp
      have hpos : (b.afterCall out.actions (c + 1)).position = some (c + 1, []) := by
        unfold Board.afterCall
        split <;> rfl
      refine ⟨always_snoc.mpr ⟨hi.events, trivial⟩, fun p hp' => ?_, fun hp' => ?_⟩
      · obtain rfl : (c + 1, []) = p := Option.some.inj (hpos.symm.trans hp')
        rw [running_append, hr, hg]
        refine ⟨r ++ [(line', out.actions)], rfl, ?_, fun q hq => ?_⟩
        · rw [(rest_of_call hsi.script hc hrest hp).1, List.map_append, hf]
          rfl
        · rcases List.mem_append.mp hq with hq | hq
          · exact ha q hq
          · rw [List.mem_singleton.mp hq]
            exact has
      · rw [show (b.afterCall out.actions (c + 1)).position = none from hp'] at hpos
        cases hpos
  | @returned c line h hc =>
      obtain ⟨r, hr, hf, ha⟩ := hi.inside (c, line.data) (by rw [h]; rfl)
      obtain ⟨hle, _⟩ := hsi.position (c, line.data) (by rw [h]; rfl)
      rw [List.take_of_length_le (Nat.not_lt.mp hc)] at hf
      refine ⟨always_snoc.mpr ⟨hi.events, ⟨_, r, hr, hf, ha⟩⟩, (fun _ h => by cases h),
        fun _ => ?_⟩
      rw [running_append]
      rfl
  | taken h hs => exact hi.away (by rw [h]; rfl) rfl rfl (hone _ trivial)
  | fill h hs =>
      refine hi.away ?_ rfl rfl always_nil
      rcases h with ⟨h, _⟩ | ⟨h, _⟩ <;> rw [h] <;> rfl
  | grown h hl hn => exact hi.away (by rw [h]; rfl) rfl rfl always_nil
  | linePanic h hl hp =>
      exact hi.away (by rw [h]; rfl) rfl rfl (hone _ (hi.outside (by rw [h]; rfl)))
  | lineSleeps h hl hp hs =>
      exact hi.away (by rw [h]; rfl) rfl rfl (hone _ (hi.outside (by rw [h]; rfl)))
  | line h hl hp hs =>
      exact hi.away (by rw [h]; rfl) rfl rfl (hone _ (hi.outside (by rw [h]; rfl)))
  | lineWoken h hw => exact hi.away (by rw [h]; rfl) rfl rfl always_nil

theorem replayInv_run (h : firmware.Run b tr) : ReplayInv b tr :=
  firmware_inv ⟨always_nil, (fun _ h => by cases h), fun _ => rfl⟩
    (fun _ _ _ _ hr _ hi hs => replayInv_step (scriptInv_run hr) hi hs) h

/-! ## 2. Record, then replay -/

/-- Until it returns, the calls behind an alarm are those of its replay. -/
theorem running_calls (pre mid post : List Event) {t : Nat} {rm : Bool} {s : ManagedString}
    (h : Always InReplay (pre ++ .alarm t rm s :: (mid ++ post))) (hr : .returned ∉ mid) :
    running (pre ++ .alarm t rm s :: mid) = some (s, calls mid) := by
  induction mid using List.reverseRecOn generalizing post with
  | nil => rw [running_append]; rfl
  | append_singleton mid e ih =>
      rw [List.append_assoc] at h
      have ih := ih ([e] ++ post) h fun hm => hr (List.mem_append_left _ hm)
      have he := h (pre ++ .alarm t rm s :: mid) e post (by simp)
      have hsplit : calls (mid ++ [e]) = calls mid ++ calls [e] := List.filterMap_append
      rw [show pre ++ Event.alarm t rm s :: (mid ++ [e]) = (pre ++ .alarm t rm s :: mid) ++ [e] by
        simp, running_append, ih, hsplit]
      cases e with
      | alarm t' rm' s' =>
          rw [show running _ = none from he] at ih
          cases ih
      | returned => exact absurd (List.mem_append_right _ List.mem_cons_self) hr
      | _ => simp [readRunning, Event.call, calls]

/-- Lines passed in a recording are added to its script. -/
theorem script_of_recording {l : Ledger} {seg : List Event} (ho : l.opened.isSome = true)
    (hseg : ∀ x ∈ passed seg, isControl x.data = false) :
    (seg.foldl Ledger.read l).script = l.script ++ passed seg := by
  induction seg generalizing l with
  | nil => exact (List.append_nil _).symm
  | cons e seg ih =>
      rw [List.foldl_cons]
      cases e with
      | line t x rm as =>
          have hx : isControl x.data = false := hseg x List.mem_cons_self
          have ih := ih (l := { l with script := l.script ++ [x] }) ho
            fun y hy => hseg y (List.mem_cons_of_mem _ hy)
          rw [ledger_plain hx, if_pos ho, ih, List.append_assoc]
          rfl
      | _ => exact ih ho hseg

/-- Lines passed outside a recording, none of them an 'a' line, leave the script. -/
theorem script_of_closed {l : Ledger} {seg : List Event} (ho : l.opened = none)
    (hseg : ∀ x ∈ passed seg, isArm x.data = false) :
    (seg.foldl Ledger.read l).script = l.script := by
  induction seg generalizing l with
  | nil => rfl
  | cons e seg ih =>
      rw [List.foldl_cons]
      cases e with
      | line t x rm as =>
          have hx : isArm x.data = false := hseg x List.mem_cons_self
          have hrest : ∀ y ∈ passed seg, isArm y.data = false :=
            fun y hy => hseg y (List.mem_cons_of_mem _ hy)
          cases he : isEnd x.data with
          | true =>
              rw [ledger_end he]
              exact ih rfl hrest
          | false =>
              have hc : isControl x.data = false := by simp [isControl, hx, he]
              rw [ledger_plain hc, ho]
              exact ih ho hrest
      | _ => exact ih ho hseg

/-- Lines that main passes outside a recording, none of them a control line, are executed. -/
theorem passes_of_closed {pre seg post : List Event}
    (h : firmware.Run b (pre ++ (seg ++ post))) (ho : (ledger pre).opened = none)
    (hseg : ∀ x ∈ passed seg, isControl x.data = false) :
    passes seg = (passed seg).map fun l => (l, liveActions l) := by
  have hag := agrees_run h
  clear h
  induction seg generalizing pre with
  | nil => rfl
  | cons e seg ih =>
      have hA := hag pre e (seg ++ post) rfl
      have ih := @ih (pre ++ [e])
      rw [ledger_snoc, List.append_assoc] at ih
      cases e with
      | line t x rm as =>
          have hx : isControl x.data = false := hseg x List.mem_cons_self
          obtain ⟨hrm, _, has⟩ := hA
          rw [ho] at hrm
          rw [ledger_plain hx, ho] at ih
          show (x, as) :: passes seg = (x, liveActions x) :: _
          rw [ih ho (fun y hy => hseg y (List.mem_cons_of_mem _ hy)) hag, has hrm hx]
          rfl
      | _ => exact ih ho hseg hag

/-- The calls of a replay, from the lines of its script. -/
theorem calls_of_frames {r : List (ManagedString × List Action)} {ls : List ManagedString}
    (hf : r.map (·.1.data) = ls.map (·.data)) (ha : ∀ q ∈ r, q.2 = liveActions q.1) :
    r = ls.map fun l => (l, liveActions l) := by
  induction r generalizing ls with
  | nil =>
      cases ls with
      | nil => rfl
      | cons l ls => cases hf
  | cons q r ih =>
      cases ls with
      | nil => cases hf
      | cons l ls =>
          simp only [List.map_cons, List.cons.injEq] at hf
          obtain ⟨hq, hf⟩ := hf
          have hl : q.1 = l := ManagedString.ext hq
          have hq2 : q.2 = liveActions q.1 := ha q List.mem_cons_self
          rw [ih hf fun x hx => ha x (List.mem_cons_of_mem _ hx), List.map_cons, ← hl, ← hq2]

/-- **Record, then replay, is the same as live.** Let main process an 'a' line, then the lines of
    `tr₁`, none of them a control line, then an 'e' line, and let the next 'a' line be behind the
    next alarm. Then this alarm calls `processline` on exactly the lines of `tr₁`, in order, each
    with the actions it has in any run that passes the same lines outside a recording; and as long
    as it has not returned, and no `malloc` has failed, time and steps of the main fiber bring it
    there. -/
theorem replay_eq_live {pre tr₁ tr₂ tr₃ : List Event} {t₀ t₁ t₂ : Nat} {a e s : ManagedString}
    {rm₀ rm₁ rm₂ : Bool} {as₀ as₁ : List Action}
    (h : firmware.Run b (pre ++ .line t₀ a rm₀ as₀ ::
      (tr₁ ++ .line t₁ e rm₁ as₁ :: (tr₂ ++ .alarm t₂ rm₂ s :: tr₃))))
    (ha : isArm a.data = true) (he : isEnd e.data = true)
    (h₁ : ∀ l ∈ passed tr₁, isControl l.data = false)
    (h₂ : ∀ l ∈ passed tr₂, isArm l.data = false) :
    (∀ ev post, tr₃ = ev ++ .returned :: post → .returned ∉ ev →
      calls ev = (passed tr₁).map fun l => (l, liveActions l)) ∧
    (.returned ∉ tr₃ → b.pc.halted = false → ∃ acts b' ev, (∀ x ∈ acts, x.isQuiet = true) ∧
      firmware.exec b acts = some (b', ev ++ [.returned]) ∧ .returned ∉ ev ∧
      calls (tr₃ ++ ev) = (passed tr₁).map fun l => (l, liveActions l)) ∧
    (∀ b' pre' seg post', firmware.Run b' (pre' ++ (seg ++ post')) → (ledger pre').opened = none →
      passed seg = passed tr₁ → passes seg = (passed tr₁).map fun l => (l, liveActions l)) := by
  -- the script the alarm finds
  have hs : s.data = ((passed tr₁).map (·.data)).flatten := by
    have hA := agrees_run h (pre ++ .line t₀ a rm₀ as₀ :: (tr₁ ++ .line t₁ e rm₁ as₁ :: tr₂))
      (.alarm t₂ rm₂ s) tr₃ (by simp)
    rw [hA.2.2.2, ledger_append, List.foldl_cons, ledger_arm ha, List.foldl_append,
      List.foldl_cons, ledger_end he, Ledger.body, script_of_closed rfl h₂,
      script_of_recording rfl h₁]
    rfl
  -- it is cut into the lines it was made of
  have hfr : frames newline s.data = (passed tr₁).map (·.data) := by
    rw [hs]
    refine frames_of_flatten fun l hl => ?_
    obtain ⟨x, hx, rfl⟩ := List.mem_map.mp hl
    obtain ⟨ev, hev, hpass⟩ := List.mem_filterMap.mp hx
    obtain ⟨m₁, m₂, rfl⟩ := List.append_of_mem hev
    cases ev with
    | line t y rm as =>
        cases hpass
        have hA := agrees_run h (pre ++ .line t₀ a rm₀ as₀ :: m₁) (.line t x rm as)
          (m₂ ++ .line t₁ e rm₁ as₁ :: (tr₂ ++ .alarm t₂ rm₂ s :: tr₃)) (by simp)
        exact hA.2.1
    | _ => cases hpass
  have hret : ∀ (b' : Board) (ev post : List Event),
      firmware.Run b' (pre ++ .line t₀ a rm₀ as₀ :: (tr₁ ++ .line t₁ e rm₁ as₁ ::
        (tr₂ ++ .alarm t₂ rm₂ s :: (ev ++ .returned :: post)))) → .returned ∉ ev →
      calls ev = (passed tr₁).map fun l => (l, liveActions l) := by
    intro b' ev post hrun hno
    have hin := (replayInv_run hrun).events
    have hcalls := running_calls (pre ++ .line t₀ a rm₀ as₀ :: (tr₁ ++ .line t₁ e rm₁ as₁ :: tr₂))
      ev (.returned :: post) (by simpa using hin) hno
    obtain ⟨s', r, hr, hf, hl⟩ := hin (pre ++ .line t₀ a rm₀ as₀ :: (tr₁ ++
      .line t₁ e rm₁ as₁ :: tr₂) ++ .alarm t₂ rm₂ s :: ev) .returned post (by simp)
    rw [hcalls] at hr
    cases hr
    exact calls_of_frames (hf.trans hfr) hl
  refine ⟨fun ev post htr hno => hret b ev post (htr ▸ h) hno, fun hno hh => ?_,
    fun b' pre' seg post' h' ho hp => ?_⟩
  · have hin := (replayInv_run h).events
    have hcalls := running_calls (pre ++ .line t₀ a rm₀ as₀ :: (tr₁ ++ .line t₁ e rm₁ as₁ :: tr₂))
      tr₃ [] (by simpa using hin) hno
    have hpos : b.pc.position.isSome = true := by
      cases hpc : b.pc.position with
      | some p => rfl
      | none =>
          have hout := (replayInv_run h).outside hpc
          rw [show pre ++ .line t₀ a rm₀ as₀ :: (tr₁ ++ .line t₁ e rm₁ as₁ ::
            (tr₂ ++ .alarm t₂ rm₂ s :: tr₃)) = pre ++ .line t₀ a rm₀ as₀ :: (tr₁ ++
            .line t₁ e rm₁ as₁ :: tr₂) ++ .alarm t₂ rm₂ s :: tr₃ by simp, hcalls] at hout
          cases hout
    obtain ⟨acts, b', _, hq, hx, _, _, _, _, ev, rfl, hev⟩ :=
      replay_returns (scriptInv_run h) hpos hh
    refine ⟨acts, b', ev, hq, hx, hev, hret b' (tr₃ ++ ev) [] ?_ ?_⟩
    · have hrun := Machine.Run.exec h hx
      simpa using hrun
    · rw [List.mem_append]
      intro hm
      rcases hm with hm | hm
      · exact hno hm
      · exact hev hm
  · rw [← hp]
    exact passes_of_closed h' ho (hp ▸ h₁)

/-- "a99\n", "s9\n", an empty command, "e\n", and the alarm, 106 ms behind the 'e' line, turns the
    servo and makes a second call, which does nothing. -/
theorem replay_eq_live_run :
    ∃ b pre post,
      firmware.Run b (pre ++ .alarm 166 false ⟨[115, 57, 10, 10], by decide⟩ :: post) ∧
      calls post = [(⟨[115, 57, 10], by decide⟩, [.setServoValue 9 servoRange servoN, .sleep 30]),
        (⟨[10], by decide⟩, [])] := by
  have he : (firmware.exec firmware.start (boot ++ lineTurns [97, 57, 57, 10] ++ outerTurn ++
      lineTurns [115, 57, 10] ++ outerTurn ++ lineTurns [10] ++ outerTurn ++
      lineTurns [101, 10] ++ outerTurn ++ [.elapse 100, .main, .main, .main, .main, .main,
        .elapse 36, .main, tick, .main, .main, tick, .main, .main])).map Prod.snd = some
      (([.outer 0, .linkUp 1, .handled true, .stored 1 97, .stored 1 57, .stored 1 57, .stored 1 10,
        .inner 6, .polled 6, .taken 97, .inner 12, .polled 12, .taken 57, .inner 18, .polled 18,
        .taken 57, .inner 24, .polled 24, .taken 10] : List Event) ++
        .line 24 ⟨[97, 57, 57, 10], by decide⟩ false [] ::
      (([.outer 24, .stored 1 115, .stored 1 57, .stored 1 10, .inner 30, .polled 30, .taken 115,
        .inner 36, .polled 36, .taken 57, .inner 42, .polled 42, .taken 10,
        .line 42 ⟨[115, 57, 10], by decide⟩ true [], .outer 42, .stored 1 10, .inner 48, .polled 48,
        .taken 10, .line 48 ⟨[10], by decide⟩ true [], .outer 48, .stored 1 101, .stored 1 10,
        .inner 54, .polled 54, .taken 101, .inner 60, .polled 60, .taken 10] : List Event) ++
        .line 60 ⟨[101, 10], by decide⟩ true [] ::
      (([.outer 60, .inner 166] : List Event) ++
        .alarm 166 false ⟨[115, 57, 10, 10], by decide⟩ ::
      (([.replayed ⟨[115, 57, 10], by decide⟩ [.setServoValue 9 servoRange servoN, .sleep 30],
        .replayed ⟨[10], by decide⟩ []] : List Event) ++ .returned :: [])))) := by decide +kernel
  obtain ⟨b, hr⟩ := Machine.run_of_trace he
  have h := (replay_eq_live hr (by decide) (by decide) (by decide) (by decide)).1 _ _ rfl
    (by decide)
  rw [← List.cons_append, ← List.append_assoc, ← List.cons_append, ← List.append_assoc] at hr
  refine ⟨b, _, _, hr, ?_⟩
  rw [calls, List.filterMap_append]
  exact (List.append_nil _).trans (h.trans (by decide +kernel))

end MicrobitAlarm
