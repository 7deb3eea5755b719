/-
  File:      MicrobitAlarm/Lib/Trace.lean
  Subject:   MACHINES WITH ACTIONS AND REPORTED EVENTS, their runs, and what holds of the
             events of a run.

  A machine takes one step per action and reports events with it. A RUN is a reached state with
  everything reported on the way, so a statement about the past of a system is a statement
  about the events of its run, and the state stays free of history variables.

  * `Machine.Run`, `Machine.Run.inv` -- the runs and the induction over them: what holds at the
    start and is kept by one step holds of every run;
  * `Machine.exec`, `Machine.run_of_exec` -- a list of actions executed one after the other, and
    that it is a run (for explicit runs);
  * `Always P tr` -- every event of `tr`, seen with the events before it, satisfies `P`;
    `always_append` is the law the induction over runs needs.
-/
import Mathlib.Data.List.Basic

namespace Trace

/-- A machine: where it starts, and what an action does to it and reports. -/
structure Machine (σ α ε : Type) where
  start : σ
  step : σ → α → Option (σ × List ε)

namespace Machine

variable {σ α ε : Type} (M : Machine σ α ε)

/-! ## 1. Runs -/

/-- **A run**: a reached state with the events reported on the way, oldest first. -/
inductive Run : σ → List ε → Prop where
  | start : Run M.start []
  | step (s s' : σ) (a : α) (tr ev : List ε) (h : Run s tr) (hs : M.step s a = some (s', ev)) :
      Run s' (tr ++ ev)

variable {M}

/-- **The induction over runs**: an invariant of state and events that holds at the start and is
    kept by every step of a run holds of every run. -/
theorem Run.inv {I : σ → List ε → Prop} (h0 : I M.start [])
    (hstep : ∀ s tr a s' ev, M.Run s tr → I s tr → M.step s a = some (s', ev) → I s' (tr ++ ev))
    {s : σ} {tr : List ε} (h : M.Run s tr) : I s tr := by
  induction h with
  | start => exact h0
  | step s s' a tr ev h hs ih => exact hstep s tr a s' ev h ih hs

variable (M)

/-- The actions of a list, one after the other. -/
def exec : σ → List α → Option (σ × List ε)
  | s, [] => some (s, [])
  | s, a :: as =>
    match M.step s a with
    | none => none
    | some (s', ev) =>
      match exec s' as with
      | none => none
      | some (s'', evs) => some (s'', ev ++ evs)

variable {M}

theorem exec_cons {s s' : σ} {a : α} {as : List α} {ev : List ε}
    (h : M.step s a = some (s', ev)) :
    M.exec s (a :: as) = (M.exec s' as).map fun r => (r.1, ev ++ r.2) := by
  simp only [exec, h]
  cases M.exec s' as <;> rfl

theorem exec_singleton {s s' : σ} {a : α} {ev : List ε} (h : M.step s a = some (s', ev)) :
    M.exec s [a] = some (s', ev) := by
  rw [exec_cons h]
  simp [exec]

/-- What executing a list of actions comes to: its first action, then the rest. -/
theorem exec_cons_eq_some {s s'' : σ} {a : α} {as : List α} {evs : List ε}
    (h : M.exec s (a :: as) = some (s'', evs)) :
    ∃ s' ev ev', M.step s a = some (s', ev) ∧ M.exec s' as = some (s'', ev') ∧
      evs = ev ++ ev' := by
  cases hs : M.step s a with
  | none => simp [exec, hs] at h
  | some r =>
      rw [exec_cons hs] at h
      obtain ⟨q, hq, heq⟩ := Option.map_eq_some_iff.mp h
      cases heq
      exact ⟨r.1, r.2, q.2, rfl, hq, rfl⟩

/-- Two lists of actions in a row. -/
theorem exec_append {s s' s'' : σ} {as bs : List α} {ev evs : List ε}
    (h1 : M.exec s as = some (s', ev)) (h2 : M.exec s' bs = some (s'', evs)) :
    M.exec s (as ++ bs) = some (s'', ev ++ evs) := by
  induction as generalizing s ev with
  | nil =>
      cases h1
      exact h2
  | cons a as ih =>
      obtain ⟨s₁, e₁, e₂, hs, he, rfl⟩ := exec_cons_eq_some h1
      rw [List.cons_append, exec_cons hs, ih he, List.append_assoc]
      rfl

/-- **Executed actions prolong a run.** -/
theorem Run.exec {s s' : σ} {tr ev : List ε} {as : List α} (h : M.Run s tr)
    (he : M.exec s as = some (s', ev)) : M.Run s' (tr ++ ev) := by
  induction as generalizing s tr ev with
  | nil =>
      cases he
      rwa [List.append_nil]
  | cons a as ih =>
      obtain ⟨s₁, e₁, e₂, hs, hq, rfl⟩ := exec_cons_eq_some he
      rw [← List.append_assoc]
      exact ih (.step _ _ _ _ _ h hs) hq

theorem run_of_exec {s : σ} {tr : List ε} {as : List α} (h : M.exec M.start as = some (s, tr)) :
    M.Run s tr := by
  simpa using Run.exec .start h

/-- An explicit run, given by what it reports. -/
theorem run_of_trace {tr : List ε} {as : List α}
    (h : (M.exec M.start as).map Prod.snd = some tr) : ∃ s, M.Run s tr := by
  obtain ⟨⟨s, tr'⟩, he, rfl⟩ := Option.map_eq_some_iff.mp h
  exact ⟨s, run_of_exec he⟩

variable (M)

/-- An explicit run, given by what can be computed of its end and its events. -/
theorem exists_run_of_exec (P : σ → List ε → Prop) [∀ s tr, Decidable (P s tr)] (as : List α)
    (h : (M.exec M.start as).any (fun r => decide (P r.1 r.2)) = true) :
    ∃ s tr, M.Run s tr ∧ P s tr := by
  cases he : M.exec M.start as with
  | none => rw [he] at h; cases h
  | some r =>
      rw [he] at h
      exact ⟨r.1, r.2, run_of_exec he, of_decide_eq_true h⟩

end Machine

/-! ## 2. What holds of every event of a trace, seen with its past -/

variable {ε : Type}

/-- Where an event of a trace stands: it is the last one, or before the last one. -/
theorem snoc_eq_append_cons {tr pre post : List ε} {x e : ε} (h : tr ++ [x] = pre ++ e :: post) :
    (tr = pre ∧ x = e ∧ post = []) ∨ ∃ post', tr = pre ++ e :: post' ∧ post = post' ++ [x] := by
  rcases List.eq_nil_or_concat post with rfl | ⟨post', y, rfl⟩
  · obtain ⟨htr, hx⟩ := List.append_inj' h rfl
    exact .inl ⟨htr, List.singleton_inj.mp hx, rfl⟩
  · rw [List.concat_eq_append, ← List.cons_append, ← List.append_assoc] at h
    obtain ⟨htr, hx⟩ := List.append_inj' h rfl
    exact .inr ⟨post', htr, by rw [List.concat_eq_append, List.singleton_inj.mp hx]⟩

/-- **Every event of the trace satisfies `P` together with the events before it.** -/
def Always (P : List ε → ε → Prop) (tr : List ε) : Prop :=
  ∀ pre e post, tr = pre ++ e :: post → P pre e

variable {P : List ε → ε → Prop} {tr ev : List ε}

theorem always_nil : Always P ([] : List ε) := by
  intro pre e post h
  simp at h

/-- **The law of `Always` over a step**: the events of the step are seen with the whole trace
    before them. -/
theorem always_append :
    Always P (tr ++ ev) ↔ Always P tr ∧ Always (fun pre e => P (tr ++ pre) e) ev := by
  constructor
  · intro h
    refine ⟨fun pre e post hp => h pre e (post ++ ev) (by simp [hp]), fun pre e post hp => ?_⟩
    exact h (tr ++ pre) e post (by simp [hp])
  · rintro ⟨h1, h2⟩ pre e post hp
    rcases List.append_eq_append_iff.mp hp with ⟨as, rfl, hr⟩ | ⟨bs, rfl, hr⟩
    · exact h2 as e post hr
    · cases bs with
      | nil => simpa using h2 [] e post (by simpa using hr.symm)
      | cons b bs =>
          simp only [List.cons_append, List.cons.injEq] at hr
          obtain ⟨rfl, rfl⟩ := hr
          exact h1 pre e bs rfl

theorem always_cons {e : ε} :
    Always P (e :: ev) ↔ P [] e ∧ Always (fun pre e' => P (e :: pre) e') ev := by
  constructor
  · intro h
    refine ⟨h [] e ev rfl, fun pre e' post hp => h (e :: pre) e' post (by simp [hp])⟩
  · rintro ⟨h1, h2⟩ pre e' post hp
    cases pre with
    | nil =>
        simp only [List.nil_append, List.cons.injEq] at hp
        obtain ⟨rfl, _⟩ := hp
        exact h1
    | cons b pre =>
        simp only [List.cons_append, List.cons.injEq] at hp
        obtain ⟨rfl, hp⟩ := hp
        exact h2 pre e' post hp

theorem always_singleton {e : ε} : Always P [e] ↔ P [] e := by
  rw [always_cons]
  exact ⟨fun h => h.1, fun h => ⟨h, always_nil⟩⟩

/-- One event more. -/
theorem always_snoc {e : ε} : Always P (tr ++ [e]) ↔ Always P tr ∧ P tr e := by
  rw [always_append, always_singleton, List.append_nil]

/-- What an event satisfies whatever comes before it. -/
theorem always_of_mem (h : ∀ e ∈ tr, ∀ pre, P pre e) : Always P tr :=
  fun pre e post hp => h e (by rw [hp]; simp) pre

/-- What holds of every event of a trace holds of every event of its beginnings. -/
theorem Always.of_append (h : Always P (tr ++ ev)) : Always P tr :=
  (always_append.mp h).1

end Trace
