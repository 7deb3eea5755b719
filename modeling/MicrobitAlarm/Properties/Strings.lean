/-
  File:      MicrobitAlarm/Properties/Strings.lean
  Subject:   WHAT A PROGRAM CAN RELY ON WITH STRINGS THAT SHARE THEIR MEMORY.

  * `strings_are_values` -- it sees values: no string is written over or freed while it exists;
  * `count_is_seen` -- except through a negative `start` of `substring`, which is not refused and
    makes a string of the count that stands in front of the bytes;
  * `strings_are_freed` -- and none is kept when the last of those that share it is gone.
-/
import MicrobitAlarm.Runs.Strings

namespace MicrobitAlarm.StringData

open Trace RefCounted

variable {r : Except Fault Strings} {s : Strings} {tr : List Action}

/-- **Strings are values.** However strings are made, copied, assigned and destroyed, memory gets
    short, or every string that exists is there, and, if no `substring` had a negative `start`, is
    what it would be if strings were values. -/
theorem strings_are_values (hrun : machine.Run r tr) :
    r = .error .outOfMemory ∨ ∃ s, r = .ok s ∧ (Inside tr → s.values = tr.foldl effect []) ∧
      ∀ q, some q ∈ s.handles → (s.value q).isSome = true := by
  have hfine : Fine True r tr := fine_run hrun (.inl trivial)
  cases r with
  | error f => exact .inl (congrArg _ hfine)
  | ok s => exact .inr ⟨s, rfl, hfine.2.2, fun q hq => hfine.1.value hq⟩

/-- Two strings are joined, the sum is assigned to the first one and loses its first character in a
    copy, and it and the second one are destroyed. -/
def joined : List Action :=
  [.ofChars [97, 98, 0] (some 100), .ofChar 10 (some 200), .concat 0 1 (some 300), .assign 0 2,
    .substring 0 1 2 [] (some 400), .destroy 2, .destroy 1]

theorem strings_are_values_run : ∃ s, machine.Run (.ok s) joined ∧
    s.values = joined.foldl effect [] ∧ (s.values.map fun o => o.map ManagedString.data) =
      [some [97, 98, 10], none, none, some [98, 10]] := by
  obtain ⟨r, tr, hrun, hok, htr⟩ := machine.exists_run_of_exec
    (fun r tr => r.toBool = true ∧ tr = joined) joined (by decide)
  subst htr
  have hin : Inside joined := by
    unfold Inside
    decide
  obtain rfl | ⟨s, rfl, hvalues, _⟩ := strings_are_values hrun
  · cases hok
  · have hvalues := hvalues hin
    exact ⟨s, hrun, hvalues, hvalues ▸ by decide⟩

/-- Four bytes in front of its first one a string has its count: a `substring` that begins there
    makes a string of the low byte. -/
theorem substring_count {q : Nat} {d : Counted ManagedString} (hd : s.blocks q = some d)
    (hodd : d.refCount % 2 = 1) (p : Nat) :
    ∃ x : ManagedString, x.data = [.ofNat d.refCount] ∧
      substring s (.heap q) (-4) 1 [] (some p) = .ok (s.create x p) := by
  -- an odd byte is not the NUL that ends a string
  have hbyte : UInt8.ofNat d.refCount ≠ 0 := by
    intro h
    have h0 : d.refCount % 256 = 0 := by
      rw [← UInt8.toNat_ofNat', h]
      rfl
    omega
  have hchars : chars d [] (-4) = .ofNat d.refCount :: ((header d).tail ++ d.value.data) := rfl
  have hstrlen : ¬ (strlen (chars d [] (-4)) : Int) < 1 % 65536 := by
    rw [hchars, strlen, List.takeWhile_cons_of_pos (by simpa using hbyte), List.length_cons]
    omega
  have hmin : min ((d.value.length : Int) - -4) 1 = 1 := by omega
  refine ⟨⟨[.ofNat d.refCount], by rw [List.length_singleton]; decide⟩, rfl, ?_⟩
  unfold substring ofBuffer
  simp only [object, hd, hmin]
  rw [if_neg (by omega), if_neg (by
    rintro (h | h)
    · exact hbyte (by rwa [hchars] at h)
    · exact hstrlen h), hchars]
  rfl

/-- **The exception.** While there are never 32767 strings at once, `substring(-4, 1)` says how many
    strings share one: two strings of one value are told apart by it. -/
theorem count_is_seen (hrun : machine.Run (.ok s) tr) (hfew : Few tr) {v q p : Nat}
    (hv : s.get v = some (.heap q)) (hp : s.blocks p = none) :
    ∃ x : ManagedString, x.data = [.ofNat (2 * s.holders q + 1)] ∧
      machine.Run (.ok (s.create x p)) (tr ++ [.substring v (-4) 1 [] (some p)]) := by
  have hfine : Fine False (.ok s) tr := fine_run hrun (.inr hfew)
  obtain ⟨d, hd, hcount⟩ := hfine.1.held (List.count_pos_iff.mpr (mem_of_get hv))
  have hc : d.refCount = 2 * s.holders q + 1 := (hcount.resolve_right And.left).1
  obtain ⟨x, hx, hsub⟩ := substring_count hd (by omega) p
  refine ⟨x, hc ▸ hx, .step _ _ (.substring v (-4) 1 [] (some p)) _ _ hrun ?_⟩
  have hfresh : fresh s (some p) = true ∧ (0 : Int) ≤ (([] : List UInt8).length : Int) + 4 + -4 :=
    ⟨Option.isNone_iff_eq_none.mpr hp, by decide⟩
  show (perform s _).map _ = _
  rw [perform, if_pos hfresh, hv, Option.map_some, hsub]
  rfl

example : ((machine.exec machine.start [.ofChars [97, 98, 0] (some 100), .copy 0,
    .substring 0 (-4) 1 [] (some 200)]).bind fun r => r.1.toOption.map fun s =>
      s.values.map fun o => o.map ManagedString.data) =
        some [some [97, 98], some [97, 98], some [5]] := by decide

/-- **Strings are freed.** While there are never 32767 strings at once, a block is in use exactly if
    a string refers to it, and it is counted how many do. -/
theorem strings_are_freed (hrun : machine.Run (.ok s) tr) (hfew : Few tr) (p : Nat) :
    ((s.blocks p).isSome = true ↔ some (.heap p) ∈ s.handles) ∧
      ∀ d, s.blocks p = some d → d.refCount = 2 * s.holders p + 1 := by
  have hfine : Fine False (.ok s) tr := fine_run hrun (.inr hfew)
  have hcount := hfine.1 p
  cases hb : s.blocks p with
  | none =>
      rw [hb] at hcount
      refine ⟨⟨by rintro ⟨⟩, fun hmem => ?_⟩, by rintro d ⟨⟩⟩
      exact absurd hcount (Nat.ne_of_gt (List.count_pos_iff.mpr hmem))
  | some d =>
      rw [hb] at hcount
      obtain ⟨hc, hpos, _⟩ := hcount.resolve_right And.left
      refine ⟨⟨fun _ => List.count_pos_iff.mp hpos, fun _ => rfl⟩, ?_⟩
      rintro _ ⟨⟩
      exact hc

/-- Of the four blocks, those of the sum and of its copy are left, with one string each. -/
theorem strings_are_freed_run : ∃ s, machine.Run (.ok s) joined ∧
    s.handles = [some (.heap 300), none, none, some (.heap 400)] ∧ s.blocks 100 = none ∧
    s.blocks 200 = none ∧ ∀ d, s.blocks 300 = some d → d.refCount = 3 := by
  obtain ⟨r, tr, hrun, hhandles, htr⟩ := machine.exists_run_of_exec
    (fun r tr => (r.toOption.any fun s =>
      s.handles = [some (.heap 300), none, none, some (.heap 400)]) = true ∧ tr = joined)
    joined (by decide)
  subst htr
  obtain ⟨s, hs, hh⟩ := (Option.any_eq_true ..).mp hhandles
  obtain rfl : r = .ok s := by
    cases r with
    | error f => cases hs
    | ok s' => exact congrArg _ (Option.some.inj hs)
  have hh := of_decide_eq_true hh
  have hfew : Few joined := by
    unfold Few
    decide
  have hnone : ∀ p, some (.heap p) ∉ s.handles → s.blocks p = none := fun p hp =>
    Option.not_isSome_iff_eq_none.mp fun hsome => hp ((strings_are_freed hrun hfew p).1.mp hsome)
  refine ⟨s, hrun, hh, hnone 100 ?_, hnone 200 ?_, fun d hd => ?_⟩
  · rw [hh]
    decide
  · rw [hh]
    decide
  · rw [(strings_are_freed hrun hfew 300).2 d hd, Store.holders, hh]
    decide

end MicrobitAlarm.StringData
