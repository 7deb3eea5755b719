/-
  File:      MicrobitAlarm/Runs/Strings.lean
  Subject:   RUNS OF A PROGRAM WITH STRINGS: what it sees of them are values.

  * `Adds` -- what a constructor does; one lemma for each of them;
  * `Fine`, `fine_step`, `fine_run` -- the counts are right, and as long as nothing in front of a
    string is read the strings have the values they should have.
-/
import MicrobitAlarm.Firmware.StringData

namespace MicrobitAlarm.StringData

open Trace RefCounted
open RefCounted.Store (Ok create_ok literal_ok copy_ok assign_ok destroy_ok values_get)

variable {full : Prop} {s s' : Strings} {p : Option Nat} {r l : Ptr ManagedString}
  {tr : List Action} {a : Action}

/-! ## 1. Constructors -/

/-- **A constructor makes a string of this value**, or memory is short. -/
def Adds (full : Prop) (s : Strings) (o : Option ManagedString) : Except Fault Strings → Prop
  | .error f => f = .outOfMemory
  | .ok s' => Ok full s' ∧ o.isSome = true ∧ s'.values = s.values ++ [o]

theorem literal_adds (h : Ok full s) (x : ManagedString) :
    Adds full s (some x) (.ok (s.literal x)) :=
  ⟨(literal_ok h).1, rfl, (literal_ok h).2⟩

theorem initString_adds (h : Ok full s) (hp : fresh s p = true) (bytes : List UInt8) :
    Adds full s (mallocString bytes) (initString s bytes p) := by
  unfold initString
  cases hx : mallocString bytes with
  | none => rfl
  | some x =>
      cases p with
      | none => rfl
      | some p =>
          obtain ⟨hok, hvalues⟩ := create_ok (x := x) h (Option.isNone_iff_eq_none.mp hp)
          exact ⟨hok, rfl, hvalues⟩

theorem ofChars_adds (h : Ok full s) (hp : fresh s p = true) (str : List UInt8) :
    Adds full s (ManagedString.ofChars str) (ofChars s str p) := by
  unfold ofChars ManagedString.ofChars
  split
  · exact literal_adds h _
  · exact initString_adds h hp _

theorem ofChar_adds (h : Ok full s) (hp : fresh s p = true) (c : UInt8) :
    Adds full s (some (.ofChar c)) (ofChar s c p) := by
  have hbytes : mallocString ([c, 0].takeWhile (· != 0)) = some (.ofChar c) := by
    refine ManagedString.mallocString_eq_some.mpr ?_
    rw [ManagedString.data_ofChar]
    by_cases hc : c = 0 <;> simp [hc]
  rw [← hbytes]
  exact initString_adds h hp _

theorem object_value (s : Strings) (r : Ptr ManagedString) :
    (object s r).map Counted.value = s.value r := by
  cases r <;> rfl

/-- From a `start` that is not negative on, the bytes are those of the string. -/
theorem chars_of_nonneg (d : Counted ManagedString) (before : List UInt8) {start : Int}
    (h : 0 ≤ start) : chars d before start = d.value.data.drop start.toNat := by
  have hlen : ((before.length : Int) + 4 + start).toNat =
      (before ++ header d).length + start.toNat := by
    simp only [List.length_append, header, List.length_cons, List.length_nil]
    omega
  rw [chars, hlen, List.drop_append, List.drop_eq_nil_of_le (Nat.le_add_right _ _),
    List.nil_append, Nat.add_sub_cancel_left]

/-- **`substring`** makes a string; from a `start` that is not negative, the one it should. -/
theorem substring_adds (h : Ok full s) (hp : fresh s p = true) {x : ManagedString}
    (hx : s.value r = some x) (start length : Int) (before : List UInt8) :
    ∃ o, Adds full s o (substring s r start length before p) ∧
      (0 ≤ start → o = some (x.substring start.toNat length)) := by
  obtain ⟨d, hd, rfl⟩ := Option.map_eq_some_iff.mp ((object_value s r).trans hx)
  unfold substring ofBuffer
  simp only [hd]
  by_cases hstart : (d.value.length : Int) ≤ start
  · rw [if_pos hstart]
    refine ⟨_, literal_adds h _, fun _ => ?_⟩
    rw [ManagedString.substring, if_pos (by omega)]
  · rw [if_neg hstart]
    split
    · rename_i hbad
      refine ⟨_, literal_adds h _, fun hpos => ?_⟩
      rw [chars_of_nonneg d before hpos] at hbad
      rw [ManagedString.substring, if_neg (by omega), ManagedString.ofBuffer,
        Int.toNat_of_nonneg hpos, if_pos hbad]
    · rename_i hgood
      refine ⟨_, initString_adds h hp _, fun hpos => ?_⟩
      rw [chars_of_nonneg d before hpos] at hgood ⊢
      rw [ManagedString.substring, if_neg (by omega), ManagedString.ofBuffer,
        Int.toNat_of_nonneg hpos, if_neg hgood]
      exact ManagedString.mallocString_eq_some.mpr rfl

theorem copy_adds (h : Ok full s) (hr : some r ∈ s.handles) (hfew : full ∨ s.live + 1 < 32767) :
    Adds full s (s.value r) (s.copy r) := by
  obtain ⟨s', hcopy, hok, hvalues⟩ := copy_ok h hr hfew
  rw [hcopy]
  exact ⟨hok, h.value hr, hvalues⟩

theorem concat_adds (h : Ok full s) (hp : fresh s p = true) (hl : some l ∈ s.handles)
    (hr : some r ∈ s.handles) (hfew : full ∨ s.live + 1 < 32767) :
    Adds full s ((s.value l).bind fun lhs => (s.value r).bind fun rhs => lhs.concat rhs)
      (concat s l r p) := by
  obtain ⟨lhs, hlhs⟩ := Option.isSome_iff_exists.mp (h.value hl)
  obtain ⟨rhs, hrhs⟩ := Option.isSome_iff_exists.mp (h.value hr)
  unfold concat ManagedString.concat
  simp only [hlhs, hrhs, Option.bind_some]
  by_cases hr0 : rhs.length = 0
  · rw [if_pos hr0, if_pos hr0, ← hlhs]
    exact copy_adds h hl hfew
  · rw [if_neg hr0, if_neg hr0]
    by_cases hl0 : lhs.length = 0
    · rw [if_pos hl0, if_pos hl0, ← hrhs]
      exact copy_adds h hr hfew
    · rw [if_neg hl0, if_neg hl0]
      exact initString_adds h hp _

/-! ## 2. Runs -/

theorem live_eq (h : Ok full s) : s.live = s.values.countP Option.isSome := by
  rw [Store.values, List.countP_map]
  refine List.countP_congr fun o ho => ?_
  cases o with
  | none => rfl
  | some r => simpa using (h.value ho).symm

/-- **What an action does**: the counts stay right, there are as many strings as there should be,
    and they have the values they should have if nothing in front of one is read. -/
def Does (full : Prop) (s : Strings) (a : Action) : Except Fault Strings → Prop
  | .error f => f = .outOfMemory
  | .ok s' => Ok full s' ∧ s'.live = a.alive s.live ∧
      (a.inside = true → s'.values = effect s.values a)

theorem Adds.does {o : Option ManagedString} {r : Except Fault Strings} (h : Ok full s)
    (hadds : Adds full s o r) (ha : a.alive s.live = s.live + 1)
    (he : a.inside = true → effect s.values a = s.values ++ [o]) : Does full s a r := by
  cases r with
  | error f => exact hadds
  | ok s' =>
      obtain ⟨hok, ho, hvalues⟩ := hadds
      refine ⟨hok, ?_, fun hin => hvalues.trans (he hin).symm⟩
      rw [live_eq hok, hvalues, List.countP_append, List.countP_singleton, if_pos ho, ← live_eq h,
        ha]

theorem mem_of_get {v : Nat} (h : s.get v = some r) : some r ∈ s.handles :=
  List.mem_of_getElem? (Store.mem_of_get h)

theorem join_get {v : Nat} (h : s.get v = some r) : (s.values[v]?).join = s.value r := by
  rw [values_get h]
  rfl

/-- A string gets another value, or none. -/
theorem live_of_set {v : Nat} {o : Option ManagedString} (h : Ok full s) (h' : Ok full s')
    (hv : s.get v = some r) (hvalues : s'.values = s.values.set v o) :
    s'.live + 1 = s.live + if o.isSome then 1 else 0 := by
  obtain ⟨hlt, hget⟩ := List.getElem?_eq_some_iff.mp (values_get hv)
  have hsome : (s.values[v]).isSome = true := by
    rw [hget]
    exact h.value (mem_of_get hv)
  have hpos : 0 < s.values.countP Option.isSome :=
    List.countP_pos_iff.mpr ⟨_, List.getElem_mem hlt, hsome⟩
  rw [live_eq h', hvalues, List.countP_set hlt, hsome, if_pos rfl, live_eq h]
  omega

/-- **One action**: `full`, or there are never so many strings that a count is full. -/
theorem fine_step (h : Ok full s) {r : Except Fault Strings} (hs : perform s a = some r)
    (hfew : full ∨ (s.live < 32767 ∧ a.alive s.live < 32767)) : Does full s a r := by
  cases a with
  | empty =>
      cases hs
      exact (literal_adds h _).does h rfl fun _ => rfl
  | ofChars str p =>
      obtain ⟨hp, he⟩ := Option.ite_none_right_eq_some.mp hs
      cases he
      exact (ofChars_adds h hp str).does h rfl fun _ => rfl
  | ofChar value p =>
      obtain ⟨hp, he⟩ := Option.ite_none_right_eq_some.mp hs
      cases he
      exact (ofChar_adds h hp value).does h rfl fun _ => rfl
  | substring v start length before p =>
      obtain ⟨⟨hp, _⟩, hs⟩ := Option.ite_none_right_eq_some.mp hs
      obtain ⟨r', hv, he⟩ := Option.map_eq_some_iff.mp hs
      cases he
      obtain ⟨x, hx⟩ := Option.isSome_iff_exists.mp (h.value (mem_of_get hv))
      obtain ⟨o, hadds, ho⟩ := substring_adds h hp hx start length before
      refine hadds.does h rfl fun hin => ?_
      rw [effect, join_get hv, hx, ho (of_decide_eq_true hin)]
      rfl
  | concat v w p =>
      obtain ⟨hp, hs⟩ := Option.ite_none_right_eq_some.mp hs
      obtain ⟨l, hv, hs⟩ := Option.bind_eq_some_iff.mp hs
      obtain ⟨r', hw, he⟩ := Option.map_eq_some_iff.mp hs
      cases he
      refine (concat_adds h hp (mem_of_get hv) (mem_of_get hw)
        (hfew.imp_right And.right)).does h rfl fun _ => ?_
      rw [effect, join_get hv, join_get hw]
  | copy v =>
      obtain ⟨r', hv, he⟩ := Option.map_eq_some_iff.mp hs
      cases he
      refine (copy_adds h (mem_of_get hv) (hfew.imp_right And.right)).does h rfl fun _ => ?_
      rw [effect, join_get hv]
  | assign v w =>
      obtain ⟨old, hv, hs⟩ := Option.bind_eq_some_iff.mp hs
      obtain ⟨r', hw, he⟩ := Option.map_eq_some_iff.mp hs
      cases he
      obtain ⟨s', hassign, hok, hvalues⟩ := assign_ok h hv (mem_of_get hw)
        (hfew.imp_right And.left)
      rw [hassign]
      have hlive := live_of_set h hok hv hvalues
      rw [if_pos (h.value (mem_of_get hw))] at hlive
      exact ⟨hok, Nat.succ.inj hlive, fun _ => by rw [effect, join_get hw, hvalues]⟩
  | destroy v =>
      obtain ⟨r', hv, he⟩ := Option.map_eq_some_iff.mp hs
      cases he
      obtain ⟨s', hdestroy, hok, hvalues⟩ := destroy_ok h hv
      rw [hdestroy]
      have hlive := live_of_set h hok hv hvalues
      exact ⟨hok, Nat.eq_sub_of_add_eq hlive, fun _ => hvalues⟩

/-- How many strings there are behind a run that has its memory. -/
def alive (tr : List Action) : Nat := tr.foldl Action.alive 0

/-- There are never so many strings that a count is full. -/
def Few (tr : List Action) : Prop := ∀ k ≤ tr.length, alive (tr.take k) < 32767

theorem Few.of_append {ev : List Action} (h : Few (tr ++ ev)) : Few tr := by
  intro k hk
  have hall := h k (Nat.le_trans hk (List.length_append ▸ Nat.le_add_right ..))
  rwa [List.take_append_of_le_length hk] at hall

theorem Few.last (h : Few tr) : alive tr < 32767 := by
  have hall := h tr.length (Nat.le_refl _)
  rwa [List.take_length] at hall

/-- Nothing in front of a string is ever read. -/
def Inside (tr : List Action) : Prop := ∀ a ∈ tr, a.inside = true

/-- **All is fine**: the counts are right, there are as many strings as the history says, and they
    have the values it says if nothing in front of one was read; or memory is short. -/
def Fine (full : Prop) (r : Except Fault Strings) (tr : List Action) : Prop :=
  match r with
  | .error f => f = .outOfMemory
  | .ok s => Ok full s ∧ s.live = alive tr ∧ (Inside tr → s.values = tr.foldl effect [])

theorem fine_run {r : Except Fault Strings} (hrun : machine.Run r tr) (hfew : full ∨ Few tr) :
    Fine full r tr := by
  induction hrun with
  | start => exact ⟨fun p => rfl, rfl, fun _ => rfl⟩
  | step r r' a tr ev _ hs ih =>
      obtain ⟨s, rfl⟩ : ∃ s, r = .ok s := by
        cases r with
        | error f => cases hs
        | ok s => exact ⟨s, rfl⟩
      obtain ⟨r₁, hperform, he⟩ := Option.map_eq_some_iff.mp hs
      cases he
      obtain ⟨hok, hlive, hvalues⟩ := ih (hfew.imp_right Few.of_append)
      have halive : alive (tr ++ [a]) = a.alive (alive tr) := List.foldl_append
      have hdoes := fine_step hok hperform (hfew.imp_right fun hall => by
        rw [hlive, ← halive]
        exact ⟨hall.of_append.last, hall.last⟩)
      cases r' with
      | error f => exact hdoes
      | ok s' =>
          refine ⟨hdoes.1, by rw [hdoes.2.1, hlive, halive], fun hin => ?_⟩
          have hbefore := hvalues fun x hx => hin x (List.mem_append_left _ hx)
          rw [hdoes.2.2 (hin a (by simp)), hbefore, List.foldl_append]
          rfl

end MicrobitAlarm.StringData
