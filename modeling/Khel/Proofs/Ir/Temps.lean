import Khel.Proofs.Analysis
import Khel.Proofs.Ir.Labels
import Khel.Proofs.Ir.Semantics
import Mathlib.Data.List.Induction

/-!
# Temporaries

Lowering numbers its temporaries and enters each of them into the symbol table, so the table it leaves is the one it was
given with a list of temporaries added. A variable of the program that bears the name of a temporary is lost then; it is
still an object, but its type may be another one.

* `SymbolTable.get?_withTemps_temp`, `SymbolTable.get?_withTemps_of_ne`: what the table says with temporaries added.
* `Ir.Value.Typed`: an object, which has the type it should have unless names got lost.
* `Ir.Value.Typed.mono`: more temporaries do no harm.
-/

namespace Khel

namespace SymbolTable

/-- The table with temporaries added, which are given by their types in the order of their numbers. -/
def withTemps (T : SymbolTable) (temps : List Ty) : SymbolTable :=
  temps.zipIdx.foldl (fun T e => T.set (numbered "tmp" e.2) ⟨e.1, .automatic⟩) T

/-- No name of the table is the name of a temporary. -/
def TempFree (T : SymbolTable) : Prop := ∀ n, T.get? (numbered "tmp" n) = none

variable {T : SymbolTable} {temps : List Ty}

theorem withTemps_snoc (T : SymbolTable) (temps : List Ty) (t : Ty) :
    T.withTemps (temps ++ [t]) = Table.set (T.withTemps temps) (numbered "tmp" temps.length) ⟨t, .automatic⟩ := by
  simp [withTemps, List.zipIdx_append]

/-- A temporary has the type that it was made with. -/
theorem get?_withTemps_temp {n : Nat} {t : Ty} (h : temps[n]? = some t) :
    (T.withTemps temps).get? (numbered "tmp" n) = some ⟨t, .automatic⟩ := by
  induction temps using List.reverseRecOn with
  | nil => simp at h
  | append_singleton temps u ih =>
    rw [withTemps_snoc, Table.get?_set]
    by_cases hn : n = temps.length
    · subst hn
      simpa using h
    · have hlt : n < temps.length := by
        have := (List.getElem?_eq_some_iff.1 h).1
        simp only [List.length_append, List.length_singleton] at this
        omega
      rw [if_neg fun he => hn (numbered_inj.1 he).2.symm]
      exact ih (by rwa [List.getElem?_append_left hlt] at h)

/-- Any other name means what it meant before. -/
theorem get?_withTemps_of_ne {x : String} (h : ∀ n < temps.length, x ≠ numbered "tmp" n) :
    (T.withTemps temps).get? x = T.get? x := by
  induction temps using List.reverseRecOn with
  | nil => rfl
  | append_singleton temps u ih =>
    rw [withTemps_snoc, Table.get?_set, if_neg (h temps.length (by simp)).symm]
    exact ih fun n hn => h n (by simp only [List.length_append, List.length_singleton]; omega)

/-- A name is that of a temporary, or it is not. -/
theorem temp_cases (temps : List Ty) (x : String) :
    (∃ n t, x = numbered "tmp" n ∧ temps[n]? = some t) ∨ ∀ n < temps.length, x ≠ numbered "tmp" n := by
  by_cases h : ∀ n < temps.length, x ≠ numbered "tmp" n
  · exact .inr h
  · push Not at h
    obtain ⟨n, hn, rfl⟩ := h
    exact .inl ⟨n, temps[n], rfl, List.getElem?_eq_getElem hn⟩

theorem TempFree.get?_withTemps (h : T.TempFree) {x : String} {s : Symbol} (hx : T.get? x = some s) :
    (T.withTemps temps).get? x = some s := by
  rw [get?_withTemps_of_ne fun n _ he => ?_, hx]
  rw [he, h n] at hx
  cases hx

theorem IsSound.withTemps (h : T.IsSound) (ht : ∀ t ∈ temps, t.isFunction = false) : (T.withTemps temps).IsSound := by
  induction temps using List.reverseRecOn with
  | nil => exact h
  | append_singleton temps u ih =>
    rw [withTemps_snoc]
    have hu : u.isFunction = false := ht u (by simp)
    exact (ih fun t hm => ht t (by simp [hm])).set _ (Symbol.isSound_of_value rfl hu)

/-- The symbols are sound, and no function bears a numbered name. This is what checking leaves. -/
structure IsChecked (T : SymbolTable) : Prop where
  sound : T.IsSound
  dotless : ∀ x s, T.get? x = some s → s.isFunction = true → Dotless x

/-- Functions are not lost. -/
theorem IsChecked.hasFunction (hT : T.IsChecked) (temps : List Ty) {f : String} {t : Ty} (hf : T.HasFunction f t) :
    (T.withTemps temps).HasFunction f t := by
  obtain ⟨s, hs, hfn, ht⟩ := hf
  have hd := hT.dotless f s hs hfn
  exact ⟨s, (get?_withTemps_of_ne fun n _ => hd.ne_numbered "tmp" n).trans hs, hfn, ht⟩

end SymbolTable

theorem Analyzed.isChecked {p q : Program} {T : SymbolTable} (h : Analyzed p q T) : T.IsChecked := by
  refine ⟨h.sound, fun x s hx hf => ?_⟩
  rcases h.names x s hx with ⟨hn, _⟩ | hd
  · rw [hf] at hn
    cases hn
  · exact hd

/-- A variable bears the name of a temporary only if it was declared under the name of all of them. -/
theorem Analyzed.tempFree {p q : Program} {T : SymbolTable} (h : Analyzed p q T) (htmp : "tmp" ∉ p.ownNames) :
    T.TempFree := by
  intro n
  cases hx : T.get? (numbered "tmp" n) with
  | none => rfl
  | some s =>
    rcases h.names _ s hx with ⟨_, y, hy, m, he⟩ | hd
    · obtain ⟨rfl, _⟩ := numbered_inj.1 he
      exact (htmp hy).elim
    · exact (hd.ne_numbered "tmp" n rfl).elim

namespace Ir

/-! ## States of lowering -/

/-- Lowering started with the table `T` and has made the temporaries `temps`. -/
structure Made (T : SymbolTable) (temps : List Ty) (st : LoweringState) : Prop where
  symbols : st.symbols = T.withTemps temps
  count : st.temps = temps.length
  values : ∀ t ∈ temps, t.isFunction = false

variable {T : SymbolTable} {temps temps' : List Ty} {st : LoweringState} {E : Fault → Prop}

theorem Lowering.label_made (hst : Made T temps st) (stem : String) :
    Ensures (Lowering.label stem) st E fun _ st' => Made T temps st' := by
  refine (Lowering.label_ensures stem st).mono ?_
  rintro _ st' ⟨_, _, ht, hs⟩
  exact ⟨hs.trans hst.symbols, ht.trans hst.count, hst.values⟩

theorem Lowering.temp_made (hst : Made T temps st) {t : Ty} (ht : t.isFunction = false) :
    Ensures (Lowering.temp t) st E fun v st' => v = .var (numbered "tmp" temps.length) ∧ Made T (temps ++ [t]) st' := by
  refine (Lowering.temp_ensures t st).mono ?_
  rintro v st' ⟨rfl, _, hn, hs⟩
  rw [hst.count] at hn hs ⊢
  refine ⟨rfl, ?_, ?_, ?_⟩
  · rw [hs, hst.symbols, SymbolTable.withTemps_snoc]
  · simpa using hn
  · simpa [or_imp, forall_and] using ⟨hst.values, ht⟩

/-! ## Values -/

/-- The value is an object in the table with temporaries added. It has the type `t`, provided that no variable of the
program bears the name of a temporary. -/
def Value.Typed (T : SymbolTable) (temps : List Ty) (t : Ty) (v : Value) : Prop :=
  ∃ t', v.HasTy (T.withTemps temps) t' ∧ (T.TempFree → t' = t)

theorem Value.typed_temp {n : Nat} {t : Ty} (h : temps[n]? = some t) (ht : t.isFunction = false) :
    Value.Typed T temps t (.var (numbered "tmp" n)) := by
  refine ⟨t, ⟨?_, ht⟩, fun _ => rfl⟩
  rw [Value.ty?, SymbolTable.get?_withTemps_temp h]
  rfl

/-- A variable of the program. -/
theorem Value.typed_var (hT : T.IsSound) (hv : ∀ t ∈ temps, t.isFunction = false) {x : String} {t : Ty}
    (hx : T.HasVar x t) : Value.Typed T temps t (.var x) := by
  obtain ⟨s, hs, hf, rfl⟩ := hx
  rcases SymbolTable.temp_cases temps x with ⟨n, u, rfl, hn⟩ | hx
  · -- The variable bears the name of a temporary.
    obtain ⟨u', hu', _⟩ := Value.typed_temp (T := T) hn (hv u (List.mem_of_getElem? hn))
    refine ⟨u', hu', fun hfree => ?_⟩
    rw [hfree n] at hs
    cases hs
  · refine ⟨s.ty, ⟨?_, (hT.get hs).kind ▸ hf⟩, fun _ => rfl⟩
    rw [Value.ty?, SymbolTable.get?_withTemps_of_ne hx, hs]
    rfl

/-- More temporaries do no harm. -/
theorem Value.Typed.mono (hp : temps <+: temps') (hv : ∀ t ∈ temps', t.isFunction = false) {t : Ty} {v : Value}
    (h : v.Typed T temps t) : v.Typed T temps' t := by
  obtain ⟨u, ⟨hty, hu⟩, hfree⟩ := h
  obtain ⟨more, rfl⟩ := hp
  cases v with
  | var x =>
    obtain ⟨s, hs, rfl⟩ := Option.map_eq_some_iff.1 hty
    rcases SymbolTable.temp_cases (temps ++ more) x with ⟨n, u, rfl, hn⟩ | hx
    · obtain ⟨u', hu', he⟩ := Value.typed_temp (T := T) hn (hv u (List.mem_of_getElem? hn))
      refine ⟨u', hu', fun hT => (he hT).trans ?_⟩
      by_cases hlt : n < temps.length
      · rw [List.getElem?_append_left hlt] at hn
        rw [SymbolTable.get?_withTemps_temp hn] at hs
        cases hs
        exact hfree hT
      · -- A temporary that is new was no name at all before.
        rw [SymbolTable.get?_withTemps_of_ne, hT n] at hs
        · cases hs
        · intro m hm he
          have := (numbered_inj.1 he).2
          omega
    · refine ⟨s.ty, ⟨?_, hu⟩, hfree⟩
      rw [SymbolTable.get?_withTemps_of_ne fun n hn => hx n (by simp only [List.length_append]; omega)] at hs
      rw [Value.ty?, SymbolTable.get?_withTemps_of_ne hx, hs]
      rfl
  | _ => exact ⟨u, ⟨hty, hu⟩, hfree⟩

end Ir

end Khel
