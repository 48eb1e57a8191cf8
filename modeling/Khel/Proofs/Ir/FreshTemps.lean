import Khel.Proofs.Ir.Minting
import Khel.Proofs.Typing.Entered

/-!
# Which temporaries are fresh

Resolution numbers the variables of a program, and lowering numbers its temporaries in the same way. Both count from
zero, and neither knows of the other. So a temporary takes the name of a variable exactly if the variable of its number
was declared under the name that all temporaries have.

* `Ir.LoweringState.Reaches.isFresh_iff`: when the next temporary gets a new name.
* `Program.lower_fresh_iff`: along the lowering of an accepted program.
-/

namespace Khel

/-- What a list of numbered names has under a number. -/
theorem numbered_mem_numberFrom {x : String} : ∀ {n k : Nat} {xs : List String},
    numbered x (n + k) ∈ numberFrom n xs ↔ xs[k]? = some x
  | n, k, [] => by simp [numberFrom]
  | n, 0, y :: ys => by
    -- Numbers only grow to the right.
    have hrest : numbered x n ∉ numberFrom (n + 1) ys := fun h => by
      obtain ⟨_, _, m, hm, he⟩ := mem_numberFrom h
      have := (numbered_inj.1 he).2
      omega
    simp [numberFrom, numbered_inj, hrest, eq_comm]
  | n, k + 1, y :: ys => by
    have hshift : n + (k + 1) = n + 1 + k := by omega
    have hne : numbered x (n + 1 + k) ≠ numbered y n := fun he => by
      have := (numbered_inj.1 he).2
      omega
    rw [hshift, numberFrom, List.mem_cons, List.getElem?_cons_succ]
    have ih : numbered x (n + 1 + k) ∈ numberFrom (n + 1) ys ↔ ys[k]? = some x := numbered_mem_numberFrom
    simpa [hne] using ih

namespace Ir

/-- No symbol has the name that the next temporary takes. -/
def LoweringState.IsFresh (st : LoweringState) : Prop := st.symbols.get? (numbered "tmp" st.temps) = none

instance (st : LoweringState) : Decidable st.IsFresh := inferInstanceAs (Decidable (_ = none))

variable {T : SymbolTable} {st : LoweringState}

/-- The temporaries made before do not matter. -/
theorem LoweringState.Reaches.isFresh_iff (h : Reaches { symbols := T } st) :
    st.IsFresh ↔ numbered "tmp" st.temps ∉ T.names := by
  obtain ⟨temps, hsymbols, hcount⟩ := h.exists_temps
  -- The temporaries made so far have smaller numbers.
  have hother : ∀ n < temps.length, numbered "tmp" st.temps ≠ numbered "tmp" n := fun n hn he => by
    have := (numbered_inj.1 he).2
    omega
  rw [IsFresh, hsymbols, SymbolTable.get?_withTemps_of_ne hother, Table.mem_names_iff]
  simp

/-- A symbol stays unless a temporary took its name. -/
theorem LoweringState.Reaches.get?_of_ne (h : Reaches { symbols := T } st) {x : String}
    (hx : ∀ n < st.temps, x ≠ numbered "tmp" n) : st.symbols.get? x = T.get? x := by
  obtain ⟨temps, hsymbols, hcount⟩ := h.exists_temps
  rw [hsymbols]
  exact SymbolTable.get?_withTemps_of_ne fun n hn => hx n (hcount ▸ hn)

end Ir

open Ir

/-- A variable has the name of a temporary if it was declared under the name of all of them, at that place. -/
theorem Program.analyze_temp_iff {p q : Program} {T : SymbolTable} (hdots : ∀ x ∈ p.linkedNames, Dotless x)
    (ha : p.analyze = .ok (q, T)) (n : Nat) : numbered "tmp" n ∈ T.names ↔ p.ownNames[n]? = some "tmp" := by
  have hlinked : numbered "tmp" n ∉ p.linkedNames := fun h => (hdots _ h).ne_numbered "tmp" n rfl
  have hown : numbered "tmp" (0 + n) ∈ numberFrom 0 p.ownNames ↔ p.ownNames[n]? = some "tmp" := numbered_mem_numberFrom
  rw [(p.analyze_names.of_ok ha).1]
  simpa [hlinked] using hown

/-- The lowering of an accepted program, from its first state to its last: at every state on the way the next temporary
gets a new name exactly if the variable of its number was not declared under the name of all temporaries. If no
variable was, all symbols are kept, and no temporary shares its name with a variable. -/
theorem Program.lower_fresh_iff {p q : Program} {T T' : SymbolTable} {ir : Ir.Program}
    (hdots : ∀ x ∈ p.linkedNames, Dotless x) (ha : p.analyze = .ok (q, T)) (hl : q.lower T = .ok (ir, T')) :
    ∃ st, (lowerFunctions q.decls).run { symbols := T } = .ok (ir.functions, st) ∧ st.symbols = T' ∧
      LoweringState.Reaches { symbols := T } st ∧
      (∀ st₁, LoweringState.Reaches { symbols := T } st₁ → st₁.Reaches st →
        (st₁.IsFresh ↔ p.ownNames[st₁.temps]? ≠ some "tmp")) ∧
      ("tmp" ∉ p.ownNames → ∀ x s, T.get? x = some s → T'.get? x = some s ∧ ∀ n, x ≠ numbered "tmp" n) := by
  obtain ⟨st, hrun, rfl, _, hreaches, _⟩ := Program.lower_mints hl
  refine ⟨st, hrun, rfl, hreaches, fun st₁ h₁ _ => ?_, fun htmp x s hx => ?_⟩
  · rw [h₁.isFresh_iff, Program.analyze_temp_iff hdots ha]
  · have hne : ∀ n, x ≠ numbered "tmp" n := by
      rintro n rfl
      have hmem : numbered "tmp" n ∈ T.names := Table.mem_names_iff.2 (by rw [hx]; rfl)
      exact htmp (List.mem_of_getElem? ((Program.analyze_temp_iff hdots ha n).1 hmem))
    exact ⟨(hreaches.get?_of_ne fun n _ => hne n).trans hx, hne⟩

/-- A parameter under the name of all temporaries, a sum that is thrown away, and the parameter returned. -/
def spoiled (x : String) (ty : Option Ty) : Program :=
  ⟨[.fn ⟨⟨"f", .nowhere⟩, [⟨⟨x, .nowhere⟩, .int⟩], .int, true, false⟩
    (some [.stmt (.eval (.binary { ty } (.strict (.arith .add)) (.var { ty } x) (.int { ty } 1))),
      .stmt (.ret (some (.var { ty } x)) .nowhere)])]⟩

/-- What is known of the names of that program. -/
def spoiledSymbols : SymbolTable :=
  ⟨[("f", ⟨.fn [.int32] .int32, .function true true⟩), ("tmp.0", ⟨.int32, .automatic⟩)]⟩

theorem spoiled_analyze : (spoiled "tmp" none).analyze = .ok (spoiled "tmp.0" (some .int32), spoiledSymbols) := rfl

/-- The sum goes to the parameter. -/
theorem spoiled_lower : (lowerFunctions (spoiled "tmp.0" (some .int32)).decls).run { symbols := spoiledSymbols } =
    .ok ([⟨"f", true, ["tmp.0"], [.binary (.arith .add) (.var "tmp.0") (.int 1) (.var "tmp.0"), .ret (.var "tmp.0")]⟩],
      LoweringState.addTemp { symbols := spoiledSymbols } .int32) := rfl

/-- The second temporary would be fresh. -/
theorem spoiled_fresh_iff : ∃ st, (lowerFunctions (spoiled "tmp.0" (some .int32)).decls).run
    { symbols := spoiledSymbols } = .ok st ∧ st.2.temps = 1 ∧ st.2.IsFresh := by
  obtain ⟨st, hrun, _, hreaches, hfresh, _⟩ := Program.lower_fresh_iff (by decide) spoiled_analyze rfl
  cases hrun.symm.trans spoiled_lower
  exact ⟨_, hrun, rfl, (hfresh _ hreaches (.refl _)).2 (by decide)⟩

/-- Not every temporary is fresh. -/
theorem spoiled_not_fresh : ¬ ∀ (p q : Program) (T : SymbolTable) (functions : List Ir.Function) (st : LoweringState),
    (∀ x ∈ p.ownNames ++ p.linkedNames, Dotless x) → p.analyze = .ok (q, T) →
    (lowerFunctions q.decls).run { symbols := T } = .ok (functions, st) →
    ∀ st₁ ty, LoweringState.Reaches { symbols := T } st₁ → (st₁.addTemp ty).Reaches st → st₁.IsFresh := by
  intro hall
  have hfresh := hall _ _ _ _ _ (by decide) spoiled_analyze spoiled_lower { symbols := spoiledSymbols } .int32
    (.refl _) (.refl _)
  exact absurd hfresh (by decide)

end Khel
