import Khel.Proofs.Ir.Simulation
import Khel.Proofs.Program.Readings

/-!
# Lowering keeps the meaning of a program

The code of a function returns exactly what its body returns if operands are read at use. That is also what the body
returns if operands are read at once, from left to right, unless an operand is kept in a variable that an operand to the
right of it may change.

* `BodyReturns`: what the body of a function returns.
* `Realizes`, `Preserves`: the code returns that, and nothing else.
* `Program.lower_preserves`: which of this holds of lowered code, for both readings of operands.
-/

namespace Khel

open Ir

/-! ## Functions -/

/-- The value that a function returns if its body ends in this way: one without any return gives zero at its end. -/
def endValue? (body : List Item) : Outcome → Option Int
  | .ret v => some v
  | .done => if itemsHaveReturn body then none else some 0
  | .leave | .next => none

/-- The body of a function, started with the store `s`, comes to return `v` and leaves the store `s'`. -/
def BodyReturns (w : World) (T : SymbolTable) (reading : Reading) (body : List Item) (s : Store) (v : Int)
    (s' : Store) : Prop :=
  ∃ fuel outcome, runItems w T reading fuel body s = some (outcome, s') ∧ endValue? body outcome = some v

/-- The code of a function, started with the store `σ`, returns whatever the body returns, and leaves a store that
agrees. -/
def Realizes (w : World) (T T' : SymbolTable) (reading : Reading) (body : List Item) (code : List Instr)
    (s σ : Store) : Prop :=
  ∀ v s', BodyReturns w T reading body s v s' → ∃ σ', Returns w T' code σ v σ' ∧ s'.Agrees σ'

/-- It also returns nothing else. Where the body ends without a return although there is one in it, control runs off the
end of the code. -/
structure Preserves (w : World) (T T' : SymbolTable) (reading : Reading) (body : List Item) (code : List Instr)
    (s σ : Store) : Prop where
  forth : Realizes w T T' reading body code s σ
  back : ∀ v σ', Returns w T' code σ v σ' → ∃ s', BodyReturns w T reading body s v s' ∧ s'.Agrees σ'
  fallsOff : ∀ fuel outcome s', runItems w T reading fuel body s = some (outcome, s') → endValue? body outcome = none →
    ∃ σ', Steps w T' code (code, σ) ([], σ') ∧ s'.Agrees σ'

/-- What follows the code of a body. -/
def closing (body : List Item) : List Instr := if itemsHaveReturn body then [] else [.ret (.int 0)]

/-- The code of a function does what its body does, and returns at its end if the body never says so. -/
def Ir.Function.Simulates (T : SymbolTable) (temps : List Ty) (body : List Item) (f : Ir.Function) : Prop :=
  ∃ code, f.code = code ++ closing body ∧
    ∀ w fuel, Ir.Simulates w T temps none fuel code (runItems w T .atUse fuel body)

section Function

variable {w : World} {T : SymbolTable} {temps all : List Ty} {body : List Item} {f : Ir.Function} {s σ : Store}

/-- Where a body ends, its function has come to the end of its code or to a return. -/
theorem closing_endsAt {outcome : Outcome} {c : List Instr × Store}
    (h : outcome.EndsAt w none (closing body) c) : c.1 = [] ∧ endValue? body outcome = none ∨
      ∃ value rest, c.1 = .ret value :: rest ∧ endValue? body outcome = some (value.read w c.2) := by
  cases outcome with
  | done =>
    by_cases hret : itemsHaveReturn body = true
    · exact .inl ⟨h.trans (if_pos hret), if_pos hret⟩
    · exact .inr ⟨.int 0, [], h.trans (if_neg hret), if_neg hret⟩
  | ret v =>
    obtain ⟨value, rest, hpoint, hv⟩ := h
    exact .inr ⟨value, rest, hpoint, hv ▸ rfl⟩
  | leave | next =>
    obtain ⟨id, hid, _⟩ := h
    cases hid

/-- The whole code of a function beside its body. -/
theorem Ir.Function.Simulates.runs (h : f.Simulates T temps body) (hnodup : (labels f.code).Nodup)
    (hagree : s.Agrees σ) (w : World) (fuel : Nat) :
    Runs w (T.withTemps temps) f.code fuel (f.code, σ) (runItems w T .atUse fuel body s) fun p c =>
      p.2.Agrees c.2 ∧ (c.1 = [] ∧ endValue? body p.1 = none ∨
        ∃ value rest, c.1 = .ret value :: rest ∧ endValue? body p.1 = some (value.read w c.2)) := by
  obtain ⟨code, hcode, hsim⟩ := h
  have hs : code ++ closing body <:+ f.code := hcode ▸ List.suffix_rfl
  have hrun := hsim w fuel (List.prefix_refl temps) hnodup hs hagree
  rw [← hcode] at hrun
  exact hrun.mono fun p c hstop => ⟨hstop.1, closing_endsAt hstop.2⟩

theorem Ir.Function.Simulates.preserves (h : f.Simulates T temps body) (hnodup : (labels f.code).Nodup)
    (hagree : s.Agrees σ) (w : World) : Preserves w T (T.withTemps temps) .atUse body f.code s σ := by
  constructor
  · rintro v s' ⟨fuel, outcome, hbody, hv⟩
    have hrun := h.runs hnodup hagree w fuel
    rw [hbody] at hrun
    obtain ⟨⟨point, σ'⟩, hsteps, hagree', ⟨_, hnone⟩ | ⟨value, rest, rfl, hvalue⟩⟩ := hrun
    · cases hnone.symm.trans hv
    · cases hvalue.symm.trans hv
      exact ⟨σ', ⟨_, _, hsteps, rfl⟩, hagree'⟩
  · rintro v σ' ⟨i, rest, hsteps, hret⟩
    -- The run ends, so it does not last; with as much fuel as that the body has a result, which is the one of the code.
    obtain ⟨fuel, hfuel⟩ := hsteps.not_lasts (ended_ret hret)
    have hrun := h.runs hnodup hagree w fuel
    cases hbody : runItems w T .atUse fuel body s with
    | none =>
      rw [hbody] at hrun
      exact (hfuel hrun).elim
    | some p =>
      obtain ⟨outcome, s'⟩ := p
      rw [hbody] at hrun
      obtain ⟨⟨point, σ''⟩, hsteps', hagree', ⟨hnil, _⟩ | ⟨value, more, hpoint, hvalue⟩⟩ := hrun
      · cases hnil
        cases hsteps.unique hsteps' (ended_ret hret) (ended_nil σ'')
      · cases hpoint
        cases hsteps.unique hsteps' (ended_ret hret) (ended_ret rfl)
        cases hret
        exact ⟨s', ⟨fuel, outcome, hbody, hvalue⟩, hagree'⟩
  · intro fuel outcome s' hbody hnone
    have hrun := h.runs hnodup hagree w fuel
    rw [hbody] at hrun
    obtain ⟨⟨point, σ'⟩, hsteps, hagree', ⟨hnil, _⟩ | ⟨value, rest, _, hvalue⟩⟩ := hrun
    · cases hnil
      exact ⟨σ', hsteps, hagree'⟩
    · cases hvalue.symm.trans hnone

/-- Where no operand is changed before it is used, the same is preserved for operands that are read at once. -/
theorem Preserves.atOnce {T' : SymbolTable} {code : List Instr} (h : Preserves w T T' .atUse body code s σ)
    (hk : itemsKeepOperands T body = true) : Preserves w T T' .atOnce body code s σ := by
  have hrun : ∀ fuel, runItems w T .atOnce fuel body = runItems w T .atUse fuel body :=
    fun fuel => runItems_atOnce body hk
  have hreturns : ∀ v s', BodyReturns w T .atOnce body s v s' ↔ BodyReturns w T .atUse body s v s' := by
    intro v s'
    simp only [BodyReturns, hrun]
  constructor
  · exact fun v s' hb => h.forth v s' ((hreturns v s').1 hb)
  · intro v σ' hr
    obtain ⟨s', hb, hagree⟩ := h.back v σ' hr
    exact ⟨s', (hreturns v s').2 hb, hagree⟩
  · intro fuel outcome s' hb
    rw [hrun] at hb
    exact h.fallsOff fuel outcome s' hb

/-- What operands read at once come to is realized exactly if it is also what operands read at use come to. -/
theorem Preserves.realizes_atOnce_iff {T' : SymbolTable} {code : List Instr}
    (h : Preserves w T T' .atUse body code s σ) : Realizes w T T' .atOnce body code s σ ↔
      ∀ v s', BodyReturns w T .atOnce body s v s' → ∃ s'', BodyReturns w T .atUse body s v s'' ∧ s'.Agrees s'' := by
  constructor
  · intro hr v s' hb
    obtain ⟨σ', hret, hagree⟩ := hr v s' hb
    obtain ⟨s'', hb', hagree'⟩ := h.back v σ' hret
    exact ⟨s'', hb', fun x hx => (hagree' x hx).symm.trans (hagree x hx)⟩
  · intro hr v s' hb
    obtain ⟨s'', hb', hagree⟩ := hr v s' hb
    obtain ⟨σ', hret, hagree'⟩ := h.forth v s'' hb'
    exact ⟨σ', hret, fun x hx => (hagree' x hx).trans (hagree x hx)⟩

end Function

/-! ## Programs -/

section Lower

variable {T : SymbolTable} {E : Fault → Prop}

theorem Ir.Function.Simulates.mono {temps temps' : List Ty} {body : List Item} {f : Ir.Function}
    (h : f.Simulates T temps body) (hp : temps <+: temps') : f.Simulates T temps' body := by
  obtain ⟨code, hcode, hsim⟩ := h
  exact ⟨code, hcode, fun w fuel => (hsim w fuel).mono hp⟩

theorem FnHead.lower_simulates (hT : T.IsChecked) (hfree : T.TempFree) {head : FnHead} {body : List Item}
    {temps : List Ty} {st : LoweringState} (hd : (Decl.fn head (some body)).WellTyped T)
    (hl : itemsLabelled none body) (hst : Made T temps st) :
    Ensures (head.lower (some body)) st E fun f st' =>
      ∃ temps', temps <+: temps' ∧ Made T temps' st' ∧ f.Simulates T temps' body := by
  obtain ⟨hf, _, hb⟩ := hd
  rw [FnHead.lower]
  refine .bind (FnHead.isGlobalNow_typed hT hf hst) ?_
  rintro isGlobal _ rfl
  refine .bind (lowerItems_simulates hT.sound hfree body (hb body rfl) hl hst) ?_
  rintro code st₁ ⟨temps₁, hp₁, hst₁, hcode⟩
  refine .pure ⟨temps₁, hp₁, hst₁, code, ?_, hcode⟩
  unfold closing
  split <;> simp_all

theorem lowerFunctions_simulates (hT : T.IsChecked) (hfree : T.TempFree) : ∀ (ds : List Decl) {temps : List Ty}
    {st : LoweringState}, (∀ d ∈ ds, d.WellTyped T) → (∀ d ∈ ds, d.Labelled) → Made T temps st →
    Ensures (lowerFunctions ds) st E fun fs st' => ∃ temps', temps <+: temps' ∧ Made T temps' st' ∧
      List.Forall₂ (fun d f => f.Simulates T temps' d.2) (ds.filterMap Decl.definition?) fs
  | [], temps, st, _, _, hst => by
    rw [lowerFunctions]
    exact .pure ⟨temps, List.prefix_refl temps, hst, .nil⟩
  | .fn head (some body) :: rest, temps, st, hw, hl, hst => by
    rw [lowerFunctions]
    obtain ⟨hd, hw⟩ := List.forall_mem_cons.1 hw
    obtain ⟨hld, hl⟩ := List.forall_mem_cons.1 hl
    refine .bind (FnHead.lower_simulates hT hfree hd hld hst) ?_
    rintro f st₁ ⟨temps₁, hp₁, hst₁, hf⟩
    refine .bind (lowerFunctions_simulates hT hfree rest hw hl hst₁) ?_
    rintro fs st₂ ⟨temps₂, hp₂, hst₂, hfs⟩
    exact .pure ⟨temps₂, hp₁.trans hp₂, hst₂, .cons (hf.mono hp₂) hfs⟩
  | .fn _ none :: rest, temps, st, hw, hl, hst | .var _ :: rest, temps, st, hw, hl, hst => by
    rw [lowerFunctions]
    exact lowerFunctions_simulates hT hfree rest (List.forall_mem_cons.1 hw).2 (List.forall_mem_cons.1 hl).2 hst

theorem Program.lower_simulates (hT : T.IsChecked) (hfree : T.TempFree) {p : Program}
    (hw : ∀ d ∈ p.decls, d.WellTyped T) (hl : ∀ d ∈ p.decls, d.Labelled) :
    ∃ ir temps, p.lower T = .ok (ir, T.withTemps temps) ∧
      List.Forall₂ (fun d f => f.Simulates T temps d.2) (p.decls.filterMap Decl.definition?) ir.functions := by
  have hstart : Made T [] { symbols := T } := ⟨rfl, rfl, by simp⟩
  have hall := lowerFunctions_simulates (E := fun _ => False) hT hfree p.decls hw hl hstart
  obtain ⟨⟨fs, st⟩, hrun, temps, _, hst, hfs⟩ := Yields.exists_ok hall
  refine ⟨{ functions := fs
            statics := (T.withTemps temps).staticVars
            externals := (p.decls.filterMap Decl.externalName?).eraseDups }, temps, ?_, hfs⟩
  rw [Program.lower, hrun, ← hst.symbols]
  rfl

end Lower

/-- The code of a function returns exactly what its body returns if operands are read at use. If they are read at once,
it does so exactly where both readings come to the same, and so wherever no operand may be changed by one to the right
of it. -/
def KeepsMeaning (T T' : SymbolTable) (body : List Item) (code : List Instr) : Prop :=
  ∀ w s σ, s.Agrees σ → Preserves w T T' .atUse body code s σ ∧
    (Realizes w T T' .atOnce body code s σ ↔
      ∀ v s', BodyReturns w T .atOnce body s v s' → ∃ s'', BodyReturns w T .atUse body s v s'' ∧ s'.Agrees s'') ∧
    (itemsKeepOperands T body = true → Preserves w T T' .atOnce body code s σ)

/-- An accepted program is lowered, and each function keeps its meaning. -/
theorem Program.lower_preserves {p q : Program} {T : SymbolTable} (hp : p.IsPlain) (htmp : "tmp" ∉ p.ownNames)
    (ha : p.analyze = .ok (q, T)) : ∃ ir T', q.lower T = .ok (ir, T') ∧
      List.Forall₂ (fun d f => KeepsMeaning T T' d.2 f.code) (q.decls.filterMap Decl.definition?) ir.functions := by
  have h := (Program.analyze_yields hp).of_ok ha
  obtain ⟨ir, temps, hlower, hsim⟩ :=
    Program.lower_simulates h.isChecked (h.tempFree htmp) h.wellTyped h.labelled
  have hlowers := (q.lower_ensures T).of_ok hlower
  refine ⟨ir, T.withTemps temps, hlower, ?_⟩
  rw [List.forall₂_iff_zip] at hsim hlowers ⊢
  refine ⟨hsim.1, fun {d f} hzip w s σ hagree => ?_⟩
  obtain ⟨hnodup, _⟩ := (hlowers.2 hzip).labels h.loops h.labelled (List.of_mem_zip hzip).1
  have hatUse := (hsim.2 hzip).preserves hnodup hagree w
  exact ⟨hatUse, hatUse.realizes_atOnce_iff, hatUse.atOnce⟩

/-- A function that passes its parameter on, and a second argument. -/
def passesOn (a b x : String) (ty : Option Ty) (second : Expr) : Program :=
  ⟨[.fn ⟨⟨"g", .nowhere⟩, [⟨⟨a, .nowhere⟩, .int⟩, ⟨⟨b, .nowhere⟩, .int⟩], .int, false, true⟩ none,
    .fn ⟨⟨"f", .nowhere⟩, [⟨⟨x, .nowhere⟩, .int⟩], .int, true, false⟩
      (some [.stmt (.ret (some (.call { ty } "g" [.var { ty } x, second])) .nowhere)])]⟩

/-- What is known of the names of that program. -/
def passesOnSymbols : SymbolTable :=
  ⟨[("g", ⟨.fn [.int32, .int32] .int32, .function false true⟩), ("a.0", ⟨.int32, .automatic⟩),
    ("b.1", ⟨.int32, .automatic⟩), ("f", ⟨.fn [.int32] .int32, .function true true⟩), ("x.2", ⟨.int32, .automatic⟩)]⟩

/-- The second argument is the parameter with its sign changed. -/
def negated (x : String) (ty : Option Ty) : Expr := .unary { ty } .negate (.var { ty } x)

/-- The second argument is five, which is assigned to the parameter before. -/
def reassigned (x : String) (ty : Option Ty) : Expr := .assign { ty } (.var { ty } x) (.int { ty } 5)

theorem passesOn_negated : (passesOn "a" "b" "x" none (negated "x" none)).analyze =
    .ok (passesOn "a.0" "b.1" "x.2" (some .int32) (negated "x.2" (some .int32)), passesOnSymbols) := rfl

theorem passesOn_reassigned : (passesOn "a" "b" "x" none (reassigned "x" none)).analyze =
    .ok (passesOn "a.0" "b.1" "x.2" (some .int32) (reassigned "x.2" (some .int32)), passesOnSymbols) := rfl

/-- Changing a sign changes no variable. -/
theorem passesOn_preserves : (passesOn "a" "b" "x" none (negated "x" none)).IsPlain ∧
    "tmp" ∉ (passesOn "a" "b" "x" none (negated "x" none)).ownNames ∧
    Expr.allKeepOperands passesOnSymbols [.var {} "x.2", negated "x.2" (some .int32)] = true ∧ ∃ ir T',
      (passesOn "a.0" "b.1" "x.2" (some .int32) (negated "x.2" (some .int32))).lower passesOnSymbols = .ok (ir, T') ∧
      List.Forall₂ (fun d f => KeepsMeaning passesOnSymbols T' d.2 f.code)
        ((passesOn "a.0" "b.1" "x.2" (some .int32) (negated "x.2" (some .int32))).decls.filterMap Decl.definition?)
        ir.functions :=
  ⟨by decide, by decide, by decide, Program.lower_preserves (by decide) (by decide) passesOn_negated⟩

/-- A world in which every call gives back its first argument. -/
def firstArgument : World := { text := fun _ => 0, data := fun _ => 0, call := fun _ args s => (args.headD 0, s) }

/-- The code of the function that assigns to its parameter before it passes it on. -/
def reassignedCode : List Instr :=
  [.copy (.int 5) (.var "x.2"), .call "g" [.var "x.2", .var "x.2"] (.var "tmp.0"), .ret (.var "tmp.0")]

theorem reassigned_lower :
    (passesOn "a.0" "b.1" "x.2" (some .int32) (reassigned "x.2" (some .int32))).lower passesOnSymbols =
      .ok ({ functions := [⟨"f", true, ["x.2"], reassignedCode⟩], externals := ["g"] },
        passesOnSymbols.withTemps [.int32]) := rfl

/-- Started with one in its parameter, that function passes five twice. -/
theorem reassigned_returns : ∃ σ',
    Returns firstArgument (passesOnSymbols.withTemps [.int32]) reassignedCode (fun _ => 1) 5 σ' :=
  ⟨_, _, _, .head (.next rfl) (.single (.next rfl)), rfl⟩

/-- Operands are not always read at once: read from left to right, the first argument is one. -/
theorem reassigned_not_preserved : ¬ ∀ (p q : Program) (T T' : SymbolTable) (ir : Ir.Program), p.IsPlain →
    "tmp" ∉ p.ownNames → p.analyze = .ok (q, T) → q.lower T = .ok (ir, T') →
    List.Forall₂ (fun d f => ∀ w s σ, s.Agrees σ → Realizes w T T' .atOnce d.2 f.code s σ)
      (q.decls.filterMap Decl.definition?) ir.functions := by
  intro hall
  have hpreserved := hall _ _ _ _ _ (by decide) (by decide) passesOn_reassigned reassigned_lower
  obtain ⟨hf, _⟩ := List.forall₂_cons.1 hpreserved
  obtain ⟨σ', hone, _⟩ := hf firstArgument (fun _ => 1) (fun _ => 1) (fun _ _ => rfl) 1 _ ⟨0, .ret 1, rfl, rfl⟩
  obtain ⟨σ'', hfive⟩ := reassigned_returns
  cases (hone.unique hfive).1

end Khel
