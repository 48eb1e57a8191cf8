import Khel.Proofs.Ir.Computes
import Khel.Proofs.Program.Readings
import Khel.Proofs.Typing.Erasure

/-!
# What a call passes

Arguments are evaluated from left to right, and each of them has a value when its turn has come. A call passes that
value for every argument but a plain variable and an assignment: for these it passes whatever the variable holds when
all arguments have had their turn. So it passes the values that the arguments had exactly if no later argument has
changed such a variable, neither by an assignment nor by a call that changes a static variable.

* `Expr.valuesInTurn`: the values of the arguments, each taken in its turn.
* `Expr.passed`: what is passed for an argument.
* `Ir.PassesArguments`: a run comes to the call and passes this.
* `Program.call_passes`: so does the code of every call in an accepted program.
-/

namespace Khel

open Ir

/-- Evaluates expressions from left to right, and takes the value of each when its turn has come. -/
def Expr.valuesInTurn (w : World) (T : SymbolTable) (reading : Reading) : List Expr → Store → Option (List Int × Store)
  | [], s => some ([], s)
  | e :: es, s => do
    let (v, s) ← e.value w T reading s
    let (vs, s) ← Expr.valuesInTurn w T reading es s
    return (v :: vs, s)

/-- What is passed for an argument that had the value `v` in its turn, if `s` is the store after all turns. -/
def Expr.passed (s : Store) (e : Expr) (v : Int) : Int :=
  match e.place? with
  | some x => s x
  | none => v

/-- The variables that arguments stay in hold what the arguments had in their turn. -/
def Expr.Undisturbed (s : Store) (args : List Expr) (vs : List Int) : Prop :=
  List.Forall₂ (fun e v => ∀ x ∈ e.place?, s x = v) args vs

/-! ## Values in turn -/

section InTurn

variable {w : World} {T : SymbolTable} {e : Expr} {s s' : Store}

/-- An expression whose result stays in a variable says in which. -/
theorem Expr.eval_of_place? {x : String} {r : Result} (hx : e.place? = some x)
    (h : e.eval w T .atUse s = some (r, s')) : r = .place x := by
  cases e with
  | var note y =>
    cases hx
    cases h
    rfl
  | assign note target e =>
    cases target with
    | var note' y =>
      cases hx
      simp only [Expr.eval, Option.bind_eq_bind, Option.bind_eq_some_iff, Option.pure_def, Option.some.injEq,
        Prod.mk.injEq] at h
      obtain ⟨t, _, p, _, hr, _⟩ := h
      exact hr.symm
    | _ => cases hx
  | _ => cases hx

/-- Later on, a result is read as what is passed for its expression. -/
theorem Expr.read_eq_passed {r : Result} (h : e.eval w T .atUse s = some (r, s')) (s₁ : Store) :
    r.read s₁ = e.passed s₁ (r.read s') := by
  unfold Expr.passed
  split
  · next x hx => rw [Expr.eval_of_place? hx h, Result.read]
  · next hnone =>
    cases r with
    | value v => rfl
    | place x => cases hnone.symm.trans (Expr.place?_of_eval h)

/-- Arguments evaluated for a call, beside their values in turn. -/
theorem Expr.evalAll_inTurn : ∀ (es : List Expr) (s : Store),
    Option.Rel (fun p q => p.2 = q.2 ∧ ∀ s₁, p.1.map (Result.read s₁) = List.zipWith (Expr.passed s₁) es q.1)
      (Expr.evalAll w T .atUse es s) (Expr.valuesInTurn w T .atUse es s)
  | [], s => .some ⟨rfl, fun _ => rfl⟩
  | e :: es, s => by
    rw [Expr.evalAll, Expr.valuesInTurn, Expr.value]
    cases he : e.eval w T .atUse s with
    | none => exact .none
    | some p =>
      obtain ⟨r, s₁⟩ := p
      have hrest := Expr.evalAll_inTurn es s₁
      simp only [Option.bind_eq_bind, Option.bind_some, Option.pure_def]
      generalize Expr.evalAll w T .atUse es s₁ = o, Expr.valuesInTurn w T .atUse es s₁ = o' at hrest
      cases hrest with
      | none => exact .none
      | some hrest =>
        obtain ⟨heq, hread⟩ := hrest
        refine .some ⟨heq, fun s' => ?_⟩
        rw [List.map_cons, List.zipWith_cons_cons, hread s', Expr.read_eq_passed he s']

theorem Expr.length_valuesInTurn {reading : Reading} : ∀ {es : List Expr} {s s' : Store} {vs : List Int},
    Expr.valuesInTurn w T reading es s = some (vs, s') → vs.length = es.length
  | [], _, _, _, h => by
    cases h
    rfl
  | e :: es, s, s', vs, h => by
    simp only [Expr.valuesInTurn, Option.bind_eq_bind, Option.bind_eq_some_iff] at h
    obtain ⟨⟨v, s₁⟩, _, ⟨vs', s₂⟩, hvs, h⟩ := h
    cases h
    rw [List.length_cons, List.length_cons, Expr.length_valuesInTurn hvs]

/-- What is passed is what the arguments had in their turn exactly if their variables have been left alone. -/
theorem Expr.zipWith_passed_iff (s : Store) : ∀ {es : List Expr} {vs : List Int}, vs.length = es.length →
    (List.zipWith (Expr.passed s) es vs = vs ↔ Expr.Undisturbed s es vs)
  | [], [], _ => by simp [Expr.Undisturbed]
  | e :: es, v :: vs, hlen => by
    have hone : e.passed s v = v ↔ ∀ x ∈ e.place?, s x = v := by
      unfold Expr.passed
      cases e.place? <;> simp
    have hrest : List.zipWith (Expr.passed s) es vs = vs ↔ Expr.Undisturbed s es vs :=
      Expr.zipWith_passed_iff s (by simpa using hlen)
    rw [List.zipWith_cons_cons, List.cons.injEq, Expr.Undisturbed, List.forall₂_cons, hone, hrest, Expr.Undisturbed]

/-- Arguments that change none of the variables of those before them leave all of them undisturbed. -/
theorem Expr.undisturbed_of_allKeep : ∀ {es : List Expr} {s s' : Store} {vs : List Int},
    Expr.allKeepOperands T es = true → Expr.valuesInTurn w T .atUse es s = some (vs, s') →
    Expr.Undisturbed s' es vs
  | [], _, _, _, _, h => by
    cases h
    exact .nil
  | e :: es, s, s', vs, hk, h => by
    simp only [Expr.allKeepOperands, Bool.and_eq_true, Bool.not_eq_true', Option.any_eq_false] at hk
    obtain ⟨⟨_, hes⟩, hkeep⟩ := hk
    simp only [Expr.valuesInTurn, Expr.value, Option.bind_eq_bind, Option.bind_eq_some_iff] at h
    obtain ⟨⟨v, s₁⟩, ⟨⟨r, s₁'⟩, he, hv⟩, ⟨vs', s₂⟩, hvs, h⟩ := h
    cases hv
    cases h
    refine .cons (fun x hx => ?_) (Expr.undisturbed_of_allKeep hes hvs)
    have hrest := Expr.evalAll_inTurn (w := w) (T := T) es s₁'
    rw [hvs] at hrest
    cases hrs : Expr.evalAll w T .atUse es s₁' with
    | none =>
      rw [hrs] at hrest
      cases hrest
    | some p =>
      rw [hrs] at hrest
      cases hrest with
      | some hrest =>
        rw [← hrest.1, Expr.evalAll_leaves es s₁' (hkeep x hx) _ _ hrs, Expr.eval_of_place? hx he, Result.read]

theorem Expr.valuesInTurn_atOnce : ∀ {es : List Expr}, Expr.allKeepOperands T es = true → ∀ s : Store,
    Expr.valuesInTurn w T .atOnce es s = Expr.valuesInTurn w T .atUse es s
  | [], _, _ => rfl
  | e :: es, hk, s => by
    simp only [Expr.allKeepOperands, Bool.and_eq_true] at hk
    obtain ⟨⟨he, hes⟩, _⟩ := hk
    rw [Expr.valuesInTurn, Expr.valuesInTurn, Expr.value_atOnce he]
    refine Option.bind_congr fun p _ => ?_
    obtain ⟨v, s₁⟩ := p
    dsimp only
    rw [Expr.valuesInTurn_atOnce hes s₁]

end InTurn

/-! ## Calls -/

/-- Started with the store `σ`, which agrees with `s`, the code of the arguments `args` comes to the call behind it.
There it passes for each argument what `Expr.passed` says, and these are the values that the arguments had in their turn
exactly if later arguments have left their variables alone. They are also the values that operands read at once come to,
if none of them may be changed by one to the right of it. Where an argument has no value, the run lasts. -/
structure Ir.PassesArguments (w : World) (T T' : SymbolTable) (full : List Instr) (args : List Expr)
    (code : List Instr) (f : String) (values : List Value) (dst : Value) (rest : List Instr) (s σ : Store) : Prop where
  passes : ∀ vs s', Expr.valuesInTurn w T .atUse args s = some (vs, s') → ∃ σ', s'.Agrees σ' ∧
    Steps w T' full (code ++ .call f values dst :: rest, σ) (.call f values dst :: rest, σ') ∧
    values.map (Value.read w σ') = List.zipWith (Expr.passed s') args vs ∧
    (values.map (Value.read w σ') = vs ↔ Expr.Undisturbed s' args vs)
  atOnce : Expr.allKeepOperands T args = true → ∀ vs s', Expr.valuesInTurn w T .atOnce args s = some (vs, s') →
    ∃ σ', s'.Agrees σ' ∧
      Steps w T' full (code ++ .call f values dst :: rest, σ) (.call f values dst :: rest, σ') ∧
      values.map (Value.read w σ') = vs
  lasts : Expr.valuesInTurn w T .atUse args s = none →
    ∀ n, Lasts w T' full n (code ++ .call f values dst :: rest, σ)

section Calls

variable {w : World} {T : SymbolTable} {temps temps' all : List Ty} {args : List Expr} {code full rest : List Instr}
  {values : List Value} {s σ : Store}

theorem Ir.ComputesAll.passesArguments (h : ComputesAll w T temps temps' code values (Expr.evalAll w T .atUse args))
    (hall : temps' <+: all) (hfull : (labels full).Nodup) (f : String) (dst : Value)
    (hs : code ++ .call f values dst :: rest <:+ full) (hagree : s.Agrees σ) :
    PassesArguments w T (T.withTemps all) full args code f values dst rest s σ := by
  have hpasses : ∀ vs s', Expr.valuesInTurn w T .atUse args s = some (vs, s') → ∃ σ', s'.Agrees σ' ∧
      Steps w (T.withTemps all) full (code ++ .call f values dst :: rest, σ) (.call f values dst :: rest, σ') ∧
      values.map (Value.read w σ') = List.zipWith (Expr.passed s') args vs := by
    intro vs s' hvs
    have hturn := Expr.evalAll_inTurn (w := w) (T := T) args s
    have hrun := h (n := 0) hall hfull hs hagree
    rw [hvs] at hturn
    generalize Expr.evalAll w T .atUse args s = o at hturn hrun
    cases hturn with
    | some hturn =>
      obtain ⟨hs', hread⟩ := hturn
      obtain ⟨_, hsteps, σ', rfl, hagree', _, hheld⟩ := hrun
      subst hs'
      exact ⟨σ', hagree', hsteps, (read_of_heldBy hagree' hheld).trans (hread _)⟩
  refine ⟨fun vs s' hvs => ?_, fun hk vs s' hvs => ?_, fun hnone n => ?_⟩
  · obtain ⟨σ', hagree', hsteps, hread⟩ := hpasses vs s' hvs
    refine ⟨σ', hagree', hsteps, hread, ?_⟩
    rw [hread, Expr.zipWith_passed_iff s' (Expr.length_valuesInTurn hvs)]
  · rw [Expr.valuesInTurn_atOnce hk s] at hvs
    obtain ⟨σ', hagree', hsteps, hread⟩ := hpasses vs s' hvs
    refine ⟨σ', hagree', hsteps, hread.trans ?_⟩
    exact (Expr.zipWith_passed_iff s' (Expr.length_valuesInTurn hvs)).2 (Expr.undisturbed_of_allKeep hk hvs)
  · have hturn := Expr.evalAll_inTurn (w := w) (T := T) args s
    have hrun := h (n := n) hall hfull hs hagree
    rw [hnone] at hturn
    generalize Expr.evalAll w T .atUse args s = o at hturn hrun
    cases hturn with
    | none => exact hrun

end Calls

/-- The call is lowered to the code of its arguments and an instruction behind it, which together pass the arguments,
wherever they stand. -/
def Expr.LowersToCall (T : SymbolTable) (temps : List Ty) (st : LoweringState) (note : Note) (f : String)
    (args : List Expr) : Prop :=
  Ensures (Expr.call note f args).lower st (fun _ => False) fun r st' => ∃ code values temps',
    r.1 = code ++ [.call f values r.2] ∧ temps <+: temps' ∧ Made T temps' st' ∧
    ∀ w all full rest s σ, temps' <+: all → (labels full).Nodup → r.1 ++ rest <:+ full → s.Agrees σ →
      PassesArguments w T (T.withTemps all) full args code f values r.2 rest s σ

/-- Every call of an accepted program is lowered like that. -/
theorem Program.call_passes {p q : Program} {T : SymbolTable} {note : Note} {f : String} {args : List Expr}
    {temps : List Ty} {st : LoweringState} (hp : p.IsPlain) (htmp : "tmp" ∉ p.ownNames)
    (ha : p.analyze = .ok (q, T)) (hcall : .call note f args ∈ q.nodes) (hst : Made T temps st) :
    Expr.LowersToCall T temps st note f args := by
  have h := (Program.analyze_yields hp).of_ok ha
  have hwell := Program.nodes_wellTyped h.wellTyped _ hcall
  obtain ⟨t, ht, hv⟩ := hwell.exists_ty h.sound
  obtain ⟨_, params, _, _, _, _, _, hargs⟩ := hwell
  unfold Expr.LowersToCall
  rw [Expr.lower]
  refine .bind (Expr.lowerAll_computes h.sound (h.tempFree htmp) params args hargs hst) ?_
  rintro ⟨code, values⟩ st₁ ⟨temps₁, hp₁, hst₁, hcode⟩
  refine .bind (Expr.recordedTy_of_ty ht st₁) ?_
  rintro ty _ ⟨rfl, rfl⟩
  refine .bind (Lowering.temp_made hst₁ hv) ?_
  rintro dst st₂ ⟨rfl, hst₂⟩
  refine .pure ⟨code, values, _, rfl, hp₁.trans (List.prefix_append temps₁ _), hst₂, ?_⟩
  intro w all full rest s σ hall hfull hs hagree
  rw [List.append_assoc] at hs
  exact (hcode w).passesArguments ((List.prefix_append temps₁ _).trans hall) hfull f _ hs hagree

/-- Assigns a number to a variable. -/
def assigning (x : String) (ty : Option Ty) (n : Int32) : Expr := .assign { ty } (.var { ty } x) (.int { ty } n)

/-- A function that passes on what it assigns to its parameter, first one and then two. -/
def passesAssigned (a b x : String) (ty : Option Ty) : Program :=
  ⟨[.fn ⟨⟨"g", .nowhere⟩, [⟨⟨a, .nowhere⟩, .int⟩, ⟨⟨b, .nowhere⟩, .int⟩], .int, false, true⟩ none,
    .fn ⟨⟨"f", .nowhere⟩, [⟨⟨x, .nowhere⟩, .int⟩], .int, true, false⟩
      (some [.stmt (.ret (some (.call { ty } "g" [assigning x ty 1, assigning x ty 2])) .nowhere)])]⟩

/-- What is known of the names of that program. -/
def passesAssignedSymbols : SymbolTable :=
  ⟨[("g", ⟨.fn [.int32, .int32] .int32, .function false true⟩), ("a.0", ⟨.int32, .automatic⟩),
    ("b.1", ⟨.int32, .automatic⟩), ("f", ⟨.fn [.int32] .int32, .function true true⟩), ("x.2", ⟨.int32, .automatic⟩)]⟩

theorem passesAssigned_analyze : (passesAssigned "a" "b" "x" none).analyze =
    .ok (passesAssigned "a.0" "b.1" "x.2" (some .int32), passesAssignedSymbols) := rfl

theorem passesAssigned_call : (passesAssigned "a" "b" "x" none).IsPlain ∧
    "tmp" ∉ (passesAssigned "a" "b" "x" none).ownNames ∧
    Expr.LowersToCall passesAssignedSymbols [] { symbols := passesAssignedSymbols } { ty := some .int32 } "g"
      [assigning "x.2" (some .int32) 1, assigning "x.2" (some .int32) 2] :=
  ⟨by decide, by decide, Program.call_passes (by decide) (by decide) passesAssigned_analyze List.mem_cons_self
    ⟨rfl, rfl, by simp⟩⟩

/-- Not every argument is passed with the value that it had in its turn: one was assigned to the parameter first and
passed, but the call is given two in its place. -/
theorem passesAssigned_overwritten : ¬ ∀ (p q : Program) (T : SymbolTable) (note : Note) (f : String)
    (args : List Expr) (code : List Instr) (values : List Value) (dst : Value) (st' : LoweringState), p.IsPlain →
    "tmp" ∉ p.ownNames → p.analyze = .ok (q, T) → .call note f args ∈ q.nodes →
    (Expr.call note f args).lower.run { symbols := T } = .ok ((code ++ [.call f values dst], dst), st') →
    ∀ w s vs s' σ', Expr.valuesInTurn w T .atOnce args s = some (vs, s') →
      Steps w st'.symbols (code ++ [.call f values dst]) (code ++ [.call f values dst], s) ([.call f values dst], σ') →
      values.map (Value.read w σ') = vs := by
  intro hall
  have hvalues := hall _ _ _ _ _ _ [.copy (.int 1) (.var "x.2"), .copy (.int 2) (.var "x.2")]
    [.var "x.2", .var "x.2"] (.var "tmp.0") _ (by decide) (by decide) passesAssigned_analyze List.mem_cons_self rfl
    ⟨fun _ => 0, fun _ => 0, fun _ _ s => (0, s)⟩ (fun _ => 0) [1, 2] _ _ rfl
    (.head (.next rfl) (.single (.next rfl)))
  exact absurd hvalues (by decide)

end Khel
