import Khel.Proofs.Ir.Temps

/-!
# The steps of lowering

Whatever is lowered, lowering changes its state in two ways only: it makes a temporary, or it makes a label. So what
these two steps keep is kept by lowering as a whole, of any program and whether it is typed or not.

* `Ir.LoweringState.Reaches`: one state is reached from another by such steps.
* `Expr.lower_mints`, `Stmt.lower_mints`, `Program.lower_mints`: lowering reaches its last state from its first.
* `Ir.LoweringState.Reaches.exists_temps`: the symbols of a state are those of the first one and the temporaries.
-/

namespace Khel

namespace Ir

/-! ## States -/

namespace LoweringState

/-- The state with one more temporary, which takes the next name. -/
def addTemp (st : LoweringState) (ty : Ty) : LoweringState :=
  { st with symbols := st.symbols.set (numbered "tmp" st.temps) ⟨ty, .automatic⟩, temps := st.temps + 1 }

/-- The state with one more label. -/
def addLabel (st : LoweringState) : LoweringState := { st with labels := st.labels + 1 }

/-- A temporary or a label is made. -/
inductive Step (st : LoweringState) : LoweringState → Prop where
  | temp (ty : Ty) : Step st (st.addTemp ty)
  | label : Step st st.addLabel

/-- Temporaries and labels are made one after the other. -/
def Reaches : LoweringState → LoweringState → Prop := Relation.ReflTransGen Step

theorem Reaches.refl (st : LoweringState) : st.Reaches st := Relation.ReflTransGen.refl

theorem Reaches.trans {st st' st'' : LoweringState} (h : st.Reaches st') (h' : st'.Reaches st'') : st.Reaches st'' :=
  Relation.ReflTransGen.trans h h'

theorem Step.reaches {st st' : LoweringState} (h : st.Step st') : st.Reaches st' := Relation.ReflTransGen.single h

/-- What a step keeps is kept all the way. -/
theorem Reaches.keeps {P : LoweringState → Prop} (hstep : ∀ st st', st.Step st' → P st → P st') {st st' : LoweringState}
    (h : st.Reaches st') (hst : P st) : P st' := by
  induction h with
  | refl => exact hst
  | tail _ hlast ih => exact hstep _ _ hlast ih

/-- The state has the symbols of `T` and its temporaries, and counts the temporaries. -/
def HasTemps (T : SymbolTable) (st : LoweringState) : Prop :=
  ∃ temps, st.symbols = T.withTemps temps ∧ st.temps = temps.length

theorem Step.hasTemps {T : SymbolTable} {st st' : LoweringState} (h : st.Step st') (hst : st.HasTemps T) :
    st'.HasTemps T := by
  obtain ⟨temps, hsymbols, hcount⟩ := hst
  cases h with
  | temp ty =>
    refine ⟨temps ++ [ty], ?_, by simp [addTemp, hcount]⟩
    rw [SymbolTable.withTemps_snoc, addTemp, hsymbols, hcount]
  | label => exact ⟨temps, hsymbols, hcount⟩

/-- The symbols of a state are those at the start and the temporaries made since. -/
theorem Reaches.exists_temps {T : SymbolTable} {st : LoweringState} (h : Reaches { symbols := T } st) :
    ∃ temps, st.symbols = T.withTemps temps ∧ st.temps = temps.length :=
  h.keeps (P := HasTemps T) (fun _ _ => Step.hasTemps) ⟨[], rfl, rfl⟩

end LoweringState

/-! ## Steps -/

open LoweringState

/-- From any state the step ends in one that is reached from there, if it ends well. -/
def Lowering.Mints {α : Type} (m : Lowering α) : Prop :=
  ∀ st : LoweringState, Ensures m st (fun _ => True) fun _ st' => st.Reaches st'

namespace Lowering

variable {α β : Type}

theorem Mints.pure (a : α) : Mints (Pure.pure a : Lowering α) := fun st => Ensures.pure (.refl st)

theorem Mints.bind {m : Lowering α} {f : α → Lowering β} (hm : Mints m) (hf : ∀ a, Mints (f a)) : Mints (m >>= f) :=
  fun st => Ensures.bind (hm st) fun a st₁ h₁ => (hf a st₁).mono fun _ _ h₂ => h₁.trans h₂

/-- A step that only looks at the state. -/
theorem Mints.of_reads {m : Lowering α} (h : ∀ st, Ensures m st (fun _ => True) fun _ st' => st' = st) : Mints m :=
  fun st => (h st).mono fun _ _ he => he ▸ .refl st

theorem temp_mints (ty : Ty) : Mints (temp ty) :=
  fun _ => Ensures.get_bind <| Ensures.set_bind <| Ensures.pure (Step.temp ty).reaches

theorem label_mints (stem : String) : Mints (label stem) :=
  fun _ => Ensures.get_bind <| Ensures.set_bind <| Ensures.pure Step.label.reaches

theorem unexpected_mints (detail : String) : Mints (unexpected detail : Lowering α) := fun _ => Ensures.throw trivial

theorem loopId_mints (statement : String) (id : Option String) : Mints (loopId statement id) :=
  .of_reads fun st => (loopId_ensures statement id st).mono fun _ _ h => h.2

end Lowering

end Ir

open Ir

theorem Expr.recordedTy_mints (e : Expr) : e.recordedTy.Mints :=
  .of_reads fun st => (e.recordedTy_ensures st).mono fun _ _ h => h.2

/-! ## Expressions -/

mutual
theorem Expr.lower_mints : ∀ e : Expr, e.lower.Mints
  | .int .. | .long .. | .str .. | .var .. => by
    rw [Expr.lower]
    exact .pure _
  | .call note f args => by
    rw [Expr.lower]
    exact .bind (Expr.lowerAll_mints args) fun _ => .bind (Expr.recordedTy_mints _) fun ty =>
      .bind (Lowering.temp_mints ty) fun _ => .pure _
  | .unary note op a => by
    rw [Expr.lower]
    exact .bind a.lower_mints fun _ => .bind (Expr.recordedTy_mints _) fun ty =>
      .bind (Lowering.temp_mints ty) fun _ => .pure _
  | .binary _ .logicalAnd l r | .binary _ .logicalOr l r => by
    rw [Expr.lower]
    exact .bind (Lowering.label_mints _) fun _ => .bind (Lowering.label_mints _) fun _ =>
      .bind (Lowering.temp_mints _) fun _ => .bind l.lower_mints fun _ => .bind r.lower_mints fun _ => .pure _
  | .binary note (.strict op) l r | .range note l r => by
    rw [Expr.lower]
    exact .bind l.lower_mints fun _ => .bind r.lower_mints fun _ => .bind (Expr.recordedTy_mints _) fun ty =>
      .bind (Lowering.temp_mints ty) fun _ => .pure _
  | .assign _ target value => by
    unfold Expr.lower
    split
    · exact .bind value.lower_mints fun _ => .pure _
    · exact Lowering.unexpected_mints _
  | .cond note c t f => by
    rw [Expr.lower]
    exact .bind (Lowering.label_mints _) fun _ => .bind (Lowering.label_mints _) fun _ =>
      .bind (Expr.recordedTy_mints _) fun ty => .bind (Lowering.temp_mints ty) fun _ => .bind c.lower_mints fun _ =>
      .bind t.lower_mints fun _ => .bind f.lower_mints fun _ => .pure _
  | .cast _ target a => by
    rw [Expr.lower]
    refine .bind a.lower_mints fun _ => .bind a.recordedTy_mints fun _ => ?_
    split
    · exact .bind (Lowering.temp_mints _) fun _ => .pure _
    · exact .bind (Lowering.temp_mints _) fun _ => .pure _
    · exact .pure _

theorem Expr.lowerAll_mints : ∀ es : List Expr, (Expr.lowerAll es).Mints
  | [] => by
    rw [Expr.lowerAll]
    exact .pure _
  | e :: es => by
    rw [Expr.lowerAll]
    exact .bind e.lower_mints fun _ => .bind (Expr.lowerAll_mints es) fun _ => .pure _
end

/-! ## Statements -/

theorem VarDecl.lower_mints (d : VarDecl) : d.lower.Mints := by
  unfold VarDecl.lower
  split
  · next e _ _ => exact .bind e.lower_mints fun _ => .pure _
  · exact .pure _

theorem Ident.loopTy_mints (ident : Ident) : ident.loopTy.Mints :=
  .of_reads fun st => (ident.loopTy_ensures st).mono fun _ _ h => h.1

mutual
theorem Stmt.lower_mints : ∀ s : Stmt, s.lower.Mints
  | .eval e => by
    rw [Stmt.lower]
    exact .bind e.lower_mints fun _ => .pure _
  | .ret none _ | .skip => by
    rw [Stmt.lower]
    exact .pure _
  | .ret (some e) _ => by
    rw [Stmt.lower]
    exact .bind e.lower_mints fun _ => .pure _
  | .ifThen c s => by
    rw [Stmt.lower]
    exact .bind (Lowering.label_mints _) fun _ => .bind c.lower_mints fun _ => .bind s.lower_mints fun _ => .pure _
  | .ifElse c s t => by
    rw [Stmt.lower]
    exact .bind (Lowering.label_mints _) fun _ => .bind (Lowering.label_mints _) fun _ =>
      .bind c.lower_mints fun _ => .bind s.lower_mints fun _ => .bind t.lower_mints fun _ => .pure _
  | .block items => by
    rw [Stmt.lower]
    exact lowerItems_mints items
  | .whileLoop c body id => by
    rw [Stmt.lower]
    exact .bind (Lowering.loopId_mints _ id) fun _ => .bind (Lowering.label_mints _) fun _ =>
      .bind c.lower_mints fun _ => .bind (lowerItems_mints body) fun _ => .pure _
  | .loop var control body id => by
    rw [Stmt.lower]
    refine .bind (Lowering.loopId_mints _ id) fun _ => .bind (Lowering.label_mints _) fun _ => ?_
    split
    · next ident _ l r =>
      exact .bind ident.loopTy_mints fun _ => .bind l.lower_mints fun _ => .bind r.lower_mints fun _ =>
        .bind (Lowering.temp_mints _) fun _ => .bind (lowerItems_mints body) fun _ => .pure _
    · exact .bind control.lower_mints fun _ => .bind (lowerItems_mints body) fun _ => .pure _
  | .leave _ id | .next _ id => by
    rw [Stmt.lower]
    exact .bind (Lowering.loopId_mints _ id) fun _ => .pure _

theorem lowerItems_mints : ∀ items : List Item, (lowerItems items).Mints
  | [] => by
    rw [lowerItems]
    exact .pure _
  | .stmt s :: rest => by
    rw [lowerItems]
    exact .bind s.lower_mints fun _ => .bind (lowerItems_mints rest) fun _ => .pure _
  | .var d :: rest => by
    rw [lowerItems]
    exact .bind d.lower_mints fun _ => .bind (lowerItems_mints rest) fun _ => .pure _
  | .fn .. :: _ => by
    rw [lowerItems]
    exact Lowering.unexpected_mints _
end

/-! ## Programs -/

/-- On the way between two states the name was that of a function. -/
def Ir.LoweringState.SawFunction (st st' : LoweringState) (f : String) : Prop :=
  ∃ st₁, st.Reaches st₁ ∧ st₁.Reaches st' ∧ (st₁.symbols.get? f).any Symbol.isFunction = true

theorem FnHead.isGlobalNow_ensures (head : FnHead) (st : LoweringState) :
    Ensures head.isGlobalNow st (fun _ => True) fun _ st' =>
      st' = st ∧ (st.symbols.get? head.ident.name).any Symbol.isFunction = true := by
  refine .get_bind ?_
  split
  · next h => exact .pure ⟨rfl, by rw [h]; rfl⟩
  · exact .throw trivial
  · exact .throw trivial

theorem FnHead.lower_mints (head : FnHead) (body : List Item) (st : LoweringState) :
    Ensures (head.lower (some body)) st (fun _ => True) fun f st' => st.Reaches st' ∧ st.SawFunction st' f.name := by
  rw [FnHead.lower]
  refine .bind (head.isGlobalNow_ensures st) ?_
  rintro isGlobal _ ⟨rfl, hf⟩
  exact .bind (lowerItems_mints body _) fun code st' h => .pure ⟨h, _, .refl _, h, hf⟩

theorem lowerFunctions_mints : ∀ (ds : List Decl) (st : LoweringState),
    Ensures (lowerFunctions ds) st (fun _ => True) fun fs st' =>
      st.Reaches st' ∧ ∀ f ∈ fs, st.SawFunction st' f.name
  | [], st => by
    rw [lowerFunctions]
    exact .pure ⟨.refl st, by simp⟩
  | .fn head (some body) :: rest, st => by
    rw [lowerFunctions]
    refine .bind (head.lower_mints body st) ?_
    rintro f st₁ ⟨h₁, st₂, hbefore, hafter, hf⟩
    refine .bind (lowerFunctions_mints rest st₁) ?_
    rintro fs st' ⟨h', hfs⟩
    refine .pure ⟨h₁.trans h', List.forall_mem_cons.2 ⟨⟨st₂, hbefore, hafter.trans h', hf⟩, fun g hg => ?_⟩⟩
    obtain ⟨st₃, hbefore', hafter', hg⟩ := hfs g hg
    exact ⟨st₃, h₁.trans hbefore', hafter', hg⟩
  | .fn _ none :: rest, st | .var _ :: rest, st => by
    rw [lowerFunctions]
    exact lowerFunctions_mints rest st

/-- Lowering a program takes the steps that lowering its functions takes. -/
theorem Program.lower_mints {p : Program} {T T' : SymbolTable} {ir : Ir.Program} (h : p.lower T = .ok (ir, T')) :
    ∃ st, (lowerFunctions p.decls).run { symbols := T } = .ok (ir.functions, st) ∧ st.symbols = T' ∧
      ir.statics = T'.staticVars ∧ LoweringState.Reaches { symbols := T } st ∧
      ∀ f ∈ ir.functions, LoweringState.SawFunction { symbols := T } st f.name := by
  unfold Program.lower at h
  cases hrun : (lowerFunctions p.decls).run { symbols := T } with
  | error e =>
    rw [hrun] at h
    cases h
  | ok r =>
    obtain ⟨fs, st⟩ := r
    rw [hrun] at h
    cases h
    exact ⟨st, rfl, rfl, rfl, (lowerFunctions_mints p.decls _).of_ok hrun⟩

end Khel
