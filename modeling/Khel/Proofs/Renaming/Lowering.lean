import Khel.Ir.Lowering.Program
import Khel.Proofs.Renaming.Blind
import Khel.Proofs.Renaming.Mirrors

/-!
# Lowering sees no names

Lowering copies names into the code and makes names for temporaries. So the code of a program with other names is the code
with other names, as long as the names of temporaries stay as they are.

* `Ir.Program.rename`: intermediate code with its names replaced; labels are no names.
* `Expr.lower_shadows`, `Stmt.lower_shadows`, `Program.lower_mirrors`.
-/

namespace Khel

open Ir

/-! ## Intermediate code with other names -/

namespace Ir

/-- Replaces the name in a value. -/
def Value.rename (ρ : String → String) : Value → Value
  | .var x => .var (ρ x)
  | v => v

/-- Replaces the names in an instruction. -/
def Instr.rename (ρ : String → String) : Instr → Instr
  | .ret v => .ret (v.rename ρ)
  | .signExtend src dst => .signExtend (src.rename ρ) (dst.rename ρ)
  | .truncate src dst => .truncate (src.rename ρ) (dst.rename ρ)
  | .unary op src dst => .unary op (src.rename ρ) (dst.rename ρ)
  | .binary op l r dst => .binary op (l.rename ρ) (r.rename ρ) (dst.rename ρ)
  | .copy src dst => .copy (src.rename ρ) (dst.rename ρ)
  | .jump target => .jump target
  | .jumpIfZero test target => .jumpIfZero (test.rename ρ) target
  | .jumpIfNotZero test target => .jumpIfNotZero (test.rename ρ) target
  | .label id => .label id
  | .call f args dst => .call (ρ f) (args.map (Value.rename ρ)) (dst.rename ρ)

@[simp] theorem Value.rename_int (ρ : String → String) (v : Int32) : (Value.int v).rename ρ = .int v := rfl

@[simp] theorem Value.rename_var (ρ : String → String) (x : String) : (Value.var x).rename ρ = .var (ρ x) := rfl

@[simp] theorem Value.rename_ofTy (ρ : String → String) (v : Int32) (ty : Ty) :
    (Value.ofTy v ty).rename ρ = Value.ofTy v ty := by
  cases ty <;> rfl

attribute [simp] Instr.rename

/-- Replaces the names in a piece of code and in the value that it leaves. -/
def renameCode (ρ : String → String) : List Instr × Value → List Instr × Value :=
  Prod.map (List.map (Instr.rename ρ)) (Value.rename ρ)

/-- Replaces the names in a function. -/
def Function.rename (ρ : String → String) (f : Function) : Function :=
  { f with name := ρ f.name, params := f.params.map ρ, code := f.code.map (Instr.rename ρ) }

/-- Replaces the name of a static variable. -/
def StaticVar.rename (ρ : String → String) (v : StaticVar) : StaticVar := { v with name := ρ v.name }

/-- Replaces the names that a program defines. -/
def Program.rename (ρ : String → String) (p : Program) : Program :=
  { p with functions := p.functions.map (Function.rename ρ), statics := p.statics.map (StaticVar.rename ρ) }

/-- Replaces the names in the table that lowering has so far. -/
def LoweringState.rename (ρ : String → String) (s : LoweringState) : LoweringState :=
  { s with symbols := s.symbols.rename ρ }

end Ir

/-- A replacement of names that keeps them apart and leaves the names of temporaries. -/
structure SparesTemps (ρ : String → String) : Prop where
  injective : Function.Injective ρ
  temp : ∀ n, ρ (numbered "tmp" n) = numbered "tmp" n

section Lower

variable {ρ : String → String}

/-! ## Steps -/

theorem Lowering.temp_shadows (hρ : SparesTemps ρ) (ty : Ty) :
    Shadows (LoweringState.rename ρ) (Value.rename ρ) (Lowering.temp ty) (Lowering.temp ty) := by
  apply Shadows.get_bind
  intro s
  -- Both runs have made equally many temporaries, so they make one of the same name.
  have hset := s.symbols.set_rename hρ.injective (numbered "tmp" s.temps) ⟨ty, .automatic⟩
  rw [hρ.temp] at hset
  apply Shadows.set_bind
  · show LoweringState.mk _ _ _ = LoweringState.mk _ _ _
    rw [← hset]
    rfl
  · exact .pure (congrArg Value.var (hρ.temp s.temps).symm)

theorem Lowering.label_shadows (stem : String) :
    Shadows (LoweringState.rename ρ) id (Lowering.label stem) (Lowering.label stem) := fun _ => rfl

theorem Lowering.loopId_shadows (statement : String) (id? : Option String) :
    Shadows (LoweringState.rename ρ) id (Lowering.loopId statement id?) (Lowering.loopId statement id?) := by
  cases id? with
  | some id => exact .pure rfl
  | none => exact .throw _ _

theorem Expr.recordedTy_shadows (e : Expr) :
    Shadows (LoweringState.rename ρ) id e.recordedTy (e.blind ρ).recordedTy := by
  unfold Expr.recordedTy
  rw [Expr.ty_blind]
  cases e.ty with
  | some t => exact .pure rfl
  | none => exact .throw _ _

/-! ## Expressions -/

mutual
theorem Expr.lower_shadows (hρ : SparesTemps ρ) : ∀ e : Expr,
    Shadows (LoweringState.rename ρ) (renameCode ρ) e.lower (e.blind ρ).lower
  | .int .. | .long .. | .str .. | .var .. => by
    rw [Expr.blind, Expr.lower, Expr.lower]
    exact .pure rfl
  | .call note f args => by
    rw [Expr.blind, Expr.lower, Expr.lower]
    apply Shadows.bind (Expr.lowerAll_shadows hρ args)
    intro r
    apply Shadows.bind (Expr.recordedTy_shadows (.call note f args))
    intro ty
    apply Shadows.bind (Lowering.temp_shadows hρ ty)
    intro dst
    exact .pure (by simp [renameCode])
  | .unary note op a => by
    rw [Expr.blind, Expr.lower, Expr.lower]
    apply Shadows.bind (a.lower_shadows hρ)
    intro r
    apply Shadows.bind (Expr.recordedTy_shadows (.unary note op a))
    intro ty
    apply Shadows.bind (Lowering.temp_shadows hρ ty)
    intro dst
    exact .pure (by simp [renameCode])
  | .binary note .logicalAnd l r | .binary note .logicalOr l r => by
    rw [Expr.blind, Expr.lower, Expr.lower]
    apply Shadows.bind (Lowering.label_shadows _)
    intro short
    apply Shadows.bind (Lowering.label_shadows _)
    intro done
    apply Shadows.bind (Lowering.temp_shadows hρ _)
    intro dst
    apply Shadows.bind (l.lower_shadows hρ)
    intro left
    apply Shadows.bind (r.lower_shadows hρ)
    intro right
    exact .pure (by simp [renameCode, andCode, orCode])
  | .binary note (.strict op) l r => by
    rw [Expr.blind, Expr.lower, Expr.lower]
    apply Shadows.bind (l.lower_shadows hρ)
    intro left
    apply Shadows.bind (r.lower_shadows hρ)
    intro right
    apply Shadows.bind (Expr.recordedTy_shadows (.binary note (.strict op) l r))
    intro ty
    apply Shadows.bind (Lowering.temp_shadows hρ ty)
    intro dst
    exact .pure (by simp [renameCode])
  | .assign note target value => by
    cases target with
    | var _ x =>
      rw [Expr.blind, Expr.blind, Expr.lower, Expr.lower]
      apply Shadows.bind (value.lower_shadows hρ)
      intro r
      exact .pure (by simp [renameCode])
    | _ =>
      simp only [Expr.blind, Expr.lower]
      exact .throw _ _
  | .cond note c t f => by
    rw [Expr.blind, Expr.lower, Expr.lower]
    apply Shadows.bind (Lowering.label_shadows _)
    intro isFalse
    apply Shadows.bind (Lowering.label_shadows _)
    intro done
    apply Shadows.bind (Expr.recordedTy_shadows (.cond note c t f))
    intro ty
    apply Shadows.bind (Lowering.temp_shadows hρ ty)
    intro dst
    apply Shadows.bind (c.lower_shadows hρ)
    intro test
    apply Shadows.bind (t.lower_shadows hρ)
    intro yes
    apply Shadows.bind (f.lower_shadows hρ)
    intro no
    exact .pure (by simp [renameCode, condCode])
  | .range note l r => by
    rw [Expr.blind, Expr.lower, Expr.lower]
    apply Shadows.bind (l.lower_shadows hρ)
    intro first
    apply Shadows.bind (r.lower_shadows hρ)
    intro last
    apply Shadows.bind (Expr.recordedTy_shadows (.range note l r))
    intro ty
    apply Shadows.bind (Lowering.temp_shadows hρ ty)
    intro dst
    exact .pure (by simp [renameCode])
  | .cast note target a => by
    rw [Expr.blind, Expr.lower, Expr.lower]
    apply Shadows.bind (a.lower_shadows hρ)
    intro r
    apply Shadows.bind a.recordedTy_shadows
    intro ty
    dsimp only [id]
    split
    · apply Shadows.bind (Lowering.temp_shadows hρ _)
      intro dst
      exact .pure (by simp [renameCode])
    · apply Shadows.bind (Lowering.temp_shadows hρ _)
      intro dst
      exact .pure (by simp [renameCode])
    · exact .pure rfl

theorem Expr.lowerAll_shadows (hρ : SparesTemps ρ) : ∀ es : List Expr,
    Shadows (LoweringState.rename ρ) (Prod.map (List.map (Instr.rename ρ)) (List.map (Value.rename ρ)))
      (Expr.lowerAll es) (Expr.lowerAll (Expr.allBlind ρ es))
  | [] => by
    rw [Expr.allBlind, Expr.lowerAll]
    exact .pure rfl
  | e :: es => by
    rw [Expr.allBlind, Expr.lowerAll, Expr.lowerAll]
    apply Shadows.bind (e.lower_shadows hρ)
    intro r
    exact .bind (Expr.lowerAll_shadows hρ es) fun _ => .pure (by simp)
end

/-! ## Statements -/

theorem Ident.loopTy_shadows (hρ : SparesTemps ρ) (ident : Ident) :
    Shadows (LoweringState.rename ρ) id ident.loopTy ((Change.blind ρ).ident ident).loopTy := by
  apply Shadows.get_bind
  intro s
  have hsymbol : (s.rename ρ).symbols.get? ((Change.blind ρ).ident ident).name = s.symbols.get? ident.name :=
    s.symbols.get?_rename hρ.injective ident.name
  rw [hsymbol]
  cases s.symbols.get? ident.name with
  | some symbol => exact .pure rfl
  | none => exact .throw _ _

theorem VarDecl.lower_shadows (hρ : SparesTemps ρ) (d : VarDecl) :
    Shadows (LoweringState.rename ρ) (List.map (Instr.rename ρ)) d.lower (d.changeLocal (.blind ρ)).lower := by
  obtain ⟨ident, type, init, storage⟩ := d
  cases storage with
  | some storage => exact .pure rfl
  | none =>
    cases init with
    | none => exact .pure rfl
    | some e =>
      have hname : (VarDecl.changeLocal (.blind ρ) ⟨ident, type, some e, none⟩).ident.name = ρ ident.name := rfl
      exact .bind (e.lower_shadows hρ) fun _ => .pure (by simp [hname])

/-- A loop that tests before each round, if its body is lowered alike. -/
theorem whileCode_shadows (hρ : SparesTemps ρ) (start id : String) (test : Expr) {body : List Item}
    (hbody : Shadows (LoweringState.rename ρ) (List.map (Instr.rename ρ)) (lowerItems body)
      (lowerItems (changeItems (.blind ρ) body))) :
    Shadows (LoweringState.rename ρ) (List.map (Instr.rename ρ))
      (do return whileCode start id (← test.lower) (← lowerItems body))
      (do return whileCode start id (← (test.blind ρ).lower) (← lowerItems (changeItems (.blind ρ) body))) := by
  apply Shadows.bind (test.lower_shadows hρ)
  intro test
  apply Shadows.bind hbody
  intro body
  exact .pure (by simp [renameCode, whileCode])

mutual
theorem Stmt.lower_shadows (hρ : SparesTemps ρ) : ∀ s : Stmt,
    Shadows (LoweringState.rename ρ) (List.map (Instr.rename ρ)) s.lower (s.change (.blind ρ)).lower
  | .eval e => by
    rw [Stmt.change, Stmt.lower, Stmt.lower]
    exact .bind (e.lower_shadows hρ) fun _ => .pure rfl
  | .ret none _ => by
    rw [Stmt.change, Option.map_none, Stmt.lower, Stmt.lower]
    exact .pure rfl
  | .ret (some e) _ => by
    rw [Stmt.change, Option.map_some, Stmt.lower, Stmt.lower]
    exact .bind (e.lower_shadows hρ) fun _ => .pure (by simp)
  | .ifThen c s => by
    rw [Stmt.change, Stmt.lower, Stmt.lower]
    apply Shadows.bind (Lowering.label_shadows _)
    intro done
    apply Shadows.bind (c.lower_shadows hρ)
    intro test
    apply Shadows.bind (s.lower_shadows hρ)
    intro yes
    exact .pure (by simp [renameCode, ifThenCode])
  | .ifElse c s t => by
    rw [Stmt.change, Stmt.lower, Stmt.lower]
    apply Shadows.bind (Lowering.label_shadows _)
    intro isFalse
    apply Shadows.bind (Lowering.label_shadows _)
    intro done
    apply Shadows.bind (c.lower_shadows hρ)
    intro test
    apply Shadows.bind (s.lower_shadows hρ)
    intro yes
    apply Shadows.bind (t.lower_shadows hρ)
    intro no
    exact .pure (by simp [renameCode, ifElseCode])
  | .block items => by
    rw [Stmt.change, Stmt.lower, Stmt.lower]
    exact lowerItems_shadows hρ items
  | .whileLoop c body id => by
    rw [Stmt.change, Stmt.lower, Stmt.lower]
    apply Shadows.bind (Lowering.loopId_shadows _ id)
    intro id
    apply Shadows.bind (Lowering.label_shadows _)
    intro start
    exact whileCode_shadows hρ start id c (lowerItems_shadows hρ body)
  | .loop var control body id => by
    rw [Stmt.change, Stmt.lower, Stmt.lower]
    apply Shadows.bind (Lowering.loopId_shadows _ id)
    intro id
    apply Shadows.bind (Lowering.label_shadows _)
    intro start
    cases var with
    | none => exact whileCode_shadows hρ start id control (lowerItems_shadows hρ body)
    | some ident =>
      cases control with
      | range _ l r =>
        apply Shadows.bind (ident.loopTy_shadows hρ)
        intro ty
        apply Shadows.bind (l.lower_shadows hρ)
        intro first
        apply Shadows.bind (r.lower_shadows hρ)
        intro last
        apply Shadows.bind (Lowering.temp_shadows hρ _)
        intro inRange
        apply Shadows.bind (lowerItems_shadows hρ body)
        intro body
        exact .pure (by simp [renameCode, rangeCode, Change.blind])
      | _ => exact whileCode_shadows hρ start id _ (lowerItems_shadows hρ body)
  | .leave _ id => by
    rw [Stmt.change, Stmt.lower, Stmt.lower]
    exact .bind (Lowering.loopId_shadows _ id) fun _ => .pure rfl
  | .next _ id => by
    rw [Stmt.change, Stmt.lower, Stmt.lower]
    exact .bind (Lowering.loopId_shadows _ id) fun _ => .pure rfl
  | .skip => by
    rw [Stmt.change, Stmt.lower]
    exact .pure rfl

theorem lowerItems_shadows (hρ : SparesTemps ρ) : ∀ items : List Item,
    Shadows (LoweringState.rename ρ) (List.map (Instr.rename ρ)) (lowerItems items)
      (lowerItems (changeItems (.blind ρ) items))
  | [] => by
    rw [changeItems, lowerItems]
    exact .pure rfl
  | .stmt s :: rest => by
    rw [changeItems, lowerItems, lowerItems]
    apply Shadows.bind (s.lower_shadows hρ)
    intro code
    exact .bind (lowerItems_shadows hρ rest) fun _ => .pure (by simp)
  | .var d :: rest => by
    rw [changeItems, lowerItems, lowerItems]
    apply Shadows.bind (d.lower_shadows hρ)
    intro code
    exact .bind (lowerItems_shadows hρ rest) fun _ => .pure (by simp)
  | .fn head body :: rest => by
    rw [changeItems, lowerItems, lowerItems]
    exact .throw _ _
end

/-! ## Programs -/

mutual
theorem Stmt.hasReturn_change (c : Change) : ∀ s : Stmt, (s.change c).hasReturn = s.hasReturn
  | .eval _ | .ret .. | .leave .. | .next .. | .skip => rfl
  | .ifThen _ s => s.hasReturn_change c
  | .ifElse _ s t => by rw [Stmt.change, Stmt.hasReturn, Stmt.hasReturn, s.hasReturn_change c, t.hasReturn_change c]
  | .block items | .whileLoop _ items _ | .loop _ _ items _ => itemsHaveReturn_change c items

theorem itemsHaveReturn_change (c : Change) : ∀ items : List Item,
    itemsHaveReturn (changeItems c items) = itemsHaveReturn items
  | [] => rfl
  | .stmt s :: rest => by
    rw [changeItems, itemsHaveReturn, itemsHaveReturn, s.hasReturn_change c, itemsHaveReturn_change c rest]
  | .var _ :: rest | .fn .. :: rest => itemsHaveReturn_change c rest
end

theorem FnHead.isGlobalNow_shadows (hρ : SparesTemps ρ) (head : FnHead) :
    Shadows (LoweringState.rename ρ) id head.isGlobalNow (head.change (.blind ρ)).isGlobalNow := by
  apply Shadows.get_bind
  intro s
  have hsymbol : (s.rename ρ).symbols.get? (head.change (.blind ρ)).ident.name = s.symbols.get? head.ident.name :=
    s.symbols.get?_rename hρ.injective head.ident.name
  rw [hsymbol]
  split
  · exact .pure rfl
  · exact .throw _ _
  · exact .throw _ _

theorem FnHead.lower_shadows (hρ : SparesTemps ρ) (head : FnHead) (body : List Item) :
    Shadows (LoweringState.rename ρ) (Function.rename ρ) (head.lower (some body))
      ((head.change (.blind ρ)).lower (some (changeItems (.blind ρ) body))) := by
  rw [FnHead.lower, FnHead.lower]
  rw [itemsHaveReturn_change]
  apply Shadows.bind (head.isGlobalNow_shadows hρ)
  intro isGlobal
  apply Shadows.bind (lowerItems_shadows hρ body)
  intro code
  apply Shadows.pure
  have hparams : (head.params.map (Param.change (.blind ρ))).map (fun p => p.ident.name) =
      (head.params.map fun p => p.ident.name).map ρ := by
    rw [List.map_map, List.map_map]
    rfl
  have hcode : (if itemsHaveReturn body then code.map (Instr.rename ρ) else code.map (Instr.rename ρ) ++ [.ret (.int 0)]) =
      (if itemsHaveReturn body then code else code ++ [.ret (.int 0)]).map (Instr.rename ρ) := by
    split <;> simp
  rw [Function.rename, FnHead.change, hparams, hcode]
  rfl

theorem lowerFunctions_shadows (hρ : SparesTemps ρ) : ∀ ds : List Decl,
    Shadows (LoweringState.rename ρ) (List.map (Function.rename ρ)) (lowerFunctions ds)
      (lowerFunctions (ds.map (Decl.change (.blind ρ))))
  | [] => .pure rfl
  | .fn head (some body) :: rest => by
    rw [List.map_cons, Decl.change, Option.map_some, lowerFunctions, lowerFunctions]
    apply Shadows.bind (head.lower_shadows hρ body)
    intro f
    exact .bind (lowerFunctions_shadows hρ rest) fun _ => .pure rfl
  | .fn _ none :: rest | .var _ :: rest => by
    rw [List.map_cons, lowerFunctions]
    exact lowerFunctions_shadows hρ rest

theorem SymbolTable.staticVars_rename (T : SymbolTable) :
    SymbolTable.staticVars (T.rename ρ) = (SymbolTable.staticVars T).map (StaticVar.rename ρ) := by
  unfold SymbolTable.staticVars Table.rename
  rw [List.filterMap_map, List.map_filterMap]
  congr 1
  funext e
  obtain ⟨x, s⟩ := e
  show s.staticVar? (ρ x) = (s.staticVar? x).map (StaticVar.rename ρ)
  unfold Symbol.staticVar?
  split <;> rfl

theorem externalNames_change : ∀ ds : List Decl, (∀ x ∈ ds.filterMap Decl.externalName?, ρ x = x) →
    (ds.map (Decl.change (.blind ρ))).filterMap Decl.externalName? = ds.filterMap Decl.externalName?
  | [], _ => rfl
  | .fn head (some body) :: rest, h | .var d :: rest, h => externalNames_change rest h
  | .fn head none :: rest, h => by
    have hisExternal : (head.change (.blind ρ)).isExternal = head.isExternal := rfl
    have hname : (head.change (.blind ρ)).ident.name = ρ head.ident.name := rfl
    by_cases hx : head.isExternal = true
    · simp only [List.filterMap_cons, Decl.externalName?, if_pos hx, List.forall_mem_cons] at h
      simp [Decl.change, Decl.externalName?, hisExternal, hname, hx, h.1, externalNames_change rest h.2]
    · simp only [List.filterMap_cons, Decl.externalName?, if_neg hx] at h
      simp [Decl.change, Decl.externalName?, hisExternal, hx, externalNames_change rest h]

/-- Lowering a program with other names gives the same code and table with other names. -/
theorem Program.lower_mirrors (hρ : SparesTemps ρ) (p : Program) (T : SymbolTable)
    (hexternals : ∀ x ∈ p.decls.filterMap Decl.externalName?, ρ x = x) :
    Mirrors (Prod.map (Ir.Program.rename ρ) (Table.rename ρ)) (p.lower T)
      ((p.change (.blind ρ)).lower (T.rename ρ)) := by
  have hsame : (p.change (.blind ρ)).decls.filterMap Decl.externalName? = p.decls.filterMap Decl.externalName? :=
    externalNames_change p.decls hexternals
  unfold Program.lower
  rw [hsame]
  apply Mirrors.bind (lowerFunctions_shadows hρ p.decls { symbols := T })
  intro r
  apply Mirrors.pure
  show (Ir.Program.mk _ (SymbolTable.staticVars (r.2.symbols.rename ρ)) _, _) = _
  rw [SymbolTable.staticVars_rename]
  rfl

end Lower

end Khel
