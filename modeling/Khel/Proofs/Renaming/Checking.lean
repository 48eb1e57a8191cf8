import Khel.Compile
import Khel.Proofs.Renaming.Blind
import Khel.Proofs.Renaming.Mirrors

/-!
# Analysis sees no names

Labelling looks at loops only, and checking looks names up in a table that has just been given them. So both do the same
to a program whose places are left out and whose names are replaced one to one.

* `Program.labelLoops_mirrors`: of labelling, for any change of the leaves.
* `Expr.check_mirrors`, `Stmt.check_shadows`, `Program.check_mirrors`: of checking.
-/

namespace Khel

/-! ## Labelling -/

section Labelling

variable (c : Change)

mutual
theorem Stmt.labelLoops_shadows : ∀ (current : Option String) (s : Stmt),
    Shadows id (Stmt.change c) (s.labelLoops current) ((s.change c).labelLoops current)
  | _, .eval _ | _, .ret .. => by
    rw [Stmt.change, Stmt.labelLoops, Stmt.labelLoops]
    exact .pure rfl
  | _, .skip => by
    rw [Stmt.change, Stmt.labelLoops]
    exact .pure rfl
  | current, .ifThen _ s => by
    rw [Stmt.change, Stmt.labelLoops, Stmt.labelLoops]
    exact .bind (s.labelLoops_shadows current) fun _ => .pure rfl
  | current, .ifElse _ s t => by
    rw [Stmt.change, Stmt.labelLoops, Stmt.labelLoops]
    apply Shadows.bind (s.labelLoops_shadows current)
    intro s'
    exact .bind (t.labelLoops_shadows current) fun _ => .pure rfl
  | current, .block items => by
    rw [Stmt.change, Stmt.labelLoops, Stmt.labelLoops]
    exact .bind (labelItems_shadows current items) fun _ => .pure rfl
  | _, .whileLoop _ body _ | _, .loop _ _ body _ => by
    rw [Stmt.change, Stmt.labelLoops, Stmt.labelLoops]
    apply Shadows.bind (.refl _)
    intro id
    exact .bind (labelItems_shadows (some id) body) fun _ => .pure rfl
  | some id, .leave .. | some id, .next .. => by
    rw [Stmt.change, Stmt.labelLoops, Stmt.labelLoops]
    exact .pure rfl
  | none, .leave .. | none, .next .. => by
    rw [Stmt.change, Stmt.labelLoops, Stmt.labelLoops]
    exact .throw _ _

theorem labelItems_shadows : ∀ (current : Option String) (items : List Item),
    Shadows id (changeItems c) (labelItems current items) (labelItems current (changeItems c items))
  | _, [] => by
    rw [changeItems, labelItems]
    exact .pure rfl
  | current, .stmt s :: rest => by
    rw [changeItems, labelItems, labelItems]
    apply Shadows.bind (s.labelLoops_shadows current)
    intro s'
    exact .bind (labelItems_shadows current rest) fun _ => .pure rfl
  | current, .var d :: rest | current, .fn head body :: rest => by
    rw [changeItems, labelItems, labelItems]
    exact .bind (labelItems_shadows current rest) fun _ => .pure rfl
end

theorem labelDecls_shadows : ∀ ds : List Decl,
    Shadows id (List.map (Decl.change c)) (labelDecls ds) (labelDecls (ds.map (Decl.change c)))
  | [] => .pure rfl
  | .fn head (some body) :: rest => by
    rw [List.map_cons, Decl.change, Option.map_some, labelDecls, labelDecls]
    apply Shadows.bind (labelItems_shadows c none body)
    intro body'
    exact .bind (labelDecls_shadows rest) fun _ => .pure rfl
  | .fn head none :: rest | .var d :: rest => by
    rw [List.map_cons, labelDecls]
    exact .bind (labelDecls_shadows rest) fun _ => .pure rfl

theorem Program.labelLoops_mirrors (p : Program) : Mirrors (Program.change c) p.labelLoops (p.change c).labelLoops :=
  .bind ((labelDecls_shadows c p.decls).run' 0) fun _ => .pure rfl

end Labelling

/-! ## Expressions -/

section Checking

variable {ρ : String → String}

theorem Expr.knownTy_mirrors (e : Expr) : Mirrors id e.knownTy (e.blind ρ).knownTy := by
  unfold Expr.knownTy
  rw [e.ty_blind]
  cases e.ty with
  | some t => exact .pure rfl
  | none => exact .throw _ _

theorem Expr.convert_mirrors (e : Expr) (target : Ty) :
    Mirrors (Expr.blind ρ) (e.convert target) ((e.blind ρ).convert target) := by
  unfold Expr.convert
  rw [e.ty_blind]
  cases e.ty with
  | none => exact .pure (e.mkCast_blind target)
  | some found =>
    apply Mirrors.ite
    · exact fun _ => .pure rfl
    · intro _
      apply Mirrors.ite
      · exact fun _ => .throw _ _
      · exact fun _ => .pure (e.mkCast_blind target)

theorem Expr.requireInteger_mirrors (e : Expr) : Mirrors id e.requireInteger (e.blind ρ).requireInteger := by
  unfold Expr.requireInteger
  rw [e.ty_blind]
  cases e.ty with
  | none => exact .pure rfl
  | some found =>
    apply Mirrors.ite
    · exact fun _ => .pure rfl
    · exact fun _ => .throw _ _

theorem Expr.counterTy_mirrors (e : Expr) : Mirrors id e.counterTy (e.blind ρ).counterTy := by
  unfold Expr.counterTy
  rw [e.isRange_blind]
  apply Mirrors.ite
  · exact fun _ => e.knownTy_mirrors
  · exact fun _ => .pure rfl

mutual
theorem Expr.check_mirrors (hρ : Function.Injective ρ) (T : SymbolTable) : ∀ e : Expr,
    Mirrors (Expr.blind ρ) (e.check T) ((e.blind ρ).check (T.rename ρ))
  | .int .. | .long .. | .str .. => by
    rw [Expr.blind, Expr.check, Expr.check]
    exact .pure rfl
  | .var note x => by
    rw [Expr.blind, Expr.check, Expr.check, Table.get?_rename hρ]
    cases T.get? x with
    | none => exact .throw _ _
    | some symbol =>
      apply Mirrors.ite
      · exact fun _ => .throw _ _
      · exact fun _ => .pure rfl
  | .call note f args => by
    rw [Expr.blind, Expr.check, Expr.check, Table.get?_rename hρ, Expr.length_allBlind]
    cases T.get? f with
    | none => exact .throw _ _
    | some symbol =>
      dsimp only
      cases symbol.ty with
      | fn params ret =>
        apply Mirrors.ite
        · exact fun _ => .bind (Expr.checkArgs_mirrors hρ T params args) fun _ => .pure rfl
        · exact fun _ => .throw _ _
      | int32 | int64 | string => exact .throw _ _
  | .unary note op a => by
    rw [Expr.blind, Expr.check, Expr.check]
    apply Mirrors.bind (a.check_mirrors hρ T)
    intro a'
    cases op with
    | logicalNot => exact .pure rfl
    | negate | complement =>
      exact .bind a'.requireInteger_mirrors.rejecting fun _ => .bind a'.knownTy_mirrors.faulting fun _ => .pure rfl
  | .binary note op l r => by
    rw [Expr.blind, Expr.check, Expr.check]
    apply Mirrors.bind (l.check_mirrors hρ T)
    intro l'
    apply Mirrors.bind (r.check_mirrors hρ T)
    intro r'
    cases op with
    | logicalAnd | logicalOr => exact .pure rfl
    | strict op =>
      apply Mirrors.bind l'.knownTy_mirrors.faulting
      intro tl
      apply Mirrors.bind r'.knownTy_mirrors.faulting
      intro tr
      apply Mirrors.bind (l'.convert_mirrors (tl.common tr)).rejecting
      intro l''
      apply Mirrors.bind (r'.convert_mirrors (tl.common tr)).rejecting
      intro r''
      cases op with
      | compare op => exact .pure rfl
      | arith op => exact .bind l''.requireInteger_mirrors.rejecting fun _ => .pure rfl
  | .assign note l r => by
    rw [Expr.blind, Expr.check, Expr.check]
    apply Mirrors.bind (l.check_mirrors hρ T)
    intro l'
    apply Mirrors.bind (r.check_mirrors hρ T)
    intro r'
    apply Mirrors.bind l'.knownTy_mirrors.faulting
    intro t
    exact .bind (r'.convert_mirrors t).rejecting fun _ => .pure rfl
  | .cond note c t f => by
    rw [Expr.blind, Expr.check, Expr.check]
    apply Mirrors.bind (c.check_mirrors hρ T)
    intro c'
    apply Mirrors.bind (t.check_mirrors hρ T)
    intro t'
    apply Mirrors.bind (f.check_mirrors hρ T)
    intro f'
    apply Mirrors.bind t'.knownTy_mirrors.faulting
    intro tt
    apply Mirrors.bind f'.knownTy_mirrors.faulting
    intro tf
    apply Mirrors.bind (t'.convert_mirrors (tt.common tf)).rejecting
    intro t''
    exact .bind (f'.convert_mirrors (tt.common tf)).rejecting fun _ => .pure rfl
  | .range note l r => by
    rw [Expr.blind, Expr.check, Expr.check]
    apply Mirrors.bind (l.check_mirrors hρ T)
    intro l'
    apply Mirrors.bind (r.check_mirrors hρ T)
    intro r'
    apply Mirrors.bind l'.knownTy_mirrors.faulting
    intro tl
    apply Mirrors.bind r'.knownTy_mirrors.faulting
    intro tr
    apply Mirrors.bind (l'.convert_mirrors (tl.common tr)).rejecting
    intro l''
    apply Mirrors.bind (r'.convert_mirrors (tl.common tr)).rejecting
    intro r''
    exact .bind l''.requireInteger_mirrors.rejecting fun _ => .pure rfl
  | .cast note target a => by
    rw [Expr.blind, Expr.check, Expr.check]
    exact .bind (a.check_mirrors hρ T) fun _ => .pure rfl

theorem Expr.checkArgs_mirrors (hρ : Function.Injective ρ) (T : SymbolTable) : ∀ (params : List Ty) (args : List Expr),
    Mirrors (Expr.allBlind ρ) (Expr.checkArgs T params args) (Expr.checkArgs (T.rename ρ) params (Expr.allBlind ρ args))
  | param :: params, arg :: args => by
    rw [Expr.allBlind, Expr.checkArgs, Expr.checkArgs]
    apply Mirrors.bind (arg.check_mirrors hρ T)
    intro arg'
    apply Mirrors.bind (arg'.convert_mirrors param).rejecting
    intro arg''
    exact .bind (Expr.checkArgs_mirrors hρ T params args) fun _ => .pure rfl
  | [], [] | [], _ :: _ | _ :: _, [] => by
    simp only [Expr.allBlind, Expr.checkArgs]
    exact .pure rfl
end

/-! ## Statements -/

open Checking

section Steps

theorem Checking.enter_shadows (hρ : Function.Injective ρ) (x : String) (s : Symbol) :
    Shadows (Table.rename ρ) id (enter x s) (enter (ρ x) s) := by
  intro T
  exact congrArg (fun T => (PUnit.unit, T)) (T.set_rename hρ x s)

theorem Checking.expr_shadows (hρ : Function.Injective ρ) (e : Expr) :
    Shadows (Table.rename ρ) (Expr.blind ρ) (expr e) (expr (e.blind ρ)) :=
  .get_bind fun T => .lift (e.check_mirrors hρ T)

theorem Checking.exprAs_shadows (hρ : Function.Injective ρ) (target : Ty) (e : Expr) :
    Shadows (Table.rename ρ) (Expr.blind ρ) (exprAs target e) (exprAs target (e.blind ρ)) := by
  apply Shadows.bind (expr_shadows hρ e)
  intro e'
  exact .lift (e'.convert_mirrors target).rejecting

theorem Checking.staticInit_shadows (hρ : Function.Injective ρ) (x y : String) (ty : Ty) (e : Expr) :
    Shadows (Table.rename ρ) (Prod.map (Expr.blind ρ) id) (staticInit x ty e) (staticInit y ty (e.blind ρ)) := by
  unfold staticInit
  rw [Expr.constant?_blind]
  cases e.constant? with
  | none => exact .throw _ _
  | some v => exact .bind (exprAs_shadows hρ ty e) fun _ => .pure rfl

end Steps

namespace VarDecl

theorem checkExternal_shadows (hρ : Function.Injective ρ) (d : VarDecl) :
    Shadows (Table.rename ρ) (changeLocal (.blind ρ)) d.checkExternal (d.changeLocal (.blind ρ)).checkExternal := by
  have hinit : (d.changeLocal (.blind ρ)).init.isSome = d.init.isSome := Option.isSome_map ..
  have hname : (d.changeLocal (.blind ρ)).ident.name = ρ d.ident.name := by
    unfold changeLocal
    split <;> rfl
  unfold checkExternal
  rw [hinit, hname]
  apply Shadows.ite
  · exact fun _ => .throw _ _
  · intro _
    apply Shadows.get_bind
    intro T
    rw [Table.get?_rename hρ]
    cases T.get? d.ident.name with
    | some prior =>
      apply Shadows.ite
      · exact fun _ => .throw _ _
      · exact fun _ => .pure rfl
    | none => exact .bind (enter_shadows hρ _ _) fun _ => .pure rfl

theorem checkStatic_shadows (hρ : Function.Injective ρ) (d : VarDecl) (hd : d.storage = some .static) :
    Shadows (Table.rename ρ) (changeLocal (.blind ρ)) d.checkStatic (d.changeLocal (.blind ρ)).checkStatic := by
  obtain ⟨ident, type, init, storage⟩ := d
  cases hd
  cases init with
  | none => exact .bind (enter_shadows hρ _ _) fun _ => .pure rfl
  | some e =>
    apply Shadows.bind (staticInit_shadows hρ _ _ _ e)
    intro r
    exact .bind (enter_shadows hρ _ _) fun _ => .pure rfl

theorem checkAutomatic_shadows (hρ : Function.Injective ρ) (d : VarDecl) (hd : d.storage = none) :
    Shadows (Table.rename ρ) (changeLocal (.blind ρ)) d.checkAutomatic
      (d.changeLocal (.blind ρ)).checkAutomatic := by
  obtain ⟨ident, type, init, storage⟩ := d
  cases hd
  apply Shadows.bind (enter_shadows hρ _ _)
  intro _
  cases init with
  | none => exact .pure rfl
  | some e => exact .bind (exprAs_shadows hρ _ e) fun _ => .pure rfl

theorem checkLocal_shadows (hρ : Function.Injective ρ) (d : VarDecl) :
    Shadows (Table.rename ρ) (changeLocal (.blind ρ)) d.checkLocal (d.changeLocal (.blind ρ)).checkLocal := by
  have hstorage : (d.changeLocal (.blind ρ)).storage = d.storage := rfl
  unfold checkLocal
  rw [hstorage]
  split
  · exact d.checkExternal_shadows hρ
  · next hd => exact d.checkStatic_shadows hρ hd
  · next hd => exact d.checkAutomatic_shadows hρ hd

end VarDecl

mutual
theorem Stmt.check_shadows (hρ : Function.Injective ρ) (ret : Ty) : ∀ s : Stmt,
    Shadows (Table.rename ρ) (Stmt.change (.blind ρ)) (s.check ret) ((s.change (.blind ρ)).check ret)
  | .eval e => by
    rw [Stmt.change, Stmt.check, Stmt.check]
    exact .bind (expr_shadows hρ e) fun _ => .pure rfl
  | .ret none span => by
    rw [Stmt.change, Option.map_none, Stmt.check, Stmt.check]
    exact .pure rfl
  | .ret (some e) span => by
    rw [Stmt.change, Option.map_some, Stmt.check, Stmt.check]
    exact .bind (exprAs_shadows hρ ret e) fun _ => .pure rfl
  | .ifThen c s => by
    rw [Stmt.change, Stmt.check, Stmt.check]
    apply Shadows.bind (expr_shadows hρ c)
    intro c'
    exact .bind (s.check_shadows hρ ret) fun _ => .pure rfl
  | .ifElse c s t => by
    rw [Stmt.change, Stmt.check, Stmt.check]
    apply Shadows.bind (expr_shadows hρ c)
    intro c'
    apply Shadows.bind (s.check_shadows hρ ret)
    intro s'
    exact .bind (t.check_shadows hρ ret) fun _ => .pure rfl
  | .block items => by
    rw [Stmt.change, Stmt.check, Stmt.check]
    exact .bind (checkItems_shadows hρ ret items) fun _ => .pure rfl
  | .whileLoop c body id => by
    rw [Stmt.change, Stmt.check, Stmt.check]
    apply Shadows.bind (expr_shadows hρ c)
    intro c'
    exact .bind (checkItems_shadows hρ ret body) fun _ => .pure rfl
  | .loop none control body id => by
    rw [Stmt.change, Option.map_none, Stmt.check, Stmt.check]
    apply Shadows.bind (expr_shadows hρ control)
    intro control'
    exact .bind (checkItems_shadows hρ ret body) fun _ => .pure rfl
  | .loop (some ident) control body id => by
    rw [Stmt.change, Option.map_some, Stmt.check, Stmt.check]
    apply Shadows.bind (expr_shadows hρ control)
    intro control'
    apply Shadows.bind (.lift control'.counterTy_mirrors.faulting)
    intro t
    apply Shadows.bind (enter_shadows hρ _ _)
    intro _
    exact .bind (checkItems_shadows hρ ret body) fun _ => .pure rfl
  | .leave .. | .next .. => by
    rw [Stmt.change, Stmt.check, Stmt.check]
    exact .pure rfl
  | .skip => by
    rw [Stmt.change, Stmt.check]
    exact .pure rfl

theorem checkItems_shadows (hρ : Function.Injective ρ) (ret : Ty) : ∀ items : List Item,
    Shadows (Table.rename ρ) (changeItems (.blind ρ)) (checkItems ret items)
      (checkItems ret (changeItems (.blind ρ) items))
  | [] => by
    rw [changeItems, checkItems]
    exact .pure rfl
  | .stmt s :: rest => by
    rw [changeItems, checkItems, checkItems]
    apply Shadows.bind (s.check_shadows hρ ret)
    intro s'
    exact .bind (checkItems_shadows hρ ret rest) fun _ => .pure rfl
  | .var d :: rest => by
    rw [changeItems, checkItems, checkItems]
    apply Shadows.bind (d.checkLocal_shadows hρ)
    intro d'
    exact .bind (checkItems_shadows hρ ret rest) fun _ => .pure rfl
  | .fn head body :: rest => by
    rw [changeItems, checkItems, checkItems]
    exact .throw _ _
end

/-! ## Programs -/

theorem Param.enterAll_shadows (hρ : Function.Injective ρ) : ∀ params : List Param,
    Shadows (Table.rename ρ) id (Param.enterAll params) (Param.enterAll (params.map (Param.change (.blind ρ))))
  | [] => .pure rfl
  | _ :: ps => .bind (enter_shadows hρ _ _) fun _ => Param.enterAll_shadows hρ ps

theorem FnHead.ty_change (c : Change) (head : FnHead) : (head.change c).ty = head.ty := by
  simp [FnHead.ty, FnHead.change, Param.change]

theorem FnHead.symbol_mirrors (c : Change) (head : FnHead) (hasBody : Bool) (prior : Option Symbol) :
    Mirrors id (head.symbol hasBody prior) ((head.change c).symbol hasBody prior) := by
  unfold FnHead.symbol
  have hlength : (head.change c).params.length = head.params.length := List.length_map ..
  rw [head.ty_change c, hlength]
  dsimp only
  split
  · exact .pure rfl
  · apply Mirrors.ite
    · exact fun _ => .throw _ _
    · intro _
      apply Mirrors.ite
      · exact fun _ => .throw _ _
      · intro _
        apply Mirrors.ite
        · exact fun _ => .throw _ _
        · exact fun _ => .pure rfl
  · exact .throw _ _

theorem VarDecl.symbol_mirrors (c : Change) (d : VarDecl) (init : StaticInit) (prior : Option Symbol) :
    Mirrors id (d.symbol init prior) ((d.change c).symbol init prior) := by
  unfold VarDecl.symbol
  dsimp only
  split
  · exact .pure rfl
  · apply Mirrors.ite
    · exact fun _ => .throw _ _
    · intro _
      split
      · exact .pure rfl
      · exact .throw _ _
  · exact .throw _ _

theorem Decl.check_shadows (hρ : Function.Injective ρ) (d : Decl) :
    Shadows (Table.rename ρ) (Decl.change (.blind ρ)) d.check (d.change (.blind ρ)).check := by
  cases d with
  | fn head body =>
    dsimp only [Decl.change, Decl.check]
    apply Shadows.get_bind
    intro T
    have hprior : (T.rename ρ).get? (head.change (.blind ρ)).ident.name = T.get? head.ident.name :=
      T.get?_rename hρ head.ident.name
    rw [hprior, Option.isSome_map]
    apply Shadows.bind (.lift (head.symbol_mirrors _ _ _).rejecting)
    intro symbol
    apply Shadows.bind (enter_shadows hρ _ _)
    intro _
    apply Shadows.bind (Param.enterAll_shadows hρ head.params)
    intro _
    cases body with
    | none => exact .pure rfl
    | some items => exact .bind (checkItems_shadows hρ head.ret.ty items) fun _ => .pure rfl
  | var d =>
    obtain ⟨ident, type, init, storage⟩ := d
    have hprior : ∀ T : SymbolTable, (T.rename ρ).get? ((Change.blind ρ).ident ident).name = T.get? ident.name :=
      fun T => T.get?_rename hρ ident.name
    cases init with
    | none =>
      dsimp only [Decl.change, Decl.check, VarDecl.change, Option.map_none]
      apply Shadows.get_bind
      intro T
      rw [hprior T]
      apply Shadows.bind (.lift (VarDecl.symbol_mirrors (.blind ρ) _ _ _).rejecting)
      intro symbol
      exact .bind (enter_shadows hρ _ _) fun _ => .pure rfl
    | some e =>
      dsimp only [Decl.change, Decl.check, VarDecl.change, Option.map_some]
      apply Shadows.bind (staticInit_shadows hρ _ _ _ e)
      intro r
      apply Shadows.get_bind
      intro T
      rw [hprior T]
      apply Shadows.bind (.lift (VarDecl.symbol_mirrors (.blind ρ) _ _ _).rejecting)
      intro symbol
      exact .bind (enter_shadows hρ _ _) fun _ => .pure rfl

theorem checkDecls_shadows (hρ : Function.Injective ρ) (ds : List Decl) :
    Shadows (Table.rename ρ) (List.map (Decl.change (.blind ρ))) (checkDecls ds)
      (checkDecls (ds.map (Decl.change (.blind ρ)))) := by
  induction ds with
  | nil => exact .pure rfl
  | cons d ds ih =>
    rw [List.map_cons, checkDecls, checkDecls]
    apply Shadows.bind (d.check_shadows hρ)
    intro d'
    exact .bind ih fun _ => .pure rfl

/-- Checking a program with other names gives the same program and table with other names. -/
theorem Program.check_mirrors (hρ : Function.Injective ρ) (p : Program) :
    Mirrors (Prod.map (Program.change (.blind ρ)) (Table.rename ρ)) p.check (p.change (.blind ρ)).check :=
  .bind (checkDecls_shadows hρ p.decls .empty) fun _ => .pure rfl

end Checking

end Khel
