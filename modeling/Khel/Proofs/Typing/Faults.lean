import Khel.Proofs.Typing.CheckedStmt

/-!
# The faults of checking

Whatever program checking is given, also one that was never resolved, it ends with a checked program, with a rejection,
or with a fault that blames the passes before it: a variable that is not in the table, or a function inside a function.
Operands are checked before their types are read, so the fault of an expression without a type never shows.

* `CompileError.BlamesResolution`: the ways in which checking can fail.
* `Expr.check_blames`, `Stmt.check_blames`: checking fails in no other, and a checked expression has a type.
* `Program.check_ne_untyped`: no program is reported to have an expression without a type.
-/

namespace Khel

/-- A rejection, or a fault that a program which was resolved cannot cause. -/
def CompileError.BlamesResolution : CompileError → Prop
  | .rejected _ => True
  | .fault f => (∃ x, f = .missingSymbol .typeChecker x) ∨
      ∃ x, f = .unexpected .typeChecker ("function declaration '" ++ x ++ "' in a block")
  | .output _ => False

open CompileError (BlamesResolution)

/-! ## Expressions -/

/-- A step that can only reject, inside one that can fail in other ways. -/
theorem Yields.blames_bind {α β : Type} {x : Except Rejection α} {f : α → Except CompileError β} {R : α → Prop}
    {P : β → Prop} (hx : Yields x (fun _ => True) R) (hf : ∀ a, R a → Yields (f a) BlamesResolution P) :
    Yields ((liftM x : Except CompileError α) >>= f) BlamesResolution P := by
  cases x with
  | ok a => exact hf a hx
  | error r => exact trivial

/-- A converted expression has the type that was asked for, whatever it had before. -/
theorem Expr.convert_ty (e : Expr) (target : Ty) :
    Yields (e.convert target) (fun _ => True) fun e' => e'.ty = some target := by
  unfold convert
  split
  · next found hty =>
    split
    · next heq => exact heq ▸ hty
    · split
      · exact trivial
      · exact rfl
  · exact rfl

section Expressions

variable (T : SymbolTable)

mutual
/-- A checked expression has a type, and the types of its operands are there when they are asked for. -/
theorem Expr.check_blames : ∀ e : Expr, Yields (e.check T) BlamesResolution fun e' => ∃ t, e'.ty = some t
  | .int .. | .long .. | .str .. => by
    rw [Expr.check]
    exact .pure ⟨_, rfl⟩
  | .var note x => by
    rw [Expr.check]
    split
    · exact .throw (.inl ⟨x, rfl⟩)
    · split
      · exact .throw trivial
      · exact .pure ⟨_, rfl⟩
  | .call note f args => by
    rw [Expr.check]
    split
    · exact .throw trivial
    · split
      · next params ret _ =>
        split
        · exact .bind (Expr.checkArgs_blames params args) fun _ _ => .pure ⟨ret, rfl⟩
        · exact .throw trivial
      · exact .throw trivial
  | .unary note op a => by
    rw [Expr.check]
    apply Yields.bind (Expr.check_blames a)
    rintro a' ⟨t, ha⟩
    cases op with
    | logicalNot => exact .pure ⟨_, rfl⟩
    | negate | complement =>
      refine .blames_bind (R := fun _ => True) (.of_forall fun _ _ => trivial) fun _ _ => ?_
      exact .knownTy_bind ha (.pure ⟨t, rfl⟩)
  | .binary note op l r => by
    rw [Expr.check]
    apply Yields.bind (Expr.check_blames l)
    rintro l' ⟨tl, hl⟩
    apply Yields.bind (Expr.check_blames r)
    rintro r' ⟨tr, hr⟩
    cases op with
    | logicalAnd | logicalOr => exact .pure ⟨_, rfl⟩
    | strict strictOp =>
      refine .knownTy_bind hl (.knownTy_bind hr ?_)
      refine .blames_bind (l'.convert_ty _) fun l'' _ => .blames_bind (r'.convert_ty _) fun r'' _ => ?_
      cases strictOp with
      | compare _ => exact .pure ⟨_, rfl⟩
      | arith _ =>
        exact .blames_bind (R := fun _ => True) (.of_forall fun _ _ => trivial) fun _ _ => .pure ⟨_, rfl⟩
  | .assign note l r => by
    rw [Expr.check]
    apply Yields.bind (Expr.check_blames l)
    rintro l' ⟨t, hl⟩
    refine .bind (Expr.check_blames r) fun r' _ => .knownTy_bind hl ?_
    exact .blames_bind (r'.convert_ty t) fun r'' _ => .pure ⟨t, rfl⟩
  | .cond note c t f => by
    rw [Expr.check]
    apply Yields.bind (Expr.check_blames c)
    intro c' _
    apply Yields.bind (Expr.check_blames t)
    rintro t' ⟨tt, ht⟩
    apply Yields.bind (Expr.check_blames f)
    rintro f' ⟨tf, hf⟩
    refine .knownTy_bind ht (.knownTy_bind hf ?_)
    exact .blames_bind (t'.convert_ty _) fun _ _ => .blames_bind (f'.convert_ty _) fun _ _ => .pure ⟨_, rfl⟩
  | .range note l r => by
    rw [Expr.check]
    apply Yields.bind (Expr.check_blames l)
    rintro l' ⟨tl, hl⟩
    apply Yields.bind (Expr.check_blames r)
    rintro r' ⟨tr, hr⟩
    refine .knownTy_bind hl (.knownTy_bind hr ?_)
    refine .blames_bind (l'.convert_ty _) fun l'' _ => .blames_bind (r'.convert_ty _) fun r'' _ => ?_
    exact .blames_bind (R := fun _ => True) (.of_forall fun _ _ => trivial) fun _ _ => .pure ⟨_, rfl⟩
  | .cast note target a => by
    rw [Expr.check]
    exact .bind (Expr.check_blames a) fun _ _ => .pure ⟨target, rfl⟩

theorem Expr.checkArgs_blames : ∀ (params : List Ty) (args : List Expr),
    Yields (Expr.checkArgs T params args) BlamesResolution fun _ => True
  | param :: params, arg :: args => by
    rw [Expr.checkArgs]
    refine .bind (Expr.check_blames arg) fun arg' _ => .blames_bind (arg'.convert_ty param) fun arg'' _ => ?_
    exact .bind (Expr.checkArgs_blames params args) fun _ _ => .pure trivial
  | [], args => by
    rw [Expr.checkArgs]
    · exact .pure trivial
    · simp
  | _ :: _, [] => by
    rw [Expr.checkArgs]
    · exact .pure trivial
    · simp
end

end Expressions

/-! ## Steps -/

/-- From every table the step ends well with a result that satisfies `Q`, or blames an earlier pass. -/
def Checking.Blames {α : Type} (m : Checking α) (Q : α → Prop) : Prop :=
  ∀ T : SymbolTable, Ensures m T BlamesResolution fun a _ => Q a

namespace Checking

variable {α β : Type} {m : Checking α} {f : α → Checking β} {Q : α → Prop} {R : β → Prop}

theorem Blames.pure {a : α} (h : Q a) : Blames (Pure.pure a) Q := fun _ => Ensures.pure h

theorem Blames.throw {e : CompileError} (h : e.BlamesResolution) : Blames (MonadExcept.throw e : Checking α) Q :=
  fun _ => Ensures.throw h

theorem Blames.bind (hm : Blames m Q) (hf : ∀ a, Q a → Blames (f a) R) : Blames (m >>= f) R :=
  fun T => Ensures.bind (hm T) fun a T' ha => hf a ha T'

theorem Blames.get_bind {f : SymbolTable → Checking β} (hf : ∀ T, Blames (f T) R) :
    Blames (MonadState.get >>= f) R := fun T => Ensures.get_bind (hf T T)

theorem lift_blames (x : Except Rejection α) : Blames (liftM x : Checking α) fun _ => True := by
  intro T
  cases x <;> exact trivial

theorem enter_blames (x : String) (s : Symbol) : Blames (enter x s) fun _ => True := fun _ => trivial

theorem expr_blames (e : Expr) : Blames (expr e) fun e' => ∃ t, e'.ty = some t :=
  .get_bind fun T _ => (Ensures.lift (Expr.check_blames T e)).mono fun _ _ h => h.2

theorem exprAs_blames (target : Ty) (e : Expr) : Blames (exprAs target e) fun _ => True :=
  .bind (expr_blames e) fun e' _ => lift_blames (e'.convert target)

theorem staticInit_blames (name : String) (ty : Ty) (e : Expr) : Blames (staticInit name ty e) fun _ => True := by
  unfold staticInit
  split
  · exact .throw trivial
  · exact .bind (exprAs_blames ty e) fun _ _ => .pure trivial

/-- A loop goes over an expression that has just been checked. -/
theorem counter_blames {control : Expr} {t : Ty} (h : control.ty = some t) :
    Blames (liftM control.counterTy : Checking Ty) fun _ => True := by
  intro T
  rw [Expr.counterTy_of_ty h]
  exact trivial

end Checking

open Checking

/-! ## Statements and programs -/

theorem VarDecl.checkLocal_blames (d : VarDecl) : Blames d.checkLocal fun _ => True := by
  unfold checkLocal
  split
  · unfold checkExternal
    split
    · exact .throw trivial
    · refine .get_bind fun T => ?_
      split
      · split
        · exact .throw trivial
        · exact .pure trivial
      · exact .bind (enter_blames _ _) fun _ _ => .pure trivial
  · unfold checkStatic
    split
    · exact .bind (enter_blames _ _) fun _ _ => .pure trivial
    · exact .bind (staticInit_blames _ _ _) fun _ _ => .bind (enter_blames _ _) fun _ _ => .pure trivial
  · refine .bind (enter_blames _ _) fun _ _ => ?_
    split
    · exact .pure trivial
    · exact .bind (exprAs_blames _ _) fun _ _ => .pure trivial

mutual
theorem Stmt.check_blames (ret : Ty) : ∀ s : Stmt, Blames (s.check ret) fun _ => True
  | .eval e => by
    rw [Stmt.check]
    exact .bind (expr_blames e) fun _ _ => .pure trivial
  | .ret none _ | .leave .. | .next .. | .skip => by
    rw [Stmt.check]
    exact .pure trivial
  | .ret (some e) _ => by
    rw [Stmt.check]
    exact .bind (exprAs_blames ret e) fun _ _ => .pure trivial
  | .ifThen c s => by
    rw [Stmt.check]
    exact .bind (expr_blames c) fun _ _ => .bind (s.check_blames ret) fun _ _ => .pure trivial
  | .ifElse c s t => by
    rw [Stmt.check]
    refine .bind (expr_blames c) fun _ _ => .bind (s.check_blames ret) fun _ _ => ?_
    exact .bind (t.check_blames ret) fun _ _ => .pure trivial
  | .block items => by
    rw [Stmt.check]
    exact .bind (checkItems_blames ret items) fun _ _ => .pure trivial
  | .whileLoop c body _ => by
    rw [Stmt.check]
    exact .bind (expr_blames c) fun _ _ => .bind (checkItems_blames ret body) fun _ _ => .pure trivial
  | .loop none control body _ => by
    rw [Stmt.check]
    exact .bind (expr_blames control) fun _ _ => .bind (checkItems_blames ret body) fun _ _ => .pure trivial
  | .loop (some ident) control body _ => by
    rw [Stmt.check]
    apply Blames.bind (expr_blames control)
    rintro control' ⟨t, hcontrol⟩
    refine .bind (counter_blames hcontrol) fun _ _ => .bind (enter_blames ident.name _) fun _ _ => ?_
    exact .bind (checkItems_blames ret body) fun _ _ => .pure trivial

theorem checkItems_blames (ret : Ty) : ∀ items : List Item, Blames (checkItems ret items) fun _ => True
  | [] => by
    rw [checkItems]
    exact .pure trivial
  | .stmt s :: rest => by
    rw [checkItems]
    exact .bind (s.check_blames ret) fun _ _ => .bind (checkItems_blames ret rest) fun _ _ => .pure trivial
  | .var d :: rest => by
    rw [checkItems]
    exact .bind d.checkLocal_blames fun _ _ => .bind (checkItems_blames ret rest) fun _ _ => .pure trivial
  | .fn head _ :: _ => by
    rw [checkItems]
    exact .throw (.inr ⟨head.ident.name, rfl⟩)
end

theorem Param.enterAll_blames : ∀ ps : List Param, Blames (Param.enterAll ps) fun _ => True
  | [] => .pure trivial
  | _ :: ps => .bind (enter_blames _ _) fun _ _ => Param.enterAll_blames ps

theorem Decl.check_blames (d : Decl) : Blames d.check fun _ => True := by
  cases d with
  | var d =>
    rw [Decl.check]
    split
    · refine .get_bind fun T => .bind (lift_blames _) fun _ _ => ?_
      exact .bind (enter_blames _ _) fun _ _ => .pure trivial
    · refine .bind (staticInit_blames _ _ _) fun _ _ => .get_bind fun T => .bind (lift_blames _) fun _ _ => ?_
      exact .bind (enter_blames _ _) fun _ _ => .pure trivial
  | fn head body =>
    refine .get_bind fun T => .bind (lift_blames _) fun _ _ => .bind (enter_blames _ _) fun _ _ => ?_
    refine .bind (Param.enterAll_blames _) fun _ _ => ?_
    split
    · exact .pure trivial
    · exact .bind (checkItems_blames _ _) fun _ _ => .pure trivial

theorem checkDecls_blames : ∀ ds : List Decl, Blames (checkDecls ds) fun _ => True
  | [] => .pure trivial
  | d :: ds => .bind d.check_blames fun _ _ => .bind (checkDecls_blames ds) fun _ _ => .pure trivial

/-- Checking a program fails in no way but those. -/
theorem Program.check_blames (p : Program) : Yields p.check BlamesResolution fun _ => True :=
  .bind (checkDecls_blames p.decls Table.empty) fun _ _ => .pure trivial

/-- No program is reported to have an expression without a type. -/
theorem Program.check_ne_untyped (p : Program) (e : Expr) :
    p.check ≠ .error (.fault (.unexpected .typeChecker ("untyped expression '" ++ e.text ++ "'"))) := by
  intro h
  have hblames := p.check_blames
  rw [h] at hblames
  rcases hblames with ⟨x, hx⟩ | ⟨x, hx⟩
  · cases hx
  · have hfirst := congrArg (fun text => text.toList.head?) (Fault.unexpected.inj hx).2
    simp at hfirst

end Khel
