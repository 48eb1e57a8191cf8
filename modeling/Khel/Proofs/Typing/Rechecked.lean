import Khel.Proofs.Typing.Erasure

/-!
# Checking a second time

Checking is a matter of the text of a program alone. The types that a program carries already do not count, since every
one of them is recorded anew. And a checked program is settled: its casts are where a second checking would want them,
its constants come to the values that they came to before, and so nothing is added and the same symbols are entered.

* `Program.unannotated`: the program without types.
* `Expr.check_unannotated`, `Stmt.check_unannotated`: types do not count.
* `Expr.Settled`, `Checking.Repeats`: what a second checking leaves alone.
* `Program.check_settled`: both for whole programs.
-/

namespace Khel

/-! ## Programs without types -/

/-- The declaration of a variable without types. -/
def VarDecl.unannotated (d : VarDecl) : VarDecl := { d with init := d.init.map Expr.unannotated }

mutual
/-- The statement without types. -/
def Stmt.unannotated : Stmt → Stmt
  | .eval e => .eval e.unannotated
  | .ret value span => .ret (value.map Expr.unannotated) span
  | .ifThen c s => .ifThen c.unannotated s.unannotated
  | .ifElse c s t => .ifElse c.unannotated s.unannotated t.unannotated
  | .block items => .block (itemsUnannotated items)
  | .whileLoop c body id => .whileLoop c.unannotated (itemsUnannotated body) id
  | .loop var control body id => .loop var control.unannotated (itemsUnannotated body) id
  | .leave span id => .leave span id
  | .next span id => .next span id
  | .skip => .skip

/-- The items of a block without types. -/
def itemsUnannotated : List Item → List Item
  | [] => []
  | .stmt s :: rest => .stmt s.unannotated :: itemsUnannotated rest
  | .var d :: rest => .var d.unannotated :: itemsUnannotated rest
  | .fn head none :: rest => .fn head none :: itemsUnannotated rest
  | .fn head (some body) :: rest => .fn head (some (itemsUnannotated body)) :: itemsUnannotated rest
end

/-- The declaration without types. -/
def Decl.unannotated : Decl → Decl
  | .fn head body => .fn head (body.map itemsUnannotated)
  | .var d => .var d.unannotated

/-- The program without types. -/
def Program.unannotated (p : Program) : Program := ⟨p.decls.map Decl.unannotated⟩

/-! ## Types do not count -/

section Unannotated

variable (T : SymbolTable)

theorem Expr.length_allUnannotated (es : List Expr) : (Expr.allUnannotated es).length = es.length := by
  induction es with
  | nil => rfl
  | cons e es ih => rw [Expr.allUnannotated, List.length_cons, List.length_cons, ih]

mutual
/-- Checking an expression does not look at the types that it carries. -/
theorem Expr.check_unannotated : ∀ e : Expr, e.unannotated.check T = e.check T
  | .int .. | .long .. | .str .. | .var .. => rfl
  | .call note f args => by
    rw [Expr.unannotated, Expr.check, Expr.check, Expr.length_allUnannotated]
    split
    · rfl
    · split
      · split
        · next hlen => rw [Expr.checkArgs_unannotated _ args hlen]; rfl
        · rfl
      · rfl
  | .unary note op a => by
    rw [Expr.unannotated, Expr.check, Expr.check, a.check_unannotated]
    rfl
  | .binary note op l r | .assign note l r | .range note l r => by
    rw [Expr.unannotated, Expr.check, Expr.check, l.check_unannotated, r.check_unannotated]
    rfl
  | .cond note c t f => by
    rw [Expr.unannotated, Expr.check, Expr.check, c.check_unannotated, t.check_unannotated, f.check_unannotated]
    rfl
  | .cast note target a => by
    rw [Expr.unannotated, Expr.check, Expr.check, a.check_unannotated]
    rfl

theorem Expr.checkArgs_unannotated : ∀ (params : List Ty) (args : List Expr), params.length = args.length →
    Expr.checkArgs T params (Expr.allUnannotated args) = Expr.checkArgs T params args
  | [], [], _ => rfl
  | param :: params, arg :: args, hlen => by
    rw [Expr.allUnannotated, Expr.checkArgs, Expr.checkArgs, arg.check_unannotated,
      Expr.checkArgs_unannotated params args (Nat.succ.inj hlen)]
end

end Unannotated

theorem Expr.span_unannotated (e : Expr) : e.unannotated.span = e.span := by
  cases e <;> rfl

theorem Expr.constant?_unannotated : ∀ e : Expr, e.unannotated.constant? = e.constant?
  | .int .. | .long .. | .str .. | .var .. | .call .. | .unary _ .logicalNot _ | .binary .. | .assign .. | .cond ..
  | .range .. => rfl
  | .unary _ .negate a | .unary _ .complement a | .cast _ _ a => by
    rw [Expr.unannotated, Expr.constant?, Expr.constant?, a.constant?_unannotated]

namespace Checking

theorem expr_unannotated (e : Expr) : expr e.unannotated = expr e := by
  simp only [expr, Expr.check_unannotated]

theorem exprAs_unannotated (target : Ty) (e : Expr) : exprAs target e.unannotated = exprAs target e := by
  rw [exprAs, exprAs, expr_unannotated]

theorem staticInit_unannotated (name : String) (ty : Ty) (e : Expr) :
    staticInit name ty e.unannotated = staticInit name ty e := by
  rw [staticInit, staticInit, e.constant?_unannotated, e.span_unannotated, exprAs_unannotated]

end Checking

open Checking

namespace VarDecl

theorem checkExternal_unannotated (d : VarDecl) : d.unannotated.checkExternal = d.checkExternal := by
  obtain ⟨ident, type, init, storage⟩ := d
  cases init <;> rfl

theorem checkStatic_unannotated (d : VarDecl) : d.unannotated.checkStatic = d.checkStatic := by
  obtain ⟨ident, type, init, storage⟩ := d
  cases init with
  | none => rfl
  | some e =>
    simp only [unannotated, Option.map_some, checkStatic, staticInit_unannotated]

theorem checkAutomatic_unannotated (d : VarDecl) : d.unannotated.checkAutomatic = d.checkAutomatic := by
  obtain ⟨ident, type, init, storage⟩ := d
  cases init with
  | none => rfl
  | some e =>
    simp only [unannotated, Option.map_some, checkAutomatic, exprAs_unannotated]

theorem checkLocal_unannotated (d : VarDecl) : d.unannotated.checkLocal = d.checkLocal := by
  rw [checkLocal, checkLocal, checkExternal_unannotated, checkStatic_unannotated, checkAutomatic_unannotated]
  rfl

end VarDecl

mutual
/-- Checking a statement does not look at the types that it carries. -/
theorem Stmt.check_unannotated (ret : Ty) : ∀ s : Stmt, s.unannotated.check ret = s.check ret
  | .ret none _ | .leave .. | .next .. | .skip => rfl
  | .eval e => by
    rw [Stmt.unannotated, Stmt.check, Stmt.check, expr_unannotated]
  | .ret (some e) span => by
    rw [Stmt.unannotated, Option.map_some, Stmt.check, Stmt.check, exprAs_unannotated]
  | .ifThen c s => by
    rw [Stmt.unannotated, Stmt.check, Stmt.check, expr_unannotated, s.check_unannotated ret]
  | .ifElse c s t => by
    rw [Stmt.unannotated, Stmt.check, Stmt.check, expr_unannotated, s.check_unannotated ret, t.check_unannotated ret]
  | .block items => by
    rw [Stmt.unannotated, Stmt.check, Stmt.check, checkItems_unannotated ret items]
  | .whileLoop c body _ => by
    rw [Stmt.unannotated, Stmt.check, Stmt.check, expr_unannotated, checkItems_unannotated ret body]
  | .loop var control body _ => by
    rw [Stmt.unannotated, Stmt.check, Stmt.check, expr_unannotated, checkItems_unannotated ret body]

theorem checkItems_unannotated (ret : Ty) : ∀ items : List Item,
    checkItems ret (itemsUnannotated items) = checkItems ret items
  | [] => rfl
  | .stmt s :: rest => by
    rw [itemsUnannotated, checkItems, checkItems, s.check_unannotated ret, checkItems_unannotated ret rest]
  | .var d :: rest => by
    rw [itemsUnannotated, checkItems, checkItems, d.checkLocal_unannotated, checkItems_unannotated ret rest]
  | .fn _ none :: _ | .fn _ (some _) :: _ => by
    rw [itemsUnannotated, checkItems, checkItems]
end

theorem Decl.check_unannotated : ∀ d : Decl, d.unannotated.check = d.check
  | .fn head none => rfl
  | .fn head (some items) => by
    rw [Decl.unannotated, Option.map_some, Decl.check, Decl.check]
    simp only [checkItems_unannotated, Option.isSome_some]
  | .var ⟨ident, type, none, storage⟩ => rfl
  | .var ⟨ident, type, some e, storage⟩ => by
    simp only [Decl.unannotated, VarDecl.unannotated, Option.map_some, Decl.check, staticInit_unannotated]
    rfl

theorem checkDecls_unannotated : ∀ ds : List Decl, checkDecls (ds.map Decl.unannotated) = checkDecls ds
  | [] => rfl
  | d :: ds => by
    rw [List.map_cons, checkDecls, checkDecls, d.check_unannotated, checkDecls_unannotated ds]

/-- Checking a program does not look at the types that it carries. -/
theorem Program.check_unannotated (p : Program) : p.unannotated.check = p.check := by
  rw [Program.check, Program.check, show p.unannotated.decls = p.decls.map Decl.unannotated from rfl,
    checkDecls_unannotated]

/-! ## Settled expressions -/

/-- Checking leaves the expression, which is of this type, as it is. -/
structure Expr.Settled (T : SymbolTable) (e : Expr) (t : Ty) : Prop where
  check : e.check T = .ok e
  ty : e.ty = some t

theorem Expr.convert_self {e : Expr} {t : Ty} (h : e.ty = some t) : e.convert t = .ok e := by
  unfold convert
  rw [h]
  exact if_pos rfl

theorem Expr.requireInteger_ok {e : Expr} {t : Ty} (h : e.ty = some t) (ht : t.isInteger = true) :
    e.requireInteger = .ok () := by
  unfold requireInteger
  rw [h]
  exact if_pos ht

theorem Ty.common_self (t : Ty) : t.common t = t := if_pos rfl

section Settled

variable {T : SymbolTable}

namespace Expr.Settled

variable {a l r : Expr} {note : Note} {t ta : Ty}

theorem logicalNot (ha : a.Settled T ta) : ((Expr.unary note .logicalNot a).setTy .int32).Settled T .int32 := by
  refine ⟨?_, rfl⟩
  show Expr.check T (.unary _ .logicalNot a) = _
  rw [Expr.check, ha.check]
  rfl

theorem arithUnary {op : UnaryOp} (hop : op ≠ .logicalNot) (ha : a.Settled T t) (ht : t.isInteger = true) :
    ((Expr.unary note op a).setTy t).Settled T t := by
  refine ⟨?_, rfl⟩
  show Expr.check T (.unary _ op a) = _
  rw [Expr.check, ha.check]
  cases op with
  | logicalNot => exact absurd rfl hop
  | negate | complement =>
    show (liftM a.requireInteger >>= fun _ => liftM a.knownTy >>= _ : Except CompileError _) = _
    rw [Expr.requireInteger_ok ha.ty ht, Expr.knownTy_of_ty ha.ty]
    rfl

theorem logical {op : BinaryOp} (hop : op.isLogical = true) {tl tr : Ty} (hl : l.Settled T tl) (hr : r.Settled T tr) :
    ((Expr.binary note op l r).setTy .int32).Settled T .int32 := by
  refine ⟨?_, rfl⟩
  show Expr.check T (.binary _ op l r) = _
  rw [Expr.check, hl.check, hr.check]
  cases op with
  | strict _ => cases hop
  | logicalAnd | logicalOr => rfl

/-- Operands of one type are left as they are. -/
theorem join {α : Type} (hl : l.Settled T t) (hr : r.Settled T t) (f : Ty → Expr → Expr → Except CompileError α) :
    (do
      let common := (← l.knownTy).common (← r.knownTy)
      let l' ← l.convert common
      let r' ← r.convert common
      f common l' r') = f t l r := by
  rw [Expr.knownTy_of_ty hl.ty, Expr.knownTy_of_ty hr.ty]
  show (liftM (l.convert (t.common t)) >>= fun l' => liftM (r.convert (t.common t)) >>= f (t.common t) l') = _
  rw [t.common_self, Expr.convert_self hl.ty, Expr.convert_self hr.ty]
  rfl

theorem compare {op : CompareOp} (hl : l.Settled T t) (hr : r.Settled T t) :
    ((Expr.binary note (.strict (.compare op)) l r).setTy .int32).Settled T .int32 := by
  refine ⟨?_, rfl⟩
  show Expr.check T (.binary _ (.strict (.compare op)) l r) = _
  rw [Expr.check, hl.check, hr.check]
  exact hl.join hr fun _ l r => pure ((Expr.binary _ _ l r).setTy .int32)

theorem arith {op : ArithOp} (hl : l.Settled T t) (hr : r.Settled T t) (ht : t.isInteger = true) :
    ((Expr.binary note (.strict (.arith op)) l r).setTy t).Settled T t := by
  refine ⟨?_, rfl⟩
  show Expr.check T (.binary _ (.strict (.arith op)) l r) = _
  rw [Expr.check, hl.check, hr.check]
  refine (hl.join hr fun t l r => liftM l.requireInteger >>= fun _ => pure ((Expr.binary _ _ l r).setTy t)).trans ?_
  rw [Expr.requireInteger_ok hl.ty ht]
  rfl

theorem assign (hl : l.Settled T t) (hr : r.Settled T t) : ((Expr.assign note l r).setTy t).Settled T t := by
  refine ⟨?_, rfl⟩
  show Expr.check T (.assign _ l r) = _
  rw [Expr.check, hl.check, hr.check]
  show (liftM l.knownTy >>= fun t => liftM (r.convert t) >>= _ : Except CompileError _) = _
  rw [Expr.knownTy_of_ty hl.ty]
  show (liftM (r.convert t) >>= _ : Except CompileError _) = _
  rw [Expr.convert_self hr.ty]
  rfl

theorem cond (ha : a.Settled T ta) (hl : l.Settled T t) (hr : r.Settled T t) :
    ((Expr.cond note a l r).setTy t).Settled T t := by
  refine ⟨?_, rfl⟩
  show Expr.check T (.cond _ a l r) = _
  rw [Expr.check, ha.check, hl.check, hr.check]
  exact hl.join hr fun t l r => pure ((Expr.cond _ a l r).setTy t)

theorem range (hl : l.Settled T t) (hr : r.Settled T t) (ht : t.isInteger = true) :
    ((Expr.range note l r).setTy t).Settled T t := by
  refine ⟨?_, rfl⟩
  show Expr.check T (.range _ l r) = _
  rw [Expr.check, hl.check, hr.check]
  refine (hl.join hr fun t l r => liftM l.requireInteger >>= fun _ => pure ((Expr.range _ l r).setTy t)).trans ?_
  rw [Expr.requireInteger_ok hl.ty ht]
  rfl

theorem cast (target : Ty) (ha : a.Settled T ta) : ((Expr.cast note target a).setTy target).Settled T target := by
  refine ⟨?_, rfl⟩
  show Expr.check T (.cast _ target a) = _
  rw [Expr.check, ha.check]
  rfl

/-- A conversion of a settled expression is settled. -/
theorem convert (target : Ty) (ha : a.Settled T ta) :
    Yields (a.convert target) (fun _ => True) fun a' => a'.Settled T target := by
  unfold Expr.convert
  rw [ha.ty]
  dsimp only
  split
  · next heq => exact heq ▸ ha
  · split
    · exact trivial
    · exact ha.cast target

end Expr.Settled

/-- Arguments that checking leaves as they are. -/
def Expr.AllSettled (T : SymbolTable) (params : List Ty) (args : List Expr) : Prop :=
  params.length = args.length ∧ Expr.checkArgs T params args = .ok args

theorem Expr.AllSettled.cons {param : Ty} {params : List Ty} {arg : Expr} {args : List Expr}
    (harg : arg.Settled T param) (hargs : Expr.AllSettled T params args) :
    Expr.AllSettled T (param :: params) (arg :: args) := by
  refine ⟨congrArg Nat.succ hargs.1, ?_⟩
  rw [Expr.checkArgs, harg.check]
  show (liftM (arg.convert param) >>= _ : Except CompileError _) = _
  rw [Expr.convert_self harg.ty, hargs.2]
  rfl

theorem Expr.Settled.call {note : Note} {f : String} {symbol : Symbol} {params : List Ty} {ret : Ty} {args : List Expr}
    (hf : T.get? f = some symbol) (hty : symbol.ty = .fn params ret) (hargs : Expr.AllSettled T params args) :
    ((Expr.call note f args).setTy ret).Settled T ret := by
  obtain ⟨ty, role⟩ := symbol
  cases hty
  refine ⟨?_, rfl⟩
  show Expr.check T (.call _ f args) = _
  rw [Expr.check, hf]
  show (if params.length = args.length then _ else _ : Except CompileError _) = _
  rw [if_pos hargs.1, hargs.2]
  rfl

theorem Expr.Settled.var {note : Note} {x : String} {symbol : Symbol} (hx : T.get? x = some symbol)
    (hf : symbol.isFunction = false) : ((Expr.var note x).setTy symbol.ty).Settled T symbol.ty := by
  refine ⟨?_, rfl⟩
  show Expr.check T (.var _ x) = _
  rw [Expr.check, hx]
  exact if_neg (by simp [hf])

mutual
/-- A checked expression is settled. -/
theorem Expr.check_settles (T : SymbolTable) : ∀ e : Expr,
    Yields (e.check T) (fun _ => True) fun e' => ∃ t, e'.Settled T t
  | .int .. | .long .. | .str .. => by
    rw [Expr.check]
    exact .pure ⟨_, rfl, rfl⟩
  | .var note x => by
    rw [Expr.check]
    split
    · exact .throw trivial
    · next symbol hx =>
      split
      · exact .throw trivial
      · next hf => exact .pure ⟨_, .var hx (by simpa using hf)⟩
  | .call note f args => by
    rw [Expr.check]
    split
    · exact .throw trivial
    · next symbol hf =>
      split
      · next params ret hty =>
        split
        · next hlen =>
          exact .bind (Expr.checkArgs_settles T params args hlen) fun args' hargs =>
            .pure ⟨ret, .call hf hty hargs⟩
        · exact .throw trivial
      · exact .throw trivial
  | .unary note op a => by
    rw [Expr.check]
    apply Yields.bind (a.check_settles T)
    rintro a' ⟨t, ha⟩
    cases op with
    | logicalNot => exact .pure ⟨_, .logicalNot ha⟩
    | negate | complement =>
      apply Yields.rejection_bind (Expr.requireInteger_yields ha.ty)
      intro _ ht
      exact .knownTy_bind ha.ty (.pure ⟨t, .arithUnary (by simp) ha ht⟩)
  | .binary note op l r => by
    rw [Expr.check]
    apply Yields.bind (l.check_settles T)
    rintro l' ⟨tl, hl⟩
    apply Yields.bind (r.check_settles T)
    rintro r' ⟨tr, hr⟩
    cases op with
    | logicalAnd | logicalOr => exact .pure ⟨_, .logical rfl hl hr⟩
    | strict strictOp =>
      refine .knownTy_bind hl.ty (.knownTy_bind hr.ty ?_)
      apply Yields.rejection_bind (Settled.convert (tl.common tr) hl)
      intro l'' hl'
      apply Yields.rejection_bind (Settled.convert (tl.common tr) hr)
      intro r'' hr'
      cases strictOp with
      | compare _ => exact .pure ⟨_, .compare hl' hr'⟩
      | arith _ =>
        apply Yields.rejection_bind (Expr.requireInteger_yields hl'.ty)
        intro _ ht
        exact .pure ⟨_, .arith hl' hr' ht⟩
  | .assign note l r => by
    rw [Expr.check]
    apply Yields.bind (l.check_settles T)
    rintro l' ⟨tl, hl⟩
    apply Yields.bind (r.check_settles T)
    rintro r' ⟨tr, hr⟩
    apply Yields.knownTy_bind hl.ty
    apply Yields.rejection_bind (Settled.convert tl hr)
    intro r'' hr'
    exact .pure ⟨_, .assign hl hr'⟩
  | .cond note c t f => by
    rw [Expr.check]
    apply Yields.bind (c.check_settles T)
    rintro c' ⟨tc, hc⟩
    apply Yields.bind (t.check_settles T)
    rintro t' ⟨tt, ht⟩
    apply Yields.bind (f.check_settles T)
    rintro f' ⟨tf, hf⟩
    refine .knownTy_bind ht.ty (.knownTy_bind hf.ty ?_)
    apply Yields.rejection_bind (Settled.convert (tt.common tf) ht)
    intro t'' ht'
    apply Yields.rejection_bind (Settled.convert (tt.common tf) hf)
    intro f'' hf'
    exact .pure ⟨_, .cond hc ht' hf'⟩
  | .range note l r => by
    rw [Expr.check]
    apply Yields.bind (l.check_settles T)
    rintro l' ⟨tl, hl⟩
    apply Yields.bind (r.check_settles T)
    rintro r' ⟨tr, hr⟩
    refine .knownTy_bind hl.ty (.knownTy_bind hr.ty ?_)
    apply Yields.rejection_bind (Settled.convert (tl.common tr) hl)
    intro l'' hl'
    apply Yields.rejection_bind (Settled.convert (tl.common tr) hr)
    intro r'' hr'
    apply Yields.rejection_bind (Expr.requireInteger_yields hl'.ty)
    intro _ ht
    exact .pure ⟨_, .range hl' hr' ht⟩
  | .cast note target a => by
    rw [Expr.check]
    exact .bind (a.check_settles T) fun a' ⟨_, ha⟩ => .pure ⟨target, .cast target ha⟩

/-- Checked arguments are settled. -/
theorem Expr.checkArgs_settles (T : SymbolTable) : ∀ (params : List Ty) (args : List Expr),
    params.length = args.length →
    Yields (Expr.checkArgs T params args) (fun _ => True) (Expr.AllSettled T params)
  | [], [], _ => by
    rw [Expr.checkArgs]
    · exact .pure ⟨rfl, rfl⟩
    · simp
  | param :: params, arg :: args, hlen => by
    rw [Expr.checkArgs]
    apply Yields.bind (arg.check_settles T)
    rintro arg' ⟨t, harg⟩
    apply Yields.rejection_bind (Settled.convert param harg)
    intro arg'' harg'
    exact .bind (Expr.checkArgs_settles T params args (Nat.succ.inj hlen)) fun _ hargs => .pure (.cons harg' hargs)
end

end Settled

/-! ## Constants of settled expressions -/

theorem Ty.truncate_truncate (t : Ty) (v : Int64) : t.truncate (t.truncate v) = t.truncate v := by
  cases t <;> simp [Ty.truncate]

/-- A checked constant has the value that it had. -/
theorem Expr.constant?_check (T : SymbolTable) : ∀ (e : Expr) (v : Int64), e.constant? = some v →
    Yields (e.check T) (fun _ => True) fun e' => e'.constant? = some v
  | .int .., _, hv | .long .., _, hv => by
    rw [Expr.check]
    exact .pure hv
  | .unary note op a, v, hv => by
    rw [Expr.check]
    cases op with
    | logicalNot => cases hv
    | negate | complement =>
      obtain ⟨w, hw, rfl⟩ := Option.map_eq_some_iff.1 hv
      apply Yields.bind (a.constant?_check T w hw)
      intro a' ha
      refine .after fun _ => .after fun _ => .pure ?_
      show a'.constant?.map _ = _
      rw [ha]
      rfl
  | .cast note target a, v, hv => by
    rw [Expr.check]
    obtain ⟨w, hw, rfl⟩ := Option.map_eq_some_iff.1 hv
    apply Yields.bind (a.constant?_check T w hw)
    intro a' ha
    apply Yields.pure
    show a'.constant?.map _ = _
    rw [ha]
    rfl

/-- A constant that is converted loses no more than what the type cuts off. -/
theorem Expr.constant?_convert {e : Expr} {v : Int64} (hv : e.constant? = some v) (target : Ty) :
    Yields (e.convert target) (fun _ => True) fun e' =>
      ∃ v', e'.constant? = some v' ∧ target.truncate v' = target.truncate v := by
  have hcast : (Expr.mkCast target e).constant? = some (target.truncate v) := by
    show e.constant?.map _ = _
    rw [hv]
    rfl
  exact e.convert_yields_of target ⟨v, hv, rfl⟩ ⟨_, hcast, target.truncate_truncate v⟩

/-! ## Steps that can be repeated -/

theorem Ensures.and {σ ε α : Type} {m : StateT σ (Except ε) α} {s : σ} {E : ε → Prop} {Q R : α → σ → Prop}
    (hQ : Ensures m s E Q) (hR : Ensures m s E R) : Ensures m s E fun a s' => Q a s' ∧ R a s' :=
  Yields.and hQ hR

namespace Checking

/-- After a step that ends well, what follows it is run. -/
theorem run_bind {α β : Type} {m : Checking α} {f : α → Checking β} {T T' : SymbolTable} {a : α}
    (h : m.run T = .ok (a, T')) : (m >>= f).run T = (f a).run T' := by
  rw [StateT.run_bind, h]
  rfl

/-- A step that can only reject leaves the table alone. -/
theorem rejection_ensures {α : Type} {T : SymbolTable} {x : Except Rejection α} {R : α → Prop}
    (hx : Yields x (fun _ => True) R) :
    Ensures (liftM x : Checking α) T (fun _ => True) fun a T' => T' = T ∧ R a := by
  cases x with
  | ok a => exact ⟨rfl, hx⟩
  | error e => exact trivial

theorem expr_settles (e : Expr) (T : SymbolTable) :
    Ensures (expr e) T (fun _ => True) fun e' T' => T' = T ∧ ∃ t, e'.Settled T t :=
  .get_bind (.lift (e.check_settles T))

theorem exprAs_settles (target : Ty) (e : Expr) (T : SymbolTable) :
    Ensures (exprAs target e) T (fun _ => True) fun e' T' => T' = T ∧ e'.Settled T target := by
  apply Ensures.bind (expr_settles e T)
  rintro e' T ⟨rfl, t, he⟩
  exact rejection_ensures (he.convert target)

/-- A settled expression is checked once more. -/
theorem run_expr {T : SymbolTable} {e : Expr} {t : Ty} (h : e.Settled T t) : (expr e).run T = .ok (e, T) := by
  show (liftM (e.check T) : Checking _).run T = _
  rw [h.check]
  rfl

/-- What a settled expression makes of the variable that counts through it. -/
theorem run_counterTy {T : SymbolTable} {e : Expr} {t : Ty} (h : e.Settled T t) (T' : SymbolTable) :
    (liftM e.counterTy : Checking Ty).run T' = .ok (if e.isRange then t else .int32, T') := by
  rw [Expr.counterTy_of_ty h.ty]
  rfl

/-- A settled expression needs no conversion to its type. -/
theorem run_exprAs {T : SymbolTable} {e : Expr} {t : Ty} (h : e.Settled T t) : (exprAs t e).run T = .ok (e, T) := by
  rw [exprAs, run_bind (run_expr h)]
  show (liftM (e.convert t) : Checking _).run T = _
  rw [Expr.convert_self h.ty]
  rfl

/-- A checked constant keeps its value in the width of its type. -/
theorem exprAs_constant {e : Expr} {v : Int64} (hv : e.constant? = some v) (target : Ty) (T : SymbolTable) :
    Ensures (exprAs target e) T (fun _ => True) fun e' _ =>
      ∃ v', e'.constant? = some v' ∧ target.truncate v' = target.truncate v := by
  have hexpr : Ensures (expr e) T (fun _ => True) fun e' _ => e'.constant? = some v :=
    .get_bind ((Ensures.lift (e.constant?_check T v hv)).mono fun _ _ h => h.2)
  apply Ensures.bind hexpr
  intro e' T' he
  exact (rejection_ensures (Expr.constant?_convert he target)).mono fun _ _ h => h.2

/-- The initial value of a static variable is settled, and worked out once more it is the same. -/
theorem staticInit_settles (name : String) (ty : Ty) (e : Expr) (T : SymbolTable) :
    Ensures (staticInit name ty e) T (fun _ => True) fun r T' =>
      T' = T ∧ (staticInit name ty r.1).run T = .ok (r, T) := by
  unfold staticInit
  split
  · exact .throw trivial
  · next v hv =>
    apply Ensures.bind ((exprAs_settles ty e T).and (exprAs_constant hv ty T))
    rintro e' T' ⟨⟨rfl, he⟩, v', hv', htruncate⟩
    refine .pure ⟨rfl, ?_⟩
    dsimp only
    rw [hv']
    dsimp only
    rw [run_bind (run_exprAs he), htruncate]
    rfl

end Checking

/-! ## Settled declarations -/

/-- Whatever the table, if the step ends well, then the same step on its result ends in the same way. -/
def Checking.Repeats {α : Type} (step : α → Checking α) (a : α) : Prop :=
  ∀ T : SymbolTable, Ensures (step a) T (fun _ => True) fun a' T' => (step a').run T = .ok (a', T')

open Checking

namespace VarDecl

/-- A variable that names one defined elsewhere stays as it is written. -/
theorem checkExternal_same (d : VarDecl) (T : SymbolTable) :
    Ensures d.checkExternal T (fun _ => True) fun d' _ => d' = d := by
  unfold checkExternal
  split
  · exact .throw trivial
  · apply Ensures.get_bind
    split
    · split
      · exact .throw trivial
      · exact .pure rfl
    · apply Ensures.of_run
      intro d' T' hrun
      cases hrun
      rfl

theorem checkStatic_repeats (d : VarDecl) (T : SymbolTable) :
    Ensures d.checkStatic T (fun _ => True) fun d' T' =>
      d'.storage = d.storage ∧ d'.checkStatic.run T = .ok (d', T') := by
  unfold checkStatic
  split
  · next hi =>
    apply Ensures.of_run
    intro d' T' hrun
    cases hrun
    dsimp only
    rw [hi]
    exact ⟨rfl, rfl⟩
  · next e hi =>
    apply Ensures.bind (staticInit_settles d.ident.name d.type.ty e T)
    rintro ⟨e', v⟩ T' ⟨rfl, hagain⟩
    apply Ensures.of_run
    intro d' T'' hrun
    cases hrun
    dsimp only
    rw [run_bind hagain]
    exact ⟨rfl, rfl⟩

theorem checkAutomatic_repeats (d : VarDecl) (T : SymbolTable) :
    Ensures d.checkAutomatic T (fun _ => True) fun d' T' =>
      d'.storage = d.storage ∧ d'.checkAutomatic.run T = .ok (d', T') := by
  unfold checkAutomatic
  have henter : (enter d.ident.name ⟨d.type.ty, .automatic⟩).run T =
      .ok ((), T.set d.ident.name ⟨d.type.ty, .automatic⟩) := rfl
  apply Ensures.bind (R := fun _ T' => T' = T.set d.ident.name ⟨d.type.ty, .automatic⟩)
    (Ensures.of_run fun _ _ hrun => by cases hrun; rfl)
  rintro _ T' rfl
  split
  · next hi =>
    refine .pure ⟨rfl, ?_⟩
    rw [run_bind henter, hi]
    rfl
  · next e hi =>
    apply Ensures.bind (exprAs_settles d.type.ty e _)
    rintro e' T' ⟨rfl, he⟩
    refine .pure ⟨rfl, ?_⟩
    rw [run_bind henter]
    dsimp only
    rw [run_bind (run_exprAs he)]
    rfl

/-- A checked variable of a block is checked once more in the same way. -/
theorem checkLocal_repeats (d : VarDecl) : Repeats checkLocal d := by
  intro T
  rw [checkLocal]
  split
  · next hs =>
    apply Ensures.of_run
    intro d' T' hrun
    have hsame : d' = d := (d.checkExternal_same T).of_ok hrun
    rw [hsame] at hrun ⊢
    rw [checkLocal, hs]
    exact hrun
  · next hs =>
    apply (d.checkStatic_repeats T).mono
    rintro d' T' ⟨hs', hagain⟩
    rw [checkLocal, hs', hs]
    exact hagain
  · next hs =>
    apply (d.checkAutomatic_repeats T).mono
    rintro d' T' ⟨hs', hagain⟩
    rw [checkLocal, hs', hs]
    exact hagain

end VarDecl

/-! ## Settled statements -/

mutual
/-- A checked statement is checked once more in the same way. -/
theorem Stmt.check_repeats (ret : Ty) : ∀ s : Stmt, Repeats (Stmt.check ret) s
  | .ret none span, T => by
    rw [Stmt.check]
    exact .pure rfl
  | .leave .., T | .next .., T | .skip, T => by
    rw [Stmt.check]
    exact .pure rfl
  | .eval e, T => by
    rw [Stmt.check]
    apply Ensures.bind (expr_settles e T)
    rintro e' T ⟨rfl, t, he⟩
    apply Ensures.pure
    rw [Stmt.check, run_bind (run_expr he)]
    rfl
  | .ret (some e) span, T => by
    rw [Stmt.check]
    apply Ensures.bind (exprAs_settles ret e T)
    rintro e' T ⟨rfl, he⟩
    apply Ensures.pure
    rw [Stmt.check, run_bind (run_exprAs he)]
    rfl
  | .ifThen c s, T => by
    rw [Stmt.check]
    apply Ensures.bind (expr_settles c T)
    rintro c' T ⟨rfl, t, hc⟩
    apply Ensures.bind (s.check_repeats ret T)
    intro s' T' hs
    apply Ensures.pure
    rw [Stmt.check, run_bind (run_expr hc), run_bind hs]
    rfl
  | .ifElse c s t, T => by
    rw [Stmt.check]
    apply Ensures.bind (expr_settles c T)
    rintro c' T ⟨rfl, _, hc⟩
    apply Ensures.bind (s.check_repeats ret T)
    intro s' T' hs
    apply Ensures.bind (t.check_repeats ret T')
    intro t' T'' ht
    apply Ensures.pure
    rw [Stmt.check, run_bind (run_expr hc), run_bind hs, run_bind ht]
    rfl
  | .block items, T => by
    rw [Stmt.check]
    apply Ensures.bind (checkItems_repeats ret items T)
    intro items' T' hitems
    apply Ensures.pure
    rw [Stmt.check, run_bind hitems]
    rfl
  | .whileLoop c body id, T => by
    rw [Stmt.check]
    apply Ensures.bind (expr_settles c T)
    rintro c' T ⟨rfl, t, hc⟩
    apply Ensures.bind (checkItems_repeats ret body T)
    intro body' T' hbody
    apply Ensures.pure
    rw [Stmt.check, run_bind (run_expr hc), run_bind hbody]
    rfl
  | .loop var control body id, T => by
    rw [Stmt.check]
    apply Ensures.bind (expr_settles control T)
    rintro control' T ⟨rfl, t, hcontrol⟩
    cases var with
    | none =>
      apply Ensures.bind (checkItems_repeats ret body T)
      intro body' T' hbody
      apply Ensures.pure
      rw [Stmt.check, run_bind (run_expr hcontrol)]
      dsimp only
      rw [run_bind hbody]
      rfl
    | some ident =>
      let T₁ := T.set ident.name ⟨if control'.isRange then t else .int32, .automatic⟩
      have henter : (enter ident.name ⟨if control'.isRange then t else .int32, .automatic⟩).run T = .ok ((), T₁) := rfl
      apply Checking.counter_bind hcontrol.ty
      apply Ensures.bind (R := fun _ T' => T' = T₁) (Ensures.of_run fun _ _ hrun => by cases hrun; rfl)
      rintro _ T' rfl
      apply Ensures.bind (checkItems_repeats ret body T₁)
      intro body' T' hbody
      apply Ensures.pure
      rw [Stmt.check, run_bind (run_expr hcontrol)]
      dsimp only
      rw [run_bind (run_counterTy hcontrol T), run_bind henter, run_bind hbody]
      rfl

/-- Checked items of a block are checked once more in the same way. -/
theorem checkItems_repeats (ret : Ty) : ∀ items : List Item, Repeats (checkItems ret) items
  | [], T => by
    rw [checkItems]
    exact .pure rfl
  | .stmt s :: rest, T => by
    rw [checkItems]
    apply Ensures.bind (s.check_repeats ret T)
    intro s' T' hs
    apply Ensures.bind (checkItems_repeats ret rest T')
    intro rest' T'' hrest
    apply Ensures.pure
    rw [checkItems, run_bind hs, run_bind hrest]
    rfl
  | .var d :: rest, T => by
    rw [checkItems]
    apply Ensures.bind (d.checkLocal_repeats T)
    intro d' T' hd
    apply Ensures.bind (checkItems_repeats ret rest T')
    intro rest' T'' hrest
    apply Ensures.pure
    rw [checkItems, run_bind hd, run_bind hrest]
    rfl
  | .fn head body :: rest, T => by
    rw [checkItems]
    exact .throw trivial
end

/-! ## Steps of the top level -/

/-- Enters a function, which has a body here or not. -/
def FnHead.enter (head : FnHead) (hasBody : Bool) : Checking Unit := do
  Checking.enter head.ident.name (← head.symbol hasBody ((← get).get? head.ident.name))

/-- Enters a variable of the top level, of whose first value `init` is said. -/
def VarDecl.enter (d : VarDecl) (init : StaticInit) : Checking Unit := do
  Checking.enter d.ident.name (← d.symbol init ((← get).get? d.ident.name))

/-- What a variable of the top level says of its first value without giving one. -/
def VarDecl.unsaid (d : VarDecl) : StaticInit := if d.isExternal then .absent else .tentative

namespace Decl

theorem check_declared (head : FnHead) : (Decl.fn head none).check = (do
    head.enter false
    Param.enterAll head.params
    return .fn head none) := by
  simp only [Decl.check, FnHead.enter, bind_assoc, Option.isSome_none]

theorem check_defined (head : FnHead) (items : List Item) : (Decl.fn head (some items)).check = (do
    head.enter true
    Param.enterAll head.params
    return .fn head (some (← checkItems head.ret.ty items))) := by
  simp only [Decl.check, FnHead.enter, bind_assoc, Option.isSome_some]

theorem check_valueless {d : VarDecl} (hi : d.init = none) : (Decl.var d).check = (do
    d.enter d.unsaid
    return .var d) := by
  simp only [Decl.check, VarDecl.enter, VarDecl.unsaid, bind_assoc, hi]

theorem check_valued {d : VarDecl} {e : Expr} (hi : d.init = some e) : (Decl.var d).check = (do
    let r ← Checking.staticInit d.ident.name d.type.ty e
    d.enter (.value r.2)
    return .var { d with init := some r.1 }) := by
  simp only [Decl.check, VarDecl.enter, bind_assoc, hi]

end Decl

/-! ## Settled programs -/

/-- A step without a result of interest ends in the same way when it is run from the same table. -/
theorem Checking.ensures_run (m : Checking Unit) (T : SymbolTable) :
    Ensures m T (fun _ => True) fun _ T' => m.run T = .ok ((), T') :=
  .of_run fun _ _ hrun => hrun

/-- A checked declaration of the top level is checked once more in the same way. -/
theorem Decl.check_repeats : ∀ d : Decl, Repeats Decl.check d
  | .fn head none, T => by
    rw [Decl.check_declared]
    apply Ensures.bind (ensures_run _ T)
    intro _ T₁ hhead
    apply Ensures.bind (ensures_run _ T₁)
    intro _ T₂ hparams
    apply Ensures.pure
    rw [Decl.check_declared, run_bind hhead, run_bind hparams]
    rfl
  | .fn head (some items), T => by
    rw [Decl.check_defined]
    apply Ensures.bind (ensures_run _ T)
    intro _ T₁ hhead
    apply Ensures.bind (ensures_run _ T₁)
    intro _ T₂ hparams
    apply Ensures.bind (checkItems_repeats head.ret.ty items T₂)
    intro items' T₃ hitems
    apply Ensures.pure
    rw [Decl.check_defined, run_bind hhead, run_bind hparams, run_bind hitems]
    rfl
  | .var d, T => by
    cases hi : d.init with
    | none =>
      rw [Decl.check_valueless hi]
      apply Ensures.bind (ensures_run _ T)
      intro _ T₁ henter
      apply Ensures.pure
      rw [Decl.check_valueless hi, run_bind henter]
      rfl
    | some e =>
      rw [Decl.check_valued hi]
      apply Ensures.bind (staticInit_settles d.ident.name d.type.ty e T)
      rintro r T ⟨rfl, hagain⟩
      apply Ensures.bind (ensures_run _ T)
      intro _ T₁ henter
      apply Ensures.pure
      have hvalued := Decl.check_valued (d := { d with init := some r.1 }) rfl
      have henter' : (VarDecl.enter { d with init := some r.1 } (.value r.2)).run T = .ok ((), T₁) := henter
      rw [hvalued, run_bind hagain, run_bind henter']
      rfl

theorem checkDecls_repeats : ∀ ds : List Decl, Repeats checkDecls ds
  | [], T => by
    rw [checkDecls]
    exact .pure rfl
  | d :: ds, T => by
    rw [checkDecls]
    apply Ensures.bind (d.check_repeats T)
    intro d' T₁ hd
    apply Ensures.bind (checkDecls_repeats ds T₁)
    intro ds' T₂ hds
    apply Ensures.pure
    rw [checkDecls, run_bind hd, run_bind hds]
    rfl

/-- Checking ends in the same way, whatever types a program carries: with the same complaint, or with the same program
and the same symbols in the same order. And to a program that it has accepted it does nothing more: checked once more,
the program stays as it is and has the same symbols. -/
theorem Program.check_settled (p : Program) : p.check = p.unannotated.check ∧
    ∀ (q : Program) (T : SymbolTable), p.check = .ok (q, T) → q.check = .ok (q, T) := by
  refine ⟨p.check_unannotated.symm, ?_⟩
  intro q T hcheck
  rw [Program.check] at hcheck
  obtain ⟨r, hrun, hr⟩ := Except.exists_of_bind hcheck
  cases hr
  have hagain : (checkDecls r.1).run .empty = .ok (r.1, r.2) := (checkDecls_repeats p.decls .empty).of_ok hrun
  rw [Program.check, show (Program.mk r.1).decls = r.1 from rfl, hagain]
  rfl

/-- A wide static variable with a narrow constant, and a function that adds a narrow number to it and returns a narrow
sum. The program carries a type that is wrong. -/
def widens : Program :=
  ⟨[.var ⟨⟨"x", .nowhere⟩, .long, some (.unary {} .negate (.int { ty := some .string } 5)), some .static⟩,
    .fn ⟨⟨"f", .nowhere⟩, [], .int, true, false⟩
      (some [.stmt (.ret (some (.binary {} (.strict (.arith .add)) (.var {} "x") (.int {} 1))) .nowhere)])]⟩

/-- The same program after it has been checked, with three casts. -/
def widened : Program :=
  ⟨[.var ⟨⟨"x", .nowhere⟩, .long, some (.mkCast .int64 (.unary { ty := some .int32 } .negate
      (.int { ty := some .int32 } 5))), some .static⟩,
    .fn ⟨⟨"f", .nowhere⟩, [], .int, true, false⟩
      (some [.stmt (.ret (some (.mkCast .int32 (.binary { ty := some .int64 } (.strict (.arith .add))
        (.var { ty := some .int64 } "x") (.mkCast .int64 (.int { ty := some .int32 } 1))))) .nowhere)])]⟩

/-- The symbols of both. -/
def widenedSymbols : SymbolTable :=
  ⟨[("x", ⟨.int64, .static (.value (-5)) false⟩), ("f", ⟨.fn [] .int32, .function true true⟩)]⟩

theorem widens_settled : widens.check = .ok (widened, widenedSymbols) ∧ widens.unannotated.check = widens.check ∧
    widened.check = .ok (widened, widenedSymbols) := by
  obtain ⟨htypes, hagain⟩ := Program.check_settled widens
  have hcheck : widens.check = .ok (widened, widenedSymbols) := rfl
  exact ⟨hcheck, htypes.symm, hagain widened widenedSymbols hcheck⟩

end Khel
