import Khel.Proofs.Analysis
import Khel.Proofs.Program.Changed

/-!
# Checking only adds

Checking records types and puts casts around operands, and that is all it does to a program: whoever drops the casts and
the types again has the program that was checked. What it adds is right, since the result is well typed by rules that
know no conversion besides a cast.

* `Expr.erase`: an expression without casts and types.
* `Expr.check_erases`, `checkDecls_erases`: checking undone by erasure.
* `Expr.WellTyped.nodes`: the parts of a well-typed expression are well typed.
* `Program.analyze_sound`: what the analysis of a plain program gives.
-/

namespace Khel

/-! ## Erasure -/

mutual
/-- The expression without the types that checking records. -/
def Expr.unannotated : Expr → Expr
  | .int note v => .int { note with ty := none } v
  | .long note v => .long { note with ty := none } v
  | .str note s => .str { note with ty := none } s
  | .var note x => .var { note with ty := none } x
  | .call note f args => .call { note with ty := none } f (Expr.allUnannotated args)
  | .unary note op a => .unary { note with ty := none } op a.unannotated
  | .binary note op l r => .binary { note with ty := none } op l.unannotated r.unannotated
  | .assign note l r => .assign { note with ty := none } l.unannotated r.unannotated
  | .cond note c t f => .cond { note with ty := none } c.unannotated t.unannotated f.unannotated
  | .range note l r => .range { note with ty := none } l.unannotated r.unannotated
  | .cast note t a => .cast { note with ty := none } t a.unannotated

/-- The expressions of a list, each without types. -/
def Expr.allUnannotated : List Expr → List Expr
  | [] => []
  | e :: es => e.unannotated :: Expr.allUnannotated es
end

mutual
/-- The expression without casts. -/
def Expr.uncast : Expr → Expr
  | .int note v => .int note v
  | .long note v => .long note v
  | .str note s => .str note s
  | .var note x => .var note x
  | .call note f args => .call note f (Expr.allUncast args)
  | .unary note op a => .unary note op a.uncast
  | .binary note op l r => .binary note op l.uncast r.uncast
  | .assign note l r => .assign note l.uncast r.uncast
  | .cond note c t f => .cond note c.uncast t.uncast f.uncast
  | .range note l r => .range note l.uncast r.uncast
  | .cast _ _ a => a.uncast

/-- The expressions of a list, each without casts. -/
def Expr.allUncast : List Expr → List Expr
  | [] => []
  | e :: es => e.uncast :: Expr.allUncast es
end

/-- The expression without casts and types. -/
def Expr.erase (e : Expr) : Expr := e.uncast.unannotated

/-- Drops casts and types. -/
def Change.erase : Change := { expr := Expr.erase }

/-- Drops types. -/
def Change.unannotate : Change := { expr := Expr.unannotated }

section Expressions

variable {known : String → Prop} {T : SymbolTable}

/-- The type of the root is dropped. -/
theorem Expr.erase_setTy (t : Ty) (e : Expr) : (e.setTy t).erase = e.erase := by
  cases e <;> rfl

/-- A conversion adds a cast or nothing. -/
theorem Expr.convert_yields_of (e : Expr) (target : Ty) {Q : Expr → Prop} (h : Q e) (hcast : Q (.mkCast target e)) :
    Yields (e.convert target) (fun _ => True) Q := by
  unfold Expr.convert
  split
  · split
    · exact h
    · split
      · exact trivial
      · exact hcast
  · exact hcast

/-- What a conversion adds is dropped. -/
theorem Expr.convert_erases (e : Expr) (target : Ty) :
    Yields (e.convert target) (fun _ => True) fun e' => e'.erase = e.erase :=
  e.convert_yields_of target rfl rfl

/-- A step whose result does not matter. -/
theorem Yields.after {ε α β : Type} {x : Except ε α} {f : α → Except ε β} {P : β → Prop}
    (hf : ∀ a, Yields (f a) (fun _ => True) P) : Yields (x >>= f) (fun _ => True) P :=
  .bind (R := fun _ => True) (.of_forall fun _ _ => trivial) fun a _ => hf a

/-- A step that can only reject, inside one that can fail in other ways. -/
theorem Yields.rejection_bind {α β : Type} {x : Except Rejection α} {f : α → Except CompileError β} {R : α → Prop}
    {P : β → Prop} (hx : Yields x (fun _ => True) R) (hf : ∀ a, R a → Yields (f a) (fun _ => True) P) :
    Yields ((liftM x : Except CompileError α) >>= f) (fun _ => True) P := by
  cases x with
  | ok a => exact hf a hx
  | error e => trivial

/-- Conversions of both operands to a type are dropped. -/
theorem Expr.convert_bind {α : Type} {e e₀ : Expr} (he : e.erase = e₀) (target : Ty)
    {f : Expr → Except CompileError α} {P : α → Prop}
    (hf : ∀ e', e'.erase = e₀ → Yields (f e') (fun _ => True) P) :
    Yields (liftM (e.convert target) >>= f) (fun _ => True) P := by
  apply Yields.rejection_bind (e.convert_erases target)
  intro e' he'
  exact hf e' (he'.trans he)

mutual
/-- Erasure undoes the checking of an expression. -/
theorem Expr.check_erases (T : SymbolTable) : ∀ e : Expr, e.Checkable known →
    Yields (e.check T) (fun _ => True) fun e' => e'.erase = e.unannotated
  | .int .., _ | .long .., _ | .str .., _ => by
    rw [Expr.check]
    exact .pure rfl
  | .var note x, _ => by
    rw [Expr.check]
    split
    · exact .throw trivial
    · split
      · exact .throw trivial
      · exact .pure rfl
  | .call note f args, he => by
    rw [Expr.check]
    split
    · exact .throw trivial
    · split
      · split
        · next params ret _ hlen =>
          apply Yields.bind (Expr.checkArgs_erases T params args he hlen)
          intro args' hargs
          exact .pure (congrArg (Expr.call _ f) hargs)
        · exact .throw trivial
      · exact .throw trivial
  | .unary note op a, he => by
    rw [Expr.check]
    apply Yields.bind (a.check_erases T he)
    intro a' ha
    have hnode : (Expr.unary note op a').erase = (Expr.unary note op a).unannotated :=
      congrArg (Expr.unary _ op) ha
    cases op with
    | logicalNot => exact .pure ((Expr.erase_setTy _ _).trans hnode)
    | negate | complement =>
      exact .after fun _ => .after fun _ => .pure ((Expr.erase_setTy _ _).trans hnode)
  | .binary note op l r, he => by
    rw [Expr.check]
    apply Yields.bind (l.check_erases T he.1)
    intro l' hl
    apply Yields.bind (r.check_erases T he.2)
    intro r' hr
    have hnode : ∀ l' r' : Expr, l'.erase = l.unannotated → r'.erase = r.unannotated → ∀ t,
        ((Expr.binary note op l' r').setTy t).erase = (Expr.binary note op l r).unannotated := by
      intro l' r' hl hr t
      rw [Expr.erase_setTy]
      exact congrArg₂ (Expr.binary _ op) hl hr
    cases op with
    | logicalAnd | logicalOr => exact .pure (hnode l' r' hl hr _)
    | strict strictOp =>
      refine .after fun tl => .after fun tr => ?_
      apply Expr.convert_bind hl
      intro l'' hl'
      apply Expr.convert_bind hr
      intro r'' hr'
      cases strictOp with
      | compare _ => exact .pure (hnode l'' r'' hl' hr' _)
      | arith _ =>
        exact .after fun _ => .pure (hnode l'' r'' hl' hr' _)
  | .assign note l r, he => by
    rw [Expr.check]
    apply Yields.bind (l.check_erases T he.2.1)
    intro l' hl
    apply Yields.bind (r.check_erases T he.2.2)
    intro r' hr
    apply Yields.after
    intro t
    apply Expr.convert_bind hr
    intro r'' hr'
    exact .pure (congrArg₂ (Expr.assign _) hl hr')
  | .cond note c t f, he => by
    rw [Expr.check]
    apply Yields.bind (c.check_erases T he.1)
    intro c' hc
    apply Yields.bind (t.check_erases T he.2.1)
    intro t' ht
    apply Yields.bind (f.check_erases T he.2.2)
    intro f' hf
    refine .after fun tt => .after fun tf => ?_
    apply Expr.convert_bind ht
    intro t'' ht'
    apply Expr.convert_bind hf
    intro f'' hf'
    apply Yields.pure
    show Expr.cond _ c'.erase t''.erase f''.erase = _
    rw [show c'.erase = c.unannotated from hc, ht', hf']
    rfl
  | .range note l r, he => by
    rw [Expr.check]
    apply Yields.bind (l.check_erases T he.1)
    intro l' hl
    apply Yields.bind (r.check_erases T he.2)
    intro r' hr
    refine .after fun tl => .after fun tr => ?_
    apply Expr.convert_bind hl
    intro l'' hl'
    apply Expr.convert_bind hr
    intro r'' hr'
    exact .after fun _ => .pure (congrArg₂ (Expr.range _) hl' hr')

theorem Expr.checkArgs_erases (T : SymbolTable) : ∀ (params : List Ty) (args : List Expr),
    Expr.AllCheckable known args → params.length = args.length →
    Yields (Expr.checkArgs T params args) (fun _ => True) fun args' =>
      Expr.allUnannotated (Expr.allUncast args') = Expr.allUnannotated args
  | [], [], _, _ => by
    rw [Expr.checkArgs]
    · exact .pure rfl
    · simp
  | param :: params, arg :: args, hargs, hlen => by
    rw [Expr.checkArgs]
    apply Yields.bind (arg.check_erases T hargs.1)
    intro arg' harg
    apply Expr.convert_bind harg
    intro arg'' harg'
    apply Yields.bind (Expr.checkArgs_erases T params args hargs.2 (Nat.succ.inj hlen))
    intro args' hargs'
    exact .pure (congrArg₂ List.cons harg' hargs')
end

end Expressions

/-! ## Steps -/

/-- Whatever the table, if the step ends well, its result satisfies `Q`. -/
def Checking.Gives {α : Type} (m : Checking α) (Q : α → Prop) : Prop :=
  ∀ T : SymbolTable, Ensures m T (fun _ => True) fun a _ => Q a

namespace Checking.Gives

variable {α β : Type} {m : Checking α} {f : α → Checking β} {Q : α → Prop} {P : β → Prop}

theorem pure {a : α} (h : Q a) : Gives (Pure.pure a) Q := fun _ => Ensures.pure h

theorem throw {e : CompileError} : Gives (MonadExcept.throw e : Checking α) Q := fun _ => Ensures.throw trivial

theorem bind (hm : Gives m Q) (hf : ∀ a, Q a → Gives (f a) P) : Gives (m >>= f) P :=
  fun T => Ensures.bind (hm T) fun a T' ha => hf a ha T'

/-- A step whose result does not matter. -/
theorem after (hf : ∀ a, Gives (f a) P) : Gives (m >>= f) P := by
  have hm : Gives m fun _ => True := fun _ => Ensures.of_run fun _ _ _ => trivial
  exact hm.bind fun a _ => hf a

theorem get_bind {f : SymbolTable → Checking β} (hf : ∀ T, Gives (f T) P) : Gives (MonadState.get >>= f) P :=
  fun T => Ensures.get_bind (hf T T)

theorem of_yields {x : Except CompileError α} (hx : Yields x (fun _ => True) Q) : Gives (liftM x) Q := by
  intro T
  exact (Ensures.lift hx).mono fun _ _ h => h.2

theorem of_rejection {x : Except Rejection α} (hx : Yields x (fun _ => True) Q) : Gives (liftM x) Q := by
  intro T
  cases x with
  | ok a => exact hx
  | error e => trivial

end Checking.Gives

/-! ## Statements -/

section Statements

open Checking

variable {known : String → Prop}

theorem Checking.expr_erases {e : Expr} (he : e.Checkable known) :
    Gives (expr e) fun e' => e'.erase = e.unannotated :=
  .get_bind fun T => .of_yields (e.check_erases T he)

theorem Checking.exprAs_erases {e : Expr} (he : e.Checkable known) (target : Ty) :
    Gives (exprAs target e) fun e' => e'.erase = e.unannotated := by
  apply Gives.bind (expr_erases he)
  intro e' he'
  exact .of_rejection ((e'.convert_erases target).mono fun e'' he'' => he''.trans he')

theorem Checking.staticInit_erases {e : Expr} (he : e.Checkable known) (name : String) (ty : Ty) :
    Gives (staticInit name ty e) fun r => r.1.erase = e.unannotated := by
  unfold staticInit
  split
  · exact .throw
  · exact .bind (exprAs_erases he ty) fun _ he' => .pure he'

/-- The declaration with a checked initial value. -/
theorem VarDecl.erase_init {d : VarDecl} {e e' : Expr} (hi : d.init = some e) (he : e'.erase = e.unannotated) :
    ({ d with init := some e' } : VarDecl).change .erase = d.change .unannotate := by
  unfold VarDecl.change
  rw [hi]
  show VarDecl.mk _ _ (some e'.erase) _ = VarDecl.mk _ _ (some e.unannotated) _
  rw [he]
  rfl

theorem VarDecl.erase_of_init {d : VarDecl} (hi : d.init = none) : d.change .erase = d.change .unannotate := by
  unfold VarDecl.change
  rw [hi]
  rfl

theorem VarDecl.checkExternal_erases (d : VarDecl) :
    Gives d.checkExternal fun d' => d'.change .erase = d.change .unannotate := by
  unfold checkExternal
  split
  · exact .throw
  · -- Only a declaration without an initial value is accepted.
    next hinit =>
    have hsame := d.erase_of_init (by simpa using hinit)
    apply Gives.get_bind
    intro T
    split
    · split
      · exact .throw
      · exact .pure hsame
    · exact .after fun _ => .pure hsame

theorem VarDecl.checkStatic_erases {d : VarDecl} (hd : ∀ e ∈ d.init, e.Checkable known) :
    Gives d.checkStatic fun d' => d'.change .erase = d.change .unannotate := by
  unfold checkStatic
  split
  · next hi => exact .after fun _ => .pure (d.erase_of_init hi)
  · next e hi =>
    apply Gives.bind (staticInit_erases (hd e hi) _ _)
    intro r he
    exact .after fun _ => .pure (d.erase_init hi he)

theorem VarDecl.checkAutomatic_erases {d : VarDecl} (hd : ∀ e ∈ d.init, e.Checkable known) :
    Gives d.checkAutomatic fun d' => d'.change .erase = d.change .unannotate := by
  apply Gives.after
  intro _
  split
  · next hi => exact .pure (d.erase_of_init hi)
  · next e hi => exact .bind (exprAs_erases (hd e hi) _) fun e' he => .pure (d.erase_init hi he)

/-- Erasure undoes the checking of a variable of a block. -/
theorem VarDecl.checkLocal_erases {d : VarDecl} (hd : d.Checkable known) :
    Gives d.checkLocal fun d' => d'.changeLocal .erase = d.changeLocal .unannotate := by
  simp only [changeLocal_eq (c := .erase) rfl, changeLocal_eq (c := .unannotate) rfl]
  unfold VarDecl.Checkable at hd
  unfold checkLocal
  split
  · exact d.checkExternal_erases
  · next hs =>
    rw [if_neg (by simp [isExternal, hs])] at hd
    exact checkStatic_erases hd
  · next hs =>
    rw [if_neg (by simp [isExternal, hs])] at hd
    exact checkAutomatic_erases hd

mutual
/-- Erasure undoes the checking of a statement. -/
theorem Stmt.check_erases (ret : Ty) : ∀ {known : String → Prop} (s : Stmt), s.Checkable known →
    Gives (s.check ret) fun s' => s'.change .erase = s.change .unannotate
  | _, .eval e, hs => by
    rw [Stmt.check]
    exact .bind (expr_erases hs) fun _ he => .pure (congrArg Stmt.eval he)
  | _, .ret none span, _ => by
    rw [Stmt.check]
    exact .pure rfl
  | _, .ret (some e) span, hs => by
    rw [Stmt.check]
    exact .bind (exprAs_erases (hs e rfl) ret) fun _ he => .pure (congrArg (fun e => Stmt.ret (some e) span) he)
  | _, .ifThen c s, hs => by
    rw [Stmt.check]
    apply Gives.bind (expr_erases hs.1)
    intro c' hc
    exact .bind (s.check_erases ret hs.2) fun s' hs' => .pure (congrArg₂ Stmt.ifThen hc hs')
  | _, .ifElse c s t, hs => by
    rw [Stmt.check]
    apply Gives.bind (expr_erases hs.1)
    intro c' hc
    apply Gives.bind (s.check_erases ret hs.2.1)
    intro s' hs'
    apply Gives.bind (t.check_erases ret hs.2.2)
    intro t' ht'
    apply Gives.pure
    show Stmt.ifElse c'.erase (s'.change .erase) (t'.change .erase) = _
    rw [hc, hs', ht']
    rfl
  | _, .block items, hs => by
    rw [Stmt.check]
    exact .bind (checkItems_erases ret items hs) fun _ hi => .pure (congrArg Stmt.block hi)
  | _, .whileLoop c body id, hs => by
    rw [Stmt.check]
    apply Gives.bind (expr_erases hs.1)
    intro c' hc
    exact .bind (checkItems_erases ret body hs.2) fun _ hb => .pure (congrArg₂ (Stmt.whileLoop · · id) hc hb)
  | _, .loop var control body id, hs => by
    rw [Stmt.check]
    apply Gives.bind (expr_erases hs.1)
    intro control' hc
    have hbody : Gives (checkItems ret body >>= fun body' => pure (Stmt.loop var control' body' id)) fun s' =>
        s'.change .erase = (Stmt.loop var control body id).change .unannotate :=
      .bind (checkItems_erases ret body hs.2) fun body' hb => .pure (congrArg₂ (Stmt.loop _ · · id) hc hb)
    cases var with
    | none => exact hbody
    | some ident => exact .after fun _ => .after fun _ => hbody
  | _, .leave .., _ | _, .next .., _ | _, .skip, _ => by
    rw [Stmt.check]
    exact .pure rfl

theorem checkItems_erases (ret : Ty) : ∀ {known : String → Prop} (items : List Item), itemsCheckable known items →
    Gives (checkItems ret items) fun items' => changeItems .erase items' = changeItems .unannotate items
  | _, [], _ => by
    rw [checkItems]
    exact .pure rfl
  | _, .stmt s :: rest, hs => by
    rw [checkItems]
    apply Gives.bind (s.check_erases ret hs.1)
    intro s' hs'
    exact .bind (checkItems_erases ret rest hs.2) fun _ hr => .pure (congrArg₂ (fun s r => Item.stmt s :: r) hs' hr)
  | _, .var d :: rest, hs => by
    rw [checkItems]
    apply Gives.bind (d.checkLocal_erases hs.1)
    intro d' hd
    exact .bind (checkItems_erases ret rest hs.2) fun _ hr => .pure (congrArg₂ (fun d r => Item.var d :: r) hd hr)
end

/-! ## Programs -/

theorem Decl.check_erases : ∀ d : Decl, d.Checkable known →
    Gives d.check fun d' => d'.change .erase = d.change .unannotate
  | .fn head none, _ => by
    rw [Decl.check]
    apply Gives.get_bind
    intro T
    exact .after fun _ => .after fun _ => .after fun _ => .pure rfl
  | .fn head (some items), hd => by
    rw [Decl.check]
    apply Gives.get_bind
    intro T
    refine .after fun _ => .after fun _ => .after fun _ => ?_
    exact .bind (checkItems_erases head.ret.ty items (hd.2 items rfl)) fun _ hi =>
      .pure (congrArg (fun items => Decl.fn _ (some items)) hi)
  | .var d, hd => by
    rw [Decl.check]
    split
    · next hi =>
      apply Gives.get_bind
      intro T
      exact .after fun _ => .after fun _ => .pure (congrArg Decl.var (d.erase_of_init hi))
    · next e hi =>
      apply Gives.bind (staticInit_erases (hd.2 e hi) _ _)
      intro r he
      apply Gives.get_bind
      intro T
      exact .after fun _ => .after fun _ => .pure (congrArg Decl.var (d.erase_init hi he))

/-- Erasure undoes the checking of a program. -/
theorem checkDecls_erases : ∀ {known : String → Prop} (ds : List Decl), declsCheckable known ds →
    Gives (checkDecls ds) fun ds' => ds'.map (Decl.change .erase) = ds.map (Decl.change .unannotate)
  | _, [], _ => .pure rfl
  | _, d :: ds, hds => by
    rw [checkDecls]
    apply Gives.bind (d.check_erases hds.1)
    intro d' hd
    exact .bind (checkDecls_erases ds hds.2) fun _ h => .pure (congrArg₂ List.cons hd h)

end Statements

/-! ## The parts of well-typed programs -/

section Parts

variable {T : SymbolTable}

mutual
/-- The parts of a well-typed expression are well typed. -/
theorem Expr.WellTyped.nodes : ∀ {e : Expr}, e.WellTyped T → ∀ n ∈ e.nodes, n.WellTyped T
  | .int .., he, n, hn | .long .., he, n, hn | .str .., he, n, hn | .var .., he, n, hn => by
    cases List.mem_singleton.1 hn
    exact he
  | .call _ _ args, he, n, hn => by
    rcases List.mem_cons.1 hn with rfl | hn
    · exact he
    · obtain ⟨_, _, _, _, _, _, _, hargs⟩ := he
      exact Expr.AllWellTyped.nodes hargs n hn
  | .unary _ op a, he, n, hn => by
    rcases List.mem_cons.1 hn with rfl | hn
    · exact he
    · have ha : a.WellTyped T := by cases op <;> exact he.1
      exact ha.nodes n hn
  | .binary _ op l r, he, n, hn => by
    rcases List.mem_cons.1 hn with rfl | hn
    · exact he
    · have hlr : l.WellTyped T ∧ r.WellTyped T := by
        cases op with
        | logicalAnd | logicalOr => exact ⟨he.1, he.2.1⟩
        | strict op => cases op <;> exact ⟨he.1, he.2.1⟩
      rcases List.mem_append.1 hn with hn | hn
      · exact hlr.1.nodes n hn
      · exact hlr.2.nodes n hn
  | .assign _ l r, he, n, hn => by
    rcases List.mem_cons.1 hn with rfl | hn
    · exact he
    · obtain ⟨_, hl, hr, _⟩ := he
      rcases List.mem_append.1 hn with hn | hn
      · exact hl.nodes n hn
      · exact hr.nodes n hn
  | .cond _ c t f, he, n, hn => by
    rcases List.mem_cons.1 hn with rfl | hn
    · exact he
    · obtain ⟨hc, ht, hf, _⟩ := he
      rcases List.mem_append.1 hn with hn | hn
      · rcases List.mem_append.1 hn with hn | hn
        · exact hc.nodes n hn
        · exact ht.nodes n hn
      · exact hf.nodes n hn
  | .range _ l r, he, n, hn => by
    rcases List.mem_cons.1 hn with rfl | hn
    · exact he
    · obtain ⟨hl, hr, _⟩ := he
      rcases List.mem_append.1 hn with hn | hn
      · exact hl.nodes n hn
      · exact hr.nodes n hn
  | .cast _ _ a, he, n, hn => by
    rcases List.mem_cons.1 hn with rfl | hn
    · exact he
    · have ha : a.WellTyped T := he.1
      exact ha.nodes n hn

theorem Expr.AllWellTyped.nodes : ∀ {ts : List Ty} {es : List Expr}, Expr.AllWellTyped T ts es →
    ∀ n ∈ Expr.allNodes es, n.WellTyped T
  | [], [], _, n, hn => by cases hn
  | t :: ts, e :: es, hes, n, hn => by
    rcases List.mem_append.1 hn with hn | hn
    · have he : e.WellTyped T := hes.1.1
      exact he.nodes n hn
    · exact Expr.AllWellTyped.nodes hes.2 n hn
end

mutual
theorem Stmt.WellTyped.exprs {ret : Ty} : ∀ {s : Stmt}, s.WellTyped T ret → ∀ e ∈ s.exprs, e.WellTyped T
  | .eval _, hs, e, he => by
    cases List.mem_singleton.1 he
    exact hs
  | .ret _ _, hs, e, he => (hs e (Option.mem_toList.1 he)).1
  | .ifThen c s, hs, e, he => by
    rcases List.mem_cons.1 he with rfl | he
    · exact hs.1
    · exact Stmt.WellTyped.exprs hs.2 e he
  | .ifElse c s t, hs, e, he => by
    rcases List.mem_cons.1 he with rfl | he
    · exact hs.1
    · rcases List.mem_append.1 he with he | he
      · exact Stmt.WellTyped.exprs hs.2.1 e he
      · exact Stmt.WellTyped.exprs hs.2.2 e he
  | .block items, hs, e, he => itemsWellTyped_exprs hs e he
  | .whileLoop c body _, hs, e, he => by
    rcases List.mem_cons.1 he with rfl | he
    · exact hs.1
    · exact itemsWellTyped_exprs hs.2 e he
  | .loop _ control body _, hs, e, he => by
    rcases List.mem_cons.1 he with rfl | he
    · exact hs.1
    · exact itemsWellTyped_exprs hs.2.2 e he
  | .leave .., _, e, he | .next .., _, e, he | .skip, _, e, he => by cases he

theorem itemsWellTyped_exprs {ret : Ty} : ∀ {items : List Item}, itemsWellTyped T ret items →
    ∀ e ∈ itemsExprs items, e.WellTyped T
  | [], _, e, he => by cases he
  | .stmt s :: rest, hi, e, he => by
    rcases List.mem_append.1 he with he | he
    · exact Stmt.WellTyped.exprs hi.1 e he
    · exact itemsWellTyped_exprs hi.2 e he
  | .var d :: rest, hi, e, he => by
    rcases List.mem_append.1 he with he | he
    · exact (hi.1.2 e (Option.mem_toList.1 he)).1
    · exact itemsWellTyped_exprs hi.2 e he
end

theorem Decl.WellTyped.exprs {d : Decl} (hd : d.WellTyped T) : ∀ e ∈ d.exprs, e.WellTyped T := by
  intro e he
  cases d with
  | fn head body =>
    cases body with
    | none => cases he
    | some items => exact itemsWellTyped_exprs (hd.2.2 items rfl) e he
  | var d => exact (hd.2 e (Option.mem_toList.1 he)).1

/-- Every expression of a well-typed program is well typed. -/
theorem Program.nodes_wellTyped {q : Program} (hq : ∀ d ∈ q.decls, d.WellTyped T) : ∀ n ∈ q.nodes, n.WellTyped T := by
  intro n hn
  obtain ⟨e, he, hn⟩ := List.mem_flatMap.1 hn
  obtain ⟨d, hd, he⟩ := List.mem_flatMap.1 he
  exact ((hq d hd).exprs e he).nodes n hn

end Parts

/-! ## Analysis -/

/-- An analysis that accepts a plain program gives every expression a type, and the types fit by rules without
conversions. Besides types it has added nothing but casts to the program whose names and loops were labelled. -/
theorem Program.analyze_sound {p q : Program} {T : SymbolTable} (hp : p.IsPlain) (h : p.analyze = .ok (q, T)) :
    ∃ p₁ r, p.resolve = .ok p₁ ∧ p₁.labelLoops = .ok r ∧ r.check = .ok (q, T) ∧
      (∀ e ∈ q.nodes, ∃ t, e.ty = some t) ∧ (∀ d ∈ q.decls, d.WellTyped T) ∧
      (∀ note x, .var note x ∈ q.nodes → ∃ s, T.get? x = some s ∧ note.ty = some s.ty) ∧
      q.change .erase = r.change .unannotate := by
  obtain ⟨p₁, r, h₁, h₂, h₃⟩ := Program.analyze_passes h
  have hanalyzed := (Program.analyze_yields hp).of_ok h
  have hnodes := Program.nodes_wellTyped hanalyzed.wellTyped
  refine ⟨p₁, r, h₁, h₂, h₃, ?_, hanalyzed.wellTyped, ?_, ?_⟩
  · intro e he
    obtain ⟨t, ht, _⟩ := (hnodes e he).exists_ty hanalyzed.sound
    exact ⟨t, ht⟩
  · intro note x hx
    obtain ⟨s, hs, _, ht⟩ := hnodes _ hx
    exact ⟨s, hs, ht⟩
  · -- Resolution and labelling leave a program that can be checked, and so one without casts.
    obtain ⟨_, hcheck₁, _⟩ := p.resolve_yields.of_ok h₁
    obtain ⟨_, _, _, _, hcheck₂⟩ := p₁.labelLoops_yields.of_ok h₂
    obtain ⟨⟨ds, T'⟩, hrun, hr⟩ := Except.exists_of_bind h₃
    have herase := (checkDecls_erases r.decls (hcheck₂ _ (hcheck₁ hp)) .empty).of_ok hrun
    cases hr
    exact congrArg Program.mk herase

/-- A function that starts a narrow variable with a wide constant, and returns a wide sum with a narrow operand. -/
def mixesWidths : Program :=
  ⟨[.fn ⟨⟨"f", .nowhere⟩, [⟨⟨"a", .nowhere⟩, .int⟩], .long, true, false⟩
    (some [.var ⟨⟨"b", .nowhere⟩, .int, some (.long {} 7), none⟩,
      .stmt (.ret (some (.binary {} (.strict (.arith .add)) (.var {} "b") (.long {} 5))) .nowhere)])]⟩

theorem mixesWidths_sound : mixesWidths.IsPlain ∧ ∃ q T, mixesWidths.analyze = .ok (q, T) ∧ q.hasCast = true ∧
    ∃ r : Program, r.check = .ok (q, T) ∧ r.hasCast = false ∧ q.change .erase = r.change .unannotate := by
  refine ⟨by decide, _, _, rfl, rfl, ?_⟩
  obtain ⟨p₁, r, h₁, h₂, h₃, _, _, _, herase⟩ := Program.analyze_sound (p := mixesWidths) (by decide) rfl
  cases h₁
  cases h₂
  exact ⟨_, h₃, rfl, herase⟩

end Khel
