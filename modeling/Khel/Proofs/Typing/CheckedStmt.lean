import Khel.Proofs.Typing.Checked

/-!
# Checked statements and programs

Checking a statement enters the variables that the statement declares and nothing that was there before. What it has
checked stays well typed in every later table, and so in the table of the whole program.

* `Stmt.check_ensures`: a checked statement is well typed in the table behind it.
* `checkDecls_ensures`: so are all functions of a program in its table.
-/

namespace Khel

variable {known : String → Prop} {T : SymbolTable}

/-! ## Steps -/

/-- A step that can only reject, inside one that can fail in other ways. -/
theorem Ensures.reject_bind {σ α β : Type} {s : σ} {x : Except Rejection α}
    {f : α → StateT σ (Except CompileError) β} {R : α → Prop} {P : β → σ → Prop} (hx : Yields x (fun _ => True) R)
    (hf : ∀ a, R a → Ensures (f a) s Rejects P) :
    Ensures ((liftM x : StateT σ (Except CompileError) α) >>= f) s Rejects P := by
  cases x with
  | ok a => exact hf a hx
  | error e => exact rfl

/-- The same at the end of a step. -/
theorem Ensures.reject {σ α : Type} {s : σ} {x : Except Rejection α} {R : α → Prop}
    (hx : Yields x (fun _ => True) R) :
    Ensures (liftM x : StateT σ (Except CompileError) α) s Rejects fun a s' => s' = s ∧ R a := by
  cases x with
  | ok a => exact ⟨rfl, hx⟩
  | error e => exact rfl

namespace Checking

theorem enter_bind {β : Type} {x : String} {s : Symbol} {f : Unit → Checking β} {P : β → SymbolTable → Prop}
    (h : Ensures (f ()) (Table.set T x s) Rejects P) : Ensures (enter x s >>= f) T Rejects P := h

/-- A checked expression has a type to count in, if a loop goes over it. -/
theorem counter_bind {β : Type} {E : CompileError → Prop} {P : β → SymbolTable → Prop} {control : Expr} {t : Ty}
    {f : Ty → Checking β} (hty : control.ty = some t)
    (h : Ensures (f (if control.isRange then t else .int32)) T E P) :
    Ensures (liftM control.counterTy >>= f) T E P := by
  rw [Expr.counterTy_of_ty hty]
  exact h

theorem expr_ensures (hT : T.IsSound) (hk : T.Covers known) {e : Expr} (he : e.Checkable known) :
    Ensures (expr e) T Rejects fun e' T' => T' = T ∧ ∃ t, e'.HasTy T t := by
  unfold expr
  exact .get_bind (.lift (Expr.check_yields hT hk e he))

theorem exprAs_ensures (hT : T.IsSound) (hk : T.Covers known) (target : Ty) {e : Expr} (he : e.Checkable known) :
    Ensures (exprAs target e) T Rejects fun e' T' => T' = T ∧ e'.HasTy T target := by
  unfold exprAs
  refine .bind (expr_ensures hT hk he) ?_
  rintro e' _ ⟨rfl, t, he'⟩
  exact .reject (Expr.convert_yields target he')

/-- The initial value of a static variable is a constant, so that it needs no names. -/
theorem staticInit_ensures (hT : T.IsSound) (name : String) (ty : Ty) {e : Expr} (he : e.Checkable known) :
    Ensures (staticInit name ty e) T Rejects fun r T' => T' = T ∧ r.1.HasTy T ty := by
  unfold staticInit
  split
  · exact .throw rfl
  · next v hv =>
    have hnone := e.checkable_of_constant (fun _ => False) he hv
    refine .bind (exprAs_ensures hT (fun _ h => h.elim) ty hnone) ?_
    rintro e' _ ⟨rfl, he'⟩
    exact .pure ⟨rfl, he'⟩

end Checking

theorem TypeName.isFunction_ty (t : TypeName) : t.ty.isFunction = false := by cases t <;> rfl

/-! ## Variables of a block -/

namespace VarDecl

/-- What checking a variable of a block leaves: the names it entered, and a well-typed declaration of the same name. -/
def Checks (T : SymbolTable) (d d' : VarDecl) (T' : SymbolTable) : Prop :=
  T.Enters T' d.ownNames ∧ d'.WellTyped T' ∧ d'.ident = d.ident

theorem checkExternal_ensures (hT : T.IsSound) {d : VarDecl} (hx : d.isExternal = true) (hd : Dotless d.ident.name) :
    Ensures d.checkExternal T Rejects (d.Checks T) := by
  have hown : d.ownNames = [] := by simp [ownNames, hx]
  unfold checkExternal
  split
  · exact .throw rfl
  · next hi =>
    have hinit : d.init = none := by simpa using hi
    refine .get_bind ?_
    split
    · next prior hp =>
      split
      · exact .throw rfl
      · next hagree =>
        simp only [ne_eq, Bool.or_eq_true, decide_eq_true_eq, not_or, Bool.not_eq_true, not_not] at hagree
        refine .pure ⟨hown ▸ .refl hT, ⟨⟨prior, hp, hagree.1, hagree.2⟩, by simp [hinit]⟩, rfl⟩
    · next hp =>
      refine Checking.enter_bind (.pure ⟨?_, ⟨T.hasVar_set d.ident.name rfl, by simp [hinit]⟩, rfl⟩)
      rw [hown]
      refine SymbolTable.enter_linked hT hd (Symbol.isSound_of_value rfl d.type.isFunction_ty) fun s' hs' => ?_
      rw [hp] at hs'
      cases hs'

theorem checkStatic_ensures {d : VarDecl} (hx : d.isExternal = false) (hr : T.Ready d.ownNames)
    (hd : ∀ e ∈ d.init, e.Checkable known) : Ensures d.checkStatic T Rejects (d.Checks T) := by
  have hown : d.ownNames = [d.ident.name] := by simp [ownNames, hx]
  rw [hown] at hr
  unfold checkStatic
  split
  · next hi =>
    refine Checking.enter_bind (.pure ⟨?_, ⟨T.hasVar_set d.ident.name rfl, by simp [hi]⟩, rfl⟩)
    exact hown ▸ hr.enter rfl d.type.isFunction_ty
  · next e hi =>
    refine .bind (Checking.staticInit_ensures hr.sound d.ident.name d.type.ty (hd e hi)) ?_
    rintro ⟨e', v⟩ T' ⟨rfl, he'⟩
    have henter := hr.enter (s := ⟨d.type.ty, .static (.value v) false⟩) rfl d.type.isFunction_ty
    refine Checking.enter_bind (.pure ⟨hown ▸ henter, ⟨T'.hasVar_set d.ident.name rfl, ?_⟩, rfl⟩)
    simpa using he'.mono henter.keeps

theorem checkAutomatic_ensures (hk : T.Covers known) {d : VarDecl} (hx : d.isExternal = false)
    (hr : T.Ready d.ownNames) (hd : ∀ e ∈ d.init, e.Checkable (withNames known [d.ident.name])) :
    Ensures d.checkAutomatic T Rejects (d.Checks T) := by
  have hown : d.ownNames = [d.ident.name] := by simp [ownNames, hx]
  rw [hown] at hr
  have henter := hr.enter (s := ⟨d.type.ty, .automatic⟩) rfl d.type.isFunction_ty
  unfold checkAutomatic
  refine Checking.enter_bind ?_
  have hvar : SymbolTable.HasVar (Table.set T d.ident.name ⟨d.type.ty, .automatic⟩) d.ident.name d.type.ty :=
    T.hasVar_set d.ident.name rfl
  split
  · next hi => exact .pure ⟨hown ▸ henter, ⟨hvar, by simp [hi]⟩, rfl⟩
  · next e hi =>
    have hk' := (hk.mono henter.keeps).with [d.ident.name] (by simp)
    refine .bind (Checking.exprAs_ensures henter.sound hk' d.type.ty (hd e hi)) ?_
    rintro e' _ ⟨rfl, he'⟩
    exact .pure ⟨hown ▸ henter, ⟨hvar, by simpa using he'⟩, rfl⟩

/-- Checking a variable of a block enters it, or finds that it is there. -/
theorem checkLocal_ensures (hk : T.Covers known) {d : VarDecl} (hr : T.Ready d.ownNames) (hd : d.Checkable known) :
    Ensures d.checkLocal T Rejects (d.Checks T) := by
  unfold checkLocal
  unfold Checkable at hd
  split
  · next hs =>
    have hx : d.isExternal = true := by simp [isExternal, hs]
    rw [if_pos hx] at hd
    exact checkExternal_ensures hr.sound hx hd
  · next hs =>
    have hx : d.isExternal = false := by simp [isExternal, hs]
    rw [if_neg (by simp [hx])] at hd
    exact checkStatic_ensures hx hr hd
  · next hs =>
    have hx : d.isExternal = false := by simp [isExternal, hs]
    rw [if_neg (by simp [hx])] at hd
    exact checkAutomatic_ensures hk hx hr hd

end VarDecl

/-! ## Statements -/

/-- A range is of an integer type. -/
theorem Expr.HasTy.isInteger_of_isRange {e : Expr} {t : Ty} (h : e.HasTy T t) (hr : e.isRange = true) :
    t.isInteger = true := by
  cases e <;> simp only [Expr.isRange, Bool.false_eq_true] at hr
  obtain ⟨⟨_, _, t', hi, _, _, ht⟩, hty⟩ := h
  have : some t' = some t := ht.symm.trans hty
  cases this
  exact hi

/-- The type of a loop's variable is no function type. -/
theorem Expr.HasTy.loopTy {e : Expr} {t : Ty} (h : e.HasTy T t) :
    (if e.isRange then t else Ty.int32).isFunction = false := by
  split
  · next hr => exact Ty.isFunction_of_isInteger (h.isInteger_of_isRange hr)
  · rfl

mutual
/-- A checked statement is well typed in the table behind it, where its variables have been entered. -/
theorem Stmt.check_ensures (ret : Ty) : ∀ {known : String → Prop} {T : SymbolTable} (s : Stmt), T.Covers known →
    T.Ready s.ownNames → s.Checkable known →
    Ensures (s.check ret) T Rejects fun s' T' => T.Enters T' s.ownNames ∧ s'.WellTyped T' ret
  | _, T, .eval e, hk, hr, hs => by
    rw [Stmt.check]
    refine .bind (Checking.expr_ensures hr.sound hk hs) ?_
    rintro e' _ ⟨rfl, t, he⟩
    exact .pure ⟨.refl hr.sound, he.1⟩
  | _, T, .ret none span, hk, hr, hs => by
    rw [Stmt.check]
    exact .pure ⟨.refl hr.sound, by simp [Stmt.WellTyped]⟩
  | _, T, .ret (some e) span, hk, hr, hs => by
    rw [Stmt.check]
    refine .bind (Checking.exprAs_ensures hr.sound hk ret (hs e rfl)) ?_
    rintro e' _ ⟨rfl, he⟩
    exact .pure ⟨.refl hr.sound, by simpa [Stmt.WellTyped] using he⟩
  | _, T, .ifThen c s, hk, hr, hs => by
    rw [Stmt.check]
    refine .bind (Checking.expr_ensures hr.sound hk hs.1) ?_
    rintro c' _ ⟨rfl, t, hc⟩
    refine .bind (s.check_ensures ret hk hr hs.2) ?_
    rintro s' T' ⟨he, hs'⟩
    exact .pure ⟨he, c'.wellTyped_mono he.keeps hc.1, hs'⟩
  | _, T, .ifElse c s t, hk, hr, hs => by
    rw [Stmt.check]
    refine .bind (Checking.expr_ensures hr.sound hk hs.1) ?_
    rintro c' _ ⟨rfl, tc, hc⟩
    refine .bind (s.check_ensures ret hk hr.left hs.2.1) ?_
    rintro s' T' ⟨he, hs'⟩
    refine .bind (t.check_ensures ret (hk.mono he.keeps) (hr.right he) hs.2.2) ?_
    rintro t' T'' ⟨he', ht'⟩
    exact .pure ⟨he.trans he', c'.wellTyped_mono (he.keeps.trans he'.keeps) hc.1,
      s'.wellTyped_mono he'.keeps hs', ht'⟩
  | _, T, .block items, hk, hr, hs => by
    rw [Stmt.check]
    refine .bind (checkItems_ensures ret items hk hr hs) ?_
    rintro items' T' ⟨he, hi⟩
    exact .pure ⟨he, hi⟩
  | _, T, .whileLoop c body id, hk, hr, hs => by
    rw [Stmt.check]
    refine .bind (Checking.expr_ensures hr.sound hk hs.1) ?_
    rintro c' _ ⟨rfl, t, hc⟩
    refine .bind (checkItems_ensures ret body hk hr hs.2) ?_
    rintro body' T' ⟨he, hb⟩
    exact .pure ⟨he, c'.wellTyped_mono he.keeps hc.1, hb⟩
  | _, T, .loop none control body id, hk, hr, hs => by
    rw [Stmt.check]
    refine .bind (Checking.expr_ensures hr.sound hk hs.1) ?_
    rintro control' _ ⟨rfl, t, hc⟩
    refine .bind (checkItems_ensures ret body (hk.with [] (by simp)) hr hs.2) ?_
    rintro body' T' ⟨he, hb⟩
    exact .pure ⟨he, control'.wellTyped_mono he.keeps hc.1, by simp, hb⟩
  | _, T, .loop (some ident) control body id, hk, hr, hs => by
    rw [Stmt.check]
    refine .bind (Checking.expr_ensures hr.sound hk hs.1) ?_
    rintro control' T ⟨rfl, t, hc⟩
    refine Checking.counter_bind hc.2 ?_
    have hr : T.Ready ([ident.name] ++ itemsOwnNames body) := hr
    have henter := hr.left.enter (s := ⟨if control'.isRange then t else .int32, .automatic⟩) rfl hc.loopTy
    refine Checking.enter_bind (.bind (checkItems_ensures ret body ?_ (hr.right henter) hs.2) ?_)
    · exact (hk.mono henter.keeps).with _ (by simp)
    · rintro body' T' ⟨he, hb⟩
      refine .pure ⟨henter.trans he, control'.wellTyped_mono (henter.keeps.trans he.keeps) hc.1, ?_, hb⟩
      simp only [Option.mem_some_iff, forall_eq']
      exact ⟨_, (T.hasVar_set ident.name rfl).mono he.keeps, fun h => by simpa [h] using hc.2⟩
  | _, T, .leave .., hk, hr, hs | _, T, .next .., hk, hr, hs | _, T, .skip, hk, hr, hs => by
    rw [Stmt.check]
    exact .pure ⟨.refl hr.sound, trivial⟩

theorem checkItems_ensures (ret : Ty) : ∀ {known : String → Prop} {T : SymbolTable} (items : List Item),
    T.Covers known → T.Ready (itemsOwnNames items) → itemsCheckable known items →
    Ensures (checkItems ret items) T Rejects fun items' T' =>
      T.Enters T' (itemsOwnNames items) ∧ itemsWellTyped T' ret items'
  | _, T, [], hk, hr, hs => by
    rw [checkItems]
    exact .pure ⟨.refl hr.sound, trivial⟩
  | _, T, .stmt s :: rest, hk, hr, hs => by
    rw [checkItems]
    refine .bind (s.check_ensures ret hk hr.left hs.1) ?_
    rintro s' T' ⟨he, hs'⟩
    refine .bind (checkItems_ensures ret rest (hk.mono he.keeps) (hr.right he) hs.2) ?_
    rintro rest' T'' ⟨he', hrest⟩
    exact .pure ⟨he.trans he', s'.wellTyped_mono he'.keeps hs', hrest⟩
  | known, T, .var d :: rest, hk, hr, hs => by
    rw [checkItems]
    refine .bind (d.checkLocal_ensures hk hr.left hs.1) ?_
    rintro d' T' ⟨he, hd, hident⟩
    have hk' : T'.Covers (withNames known [d.ident.name]) := by
      refine (hk.mono he.keeps).with _ fun x hx => ?_
      obtain ⟨s, hs, _⟩ := hd.1
      rw [List.mem_singleton.1 hx, ← hident]
      exact ⟨s, hs⟩
    refine .bind (checkItems_ensures ret rest hk' (hr.right he) hs.2) ?_
    rintro rest' T'' ⟨he', hrest⟩
    exact .pure ⟨he.trans he', hd.mono he'.keeps, hrest⟩
end

/-! ## Programs -/

/-- The name is a function of this type. -/
def SymbolTable.HasFunction (T : SymbolTable) (f : String) (t : Ty) : Prop :=
  ∃ s, T.get? f = some s ∧ s.isFunction = true ∧ s.ty = t

theorem SymbolTable.HasFunction.mono {T T' : SymbolTable} (h : T.Extends T') {f : String} {t : Ty}
    (hf : T.HasFunction f t) : T'.HasFunction f t := by
  obtain ⟨s, hs, hfn, rfl⟩ := hf
  obtain ⟨s', hs', ha⟩ := h f s hs
  exact ⟨s', hs', ha.isFunction.trans hfn, ha.ty⟩

/-- The parameters of a function are variables. -/
def paramsWellTyped (T : SymbolTable) (params : List Param) : Prop :=
  ∀ p ∈ params, T.HasVar p.ident.name p.type.ty

/-- A declaration of the top level is well typed. -/
def Decl.WellTyped (T : SymbolTable) : Decl → Prop
  | .fn head body => T.HasFunction head.ident.name head.ty ∧ paramsWellTyped T head.params ∧
    ∀ items ∈ body, itemsWellTyped T head.ret.ty items
  | .var d => d.WellTyped T

theorem Decl.wellTyped_mono {T T' : SymbolTable} (h : T.Extends T') : ∀ {d : Decl}, d.WellTyped T → d.WellTyped T'
  | .fn .., ⟨hf, hp, hb⟩ =>
    ⟨hf.mono h, fun p hm => (hp p hm).mono h, fun items hi => itemsWellTyped_mono h items (hb items hi)⟩
  | .var _, hd => hd.mono h

/-- The declarations of a function agree with each other. -/
theorem FnHead.symbol_yields (head : FnHead) (hasBody : Bool) (prior : Option Symbol) :
    Yields (head.symbol hasBody prior) (fun _ => True) fun s =>
      s.ty = head.ty ∧ s.isFunction = true ∧ ∀ s', prior = some s' → s'.Agrees s := by
  unfold FnHead.symbol
  dsimp only
  split
  · exact ⟨rfl, rfl, by simp⟩
  · split
    · exact trivial
    · split
      · exact trivial
      · split
        · exact trivial
        · next hty =>
          refine ⟨rfl, rfl, fun s' hs' => ?_⟩
          cases hs'
          exact ⟨by simpa using (not_not.1 hty).symm, rfl, rfl⟩
  · exact trivial

/-- The declarations of a variable agree with each other. -/
theorem VarDecl.symbol_yields (d : VarDecl) (init : StaticInit) (prior : Option Symbol) :
    Yields (d.symbol init prior) (fun _ => True) fun s =>
      s.ty = d.type.ty ∧ s.isFunction = false ∧ ∀ s', prior = some s' → s'.Agrees s := by
  unfold VarDecl.symbol
  dsimp only
  split
  · exact ⟨rfl, rfl, by simp⟩
  · split
    · exact trivial
    · next hty =>
      split
      · refine ⟨rfl, rfl, fun s' hs' => ?_⟩
        cases hs'
        exact ⟨by simpa using (not_not.1 hty).symm, rfl, rfl⟩
      · exact trivial
  · exact trivial

theorem Param.enterAll_ensures : ∀ {T : SymbolTable} (params : List Param), T.Ready (paramNames params) →
    Ensures (Param.enterAll params) T Rejects fun _ T' => T.Enters T' (paramNames params) ∧ paramsWellTyped T' params
  | T, [], hr => .pure ⟨.refl hr.sound, by simp [paramsWellTyped]⟩
  | T, p :: ps, hr => by
    have hr : T.Ready ([p.ident.name] ++ paramNames ps) := hr
    have henter := hr.left.enter (s := ⟨p.type.ty, .automatic⟩) rfl p.type.isFunction_ty
    refine Checking.enter_bind ((Param.enterAll_ensures ps (hr.right henter)).mono ?_)
    rintro _ T' ⟨he, hp⟩
    refine ⟨henter.trans he, List.forall_mem_cons.2 ⟨?_, hp⟩⟩
    exact (T.hasVar_set p.ident.name rfl).mono he.keeps

theorem FnHead.isSound_of_ty (head : FnHead) {s : Symbol} (hf : s.isFunction = true) (ht : s.ty = head.ty) :
    s.IsSound := by
  refine ⟨by rw [hf, ht]; rfl, fun params ret h => ?_⟩
  rw [ht] at h
  cases h
  exact head.ret.isFunction_ty

/-- A checked declaration is well typed in the table behind it. -/
theorem Decl.check_ensures (hk : T.Covers known) : ∀ d : Decl, T.Ready d.ownNames → d.Checkable known →
    Ensures d.check T Rejects fun d' T' => T.Enters T' d.ownNames ∧ d'.WellTyped T' ∧ d'.name = d.name
  | .fn head body, hr, hd => by
    unfold Decl.check
    refine .get_bind (.reject_bind (head.symbol_yields body.isSome (Table.get? T head.ident.name)) ?_)
    rintro s ⟨hty, hfn, hagree⟩
    have hs : s.IsSound := head.isSound_of_ty hfn hty
    have henter := SymbolTable.enter_linked hr.sound hd.1 hs hagree
    have hfun : SymbolTable.HasFunction (Table.set T head.ident.name s) head.ident.name head.ty :=
      ⟨s, by simp, hfn, hty⟩
    have hr₀ : SymbolTable.Ready (Table.set T head.ident.name s) (Decl.ownNames (.fn head body)) :=
      SymbolTable.Ready.right (List.nil_append _ ▸ hr) henter
    refine Checking.enter_bind (.bind (Param.enterAll_ensures head.params hr₀.left) ?_)
    rintro _ T₁ ⟨he₁, hp⟩
    have hr₁ := hr₀.right he₁
    cases body with
    | none =>
      refine .pure ⟨?_, ⟨hfun.mono he₁.keeps, hp, by simp⟩, rfl⟩
      simpa [Decl.ownNames] using henter.trans he₁
    | some items =>
      have hk₁ : T₁.Covers (withNames known (head.ident.name :: paramNames head.params)) := by
        refine (hk.mono (henter.keeps.trans he₁.keeps)).with _ fun x hx => ?_
        rcases List.mem_cons.1 hx with rfl | hx
        · obtain ⟨s', hs', _⟩ := hfun.mono he₁.keeps
          exact ⟨s', hs'⟩
        · obtain ⟨p, hm, rfl⟩ := List.mem_map.1 hx
          obtain ⟨s', hs', _⟩ := hp p hm
          exact ⟨s', hs'⟩
      refine .bind (checkItems_ensures head.ret.ty items hk₁ hr₁ (hd.2 items rfl)) ?_
      rintro items' T₂ ⟨he₂, hi⟩
      refine .pure ⟨(henter.trans he₁).trans he₂, ⟨hfun.mono (he₁.keeps.trans he₂.keeps), ?_, ?_⟩, rfl⟩
      · exact fun p hm => (hp p hm).mono he₂.keeps
      · simpa using hi
  | .var d, hr, hd => by
    rw [Decl.check]
    split
    · next hi =>
      refine .get_bind (.reject_bind (d.symbol_yields _ (Table.get? T d.ident.name)) ?_)
      rintro s ⟨hty, hfn, hagree⟩
      have hs := Symbol.isSound_of_value hfn (hty ▸ d.type.isFunction_ty)
      refine Checking.enter_bind (.pure ⟨SymbolTable.enter_linked hr.sound hd.1 hs hagree, ⟨?_, by simp [hi]⟩, rfl⟩)
      exact ⟨s, by simp, hfn, hty⟩
    · next e hi =>
      refine .bind (Checking.staticInit_ensures hr.sound d.ident.name d.type.ty (hd.2 e hi)) ?_
      rintro ⟨e', v⟩ T ⟨rfl, he⟩
      refine .get_bind (.reject_bind (d.symbol_yields (.value v) (Table.get? T d.ident.name)) ?_)
      rintro s ⟨hty, hfn, hagree⟩
      have hs := Symbol.isSound_of_value hfn (hty ▸ d.type.isFunction_ty)
      have henter := SymbolTable.enter_linked hr.sound hd.1 hs hagree
      refine Checking.enter_bind (.pure ⟨henter, ⟨⟨s, by simp, hfn, hty⟩, ?_⟩, rfl⟩)
      simpa using he.mono henter.keeps

theorem Decl.WellTyped.has_name {d : Decl} (hd : d.WellTyped T) : ∃ s, T.get? d.name = some s := by
  cases d with
  | fn head body =>
    obtain ⟨s, hs, _⟩ := hd.1
    exact ⟨s, hs⟩
  | var d =>
    obtain ⟨s, hs, _⟩ := hd.1
    exact ⟨s, hs⟩

/-- All declarations of a program are well typed in its table. -/
theorem checkDecls_ensures : ∀ {known : String → Prop} {T : SymbolTable} (ds : List Decl), T.Covers known →
    T.Ready (ds.flatMap Decl.ownNames) → declsCheckable known ds →
    Ensures (checkDecls ds) T Rejects fun ds' T' =>
      T.Enters T' (ds.flatMap Decl.ownNames) ∧ ∀ d ∈ ds', d.WellTyped T'
  | _, T, [], hk, hr, hd => by
    rw [checkDecls]
    exact .pure ⟨.refl hr.sound, by simp⟩
  | known, T, d :: ds, hk, hr, hd => by
    rw [checkDecls]
    refine .bind (d.check_ensures hk hr.left hd.1) ?_
    rintro d' T' ⟨he, hd', hname⟩
    have hk' : T'.Covers (withNames known [d.name]) := by
      refine (hk.mono he.keeps).with _ fun x hx => ?_
      rw [List.mem_singleton.1 hx, ← hname]
      exact hd'.has_name
    refine .bind (checkDecls_ensures ds hk' (hr.right he) hd.2) ?_
    rintro ds' T'' ⟨he', hds⟩
    exact .pure ⟨he.trans he', List.forall_mem_cons.2 ⟨Decl.wellTyped_mono he'.keeps hd', hds⟩⟩

end Khel
