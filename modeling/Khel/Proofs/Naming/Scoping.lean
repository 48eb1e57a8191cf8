import Khel.Proofs.Naming.Lexical
import Khel.Proofs.Naming.Resolved

/-!
# Resolution follows lexical scoping

Resolution has no stack of scopes. It keeps one table of visible names, copies it where a scope is opened, and marks the
entries that were made in the scope itself. The table always shows what the stack of open scopes says, so resolution
comes to the verdict of lexical scoping.

* `Scope.Shows`: the table shows what the scopes say.
* `Fresh.Settles`: what a step of resolution comes to.
* `Program.resolve_lexical`: resolution accepts the programs that break no rule, renames them, and changes nothing else;
  it rejects the others for the first rule they break.
-/

namespace Khel

/-! ## Tables that show scopes -/

/-- The entry of a name in a table that shows the scopes. -/
def Scopes.binding? (x : String) (scopes : Scopes) : Option Binding :=
  (scopes.meaning? x).map fun d => ⟨d.uniqueName, (inScope? x (scopes.headD [])).isSome, d.isLinked⟩

/-- The table shows what the scopes say of every name. -/
def Scope.Shows (scope : Scope) (scopes : Scopes) : Prop := ∀ x, scope.get? x = scopes.binding? x

namespace Scopes

theorem inScope?_cons (x : String) (d : Declared) (scope : List Declared) :
    inScope? x (d :: scope) = if d.name = x then some d else inScope? x scope := by
  by_cases h : d.name = x <;> simp [inScope?, h]

/-- What the innermost scope says of a name is what the name means. -/
theorem meaning?_of_inScope? {x : String} {d : Declared} : ∀ {scopes : Scopes}, inScope? x (scopes.headD []) = some d →
    scopes.meaning? x = some d
  | [], h => by cases h
  | scope :: outer, h => by
    rw [meaning?, show inScope? x scope = some d from h]
    rfl

/-- A declaration replaces what its name meant, and no other entry. -/
theorem binding?_declare (d : Declared) (x : String) : ∀ scopes : Scopes, binding? x (scopes.declare d) =
    if d.name = x then some ⟨d.uniqueName, true, d.isLinked⟩ else binding? x scopes
  | [] => by
    by_cases h : d.name = x <;> simp [binding?, declare, meaning?, inScope?_cons, h]
    simp [inScope?]
  | scope :: outer => by
    by_cases h : d.name = x <;> simp [binding?, declare, meaning?, inScope?_cons, h]

end Scopes

namespace Scope.Shows

variable {scope : Scope} {scopes : Scopes}

theorem empty : Scope.Shows .empty [[]] := fun _ => rfl

theorem enter (h : scope.Shows scopes) : scope.enter.Shows ([] :: scopes) := by
  intro x
  rw [Scope.enter, Table.get?_map, h x, Scopes.binding?, Option.map_map]
  rfl

theorem declare (h : scope.Shows scopes) (d : Declared) :
    Scope.Shows (scope.set d.name ⟨d.uniqueName, true, d.isLinked⟩) (scopes.declare d) := by
  intro x
  rw [Table.get?_set, Scopes.binding?_declare, h x]

/-- The table knows a name exactly if the name means something. -/
theorem isSome (h : scope.Shows scopes) (x : String) : (scopes.meaning? x).isSome = (scope.get? x).isSome := by
  rw [h x, Scopes.binding?, Option.isSome_map]

theorem rename (h : scope.Shows scopes) {x : String} {b : Binding} (hb : scope.get? x = some b) :
    scopes.rename x = b.uniqueName := by
  rw [h x] at hb
  obtain ⟨d, hd, rfl⟩ := Option.map_eq_some_iff.1 hb
  rw [Scopes.rename, hd]
  rfl

/-- The marks of the table tell which declarations clash. -/
theorem any_isHere (h : scope.Shows scopes) (x : String) (p : Bool → Bool) :
    ((scope.get? x).any fun b => b.isHere && p b.isLinked) =
      (Scopes.inScope? x (scopes.headD [])).any fun d => p d.isLinked := by
  rw [h x, Scopes.binding?, Option.any_map]
  cases hx : Scopes.inScope? x (scopes.headD []) with
  | some d => simp [Scopes.meaning?_of_inScope? hx]
  | none => simp

theorem clashes_own (h : scope.Shows scopes) (x : String) (n : Nat) :
    scopes.clashes (.own x n) = scope.declares x := by
  have hhere := h.any_isHere x fun _ => true
  simp only [Bool.and_true] at hhere
  simp only [Scope.declares, hhere, Scopes.clashes, Declared.name, Declared.isLinked, Bool.and_false, Bool.not_false]

theorem clashes_linked (h : scope.Shows scopes) (x : String) :
    scopes.clashes (.linked x) = scope.declaresOwn x := by
  have hhere := h.any_isHere x (!·)
  simp only [Scope.declaresOwn, hhere, Scopes.clashes, Declared.name, Declared.isLinked, Bool.and_true]

end Scope.Shows

/-! ## Verdicts -/

section Verdicts

variable {α β : Type}

/-- What follows a step is read if the step breaks no rule. -/
theorem verdict_bind {broken more : List Rejection} {a : α} {b : β} {f : α → Except Rejection β}
    (h : f a = verdict more b) : (verdict broken a >>= f) = verdict (broken ++ more) b := by
  cases broken with
  | nil => exact h
  | cons r rest => rfl

theorem verdict_map (broken : List Rejection) (a : α) (f : α → β) :
    (verdict broken a >>= fun a => pure (f a)) = verdict broken (f a) := by
  cases broken <;> rfl

/-- Run with the numbers from `n` on, the step comes to a verdict. -/
def Fresh.Settles (m : Fresh α) (n : Nat) (broken : List Rejection) (a : α) (n' : Nat) : Prop :=
  m.run n = verdict broken (a, n')

namespace Fresh.Settles

variable {m : Fresh α} {n n' n'' : Nat} {broken more : List Rejection} {a : α} {b : β}

theorem pure (a : α) (n : Nat) : Settles (Pure.pure a) n [] a n := rfl

theorem bind {f : α → Fresh β} (hm : m.Settles n broken a n') (hf : (f a).Settles n' more b n'') :
    Settles (m >>= f) n (broken ++ more) b n'' := by
  rw [Settles, StateT.run_bind, show m.run n = _ from hm]
  exact verdict_bind hf

/-- The last step of a sequence breaks no rule. -/
theorem map (f : α → β) (hm : m.Settles n broken a n') :
    Settles (m >>= fun a => Pure.pure (f a)) n broken (f a) n' := by
  rw [Settles, StateT.run_bind, show m.run n = _ from hm]
  exact verdict_map broken (a, n') fun r => (f r.1, r.2)

theorem lift {x : Except Rejection α} (h : x = verdict broken a) (n : Nat) :
    Settles (liftM x : Fresh α) n broken a n := by
  subst h
  cases broken <;> rfl

theorem reject (complaint : Complaint) (span : Span) (more : List Rejection) (a : α) (n n' : Nat) :
    Settles (Fresh.reject complaint span) n (⟨complaint, span⟩ :: more) a n' := rfl

/-- A rule is checked before a step. -/
theorem check {c : Bool} (complaint : Complaint) (span : Span) (h : c = false → m.Settles n more a n') :
    Settles (if c then Fresh.reject complaint span else m) n ((if c then [⟨complaint, span⟩] else []) ++ more) a
      n' := by
  cases c with
  | true => exact reject complaint span more a n n'
  | false => exact h rfl

theorem name (stem : String) (n : Nat) : Settles (Fresh.name stem) n [] (numbered stem n) (n + 1) := rfl

end Fresh.Settles

end Verdicts

/-! ## Expressions -/

section Expressions

variable {scope : Scope} {scopes : Scopes}

mutual
theorem Expr.resolve_eq (h : scope.Shows scopes) : ∀ e : Expr,
    e.resolve scope = verdict (e.broken scopes) (e.renamed scopes)
  | .int .. | .long .. | .str .. => by
    rw [Expr.resolve]
    rfl
  | .var note x => by
    rw [Expr.resolve, Expr.broken, Expr.renamed, h.isSome x]
    cases hx : scope.get? x with
    | some b => rw [h.rename hx]; rfl
    | none => rfl
  | .call note f args => by
    rw [Expr.resolve, Expr.broken, Expr.renamed, h.isSome f]
    cases hf : scope.get? f with
    | some b =>
      rw [h.rename hf, Expr.resolveAll_eq h args]
      exact verdict_map _ _ _
    | none => rfl
  | .unary note op a | .cast note op a => by
    rw [Expr.resolve, Expr.broken, Expr.renamed, a.resolve_eq h]
    exact verdict_map _ _ _
  | .binary note op l r => by
    rw [Expr.resolve, Expr.broken, Expr.renamed, l.resolve_eq h, r.resolve_eq h]
    exact verdict_bind (verdict_map _ _ _)
  | .assign note l r => by
    rw [Expr.resolve, Expr.broken, Expr.renamed, l.resolve_eq h, r.resolve_eq h]
    cases l.isVar with
    | true => exact verdict_bind (verdict_map _ _ _)
    | false => rfl
  | .cond note c t f => by
    rw [Expr.resolve, Expr.broken, Expr.renamed, c.resolve_eq h, t.resolve_eq h, f.resolve_eq h]
    exact verdict_bind (verdict_bind (verdict_map _ _ _))
  | .range note l r => by
    rw [Expr.resolve, Expr.broken, Expr.renamed, l.resolve_eq h, r.resolve_eq h]
    exact verdict_bind (verdict_map _ _ _)

theorem Expr.resolveAll_eq (h : scope.Shows scopes) : ∀ es : List Expr,
    Expr.resolveAll scope es = verdict (Expr.allBroken scopes es) (Expr.allRenamed scopes es)
  | [] => by
    rw [Expr.resolveAll]
    rfl
  | e :: es => by
    rw [Expr.resolveAll, Expr.allBroken, Expr.allRenamed, e.resolve_eq h, Expr.resolveAll_eq h es]
    exact verdict_bind (verdict_map _ _ _)
end

theorem Expr.resolve?_eq (h : scope.Shows scopes) (value : Option Expr) :
    Expr.resolve? scope value = verdict (Expr.broken? scopes value) (value.map (Expr.renamed scopes)) := by
  cases value with
  | none => rfl
  | some e =>
    rw [Expr.resolve?, e.resolve_eq h]
    exact verdict_map _ _ _

end Expressions

/-! ## Statements -/

open Fresh (Settles)

/-- A variable is declared in the table as it is in the scopes. -/
theorem Scope.declare_settles {scope : Scope} {scopes : Scopes} (h : scope.Shows scopes) (ident : Ident) (n : Nat) :
    ∃ scope', scope'.Shows (scopes.declare (.own ident.name n)) ∧
      Settles (scope.declare ident) n (scopes.clash (.own ident.name n) ident.span) (ident.numbered n, scope')
        (n + 1) := by
  refine ⟨_, h.declare (.own ident.name n), ?_⟩
  have hclash := h.clashes_own ident.name n
  have hname := (Settles.name ident.name n).map fun unique =>
    (({ ident with name := unique } : Ident), (scope.set ident.name ⟨unique, true, false⟩ : Scope))
  rw [Scope.declare, Scopes.clash, hclash]
  have h := Settles.check (c := scope.declares ident.name) (.duplicateVariable ident.name) ident.span fun _ => hname
  rwa [List.append_nil] at h

theorem Scope.declare?_settles {scope : Scope} {scopes : Scopes} (h : scope.Shows scopes) (var : Option Ident)
    (n : Nat) : ∃ inner, Scope.Shows inner (scopes.inLoop n var) ∧
      Settles (scope.enter.declare? var) n [] (var.map (Ident.numbered n), inner) (n + var.toList.length) := by
  cases var with
  | none => exact ⟨scope.enter, h.enter, .pure _ n⟩
  | some ident =>
    obtain ⟨inner, hinner, hdeclare⟩ := Scope.declare_settles h.enter ident n
    have hfree : Scopes.clash ([] :: scopes) (.own ident.name n) ident.span = [] := rfl
    rw [hfree] at hdeclare
    exact ⟨inner, hinner, hdeclare.map fun r : Ident × Scope => (some r.1, r.2)⟩

/-- A variable of a block, and the table behind it. -/
theorem VarDecl.resolve_settles {scope : Scope} {scopes : Scopes} (h : scope.Shows scopes) (d : VarDecl) (n : Nat) :
    ∃ scope', Scope.Shows scope' (scopes.declare (d.declared n)) ∧
      Settles (d.resolve scope) n (d.broken scopes n) (d.renamed scopes n, scope') (n + d.ownNames.length) := by
  rw [VarDecl.resolve, VarDecl.broken, VarDecl.renamed, VarDecl.ownNames]
  by_cases hx : d.isExternal = true
  · have hdeclared : d.declared n = .linked d.ident.name := if_pos hx
    refine ⟨scope.link d.ident.name, hdeclared ▸ h.declare (.linked d.ident.name), ?_⟩
    rw [if_pos hx, if_pos hx, if_pos hx, if_pos hx, hdeclared, Scopes.clash, h.clashes_linked]
    exact .check _ _ fun _ => .pure _ n
  · have hdeclared : d.declared n = .own d.ident.name n := if_neg hx
    obtain ⟨scope', hscope', hdeclare⟩ := Scope.declare_settles h d.ident n
    refine ⟨scope', hdeclared ▸ hscope', ?_⟩
    rw [if_neg hx, if_neg hx, if_neg hx, if_neg hx, hdeclared]
    exact hdeclare.bind ((Settles.lift (Expr.resolve?_eq hscope' d.init) (n + 1)).map fun init =>
      ({ d with ident := d.ident.numbered n, init }, scope'))

mutual
theorem Stmt.resolve_settles : ∀ {scope : Scope} {scopes : Scopes}, scope.Shows scopes → ∀ (s : Stmt) (n : Nat),
    Settles (s.resolve scope) n (s.broken scopes n) (s.renamed scopes n) (n + s.ownNames.length)
  | scope, scopes, h, .eval e, n => by
    rw [Stmt.resolve, Stmt.broken, Stmt.renamed]
    exact (Settles.lift (e.resolve_eq h) n).map _
  | scope, scopes, h, .ret value span, n => by
    rw [Stmt.resolve, Stmt.broken, Stmt.renamed]
    exact (Settles.lift (Expr.resolve?_eq h value) n).map _
  | scope, scopes, h, .ifThen c s, n => by
    rw [Stmt.resolve, Stmt.broken, Stmt.renamed, Stmt.ownNames]
    exact (Settles.lift (c.resolve_eq h) n).bind ((s.resolve_settles h n).map _)
  | scope, scopes, h, .ifElse c s t, n => by
    rw [Stmt.resolve, Stmt.broken, Stmt.renamed, Stmt.ownNames, List.length_append, ← Nat.add_assoc]
    exact (Settles.lift (c.resolve_eq h) n).bind ((s.resolve_settles h n).bind ((t.resolve_settles h _).map _))
  | scope, scopes, h, .block items, n => by
    rw [Stmt.resolve, Stmt.broken, Stmt.renamed, Stmt.ownNames]
    exact (resolveItems_settles h.enter items n).map _
  | scope, scopes, h, .whileLoop c body id, n => by
    rw [Stmt.resolve, Stmt.broken, Stmt.renamed, Stmt.ownNames]
    exact (Settles.lift (c.resolve_eq h) n).bind ((resolveItems_settles h.enter body n).map _)
  | scope, scopes, h, .loop var control body id, n => by
    obtain ⟨inner, hinner, hvar⟩ := Scope.declare?_settles h var n
    rw [Stmt.resolve, Stmt.broken, Stmt.renamed, Stmt.ownNames, List.length_append, List.length_map, ← Nat.add_assoc]
    exact (Settles.lift (control.resolve_eq h) n).bind (hvar.bind ((resolveItems_settles hinner body _).map _))
  | scope, scopes, h, .leave .., n | scope, scopes, h, .next .., n | scope, scopes, h, .skip, n => by
    rw [Stmt.resolve, Stmt.broken, Stmt.renamed, Stmt.ownNames]
    exact .pure _ n

theorem resolveItems_settles : ∀ {scope : Scope} {scopes : Scopes}, scope.Shows scopes →
    ∀ (items : List Item) (n : Nat), Settles (resolveItems scope items) n (itemsBroken scopes n items)
      (itemsRenamed scopes n items) (n + (itemsOwnNames items).length)
  | scope, scopes, h, [], n => by
    rw [resolveItems, itemsBroken, itemsRenamed, itemsOwnNames]
    exact .pure _ n
  | scope, scopes, h, .stmt s :: rest, n => by
    rw [resolveItems, itemsBroken, itemsRenamed, itemsOwnNames, List.length_append, ← Nat.add_assoc]
    exact (s.resolve_settles h n).bind ((resolveItems_settles h rest _).map _)
  | scope, scopes, h, .var d :: rest, n => by
    obtain ⟨scope', hscope', hd⟩ := d.resolve_settles h n
    rw [resolveItems, itemsBroken, itemsRenamed, itemsOwnNames, List.length_append, ← Nat.add_assoc]
    exact hd.bind ((resolveItems_settles hscope' rest _).map _)
  | scope, scopes, h, .fn head body :: rest, n => by
    rw [resolveItems, itemsBroken]
    exact .reject _ _ _ _ n _
end

/-! ## Programs -/

theorem Scope.declareParams_settles : ∀ {scope : Scope} {scopes : Scopes}, scope.Shows scopes →
    ∀ (params : List Param) (n : Nat), ∃ scope', Scope.Shows scope' (scopes.withParams n params) ∧
      Settles (scope.declareParams params) n (paramsBroken scopes n params) (paramsRenamed n params, scope')
        (n + params.length)
  | scope, scopes, h, [], n => ⟨scope, h, .pure _ n⟩
  | scope, scopes, h, p :: ps, n => by
    obtain ⟨scope₁, hscope₁, hp⟩ := Scope.declare_settles h p.ident n
    obtain ⟨scope₂, hscope₂, hps⟩ := Scope.declareParams_settles hscope₁ ps (n + 1)
    refine ⟨scope₂, hscope₂, ?_⟩
    rw [List.length_cons, Nat.add_comm ps.length, ← Nat.add_assoc]
    exact hp.bind (hps.map fun r => ({ p with ident := p.ident.numbered n } :: r.1, r.2))

/-- What the top level knows is what the earlier declarations say. -/
structure TopLevel.Shows (top : TopLevel) (earlier : List Decl) : Prop where
  scope : top.scope.Shows (fileScope earlier)
  defined : ∀ x, x ∈ top.defined ↔ x ∈ earlier.filterMap Decl.definedName?

theorem fileScope_snoc (earlier : List Decl) (d : Decl) :
    fileScope (earlier ++ [d]) = (fileScope earlier).declare (.linked d.name) := by
  simp [fileScope, Scopes.declare]

theorem Decl.resolve_settles {top : TopLevel} {earlier : List Decl} (h : top.Shows earlier) (d : Decl) (n : Nat) :
    ∃ top', TopLevel.Shows top' (earlier ++ [d]) ∧
      Settles (d.resolve top) n (d.broken earlier n) (d.renamed earlier n, top') (n + d.ownNames.length) := by
  have hlink : Scope.Shows (top.scope.link d.name) (fileScope (earlier ++ [d])) := by
    rw [fileScope_snoc]
    exact h.scope.declare (.linked d.name)
  cases d with
  | var d =>
    refine ⟨⟨top.scope.link d.ident.name, top.defined⟩, ⟨hlink, by simp [h.defined, Decl.definedName?]⟩, ?_⟩
    rw [Decl.resolve, Decl.broken, Decl.renamed, Decl.ownNames]
    exact (Settles.lift (Expr.resolve?_eq hlink d.init) n).map _
  | fn head body =>
    obtain ⟨inner, hinner, hparams⟩ := Scope.declareParams_settles hlink.enter head.params n
    have hsecond : head.secondBody earlier body =
        if body.isSome && top.defined.contains head.ident.name then
          [⟨.duplicateFunction head.ident.name, head.ident.span⟩] else [] := by
      simp [FnHead.secondBody, h.defined]
    have hcount : (Decl.fn head body).ownNames.length =
        head.params.length + ((body.map itemsOwnNames).getD []).length := by
      simp [Decl.ownNames, paramNames]
    rw [Decl.resolve, Decl.broken, Decl.renamed, hsecond, hcount, ← Nat.add_assoc]
    cases body with
    | none =>
      refine ⟨⟨top.scope.link head.ident.name, top.defined⟩, ⟨hlink, by simp [h.defined, Decl.definedName?]⟩, ?_⟩
      exact .check _ _ fun _ => hparams.bind (.pure _ _)
    | some items =>
      refine ⟨⟨top.scope.link head.ident.name, head.ident.name :: top.defined⟩, ⟨hlink, ?_⟩, ?_⟩
      · simp [h.defined, Decl.definedName?, or_comm]
      · exact .check _ _ fun _ => hparams.bind ((resolveItems_settles hinner items _).map _)

theorem resolveDecls_settles : ∀ {top : TopLevel} {earlier : List Decl}, top.Shows earlier →
    ∀ (ds : List Decl) (n : Nat), Settles (resolveDecls top ds) n (declsBroken earlier n ds) (declsRenamed earlier n ds)
      (n + (ds.flatMap Decl.ownNames).length)
  | top, earlier, h, [], n => .pure _ n
  | top, earlier, h, d :: ds, n => by
    obtain ⟨top', htop', hd⟩ := d.resolve_settles h n
    rw [resolveDecls, declsBroken, declsRenamed, List.flatMap_cons, List.length_append, ← Nat.add_assoc]
    exact hd.bind ((resolveDecls_settles htop' ds _).map _)

/-- Resolution comes to the verdict of lexical scoping. -/
theorem Program.resolve_eq (p : Program) : p.resolve = verdict p.broken p.renamed := by
  have htop : TopLevel.Shows {} [] := ⟨.empty, by simp⟩
  have hdecls : (resolveDecls {} p.decls).run 0 = verdict p.broken (p.renamed.decls, _) :=
    resolveDecls_settles htop p.decls 0
  rw [Program.resolve, StateT.run'_eq, hdecls]
  cases p.broken <;> rfl

/-! ## Only names change -/

mutual
theorem Expr.shape_renamed (scopes : Scopes) : ∀ e : Expr, (e.renamed scopes).shape = e.shape
  | .int .. | .long .. | .str .. | .var .. => rfl
  | .call note f args => by simp only [Expr.renamed, Expr.shape, Expr.shapes_renamed scopes args]
  | .unary _ _ a | .cast _ _ a => by simp only [Expr.renamed, Expr.shape, a.shape_renamed scopes]
  | .binary _ _ l r | .assign _ l r | .range _ l r => by
    simp only [Expr.renamed, Expr.shape, l.shape_renamed scopes, r.shape_renamed scopes]
  | .cond _ c t f => by
    simp only [Expr.renamed, Expr.shape, c.shape_renamed scopes, t.shape_renamed scopes, f.shape_renamed scopes]

theorem Expr.shapes_renamed (scopes : Scopes) : ∀ es : List Expr,
    Expr.shapes (Expr.allRenamed scopes es) = Expr.shapes es
  | [] => rfl
  | e :: es => by simp only [Expr.allRenamed, Expr.shapes, e.shape_renamed scopes, Expr.shapes_renamed scopes es]
end

theorem Expr.map_shape_renamed (scopes : Scopes) (value : Option Expr) :
    (value.map (Expr.renamed scopes)).map Expr.shape = value.map Expr.shape := by
  cases value with
  | none => rfl
  | some e => exact congrArg some (e.shape_renamed scopes)

theorem VarDecl.shape_renamed (scopes : Scopes) (n : Nat) (d : VarDecl) : (d.renamed scopes n).shape = d.shape := by
  rw [VarDecl.renamed]
  split
  · rfl
  · next hx =>
    have hx' : ¬ VarDecl.isExternal { d with
      ident := d.ident.numbered n, init := d.init.map (Expr.renamed (scopes.declare (d.declared n))) } := hx
    rw [VarDecl.shape, VarDecl.shape, if_neg hx, if_neg hx', Expr.map_shape_renamed]
    rfl

mutual
theorem Stmt.shape_renamed : ∀ (scopes : Scopes) (n : Nat) (s : Stmt), (s.renamed scopes n).shape = s.shape
  | scopes, n, .eval e => by simp only [Stmt.renamed, Stmt.shape, e.shape_renamed scopes]
  | scopes, n, .ret value span => by simp only [Stmt.renamed, Stmt.shape, Expr.map_shape_renamed]
  | scopes, n, .ifThen c s => by
    simp only [Stmt.renamed, Stmt.shape, c.shape_renamed scopes, s.shape_renamed scopes n]
  | scopes, n, .ifElse c s t => by
    simp only [Stmt.renamed, Stmt.shape, c.shape_renamed scopes, s.shape_renamed scopes n, t.shape_renamed scopes _]
  | scopes, n, .block items => by simp only [Stmt.renamed, Stmt.shape, itemsShape_renamed _ n items]
  | scopes, n, .whileLoop c body id => by
    simp only [Stmt.renamed, Stmt.shape, c.shape_renamed scopes, itemsShape_renamed _ n body]
  | scopes, n, .loop var control body id => by
    simp only [Stmt.renamed, Stmt.shape, control.shape_renamed scopes, itemsShape_renamed _ _ body, Option.map_map]
    rfl
  | scopes, n, .leave .. | scopes, n, .next .. | scopes, n, .skip => rfl

theorem itemsShape_renamed : ∀ (scopes : Scopes) (n : Nat) (items : List Item),
    itemsShape (itemsRenamed scopes n items) = itemsShape items
  | scopes, n, [] => rfl
  | scopes, n, .stmt s :: rest => by
    simp only [itemsRenamed, itemsShape, s.shape_renamed scopes n, itemsShape_renamed scopes _ rest]
  | scopes, n, .var d :: rest => by
    simp only [itemsRenamed, itemsShape, d.shape_renamed scopes n, itemsShape_renamed _ _ rest]
  | scopes, n, .fn head body :: rest => by simp only [itemsRenamed, itemsShape, itemsShape_renamed scopes n rest]
end

theorem paramsShape_renamed : ∀ (n : Nat) (params : List Param),
    ((paramsRenamed n params).map fun p => { p with ident := p.ident.shape }) =
      params.map fun p => { p with ident := p.ident.shape }
  | _, [] => rfl
  | n, p :: ps => by
    rw [paramsRenamed, List.map_cons, List.map_cons, paramsShape_renamed (n + 1) ps]
    rfl

theorem Decl.shape_renamed (earlier : List Decl) (n : Nat) : ∀ d : Decl, (d.renamed earlier n).shape = d.shape
  | .fn head body => by
    simp only [Decl.renamed, Decl.shape, paramsShape_renamed]
    cases body with
    | none => rfl
    | some items => simp only [Option.map_some, itemsShape_renamed]
  | .var d => by simp only [Decl.renamed, Decl.shape, Expr.map_shape_renamed]

theorem declsShape_renamed : ∀ (earlier : List Decl) (n : Nat) (ds : List Decl),
    (declsRenamed earlier n ds).map Decl.shape = ds.map Decl.shape
  | _, _, [] => rfl
  | earlier, n, d :: ds => by
    rw [declsRenamed, List.map_cons, List.map_cons, d.shape_renamed, declsShape_renamed _ _ ds]

theorem Program.shape_renamed (p : Program) : p.renamed.shape = p.shape :=
  congrArg Program.mk (declsShape_renamed [] 0 p.decls)

/-- Resolution accepts exactly the programs that break no rule of lexical scoping. It replaces every name in them by
that of the declaration it means, and changes nothing else. It rejects a program for the first rule it breaks. -/
theorem Program.resolve_lexical (p : Program) :
    p.resolve = verdict p.broken p.renamed ∧ p.renamed.shape = p.shape :=
  ⟨p.resolve_eq, p.shape_renamed⟩

end Khel
