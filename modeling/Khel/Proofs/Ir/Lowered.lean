import Khel.Proofs.Ir.Minting
import Khel.Proofs.Naming.StrayJumps
import Khel.Proofs.Typing.Erasure
import Khel.Proofs.Typing.Merged

/-!
# Accepted programs can be lowered

Lowering fails if an earlier stage left something undone. It asks little of a program: an expression assigns to variables
only, each node whose width matters has a type, loops and jumps have ids, and the symbol table knows the functions and the
variables of loops. Each pass of the analysis sees to one of these.

This asks less than that an expression is well typed: a cast may stand anywhere in the text.

* `Expr.resolve_lowerable`, `Program.prepare_lowerable`: resolution sees to what is assigned to.
* `Expr.check_ready`: checking sees to the types.
* `Ir.Lowering.Works`: a step that never fails.
* `Expr.lower_works`, `Stmt.check_works`: ready expressions and checked statements are lowered by such steps.
* `Program.Prepares.isKnown`: the symbol table has what lowering looks up.
* `Program.lower_works`: what the analysis accepts can be lowered.
-/

namespace Khel

open Ir

/-! ## What lowering asks of expressions -/

/-- The node has a type, if the program is checked. -/
def Note.Fits (checked : Bool) (note : Note) : Prop := checked = true → note.ty.isSome = true

theorem Note.fits_false (note : Note) : note.Fits false := nofun

mutual
/-- The expression assigns to variables only, and if the program is checked, its nodes have types. Lowering never asks for
the type of a constant, a text, a variable or an assignment, unless a cast stands around it. -/
def Expr.Lowerable (checked : Bool) : Expr → Prop
  | .int .. | .long .. | .str .. | .var .. => True
  | .call note _ args => note.Fits checked ∧ Expr.AllLowerable checked args
  | .unary note _ a => note.Fits checked ∧ a.Lowerable checked
  | .binary note _ l r => note.Fits checked ∧ l.Lowerable checked ∧ r.Lowerable checked
  | .assign _ l r => l.isVar = true ∧ r.Lowerable checked
  | .cond note c t f => note.Fits checked ∧ c.Lowerable checked ∧ t.Lowerable checked ∧ f.Lowerable checked
  | .range note l r => note.Fits checked ∧ l.Lowerable checked ∧ r.Lowerable checked
  | .cast _ _ a => a.note.Fits checked ∧ a.Lowerable checked

/-- All expressions of a list are lowerable. -/
def Expr.AllLowerable (checked : Bool) : List Expr → Prop
  | [] => True
  | e :: es => e.Lowerable checked ∧ Expr.AllLowerable checked es
end

/-- The initial value is lowerable, unless it is that of an external variable, which is never read. -/
def VarDecl.Lowerable (d : VarDecl) : Prop := d.isExternal = false → ∀ e ∈ d.init, e.Lowerable false

mutual
/-- The expressions of the statement are lowerable, and no function stands inside it. -/
def Stmt.Lowerable : Stmt → Prop
  | .eval e => e.Lowerable false
  | .ret value _ => ∀ e ∈ value, e.Lowerable false
  | .ifThen c s => c.Lowerable false ∧ s.Lowerable
  | .ifElse c s t => c.Lowerable false ∧ s.Lowerable ∧ t.Lowerable
  | .block items => itemsLowerable items
  | .whileLoop c body _ => c.Lowerable false ∧ itemsLowerable body
  | .loop _ control body _ => control.Lowerable false ∧ itemsLowerable body
  | .leave .. | .next .. | .skip => True

/-- The items of a block are lowerable. -/
def itemsLowerable : List Item → Prop
  | [] => True
  | .stmt s :: rest => s.Lowerable ∧ itemsLowerable rest
  | .var d :: rest => d.Lowerable ∧ itemsLowerable rest
  | .fn .. :: _ => False
end

/-- The body of a function is lowerable. The initial value of a variable of the top level is never lowered. -/
def Decl.Lowerable : Decl → Prop
  | .fn _ body => ∀ items ∈ body, itemsLowerable items
  | .var _ => True

/-! ## Resolution and labelling -/

theorem Expr.exists_of_isVar {e : Expr} (h : e.isVar = true) : ∃ note x, e = .var note x := by
  cases e with
  | var note x => exact ⟨note, x, rfl⟩
  | int | long | str | call | unary | binary | assign | cond | range | cast => cases h

mutual
/-- A resolved expression assigns to variables only. -/
theorem Expr.resolve_lowerable (scope : Scope) : ∀ e : Expr,
    Yields (e.resolve scope) (fun _ => True) (Expr.Lowerable false)
  | .int .. | .long .. | .str .. => by
    rw [Expr.resolve]
    exact .pure trivial
  | .var note x => by
    rw [Expr.resolve]
    split
    · exact .pure trivial
    · exact .throw trivial
  | .call note f args => by
    rw [Expr.resolve]
    split
    · exact .bind (Expr.resolveAll_lowerable scope args) fun _ h => .pure ⟨note.fits_false, h⟩
    · exact .throw trivial
  | .unary note op a => by
    rw [Expr.resolve]
    exact .bind (a.resolve_lowerable scope) fun _ h => .pure ⟨note.fits_false, h⟩
  | .binary note _ l r | .range note l r => by
    rw [Expr.resolve]
    exact .bind (l.resolve_lowerable scope) fun _ hl => .bind (r.resolve_lowerable scope) fun _ hr =>
      .pure ⟨note.fits_false, hl, hr⟩
  | .assign note l r => by
    rw [Expr.resolve]
    split
    · next hv =>
      obtain ⟨n, x, rfl⟩ := Expr.exists_of_isVar hv
      have hl : Yields ((Expr.var n x).resolve scope) (fun _ => True) fun l => l.isVar = true := by
        rw [Expr.resolve]
        split
        · exact .pure rfl
        · exact .throw trivial
      exact .bind hl fun _ hl => .bind (r.resolve_lowerable scope) fun _ hr => .pure ⟨hl, hr⟩
    · exact .throw trivial
  | .cond note c t f => by
    rw [Expr.resolve]
    exact .bind (c.resolve_lowerable scope) fun _ hc => .bind (t.resolve_lowerable scope) fun _ ht =>
      .bind (f.resolve_lowerable scope) fun _ hf => .pure ⟨note.fits_false, hc, ht, hf⟩
  | .cast note t a => by
    rw [Expr.resolve]
    exact .bind (a.resolve_lowerable scope) fun a' h => .pure ⟨a'.note.fits_false, h⟩

theorem Expr.resolveAll_lowerable (scope : Scope) : ∀ es : List Expr,
    Yields (Expr.resolveAll scope es) (fun _ => True) (Expr.AllLowerable false)
  | [] => by
    rw [Expr.resolveAll]
    exact .pure trivial
  | e :: es => by
    rw [Expr.resolveAll]
    exact .bind (e.resolve_lowerable scope) fun _ he => .bind (Expr.resolveAll_lowerable scope es) fun _ hes =>
      .pure ⟨he, hes⟩
end

theorem Expr.resolve?_lowerable (scope : Scope) (value : Option Expr) :
    Yields (Expr.resolve? scope value) (fun _ => True) fun value' => ∀ e ∈ value', e.Lowerable false := by
  cases value with
  | none => exact .pure (by simp)
  | some e => exact .bind (e.resolve_lowerable scope) fun _ he => .pure (by simpa using he)

theorem VarDecl.resolve_lowerable (scope : Scope) (d : VarDecl) (n : Nat) :
    Ensures (d.resolve scope) n (fun _ => True) fun r _ => r.1.Lowerable := by
  unfold VarDecl.resolve
  split
  · next hx =>
    split
    · exact .throw trivial
    · exact .pure fun h => absurd hx (by simp [h])
  · apply Ensures.bind (.any _ n)
    rintro ⟨ident, scope'⟩ _ _
    exact .lift_bind (Expr.resolve?_lowerable scope' d.init) fun init hinit => .pure fun _ => hinit

mutual
theorem Stmt.resolve_lowerable : ∀ (scope : Scope) (s : Stmt) (n : Nat),
    Ensures (s.resolve scope) n (fun _ => True) fun s' _ => s'.Lowerable
  | scope, .eval e, _ => by
    rw [Stmt.resolve]
    exact .lift_bind (e.resolve_lowerable scope) fun _ he => .pure he
  | scope, .ret value span, _ => by
    rw [Stmt.resolve]
    exact .lift_bind (Expr.resolve?_lowerable scope value) fun _ hv => .pure hv
  | scope, .ifThen c s, _ => by
    rw [Stmt.resolve]
    exact .lift_bind (c.resolve_lowerable scope) fun _ hc => .bind (s.resolve_lowerable scope _) fun _ _ hs =>
      .pure ⟨hc, hs⟩
  | scope, .ifElse c s t, _ => by
    rw [Stmt.resolve]
    exact .lift_bind (c.resolve_lowerable scope) fun _ hc => .bind (s.resolve_lowerable scope _) fun _ _ hs =>
      .bind (t.resolve_lowerable scope _) fun _ _ ht => .pure ⟨hc, hs, ht⟩
  | scope, .block items, _ => by
    rw [Stmt.resolve]
    exact .bind (resolveItems_lowerable scope.enter items _) fun _ _ hi => .pure hi
  | scope, .whileLoop c body id, _ => by
    rw [Stmt.resolve]
    exact .lift_bind (c.resolve_lowerable scope) fun _ hc =>
      .bind (resolveItems_lowerable scope.enter body _) fun _ _ hb => .pure ⟨hc, hb⟩
  | scope, .loop var control body id, _ => by
    rw [Stmt.resolve]
    refine .lift_bind (control.resolve_lowerable scope) fun _ hc => .bind (.any _ _) ?_
    rintro ⟨var', inner⟩ n _
    exact .bind (resolveItems_lowerable inner body n) fun _ _ hb => .pure ⟨hc, hb⟩
  | _, .leave .., _ | _, .next .., _ | _, .skip, _ => by
    rw [Stmt.resolve]
    exact .pure trivial

theorem resolveItems_lowerable : ∀ (scope : Scope) (items : List Item) (n : Nat),
    Ensures (resolveItems scope items) n (fun _ => True) fun items' _ => itemsLowerable items'
  | _, [], _ => by
    rw [resolveItems]
    exact .pure trivial
  | scope, .stmt s :: rest, _ => by
    rw [resolveItems]
    exact .bind (s.resolve_lowerable scope _) fun _ _ hs => .bind (resolveItems_lowerable scope rest _) fun _ _ hr =>
      .pure ⟨hs, hr⟩
  | scope, .var d :: rest, n => by
    rw [resolveItems]
    apply Ensures.bind (d.resolve_lowerable scope n)
    rintro ⟨d', scope'⟩ n' hd
    exact .bind (resolveItems_lowerable scope' rest n') fun _ _ hr => .pure ⟨hd, hr⟩
  | _, .fn .. :: _, _ => by
    rw [resolveItems]
    exact .throw trivial
end

theorem Decl.resolve_lowerable (top : TopLevel) (d : Decl) (n : Nat) :
    Ensures (d.resolve top) n (fun _ => True) fun r _ => r.1.Lowerable := by
  cases d with
  | fn head body =>
    unfold Decl.resolve
    dsimp only
    split
    · exact .throw trivial
    · apply Ensures.bind (.any _ n)
      rintro ⟨params, inner⟩ n' _
      cases body with
      | none => exact .pure (by simp [Decl.Lowerable])
      | some items =>
        apply Ensures.bind (resolveItems_lowerable inner items n')
        intro items' _ hi
        exact .pure (by simpa [Decl.Lowerable] using hi)
  | var d => exact .bind (.any _ n) fun _ _ _ => .pure trivial

theorem resolveDecls_lowerable : ∀ (top : TopLevel) (ds : List Decl) (n : Nat),
    Ensures (resolveDecls top ds) n (fun _ => True) fun ds' _ => ∀ d ∈ ds', d.Lowerable
  | _, [], _ => by
    rw [resolveDecls]
    exact .pure (by simp)
  | top, d :: ds, n => by
    rw [resolveDecls]
    apply Ensures.bind (d.resolve_lowerable top n)
    rintro ⟨d', top'⟩ n' hd
    exact .bind (resolveDecls_lowerable top' ds n') fun _ _ hds => .pure (List.forall_mem_cons.2 ⟨hd, hds⟩)

mutual
/-- What lowering asks of expressions is not a matter of ids. -/
theorem Stmt.lowerable_unlabelled : ∀ s : Stmt, s.unlabelled.Lowerable ↔ s.Lowerable
  | .eval _ | .ret .. | .leave .. | .next .. | .skip => Iff.rfl
  | .ifThen _ s => and_congr Iff.rfl s.lowerable_unlabelled
  | .ifElse _ s t => and_congr Iff.rfl (and_congr s.lowerable_unlabelled t.lowerable_unlabelled)
  | .block items => itemsLowerable_unlabelled items
  | .whileLoop _ body _ => and_congr Iff.rfl (itemsLowerable_unlabelled body)
  | .loop _ _ body _ => and_congr Iff.rfl (itemsLowerable_unlabelled body)

theorem itemsLowerable_unlabelled : ∀ items : List Item, itemsLowerable (itemsUnlabelled items) ↔ itemsLowerable items
  | [] | .fn .. :: _ => Iff.rfl
  | .stmt s :: rest => and_congr s.lowerable_unlabelled (itemsLowerable_unlabelled rest)
  | .var _ :: rest => and_congr Iff.rfl (itemsLowerable_unlabelled rest)
end

theorem Decl.lowerable_unlabelled (d : Decl) : d.unlabelled.Lowerable ↔ d.Lowerable := by
  cases d with
  | var d => exact Iff.rfl
  | fn head body => cases body <;> simp [Decl.unlabelled, Decl.Lowerable, itemsLowerable_unlabelled]

/-- Before a program is checked, its expressions assign to variables only, and its loops have ids. -/
theorem Program.prepare_lowerable (p : Program) : Yields p.prepare (fun _ => True) fun r =>
    ∀ d ∈ r.decls, d.Lowerable ∧ d.Labelled := by
  have hresolve : Yields p.resolve (fun _ => True) fun r => ∀ d ∈ r.decls, d.Lowerable :=
    .bind (Ensures.run' (resolveDecls_lowerable {} p.decls 0)) fun _ h => .pure h
  apply Yields.bind hresolve
  intro p₁ hlowerable
  apply (p₁.labelLoops_yields.and p₁.labelLoops_ids).mono
  rintro r ⟨⟨_, hlabelled, _⟩, hunlabelled⟩ d hd
  refine ⟨?_, hlabelled d hd⟩
  have hdecls : r.decls.map Decl.unlabelled = p₁.decls.map Decl.unlabelled := congrArg Program.decls hunlabelled
  have hmem : d.unlabelled ∈ p₁.decls.map Decl.unlabelled := hdecls ▸ List.mem_map_of_mem hd
  obtain ⟨d₁, hd₁, hsame⟩ := List.mem_map.1 hmem
  rw [← d.lowerable_unlabelled, ← hsame, d₁.lowerable_unlabelled]
  exact hlowerable d₁ hd₁

/-! ## Checking -/

/-- The expression has a type, and it can be lowered. -/
def Expr.IsReady (e : Expr) : Prop := e.note.Fits true ∧ e.Lowerable true

/-- A conversion adds a cast, which has a type, or nothing. -/
theorem Expr.IsReady.convert {e : Expr} (he : e.IsReady) (target : Ty) :
    Yields (e.convert target) (fun _ => True) Expr.IsReady :=
  e.convert_yields_of target he ⟨fun _ => rfl, he⟩

theorem Expr.IsReady.convert_bind {α : Type} {e : Expr} (he : e.IsReady) (target : Ty)
    {f : Expr → Except CompileError α} {P : α → Prop} (hf : ∀ e', e'.IsReady → Yields (f e') (fun _ => True) P) :
    Yields (liftM (e.convert target) >>= f) (fun _ => True) P :=
  Yields.rejection_bind (he.convert target) hf

mutual
/-- A checked expression has types where lowering needs them. -/
theorem Expr.check_ready (T : SymbolTable) : ∀ e : Expr, e.Lowerable false →
    Yields (e.check T) (fun _ => True) Expr.IsReady
  | .int .., _ | .long .., _ | .str .., _ => by
    rw [Expr.check]
    exact .pure ⟨fun _ => rfl, trivial⟩
  | .var note x, _ => by
    rw [Expr.check]
    split
    · exact .throw trivial
    · split
      · exact .throw trivial
      · exact .pure ⟨fun _ => rfl, trivial⟩
  | .call note f args, ⟨_, hargs⟩ => by
    rw [Expr.check]
    split
    · exact .throw trivial
    · split
      · split
        · next params ret _ hlen =>
          apply Yields.bind (Expr.checkArgs_ready T params args hargs hlen)
          intro args' hargs'
          exact .pure ⟨fun _ => rfl, fun _ => rfl, hargs'⟩
        · exact .throw trivial
      · exact .throw trivial
  | .unary note op a, ⟨_, ha⟩ => by
    rw [Expr.check]
    apply Yields.bind (a.check_ready T ha)
    rintro a' ⟨_, ha'⟩
    cases op with
    | logicalNot => exact .pure ⟨fun _ => rfl, fun _ => rfl, ha'⟩
    | negate | complement =>
      exact .after fun _ => .after fun _ => .pure ⟨fun _ => rfl, fun _ => rfl, ha'⟩
  | .binary note op l r, ⟨_, hl, hr⟩ => by
    rw [Expr.check]
    apply Yields.bind (l.check_ready T hl)
    intro l' hl'
    apply Yields.bind (r.check_ready T hr)
    intro r' hr'
    cases op with
    | logicalAnd | logicalOr => exact .pure ⟨fun _ => rfl, fun _ => rfl, hl'.2, hr'.2⟩
    | strict strictOp =>
      refine .after fun tl => .after fun tr => ?_
      apply hl'.convert_bind
      intro l'' hl''
      apply hr'.convert_bind
      intro r'' hr''
      cases strictOp with
      | compare _ => exact .pure ⟨fun _ => rfl, fun _ => rfl, hl''.2, hr''.2⟩
      | arith _ =>
        exact .after fun _ => .pure ⟨fun _ => rfl, fun _ => rfl, hl''.2, hr''.2⟩
  | .assign note l r, ⟨hv, hr⟩ => by
    rw [Expr.check]
    obtain ⟨n, x, rfl⟩ := Expr.exists_of_isVar hv
    have hl : Yields ((Expr.var n x).check T) (fun _ => True) fun l' => l'.isVar = true := by
      rw [Expr.check]
      split
      · exact .throw trivial
      · split
        · exact .throw trivial
        · exact .pure rfl
    apply Yields.bind hl
    intro l' hl'
    apply Yields.bind (r.check_ready T hr)
    intro r' hr'
    apply Yields.after
    intro t
    apply hr'.convert_bind
    intro r'' hr''
    exact .pure ⟨fun _ => rfl, hl', hr''.2⟩
  | .cond note c t f, ⟨_, hc, ht, hf⟩ => by
    rw [Expr.check]
    apply Yields.bind (c.check_ready T hc)
    intro c' hc'
    apply Yields.bind (t.check_ready T ht)
    intro t' ht'
    apply Yields.bind (f.check_ready T hf)
    intro f' hf'
    refine .after fun tt => .after fun tf => ?_
    apply ht'.convert_bind
    intro t'' ht''
    apply hf'.convert_bind
    intro f'' hf''
    exact .pure ⟨fun _ => rfl, fun _ => rfl, hc'.2, ht''.2, hf''.2⟩
  | .range note l r, ⟨_, hl, hr⟩ => by
    rw [Expr.check]
    apply Yields.bind (l.check_ready T hl)
    intro l' hl'
    apply Yields.bind (r.check_ready T hr)
    intro r' hr'
    refine .after fun tl => .after fun tr => ?_
    apply hl'.convert_bind
    intro l'' hl''
    apply hr'.convert_bind
    intro r'' hr''
    exact .after fun _ => .pure ⟨fun _ => rfl, fun _ => rfl, hl''.2, hr''.2⟩
  | .cast note target a, ⟨_, ha⟩ => by
    rw [Expr.check]
    apply Yields.bind (a.check_ready T ha)
    intro a' ha'
    exact .pure ⟨fun _ => rfl, ha'⟩

theorem Expr.checkArgs_ready (T : SymbolTable) : ∀ (params : List Ty) (args : List Expr), Expr.AllLowerable false args →
    params.length = args.length → Yields (Expr.checkArgs T params args) (fun _ => True) (Expr.AllLowerable true)
  | [], [], _, _ => by
    rw [Expr.checkArgs]
    · exact .pure trivial
    · simp
  | param :: params, arg :: args, ⟨harg, hargs⟩, hlen => by
    rw [Expr.checkArgs]
    apply Yields.bind (arg.check_ready T harg)
    intro arg' harg'
    apply harg'.convert_bind
    intro arg'' harg''
    apply Yields.bind (Expr.checkArgs_ready T params args hargs (Nat.succ.inj hlen))
    intro args' hargs'
    exact .pure ⟨harg''.2, hargs'⟩
end

/-! ## Steps that never fail -/

namespace Ir

namespace LoweringState

/-- No name is lost. -/
theorem Reaches.mem_names {st st' : LoweringState} (h : st.Reaches st') {x : String} (hx : x ∈ st.symbols.names) :
    x ∈ st'.symbols.names := by
  refine h.keeps (P := fun st => x ∈ st.symbols.names) (fun st st' hstep hx => ?_) hx
  cases hstep with
  | temp ty => exact (Table.mem_names_set st.symbols _ _).2 (.inl hx)
  | label => exact hx

/-- A name without a point keeps its symbol. -/
theorem Reaches.get?_dotless {st st' : LoweringState} (h : st.Reaches st') {x : String} (hx : Dotless x) :
    st'.symbols.get? x = st.symbols.get? x := by
  refine h.keeps (P := fun st' => st'.symbols.get? x = st.symbols.get? x) (fun st₁ st₂ hstep hsame => ?_) rfl
  cases hstep with
  | temp ty => rw [addTemp, Table.get?_set, if_neg fun heq => hx.ne_numbered _ _ heq.symm, hsame]
  | label => exact hsame

end LoweringState

namespace Lowering

variable {α β : Type} {base : LoweringState}

/-- From any state that is reached from `base`, the step ends well, and in such a state again. -/
def Works (base : LoweringState) (m : Lowering α) : Prop :=
  ∀ st, base.Reaches st → Ensures m st (fun _ => False) fun _ st' => base.Reaches st'

theorem Works.pure (a : α) : Works base (Pure.pure a : Lowering α) := fun _ h => Ensures.pure h

theorem Works.bind {m : Lowering α} {f : α → Lowering β} (hm : Works base m) (hf : ∀ a, Works base (f a)) :
    Works base (m >>= f) :=
  fun st h => Ensures.bind (hm st h) fun a st₁ h₁ => hf a st₁ h₁

theorem temp_works (ty : Ty) : Works base (temp ty) :=
  fun _ h => Ensures.get_bind <| Ensures.set_bind <| Ensures.pure (h.trans (LoweringState.Step.temp ty).reaches)

theorem label_works (stem : String) : Works base (label stem) :=
  fun _ h => Ensures.get_bind <| Ensures.set_bind <| Ensures.pure (h.trans LoweringState.Step.label.reaches)

theorem loopId_works (statement : String) {id : Option String} (h : id.isSome = true) :
    Works base (loopId statement id) := by
  obtain ⟨id, rfl⟩ := Option.isSome_iff_exists.1 h
  exact .pure id

end Lowering

end Ir

open Ir.Lowering

section Works

variable {base : LoweringState}

theorem Expr.recordedTy_works {e : Expr} (h : e.note.Fits true) : Works base e.recordedTy := by
  obtain ⟨ty, hty⟩ := Option.isSome_iff_exists.1 (h rfl)
  unfold Expr.recordedTy
  rw [show e.ty = some ty from hty]
  exact .pure ty

mutual
/-- Lowering an expression never fails. -/
theorem Expr.lower_works : ∀ e : Expr, e.Lowerable true → Works base e.lower
  | .int .., _ | .long .., _ | .str .., _ | .var .., _ => by
    rw [Expr.lower]
    exact .pure _
  | .call note f args, ⟨hty, hargs⟩ => by
    rw [Expr.lower]
    exact .bind (Expr.lowerAll_works args hargs) fun _ => .bind (Expr.recordedTy_works hty) fun ty =>
      .bind (temp_works ty) fun _ => .pure _
  | .unary note op a, ⟨hty, ha⟩ => by
    rw [Expr.lower]
    exact .bind (a.lower_works ha) fun _ => .bind (Expr.recordedTy_works hty) fun ty =>
      .bind (temp_works ty) fun _ => .pure _
  | .binary _ .logicalAnd l r, ⟨_, hl, hr⟩ | .binary _ .logicalOr l r, ⟨_, hl, hr⟩ => by
    rw [Expr.lower]
    exact .bind (label_works _) fun _ => .bind (label_works _) fun _ => .bind (temp_works _) fun _ =>
      .bind (l.lower_works hl) fun _ => .bind (r.lower_works hr) fun _ => .pure _
  | .binary note (.strict op) l r, ⟨hty, hl, hr⟩ | .range note l r, ⟨hty, hl, hr⟩ => by
    rw [Expr.lower]
    exact .bind (l.lower_works hl) fun _ => .bind (r.lower_works hr) fun _ =>
      .bind (Expr.recordedTy_works hty) fun ty => .bind (temp_works ty) fun _ => .pure _
  | .assign _ target value, ⟨hv, hvalue⟩ => by
    obtain ⟨n, x, rfl⟩ := Expr.exists_of_isVar hv
    unfold Expr.lower
    exact .bind (value.lower_works hvalue) fun _ => .pure _
  | .cond note c t f, ⟨hty, hc, ht, hf⟩ => by
    rw [Expr.lower]
    exact .bind (label_works _) fun _ => .bind (label_works _) fun _ => .bind (Expr.recordedTy_works hty) fun ty =>
      .bind (temp_works ty) fun _ => .bind (c.lower_works hc) fun _ => .bind (t.lower_works ht) fun _ =>
      .bind (f.lower_works hf) fun _ => .pure _
  | .cast _ target a, ⟨hty, ha⟩ => by
    rw [Expr.lower]
    refine .bind (a.lower_works ha) fun _ => .bind (Expr.recordedTy_works hty) fun _ => ?_
    split
    · exact .bind (temp_works _) fun _ => .pure _
    · exact .bind (temp_works _) fun _ => .pure _
    · exact .pure _

theorem Expr.lowerAll_works : ∀ es : List Expr, Expr.AllLowerable true es → Works base (Expr.lowerAll es)
  | [], _ => by
    rw [Expr.lowerAll]
    exact .pure _
  | e :: es, ⟨he, hes⟩ => by
    rw [Expr.lowerAll]
    exact .bind (e.lower_works he) fun _ => .bind (Expr.lowerAll_works es hes) fun _ => .pure _
end

theorem Ident.loopTy_works {ident : Ident} (h : ident.name ∈ base.symbols.names) : Works base ident.loopTy := by
  intro st hst
  obtain ⟨s, hs⟩ := Option.isSome_iff_exists.1 (Table.mem_names_iff.1 (hst.mem_names h))
  apply Ensures.get_bind
  rw [hs]
  exact .pure hst

/-- Only the initial value of an automatic variable is lowered. -/
theorem VarDecl.lower_works {d : VarDecl} (h : d.storage = none → ∀ e ∈ d.init, e.Lowerable true) :
    Works base d.lower := by
  unfold VarDecl.lower
  split
  · next e hs hi => exact .bind (e.lower_works (h hs e hi)) fun _ => .pure _
  · exact .pure _

/-! ## Checked statements -/

open Checking

theorem expr_ready {e : Expr} (he : e.Lowerable false) : Gives (expr e) Expr.IsReady :=
  .get_bind fun T => .of_yields (e.check_ready T he)

theorem exprAs_ready {e : Expr} (he : e.Lowerable false) (target : Ty) : Gives (exprAs target e) Expr.IsReady := by
  apply Gives.bind (expr_ready he)
  intro e' he'
  exact .of_rejection (he'.convert target)

theorem VarDecl.checkLocal_works {d : VarDecl} (hd : d.Lowerable) :
    Gives d.checkLocal fun d' => Works base d'.lower := by
  intro T
  rw [checkLocal]
  split
  · next hs =>
    apply (d.checkExternal_same T).mono
    rintro d' _ rfl
    exact lower_works fun hnone => by simp [hs] at hnone
  · next hs =>
    apply (d.checkStatic_repeats T).mono
    rintro d' _ ⟨hs', _⟩
    exact lower_works fun hnone => by simp [hs', hs] at hnone
  · next hs =>
    have hinit : ∀ e ∈ d.init, e.Lowerable false := hd (by simp [isExternal, hs])
    refine (Gives.after fun _ => ?_ : Gives d.checkAutomatic fun d' => Works base d'.lower) T
    split
    · next hi => exact .pure (lower_works fun _ e he => by simp [hi] at he)
    · next e hi =>
      apply Gives.bind (exprAs_ready (hinit e hi) d.type.ty)
      intro e' he'
      exact .pure (lower_works fun _ e he => by cases he; exact he'.2)

mutual
/-- Lowering a checked statement never fails, if the variables of its loops are known. -/
theorem Stmt.check_works (ret : Ty) : ∀ {current : Option String} (s : Stmt), s.Lowerable → s.Labelled current →
    (∀ x ∈ s.ownNames, x ∈ base.symbols.names) → Gives (s.check ret) fun s' => Works base s'.lower
  | _, .eval e, he, _, _ => by
    rw [Stmt.check]
    apply Gives.bind (expr_ready he)
    intro e' he'
    apply Gives.pure
    rw [Stmt.lower]
    exact .bind (Expr.lower_works _ he'.2) fun _ => .pure _
  | _, .ret none span, _, _, _ => by
    rw [Stmt.check]
    apply Gives.pure
    rw [Stmt.lower]
    exact .pure _
  | _, .ret (some e) span, he, _, _ => by
    rw [Stmt.check]
    apply Gives.bind (exprAs_ready (he e rfl) ret)
    intro e' he'
    apply Gives.pure
    rw [Stmt.lower]
    exact .bind (e'.lower_works he'.2) fun _ => .pure _
  | _, .ifThen c s, ⟨hc, hs⟩, hl, hn => by
    rw [Stmt.check]
    apply Gives.bind (expr_ready hc)
    intro c' hc'
    apply Gives.bind (s.check_works ret hs hl hn)
    intro s' hs'
    apply Gives.pure
    rw [Stmt.lower]
    exact .bind (label_works _) fun _ => .bind (Expr.lower_works _ hc'.2) fun _ => .bind hs' fun _ => .pure _
  | _, .ifElse c s t, ⟨hc, hs, ht⟩, ⟨hls, hlt⟩, hn => by
    obtain ⟨hns, hnt⟩ := List.forall_mem_append.1 hn
    rw [Stmt.check]
    apply Gives.bind (expr_ready hc)
    intro c' hc'
    apply Gives.bind (s.check_works ret hs hls hns)
    intro s' hs'
    apply Gives.bind (t.check_works ret ht hlt hnt)
    intro t' ht'
    apply Gives.pure
    rw [Stmt.lower]
    exact .bind (label_works _) fun _ => .bind (label_works _) fun _ => .bind (Expr.lower_works _ hc'.2) fun _ =>
      .bind hs' fun _ => .bind ht' fun _ => .pure _
  | _, .block items, hi, hl, hn => by
    rw [Stmt.check]
    apply Gives.bind (checkItems_works ret items hi hl hn)
    intro items' hi'
    apply Gives.pure
    rw [Stmt.lower]
    exact hi'
  | _, .whileLoop c body id, ⟨hc, hb⟩, ⟨hid, hl⟩, hn => by
    rw [Stmt.check]
    apply Gives.bind (expr_ready hc)
    intro c' hc'
    apply Gives.bind (checkItems_works ret body hb hl hn)
    intro body' hb'
    apply Gives.pure
    rw [Stmt.lower]
    exact .bind (loopId_works _ hid) fun _ => .bind (label_works _) fun _ =>
      .bind (Expr.lower_works _ hc'.2) fun _ => .bind hb' fun _ => .pure _
  | _, .loop var control body id, ⟨hc, hb⟩, ⟨hid, hl⟩, hn => by
    obtain ⟨hvar, hn⟩ := List.forall_mem_append.1 hn
    rw [Stmt.check]
    apply Gives.bind (expr_ready hc)
    intro control' hc'
    have hloop : Gives (checkItems ret body >>= fun body' => pure (Stmt.loop var control' body' id)) fun s' =>
        Works base s'.lower := by
      apply Gives.bind (checkItems_works ret body hb hl hn)
      intro body' hb'
      apply Gives.pure
      rw [Stmt.lower]
      refine .bind (loopId_works _ hid) fun _ => .bind (label_works _) fun _ => ?_
      split
      · next ident _ l r =>
        obtain ⟨_, hl', hr'⟩ := hc'.2
        have hident : ident.name ∈ base.symbols.names := hvar _ (.head _)
        exact .bind (Ident.loopTy_works hident) fun _ => .bind (l.lower_works hl') fun _ =>
          .bind (r.lower_works hr') fun _ => .bind (temp_works _) fun _ => .bind hb' fun _ => .pure _
      · exact .bind (Expr.lower_works _ hc'.2) fun _ => .bind hb' fun _ => .pure _
    cases var with
    | none => exact hloop
    | some ident => exact .after fun _ => .after fun _ => hloop
  | _, .leave span id, _, ⟨hid, _⟩, _ | _, .next span id, _, ⟨hid, _⟩, _ => by
    rw [Stmt.check]
    apply Gives.pure
    rw [Stmt.lower]
    exact .bind (loopId_works _ hid) fun _ => .pure _
  | _, .skip, _, _, _ => by
    rw [Stmt.check]
    apply Gives.pure
    rw [Stmt.lower]
    exact .pure _

theorem checkItems_works (ret : Ty) : ∀ {current : Option String} (items : List Item), itemsLowerable items →
    itemsLabelled current items → (∀ x ∈ itemsOwnNames items, x ∈ base.symbols.names) →
    Gives (checkItems ret items) fun items' => Works base (lowerItems items')
  | _, [], _, _, _ => by
    rw [checkItems]
    apply Gives.pure
    rw [lowerItems]
    exact .pure _
  | _, .stmt s :: rest, ⟨hs, hr⟩, ⟨hls, hlr⟩, hn => by
    obtain ⟨hns, hnr⟩ := List.forall_mem_append.1 hn
    rw [checkItems]
    apply Gives.bind (s.check_works ret hs hls hns)
    intro s' hs'
    apply Gives.bind (checkItems_works ret rest hr hlr hnr)
    intro rest' hr'
    apply Gives.pure
    rw [lowerItems]
    exact .bind hs' fun _ => .bind hr' fun _ => .pure _
  | _, .var d :: rest, ⟨hd, hr⟩, hl, hn => by
    rw [checkItems]
    apply Gives.bind (VarDecl.checkLocal_works hd)
    intro d' hd'
    apply Gives.bind (checkItems_works ret rest hr hl (List.forall_mem_append.1 hn).2)
    intro rest' hr'
    apply Gives.pure
    rw [lowerItems]
    exact .bind hd' fun _ => .bind hr' fun _ => .pure _
end

/-! ## Checked programs -/

theorem FnHead.lower_works {head : FnHead} {body : List Item} (hx : Dotless head.ident.name)
    (hfn : (base.symbols.get? head.ident.name).any Symbol.isFunction = true) (hbody : Works base (lowerItems body)) :
    Works base (head.lower (some body)) := by
  obtain ⟨⟨ty, role⟩, hs, hrole⟩ := (Option.any_eq_true _ _).1 hfn
  have hglobal : Works base head.isGlobalNow := by
    intro st hst
    apply Ensures.get_bind
    rw [hst.get?_dotless hx, hs]
    cases role with
    | function => exact .pure hst
    | static | automatic => cases hrole
  exact .bind hglobal fun _ => .bind hbody fun _ => .pure _

/-- The function is lowered without failure, if the declaration has a body. -/
def Decl.Works (base : LoweringState) : Decl → Prop
  | .fn head body => ∀ items ∈ body, Lowering.Works base (head.lower (some items))
  | .var _ => True

/-- What lowering looks up for a declaration is there: the variables of its own, and the function that it defines. -/
structure Decl.IsKnown (T : SymbolTable) (d : Decl) : Prop where
  own : ∀ x ∈ d.ownNames, x ∈ T.names
  function : ∀ x ∈ d.definedName?, Dotless x ∧ (T.get? x).any Symbol.isFunction = true

theorem Decl.check_works {d : Decl} (hd : d.Lowerable) (hl : d.Labelled) (hT : d.IsKnown base.symbols) :
    Gives d.check (Decl.Works base) := by
  cases d with
  | var d =>
    cases hi : d.init with
    | none =>
      rw [Decl.check_valueless hi]
      exact .after fun _ => .pure trivial
    | some e =>
      rw [Decl.check_valued hi]
      exact .after fun _ => .after fun _ => .pure trivial
  | fn head body =>
    cases body with
    | none =>
      rw [Decl.check_declared]
      exact .after fun _ => .after fun _ => .pure (by simp [Decl.Works])
    | some items =>
      rw [Decl.check_defined]
      refine .after fun _ => .after fun _ => ?_
      have hown : ∀ x ∈ itemsOwnNames items, x ∈ base.symbols.names := fun x hx =>
        hT.own x (List.mem_append_right _ hx)
      apply Gives.bind (checkItems_works head.ret.ty items (hd items rfl) hl hown)
      intro items' hi
      obtain ⟨hx, hfn⟩ := hT.function head.ident.name rfl
      exact .pure fun _ h => by cases h; exact FnHead.lower_works hx hfn hi

theorem checkDecls_works : ∀ ds : List Decl, (∀ d ∈ ds, d.Lowerable ∧ d.Labelled ∧ d.IsKnown base.symbols) →
    Gives (checkDecls ds) fun ds' => ∀ d ∈ ds', d.Works base
  | [], _ => by
    rw [checkDecls]
    exact .pure (by simp)
  | d :: ds, h => by
    obtain ⟨⟨hd, hl, hT⟩, hds⟩ := List.forall_mem_cons.1 h
    rw [checkDecls]
    apply Gives.bind (Decl.check_works hd hl hT)
    intro d' hd'
    apply Gives.bind (checkDecls_works ds hds)
    intro ds' hds'
    exact .pure (List.forall_mem_cons.2 ⟨hd', hds'⟩)

theorem lowerFunctions_works : ∀ ds : List Decl, (∀ d ∈ ds, d.Works base) → Works base (lowerFunctions ds)
  | [], _ => by
    rw [lowerFunctions]
    exact .pure _
  | .fn head (some items) :: rest, h => by
    obtain ⟨hd, hrest⟩ := List.forall_mem_cons.1 h
    rw [lowerFunctions]
    exact .bind (hd items rfl) fun _ => .bind (lowerFunctions_works rest hrest) fun _ => .pure _
  | .fn _ none :: rest, h | .var _ :: rest, h => by
    rw [lowerFunctions]
    exact lowerFunctions_works rest (List.forall_mem_cons.1 h).2

end Works

/-- The symbol table of a prepared program has what lowering looks up. -/
theorem Program.Prepares.isKnown {p r : Program} {T : SymbolTable} (h : p.Prepares r) (hT : T.Records r.declarations)
    {d : Decl} (hd : d ∈ r.decls) : d.IsKnown T := by
  constructor
  · intro x hx
    have hown : x ∈ r.ownNames := List.mem_flatMap.2 ⟨d, hd, hx⟩
    rw [← r.ownNames_eq] at hown
    obtain ⟨e, he, rfl⟩ := List.mem_map.1 hown
    rw [hT.names, List.mem_eraseDups]
    exact List.mem_map_of_mem (List.mem_filter.1 he).1
  · intro x hx
    cases d with
    | var d => cases hx
    | fn head body =>
      cases body with
      | none => cases hx
      | some items =>
        cases hx
        have hfn : .function head true ∈ r.declarations := List.mem_flatMap.2 ⟨_, hd, .head _⟩
        exact ⟨(h.isLinked_iff hfn).1 rfl, h.get?_function hT hfn rfl rfl⟩

/-- A program that the analysis accepts can be lowered, if no linked name has a point in it. -/
theorem Program.lower_works {p q : Program} {T : SymbolTable} (hdots : ∀ x ∈ p.linkedNames, Dotless x)
    (h : p.analyze = .ok (q, T)) : ∃ ir T', q.lower T = .ok (ir, T') := by
  obtain ⟨r, hprepare, hcheck, hT⟩ := Program.analyze_prepares h
  obtain ⟨⟨ds, _⟩, hrun, hresult⟩ := Except.exists_of_bind hcheck
  cases hresult
  have hprepares : p.Prepares r := ⟨hprepare, hdots⟩
  have hworks : ∀ d ∈ ds, d.Works { symbols := T } := by
    apply (checkDecls_works r.decls (fun d hd => ?_) Table.empty).of_ok hrun
    obtain ⟨hlowerable, hlabelled⟩ := p.prepare_lowerable.of_ok hprepare d hd
    exact ⟨hlowerable, hlabelled, hprepares.isKnown hT hd⟩
  have hlower : Yields ((Program.mk ds).lower T) (fun _ => False) fun _ => True :=
    .bind (lowerFunctions_works ds hworks _ (.refl _)) fun _ _ => .pure trivial
  obtain ⟨⟨ir, T'⟩, hl, _⟩ := hlower.exists_ok
  exact ⟨ir, T', hl⟩

end Khel
