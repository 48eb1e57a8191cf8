import Khel.Proofs.Ensures
import Khel.Proofs.Program.Checkable
import Khel.Typing.Program

/-!
# Well-typed programs

In a checked program every node carries its type, and the types fit without any conversion that is not written down as
a cast. The rules refer to the symbol table for variables and functions, so they survive when the table grows.

* `SymbolTable.Extends`: a later table gives every name the type and the kind that it had.
* `SymbolTable.IsSound`: function types belong to functions and to nothing else.
* `Expr.WellTyped`, `Stmt.WellTyped`: the rules.
* `Stmt.wellTyped_mono`: what is well typed stays so.
* `Expr.WellTyped.exists_ty`: a well-typed expression has the type of a value.
-/

namespace Khel

/-! ## Symbol tables -/

/-- Two symbols have the same type and are of the same kind. -/
structure Symbol.Agrees (s s' : Symbol) : Prop where
  ty : s'.ty = s.ty
  isFunction : s'.isFunction = s.isFunction
  isStatic : s'.isStatic = s.isStatic

theorem Symbol.Agrees.rfl {s : Symbol} : s.Agrees s := ⟨Eq.refl _, Eq.refl _, Eq.refl _⟩

theorem Symbol.Agrees.trans {s s' s'' : Symbol} (h : s.Agrees s') (h' : s'.Agrees s'') : s.Agrees s'' :=
  ⟨h'.ty.trans h.ty, h'.isFunction.trans h.isFunction, h'.isStatic.trans h.isStatic⟩

/-- Function types belong to functions and to nothing else, and what a function returns is a value. -/
structure Symbol.IsSound (s : Symbol) : Prop where
  kind : s.isFunction = s.ty.isFunction
  result : ∀ params ret, s.ty = .fn params ret → ret.isFunction = false

theorem Symbol.isSound_of_value {s : Symbol} (hf : s.isFunction = false) (ht : s.ty.isFunction = false) :
    s.IsSound := by
  refine ⟨hf.trans ht.symm, fun params ret h => ?_⟩
  rw [h] at ht
  cases ht

namespace SymbolTable

/-- Every name keeps its type and its kind. -/
def Extends (T T' : SymbolTable) : Prop := ∀ x s, T.get? x = some s → ∃ s', T'.get? x = some s' ∧ s.Agrees s'

theorem Extends.rfl {T : SymbolTable} : T.Extends T := fun _ s h => ⟨s, h, .rfl⟩

theorem Extends.trans {T T' T'' : SymbolTable} (h : T.Extends T') (h' : T'.Extends T'') : T.Extends T'' := by
  intro x s hx
  obtain ⟨s', hx', hs'⟩ := h x s hx
  obtain ⟨s'', hx'', hs''⟩ := h' x s' hx'
  exact ⟨s'', hx'', hs'.trans hs''⟩

/-- A name may be given a symbol if it had none, or one that agrees with it. -/
theorem Extends.set {T : SymbolTable} {x : String} {s : Symbol} (h : ∀ s', T.get? x = some s' → s'.Agrees s) :
    Extends T (Table.set T x s) := by
  intro y s' hy
  by_cases hxy : x = y
  · subst hxy
    exact ⟨s, by simp, h s' hy⟩
  · exact ⟨s', by simpa [hxy] using hy, .rfl⟩

/-- Every symbol is sound. -/
def IsSound (T : SymbolTable) : Prop := ∀ e ∈ T.entries, e.2.IsSound

theorem mem_of_findEntry {α : Type} {x : String} {a : α} : ∀ {es : List (String × α)}, Table.findEntry? x es = some a →
    (x, a) ∈ es
  | [], h => by cases h
  | (n, b) :: rest, h => by
    unfold Table.findEntry? at h
    split at h
    · next hn =>
      cases h
      simp [hn]
    · exact List.mem_cons_of_mem _ (mem_of_findEntry h)

theorem IsSound.get {T : SymbolTable} (h : T.IsSound) {x : String} {s : Symbol} (hx : T.get? x = some s) :
    s.IsSound := h _ (mem_of_findEntry hx)

theorem mem_setEntry {α : Type} {x : String} {a : α} {e : String × α} : ∀ {es : List (String × α)},
    e ∈ Table.setEntry x a es → e = (x, a) ∨ e ∈ es
  | [], h => by simpa [Table.setEntry] using h
  | (n, b) :: rest, h => by
    unfold Table.setEntry at h
    split at h
    · next hn => exact (List.mem_cons.1 h).imp (hn ▸ ·) (List.mem_cons_of_mem _)
    · rcases List.mem_cons.1 h with h | h
      · exact .inr (List.mem_cons.2 (.inl h))
      · exact (mem_setEntry h).imp_right (List.mem_cons_of_mem _)

theorem IsSound.set {T : SymbolTable} (h : T.IsSound) (x : String) {s : Symbol} (hs : s.IsSound) :
    IsSound (Table.set T x s) := by
  intro e he
  rcases mem_setEntry he with rfl | he
  · exact hs
  · exact h e he

end SymbolTable

/-! ## Rules -/

mutual
/-- The types that an expression carries fit, and are those of the symbol table. -/
def Expr.WellTyped (T : SymbolTable) : Expr → Prop
  | .int note _ => note.ty = some .int32
  | .long note _ => note.ty = some .int64
  | .str note _ => note.ty = some .string
  | .var note x => ∃ s, T.get? x = some s ∧ s.isFunction = false ∧ note.ty = some s.ty
  | .call note f args => ∃ s params ret, T.get? f = some s ∧ s.isFunction = true ∧ s.ty = .fn params ret ∧
    note.ty = some ret ∧ Expr.AllWellTyped T params args
  | .unary note .logicalNot a => a.WellTyped T ∧ note.ty = some .int32
  | .unary note _ a => a.WellTyped T ∧ ∃ t, t.isInteger = true ∧ a.ty = some t ∧ note.ty = some t
  | .binary note (.strict (.arith _)) l r =>
    l.WellTyped T ∧ r.WellTyped T ∧ ∃ t, t.isInteger = true ∧ l.ty = some t ∧ r.ty = some t ∧ note.ty = some t
  | .binary note (.strict (.compare _)) l r =>
    l.WellTyped T ∧ r.WellTyped T ∧ (∃ t, l.ty = some t ∧ r.ty = some t) ∧ note.ty = some .int32
  | .binary note _ l r => l.WellTyped T ∧ r.WellTyped T ∧ note.ty = some .int32
  | .assign note l r =>
    l.isVar = true ∧ l.WellTyped T ∧ r.WellTyped T ∧ ∃ t, l.ty = some t ∧ r.ty = some t ∧ note.ty = some t
  | .cond note c t f =>
    c.WellTyped T ∧ t.WellTyped T ∧ f.WellTyped T ∧ ∃ ty, t.ty = some ty ∧ f.ty = some ty ∧ note.ty = some ty
  | .range note l r =>
    l.WellTyped T ∧ r.WellTyped T ∧ ∃ t, t.isInteger = true ∧ l.ty = some t ∧ r.ty = some t ∧ note.ty = some t
  -- A cast changes the width, or it would not be there.
  | .cast note target a => a.WellTyped T ∧ note.ty = some target ∧
    (a.ty = some .int32 ∧ target = .int64 ∨ a.ty = some .int64 ∧ target = .int32)

/-- Arguments have exactly the types of their parameters. -/
def Expr.AllWellTyped (T : SymbolTable) : List Ty → List Expr → Prop
  | [], [] => True
  | t :: ts, e :: es => (e.WellTyped T ∧ e.ty = some t) ∧ Expr.AllWellTyped T ts es
  | _, _ => False
end

/-- The expression is well typed and has this type. -/
def Expr.HasTy (T : SymbolTable) (e : Expr) (t : Ty) : Prop := e.WellTyped T ∧ e.ty = some t

/-- The name is a variable of this type. -/
def SymbolTable.HasVar (T : SymbolTable) (x : String) (t : Ty) : Prop :=
  ∃ s, T.get? x = some s ∧ s.isFunction = false ∧ s.ty = t

theorem SymbolTable.hasVar_set (T : SymbolTable) (x : String) {s : Symbol} (hs : s.isFunction = false) :
    HasVar (Table.set T x s) x s.ty := ⟨s, by simp, hs, rfl⟩

/-- A variable of a block has its type, and so has its initial value. -/
def VarDecl.WellTyped (T : SymbolTable) (d : VarDecl) : Prop :=
  T.HasVar d.ident.name d.type.ty ∧ ∀ e ∈ d.init, e.HasTy T d.type.ty

mutual
/-- The expressions of a statement are well typed, in a function that returns `ret`. -/
def Stmt.WellTyped (T : SymbolTable) (ret : Ty) : Stmt → Prop
  | .eval e => e.WellTyped T
  | .ret value _ => ∀ e ∈ value, e.HasTy T ret
  | .ifThen c s => c.WellTyped T ∧ s.WellTyped T ret
  | .ifElse c s t => c.WellTyped T ∧ s.WellTyped T ret ∧ t.WellTyped T ret
  | .block items => itemsWellTyped T ret items
  | .whileLoop c body _ => c.WellTyped T ∧ itemsWellTyped T ret body
  | .loop var control body _ => control.WellTyped T ∧
    (∀ i ∈ var, ∃ t, T.HasVar i.name t ∧ (control.isRange = true → control.ty = some t)) ∧ itemsWellTyped T ret body
  | .leave .. | .next .. | .skip => True

/-- The items of a block are well typed. -/
def itemsWellTyped (T : SymbolTable) (ret : Ty) : List Item → Prop
  | [] => True
  | .stmt s :: rest => s.WellTyped T ret ∧ itemsWellTyped T ret rest
  | .var d :: rest => d.WellTyped T ∧ itemsWellTyped T ret rest
  | .fn .. :: _ => False
end

/-! ## Growing tables -/

section Mono

variable {T T' : SymbolTable}

theorem SymbolTable.HasVar.mono (h : T.Extends T') {x : String} {t : Ty} (hx : T.HasVar x t) : T'.HasVar x t := by
  obtain ⟨s, hs, hf, rfl⟩ := hx
  obtain ⟨s', hs', ha⟩ := h x s hs
  exact ⟨s', hs', ha.isFunction.trans hf, ha.ty⟩

mutual
theorem Expr.wellTyped_mono (h : T.Extends T') : ∀ e : Expr, e.WellTyped T → e.WellTyped T'
  | .int .., he | .long .., he | .str .., he => he
  | .var _ x, ⟨s, hs, hf, ht⟩ => by
    obtain ⟨s', hs', ha⟩ := h x s hs
    exact ⟨s', hs', ha.isFunction.trans hf, by rw [ht, ha.ty]⟩
  | .call _ f args, ⟨s, params, ret, hs, hf, ht, hn, has⟩ => by
    obtain ⟨s', hs', ha⟩ := h f s hs
    exact ⟨s', params, ret, hs', ha.isFunction.trans hf, ha.ty.trans ht, hn, Expr.allWellTyped_mono h params args has⟩
  | .unary _ .logicalNot a, ⟨ha, ht⟩ | .unary _ .negate a, ⟨ha, ht⟩ | .unary _ .complement a, ⟨ha, ht⟩ =>
    ⟨a.wellTyped_mono h ha, ht⟩
  | .binary _ (.strict (.arith _)) l r, ⟨hl, hr, ht⟩ | .binary _ (.strict (.compare _)) l r, ⟨hl, hr, ht⟩
  | .binary _ .logicalAnd l r, ⟨hl, hr, ht⟩ | .binary _ .logicalOr l r, ⟨hl, hr, ht⟩ =>
    ⟨l.wellTyped_mono h hl, r.wellTyped_mono h hr, ht⟩
  | .assign _ l r, ⟨hv, hl, hr, ht⟩ => ⟨hv, l.wellTyped_mono h hl, r.wellTyped_mono h hr, ht⟩
  | .cond _ c t f, ⟨hc, ht, hf, hty⟩ => ⟨c.wellTyped_mono h hc, t.wellTyped_mono h ht, f.wellTyped_mono h hf, hty⟩
  | .range _ l r, ⟨hl, hr, ht⟩ => ⟨l.wellTyped_mono h hl, r.wellTyped_mono h hr, ht⟩
  | .cast _ _ a, ⟨ha, ht⟩ => ⟨a.wellTyped_mono h ha, ht⟩

theorem Expr.allWellTyped_mono (h : T.Extends T') : ∀ (ts : List Ty) (es : List Expr), Expr.AllWellTyped T ts es →
    Expr.AllWellTyped T' ts es
  | [], [], _ => trivial
  | _ :: ts, e :: es, ⟨⟨he, ht⟩, hes⟩ => ⟨⟨e.wellTyped_mono h he, ht⟩, Expr.allWellTyped_mono h ts es hes⟩
end

theorem Expr.HasTy.mono (h : T.Extends T') {e : Expr} {t : Ty} (he : e.HasTy T t) : e.HasTy T' t :=
  ⟨e.wellTyped_mono h he.1, he.2⟩

theorem VarDecl.WellTyped.mono (h : T.Extends T') {d : VarDecl} (hd : d.WellTyped T) : d.WellTyped T' :=
  ⟨hd.1.mono h, fun e he => (hd.2 e he).mono h⟩

mutual
/-- What is well typed stays so when the table grows. -/
theorem Stmt.wellTyped_mono (h : T.Extends T') {ret : Ty} : ∀ s : Stmt, s.WellTyped T ret → s.WellTyped T' ret
  | .eval e, hs => e.wellTyped_mono h hs
  | .ret .., hs => fun e he => (hs e he).mono h
  | .ifThen c s, ⟨hc, hs⟩ => ⟨c.wellTyped_mono h hc, s.wellTyped_mono h hs⟩
  | .ifElse c s t, ⟨hc, hs, ht⟩ => ⟨c.wellTyped_mono h hc, s.wellTyped_mono h hs, t.wellTyped_mono h ht⟩
  | .block items, hs => itemsWellTyped_mono h items hs
  | .whileLoop c body _, ⟨hc, hb⟩ => ⟨c.wellTyped_mono h hc, itemsWellTyped_mono h body hb⟩
  | .loop _ control body _, ⟨hc, hv, hb⟩ => by
    refine ⟨control.wellTyped_mono h hc, fun i hi => ?_, itemsWellTyped_mono h body hb⟩
    obtain ⟨t, ht, hr⟩ := hv i hi
    exact ⟨t, ht.mono h, hr⟩
  | .leave .., _ | .next .., _ | .skip, _ => trivial

theorem itemsWellTyped_mono (h : T.Extends T') {ret : Ty} : ∀ items : List Item, itemsWellTyped T ret items →
    itemsWellTyped T' ret items
  | [], _ => trivial
  | .stmt s :: rest, ⟨hs, hr⟩ => ⟨s.wellTyped_mono h hs, itemsWellTyped_mono h rest hr⟩
  | .var _ :: rest, ⟨hd, hr⟩ => ⟨hd.mono h, itemsWellTyped_mono h rest hr⟩
end

end Mono

/-! ## Types of values -/

theorem Ty.isFunction_of_isInteger {t : Ty} (h : t.isInteger = true) : t.isFunction = false := by
  cases t <;> simp_all [Ty.isInteger, Ty.isFunction]

/-- A well-typed expression has a type, and its values are no functions. -/
theorem Expr.WellTyped.exists_ty {T : SymbolTable} (hT : T.IsSound) : ∀ e : Expr, e.WellTyped T →
    ∃ t, e.ty = some t ∧ t.isFunction = false
  | .int .., ht | .long .., ht | .str .., ht => ⟨_, ht, rfl⟩
  | .var .., ⟨s, hs, hf, ht⟩ => ⟨s.ty, ht, (hT.get hs).kind ▸ hf⟩
  | .call .., ⟨_, params, ret, hs, _, hty, ht, _⟩ => ⟨ret, ht, (hT.get hs).result params ret hty⟩
  | .unary _ .logicalNot _, ⟨_, ht⟩ => ⟨_, ht, rfl⟩
  | .unary _ .negate _, ⟨_, t, hi, _, ht⟩ | .unary _ .complement _, ⟨_, t, hi, _, ht⟩ =>
    ⟨t, ht, Ty.isFunction_of_isInteger hi⟩
  | .binary _ (.strict (.arith _)) _ _, ⟨_, _, t, hi, _, _, ht⟩ => ⟨t, ht, Ty.isFunction_of_isInteger hi⟩
  | .binary _ (.strict (.compare _)) _ _, ⟨_, _, _, ht⟩ => ⟨_, ht, rfl⟩
  | .binary _ .logicalAnd _ _, ⟨_, _, ht⟩ | .binary _ .logicalOr _ _, ⟨_, _, ht⟩ => ⟨_, ht, rfl⟩
  | .assign _ _ r, ⟨_, _, hr, t, _, hrt, ht⟩ => by
    obtain ⟨u, hu, hf⟩ := Expr.WellTyped.exists_ty hT r hr
    cases hu.symm.trans hrt
    exact ⟨t, ht, hf⟩
  | .cond _ _ t _, ⟨_, ht, _, ty, htt, _, hty⟩ => by
    obtain ⟨u, hu, hf⟩ := Expr.WellTyped.exists_ty hT t ht
    cases hu.symm.trans htt
    exact ⟨ty, hty, hf⟩
  | .range .., ⟨_, _, t, hi, _, _, ht⟩ => ⟨t, ht, Ty.isFunction_of_isInteger hi⟩
  | .cast .., ⟨_, ht, h⟩ => by
    rcases h with ⟨_, rfl⟩ | ⟨_, rfl⟩
    · exact ⟨_, ht, rfl⟩
    · exact ⟨_, ht, rfl⟩

theorem Expr.HasTy.isValue {T : SymbolTable} (hT : T.IsSound) {e : Expr} {t : Ty} (h : e.HasTy T t) :
    t.isFunction = false := by
  obtain ⟨u, hu, hf⟩ := Expr.WellTyped.exists_ty hT e h.1
  cases hu.symm.trans h.2
  exact hf

theorem Expr.WellTyped.hasTy {T : SymbolTable} (hT : T.IsSound) {e : Expr} (h : e.WellTyped T) : ∃ t, e.HasTy T t := by
  obtain ⟨t, ht, _⟩ := Expr.WellTyped.exists_ty hT e h
  exact ⟨t, h, ht⟩

end Khel
