import Khel.Proofs.Assembly.Symbols

/-!
# Names that a replacement leaves

The names of functions and static variables reach the output, so a replacement has to leave them. If it leaves the names
that a program declares with a storage, it leaves all names in the symbol table that are not automatic.

* `SymbolTable.FixedBy`: the replacement leaves every name of the table that is not automatic.
* `Program.check_fixed`, `Program.lower_fixed`: this holds of the tables behind checking and behind lowering.
-/

namespace Khel

variable {ρ : String → String}

/-! ## Tables -/

/-- The replacement leaves the names of functions and static variables. -/
def SymbolTable.FixedBy (ρ : String → String) (T : SymbolTable) : Prop :=
  ∀ e ∈ T.entries, e.2.role ≠ .automatic → ρ e.1 = e.1

namespace SymbolTable.FixedBy

variable {T : SymbolTable}

theorem empty : FixedBy ρ Table.empty := by simp [FixedBy, Table.empty]

theorem get? (h : T.FixedBy ρ) {x : String} {s : Symbol} (hx : T.get? x = some s) (hs : s.role ≠ .automatic) :
    ρ x = x := h (x, s) (mem_of_findEntry hx) hs

theorem set (h : T.FixedBy ρ) {x : String} {s : Symbol} (hx : s.role ≠ .automatic → ρ x = x) :
    FixedBy ρ (Table.set T x s) := by
  intro e he hrole
  rcases mem_setEntry he with rfl | he
  · exact hx hrole
  · exact h e he hrole

/-- What is called keeps its name. -/
theorem function (h : T.FixedBy ρ) {x : String} (hx : (T.get? x).any Symbol.isFunction = true) : ρ x = x := by
  obtain ⟨s, hs, hfunction⟩ := (Option.any_eq_true _ _).1 hx
  apply h.get? hs
  intro hrole
  simp [Symbol.isFunction, hrole] at hfunction

end SymbolTable.FixedBy

/-! ## Checking -/

/-- The replacement leaves the names that are declared with a storage. -/
def FixesKept (ρ : String → String) (names : List (String × Option Storage)) : Prop :=
  ∀ e ∈ names, e.2 ≠ none → ρ e.1 = e.1

/-- The step keeps the table fixed. -/
def Checking.Fixes {α : Type} (ρ : String → String) (m : Checking α) : Prop :=
  ∀ T : SymbolTable, T.FixedBy ρ → Ensures m T (fun _ => True) fun _ T' => SymbolTable.FixedBy ρ T'

namespace Checking

variable {α β : Type} {m : Checking α} {f : α → Checking β}

theorem Fixes.pure (a : α) : Fixes ρ (Pure.pure a : Checking α) := fun _ h => Ensures.pure h

theorem Fixes.throw (e : CompileError) : Fixes ρ (MonadExcept.throw e : Checking α) := fun _ _ => Ensures.throw trivial

theorem Fixes.bind (hm : Fixes ρ m) (hf : ∀ a, Fixes ρ (f a)) : Fixes ρ (m >>= f) :=
  fun T hT => Ensures.bind (hm T hT) fun a T' hT' => hf a T' hT'

theorem Fixes.get_bind {f : SymbolTable → Checking β} (hf : ∀ T, Fixes ρ (f T)) : Fixes ρ (MonadState.get >>= f) :=
  fun T hT => Ensures.get_bind (hf T T hT)

theorem lift_fixes (x : Except CompileError α) : Fixes ρ (liftM x : Checking α) := by
  intro T hT
  cases x with
  | ok a => exact Ensures.pure hT
  | error e => exact Ensures.throw trivial

theorem enter_fixes {x : String} {s : Symbol} (hx : s.role ≠ .automatic → ρ x = x) : Fixes ρ (enter x s) :=
  fun _ hT => hT.set hx

theorem enter_automatic (x : String) (ty : Ty) : Fixes ρ (enter x ⟨ty, .automatic⟩) :=
  enter_fixes fun h => absurd rfl h

theorem expr_fixes (e : Expr) : Fixes ρ (expr e) := .get_bind fun T => lift_fixes (e.check T)

theorem exprAs_fixes (target : Ty) (e : Expr) : Fixes ρ (exprAs target e) :=
  .bind (expr_fixes e) fun e' => lift_fixes (e'.convert target)

theorem staticInit_fixes (name : String) (ty : Ty) (e : Expr) : Fixes ρ (staticInit name ty e) := by
  unfold staticInit
  split
  · exact .throw _
  · exact .bind (exprAs_fixes ty e) fun _ => .pure _

end Checking

open Checking

theorem VarDecl.checkLocal_fixes (d : VarDecl) (h : d.storage ≠ none → ρ d.ident.name = d.ident.name) :
    Fixes ρ d.checkLocal := by
  unfold checkLocal
  split
  · next hs =>
    unfold checkExternal
    split
    · exact .throw _
    · apply Fixes.get_bind
      intro T
      split
      · split
        · exact .throw _
        · exact .pure _
      · exact .bind (enter_fixes fun _ => h (by simp [hs])) fun _ => .pure _
  · next hs =>
    unfold checkStatic
    split
    · exact .bind (enter_fixes fun _ => h (by simp [hs])) fun _ => .pure _
    · apply Fixes.bind (staticInit_fixes _ _ _)
      intro r
      exact .bind (enter_fixes fun _ => h (by simp [hs])) fun _ => .pure _
  · apply Fixes.bind (enter_automatic _ _)
    intro _
    split
    · exact .pure _
    · exact .bind (exprAs_fixes _ _) fun _ => .pure _

mutual
theorem Stmt.check_fixes (ret : Ty) : ∀ s : Stmt, FixesKept ρ s.storages → Fixes ρ (s.check ret)
  | .eval e, _ => by
    rw [Stmt.check]
    exact .bind (expr_fixes e) fun _ => .pure _
  | .ret none _, _ | .leave .., _ | .next .., _ | .skip, _ => by
    rw [Stmt.check]
    exact .pure _
  | .ret (some e) _, _ => by
    rw [Stmt.check]
    exact .bind (exprAs_fixes ret e) fun _ => .pure _
  | .ifThen c s, h => by
    rw [Stmt.check]
    exact .bind (expr_fixes c) fun _ => .bind (s.check_fixes ret h) fun _ => .pure _
  | .ifElse c s t, h => by
    rw [Stmt.check]
    obtain ⟨hs, ht⟩ := List.forall_mem_append.1 h
    apply Fixes.bind (expr_fixes c)
    intro _
    exact .bind (s.check_fixes ret hs) fun _ => .bind (t.check_fixes ret ht) fun _ => .pure _
  | .block items, h => by
    rw [Stmt.check]
    exact .bind (checkItems_fixes ret items h) fun _ => .pure _
  | .whileLoop c body _, h => by
    rw [Stmt.check]
    exact .bind (expr_fixes c) fun _ => .bind (checkItems_fixes ret body h) fun _ => .pure _
  | .loop none control body _, h => by
    rw [Stmt.check]
    exact .bind (expr_fixes control) fun _ => .bind (checkItems_fixes ret body h) fun _ => .pure _
  | .loop (some ident) control body _, h => by
    rw [Stmt.check]
    have hbody := (List.forall_mem_cons.1 h).2
    apply Fixes.bind (expr_fixes control)
    intro control'
    apply Fixes.bind (lift_fixes control'.counterTy)
    intro _
    apply Fixes.bind (enter_automatic _ _)
    intro _
    exact .bind (checkItems_fixes ret body hbody) fun _ => .pure _

theorem checkItems_fixes (ret : Ty) : ∀ items : List Item, FixesKept ρ (itemsStorages items) →
    Fixes ρ (checkItems ret items)
  | [], _ => by
    rw [checkItems]
    exact .pure _
  | .stmt s :: rest, h => by
    rw [checkItems]
    obtain ⟨hs, hr⟩ := List.forall_mem_append.1 h
    exact .bind (s.check_fixes ret hs) fun _ => .bind (checkItems_fixes ret rest hr) fun _ => .pure _
  | .var d :: rest, h => by
    rw [checkItems]
    obtain ⟨hd, hr⟩ := List.forall_mem_cons.1 h
    exact .bind (d.checkLocal_fixes hd) fun _ => .bind (checkItems_fixes ret rest hr) fun _ => .pure _
  | .fn .. :: _, _ => by
    rw [checkItems]
    exact .throw _
end

theorem Param.enterAll_fixes : ∀ params : List Param, Fixes ρ (Param.enterAll params)
  | [] => .pure _
  | p :: ps => .bind (enter_automatic p.ident.name _) fun _ => Param.enterAll_fixes ps

theorem Decl.check_fixes : ∀ d : Decl, FixesKept ρ d.storages → Fixes ρ d.check
  | .fn head none, h => by
    rw [Decl.check]
    obtain ⟨hname, _⟩ := List.forall_mem_cons.1 h
    apply Fixes.get_bind
    intro T
    apply Fixes.bind (lift_fixes _)
    intro symbol
    apply Fixes.bind (enter_fixes fun _ => hname (by simp))
    intro _
    exact .bind (Param.enterAll_fixes head.params) fun _ => .pure _
  | .fn head (some items), h => by
    rw [Decl.check]
    obtain ⟨hname, h⟩ := List.forall_mem_cons.1 h
    have hitems := (List.forall_mem_append.1 h).2
    apply Fixes.get_bind
    intro T
    apply Fixes.bind (lift_fixes _)
    intro symbol
    apply Fixes.bind (enter_fixes fun _ => hname (by simp))
    intro _
    apply Fixes.bind (Param.enterAll_fixes head.params)
    intro _
    exact .bind (checkItems_fixes head.ret.ty items hitems) fun _ => .pure _
  | .var d, h => by
    rw [Decl.check]
    have hname : ρ d.ident.name = d.ident.name := h _ List.mem_cons_self (by simp)
    split
    · apply Fixes.get_bind
      intro T
      exact .bind (lift_fixes _) fun _ => .bind (enter_fixes fun _ => hname) fun _ => .pure _
    · apply Fixes.bind (staticInit_fixes _ _ _)
      intro r
      apply Fixes.get_bind
      intro T
      exact .bind (lift_fixes _) fun _ => .bind (enter_fixes fun _ => hname) fun _ => .pure _

theorem checkDecls_fixes : ∀ ds : List Decl, FixesKept ρ (ds.flatMap Decl.storages) → Fixes ρ (checkDecls ds)
  | [], _ => by
    rw [checkDecls]
    exact .pure _
  | d :: ds, h => by
    rw [checkDecls]
    rw [List.flatMap_cons] at h
    obtain ⟨hd, hds⟩ := List.forall_mem_append.1 h
    exact .bind (d.check_fixes hd) fun _ => .bind (checkDecls_fixes ds hds) fun _ => .pure _

/-- The replacement leaves what is not automatic in the table of a checked program. -/
theorem Program.check_fixed {p : Program} (h : FixesKept ρ p.storages) {q : Program} {T : SymbolTable}
    (hcheck : p.check = .ok (q, T)) : T.FixedBy ρ := by
  obtain ⟨⟨ds, T'⟩, hrun, hq⟩ := Except.exists_of_bind hcheck
  cases hq
  exact (checkDecls_fixes p.decls h .empty .empty).of_ok hrun

/-! ## Lowering -/

open Ir

theorem Ir.LoweringState.Reaches.fixed {st st' : LoweringState} (h : st.Reaches st') (hst : st.symbols.FixedBy ρ) :
    st'.symbols.FixedBy ρ := by
  refine h.keeps (P := fun st => st.symbols.FixedBy ρ) ?_ hst
  intro st st' hstep hst
  cases hstep with
  | temp ty => exact hst.set fun h => absurd rfl h
  | label => exact hst

/-- The replacement leaves what is not automatic in the table behind lowering, and the names of all that is defined. -/
theorem Program.lower_fixed {q : Program} {T T' : SymbolTable} {ir : Ir.Program} (hT : T.FixedBy ρ)
    (h : q.lower T = .ok (ir, T')) : T'.FixedBy ρ ∧ (∀ v ∈ ir.statics, ρ v.name = v.name) ∧
      ∀ f ∈ ir.functions, ρ f.name = f.name := by
  obtain ⟨st, _, rfl, hstatics, hreaches, hsaw⟩ := Program.lower_mints h
  have hst : st.symbols.FixedBy ρ := hreaches.fixed hT
  refine ⟨hst, ?_, ?_⟩
  · intro v hv
    rw [hstatics] at hv
    obtain ⟨e, he, hv⟩ := List.mem_filterMap.1 hv
    obtain ⟨hname, hstatic⟩ := Symbol.name_staticVar? hv
    rw [hname]
    apply hst e he
    intro hrole
    simp [Symbol.isStatic, hrole] at hstatic
  · intro f hf
    obtain ⟨st₁, hbefore, _, hfound⟩ := hsaw f hf
    exact (hbefore.fixed hT).function hfound

end Khel
