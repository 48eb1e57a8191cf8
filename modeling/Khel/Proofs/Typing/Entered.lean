import Khel.Proofs.Analysis
import Khel.Proofs.Naming.Linked

/-!
# The names in the symbol table

Checking enters every name that is declared, and no other. This holds of every accepted program, whatever its names look
like and whether there are casts in it.

* `checkDecls_lists`: the names that checking enters.
* `Program.analyze_names`: the names in the table of an accepted program, and that none is listed twice.
-/

namespace Khel

/-! ## Steps of checking -/

/-- The table `T'` has the names of `T` and those declared, and lists none of them twice if `T` did not. -/
structure SymbolTable.Grows (T : SymbolTable) (own linked : List String) (T' : SymbolTable) : Prop where
  mem : ∀ x, x ∈ T'.names ↔ x ∈ T.names ∨ x ∈ own ∨ x ∈ linked
  nodup : T.names.Nodup → T'.names.Nodup

/-- If the step ends well, it has entered these names. -/
def Checking.Lists {α : Type} (m : Checking α) (own linked : List String) : Prop :=
  ∀ T : SymbolTable, Ensures m T (fun _ => True) fun _ T' => T.Grows own linked T'

namespace Checking

variable {α β : Type} {m : Checking α} {f : α → Checking β} {own own' linked linked' : List String}

theorem Lists.pure (a : α) : Lists (Pure.pure a : Checking α) [] [] := fun _ => Ensures.pure ⟨by simp, id⟩

theorem Lists.throw (e : CompileError) : Lists (MonadExcept.throw e : Checking α) own linked :=
  fun _ => Ensures.throw trivial

theorem Lists.bind (hm : Lists m own linked) (hf : ∀ a, Lists (f a) own' linked') :
    Lists (m >>= f) (own ++ own') (linked ++ linked') := by
  refine fun T => Ensures.bind (hm T) fun a T₁ h₁ => (hf a T₁).mono fun _ T' h' => ⟨fun x => ?_, h'.nodup ∘ h₁.nodup⟩
  simp only [h'.mem, h₁.mem, List.mem_append]
  tauto

/-- What follows enters no name. -/
theorem Lists.last (hm : Lists m own linked) (hf : ∀ a, Lists (f a) [] []) : Lists (m >>= f) own linked := by
  simpa using hm.bind hf

/-- What comes first enters no name. -/
theorem Lists.first (hm : Lists m [] []) (hf : ∀ a, Lists (f a) own linked) : Lists (m >>= f) own linked := hm.bind hf

theorem Lists.get_bind {f : SymbolTable → Checking β} (hf : ∀ T, Lists (f T) own linked) :
    Lists (MonadState.get >>= f) own linked := fun T => Ensures.get_bind (hf T T)

theorem lift_lists (x : Except CompileError α) : Lists (liftM x : Checking α) [] [] := by
  intro T
  cases x with
  | ok a => exact Lists.pure a T
  | error e => exact Lists.throw e T

theorem enter_own (x : String) (s : Symbol) : Lists (enter x s) [x] [] := by
  intro T
  have h : T.Grows [x] [] (Table.set T x s) := ⟨by simp [Table.mem_names_set], T.nodup_names_set x s⟩
  exact h

theorem enter_linked (x : String) (s : Symbol) : Lists (enter x s) [] [x] := by
  intro T
  have h : T.Grows [] [x] (Table.set T x s) := ⟨by simp [Table.mem_names_set], T.nodup_names_set x s⟩
  exact h

theorem expr_lists (e : Expr) : Lists (expr e) [] [] := .get_bind fun T => lift_lists (e.check T)

theorem exprAs_lists (target : Ty) (e : Expr) : Lists (exprAs target e) [] [] :=
  .first (expr_lists e) fun e' => lift_lists (e'.convert target)

theorem staticInit_lists (name : String) (ty : Ty) (e : Expr) : Lists (staticInit name ty e) [] [] := by
  unfold staticInit
  split
  · exact .throw _
  · exact .first (exprAs_lists ty e) fun _ => .pure _

end Checking

open Checking

/-! ## Statements -/

namespace VarDecl

theorem checkExternal_lists (d : VarDecl) : Lists d.checkExternal [] [d.ident.name] := by
  unfold checkExternal
  split
  · exact .throw _
  · intro T
    refine Ensures.get_bind ?_
    split
    · next prior hp =>
      split
      · exact Ensures.throw trivial
      · -- The name is there already.
        have hmem : d.ident.name ∈ T.names := Table.mem_names_iff.2 (by rw [hp]; rfl)
        refine Ensures.pure ⟨fun x => ⟨.inl, ?_⟩, id⟩
        simp only [List.not_mem_nil, List.mem_singleton, false_or]
        rintro (h | rfl)
        · exact h
        · exact hmem
    · exact (enter_linked d.ident.name _).last (fun _ => .pure d) T

theorem checkStatic_lists (d : VarDecl) : Lists d.checkStatic [d.ident.name] [] := by
  unfold checkStatic
  split
  · exact .last (enter_own _ _) fun _ => .pure _
  · exact .first (staticInit_lists _ _ _) fun _ => .last (enter_own _ _) fun _ => .pure _

theorem checkAutomatic_lists (d : VarDecl) : Lists d.checkAutomatic [d.ident.name] [] := by
  refine .last (enter_own _ _) fun _ => ?_
  split
  · exact .pure _
  · exact .first (exprAs_lists _ _) fun _ => .pure _

theorem checkLocal_lists (d : VarDecl) : Lists d.checkLocal d.ownNames d.linkedNames := by
  unfold checkLocal ownNames linkedNames isExternal
  split
  · next hs => simpa [hs] using d.checkExternal_lists
  · next hs => simpa [hs] using d.checkStatic_lists
  · next hs => simpa [hs] using d.checkAutomatic_lists

end VarDecl

mutual
theorem Stmt.check_lists (ret : Ty) : ∀ s : Stmt, Lists (s.check ret) s.ownNames s.linkedNames
  | .eval e => by
    rw [Stmt.check]
    exact .first (expr_lists e) fun _ => .pure _
  | .ret none _ | .leave .. | .next .. | .skip => by
    rw [Stmt.check]
    exact .pure _
  | .ret (some e) _ => by
    rw [Stmt.check]
    exact .first (exprAs_lists ret e) fun _ => .pure _
  | .ifThen c s => by
    rw [Stmt.check]
    exact .first (expr_lists c) fun _ => .last (s.check_lists ret) fun _ => .pure _
  | .ifElse c s t => by
    rw [Stmt.check]
    exact .first (expr_lists c) fun _ => .bind (s.check_lists ret) fun _ => .last (t.check_lists ret) fun _ => .pure _
  | .block items => by
    rw [Stmt.check]
    exact .last (checkItems_lists ret items) fun _ => .pure _
  | .whileLoop c body _ => by
    rw [Stmt.check]
    exact .first (expr_lists c) fun _ => .last (checkItems_lists ret body) fun _ => .pure _
  | .loop none control body _ => by
    rw [Stmt.check]
    exact .first (expr_lists control) fun _ => .last (checkItems_lists ret body) fun _ => .pure _
  | .loop (some ident) control body _ => by
    rw [Stmt.check]
    refine .first (expr_lists control) fun control' => .first (lift_lists control'.counterTy) fun _ => ?_
    exact .bind (enter_own ident.name _) fun _ => .last (checkItems_lists ret body) fun _ => .pure _

theorem checkItems_lists (ret : Ty) : ∀ items : List Item,
    Lists (checkItems ret items) (itemsOwnNames items) (itemsLinkedNames items)
  | [] => by
    rw [checkItems]
    exact .pure _
  | .stmt s :: rest => by
    rw [checkItems]
    exact .bind (s.check_lists ret) fun _ => .last (checkItems_lists ret rest) fun _ => .pure _
  | .var d :: rest => by
    rw [checkItems]
    exact .bind d.checkLocal_lists fun _ => .last (checkItems_lists ret rest) fun _ => .pure _
  | .fn .. :: _ => by
    rw [checkItems]
    exact .throw _
end

/-! ## Programs -/

theorem Param.enterAll_lists : ∀ params : List Param, Lists (Param.enterAll params) (paramNames params) []
  | [] => .pure _
  | p :: ps => .bind (enter_own p.ident.name _) fun _ => Param.enterAll_lists ps

theorem Decl.check_lists : ∀ d : Decl, Lists d.check d.ownNames d.linkedNames
  | .fn head none => by
    rw [Decl.check]
    refine .get_bind fun T => .first (lift_lists _) fun _ => .bind (enter_linked head.ident.name _) fun _ => ?_
    exact .bind (Param.enterAll_lists head.params) fun _ => .pure _
  | .fn head (some items) => by
    rw [Decl.check]
    refine .get_bind fun T => .first (lift_lists _) fun _ => .bind (enter_linked head.ident.name _) fun _ => ?_
    exact .bind (Param.enterAll_lists head.params) fun _ => .last (checkItems_lists head.ret.ty items) fun _ => .pure _
  | .var d => by
    rw [Decl.check]
    split
    · exact .get_bind fun T => .first (lift_lists _) fun _ => .last (enter_linked d.ident.name _) fun _ => .pure _
    · refine .first (staticInit_lists _ _ _) fun _ => .get_bind fun T => .first (lift_lists _) fun _ => ?_
      exact .last (enter_linked d.ident.name _) fun _ => .pure _

/-- Checking enters the names that are declared. -/
theorem checkDecls_lists : ∀ ds : List Decl,
    Lists (checkDecls ds) (ds.flatMap Decl.ownNames) (ds.flatMap Decl.linkedNames)
  | [] => by
    rw [checkDecls]
    exact .pure _
  | d :: ds => by
    rw [checkDecls]
    exact .bind d.check_lists fun _ => .last (checkDecls_lists ds) fun _ => .pure _

/-- A step that can only reject, if it does not matter how steps fail. -/
theorem Yields.rejecting {α : Type} {x : Except Rejection α} {R : α → Prop} (hx : Yields x (fun _ => True) R) :
    Yields (liftM x : Except CompileError α) (fun _ => True) R := by
  cases x with
  | ok a => exact hx
  | error e => trivial

/-- The table of an accepted program has its variables under their numbers, and its linked names. Every function with a
body has a name of its own. -/
theorem Program.analyze_names (p : Program) : Yields p.analyze (fun _ => True) fun r =>
    (∀ x, x ∈ r.2.names ↔ x ∈ numberFrom 0 p.ownNames ∨ x ∈ p.linkedNames) ∧ r.2.names.Nodup ∧
      (r.1.decls.filterMap Decl.definedName?).Nodup := by
  unfold Program.analyze
  refine .bind (p.resolve_yields.and p.resolve_linked).rejecting fun p₁ ⟨⟨hown₁, _, hdef₁⟩, hlinked₁⟩ => ?_
  refine .bind (p₁.labelLoops_yields.and p₁.labelLoops_linked).rejecting ?_
  rintro p₂ ⟨⟨_, _, hown₂, hdef₂, _⟩, hlinked₂⟩
  refine .bind (Yields.and (checkDecls_lists p₂.decls Table.empty) (checkDecls_loops p₂.decls Table.empty)) ?_
  rintro ⟨ds, T⟩ ⟨hlists, _, hdef₃, _⟩
  refine .pure ⟨fun x => ?_, hlists.nodup List.nodup_nil, ?_⟩
  · rw [hlists.mem x]
    change x ∈ [] ∨ x ∈ p₂.ownNames ∨ x ∈ p₂.linkedNames ↔ _
    rw [hown₂, hown₁, hlinked₂, hlinked₁]
    simp
  · rw [hdef₃, hdef₂]
    exact hdef₁

end Khel
