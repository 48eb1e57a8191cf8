import Khel.Proofs.Naming.Labelled
import Khel.Proofs.Naming.Resolved
import Khel.Proofs.Program.Storages
import Khel.Proofs.Typing.CheckedLoops

/-!
# Linked names stay

Neither resolution nor labelling touches a linked name, so the functions, the variables of the top level and the
external variables of a program are declared under the names that its text gives them.

* `Program.resolve_linked`, `Program.labelLoops_linked`: of whole programs.
* `Program.labelLoops_storages`: labelling leaves all declared names, with their storage.
-/

namespace Khel

/-! ## Resolution -/

theorem VarDecl.resolve_linked (scope : Scope) (d : VarDecl) (n : Nat) :
    Ensures (d.resolve scope) n (fun _ => True) fun r _ => r.1.linkedNames = d.linkedNames := by
  unfold VarDecl.resolve
  split
  · split
    · exact .throw trivial
    · exact .pure rfl
  · next hx =>
    refine .bind (.any _ n) fun r n' _ => .bind (.any _ n') fun init _ _ => .pure ?_
    have hx' : ¬ VarDecl.isExternal { d with ident := r.1, init } := hx
    simp only [linkedNames, if_neg hx, if_neg hx']

mutual
theorem Stmt.resolve_linked : ∀ (scope : Scope) (s : Stmt) (n : Nat),
    Ensures (s.resolve scope) n (fun _ => True) fun s' _ => s'.linkedNames = s.linkedNames
  | scope, .eval e, n => by
    rw [Stmt.resolve]
    exact .bind (.any _ n) fun _ _ _ => .pure rfl
  | scope, .ret value span, n => by
    rw [Stmt.resolve]
    exact .bind (.any _ n) fun _ _ _ => .pure rfl
  | scope, .ifThen c s, n => by
    rw [Stmt.resolve]
    exact .bind (.any _ n) fun _ n₁ _ => .bind (s.resolve_linked scope n₁) fun _ _ hs => .pure hs
  | scope, .ifElse c s t, n => by
    rw [Stmt.resolve]
    refine .bind (.any _ n) fun _ n₁ _ => .bind (s.resolve_linked scope n₁) fun _ n₂ hs => ?_
    refine .bind (t.resolve_linked scope n₂) fun _ _ ht => .pure ?_
    simp only [Stmt.linkedNames, hs, ht]
  | scope, .block items, n => by
    rw [Stmt.resolve]
    exact .bind (resolveItems_linked scope.enter items n) fun _ _ hi => .pure hi
  | scope, .whileLoop c body id, n => by
    rw [Stmt.resolve]
    exact .bind (.any _ n) fun _ n₁ _ => .bind (resolveItems_linked scope.enter body n₁) fun _ _ hb => .pure hb
  | scope, .loop var control body id, n => by
    rw [Stmt.resolve]
    refine .bind (.any _ n) fun _ n₁ _ => .bind (.any _ n₁) fun r n₂ _ => ?_
    exact .bind (resolveItems_linked r.2 body n₂) fun _ _ hb => .pure hb
  | _, .leave .., n | _, .next .., n | _, .skip, n => by
    rw [Stmt.resolve]
    exact .pure rfl

theorem resolveItems_linked : ∀ (scope : Scope) (items : List Item) (n : Nat),
    Ensures (resolveItems scope items) n (fun _ => True) fun items' _ =>
      itemsLinkedNames items' = itemsLinkedNames items
  | scope, [], n => by
    rw [resolveItems]
    exact .pure rfl
  | scope, .stmt s :: rest, n => by
    rw [resolveItems]
    refine .bind (s.resolve_linked scope n) fun _ n₁ hs => .bind (resolveItems_linked scope rest n₁) fun _ _ hr => ?_
    exact .pure (by simp only [itemsLinkedNames, hs, hr])
  | scope, .var d :: rest, n => by
    rw [resolveItems]
    refine .bind (d.resolve_linked scope n) fun r n₁ hd => .bind (resolveItems_linked r.2 rest n₁) fun _ _ hr => ?_
    exact .pure (by simp only [itemsLinkedNames, hd, hr])
  | _, .fn .. :: _, n => by
    rw [resolveItems]
    exact .throw trivial
end

theorem Decl.resolve_linked (top : TopLevel) (d : Decl) (n : Nat) :
    Ensures (d.resolve top) n (fun _ => True) fun r _ => r.1.linkedNames = d.linkedNames := by
  cases d with
  | fn head body =>
    unfold Decl.resolve
    dsimp only
    split
    · exact .throw trivial
    · refine .bind (.any _ n) fun r n₁ _ => ?_
      cases body with
      | none => exact .pure rfl
      | some items =>
        refine .bind (resolveItems_linked r.2 items n₁) fun _ _ hi => .pure ?_
        simp only [Decl.linkedNames, Option.map_some, Option.getD_some, hi]
  | var d => exact .bind (.any _ n) fun _ _ _ => .pure rfl

theorem resolveDecls_linked : ∀ (top : TopLevel) (ds : List Decl) (n : Nat),
    Ensures (resolveDecls top ds) n (fun _ => True) fun ds' _ =>
      ds'.flatMap Decl.linkedNames = ds.flatMap Decl.linkedNames
  | top, [], n => by
    rw [resolveDecls]
    exact .pure rfl
  | top, d :: ds, n => by
    rw [resolveDecls]
    refine .bind (d.resolve_linked top n) fun r n₁ hd => .bind (resolveDecls_linked r.2 ds n₁) fun _ _ hds => ?_
    exact .pure (by simp only [List.flatMap_cons, hd, hds])

theorem Program.resolve_linked (p : Program) :
    Yields p.resolve (fun _ => True) fun p' => p'.linkedNames = p.linkedNames :=
  .bind (Ensures.run' (resolveDecls_linked {} p.decls 0)) fun _ h => .pure h

/-! ## Labelling

Labelling touches no declaration at all. -/

mutual
theorem Stmt.labelLoops_storages : ∀ (current : Option String) (s : Stmt) (n : Nat),
    Ensures (s.labelLoops current) n (fun _ => True) fun s' _ => s'.storages = s.storages
  | _, .eval _, n | _, .ret .., n | _, .skip, n => by
    rw [Stmt.labelLoops]
    exact .pure rfl
  | current, .ifThen c s, n => by
    rw [Stmt.labelLoops]
    exact .bind (s.labelLoops_storages current n) fun _ _ hs => .pure hs
  | current, .ifElse c s t, n => by
    rw [Stmt.labelLoops]
    apply Ensures.bind (s.labelLoops_storages current n)
    intro s' n₁ hs
    apply Ensures.bind (t.labelLoops_storages current n₁)
    intro t' n₂ ht
    exact .pure (by simp only [Stmt.storages, hs, ht])
  | current, .block items, n => by
    rw [Stmt.labelLoops]
    exact .bind (labelItems_storages current items n) fun _ _ hi => .pure hi
  | current, .whileLoop c body _, n => by
    rw [Stmt.labelLoops]
    exact .bind (.any _ n) fun id n₁ _ => .bind (labelItems_storages (some id) body n₁) fun _ _ hb => .pure hb
  | current, .loop var control body _, n => by
    rw [Stmt.labelLoops]
    apply Ensures.bind (.any _ n)
    intro id n₁ _
    apply Ensures.bind (labelItems_storages (some id) body n₁)
    intro body' n₂ hb
    exact .pure (by simp only [Stmt.storages, hb])
  | some id, .leave .., n | some id, .next .., n => by
    rw [Stmt.labelLoops]
    exact .pure rfl
  | none, .leave .., n | none, .next .., n => by
    rw [Stmt.labelLoops]
    exact .throw trivial

theorem labelItems_storages : ∀ (current : Option String) (items : List Item) (n : Nat),
    Ensures (labelItems current items) n (fun _ => True) fun items' _ => itemsStorages items' = itemsStorages items
  | _, [], n => by
    rw [labelItems]
    exact .pure rfl
  | current, .stmt s :: rest, n => by
    rw [labelItems]
    apply Ensures.bind (s.labelLoops_storages current n)
    intro s' n₁ hs
    apply Ensures.bind (labelItems_storages current rest n₁)
    intro rest' n₂ hr
    exact .pure (by simp only [itemsStorages, hs, hr])
  | current, .var d :: rest, n | current, .fn head body :: rest, n => by
    rw [labelItems]
    exact .bind (labelItems_storages current rest n) fun _ _ hr => .pure (by simp only [itemsStorages, hr])
end

theorem labelDecls_storages : ∀ (ds : List Decl) (n : Nat),
    Ensures (labelDecls ds) n (fun _ => True) fun ds' _ => ds'.flatMap Decl.storages = ds.flatMap Decl.storages
  | [], n => by
    rw [labelDecls]
    exact .pure rfl
  | .fn head (some body) :: rest, n => by
    rw [labelDecls]
    apply Ensures.bind (labelItems_storages none body n)
    intro body' n₁ hb
    apply Ensures.bind (labelDecls_storages rest n₁)
    intro rest' n₂ hr
    apply Ensures.pure
    simp only [List.flatMap_cons, Decl.storages, Option.map_some, Option.getD_some, hb, hr]
  | .fn head none :: rest, n | .var d :: rest, n => by
    rw [labelDecls]
    exact .bind (labelDecls_storages rest n) fun _ _ hr => .pure (by simp only [List.flatMap_cons, hr])

theorem Program.labelLoops_storages (p : Program) :
    Yields p.labelLoops (fun _ => True) fun p' => p'.storages = p.storages :=
  .bind (Ensures.run' (labelDecls_storages p.decls 0)) fun _ h => .pure h

theorem Program.labelLoops_linked (p : Program) :
    Yields p.labelLoops (fun _ => True) fun p' => p'.linkedNames = p.linkedNames := by
  apply p.labelLoops_storages.mono
  intro p' h
  rw [← p'.namesKept_storages.2, ← p.namesKept_storages.2, h]

end Khel
