import Khel.Proofs.Naming.Labelled
import Khel.Proofs.Typing.CheckedStmt

/-!
# Checking leaves loops alone

Checking changes expressions only: loops keep their ids, jumps the loops they belong to, and functions their bodies.

* `Stmt.check_loops`, `checkDecls_loops`: ids and jumps are those from before.
-/

namespace Khel

variable {T : SymbolTable}

/-- A step that may end in any way. -/
theorem Ensures.any {σ ε α : Type} (m : StateT σ (Except ε) α) (s : σ) :
    Ensures m s (fun _ => True) fun _ _ => True := by
  unfold Ensures Yields
  split <;> trivial

mutual
/-- A checked statement has the loops that it had. -/
theorem Stmt.check_loops (ret : Ty) : ∀ (s : Stmt) (T : SymbolTable),
    Ensures (s.check ret) T (fun _ => True) fun s' _ => s'.loopIds = s.loopIds ∧
      ∀ current, s.Labelled current → s'.Labelled current
  | .eval e, T => by
    rw [Stmt.check]
    exact .bind (.any _ T) fun _ _ _ => .pure ⟨rfl, fun _ h => h⟩
  | .ret none _, T => by
    rw [Stmt.check]
    exact .pure ⟨rfl, fun _ h => h⟩
  | .ret (some e) _, T => by
    rw [Stmt.check]
    exact .bind (.any _ T) fun _ _ _ => .pure ⟨rfl, fun _ h => h⟩
  | .ifThen c s, T => by
    rw [Stmt.check]
    refine .bind (.any _ T) fun _ T' _ => .bind (s.check_loops ret T') ?_
    rintro s' _ ⟨hi, hl⟩
    exact .pure ⟨hi, hl⟩
  | .ifElse c s t, T => by
    rw [Stmt.check]
    refine .bind (.any _ T) fun _ T' _ => .bind (s.check_loops ret T') ?_
    rintro s' T'' ⟨hi, hl⟩
    refine .bind (t.check_loops ret T'') ?_
    rintro t' _ ⟨hi', hl'⟩
    exact .pure ⟨by simp only [Stmt.loopIds, hi, hi'], fun current h => ⟨hl current h.1, hl' current h.2⟩⟩
  | .block items, T => by
    rw [Stmt.check]
    refine .bind (checkItems_loops ret items T) ?_
    rintro items' _ ⟨hi, hl⟩
    exact .pure ⟨hi, hl⟩
  | .whileLoop c body id, T => by
    rw [Stmt.check]
    refine .bind (.any _ T) fun _ T' _ => .bind (checkItems_loops ret body T') ?_
    rintro body' _ ⟨hi, hl⟩
    exact .pure ⟨by simp only [Stmt.loopIds, hi], fun _ h => ⟨h.1, hl id h.2⟩⟩
  | .loop none control body id, T => by
    rw [Stmt.check]
    refine .bind (.any _ T) fun _ T' _ => .bind (checkItems_loops ret body T') ?_
    rintro body' _ ⟨hi, hl⟩
    exact .pure ⟨by simp only [Stmt.loopIds, hi], fun _ h => ⟨h.1, hl id h.2⟩⟩
  | .loop (some ident) control body id, T => by
    rw [Stmt.check]
    refine .bind (.any _ T) fun _ T₁ _ => .bind (.any _ T₁) fun _ T₂ _ => .bind (.any _ T₂) fun _ T₃ _ => ?_
    refine .bind (checkItems_loops ret body T₃) ?_
    rintro body' _ ⟨hi, hl⟩
    exact .pure ⟨by simp only [Stmt.loopIds, hi], fun _ h => ⟨h.1, hl id h.2⟩⟩
  | .leave .., T | .next .., T | .skip, T => by
    rw [Stmt.check]
    exact .pure ⟨rfl, fun _ h => h⟩

theorem checkItems_loops (ret : Ty) : ∀ (items : List Item) (T : SymbolTable),
    Ensures (checkItems ret items) T (fun _ => True) fun items' _ => itemsLoopIds items' = itemsLoopIds items ∧
      ∀ current, itemsLabelled current items → itemsLabelled current items'
  | [], T => by
    rw [checkItems]
    exact .pure ⟨rfl, fun _ h => h⟩
  | .stmt s :: rest, T => by
    rw [checkItems]
    refine .bind (s.check_loops ret T) ?_
    rintro s' T' ⟨hi, hl⟩
    refine .bind (checkItems_loops ret rest T') ?_
    rintro rest' _ ⟨hi', hl'⟩
    exact .pure ⟨by simp only [itemsLoopIds, hi, hi'], fun current h => ⟨hl current h.1, hl' current h.2⟩⟩
  | .var d :: rest, T => by
    rw [checkItems]
    refine .bind (.any _ T) fun _ T' _ => .bind (checkItems_loops ret rest T') ?_
    rintro rest' _ ⟨hi, hl⟩
    exact .pure ⟨by simp only [itemsLoopIds, hi], hl⟩
  | .fn .. :: _, T => by
    rw [checkItems]
    exact .throw trivial
end

theorem Decl.check_loops (d : Decl) (T : SymbolTable) :
    Ensures d.check T (fun _ => True) fun d' _ => d'.loopIds = d.loopIds ∧ d'.definedName? = d.definedName? ∧
      (d.Labelled → d'.Labelled) := by
  cases d with
  | fn head body =>
    unfold Decl.check
    refine .get_bind (.bind (.any _ T) fun _ T' _ => .bind (.any _ T') fun _ T'' _ => .bind (.any _ T'') ?_)
    intro _ T''' _
    cases body with
    | none => exact .pure ⟨rfl, rfl, fun h => h⟩
    | some items =>
      refine .bind (checkItems_loops head.ret.ty items T''') ?_
      rintro items' _ ⟨hi, hl⟩
      exact .pure ⟨hi, rfl, hl none⟩
  | var d =>
    rw [Decl.check]
    split
    · refine .get_bind (.bind (.any _ T) fun _ T' _ => .bind (.any _ T') fun _ _ _ => ?_)
      exact .pure ⟨rfl, rfl, fun h => h⟩
    · refine .bind (.any _ T) fun _ T' _ => .get_bind (.bind (.any _ T') fun _ T'' _ => .bind (.any _ T'') ?_)
      exact fun _ _ _ => .pure ⟨rfl, rfl, fun h => h⟩

/-- A checked program has the loops and the functions that it had. -/
theorem checkDecls_loops : ∀ (ds : List Decl) (T : SymbolTable),
    Ensures (checkDecls ds) T (fun _ => True) fun ds' _ =>
      ds'.flatMap Decl.loopIds = ds.flatMap Decl.loopIds ∧
      ds'.filterMap Decl.definedName? = ds.filterMap Decl.definedName? ∧
      ((∀ d ∈ ds, d.Labelled) → ∀ d ∈ ds', d.Labelled)
  | [], T => by
    rw [checkDecls]
    exact .pure ⟨rfl, rfl, fun h => h⟩
  | d :: ds, T => by
    rw [checkDecls]
    refine .bind (d.check_loops T) ?_
    rintro d' T' ⟨hi, hn, hl⟩
    refine .bind (checkDecls_loops ds T') ?_
    rintro ds' _ ⟨hi', hn', hl'⟩
    refine .pure ⟨by simp only [List.flatMap_cons, hi, hi'], by simp only [List.filterMap_cons, hn, hn'], fun h => ?_⟩
    rw [List.forall_mem_cons] at h ⊢
    exact ⟨hl h.1, hl' h.2⟩

end Khel
