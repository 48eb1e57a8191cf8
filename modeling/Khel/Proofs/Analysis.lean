import Khel.Compile
import Khel.Proofs.Naming.Resolved
import Khel.Proofs.Typing.CheckedLoops

/-!
# What analysis ensures

The three passes of the analysis together: what later stages may rely on.

* `Program.analyze_passes`: the passes of an analysis that accepts a program.
* `Program.analyze_loops`: of every accepted program, that its loops are labelled.
* `Program.analyze_yields`: of a plain program, that the analysis accepts or rejects it and has no other way to end, and
  that an accepted program is well typed in its table.
-/

namespace Khel

/-- A step that can only reject is passed if it ends well. -/
theorem CompileError.exists_of_bind {α β : Type} {x : Except Rejection α} {f : α → Except CompileError β} {b : β}
    (h : (liftM x : Except CompileError α) >>= f = .ok b) : ∃ a, x = .ok a ∧ f a = .ok b := by
  cases x with
  | ok a => exact ⟨a, rfl, h⟩
  | error e => cases h

/-- The passes of an analysis that accepts a program. -/
theorem Program.analyze_passes {p q : Program} {T : SymbolTable} (h : p.analyze = .ok (q, T)) :
    ∃ p₁ r, p.resolve = .ok p₁ ∧ p₁.labelLoops = .ok r ∧ r.check = .ok (q, T) := by
  obtain ⟨p₁, h₁, h⟩ := CompileError.exists_of_bind h
  obtain ⟨r, h₂, h⟩ := CompileError.exists_of_bind h
  exact ⟨p₁, r, h₁, h₂, h⟩

/-- The loops of an accepted program are numbered, and its jumps belong to them. -/
theorem Program.analyze_loops (p : Program) :
    Yields p.analyze (fun _ => True) fun r => LoopsNumbered r.1.decls ∧ ∀ d ∈ r.1.decls, d.Labelled := by
  unfold Program.analyze
  refine .bind (R := fun _ => True) (.of_forall fun _ _ => trivial) fun p₁ _ => ?_
  refine .bind (R := fun p₂ => LoopsNumbered p₂.decls ∧ ∀ d ∈ p₂.decls, d.Labelled) ?_ fun p₂ hl => ?_
  · have h := p₁.labelLoops_yields
    cases hx : p₁.labelLoops with
    | ok p₂ =>
      rw [hx] at h
      exact ⟨h.1, h.2.1⟩
    | error r => exact trivial
  · refine .bind (checkDecls_loops p₂.decls .empty) ?_
    rintro ⟨ds, T⟩ ⟨hi, _, hd⟩
    obtain ⟨⟨stems, hs, he⟩, hl⟩ := hl
    exact .pure ⟨⟨stems, hs, hi.trans he⟩, hd hl⟩

/-- What the analysis of a plain program leaves to later stages. -/
structure Analyzed (p q : Program) (T : SymbolTable) : Prop where
  wellTyped : ∀ d ∈ q.decls, d.WellTyped T
  sound : T.IsSound
  /-- The symbols are variables of their own, which are numbered, and linked names. -/
  names : ∀ x s, T.get? x = some s → (s.isFunction = false ∧ ∃ y ∈ p.ownNames, ∃ n, x = numbered y n) ∨ Dotless x
  loops : LoopsNumbered q.decls
  labelled : ∀ d ∈ q.decls, d.Labelled
  defined : (q.decls.filterMap Decl.definedName?).Nodup

theorem SymbolTable.ready_empty {xs ys : List String} (h : ys = numberFrom 0 xs) :
    SymbolTable.Ready Table.empty ys := by
  subst h
  refine ⟨fun _ he => (by cases he), nodup_numberFrom 0 xs, fun y hy => ⟨rfl, ?_⟩⟩
  obtain ⟨x, _, m, _, rfl⟩ := mem_numberFrom hy
  exact not_dotless_numbered x m

/-- A plain program is accepted or rejected. -/
theorem Program.analyze_yields {p : Program} (hp : p.IsPlain) :
    Yields p.analyze Rejects fun r => Analyzed p r.1 r.2 := by
  unfold Program.analyze
  refine .reject_bind p.resolve_yields fun p₁ ⟨hown₁, hcheck₁, hdef₁⟩ => ?_
  refine .reject_bind p₁.labelLoops_yields fun p₂ ⟨hloops, hlab, hown₂, hdef₂, hcheck₂⟩ => ?_
  have hready := SymbolTable.ready_empty (hown₂.trans hown₁)
  have hchecked := checkDecls_ensures p₂.decls (fun x h => h.elim) hready (hcheck₂ _ (hcheck₁ hp))
  have hkept := checkDecls_loops p₂.decls Table.empty
  unfold Program.check
  cases hrun : (checkDecls p₂.decls).run Table.empty with
  | error e =>
    rw [Ensures, hrun] at hchecked
    exact hchecked
  | ok r =>
    obtain ⟨ds, T⟩ := r
    obtain ⟨he, hw⟩ := hchecked.of_ok hrun
    obtain ⟨hi, hn, hl⟩ := hkept.of_ok hrun
    obtain ⟨stems, hs, hnum⟩ := hloops
    refine .pure ⟨hw, he.sound, fun x s hx => ?_, ⟨stems, hs, hi.trans hnum⟩, hl hlab, ?_⟩
    · refine (he.names x s hx rfl).imp_left ?_
      rintro ⟨ho, hf⟩
      refine ⟨hf, ?_⟩
      change x ∈ p₂.ownNames at ho
      rw [hown₂, hown₁] at ho
      obtain ⟨y, hy, m, _, rfl⟩ := mem_numberFrom ho
      exact ⟨y, hy, m, rfl⟩
    · rw [hn, hdef₂]
      exact hdef₁

end Khel
