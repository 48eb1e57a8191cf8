import Khel.Proofs.Program.Readings

/-!
# Bodies of loops

What the body of a loop does to the loop can be told from its text, as far as it does nothing: without a break and a
return in it, it ends normally or with the next round, and it leaves a variable alone that nothing in it assigns to.

* `Stmt.run_ends`, `runItems_ends`: what must be there for a statement to end by a break or a return.
* `Stmt.run_leaves`, `runItems_leaves`: a statement that may not change a variable leaves it as it is.
-/

namespace Khel

/-! ## Ends -/

mutual
/-- Is there a break in the statement that leaves the loop around it? -/
def Stmt.hasLeave : Stmt → Bool
  | .leave .. => true
  | .ifThen _ s => s.hasLeave
  | .ifElse _ s t => s.hasLeave || t.hasLeave
  | .block items => itemsHaveLeave items
  | .eval _ | .ret .. | .whileLoop .. | .loop .. | .next .. | .skip => false

/-- Is there such a break in one of the items? -/
def itemsHaveLeave : List Item → Bool
  | [] => false
  | .stmt s :: rest => s.hasLeave || itemsHaveLeave rest
  | .var _ :: rest | .fn .. :: rest => itemsHaveLeave rest
end

/-- Where the computation ends with a break or with a return, there is one. -/
def Ends (hasLeave hasReturn : Bool) (o : Option (Outcome × Store)) : Prop :=
  ∀ outcome s, o = some (outcome, s) →
    (outcome = .leave → hasLeave = true) ∧ ∀ v, outcome = .ret v → hasReturn = true

section Ends

variable {α : Type} {leaves returns : Bool} {o : Option (Outcome × Store)}

theorem Ends.done (s : Store) : Ends leaves returns (some (.done, s)) := by
  rintro _ _ ⟨⟩
  exact ⟨nofun, nofun⟩

theorem Ends.bind {p : Option α} {f : α → Option (Outcome × Store)} (h : ∀ a, Ends leaves returns (f a)) :
    Ends leaves returns (p >>= f) := by
  intro outcome s he
  obtain ⟨a, _, hf⟩ := Option.bind_eq_some_iff.1 he
  exact h a outcome s hf

theorem Ends.mono {leaves' returns' : Bool} (h : Ends leaves returns o) (hl : leaves = true → leaves' = true)
    (hr : returns = true → returns' = true) : Ends leaves' returns' o := by
  intro outcome s he
  obtain ⟨hleave, hret⟩ := h outcome s he
  exact ⟨fun ho => hl (hleave ho), fun v ho => hr (hret v ho)⟩

/-- A loop ends normally, unless its body returns. -/
theorem Ends.rounds {test : Store → Option (Int × Store)} {body : Store → Option (Outcome × Store)}
    {step : Store → Store} (hb : ∀ s, Ends leaves returns (body s)) :
    ∀ (fuel : Nat) (s : Store), Ends false returns (loopRounds test body step fuel s)
  | 0, _ => nofun
  | fuel + 1, s => by
    rw [loopRounds]
    refine .bind fun p => ?_
    dsimp only
    split
    · exact .done _
    · intro outcome s' he
      obtain ⟨⟨first, s₁⟩, hfirst, hrest⟩ := Option.bind_eq_some_iff.1 he
      cases first with
      | done | next => exact Ends.rounds hb fuel _ outcome s' hrest
      | leave => exact Ends.done s₁ outcome s' hrest
      | ret v =>
        cases hrest
        exact ⟨nofun, fun _ _ => (hb p.2 _ _ hfirst).2 v rfl⟩

variable {w : World} {T : SymbolTable} {reading : Reading} {fuel : Nat}

mutual
/-- A statement ends with a break or a return only if there is one in it. -/
theorem Stmt.run_ends : ∀ (st : Stmt) (s : Store), Ends st.hasLeave st.hasReturn (st.run w T reading fuel s)
  | .eval e, s => by
    rw [Stmt.run]
    exact .bind fun p => .done _
  | .ret none _, s => by
    rw [Stmt.run]
    rintro _ _ ⟨⟩
    exact ⟨nofun, fun _ _ => rfl⟩
  | .ret (some e) _, s => by
    rw [Stmt.run]
    refine .bind fun p => ?_
    rintro _ _ ⟨⟩
    exact ⟨nofun, fun _ _ => rfl⟩
  | .ifThen c yes, s => by
    rw [Stmt.run]
    refine .bind fun p => ?_
    dsimp only
    split
    · exact .done _
    · exact yes.run_ends p.2
  | .ifElse c yes no, s => by
    rw [Stmt.run, Stmt.hasLeave, Stmt.hasReturn]
    refine .bind fun p => ?_
    dsimp only
    split
    · exact (no.run_ends p.2).mono (by simp +contextual) (by simp +contextual)
    · exact (yes.run_ends p.2).mono (by simp +contextual) (by simp +contextual)
  | .block items, s => by
    rw [Stmt.run]
    exact runItems_ends items s
  | .whileLoop c body _, s => by
    rw [Stmt.run]
    exact .rounds (runItems_ends body) fuel s
  | .loop var control body id, s => by
    by_cases hrange : ∃ x note l r, var = some x ∧ control = .range note l r
    · obtain ⟨x, note, l, r, rfl, rfl⟩ := hrange
      rw [Stmt.run]
      exact .bind fun t => .bind fun p => .rounds (runItems_ends body) fuel _
    · rw [Stmt.run]
      · exact .rounds (runItems_ends body) fuel s
      · exact fun x note l r hx hc => hrange ⟨x, note, l, r, hx, hc⟩
  | .leave .., s => by
    rw [Stmt.run]
    rintro _ _ ⟨⟩
    exact ⟨fun _ => rfl, nofun⟩
  | .next .., s => by
    rw [Stmt.run]
    rintro _ _ ⟨⟩
    exact ⟨nofun, nofun⟩
  | .skip, s => by
    rw [Stmt.run]
    exact .done s

theorem runItems_ends : ∀ (items : List Item) (s : Store),
    Ends (itemsHaveLeave items) (itemsHaveReturn items) (runItems w T reading fuel items s)
  | [], s => by
    rw [runItems]
    exact .done s
  | .stmt st :: rest, s => by
    rw [runItems, itemsHaveLeave, itemsHaveReturn]
    intro outcome s' he
    obtain ⟨⟨first, s₁⟩, hfirst, hrest⟩ := Option.bind_eq_some_iff.1 he
    have hst := hfirst ▸ st.run_ends s
    dsimp only at hrest
    split at hrest
    · exact (runItems_ends rest s₁).mono (by simp +contextual) (by simp +contextual) outcome s' hrest
    · exact hst.mono (by simp +contextual) (by simp +contextual) outcome s' hrest
  | .var d :: rest, s => by
    rw [runItems]
    exact .bind fun s₁ => runItems_ends rest s₁
  | .fn .. :: _, s => by
    rw [runItems]
    exact nofun
end

/-- A body without a break and a return ends normally or with the next round. -/
theorem runItems_done_or_next {body : List Item} (hl : itemsHaveLeave body = false) (hr : itemsHaveReturn body = false)
    {s s' : Store} {outcome : Outcome} (h : runItems w T reading fuel body s = some (outcome, s')) :
    outcome = .done ∨ outcome = .next := by
  obtain ⟨hleave, hret⟩ := runItems_ends body s outcome s' h
  cases outcome with
  | done => exact .inl rfl
  | next => exact .inr rfl
  | leave => cases hl.symm.trans (hleave rfl)
  | ret v => cases hr.symm.trans (hret v rfl)

end Ends

/-! ## Variables -/

section Changes

variable (T : SymbolTable) (x : String)

/-- May the declaration change the variable `x`? -/
def VarDecl.mayChange (d : VarDecl) : Bool := d.ident.name = x || d.init.any (Expr.mayChange T x)

mutual
/-- May the statement change the variable `x`? -/
def Stmt.mayChange : Stmt → Bool
  | .eval e => e.mayChange T x
  | .ret value _ => value.any (Expr.mayChange T x)
  | .ifThen c s => c.mayChange T x || s.mayChange
  | .ifElse c s t => c.mayChange T x || s.mayChange || t.mayChange
  | .block items => itemsMayChange items
  | .whileLoop c body _ => c.mayChange T x || itemsMayChange body
  | .loop var control body _ => var.any (·.name = x) || control.mayChange T x || itemsMayChange body
  | .leave .. | .next .. | .skip => false

/-- May one of the items change the variable? -/
def itemsMayChange : List Item → Bool
  | [] => false
  | .stmt s :: rest => s.mayChange || itemsMayChange rest
  | .var d :: rest => d.mayChange T x || itemsMayChange rest
  | .fn .. :: rest => itemsMayChange rest
end

variable {T x} {w : World} {reading : Reading} {fuel : Nat}

theorem Expr.value_leaves {e : Expr} (h : e.mayChange T x = false) (s : Store) :
    Leaves x s (e.value w T reading s) := by
  rw [Expr.value]
  exact .bind (e.eval_leaves s h) fun r s₁ => .pure rfl

theorem VarDecl.run_leaves {d : VarDecl} (h : d.mayChange T x = false) {s s' : Store}
    (hd : d.run w T reading s = some s') : s' x = s x := by
  rw [VarDecl.mayChange, Bool.or_eq_false_iff, decide_eq_false_iff_not] at h
  unfold VarDecl.run at hd
  split at hd
  · next e _ hi =>
    obtain ⟨⟨v, s₁⟩, hv, hd⟩ := Option.bind_eq_some_iff.1 hd
    cases hd
    rw [hi, Option.any_some] at h
    rw [Function.update_of_ne (Ne.symm h.1), Expr.value_leaves h.2 s v s₁ hv]
  · cases hd
    rfl

/-- A loop leaves a variable alone if its test, its body and its step do. -/
theorem Leaves.rounds {test : Store → Option (Int × Store)} {body : Store → Option (Outcome × Store)}
    {step : Store → Store} (ht : ∀ s, Leaves x s (test s)) (hb : ∀ s, Leaves x s (body s))
    (hs : ∀ s, step s x = s x) : ∀ (fuel : Nat) (s : Store), Leaves x s (loopRounds test body step fuel s)
  | 0, _ => nofun
  | fuel + 1, s => by
    rw [loopRounds]
    refine .bind (ht s) fun v s₁ => ?_
    dsimp only
    split
    · exact .pure rfl
    · refine .bind (hb s₁) fun outcome s₂ => ?_
      cases outcome with
      | done | next =>
        intro o s' he
        rw [Leaves.rounds ht hb hs fuel (step s₂) o s' he, hs]
      | leave | ret v => exact .pure rfl

mutual
/-- A statement that may not change a variable leaves it as it is. -/
theorem Stmt.run_leaves : ∀ (st : Stmt) (s : Store), st.mayChange T x = false →
    Leaves x s (st.run w T reading fuel s)
  | .eval e, s, h => by
    rw [Stmt.run]
    exact .bind (Expr.value_leaves h s) fun v s₁ => .pure rfl
  | .ret none _, s, _ => by
    rw [Stmt.run]
    exact .pure rfl
  | .ret (some e) _, s, h => by
    rw [Stmt.mayChange, Option.any_some] at h
    rw [Stmt.run]
    exact .bind (Expr.value_leaves h s) fun v s₁ => .pure rfl
  | .ifThen c yes, s, h => by
    rw [Stmt.mayChange, Bool.or_eq_false_iff] at h
    rw [Stmt.run]
    refine .bind (Expr.value_leaves h.1 s) fun v s₁ => ?_
    dsimp only
    split
    · exact .pure rfl
    · exact yes.run_leaves s₁ h.2
  | .ifElse c yes no, s, h => by
    simp only [Stmt.mayChange, Bool.or_eq_false_iff] at h
    rw [Stmt.run]
    refine .bind (Expr.value_leaves h.1.1 s) fun v s₁ => ?_
    dsimp only
    split
    · exact no.run_leaves s₁ h.2
    · exact yes.run_leaves s₁ h.1.2
  | .block items, s, h => by
    rw [Stmt.run]
    exact runItems_leaves items s h
  | .whileLoop c body _, s, h => by
    rw [Stmt.mayChange, Bool.or_eq_false_iff] at h
    rw [Stmt.run]
    exact .rounds (Expr.value_leaves h.1) (fun s => runItems_leaves body s h.2) (fun _ => rfl) fuel s
  | .loop var control body id, s, h => by
    simp only [Stmt.mayChange, Bool.or_eq_false_iff] at h
    obtain ⟨⟨hvar, hcontrol⟩, hbody⟩ := h
    by_cases hrange : ∃ y note l r, var = some y ∧ control = .range note l r
    · obtain ⟨y, note, l, r, rfl, rfl⟩ := hrange
      have hy : x ≠ y.name := by
        rintro rfl
        simp at hvar
      rw [Expr.mayChange, Bool.or_eq_false_iff] at hcontrol
      rw [Stmt.run]
      refine .part fun t => .bind (Expr.value_leaves hcontrol.1 s) fun first s₁ => ?_
      intro outcome s' he
      refine (Leaves.rounds (fun s => ?_) (fun s => runItems_leaves body s hbody) (fun s => ?_) fuel _ outcome s'
        he).trans ?_
      · exact .bind (Expr.value_leaves hcontrol.2 s) fun last s₂ => .pure rfl
      · exact Function.update_of_ne hy ..
      · exact Function.update_of_ne hy ..
    · rw [Stmt.run]
      · exact .rounds (Expr.value_leaves hcontrol) (fun s => runItems_leaves body s hbody) (fun _ => rfl) fuel s
      · exact fun y note l r hy hc => hrange ⟨y, note, l, r, hy, hc⟩
  | .leave .., s, _ | .next .., s, _ | .skip, s, _ => by
    rw [Stmt.run]
    exact .pure rfl

theorem runItems_leaves : ∀ (items : List Item) (s : Store), itemsMayChange T x items = false →
    Leaves x s (runItems w T reading fuel items s)
  | [], s, _ => by
    rw [runItems]
    exact .pure rfl
  | .stmt st :: rest, s, h => by
    rw [itemsMayChange, Bool.or_eq_false_iff] at h
    rw [runItems]
    refine .bind (st.run_leaves s h.1) fun outcome s₁ => ?_
    dsimp only
    split
    · exact runItems_leaves rest s₁ h.2
    · exact .pure rfl
  | .var d :: rest, s, h => by
    rw [itemsMayChange, Bool.or_eq_false_iff] at h
    rw [runItems]
    intro outcome s' he
    obtain ⟨s₁, hd, hrest⟩ := Option.bind_eq_some_iff.1 he
    rw [runItems_leaves rest s₁ h.2 outcome s' hrest, VarDecl.run_leaves h.1 hd]
  | .fn .. :: _, s, _ => by
    rw [runItems]
    exact nofun
end

end Changes

end Khel
