import Khel.Proofs.Program.Semantics

/-!
# When it does not matter how operands are read

It makes no difference whether an operand is read at once or at use, unless the operand is kept in a variable and an
operand to the right of it may change that variable.

* `Expr.mayChange`: an expression may change a variable, because it assigns to it, or because it is a static variable
  and the expression calls something.
* `Expr.keepsOperands`, `itemsKeepOperands`: no operand is changed by one to the right of it.
* `Expr.eval_atOnce`, `runItems_atOnce`: both readings come to the same then.
-/

namespace Khel

/-! ## Changes -/

section Changes

variable (T : SymbolTable) (x : String)

mutual
/-- May the expression change the variable `x`? -/
def Expr.mayChange : Expr → Bool
  | .int .. | .long .. | .str .. | .var .. => false
  | .call _ _ args => T.isStatic x || Expr.anyMayChange args
  | .unary _ _ a | .cast _ _ a => a.mayChange
  | .binary _ _ l r | .range _ l r => l.mayChange || r.mayChange
  | .assign _ (.var _ y) e => x = y || e.mayChange
  | .assign .. => false
  | .cond _ c yes no => c.mayChange || yes.mayChange || no.mayChange

/-- May one of the expressions change the variable? -/
def Expr.anyMayChange : List Expr → Bool
  | [] => false
  | e :: es => e.mayChange || Expr.anyMayChange es
end

end Changes

/-- A computation that leaves the variable `x` as it is. -/
def Leaves {α : Type} (x : String) (s : Store) (o : Option (α × Store)) : Prop :=
  ∀ a s', o = some (a, s') → s' x = s x

section Leaves

variable {α β : Type} {x : String} {s : Store}

theorem Leaves.pure {a : α} {s' : Store} (h : s' x = s x) : Leaves x s (Pure.pure (a, s')) := by
  rintro _ _ ⟨⟩
  exact h

/-- A part that has nothing to do with the store. -/
theorem Leaves.part {o : Option β} {f : β → Option (α × Store)} (h : ∀ b, Leaves x s (f b)) : Leaves x s (o >>= f) := by
  intro a s' he
  obtain ⟨b, _, hf⟩ := Option.bind_eq_some_iff.1 he
  exact h b a s' hf

theorem Leaves.bind {o : Option (β × Store)} {f : β × Store → Option (α × Store)} (h : Leaves x s o)
    (hf : ∀ b s', Leaves x s' (f (b, s'))) : Leaves x s (o >>= f) := by
  intro a s' he
  obtain ⟨⟨b, s₁⟩, ho, hf'⟩ := Option.bind_eq_some_iff.1 he
  rw [hf b s₁ a s' hf', h b s₁ ho]

variable {w : World} {T : SymbolTable} {reading : Reading}

mutual
/-- An expression that may not change a variable leaves it as it is. -/
theorem Expr.eval_leaves : ∀ (e : Expr) (s : Store), e.mayChange T x = false → Leaves x s (e.eval w T reading s)
  | .int .., s, _ | .long .., s, _ | .str .., s, _ | .var .., s, _ => by
    rw [Expr.eval]
    exact .pure rfl
  | .call note f args, s, hc => by
    rw [Expr.mayChange, Bool.or_eq_false_iff] at hc
    rw [Expr.eval]
    refine .part fun t => .bind (Expr.evalAll_leaves args s hc.2) fun rs s₁ => .pure ?_
    simp [Store.setStatics, hc.1]
  | .unary note op a, s, hc => by
    rw [Expr.mayChange] at hc
    rw [Expr.eval]
    exact .part fun t => .bind (a.eval_leaves s hc) fun r s₁ => .pure rfl
  | .cast note target a, s, hc => by
    rw [Expr.mayChange] at hc
    rw [Expr.eval]
    exact .bind (a.eval_leaves s hc) fun r s₁ => .pure rfl
  | .binary note .logicalAnd l r, s, hc => by
    rw [Expr.mayChange, Bool.or_eq_false_iff] at hc
    rw [Expr.eval]
    refine .bind (l.eval_leaves s hc.1) fun a s₁ => ?_
    dsimp only
    split
    · exact .pure rfl
    · exact .bind (r.eval_leaves s₁ hc.2) fun b s₂ => .pure rfl
  | .binary note .logicalOr l r, s, hc => by
    rw [Expr.mayChange, Bool.or_eq_false_iff] at hc
    rw [Expr.eval]
    refine .bind (l.eval_leaves s hc.1) fun a s₁ => ?_
    dsimp only
    split
    · exact .bind (r.eval_leaves s₁ hc.2) fun b s₂ => .pure rfl
    · exact .pure rfl
  | .binary note (.strict op) l r, s, hc => by
    rw [Expr.mayChange, Bool.or_eq_false_iff] at hc
    rw [Expr.eval]
    refine .part fun t => .bind (l.eval_leaves s hc.1) fun a s₁ => ?_
    exact .bind (r.eval_leaves s₁ hc.2) fun b s₂ => .part fun v => .pure rfl
  | .range note l r, s, hc => by
    rw [Expr.mayChange, Bool.or_eq_false_iff] at hc
    rw [Expr.eval]
    refine .part fun t => .bind (l.eval_leaves s hc.1) fun a s₁ => ?_
    exact .bind (r.eval_leaves s₁ hc.2) fun b s₂ => .pure rfl
  | .assign note (.var _ y) e, s, hc => by
    rw [Expr.mayChange, Bool.or_eq_false_iff, decide_eq_false_iff_not] at hc
    rw [Expr.eval]
    refine .part fun t => .bind (e.eval_leaves s hc.2) fun r s₁ => .pure ?_
    exact Function.update_of_ne hc.1 ..
  | .cond note c yes no, s, hc => by
    simp only [Expr.mayChange, Bool.or_eq_false_iff] at hc
    rw [Expr.eval]
    refine .part fun t => .bind (c.eval_leaves s hc.1.1) fun a s₁ => ?_
    dsimp only
    split
    · exact .bind (no.eval_leaves s₁ hc.2) fun r s₂ => .pure rfl
    · exact .bind (yes.eval_leaves s₁ hc.1.2) fun r s₂ => .pure rfl
  | .assign _ (.int ..) _, s, _ | .assign _ (.long ..) _, s, _ | .assign _ (.str ..) _, s, _
  | .assign _ (.call ..) _, s, _ | .assign _ (.unary ..) _, s, _ | .assign _ (.binary ..) _, s, _
  | .assign _ (.assign ..) _, s, _ | .assign _ (.cond ..) _, s, _ | .assign _ (.range ..) _, s, _
  | .assign _ (.cast ..) _, s, _ => nofun

theorem Expr.evalAll_leaves : ∀ (es : List Expr) (s : Store), Expr.anyMayChange T x es = false →
    Leaves x s (Expr.evalAll w T reading es s)
  | [], s, _ => by
    rw [Expr.evalAll]
    exact .pure rfl
  | e :: es, s, hc => by
    rw [Expr.anyMayChange, Bool.or_eq_false_iff] at hc
    rw [Expr.evalAll]
    refine .bind (e.eval_leaves s hc.1) fun r s₁ => ?_
    exact .bind (Expr.evalAll_leaves es s₁ hc.2) fun rs s₂ => .pure rfl
end

end Leaves

/-! ## Operands -/

/-- The variable that the result of an expression stays in. -/
def Expr.place? : Expr → Option String
  | .var _ x | .assign _ (.var _ x) _ => some x
  | _ => none

section Operands

variable (T : SymbolTable)

mutual
/-- Is no operand in the expression changed by one to the right of it? -/
def Expr.keepsOperands : Expr → Bool
  | .int .. | .long .. | .str .. | .var .. => true
  | .call _ _ args => Expr.allKeepOperands args
  | .unary _ _ a | .cast _ _ a | .assign _ _ a => a.keepsOperands
  | .binary _ (.strict _) l r | .range _ l r =>
    l.keepsOperands && r.keepsOperands && !l.place?.any (Expr.mayChange T · r)
  | .binary _ .logicalAnd l r | .binary _ .logicalOr l r => l.keepsOperands && r.keepsOperands
  | .cond _ c yes no => c.keepsOperands && yes.keepsOperands && no.keepsOperands

/-- Is this so for each of the arguments of a call, and for all of them together? -/
def Expr.allKeepOperands : List Expr → Bool
  | [] => true
  | e :: es => e.keepsOperands && Expr.allKeepOperands es && !e.place?.any (Expr.anyMayChange T · es)
end

end Operands

/-- The result with its value taken. -/
def Result.taken (p : Result × Store) : Result × Store := (.value (p.1.read p.2), p.2)

/-- Computations that correspond part by part correspond as a whole. -/
theorem bind_eq_map {α α' β β' : Type} {o : Option α} {o' : Option α'} {k : α → α'} {m : β → β'} {f : α' → Option β'}
    {g : α → Option β} (ho : o' = o.map k) (h : ∀ a, o = some a → f (k a) = (g a).map m) :
    (o' >>= f) = (o >>= g).map m := by
  subst ho
  cases o with
  | none => rfl
  | some a => exact h a rfl

/-- A part that is the same on both sides. -/
theorem part_eq_map {α β β' : Type} (o : Option α) {m : β → β'} {f : α → Option β'} {g : α → Option β}
    (h : ∀ a, f a = (g a).map m) : (o >>= f) = (o >>= g).map m :=
  bind_eq_map Option.map_id_apply.symm fun a _ => h a

/-- A choice that goes the same way on both sides. -/
theorem ite_eq_map {β β' : Type} {c c' : Prop} [Decidable c] [Decidable c'] (hc : c ↔ c') {m : β → β'} {a b : Option β'}
    {a' b' : Option β} (ha : a = a'.map m) (hb : b = b'.map m) :
    (if c then a else b) = (if c' then a' else b').map m := by
  by_cases h : c'
  · rw [if_pos (hc.2 h), if_pos h, ha]
  · rw [if_neg (mt hc.1 h), if_neg h, hb]

@[simp] theorem Result.read_value (s : Store) (v : Int) : (Result.value v).read s = v := rfl

section Readings

variable {w : World} {T : SymbolTable}

/-- A result stays in a variable only where the expression says so. -/
theorem Expr.place?_of_eval {e : Expr} {s s' : Store} {x : String} (h : e.eval w T .atUse s = some (.place x, s')) :
    e.place? = some x := by
  cases e with
  | var note y =>
    cases h
    rfl
  | assign note target e =>
    cases target with
    | var note' y =>
      simp only [Expr.eval, Option.bind_eq_bind, Option.bind_eq_some_iff, Option.pure_def, Option.some.injEq,
        Prod.mk.injEq] at h
      obtain ⟨t, _, ⟨r, s₁⟩, _, hr, _⟩ := h
      cases hr
      rfl
    | _ => simp [Expr.eval] at h
  | binary note op l r =>
    cases op with
    | strict op => simp [Expr.eval, Option.bind_eq_some_iff] at h
    | logicalAnd | logicalOr =>
      simp only [Expr.eval, Option.bind_eq_bind, Option.bind_eq_some_iff] at h
      obtain ⟨⟨a, s₁⟩, _, h⟩ := h
      split at h <;> simp [Option.bind_eq_some_iff] at h
  | cond note c yes no =>
    simp only [Expr.eval, Option.bind_eq_bind, Option.bind_eq_some_iff] at h
    obtain ⟨t, _, ⟨a, s₁⟩, _, h⟩ := h
    split at h <;> simp [Option.bind_eq_some_iff] at h
  | _ => simp [Expr.eval, Option.bind_eq_some_iff] at h

/-- The value of an operand is not changed by what is computed after it. -/
theorem Expr.read_later {α : Type} {e : Expr} {s s₁ s₂ : Store} {r : Result} {o : Option (α × Store)} {a : α}
    (he : e.eval w T .atUse s = some (r, s₁)) (hkeep : ∀ x ∈ e.place?, Leaves x s₁ o) (ho : o = some (a, s₂)) :
    r.read s₁ = r.read s₂ := by
  cases r with
  | value v => rfl
  | place x => exact (hkeep x (Expr.place?_of_eval he) a s₂ ho).symm

mutual
/-- Reading operands at once comes to the same as reading them at use, if none is changed before. -/
theorem Expr.eval_atOnce : ∀ (e : Expr) (s : Store), e.keepsOperands T = true →
    e.eval w T .atOnce s = (e.eval w T .atUse s).map Result.taken
  | .int .., s, _ | .long .., s, _ | .str .., s, _ | .var .., s, _ => by
    simp [Expr.eval, Result.taken, Result.read, Reading.ofVar]
  | .call note f args, s, hk => by
    rw [Expr.keepsOperands] at hk
    rw [Expr.eval, Expr.eval]
    refine part_eq_map note.ty fun t => bind_eq_map (Expr.evalAll_atOnce args s hk) ?_
    rintro ⟨rs, s₁⟩ _
    simp [Function.comp_def, Result.taken]
  | .unary note op a, s, hk => by
    rw [Expr.keepsOperands] at hk
    rw [Expr.eval, Expr.eval]
    exact part_eq_map note.ty fun t => bind_eq_map (a.eval_atOnce s hk) fun p _ => rfl
  | .cast note target a, s, hk => by
    rw [Expr.keepsOperands] at hk
    rw [Expr.eval, Expr.eval]
    exact bind_eq_map (a.eval_atOnce s hk) fun p _ => rfl
  | .binary note .logicalAnd l r, s, hk => by
    rw [Expr.keepsOperands, Bool.and_eq_true] at hk
    rw [Expr.eval, Expr.eval]
    refine bind_eq_map (l.eval_atOnce s hk.1) ?_
    rintro ⟨a, s₁⟩ _
    exact ite_eq_map Iff.rfl rfl (bind_eq_map (r.eval_atOnce s₁ hk.2) fun p _ => rfl)
  | .binary note .logicalOr l r, s, hk => by
    rw [Expr.keepsOperands, Bool.and_eq_true] at hk
    rw [Expr.eval, Expr.eval]
    refine bind_eq_map (l.eval_atOnce s hk.1) ?_
    rintro ⟨a, s₁⟩ _
    exact ite_eq_map Iff.rfl (bind_eq_map (r.eval_atOnce s₁ hk.2) fun p _ => rfl) rfl
  | .binary note (.strict op) l r, s, hk => by
    simp only [Expr.keepsOperands, Bool.and_eq_true, Bool.not_eq_true', Option.any_eq_false] at hk
    obtain ⟨⟨hl, hr⟩, hkeep⟩ := hk
    rw [Expr.eval, Expr.eval]
    refine part_eq_map note.ty fun t => bind_eq_map (l.eval_atOnce s hl) ?_
    rintro ⟨a, s₁⟩ ha
    refine bind_eq_map (r.eval_atOnce s₁ hr) ?_
    rintro ⟨b, s₂⟩ hb
    have hread : a.read s₁ = a.read s₂ := Expr.read_later ha (fun x hx => r.eval_leaves s₁ (hkeep x hx)) hb
    simp only [Result.taken, Result.read_value, hread]
    exact part_eq_map _ fun v => rfl
  | .range note l r, s, hk => by
    simp only [Expr.keepsOperands, Bool.and_eq_true, Bool.not_eq_true', Option.any_eq_false] at hk
    obtain ⟨⟨hl, hr⟩, hkeep⟩ := hk
    rw [Expr.eval, Expr.eval]
    refine part_eq_map note.ty fun t => bind_eq_map (l.eval_atOnce s hl) ?_
    rintro ⟨a, s₁⟩ ha
    refine bind_eq_map (r.eval_atOnce s₁ hr) ?_
    rintro ⟨b, s₂⟩ hb
    have hread : a.read s₁ = a.read s₂ := Expr.read_later ha (fun x hx => r.eval_leaves s₁ (hkeep x hx)) hb
    simp only [Result.taken, Result.read_value, hread]
    rfl
  | .assign note (.var _ y) e, s, hk => by
    rw [Expr.keepsOperands] at hk
    rw [Expr.eval, Expr.eval]
    exact part_eq_map note.ty fun t => bind_eq_map (e.eval_atOnce s hk) fun p _ => rfl
  | .cond note c yes no, s, hk => by
    simp only [Expr.keepsOperands, Bool.and_eq_true] at hk
    rw [Expr.eval, Expr.eval]
    refine part_eq_map note.ty fun t => bind_eq_map (c.eval_atOnce s hk.1.1) ?_
    rintro ⟨a, s₁⟩ _
    exact ite_eq_map Iff.rfl (bind_eq_map (no.eval_atOnce s₁ hk.2) fun p _ => rfl)
      (bind_eq_map (yes.eval_atOnce s₁ hk.1.2) fun p _ => rfl)
  | .assign _ (.int ..) _, s, _ | .assign _ (.long ..) _, s, _ | .assign _ (.str ..) _, s, _
  | .assign _ (.call ..) _, s, _ | .assign _ (.unary ..) _, s, _ | .assign _ (.binary ..) _, s, _
  | .assign _ (.assign ..) _, s, _ | .assign _ (.cond ..) _, s, _ | .assign _ (.range ..) _, s, _
  | .assign _ (.cast ..) _, s, _ => rfl

theorem Expr.evalAll_atOnce : ∀ (es : List Expr) (s : Store), Expr.allKeepOperands T es = true →
    Expr.evalAll w T .atOnce es s =
      (Expr.evalAll w T .atUse es s).map fun p => (p.1.map fun r => .value (r.read p.2), p.2)
  | [], s, _ => rfl
  | e :: es, s, hk => by
    simp only [Expr.allKeepOperands, Bool.and_eq_true, Bool.not_eq_true', Option.any_eq_false] at hk
    obtain ⟨⟨he, hes⟩, hkeep⟩ := hk
    rw [Expr.evalAll, Expr.evalAll]
    refine bind_eq_map (e.eval_atOnce s he) ?_
    rintro ⟨r, s₁⟩ hr
    refine bind_eq_map (Expr.evalAll_atOnce es s₁ hes) ?_
    rintro ⟨rs, s₂⟩ hrs
    have hread : r.read s₁ = r.read s₂ := Expr.read_later hr (fun x hx => Expr.evalAll_leaves es s₁ (hkeep x hx)) hrs
    simp [hread]
end

theorem Expr.value_atOnce {e : Expr} (hk : e.keepsOperands T = true) : e.value w T .atOnce = e.value w T .atUse := by
  funext s
  rw [Expr.value, Expr.value, e.eval_atOnce s hk]
  cases e.eval w T .atUse s <;> rfl

end Readings

/-! ## Statements -/

section Statements

variable (T : SymbolTable)

/-- Is no operand in the initial value changed by one to the right of it? -/
def VarDecl.keepsOperands (d : VarDecl) : Bool := d.init.all (Expr.keepsOperands T)

mutual
/-- Is no operand in the statement changed by one to the right of it? -/
def Stmt.keepsOperands : Stmt → Bool
  | .eval e => e.keepsOperands T
  | .ret value _ => value.all (Expr.keepsOperands T)
  | .ifThen c s => c.keepsOperands T && s.keepsOperands
  | .ifElse c s t => c.keepsOperands T && s.keepsOperands && t.keepsOperands
  | .block items => itemsKeepOperands items
  | .whileLoop c body _ => c.keepsOperands T && itemsKeepOperands body
  -- The two ends of the range are not operands of one operation here.
  | .loop (some _) (.range _ l r) body _ => l.keepsOperands T && r.keepsOperands T && itemsKeepOperands body
  | .loop _ control body _ => control.keepsOperands T && itemsKeepOperands body
  | .leave .. | .next .. | .skip => true

/-- Is this so for each of the items? -/
def itemsKeepOperands : List Item → Bool
  | [] => true
  | .stmt s :: rest => s.keepsOperands && itemsKeepOperands rest
  | .var d :: rest => d.keepsOperands T && itemsKeepOperands rest
  | .fn .. :: rest => itemsKeepOperands rest
end

variable {T} {w : World} {fuel : Nat}

theorem VarDecl.run_atOnce {d : VarDecl} (hk : d.keepsOperands T = true) :
    d.run w T .atOnce = d.run w T .atUse := by
  funext s
  unfold VarDecl.run
  split
  · next e _ hi =>
    rw [VarDecl.keepsOperands, hi, Option.all_some] at hk
    rw [Expr.value_atOnce hk]
  · rfl

mutual
/-- A statement does the same with either reading. -/
theorem Stmt.run_atOnce : ∀ (st : Stmt), st.keepsOperands T = true →
    st.run w T .atOnce fuel = st.run w T .atUse fuel
  | .eval e, hk => by
    rw [Stmt.keepsOperands] at hk
    funext s
    rw [Stmt.run, Stmt.run, Expr.value_atOnce hk]
  | .ret none _, _ => rfl
  | .ret (some e) _, hk => by
    rw [Stmt.keepsOperands, Option.all_some] at hk
    funext s
    rw [Stmt.run, Stmt.run, Expr.value_atOnce hk]
  | .ifThen c st, hk => by
    rw [Stmt.keepsOperands, Bool.and_eq_true] at hk
    funext s
    rw [Stmt.run, Stmt.run, Expr.value_atOnce hk.1, st.run_atOnce hk.2]
  | .ifElse c st st', hk => by
    simp only [Stmt.keepsOperands, Bool.and_eq_true] at hk
    funext s
    rw [Stmt.run, Stmt.run, Expr.value_atOnce hk.1.1, st.run_atOnce hk.1.2, st'.run_atOnce hk.2]
  | .block items, hk => by
    rw [Stmt.keepsOperands] at hk
    funext s
    rw [Stmt.run, Stmt.run, runItems_atOnce items hk]
  | .whileLoop c body _, hk => by
    rw [Stmt.keepsOperands, Bool.and_eq_true] at hk
    funext s
    rw [Stmt.run, Stmt.run, Expr.value_atOnce hk.1, runItems_atOnce body hk.2]
  | .loop var control body id, hk => by
    funext s
    by_cases hrange : ∃ x note l r, var = some x ∧ control = .range note l r
    · obtain ⟨x, note, l, r, rfl, rfl⟩ := hrange
      simp only [Stmt.keepsOperands, Bool.and_eq_true] at hk
      rw [Stmt.run, Stmt.run, Expr.value_atOnce hk.1.1, Expr.value_atOnce hk.1.2, runItems_atOnce body hk.2]
    · have hno : ∀ x note l r, var = some x → control = .range note l r → False :=
        fun x note l r hx hc => hrange ⟨x, note, l, r, hx, hc⟩
      rw [Stmt.keepsOperands, Bool.and_eq_true] at hk
      · rw [Stmt.run, Stmt.run, Expr.value_atOnce hk.1, runItems_atOnce body hk.2]
        all_goals exact hno
      · exact hno
  | .leave .., _ | .next .., _ | .skip, _ => rfl

theorem runItems_atOnce : ∀ (items : List Item), itemsKeepOperands T items = true →
    runItems w T .atOnce fuel items = runItems w T .atUse fuel items
  | [], _ => rfl
  | .stmt st :: rest, hk => by
    rw [itemsKeepOperands, Bool.and_eq_true] at hk
    funext s
    rw [runItems, runItems, st.run_atOnce hk.1, runItems_atOnce rest hk.2]
  | .var d :: rest, hk => by
    rw [itemsKeepOperands, Bool.and_eq_true] at hk
    funext s
    rw [runItems, runItems, VarDecl.run_atOnce hk.1, runItems_atOnce rest hk.2]
  | .fn .. :: _, _ => rfl
end

end Statements

end Khel
