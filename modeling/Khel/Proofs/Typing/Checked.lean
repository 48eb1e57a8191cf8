import Khel.Proofs.Typing.WellTyped

/-!
# Checking is sound

Checking a program that was resolved ends with a well-typed program, or rejects it. It never meets a name that it does
not know, and every name keeps its type and its kind from the moment it is entered.

* `Expr.check_yields`: a checked expression is well typed, and has a type when it is asked for one.
-/

namespace Khel

/-- The error is a rejection, and not a fault. -/
abbrev Rejects (e : CompileError) : Prop := e.isRejection = true

/-- A step that can only reject, inside one that can fail in other ways. -/
theorem Yields.reject_bind {α β : Type} {x : Except Rejection α} {f : α → Except CompileError β} {R : α → Prop}
    {P : β → Prop} (hx : Yields x (fun _ => True) R) (hf : ∀ a, R a → Yields (f a) Rejects P) :
    Yields ((liftM x : Except CompileError α) >>= f) Rejects P := by
  cases x with
  | ok a => exact hf a hx
  | error e => exact rfl

/-! ## Types in notes -/

section Known

variable {e : Expr} {t : Ty}

theorem Expr.knownTy_of_ty (h : e.ty = some t) : e.knownTy = .ok t := by
  rw [knownTy, h]

theorem Expr.counterTy_of_ty (h : e.ty = some t) : e.counterTy = .ok (if e.isRange then t else .int32) := by
  rw [counterTy, knownTy_of_ty h]
  split <;> rfl

/-- An expression with a type has no fault to end with when it is asked for its type. -/
theorem Yields.knownTy_bind {α : Type} {f : Ty → Except CompileError α} {E : CompileError → Prop} {P : α → Prop}
    (he : e.ty = some t) (hf : Yields (f t) E P) : Yields (liftM e.knownTy >>= f) E P := by
  rw [Expr.knownTy_of_ty he]
  exact hf

end Known

/-! ## Conversions -/

section Conversions

variable {T : SymbolTable} {e : Expr}

theorem Expr.HasTy.mkCast {found target : Ty} (he : e.HasTy T found) (hne : found ≠ target)
    (hi : ¬ (!found.isInteger || !target.isInteger) = true) : (Expr.mkCast target e).HasTy T target := by
  refine ⟨⟨he.1, rfl, ?_⟩, rfl⟩
  rw [he.2]
  cases found <;> cases target <;> simp_all [Ty.isInteger]

/-- A converted expression has the type that was asked for. -/
theorem Expr.convert_yields {found : Ty} (target : Ty) (he : e.HasTy T found) :
    Yields (e.convert target) (fun _ => True) fun e' => e'.HasTy T target := by
  unfold Expr.convert
  rw [he.2]
  dsimp only
  split
  · next h => exact h ▸ he
  · next hne =>
    split
    · exact trivial
    · next hi => exact he.mkCast hne hi

theorem Expr.requireInteger_yields {found : Ty} (he : e.ty = some found) :
    Yields e.requireInteger (fun _ => True) fun _ => found.isInteger = true := by
  unfold Expr.requireInteger
  rw [he]
  dsimp only
  split
  · next h => exact h
  · exact trivial

end Conversions

/-! ## Expressions -/

/-- The table has all names that are known. -/
def SymbolTable.Covers (T : SymbolTable) (known : String → Prop) : Prop := ∀ x, known x → ∃ s, T.get? x = some s

section Expressions

variable {known : String → Prop} {T : SymbolTable}

mutual
/-- A checked expression is well typed, and has a type. -/
theorem Expr.check_yields (hT : T.IsSound) (hk : T.Covers known) : ∀ e : Expr, e.Checkable known →
    Yields (e.check T) Rejects fun e' => ∃ t, e'.HasTy T t
  | .int note v, _ | .long note v, _ | .str note v, _ => by
    rw [Expr.check]
    exact .pure ⟨_, rfl, rfl⟩
  | .var note x, he => by
    rw [Expr.check]
    obtain ⟨s, hs⟩ := hk x he
    rw [hs]
    dsimp only
    split
    · exact .throw rfl
    · next hf => exact .pure ⟨s.ty, ⟨s, hs, by simpa using hf, rfl⟩, rfl⟩
  | .call note f args, he => by
    rw [Expr.check]
    split
    · exact .throw rfl
    · next s hs =>
      split
      · next params ret hty =>
        split
        · next hlen =>
          refine .bind (Expr.checkArgs_yields hT hk params args he hlen) fun args' hargs => .pure ⟨ret, ?_, rfl⟩
          have hf : s.isFunction = true := by rw [(hT.get hs).kind, hty]; rfl
          exact ⟨s, params, ret, hs, hf, hty, rfl, hargs⟩
        · exact .throw rfl
      · exact .throw rfl
  | .unary note op a, he => by
    rw [Expr.check]
    refine .bind (Expr.check_yields hT hk a he) ?_
    rintro a' ⟨t, ha⟩
    cases op with
    | logicalNot => exact .pure ⟨_, ⟨ha.1, rfl⟩, rfl⟩
    | negate | complement =>
      refine .reject_bind (Expr.requireInteger_yields ha.2) fun _ hi => .knownTy_bind ha.2 ?_
      exact .pure ⟨t, ⟨ha.1, t, hi, ha.2, rfl⟩, rfl⟩
  | .binary note op l r, he => by
    rw [Expr.check]
    refine .bind (Expr.check_yields hT hk l he.1) ?_
    rintro l' ⟨tl, hl⟩
    refine .bind (Expr.check_yields hT hk r he.2) ?_
    rintro r' ⟨tr, hr⟩
    cases op with
    | logicalAnd | logicalOr => exact .pure ⟨_, ⟨hl.1, hr.1, rfl⟩, rfl⟩
    | strict strictOp =>
      refine .knownTy_bind hl.2 (.knownTy_bind hr.2 ?_)
      refine .reject_bind (Expr.convert_yields (tl.common tr) hl) fun l'' hl' => ?_
      refine .reject_bind (Expr.convert_yields (tl.common tr) hr) fun r'' hr' => ?_
      cases strictOp with
      | compare _ => exact .pure ⟨_, ⟨hl'.1, hr'.1, ⟨_, hl'.2, hr'.2⟩, rfl⟩, rfl⟩
      | arith _ =>
        refine .reject_bind (Expr.requireInteger_yields hl'.2) fun _ hi => ?_
        exact .pure ⟨_, ⟨hl'.1, hr'.1, _, hi, hl'.2, hr'.2, rfl⟩, rfl⟩
  | .assign note l r, he => by
    rw [Expr.check]
    have hvar : Yields (l.check T) Rejects fun l' => l'.isVar = true := by
      obtain ⟨note, x, rfl⟩ : ∃ note x, l = .var note x := by
        have := he.1
        cases l <;> simp_all [Expr.isVar]
      rw [Expr.check]
      split
      · next hs =>
        obtain ⟨s, hs'⟩ := hk x he.2.1
        simp [hs] at hs'
      · split
        · exact .throw rfl
        · exact .pure rfl
    refine .bind (Yields.and hvar (Expr.check_yields hT hk l he.2.1)) ?_
    rintro l' ⟨hv, tl, hl⟩
    refine .bind (Expr.check_yields hT hk r he.2.2) ?_
    rintro r' ⟨tr, hr⟩
    refine .knownTy_bind hl.2 (.reject_bind (Expr.convert_yields tl hr) fun r'' hr' => ?_)
    exact .pure ⟨tl, ⟨hv, hl.1, hr'.1, tl, hl.2, hr'.2, rfl⟩, rfl⟩
  | .cond note c t f, he => by
    rw [Expr.check]
    refine .bind (Expr.check_yields hT hk c he.1) ?_
    rintro c' ⟨tc, hc⟩
    refine .bind (Expr.check_yields hT hk t he.2.1) ?_
    rintro t' ⟨tt, ht⟩
    refine .bind (Expr.check_yields hT hk f he.2.2) ?_
    rintro f' ⟨tf, hf⟩
    refine .knownTy_bind ht.2 (.knownTy_bind hf.2 ?_)
    refine .reject_bind (Expr.convert_yields (tt.common tf) ht) fun t'' ht' => ?_
    refine .reject_bind (Expr.convert_yields (tt.common tf) hf) fun f'' hf' => ?_
    exact .pure ⟨_, ⟨hc.1, ht'.1, hf'.1, _, ht'.2, hf'.2, rfl⟩, rfl⟩
  | .range note l r, he => by
    rw [Expr.check]
    refine .bind (Expr.check_yields hT hk l he.1) ?_
    rintro l' ⟨tl, hl⟩
    refine .bind (Expr.check_yields hT hk r he.2) ?_
    rintro r' ⟨tr, hr⟩
    refine .knownTy_bind hl.2 (.knownTy_bind hr.2 ?_)
    refine .reject_bind (Expr.convert_yields (tl.common tr) hl) fun l'' hl' => ?_
    refine .reject_bind (Expr.convert_yields (tl.common tr) hr) fun r'' hr' => ?_
    refine .reject_bind (Expr.requireInteger_yields hl'.2) fun _ hi => ?_
    exact .pure ⟨_, ⟨hl'.1, hr'.1, _, hi, hl'.2, hr'.2, rfl⟩, rfl⟩

theorem Expr.checkArgs_yields (hT : T.IsSound) (hk : T.Covers known) : ∀ (params : List Ty) (args : List Expr),
    Expr.AllCheckable known args → params.length = args.length →
    Yields (Expr.checkArgs T params args) Rejects fun args' => Expr.AllWellTyped T params args'
  | [], [], _, _ => by
    rw [Expr.checkArgs]
    · exact .pure trivial
    · simp
  | param :: params, arg :: args, ⟨ha, has⟩, hlen => by
    rw [Expr.checkArgs]
    refine .bind (Expr.check_yields hT hk arg ha) ?_
    rintro arg' ⟨t, harg⟩
    refine .reject_bind (Expr.convert_yields param harg) fun arg'' harg' => ?_
    refine .bind (Expr.checkArgs_yields hT hk params args has (by simpa using hlen)) fun args' hargs => ?_
    exact .pure ⟨harg', hargs⟩
end

end Expressions

/-! ## Entering names -/

namespace SymbolTable

/-- A step took the table `T` to `T'` and entered variables of the names `own`, and otherwise linked names only. -/
structure Enters (T T' : SymbolTable) (own : List String) : Prop where
  keeps : T.Extends T'
  sound : T'.IsSound
  names : ∀ x s, T'.get? x = some s → T.get? x = none → (x ∈ own ∧ s.isFunction = false) ∨ Dotless x

/-- The variables `own` can be entered: they are different, and none of them is in the table. -/
structure Ready (T : SymbolTable) (own : List String) : Prop where
  sound : T.IsSound
  nodup : own.Nodup
  fresh : ∀ x ∈ own, T.get? x = none ∧ ¬ Dotless x

variable {T T' T'' : SymbolTable} {own own' : List String}

theorem Enters.refl (h : T.IsSound) : T.Enters T [] := by
  refine ⟨.rfl, h, fun x s hx hn => ?_⟩
  rw [hx] at hn
  cases hn

theorem Enters.trans (h : T.Enters T' own) (h' : T'.Enters T'' own') : T.Enters T'' (own ++ own') := by
  refine ⟨h.keeps.trans h'.keeps, h'.sound, fun x s hx hn => ?_⟩
  cases hx' : T'.get? x with
  | none => exact (h'.names x s hx hx').imp_left fun ⟨ho, hf⟩ => ⟨List.mem_append_right own ho, hf⟩
  | some s' =>
    obtain ⟨s'', hs'', ha⟩ := h'.keeps x s' hx'
    rw [hx] at hs''
    cases hs''
    exact (h.names x s' hx' hn).imp_left fun ⟨ho, hf⟩ => ⟨List.mem_append_left own' ho, ha.isFunction.trans hf⟩

theorem Ready.left (h : T.Ready (own ++ own')) : T.Ready own :=
  ⟨h.sound, (List.nodup_append.1 h.nodup).1, fun x hx => h.fresh x (List.mem_append_left own' hx)⟩

/-- What was ready before some variables were entered is ready after them. -/
theorem Ready.right (h : T.Ready (own ++ own')) (he : T.Enters T' own) : T'.Ready own' := by
  refine ⟨he.sound, (List.nodup_append.1 h.nodup).2.1, fun x hx => ?_⟩
  obtain ⟨hn, hd⟩ := h.fresh x (List.mem_append_right own hx)
  refine ⟨?_, hd⟩
  cases hx' : T'.get? x with
  | none => rfl
  | some s =>
    rcases he.names x s hx' hn with ho | ho
    · exact absurd rfl ((List.nodup_append.1 h.nodup).2.2 x ho.1 x hx)
    · exact absurd ho hd

/-- Entering a variable of its own. -/
theorem Ready.enter {x : String} (h : T.Ready [x]) {s : Symbol} (hf : s.isFunction = false)
    (ht : s.ty.isFunction = false) : T.Enters (Table.set T x s) [x] := by
  have hx := (h.fresh x (by simp)).1
  refine ⟨.set fun s' hs' => ?_, h.sound.set x (Symbol.isSound_of_value hf ht), fun y s' hy hn => ?_⟩
  · rw [hx] at hs'
    cases hs'
  · by_cases hxy : x = y
    · rw [Table.get?_set, if_pos hxy] at hy
      cases hy
      exact .inl ⟨by simp [hxy], hf⟩
    · rw [Table.get?_set, if_neg hxy, hn] at hy
      cases hy

/-- Entering a linked name, which may agree with what it was. -/
theorem enter_linked {x : String} (h : T.IsSound) (hx : Dotless x) {s : Symbol} (hs : s.IsSound)
    (ha : ∀ s', T.get? x = some s' → s'.Agrees s) : T.Enters (Table.set T x s) [] := by
  refine ⟨.set ha, h.set x hs, fun y s' hy hn => ?_⟩
  by_cases hxy : x = y
  · exact .inr (hxy ▸ hx)
  · rw [Table.get?_set, if_neg hxy, hn] at hy
    cases hy

theorem Covers.mono {known : String → Prop} (h : T.Covers known) (he : T.Extends T') : T'.Covers known := by
  intro x hx
  obtain ⟨s, hs⟩ := h x hx
  obtain ⟨s', hs', _⟩ := he x s hs
  exact ⟨s', hs'⟩

theorem Covers.with {known : String → Prop} (h : T.Covers known) (xs : List String)
    (hx : ∀ x ∈ xs, ∃ s, T.get? x = some s) : T.Covers (withNames known xs) := by
  rintro x (hk | hk)
  · exact h x hk
  · exact hx x hk

end SymbolTable

end Khel
