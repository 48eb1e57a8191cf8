import Khel.Proofs.Ensures

/-!
# Two runs side by side

Some statements compare two runs of one stage, on an input and on a translated input. `Mirrors` says of two computations
that they succeed together, and that the result of the second is the translated result of the first; how they fail does
not matter. `Shadows` says the same of steps that start from a state and from the translated state.

* `Mirrors.bind`, `Shadows.bind`: steps that follow each other may be compared one by one.
* `Mirrors.ok_iff`: computations that mirror each other without a translation have the same results.
-/

namespace Khel

variable {ε ε' σ α β γ δ : Type}

/-! ## Without state -/

/-- Both computations end well, the second with the result of the first translated by `f`, or both fail. -/
def Mirrors (f : α → β) : Except ε α → Except ε' β → Prop
  | .ok a, .ok b => b = f a
  | .error _, .error _ => True
  | _, _ => False

namespace Mirrors

variable {f : α → β} {g : γ → δ} {x : Except ε α} {y : Except ε' β}

theorem pure {a : α} {b : β} (h : b = f a) :
    Mirrors f (Pure.pure a : Except ε α) (Pure.pure b : Except ε' β) := h

theorem throw (e : ε) (e' : ε') :
    Mirrors f (MonadExcept.throw e : Except ε α) (MonadExcept.throw e' : Except ε' β) := trivial

theorem refl (x : Except ε α) : Mirrors id x x := by
  cases x <;> trivial

/-- What follows may rely on what the first computation ends with. -/
theorem bind_ok {k : α → Except ε γ} {k' : β → Except ε' δ} (h : Mirrors f x y)
    (hk : ∀ a, x = .ok a → Mirrors g (k a) (k' (f a))) : Mirrors g (x >>= k) (y >>= k') := by
  cases x with
  | ok a =>
    cases y with
    | ok b =>
      cases h
      exact hk a rfl
    | error e => cases h
  | error e =>
    cases y with
    | ok b => cases h
    | error e' => trivial

theorem bind {k : α → Except ε γ} {k' : β → Except ε' δ} (h : Mirrors f x y) (hk : ∀ a, Mirrors g (k a) (k' (f a))) :
    Mirrors g (x >>= k) (y >>= k') := h.bind_ok fun a _ => hk a

/-- Both computations decide alike. -/
theorem ite {c : Prop} [Decidable c] {x' : Except ε α} {y' : Except ε' β} (h : c → Mirrors f x y)
    (h' : ¬ c → Mirrors f x' y') : Mirrors f (if c then x else x') (if c then y else y') := by
  by_cases hc : c
  · rw [if_pos hc, if_pos hc]
    exact h hc
  · rw [if_neg hc, if_neg hc]
    exact h' hc

theorem mapM {ι κ : Type} {t : ι → κ} {k : ι → Except ε α} {k' : κ → Except ε' β} (xs : List ι)
    (h : ∀ i ∈ xs, Mirrors f (k i) (k' (t i))) : Mirrors (List.map f) (xs.mapM k) ((xs.map t).mapM k') := by
  induction xs with
  | nil => exact .pure rfl
  | cons i is ih =>
    obtain ⟨hi, his⟩ := List.forall_mem_cons.1 h
    rw [List.map_cons, List.mapM_cons, List.mapM_cons]
    exact .bind hi fun a => .bind (ih his) fun as => .pure rfl

/-- The errors may be wrapped. -/
theorem rejecting {x : Except Rejection α} {y : Except Rejection β} (h : Mirrors f x y) :
    Mirrors f (CompileError.ofRejecting x) (CompileError.ofRejecting y) := by
  cases x <;> cases y <;> exact h

theorem faulting {x : Except Fault α} {y : Except Fault β} (h : Mirrors f x y) :
    Mirrors f (CompileError.ofFaulting x) (CompileError.ofFaulting y) := by
  cases x <;> cases y <;> exact h

/-- The computations succeed together. -/
theorem isOk_iff (h : Mirrors f x y) : (∃ a, x = .ok a) ↔ ∃ b, y = .ok b := by
  cases x <;> cases y <;> simp_all [Mirrors]

/-- Two computations with the same mirror image have the same results. -/
theorem ok_iff {x x' : Except ε α} {y : Except ε' α} (h : Mirrors id x y) (h' : Mirrors id x' y) (a : α) :
    x = .ok a ↔ x' = .ok a := by
  cases x <;> cases x' <;> cases y <;> simp_all [Mirrors]

end Mirrors

/-! ## With state -/

/-- The steps mirror each other from a state and from the state that `t` makes of it. -/
def Shadows (t : σ → σ) (f : α → β) (m : StateT σ (Except ε) α) (m' : StateT σ (Except ε') β) : Prop :=
  ∀ s, Mirrors (Prod.map f t) (m.run s) (m'.run (t s))

namespace Shadows

variable {t : σ → σ} {f : α → β} {g : γ → δ} {m : StateT σ (Except ε) α} {m' : StateT σ (Except ε') β}

theorem pure {a : α} {b : β} (h : b = f a) :
    Shadows t f (Pure.pure a : StateT σ (Except ε) α) (Pure.pure b : StateT σ (Except ε') β) := by
  intro s
  subst h
  exact Mirrors.pure rfl

theorem throw (e : ε) (e' : ε') : Shadows t f (MonadExcept.throw e : StateT σ (Except ε) α)
    (MonadExcept.throw e' : StateT σ (Except ε') β) := fun _ => Mirrors.throw e e'

theorem refl (m : StateT σ (Except ε) α) : Shadows id id m m := by
  intro s
  show Mirrors (Prod.map id id) (m.run s) (m.run s)
  cases m.run s <;> trivial

theorem bind {k : α → StateT σ (Except ε) γ} {k' : β → StateT σ (Except ε') δ} (h : Shadows t f m m')
    (hk : ∀ a, Shadows t g (k a) (k' (f a))) : Shadows t g (m >>= k) (m' >>= k') :=
  fun s => Mirrors.bind (h s) fun r => hk r.1 r.2

/-- What follows may look at the state. -/
theorem get_bind {k : σ → StateT σ (Except ε) γ} {k' : σ → StateT σ (Except ε') δ}
    (hk : ∀ s, Shadows t g (k s) (k' (t s))) : Shadows t g (MonadState.get >>= k) (MonadState.get >>= k') :=
  fun s => hk s s

/-- Whatever the states are, the new ones are written. -/
theorem set_bind {a b : σ} {k : PUnit → StateT σ (Except ε) γ} {k' : PUnit → StateT σ (Except ε') δ} (h : b = t a)
    (hk : Shadows t g (k ⟨⟩) (k' ⟨⟩)) : Shadows t g (MonadStateOf.set a >>= k) (MonadStateOf.set b >>= k') := by
  intro _
  subst h
  exact hk a

/-- A computation without state leaves the state alone. -/
theorem lift {x : Except ε α} {y : Except ε' β} (h : Mirrors f x y) :
    Shadows t f (liftM x : StateT σ (Except ε) α) (liftM y : StateT σ (Except ε') β) := by
  intro s
  apply Mirrors.bind h
  intro a
  exact Mirrors.pure rfl

theorem ite {c : Prop} [Decidable c] {n : StateT σ (Except ε) α} {n' : StateT σ (Except ε') β}
    (h : c → Shadows t f m m') (h' : ¬ c → Shadows t f n n') :
    Shadows t f (if c then m else n) (if c then m' else n') := by
  by_cases hc : c
  · rw [if_pos hc, if_pos hc]
    exact h hc
  · rw [if_neg hc, if_neg hc]
    exact h' hc

/-- The last state may be forgotten. -/
theorem run' (h : Shadows t f m m') (s : σ) : Mirrors f (m.run' s) (m'.run' (t s)) :=
  Mirrors.bind (h s) fun _ => .pure rfl

end Shadows

end Khel
