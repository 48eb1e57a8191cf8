import Khel.Naming.Scope
import Mathlib.Data.List.Forall2

/-!
# What a step ensures

Every stage is written in a monad of state and errors. `Yields` says what a computation without state ends with, and
`Ensures` what a step ends with when it is run from a given state. Each has one rule for every way in which steps are
put together, so a proof about a stage follows the text of the stage.

* `Yields.bind`, `Ensures.bind`: what follows a step may rely on what the step ensures.
* `Ensures.of_ok`: a step that ends well ends as it ensures.
-/

namespace Khel

variable {ε ε' σ α β : Type}

/-! ## Without state -/

/-- What follows a computation is reached if the computation ends well. -/
theorem Except.exists_of_bind {x : Except ε α} {f : α → Except ε β} {b : β} (h : x >>= f = .ok b) :
    ∃ a, x = .ok a ∧ f a = .ok b := by
  cases x with
  | ok a => exact ⟨a, rfl, h⟩
  | error e => cases h

/-- What is known of the second entries of related lists. -/
theorem forall_of_forall₂ {P : β → Prop} {xs : List α} {ys : List β} (h : List.Forall₂ (fun _ y => P y) xs ys) :
    ∀ y ∈ ys, P y := by
  induction h with
  | nil => simp
  | cons hy _ ih => exact List.forall_mem_cons.2 ⟨hy, ih⟩

/-- The result satisfies `Q`, or the error satisfies `E`. -/
def Yields (x : Except ε α) (E : ε → Prop) (Q : α → Prop) : Prop :=
  match x with
  | .ok a => Q a
  | .error e => E e

namespace Yields

variable {E : ε → Prop} {Q R : α → Prop} {x : Except ε α}

theorem pure {a : α} (h : Q a) : Yields (Pure.pure a) E Q := h

theorem throw {e : ε} (h : E e) : Yields (MonadExcept.throw e : Except ε α) E Q := h

theorem bind {f : α → Except ε β} {P : β → Prop} (hx : Yields x E R) (hf : ∀ a, R a → Yields (f a) E P) :
    Yields (x >>= f) E P := by
  cases x with
  | ok a => exact hf a hx
  | error e => exact hx

theorem mono (hx : Yields x E R) (h : ∀ a, R a → Q a) : Yields x E Q := by
  cases x with
  | ok a => exact h a hx
  | error e => exact hx

theorem and (hQ : Yields x E Q) (hR : Yields x E R) : Yields x E fun a => Q a ∧ R a := by
  cases x with
  | ok a => exact ⟨hQ, hR⟩
  | error e => exact hQ

/-- A computation that ends well ends as it yields. -/
theorem of_ok {a : α} (h : Yields x E Q) (hx : x = .ok a) : Q a := by
  subst hx
  exact h

/-- Whatever is known of results may be used about them. -/
theorem of_forall (h : ∀ a, x = .ok a → Q a) : Yields x (fun _ => True) Q := by
  cases x with
  | ok a => exact h a rfl
  | error e => trivial

/-- A computation that has no error to end with ends well. -/
theorem exists_ok (h : Yields x (fun _ => False) Q) : ∃ a, x = .ok a ∧ Q a := by
  cases x with
  | ok a => exact ⟨a, rfl, h⟩
  | error e => exact h.elim

/-- A computation for each entry of a list. -/
theorem mapM {f : α → Except ε β} {P : α → β → Prop} : ∀ {xs : List α}, (∀ a ∈ xs, Yields (f a) E (P a)) →
    Yields (xs.mapM f) E fun ys => List.Forall₂ P xs ys
  | [], _ => .pure .nil
  | a :: as, h => by
    rw [List.mapM_cons]
    obtain ⟨ha, has⟩ := List.forall_mem_cons.1 h
    refine .bind ha fun b hb => ?_
    exact .bind (mapM has) fun bs hbs => .pure (.cons hb hbs)

/-- The same, if the results do not depend on the entries. -/
theorem mapM_all {f : α → Except ε β} {P : β → Prop} {xs : List α} (h : ∀ a ∈ xs, Yields (f a) E P) :
    Yields (xs.mapM f) E fun ys => ∀ b ∈ ys, P b :=
  (Yields.mapM h).mono fun _ hys => forall_of_forall₂ hys

end Yields

/-! ## With state -/

/-- Run from `s`, the step ends with a result and a state that satisfy `Q`, or with an error that satisfies `E`. -/
def Ensures (m : StateT σ (Except ε) α) (s : σ) (E : ε → Prop) (Q : α → σ → Prop) : Prop :=
  Yields (m.run s) E fun r => Q r.1 r.2

namespace Ensures

variable {E : ε → Prop} {Q R : α → σ → Prop} {m : StateT σ (Except ε) α} {s : σ}

theorem pure {a : α} (h : Q a s) : Ensures (Pure.pure a) s E Q := h

theorem throw {e : ε} (h : E e) : Ensures (MonadExcept.throw e : StateT σ (Except ε) α) s E Q := h

theorem bind {f : α → StateT σ (Except ε) β} {P : β → σ → Prop} (hm : Ensures m s E R)
    (hf : ∀ a s', R a s' → Ensures (f a) s' E P) : Ensures (m >>= f) s E P :=
  Yields.bind hm fun r hr => hf r.1 r.2 hr

theorem mono (hm : Ensures m s E R) (h : ∀ a s', R a s' → Q a s') : Ensures m s E Q :=
  Yields.mono hm fun r hr => h r.1 r.2 hr

/-- Reading the state gives the state. -/
theorem get_bind {f : σ → StateT σ (Except ε) β} {P : β → σ → Prop} (h : Ensures (f s) s E P) :
    Ensures (MonadState.get >>= f) s E P := h

/-- After writing, the state is what was written. -/
theorem set_bind {t : σ} {f : PUnit → StateT σ (Except ε) β} {P : β → σ → Prop} (h : Ensures (f ⟨⟩) t E P) :
    Ensures (MonadStateOf.set t >>= f) s E P := h

/-- A computation without state leaves the state alone. -/
theorem lift_bind {x : Except ε α} {f : α → StateT σ (Except ε) β} {R : α → Prop} {P : β → σ → Prop}
    (hx : Yields x E R) (hf : ∀ a, R a → Ensures (f a) s E P) : Ensures (liftM x >>= f) s E P := by
  cases x with
  | ok a => exact hf a hx
  | error e => exact hx

/-- The same at the end of a step. -/
theorem lift {x : Except ε α} {R : α → Prop} (hx : Yields x E R) :
    Ensures (liftM x : StateT σ (Except ε) α) s E fun a s' => s' = s ∧ R a := by
  cases x with
  | ok a => exact ⟨rfl, hx⟩
  | error e => exact hx

/-- A step whose last state is forgotten. -/
theorem run' {P : α → Prop} (h : Ensures m s E fun a _ => P a) : Yields (m.run' s) E P :=
  Yields.bind h fun _ hr => hr

/-- A step that ends well ends as it ensures. -/
theorem of_ok {a : α} {s' : σ} (h : Ensures m s E Q) (hm : m.run s = .ok (a, s')) : Q a s' := by
  rw [Ensures, hm] at h
  exact h

/-- Whatever is known of the ends of a step may be used about them. -/
theorem of_run (h : ∀ a s', m.run s = .ok (a, s') → Q a s') : Ensures m s (fun _ => True) Q :=
  Yields.of_forall fun r hr => h r.1 r.2 hr

end Ensures

/-- A fresh name takes the next number. -/
theorem Fresh.name_ensures (stem : String) (n : Nat) :
    Ensures (Fresh.name stem) n (fun _ => True) fun x n' => x = numbered stem n ∧ n' = n + 1 :=
  .get_bind <| .set_bind <| .pure ⟨rfl, rfl⟩

end Khel
