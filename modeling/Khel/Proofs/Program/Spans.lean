import Khel.Program.Expr
import Khel.Proofs.Span

/-!
# Where built expressions stand

A node that is built out of its parts spans them, and so does each part that was built in its turn. In which shape the
parts were put together does not matter: the root stands at the hull of the places of the leaves and of the operators
in front of an operand, read from left to right.

* `Expr.Build`: a way to put an expression together, `Build.expr` what comes of it, and `Build.places` what it was put
  together from.
* `Expr.Build.span_expr`: the span of the root.
* `Expr.Build.span32?_of_fits`: the same in 32-bit arithmetic, which overflows at no node.
* `Expr.Build.spans_hull`: joining takes least spans, and the root has the least one over all places.
-/

namespace Khel.Expr

open Khel.Span (hulls hull32?)

/-- A way to put an expression together from expressions that are there already. -/
inductive Build where
  | leaf (e : Expr)
  | unary (place : Span) (op : UnaryOp) (arg : Build)
  | binary (op : BinaryOp) (left right : Build)
  | assign (target value : Build)
  | range (first last : Build)

namespace Build

/-- The expression that is put together. -/
def expr : Build → Expr
  | leaf e => e
  | unary place op a => mkUnary place op a.expr
  | binary op l r => mkBinary op l.expr r.expr
  | assign l r => mkAssign l.expr r.expr
  | range l r => mkRange l.expr r.expr

/-- Where the leaves and the operators in front of an operand stand, from left to right. -/
def places : Build → List Span
  | leaf e => [e.span]
  | unary place _ a => place :: a.places
  | binary _ l r | assign l r | range l r => l.places ++ r.places

/-- The span of the root in 32-bit arithmetic, if it overflows at no node. -/
def span32? : Build → Option Span
  | leaf e => some e.span
  | unary place _ a => do hull32? place (← a.span32?)
  | binary _ l r | assign l r | range l r => do hull32? (← l.span32?) (← r.span32?)

theorem places_ne_nil (b : Build) : b.places ≠ [] := by
  cases b with
  | leaf _ | unary _ _ _ => simp [places]
  | binary _ l r | assign l r | range l r => simp [places, l.places_ne_nil]

/-- The root stands at the hull of all places, whatever the shape of the tree. -/
theorem span_expr (b : Build) : b.expr.span = hulls b.places := by
  induction b with
  | leaf e => rfl
  | unary place op a ih =>
    rw [places, Span.hulls_cons place a.places_ne_nil, ← ih]
    rfl
  | binary _ l r ihl ihr | assign l r ihl ihr | range l r ihl ihr =>
    rw [places, Span.hulls_append l.places_ne_nil r.places_ne_nil, ← ihl, ← ihr]
    rfl

/-- If the places end within 32 bits, the spans of all nodes do, and none of them overflows on the way. -/
theorem span32?_of_fits (b : Build) (h : ∀ p ∈ b.places, p.Fits) : b.span32? = some b.expr.span ∧ b.expr.span.Fits := by
  induction b with
  | leaf e => exact ⟨rfl, h e.span (by simp [places])⟩
  | unary place op a ih =>
    obtain ⟨hplace, ha⟩ := List.forall_mem_cons.1 h
    obtain ⟨hrun, hfits⟩ := ih ha
    refine ⟨?_, hplace.hull hfits⟩
    rw [span32?, hrun]
    exact Span.hull32?_of_fits hplace hfits
  | binary _ l r ihl ihr | assign l r ihl ihr | range l r ihl ihr =>
    obtain ⟨hl, hr⟩ := List.forall_mem_append.1 h
    obtain ⟨hrunl, hfitsl⟩ := ihl hl
    obtain ⟨hrunr, hfitsr⟩ := ihr hr
    refine ⟨?_, hfitsl.hull hfitsr⟩
    rw [span32?, hrunl, hrunr]
    exact Span.hull32?_of_fits hfitsl hfitsr

/-- Joining spans of 32 bits overflows nowhere and gives such a span; it is associative, and on spans that are not empty
it is commutative and idempotent and gives the least span that holds both. So in whichever shape an expression is built
of leaves, its root stands at the hull of the places of leaves and operators, from left to right, and this is the least
span that holds those of them that are not empty. -/
theorem spans_hull (r s t : Span) (b : Build) :
    (s.Fits → t.Fits → hull32? s t = some (s.hull t) ∧ (s.hull t).Fits) ∧
      (r.hull s).hull t = r.hull (s.hull t) ∧
      (s.isEmpty = false → t.isEmpty = false →
        s.hull t = t.hull s ∧ s.hull s = s ∧ ∀ u : Span, u.IsLeast [s, t] ↔ u = s.hull t) ∧
      ((∀ p ∈ b.places, p.Fits) → b.span32? = some b.expr.span ∧ b.expr.span.Fits) ∧
      b.expr.span = hulls b.places ∧
      ((∃ p ∈ b.places, p.isEmpty = false) → ∀ u : Span, u.IsLeast b.places ↔ u = b.expr.span) := by
  refine ⟨?_, Span.hull_assoc r s t, ?_, b.span32?_of_fits, b.span_expr, ?_⟩
  · exact fun hs ht => ⟨Span.hull32?_of_fits hs ht, hs.hull ht⟩
  · intro hs ht
    refine ⟨Span.hull_comm hs ht, Span.hull_self s, fun u => ?_⟩
    exact Span.isLeast_iff_eq_hulls ⟨s, List.mem_cons_self, hs⟩
  · intro h u
    rw [b.span_expr]
    exact Span.isLeast_iff_eq_hulls h

/-- The way to put `a = -b + c .. d` together, with a `b` that stands nowhere. -/
def countdown : Build :=
  .assign (.leaf (.var ⟨⟨4, 1⟩, none⟩ "a"))
    (.range
      (.binary (.strict (.arith .add)) (.unary ⟨8, 1⟩ .negate (.leaf (.var {} "b"))) (.leaf (.var ⟨⟨13, 1⟩, none⟩ "c")))
      (.leaf (.var ⟨⟨16, 2⟩, none⟩ "d")))

/-- Its root reaches from `a` to `d`. -/
theorem countdown_hull : (∀ p ∈ countdown.places, p.Fits) ∧ (∃ p ∈ countdown.places, p.isEmpty = true) ∧
    countdown.span32? = some ⟨4, 14⟩ ∧ ∀ u : Span, u.IsLeast countdown.places ↔ u = ⟨4, 14⟩ := by
  have hfits : ∀ p ∈ countdown.places, p.Fits := by decide
  obtain ⟨-, -, -, hrun, -, hleast⟩ := spans_hull ⟨4, 1⟩ ⟨8, 1⟩ ⟨16, 2⟩ countdown
  exact ⟨hfits, by decide, (hrun hfits).1, hleast (by decide)⟩

end Build

end Khel.Expr
