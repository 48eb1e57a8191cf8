import Khel.Span
import Mathlib.Algebra.Group.Nat.Defs
import Mathlib.Data.List.Basic

/-!
# Hulls of spans

Joining two spans gives the least span that holds both, but an empty span has nothing to hold: it gives way to the other
one, wherever it stands. So a span holds a hull if and only if it holds both parts, empty or not, and joining is
associative. The hull of a list of spans can be taken in any grouping.

* `Span.hull_within_iff`, `Span.hull_assoc`: what a hull is, and that joining is associative.
* `Span.hull32?_of_fits`: joining in 32-bit arithmetic overflows nowhere, and its result ends within 32 bits.
* `Span.hulls_append`: the hull of a list of spans, by parts.
* `Span.isLeast_iff_eq_hulls`: it is the one least span over the list, if some span of the list is not empty.
-/

namespace Khel.Span

/-! ## What a span holds -/

/-- The positions of a span. -/
instance : Membership Nat Span := ⟨fun s i => s.offset ≤ i ∧ i < s.stop⟩

/-- The span `t` holds every position of `s`. -/
def Within (s t : Span) : Prop := ∀ i ∈ s, i ∈ t

section Within

variable {s t : Span}

theorem mem_iff {i : Nat} : i ∈ s ↔ s.offset ≤ i ∧ i < s.stop := Iff.rfl

theorem isEmpty_iff : s.isEmpty = true ↔ s.length = 0 := by simp [isEmpty]

theorem isEmpty_eq_false_iff : s.isEmpty = false ↔ 0 < s.length := by simp [isEmpty, Nat.pos_iff_ne_zero]

theorem ext_stop (hstart : s.offset = t.offset) (hstop : s.stop = t.stop) : s = t := by
  obtain ⟨o, n⟩ := s
  obtain ⟨o', n'⟩ := t
  simp only [stop] at hstart hstop
  congr 1
  omega

/-- An empty span has no positions. -/
theorem within_of_isEmpty (h : s.isEmpty = true) : s.Within t := by
  intro i hi
  rw [isEmpty_iff] at h
  rw [mem_iff, stop] at hi
  omega

/-- A span that is not empty is held from its first position to its last. -/
theorem within_iff (h : s.isEmpty = false) : s.Within t ↔ t.offset ≤ s.offset ∧ s.stop ≤ t.stop := by
  rw [isEmpty_eq_false_iff] at h
  constructor
  · intro hst
    have hfirst := mem_iff.1 (hst s.offset (mem_iff.2 ⟨Nat.le_refl _, by unfold stop; omega⟩))
    have hlast := mem_iff.1 (hst (s.stop - 1) (mem_iff.2 (by unfold stop; omega)))
    omega
  · intro hst i hi
    rw [mem_iff] at hi ⊢
    omega

/-- What holds a span that is not empty is not empty itself. -/
theorem Within.isEmpty_eq_false (h : s.Within t) (hs : s.isEmpty = false) : t.isEmpty = false := by
  rw [within_iff hs] at h
  rw [isEmpty_eq_false_iff] at hs ⊢
  unfold stop at h
  omega

/-- Spans that hold one another are the same, if they are not empty. -/
theorem Within.antisymm (hst : s.Within t) (hts : t.Within s) (hs : s.isEmpty = false) : s = t := by
  have ht := hst.isEmpty_eq_false hs
  rw [within_iff hs] at hst
  rw [within_iff ht] at hts
  apply ext_stop <;> omega

end Within

/-! ## Two spans -/

section Hull

variable {r s t : Span}

theorem hull_of_isEmpty_left (hs : s.isEmpty = true) : s.hull t = t := by simp [hull, hs]

theorem hull_of_isEmpty_right (hs : s.isEmpty = false) (ht : t.isEmpty = true) : s.hull t = s := by simp [hull, hs, ht]

theorem offset_hull (hs : s.isEmpty = false) (ht : t.isEmpty = false) :
    (s.hull t).offset = min s.offset t.offset := by simp [hull, hs, ht]

theorem stop_hull (hs : s.isEmpty = false) (ht : t.isEmpty = false) : (s.hull t).stop = max s.stop t.stop := by
  simp only [hull, hs, ht, stop, Bool.false_eq_true, if_false]
  omega

/-- A hull is empty if both of its parts are. -/
theorem isEmpty_hull : (s.hull t).isEmpty = (s.isEmpty && t.isEmpty) := by
  cases hs : s.isEmpty with
  | true => rw [hull_of_isEmpty_left hs, Bool.true_and]
  | false =>
    cases ht : t.isEmpty with
    | true => rw [hull_of_isEmpty_right hs ht, hs, Bool.false_and]
    | false =>
      have hstart := offset_hull hs ht
      have hstop := stop_hull hs ht
      rw [isEmpty_eq_false_iff] at hs
      rw [Bool.false_and, isEmpty_eq_false_iff]
      unfold stop at hstop
      omega

/-- What holds both parts holds the hull, and the other way round. -/
theorem hull_within_iff {u : Span} : (s.hull t).Within u ↔ s.Within u ∧ t.Within u := by
  cases hs : s.isEmpty with
  | true => rw [hull_of_isEmpty_left hs, and_iff_right (within_of_isEmpty hs)]
  | false =>
    cases ht : t.isEmpty with
    | true => rw [hull_of_isEmpty_right hs ht, and_iff_left (within_of_isEmpty ht)]
    | false =>
      have hst : (s.hull t).isEmpty = false := by rw [isEmpty_hull, hs, Bool.false_and]
      rw [within_iff hst, within_iff hs, within_iff ht, offset_hull hs ht, stop_hull hs ht]
      omega

/-- Joining is associative, whichever of the spans are empty. -/
theorem hull_assoc (r s t : Span) : (r.hull s).hull t = r.hull (s.hull t) := by
  cases hr : r.isEmpty with
  | true => rw [hull_of_isEmpty_left hr, hull_of_isEmpty_left hr]
  | false =>
    cases hs : s.isEmpty with
    | true => rw [hull_of_isEmpty_right hr hs, hull_of_isEmpty_left hs]
    | false =>
      have hrs : (r.hull s).isEmpty = false := by rw [isEmpty_hull, hr, Bool.false_and]
      cases ht : t.isEmpty with
      | true => rw [hull_of_isEmpty_right hrs ht, hull_of_isEmpty_right hs ht]
      | false =>
        have hst : (s.hull t).isEmpty = false := by rw [isEmpty_hull, hs, Bool.false_and]
        apply ext_stop
        · rw [offset_hull hrs ht, offset_hull hr hs, offset_hull hr hst, offset_hull hs ht, Nat.min_assoc]
        · rw [stop_hull hrs ht, stop_hull hr hs, stop_hull hr hst, stop_hull hs ht, Nat.max_assoc]

/-- Two empty spans need not commute: the second one is left. -/
theorem hull_comm (hs : s.isEmpty = false) (ht : t.isEmpty = false) : s.hull t = t.hull s := by
  apply ext_stop
  · rw [offset_hull hs ht, offset_hull ht hs, Nat.min_comm]
  · rw [stop_hull hs ht, stop_hull ht hs, Nat.max_comm]

theorem hull_self (s : Span) : s.hull s = s := by
  cases hs : s.isEmpty with
  | true => exact hull_of_isEmpty_left hs
  | false =>
    apply ext_stop
    · rw [offset_hull hs hs, Nat.min_self]
    · rw [stop_hull hs hs, Nat.max_self]

end Hull

/-! ## 32-bit arithmetic -/

/-- The span ends within 32 bits. -/
def Fits (s : Span) : Prop := s.stop < 2 ^ 32

instance (s : Span) : Decidable s.Fits := inferInstanceAs (Decidable (_ < _))

/-- The sum, if 32 bits hold it. -/
def add32? (m n : Nat) : Option Nat := if m + n < 2 ^ 32 then some (m + n) else none

/-- The difference, if it is not below zero. -/
def sub32? (m n : Nat) : Option Nat := if n ≤ m then some (m - n) else none

/-- The hull in 32-bit arithmetic, if nothing overflows on the way. -/
def hull32? (s t : Span) : Option Span :=
  if s.isEmpty then some t
  else if t.isEmpty then some s
  else do
    let start := min s.offset t.offset
    let stop ← add32? s.offset s.length
    let stop' ← add32? t.offset t.length
    return ⟨start, ← sub32? (max stop stop') start⟩

section Fits

variable {s t : Span}

theorem add32?_of_fits (h : s.Fits) : add32? s.offset s.length = some s.stop := if_pos h

theorem Fits.hull (hs : s.Fits) (ht : t.Fits) : (s.hull t).Fits := by
  cases hse : s.isEmpty with
  | true => rwa [hull_of_isEmpty_left hse]
  | false =>
    cases hte : t.isEmpty with
    | true => rwa [hull_of_isEmpty_right hse hte]
    | false =>
      rw [Fits, stop_hull hse hte]
      exact Nat.max_lt.2 ⟨hs, ht⟩

/-- Spans that end within 32 bits are joined without overflow. -/
theorem hull32?_of_fits (hs : s.Fits) (ht : t.Fits) : hull32? s t = some (s.hull t) := by
  cases hse : s.isEmpty with
  | true => rw [hull_of_isEmpty_left hse, hull32?, if_pos hse]
  | false =>
    cases hte : t.isEmpty with
    | true => simp [hull_of_isEmpty_right hse hte, hull32?, hse, hte]
    | false =>
      -- The first position is not behind the last one, so the length is no difference below zero.
      have hle : min s.offset t.offset ≤ max s.stop t.stop := by
        unfold stop
        omega
      have hlength : sub32? (max s.stop t.stop) (min s.offset t.offset) =
          some (max s.stop t.stop - min s.offset t.offset) := if_pos hle
      simp [hull32?, hull, hse, hte, add32?_of_fits hs, add32?_of_fits ht, hlength]

end Fits

/-! ## Lists of spans -/

/-- The hull of a list of spans. -/
def hulls : List Span → Span
  | [] => nowhere
  | [s] => s
  | s :: t :: ss => s.hull (hulls (t :: ss))

/-- The least span that holds all spans of a list that are not empty. -/
structure IsLeast (t : Span) (ss : List Span) : Prop where
  holds : ∀ s ∈ ss, s.isEmpty = false → s.Within t
  least : ∀ u : Span, (∀ s ∈ ss, s.isEmpty = false → s.Within u) → t.Within u

theorem hulls_cons (s : Span) {ss : List Span} (h : ss ≠ []) : hulls (s :: ss) = s.hull (hulls ss) := by
  cases ss with
  | nil => exact absurd rfl h
  | cons t ss => rfl

/-- The spans of a list may be joined in two parts. -/
theorem hulls_append {ss ts : List Span} (hs : ss ≠ []) (ht : ts ≠ []) :
    hulls (ss ++ ts) = (hulls ss).hull (hulls ts) := by
  induction ss with
  | nil => exact absurd rfl hs
  | cons s ss ih =>
    cases ss with
    | nil => exact hulls_cons s ht
    | cons s' ss => rw [List.cons_append, hulls_cons s (by simp), hulls_cons s (by simp), hull_assoc, ih (by simp)]

/-- What holds all spans of a list holds their hull, and the other way round. -/
theorem hulls_within_iff {u : Span} (ss : List Span) : (hulls ss).Within u ↔ ∀ s ∈ ss, s.Within u := by
  induction ss with
  | nil => exact iff_of_true (within_of_isEmpty rfl) (by simp)
  | cons s ss ih =>
    cases ss with
    | nil => simp [hulls]
    | cons t ss => simp only [hulls, hull_within_iff, ih, List.forall_mem_cons]

/-- Empty spans are held anyway. -/
theorem forall_within_iff {u : Span} {ss : List Span} :
    (∀ s ∈ ss, s.isEmpty = false → s.Within u) ↔ ∀ s ∈ ss, s.Within u := by
  constructor
  · intro h s hs
    cases he : s.isEmpty with
    | true => exact within_of_isEmpty he
    | false => exact h s hs he
  · exact fun h s hs _ => h s hs

/-- The hull of a list is the one least span over it, if the list has a span that is not empty. -/
theorem isLeast_iff_eq_hulls {t : Span} {ss : List Span} (h : ∃ s ∈ ss, s.isEmpty = false) :
    t.IsLeast ss ↔ t = hulls ss := by
  have hhulls : IsLeast (hulls ss) ss := by
    constructor
    · exact forall_within_iff.2 ((hulls_within_iff ss).1 fun _ hi => hi)
    · exact fun u hu => (hulls_within_iff ss).2 (forall_within_iff.1 hu)
  constructor
  · intro ht
    obtain ⟨s, hs, hse⟩ := h
    have hte := (ht.holds s hs hse).isEmpty_eq_false hse
    exact (ht.least _ hhulls.holds).antisymm (hhulls.least t ht.holds) hte
  · rintro rfl
    exact hhulls

end Khel.Span
