import Khel.Proofs.Ir.Labels

/-!
# Points of a function

A point of a function is what remains of its code, so the points are the suffixes of the code. A jump goes to the point
behind its label.

* `codeAfter_of_suffix`: where no label stands twice, the point behind a label is the one behind any place where it
  stands.
* `condCode_append` and so on: a layout with the code that follows it, piece by piece.
-/

namespace Khel.Ir

/-- What follows the first place where a label stands. -/
def codeAfter (l : String) : List Instr → Option (List Instr)
  | [] => none
  | i :: rest => if i = .label l then some rest else codeAfter l rest

section Suffix

variable {full : List Instr}

theorem suffix_right {a b : List Instr} (h : a ++ b <:+ full) : b <:+ full := (List.suffix_append a b).trans h

theorem suffix_tail {i : Instr} {b : List Instr} (h : i :: b <:+ full) : b <:+ full := (List.suffix_cons i b).trans h

theorem codeAfter_append {l : String} : ∀ {a b : List Instr}, l ∉ labels a → codeAfter l (a ++ b) = codeAfter l b
  | [], _, _ => rfl
  | i :: a, b, h => by
    have hi : i ≠ .label l := by
      rintro rfl
      simp at h
    have ha : l ∉ labels a := fun hm => h (by simp [hm])
    rw [List.cons_append, codeAfter, if_neg hi, codeAfter_append ha]

/-- Where no label stands twice, the point behind a label is the one behind any place where it stands. -/
theorem codeAfter_of_suffix (hfull : (labels full).Nodup) {l : String} {rest : List Instr}
    (h : .label l :: rest <:+ full) : codeAfter l full = some rest := by
  obtain ⟨pre, rfl⟩ := h
  have hpre : l ∉ labels pre := by
    intro hm
    rw [labels_append, labels_cons] at hfull
    exact (List.nodup_append.1 hfull).2.2 l hm l (by simp) rfl
  rw [codeAfter_append hpre, codeAfter, if_pos rfl]

/-- A jump goes to a point of the function. -/
theorem codeAfter_suffix {l : String} : ∀ {code rest : List Instr}, codeAfter l code = some rest → rest <:+ code
  | [], _, h => by cases h
  | i :: code, rest, h => by
    unfold codeAfter at h
    split at h
    · cases h
      exact List.suffix_cons i _
    · exact (codeAfter_suffix h).trans (List.suffix_cons i code)

/-- Every label of the code is found. -/
theorem exists_codeAfter {l : String} : ∀ {code : List Instr}, l ∈ labels code → ∃ rest, codeAfter l code = some rest
  | [], h => by cases h
  | i :: code, h => by
    unfold codeAfter
    split
    · exact ⟨code, rfl⟩
    · next hi =>
      rw [labels_cons, List.mem_append] at h
      refine exists_codeAfter (h.resolve_left fun hm => hi ?_)
      cases i <;> simp_all

end Suffix

section Layouts

variable (start loop isFalse done : String) (test first last yes no : List Instr × Value)
  (body other rest : List Instr) (dst var one : Value)

theorem condCode_append : condCode isFalse done test yes no dst ++ rest =
    test.1 ++ (.jumpIfZero test.2 isFalse :: (yes.1 ++ (.copy yes.2 dst :: .jump done :: .label isFalse ::
      (no.1 ++ (.copy no.2 dst :: .label done :: rest))))) := by
  simp [condCode]

theorem ifThenCode_append : ifThenCode done test body ++ rest =
    test.1 ++ (.jumpIfZero test.2 done :: (body ++ (.label done :: rest))) := by
  simp [ifThenCode]

theorem ifElseCode_append : ifElseCode isFalse done test body other ++ rest =
    test.1 ++ (.jumpIfZero test.2 isFalse :: (body ++ (.jump done :: .label isFalse ::
      (other ++ (.label done :: rest))))) := by
  simp [ifElseCode]

theorem whileCode_append : whileCode start loop test body ++ rest =
    .label start :: (test.1 ++ (.jumpIfZero test.2 (breakLabel loop) :: (body ++
      (.label (continueLabel loop) :: .jump start :: .label (breakLabel loop) :: rest)))) := by
  simp [whileCode]

theorem rangeCode_append : rangeCode start loop var one dst first last body ++ rest =
    first.1 ++ (.copy first.2 var :: .label start :: (last.1 ++ (.binary (.compare .le) var last.2 dst ::
      .jumpIfZero dst (breakLabel loop) :: (body ++ (.label (continueLabel loop) ::
      .binary (.arith .add) var one var :: .jump start :: .label (breakLabel loop) :: rest))))) := by
  simp [rangeCode]

end Layouts

end Khel.Ir
