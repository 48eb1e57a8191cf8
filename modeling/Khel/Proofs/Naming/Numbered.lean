import Khel.Naming.Scope
import Mathlib.Data.List.Nodup

/-!
# Numbered names are told apart

A numbered name ends with a point and the digits of its number. No digit is a point, so the last point of the name
divides it, and both the stem and the number can be read back. Names without a point are therefore never numbered.

* `numbered_inj`: two numbered names are equal only if their stems and their numbers are.
* `nodup_numberFrom`: names that are numbered one after the other are pairwise different.
-/

namespace Khel

/-- The name has no point in it. -/
def Dotless (name : String) : Prop := '.' ∉ name.toList

instance (name : String) : Decidable (Dotless name) := inferInstanceAs (Decidable (¬ _))

/-! ## One name -/

theorem dot_notMem_digits (n : Nat) : '.' ∉ (toString n).toList := by
  intro h
  rw [Nat.toString_eq_ofList_toDigits, String.toList_ofList] at h
  have hd := Nat.isDigit_of_mem_toDigits (by decide) (by decide) h
  exact absurd hd (by decide)

theorem digits_inj {n m : Nat} (h : toString n = toString m) : n = m := by
  rw [Nat.toString_eq_ofList_toDigits, Nat.toString_eq_ofList_toDigits, String.ofList_inj] at h
  have hn := Nat.ofDigitChars_toDigits (b := 10) (n := n) (by decide) (by decide)
  rw [h, Nat.ofDigitChars_toDigits (by decide) (by decide)] at hn
  exact hn.symm

theorem toList_numbered (stem : String) (n : Nat) :
    (numbered stem n).toList = stem.toList ++ '.' :: (toString n).toList := by
  simp [numbered]

/-- Two lists that are divided by a point which does not occur behind it agree on both sides of it. -/
theorem append_dot_inj {a b c d : List Char} (hc : '.' ∉ c) (hd : '.' ∉ d) (h : a ++ '.' :: c = b ++ '.' :: d) :
    a = b ∧ c = d := by
  rcases List.append_eq_append_iff.1 h with ⟨m, rfl, hm⟩ | ⟨m, rfl, hm⟩
  · cases m with
    | nil => simpa using hm
    | cons x m => simp_all
  · cases m with
    | nil => simpa using hm.symm
    | cons x m => simp_all

/-- The stem and the number can be read off a numbered name. -/
theorem numbered_inj {stem stem' : String} {n n' : Nat} :
    numbered stem n = numbered stem' n' ↔ stem = stem' ∧ n = n' := by
  constructor
  · intro h
    have hl := congrArg String.toList h
    rw [toList_numbered, toList_numbered] at hl
    obtain ⟨hs, hn⟩ := append_dot_inj (dot_notMem_digits n) (dot_notMem_digits n') hl
    exact ⟨String.toList_inj.1 hs, digits_inj (String.toList_inj.1 hn)⟩
  · rintro ⟨rfl, rfl⟩
    rfl

theorem not_dotless_numbered (stem : String) (n : Nat) : ¬ Dotless (numbered stem n) := by
  intro h
  exact h (by simp [toList_numbered])

/-- A name without a point is no numbered name. -/
theorem Dotless.ne_numbered {name : String} (h : Dotless name) (stem : String) (n : Nat) : name ≠ numbered stem n := by
  rintro rfl
  exact not_dotless_numbered stem n h

/-! ## Many names -/

/-- Numbers names one after the other, counting from `n`. -/
def numberFrom (n : Nat) : List String → List String
  | [] => []
  | x :: xs => numbered x n :: numberFrom (n + 1) xs

theorem numberFrom_append (n : Nat) : ∀ xs ys : List String,
    numberFrom n (xs ++ ys) = numberFrom n xs ++ numberFrom (n + xs.length) ys
  | [], ys => by simp [numberFrom]
  | x :: xs, ys => by
    have ih := numberFrom_append (n + 1) xs ys
    simp only [List.cons_append, numberFrom, ih, List.length_cons]
    rw [show n + (xs.length + 1) = n + 1 + xs.length by omega]

theorem mem_numberFrom {y : String} : ∀ {n : Nat} {xs : List String}, y ∈ numberFrom n xs →
    ∃ x ∈ xs, ∃ m, n ≤ m ∧ y = numbered x m
  | _, [], h => by simp [numberFrom] at h
  | n, x :: xs, h => by
    simp only [numberFrom, List.mem_cons] at h
    rcases h with rfl | h
    · exact ⟨x, by simp, n, Nat.le_refl n, rfl⟩
    · obtain ⟨x', hx, m, hm, rfl⟩ := mem_numberFrom h
      exact ⟨x', by simp [hx], m, by omega, rfl⟩

/-- Names that are numbered one after the other are pairwise different. -/
theorem nodup_numberFrom : ∀ (n : Nat) (xs : List String), (numberFrom n xs).Nodup
  | _, [] => List.nodup_nil
  | n, x :: xs => by
    refine List.nodup_cons.2 ⟨fun h => ?_, nodup_numberFrom (n + 1) xs⟩
    obtain ⟨x', _, m, hm, he⟩ := mem_numberFrom h
    have := (numbered_inj.1 he).2
    omega

/-- A pass that counted from `n` to `n'` numbered the names `before` and got the names `after`. -/
structure Renames (n n' : Nat) (before after : List String) : Prop where
  count : n' = n + before.length
  names : after = numberFrom n before

namespace Renames

theorem nil (n : Nat) : Renames n n [] [] := ⟨rfl, rfl⟩

theorem single (stem : String) (n : Nat) : Renames n (n + 1) [stem] [numbered stem n] := ⟨rfl, rfl⟩

/-- One stretch of the text after the other. -/
theorem append {n n' n'' : Nat} {xs xs' ys ys' : List String} (hx : Renames n n' xs xs') (hy : Renames n' n'' ys ys') :
    Renames n n'' (xs ++ ys) (xs' ++ ys') := by
  refine ⟨?_, ?_⟩
  · rw [hy.count, hx.count, List.length_append]
    omega
  · rw [hy.names, hx.names, hx.count, numberFrom_append]

end Renames

end Khel
