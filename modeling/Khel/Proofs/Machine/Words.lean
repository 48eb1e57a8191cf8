import Khel.Machine.Selection
import Khel.Proofs.Machine.Semantics

/-!
# Words as signed integers

Machine code works on words and intermediate code on signed integers. Both agree on every operation: the flags of a
comparison tell the order of the integers, and a division whose dividend was extended by its sign gives their quotient
and remainder.

* `Cond.holds_ofSub`: what the conditions mean after a comparison.
* `divide_signBits`: division.
-/

namespace Khel.Machine

/-! ## Wrapping -/

/-- A number within one turn is kept, or goes one turn back or forth. -/
theorem bmod_cases {x : Int} {m : Nat} (h₁ : -m < x) (h₂ : x < m) :
    x.bmod m = x ∨ x.bmod m = x - m ∧ m ≤ 2 * x ∨ x.bmod m = x + m ∧ 2 * x < -m := by
  have hmod : x % m = x ∧ 0 ≤ x ∨ x % m = x + m ∧ x < 0 := by
    by_cases hx : 0 ≤ x
    · exact .inl ⟨Int.emod_eq_of_lt hx h₂, hx⟩
    · refine .inr ⟨?_, by omega⟩
      rw [← Int.add_emod_right, Int.emod_eq_of_lt (by omega) (by omega)]
  unfold Int.bmod
  by_cases hlt : x % m < (m + 1) / 2
  · simp only [hlt, if_true]
    omega
  · simp only [hlt, if_false]
    omega

/-- A difference of words is the difference of the integers, or has the opposite sign. -/
theorem toInt_sub_cases {n : Nat} (a b : BitVec n) :
    (a - b).toInt = a.toInt - b.toInt ∨
      (a - b).toInt < 0 ∧ b.toInt ≤ a.toInt ∧ (a - b).toInt ≠ a.toInt - b.toInt ∨
      0 ≤ (a - b).toInt ∧ a.toInt < b.toInt ∧ (a - b).toInt ≠ a.toInt - b.toInt := by
  have h₁ := a.two_mul_toInt_lt
  have h₂ := a.le_two_mul_toInt
  have h₃ := b.two_mul_toInt_lt
  have h₄ := b.le_two_mul_toInt
  have hpow : ((2 ^ n : Nat) : Int) = 2 ^ n := by simp
  rw [← hpow] at h₁ h₂ h₃ h₄
  rw [BitVec.toInt_sub]
  rcases bmod_cases (m := 2 ^ n) (x := a.toInt - b.toInt) (by omega) (by omega) with h | ⟨h, _⟩ | ⟨h, _⟩ <;> rw [h] <;>
    omega

/-- Extending the sign does not change the low half. -/
theorem setWidth_signExtend (v : BitVec 32) : (v.signExtend 64).setWidth 32 = v := by
  grind

/-- The low half of a word is what wrapping leaves of it. -/
theorem toInt_setWidth_low (v : BitVec 64) : (v.setWidth 32).toInt = v.toInt.bmod (2 ^ 32) := by
  rw [BitVec.toInt_setWidth, BitVec.toInt_eq_toNat_bmod, Int.bmod_bmod_of_dvd (by decide)]

theorem toInt_complement {n : Nat} (v : BitVec n) : (~~~v).toInt = (-v.toInt - 1).bmod (2 ^ n) := by
  have h : ~~~v = -v - 1#n := by rw [BitVec.neg_eq_not_add, BitVec.add_sub_cancel]
  rw [h, BitVec.toInt_sub, BitVec.toInt_neg, Int.bmod_sub_bmod, ← BitVec.ofInt_ofNat, BitVec.toInt_ofInt]
  simp

/-! ## Comparisons -/

/-- The zero flag says that the operands are equal. -/
theorem Flags.zero_ofSub {n : Nat} (a b : BitVec n) : (Flags.ofSub a b).zero = decide (a.toInt = b.toInt) := by
  have h : a - b = 0 ↔ a.toInt = b.toInt := by
    rw [BitVec.toInt_inj]
    constructor
    · intro h
      rw [← BitVec.sub_add_cancel a b, h]
      simp
    · rintro rfl
      exact BitVec.sub_self a
  exact decide_eq_decide.2 h

/-- The sign and the overflow flag differ where the first operand is less. -/
theorem Flags.less_ofSub {n : Nat} (a b : BitVec n) :
    ((Flags.ofSub a b).sign != (Flags.ofSub a b).overflow) = decide (a.toInt < b.toInt) := by
  have hsign : (a - b).msb = decide ((a - b).toInt < 0) := BitVec.msb_eq_toInt
  have hcases := toInt_sub_cases a b
  simp only [Flags.ofSub, hsign]
  generalize (a - b).toInt = d at hcases ⊢
  rcases hcases with rfl | ⟨h₁, h₂, h₃⟩ | ⟨h₁, h₂, h₃⟩
  · have : a.toInt - b.toInt < 0 ↔ a.toInt < b.toInt := by omega
    simp [this]
  · have : ¬ a.toInt < b.toInt := by omega
    simp [h₁, h₃, this]
  · have : ¬ d < 0 := by omega
    simp [h₂, h₃, this]

/-- After a comparison, a condition holds if it does of the integers. -/
theorem Cond.holds_ofSub {n : Nat} (op : CompareOp) (a b : BitVec n) :
    (Cond.ofCompare op).holds (.ofSub a b) = op.holds a.toInt b.toInt := by
  have hz := Flags.zero_ofSub a b
  have hl := Flags.less_ofSub a b
  have hge : ((Flags.ofSub a b).sign == (Flags.ofSub a b).overflow) = !decide (a.toInt < b.toInt) := by
    rw [← hl, bne, Bool.not_not]
  rw [Bool.eq_iff_iff]
  cases op <;> simp only [Cond.ofCompare, Cond.holds, CompareOp.holds, hz, hl, hge, Bool.or_eq_true, Bool.and_eq_true,
    Bool.not_eq_true', decide_eq_true_eq, decide_eq_false_iff_not] <;> omega

/-- After a comparison with zero. -/
theorem Cond.holds_ofSub_zero {n : Nat} (op : CompareOp) (a : BitVec n) :
    (Cond.ofCompare op).holds (.ofSub a 0) = op.holds a.toInt 0 := by
  rw [Cond.holds_ofSub]
  simp

/-! ## Division -/

theorem toInt_neg_one {n : Nat} (hn : 0 < n) : (-1#n).toInt = -1 := by
  rw [BitVec.neg_one_eq_allOnes, BitVec.toInt_allOnes, if_pos hn]

/-- A word extended by its sign is the same integer. -/
theorem toInt_signBits_append {n : Nat} (hn : 0 < n) (v : BitVec n) : (signBits v ++ v).toInt = v.toInt := by
  have hne : (n == 0) = false := by simp; omega
  rw [BitVec.toInt_append, hne, v.toInt_eq_msb_cond]
  unfold signBits
  cases v.msb with
  | false => simp
  | true =>
    have hone : (-1 : BitVec n).toInt = -1 := toInt_neg_one hn
    simp only [if_true, hone, Bool.false_eq_true, if_false]
    push_cast
    omega

/-- The only quotient that is not a word. -/
theorem sdiv_toInt_ne_iff {n : Nat} (hn : 0 < n) (a b : BitVec n) :
    (a.sdiv b).toInt ≠ a.toInt.tdiv b.toInt ↔ a.toInt = -2 ^ (n - 1) ∧ b.toInt = -1 := by
  have hmin : (BitVec.intMin n).toInt = -2 ^ (n - 1) := BitVec.toInt_intMin_of_pos hn
  have hone := toInt_neg_one hn
  rw [← hmin, ← hone, BitVec.toInt_inj, BitVec.toInt_inj]
  constructor
  · intro h
    by_contra hc
    exact h (BitVec.toInt_sdiv_of_ne_or_ne a b (by tauto))
  · rintro ⟨rfl, rfl⟩
    rw [BitVec.intMin_sdiv_neg_one, hmin, hone, Int.tdiv_neg, Int.tdiv_one]
    have : (0 : Int) < 2 ^ (n - 1) := Int.pow_pos (by decide)
    omega

/-- Division of a dividend that was extended by its sign. -/
theorem divide_signBits {t : Ty} {w : Width} (hw : w.bits = t.bits) (a b : Word w) :
    divide (signBits a) a b = if divisionFails t a.toInt b.toInt then none else some (a.sdiv b, a.srem b) := by
  have hpos : 0 < w.bits := by cases w <;> decide
  have hq : BitVec.ofInt w.bits (a.toInt.tdiv b.toInt) = a.sdiv b :=
    BitVec.eq_of_toInt_eq (by rw [BitVec.toInt_ofInt, BitVec.toInt_sdiv])
  have hr : BitVec.ofInt w.bits (a.toInt.tmod b.toInt) = a.srem b :=
    BitVec.eq_of_toInt_eq (by rw [BitVec.toInt_ofInt, ← BitVec.toInt_srem, BitVec.toInt_bmod_cancel])
  have hb : b = 0 ↔ b.toInt = 0 := by rw [← BitVec.toInt_inj]; simp
  simp only [divide, toInt_signBits_append hpos, hq, hr, divisionFails, Ty.least, ← hw, decide_eq_true_eq, hb,
    sdiv_toInt_ne_iff hpos]

end Khel.Machine
