import Khel.Proofs.Assembly.Resolved

/-!
# What can be spelled in Latin letters

A name is spelled character by character, so what can be spelled is a matter of single characters: those that stay, and
the letters of the alphabet, small or capital. Of capitals nothing is known but that they have small letters, and that
no other character has a small letter of the alphabet. The first character outside stops the spelling. A spelling has
only characters that stay, so it is its own spelling.

* `Text.IsLowering`: what is asked of a function that makes small letters.
* `Text.latin_isOk_iff`, `Text.latin_eq_error_iff`: which names can be spelled, and which character stops a spelling.
* `Text.latin_append_iff`: a name is spelled in parts.
* `Text.latin_latin`: a spelling is its own spelling.
-/

namespace Khel.Text

/-! ## The alphabet -/

/-- The small letters of the alphabet, in its order. -/
def smallLetters : List Char := "абвгдеёжзийклмноөпрстуүфхцчшщъыьэюя".toList

/-- The capitals of the alphabet, in the same order. -/
def capitals : List Char := "АБВГДЕЁЖЗИЙКЛМНОӨПРСТУҮФХЦЧШЩЪЫЬЭЮЯ".toList

/-- The function takes the letters of the alphabet to the small ones, and no other character among these. -/
structure IsLowering (lower : Char → Char) : Prop where
  small : smallLetters.map lower = smallLetters
  capital : capitals.map lower = smallLetters
  other : ∀ c, lower c ∈ smallLetters → c ∈ smallLetters ∨ c ∈ capitals

/-- The characters of names: those that stay, and those with a small letter of the alphabet. -/
def InAlphabet (lower : Char → Char) (c : Char) : Prop := isPlain c = true ∨ lower c ∈ smallLetters

instance (lower : Char → Char) (c : Char) : Decidable (InAlphabet lower c) := inferInstanceAs (Decidable (_ ∨ _))

/-- A name is of the alphabet, or it has a first character that is not. -/
theorem inAlphabet_or_first (lower : Char → Char) (cs : List Char) : (∀ c ∈ cs, InAlphabet lower c) ∨
    ∃ before c after, cs = before ++ c :: after ∧ (∀ d ∈ before, InAlphabet lower d) ∧ ¬ InAlphabet lower c := by
  cases h : cs.find? fun c => ¬ InAlphabet lower c with
  | none =>
    rw [List.find?_eq_none] at h
    exact .inl fun c hc => by simpa using h c hc
  | some c =>
    obtain ⟨hc, before, after, hcs, hbefore⟩ := List.find?_eq_some_iff_append.1 h
    exact .inr ⟨before, c, after, hcs, fun d hd => by simpa using hbefore d hd, by simpa using hc⟩

theorem IsLowering.mem_iff {lower : Char → Char} (h : IsLowering lower) {c : Char} :
    lower c ∈ smallLetters ↔ c ∈ smallLetters ∨ c ∈ capitals := by
  constructor
  · exact h.other c
  · rintro (hc | hc)
    · exact h.small ▸ List.mem_map_of_mem hc
    · exact h.capital ▸ List.mem_map_of_mem hc

/-- The capitals that stand in one row are letters of the alphabet. -/
theorem mem_capitals {c : Char} (hlow : 'А' ≤ c) (hhigh : c ≤ 'Я') : c ∈ capitals := by
  have hrow : ∀ n < 32, Char.ofNat (1040 + n) ∈ capitals := by decide
  have hlow' : 1040 ≤ c.toNat := hlow
  have hhigh' : c.toNat ≤ 1071 := hhigh
  have hc := hrow (c.toNat - 1040) (by omega)
  rwa [Nat.add_sub_cancel' hlow', Char.ofNat_toNat] at hc

theorem isLowering_smallLetter : IsLowering smallLetter := by
  constructor
  · decide
  · decide
  · intro c hc
    unfold smallLetter at hc
    split at hc
    · next hrow => exact .inr (mem_capitals hrow.1 hrow.2)
    · split at hc
      · next h => exact .inr (h ▸ by decide)
      · split at hc
        · next h => exact .inr (h ▸ by decide)
        · split at hc
          · next h => exact .inr (h ▸ by decide)
          · exact .inl hc

/-! ## Characters -/

theorem mem_of_latinSmall? {c : Char} {s : String} (h : latinSmall? c = some s) : c ∈ smallLetters := by
  unfold latinSmall? at h
  split at h <;> cases h <;> decide

/-- The small letters of the alphabet have spellings, and nothing else has one. -/
theorem latinSmall?_eq_none_iff {c : Char} : latinSmall? c = none ↔ c ∉ smallLetters := by
  have hall : ∀ c ∈ smallLetters, (latinSmall? c).isSome = true := List.all_eq_true.1 (by decide)
  constructor
  · exact fun h hc => Option.isSome_iff_ne_none.1 (hall c hc) h
  · intro hc
    cases h : latinSmall? c with
    | none => rfl
    | some s => exact absurd (mem_of_latinSmall? h) hc

section Names

variable {lower : Char → Char} (hlower : IsLowering lower)

include hlower

theorem latinChar?_eq_none_iff {c : Char} : latinChar? c = none ↔ ¬ InAlphabet lower c := by
  have hsame : smallLetter c ∈ smallLetters ↔ lower c ∈ smallLetters :=
    isLowering_smallLetter.mem_iff.trans hlower.mem_iff.symm
  rw [InAlphabet, not_or, latinChar?, ← hsame]
  by_cases hc : isPlain c = true
  · simp [hc]
  · simp [hc, latinSmall?_eq_none_iff]

theorem InAlphabet.exists_latinChar? {c : Char} (hc : InAlphabet lower c) : ∃ s, latinChar? c = some s := by
  cases h : latinChar? c with
  | none => exact absurd hc ((latinChar?_eq_none_iff hlower).1 h)
  | some s => exact ⟨s, rfl⟩

/-! ## Names -/

theorem latinChars_of_inAlphabet {cs : List Char} (h : ∀ c ∈ cs, InAlphabet lower c) :
    ∃ spelled, latinChars cs = .ok spelled := by
  induction cs with
  | nil => exact ⟨[], rfl⟩
  | cons c cs ih =>
    obtain ⟨hc, hcs⟩ := List.forall_mem_cons.1 h
    obtain ⟨s, hs⟩ := hc.exists_latinChar? hlower
    obtain ⟨spelled, hspelled⟩ := ih hcs
    refine ⟨s ++ spelled, ?_⟩
    rw [latinChars, hs, hspelled]
    rfl

/-- The first character that is not of the alphabet stops the spelling. -/
theorem latinChars_of_not_inAlphabet {before after : List Char} {c : Char} (h : ∀ d ∈ before, InAlphabet lower d)
    (hc : ¬ InAlphabet lower c) : latinChars (before ++ c :: after) = .error (.noLatinFor c) := by
  induction before with
  | nil =>
    rw [List.nil_append, latinChars, (latinChar?_eq_none_iff hlower).2 hc]
    rfl
  | cons d ds ih =>
    obtain ⟨hd, hds⟩ := List.forall_mem_cons.1 h
    obtain ⟨s, hs⟩ := hd.exists_latinChar? hlower
    rw [List.cons_append, latinChars, hs, ih hds]
    rfl

/-- A name can be spelled if all of its characters are of the alphabet. -/
theorem latin_isOk_iff (x : String) : (∃ y, latin x = .ok y) ↔ ∀ c ∈ x.toList, InAlphabet lower c := by
  constructor
  · rintro ⟨y, hy⟩
    rcases inAlphabet_or_first lower x.toList with h | ⟨before, c, after, hx, hbefore, hc⟩
    · exact h
    · rw [latin, hx, latinChars_of_not_inAlphabet hlower hbefore hc] at hy
      cases hy
  · intro h
    obtain ⟨spelled, hspelled⟩ := latinChars_of_inAlphabet hlower h
    exact ⟨String.ofList spelled, by rw [latin, hspelled]; rfl⟩

/-- If a name cannot be spelled, its first character that is not of the alphabet is reported. -/
theorem latin_eq_error_iff (x : String) (e : Fault) : latin x = .error e ↔ ∃ before c after,
    x.toList = before ++ c :: after ∧ (∀ d ∈ before, InAlphabet lower d) ∧ ¬ InAlphabet lower c ∧
      e = .noLatinFor c := by
  constructor
  · intro he
    rcases inAlphabet_or_first lower x.toList with h | ⟨before, c, after, hx, hbefore, hc⟩
    · obtain ⟨y, hy⟩ := (latin_isOk_iff hlower x).2 h
      rw [hy] at he
      cases he
    · rw [latin, hx, latinChars_of_not_inAlphabet hlower hbefore hc] at he
      cases he
      exact ⟨before, c, after, hx, hbefore, hc, rfl⟩
  · rintro ⟨before, c, after, hx, hbefore, hc, rfl⟩
    rw [latin, hx, latinChars_of_not_inAlphabet hlower hbefore hc]
    rfl

end Names

theorem latin_ofList {x : String} {spelled : List Char} (h : latinChars x.toList = .ok spelled) :
    latin x = .ok (String.ofList spelled) := by
  rw [latin, h]
  rfl

theorem parts_of_latin_append {x y z : String} (h : latin (x ++ y) = .ok z) :
    ∃ x' y', latin x = .ok x' ∧ latin y = .ok y' ∧ z = x' ++ y' := by
  have hchars := latinChars_of_latin h
  rw [String.toList_append] at hchars
  obtain ⟨a, b, ha, hb, hz⟩ := (latinChars_append _ _).of_ok hchars
  refine ⟨String.ofList a, String.ofList b, latin_ofList ha, latin_ofList hb, ?_⟩
  rw [← String.ofList_append, ← hz, String.ofList_toList]

/-- A name is spelled in parts, and it can be spelled if both of them can. -/
theorem latin_append_iff {x y z : String} :
    latin (x ++ y) = .ok z ↔ ∃ x' y', latin x = .ok x' ∧ latin y = .ok y' ∧ z = x' ++ y' := by
  constructor
  · exact parts_of_latin_append
  · rintro ⟨x', y', hx, hy, rfl⟩
    have hall : ∀ c ∈ (x ++ y).toList, InAlphabet smallLetter c := by
      rw [String.toList_append, List.forall_mem_append]
      exact ⟨(latin_isOk_iff isLowering_smallLetter x).1 ⟨x', hx⟩, (latin_isOk_iff isLowering_smallLetter y).1 ⟨y', hy⟩⟩
    obtain ⟨z, hz⟩ := (latin_isOk_iff isLowering_smallLetter (x ++ y)).2 hall
    obtain ⟨x'', y'', hx', hy', rfl⟩ := parts_of_latin_append hz
    cases hx.symm.trans hx'
    cases hy.symm.trans hy'
    exact hz

/-- A spelling is its own spelling. -/
theorem latin_latin {x y : String} (h : latin x = .ok y) : latin y = .ok y := latin_of_isSpelling (latin_isSpelling h)

end Khel.Text
