import Khel.Assembly.Line
import Mathlib.Data.List.Basic

/-!
# Escaped texts are read back

An assembler reads the text between two quotes byte by byte. A backslash stands for itself unless a quote, a backslash,
one of two letters or an octal digit is behind it; of octal digits it takes as many as there are, but three at most.

* `unescape`: the bytes that a text between quotes stands for.
* `literal?`: where the text ends, at the first quote without a backslash in front of it.
* `unescape_flatMap_escapeByte`: whatever bytes are escaped one by one, the same bytes are read.
* `Text.escape_lossless`: an escaped text is read as the text, and it stays between its quotes.
-/

namespace Khel.Text

/-! ## Bytes -/

/-- The bytes of a text, as the system has them. -/
def bytes (s : String) : List UInt8 := s.toUTF8.data.toList

theorem bytes_ofList (cs : List Char) : bytes (String.ofList cs) = cs.flatMap String.utf8EncodeChar := by
  rw [bytes, String.toUTF8_eq_toByteArray, String.toByteArray_ofList]
  exact List.toList_data_toByteArray

theorem bytes_eq_utf8 (s : String) : bytes s = utf8 s := by
  rw [utf8, ← bytes_ofList, String.ofList_toList]

theorem bytes_append (s t : String) : bytes (s ++ t) = bytes s ++ bytes t := by
  simp [bytes_eq_utf8, utf8]

/-- Is the character a printable one of ASCII? -/
def IsPrintable (c : Char) : Prop := 0x20 ≤ c.toNat ∧ c.toNat ≤ 0x7e

instance (c : Char) : Decidable (IsPrintable c) := inferInstanceAs (Decidable (_ ∧ _))

/-- Such a character is one byte. -/
theorem IsPrintable.utf8EncodeChar {c : Char} (h : IsPrintable c) : String.utf8EncodeChar c = [c.toUInt8] := by
  have hsize : c.utf8Size = 1 := by
    rw [Char.utf8Size_eq_one_iff, UInt32.le_iff_toNat_le]
    exact Nat.le_trans h.2 (by decide)
  rw [String.utf8EncodeChar_eq_singleton hsize]
  rfl

theorem bytes_ofList_of_printable {cs : List Char} (h : ∀ c ∈ cs, IsPrintable c) :
    bytes (String.ofList cs) = cs.map Char.toUInt8 := by
  rw [bytes_ofList]
  induction cs with
  | nil => rfl
  | cons c cs ih =>
    obtain ⟨hc, hcs⟩ := List.forall_mem_cons.1 h
    rw [List.flatMap_cons, hc.utf8EncodeChar, ih hcs]
    rfl

/-! ## Reading -/

/-- What a backslash with this byte behind it stands for. -/
def shortForm? (b : UInt8) : Option UInt8 :=
  if b = 0x22 then some 0x22
  else if b = 0x5c then some 0x5c
  else if b = 0x6e then some 0x0a
  else if b = 0x74 then some 0x09
  else none

/-- Is it an octal digit? -/
def isOctal (b : UInt8) : Bool := 0x30 ≤ b && b ≤ 0x37

/-- The octal digits in front, but three at most. -/
def octalDigits (bs : List UInt8) : List UInt8 := (bs.take 3).takeWhile isOctal

/-- The number with these octal digits. -/
def octalNumber (ds : List UInt8) : Nat := ds.foldl (fun n d => 8 * n + (d.toNat - 0x30)) 0

/-- The bytes that a text between quotes stands for. -/
def unescape : List UInt8 → List UInt8
  | [] => []
  | b :: bs =>
    if b = 0x5c then
      match bs.head?.bind shortForm? with
      | some c => c :: unescape bs.tail
      | none =>
        if octalDigits bs = [] then b :: unescape bs
        else UInt8.ofNat (octalNumber (octalDigits bs)) :: unescape (bs.drop (octalDigits bs).length)
    else b :: unescape bs
termination_by bs => bs.length

/-- The text up to the closing quote, and what follows that quote. A backslash takes the byte behind it along. -/
def literal? : List UInt8 → Option (List UInt8 × List UInt8)
  | [] => none
  | [b] => if b = 0x22 then some ([], []) else none
  | b :: c :: bs =>
    if b = 0x22 then some ([], c :: bs)
    else if b = 0x5c then (literal? bs).map fun r => (b :: c :: r.1, r.2)
    else (literal? (c :: bs)).map fun r => (b :: r.1, r.2)

section Read

variable {b c : UInt8} {bs : List UInt8}

theorem unescape_plain (h : b ≠ 0x5c) : unescape (b :: bs) = b :: unescape bs := by
  rw [unescape, if_neg h]

theorem unescape_short (h : shortForm? b = some c) : unescape (0x5c :: b :: bs) = c :: unescape bs := by
  rw [unescape, if_pos rfl, List.head?_cons, Option.bind_some, h]
  rfl

/-- Three octal digits are taken whatever follows. -/
theorem octalDigits_three {d₁ d₂ d₃ : UInt8} (h₁ : isOctal d₁ = true) (h₂ : isOctal d₂ = true)
    (h₃ : isOctal d₃ = true) (bs : List UInt8) : octalDigits (d₁ :: d₂ :: d₃ :: bs) = [d₁, d₂, d₃] := by
  simp [octalDigits, h₁, h₂, h₃]

theorem shortForm?_of_octal (h : isOctal b = true) : shortForm? b = none := by
  have h' : b.toNat ≤ 0x37 ∧ 0x30 ≤ b.toNat := by simpa [isOctal, UInt8.le_iff_toNat_le, and_comm] using h
  have hne : ∀ c : UInt8, c.toNat < 0x30 ∨ 0x37 < c.toNat → b ≠ c := by
    rintro c hc rfl
    omega
  simp [shortForm?, hne]

theorem unescape_octal {d₁ d₂ d₃ : UInt8} (h₁ : isOctal d₁ = true) (h₂ : isOctal d₂ = true)
    (h₃ : isOctal d₃ = true) (bs : List UInt8) :
    unescape (0x5c :: d₁ :: d₂ :: d₃ :: bs) = UInt8.ofNat (octalNumber [d₁, d₂, d₃]) :: unescape bs := by
  rw [unescape, if_pos rfl, List.head?_cons, Option.bind_some, shortForm?_of_octal h₁]
  simp [octalDigits_three h₁ h₂ h₃]

theorem literal?_plain (hq : b ≠ 0x22) (hb : b ≠ 0x5c) (hbs : bs ≠ []) :
    literal? (b :: bs) = (literal? bs).map fun r => (b :: r.1, r.2) := by
  cases bs with
  | nil => exact absurd rfl hbs
  | cons c bs => rw [literal?, if_neg hq, if_neg hb]

theorem literal?_escape : literal? (0x5c :: b :: bs) = (literal? bs).map fun r => (0x5c :: b :: r.1, r.2) := by
  rw [literal?, if_neg (by decide), if_pos rfl]

theorem literal?_quote : literal? (0x22 :: bs) = some ([], bs) := by
  cases bs <;> rfl

end Read

/-! ## Escaping -/

/-- The character with a small number. -/
theorem toNat_ofNat {n : Nat} (h : n < 256) : (Char.ofNat n).toNat = n := by
  have hvalid : n.isValidChar := .inl (by omega)
  rw [Char.ofNat, dif_pos hvalid]
  rfl

theorem toNat_octalDigit (n : Nat) : (octalDigit n).toNat = 0x30 + n % 8 :=
  toNat_ofNat (show 0x30 + n % 8 < 256 by omega)

theorem isPrintable_octalDigit (n : Nat) : IsPrintable (octalDigit n) := by
  rw [IsPrintable, toNat_octalDigit]
  omega

theorem toNat_toUInt8 (c : Char) : c.toUInt8.toNat = c.toNat % 256 := rfl

theorem toNat_toUInt8_octalDigit (n : Nat) : (octalDigit n).toUInt8.toNat = 0x30 + n % 8 := by
  rw [toNat_toUInt8, toNat_octalDigit]
  omega

theorem isOctal_octalDigit (n : Nat) : isOctal (octalDigit n).toUInt8 = true := by
  simp only [isOctal, UInt8.le_iff_toNat_le, toNat_toUInt8_octalDigit, Bool.and_eq_true, decide_eq_true_eq]
  exact ⟨Nat.le_add_right _ _, by show _ ≤ 0x37; omega⟩

/-- Three octal digits are enough for a byte. -/
theorem octalNumber_octalDigits (b : UInt8) : UInt8.ofNat (octalNumber [(octalDigit (b.toNat / 64)).toUInt8,
    (octalDigit (b.toNat / 8)).toUInt8, (octalDigit b.toNat).toUInt8]) = b := by
  have hb : b.toNat < 256 := b.toNat_lt
  have hnumber : octalNumber [(octalDigit (b.toNat / 64)).toUInt8, (octalDigit (b.toNat / 8)).toUInt8,
      (octalDigit b.toNat).toUInt8] = b.toNat := by
    simp only [octalNumber, List.foldl_cons, List.foldl_nil, toNat_toUInt8_octalDigit]
    omega
  rw [hnumber, UInt8.ofNat_toNat]

/-- The three ways in which a byte is written. -/
inductive EscapedAs (b : UInt8) : List Char → Prop where
  | short {c : Char} (hc : IsPrintable c) (h : shortForm? c.toUInt8 = some b) : EscapedAs b ['\\', c]
  | plain {c : Char} (hc : IsPrintable c) (h : c.toUInt8 = b) (hquote : b ≠ 0x22) (hslash : b ≠ 0x5c) : EscapedAs b [c]
  | octal : EscapedAs b ['\\', octalDigit (b.toNat / 64), octalDigit (b.toNat / 8), octalDigit b.toNat]

theorem escapeByte_escapedAs (b : UInt8) : EscapedAs b (escapeByte b) := by
  unfold escapeByte
  split
  · next h => exact h ▸ .short (by decide) (by decide)
  · next hquote =>
    split
    · next h => exact h ▸ .short (by decide) (by decide)
    · next hslash =>
      split
      · next h => exact h ▸ .short (by decide) (by decide)
      · split
        · next h => exact h ▸ .short (by decide) (by decide)
        · split
          · next h =>
            obtain ⟨hlo, hhi⟩ : 0x20 ≤ b.toNat ∧ b.toNat ≤ 0x7e := by simpa [UInt8.le_iff_toNat_le] using h
            have hc : (Char.ofNat b.toNat).toNat = b.toNat := toNat_ofNat b.toNat_lt
            refine .plain ?_ ?_ hquote hslash
            · rw [IsPrintable, hc]
              exact ⟨hlo, hhi⟩
            · rw [← UInt8.toNat_inj, toNat_toUInt8, hc]
              omega
          · exact .octal

namespace EscapedAs

variable {b : UInt8} {cs : List Char}

theorem printable (h : EscapedAs b cs) : ∀ c ∈ cs, IsPrintable c := by
  have hslash : IsPrintable '\\' := by decide
  cases h with
  | short hc => simp [hslash, hc]
  | plain hc => simp [hc]
  | octal => simp [hslash, isPrintable_octalDigit]

/-- The byte is read, and what follows is read as if it stood alone. -/
theorem unescape_append (h : EscapedAs b cs) (rest : List UInt8) :
    unescape (cs.map Char.toUInt8 ++ rest) = b :: unescape rest := by
  cases h with
  | short hc h => exact unescape_short h
  | plain hc h hquote hslash => exact h ▸ unescape_plain (h ▸ hslash)
  | octal =>
    have hread := unescape_octal (isOctal_octalDigit (b.toNat / 64)) (isOctal_octalDigit (b.toNat / 8))
      (isOctal_octalDigit b.toNat) rest
    rw [octalNumber_octalDigits] at hread
    exact hread

/-- No quote that ends the text is in it. -/
theorem literal?_append (h : EscapedAs b cs) {rest : List UInt8} (hrest : rest ≠ []) :
    literal? (cs.map Char.toUInt8 ++ rest) = (literal? rest).map fun r => (cs.map Char.toUInt8 ++ r.1, r.2) := by
  cases h with
  | short hc h => exact literal?_escape
  | plain hc h hquote hslash => exact literal?_plain (h ▸ hquote) (h ▸ hslash) hrest
  | octal =>
    have hdigit : ∀ (n : Nat) (ds : List UInt8), ds ≠ [] → literal? ((octalDigit n).toUInt8 :: ds) =
        (literal? ds).map fun r => ((octalDigit n).toUInt8 :: r.1, r.2) := by
      intro n ds hds
      have hn := toNat_toUInt8_octalDigit n
      apply literal?_plain _ _ hds
      · intro h
        rw [h] at hn
        exact absurd hn (by show 0x22 ≠ _; omega)
      · intro h
        rw [h] at hn
        exact absurd hn (by show 0x5c ≠ _; omega)
    show literal? (0x5c :: (octalDigit (b.toNat / 64)).toUInt8 :: (octalDigit (b.toNat / 8)).toUInt8 ::
      (octalDigit b.toNat).toUInt8 :: rest) = _
    rw [literal?_escape, hdigit _ _ (by simp), hdigit _ _ hrest, Option.map_map, Option.map_map]
    rfl

end EscapedAs

/-- Bytes that are escaped one by one are read again. -/
theorem unescape_flatMap_escapeByte (bs : List UInt8) : unescape ((bs.flatMap escapeByte).map Char.toUInt8) = bs := by
  induction bs with
  | nil => rw [List.flatMap_nil, List.map_nil, unescape]
  | cons b bs ih => rw [List.flatMap_cons, List.map_append, (escapeByte_escapedAs b).unescape_append, ih]

/-- They end at the quote behind them. -/
theorem literal?_flatMap_escapeByte (bs behind : List UInt8) :
    literal? ((bs.flatMap escapeByte).map Char.toUInt8 ++ 0x22 :: behind) =
      some ((bs.flatMap escapeByte).map Char.toUInt8, behind) := by
  induction bs with
  | nil => exact literal?_quote
  | cons b bs ih =>
    rw [List.flatMap_cons, List.map_append, List.append_assoc, (escapeByte_escapedAs b).literal?_append (by simp), ih]
    rfl

theorem printable_flatMap_escapeByte (bs : List UInt8) : ∀ c ∈ bs.flatMap escapeByte, IsPrintable c := by
  intro c hc
  obtain ⟨b, _, hc⟩ := List.mem_flatMap.1 hc
  exact (escapeByte_escapedAs b).printable c hc

/-- Escaped text is ASCII, so its characters are its bytes. -/
theorem bytes_escape (s : String) : bytes (escape s) = ((utf8 s).flatMap escapeByte).map Char.toUInt8 :=
  bytes_ofList_of_printable (printable_flatMap_escapeByte (utf8 s))

end Khel.Text

namespace Khel.Assembly

open Text

/-! ## Lines -/

/-- The bytes that a line of assembly defines as a text: what stands between two quotes of a directive. Behind the
closing quote there may only be the line end. -/
def Line.definedText? (l : Line) : Option (List UInt8) :=
  match ((bytes l.text).dropPrefix? (bytes "    .asciz \"")).bind literal? with
  | some (body, behind) => if behind = bytes "\n" then some (unescape body) else none
  | none => none

theorem definedText?_asciz {text : String} {read : List UInt8}
    (h : literal? (bytes (escape text) ++ 0x22 :: bytes "\n") = some (read, bytes "\n")) :
    (Line.op ".asciz" ["\"" ++ escape text ++ "\""]).definedText? = some (unescape read) := by
  have hline : (Line.op ".asciz" ["\"" ++ escape text ++ "\""]).text =
      "    .asciz \"" ++ (escape text ++ "\"\n") := by
    simp [Line.text, String.ext_iff]
  have hfront : (bytes (Line.op ".asciz" ["\"" ++ escape text ++ "\""]).text).dropPrefix? (bytes "    .asciz \"") =
      some (bytes (escape text) ++ 0x22 :: bytes "\n") := by
    rw [hline, bytes_append, bytes_append]
    exact List.dropPrefix?_eq_some_iff.2 ⟨_, rfl, beq_self_eq_true _⟩
  rw [Line.definedText?, hfront, Option.bind_some, h]
  exact if_pos rfl

/-- A label defines no text. -/
theorem definedText?_textLabel (target : Target) (id : Nat) :
    (Line.label (textLabel target id)).definedText? = none := by
  have hfront : ∀ rest, (bytes (target.localLabel "") ++ rest).dropPrefix? (bytes "    .asciz \"") = none := by
    cases target <;> intro rest <;> rfl
  have hlabel : (Line.label (textLabel target id)).text =
      target.localLabel "" ++ ("C" ++ toString id ++ ":\n") := by
    cases target <;> simp [Line.text, textLabel, Target.localLabel, String.ext_iff]
  rw [Line.definedText?, hlabel, bytes_append, hfront]
  rfl

end Khel.Assembly

namespace Khel

open Text Assembly

/-- Escaping a text loses nothing: reading the escaped text gives the bytes of the text in UTF-8. All characters of it
are printable ones of ASCII, and whatever stands behind the closing quote, the text ends there. So the lines that define a
text of the pool define this text and no other. -/
theorem Text.escape_lossless (s : String) :
    unescape (bytes (escape s)) = bytes s ∧ (∀ c ∈ (escape s).toList, IsPrintable c) ∧
      (∀ behind, literal? (bytes (escape s) ++ 0x22 :: behind) = some (bytes (escape s), behind)) ∧
      ∀ target id, (textLines target id s).filterMap Line.definedText? = [bytes s] := by
  have hread : unescape (bytes (escape s)) = bytes s := by
    rw [bytes_escape, unescape_flatMap_escapeByte, bytes_eq_utf8]
  have hliteral : ∀ behind, literal? (bytes (escape s) ++ 0x22 :: behind) = some (bytes (escape s), behind) := by
    intro behind
    rw [bytes_escape, literal?_flatMap_escapeByte]
  refine ⟨hread, ?_, hliteral, fun target id => ?_⟩
  · rw [escape, String.toList_ofList]
    exact printable_flatMap_escapeByte (utf8 s)
  · rw [textLines, List.filterMap_cons_none (definedText?_textLabel target id),
      List.filterMap_cons_some (definedText?_asciz (hliteral _)), hread]
    rfl

end Khel
