import Khel.Diagnostic
import Khel.Proofs.Assembly.Reading
import Mathlib.Algebra.GroupWithZero.Nat
import Mathlib.Data.List.DropRight

/-!
# The line of a place

A text is cut into lines at its line ends, so it has one more line than line ends. The line that a diagnostic quotes is
found without that, by a scan to either side of the place. Both agree: in front of the place stand whole lines and a
part of the quoted line, and the lengths of the earlier lines, each with its line end, add up to where the line starts.

* `SourceText.lines`: the lines of a text.
* `SourceText.lineAt_eq`: the quoted line is what can be read from the place in both directions up to a line end.
* `SourceLine.Shows`: a line is one of those, and its column is a place in the text.
* `Rejection.render_lines`: a diagnostic, line by line.
* `SourceText.lineAt_points`: the line that is found does so, and the carets are printed under the place.
-/

namespace Khel

/-! ## Lines -/

/-- The lines of a text, without their line ends. -/
def SourceText.lines (source : SourceText) : List (List Char) := source.text.toList.splitOn '\n'

section Lines

variable {cs init line rest : List Char}

theorem splitOn_ended (front back : List Char) :
    (front ++ '\n' :: back).splitOn '\n' = front.splitOn '\n' ++ back.splitOn '\n' :=
  List.splitOnP_append_cons front back (by decide)

theorem splitOn_inLine (h : '\n' ∉ line) : line.splitOn '\n' = [line] := by
  apply List.splitOnP_eq_singleton
  intro c hc
  rw [beq_eq_false_iff_ne]
  rintro rfl
  exact h hc

/-- A line that is ended comes first. -/
theorem splitOn_line (h : '\n' ∉ line) (back : List Char) :
    (line ++ '\n' :: back).splitOn '\n' = line :: back.splitOn '\n' := by
  rw [splitOn_ended, splitOn_inLine h]
  rfl

theorem splitOn_end (cs : List Char) : ('\n' :: cs).splitOn '\n' = [] :: cs.splitOn '\n' :=
  splitOn_line (List.not_mem_nil) cs

theorem splitOn_cons_of_ne {c : Char} (hc : c ≠ '\n') (cs : List Char) :
    (c :: cs).splitOn '\n' = (cs.splitOn '\n').modifyHead (c :: ·) := by
  rw [List.splitOn_eq_splitOnP, List.splitOnP_cons_eq_if_modifyHead, if_neg (by simpa using hc)]
  rfl

/-- There is one line more than there are line ends. -/
theorem length_splitOn (cs : List Char) : (cs.splitOn '\n').length = cs.count '\n' + 1 := by
  induction cs with
  | nil => rfl
  | cons c cs ih =>
    by_cases hc : c = '\n'
    · rw [hc, splitOn_end, List.length_cons, ih, List.count_cons_self]
    · rw [splitOn_cons_of_ne hc, List.length_modifyHead, ih, List.count_cons_of_ne hc]

/-- The room that lines take up, each with its line end. -/
def room (lines : List (List Char)) : Nat := (lines.map fun l => l.length + 1).sum

theorem room_cons (l : List Char) (ls : List (List Char)) : room (l :: ls) = l.length + 1 + room ls := rfl

/-- The lines of a text take up one more than the text, because its last line has no line end. -/
theorem room_splitOn (cs : List Char) : room (cs.splitOn '\n') = cs.length + 1 := by
  induction cs with
  | nil => rfl
  | cons c cs ih =>
    by_cases hc : c = '\n'
    · rw [hc, splitOn_end, room_cons, ih, List.length_nil, List.length_cons]
      omega
    · obtain ⟨l, ls, hls⟩ := List.exists_cons_of_ne_nil (List.splitOn_ne_nil '\n' cs)
      rw [hls, room_cons] at ih
      rw [splitOn_cons_of_ne hc, hls, List.modifyHead_cons, room_cons, List.length_cons, List.length_cons]
      omega

/-- A text of whole lines, a line and what follows it. -/
theorem splitOn_around (hinit : init = [] ∨ ∃ front, init = front ++ ['\n']) (hline : '\n' ∉ line)
    (hrest : rest = [] ∨ ∃ back, rest = '\n' :: back) : ∃ earlier later,
      (init ++ (line ++ rest)).splitOn '\n' = earlier ++ line :: later ∧
        earlier.length = init.count '\n' ∧ room earlier = init.length := by
  have hfirst : ∃ later, (line ++ rest).splitOn '\n' = line :: later := by
    rcases hrest with rfl | ⟨back, rfl⟩
    · exact ⟨[], by rw [List.append_nil, splitOn_inLine hline]⟩
    · exact ⟨_, splitOn_line hline back⟩
  obtain ⟨later, hlater⟩ := hfirst
  rcases hinit with rfl | ⟨front, rfl⟩
  · exact ⟨[], later, hlater, rfl, rfl⟩
  · refine ⟨front.splitOn '\n', later, ?_, ?_, ?_⟩
    · rw [List.append_assoc, List.singleton_append, splitOn_ended, hlater]
    · rw [length_splitOn, List.count_append, List.count_singleton_self]
    · rw [room_splitOn, List.length_append, List.length_singleton]

end Lines

/-! ## The line of a place -/

/-- The line is one of the lines of a text, and its column is the place at `offset`. -/
structure SourceLine.Shows (line : SourceLine) (lines : List (List Char)) (offset : Nat) : Prop where
  number_pos : 1 ≤ line.number
  number_le : line.number ≤ lines.length
  text : lines[line.number - 1]? = some line.text.toList
  column_le : line.column ≤ line.text.length
  offset : room (lines.take (line.number - 1)) + line.column = offset

/-- Any character but a line end. -/
def isInLine (c : Char) : Bool := c != '\n'

section Place

variable (cs : List Char)

theorem notMem_takeWhile : '\n' ∉ cs.takeWhile isInLine := by
  intro h
  exact absurd (List.mem_takeWhile_imp h) (by decide)

theorem notMem_rtakeWhile : '\n' ∉ cs.rtakeWhile isInLine := by
  intro h
  exact absurd (List.mem_rtakeWhile_imp h) (by decide)

theorem eq_of_not_isInLine {c : Char} (h : ¬ isInLine c = true) : c = '\n' := by simpa [isInLine] using h

/-- What stands in front of a line is ended, if there is anything. -/
theorem rdropWhile_ended : cs.rdropWhile isInLine = [] ∨ ∃ front, cs.rdropWhile isInLine = front ++ ['\n'] := by
  by_cases h : cs.rdropWhile isInLine = []
  · exact .inl h
  · have hlast := eq_of_not_isInLine (List.rdropWhile_last_not isInLine cs h)
    exact .inr ⟨_, by rw [← hlast, List.dropLast_append_getLast]⟩

/-- What follows a line starts with its line end, if there is anything. -/
theorem dropWhile_starts : cs.dropWhile isInLine = [] ∨ ∃ back, cs.dropWhile isInLine = '\n' :: back := by
  cases h : cs.dropWhile isInLine with
  | nil => exact .inl rfl
  | cons c back =>
    have hhead := List.head?_dropWhile_not isInLine cs
    rw [h] at hhead
    have hc : c = '\n' := eq_of_not_isInLine (by simpa using hhead)
    exact .inr ⟨back, by rw [hc]⟩

/-- The first line end stands behind what can be read up to it. -/
theorem findIdx_lineEnd : cs.findIdx (· == '\n') = (cs.takeWhile isInLine).length := by
  have hnot : (fun c => !isInLine c) = (· == '\n') := by
    funext c
    simp [isInLine, bne]
  rw [List.takeWhile_eq_take_findIdx_not, hnot, List.length_take, Nat.min_eq_left List.findIdx_le_length]

/-- Without a line end, everything is read. -/
theorem takeWhile_of_noLineEnd (h : cs.findIdx? (· == '\n') = none) : cs.takeWhile isInLine = cs := by
  rw [List.takeWhile_eq_self_iff]
  intro c hc
  simpa [isInLine] using List.findIdx?_eq_none_iff.1 h c hc

/-- Where a line that holds the place in front of `cs` stops. -/
theorem lineStop (offset : Nat) : ((cs.findIdx? (· == '\n')).map (offset + ·)).getD (offset + cs.length) =
    offset + (cs.takeWhile isInLine).length := by
  cases h : cs.findIdx? (· == '\n') with
  | none => rw [takeWhile_of_noLineEnd cs h]; rfl
  | some n =>
    rw [← findIdx_lineEnd, (List.findIdx?_eq_some_iff_findIdx_eq.1 h).2]
    rfl

/-- Where a line that holds the place behind `cs` starts. -/
theorem lineStart : ((lastLineEnd? cs).map (· + 1)).getD 0 = (cs.rdropWhile isInLine).length := by
  have hparts := congrArg List.length (List.rdropWhile_append_rtakeWhile (p := isInLine) (l := cs))
  rw [List.length_append, List.rtakeWhile, List.length_reverse] at hparts
  unfold lastLineEnd?
  cases h : cs.reverse.findIdx? (· == '\n') with
  | none =>
    rw [takeWhile_of_noLineEnd _ h, List.length_reverse] at hparts
    show 0 = _
    omega
  | some back =>
    obtain ⟨hlt, hback⟩ := List.findIdx?_eq_some_iff_findIdx_eq.1 h
    rw [← findIdx_lineEnd, hback] at hparts
    rw [List.length_reverse] at hlt
    show cs.length - 1 - back + 1 = _
    omega

end Place

namespace SourceText

variable (source : SourceText) (span : Span)

/-- What stands in front of a place. -/
def before : List Char := source.text.toList.take span.offset

/-- What stands behind it, its own character included. -/
def after : List Char := source.text.toList.drop span.offset

/-- In front of a place stands what is in front of its line, and then a part of the line. -/
theorem before_around : (source.before span).rdropWhile isInLine ++ (source.before span).rtakeWhile isInLine =
    source.before span := List.rdropWhile_append_rtakeWhile

/-- The line that is found is read from the place in both directions. -/
theorem lineAt_eq : source.lineAt span =
    { number := 1 + ((source.before span).rdropWhile isInLine).count '\n'
      text := String.ofList ((source.before span).rtakeWhile isInLine ++ (source.after span).takeWhile isInLine)
      column := ((source.before span).rtakeWhile isInLine).length } := by
  have hbefore := source.before_around span
  have hafter : (source.after span).takeWhile isInLine ++ (source.after span).dropWhile isInLine = source.after span :=
    List.takeWhile_append_dropWhile
  have hchars : source.text.toList = source.before span ++ source.after span :=
    (List.take_append_drop span.offset _).symm
  have hplace : min span.offset source.text.toList.length = (source.before span).length := List.length_take.symm
  have hinit : (source.before span ++ source.after span).take ((source.before span).rdropWhile isInLine).length =
      (source.before span).rdropWhile isInLine := by
    nth_rewrite 2 [← hbefore]
    rw [List.append_assoc, List.take_left]
  have hline : ((source.before span ++ source.after span).take ((source.before span).length +
      ((source.after span).takeWhile isInLine).length)).drop ((source.before span).rdropWhile isInLine).length =
      (source.before span).rtakeWhile isInLine ++ (source.after span).takeWhile isInLine := by
    nth_rewrite 2 [← hafter]
    rw [List.take_length_add_append, List.take_left]
    nth_rewrite 2 [← hbefore]
    rw [List.append_assoc, List.drop_left]
  have hcolumn := congrArg List.length hbefore
  rw [List.length_append] at hcolumn
  unfold lineAt
  dsimp only
  rw [hplace, hchars, List.take_left, List.drop_left, lineStart, List.length_append, lineStop, hinit, hline, ← hcolumn,
    Nat.add_sub_cancel_left]

theorem text_lineAt : (source.lineAt span).text.toList =
    (source.before span).rtakeWhile isInLine ++ (source.after span).takeWhile isInLine := by
  rw [lineAt_eq]
  exact String.toList_ofList

theorem column_lineAt : (source.lineAt span).column = ((source.before span).rtakeWhile isInLine).length := by
  rw [lineAt_eq]

theorem number_lineAt :
    (source.lineAt span).number = 1 + ((source.before span).rdropWhile isInLine).count '\n' := by
  rw [lineAt_eq]

theorem notMem_lineAt : '\n' ∉ (source.lineAt span).text.toList := by
  rw [text_lineAt, List.mem_append, not_or]
  exact ⟨notMem_rtakeWhile _, notMem_takeWhile _⟩

/-- The text around the line of a place. -/
theorem toList_around : source.text.toList = (source.before span).rdropWhile isInLine ++
    ((source.lineAt span).text.toList ++ (source.after span).dropWhile isInLine) := by
  rw [text_lineAt, List.append_assoc, List.takeWhile_append_dropWhile, ← List.append_assoc, before_around]
  exact (List.take_append_drop span.offset source.text.toList).symm

/-- The line that is found stands for the place. -/
theorem lineAt_shows : (source.lineAt span).Shows source.lines (min span.offset source.text.length) := by
  obtain ⟨earlier, later, hsplit, hlength, hroom⟩ := splitOn_around (rdropWhile_ended (source.before span))
    (source.notMem_lineAt span) (dropWhile_starts (source.after span))
  have hlines : source.lines = earlier ++ (source.lineAt span).text.toList :: later := by
    rw [lines, toList_around, hsplit]
  have hnumber : (source.lineAt span).number = 1 + earlier.length := by rw [number_lineAt, hlength]
  constructor
  · omega
  · rw [hnumber, hlines, List.length_append, List.length_cons]
    omega
  · rw [hnumber, hlines, Nat.add_sub_cancel_left, List.getElem?_append_right (Nat.le_refl _), Nat.sub_self]
    rfl
  · rw [column_lineAt, ← String.length_toList, text_lineAt, List.length_append]
    omega
  · have hbefore := congrArg List.length (source.before_around span)
    rw [List.length_append, before, List.length_take, String.length_toList] at hbefore
    rw [hnumber, hlines, column_lineAt, Nat.add_sub_cancel_left, List.take_left, hroom, before, hbefore]

/-- The character in its column is the one at the place, unless the place is at the end of the line. -/
theorem lineAt_column : (source.lineAt span).text.toList[(source.lineAt span).column]? =
    source.text.toList[min span.offset source.text.length]?.filter isInLine := by
  have hplace : source.text.toList[min span.offset source.text.length]? = (source.after span).head? := by
    rw [after, List.head?_drop, ← String.length_toList]
    by_cases h : span.offset ≤ source.text.toList.length
    · rw [Nat.min_eq_left h]
    · rw [List.getElem?_eq_none (by omega), List.getElem?_eq_none (by omega)]
  rw [text_lineAt, column_lineAt, hplace, List.getElem?_append_right (Nat.le_refl _), Nat.sub_self,
    ← List.head?_eq_getElem?, List.head?_takeWhile]

end SourceText

/-! ## Diagnostics -/

/-- The carets of a diagnostic, under the column of the place. -/
def SourceLine.carets (line : SourceLine) (length : Nat) : List Char :=
  List.replicate line.column ' ' ++ List.replicate (max length 1) '^'

theorem heading_inLine (n : Nat) :
    '\n' ∉ ("[" ++ analysisName ++ "] " ++ toString n ++ "-р мөрөнд алдаа гарлаа:").toList := by
  have hnumber := Assembly.notMem_digits (c := '\n') (by decide) n
  have htitle : '\n' ∉ ("[" ++ analysisName ++ "] ").toList := by decide
  have hend : '\n' ∉ ("-р мөрөнд алдаа гарлаа:").toList := by decide
  rw [String.toList_append, String.toList_append (s := "[" ++ analysisName ++ "] "), List.mem_append, List.mem_append]
  exact not_or.2 ⟨not_or.2 ⟨htitle, hnumber⟩, hend⟩

theorem SourceLine.carets_blank {line : SourceLine} {i : Nat} (h : i < line.column) (length : Nat) :
    (line.carets length)[i]? = some ' ' := by
  rw [carets, List.getElem?_append_left (by simpa using h), List.getElem?_replicate_of_lt h]

theorem SourceLine.carets_column (line : SourceLine) (length : Nat) :
    (line.carets length)[line.column]? = some '^' := by
  have hroom : 0 < max length 1 := by omega
  rw [carets, List.getElem?_append_right (by simp), List.length_replicate, Nat.sub_self,
    List.getElem?_replicate_of_lt hroom]

/-- A diagnostic is printed as a heading, the line of the place, the carets, and the message. -/
theorem Rejection.render_lines (r : Rejection) (source : SourceText) : ∃ heading message,
    (r.render source).toList.splitOn '\n' = heading :: (source.lineAt r.span).text.toList ::
      (source.lineAt r.span).carets r.span.length :: message := by
  have htext : (r.render source).toList =
      ("[" ++ analysisName ++ "] " ++ toString (source.lineAt r.span).number ++ "-р мөрөнд алдаа гарлаа:").toList ++
        '\n' :: ((source.lineAt r.span).text.toList ++ '\n' :: ((source.lineAt r.span).carets r.span.length ++
          '\n' :: ("Алдааны мессеж: " ++ r.complaint.message ++ "\n").toList)) := by
    simp [render, SourceLine.carets]
  have hcarets : '\n' ∉ (source.lineAt r.span).carets r.span.length := by
    simp [SourceLine.carets]
  rw [htext, splitOn_line (heading_inLine _), splitOn_line (source.notMem_lineAt r.span), splitOn_line hcarets]
  exact ⟨_, _, rfl⟩

/-- The line that is found for a span is one of the lines of the text, and the place is where the span starts, or the
end of the text. A diagnostic prints the line with the carets below it: the first of them stands under the character at
the place, or just behind the line if the place is at its end. -/
theorem SourceText.lineAt_points (source : SourceText) (complaint : Complaint) (span : Span) :
    (source.lineAt span).Shows source.lines (min span.offset source.text.length) ∧
      ∃ heading quoted carets message,
        (Rejection.render ⟨complaint, span⟩ source).toList.splitOn '\n' = heading :: quoted :: carets :: message ∧
          quoted = (source.lineAt span).text.toList ∧
          (∀ i < (source.lineAt span).column, carets[i]? = some ' ') ∧
          carets[(source.lineAt span).column]? = some '^' ∧
          quoted[(source.lineAt span).column]? =
            source.text.toList[min span.offset source.text.length]?.filter isInLine := by
  obtain ⟨heading, message, hlines⟩ := Rejection.render_lines ⟨complaint, span⟩ source
  refine ⟨source.lineAt_shows span, heading, _, _, message, hlines, rfl, ?_, ?_, source.lineAt_column span⟩
  · exact fun i hi => SourceLine.carets_blank hi span.length
  · exact SourceLine.carets_column _ span.length

/-- A place behind a text that ends with a line end is in the empty line there. -/
example : SourceText.lineAt ⟨"", "a\nb\n"⟩ ⟨100, 1⟩ = ⟨3, "", 0⟩ := by decide

end Khel
