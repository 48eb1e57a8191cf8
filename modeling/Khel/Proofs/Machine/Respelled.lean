import Khel.Proofs.Machine.Labels
import Khel.Proofs.Text.Latin

/-!
# Machine code that is spelled twice

A program that was spelled is its own spelling, since a spelling is spelled as it is. A replacement of names takes a jump
and its label to the same new name, and spelling leaves the labels that lowering makes.

* `Machine.Program.latinize_latinize`: a spelled program is its own spelling.
* `Machine.Function.JumpsTo.mapNames`: replacing names keeps jumps and labels together.
* `Machine.Program.latinize_stable`: what spelling in Latin letters does to names, programs and labels.
-/

namespace Khel

namespace Machine

/-! ## Spelled names -/

section Map

variable {ρ : String → String}

theorem Operand.mapName_eq_self {o : Operand} (h : ∀ x ∈ o.dataName?.toList, ρ x = x) : o.mapName ρ = o := by
  cases o with
  | data x => rw [mapName, h x (by simp [dataName?])]
  | imm _ | reg _ | pseudo _ | stack _ | str _ => rfl

theorem Instr.mapNames_eq_self {i : Instr} (h : ∀ x ∈ i.names, ρ x = x) : i.mapNames ρ = i := by
  cases i with
  | mov _ a b | movsx a b | binary _ _ a b | cmp _ a b =>
    have ha : a.mapName ρ = a := Operand.mapName_eq_self fun x hx => h x (List.mem_append_left _ hx)
    have hb : b.mapName ρ = b := by
      apply Operand.mapName_eq_self
      exact fun x hx => h x (List.mem_append_right _ (List.mem_append_left _ hx))
    simp only [mapNames, relocate, mapOperands, ha, hb]
    rfl
  | unary _ _ a | idiv _ a | setcc _ a | push a =>
    have ha : a.mapName ρ = a := Operand.mapName_eq_self fun x hx => h x (List.mem_append_left _ hx)
    simp only [mapNames, relocate, mapOperands, ha]
    rfl
  | cdq _ | ret => rfl
  | jmp x | jcc _ x | label x | call x => rw [mapNames, h x (by simp [names])]

theorem map_eq_self {α : Type} {f : α → α} {as : List α} (h : ∀ a ∈ as, f a = a) : as.map f = as :=
  (List.map_congr_left h).trans (List.map_id as)

theorem Function.mapNames_eq_self {f : Function} (h : ∀ x ∈ f.names, ρ x = x) : f.mapNames ρ = f := by
  obtain ⟨hname, hcode⟩ := List.forall_mem_cons.1 h
  have hsame : f.code.map (Instr.mapNames ρ) = f.code := by
    apply map_eq_self
    exact fun i hi => Instr.mapNames_eq_self fun x hx => hcode x (List.mem_flatMap.2 ⟨i, hi, hx⟩)
  rw [mapNames, hname, hsame]

/-- A replacement that leaves all names of a program leaves the program. -/
theorem Program.mapNames_eq_self {p : Program} (h : ∀ x ∈ p.names, ρ x = x) : p.mapNames ρ = p := by
  obtain ⟨hfunctions, hrest⟩ := List.forall_mem_append.1 h
  obtain ⟨hstatics, hexternals⟩ := List.forall_mem_append.1 hrest
  have hfs : p.functions.map (Function.mapNames ρ) = p.functions := by
    apply map_eq_self
    exact fun f hf => Function.mapNames_eq_self fun x hx => hfunctions x (List.mem_flatMap.2 ⟨f, hf, hx⟩)
  have hvs : p.statics.map (StaticVar.mapName ρ) = p.statics := by
    apply map_eq_self
    intro v hv
    rw [StaticVar.mapName, hstatics v.name (List.mem_map_of_mem hv)]
  rw [mapNames, hfs, hvs, map_eq_self hexternals]

end Map

/-- A program that was spelled is its own spelling. -/
theorem Program.latinize_latinize {p q : Program} (h : p.latinize = .ok q) : q.latinize = .ok q := by
  obtain ⟨hspelled, rfl⟩ := latinize_spells h
  have hnames : ∀ x ∈ p.spelled.names, Text.latin x = .ok x := by
    rw [spelled, p.names_mapNames, List.forall_mem_map]
    exact fun x hx => Text.latin_latin (hspelled x hx)
  rw [p.spelled.latinize_inTurn.eq_ok fun x hx => ⟨x, hnames x hx⟩]
  exact congrArg Except.ok (mapNames_eq_self fun x hx => Text.spelling_of_latin (hnames x hx))

/-! ## Jumps and labels -/

/-- The instruction at `i` may jump to the label at `j`. -/
def Function.JumpsTo (f : Function) (i j : Nat) : Prop :=
  ∃ l, f.code[i]?.bind Instr.mark? = some (.jump l) ∧ f.code[j]?.bind Instr.mark? = some (.label l)

/-- A replacement of names keeps jumps and their labels together. -/
theorem Function.JumpsTo.mapNames {f : Function} {i j : Nat} (h : f.JumpsTo i j) (ρ : String → String) :
    (f.mapNames ρ).JumpsTo i j := by
  have hmark : ∀ k : Nat,
      (f.mapNames ρ).code[k]?.bind Instr.mark? = (f.code[k]?.bind Instr.mark?).map (Mark.mapName ρ) := by
    intro k
    show (f.code.map (Instr.mapNames ρ))[k]?.bind Instr.mark? = _
    rw [List.getElem?_map]
    cases f.code[k]? with
    | none => rfl
    | some i => exact i.mark?_mapNames ρ
  obtain ⟨l, hjump, hlabel⟩ := h
  exact ⟨ρ l, by rw [hmark, hjump]; rfl, by rw [hmark, hlabel]; rfl⟩

/-- Every jump that finds its label in its function does so after spelling, at the same place. -/
theorem Program.latinize_jumps {p q : Program} (h : p.latinize = .ok q) :
    List.Forall₂ (fun f f' => ∀ i j, Function.JumpsTo f i j → Function.JumpsTo f' i j) p.functions q.functions := by
  obtain ⟨_, rfl⟩ := latinize_spells h
  exact List.forall₂_map_right_iff.2 (List.forall₂_same.2 fun f _ i j hij => hij.mapNames Text.spelling)

end Machine

/-! ## Labels of intermediate code -/

section Lowered

variable {p q : Program} {T T' : SymbolTable} {ir : Ir.Program}

/-- Spelling leaves every label that lowering makes, and so the names that jumps go to. -/
theorem Program.lower_spelled (ha : p.analyze = .ok (q, T)) (hl : q.lower T = .ok (ir, T')) :
    ∀ f ∈ ir.functions, ∀ m ∈ Ir.marks f.code, Text.latin m.name = .ok m.name := by
  obtain ⟨hloops, hlab⟩ := p.analyze_loops.of_ok ha
  obtain ⟨_, hfound, hlabel⟩ := Program.lower_labels hloops hlab hl
  intro f hf m hm
  have hmem : m.name ∈ Ir.labels f.code := (Ir.name_mem_of_mem_marks hm).elim id (hfound f hf m.name)
  exact Text.latin_of_isSpelling (hlabel f hf m.name hmem).isSpelling

/-- So the labels and jumps of the spelled code are those of the intermediate code. -/
theorem Program.lower_latinize_marks (ha : p.analyze = .ok (q, T)) (hl : q.lower T = .ok (ir, T'))
    {code spelled : Machine.Program} {M : Machine.SymbolTable} (hm : ir.toMachine T' = .ok (code, M))
    (hs : code.latinize = .ok spelled) :
    spelled.functions.map (fun f => Machine.marks f.code) = ir.functions.map fun f => Ir.marks f.code := by
  have hmarks : code.functions.map (fun f => Machine.marks f.code) = ir.functions.map fun f => Ir.marks f.code :=
    map_eq_of_forall₂ (((ir.toMachine_marks T').of_ok hm).imp fun _ _ hf => hf.marks)
  obtain ⟨_, rfl⟩ := Machine.Program.latinize_spells hs
  rw [← hmarks]
  apply Machine.Program.marks_spelled
  intro f hf m hm
  obtain ⟨g, hg, hgf⟩ := List.mem_map.1 (hmarks ▸ List.mem_map_of_mem hf)
  exact Program.lower_spelled ha hl g hg m (hgf ▸ hm)

end Lowered

section Stable

open Text (latin IsSpelling IsLowering InAlphabet smallLetter isLowering_smallLetter)

/-- A name can be spelled if and only if all of its characters are of the alphabet, and otherwise the first other one is
reported; a spelling has only characters that stay, it is its own spelling, and a name is spelled in parts. So a program
that was spelled is its own spelling, every jump that finds its label in its function still does so at the same place,
and the labels that lowering makes are left as they are. -/
theorem Machine.Program.latinize_stable {lower : Char → Char} (hlower : IsLowering lower) :
    (∀ a b : String,
      ((∃ y, latin a = .ok y) ↔ ∀ c ∈ a.toList, InAlphabet lower c) ∧
        (∀ e, latin a = .error e ↔ ∃ before c after, a.toList = before ++ c :: after ∧
          (∀ d ∈ before, InAlphabet lower d) ∧ ¬ InAlphabet lower c ∧ e = .noLatinFor c) ∧
        (∀ y, latin a = .ok y → IsSpelling y ∧ latin y = .ok y) ∧
        ∀ z, latin (a ++ b) = .ok z ↔ ∃ x y, latin a = .ok x ∧ latin b = .ok y ∧ z = x ++ y) ∧
      (∀ p q : Machine.Program, p.latinize = .ok q → q.latinize = .ok q ∧
        List.Forall₂ (fun f f' => ∀ i j, Function.JumpsTo f i j → Function.JumpsTo f' i j) p.functions q.functions) ∧
      ∀ (p q : Khel.Program) (T T' : Khel.SymbolTable) (ir : Ir.Program), p.analyze = .ok (q, T) →
        q.lower T = .ok (ir, T') →
          (∀ f ∈ ir.functions, ∀ m ∈ Ir.marks f.code, latin m.name = .ok m.name) ∧
            ∀ code M spelled, ir.toMachine T' = .ok (code, M) → code.latinize = .ok spelled →
              spelled.functions.map (fun f => marks f.code) = ir.functions.map fun f => Ir.marks f.code := by
  refine ⟨fun a b => ⟨?_, ?_, ?_, ?_⟩, ?_, ?_⟩
  · exact Text.latin_isOk_iff hlower a
  · exact Text.latin_eq_error_iff hlower a
  · exact fun y hy => ⟨Text.latin_isSpelling hy, Text.latin_latin hy⟩
  · exact fun z => Text.latin_append_iff
  · exact fun p q h => ⟨latinize_latinize h, latinize_jumps h⟩
  · intro p q T T' ir ha hl
    exact ⟨Program.lower_spelled ha hl, fun code M spelled hm hs => Program.lower_latinize_marks ha hl hm hs⟩

/-- A function that reads a static variable and calls a linked function, again and again. -/
def circles : Machine.Program where
  functions := [⟨"Үндсэн", true,
    [.label "Цикл.0", .mov .long (.data "тоо") (.reg .ax), .call "хэвлэ_мөр", .jmp "Цикл.0", .ret]⟩]
  statics := [⟨"тоо", false, .long, 5⟩]
  externals := ["хэвлэ_мөр"]

/-- It is spelled once and for all, its jump still goes back to its start, and the labels of `greets` stay. -/
theorem circles_stable : IsLowering smallLetter ∧ latin ("Цикл" ++ ".0") = .ok ("tsikl" ++ ".0") ∧
    latin "үнэ€" = .error (.noLatinFor '€') ∧
    (∃ q, circles.latinize = .ok q ∧ q.latinize = .ok q ∧ ∃ f ∈ q.functions, Machine.Function.JumpsTo f 3 0) ∧
    ∃ q T ir T', greets.analyze = .ok (q, T) ∧ q.lower T = .ok (ir, T') ∧
      ∀ f ∈ ir.functions, ∀ m ∈ Ir.marks f.code, latin m.name = .ok m.name := by
  obtain ⟨hnames, hprograms, hlabels⟩ := Machine.Program.latinize_stable isLowering_smallLetter
  have hbefore : ∀ d ∈ "үнэ".toList, InAlphabet smallLetter d := (hnames "үнэ" "").1.1 ⟨"wne", rfl⟩
  refine ⟨isLowering_smallLetter, ?_, ?_, ?_, ?_⟩
  · exact ((hnames "Цикл" ".0").2.2.2 _).2 ⟨"tsikl", ".0", rfl, rfl, rfl⟩
  · exact ((hnames "үнэ€" "").2.1 _).2 ⟨"үнэ".toList, '€', [], rfl, hbefore, by decide, rfl⟩
  · have hspelled : ∃ q, circles.latinize = .ok q := ⟨_, rfl⟩
    obtain ⟨q, hq⟩ := hspelled
    obtain ⟨hagain, hjumps⟩ := hprograms circles q hq
    obtain ⟨f, _, hjump, _, hfunctions⟩ := List.forall₂_cons_left_iff.1 hjumps
    refine ⟨q, hq, hagain, f, ?_, hjump 3 0 ⟨"Цикл.0", rfl, rfl⟩⟩
    rw [hfunctions]
    exact List.mem_cons_self
  · have ha : ∃ q T, greets.analyze = .ok (q, T) := ⟨_, _, rfl⟩
    obtain ⟨q, T, ha⟩ := ha
    have hl : ∃ ir T', q.lower T = .ok (ir, T') := by
      cases ha
      exact ⟨_, _, rfl⟩
    obtain ⟨ir, T', hl⟩ := hl
    exact ⟨q, T, ir, T', ha, hl, (hlabels greets q T T' ir ha hl).1⟩

end Stable

end Khel
