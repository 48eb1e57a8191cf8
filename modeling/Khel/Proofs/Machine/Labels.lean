import Khel.Compile
import Khel.Proofs.Ir.ProgramLabels
import Khel.Proofs.Machine.Spelled
import Khel.Proofs.Machine.StackDepth

/-!
# Labels on their way to assembly

Selection, slots, legalization and spelling replace instructions, but labels and jumps pass through all of them: they
stand in the same order with the same names. To follow both at once, code is read as its *marks*.

* `marks`: the labels and jumps of a piece of code, in order.
* `Ir.Program.toMachine_marks`: the machine code of a program has the marks of its intermediate code.
* `Machine.Program.marks_spelled`: spelling leaves labels that are spelled as they are.
-/

namespace Khel

/-! ## Marks -/

/-- A place where control arrives, or one from where it may go. -/
inductive Mark where
  | label (name : String)
  | jump (target : String)

namespace Mark

/-- The name in a mark. -/
def name : Mark → String
  | label l | jump l => l

/-- The label, if the mark is one. -/
def label? : Mark → Option String
  | label l => some l
  | jump _ => none

/-- The target, if the mark is a jump. -/
def target? : Mark → Option String
  | label _ => none
  | jump t => some t

end Mark

namespace Ir

/-- The mark that an instruction is. -/
def Instr.mark? : Instr → Option Mark
  | .label l => some (.label l)
  | .jump t | .jumpIfZero _ t | .jumpIfNotZero _ t => some (.jump t)
  | _ => none

/-- The labels and jumps of a piece of code, in order. -/
def marks (code : List Instr) : List Mark := code.filterMap Instr.mark?

theorem labels_eq_marks (code : List Instr) : labels code = (marks code).filterMap Mark.label? := by
  rw [labels, marks, List.filterMap_filterMap]
  congr 1
  funext i
  cases i <;> rfl

theorem targets_eq_marks (code : List Instr) : targets code = (marks code).filterMap Mark.target? := by
  rw [targets, marks, List.filterMap_filterMap]
  congr 1
  funext i
  cases i <;> rfl

theorem name_mem_of_mem_marks {code : List Instr} {m : Mark} (h : m ∈ marks code) :
    m.name ∈ labels code ∨ m.name ∈ targets code := by
  rw [labels_eq_marks, targets_eq_marks]
  cases m with
  | label l => exact .inl (List.mem_filterMap.2 ⟨_, h, rfl⟩)
  | jump t => exact .inr (List.mem_filterMap.2 ⟨_, h, rfl⟩)

end Ir

namespace Machine

/-- The mark that an instruction is. -/
def Instr.mark? : Instr → Option Mark
  | .label l => some (.label l)
  | .jmp t | .jcc _ t => some (.jump t)
  | _ => none

/-- The labels and jumps of a piece of code, in order. -/
def marks (code : List Instr) : List Mark := code.filterMap Instr.mark?

@[simp] theorem marks_nil : marks [] = [] := rfl

@[simp] theorem marks_append (a b : List Instr) : marks (a ++ b) = marks a ++ marks b := List.filterMap_append

@[simp] theorem marks_cons (i : Instr) (code : List Instr) : marks (i :: code) = i.mark?.toList ++ marks code := by
  cases h : i.mark? <;> simp [marks, h]

attribute [simp] Instr.mark?

/-! ## Selection -/

section Select

variable {T : Khel.SymbolTable}

theorem selectUnary_marks (op : UnaryOp) (src dst : Ir.Value) :
    Yields (selectUnary T op src dst) (fun _ => True) fun code => marks code = [] := by
  refine .bind (Width.ofValue_any src) fun w _ => .bind (Width.ofValue_any dst) fun w' _ => ?_
  cases op <;> exact .pure rfl

theorem selectBinary_marks (op : StrictOp) (l r dst : Ir.Value) :
    Yields (selectBinary T op l r dst) (fun _ => True) fun code => marks code = [] := by
  refine .bind (Width.ofValue_any l) fun w _ => ?_
  cases op with
  | arith op => cases op <;> exact .pure rfl
  | compare op => exact .bind (Width.ofValue_any dst) fun w' _ => .pure rfl

theorem selectParams_marks (xs : List String) (index : Nat) :
    Yields (selectParams T index xs) (fun _ => True) fun code => marks code = [] := by
  induction xs generalizing index with
  | nil => exact .pure rfl
  | cons x xs ih =>
    apply Yields.bind (.of_forall fun _ _ => trivial : Yields (Width.ofVar T x) (fun _ => True) fun _ => True)
    intro w _
    exact .bind (ih (index + 1)) fun code hcode => .pure (by simpa using hcode)

theorem selectRegisterArgs_marks (vs : List Ir.Value) (index : Nat) :
    Yields (selectRegisterArgs T index vs) (fun _ => True) fun code => marks code = [] := by
  induction vs generalizing index with
  | nil => exact .pure rfl
  | cons v vs ih =>
    apply Yields.bind (Width.ofValue_any v)
    intro w _
    exact .bind (ih (index + 1)) fun code hcode => .pure (by simpa using hcode)

theorem selectPushes_marks (vs : List Ir.Value) :
    Yields (selectPushes T vs) (fun _ => True) fun code => marks code = [] := by
  induction vs with
  | nil => exact .pure rfl
  | cons v vs ih =>
    have hpush : Yields (selectPush T v) (fun _ => True) fun code => marks code = [] := by
      apply Yields.bind (Width.ofValue_any v)
      intro w _
      split <;> exact .pure rfl
    apply Yields.bind hpush
    intro push hpush
    exact .bind ih fun pushes hpushes => .pure (by simp [hpush, hpushes])

theorem marks_adjustStack (op : BinOp) (bytes : Nat) : marks (adjustStack op bytes) = [] := by
  unfold adjustStack
  split <;> rfl

theorem selectCall_marks (f : String) (args : List Ir.Value) (dst : Ir.Value) :
    Yields (selectCall T f args dst) (fun _ => True) fun code => marks code = [] := by
  unfold selectCall
  split
  · apply Yields.bind (selectRegisterArgs_marks (args.take 6) 0)
    intro moves hmoves
    apply Yields.bind (selectPushes_marks (args.drop 6).reverse)
    intro pushes hpushes
    apply Yields.bind (Width.ofValue_any dst)
    intro w _
    exact .pure (by simp [callCode, marks_adjustStack, hmoves, hpushes])
  · exact .throw trivial

/-- The machine code of an instruction has the mark of the instruction. -/
theorem select_marks (i : Ir.Instr) :
    Yields (select T i) (fun _ => True) fun code => marks code = i.mark?.toList := by
  cases i with
  | ret v => exact .bind (Width.ofValue_any v) fun w _ => .pure rfl
  | signExtend src dst | truncate src dst => exact .pure rfl
  | unary op src dst => exact selectUnary_marks op src dst
  | binary op l r dst => exact selectBinary_marks op l r dst
  | copy src dst => exact .bind (Width.ofValue_any dst) fun w _ => .pure rfl
  | jump t | label l => exact .pure rfl
  | jumpIfZero test t | jumpIfNotZero test t => exact .bind (Width.ofValue_any test) fun w _ => .pure rfl
  | call f args dst => exact selectCall_marks f args dst

theorem selectAll_marks (code : List Ir.Instr) :
    Yields (selectAll T code) (fun _ => True) fun code' => marks code' = Ir.marks code := by
  induction code with
  | nil => exact .pure rfl
  | cons i is ih =>
    apply Yields.bind (select_marks i)
    intro a ha
    apply Yields.bind ih
    intro b hb
    apply Yields.pure
    rw [marks_append, ha, hb]
    cases h : i.mark? <;> simp [Ir.marks, h]

theorem Function.ofIr_marks (g : Ir.Function) :
    Yields (Function.ofIr T g) (fun _ => True) fun f => f.name = g.name ∧ marks f.code = Ir.marks g.code := by
  apply Yields.bind (selectParams_marks g.params 0)
  intro fetch hfetch
  apply Yields.bind (selectAll_marks g.code)
  intro code hcode
  exact .pure ⟨rfl, by simp [hfetch, hcode]⟩

end Select

/-! ## Slots and legal code -/

theorem marks_relocate (place : Operand → Operand) (code : List Instr) :
    marks (code.map (Instr.relocate place)) = marks code := by
  rw [marks, List.filterMap_map, marks]
  congr 1
  funext i
  cases i <;> rfl

theorem marks_splitMemory (i : Instr) : marks (splitMemory i) = i.mark?.toList := by
  cases i <;> simp only [splitMemory] <;> first | rfl | (split <;> rfl)

theorem marks_legalOperands (i : Instr) : marks (legalOperands i) = i.mark?.toList := by
  cases i with
  | mov w src dst =>
    simp only [legalOperands, legalMov]
    split
    · split <;> rfl
    · rfl
  | movsx src dst =>
    simp only [legalOperands, legalMovsx, viaRegister]
    split <;> split <;> rfl
  | cmp w left right =>
    simp only [legalOperands, legalCmp, viaRegister]
    split <;> split <;> rfl
  | push arg =>
    simp only [legalOperands, legalPush, viaRegister]
    split <;> rfl
  | idiv w arg =>
    simp only [legalOperands, legalIdiv, viaRegister]
    split <;> rfl
  | binary op w src dst =>
    simp only [legalOperands, legalBinary, viaRegister]
    split <;> split <;> rfl
  | unary _ _ _ | cdq _ | jmp _ | jcc _ _ | setcc _ _ | label _ | call _ | ret => rfl

theorem loadText_marks (scratch o : Operand) : marks (loadText scratch o).1 = [] := by
  cases o <;> rfl

theorem loadTexts_marks (i : Instr) : marks (loadTexts i).1 = [] ∧ (loadTexts i).2.mark? = i.mark? := by
  cases i with
  | cmp w a b => exact ⟨by simp [loadTexts, loadText_marks], rfl⟩
  | binary op w a b => exact ⟨loadText_marks srcScratch a, rfl⟩
  | idiv w a => exact ⟨loadText_marks srcScratch a, rfl⟩
  | _ => exact ⟨rfl, rfl⟩

theorem marks_flatMap {f : Instr → List Instr} (h : ∀ i, marks (f i) = i.mark?.toList) (code : List Instr) :
    marks (code.flatMap f) = marks code := by
  induction code with
  | nil => rfl
  | cons i is ih => rw [List.flatMap_cons, marks_append, h, ih, marks_cons]

/-- The legal code of an instruction has the mark of the instruction. -/
theorem marks_legalCode (i : Instr) : marks (legalCode i) = i.mark?.toList := by
  obtain ⟨hloads, hmark⟩ := loadTexts_marks i
  show marks (((loadTexts i).1 ++ legalOperands (loadTexts i).2).flatMap splitMemory) = i.mark?.toList
  rw [marks_flatMap marks_splitMemory, marks_append, hloads, marks_legalOperands, hmark]
  rfl

/-- A function keeps its name and its marks. -/
structure KeepsMarks (g : Ir.Function) (f : Function) : Prop where
  name : f.name = g.name
  marks : marks f.code = Ir.marks g.code

/-- A function keeps its name and its marks through all stages. -/
theorem Function.finish_marks {T : Khel.SymbolTable} {M M' : SymbolTable} {g : Ir.Function} {f₀ f₁ f₂ : Function}
    {size : Int} (hselect : Function.ofIr T g = .ok f₀) (hplaced : f₀.PlacedAs M f₁ size)
    (hsize : M'.frameSize? f₀.name = some size) (hfinish : f₁.finish M' = .ok f₂) : KeepsMarks g f₂ := by
  obtain ⟨hname, hmarks⟩ := (Function.ofIr_marks g).of_ok hselect
  obtain ⟨frame, _, _, _, hf₁⟩ := hplaced
  have hname₁ : f₁.name = f₀.name := by rw [hf₁]
  have hmarks₁ : marks f₁.code = marks f₀.code := by rw [hf₁, marks_relocate]
  obtain ⟨hname₂, hcode₂⟩ := (Function.finish_code (hname₁ ▸ hsize)).of_ok hfinish
  constructor
  · rw [hname₂, hname₁, hname]
  · rw [hcode₂, marks_append, marks_legalCode, marks_flatMap marks_legalCode, hmarks₁, hmarks]
    rfl

end Machine

/-- The machine code of a program has the marks of its intermediate code, function by function. -/
theorem Ir.Program.toMachine_marks (ir : Ir.Program) (T : SymbolTable) :
    Yields (ir.toMachine T) (fun _ => True) fun r =>
      List.Forall₂ Machine.KeepsMarks ir.functions r.1.functions := by
  apply Yields.bind (Machine.Program.ofIr_functions ir)
  intro r₀ hselect
  obtain ⟨code₀, M⟩ := r₀
  apply Yields.bind (code₀.assignSlots_lays M)
  intro r₁ hslots
  obtain ⟨code₁, M'⟩ := r₁
  apply Yields.bind (code₁.finish_functions M')
  intro code₂ hfinish
  apply Yields.pure
  refine (Machine.forall₂_comp (Machine.forall₂_comp hselect hslots.2.2) hfinish).imp ?_
  intro g f₂ h
  obtain ⟨f₁, ⟨f₀, ⟨_, hf₀⟩, size, hsize, hf₁⟩, hf₂⟩ := h
  exact Machine.Function.finish_marks hf₀ hf₁ hsize hf₂

/-! ## Spelling -/

/-- Replaces the name in a mark. -/
def Mark.mapName (ρ : String → String) : Mark → Mark
  | label l => label (ρ l)
  | jump t => jump (ρ t)

theorem Mark.mapName_eq_self {ρ : String → String} {m : Mark} (h : ρ m.name = m.name) : m.mapName ρ = m := by
  cases m with
  | label l => exact congrArg label h
  | jump t => exact congrArg jump h

namespace Machine

theorem Instr.mark?_mapNames (ρ : String → String) (i : Instr) :
    (i.mapNames ρ).mark? = i.mark?.map (Mark.mapName ρ) := by
  cases i <;> rfl

/-- Replacing names replaces those of jumps and labels. -/
theorem marks_mapNames (ρ : String → String) (f : Function) :
    marks (f.mapNames ρ).code = (marks f.code).map (Mark.mapName ρ) := by
  show (f.code.map (Instr.mapNames ρ)).filterMap Instr.mark? = (f.code.filterMap Instr.mark?).map _
  rw [List.filterMap_map, List.map_filterMap]
  congr 1
  funext i
  exact i.mark?_mapNames ρ

/-- Spelling leaves the marks of a program, if their names are spelled. -/
theorem Program.marks_spelled {p : Program}
    (h : ∀ f ∈ p.functions, ∀ m ∈ marks f.code, Text.latin m.name = .ok m.name) :
    p.spelled.functions.map (fun f => marks f.code) = p.functions.map fun f => marks f.code := by
  show (p.functions.map (Function.mapNames Text.spelling)).map (fun f => marks f.code) = _
  rw [List.map_map]
  refine List.map_congr_left fun f hf => (marks_mapNames Text.spelling f).trans ?_
  exact (List.map_congr_left fun m hm => Mark.mapName_eq_self (Text.spelling_of_latin (h f hf m hm))).trans
    (List.map_id _)

end Machine

end Khel
