import Khel.Assembly.Program
import Khel.Proofs.Naming.Numbered
import Khel.Text.Latin
import Mathlib.Data.List.Infix

/-!
# The references in a text of assembly

Calls and operands of the code refer to functions, static variables and texts. What an operand refers to can be read off
its text, so the references of a text of assembly can be read off its lines, and they are those of the program that was
written.

* `Assembly.references`: what is read off the lines.
* `Machine.Reference`: what code refers to, and `Assembly.WrittenAs`: how that is written.
* `Assembly.program_gives`: the references of a program.
-/

namespace Khel

/-! ## Operands -/

/-- The name has only characters that a symbol may have. -/
def Text.IsSpelling (name : String) : Prop := ∀ c ∈ name.toList, Text.isPlain c = true

namespace Assembly

/-- What stands in front of a suffix. -/
def withoutSuffix? (suffix text : String) : Option String := (text.toList.dropSuffix? suffix.toList).map String.ofList

theorem withoutSuffix?_append (suffix text : String) : withoutSuffix? suffix (text ++ suffix) = some text := by
  have h : (text ++ suffix).toList.dropSuffix? suffix.toList = some text.toList :=
    List.dropSuffix?_eq_some_iff.2 ⟨suffix.toList, String.toList_append, beq_self_eq_true _⟩
  rw [withoutSuffix?, h, Option.map_some, String.ofList_toList]

theorem withoutSuffix?_eq_none {suffix text : String} (h : ∀ front, text.toList ≠ front ++ suffix.toList) :
    withoutSuffix? suffix text = none := by
  rw [withoutSuffix?, Option.map_eq_none_iff, Option.eq_none_iff_forall_ne_some]
  intro front hfront
  obtain ⟨s, htext, hs⟩ := List.dropSuffix?_eq_some_iff.1 hfront
  exact h front ((eq_of_beq hs) ▸ htext)

theorem withoutSuffix?_of_notMem {suffix text : String} {c : Char} (hc : c ∈ suffix.toList) (h : c ∉ text.toList) :
    withoutSuffix? suffix text = none := by
  refine withoutSuffix?_eq_none fun front htext => h ?_
  rw [htext]
  exact List.mem_append_right front hc

/-- The data that an operand is, as its text tells. -/
def dataOf? (text : String) : Option String := withoutSuffix? "(%rip)" text

/-- The function that an operand of a call is, as its text tells. -/
def calleeOf (text : String) : String := (withoutSuffix? "@PLT" text).getD text

theorem notMem_digits {c : Char} (hc : c.isDigit = false) (n : Nat) : c ∉ (toString n).toList := by
  intro h
  rw [Nat.toString_eq_ofList_toDigits, String.toList_ofList] at h
  have hd := Nat.isDigit_of_mem_toDigits (by decide) (by decide) h
  rw [hc] at hd
  cases hd

/-- There are no brackets in a number. -/
theorem bracket_notMem_number : ∀ i : Int, ')' ∉ (toString i).toList
  | .ofNat n => notMem_digits (by decide) n
  | .negSucc n => by
    have h : ')' ∉ (toString (n + 1)).toList := notMem_digits (by decide) (n + 1)
    change ')' ∉ ("-" ++ toString (n + 1)).toList
    simpa using h

theorem dataOf?_imm (v : Int64) : dataOf? ("$" ++ toString v.toInt) = none := by
  refine withoutSuffix?_of_notMem (c := ')') (by decide) ?_
  simpa using bracket_notMem_number v.toInt

theorem dataOf?_stack (offset : Int) : dataOf? (toString offset ++ "(%rbp)") = none := by
  refine withoutSuffix?_eq_none fun front h => ?_
  rw [String.toList_append] at h
  have hlength : "(%rbp)".toList.length = "(%rip)".toList.length := by decide
  exact absurd (List.append_inj_right' h hlength) (by decide)

/-! ## Lines -/

/-- What a line calls or reads. A directive does neither. -/
def Line.references : Line → List String
  | .op mnemonic operands =>
    if mnemonic.toList.head? = some '.' then []
    else if mnemonic = "call" then operands.map calleeOf
    else operands.filterMap dataOf?
  | .blank | .label _ => []

/-- What the code of a text calls or reads, in order. -/
def references (lines : List Line) : List String := lines.flatMap Line.references

section Lines

@[simp] theorem references_nil : references [] = [] := rfl

@[simp] theorem references_cons (l : Line) (lines : List Line) :
    references (l :: lines) = l.references ++ references lines := rfl

@[simp] theorem references_append (a b : List Line) : references (a ++ b) = references a ++ references b :=
  List.flatMap_append

@[simp] theorem references_blank : Line.blank.references = [] := rfl

@[simp] theorem references_symbolLine (target : Target) (name : String) : (symbolLine target name).references = [] := rfl

/-- A directive refers to nothing. -/
theorem references_directive {mnemonic : String} (operands : List String) (h : mnemonic.toList.head? = some '.') :
    (Line.op mnemonic operands).references = [] := if_pos h

/-- An instruction that is no call refers to data. -/
theorem references_op {mnemonic : String} (operands : List String) (h : mnemonic.toList.head? ≠ some '.')
    (hcall : mnemonic ≠ "call") : (Line.op mnemonic operands).references = operands.filterMap dataOf? := by
  rw [Line.references, if_neg h, if_neg hcall]

end Lines

/-! ## Writing -/

section Gives

variable {α β : Type}

/-- What is written satisfies `Q`, if writing succeeds. -/
def Gives (m : Writing α) (Q : α → Prop) : Prop :=
  ∀ pool a pool', (ExceptT.run m).run pool = (.ok a, pool') → Q a

variable {Q R : α → Prop} {m : Writing α}

theorem Gives.pure {a : α} (h : Q a) : Gives (Pure.pure a) Q := by
  intro pool b pool' hrun
  cases hrun
  exact h

theorem Gives.bind {f : α → Writing β} {P : β → Prop} (hm : Gives m R) (hf : ∀ a, R a → Gives (f a) P) :
    Gives (m >>= f) P := by
  intro pool b pool' hrun
  rcases hm' : (ExceptT.run m).run pool with ⟨r, pool₁⟩
  simp only [ExceptT.run_bind, StateT.run_bind, hm'] at hrun
  cases r with
  | ok a => exact hf a (hm pool a pool₁ hm') pool₁ b pool' hrun
  | error e => cases hrun

theorem Gives.any (m : Writing α) : Gives m fun _ => True := fun _ _ _ _ => trivial

theorem Gives.throw (e : Fault) : Gives (MonadExcept.throw e : Writing α) Q := by
  intro pool a pool' hrun
  cases hrun

end Gives

end Assembly

/-! ## Instructions -/

namespace Machine

/-- What code refers to. -/
inductive Reference where
  /-- A function or a static variable. -/
  | entity (name : String)
  | text (text : String)
  deriving Repr, DecidableEq

/-- The static variable that an operand is. -/
def Operand.dataName? : Operand → Option String
  | .data name => some name
  | .imm _ | .reg _ | .pseudo _ | .stack _ | .str _ => none

/-- The static variable or the text that an operand is. -/
def Operand.reference? : Operand → Option Reference
  | .data name => some (.entity name)
  | .str text => some (.text text)
  | .imm _ | .reg _ | .pseudo _ | .stack _ => none

/-- What an instruction calls or reads. -/
def Instr.references : Instr → List Reference
  | .call f => [.entity f]
  | i => i.operands.filterMap Operand.reference?

/-- The names in an instruction, in order. -/
def Instr.names : Instr → List String
  | .jmp x | .jcc _ x | .label x | .call x => [x]
  | i => i.operands.flatMap fun o => o.dataName?.toList

end Machine

namespace Assembly

open Machine (Operand Instr Reference)

/-- A function or static variable is written as its symbol, and a text as a label that the pool makes. -/
inductive WrittenAs (target : Target) : Reference → String → Prop
  | entity (name : String) : WrittenAs target (.entity name) (target.symbol name)
  | text (text : String) (id : Nat) : WrittenAs target (.text text) (textLabel target id)

/-- The lines refer to what is given, in order, and to nothing else. -/
def Tells (target : Target) (referred : List Reference) (lines : List Line) : Prop :=
  List.Forall₂ (WrittenAs target) referred (references lines)

theorem Tells.nil (target : Target) : Tells target [] [] := List.Forall₂.nil

theorem Tells.append {target : Target} {referred referred' : List Reference} {a b : List Line}
    (ha : Tells target referred a) (hb : Tells target referred' b) : Tells target (referred ++ referred') (a ++ b) := by
  rw [Tells, references_append]
  exact List.rel_append ha hb

/-- Lines that refer to nothing. -/
theorem Tells.nothing {target : Target} {lines : List Line} (h : ∀ l ∈ lines, l.references = []) :
    Tells target [] lines := by
  rw [Tells, references, List.flatMap_eq_nil_iff.2 h]
  exact .nil

section Instr

variable (target : Target)

theorem dataOf?_reg (r : Machine.Register) (bytes : Nat) : dataOf? ("%" ++ r.name bytes) = none := by
  refine withoutSuffix?_of_notMem (c := ')') (by decide) ?_
  have hname : ')' ∉ (r.name bytes).toList := by
    unfold Machine.Register.name
    split <;> decide
  simpa using hname

/-- The text of an operand is read as what the operand refers to. -/
def ReadAs (o : Operand) (text : String) : Prop :=
  List.Forall₂ (WrittenAs target) o.reference?.toList (dataOf? text).toList

/-- What an operand refers to can be read off its text. -/
theorem operand_gives (bytes : Nat) (o : Operand) : Gives (operand target bytes o) (ReadAs target o) := by
  cases o with
  | imm v => exact .pure (by rw [ReadAs, dataOf?_imm]; exact .nil)
  | reg r => exact .pure (by rw [ReadAs, dataOf?_reg]; exact .nil)
  | stack offset => exact .pure (by rw [ReadAs, dataOf?_stack]; exact .nil)
  | data name => exact .pure (by rw [ReadAs, dataOf?, withoutSuffix?_append]; exact .cons (.entity name) .nil)
  | str text =>
    refine .bind (.any (intern text)) fun id _ => .pure ?_
    rw [ReadAs, dataOf?, withoutSuffix?_append]
    exact .cons (.text text id) .nil
  | pseudo name => exact .throw _

/-- An instruction that is no call tells what its operands refer to. -/
theorem Tells.op {mnemonic : String} (h : mnemonic.toList.head? ≠ some '.') (hcall : mnemonic ≠ "call")
    {os : List Operand} {texts : List String} (hos : List.Forall₂ (ReadAs target) os texts) :
    Tells target (os.filterMap Operand.reference?) [.op mnemonic texts] := by
  rw [Tells, references_cons, references_op _ h hcall, references_nil, List.append_nil,
    List.filterMap_eq_flatMap_toList, List.filterMap_eq_flatMap_toList]
  exact List.rel_flatMap hos fun _ _ ho => ho

theorem op1_gives {mnemonic : String} (h : mnemonic.toList.head? ≠ some '.') (hcall : mnemonic ≠ "call") (bytes : Nat)
    (a : Operand) : Gives (op1 target mnemonic bytes a) (Tells target ([a].filterMap Operand.reference?)) :=
  .bind (operand_gives target bytes a) fun _ ha => .pure (.op target h hcall (.cons ha .nil))

theorem op2_gives {mnemonic : String} (h : mnemonic.toList.head? ≠ some '.') (hcall : mnemonic ≠ "call") (bytes : Nat)
    (a b : Operand) : Gives (op2 target mnemonic bytes a b) (Tells target ([a, b].filterMap Operand.reference?)) :=
  .bind (operand_gives target bytes a) fun _ ha => .bind (operand_gives target bytes b) fun _ hb =>
    .pure (.op target h hcall (.cons ha (.cons hb .nil)))

theorem IsSpelling.notMem {name : String} (h : Text.IsSpelling name) {c : Char} (hc : Text.isPlain c = false) :
    c ∉ name.toList := by
  intro hmem
  rw [h c hmem] at hc
  cases hc

/-- A label is no data. -/
theorem dataOf?_localLabel {label : String} (h : Text.IsSpelling label) : dataOf? (target.localLabel label) = none := by
  refine withoutSuffix?_of_notMem (c := ')') (by decide) ?_
  have hlabel := IsSpelling.notMem h (c := ')') (by decide)
  cases target <;> simpa [Target.localLabel] using hlabel

/-- A jump reads nothing. -/
theorem Tells.jump {mnemonic label : String} (h : mnemonic.toList.head? ≠ some '.') (hcall : mnemonic ≠ "call")
    (hlabel : Text.IsSpelling label) : Tells target [] [.op mnemonic [target.localLabel label]] := by
  rw [Tells, references_cons, references_op _ h hcall, references_nil, List.append_nil, List.filterMap_cons,
    dataOf?_localLabel target hlabel]
  exact .nil

/-- A function can be read off a call. -/
theorem calleeOf_callee (externals : List String) {f : String} (h : Text.IsSpelling f) :
    calleeOf (callee target externals f) = target.symbol f := by
  have hf := IsSpelling.notMem h (c := '@') (by decide)
  have hself : ∀ {text : String}, '@' ∉ text.toList → calleeOf text = text := fun htext => by
    rw [calleeOf, withoutSuffix?_of_notMem (by decide) htext, Option.getD_none]
  cases target with
  | darwin => exact hself (by simpa [callee, Target.symbol] using hf)
  | linux =>
    rw [callee]
    split
    · rw [calleeOf, withoutSuffix?_append, Option.getD_some]
      rfl
    · exact hself hf

/-- What an instruction refers to can be read off its lines. -/
theorem instr_gives (externals : List String) (i : Instr) (hi : ∀ name ∈ i.names, Text.IsSpelling name) :
    Gives (instr target externals i) (Tells target i.references) := by
  cases i with
  | mov w src dst =>
    cases src with
    | str text => exact op2_gives target (by decide) (by decide) 8 (.str text) dst
    | imm _ | reg _ | pseudo _ | stack _ | data _ =>
      exact op2_gives target (by cases w <;> decide) (by cases w <;> decide) w.bytes _ dst
  | movsx src dst =>
    refine .bind (operand_gives target 4 src) fun ta ha => .bind (operand_gives target 8 dst) fun tb hb => ?_
    exact .pure (.op target (by decide) (by decide) (.cons ha (.cons hb .nil)))
  | unary op w a => exact op1_gives target (by cases op <;> cases w <;> decide) (by cases op <;> cases w <;> decide) _ a
  | binary op w src dst =>
    exact op2_gives target (by cases op <;> cases w <;> decide) (by cases op <;> cases w <;> decide) _ src dst
  | cmp w a b => exact op2_gives target (by cases w <;> decide) (by cases w <;> decide) _ a b
  | idiv w a => exact op1_gives target (by cases w <;> decide) (by cases w <;> decide) _ a
  | cdq w => exact .pure (.nothing (by cases w <;> decide))
  | setcc c a => exact op1_gives target (by cases c <;> decide) (by cases c <;> decide) _ a
  | push a => exact op1_gives target (by decide) (by decide) _ a
  | ret => exact .pure (.nothing (by decide))
  | label id => exact .pure (.nil target)
  | jmp l => exact .pure (.jump target (by decide) (by decide) (hi l (by simp [Instr.names])))
  | jcc c l => exact .pure (.jump target (by cases c <;> decide) (by cases c <;> decide) (hi l (by simp [Instr.names])))
  | call f =>
    have hcallee := calleeOf_callee target externals (hi f (by simp [Instr.names]))
    refine .pure ?_
    rw [Tells, references_cons, references_nil, List.append_nil, Line.references, if_neg (by decide), if_pos rfl,
      List.map_singleton, hcallee]
    exact .cons (.entity f) .nil

theorem instrs_gives (externals : List String) : ∀ code : List Instr,
    (∀ i ∈ code, ∀ name ∈ i.names, Text.IsSpelling name) →
    Gives (instrs target externals code) (Tells target (code.flatMap Instr.references))
  | [], _ => .pure (.nil target)
  | i :: is, h => by
    obtain ⟨hi, his⟩ := List.forall_mem_cons.1 h
    refine .bind (instr_gives target externals i hi) fun a ha => ?_
    exact .bind (instrs_gives externals is his) fun b hb => .pure (ha.append hb)

end Instr

/-! ## Programs -/

section Program

open Machine (Function StaticVar)

variable (target : Target)

@[simp] theorem references_globalLine (name : String) : (globalLine target name).references = [] :=
  references_directive _ (by decide)

@[simp] theorem references_externalLine (name : String) : (externalLine target name).references = [] :=
  references_directive _ (by decide)

@[simp] theorem references_section (s : Section) : s.line.references = [] := by
  cases s <;> exact references_directive _ (by decide)

@[simp] theorem references_alignLine (bytes : Nat) : (alignLine bytes).references = [] :=
  references_directive _ (by decide)

@[simp] theorem references_zeroLine (bytes : Nat) : (zeroLine bytes).references = [] :=
  references_directive _ (by decide)

@[simp] theorem references_dataLine (w : Machine.Width) (v : Int64) : (dataLine w v).references = [] := by
  cases w <;> exact references_directive _ (by decide)

/-- The entry point calls the entry function. -/
theorem entryLines_tells : Tells target [.entity entryName] (entryLines target) := by
  have hreferences : references (entryLines target) = [target.symbol entryName] := by cases target <;> decide
  rw [Tells, hreferences]
  exact .cons (.entity entryName) .nil

theorem function_gives (externals : List String) (f : Function)
    (hf : ∀ i ∈ f.code, ∀ name ∈ i.names, Text.IsSpelling name) :
    Gives (function target externals f) (Tells target (f.code.flatMap Instr.references)) := by
  refine .bind (instrs_gives target externals f.code hf) fun code hcode => .pure ?_
  have hopening : Tells target [] [Section.text.line, symbolLine target f.name, .op "pushq" ["%rbp"],
      .op "movq" ["%rsp", "%rbp"]] := by
    have hpush : (Line.op "pushq" ["%rbp"]).references = [] := by decide
    have hmove : (Line.op "movq" ["%rsp", "%rbp"]).references = [] := by decide
    apply Tells.nothing
    simp [hpush, hmove]
  have hclosing : Tells target [] [.blank] := .nil target
  simpa using (hopening.append hcode).append hclosing

theorem functions_gives (externals : List String) : ∀ fs : List Function,
    (∀ f ∈ fs, ∀ i ∈ f.code, ∀ name ∈ i.names, Text.IsSpelling name) →
    Gives (functions target externals fs) (Tells target (fs.flatMap fun f => f.code.flatMap Instr.references))
  | [], _ => .pure (.nil target)
  | f :: fs, h => by
    obtain ⟨hf, hfs⟩ := List.forall_mem_cons.1 h
    refine .bind (function_gives target externals f hf) fun a ha => ?_
    exact .bind (functions_gives externals fs hfs) fun b hb => .pure (ha.append hb)

theorem references_staticLines (v : StaticVar) : ∀ l ∈ staticLines target v, l.references = [] := by
  unfold staticLines
  split <;> split <;> simp

theorem references_poolLines (pool : StringPool) : ∀ l ∈ poolLines target pool, l.references = [] := by
  unfold poolLines
  split
  · simp
  · intro l hl
    simp only [List.cons_append, List.mem_cons, List.mem_append, List.mem_flatMap, textLines, List.not_mem_nil,
      or_false] at hl
    rcases hl with rfl | ⟨e, _, rfl | rfl⟩ | rfl
    · simp
    · rfl
    · exact references_directive _ (by decide)
    · rfl

theorem references_stackLines : ∀ l ∈ stackLines target, l.references = [] := by
  cases target <;> decide

/-- What the entry point refers to, if it is written. -/
def entryReferences (wantsEntry : Bool) (functions : List String) : List Reference :=
  if wantsEntry && functions.any (· = entryName) then [.entity entryName] else []

/-- The references of a program can be read off its text. -/
theorem program_gives (wantsEntry : Bool) (p : Machine.Program)
    (hp : ∀ f ∈ p.functions, ∀ i ∈ f.code, ∀ name ∈ i.names, Text.IsSpelling name) :
    Gives (program target wantsEntry p) (Tells target (entryReferences wantsEntry (p.functions.map Function.name) ++
      p.functions.flatMap fun f => f.code.flatMap Instr.references)) := by
  have hshared : Tells target [] (p.externals.map (externalLine target) ++
      (p.functions.filter (·.isGlobal)).map (fun f => globalLine target f.name) ++ [.blank]) := by
    refine .nothing fun l hl => ?_
    simp only [List.mem_append, List.mem_map, List.mem_singleton] at hl
    rcases hl with (⟨x, _, rfl⟩ | ⟨f, _, rfl⟩) | rfl <;> simp
  have hentry : Tells target (entryReferences wantsEntry (p.functions.map Function.name))
      (if wantsEntry && p.functions.any (·.name = entryName) then entryLines target else []) := by
    simp only [entryReferences, List.any_map, Function.comp_def]
    split
    · exact entryLines_tells target
    · exact .nil target
  have hstatics : Tells target [] (p.statics.flatMap (staticLines target)) := by
    refine .nothing fun l hl => ?_
    obtain ⟨v, _, hl⟩ := List.mem_flatMap.1 hl
    exact references_staticLines target v l hl
  refine .bind (functions_gives target p.externals p.functions hp) fun code hcode => ?_
  refine .bind (.any _) fun pool _ => .pure ?_
  have hall := ((((hshared.append hentry).append hcode).append hstatics).append
    (.nothing (references_poolLines target pool))).append (.nothing (references_stackLines target))
  simpa using hall

end Program

end Assembly

end Khel
