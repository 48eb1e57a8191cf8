import Khel.Proofs.Machine.Labels
import Mathlib.Data.List.Perm.Basic

/-!
# The labels in a text of assembly

A text defines a label for every function, every static variable, every label of the code and every text of the pool.
Jumps name labels of the code, and `leaq` takes the address of a text that the pool has by then. The pool only grows
while a program is written, so the lines that define its texts in the end define all that were named.

* `Assembly.labelsOf`, `Assembly.jumpsOf`, `Assembly.addressesOf`: what is read off the lines.
* `Assembly.Interns`: what is written, given the texts that are in the pool afterwards.
* `Assembly.program_interns`: the labels of a program, exactly and in order.
* `Assembly.programLabels_perm`: which of them are symbols, and which the assembler keeps to itself.
-/

namespace Khel.Assembly

open Machine (Operand Instr Function StaticVar marks)

/-! ## Reading labels -/

/-- The label that a line defines. -/
def Line.label? : Line → Option String
  | .label name => some name
  | .blank | .op .. => none

/-- The labels that a line jumps to. The mnemonics of jumps are those with a `j` in front. -/
def Line.jumps : Line → List String
  | .op mnemonic operands => if mnemonic.toList.head? = some 'j' then operands else []
  | .blank | .label _ => []

/-- The labels whose addresses a line takes. -/
def Line.addresses : Line → List String
  | .op mnemonic operands => if mnemonic = "leaq" then (operands.take 1).filterMap dataOf? else []
  | .blank | .label _ => []

/-- The labels that a text defines, in order. -/
def labelsOf (lines : List Line) : List String := lines.filterMap Line.label?

/-- The labels that a text jumps to, in order. -/
def jumpsOf (lines : List Line) : List String := lines.flatMap Line.jumps

/-- The labels whose addresses a text takes, in order. -/
def addressesOf (lines : List Line) : List String := lines.flatMap Line.addresses

/-- The lines define the first labels and jump to the second ones, and the addresses they take are those of texts. -/
structure LabelledBy (target : Target) (texts labels jumps : List String) (lines : List Line) : Prop where
  labels : labelsOf lines = labels
  jumps : jumpsOf lines = jumps
  addresses : ∀ l ∈ addressesOf lines, ∃ id < texts.length, l = textLabel target id

namespace LabelledBy

variable {target : Target} {texts texts' labels labels' jumps jumps' : List String} {a b : List Line}

theorem nil : LabelledBy target texts [] [] [] := ⟨rfl, rfl, nofun⟩

theorem append (ha : LabelledBy target texts labels jumps a) (hb : LabelledBy target texts labels' jumps' b) :
    LabelledBy target texts (labels ++ labels') (jumps ++ jumps') (a ++ b) := by
  constructor
  · rw [labelsOf, List.filterMap_append, ← ha.labels, ← hb.labels]
    rfl
  · rw [jumpsOf, List.flatMap_append, ← ha.jumps, ← hb.jumps]
    rfl
  · intro l hl
    rw [addressesOf, List.flatMap_append, List.mem_append] at hl
    rcases hl with hl | hl
    · exact ha.addresses l hl
    · exact hb.addresses l hl

/-- More texts do no harm. -/
theorem mono (h : LabelledBy target texts labels jumps a) (hle : texts <+: texts') :
    LabelledBy target texts' labels jumps a := by
  refine ⟨h.labels, h.jumps, ?_⟩
  intro l hl
  obtain ⟨id, hid, rfl⟩ := h.addresses l hl
  exact ⟨id, Nat.lt_of_lt_of_le hid hle.length_le, rfl⟩

/-- An instruction that neither jumps nor takes an address. -/
theorem op {mnemonic : String} (hj : mnemonic.toList.head? ≠ some 'j') (hl : mnemonic ≠ "leaq")
    (operands : List String) : LabelledBy target texts [] [] [.op mnemonic operands] := by
  constructor
  · rfl
  · simp [jumpsOf, Line.jumps, hj]
  · simp [addressesOf, Line.addresses, hl]

theorem line (name : String) : LabelledBy target texts [name] [] [.label name] := ⟨rfl, rfl, nofun⟩

theorem blank : LabelledBy target texts [] [] [.blank] := ⟨rfl, rfl, nofun⟩

theorem jump {mnemonic : String} (hj : mnemonic.toList.head? = some 'j') (l : String) :
    LabelledBy target texts [] [target.localLabel l] [.op mnemonic [target.localLabel l]] := by
  have hl : mnemonic ≠ "leaq" := by
    rintro rfl
    exact absurd hj (by decide)
  constructor
  · rfl
  · simp [jumpsOf, Line.jumps, hj]
  · simp [addressesOf, Line.addresses, hl]

/-- Lines that define no label, jump nowhere and take no address. -/
theorem of_directives (h : ∀ l ∈ a, l = .blank ∨ ∃ mnemonic operands, l = .op mnemonic operands ∧
    mnemonic.toList.head? = some '.') : LabelledBy target texts [] [] a := by
  induction a with
  | nil => exact nil
  | cons l ls ih =>
    obtain ⟨hl, hls⟩ := List.forall_mem_cons.1 h
    have hone : LabelledBy target texts [] [] [l] := by
      rcases hl with rfl | ⟨mnemonic, operands, rfl, hm⟩
      · exact blank
      · apply op
        · rw [hm]
          decide
        · rintro rfl
          exact absurd hm (by decide)
    exact hone.append (ih hls)

end LabelledBy

/-! ## Writing -/

section Interns

variable {α β : Type}

/-- If writing succeeds, the pool has grown at its end, and `Q` holds of its texts and of what was written. -/
def Interns (m : Writing α) (Q : List String → α → Prop) : Prop :=
  ∀ pool a pool', (ExceptT.run m).run pool = (.ok a, pool') → pool.texts <+: pool'.texts ∧ Q pool'.texts a

variable {Q R : List String → α → Prop} {m : Writing α}

theorem Interns.pure {a : α} (h : ∀ texts, Q texts a) : Interns (Pure.pure a) Q := by
  intro pool b pool' hrun
  cases hrun
  exact ⟨List.prefix_refl _, h pool.texts⟩

theorem Interns.throw (e : Fault) : Interns (MonadExcept.throw e : Writing α) Q := by
  intro pool a pool' hrun
  cases hrun

/-- What holds of a part still holds when more texts have come in. -/
theorem Interns.bind {f : α → Writing β} {P : List String → β → Prop} (hm : Interns m R)
    (hmono : ∀ texts texts' a, texts <+: texts' → R texts a → R texts' a)
    (hf : ∀ a, Interns (f a) fun texts b => R texts a → P texts b) : Interns (m >>= f) P := by
  intro pool b pool' hrun
  rcases hm' : (ExceptT.run m).run pool with ⟨r, pool₁⟩
  simp only [ExceptT.run_bind, StateT.run_bind, hm'] at hrun
  cases r with
  | error e => cases hrun
  | ok a =>
    obtain ⟨hgrow, ha⟩ := hm pool a pool₁ hm'
    obtain ⟨hgrow', hb⟩ := hf a pool₁ b pool' hrun
    exact ⟨hgrow.trans hgrow', hb (hmono _ _ a hgrow' ha)⟩

/-- What is made of the pool as it is. -/
theorem Interns.get_pure {f : StringPool → β} {P : List String → β → Prop}
    (h : ∀ pool : StringPool, P pool.texts (f pool)) :
    Interns (do return f (← get)) P := by
  intro pool b pool' hrun
  cases hrun
  exact ⟨List.prefix_refl _, h pool⟩

end Interns

/-! ## Instructions -/

/-- A text that was interned has a number in the pool. -/
theorem intern_interns (text : String) : Interns (intern text) fun texts id => id < texts.length := by
  intro pool id pool' hrun
  have hpool : pool.intern text = (id, pool') := by
    cases hrun
    rfl
  unfold StringPool.intern at hpool
  split at hpool
  · next n hn =>
    cases hpool
    exact ⟨List.prefix_refl _, (List.getElem?_eq_some_iff.1 (StringPool.lookup?_eq_some_iff.1 hn)).1⟩
  · cases hpool
    exact ⟨List.prefix_append _ _, by simp [StringPool.push]⟩

/-- An operand that is a text is written with the label of a text. -/
def NamesText (target : Target) (o : Operand) (texts : List String) (written : String) : Prop :=
  ∀ text, o = .str text → ∃ id < texts.length, written = textLabel target id ++ "(%rip)"

section Instr

variable (target : Target)

theorem NamesText.mono {o : Operand} (texts texts' : List String) (written : String) (hle : texts <+: texts')
    (h : NamesText target o texts written) : NamesText target o texts' written := by
  intro text ho
  obtain ⟨id, hid, rfl⟩ := h text ho
  exact ⟨id, Nat.lt_of_lt_of_le hid hle.length_le, rfl⟩

theorem operand_interns (bytes : Nat) (o : Operand) : Interns (operand target bytes o) (NamesText target o) := by
  cases o with
  | imm _ | reg _ | stack _ | data _ => exact .pure fun _ => nofun
  | str text =>
    refine .bind (intern_interns text) (fun _ _ _ hle h => Nat.lt_of_lt_of_le h hle.length_le) fun id => ?_
    exact .pure fun texts hid _ _ => ⟨id, hid, rfl⟩
  | pseudo name => exact .throw _

theorem op1_interns {mnemonic : String} (hj : mnemonic.toList.head? ≠ some 'j') (hl : mnemonic ≠ "leaq") (bytes : Nat)
    (a : Operand) :
    Interns (op1 target mnemonic bytes a) fun texts lines => LabelledBy target texts [] [] lines :=
  .bind (operand_interns target bytes a) (NamesText.mono target) fun _ => .pure fun _ _ => .op hj hl _

theorem op2_interns {mnemonic : String} (hj : mnemonic.toList.head? ≠ some 'j') (hl : mnemonic ≠ "leaq") (bytes : Nat)
    (a b : Operand) :
    Interns (op2 target mnemonic bytes a b) fun texts lines => LabelledBy target texts [] [] lines :=
  .bind (operand_interns target bytes a) (NamesText.mono target) fun _ =>
    .bind (operand_interns target bytes b) (NamesText.mono target) fun _ => .pure fun _ _ _ => .op hj hl _

/-- The address that `leaq` takes is that of a text. -/
theorem leaq_interns (text : String) (dst : Operand) :
    Interns (op2 target "leaq" 8 (.str text) dst) fun texts lines => LabelledBy target texts [] [] lines := by
  refine .bind (operand_interns target 8 (.str text)) (NamesText.mono target) fun ta => ?_
  refine .bind (operand_interns target 8 dst) (NamesText.mono target) fun tb => .pure fun texts _ ha => ?_
  obtain ⟨id, hid, rfl⟩ := ha text rfl
  refine ⟨rfl, rfl, ?_⟩
  intro l hl
  have hl' : l = textLabel target id := by
    simpa [addressesOf, Line.addresses, dataOf?, withoutSuffix?_append] using hl
  exact ⟨id, hid, hl'⟩

/-- The labels of the code that some marks are, as the assembler knows them. -/
def localLabels (ms : List Mark) : List String := (ms.filterMap Mark.label?).map target.localLabel

/-- The labels that some marks jump to, as the assembler knows them. -/
def localTargets (ms : List Mark) : List String := (ms.filterMap Mark.target?).map target.localLabel

/-- The lines of an instruction define its label or jump to its target. -/
theorem instr_interns (externals : List String) (i : Instr) : Interns (instr target externals i) fun texts lines =>
    LabelledBy target texts (localLabels target i.mark?.toList) (localTargets target i.mark?.toList) lines := by
  cases i with
  | mov w src dst =>
    cases src with
    | str text => exact leaq_interns target text dst
    | imm _ | reg _ | pseudo _ | stack _ | data _ =>
      exact op2_interns target (by cases w <;> decide) (by cases w <;> decide) w.bytes _ dst
  | movsx src dst =>
    refine .bind (operand_interns target 4 src) (NamesText.mono target) fun _ => ?_
    exact .bind (operand_interns target 8 dst) (NamesText.mono target) fun _ =>
      .pure fun _ _ _ => .op (by decide) (by decide) _
  | unary op w a => exact op1_interns target (by cases op <;> cases w <;> decide) (by cases op <;> cases w <;> decide) _ a
  | binary op w src dst =>
    exact op2_interns target (by cases op <;> cases w <;> decide) (by cases op <;> cases w <;> decide) _ src dst
  | cmp w a b => exact op2_interns target (by cases w <;> decide) (by cases w <;> decide) _ a b
  | idiv w a => exact op1_interns target (by cases w <;> decide) (by cases w <;> decide) _ a
  | cdq w => exact .pure fun _ => .op (by cases w <;> decide) (by cases w <;> decide) _
  | setcc c a => exact op1_interns target (by cases c <;> decide) (by cases c <;> decide) _ a
  | push a => exact op1_interns target (by decide) (by decide) _ a
  | ret =>
    have hmove : ∀ texts, LabelledBy target texts [] [] [.op "movq" ["%rbp", "%rsp"]] :=
      fun _ => .op (by decide) (by decide) _
    have hpop : ∀ texts, LabelledBy target texts [] [] [.op "popq" ["%rbp"]] := fun _ => .op (by decide) (by decide) _
    exact .pure fun texts => ((hmove texts).append (hpop texts)).append (.op (by decide) (by decide) [])
  | label id => exact .pure fun _ => .line _
  | jmp l => exact .pure fun _ => .jump (by decide) l
  | jcc c l => exact .pure fun _ => .jump (by cases c <;> decide) l
  | call f => exact .pure fun _ => .op (by decide) (by decide) _

theorem LabelledBy.grow {labels jumps : List String} (texts texts' : List String) (lines : List Line)
    (hle : texts <+: texts') (h : LabelledBy target texts labels jumps lines) :
    LabelledBy target texts' labels jumps lines := h.mono hle

theorem localLabels_append (a b : List Mark) :
    localLabels target (a ++ b) = localLabels target a ++ localLabels target b := by
  simp [localLabels]

theorem localTargets_append (a b : List Mark) :
    localTargets target (a ++ b) = localTargets target a ++ localTargets target b := by
  simp [localTargets]

theorem instrs_interns (externals : List String) (code : List Instr) :
    Interns (instrs target externals code) fun texts lines =>
      LabelledBy target texts (localLabels target (marks code)) (localTargets target (marks code)) lines := by
  induction code with
  | nil => exact .pure fun _ => .nil
  | cons i is ih =>
    refine .bind (instr_interns target externals i) (LabelledBy.grow target) fun a => ?_
    refine .bind ih (LabelledBy.grow target) fun b => .pure fun texts hb ha => ?_
    rw [Machine.marks_cons, localLabels_append, localTargets_append]
    exact ha.append hb

end Instr

/-! ## Programs -/

section Program

variable (target : Target)

/-- The labels of a function: its symbol, and the labels of its code. -/
def functionLabels (f : Function) : List String := target.symbol f.name :: localLabels target (marks f.code)

theorem function_interns (externals : List String) (f : Function) :
    Interns (function target externals f) fun texts lines =>
      LabelledBy target texts (functionLabels target f) (localTargets target (marks f.code)) lines := by
  refine .bind (instrs_interns target externals f.code) (LabelledBy.grow target) fun code => .pure fun texts hcode => ?_
  have hopening : LabelledBy target texts [target.symbol f.name] [] [Section.text.line, symbolLine target f.name,
      .op "pushq" ["%rbp"], .op "movq" ["%rsp", "%rbp"]] := by
    have hsection : LabelledBy target texts [] [] [Section.text.line] := .op (by decide) (by decide) _
    have hpush : LabelledBy target texts [] [] [.op "pushq" ["%rbp"]] := .op (by decide) (by decide) _
    have hmove : LabelledBy target texts [] [] [.op "movq" ["%rsp", "%rbp"]] := .op (by decide) (by decide) _
    exact ((hsection.append (.line (target.symbol f.name))).append hpush).append hmove
  simpa [functionLabels] using (hopening.append hcode).append .blank

theorem functions_interns (externals : List String) (fs : List Function) :
    Interns (functions target externals fs) fun texts lines =>
      LabelledBy target texts (fs.flatMap (functionLabels target))
        (fs.flatMap fun f => localTargets target (marks f.code)) lines := by
  induction fs with
  | nil => exact .pure fun _ => .nil
  | cons f fs ih =>
    refine .bind (function_interns target externals f) (LabelledBy.grow target) fun a => ?_
    exact .bind ih (LabelledBy.grow target) fun b => .pure fun texts hb ha => ha.append hb

theorem globalLine_labelled (texts : List String) (name : String) :
    LabelledBy target texts [] [] [globalLine target name] := .op (by decide) (by decide) _

theorem staticLines_labelled (texts : List String) (v : StaticVar) :
    LabelledBy target texts [target.symbol v.name] [] (staticLines target v) := by
  have hglobal : LabelledBy target texts [] [] (if v.isGlobal then [globalLine target v.name] else []) := by
    split
    · exact globalLine_labelled target texts v.name
    · exact .nil
  have hline : ∀ (s : Section) (rest : Line), LabelledBy target texts [] [] [rest] →
      LabelledBy target texts [target.symbol v.name] []
        [s.line, alignLine v.width.alignment, symbolLine target v.name, rest] := by
    intro s rest hrest
    have hsection : LabelledBy target texts [] [] [s.line] := by
      cases s <;> exact .op (by decide) (by decide) _
    have halign : LabelledBy target texts [] [] [alignLine v.width.alignment] := .op (by decide) (by decide) _
    exact ((hsection.append halign).append (.line (target.symbol v.name))).append hrest
  have hdata : LabelledBy target texts [] [] [dataLine v.width v.init] := by
    cases v.width <;> exact .op (by decide) (by decide) _
  have hzero : LabelledBy target texts [] [] [zeroLine v.width.bytes] := .op (by decide) (by decide) _
  have hbody : LabelledBy target texts [target.symbol v.name] [] (if v.init = 0 then
      [Section.bss.line, alignLine v.width.alignment, symbolLine target v.name, zeroLine v.width.bytes]
    else [Section.data.line, alignLine v.width.alignment, symbolLine target v.name, dataLine v.width v.init]) := by
    split
    · exact hline .bss _ hzero
    · exact hline .data _ hdata
  exact (hglobal.append hbody).append .blank

theorem statics_labelled (texts : List String) (vs : List StaticVar) :
    LabelledBy target texts (vs.map fun v => target.symbol v.name) [] (vs.flatMap (staticLines target)) := by
  induction vs with
  | nil => exact .nil
  | cons v vs ih => exact (staticLines_labelled target texts v).append ih

/-- The label of every text is defined, in order. -/
theorem poolLines_labelled (texts : List String) (pool : StringPool) :
    LabelledBy target texts ((List.range pool.texts.length).map (textLabel target)) [] (poolLines target pool) := by
  have hentries : ∀ entries : List (Nat × String), LabelledBy target texts (entries.map fun e => textLabel target e.1) []
      (entries.flatMap fun e => textLines target e.1 e.2) := by
    intro entries
    induction entries with
    | nil => exact .nil
    | cons e es ih =>
      have htext : LabelledBy target texts [] [] [.op ".asciz" ["\"" ++ Text.escape e.2 ++ "\""]] :=
        .op (by decide) (by decide) _
      exact ((LabelledBy.line (textLabel target e.1)).append htext).append ih
  unfold poolLines
  split
  · next h =>
    rw [List.isEmpty_iff.1 h]
    exact .nil
  · have hsection : LabelledBy target texts [] [] [Section.data.line] := .op (by decide) (by decide) _
    have hids : (List.range pool.texts.length).map (textLabel target) =
        pool.entries.map fun e => textLabel target e.1 := by
      apply List.ext_getElem
      · simp [StringPool.entries]
      · simp [StringPool.entries]
    rw [hids]
    simpa using (hsection.append (hentries pool.entries)).append .blank

theorem entryLines_labelled (texts : List String) :
    LabelledBy target texts [target.symbol "main"] [] (entryLines target) := by
  have hnone : addressesOf (entryLines target) = [] := by cases target <;> decide
  constructor
  · cases target <;> rfl
  · cases target <;> decide
  · rw [hnone]
    exact nofun

/-- The labels that a program defines: the entry point, if it is written, functions, static variables and texts. -/
def programLabels (wantsEntry : Bool) (p : Machine.Program) (texts : List String) : List String :=
  (if wantsEntry && p.functions.any (·.name = entryName) then [target.symbol "main"] else []) ++
    p.functions.flatMap (functionLabels target) ++ (p.statics.map fun v => target.symbol v.name) ++
    (List.range texts.length).map (textLabel target)

/-- The labels of a program that are symbols: the entry point, if it is written, functions and static variables. -/
def definedSymbols (wantsEntry : Bool) (p : Machine.Program) : List String :=
  (if wantsEntry && p.functions.any (·.name = entryName) then [target.symbol "main"] else []) ++
    p.defined.map target.symbol

/-- The labels of a program that the assembler keeps to itself: those of its code, and those of texts. -/
def keptLabels (p : Machine.Program) (texts : List String) : List String :=
  (p.functions.flatMap fun f => localLabels target (marks f.code)) ++ (List.range texts.length).map (textLabel target)

/-- What the assembler keeps to itself has a prefix that says so. -/
theorem exists_of_mem_keptLabels {p : Machine.Program} {texts : List String} {s : String}
    (h : s ∈ keptLabels target p texts) : ∃ l, s = target.localLabel l := by
  rcases List.mem_append.1 h with h | h
  · obtain ⟨f, _, h⟩ := List.mem_flatMap.1 h
    obtain ⟨l, _, rfl⟩ := List.mem_map.1 h
    exact ⟨l, rfl⟩
  · obtain ⟨id, _, rfl⟩ := List.mem_map.1 h
    exact ⟨_, rfl⟩

/-- A label is a symbol, or it is kept by the assembler. -/
theorem programLabels_perm (wantsEntry : Bool) (p : Machine.Program) (texts : List String) :
    (programLabels target wantsEntry p texts).Perm (definedSymbols target wantsEntry p ++ keptLabels target p texts) := by
  have hfunctions : (p.functions.flatMap (functionLabels target)).Perm
      ((p.functions.map fun f => target.symbol f.name) ++
        p.functions.flatMap fun f => localLabels target (marks f.code)) :=
    (List.map_append_flatMap_perm p.functions _ _).symm
  rw [programLabels, definedSymbols, keptLabels, Machine.Program.defined, List.map_append, List.map_map, List.map_map]
  generalize (if wantsEntry && p.functions.any (·.name = entryName) then [target.symbol "main"] else []) = entry
  refine List.Perm.trans (((hfunctions.append_left entry).append_right _).append_right _) ?_
  -- The local labels of functions pass the static variables.
  simp only [List.append_assoc]
  exact List.Perm.append_left entry (List.Perm.append_left _ (List.perm_append_comm_assoc ..))

/-- The labels and jumps of a program can be read off its text. -/
theorem program_interns (wantsEntry : Bool) (p : Machine.Program) :
    Interns (program target wantsEntry p) fun texts lines =>
      LabelledBy target texts (programLabels target wantsEntry p texts)
        (p.functions.flatMap fun f => localTargets target (marks f.code)) lines := by
  have hshared : ∀ texts, LabelledBy target texts [] [] (p.externals.map (externalLine target) ++
      (p.functions.filter (·.isGlobal)).map (fun f => globalLine target f.name) ++ [.blank]) := by
    intro texts
    apply LabelledBy.of_directives
    intro l hl
    simp only [List.mem_append, List.mem_map, List.mem_singleton] at hl
    rcases hl with (⟨x, _, rfl⟩ | ⟨f, _, rfl⟩) | rfl
    · exact .inr ⟨_, _, rfl, by decide⟩
    · exact .inr ⟨_, _, rfl, by decide⟩
    · exact .inl rfl
  have hentry : ∀ texts, LabelledBy target texts
      (if wantsEntry && p.functions.any (·.name = entryName) then [target.symbol "main"] else []) []
      (if wantsEntry && p.functions.any (·.name = entryName) then entryLines target else []) := by
    intro texts
    split
    · exact entryLines_labelled target texts
    · exact .nil
  have hstack : ∀ texts, LabelledBy target texts [] [] (stackLines target) := by
    intro texts
    cases target with
    | linux => exact .op (by decide) (by decide) _
    | darwin => exact .nil
  refine .bind (functions_interns target p.externals p.functions) (LabelledBy.grow target) fun code => ?_
  refine .get_pure fun pool hcode => ?_
  have hall := (((((hshared pool.texts).append (hentry pool.texts)).append hcode).append
    (statics_labelled target pool.texts p.statics)).append (poolLines_labelled target pool.texts pool)).append
    (hstack pool.texts)
  simpa [programLabels] using hall

end Program

end Khel.Assembly
