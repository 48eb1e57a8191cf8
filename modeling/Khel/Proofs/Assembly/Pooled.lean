import Khel.Proofs.Assembly.Resolved

/-!
# The pool and the texts in the assembly

Writing an operand may bring a text into the pool, and the label on the line is that of the number the text has just
got. Since the pool only grows, this is still the number of the text when the pool itself is written.

* `StringPool.ofTexts`: the pool that texts bring about one after the other, and its numbers.
* `Assembly.Pools`: what is written, given the texts that come into the pool meanwhile.
* `Assembly.program_pools`: the labels in a program are those of the texts that its data section defines.
-/

namespace Khel

/-! ## Pools -/

namespace StringPool

/-- The pool after some texts have been interned one by one. -/
def internAll (pool : StringPool) (texts : List String) : StringPool :=
  texts.foldl (fun pool text => (pool.intern text).2) pool

/-- The pool that some texts bring about. -/
def ofTexts (texts : List String) : StringPool := empty.internAll texts

theorem internAll_append (pool : StringPool) (a b : List String) :
    pool.internAll (a ++ b) = (pool.internAll a).internAll b := List.foldl_append

theorem internAll_singleton (pool : StringPool) (text : String) : pool.internAll [text] = (pool.intern text).2 := rfl

theorem mem_entries {pool : StringPool} {id : Nat} {text : String} :
    (id, text) ∈ pool.entries ↔ pool.texts[id]? = some text := by
  simp [entries, List.mem_mapIdx, List.getElem?_eq_some_iff]

theorem texts_intern (pool : StringPool) (text : String) :
    (pool.intern text).2.texts = pool.texts ++ [text].removeAll pool.texts := by
  unfold intern
  split
  · next id h =>
    have hmem : text ∈ pool.texts := List.mem_of_getElem? (lookup?_eq_some_iff.1 h)
    simp [List.removeAll, hmem]
  · next h =>
    have hmem : text ∉ pool.texts := lookup?_eq_none_iff.1 h
    simp [List.removeAll, hmem, push]

/-- Texts stand in the order of first use. -/
theorem texts_ofTexts (texts : List String) : (ofTexts texts).texts = texts.eraseDups := by
  induction texts using List.reverseRecOn with
  | nil => rfl
  | append_singleton ts t ih =>
    rw [ofTexts, internAll_append, internAll_singleton, texts_intern, ← ofTexts, ih, List.eraseDups_append]
    by_cases ht : t ∈ ts
    · simp [List.removeAll, ht]
    · simp [List.removeAll, List.eraseDups_cons, ht]

theorem prefix_intern (pool : StringPool) (text : String) : pool.texts <+: (pool.intern text).2.texts := by
  rw [texts_intern]
  exact List.prefix_append _ _

theorem prefix_internAll (pool : StringPool) (texts : List String) : pool.texts <+: (pool.internAll texts).texts := by
  induction texts generalizing pool with
  | nil => exact List.prefix_refl _
  | cons t ts ih => exact (pool.prefix_intern t).trans (ih _)

/-- Texts that are interned later change nothing in front. -/
theorem entries_prefix {pool pool' : StringPool} (h : pool.texts <+: pool'.texts) : pool.entries <+: pool'.entries := by
  obtain ⟨more, hmore⟩ := h
  rw [entries, entries, ← hmore, List.mapIdx_append]
  exact List.prefix_append _ _

/-- The numbers of a pool count up from zero, and a text has a number exactly if it is the text with this number. -/
structure IsIndex (pool : StringPool) : Prop where
  ids : pool.entries.map Prod.fst = List.range pool.size
  lookup : ∀ text id, pool.lookup? text = some id ↔ (id, text) ∈ pool.entries

/-- Every pool is an index, since both of its parts say the same. -/
theorem isIndex (pool : StringPool) : pool.IsIndex := by
  constructor
  · apply List.ext_getElem
    · simp [entries, size]
    · simp [entries]
  · intro text id
    rw [mem_entries, lookup?_eq_some_iff]

end StringPool

/-! ## The texts of a program -/

namespace Machine

/-- The text that an operand is, if it is one. -/
def Operand.text? : Operand → Option String
  | .str text => some text
  | .imm _ | .reg _ | .pseudo _ | .stack _ | .data _ => none

/-- The texts that code names, in order. -/
def textsOf (code : List Instr) : List String := code.flatMap fun i => i.operands.filterMap Operand.text?

theorem textsOf_cons (i : Instr) (code : List Instr) :
    textsOf (i :: code) = i.operands.filterMap Operand.text? ++ textsOf code := List.flatMap_cons

end Machine

namespace Assembly

open Machine (Operand Instr Function StaticVar textsOf)

/-! ## Reading texts -/

/-- The text that a line of assembly defines, between its quotes. -/
def Line.asciz? : Line → Option String
  | .op mnemonic [quoted] => if mnemonic = ".asciz" then some quoted else none
  | .op _ _ | .blank | .label _ => none

/-- The labels in front of texts, with these texts. -/
def definedTexts : List Line → List (String × String)
  | [] => []
  | .label name :: rest => ((rest.head?.bind Line.asciz?).map fun quoted => (name, quoted)).toList ++ definedTexts rest
  | .blank :: rest | .op _ _ :: rest => definedTexts rest

theorem asciz?_op {mnemonic : String} (h : mnemonic ≠ ".asciz") (operands : List String) :
    (Line.op mnemonic operands).asciz? = none := by
  unfold Line.asciz?
  split
  · next heq =>
    cases heq
    exact if_neg h
  · rfl
  · rfl
  · rfl

/-- No line defines a text. -/
def Textless (lines : List Line) : Prop := ∀ l ∈ lines, l.asciz? = none

theorem Textless.append {a b : List Line} (ha : Textless a) (hb : Textless b) : Textless (a ++ b) :=
  List.forall_mem_append.2 ⟨ha, hb⟩

theorem Textless.op {mnemonic : String} (h : mnemonic ≠ ".asciz") (operands : List String) :
    Textless [.op mnemonic operands] := by
  intro l hl
  rw [List.mem_singleton.1 hl]
  exact asciz?_op h operands

theorem Textless.map {α : Type} {f : α → Line} (h : ∀ a, (f a).asciz? = none) (as : List α) : Textless (as.map f) := by
  intro l hl
  obtain ⟨a, _, rfl⟩ := List.mem_map.1 hl
  exact h a

theorem Textless.flatMap {α : Type} {f : α → List Line} (h : ∀ a, Textless (f a)) (as : List α) :
    Textless (as.flatMap f) := by
  intro l hl
  obtain ⟨a, _, hl⟩ := List.mem_flatMap.1 hl
  exact h a l hl

/-- Lines without texts in front. -/
theorem definedTexts_append {a b : List Line} (ha : Textless a) (hb : b.head?.bind Line.asciz? = none) :
    definedTexts (a ++ b) = definedTexts b := by
  induction a with
  | nil => rfl
  | cons l ls ih =>
    obtain ⟨_, hls⟩ := List.forall_mem_cons.1 ha
    cases l with
    | blank | op => exact ih hls
    | label name =>
      have hhead : (ls ++ b).head?.bind Line.asciz? = none := by
        cases ls with
        | nil => exact hb
        | cons l ls => exact hls l List.mem_cons_self
      rw [List.cons_append, definedTexts, hhead, ih hls]
      rfl

/-- The texts of a pool are read with their labels. -/
theorem definedTexts_textLines (target : Target) (rest : List Line) (entries : List (Nat × String)) :
    definedTexts (entries.flatMap (fun e => textLines target e.1 e.2) ++ rest) =
      entries.map (fun e => (textLabel target e.1, "\"" ++ Text.escape e.2 ++ "\"")) ++ definedTexts rest := by
  induction entries with
  | nil => rfl
  | cons e es ih =>
    rw [List.flatMap_cons, List.append_assoc, textLines, List.cons_append, definedTexts, List.cons_append,
      definedTexts, List.nil_append, ih]
    rfl

/-! ## Writing -/

section Pools

variable {α β : Type}

/-- If writing succeeds, the texts have come into the pool in this order, and `Q` holds of the pool and of what was
written. -/
def Pools (m : Writing α) (texts : List String) (Q : StringPool → α → Prop) : Prop :=
  ∀ pool a pool', (ExceptT.run m).run pool = (.ok a, pool') → pool' = pool.internAll texts ∧ Q pool' a

variable {Q R : StringPool → α → Prop} {m : Writing α} {texts : List String}

theorem Pools.pure {a : α} (h : ∀ pool, Q pool a) : Pools (Pure.pure a) [] Q := by
  intro pool b pool' hrun
  cases hrun
  exact ⟨rfl, h pool⟩

theorem Pools.throw (e : Fault) : Pools (MonadExcept.throw e : Writing α) texts Q := by
  intro pool a pool' hrun
  cases hrun

/-- What holds of a part still holds when more texts have come in. -/
theorem Pools.bind {f : α → Writing β} {more : List String} {P : StringPool → β → Prop} (hm : Pools m texts R)
    (hmono : ∀ (pool pool' : StringPool) a, pool.texts <+: pool'.texts → R pool a → R pool' a)
    (hf : ∀ a, Pools (f a) more fun pool b => R pool a → P pool b) : Pools (m >>= f) (texts ++ more) P := by
  intro pool b pool' hrun
  rcases hm' : (ExceptT.run m).run pool with ⟨r, pool₁⟩
  simp only [ExceptT.run_bind, StateT.run_bind, hm'] at hrun
  cases r with
  | error e => cases hrun
  | ok a =>
    obtain ⟨rfl, ha⟩ := hm pool a pool₁ hm'
    obtain ⟨rfl, hb⟩ := hf a _ b pool' hrun
    exact ⟨(pool.internAll_append texts more).symm, hb (hmono _ _ a (StringPool.prefix_internAll _ more) ha)⟩

/-- What is made of a part. -/
theorem Pools.map {f : α → β} {P : StringPool → β → Prop} (hm : Pools m texts R)
    (hmono : ∀ (pool pool' : StringPool) a, pool.texts <+: pool'.texts → R pool a → R pool' a)
    (hf : ∀ pool a, R pool a → P pool (f a)) : Pools (do return f (← m)) texts P := by
  have hbind : Pools (do return f (← m)) (texts ++ []) P := hm.bind hmono fun a => .pure fun pool ha => hf pool a ha
  rwa [List.append_nil] at hbind

end Pools

/-- What is made of the pool as it is. -/
theorem Pools.get_pure {α : Type} {f : StringPool → α} {P : StringPool → α → Prop} (h : ∀ pool, P pool (f pool)) :
    Pools (do return f (← get)) [] P := by
  intro pool a pool' hrun
  cases hrun
  exact ⟨rfl, h pool⟩

/-! ## Instructions -/

/-- An operand that is a text is written with the label of the entry that the text has in the pool. -/
def NamedIn (target : Target) (pool : StringPool) (o : Operand) (written : String) : Prop :=
  ∀ text, o = .str text → ∃ id, (id, text) ∈ pool.entries ∧ written = textLabel target id ++ "(%rip)"

/-- The operands of an instruction are written on one line, each in its place. -/
structure InstrNamed (target : Target) (pool : StringPool) (i : Instr) (lines : List Line) : Prop where
  operands : i.operands ≠ [] → ∃ mnemonic written, lines = [.op mnemonic written] ∧
    List.Forall₂ (NamedIn target pool) i.operands written
  textless : Textless lines

/-- The lines of code are those of its instructions, one after the other. -/
def CodeNamed (target : Target) (pool : StringPool) (code : List Instr) (lines : List Line) : Prop :=
  ∃ parts, lines = parts.flatten ∧ List.Forall₂ (InstrNamed target pool) code parts

/-- The lines of a function: those that open it, those of its code, and a blank one. -/
def FunctionNamed (target : Target) (pool : StringPool) (f : Function) (lines : List Line) : Prop :=
  ∃ code, lines = [Section.text.line, symbolLine target f.name, .op "pushq" ["%rbp"], .op "movq" ["%rsp", "%rbp"]] ++
    code ++ [.blank] ∧ CodeNamed target pool f.code code

/-- The lines of functions are those of each, one after the other. -/
def FunctionsNamed (target : Target) (pool : StringPool) (fs : List Function) (lines : List Line) : Prop :=
  ∃ parts, lines = parts.flatten ∧ List.Forall₂ (FunctionNamed target pool) fs parts

section Mono

variable {target : Target} (pool pool' : StringPool)

theorem NamedIn.mono {o : Operand} (written : String) (hle : pool.texts <+: pool'.texts)
    (h : NamedIn target pool o written) : NamedIn target pool' o written := by
  intro text ho
  obtain ⟨id, hid, hw⟩ := h text ho
  exact ⟨id, (StringPool.entries_prefix hle).subset hid, hw⟩

theorem InstrNamed.mono {i : Instr} (lines : List Line) (hle : pool.texts <+: pool'.texts)
    (h : InstrNamed target pool i lines) : InstrNamed target pool' i lines := by
  refine ⟨fun hi => ?_, h.textless⟩
  obtain ⟨mnemonic, written, hlines, hwritten⟩ := h.operands hi
  exact ⟨mnemonic, written, hlines, hwritten.imp fun o w ho => ho.mono pool pool' w hle⟩

theorem CodeNamed.mono {code : List Instr} (lines : List Line) (hle : pool.texts <+: pool'.texts)
    (h : CodeNamed target pool code lines) : CodeNamed target pool' code lines := by
  obtain ⟨parts, hlines, hparts⟩ := h
  exact ⟨parts, hlines, hparts.imp fun i ls hi => hi.mono pool pool' ls hle⟩

theorem FunctionNamed.mono {f : Function} (lines : List Line) (hle : pool.texts <+: pool'.texts)
    (h : FunctionNamed target pool f lines) : FunctionNamed target pool' f lines := by
  obtain ⟨code, hlines, hcode⟩ := h
  exact ⟨code, hlines, hcode.mono pool pool' code hle⟩

theorem FunctionsNamed.mono {fs : List Function} (lines : List Line) (hle : pool.texts <+: pool'.texts)
    (h : FunctionsNamed target pool fs lines) : FunctionsNamed target pool' fs lines := by
  obtain ⟨parts, hlines, hparts⟩ := h
  exact ⟨parts, hlines, hparts.imp fun f ls hf => hf.mono pool pool' ls hle⟩

end Mono

section Instr

variable (target : Target)

theorem intern_pools (text : String) : Pools (intern text) [text] fun pool id => (id, text) ∈ pool.entries := by
  intro pool id pool' hrun
  have hpool : pool.intern text = (id, pool') := by
    cases hrun
    rfl
  have hfound := pool.lookup?_intern text
  rw [hpool] at hfound
  refine ⟨?_, StringPool.mem_entries.2 (StringPool.lookup?_eq_some_iff.1 hfound)⟩
  rw [StringPool.internAll_singleton, hpool]

theorem operand_pools (bytes : Nat) (o : Operand) :
    Pools (operand target bytes o) o.text?.toList fun pool => NamedIn target pool o := by
  cases o with
  | imm _ | reg _ | stack _ | data _ => exact .pure fun _ => nofun
  | str text =>
    apply (intern_pools text).map
    · exact fun _ _ _ hle hid => (StringPool.entries_prefix hle).subset hid
    · rintro pool id hid _ ⟨⟩
      exact ⟨id, hid, rfl⟩
  | pseudo name => exact .throw _

variable {i : Instr} {mnemonic : String}

/-- An instruction with one operand. -/
theorem op1_pools {a : Operand} (hi : i.operands = [a]) (hm : mnemonic ≠ ".asciz") (bytes : Nat) :
    Pools (op1 target mnemonic bytes a) (i.operands.filterMap Operand.text?) fun pool => InstrNamed target pool i := by
  have htexts : i.operands.filterMap Operand.text? = a.text?.toList := by
    rw [hi]
    cases ha : a.text? <;> simp [ha]
  rw [htexts]
  apply (operand_pools target bytes a).map fun pool pool' => NamedIn.mono pool pool'
  intro pool w hw
  exact ⟨fun _ => ⟨mnemonic, [w], rfl, hi ▸ .cons hw .nil⟩, .op hm _⟩

/-- An instruction whose operands may have two sizes. -/
theorem operands_pools {a b : Operand} (hi : i.operands = [a, b]) (hm : mnemonic ≠ ".asciz") (m n : Nat) :
    Pools (do return [Line.op mnemonic [← operand target m a, ← operand target n b]])
      (i.operands.filterMap Operand.text?) fun pool => InstrNamed target pool i := by
  have htexts : i.operands.filterMap Operand.text? = a.text?.toList ++ b.text?.toList := by
    rw [hi]
    cases ha : a.text? <;> cases hb : b.text? <;> simp [ha, hb]
  rw [htexts]
  apply (operand_pools target m a).bind fun pool pool' => NamedIn.mono pool pool'
  intro wa
  apply (operand_pools target n b).map fun pool pool' => NamedIn.mono pool pool'
  intro pool wb hb ha
  exact ⟨fun _ => ⟨mnemonic, [wa, wb], rfl, hi ▸ .cons ha (.cons hb .nil)⟩, .op hm _⟩

/-- An instruction without operands names no text. -/
theorem lines_pools (hi : i.operands = []) {lines : List Line} (hlines : Textless lines) :
    Pools (Pure.pure lines : Writing (List Line)) (i.operands.filterMap Operand.text?)
      fun pool => InstrNamed target pool i := by
  rw [hi]
  exact .pure fun pool => ⟨fun hne => absurd hi hne, hlines⟩

theorem instr_pools (externals : List String) (i : Instr) :
    Pools (instr target externals i) (i.operands.filterMap Operand.text?) fun pool => InstrNamed target pool i := by
  cases i with
  | mov w src dst =>
    cases src with
    | str text => exact operands_pools target rfl (by decide) 8 8
    | imm _ | reg _ | pseudo _ | stack _ | data _ =>
      exact operands_pools target rfl (by cases w <;> decide) w.bytes w.bytes
  | movsx src dst => exact operands_pools target rfl (by decide) 4 8
  | unary op w a => exact op1_pools target rfl (by cases op <;> cases w <;> decide) w.bytes
  | binary op w src dst => exact operands_pools target rfl (by cases op <;> cases w <;> decide) w.bytes w.bytes
  | cmp w a b => exact operands_pools target rfl (by cases w <;> decide) w.bytes w.bytes
  | idiv w a => exact op1_pools target rfl (by cases w <;> decide) w.bytes
  | setcc c a => exact op1_pools target rfl (by cases c <;> decide) 1
  | push a => exact op1_pools target rfl (by decide) 8
  | cdq w => exact lines_pools target rfl (.op (by cases w <;> decide) _)
  | jmp l => exact lines_pools target rfl (.op (by decide) _)
  | jcc c l => exact lines_pools target rfl (.op (by cases c <;> decide) _)
  | label id => exact lines_pools target rfl (by simp [Textless, localLine, Line.asciz?])
  | call f => exact lines_pools target rfl (.op (by decide) _)
  | ret =>
    have hmove : Textless [.op "movq" ["%rbp", "%rsp"]] := .op (by decide) _
    have hpop : Textless [.op "popq" ["%rbp"]] := .op (by decide) _
    exact lines_pools target rfl ((hmove.append hpop).append (.op (by decide) []))

theorem instrs_pools (externals : List String) (code : List Instr) :
    Pools (instrs target externals code) (textsOf code) fun pool => CodeNamed target pool code := by
  induction code with
  | nil => exact .pure fun pool => ⟨[], rfl, .nil⟩
  | cons i is ih =>
    rw [Machine.textsOf_cons]
    apply (instr_pools target externals i).bind fun pool pool' => InstrNamed.mono pool pool'
    intro a
    apply ih.map fun pool pool' => CodeNamed.mono pool pool'
    rintro pool _ ⟨parts, rfl, hparts⟩ ha
    exact ⟨a :: parts, rfl, .cons ha hparts⟩

end Instr

/-! ## Programs -/

section Program

variable (target : Target)

theorem function_pools (externals : List String) (f : Function) :
    Pools (function target externals f) (textsOf f.code) fun pool => FunctionNamed target pool f := by
  apply (instrs_pools target externals f.code).map fun pool pool' => CodeNamed.mono pool pool'
  intro pool code hcode
  exact ⟨code, rfl, hcode⟩

theorem functions_pools (externals : List String) (fs : List Function) :
    Pools (functions target externals fs) (fs.flatMap fun f => textsOf f.code)
      fun pool => FunctionsNamed target pool fs := by
  induction fs with
  | nil => exact .pure fun pool => ⟨[], rfl, .nil⟩
  | cons f fs ih =>
    rw [List.flatMap_cons]
    apply (function_pools target externals f).bind fun pool pool' => FunctionNamed.mono pool pool'
    intro a
    apply ih.map fun pool pool' => FunctionsNamed.mono pool pool'
    rintro pool _ ⟨parts, rfl, hparts⟩ ha
    exact ⟨a :: parts, rfl, .cons ha hparts⟩

variable {target} {pool : StringPool}

theorem CodeNamed.textless {code : List Instr} {lines : List Line} (h : CodeNamed target pool code lines) :
    Textless lines := by
  obtain ⟨parts, rfl, hparts⟩ := h
  induction hparts with
  | nil => exact nofun
  | cons hi _ ih => exact hi.textless.append ih

theorem FunctionNamed.textless {f : Function} {lines : List Line} (h : FunctionNamed target pool f lines) :
    Textless lines := by
  obtain ⟨code, rfl, hcode⟩ := h
  have hopening : Textless [Section.text.line, symbolLine target f.name, .op "pushq" ["%rbp"],
      .op "movq" ["%rsp", "%rbp"]] := by
    simp [Textless, Section.line, symbolLine, Line.asciz?]
  exact (hopening.append hcode.textless).append (by simp [Textless, Line.asciz?])

theorem FunctionsNamed.textless {fs : List Function} {lines : List Line} (h : FunctionsNamed target pool fs lines) :
    Textless lines := by
  obtain ⟨parts, rfl, hparts⟩ := h
  induction hparts with
  | nil => exact nofun
  | cons hf _ ih => exact hf.textless.append ih

theorem textless_staticLines (v : StaticVar) : Textless (staticLines target v) := by
  have hdata : Textless [dataLine v.width v.init] := by
    cases v.width <;> exact .op (by decide) _
  have hglobal : Textless (if v.isGlobal then [globalLine target v.name] else []) := by
    split <;> simp [Textless, globalLine, Line.asciz?]
  have hfront : ∀ s : Section, Textless [s.line, alignLine v.width.alignment, symbolLine target v.name] := by
    intro s
    cases s <;> simp [Textless, Section.line, alignLine, symbolLine, Line.asciz?]
  have hzero : Textless [zeroLine v.width.bytes] := .op (by decide) _
  have hbody : Textless (if v.init = 0 then
      [Section.bss.line, alignLine v.width.alignment, symbolLine target v.name, zeroLine v.width.bytes]
    else [Section.data.line, alignLine v.width.alignment, symbolLine target v.name, dataLine v.width v.init]) := by
    split
    · exact (hfront .bss).append hzero
    · exact (hfront .data).append hdata
  exact (hglobal.append hbody).append (by simp [Textless, Line.asciz?])

theorem textless_entryLines : Textless (entryLines target) := by
  cases target <;> simp [Textless, entryLines, Section.line, globalLine, symbolLine, Line.asciz?]

theorem textless_stackLines : Textless (stackLines target) := by
  cases target <;> simp [Textless, stackLines, Line.asciz?]

theorem Textless.definedTexts {lines : List Line} (h : Textless lines) : definedTexts lines = [] := by
  have hnil := definedTexts_append (b := []) h rfl
  rwa [List.append_nil] at hnil

/-- Reading the lines of a pool gives the pool. -/
theorem definedTexts_poolLines (pool : StringPool) : definedTexts (poolLines target pool ++ stackLines target) =
    pool.entries.map fun e => (textLabel target e.1, "\"" ++ Text.escape e.2 ++ "\"") := by
  unfold poolLines
  split
  · next h =>
    rw [StringPool.entries, List.isEmpty_iff.1 h, List.nil_append, textless_stackLines.definedTexts]
    rfl
  · have hrest : Textless ([.blank] ++ stackLines target) :=
      Textless.append (by simp [Textless, Line.asciz?]) textless_stackLines
    have hread := definedTexts_textLines target ([.blank] ++ stackLines target) pool.entries
    rw [hrest.definedTexts, List.append_nil, ← List.append_assoc] at hread
    exact hread

/-- No text stands at the front of the lines of a pool. -/
theorem head_poolLines (pool : StringPool) :
    (poolLines target pool ++ stackLines target).head?.bind Line.asciz? = none := by
  unfold poolLines
  split
  · cases target <;> rfl
  · rfl

/-- What is written of a program: something that defines no text, then the code, the static variables, the texts of the
pool, and the end. -/
def ProgramNamed (target : Target) (p : Machine.Program) (pool : StringPool) (lines : List Line) : Prop :=
  ∃ front code, lines = front ++ code ++ p.statics.flatMap (staticLines target) ++ poolLines target pool ++
    stackLines target ∧ Textless front ∧ FunctionsNamed target pool p.functions code

theorem ProgramNamed.definedTexts {p : Machine.Program} {lines : List Line} (h : ProgramNamed target p pool lines) :
    definedTexts lines = pool.entries.map fun e => (textLabel target e.1, "\"" ++ Text.escape e.2 ++ "\"") := by
  obtain ⟨front, code, rfl, hfront, hcode⟩ := h
  have hstatics : Textless (p.statics.flatMap (staticLines target)) := .flatMap textless_staticLines p.statics
  rw [List.append_assoc _ (poolLines target pool), ← definedTexts_poolLines]
  exact definedTexts_append ((hfront.append hcode.textless).append hstatics) (head_poolLines pool)

variable (target) in
theorem program_named (wantsEntry : Bool) (p : Machine.Program) :
    Pools (program target wantsEntry p) (p.functions.flatMap fun f => textsOf f.code) (ProgramNamed target p) := by
  have hfront : Textless (p.externals.map (externalLine target) ++
      (p.functions.filter (·.isGlobal)).map (fun f => globalLine target f.name) ++ [.blank] ++
      (if wantsEntry && p.functions.any (·.name = entryName) then entryLines target else [])) := by
    refine .append (.append (.append ?_ ?_) ?_) ?_
    · exact .map (fun x => asciz?_op (by decide) _) _
    · exact .map (fun f => asciz?_op (by decide) _) _
    · simp [Textless, Line.asciz?]
    · split
      · exact textless_entryLines
      · exact nofun
  rw [← List.append_nil (p.functions.flatMap _)]
  apply (functions_pools target p.externals p.functions).bind fun pool pool' => FunctionsNamed.mono pool pool'
  intro code
  apply Pools.get_pure
  intro pool hcode
  exact ⟨_, code, rfl, hfront, hcode⟩

end Program

/-- The pool and the lines that a program leaves, if the pool had some texts before. -/
structure ProgramPooled (target : Target) (p : Machine.Program) (before : List String) (pool : StringPool)
    (lines : List Line) : Prop where
  /-- The pool has the texts from before and those of the code, each at the place of its first use. -/
  texts : pool.texts = (before ++ p.functions.flatMap fun f => textsOf f.code).eraseDups
  index : pool.IsIndex
  /-- The texts from before keep their numbers. -/
  kept : (StringPool.ofTexts before).entries <+: pool.entries
  /-- Every operand of the code that is a text is written with the label of its entry. -/
  named : ProgramNamed target p pool lines
  /-- Equal texts have one label, and different texts have different ones. -/
  apart : ∀ e ∈ pool.entries, ∀ e' ∈ pool.entries, textLabel target e.1 = textLabel target e'.1 ↔ e.2 = e'.2
  /-- The data section defines the label of every number once, in order. -/
  labels : labelsOf (poolLines target pool) = (List.range pool.size).map (textLabel target) ∧
    (labelsOf (poolLines target pool)).Nodup
  /-- The texts that the lines define are those of the pool, each behind its label. -/
  defined : definedTexts lines = pool.entries.map fun e => (textLabel target e.1, "\"" ++ Text.escape e.2 ++ "\"")

end Assembly

open Assembly

/-- The pool and the assembly agree, whatever texts were in the pool before. -/
theorem Assembly.program_pools {target : Target} {wantsEntry : Bool} {p : Machine.Program} {before : List String}
    {lines : List Line} {pool : StringPool}
    (h : (ExceptT.run (program target wantsEntry p)).run (.ofTexts before) = (.ok lines, pool)) :
    ProgramPooled target p before pool lines := by
  obtain ⟨hpool, hnamed⟩ := program_named target wantsEntry p _ _ _ h
  rw [StringPool.ofTexts, ← StringPool.internAll_append] at hpool
  have hindex : pool.IsIndex := pool.isIndex
  have hlabels := (poolLines_labelled target pool.texts pool).labels
  refine ⟨?_, hindex, ?_, hnamed, ?_, ⟨hlabels, ?_⟩, hnamed.definedTexts⟩
  · exact hpool ▸ StringPool.texts_ofTexts _
  · rw [hpool, StringPool.internAll_append]
    exact StringPool.entries_prefix (StringPool.prefix_internAll _ _)
  · rintro ⟨id, text⟩ he ⟨id', text'⟩ he'
    constructor
    · intro hlabel
      obtain rfl : id = id' := textLabel_injective target hlabel
      exact Option.some.inj ((StringPool.mem_entries.1 he).symm.trans (StringPool.mem_entries.1 he'))
    · rintro (rfl : text = text')
      obtain rfl : id = id' :=
        Option.some.inj (((hindex.lookup text id).2 he).symm.trans ((hindex.lookup text id').2 he'))
      rfl
  · rw [hlabels]
    exact List.nodup_range.map (textLabel_injective target)

/-- Two functions that name texts: one of them twice, and one that the pool has already. -/
def greetings : Machine.Program where
  functions :=
    [⟨"f", true, [.mov .quad (.str "a") (.reg .di), .mov .quad (.str "b") (.reg .si), .ret]⟩,
      ⟨"g", false, [.mov .quad (.str "c\n") (.reg .di), .mov .quad (.str "a") (.reg .si), .ret]⟩]

/-- The texts of the functions come behind those from before, and the text that was there already keeps its number. -/
theorem greetings_pools : ∃ lines pool,
    (ExceptT.run (program .linux true greetings)).run (.ofTexts ["b", "d", "b"]) = (.ok lines, pool) ∧
      definedTexts lines = [(".LC0", "\"b\""), (".LC1", "\"d\""), (".LC2", "\"a\""), (".LC3", "\"c\\n\"")] := by
  obtain ⟨lines, pool, h⟩ : ∃ lines pool,
      (ExceptT.run (program .linux true greetings)).run (.ofTexts ["b", "d", "b"]) = (.ok lines, pool) := ⟨_, _, rfl⟩
  have hpooled := Assembly.program_pools h
  refine ⟨lines, pool, h, ?_⟩
  rw [hpooled.defined, StringPool.entries, hpooled.texts]
  decide

end Khel
