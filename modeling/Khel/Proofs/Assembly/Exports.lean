import Khel.Proofs.Assembly.Symbols
import Khel.Proofs.Typing.Exported

/-!
# The symbols that a text exports

A text of assembly lets a symbol be seen from outside by a directive of its own. Only three parts of a text have such
directives: the head for functions, the entry point for itself, and each static variable for itself. So what a program
exports is what its declarations ask for, and for a variable that is what the last of them says.

* `Assembly.globals`: the symbols that the directives of a text name.
* `Assembly.program_globals`: what is exported by the text of machine code.
* `Program.exports_last`: what is exported by the text of a program.
-/

namespace Khel

/-- The names that are seen from outside. -/
def exportedNames (entries : List (String × Bool)) : List String := (entries.filter Prod.snd).map Prod.fst

theorem mem_exportedNames {entries : List (String × Bool)} {x : String} :
    x ∈ exportedNames entries ↔ (x, true) ∈ entries := by
  simp [exportedNames]

theorem exportedNames_map (f : String → String) (entries : List (String × Bool)) :
    exportedNames (entries.map (Prod.map f id)) = (exportedNames entries).map f := by
  rw [exportedNames, exportedNames, List.filter_map, List.map_map, List.map_map]
  rfl

namespace Assembly

/-! ## Directives -/

/-- The symbols that a line lets be seen from outside. -/
def Line.globals : Line → List String
  | .op mnemonic operands => if mnemonic = ".globl" then operands else []
  | .blank | .label _ => []

/-- The symbols that a text lets be seen from outside, in order. -/
def globals (lines : List Line) : List String := lines.flatMap Line.globals

@[simp] theorem globals_nil : globals [] = [] := rfl

@[simp] theorem globals_cons (l : Line) (lines : List Line) : globals (l :: lines) = l.globals ++ globals lines := rfl

@[simp] theorem globals_append (a b : List Line) : globals (a ++ b) = globals a ++ globals b := List.flatMap_append

@[simp] theorem globals_blank : Line.blank.globals = [] := rfl

@[simp] theorem globals_label (name : String) : (Line.label name).globals = [] := rfl

theorem globals_op {mnemonic : String} (h : mnemonic ≠ ".globl") (operands : List String) :
    (Line.op mnemonic operands).globals = [] := if_neg h

@[simp] theorem globals_globalLine (target : Target) (name : String) :
    (globalLine target name).globals = [target.symbol name] := rfl

@[simp] theorem globals_externalLine (target : Target) (name : String) : (externalLine target name).globals = [] :=
  globals_op (by decide) _

@[simp] theorem globals_section (s : Section) : s.line.globals = [] := by
  cases s <;> exact globals_op (by decide) _

@[simp] theorem globals_alignLine (bytes : Nat) : (alignLine bytes).globals = [] := globals_op (by decide) _

@[simp] theorem globals_zeroLine (bytes : Nat) : (zeroLine bytes).globals = [] := globals_op (by decide) _

@[simp] theorem globals_symbolLine (target : Target) (name : String) : (symbolLine target name).globals = [] := rfl

@[simp] theorem globals_dataLine (w : Machine.Width) (v : Int64) : (dataLine w v).globals = [] := by
  cases w <;> exact globals_op (by decide) _

/-! ## Code -/

section Code

open Machine (Operand Instr Function StaticVar)

variable (target : Target)

theorem op1_globals {mnemonic : String} (h : mnemonic ≠ ".globl") (bytes : Nat) (a : Operand) :
    Gives (op1 target mnemonic bytes a) fun lines => globals lines = [] :=
  .bind (.any _) fun _ _ => .pure (by simp [globals_op h])

theorem op2_globals {mnemonic : String} (h : mnemonic ≠ ".globl") (bytes : Nat) (a b : Operand) :
    Gives (op2 target mnemonic bytes a b) fun lines => globals lines = [] :=
  .bind (.any _) fun _ _ => .bind (.any _) fun _ _ => .pure (by simp [globals_op h])

/-- Code exports nothing. -/
theorem instr_globals (externals : List String) (i : Instr) :
    Gives (instr target externals i) fun lines => globals lines = [] := by
  cases i with
  | mov w src dst =>
    cases src with
    | str text => exact op2_globals target (by decide) 8 (.str text) dst
    | imm _ | reg _ | pseudo _ | stack _ | data _ => exact op2_globals target (by cases w <;> decide) w.bytes _ dst
  | movsx src dst =>
    have hop := globals_op (show "movslq" ≠ ".globl" by decide)
    exact .bind (.any _) fun _ _ => .bind (.any _) fun _ _ => .pure (by simp [hop])
  | unary op w a => exact op1_globals target (by cases op <;> cases w <;> decide) _ a
  | binary op w src dst => exact op2_globals target (by cases op <;> cases w <;> decide) _ src dst
  | cmp w a b => exact op2_globals target (by cases w <;> decide) _ a b
  | idiv w a => exact op1_globals target (by cases w <;> decide) _ a
  | cdq w => exact .pure (by cases w <;> rfl)
  | setcc c a => exact op1_globals target (by cases c <;> decide) _ a
  | push a => exact op1_globals target (by decide) _ a
  | ret => exact .pure (by decide)
  | label id => exact .pure rfl
  | jmp l => exact .pure rfl
  | jcc c l => exact .pure (by cases c <;> rfl)
  | call f => exact .pure rfl

theorem instrs_globals (externals : List String) : ∀ code : List Instr,
    Gives (instrs target externals code) fun lines => globals lines = []
  | [] => .pure rfl
  | i :: is => by
    refine .bind (instr_globals target externals i) fun a ha => .bind (instrs_globals externals is) fun b hb => ?_
    exact .pure (by rw [globals_append, ha, hb, List.append_nil])

theorem functions_globals (externals : List String) : ∀ fs : List Function,
    Gives (functions target externals fs) fun lines => globals lines = []
  | [] => .pure rfl
  | f :: fs => by
    have hf : Gives (function target externals f) fun lines => globals lines = [] := by
      refine .bind (instrs_globals target externals f.code) fun code hcode => .pure ?_
      simp [hcode, globals_op]
    refine .bind hf fun a ha => .bind (functions_globals externals fs) fun b hb => ?_
    exact .pure (by rw [globals_append, ha, hb, List.append_nil])

/-! ## Programs -/

theorem entryLines_globals : globals (entryLines target) = [target.symbol "main"] := by
  cases target <;> rfl

theorem staticLines_globals (v : StaticVar) :
    globals (staticLines target v) = if v.isGlobal then [target.symbol v.name] else [] := by
  unfold staticLines
  split <;> split <;> simp

theorem statics_globals (vs : List StaticVar) : globals (vs.flatMap (staticLines target)) =
    (exportedNames (vs.map StaticVar.linkage)).map target.symbol := by
  induction vs with
  | nil => rfl
  | cons v vs ih =>
    rw [List.flatMap_cons, globals_append, ih, staticLines_globals]
    cases hv : v.isGlobal <;> simp [exportedNames, StaticVar.linkage, hv]

theorem functions_heads (fs : List Function) :
    globals ((fs.filter (·.isGlobal)).map fun f => globalLine target f.name) =
      (exportedNames (fs.map Function.linkage)).map target.symbol := by
  induction fs with
  | nil => rfl
  | cons f fs ih =>
    cases hf : f.isGlobal <;> simp_all [exportedNames, Function.linkage]

theorem poolLines_globals (pool : StringPool) : globals (poolLines target pool) = [] := by
  unfold poolLines
  split
  · rfl
  · rw [globals, List.flatMap_eq_nil_iff]
    intro l hl
    simp only [List.cons_append, List.mem_cons, List.mem_append, List.mem_flatMap, textLines, List.not_mem_nil,
      or_false] at hl
    rcases hl with rfl | ⟨e, _, rfl | rfl⟩ | rfl <;> rfl

theorem stackLines_globals : globals (stackLines target) = [] := by
  cases target <;> rfl

/-- What the text of machine code exports: functions, the entry point and static variables. -/
theorem program_globals (wantsEntry : Bool) (p : Machine.Program) : Gives (program target wantsEntry p) fun lines =>
    globals lines = (exportedNames (p.functions.map Function.linkage)).map target.symbol ++
      (if wantsEntry && p.functions.any (·.name = entryName) then [target.symbol "main"] else []) ++
      (exportedNames (p.statics.map StaticVar.linkage)).map target.symbol := by
  have hexternals : globals (p.externals.map (externalLine target)) = [] := by
    rw [globals, List.flatMap_map]
    exact List.flatMap_eq_nil_iff.2 fun x _ => globals_externalLine target x
  have hentry : globals (if wantsEntry && p.functions.any (·.name = entryName) then entryLines target else []) =
      if wantsEntry && p.functions.any (·.name = entryName) then [target.symbol "main"] else [] := by
    split
    · exact entryLines_globals target
    · rfl
  refine .bind (functions_globals target p.externals p.functions) fun code hcode => .bind (.any _) fun pool _ => .pure ?_
  simp only [globals_append, globals_cons, globals_nil, globals_blank, hexternals, hentry, hcode, functions_heads,
    statics_globals, poolLines_globals, stackLines_globals, List.nil_append, List.append_nil]

end Code

end Assembly

namespace Machine

/-- Spelling changes names only. -/
theorem Program.linkage_spelled (p : Program) :
    p.spelled.functions.map Function.linkage = (p.functions.map Function.linkage).map (Prod.map Text.spelling id) ∧
      p.spelled.statics.map StaticVar.linkage = (p.statics.map StaticVar.linkage).map (Prod.map Text.spelling id) := by
  show (p.functions.map _).map _ = _ ∧ (p.statics.map _).map _ = _
  rw [List.map_map, List.map_map, List.map_map, List.map_map]
  exact ⟨rfl, rfl⟩

/-- What the text of a program exports. -/
theorem Program.toAssembly_globals {code : Program} {options : Options} {text : String} {pool : StringPool}
    (h : code.toAssembly options = .ok (text, pool)) : ∃ lines, text = Assembly.render lines ∧
      Assembly.globals lines =
        (exportedNames (code.functions.map Function.linkage)).map (Assembly.symbolFor options.target) ++
        (if Assembly.writesEntry options code then [options.target.symbol "main"] else []) ++
        (exportedNames (code.statics.map StaticVar.linkage)).map (Assembly.symbolFor options.target) := by
  obtain ⟨spelled, hspelled, h⟩ := Except.exists_of_bind h
  obtain ⟨_, rfl⟩ := Machine.Program.latinize_spells hspelled
  obtain ⟨hfunctions, hstatics⟩ := code.linkage_spelled
  split at h
  · next lines pool' hrun =>
    cases h
    refine ⟨lines, rfl, (Assembly.program_globals _ _ _ _ _ _ hrun).trans ?_⟩
    rw [hfunctions, hstatics, exportedNames_map, exportedNames_map, Assembly.map_symbolFor, Assembly.map_symbolFor,
      Assembly.any_spelled]
    rfl
  · cases h

end Machine

/-! ## Programs -/

theorem Symbol.of_staticVar? {x : String} {s : Symbol} {v : Ir.StaticVar} (h : s.staticVar? x = some v) :
    v.name = x ∧ ∃ init, s = ⟨v.ty, .static init v.isGlobal⟩ := by
  obtain ⟨ty, role⟩ := s
  unfold Symbol.staticVar? at h
  split at h
  · next hrole =>
    cases h
    cases hrole
    exact ⟨rfl, _, rfl⟩
  · next hrole =>
    cases h
    cases hrole
    exact ⟨rfl, _, rfl⟩
  · cases h

/-- Entries of the symbol table are only replaced by temporaries. -/
theorem Ir.LoweringState.Reaches.old_entry {st st' : LoweringState} (h : st.Reaches st') {x : String} {s : Symbol}
    (hs : st'.symbols.get? x = some s) (hrole : s.role ≠ .automatic) : st.symbols.get? x = some s := by
  have hkeeps := h.keeps (P := fun st' => ∀ s, st'.symbols.get? x = some s → s.role ≠ .automatic →
    st.symbols.get? x = some s) ?_ fun _ hs _ => hs
  · exact hkeeps s hs hrole
  · intro st₁ st₂ hstep hold s hs hrole
    cases hstep with
    | label => exact hold s hs hrole
    | temp ty =>
      rw [addTemp, Table.get?_set] at hs
      split at hs
      · cases hs
        exact absurd rfl hrole
      · exact hold s hs hrole

/-- The functions and static variables of a lowered program have the entries that they had in the symbol table. -/
theorem Program.lower_entries {q : Program} {T T' : SymbolTable} {ir : Ir.Program} (hnodup : T.names.Nodup)
    (h : q.lower T = .ok (ir, T')) : (∀ f ∈ ir.functions, (T.get? f.name).any Symbol.isFunction = true) ∧
      ∀ v ∈ ir.statics, ∃ init, T.get? v.name = some ⟨v.ty, .static init v.isGlobal⟩ := by
  obtain ⟨st, _, rfl, hstatics, hreaches, hsaw⟩ := Program.lower_mints h
  constructor
  · intro f hf
    obtain ⟨st₁, hbefore, _, hfn⟩ := hsaw f hf
    obtain ⟨s, hs, hfn⟩ := (Option.any_eq_true _ _).1 hfn
    have hrole : s.role ≠ .automatic := fun hrole => by
      rw [Symbol.isFunction, hrole] at hfn
      cases hfn
    rw [hbefore.old_entry hs hrole]
    exact hfn
  · intro v hv
    have hnames : (Table.names st.symbols).Nodup :=
      hreaches.keeps (P := fun st => st.symbols.names.Nodup) (fun _ _ hstep => hstep.nodup) hnodup
    rw [hstatics] at hv
    obtain ⟨⟨x, s⟩, he, hs⟩ := List.mem_filterMap.1 hv
    obtain ⟨rfl, init, rfl⟩ := Symbol.of_staticVar? hs
    exact ⟨init, hreaches.old_entry (Table.get?_of_mem hnames he) fun hrole => by cases hrole⟩

/-- The last declaration of a variable at the top level that is not external decides whether the variable is exported.

In the symbol table of an accepted program a static variable is global only if this declaration is not static, or if
there is none; a variable without a point in its name is global then. The text of a program has a directive for each
global function, for the entry point if that is written, and for each global variable that is defined in the program. It
has no others, and so none for a variable that is not global. -/
theorem Program.exports_last (p : Program) :
    (∀ q T, p.analyze = .ok (q, T) →
      (∀ x ty init, T.get? x = some ⟨ty, .static init true⟩ → exported (linkedOf x p.declarations) = true) ∧
      ∀ x, Dotless x → ∀ ty init isGlobal, T.get? x = some ⟨ty, .static init isGlobal⟩ →
        isGlobal = exported (linkedOf x p.declarations)) ∧
    ∀ options text, compile options p = .ok (.assembly text) → ∃ q T ir T' code M lines functions vars,
      p.analyze = .ok (q, T) ∧ q.lower T = .ok (ir, T') ∧ ir.toMachine T' = .ok (code, M) ∧
      text = Assembly.render lines ∧
      functions = exportedNames (ir.functions.map Ir.Function.linkage) ∧
      vars = exportedNames (ir.statics.map Ir.StaticVar.linkage) ∧
      Assembly.globals lines = functions.map (Assembly.symbolFor options.target) ++
        (if Assembly.writesEntry options code then [options.target.symbol "main"] else []) ++
        vars.map (Assembly.symbolFor options.target) ∧
      (∀ v ∈ ir.statics, ∃ init, T.get? v.name = some ⟨v.ty, .static init v.isGlobal⟩) ∧
      ∀ x ty init, T.get? x = some ⟨ty, .static init false⟩ → x ∉ functions ++ vars := by
  refine ⟨fun q T ha => Program.analyze_exported ha, fun options text hcompile => ?_⟩
  obtain ⟨q, T, ir, T', code, M, pool, ha, hl, hm, ht⟩ := compile_stages hcompile
  obtain ⟨lines, hlines, hglobals⟩ := Machine.Program.toAssembly_globals ht
  obtain ⟨hfunctions, hstatics⟩ := (ir.toMachine_linkage T').of_ok hm
  rw [hfunctions, hstatics] at hglobals
  obtain ⟨hfns, hvars⟩ := Program.lower_entries (p.analyze_names.of_ok ha).2.1 hl
  refine ⟨q, T, ir, T', code, M, lines, _, _, ha, hl, hm, hlines, rfl, rfl, hglobals, hvars, ?_⟩
  intro x ty init hs hx
  rcases List.mem_append.1 hx with hx | hx
  · obtain ⟨f, hf, hentry⟩ := List.mem_map.1 (mem_exportedNames.1 hx)
    have hfn := hfns f hf
    rw [(Prod.mk.inj hentry).1, hs] at hfn
    cases hfn
  · obtain ⟨v, hv, hentry⟩ := List.mem_map.1 (mem_exportedNames.1 hx)
    obtain ⟨hname, hglobal⟩ := Prod.mk.inj hentry
    obtain ⟨init', hs'⟩ := hvars v hv
    rw [hname, hs, hglobal] at hs'
    cases hs'

/-- A variable that is static first and then declared once more, and one that is declared the other way round. -/
def redeclaredStatics : Program :=
  ⟨[.var ⟨⟨"x", .nowhere⟩, .int, some (.int {} 1), some .static⟩, .var ⟨⟨"x", .nowhere⟩, .int, none, none⟩,
    .var ⟨⟨"y", .nowhere⟩, .int, none, none⟩, .var ⟨⟨"y", .nowhere⟩, .int, none, some .static⟩,
    .var ⟨⟨"y", .nowhere⟩, .int, none, some .external⟩]⟩

/-- The first of them is exported, and the second is not. -/
theorem redeclaredStatics_exports : ∃ q T text lines, redeclaredStatics.analyze = .ok (q, T) ∧
    compile {} redeclaredStatics = .ok (.assembly text) ∧ text = Assembly.render lines ∧
    Assembly.globals lines = ["x"] ∧ exported (linkedOf "x" redeclaredStatics.declarations) = true ∧
    exported (linkedOf "y" redeclaredStatics.declarations) = false := by
  obtain ⟨hsymbols, htexts⟩ := Program.exports_last redeclaredStatics
  have hcompile : ∃ text, compile {} redeclaredStatics = .ok (.assembly text) := ⟨_, rfl⟩
  obtain ⟨text, htext⟩ := hcompile
  obtain ⟨q, T, ir, T', code, M, lines, _, _, ha, hl, hm, hlines, rfl, rfl, hglobals, _⟩ := htexts {} text htext
  refine ⟨q, T, text, lines, ha, htext, hlines, ?_, ?_, ?_⟩
  · cases ha
    cases hl
    cases hm
    exact hglobals
  · cases ha
    exact (hsymbols _ _ rfl).1 "x" .int32 (.value 1) rfl
  · cases ha
    exact ((hsymbols _ _ rfl).2 "y" (by decide) .int32 .tentative false rfl).symm

/-- A variable may be exported although one of its declarations is static. -/
theorem not_forall_static_unexported : ¬ ∀ (p q : Program) (T : SymbolTable) (d : VarDecl), p.analyze = .ok (q, T) →
    .var d ∈ p.decls → d.storage = some .static → ∀ ty init, T.get? d.ident.name ≠ some ⟨ty, .static init true⟩ := by
  intro hall
  exact hall redeclaredStatics _ _ ⟨⟨"x", .nowhere⟩, .int, some (.int {} 1), some .static⟩ rfl (.head _) rfl .int32
    (.value 1) rfl

end Khel
