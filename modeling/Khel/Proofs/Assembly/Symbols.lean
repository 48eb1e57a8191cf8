import Khel.Proofs.Assembly.Labels
import Khel.Proofs.Typing.Entered

/-!
# The symbols of a compiled program

Functions and static variables share the names of the assembler. In the machine code of a program all of them have names
of their own, and the text of the program gives each the Latin spelling of its name. So two of them come to share a
symbol exactly if they are spelled alike. The assembler knows labels of jumps and of texts besides, and a symbol may be
one of these too.

* `Ir.Program.toMachine_names`: the stages behind lowering keep names.
* `Program.lower_distinct`: functions and static variables have different names.
* `compile_symbols`: the symbols in the text of a program.
-/

namespace Khel

/-! ## Stages keep names -/

theorem Yields.any {ε α : Type} (x : Except ε α) : Yields x (fun _ => True) fun _ => True :=
  .of_forall fun _ _ => trivial

/-- Lists whose entries have the same names. -/
theorem map_eq_of_forall₂ {α β γ : Type} {f : α → γ} {g : β → γ} {xs : List α} {ys : List β}
    (h : List.Forall₂ (fun x y => g y = f x) xs ys) : ys.map g = xs.map f := by
  induction h with
  | nil => rfl
  | cons hxy _ ih => rw [List.map_cons, List.map_cons, hxy, ih]

/-! The name of a function or of a static variable, and whether it is seen from outside. -/

def Ir.Function.linkage (f : Ir.Function) : String × Bool := (f.name, f.isGlobal)

def Ir.StaticVar.linkage (v : Ir.StaticVar) : String × Bool := (v.name, v.isGlobal)

def Machine.Function.linkage (f : Machine.Function) : String × Bool := (f.name, f.isGlobal)

def Machine.StaticVar.linkage (v : Machine.StaticVar) : String × Bool := (v.name, v.isGlobal)

namespace Machine

theorem Program.ofIr_linkage (T : Khel.SymbolTable) (ir : Ir.Program) :
    Yields (Program.ofIr T ir) (fun _ => True) fun r =>
      r.1.functions.map Function.linkage = ir.functions.map Ir.Function.linkage ∧
      r.1.statics.map StaticVar.linkage = ir.statics.map Ir.StaticVar.linkage := by
  have hfunction : ∀ f ∈ ir.functions, Yields (Function.ofIr T f) (fun _ => True) fun f' => f'.linkage = f.linkage :=
    fun f _ => .bind (.any _) fun _ _ => .bind (.any _) fun _ _ => .pure rfl
  have hstatic : ∀ v ∈ ir.statics, Yields (StaticVar.ofIr v) (fun _ => True) fun v' => v'.linkage = v.linkage :=
    fun v _ => .bind (.any _) fun _ _ => .pure rfl
  refine .bind (.mapM hfunction) fun fs hfs => .bind (.mapM hstatic) fun vs hvs => .bind (.any _) fun M _ => ?_
  exact .pure ⟨map_eq_of_forall₂ hfs, map_eq_of_forall₂ hvs⟩

theorem assignAllSlots_linkage : ∀ (fs : List Function) (M : SymbolTable),
    Yields (assignAllSlots M fs) (fun _ => True) fun r => r.1.map Function.linkage = fs.map Function.linkage
  | [], M => .pure rfl
  | f :: fs, M => by
    rw [assignAllSlots]
    have hone : Yields (f.assignSlots M) (fun _ => True) fun r => r.1.linkage = f.linkage :=
      .bind (.any _) fun _ _ => .pure rfl
    refine .bind hone fun r hr => .bind (.any _) fun M' _ => .bind (assignAllSlots_linkage fs M') fun rs hrs => .pure ?_
    simp only [List.map_cons, hr, hrs]

theorem Function.finish_linkage (M : SymbolTable) (f : Function) :
    Yields (f.finish M) (fun _ => True) fun f' => f'.linkage = f.linkage := by
  unfold Function.finish
  split
  · exact .bind (.any _) fun _ _ => .pure rfl
  · exact .throw trivial

end Machine

/-- The stages behind lowering keep functions and static variables under their names, and seen from outside or not. -/
theorem Ir.Program.toMachine_linkage (ir : Ir.Program) (T : SymbolTable) :
    Yields (ir.toMachine T) (fun _ => True) fun r =>
      r.1.functions.map Machine.Function.linkage = ir.functions.map Ir.Function.linkage ∧
      r.1.statics.map Machine.StaticVar.linkage = ir.statics.map Ir.StaticVar.linkage := by
  refine .bind (Machine.Program.ofIr_linkage T ir) ?_
  rintro ⟨code, M⟩ ⟨hfunctions, hstatics⟩
  refine .bind (R := fun r => r.1.functions.map Machine.Function.linkage = code.functions.map Machine.Function.linkage ∧
    r.1.statics = code.statics) ?_ ?_
  · exact .bind (Machine.assignAllSlots_linkage code.functions M) fun r hr => .pure ⟨hr, rfl⟩
  rintro ⟨code', M'⟩ ⟨hfunctions', hstatics'⟩
  refine .bind (R := fun code'' => code''.functions.map Machine.Function.linkage =
    code'.functions.map Machine.Function.linkage ∧ code''.statics = code'.statics) ?_ ?_
  · exact .bind (.mapM fun f _ => f.finish_linkage M') fun fs hfs => .pure ⟨map_eq_of_forall₂ hfs, rfl⟩
  rintro code'' ⟨hfunctions'', hstatics''⟩
  refine .pure ⟨?_, ?_⟩
  · rw [hfunctions'', hfunctions', hfunctions]
  · rw [hstatics'', hstatics', hstatics]

/-- The stages behind lowering keep the names of functions and static variables. -/
theorem Ir.Program.toMachine_names (ir : Ir.Program) (T : SymbolTable) :
    Yields (ir.toMachine T) (fun _ => True) fun r =>
      r.1.functions.map Machine.Function.name = ir.functions.map Ir.Function.name ∧
      r.1.statics.map Machine.StaticVar.name = ir.statics.map Ir.StaticVar.name := by
  apply (ir.toMachine_linkage T).mono
  rintro r ⟨hfunctions, hstatics⟩
  constructor
  · simpa [Function.comp_def, Machine.Function.linkage, Ir.Function.linkage] using congrArg (List.map Prod.fst) hfunctions
  · simpa [Function.comp_def, Machine.StaticVar.linkage, Ir.StaticVar.linkage] using congrArg (List.map Prod.fst) hstatics

/-! ## Names differ -/

theorem Table.get?_of_mem {α : Type} {t : Table α} (h : t.names.Nodup) {x : String} {a : α} (hx : (x, a) ∈ t.entries) :
    t.get? x = some a := by
  cases t with | mk es =>
  induction es with
  | nil => cases hx
  | cons e rest ih =>
    obtain ⟨he, hrest⟩ := List.nodup_cons.1 h
    rcases List.mem_cons.1 hx with rfl | hx
    · simp [get?, findEntry?]
    · have hne : e.1 ≠ x := fun heq => he (List.mem_map.2 ⟨(x, a), hx, heq.symm⟩)
      simpa [get?, findEntry?, hne] using ih hrest hx

theorem Symbol.name_staticVar? {x : String} {s : Symbol} {v : Ir.StaticVar} (h : s.staticVar? x = some v) :
    v.name = x ∧ s.isStatic = true := by
  obtain ⟨ty, role⟩ := s
  unfold Symbol.staticVar? at h
  split at h
  · next hrole =>
    cases h
    cases hrole
    exact ⟨rfl, rfl⟩
  · next hrole =>
    cases h
    cases hrole
    exact ⟨rfl, rfl⟩
  · cases h

/-- The static variables of a table have different names, and in the table they are static. -/
theorem SymbolTable.staticVars_distinct {T : SymbolTable} (h : T.names.Nodup) :
    (T.staticVars.map Ir.StaticVar.name).Nodup ∧
      ∀ x ∈ T.staticVars.map Ir.StaticVar.name, (T.get? x).any Symbol.isStatic = true := by
  constructor
  · have hsub : (T.staticVars.map Ir.StaticVar.name).Sublist T.names := by
      unfold staticVars Table.names
      generalize T.entries = es
      induction es with
      | nil => exact .refl _
      | cons e rest ih =>
        rw [List.filterMap_cons]
        split
        · exact .cons _ ih
        · next v hv =>
          rw [List.map_cons, List.map_cons, (Symbol.name_staticVar? hv).1]
          exact .cons_cons _ ih
    exact hsub.nodup h
  · intro x hx
    obtain ⟨v, hv, rfl⟩ := List.mem_map.1 hx
    obtain ⟨⟨y, s⟩, he, hs⟩ := List.mem_filterMap.1 hv
    obtain ⟨hname, hstatic⟩ := Symbol.name_staticVar? hs
    rw [hname, Table.get?_of_mem h he]
    exact hstatic

namespace Ir.LoweringState

/-- Temporaries are no new names for anything else. -/
theorem Step.nodup {st st' : LoweringState} (h : st.Step st') (hst : st.symbols.names.Nodup) :
    st'.symbols.names.Nodup := by
  cases h with
  | temp ty => exact Table.nodup_names_set _ _ _ hst
  | label => exact hst

/-- What is known and not static does not become static. -/
theorem Step.not_static {st st' : LoweringState} (h : st.Step st') {x : String}
    (hst : (st.symbols.get? x).any (!·.isStatic) = true) : (st'.symbols.get? x).any (!·.isStatic) = true := by
  cases h with
  | temp ty =>
    rw [addTemp, Table.get?_set]
    split
    · rfl
    · exact hst
  | label => exact hst

/-- A function that was found on the way is not static at the end. -/
theorem SawFunction.not_static {st st' : LoweringState} {f : String} (h : st.SawFunction st' f) :
    (st'.symbols.get? f).any Symbol.isStatic = false := by
  obtain ⟨st₁, _, hafter, hf⟩ := h
  have hstart : (st₁.symbols.get? f).any (!·.isStatic) = true := by
    obtain ⟨⟨ty, role⟩, hs, hfn⟩ := (Option.any_eq_true _ _).1 hf
    rw [hs]
    cases role with
    | function isDefined isGlobal => rfl
    | automatic | static _ _ => cases hfn
  have hend := hafter.keeps (P := fun st => (st.symbols.get? f).any (!·.isStatic) = true)
    (fun _ _ hstep => hstep.not_static) hstart
  cases hs : st'.symbols.get? f with
  | none => rfl
  | some s =>
    rw [hs] at hend
    simpa using hend

end Ir.LoweringState

/-- The functions and static variables of a lowered program have different names. -/
theorem Program.lower_distinct {p q : Program} {T T' : SymbolTable} {ir : Ir.Program} (ha : p.analyze = .ok (q, T))
    (hl : q.lower T = .ok (ir, T')) :
    (ir.functions.map Ir.Function.name ++ ir.statics.map Ir.StaticVar.name).Nodup := by
  obtain ⟨_, hnodup, hdefined⟩ := p.analyze_names.of_ok ha
  obtain ⟨st, _, rfl, hstatics, hreaches, hsaw⟩ := Program.lower_mints hl
  have hnames : st.symbols.names.Nodup :=
    hreaches.keeps (P := fun st => st.symbols.names.Nodup) (fun _ _ hstep => hstep.nodup) hnodup
  obtain ⟨hdistinct, hstatic⟩ := SymbolTable.staticVars_distinct hnames
  have hfunctions := names_of_lowersTo ((q.lower_ensures T).of_ok hl)
  rw [hstatics]
  refine List.Nodup.append (hfunctions ▸ hdefined) hdistinct fun x hx hx' => ?_
  -- The name was that of a function when the function was lowered. A temporary may have taken it since, but nothing
  -- becomes static on the way.
  obtain ⟨f, hf, rfl⟩ := List.mem_map.1 hx
  have hfound := hstatic f.name hx'
  rw [(hsaw f hf).not_static] at hfound
  cases hfound

/-! ## Texts -/

theorem Target.symbol_inj (target : Target) {x y : String} : target.symbol x = target.symbol y ↔ x = y := by
  cases target with
  | linux => rfl
  | darwin => simp [Target.symbol, String.append_right_inj]

/-- The entry point does not look like a label of the assembler's own. -/
theorem Target.symbol_main_ne_localLabel (target : Target) (l : String) :
    target.symbol "main" ≠ target.localLabel l := by
  intro h
  have hl := congrArg String.toList h
  cases target with
  | linux | darwin =>
    simp only [symbol, localLabel, String.toList_append] at hl
    exact absurd (List.cons.inj hl).1 (by decide)

namespace Assembly

/-- The symbol of a name. -/
def symbolFor (target : Target) (x : String) : String := target.symbol (Text.spelling x)

/-- Is the entry point written? -/
def writesEntry (options : Options) (code : Machine.Program) : Bool :=
  options.entryPoint && code.functions.any (Text.spelling ·.name = entryName)

/-- The text names the functions and static variables of `code` by their spellings, and nothing else. -/
structure NamesEntities (options : Options) (code : Machine.Program) (texts : List String) (lines : List Line) :
    Prop where
  /-- Every name has a spelling. -/
  spelled : ∀ x ∈ code.entities, Text.latin x = .ok (Text.spelling x)
  /-- These labels are defined, in this order: the entry point, the functions, each with the labels of its code behind
  it, the static variables and the texts. -/
  labels : labelsOf lines = programLabels options.target options.entryPoint code.spelled texts
  /-- The entry point calls the entry function, and every other call and every operand is written as what it refers
  to. -/
  references : Tells options.target
    ((if writesEntry options code then [.entity entryName] else []) ++ code.spelled.references) lines

variable {options : Options} {code : Machine.Program} {texts : List String} {lines : List Line}

theorem any_spelled (code : Machine.Program) : code.spelled.functions.any (·.name = entryName) =
    code.functions.any (Text.spelling ·.name = entryName) := by
  show (code.functions.map _).any _ = _
  rw [List.any_map]
  rfl

theorem map_symbolFor (target : Target) (xs : List String) :
    xs.map (symbolFor target) = (xs.map Text.spelling).map target.symbol := List.map_map.symm

/-- The symbols of a spelled program. -/
theorem definedSymbols_spelled (options : Options) (code : Machine.Program) :
    definedSymbols options.target options.entryPoint code.spelled =
      (if writesEntry options code then [options.target.symbol "main"] else []) ++
        code.defined.map (symbolFor options.target) := by
  have hdefined : code.spelled.defined = code.defined.map Text.spelling := by
    simp only [Machine.Program.defined, List.map_append, List.map_map]
    show (code.functions.map _).map _ ++ (code.statics.map _).map _ = _
    rw [List.map_map, List.map_map]
    rfl
  rw [definedSymbols, any_spelled, hdefined, map_symbolFor, writesEntry]

/-- What was spelled and written names its functions and static variables. -/
theorem namesEntities (hspelled : ∀ x ∈ code.names, Text.latin x = .ok (Text.spelling x)) {pool pool' : StringPool}
    (hrun : (ExceptT.run (program options.target options.entryPoint code.spelled)).run pool = (.ok lines, pool')) :
    NamesEntities options code pool'.texts lines := by
  refine ⟨fun x hx => hspelled x (code.entities_subset hx), ?_, ?_⟩
  · exact (program_interns options.target options.entryPoint code.spelled pool lines pool' hrun).2.labels
  · have hnames : ∀ f ∈ code.spelled.functions, ∀ i ∈ f.code, ∀ name ∈ i.names, Text.IsSpelling name := by
      intro f hf i hi name hname
      have hmem : name ∈ code.spelled.names := Machine.Program.mem_names_of_mem_functions hf
        (List.mem_cons_of_mem _ (List.mem_flatMap.2 ⟨i, hi, hname⟩))
      rw [Machine.Program.spelled, code.names_mapNames] at hmem
      obtain ⟨x, hx, rfl⟩ := List.mem_map.1 hmem
      exact Text.latin_isSpelling (hspelled x hx)
    have htells := program_gives options.target options.entryPoint code.spelled hnames pool lines pool' hrun
    rw [entryReferences, List.any_map] at htells
    rw [writesEntry, ← any_spelled]
    exact htells

namespace NamesEntities

variable (h : NamesEntities options code texts lines)
include h

/-- Names share a symbol if they are spelled alike. -/
theorem symbolFor_inj {x y : String} (hx : x ∈ code.entities) (hy : y ∈ code.entities) :
    symbolFor options.target x = symbolFor options.target y ↔ Text.latin x = Text.latin y := by
  rw [symbolFor, symbolFor, options.target.symbol_inj, h.spelled x hx, h.spelled y hy, Except.ok.injEq]

/-- A name has the symbol of the entry point if it is spelled like that. -/
theorem symbolFor_main {x : String} (hx : x ∈ code.entities) :
    symbolFor options.target x = options.target.symbol "main" ↔ Text.latin x = .ok "main" := by
  rw [symbolFor, options.target.symbol_inj, h.spelled x hx, Except.ok.injEq]

/-- If names are spelled differently, no two symbols are the same. -/
theorem nodup (hnames : code.defined.Nodup)
    (hinj : ∀ x ∈ code.entities, ∀ y ∈ code.entities, Text.latin x = Text.latin y → x = y)
    (hmain : writesEntry options code = true → ∀ x ∈ code.entities, Text.latin x ≠ .ok "main") :
    (definedSymbols options.target options.entryPoint code.spelled).Nodup := by
  have hmem : ∀ x ∈ code.defined, x ∈ code.entities :=
    fun x hx => List.mem_append_left _ (List.mem_append_left _ hx)
  rw [definedSymbols_spelled]
  refine List.Nodup.append ?_ ?_ ?_
  · split <;> simp
  · refine hnames.map_on fun x hx y hy hxy => ?_
    exact hinj x (hmem x hx) y (hmem y hy) ((h.symbolFor_inj (hmem x hx) (hmem y hy)).1 hxy)
  · intro s hs hs'
    obtain ⟨x, hx, rfl⟩ := List.mem_map.1 hs'
    split at hs
    · next hentry =>
      exact hmain hentry x (hmem x hx) ((h.symbolFor_main (hmem x hx)).1 (List.mem_singleton.1 hs))
    · cases hs

/-- A symbol that differs from the others is defined once, and once more for every kept label of the same name. -/
theorem count_labelsOf (hnodup : (definedSymbols options.target options.entryPoint code.spelled).Nodup) {s : String}
    (hs : s ∈ definedSymbols options.target options.entryPoint code.spelled) :
    (labelsOf lines).count s = 1 + (keptLabels options.target code.spelled texts).count s := by
  rw [h.labels, (programLabels_perm options.target options.entryPoint code.spelled texts).count_eq, List.count_append,
    List.count_eq_one_of_mem hnodup hs]

end NamesEntities

end Assembly

/-! ## Compilation -/

theorem CompileError.of_ofFaulting {α : Type} {x : Except Fault α} {a : α} (h : CompileError.ofFaulting x = .ok a) :
    x = .ok a := by
  cases x with
  | ok b =>
    cases h
    rfl
  | error e => cases h

/-- The stages of a compilation that gives assembly. -/
theorem compile_stages {options : Options} {p : Program} {text : String}
    (h : compile options p = .ok (.assembly text)) : ∃ q T ir T' code M pool, p.analyze = .ok (q, T) ∧
      q.lower T = .ok (ir, T') ∧ ir.toMachine T' = .ok (code, M) ∧ code.toAssembly options = .ok (text, pool) := by
  obtain ⟨⟨q, T⟩, ha, h⟩ := Except.exists_of_bind h
  obtain ⟨⟨ir, T'⟩, hl, h⟩ := Except.exists_of_bind h
  dsimp only at h
  split at h
  · cases h
  · obtain ⟨⟨code, M⟩, hm, h⟩ := Except.exists_of_bind h
    dsimp only at h
    split at h
    · cases h
    · obtain ⟨⟨text', pool⟩, ht, h⟩ := Except.exists_of_bind h
      cases h
      exact ⟨q, T, ir, T', code, M, pool, ha, CompileError.of_ofFaulting hl, CompileError.of_ofFaulting hm,
        CompileError.of_ofFaulting ht⟩

/-- The text of a program names its functions and static variables. -/
theorem Machine.Program.toAssembly_names {code : Machine.Program} {options : Options} {text : String}
    {pool : StringPool} (h : code.toAssembly options = .ok (text, pool)) :
    ∃ lines, text = Assembly.render lines ∧ Assembly.NamesEntities options code pool.texts lines := by
  obtain ⟨spelled, hspelled, h⟩ := Except.exists_of_bind h
  obtain ⟨hnames, rfl⟩ := Machine.Program.latinize_spells hspelled
  split at h
  · next lines pool' hrun =>
    cases h
    exact ⟨lines, rfl, Assembly.namesEntities hnames hrun⟩
  · cases h

/-- The symbols in the assembly of a program. Each function and static variable is named by its spelling, so two of them
share a symbol exactly if they are spelled alike. If they never are, and none is spelled like the entry point where that
is written, no reference to one of them names another, and the label of each stands in the text once. It stands there
once more for every label of a jump or a text that happens to have the same name. -/
theorem compile_symbols {options : Options} {p : Program} {text : String}
    (h : compile options p = .ok (.assembly text)) : ∃ q T ir T' code M pool lines, p.analyze = .ok (q, T) ∧
      q.lower T = .ok (ir, T') ∧ ir.toMachine T' = .ok (code, M) ∧ code.toAssembly options = .ok (text, pool) ∧
      text = Assembly.render lines ∧ Assembly.NamesEntities options code pool.texts lines ∧
      (∀ x ∈ code.entities, ∀ y ∈ code.entities,
        Assembly.symbolFor options.target x = Assembly.symbolFor options.target y ↔ Text.latin x = Text.latin y) ∧
      (∀ x ∈ code.entities,
        Assembly.symbolFor options.target x = options.target.symbol "main" ↔ Text.latin x = .ok "main") ∧
      ((∀ x ∈ code.entities, ∀ y ∈ code.entities, Text.latin x = Text.latin y → x = y) →
        (Assembly.writesEntry options code = true → ∀ x ∈ code.entities, Text.latin x ≠ .ok "main") →
        (Assembly.writesEntry options code = true →
          (Assembly.labelsOf lines).count (options.target.symbol "main") = 1) ∧
        (∀ x ∈ code.defined, (Assembly.labelsOf lines).count (Assembly.symbolFor options.target x) =
          1 + (Assembly.keptLabels options.target code.spelled pool.texts).count
            (Assembly.symbolFor options.target x)) ∧
        ∀ x ∈ code.entities, ∀ y ∈ code.entities, x ≠ y →
          Assembly.symbolFor options.target x ≠ Assembly.symbolFor options.target y) := by
  obtain ⟨q, T, ir, T', code, M, pool, ha, hl, hm, ht⟩ := compile_stages h
  obtain ⟨lines, hlines, hnames⟩ := Machine.Program.toAssembly_names ht
  obtain ⟨hfunctions, hstatics⟩ := (ir.toMachine_names T').of_ok hm
  have hdistinct : code.defined.Nodup := by
    rw [Machine.Program.defined, hfunctions, hstatics]
    exact Program.lower_distinct ha hl
  refine ⟨q, T, ir, T', code, M, pool, lines, ha, hl, hm, ht, hlines, hnames, fun x hx y hy => hnames.symbolFor_inj hx hy,
    fun x hx => hnames.symbolFor_main hx, fun hinj hmain => ?_⟩
  have hnodup := hnames.nodup hdistinct hinj hmain
  have hsymbols := Assembly.definedSymbols_spelled options code
  refine ⟨fun hentry => ?_, fun x hx => ?_, fun x hx y hy hne hsame => ?_⟩
  · have hmem : options.target.symbol "main" ∈
        Assembly.definedSymbols options.target options.entryPoint code.spelled := by
      rw [hsymbols, if_pos hentry]
      exact List.mem_cons_self
    have hkept : (Assembly.keptLabels options.target code.spelled pool.texts).count (options.target.symbol "main") =
        0 := by
      refine List.count_eq_zero.2 fun hmain => ?_
      obtain ⟨l, hl⟩ := Assembly.exists_of_mem_keptLabels options.target hmain
      exact options.target.symbol_main_ne_localLabel l hl
    rw [hnames.count_labelsOf hnodup hmem, hkept]
  · refine hnames.count_labelsOf hnodup ?_
    rw [hsymbols]
    exact List.mem_append_right _ (List.mem_map_of_mem hx)
  · exact hne (hinj x hx y hy ((hnames.symbolFor_inj hx hy).1 hsame))

/-- A variable of the top level and an entry function that returns it. -/
def counted : Program :=
  ⟨[.var { ident := ⟨"тоо", .nowhere⟩, type := .int, init := some (.int {} 5), storage := none },
    .fn ⟨⟨"үндсэн", .nowhere⟩, [], .int, true, false⟩ (some [.stmt (.ret (some (.var {} "тоо")) .nowhere)])]⟩

/-- Its text defines the entry point, the function and the variable, and reads and calls the last two. -/
theorem counted_symbols : ∃ text lines, compile {} counted = .ok (.assembly text) ∧ text = Assembly.render lines ∧
    Assembly.labelsOf lines = ["main", "wndsen", "too"] ∧
    Assembly.Tells .linux [.entity "wndsen", .entity "too"] lines ∧
    ∀ s ∈ ["main", "wndsen", "too"], (Assembly.labelsOf lines).count s = 1 := by
  have hcompile : ∃ text, compile {} counted = .ok (.assembly text) := ⟨_, rfl⟩
  obtain ⟨text, htext⟩ := hcompile
  obtain ⟨_, _, _, _, _, _, _, lines, ha, hl, hm, ht, hlines, hnames, _, _, hapart⟩ := compile_symbols htext
  cases ha
  cases hl
  cases hm
  cases ht
  obtain ⟨hmain, honce, _⟩ := hapart (by decide) (by decide)
  refine ⟨_, lines, htext, hlines, hnames.labels.trans (by decide), hnames.references, ?_⟩
  simp only [List.forall_mem_cons]
  exact ⟨hmain rfl, honce "үндсэн" (by decide), honce "тоо" (by decide), by simp⟩

/-- Two functions whose names differ, but are spelled alike. -/
def twins : Program :=
  ⟨[.fn ⟨⟨"а", .nowhere⟩, [], .int, true, false⟩ (some []), .fn ⟨⟨"a", .nowhere⟩, [], .int, true, false⟩ (some [])]⟩

/-- The text of one of them. -/
def twinLines : List Assembly.Line :=
  [.op ".text" [], .label "a", .op "pushq" ["%rbp"], .op "movq" ["%rsp", "%rbp"], .op "subq" ["$0", "%rsp"],
    .op "movl" ["$0", "%eax"], .op "movq" ["%rbp", "%rsp"], .op "popq" ["%rbp"], .op "ret" [], .blank]

/-- The text of both. -/
def twinsLines : List Assembly.Line :=
  [.op ".globl" ["a"], .op ".globl" ["a"], .blank] ++ twinLines ++ twinLines ++ Assembly.stackLines .linux

/-- They are given one symbol, and its label stands in the text twice. -/
theorem twins_share_symbol : ∃ q T ir T' code M, twins.analyze = .ok (q, T) ∧ q.lower T = .ok (ir, T') ∧
    ir.toMachine T' = .ok (code, M) ∧ compile {} twins = .ok (.assembly (Assembly.render twinsLines)) ∧
    code.functions.map Machine.Function.name = ["а", "a"] ∧ "а" ≠ "a" ∧
    Assembly.symbolFor .linux "а" = Assembly.symbolFor .linux "a" ∧
    (Assembly.labelsOf twinsLines).count (Assembly.symbolFor .linux "a") = 2 :=
  ⟨_, _, _, _, _, _, rfl, rfl, rfl, rfl, rfl, by decide, by decide, by decide⟩

end Khel
