import Khel.Proofs.Assembly.Symbols

/-!
# Every label resolves

Three kinds of labels meet in the text of a program: those that lowering numbers, those of loops, and those of texts.
Lowering's labels have a point in them and the labels of texts have none. No symbol looks like a label that the
assembler keeps to itself, because a name starts with a point only if a number follows. So every label that is jumped to
or whose address is taken is defined once, and nothing else has its name.

* `Target.localLabel_ne_symbol`: labels are no symbols.
* `Assembly.ResolvesLabels`: what it means that labels resolve.
* `compile_labels`: the labels in the assembly of a program resolve.
-/

namespace Khel

/-! ## Spelling -/

namespace Text

theorem latinChars_of_plain : ∀ {cs : List Char}, (∀ c ∈ cs, isPlain c = true) → latinChars cs = .ok cs
  | [], _ => rfl
  | c :: cs, h => by
    obtain ⟨hc, hcs⟩ := List.forall_mem_cons.1 h
    have hchar : latinChar? c = some [c] := if_pos hc
    rw [latinChars, hchar, latinChars_of_plain hcs]
    rfl

/-- A name that can be a symbol is spelled as it is. -/
theorem latin_of_isSpelling {x : String} (h : IsSpelling x) : latin x = .ok x := by
  rw [latin, latinChars_of_plain h]
  exact congrArg Except.ok String.ofList_toList

theorem latinSmall?_dotless {c : Char} {s : String} (h : latinSmall? c = some s) : Dotless s := by
  unfold latinSmall? at h
  split at h <;> cases h <;> decide

theorem latinChar?_dotless {c : Char} {spelled : List Char} (h : latinChar? c = some spelled) (hc : c ≠ '.') :
    '.' ∉ spelled := by
  unfold latinChar? at h
  split at h
  · cases h
    simpa using hc.symm
  · obtain ⟨s, hs, rfl⟩ := Option.map_eq_some_iff.1 h
    exact latinSmall?_dotless hs

/-- Spelling brings in no point. -/
theorem latinChars_dotless (cs : List Char) :
    Yields (latinChars cs) (fun _ => True) fun spelled => '.' ∉ cs → '.' ∉ spelled := by
  induction cs with
  | nil => exact .pure id
  | cons c cs ih =>
    rw [latinChars]
    split
    · next spelled hc =>
      apply Yields.bind ih
      intro rest hrest
      apply Yields.pure
      intro hdot
      rw [List.mem_cons, not_or] at hdot
      rw [List.mem_append, not_or]
      exact ⟨latinChar?_dotless hc (Ne.symm hdot.1), hrest hdot.2⟩
    · exact .throw trivial

/-- A name is spelled piece by piece. -/
theorem latinChars_append (a b : List Char) : Yields (latinChars (a ++ b)) (fun _ => True) fun spelled =>
    ∃ a' b', latinChars a = .ok a' ∧ latinChars b = .ok b' ∧ spelled = a' ++ b' := by
  induction a with
  | nil => exact .of_forall fun spelled h => ⟨[], spelled, rfl, h, rfl⟩
  | cons c cs ih =>
    rw [List.cons_append, latinChars, latinChars]
    split
    · next s hs =>
      apply Yields.bind ih
      intro rest hrest
      obtain ⟨a', b', ha, hb, rfl⟩ := hrest
      apply Yields.pure
      refine ⟨s ++ a', b', ?_, hb, (List.append_assoc ..).symm⟩
      rw [ha]
      rfl
    · exact .throw trivial

theorem latinChars_of_latin {x y : String} (h : latin x = .ok y) : latinChars x.toList = .ok y.toList := by
  obtain ⟨spelled, hs, hy⟩ := Except.exists_of_bind h
  cases hy
  rw [hs, String.toList_ofList]

theorem digits_plain (n : Nat) : ∀ c ∈ (toString n).toList, isPlain c = true := by
  intro c hc
  rw [Nat.toString_eq_ofList_toDigits, String.toList_ofList] at hc
  have hd := Nat.isDigit_of_mem_toDigits (by decide) (by decide) hc
  simp [isPlain, Char.isAlphanum, hd]

end Text

open Text

/-- A number behind a stem that can be a symbol. -/
theorem isSpelling_numbered {stem : String} (h : IsSpelling stem) (n : Nat) : IsSpelling (numbered stem n) := by
  rw [IsSpelling, toList_numbered, List.forall_mem_append, List.forall_mem_cons]
  exact ⟨h, by decide, digits_plain n⟩

theorem Ir.IsLabel.isSpelling {l : String} (h : IsLabel l) : IsSpelling l := by
  obtain ⟨stem, hstem, n, rfl⟩ := h
  have hall : (labelStems ++ loopLabelStems).all (fun stem => stem.toList.all isPlain) = true := by decide
  exact isSpelling_numbered (List.all_eq_true.1 (List.all_eq_true.1 hall stem hstem)) n

theorem Ir.IsLabel.not_dotless {l : String} (h : IsLabel l) : ¬ Dotless l := by
  obtain ⟨stem, _, n, rfl⟩ := h
  exact not_dotless_numbered stem n

/-! ## Names of symbols -/

/-- The name has no point, or one in front of a number. -/
def IsUnique (x : String) : Prop := Dotless x ∨ ∃ stem n, Dotless stem ∧ x = numbered stem n

namespace Target

theorem localLabel_injective (target : Target) : Function.Injective target.localLabel := by
  intro a b h
  cases target <;> simpa [localLabel, String.ext_iff] using h

/-- A label of the assembler's own is no symbol. -/
theorem localLabel_ne_symbol (target : Target) (l : String) {x : String} (hx : IsUnique x) {y : String}
    (hy : latin x = .ok y) : target.localLabel l ≠ target.symbol y := by
  intro h
  have hl := congrArg String.toList h
  cases target with
  | darwin =>
    simp only [localLabel, symbol, String.toList_append] at hl
    exact absurd (List.cons.inj hl).1 (by decide)
  | linux =>
    have hstart : '.' :: 'L' :: l.toList = y.toList := by simpa [localLabel, symbol] using hl
    have hchars := latinChars_of_latin hy
    rcases hx with hx | ⟨stem, n, hstem, rfl⟩
    · have hdot := (latinChars_dotless x.toList).of_ok hchars hx
      exact hdot (hstart ▸ List.mem_cons_self)
    · rw [toList_numbered] at hchars
      obtain ⟨a, b, ha, hb, hab⟩ := (latinChars_append _ _).of_ok hchars
      have hdot := (latinChars_dotless stem.toList).of_ok ha hstem
      have hnumber : latinChars ('.' :: (toString n).toList) = .ok ('.' :: (toString n).toList) :=
        latinChars_of_plain (List.forall_mem_cons.2 ⟨by decide, digits_plain n⟩)
      cases hb.symm.trans hnumber
      rw [hab] at hstart
      -- The first point is the one in front of the number, and no number starts with a letter.
      cases a with
      | nil =>
        have hdigits : 'L' ∈ (toString n).toList := (List.cons.inj hstart).2 ▸ List.mem_cons_self
        exact Assembly.notMem_digits (by decide) n hdigits
      | cons c cs => exact hdot ((List.cons.inj hstart).1 ▸ List.mem_cons_self)

end Target

/-- The names that lowering knows are unique ones, if no name in the program has a point. -/
theorem Program.reached_unique {p q : Program} {T : SymbolTable} {st : Ir.LoweringState}
    (hown : ∀ x ∈ p.ownNames, Dotless x) (hlinked : ∀ x ∈ p.linkedNames, Dotless x) (ha : p.analyze = .ok (q, T))
    (h : Ir.LoweringState.Reaches { symbols := T } st) : ∀ x ∈ st.symbols.names, IsUnique x := by
  have hstart : ∀ x ∈ T.names, IsUnique x := by
    intro x hx
    rcases ((p.analyze_names.of_ok ha).1 x).1 hx with hx | hx
    · obtain ⟨y, hy, n, _, rfl⟩ := mem_numberFrom hx
      exact .inr ⟨y, n, hown y hy, rfl⟩
    · exact .inl (hlinked x hx)
  refine h.keeps (P := fun st => ∀ x ∈ st.symbols.names, IsUnique x) ?_ hstart
  intro st st' hstep hst x hx
  cases hstep with
  | temp ty =>
    rcases (Table.mem_names_set _ _ _).1 hx with hx | rfl
    · exact hst x hx
    · exact .inr ⟨"tmp", st.temps, by decide, rfl⟩
  | label => exact hst x hx

/-- The functions and static variables of a program have unique names. -/
theorem Program.lower_unique {p q : Program} {T T' : SymbolTable} {ir : Ir.Program}
    (hown : ∀ x ∈ p.ownNames, Dotless x) (hlinked : ∀ x ∈ p.linkedNames, Dotless x) (ha : p.analyze = .ok (q, T))
    (hl : q.lower T = .ok (ir, T')) :
    ∀ x ∈ ir.functions.map Ir.Function.name ++ ir.statics.map Ir.StaticVar.name, IsUnique x := by
  obtain ⟨st, _, rfl, hstatics, hreaches, hsaw⟩ := Program.lower_mints hl
  intro x hx
  rcases List.mem_append.1 hx with hx | hx
  · obtain ⟨f, hf, rfl⟩ := List.mem_map.1 hx
    obtain ⟨st₁, hbefore, _, hfound⟩ := hsaw f hf
    apply Program.reached_unique hown hlinked ha hbefore
    rw [Table.mem_names_iff]
    obtain ⟨s, hs, _⟩ := (Option.any_eq_true _ _).1 hfound
    rw [hs]
    rfl
  · rw [hstatics] at hx
    obtain ⟨v, hv, rfl⟩ := List.mem_map.1 hx
    obtain ⟨e, he, hstatic⟩ := List.mem_filterMap.1 hv
    apply Program.reached_unique hown hlinked ha hreaches
    rw [(Symbol.name_staticVar? hstatic).1]
    exact List.mem_map_of_mem he

/-! ## Texts -/

namespace Assembly

open Ir (labels targets IsLabel)

/-- The labels of the intermediate code `ir` resolve in the text, where `symbols` are labels of another kind. -/
structure ResolvesLabels (target : Target) (ir : Ir.Program) (symbols : List String) (lines : List Line) : Prop where
  /-- No label stands twice in the intermediate code. -/
  nodup : (ir.functions.flatMap fun f => labels f.code).Nodup
  /-- A jump finds its label in its own function. -/
  found : ∀ f ∈ ir.functions, ∀ t ∈ targets f.code, t ∈ labels f.code
  /-- Spelling changes no label. -/
  spelled : ∀ f ∈ ir.functions, ∀ l ∈ labels f.code, Text.latin l = .ok l
  /-- The text jumps where the intermediate code jumps. -/
  jumps : jumpsOf lines = (ir.functions.flatMap fun f => targets f.code).map target.localLabel
  /-- What is jumped to and what has its address taken is defined once. -/
  once : ∀ l ∈ jumpsOf lines ++ addressesOf lines, (labelsOf lines).count l = 1
  /-- And no symbol has its name. -/
  apart : ∀ l ∈ jumpsOf lines ++ addressesOf lines, l ∉ symbols

section Counting

variable (target : Target)

/-- The labels of a program that are no symbols. -/
theorem count_programLabels {l : String} (wantsEntry : Bool) (p : Machine.Program) (texts : List String)
    (hl : l ∉ definedSymbols target wantsEntry p) :
    (programLabels target wantsEntry p texts).count l =
      (p.functions.flatMap fun f => localLabels target (Machine.marks f.code)).count l +
        ((List.range texts.length).map (textLabel target)).count l := by
  rw [(programLabels_perm target wantsEntry p texts).count_eq, List.count_append, List.count_eq_zero.2 hl, Nat.zero_add,
    keptLabels, List.count_append]

theorem textLabel_injective : Function.Injective (textLabel target) := by
  intro a b h
  have hname := target.localLabel_injective h
  exact digits_inj (by simpa [String.ext_iff] using hname)

/-- The label of a text is none of the labels that lowering makes. -/
theorem localLabel_ne_textLabel {l : String} (h : IsLabel l) (id : Nat) : target.localLabel l ≠ textLabel target id := by
  intro he
  have hl := target.localLabel_injective he
  apply h.not_dotless
  rw [hl, Dotless]
  simpa using dot_notMem_digits id

/-- Of the labels of code and of texts, a label of the code is one. -/
theorem count_localLabel {ls : List String} (hnodup : ls.Nodup) (hlabel : ∀ l ∈ ls, IsLabel l) {t : String} (ht : t ∈ ls)
    (n : Nat) : (ls.map target.localLabel).count (target.localLabel t) +
      ((List.range n).map (textLabel target)).count (target.localLabel t) = 1 := by
  have hcode := List.count_eq_one_of_mem (hnodup.map target.localLabel_injective) (List.mem_map_of_mem ht)
  have htexts : ((List.range n).map (textLabel target)).count (target.localLabel t) = 0 := by
    rw [List.count_eq_zero, List.mem_map]
    intro h
    obtain ⟨id, _, he⟩ := h
    exact localLabel_ne_textLabel target (hlabel t ht) id he.symm
  omega

/-- And so is the label of a text. -/
theorem count_textLabel {ls : List String} (hlabel : ∀ l ∈ ls, IsLabel l) {id n : Nat} (hid : id < n) :
    (ls.map target.localLabel).count (textLabel target id) +
      ((List.range n).map (textLabel target)).count (textLabel target id) = 1 := by
  have hcode : (ls.map target.localLabel).count (textLabel target id) = 0 := by
    rw [List.count_eq_zero, List.mem_map]
    intro h
    obtain ⟨l, hl, he⟩ := h
    exact localLabel_ne_textLabel target (hlabel l hl) id he
  have htexts := List.count_eq_one_of_mem (List.nodup_range.map (textLabel_injective target))
    (List.mem_map_of_mem (List.mem_range.2 hid))
  omega

end Counting

section Programs

variable {target : Target} {gs : List Ir.Function} {fs : List Machine.Function}

theorem localLabels_functions (h : fs.map (fun f => Machine.marks f.code) = gs.map fun g => Ir.marks g.code) :
    (fs.flatMap fun f => localLabels target (Machine.marks f.code)) =
      (gs.flatMap fun g => labels g.code).map target.localLabel := by
  have hmap := congrArg (List.flatMap (localLabels target)) h
  rw [List.flatMap_map, List.flatMap_map] at hmap
  rw [hmap, List.map_flatMap]
  simp only [localLabels, Ir.labels_eq_marks]

theorem localTargets_functions (h : fs.map (fun f => Machine.marks f.code) = gs.map fun g => Ir.marks g.code) :
    (fs.flatMap fun f => localTargets target (Machine.marks f.code)) =
      (gs.flatMap fun g => targets g.code).map target.localLabel := by
  have hmap := congrArg (List.flatMap (localTargets target)) h
  rw [List.flatMap_map, List.flatMap_map] at hmap
  rw [hmap, List.map_flatMap]
  simp only [localTargets, Ir.targets_eq_marks]

/-- The symbols of a program: its entry point, its functions and its static variables. -/
def symbolLabels (target : Target) (p : Machine.Program) : List String :=
  target.symbol "main" :: ((p.functions.map fun f => target.symbol f.name) ++ p.statics.map fun v => target.symbol v.name)

theorem definedSymbols_subset (target : Target) (wantsEntry : Bool) (p : Machine.Program) :
    definedSymbols target wantsEntry p ⊆ symbolLabels target p := by
  rw [definedSymbols, symbolLabels, Machine.Program.defined, List.map_append, List.map_map, List.map_map]
  refine List.append_subset.2 ⟨?_, List.subset_cons_self ..⟩
  split <;> simp

/-- The labels of a text that are no symbols are those of the code and those of texts. -/
theorem count_labelsOf {wantsEntry : Bool} {p : Machine.Program} {texts jumps : List String} {lines : List Line}
    (h : LabelledBy target texts (programLabels target wantsEntry p texts) jumps lines)
    (hmarks : p.functions.map (fun f => Machine.marks f.code) = gs.map fun g => Ir.marks g.code) {l : String}
    (hl : l ∉ symbolLabels target p) : (labelsOf lines).count l =
      ((gs.flatMap fun g => labels g.code).map target.localLabel).count l +
        ((List.range texts.length).map (textLabel target)).count l := by
  rw [h.labels, count_programLabels target wantsEntry p texts fun hmem => hl (definedSymbols_subset _ _ _ hmem),
    localLabels_functions hmarks]

/-- The text of machine code with the marks of `ir`. -/
theorem resolvesLabels {wantsEntry : Bool} {ir : Ir.Program} {p : Machine.Program} {texts : List String}
    {lines : List Line} (hnodup : (ir.functions.flatMap fun f => labels f.code).Nodup)
    (hfound : ∀ f ∈ ir.functions, ∀ t ∈ targets f.code, t ∈ labels f.code)
    (hlabel : ∀ f ∈ ir.functions, ∀ l ∈ labels f.code, IsLabel l)
    (hmarks : p.functions.map (fun f => Machine.marks f.code) = ir.functions.map fun g => Ir.marks g.code)
    (hsymbols : ∀ l, target.localLabel l ∉ symbolLabels target p)
    (hlines : LabelledBy target texts (programLabels target wantsEntry p texts)
      (p.functions.flatMap fun f => localTargets target (Machine.marks f.code)) lines) :
    ResolvesLabels target ir (symbolLabels target p) lines := by
  have hjumps := hlines.jumps.trans (localTargets_functions hmarks)
  have hall : ∀ l ∈ ir.functions.flatMap fun f => labels f.code, IsLabel l := by
    intro l hl
    obtain ⟨f, hf, hl⟩ := List.mem_flatMap.1 hl
    exact hlabel f hf l hl
  -- A label that is used is one of the code or one of a text.
  have huse : ∀ l ∈ jumpsOf lines ++ addressesOf lines,
      (∃ t ∈ ir.functions.flatMap fun f => labels f.code, l = target.localLabel t) ∨
        ∃ id < texts.length, l = textLabel target id := by
    intro l hl
    rcases List.mem_append.1 hl with hl | hl
    · rw [hjumps] at hl
      obtain ⟨t, ht, rfl⟩ := List.mem_map.1 hl
      obtain ⟨f, hf, ht⟩ := List.mem_flatMap.1 ht
      exact .inl ⟨t, List.mem_flatMap.2 ⟨f, hf, hfound f hf t ht⟩, rfl⟩
    · exact .inr (hlines.addresses l hl)
  refine ⟨hnodup, hfound, fun f hf l hl => Text.latin_of_isSpelling (hlabel f hf l hl).isSpelling, hjumps, ?_, ?_⟩
  · intro l hl
    rcases huse l hl with ⟨t, ht, rfl⟩ | ⟨id, hid, rfl⟩
    · rw [count_labelsOf hlines hmarks (hsymbols t), count_localLabel target hnodup hall ht]
    · have hsymbol : textLabel target id ∉ symbolLabels target p := hsymbols _
      rw [count_labelsOf hlines hmarks hsymbol, count_textLabel target hall hid]
  · intro l hl
    rcases huse l hl with ⟨t, _, rfl⟩ | ⟨id, _, rfl⟩
    · exact hsymbols t
    · exact hsymbols _

end Programs

end Assembly

/-! ## Compilation -/

/-- The lines that machine code is written as, with its names spelled, and the spelled code. -/
def Machine.Program.WrittenAs (code : Machine.Program) (options : Options) (spelled : Machine.Program)
    (lines : List Assembly.Line) : Prop :=
  code.latinize = .ok spelled ∧
    ∃ pool, (ExceptT.run (Assembly.program options.target options.entryPoint spelled)).run .empty = (.ok lines, pool)

theorem Machine.Program.toAssembly_lines {code : Machine.Program} {options : Options} {text : String}
    {pool : StringPool} (h : code.toAssembly options = .ok (text, pool)) :
    ∃ spelled lines, text = Assembly.render lines ∧ code.WrittenAs options spelled lines := by
  obtain ⟨spelled, hspelled, h⟩ := Except.exists_of_bind h
  split at h
  · next hrun =>
    cases h
    exact ⟨spelled, _, rfl, hspelled, _, hrun⟩
  · cases h

/-- No label of the assembler's own is a symbol of a program whose names are unique ones. -/
theorem Machine.Program.localLabel_notMem {code : Machine.Program}
    (hspelled : ∀ x ∈ code.names, Text.latin x = .ok (Text.spelling x)) (hunique : ∀ x ∈ code.defined, IsUnique x)
    (target : Target) (l : String) : target.localLabel l ∉ Assembly.symbolLabels target code.spelled := by
  have hdefined : ∀ x ∈ code.defined, target.localLabel l ≠ target.symbol (Text.spelling x) := by
    intro x hx
    apply target.localLabel_ne_symbol l (hunique x hx)
    exact hspelled x (code.entities_subset (List.mem_append_left _ (List.mem_append_left _ hx)))
  intro hmem
  rcases List.mem_cons.1 hmem with hmain | hmem
  · exact target.symbol_main_ne_localLabel l hmain.symm
  · have hmap : target.localLabel l ∈ code.defined.map fun x => target.symbol (Text.spelling x) := by
      simpa [Machine.Program.defined, Machine.Program.spelled, Machine.Program.mapNames, Machine.Function.mapNames,
        Machine.StaticVar.mapName, Function.comp_def] using hmem
    obtain ⟨x, hx, he⟩ := List.mem_map.1 hmap
    exact hdefined x hx he.symm

/-- The labels in the assembly of a program resolve. -/
theorem compile_labels {options : Options} {p : Program} {text : String} (hown : ∀ x ∈ p.ownNames, Dotless x)
    (hlinked : ∀ x ∈ p.linkedNames, Dotless x) (h : compile options p = .ok (.assembly text)) :
    ∃ q T ir T' code M spelled lines, p.analyze = .ok (q, T) ∧ q.lower T = .ok (ir, T') ∧
      ir.toMachine T' = .ok (code, M) ∧ code.WrittenAs options spelled lines ∧ text = Assembly.render lines ∧
      Assembly.ResolvesLabels options.target ir (Assembly.symbolLabels options.target spelled) lines := by
  obtain ⟨q, T, ir, T', code, M, pool, ha, hl, hm, ht⟩ := compile_stages h
  obtain ⟨spelled, lines, hlines, hwritten⟩ := Machine.Program.toAssembly_lines ht
  refine ⟨q, T, ir, T', code, M, spelled, lines, ha, hl, hm, hwritten, hlines, ?_⟩
  obtain ⟨hspelled, pool', hrun⟩ := hwritten
  obtain ⟨hloops, hlab⟩ := p.analyze_loops.of_ok ha
  obtain ⟨hnodup, hfound, hlabel⟩ := Program.lower_labels hloops hlab hl
  obtain ⟨hspells, rfl⟩ := Machine.Program.latinize_spells hspelled
  have hnames := (ir.toMachine_names T').of_ok hm
  have hunique := Program.lower_unique hown hlinked ha hl
  rw [← hnames.1, ← hnames.2] at hunique
  have hkeeps := (ir.toMachine_marks T').of_ok hm
  have hmarks : code.functions.map (fun f => Machine.marks f.code) = ir.functions.map fun g => Ir.marks g.code :=
    map_eq_of_forall₂ (hkeeps.imp fun _ _ hf => hf.marks)
  have hlatin : ∀ f ∈ code.functions, ∀ m ∈ Machine.marks f.code, Text.latin m.name = .ok m.name := by
    intro f hf m hm
    obtain ⟨g, hg, hgf⟩ := List.mem_map.1 (hmarks ▸ List.mem_map_of_mem hf)
    have hm : m ∈ Ir.marks g.code := hgf ▸ hm
    have hmem : m.name ∈ Ir.labels g.code := (Ir.name_mem_of_mem_marks hm).elim id (hfound g hg m.name)
    exact Text.latin_of_isSpelling (hlabel g hg m.name hmem).isSpelling
  exact Assembly.resolvesLabels hnodup hfound hlabel ((Machine.Program.marks_spelled hlatin).trans hmarks)
    (Machine.Program.localLabel_notMem hspells hunique options.target)
    (Assembly.program_interns options.target options.entryPoint code.spelled .empty lines pool' hrun).2

/-- A function that calls another with a text, and then leaves its loop. -/
def greets : Program :=
  ⟨[.fn ⟨⟨"puts", .nowhere⟩, [⟨⟨"s", .nowhere⟩, .string⟩], .int, true, true⟩ none,
    .fn ⟨⟨"f", .nowhere⟩, [], .int, true, false⟩
      (some [.stmt (.whileLoop (.int {} 1)
        [.stmt (.eval (.call {} "puts" [.str {} "hi"])), .stmt (.leave .nowhere none)] none)])]⟩

/-- Its text jumps to two labels and takes the address of a third. -/
theorem greets_labels : ∃ text lines, compile {} greets = .ok (.assembly text) ∧ text = Assembly.render lines ∧
    Assembly.jumpsOf lines = [".Lbreak.while.0", ".Lbreak.while.0", ".Lwhile_start.0"] ∧
    Assembly.addressesOf lines = [".LC0"] ∧
    ∀ l ∈ Assembly.jumpsOf lines ++ Assembly.addressesOf lines, (Assembly.labelsOf lines).count l = 1 := by
  have hcompile : ∃ text, compile {} greets = .ok (.assembly text) := ⟨_, rfl⟩
  obtain ⟨text, htext⟩ := hcompile
  obtain ⟨_, _, _, _, _, _, _, lines, ha, hl, hm, hwritten, hlines, hlabels⟩ :=
    compile_labels (by decide) (by decide) htext
  cases ha
  cases hl
  cases hm
  obtain ⟨hspelled, pool, hrun⟩ := hwritten
  cases hspelled
  cases hrun
  exact ⟨text, _, htext, hlines, by decide, by decide, hlabels.once⟩

end Khel
