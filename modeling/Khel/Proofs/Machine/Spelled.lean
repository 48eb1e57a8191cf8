import Khel.Machine.Latin
import Khel.Proofs.Assembly.Reading
import Khel.Proofs.Machine.Slots

/-!
# Machine code in Latin letters

Spelling the names of a program in Latin letters reaches every name that the assembler will see, and it stops at the
first of them that cannot be spelled. If there is none, the result is the program with its names replaced one by one by
their spellings, which have only characters that a symbol may have.

* `Text.spelling`: the spelling of a name.
* `SpellsInTurn`: a computation that spells some names in turn, with one rule for every way in which it is put together.
* `Machine.Program.latinize_inTurn`: the names that are spelled in a program, and what comes of it.
* `Machine.Program.entities`: the names that stand for something in assembly.
-/

namespace Khel

/-! ## Names -/

namespace Text

/-- The Latin spelling of a name that has one. -/
def spelling (name : String) : String :=
  match latin name with
  | .ok spelled => spelled
  | .error _ => name

theorem spelling_of_latin {x y : String} (h : latin x = .ok y) : spelling x = y := by
  rw [spelling, h]

theorem latinSmall?_plain {c : Char} {s : String} (h : latinSmall? c = some s) : s.toList.all isPlain = true := by
  unfold latinSmall? at h
  split at h <;> cases h <;> rfl

theorem latinChar?_plain {c : Char} {spelled : List Char} (h : latinChar? c = some spelled) :
    ∀ d ∈ spelled, isPlain d = true := by
  unfold latinChar? at h
  split at h
  · next hc =>
    cases h
    simpa using hc
  · obtain ⟨s, hs, rfl⟩ := Option.map_eq_some_iff.1 h
    exact List.all_eq_true.1 (latinSmall?_plain hs)

theorem latinChars_plain : ∀ cs : List Char,
    Yields (latinChars cs) (fun _ => True) fun spelled => ∀ d ∈ spelled, isPlain d = true
  | [] => by
    rw [latinChars]
    exact .pure (by simp)
  | c :: cs => by
    rw [latinChars]
    split
    · next spelled hc =>
      exact .bind (latinChars_plain cs) fun rest hrest => .pure (List.forall_mem_append.2 ⟨latinChar?_plain hc, hrest⟩)
    · exact .throw trivial

/-- A spelling has only characters that a symbol may have. -/
theorem latin_isSpelling {x y : String} (h : latin x = .ok y) : IsSpelling y := by
  have hyields : Yields (latin x) (fun _ => True) IsSpelling := by
    refine .bind (latinChars_plain x.toList) fun spelled hs => .pure ?_
    rw [IsSpelling, String.toList_ofList]
    exact hs
  exact hyields.of_ok h

theorem latin_spells (x : String) : Yields (latin x) (fun _ => True) fun y => latin x = .ok y := .of_forall fun _ h => h

/-- The names in two lists are spelled as one another. -/
abbrev AllSpelled (xs ys : List String) : Prop := List.Forall₂ (fun x y => latin x = .ok y) xs ys

theorem AllSpelled.latin {xs ys : List String} (h : AllSpelled xs ys) : ∀ x ∈ xs, Text.latin x = .ok (spelling x) := by
  induction h with
  | nil => simp
  | cons hx _ ih => exact List.forall_mem_cons.2 ⟨by rw [spelling_of_latin hx, hx], ih⟩

end Text

/-! ## Spelling in turn -/

/-- The computation spells the names in turn and stops at the first that cannot be spelled; then it gives `a`. -/
def SpellsInTurn {α : Type} (m : Except Fault α) (names : List String) (a : α) : Prop :=
  m = (fun _ => a) <$> names.mapM Text.latin

namespace SpellsInTurn

variable {α β : Type} {xs ys : List String}

theorem pure (a : α) : SpellsInTurn (Pure.pure a) [] a := rfl

theorem name (x : String) : SpellsInTurn (Text.latin x) [x] (Text.spelling x) := by
  rw [SpellsInTurn, List.mapM_cons, List.mapM_nil, Text.spelling]
  cases Text.latin x <;> rfl

theorem bind {m : Except Fault α} {f : α → Except Fault β} {a : α} {b : β} (hm : SpellsInTurn m xs a)
    (hf : SpellsInTurn (f a) ys b) : SpellsInTurn (m >>= f) (xs ++ ys) b := by
  rw [SpellsInTurn] at hm hf ⊢
  rw [hm, List.mapM_append]
  cases xs.mapM Text.latin with
  | error e => rfl
  | ok xs' =>
    show f a = _
    rw [hf]
    cases ys.mapM Text.latin <;> rfl

theorem bind_pure {m : Except Fault α} {a : α} (hm : SpellsInTurn m xs a) (f : α → β) :
    SpellsInTurn (m >>= fun a => Pure.pure (f a)) xs (f a) := by
  rw [← List.append_nil xs]
  exact .bind hm (.pure (f a))

theorem mapM {f : α → Except Fault β} {names : α → List String} {g : α → β}
    (h : ∀ a, SpellsInTurn (f a) (names a) (g a)) (as : List α) :
    SpellsInTurn (as.mapM f) (as.flatMap names) (as.map g) := by
  induction as with
  | nil => exact .pure []
  | cons a as ih =>
    rw [List.mapM_cons, List.flatMap_cons]
    exact .bind (h a) (ih.bind_pure fun bs => g a :: bs)

/-- One name for each entry of a list. -/
theorem mapM_name {f : α → Except Fault β} {name : α → String} {g : α → β}
    (h : ∀ a, SpellsInTurn (f a) [name a] (g a)) (as : List α) : SpellsInTurn (as.mapM f) (as.map name) (as.map g) := by
  rw [List.map_eq_flatMap]
  exact mapM h as

/-- If all names can be spelled, the computation gives its result. -/
theorem eq_ok {m : Except Fault α} {a : α} (h : SpellsInTurn m xs a) (hxs : ∀ x ∈ xs, ∃ y, Text.latin x = .ok y) :
    m = .ok a := by
  have hrun : ∃ ys, xs.mapM Text.latin = .ok ys := by
    clear h
    induction xs with
    | nil => exact ⟨[], rfl⟩
    | cons x xs ih =>
      obtain ⟨⟨y, hy⟩, hrest⟩ := List.forall_mem_cons.1 hxs
      obtain ⟨ys, hys⟩ := ih hrest
      refine ⟨y :: ys, ?_⟩
      rw [List.mapM_cons, hy, hys]
      rfl
  obtain ⟨ys, hys⟩ := hrun
  rw [SpellsInTurn, hys] at h
  exact h

/-- If it ends well, all names can be spelled, and the result is the one it gives. -/
theorem of_eq_ok {m : Except Fault α} {a b : α} (h : SpellsInTurn m xs a) (hm : m = .ok b) :
    (∀ x ∈ xs, ∃ y, Text.latin x = .ok y) ∧ b = a := by
  rw [SpellsInTurn, hm] at h
  have hspells : Yields (xs.mapM Text.latin) (fun _ => True) (Text.AllSpelled xs) :=
    .mapM fun x _ => Text.latin_spells x
  cases hrun : xs.mapM Text.latin with
  | error e =>
    rw [hrun] at h
    cases h
  | ok ys =>
    rw [hrun] at h
    cases h
    exact ⟨fun x hx => ⟨_, (hspells.of_ok hrun).latin x hx⟩, rfl⟩

end SpellsInTurn

namespace Machine

/-! ## Names of machine code -/

/-- Replaces the name in an operand. -/
def Operand.mapName (ρ : String → String) : Operand → Operand
  | .data x => .data (ρ x)
  | o => o

/-- Replaces the names in an instruction. -/
def Instr.mapNames (ρ : String → String) : Instr → Instr
  | .jmp target => .jmp (ρ target)
  | .jcc c target => .jcc c (ρ target)
  | .label id => .label (ρ id)
  | .call f => .call (ρ f)
  | i => i.relocate (Operand.mapName ρ)

/-- Replaces the names in a function. -/
def Function.mapNames (ρ : String → String) (f : Function) : Function :=
  { f with name := ρ f.name, code := f.code.map (Instr.mapNames ρ) }

/-- Replaces the name of a static variable. -/
def StaticVar.mapName (ρ : String → String) (v : StaticVar) : StaticVar := { v with name := ρ v.name }

/-- Replaces the names in a program. Pseudos keep theirs, which the assembler does not see. -/
def Program.mapNames (ρ : String → String) (p : Program) : Program where
  functions := p.functions.map (Function.mapNames ρ)
  statics := p.statics.map (StaticVar.mapName ρ)
  externals := p.externals.map ρ

/-- The program with its names in Latin letters. -/
def Program.spelled (p : Program) : Program := p.mapNames Text.spelling

/-- The names in a function, in order. -/
def Function.names (f : Function) : List String := f.name :: f.code.flatMap Instr.names

/-- The names in a program, in order. -/
def Program.names (p : Program) : List String :=
  p.functions.flatMap Function.names ++ (p.statics.map StaticVar.name ++ p.externals)

/-! ## Spelling all names -/

theorem Operand.latinize_inTurn (o : Operand) :
    SpellsInTurn o.latinize o.dataName?.toList (o.mapName Text.spelling) := by
  cases o with
  | data x => exact .bind_pure (.name x) _
  | imm _ | reg _ | pseudo _ | stack _ | str _ => exact .pure _

theorem Instr.latinize_inTurn (i : Instr) : SpellsInTurn i.latinize i.names (i.mapNames Text.spelling) := by
  cases i with
  | mov _ a b | movsx a b | binary _ _ a b | cmp _ a b =>
    exact .bind a.latinize_inTurn (.bind b.latinize_inTurn (.pure _))
  | unary _ _ a | idiv _ a | setcc _ a | push a => exact .bind a.latinize_inTurn (.pure _)
  | cdq _ | ret => exact .pure _
  | jmp x | jcc _ x | label x | call x => exact .bind_pure (.name x) _

theorem Function.latinize_inTurn (f : Function) : SpellsInTurn f.latinize f.names (f.mapNames Text.spelling) :=
  .bind (.name f.name) (.bind_pure (.mapM Instr.latinize_inTurn f.code) _)

theorem StaticVar.latinize_inTurn (v : StaticVar) : SpellsInTurn v.latinize [v.name] (v.mapName Text.spelling) :=
  .bind_pure (.name v.name) _

/-- Spelling a program spells its names in turn, and replaces each of them by its spelling. -/
theorem Program.latinize_inTurn (p : Program) : SpellsInTurn p.latinize p.names p.spelled := by
  have hexternals : SpellsInTurn (p.externals.mapM Text.latin) p.externals (p.externals.map Text.spelling) := by
    have h := SpellsInTurn.mapM SpellsInTurn.name p.externals
    rwa [List.flatMap_singleton'] at h
  exact .bind (.mapM Function.latinize_inTurn p.functions)
    (.bind (.mapM_name StaticVar.latinize_inTurn p.statics) (hexternals.bind_pure _))

/-- A program that was spelled has its names replaced by their spellings, and all of them have one. -/
theorem Program.latinize_spells {p q : Program} (h : p.latinize = .ok q) :
    (∀ x ∈ p.names, Text.latin x = .ok (Text.spelling x)) ∧ q = p.spelled := by
  obtain ⟨hspelled, hq⟩ := p.latinize_inTurn.of_eq_ok h
  refine ⟨fun x hx => ?_, hq⟩
  obtain ⟨y, hy⟩ := hspelled x hx
  rw [Text.spelling_of_latin hy, hy]

/-! ## Replaced names -/

section Map

variable {ρ : String → String}

theorem Operand.dataName?_mapName (o : Operand) : (o.mapName ρ).dataName?.toList = o.dataName?.toList.map ρ := by
  cases o <;> rfl

theorem Instr.names_mapNames (i : Instr) : (i.mapNames ρ).names = i.names.map ρ := by
  have hoperands : (i.relocate (Operand.mapName ρ)).operands.flatMap (fun o => o.dataName?.toList) =
      (i.operands.flatMap fun o => o.dataName?.toList).map ρ := by
    rw [operands_relocate, List.flatMap_map, List.map_flatMap]
    congr 1
    funext o
    exact o.dataName?_mapName
  cases i with
  | jmp _ | jcc _ _ | label _ | call _ => rfl
  | _ => exact hoperands

theorem Function.names_mapNames (f : Function) : (f.mapNames ρ).names = f.names.map ρ := by
  show ρ f.name :: (f.code.map (Instr.mapNames ρ)).flatMap Instr.names = _
  rw [names, List.map_cons, List.flatMap_map, List.map_flatMap]
  congr 2
  funext i
  exact i.names_mapNames

theorem Program.names_mapNames (p : Program) : (p.mapNames ρ).names = p.names.map ρ := by
  have hfunctions : (p.functions.map (Function.mapNames ρ)).flatMap Function.names =
      (p.functions.flatMap Function.names).map ρ := by
    rw [List.flatMap_map, List.map_flatMap]
    congr 1
    funext f
    exact f.names_mapNames
  have hstatics : (p.statics.map (StaticVar.mapName ρ)).map StaticVar.name = (p.statics.map StaticVar.name).map ρ := by
    rw [List.map_map, List.map_map]
    rfl
  simp only [names, mapNames, hfunctions, hstatics, List.map_append]

end Map

/-! ## References -/

/-- Replaces the name in a reference. -/
def Reference.mapName (ρ : String → String) : Reference → Reference
  | entity x => entity (ρ x)
  | text t => text t

/-- The function or static variable that is referred to. -/
def Reference.entity? : Reference → Option String
  | entity x => some x
  | text _ => none

/-- What a program calls or reads. -/
def Program.references (p : Program) : List Reference := p.functions.flatMap fun f => f.code.flatMap Instr.references

/-- The functions and static variables that a program defines. -/
def Program.defined (p : Program) : List String := p.functions.map Function.name ++ p.statics.map StaticVar.name

/-- The names that stand for something in assembly. -/
def Program.entities (p : Program) : List String :=
  p.defined ++ p.externals ++ p.references.filterMap Reference.entity?

section Map

variable {ρ : String → String}

theorem Operand.reference?_mapName (o : Operand) :
    (o.mapName ρ).reference? = o.reference?.map (Reference.mapName ρ) := by
  cases o <;> rfl

theorem Instr.references_mapNames (i : Instr) :
    (i.mapNames ρ).references = i.references.map (Reference.mapName ρ) := by
  have hoperands : (i.relocate (Operand.mapName ρ)).operands.filterMap Operand.reference? =
      (i.operands.filterMap Operand.reference?).map (Reference.mapName ρ) := by
    rw [operands_relocate, List.filterMap_map, List.map_filterMap]
    congr 1
    funext o
    exact o.reference?_mapName
  cases i with
  | call _ => rfl
  | _ => exact hoperands

theorem Program.references_mapNames (p : Program) :
    (p.mapNames ρ).references = p.references.map (Reference.mapName ρ) := by
  simp only [references, mapNames, Function.mapNames, List.flatMap_map, List.map_flatMap, Instr.references_mapNames]

theorem Instr.entity_mem_names {i : Instr} {x : String} (h : .entity x ∈ i.references) : x ∈ i.names := by
  have hoperand : ∀ o ∈ i.operands, o.reference? = some (.entity x) → x ∈ o.dataName?.toList := by
    intro o _ ho
    cases o <;> cases ho
    exact List.mem_singleton.2 rfl
  have hoperands : .entity x ∈ i.operands.filterMap Operand.reference? →
      x ∈ i.operands.flatMap fun o => o.dataName?.toList := by
    intro hx
    obtain ⟨o, ho, hxo⟩ := List.mem_filterMap.1 hx
    exact List.mem_flatMap.2 ⟨o, ho, hoperand o ho hxo⟩
  cases i with
  | call f =>
    cases List.mem_singleton.1 h
    exact List.mem_singleton.2 rfl
  | jmp _ | jcc _ _ | label _ => cases h
  | _ => exact hoperands h

end Map

theorem Program.mem_names_of_mem_functions {p : Program} {f : Function} (hf : f ∈ p.functions) {x : String}
    (hx : x ∈ f.names) : x ∈ p.names :=
  List.mem_append_left _ (List.mem_flatMap.2 ⟨f, hf, hx⟩)

/-- What stands for something in assembly is named in the program. -/
theorem Program.entities_subset (p : Program) : p.entities ⊆ p.names := by
  refine List.append_subset.2 ⟨List.append_subset.2 ⟨List.append_subset.2 ⟨?_, ?_⟩, ?_⟩, ?_⟩
  · intro x hx
    obtain ⟨f, hf, rfl⟩ := List.mem_map.1 hx
    exact mem_names_of_mem_functions hf List.mem_cons_self
  · exact fun x hx => List.mem_append_right _ (List.mem_append_left _ hx)
  · exact fun x hx => List.mem_append_right _ (List.mem_append_right _ hx)
  · intro x hx
    obtain ⟨r, hr, hrx⟩ := List.mem_filterMap.1 hx
    cases r <;> cases hrx
    obtain ⟨f, hf, hr⟩ := List.mem_flatMap.1 hr
    obtain ⟨i, hi, hr⟩ := List.mem_flatMap.1 hr
    exact mem_names_of_mem_functions hf
      (List.mem_cons_of_mem _ (List.mem_flatMap.2 ⟨i, hi, Instr.entity_mem_names hr⟩))

end Machine

end Khel
