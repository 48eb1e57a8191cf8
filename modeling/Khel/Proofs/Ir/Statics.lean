import Khel.Proofs.Assembly.Symbols
import Khel.Proofs.Ir.Lowered

/-!
# Static variables of a program

A static variable may be declared in many places. All its declarations are merged into one entry of the symbol table,
and lowering reads the static variables off the table. So each of them comes out once, where its first declaration
stands, with the one value that is given to it.

* `Program.staticNames`: the names of the static variables, in the order of their first declarations.
* `Program.Prepares.get?_static`: the entry of a static variable.
* `SymbolTable.staticVars_set`: temporaries do not count.
* `Program.statics_merge`: how declarations of static variables are merged.
-/

namespace Khel

/-! ## Declared names -/

/-- The number that a static variable starts as, unless it lives elsewhere. -/
def StaticInit.start? : StaticInit → Option Int64
  | .value v => some v
  | .tentative => some 0
  | .absent => none

/-- The names of the variables that are kept for the whole run, in the order of their first declarations. -/
def Program.staticNames (p : Program) : List String :=
  ((p.declarations.filter Declaration.isStatic).map Declaration.name).eraseDups

namespace Declaration

theorem storage_of_static {d : Declaration} (hstatic : d.isStatic = true) (hown : d.isLinked = false) :
    d.storage = some .static := by
  cases d with
  | function | automatic => cases hstatic
  | top => cases hown
  | inner d =>
    have hd : d.storage ≠ some .external := of_decide_eq_false hown
    obtain ⟨storage, hs⟩ := Option.isSome_iff_exists.1 hstatic
    cases storage with
    | static => exact hs
    | external => exact absurd hs hd

/-- The only declaration of a name. -/
theorem Lead.single {d : Declaration} {s? : Option Symbol} (h : Lead [d] s?) : ∃ s, s? = some s ∧ d.Makes none s := by
  generalize hds : [d] = ds at h
  cases h with
  | nil => cases hds
  | @snoc ds prior d' s h hs =>
    rw [← List.nil_append [d]] at hds
    obtain ⟨rfl, hd⟩ := List.append_inj' hds rfl
    cases hd
    refine ⟨s, rfl, ?_⟩
    generalize hds : [] = ds at h
    cases h with
    | nil => exact hs
    | snoc => simp at hds

/-- A static variable of a block starts as its only declaration says. -/
theorem Makes.own_static {d : Declaration} {s : Symbol} (hs : d.Makes none s) (hown : d.isLinked = false)
    (hstatic : d.isStatic = true) : ∃ ty, s = ⟨ty, .static (firstInit [d]) false⟩ := by
  cases hs with
  | function | top => cases hown
  | found hd | external hd => simp [isLinked, storage, hd] at hown
  | @static d init hd hsaid =>
    refine ⟨d.type.ty, ?_⟩
    cases hsaid with
    | none hi => simp [firstInit, value?, hd, hi]
    | value hv =>
      have hi : d.init ≠ none := fun hi => by rw [VarDecl.value?, hi] at hv; cases hv
      simp [firstInit, value?, hd, hi, hv]
  | plain hd => simp [isStatic, hd] at hstatic
  | automatic => cases hstatic

theorem Makes.own_not_static {d : Declaration} {s : Symbol} (hs : d.Makes none s) (hown : d.isLinked = false)
    (hstatic : d.isStatic = false) : s.isStatic = false := by
  cases hs with
  | function | top => cases hown
  | found hd | external hd | static hd => simp [isStatic, hd] at hstatic
  | plain | automatic => rfl

end Declaration

namespace Program.Prepares

variable {p r : Program} {T : SymbolTable} {d : Declaration}

/-- A variable that is not linked has one declaration. -/
theorem declarationsOf_own (h : p.Prepares r) (hd : d ∈ r.declarations) (hown : d.isLinked = false) :
    declarationsOf d.name r.declarations = [d] := by
  have hall : ∀ e ∈ declarationsOf d.name r.declarations, e.isLinked = false := by
    intro e he
    obtain ⟨he, hname⟩ := mem_declarationsOf.1 he
    rw [Bool.eq_false_iff] at hown ⊢
    rwa [ne_eq, h.isLinked_iff he, hname, ← h.isLinked_iff hd]
  have hfilter : (declarationsOf d.name r.declarations).filter (!·.isLinked) = declarationsOf d.name r.declarations :=
    List.filter_eq_self.2 fun e he => by rw [hall e he]; rfl
  have hsub : ((declarationsOf d.name r.declarations).map Declaration.name).Sublist r.ownNames := by
    rw [← hfilter, ← r.ownNames_eq]
    exact (List.filter_sublist.filter _).map _
  have hnodup := hsub.nodup (p.prepare_declarations.of_ok h.prepare).2
  have hmem : d ∈ declarationsOf d.name r.declarations := mem_declarationsOf.2 ⟨hd, rfl⟩
  have hsame : ∀ e ∈ declarationsOf d.name r.declarations, e = d := fun e he =>
    List.inj_on_of_nodup_map hnodup he hmem (mem_declarationsOf.1 he).2
  rw [List.eq_replicate_of_mem hsame, List.map_replicate, List.nodup_replicate] at hnodup
  have hone : (declarationsOf d.name r.declarations).length = 1 := le_antisymm hnodup (List.length_pos_of_mem hmem)
  rw [List.eq_replicate_of_mem hsame, hone, List.replicate_one]

/-! ## Entries of the table -/

/-- The entry of a static variable says what its declarations say together. -/
theorem get?_static (h : p.Prepares r) (hT : T.Records r.declarations) (hd : d ∈ r.declarations)
    (hstatic : d.isStatic = true) : ∃ ty isGlobal,
      T.get? d.name = some ⟨ty, .static (firstInit (declarationsOf d.name r.declarations)) isGlobal⟩ := by
  cases hl : d.isLinked with
  | true =>
    have hx : Dotless d.name := (h.isLinked_iff hd).1 hl
    obtain ⟨s, hs, hmerged⟩ := hT.merged (Declaration.isLinked_of_becomes h.becomes hx)
      (mem_declarationsOf.2 ⟨hd, rfl⟩) hstatic
    obtain ⟨isGlobal, hrole⟩ := hmerged.role
    exact ⟨s.ty, isGlobal, by rw [hs, ← hrole]⟩
  | false =>
    have hlead := hT.lead d.name
    rw [h.declarationsOf_own hd hl] at hlead ⊢
    obtain ⟨s, hs, hmakes⟩ := hlead.single
    rw [hs]
    obtain ⟨ty, rfl⟩ := hmakes.own_static hl hstatic
    exact ⟨ty, false, rfl⟩

/-- What is declared otherwise is not static. -/
theorem get?_not_static (h : p.Prepares r) (hT : T.Records r.declarations) (hd : d ∈ r.declarations)
    (hstatic : d.isStatic = false) : (T.get? d.name).any Symbol.isStatic = false := by
  cases hl : d.isLinked with
  | true =>
    obtain ⟨s, hs, hfn⟩ := (Option.any_eq_true _ _).1 (h.get?_function hT hd hl hstatic)
    rw [hs, Option.any_some, Symbol.not_static_of_function hfn]
  | false =>
    have hlead := hT.lead d.name
    rw [h.declarationsOf_own hd hl] at hlead
    obtain ⟨s, hs, hmakes⟩ := hlead.single
    rw [hs, Option.any_some, hmakes.own_not_static hl hstatic]

end Program.Prepares

/-! ## Static variables of a table -/

namespace SymbolTable

/-- What is not static may become a temporary. -/
theorem staticVars_set {T : SymbolTable} {x : String} (h : (T.get? x).any Symbol.isStatic = false) (ty : Ty) :
    SymbolTable.staticVars (Table.set T x ⟨ty, .automatic⟩) = T.staticVars := by
  cases T with | mk es =>
  suffices hes : (Table.setEntry x ⟨ty, .automatic⟩ es).filterMap (fun e => e.2.staticVar? e.1) =
      es.filterMap fun e => e.2.staticVar? e.1 from hes
  induction es with
  | nil => rfl
  | cons e rest ih =>
    obtain ⟨n, s⟩ := e
    change (if n = x then some s else Table.findEntry? x rest).any Symbol.isStatic = false at h
    rw [Table.setEntry]
    split
    · next hn =>
      rw [if_pos hn] at h
      have hs : s.staticVar? n = none := by
        cases hv : s.staticVar? n with
        | none => rfl
        | some v =>
          rw [Option.any_some, (Symbol.name_staticVar? hv).2] at h
          cases h
      have hauto : Symbol.staticVar? n ⟨ty, .automatic⟩ = none := rfl
      simp only [List.filterMap_cons, hs, hauto]
    · next hn =>
      rw [if_neg hn] at h
      rw [List.filterMap_cons, List.filterMap_cons, ih h]

/-- The static variables stand in the order of the names. -/
theorem staticVars_eq {T : SymbolTable} (h : T.names.Nodup) :
    T.staticVars = T.names.filterMap fun x => (T.get? x).bind (Symbol.staticVar? x) := by
  rw [staticVars, Table.names, List.filterMap_map]
  apply List.filterMap_congr
  rintro ⟨x, s⟩ he
  rw [Function.comp_apply, Table.get?_of_mem h he, Option.bind_some]

end SymbolTable

/-- Temporaries are no static variables. -/
theorem Program.lower_statics {q : Program} {T T' : SymbolTable} {ir : Ir.Program} (h : q.lower T = .ok (ir, T'))
    (htemps : ∀ k, (T.get? (numbered "tmp" k)).any Symbol.isStatic = false) : ir.statics = T.staticVars := by
  obtain ⟨st, _, rfl, hstatics, hreaches, _⟩ := Program.lower_mints h
  rw [hstatics]
  have hkeeps := hreaches.keeps (P := fun st => SymbolTable.staticVars st.symbols = T.staticVars ∧
    ∀ k, (st.symbols.get? (numbered "tmp" k)).any Symbol.isStatic = false) ?_ ⟨rfl, htemps⟩
  · exact hkeeps.1
  · rintro st st' hstep ⟨hsame, hfree⟩
    cases hstep with
    | label => exact ⟨hsame, hfree⟩
    | temp ty =>
      refine ⟨(SymbolTable.staticVars_set (hfree st.temps) ty).trans hsame, fun k => ?_⟩
      rw [Ir.LoweringState.addTemp, Table.get?_set]
      split
      · rfl
      · exact hfree k

/-- What is found for no other name is found for the wanted names. -/
theorem filterMap_eraseDups {α β : Type} [DecidableEq α] (wanted : α → Bool) (f : α → Option β) (xs : List α)
    (h : ∀ x ∈ xs, wanted x = false → f x = none) :
    xs.eraseDups.filterMap f = (xs.filter wanted).eraseDups.filterMap f := by
  induction xs using List.reverseRecOn with
  | nil => rfl
  | append_singleton xs x ih =>
    obtain ⟨hxs, hx⟩ := List.forall_mem_append.1 h
    rw [eraseDups_snoc, List.filter_append]
    cases hw : wanted x with
    | false =>
      have hnone : f x = none := hx x (List.mem_singleton_self x) hw
      rw [List.filter_cons_of_neg (by simp [hw]), List.filter_nil, List.append_nil, ← ih hxs]
      split
      · rfl
      · rw [List.filterMap_append, List.filterMap_cons_none hnone, List.filterMap_nil, List.append_nil]
    | true =>
      have hmem : x ∈ xs.filter wanted ↔ x ∈ xs := by simp [hw]
      rw [List.filter_cons_of_pos hw, List.filter_nil, eraseDups_snoc]
      simp only [hmem]
      split
      · exact ih hxs
      · rw [List.filterMap_append, List.filterMap_append, ih hxs]

namespace Program.Prepares

variable {p r : Program} {T : SymbolTable}

/-- No static variable has the name of a temporary if the text has no static `tmp` in a block. -/
theorem temp_not_static (h : p.Prepares r) (hT : T.Records r.declarations) (htmp : ("tmp", some .static) ∉ p.storages)
    (k : Nat) : (T.get? (numbered "tmp" k)).any Symbol.isStatic = false := by
  by_cases hmem : numbered "tmp" k ∈ T.names
  · rw [hT.names, List.mem_eraseDups, List.mem_map] at hmem
    obtain ⟨d, hd, hname⟩ := hmem
    rw [← hname]
    apply h.get?_not_static hT hd
    by_contra hstatic
    rw [Bool.not_eq_false] at hstatic
    have hown : d.isLinked = false := by
      rw [Bool.eq_false_iff, ne_eq, h.isLinked_iff hd, hname]
      exact not_dotless_numbered "tmp" k
    have hstorage : d.storage = some .static := Declaration.storage_of_static hstatic hown
    obtain ⟨d₀, hd₀, hbecomes⟩ := (exists_of_forall₂ h.becomes).2 d hd
    obtain ⟨n, hn⟩ := hbecomes.numbered (hbecomes.isLinked ▸ hown)
    have hname₀ : d₀.name = "tmp" := (numbered_inj.1 (hn.symm.trans hname)).1
    apply htmp
    rw [← p.entry_declarations, ← hname₀, ← hstorage, hbecomes.storage]
    exact List.mem_map_of_mem hd₀
  · have hnone : T.get? (numbered "tmp" k) = none := by
      rw [Table.mem_names_iff] at hmem
      simpa using hmem
    rw [hnone]
    rfl

/-- The static variables of the table, by the declarations. -/
theorem staticVars_eq (h : p.Prepares r) (hT : T.Records r.declarations) :
    T.staticVars = r.staticNames.filterMap fun x => (T.get? x).bind (Symbol.staticVar? x) := by
  rw [SymbolTable.staticVars_eq hT.nodup, hT.names, Program.staticNames,
    filterMap_eraseDups (fun x => (T.get? x).any Symbol.isStatic), List.filter_map]
  · rw [List.filter_congr]
    intro d hd
    cases hstatic : d.isStatic with
    | true =>
      obtain ⟨ty, isGlobal, hs⟩ := h.get?_static hT hd hstatic
      rw [Function.comp_apply, hs]
      rfl
    | false => exact h.get?_not_static hT hd hstatic
  · intro x _ hx
    cases hs : T.get? x with
    | none => rfl
    | some s =>
      rw [Option.bind_some, Option.eq_none_iff_forall_ne_some]
      intro v hv
      rw [hs, Option.any_some, (Symbol.name_staticVar? hv).2] at hx
      cases hx

theorem mem_staticNames {x : String} : x ∈ r.staticNames ↔ ∃ d ∈ r.declarations, d.isStatic = true ∧ d.name = x := by
  simp [Program.staticNames, and_assoc]

/-- The entries of all static variables. -/
theorem get?_staticName (h : p.Prepares r) (hT : T.Records r.declarations) {x : String} (hx : x ∈ r.staticNames) :
    ∃ ty isGlobal, T.get? x = some ⟨ty, .static (firstInit (declarationsOf x r.declarations)) isGlobal⟩ := by
  obtain ⟨d, hd, hstatic, rfl⟩ := mem_staticNames.1 hx
  exact h.get?_static hT hd hstatic

/-- The static variables of the table, each with the number that its declarations say. -/
theorem map_staticVars (h : p.Prepares r) (hT : T.Records r.declarations) :
    T.staticVars.map (fun v => (v.name, v.init)) = r.staticNames.filterMap fun x =>
      (firstInit (declarationsOf x r.declarations)).start?.map (x, ·) := by
  rw [h.staticVars_eq hT, List.map_filterMap]
  apply List.filterMap_congr
  intro x hx
  obtain ⟨ty, isGlobal, hs⟩ := h.get?_staticName hT hx
  rw [hs, Option.bind_some]
  cases firstInit (declarationsOf x r.declarations) <;> rfl

end Program.Prepares

/-! ## Programs -/

/-- Declarations of static variables are merged, whatever their number and order. Let no linked name have a point in it.

In an accepted program the linked declarations of a variable agree: at most one gives a value, which is a constant, and
the table has what they say together. The program can be lowered, and if no block declares a static `tmp`, the lowered
program lists each static variable that does not live elsewhere once, in the order of the first declarations, with the
value that is given or zero.

And when checking comes to a declaration that gives a second constant to a variable of its type, it refuses it. -/
theorem Program.statics_merge (p : Program) (hdots : ∀ x ∈ p.linkedNames, Dotless x) :
    (∀ q T, p.analyze = .ok (q, T) →
      (∀ d ∈ p.declarations, d.isLinked = true → d.isStatic = true →
        ∃ s, T.get? d.name = some s ∧ Declaration.Merged (linkedOf d.name p.declarations) s) ∧
      (("tmp", some .static) ∉ p.storages → ∃ r ir T', p.prepare = .ok r ∧ q.lower T = .ok (ir, T') ∧
        (∀ x ∈ r.staticNames, ∃ ty isGlobal,
          T.get? x = some ⟨ty, .static (firstInit (declarationsOf x r.declarations)) isGlobal⟩) ∧
        r.staticNames.Nodup ∧ ir.statics.map (fun v => (v.name, v.init)) = r.staticNames.filterMap fun x =>
          (firstInit (declarationsOf x r.declarations)).start?.map (x, ·))) ∧
    ∀ (r : Program) (before after checked : List Decl) (d d₁ : VarDecl) (e : Expr) (T T' : SymbolTable)
      (value : Expr × Int64), p.prepare = .ok r → r.decls = before ++ .var d :: after →
      (checkDecls before).run .empty = .ok (checked, T) →
      .var d₁ ∈ before → d₁.ident.name = d.ident.name → d₁.type.ty = d.type.ty → d₁.init.isSome = true →
      d.init = some e → (Checking.staticInit d.ident.name d.type.ty e).run T = .ok (value, T') →
      r.check = .error (.rejected ⟨.duplicateVariable d.ident.name, d.ident.span⟩) := by
  refine ⟨fun q T ha => ⟨?_, ?_⟩, ?_⟩
  · intro d hd hlinked hstatic
    obtain ⟨r, hprepare, _, hT⟩ := Program.analyze_prepares ha
    have h : p.Prepares r := ⟨hprepare, hdots⟩
    have hx : Dotless d.name := hdots _ (p.mem_linkedNames_of_declaration hd hlinked)
    obtain ⟨d', hd', hbecomes⟩ := (exists_of_forall₂ h.becomes).1 d hd
    have hmem : d' ∈ declarationsOf d.name r.declarations := mem_declarationsOf.2 ⟨hd', hbecomes.name hlinked⟩
    obtain ⟨s, hs, hmerged⟩ := hT.merged (Declaration.isLinked_of_becomes h.becomes hx) hmem
      (hbecomes.isStatic.trans hstatic)
    exact ⟨s, hs, hmerged.of_becomes (Declaration.forall₂_linkedOf h.becomes hx)⟩
  · intro htmp
    obtain ⟨ir, T', hl⟩ := Program.lower_works hdots ha
    obtain ⟨r, hprepare, _, hT⟩ := Program.analyze_prepares ha
    have h : p.Prepares r := ⟨hprepare, hdots⟩
    refine ⟨r, ir, T', hprepare, hl, fun x hx => h.get?_staticName hT hx, nodup_eraseDups _, ?_⟩
    rw [Program.lower_statics hl (h.temp_not_static hT htmp), h.map_staticVars hT]
  · intro r before after checked d d₁ e T T' value hprepare hdecls hbefore hd₁ hname hty hi₁ hi hvalue
    have h : p.Prepares r := ⟨hprepare, hdots⟩
    have hdeclarations : r.declarations =
        before.flatMap Decl.declarations ++ (.top d :: after.flatMap Decl.declarations) := by
      rw [Program.declarations, hdecls, List.flatMap_append, List.flatMap_cons]
      rfl
    have hx : Dotless d.ident.name := (h.isLinked_iff (d := .top d) (by simp [hdeclarations])).1 rfl
    have hlinked : ∀ d' ∈ declarationsOf d.ident.name (before.flatMap Decl.declarations), d'.isLinked = true := by
      intro d' hd'
      obtain ⟨hmem, hname'⟩ := mem_declarationsOf.1 hd'
      rw [h.isLinked_iff (hdeclarations ▸ List.mem_append_left _ hmem), hname']
      exact hx
    rw [Program.check, hdecls, checkDecls_duplicate hbefore hlinked hd₁ hname hty hi₁ hi hvalue]
    rfl

/-- A wide variable that is external, tentative, external in a block and then given a negative number, and a static
variable of the block. -/
def redeclares : Program :=
  ⟨[.var ⟨⟨"x", .nowhere⟩, .long, none, some .external⟩, .var ⟨⟨"y", .nowhere⟩, .int, none, none⟩,
    .fn ⟨⟨"f", .nowhere⟩, [], .int, true, false⟩
      (some [.var ⟨⟨"x", .nowhere⟩, .long, none, some .external⟩, .var ⟨⟨"y", .nowhere⟩, .int, none, some .static⟩,
        .stmt (.ret (some (.int {} 0)) .nowhere)]),
    .var ⟨⟨"x", .nowhere⟩, .long, some (.unary {} .negate (.int {} 5)), none⟩,
    .var ⟨⟨"z", .nowhere⟩, .int, none, some .external⟩]⟩

/-- A variable that is given two numbers. -/
def redefines : Program :=
  ⟨[.var ⟨⟨"x", .nowhere⟩, .int, some (.int {} 5), none⟩, .var ⟨⟨"x", ⟨7, 1⟩⟩, .int, some (.int {} 6), none⟩]⟩

theorem redeclares_merge : (∀ x ∈ redeclares.linkedNames, Dotless x) ∧
    (∃ q T ir T', redeclares.analyze = .ok (q, T) ∧ q.lower T = .ok (ir, T') ∧
      (∃ s, T.get? "x" = some s ∧ Declaration.Merged (linkedOf "x" redeclares.declarations) s) ∧
      ir.statics.map (fun v => (v.name, v.init)) = [("x", -5), ("y", 0), ("y.0", 0)]) ∧
    redefines.prepare = .ok redefines ∧
    redefines.check = .error (.rejected ⟨.duplicateVariable "x", ⟨7, 1⟩⟩) := by
  have hdots : ∀ x ∈ redeclares.linkedNames, Dotless x := by decide
  obtain ⟨haccepted, _⟩ := Program.statics_merge redeclares hdots
  obtain ⟨_, hrefused⟩ := Program.statics_merge redefines (by decide)
  obtain ⟨hentry, hstatics⟩ := haccepted _ _ rfl
  obtain ⟨r, ir, T', hr, hl, _, _, hlist⟩ := hstatics (by decide)
  refine ⟨hdots, ⟨_, _, ir, T', rfl, hl, ?_, ?_⟩, rfl, ?_⟩
  · exact hentry (.top ⟨⟨"x", .nowhere⟩, .long, none, some .external⟩) (.head _) rfl rfl
  · cases hr
    exact hlist
  · exact hrefused redefines [.var ⟨⟨"x", .nowhere⟩, .int, some (.int {} 5), none⟩] [] _
      ⟨⟨"x", ⟨7, 1⟩⟩, .int, some (.int {} 6), none⟩ ⟨⟨"x", .nowhere⟩, .int, some (.int {} 5), none⟩ (.int {} 6) _ _ _
      rfl rfl rfl (.head _) rfl rfl rfl rfl rfl

end Khel
