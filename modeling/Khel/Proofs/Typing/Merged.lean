import Khel.Proofs.Typing.Declared

/-!
# Declarations of one static variable

A variable that is linked may be declared any number of times, at the top level and as an external variable of blocks.
The symbol table keeps what these declarations say together. What they say together does not depend on their order: the
one value that is given, zero if no value is given but some declaration of the top level is not external, and nothing
otherwise.

* `firstInit`: what declarations say together of a first value.
* `Declaration.Merged`: declarations that agree, and the symbol that they make together.
* `Declaration.Lead.merged`: linked declarations of one name agree, and either all or none declare a function.
* `Program.Prepares`: a program before it is checked, in which points tell linked names from the others.
* `checkDecls_duplicate`: a second value is refused.
-/

namespace Khel

/-! ## First values -/

namespace Declaration

/-- The value that a variable is given. -/
def init? : Declaration → Option Expr
  | top d | inner d => d.init
  | function .. | automatic _ => none

/-- The type that a variable is given. -/
def varTy? : Declaration → Option Ty
  | top d | inner d => some d.type.ty
  | function .. | automatic _ => none

/-- Is a variable declared that is kept for the whole run? -/
def isStatic : Declaration → Bool
  | top _ => true
  | inner d => d.storage.isSome
  | function .. | automatic _ => false

/-- The constant that a static variable is given, in the width of its type. One of a block is given zero at least. -/
def value? : Declaration → Option Int64
  | top d => d.value?
  | inner d => if d.storage = some .static then (if d.init.isNone then some 0 else d.value?) else none
  | function .. | automatic _ => none

/-- Does the declaration ask for a variable that is zero unless another declaration gives a value? -/
def isTentative : Declaration → Bool
  | top d => !d.isExternal
  | function .. | inner _ | automatic _ => false

end Declaration

/-- What the declarations of a static variable say together of its first value. -/
def firstInit (ds : List Declaration) : StaticInit :=
  match ds.findSome? Declaration.value? with
  | some v => .value v
  | none => if ds.any Declaration.isTentative then .tentative else .absent

theorem StaticInit.absent_merge? (init : StaticInit) : StaticInit.absent.merge? init = some init := by
  cases init <;> rfl

section FirstInit

variable {ds : List Declaration} {v : Int64}

theorem firstInit_of_some (h : ds.findSome? Declaration.value? = some v) : firstInit ds = .value v := by
  rw [firstInit, h]

theorem firstInit_of_none (h : ds.findSome? Declaration.value? = none) :
    firstInit ds = if ds.any Declaration.isTentative then .tentative else .absent := by
  rw [firstInit, h]

/-- A declaration that says nothing changes nothing. -/
theorem firstInit_snoc_silent {d : Declaration} (hv : d.value? = none) (ht : d.isTentative = false) :
    firstInit (ds ++ [d]) = firstInit ds := by
  simp [firstInit, List.findSome?_append, hv, ht]

/-- Nothing can be given a second value. -/
theorem firstInit_merge_value {merged : StaticInit} (h : (firstInit ds).merge? (.value v) = some merged) :
    ds.findSome? Declaration.value? = none ∧ merged = .value v := by
  cases hv : ds.findSome? Declaration.value? with
  | some w =>
    rw [firstInit_of_some hv] at h
    cases h
  | none =>
    refine ⟨rfl, ?_⟩
    rw [firstInit_of_none hv] at h
    split at h <;> exact (Option.some.inj h).symm

/-- The entry of the table says what the declarations say together, one declaration of the top level after the other. -/
theorem firstInit_snoc_top {d : VarDecl} {init merged : StaticInit} (hsaid : d.Says d.unsaid init)
    (h : (firstInit ds).merge? init = some merged) : merged = firstInit (ds ++ [.top d]) := by
  cases hsaid with
  | value hv =>
    obtain ⟨hnone, rfl⟩ := firstInit_merge_value h
    refine (firstInit_of_some ?_).symm
    rw [List.findSome?_append, hnone, Option.none_or, List.findSome?_singleton]
    exact hv
  | none hi =>
    have hvalue : d.value? = none := by rw [VarDecl.value?, hi, Option.bind_none]
    have hsame : (ds ++ [Declaration.top d]).findSome? Declaration.value? = ds.findSome? Declaration.value? := by
      rw [List.findSome?_append, List.findSome?_singleton, show (Declaration.top d).value? = none from hvalue,
        Option.or_none]
    cases hv : ds.findSome? Declaration.value? with
    | some w =>
      rw [firstInit_of_some hv] at h
      rw [firstInit_of_some (hsame.trans hv)]
      unfold VarDecl.unsaid at h
      split at h <;> exact (Option.some.inj h).symm
    | none =>
      rw [firstInit_of_none hv] at h
      rw [firstInit_of_none (hsame.trans hv), List.any_append, List.any_cons, List.any_nil, Bool.or_false,
        Declaration.isTentative]
      unfold VarDecl.unsaid at h
      cases hx : d.isExternal <;> cases ht : ds.any Declaration.isTentative <;> rw [hx, ht] at h <;>
        exact (Option.some.inj h).symm

end FirstInit

/-! ## Symbols -/

/-- What one more declaration makes of a variable of the top level. -/
theorem VarDecl.symbol_cases {d : VarDecl} {init : StaticInit} {prior : Option Symbol} {s : Symbol}
    (h : d.symbol init prior = .ok s) :
    prior = none ∧ s = ⟨d.type.ty, .static init (d.storage ≠ some .static)⟩ ∨
    ∃ before wasGlobal merged, prior = some ⟨d.type.ty, .static before wasGlobal⟩ ∧ before.merge? init = some merged ∧
      s = ⟨d.type.ty, .static merged (if d.isExternal then wasGlobal else d.storage ≠ some .static)⟩ := by
  unfold VarDecl.symbol at h
  dsimp only at h
  split at h
  · exact .inl ⟨rfl, (Except.ok.inj h).symm⟩
  · next ty before wasGlobal =>
    split at h
    · cases h
    · next hty =>
      split at h
      · next merged hmerged =>
        refine .inr ⟨before, wasGlobal, merged, ?_, hmerged, (Except.ok.inj h).symm⟩
        rw [not_not.1 hty]
      · cases h
  · cases h

theorem Symbol.not_static_of_function {s : Symbol} (h : s.isFunction = true) : s.isStatic = false := by
  obtain ⟨ty, role⟩ := s
  cases role with
  | function => rfl
  | automatic | static => cases h

theorem FnHead.symbol_isFunction {head : FnHead} {hasBody : Bool} {prior : Option Symbol} {s : Symbol}
    (h : head.symbol hasBody prior = .ok s) : s.isFunction = true ∧ prior.all Symbol.isFunction = true := by
  unfold FnHead.symbol at h
  dsimp only at h
  split at h
  · cases h
    exact ⟨rfl, rfl⟩
  · split at h
    · cases h
    · split at h
      · cases h
      · split at h
        · cases h
        · cases h
          exact ⟨rfl, rfl⟩
  · cases h

namespace Declaration

/-- The declarations agree on a static variable, and the symbol says of it what they say together. -/
structure Merged (ds : List Declaration) (s : Symbol) : Prop where
  role : ∃ isGlobal, s.role = .static (firstInit ds) isGlobal
  ty : ∀ d ∈ ds, d.varTy? = some s.ty
  /-- What is given is a constant. -/
  constant : ∀ d ∈ ds, d.init?.isSome = true → d.value?.isSome = true
  once : ds.countP (·.init?.isSome) ≤ 1

namespace Merged

variable {ds : List Declaration} {s : Symbol}

theorem not_function (h : Merged ds s) : s.isFunction = false := by
  obtain ⟨isGlobal, hrole⟩ := h.role
  rw [Symbol.isFunction, hrole]

theorem silent {d : Declaration} (h : Merged ds s) (hi : d.init? = none) (hv : d.value? = none)
    (ht : d.isTentative = false) (hty : d.varTy? = some s.ty) : Merged (ds ++ [d]) s := by
  constructor
  · rw [firstInit_snoc_silent hv ht]
    exact h.role
  · exact List.forall_mem_append.2 ⟨h.ty, by simpa using hty⟩
  · exact List.forall_mem_append.2 ⟨h.constant, by simp [hi]⟩
  · rw [List.countP_append, List.countP_singleton, hi]
    exact h.once

end Merged

/-- Declarations of which none gives a constant give nothing at all, if only constants are given. -/
theorem countP_eq_zero {ds : List Declaration} (hconstant : ∀ d ∈ ds, d.init?.isSome = true → d.value?.isSome = true)
    (hnone : ds.findSome? value? = none) : ds.countP (·.init?.isSome) = 0 := by
  rw [List.countP_eq_zero]
  intro d hd hi
  have hvalue := hconstant d hd hi
  rw [List.findSome?_eq_none_iff.1 hnone d hd] at hvalue
  cases hvalue

/-- One more declaration of the top level, behind declarations that agree. -/
theorem Merged.top {ds : List Declaration} {d : VarDecl} {init merged : StaticInit} (hsaid : d.Says d.unsaid init)
    (hmerge : (firstInit ds).merge? init = some merged) (hty : ∀ e ∈ ds, e.varTy? = some d.type.ty)
    (hconstant : ∀ e ∈ ds, e.init?.isSome = true → e.value?.isSome = true) (honce : ds.countP (·.init?.isSome) ≤ 1)
    (isGlobal : Bool) : Merged (ds ++ [.top d]) ⟨d.type.ty, .static merged isGlobal⟩ := by
  constructor
  · exact ⟨isGlobal, by rw [firstInit_snoc_top hsaid hmerge]⟩
  · exact List.forall_mem_append.2 ⟨hty, by simp [varTy?]⟩
  · refine List.forall_mem_append.2 ⟨hconstant, List.forall_mem_singleton.2 fun hi => ?_⟩
    cases hsaid with
    | none hnone => rw [init?, hnone] at hi; cases hi
    | value hv => exact Option.isSome_iff_exists.2 ⟨_, hv⟩
  · rw [List.countP_append, List.countP_singleton]
    cases hsaid with
    | none hnone => simpa [init?, hnone] using honce
    | value hv =>
      rw [countP_eq_zero hconstant (firstInit_merge_value hmerge).1]
      split <;> simp

/-- An external variable of a block says nothing of a value. -/
theorem silent_of_external {d : VarDecl} (hd : d.storage = some .external) :
    (inner d).value? = none ∧ (inner d).isTentative = false := by
  refine ⟨?_, rfl⟩
  rw [value?, hd]
  exact if_neg (by simp)

/-- The first declaration of a linked variable. -/
theorem Makes.merged_first {d : Declaration} {s : Symbol} (hs : d.Makes none s) (hlinked : d.isLinked = true)
    (hvar : d.isStatic = true) : Merged [d] s := by
  cases hs with
  | function h => cases hvar
  | top hsaid h =>
    obtain ⟨_, rfl⟩ | ⟨_, _, _, hprior, _⟩ := VarDecl.symbol_cases h
    · have hmerge : ∀ init, (firstInit []).merge? init = some init := StaticInit.absent_merge?
      exact Merged.top hsaid (hmerge _) (by simp) (by simp) (by simp) _
    · cases hprior
  | found hd hi hprior => cases hprior
  | @external d hd hi =>
    obtain ⟨hv, ht⟩ := silent_of_external hd
    have hinit : firstInit ([] ++ [inner d]) = .absent := firstInit_snoc_silent hv ht
    refine ⟨⟨true, ?_⟩, by simp [varTy?], by simp [init?, hi], by simp [init?, hi]⟩
    rw [← List.nil_append [inner d], hinit]
  | static hd => simp [isLinked, storage, hd] at hlinked
  | plain hd => simp [isLinked, storage, hd] at hlinked
  | automatic => cases hlinked

/-- One more declaration of a linked variable. -/
theorem Makes.merged_next {ds : List Declaration} {d : Declaration} {prior s : Symbol} (hprior : Merged ds prior)
    (hs : d.Makes (some prior) s) (hlinked : d.isLinked = true) : Merged (ds ++ [d]) s := by
  cases hs with
  | function h =>
    have hfn := (FnHead.symbol_isFunction h).2
    rw [Option.all_some, hprior.not_function] at hfn
    cases hfn
  | top hsaid h =>
    obtain ⟨hnone, _⟩ | ⟨before, wasGlobal, merged, heq, hmerge, rfl⟩ := VarDecl.symbol_cases h
    · cases hnone
    · cases heq
      obtain ⟨isGlobal, hrole⟩ := hprior.role
      cases hrole
      exact Merged.top hsaid hmerge hprior.ty hprior.constant hprior.once _
  | found hd hi heq hfn hty =>
    cases heq
    obtain ⟨hv, ht⟩ := silent_of_external hd
    exact hprior.silent hi hv ht (congrArg some hty.symm)
  | external hd hi heq => cases heq
  | static hd => simp [isLinked, storage, hd] at hlinked
  | plain hd => simp [isLinked, storage, hd] at hlinked
  | automatic => cases hlinked

/-- The first declaration of a linked function. -/
theorem Makes.function_first {d : Declaration} {prior : Option Symbol} {s : Symbol} (hs : d.Makes prior s)
    (hlinked : d.isLinked = true) (hfn : d.isStatic = false) : s.isFunction = true := by
  cases hs with
  | function h => exact (FnHead.symbol_isFunction h).1
  | top => cases hfn
  | found hd | external hd | static hd => simp [isStatic, hd] at hfn
  | plain hd => simp [isLinked, storage, hd] at hlinked
  | automatic => cases hlinked

/-- The next declaration of a linked function. -/
theorem Makes.function_next {d : Declaration} {prior s : Symbol} (hprior : prior.isFunction = true)
    (hs : d.Makes (some prior) s) (hlinked : d.isLinked = true) : s.isFunction = true ∧ d.isStatic = false := by
  cases hs with
  | function h => exact ⟨(FnHead.symbol_isFunction h).1, rfl⟩
  | top hsaid h =>
    obtain ⟨hnone, _⟩ | ⟨_, _, _, heq, _⟩ := VarDecl.symbol_cases h
    · cases hnone
    · cases heq
      cases hprior
  | found hd hi heq hfn =>
    cases heq
    rw [hprior] at hfn
    cases hfn
  | external hd hi heq => cases heq
  | static hd => simp [isLinked, storage, hd] at hlinked
  | plain hd => simp [isLinked, storage, hd] at hlinked
  | automatic => cases hlinked

theorem Lead.eq_nil {ds : List Declaration} (h : Lead ds none) : ds = [] := by
  cases h
  rfl

/-- Linked declarations of one name all declare a function, or they agree on a static variable. -/
theorem Lead.merged {ds : List Declaration} {s? : Option Symbol} (h : Lead ds s?)
    (hlinked : ∀ d ∈ ds, d.isLinked = true) :
    ∀ s, s? = some s → s.isFunction = true ∧ (∀ d ∈ ds, d.isStatic = false) ∨ Merged ds s := by
  induction h with
  | nil => simp
  | @snoc ds prior d s h hs ih =>
    rintro _ ⟨⟩
    obtain ⟨hds, hd⟩ := List.forall_mem_append.1 hlinked
    replace hd : d.isLinked = true := hd d (List.mem_singleton_self d)
    cases prior with
    | none =>
      cases h.eq_nil
      cases hvar : d.isStatic with
      | true => exact .inr (hs.merged_first hd hvar)
      | false => exact .inl ⟨hs.function_first hd hvar, List.forall_mem_singleton.2 hvar⟩
    | some prior =>
      rcases ih hds prior rfl with ⟨hfn, hall⟩ | hmerged
      · obtain ⟨hfn', hd'⟩ := hs.function_next hfn hd
        exact .inl ⟨hfn', List.forall_mem_append.2 ⟨hall, List.forall_mem_singleton.2 hd'⟩⟩
      · exact .inr (hs.merged_next hmerged hd)

end Declaration

/-! ## Declarations of the text -/

theorem Expr.constant?_shape : ∀ e : Expr, e.shape.constant? = e.constant?
  | .int .. | .long .. | .str .. | .var .. | .call .. | .unary _ .logicalNot _ | .binary .. | .assign .. | .cond ..
  | .range .. => rfl
  | .unary _ .negate a | .unary _ .complement a | .cast _ _ a => by
    rw [Expr.shape, Expr.constant?, Expr.constant?, a.constant?_shape]

theorem VarDecl.value?_map_shape (d : VarDecl) : VarDecl.value? { d with init := d.init.map Expr.shape } = d.value? := by
  unfold VarDecl.value?
  cases hi : d.init with
  | none => rfl
  | some e =>
    dsimp only [Option.map_some, Option.bind_some]
    rw [e.constant?_shape]

namespace Declaration

/-- What declarations say of types and values is a matter of their shape. -/
theorem of_shape (d : Declaration) : d.shape.value? = d.value? ∧ d.shape.isTentative = d.isTentative ∧
    d.shape.init?.isSome = d.init?.isSome ∧ d.shape.varTy? = d.varTy? ∧ d.shape.isStatic = d.isStatic := by
  cases d with
  | function | automatic => exact ⟨rfl, rfl, rfl, rfl, rfl⟩
  | top d =>
    refine ⟨d.value?_map_shape, rfl, ?_, rfl, rfl⟩
    simp [shape, init?]
  | inner d =>
    by_cases hx : d.isExternal
    · have hsame : d.shape = d := by rw [VarDecl.shape, if_pos hx]
      simp only [shape, hsame, and_self]
    · have hshape : d.shape = { d with ident := d.ident.shape, init := d.init.map Expr.shape } := by
        rw [VarDecl.shape, if_neg hx]
      refine ⟨?_, rfl, ?_, ?_, ?_⟩
      · simp only [shape, value?, hshape, Option.isNone_map]
        rw [← d.value?_map_shape]
        rfl
      · simp [shape, init?, hshape]
      · simp [shape, varTy?, hshape]
      · simp [shape, isStatic, hshape]

end Declaration

/-- The linked declarations of a name. -/
def linkedOf (x : String) (ds : List Declaration) : List Declaration := ds.filter fun d => d.isLinked && d.name = x

namespace Declaration

section Becomes

variable {d d' : Declaration} {ds ds' : List Declaration} {x : String}

theorem Becomes.value? (h : d.Becomes d') : d'.value? = d.value? := by
  rw [← d'.of_shape.1, h.shape, d.of_shape.1]

theorem Becomes.isTentative (h : d.Becomes d') : d'.isTentative = d.isTentative := by
  rw [← d'.of_shape.2.1, h.shape, d.of_shape.2.1]

theorem Becomes.isSome_init? (h : d.Becomes d') : d'.init?.isSome = d.init?.isSome := by
  rw [← d'.of_shape.2.2.1, h.shape, d.of_shape.2.2.1]

theorem Becomes.varTy? (h : d.Becomes d') : d'.varTy? = d.varTy? := by
  rw [← d'.of_shape.2.2.2.1, h.shape, d.of_shape.2.2.2.1]

theorem Becomes.isStatic (h : d.Becomes d') : d'.isStatic = d.isStatic := by
  rw [← d'.of_shape.2.2.2.2, h.shape, d.of_shape.2.2.2.2]

/-- A name without a point is declared by linked declarations only. -/
theorem isLinked_of_becomes (h : List.Forall₂ Becomes ds ds') (hx : Dotless x) :
    ∀ d' ∈ declarationsOf x ds', d'.isLinked = true := by
  intro d' hd'
  obtain ⟨hmem, rfl⟩ := mem_declarationsOf.1 hd'
  obtain ⟨d, _, hbecomes⟩ := (exists_of_forall₂ h).2 d' hmem
  rw [hbecomes.isLinked, hbecomes.isLinked_of_dotless hx]

/-- The declarations of such a name are the linked ones of the text. -/
theorem forall₂_linkedOf (h : List.Forall₂ Becomes ds ds') (hx : Dotless x) :
    List.Forall₂ Becomes (linkedOf x ds) (declarationsOf x ds') := by
  induction h with
  | nil => exact .nil
  | @cons d d' ds ds' hd _ ih =>
    have hsame : (d.isLinked && d.name = x) = (d'.name = x : Bool) := by
      cases hl : d.isLinked with
      | true => rw [Bool.true_and, hd.name hl]
      | false =>
        obtain ⟨n, hn⟩ := hd.numbered hl
        rw [Bool.false_and, hn, eq_comm, decide_eq_false_iff_not]
        exact fun h => hx.ne_numbered _ _ h.symm
    rw [linkedOf, declarationsOf, List.filter_cons, List.filter_cons, hsame]
    split
    · exact .cons hd ih
    · exact ih

theorem firstInit_congr (h : List.Forall₂ Becomes ds ds') : firstInit ds' = firstInit ds := by
  have hvalue : ds'.findSome? Declaration.value? = ds.findSome? Declaration.value? := by
    induction h with
    | nil => rfl
    | cons hd _ ih => rw [List.findSome?_cons, List.findSome?_cons, hd.value?, ih]
  have htentative : ds'.any Declaration.isTentative = ds.any Declaration.isTentative := by
    clear hvalue
    induction h with
    | nil => rfl
    | cons hd _ ih => rw [List.any_cons, List.any_cons, hd.isTentative, ih]
  rw [firstInit, firstInit, hvalue, htentative]

/-- Declarations that agree when a program is checked agree in its text. -/
theorem Merged.of_becomes {s : Symbol} (hmerged : Merged ds' s) (h : List.Forall₂ Becomes ds ds') : Merged ds s := by
  have hto := (exists_of_forall₂ h).1
  constructor
  · rw [← firstInit_congr h]
    exact hmerged.role
  · intro d hd
    obtain ⟨d', hd', hbecomes⟩ := hto d hd
    rw [← hbecomes.varTy?, hmerged.ty d' hd']
  · intro d hd
    obtain ⟨d', hd', hbecomes⟩ := hto d hd
    rw [← hbecomes.isSome_init?, ← hbecomes.value?]
    exact hmerged.constant d' hd'
  · have hcount : ds'.countP (·.init?.isSome) = ds.countP (·.init?.isSome) := by
      clear hmerged hto
      induction h with
      | nil => rfl
      | cons hd _ ih => rw [List.countP_cons, List.countP_cons, hd.isSome_init?, ih]
    rw [← hcount]
    exact hmerged.once

end Becomes

end Declaration

/-! ## Tables -/

namespace Declaration

theorem varTy?_eq_none {d : Declaration} (hlinked : d.isLinked = true) (hstatic : d.isStatic = false) :
    d.varTy? = none := by
  cases d with
  | function => rfl
  | top => cases hstatic
  | inner d =>
    have hd : d.storage = some .external := of_decide_eq_true hlinked
    simp [isStatic, hd] at hstatic
  | automatic => cases hlinked

end Declaration

namespace SymbolTable.Records

variable {T : SymbolTable} {ds : List Declaration} {x : String} {d : Declaration}

/-- A name that only linked declarations name stands for a function, or for what they say together. -/
theorem linked (h : T.Records ds) (hlinked : ∀ d ∈ declarationsOf x ds, d.isLinked = true)
    (hd : d ∈ declarationsOf x ds) : ∃ s, T.get? x = some s ∧
      (s.isFunction = true ∧ (∀ d ∈ declarationsOf x ds, d.isStatic = false) ∨
        Declaration.Merged (declarationsOf x ds) s) := by
  have hlead := h.lead x
  cases hs : T.get? x with
  | none =>
    rw [hs] at hlead
    rw [hlead.eq_nil] at hd
    cases hd
  | some s => exact ⟨s, rfl, hlead.merged hlinked s hs⟩

/-- It is a static variable if one declaration says so. -/
theorem merged (h : T.Records ds) (hlinked : ∀ d ∈ declarationsOf x ds, d.isLinked = true)
    (hd : d ∈ declarationsOf x ds) (hstatic : d.isStatic = true) :
    ∃ s, T.get? x = some s ∧ Declaration.Merged (declarationsOf x ds) s := by
  obtain ⟨s, hs, ⟨_, hall⟩ | hmerged⟩ := h.linked hlinked hd
  · rw [hall d hd] at hstatic
    cases hstatic
  · exact ⟨s, hs, hmerged⟩

/-- It is a function if one declaration declares no variable. -/
theorem function (h : T.Records ds) (hlinked : ∀ d ∈ declarationsOf x ds, d.isLinked = true)
    (hd : d ∈ declarationsOf x ds) (hstatic : d.isStatic = false) : ∃ s, T.get? x = some s ∧ s.isFunction = true := by
  obtain ⟨s, hs, ⟨hfn, _⟩ | hmerged⟩ := h.linked hlinked hd
  · exact ⟨s, hs, hfn⟩
  · have hty := hmerged.ty d hd
    rw [Declaration.varTy?_eq_none (hlinked d hd) hstatic] at hty
    cases hty

end SymbolTable.Records

/-! ## Prepared programs -/

/-- The program `p` is prepared as `r`, and no linked name has a point in it. -/
structure Program.Prepares (p r : Program) : Prop where
  prepare : p.prepare = .ok r
  dotless : ∀ x ∈ p.linkedNames, Dotless x

namespace Program.Prepares

variable {p r : Program} {T : SymbolTable} {d : Declaration}

theorem becomes (h : p.Prepares r) : List.Forall₂ Declaration.Becomes p.declarations r.declarations :=
  (p.prepare_declarations.of_ok h.prepare).1

/-- Points tell linked names from the others. -/
theorem isLinked_iff (h : p.Prepares r) (hd : d ∈ r.declarations) : d.isLinked = true ↔ Dotless d.name := by
  obtain ⟨d₀, hd₀, hbecomes⟩ := (exists_of_forall₂ h.becomes).2 d hd
  constructor
  · intro hl
    have hl₀ : d₀.isLinked = true := hbecomes.isLinked ▸ hl
    rw [hbecomes.name hl₀]
    exact h.dotless _ (p.mem_linkedNames_of_declaration hd₀ hl₀)
  · intro hx
    rw [hbecomes.isLinked, hbecomes.isLinked_of_dotless hx]

/-- The name of a declared function is that of a function. -/
theorem get?_function (h : p.Prepares r) (hT : T.Records r.declarations) (hd : d ∈ r.declarations)
    (hl : d.isLinked = true) (hstatic : d.isStatic = false) : (T.get? d.name).any Symbol.isFunction = true := by
  have hx : Dotless d.name := (h.isLinked_iff hd).1 hl
  obtain ⟨s, hs, hfn⟩ := hT.function (Declaration.isLinked_of_becomes h.becomes hx) (mem_declarationsOf.2 ⟨hd, rfl⟩)
    hstatic
  rw [hs]
  exact hfn

end Program.Prepares

/-! ## Second values -/

theorem checkDecls_append (ds ds' : List Decl) :
    checkDecls (ds ++ ds') = (do return (← checkDecls ds) ++ (← checkDecls ds')) := by
  induction ds with
  | nil => simp [checkDecls]
  | cons d ds ih => simp [checkDecls, ih]

/-- A variable that has a value already cannot be given another one. -/
theorem Decl.check_duplicate {d : VarDecl} {e : Expr} {r : Expr × Int64} {T : SymbolTable} {v : Int64} {isGlobal : Bool}
    (hi : d.init = some e) (hr : (Checking.staticInit d.ident.name d.type.ty e).run T = .ok (r, T))
    (hprior : T.get? d.ident.name = some ⟨d.type.ty, .static (.value v) isGlobal⟩) :
    (Decl.var d).check.run T = .error (.rejected ⟨.duplicateVariable d.ident.name, d.ident.span⟩) := by
  rw [Decl.check_valued hi, Checking.run_bind hr]
  have hsymbol : d.symbol (.value r.2) (T.get? d.ident.name) =
      .error ⟨.duplicateVariable d.ident.name, d.ident.span⟩ := by
    rw [hprior]
    exact if_neg (fun h => h rfl)
  have henter : (d.enter (.value r.2)).run T =
      .error (.rejected ⟨.duplicateVariable d.ident.name, d.ident.span⟩) := by
    show (liftM (d.symbol (.value r.2) (T.get? d.ident.name)) >>= Checking.enter d.ident.name : Checking Unit).run T = _
    rw [hsymbol]
    rfl
  rw [StateT.run_bind, henter]
  rfl

/-- Checking stops at the second declaration of the top level that gives a constant to a variable of one type. -/
theorem checkDecls_duplicate {before after checked : List Decl} {T T' : SymbolTable} {d d₁ : VarDecl} {e : Expr}
    {r : Expr × Int64} (hbefore : (checkDecls before).run .empty = .ok (checked, T))
    (hlinked : ∀ d' ∈ declarationsOf d.ident.name (before.flatMap Decl.declarations), d'.isLinked = true)
    (hd₁ : .var d₁ ∈ before) (hname : d₁.ident.name = d.ident.name) (hty : d₁.type.ty = d.type.ty)
    (hi₁ : d₁.init.isSome = true) (hi : d.init = some e)
    (hr : (Checking.staticInit d.ident.name d.type.ty e).run T = .ok (r, T')) :
    (checkDecls (before ++ .var d :: after)).run .empty =
      .error (.rejected ⟨.duplicateVariable d.ident.name, d.ident.span⟩) := by
  have hrecords : T.Records (before.flatMap Decl.declarations) :=
    (checkDecls_declares before .empty [] .nil).of_ok hbefore
  have hmem : Declaration.top d₁ ∈ declarationsOf d.ident.name (before.flatMap Decl.declarations) :=
    mem_declarationsOf.2 ⟨List.mem_flatMap.2 ⟨_, hd₁, List.mem_singleton_self _⟩, hname⟩
  obtain ⟨⟨ty, role⟩, hs, hmerged⟩ := hrecords.merged hlinked hmem rfl
  obtain ⟨isGlobal, hrole⟩ := hmerged.role
  -- The first of the two declarations has told the value.
  obtain ⟨v, hv⟩ : ∃ v, (declarationsOf d.ident.name (before.flatMap Decl.declarations)).findSome? Declaration.value? =
      some v := by
    rw [← Option.isSome_iff_exists, List.isSome_findSome?, List.any_eq_true]
    exact ⟨_, hmem, hmerged.constant _ hmem hi₁⟩
  have hsame : T' = T := ((Checking.staticInit_value hi T).of_ok hr).1
  subst hsame
  have hprior : T'.get? d.ident.name = some ⟨d.type.ty, .static (.value v) isGlobal⟩ := by
    have hty' : some d₁.type.ty = some ty := hmerged.ty _ hmem
    rw [hs, ← hty, Option.some.inj hty', ← firstInit_of_some hv, ← hrole]
  rw [checkDecls_append, Checking.run_bind hbefore, checkDecls, StateT.run_bind, StateT.run_bind,
    Decl.check_duplicate hi hr hprior]
  rfl

end Khel
