import Khel.Proofs.Typing.Merged
import Mathlib.Data.List.DropRight

/-!
# Declarations of one function

A function may be declared any number of times: ahead of its definition, with its body, and as one that lives elsewhere.
All these declarations give it one type, and it is seen from outside if one of them says so. That it has a body is
forgotten at a declaration that says that the function lives elsewhere; so it is defined exactly if a declaration behind
the last one of these has a body.

* `Prototype`: what one declaration says of a function.
* `FnHead.symbol_cases`, `Declaration.Lead.prototyped`: one declaration more, and all declarations of a name.
* `Program.functions_merge`: the functions in the table of an accepted program.
-/

namespace Khel

/-! ## Prototypes -/

/-- What a declaration says of a function. -/
structure Prototype where
  ty : Ty
  hasBody : Bool
  isPublic : Bool
  isExternal : Bool

namespace Declaration

/-- What the declaration says, if it declares a function. -/
def prototype? : Declaration → Option Prototype
  | function head hasBody => some ⟨head.ty, hasBody, head.isPublic, head.isExternal⟩
  | top _ | inner _ | automatic _ => none

theorem prototype?_shape (d : Declaration) : d.shape.prototype? = d.prototype? := by
  cases d with
  | function head hasBody => simp [shape, prototype?, FnHead.ty]
  | top | inner | automatic => rfl

end Declaration

/-- What the declarations of a name say of a function, in order. -/
def prototypesOf (x : String) (ds : List Declaration) : List Prototype :=
  (declarationsOf x ds).filterMap Declaration.prototype?

theorem prototypesOf_cons (x : String) (d : Declaration) (ds : List Declaration) :
    prototypesOf x (d :: ds) = (if d.name = x then d.prototype?.toList else []) ++ prototypesOf x ds := by
  rw [prototypesOf, prototypesOf, declarationsOf, declarationsOf, List.filter_cons]
  by_cases hx : d.name = x
  · cases hd : d.prototype? <;> simp [hx, hd]
  · simp [hx]

/-- Preparing a program changes nothing of what it says of functions. -/
theorem prototypesOf_becomes {ds ds' : List Declaration} (h : List.Forall₂ Declaration.Becomes ds ds') (x : String) :
    prototypesOf x ds' = prototypesOf x ds := by
  induction h with
  | nil => rfl
  | @cons d d' ds ds' hd _ ih =>
    have hsame : d'.prototype? = d.prototype? := by
      rw [← d'.prototype?_shape, hd.shape, d.prototype?_shape]
    rw [prototypesOf_cons, prototypesOf_cons, ih, hsame]
    cases d with
    | function head hasBody => rw [hd.name rfl]
    | top | inner | automatic => simp [Declaration.prototype?]

/-! ## What they say together -/

/-- Is the function with these declarations defined? -/
def definesFunction (ps : List Prototype) : Bool := (ps.rtakeWhile (!·.isExternal)).any (·.hasBody)

/-- Is it seen from outside? -/
def exportsFunction (ps : List Prototype) : Bool := ps.any fun f => f.isPublic || f.isExternal

theorem definesFunction_snoc (ps : List Prototype) (f : Prototype) :
    definesFunction (ps ++ [f]) = ((f.hasBody || definesFunction ps) && !f.isExternal) := by
  rw [definesFunction, List.rtakeWhile_concat]
  cases f.isExternal with
  | false => simp [definesFunction, Bool.or_comm]
  | true => simp

theorem exportsFunction_snoc (ps : List Prototype) (f : Prototype) :
    exportsFunction (ps ++ [f]) = (f.isPublic || f.isExternal || exportsFunction ps) := by
  simp [exportsFunction, Bool.or_comm]

/-- A function is defined if one of its declarations has a body, and neither this one nor a later one says that the
function lives elsewhere. -/
theorem definesFunction_iff {ps : List Prototype} : definesFunction ps = true ↔
    ∃ before f after, ps = before ++ f :: after ∧ f.hasBody = true ∧ ∀ g ∈ f :: after, g.isExternal = false := by
  induction ps using List.reverseRecOn with
  | nil => simp [definesFunction]
  | append_singleton ps last ih =>
    rw [definesFunction_snoc, Bool.and_eq_true, Bool.or_eq_true, ih, Bool.not_eq_true']
    constructor
    · rintro ⟨hbody | ⟨before, f, after, rfl, hbody, hlocal⟩, hlast⟩
      · exact ⟨ps, last, [], rfl, hbody, by simpa using hlast⟩
      · refine ⟨before, f, after ++ [last], by simp, hbody, ?_⟩
        intro g hg
        rcases List.mem_append.1 (show g ∈ (f :: after) ++ [last] by simpa using hg) with hg | hg
        · exact hlocal g hg
        · exact List.mem_singleton.1 hg ▸ hlast
    · rintro ⟨before, f, after, heq, hbody, hlocal⟩
      cases after using List.reverseRecOn with
      | nil =>
        obtain ⟨rfl, rfl⟩ : ps = before ∧ last = f := by simpa using heq
        exact ⟨.inl hbody, hlocal _ (by simp)⟩
      | append_singleton after last' _ =>
        obtain ⟨rfl, rfl⟩ : ps = before ++ f :: after ∧ last = last' := by
          rw [← List.cons_append, ← List.append_assoc] at heq
          simpa using List.append_inj' heq rfl
        exact ⟨.inr ⟨before, f, after, rfl, hbody, fun g hg => hlocal g (by simp at hg ⊢; tauto)⟩,
          hlocal _ (by simp)⟩

/-! ## Symbols -/

/-- What one more declaration makes of a function. -/
theorem FnHead.symbol_cases {head : FnHead} {hasBody : Bool} {prior : Option Symbol} {s : Symbol}
    (h : head.symbol hasBody prior = .ok s) :
    prior = none ∧ s = ⟨head.ty, .function (hasBody && !head.isExternal) (head.isPublic || head.isExternal)⟩ ∨
    ∃ wasDefined wasGlobal, prior = some ⟨head.ty, .function wasDefined wasGlobal⟩ ∧
      s = ⟨head.ty, .function ((hasBody || wasDefined) && !head.isExternal)
        (head.isPublic || head.isExternal || wasGlobal)⟩ := by
  unfold FnHead.symbol at h
  dsimp only at h
  split at h
  · exact .inl ⟨rfl, (Except.ok.inj h).symm⟩
  · next ty wasDefined wasGlobal =>
    split at h
    · cases h
    · split at h
      · cases h
      · split at h
        · cases h
        · next hty =>
          refine .inr ⟨wasDefined, wasGlobal, ?_, (Except.ok.inj h).symm⟩
          rw [not_not.1 hty]
  · cases h

namespace Declaration

/-- The symbol is that of a function, and it says of it what its declarations say together. -/
structure Prototyped (ds : List Declaration) (s : Symbol) : Prop where
  ty : ∀ d ∈ ds, d.prototype?.map Prototype.ty = some s.ty
  role : s.role = .function (definesFunction (ds.filterMap prototype?)) (exportsFunction (ds.filterMap prototype?))

/-- One declaration more of a function. -/
theorem Prototyped.snoc {ds : List Declaration} {head : FnHead} {hasBody : Bool}
    (hty : ∀ d ∈ ds, d.prototype?.map Prototype.ty = some head.ty) :
    Prototyped (ds ++ [function head hasBody]) ⟨head.ty, .function
      ((hasBody || definesFunction (ds.filterMap prototype?)) && !head.isExternal)
      (head.isPublic || head.isExternal || exportsFunction (ds.filterMap prototype?))⟩ := by
  constructor
  · exact List.forall_mem_append.2 ⟨hty, by simp [prototype?]⟩
  · rw [List.filterMap_append, List.filterMap_cons, List.filterMap_nil]
    simp only [prototype?, definesFunction_snoc, exportsFunction_snoc]

/-- A declaration that makes a function declares one. -/
theorem Makes.prototyped {ds : List Declaration} {prior : Option Symbol} {d : Declaration} {s : Symbol}
    (hs : d.Makes prior s) (hfn : s.isFunction = true) (hfirst : prior = none → ds = [])
    (hprior : ∀ s₀, prior = some s₀ → s₀.isFunction = true → Prototyped ds s₀) : Prototyped (ds ++ [d]) s := by
  cases hs with
  | @function head hasBody s h =>
    obtain ⟨hnone, rfl⟩ | ⟨wasDefined, wasGlobal, hsome, rfl⟩ := FnHead.symbol_cases h
    · rw [hfirst hnone]
      have hone := @Prototyped.snoc [] head hasBody (by simp)
      simpa [definesFunction, exportsFunction] using hone
    · obtain ⟨hty, hrole⟩ := hprior _ hsome rfl
      cases hrole
      exact .snoc hty
  | top _ h =>
    obtain ⟨_, rfl⟩ | ⟨_, _, _, _, _, rfl⟩ := VarDecl.symbol_cases h <;> cases hfn
  | found _ _ _ hvar =>
    rw [hvar] at hfn
    cases hfn
  | external | static | plain | automatic => cases hfn

/-- All declarations of a name that stands for a function. -/
theorem Lead.prototyped {ds : List Declaration} {s? : Option Symbol} (h : Lead ds s?) :
    ∀ s, s? = some s → s.isFunction = true → Prototyped ds s := by
  induction h with
  | nil => exact nofun
  | @snoc ds prior d s h hs ih =>
    rintro _ ⟨⟩ hfn
    apply hs.prototyped hfn _ ih
    rintro rfl
    exact h.eq_nil

end Declaration

/-! ## Programs -/

/-- Function declarations are merged, whatever their number and order. Let no linked name have a point in it.

In the table of an accepted program every declared function has the type that each of its declarations gives it. It is
seen from outside exactly if one of them is public or external. It is defined exactly if one of them has a body, and
neither this one nor a later one is external. -/
theorem Program.functions_merge {p q : Program} {T : SymbolTable} (h : p.analyze = .ok (q, T))
    (hdots : ∀ x ∈ p.linkedNames, Dotless x) {head : FnHead} {hasBody : Bool}
    (hd : .function head hasBody ∈ p.declarations) :
    ∃ isDefined isGlobal, T.get? head.ident.name = some ⟨head.ty, .function isDefined isGlobal⟩ ∧
      (isDefined = true ↔ ∃ before f after, prototypesOf head.ident.name p.declarations = before ++ f :: after ∧
        f.hasBody = true ∧ ∀ g ∈ f :: after, g.isExternal = false) ∧
      (isGlobal = true ↔ ∃ f ∈ prototypesOf head.ident.name p.declarations,
        f.isPublic = true ∨ f.isExternal = true) := by
  obtain ⟨r, hprepare, _, hT⟩ := Program.analyze_prepares h
  have hprepares : p.Prepares r := ⟨hprepare, hdots⟩
  obtain ⟨d', hd', hbecomes⟩ := (exists_of_forall₂ hprepares.becomes).1 _ hd
  have hname : d'.name = head.ident.name := hbecomes.name rfl
  -- A name without a point that a function bears stands for a function.
  obtain ⟨⟨ty, role⟩, hs, hfn⟩ : ∃ s, T.get? head.ident.name = some s ∧ s.isFunction = true := by
    have hany := hprepares.get?_function hT hd' hbecomes.isLinked hbecomes.isStatic
    rw [hname] at hany
    exact (Option.any_eq_true _ _).1 hany
  obtain ⟨hty, hrole⟩ := (hT.lead head.ident.name).prototyped _ hs hfn
  obtain rfl : head.ty = ty := by
    have hsame : d'.prototype? = some ⟨head.ty, hasBody, head.isPublic, head.isExternal⟩ := by
      rw [← d'.prototype?_shape, hbecomes.shape, Declaration.prototype?_shape]
      rfl
    simpa [hsame] using hty d' (mem_declarationsOf.2 ⟨hd', hname⟩)
  replace hrole : role = .function (definesFunction (prototypesOf head.ident.name p.declarations))
      (exportsFunction (prototypesOf head.ident.name p.declarations)) := by
    rw [← prototypesOf_becomes hprepares.becomes]
    exact hrole
  refine ⟨_, _, hrole ▸ hs, definesFunction_iff, ?_⟩
  simp [exportsFunction]

/-- A function that is declared first, then defined as a public one, and at last declared to live elsewhere; and one
that is declared to live elsewhere before it is defined. -/
def redeclaredFunctions : Program :=
  ⟨[.fn ⟨⟨"f", .nowhere⟩, [⟨⟨"a", .nowhere⟩, .long⟩], .int, false, false⟩ none,
    .fn ⟨⟨"f", .nowhere⟩, [⟨⟨"b", .nowhere⟩, .long⟩], .int, true, false⟩
      (some [.stmt (.ret (some (.int {} 1)) .nowhere)]),
    .fn ⟨⟨"f", .nowhere⟩, [⟨⟨"c", .nowhere⟩, .long⟩], .int, false, true⟩ none,
    .fn ⟨⟨"g", .nowhere⟩, [], .int, false, true⟩ none,
    .fn ⟨⟨"g", .nowhere⟩, [], .int, false, false⟩ (some [])]⟩

/-- The second is defined and seen from outside: its body stands behind the declaration that says that it lives
elsewhere. -/
theorem redeclaredFunctions_merge : ∃ q T, redeclaredFunctions.analyze = .ok (q, T) ∧
    (∀ x ∈ redeclaredFunctions.linkedNames, Dotless x) ∧ T.get? "g" = some ⟨.fn [] .int32, .function true true⟩ := by
  have hdots : ∀ x ∈ redeclaredFunctions.linkedNames, Dotless x := by decide
  obtain ⟨q, T, h⟩ : ∃ q T, redeclaredFunctions.analyze = .ok (q, T) := ⟨_, _, rfl⟩
  have hd : .function ⟨⟨"g", .nowhere⟩, [], .int, false, false⟩ true ∈ redeclaredFunctions.declarations :=
    List.mem_of_getElem? (i := 7) rfl
  obtain ⟨isDefined, isGlobal, hs, hdefined, hglobal⟩ := Program.functions_merge h hdots hd
  obtain rfl : isDefined = true :=
    hdefined.2 ⟨[⟨.fn [] .int32, false, false, true⟩], ⟨.fn [] .int32, true, false, false⟩, [], rfl, rfl, by simp⟩
  obtain rfl : isGlobal = true := hglobal.2 ⟨⟨.fn [] .int32, false, false, true⟩, List.mem_cons_self, .inr rfl⟩
  exact ⟨q, T, h, hdots, hs⟩

/-- A function whose body has been seen may stand in the table as one that is not defined. -/
theorem not_forall_body_defined : ¬ ∀ (p q : Program) (T : SymbolTable) (head : FnHead) (body : List Item),
    (∀ x ∈ p.linkedNames, Dotless x) → p.analyze = .ok (q, T) → .fn head (some body) ∈ p.decls →
    ∃ isGlobal, T.get? head.ident.name = some ⟨head.ty, .function true isGlobal⟩ := by
  intro hall
  obtain ⟨isGlobal, hs⟩ := hall redeclaredFunctions _ _ _ _ (by decide) rfl (.tail _ (.head _))
  cases hs

end Khel
