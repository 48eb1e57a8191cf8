import Khel.Proofs.Typing.Merged

/-!
# Which variables are seen from outside

Each declaration of a variable at the top level that is not external says whether the variable is seen from outside. The
symbol table keeps what the last of them says, and forgets the earlier ones. So a variable that was declared static is
seen from outside if a later declaration does not say static once more.

* `exported`: what the last of the declarations says.
* `Declaration.Makes.seenAs`, `Declaration.Lead.seenAs`: one declaration more, and all declarations of a name.
* `Program.analyze_exported`: the table of an accepted program.
-/

namespace Khel

/-! ## The last word -/

namespace Declaration

/-- Whether the variable is seen from outside, if the declaration has a say in it. -/
def exports? : Declaration → Option Bool
  | top d => if d.isExternal then none else some (d.storage ≠ some .static)
  | function .. | inner _ | automatic _ => none

end Declaration

/-- Is the variable with these declarations seen from outside? It is if nothing is said of that. -/
def exported (ds : List Declaration) : Bool := (ds.filterMap Declaration.exports?).getLastD true

theorem exported_snoc (ds : List Declaration) (d : Declaration) :
    exported (ds ++ [d]) = d.exports?.getD (exported ds) := by
  rw [exported, List.filterMap_append]
  cases h : d.exports? with
  | none => rw [List.filterMap_cons_none h, List.filterMap_nil, List.append_nil, Option.getD_none, exported]
  | some b => rw [List.filterMap_cons_some h, List.filterMap_nil, List.getLastD_concat, Option.getD_some]

namespace Declaration

/-- If the name stands for a static variable, it is seen from outside only as these declarations say. If all of them are
linked, it is seen exactly as they say. -/
structure SeenAs (ds : List Declaration) (s : Symbol) : Prop where
  only : ∀ init, s.role = .static init true → exported ds = true
  exact : (∀ d ∈ ds, d.isLinked = true) → ∀ init isGlobal, s.role = .static init isGlobal → isGlobal = exported ds

/-- A name that stands for something else. -/
theorem SeenAs.of_not_static {ds : List Declaration} {s : Symbol} (h : s.isStatic = false) : SeenAs ds s := by
  obtain ⟨ty, role⟩ := s
  cases role with
  | static => cases h
  | function | automatic => exact ⟨nofun, nofun⟩

/-- A variable that is seen as its declarations say. -/
theorem SeenAs.of_eq {ds : List Declaration} {ty : Ty} {init : StaticInit} {isGlobal : Bool}
    (h : isGlobal = exported ds) : SeenAs ds ⟨ty, .static init isGlobal⟩ := by
  constructor
  · rintro _ ⟨⟩
    exact h.symm
  · rintro _ _ _ ⟨⟩
    exact h

/-- A declaration that has no say leaves it as it is. -/
theorem SeenAs.silent {ds : List Declaration} {d : Declaration} {ty ty' : Ty} {init init' : StaticInit}
    {isGlobal : Bool} (h : SeenAs ds ⟨ty, .static init isGlobal⟩) (hd : d.exports? = none) :
    SeenAs (ds ++ [d]) ⟨ty', .static init' isGlobal⟩ := by
  have hsame : exported (ds ++ [d]) = exported ds := by rw [exported_snoc, hd, Option.getD_none]
  constructor
  · rintro _ ⟨⟩
    rw [hsame]
    exact h.only init rfl
  · rintro hlinked _ _ ⟨⟩
    rw [hsame]
    exact h.exact (List.forall_mem_append.1 hlinked).1 init isGlobal rfl

/-- One declaration more. -/
theorem Makes.seenAs {ds : List Declaration} {prior : Option Symbol} {d : Declaration} {s : Symbol}
    (hs : d.Makes prior s) (hfirst : prior = none → ds = []) (hprior : ∀ s₀, prior = some s₀ → SeenAs ds s₀) :
    SeenAs (ds ++ [d]) s := by
  cases hs with
  | function h => exact .of_not_static (Symbol.not_static_of_function (FnHead.symbol_isFunction h).1)
  | @top d init s hsaid h =>
    cases hx : d.isExternal with
    | false =>
      have hsay : exported (ds ++ [Declaration.top d]) = (d.storage ≠ some .static : Bool) := by
        rw [exported_snoc, exports?, if_neg (by simp [hx]), Option.getD_some]
      obtain ⟨_, rfl⟩ | ⟨_, _, _, _, _, rfl⟩ := VarDecl.symbol_cases h
      · exact .of_eq hsay.symm
      · rw [if_neg (by simp [hx])]
        exact .of_eq hsay.symm
    | true =>
      have hsilent : (Declaration.top d).exports? = none := if_pos hx
      obtain ⟨hnone, rfl⟩ | ⟨before, wasGlobal, merged, hsome, _, rfl⟩ := VarDecl.symbol_cases h
      · have hd : d.storage = some .external := of_decide_eq_true hx
        rw [hfirst hnone]
        exact .of_eq (by rw [exported_snoc, hsilent, hd]; rfl)
      · rw [if_pos hx]
        exact (hprior _ hsome).silent hsilent
  | @found d s hd hi heq hfn =>
    obtain ⟨ty, role⟩ := s
    cases role with
    | function => cases hfn
    | automatic => exact .of_not_static rfl
    | static init isGlobal => exact (hprior _ heq).silent rfl
  | external hd hi heq =>
    rw [hfirst heq]
    exact .of_eq rfl
  | @static d init hd =>
    constructor
    · rintro _ ⟨⟩
    · intro hlinked
      have hl := hlinked (inner d) (by simp)
      simp [isLinked, storage, hd] at hl
  | plain | automatic => exact .of_not_static rfl

/-- All declarations of a name. -/
theorem Lead.seenAs {ds : List Declaration} {s? : Option Symbol} (h : Lead ds s?) : ∀ s, s? = some s → SeenAs ds s := by
  induction h with
  | nil => exact nofun
  | @snoc ds prior d s h hs ih =>
    rintro _ ⟨⟩
    apply hs.seenAs _ ih
    rintro rfl
    exact h.eq_nil

end Declaration

/-! ## Declarations of the text -/

namespace Declaration

theorem exports?_shape (d : Declaration) : d.shape.exports? = d.exports? := by
  cases d <;> rfl

theorem exports?_eq_none {d : Declaration} (hown : d.isLinked = false) : d.exports? = none := by
  cases d with
  | function | inner | automatic => rfl
  | top => cases hown

end Declaration

/-- Only linked declarations of the text have a say. -/
theorem exported_becomes {ds ds' : List Declaration} (h : List.Forall₂ Declaration.Becomes ds ds') (x : String) :
    exported (declarationsOf x ds') = exported (linkedOf x ds) := by
  suffices hsame : (declarationsOf x ds').filterMap Declaration.exports? =
      (linkedOf x ds).filterMap Declaration.exports? by rw [exported, exported, hsame]
  induction h with
  | nil => rfl
  | @cons d d' ds ds' hd _ ih =>
    have hexports : d'.exports? = d.exports? := by
      rw [← d'.exports?_shape, hd.shape, d.exports?_shape]
    rw [declarationsOf, linkedOf] at ih ⊢
    rw [List.filter_cons, List.filter_cons]
    cases hl : d.isLinked with
    | true =>
      rw [Bool.true_and, hd.name hl]
      split
      · rw [List.filterMap_cons, List.filterMap_cons, hexports, ih]
      · exact ih
    | false =>
      rw [Bool.false_and, if_neg Bool.false_ne_true]
      split
      · rw [List.filterMap_cons_none (hexports.trans (Declaration.exports?_eq_none hl))]
        exact ih
      · exact ih

/-- In an accepted program, a static variable is seen from outside only if the last declaration of it at the top level
that is not external is not static, or if there is none. If no linked name has a point in it, it is seen then. -/
theorem Program.analyze_exported {p q : Program} {T : SymbolTable} (h : p.analyze = .ok (q, T)) :
    (∀ x ty init, T.get? x = some ⟨ty, .static init true⟩ → exported (linkedOf x p.declarations) = true) ∧
      ∀ x, Dotless x → ∀ ty init isGlobal, T.get? x = some ⟨ty, .static init isGlobal⟩ →
        isGlobal = exported (linkedOf x p.declarations) := by
  obtain ⟨r, hprepare, _, hT⟩ := Program.analyze_prepares h
  have hbecomes := (p.prepare_declarations.of_ok hprepare).1
  constructor
  · intro x ty init hs
    rw [← exported_becomes hbecomes]
    exact ((hT.lead x).seenAs _ hs).only init rfl
  · intro x hx ty init isGlobal hs
    rw [← exported_becomes hbecomes]
    exact ((hT.lead x).seenAs _ hs).exact (Declaration.isLinked_of_becomes hbecomes hx) init isGlobal rfl

end Khel
