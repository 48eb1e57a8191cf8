import Khel.Proofs.Program.Changed
import Khel.Proofs.Program.Names

/-!
# How declared names are kept

A declaration says how the thing that it names is kept: with the whole program, for the whole run, or for one call.
Functions and variables of the top level are kept like external variables, and parameters and loop variables like
variables that say nothing of their storage.

* `Program.storages`: the declared names, each with its storage.
* `Program.autoNames`: the names of what is kept for one call.
* `Program.storages_change`: a change of the program changes these names and no storage.
-/

namespace Khel

/-! ## Declared names -/

mutual
/-- The names that a statement declares, each with the storage of what it names. -/
def Stmt.storages : Stmt → List (String × Option Storage)
  | .ifThen _ s => s.storages
  | .ifElse _ s t => s.storages ++ t.storages
  | .block items => itemsStorages items
  | .whileLoop _ body _ => itemsStorages body
  | .loop var _ body _ => var.toList.map (fun v => (v.name, none)) ++ itemsStorages body
  | .eval _ | .ret .. | .leave .. | .next .. | .skip => []

/-- The names that the items of a block declare. -/
def itemsStorages : List Item → List (String × Option Storage)
  | [] => []
  | .stmt s :: rest => s.storages ++ itemsStorages rest
  | .var d :: rest => (d.ident.name, d.storage) :: itemsStorages rest
  | .fn .. :: rest => itemsStorages rest
end

/-- The names that a declaration of the top level declares. -/
def Decl.storages : Decl → List (String × Option Storage)
  | .fn head body => (head.ident.name, some .external) ::
      (head.params.map (fun p => (p.ident.name, none)) ++ (body.map itemsStorages).getD [])
  | .var d => [(d.ident.name, some .external)]

/-- The names that a program declares. -/
def Program.storages (p : Program) : List (String × Option Storage) := p.decls.flatMap Decl.storages

/-- The names of a list whose storage is a wanted one. -/
def namesKept (wanted : Option Storage → Bool) (names : List (String × Option Storage)) : List String :=
  (names.filter fun e => wanted e.2).map Prod.fst

/-- The names of parameters, loop variables and automatic variables of blocks. -/
def Program.autoNames (p : Program) : List String := namesKept (· = none) p.storages

section Kept

variable (wanted : Option Storage → Bool)

theorem mem_namesKept {names : List (String × Option Storage)} {x : String} :
    x ∈ namesKept wanted names ↔ ∃ storage, wanted storage = true ∧ (x, storage) ∈ names := by
  simp [namesKept, and_comm]

theorem Program.mem_autoNames {p : Program} {x : String} : x ∈ p.autoNames ↔ (x, none) ∈ p.storages := by
  simp [autoNames, mem_namesKept]

@[simp] theorem namesKept_nil : namesKept wanted [] = [] := rfl

@[simp] theorem namesKept_cons (x : String) (storage : Option Storage) (names : List (String × Option Storage)) :
    namesKept wanted ((x, storage) :: names) =
      (if wanted storage = true then [x] else []) ++ namesKept wanted names := by
  by_cases h : wanted storage = true <;> simp [namesKept, h]

@[simp] theorem namesKept_append (a b : List (String × Option Storage)) :
    namesKept wanted (a ++ b) = namesKept wanted a ++ namesKept wanted b := by
  simp [namesKept]

theorem namesKept_automatic {α : Type} (name : α → String) (xs : List α) :
    namesKept wanted (xs.map fun a => (name a, none)) = if wanted none = true then xs.map name else [] := by
  induction xs with
  | nil => simp
  | cons a as ih => by_cases h : wanted none = true <;> simp_all

end Kept

/-! ## Linked names and variables of their own -/

/-- Is what is kept like this a variable of its own? -/
def isOwn (storage : Option Storage) : Bool := storage ≠ some .external

/-- Is what is kept like this linked? -/
def isLinked (storage : Option Storage) : Bool := storage = some .external

mutual
theorem Stmt.namesKept_storages : ∀ s : Stmt,
    namesKept isOwn s.storages = s.ownNames ∧ namesKept isLinked s.storages = s.linkedNames
  | .ifThen _ s => s.namesKept_storages
  | .ifElse _ s t => by
    obtain ⟨hs, hs'⟩ := s.namesKept_storages
    obtain ⟨ht, ht'⟩ := t.namesKept_storages
    simp [Stmt.storages, Stmt.ownNames, Stmt.linkedNames, hs, hs', ht, ht']
  | .block items | .whileLoop _ items _ => namesKept_itemsStorages items
  | .loop var _ body _ => by
    obtain ⟨hb, hb'⟩ := namesKept_itemsStorages body
    constructor
    · simp [Stmt.storages, Stmt.ownNames, namesKept_automatic, hb, isOwn]
    · simp [Stmt.storages, Stmt.linkedNames, namesKept_automatic, hb', isLinked]
  | .eval _ | .ret .. | .leave .. | .next .. | .skip => ⟨rfl, rfl⟩

theorem namesKept_itemsStorages : ∀ items : List Item, namesKept isOwn (itemsStorages items) = itemsOwnNames items ∧
    namesKept isLinked (itemsStorages items) = itemsLinkedNames items
  | [] => ⟨rfl, rfl⟩
  | .stmt s :: rest => by
    obtain ⟨hs, hs'⟩ := s.namesKept_storages
    obtain ⟨hr, hr'⟩ := namesKept_itemsStorages rest
    simp [itemsStorages, itemsOwnNames, itemsLinkedNames, hs, hs', hr, hr']
  | .var d :: rest => by
    obtain ⟨hr, hr'⟩ := namesKept_itemsStorages rest
    by_cases h : d.storage = some .external <;>
      simp [itemsStorages, itemsOwnNames, itemsLinkedNames, VarDecl.ownNames, VarDecl.linkedNames, VarDecl.isExternal,
        isOwn, isLinked, h, hr, hr']
  | .fn .. :: rest => namesKept_itemsStorages rest
end

theorem Decl.namesKept_storages (d : Decl) :
    namesKept isOwn d.storages = d.ownNames ∧ namesKept isLinked d.storages = d.linkedNames := by
  cases d with
  | var d => exact ⟨rfl, rfl⟩
  | fn head body =>
    have hbody : namesKept isOwn ((body.map itemsStorages).getD []) = (body.map itemsOwnNames).getD [] ∧
        namesKept isLinked ((body.map itemsStorages).getD []) = (body.map itemsLinkedNames).getD [] := by
      cases body with
      | none => exact ⟨rfl, rfl⟩
      | some items => exact namesKept_itemsStorages items
    constructor
    · simp [Decl.storages, Decl.ownNames, paramNames, namesKept_automatic, hbody.1, isOwn]
    · simp [Decl.storages, Decl.linkedNames, namesKept_automatic, hbody.2, isLinked]

/-- The declared names are linked or those of variables of their own. -/
theorem Program.namesKept_storages (p : Program) :
    namesKept isOwn p.storages = p.ownNames ∧ namesKept isLinked p.storages = p.linkedNames := by
  have hall : ∀ ds : List Decl, namesKept isOwn (ds.flatMap Decl.storages) = ds.flatMap Decl.ownNames ∧
      namesKept isLinked (ds.flatMap Decl.storages) = ds.flatMap Decl.linkedNames := by
    intro ds
    induction ds with
    | nil => exact ⟨rfl, rfl⟩
    | cons d ds ih => simp [d.namesKept_storages, ih]
  exact hall p.decls

/-! ## Changed programs -/

section Change

variable {c : Change} {ρ : String → String}

mutual
theorem Stmt.storages_change (hc : ∀ i, (c.ident i).name = ρ i.name) : ∀ s : Stmt,
    (s.change c).storages = s.storages.map (Prod.map ρ id)
  | .ifThen _ s => s.storages_change hc
  | .ifElse _ s t => by simp [Stmt.change, Stmt.storages, s.storages_change hc, t.storages_change hc]
  | .block items | .whileLoop _ items _ => itemsStorages_change hc items
  | .loop var _ body _ => by
    cases var <;> simp [Stmt.change, Stmt.storages, itemsStorages_change hc body, hc]
  | .eval _ | .ret .. | .leave .. | .next .. | .skip => rfl

theorem itemsStorages_change (hc : ∀ i, (c.ident i).name = ρ i.name) : ∀ items : List Item,
    itemsStorages (changeItems c items) = (itemsStorages items).map (Prod.map ρ id)
  | [] => rfl
  | .stmt s :: rest => by
    simp [changeItems, itemsStorages, s.storages_change hc, itemsStorages_change hc rest]
  | .var d :: rest => by
    have hname : (d.changeLocal c).ident.name = ρ d.ident.name := by
      unfold VarDecl.changeLocal
      split <;> exact hc d.ident
    have hstorage : (d.changeLocal c).storage = d.storage := rfl
    simp [changeItems, itemsStorages, itemsStorages_change hc rest, hname, hstorage]
  | .fn .. :: rest => itemsStorages_change hc rest
end

theorem Decl.storages_change (hc : ∀ i, (c.ident i).name = ρ i.name) (d : Decl) :
    (d.change c).storages = d.storages.map (Prod.map ρ id) := by
  cases d with
  | var d => simp [Decl.change, Decl.storages, VarDecl.change, hc]
  | fn head body =>
    cases body <;>
      simp [Decl.change, Decl.storages, FnHead.change, Param.change, hc, itemsStorages_change hc]

/-- A change of the program changes names and no storage. -/
theorem Program.storages_change (hc : ∀ i, (c.ident i).name = ρ i.name) (p : Program) :
    (p.change c).storages = p.storages.map (Prod.map ρ id) := by
  simp only [Program.storages, Program.change, List.flatMap_map, List.map_flatMap, Decl.storages_change hc]

end Change

end Khel
