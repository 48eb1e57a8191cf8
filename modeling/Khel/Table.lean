/-!
# Tables keyed by name

A table lists its entries in the order in which their names were first set. Setting a name again replaces the entry
where it stands.

* `Table.get?_set`: a look-up sees the last value set.
* `Table.names_set`: only a new name changes the order, and it goes last.
* `Table.mem_names_iff`: the names are those with a value.
-/

namespace Khel

/-- Named entries in order of first appearance. -/
structure Table (α : Type) where
  entries : List (String × α) := []

namespace Table

variable {α β : Type}

/-- The table with no entries. -/
def empty : Table α := {}

/-- Replaces the first entry of that name, or adds one at the end. -/
def setEntry (name : String) (a : α) : List (String × α) → List (String × α)
  | [] => [(name, a)]
  | (n, b) :: rest => if n = name then (n, a) :: rest else (n, b) :: setEntry name a rest

/-- Gives a name its value. -/
def set (t : Table α) (name : String) (a : α) : Table α := ⟨setEntry name a t.entries⟩

/-- The value of the first entry of that name. -/
def findEntry? (name : String) : List (String × α) → Option α
  | [] => none
  | (n, a) :: rest => if n = name then some a else findEntry? name rest

/-- The value of a name. -/
def get? (t : Table α) (name : String) : Option α := findEntry? name t.entries

/-- How many names have a value. -/
def size (t : Table α) : Nat := t.entries.length

/-- The names in order. -/
def names (t : Table α) : List String := t.entries.map Prod.fst

/-- Changes every value and no name. -/
def map (f : α → β) (t : Table α) : Table β := ⟨t.entries.map fun e => (e.1, f e.2)⟩

/-- A table with the given entries set one after the other. -/
def ofList (entries : List (String × α)) : Table α := entries.foldl (fun t e => t.set e.1 e.2) empty

/-! ## Look-ups -/

theorem findEntry?_setEntry (name key : String) (a : α) : ∀ es : List (String × α),
    findEntry? key (setEntry name a es) = if name = key then some a else findEntry? key es
  | [] => rfl
  | (n, b) :: rest => by
    have ih := findEntry?_setEntry name key a rest
    by_cases hn : n = name
    · subst hn
      by_cases hk : n = key <;> simp [setEntry, findEntry?, hk]
    · by_cases hk : n = key
      · subst hk
        simp [setEntry, findEntry?, hn, Ne.symm hn]
      · simp [setEntry, findEntry?, hn, hk, ih]

/-- A look-up sees the last value set. -/
@[simp] theorem get?_set (t : Table α) (name key : String) (a : α) :
    (t.set name a).get? key = if name = key then some a else t.get? key :=
  findEntry?_setEntry name key a t.entries

@[simp] theorem get?_empty (key : String) : (empty : Table α).get? key = none := rfl

@[simp] theorem get?_map (f : α → β) (t : Table α) (key : String) : (t.map f).get? key = (t.get? key).map f := by
  cases t with | mk es =>
  induction es with
  | nil => rfl
  | cons e rest ih =>
    by_cases h : e.1 = key
    · simp [get?, map, findEntry?, h]
    · simpa [get?, map, findEntry?, h] using ih

/-! ## Order -/

theorem map_fst_setEntry (name : String) (a : α) : ∀ es : List (String × α),
    (setEntry name a es).map Prod.fst = if name ∈ es.map Prod.fst then es.map Prod.fst else es.map Prod.fst ++ [name]
  | [] => rfl
  | (n, b) :: rest => by
    by_cases h : n = name
    · simp [setEntry, h]
    · by_cases hm : name ∈ rest.map Prod.fst <;>
        simp_all [setEntry, map_fst_setEntry name a rest, Ne.symm h]

/-- A new name goes last, and a known one stays where it is. -/
theorem names_set (t : Table α) (name : String) (a : α) :
    (t.set name a).names = if name ∈ t.names then t.names else t.names ++ [name] :=
  map_fst_setEntry name a t.entries

theorem mem_names_set (t : Table α) (name : String) (a : α) {y : String} :
    y ∈ (t.set name a).names ↔ y ∈ t.names ∨ y = name := by
  rw [names_set]
  split
  · next h =>
    constructor
    · exact .inl
    · rintro (hy | rfl)
      · exact hy
      · exact h
  · simp

theorem nodup_names_set (t : Table α) (name : String) (a : α) (h : t.names.Nodup) : (t.set name a).names.Nodup := by
  rw [names_set]
  split
  · exact h
  · next hx =>
    rw [List.nodup_append]
    refine ⟨h, by simp, ?_⟩
    rintro x hy _ hz rfl
    exact hx (List.mem_singleton.1 hz ▸ hy)

/-- The names are those with a value. -/
theorem mem_names_iff {t : Table α} {name : String} : name ∈ t.names ↔ (t.get? name).isSome = true := by
  cases t with | mk es =>
  induction es with
  | nil => simp [names, get?, findEntry?]
  | cons e rest ih =>
    by_cases h : e.1 = name
    · simp [names, get?, findEntry?, h]
    · simpa [names, get?, findEntry?, h, Ne.symm h] using ih

end Table

end Khel
