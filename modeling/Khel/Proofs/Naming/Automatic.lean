import Khel.Proofs.Naming.Distinct

/-!
# Automatic variables of resolved programs

Resolution numbers automatic variables like all variables of their own. So their names are told from all other names of
the program, and the name that the text gives a variable can be read off its number.

* `Program.autoNames_numbered`: the names of automatic variables are numbered names of automatic variables.
* `Program.storages_unique`: no name is declared with two storages.
-/

namespace Khel

/-! ## Numbers -/

/-- The automatic names in the second list are numbered ones of the first. -/
def NumbersAuto (before after : List (String × Option Storage)) : Prop :=
  ∀ x, (x, none) ∈ after → ∃ y n, (y, none) ∈ before ∧ x = numbered y n

namespace NumbersAuto

theorem nil (before : List (String × Option Storage)) : NumbersAuto before [] := by simp [NumbersAuto]

theorem append {a a' b b' : List (String × Option Storage)} (ha : NumbersAuto a a') (hb : NumbersAuto b b') :
    NumbersAuto (a ++ b) (a' ++ b') := by
  intro x hx
  rcases List.mem_append.1 hx with hx | hx
  · obtain ⟨y, n, hy, he⟩ := ha x hx
    exact ⟨y, n, List.mem_append_left _ hy, he⟩
  · obtain ⟨y, n, hy, he⟩ := hb x hx
    exact ⟨y, n, List.mem_append_right _ hy, he⟩

/-- A name that is not automatic may be anything. -/
theorem cons_kept {a a' : List (String × Option Storage)} (y x : String) (storage : Storage) (h : NumbersAuto a a') :
    NumbersAuto ((y, some storage) :: a) ((x, some storage) :: a') := by
  intro z hz
  have hz : (z, none) ∈ a' := by simpa using hz
  obtain ⟨y', n, hy, he⟩ := h z hz
  exact ⟨y', n, List.mem_cons_of_mem _ hy, he⟩

theorem cons_auto {a a' : List (String × Option Storage)} (y : String) (n : Nat) (h : NumbersAuto a a') :
    NumbersAuto ((y, none) :: a) ((numbered y n, none) :: a') := by
  intro z hz
  rcases List.mem_cons.1 hz with hz | hz
  · exact ⟨y, n, List.mem_cons_self, congrArg Prod.fst hz⟩
  · obtain ⟨y', m, hy, he⟩ := h z hz
    exact ⟨y', m, List.mem_cons_of_mem _ hy, he⟩

end NumbersAuto

theorem VarDecl.numbersAuto_renamed (scopes : Scopes) (n : Nat) (d : VarDecl) {a a' : List (String × Option Storage)}
    (h : NumbersAuto a a') : NumbersAuto ((d.ident.name, d.storage) :: a)
      (((d.renamed scopes n).ident.name, (d.renamed scopes n).storage) :: a') := by
  unfold VarDecl.renamed
  split
  · next hx =>
    have hs : d.storage = some .external := by simpa [VarDecl.isExternal] using hx
    rw [hs]
    exact h.cons_kept _ _ _
  · cases hs : d.storage with
    | none => exact h.cons_auto _ n
    | some storage => exact h.cons_kept _ _ _

mutual
theorem Stmt.numbersAuto_renamed : ∀ (scopes : Scopes) (n : Nat) (s : Stmt),
    NumbersAuto s.storages (s.renamed scopes n).storages
  | scopes, n, .ifThen _ s => s.numbersAuto_renamed scopes n
  | scopes, n, .ifElse _ s t => (s.numbersAuto_renamed scopes n).append (t.numbersAuto_renamed scopes _)
  | _, n, .block items => numbersAuto_itemsRenamed _ n items
  | _, n, .whileLoop _ body _ => numbersAuto_itemsRenamed _ n body
  | _, _, .loop none _ body _ => numbersAuto_itemsRenamed _ _ body
  | _, n, .loop (some ident) _ body _ => (numbersAuto_itemsRenamed _ _ body).cons_auto ident.name n
  | _, _, .eval _ | _, _, .ret .. | _, _, .leave .. | _, _, .next .. | _, _, .skip => .nil _

theorem numbersAuto_itemsRenamed : ∀ (scopes : Scopes) (n : Nat) (items : List Item),
    NumbersAuto (itemsStorages items) (itemsStorages (itemsRenamed scopes n items))
  | _, _, [] => .nil _
  | scopes, n, .stmt s :: rest => (s.numbersAuto_renamed scopes n).append (numbersAuto_itemsRenamed scopes _ rest)
  | scopes, n, .var d :: rest => d.numbersAuto_renamed scopes n (numbersAuto_itemsRenamed _ _ rest)
  | scopes, n, .fn .. :: rest => numbersAuto_itemsRenamed scopes n rest
end

theorem numbersAuto_paramsRenamed : ∀ (n : Nat) (params : List Param),
    NumbersAuto (params.map fun p => (p.ident.name, none)) ((paramsRenamed n params).map fun p => (p.ident.name, none))
  | _, [] => .nil _
  | n, p :: ps => (numbersAuto_paramsRenamed (n + 1) ps).cons_auto p.ident.name n

theorem Decl.numbersAuto_renamed (earlier : List Decl) (n : Nat) (d : Decl) :
    NumbersAuto d.storages (d.renamed earlier n).storages := by
  cases d with
  | var d => exact (NumbersAuto.nil []).cons_kept _ _ _
  | fn head body =>
    apply NumbersAuto.cons_kept
    apply (numbersAuto_paramsRenamed n head.params).append
    cases body with
    | none => exact .nil _
    | some items => exact numbersAuto_itemsRenamed _ _ items

theorem numbersAuto_declsRenamed : ∀ (earlier : List Decl) (n : Nat) (ds : List Decl),
    NumbersAuto (ds.flatMap Decl.storages) ((declsRenamed earlier n ds).flatMap Decl.storages)
  | _, _, [] => .nil _
  | earlier, n, d :: ds => by
    rw [declsRenamed, List.flatMap_cons, List.flatMap_cons]
    exact (d.numbersAuto_renamed earlier n).append (numbersAuto_declsRenamed _ _ ds)

/-- The automatic variables of a resolved program are those of the program, with numbers. -/
theorem Program.autoNames_numbered {p r : Program} (h : p.resolve = .ok r) {x : String} (hx : x ∈ r.autoNames) :
    ∃ y ∈ p.autoNames, ∃ n, x = numbered y n := by
  rw [p.resolve_eq] at h
  have hr : r = p.renamed := by
    unfold verdict at h
    split at h
    · exact (Except.ok.inj h).symm
    · cases h
  rw [mem_autoNames, hr] at hx
  obtain ⟨y, n, hy, he⟩ := numbersAuto_declsRenamed [] 0 p.decls x hx
  exact ⟨y, mem_autoNames.2 hy, n, he⟩

/-! ## Storage -/

/-- An automatic variable of a resolved program has its name for itself. -/
theorem Program.storages_unique {p r : Program} (h : p.resolve = .ok r) (hdots : ∀ x ∈ p.linkedNames, Dotless x)
    {x : String} (hx : x ∈ r.autoNames) {storage : Storage} : (x, some storage) ∉ r.storages := by
  intro hstorage
  rw [mem_autoNames] at hx
  obtain ⟨hown, hlinked⟩ := r.namesKept_storages
  obtain ⟨hnodup, hapart⟩ := Program.resolve_distinct h
  cases storage with
  | external =>
    have hmem : x ∈ r.ownNames := hown ▸ (mem_namesKept _).2 ⟨none, rfl, hx⟩
    exact (hapart hdots).1 x hmem (hlinked ▸ (mem_namesKept _).2 ⟨some .external, rfl, hstorage⟩)
  | static =>
    -- Two entries of one name would make the name occur twice.
    rw [← hown, namesKept] at hnodup
    have hmem : (x, none) ∈ r.storages.filter fun e => isOwn e.2 := List.mem_filter.2 ⟨hx, rfl⟩
    have hmem' : (x, some Storage.static) ∈ r.storages.filter fun e => isOwn e.2 := List.mem_filter.2 ⟨hstorage, rfl⟩
    have hsame := List.inj_on_of_nodup_map hnodup hmem hmem' rfl
    cases hsame

end Khel
