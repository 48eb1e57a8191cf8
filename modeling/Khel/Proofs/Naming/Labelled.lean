import Khel.Naming.Loops
import Khel.Proofs.Ensures
import Khel.Proofs.Program.Checkable

/-!
# Labelled loops

After labelling, every loop has an id, the ids are numbered in the order in which the loops start, and a jump carries
the id of the innermost loop around it. Nothing else of the program changes.

* `Stmt.Labelled current`: the jumps that leave the statement belong to the loop `current`.
* `Stmt.labelLoops_ensures`, `Program.labelLoops_yields`: what labelling ensures.
-/

namespace Khel

/-! ## Loops and their ids -/

mutual
/-- The stems of the ids that the loops of a statement get, in the order in which the loops start. -/
def Stmt.loopStems : Stmt → List String
  | .ifThen _ s => s.loopStems
  | .ifElse _ s t => s.loopStems ++ t.loopStems
  | .block items => itemsLoopStems items
  | .whileLoop _ body _ => "while" :: itemsLoopStems body
  | .loop _ _ body _ => "loop" :: itemsLoopStems body
  | .eval _ | .ret .. | .leave .. | .next .. | .skip => []

/-- The stems of the ids of the loops in the items of a block. -/
def itemsLoopStems : List Item → List String
  | [] => []
  | .stmt s :: rest => s.loopStems ++ itemsLoopStems rest
  | .var _ :: rest => itemsLoopStems rest
  | .fn .. :: rest => itemsLoopStems rest
end

mutual
/-- The ids of the loops of a statement, in the order in which the loops start. -/
def Stmt.loopIds : Stmt → List String
  | .ifThen _ s => s.loopIds
  | .ifElse _ s t => s.loopIds ++ t.loopIds
  | .block items => itemsLoopIds items
  | .whileLoop _ body id => id.toList ++ itemsLoopIds body
  | .loop _ _ body id => id.toList ++ itemsLoopIds body
  | .eval _ | .ret .. | .leave .. | .next .. | .skip => []

/-- The ids of the loops in the items of a block. -/
def itemsLoopIds : List Item → List String
  | [] => []
  | .stmt s :: rest => s.loopIds ++ itemsLoopIds rest
  | .var _ :: rest => itemsLoopIds rest
  | .fn .. :: rest => itemsLoopIds rest
end

mutual
/-- Every loop has an id, and the jumps of the statement that leave it carry the id `current`. -/
def Stmt.Labelled (current : Option String) : Stmt → Prop
  | .ifThen _ s => s.Labelled current
  | .ifElse _ s t => s.Labelled current ∧ t.Labelled current
  | .block items => itemsLabelled current items
  | .whileLoop _ body id => id.isSome = true ∧ itemsLabelled id body
  | .loop _ _ body id => id.isSome = true ∧ itemsLabelled id body
  | .leave _ id => id.isSome = true ∧ id = current
  | .next _ id => id.isSome = true ∧ id = current
  | .eval _ | .ret .. | .skip => True

/-- The items of a block that stands in the loop `current` are labelled. -/
def itemsLabelled (current : Option String) : List Item → Prop
  | [] => True
  | .stmt s :: rest => s.Labelled current ∧ itemsLabelled current rest
  | .var _ :: rest => itemsLabelled current rest
  | .fn .. :: rest => itemsLabelled current rest
end

mutual
theorem Stmt.mem_loopStems {x : String} : ∀ s : Stmt, x ∈ s.loopStems → x = "while" ∨ x = "loop"
  | .ifThen _ s, h => s.mem_loopStems h
  | .ifElse _ s t, h => (List.mem_append.1 h).elim s.mem_loopStems t.mem_loopStems
  | .block items, h => mem_itemsLoopStems items h
  | .whileLoop _ body _, h => (List.mem_cons.1 h).elim .inl (mem_itemsLoopStems body)
  | .loop _ _ body _, h => (List.mem_cons.1 h).elim .inr (mem_itemsLoopStems body)
  | .eval _, h | .ret .., h | .leave .., h | .next .., h | .skip, h => by cases h

theorem mem_itemsLoopStems {x : String} : ∀ items : List Item, x ∈ itemsLoopStems items → x = "while" ∨ x = "loop"
  | [], h => by cases h
  | .stmt s :: rest, h => (List.mem_append.1 h).elim s.mem_loopStems (mem_itemsLoopStems rest)
  | .var _ :: rest, h | .fn .. :: rest, h => mem_itemsLoopStems rest h
end

/-! ## Labelling -/

mutual
/-- The loops of a labelled statement are numbered in order, and its jumps know where they belong. -/
theorem Stmt.labelLoops_ensures : ∀ (current : Option String) (s : Stmt) (n : Nat),
    Ensures (s.labelLoops current) n (fun _ => True) fun s' n' => Renames n n' s.loopStems s'.loopIds ∧
      s'.Labelled current ∧ s'.ownNames = s.ownNames ∧ ∀ known, s.Checkable known → s'.Checkable known
  | _, .eval _, n | _, .ret .., n | _, .skip, n => by
    rw [Stmt.labelLoops]
    exact .pure ⟨.nil n, trivial, rfl, fun _ h => h⟩
  | current, .ifThen c s, n => by
    rw [Stmt.labelLoops]
    refine .bind (s.labelLoops_ensures current n) ?_
    rintro s' n' ⟨hn, hl, ho, hc⟩
    exact .pure ⟨hn, hl, ho, fun known h => ⟨h.1, hc known h.2⟩⟩
  | current, .ifElse c s t, n => by
    rw [Stmt.labelLoops]
    refine .bind (s.labelLoops_ensures current n) ?_
    rintro s' n' ⟨hn, hl, ho, hc⟩
    refine .bind (t.labelLoops_ensures current n') ?_
    rintro t' n'' ⟨hn', hl', ho', hc'⟩
    refine .pure ⟨hn.append hn', ⟨hl, hl'⟩, ?_, fun known h => ⟨h.1, hc known h.2.1, hc' known h.2.2⟩⟩
    simp only [Stmt.ownNames, ho, ho']
  | current, .block items, n => by
    rw [Stmt.labelLoops]
    refine .bind (labelItems_ensures current items n) ?_
    rintro items' n' ⟨hn, hl, ho, hc⟩
    exact .pure ⟨hn, hl, ho, hc⟩
  | current, .whileLoop c body _, n => by
    rw [Stmt.labelLoops]
    refine .bind (Fresh.name_ensures "while" n) ?_
    rintro _ _ ⟨rfl, rfl⟩
    refine .bind (labelItems_ensures (some (numbered "while" n)) body (n + 1)) ?_
    rintro body' n' ⟨hn, hl, ho, hc⟩
    exact .pure ⟨(Renames.single "while" n).append hn, ⟨rfl, hl⟩, ho, fun known h => ⟨h.1, hc known h.2⟩⟩
  | current, .loop var control body _, n => by
    rw [Stmt.labelLoops]
    refine .bind (Fresh.name_ensures "loop" n) ?_
    rintro _ _ ⟨rfl, rfl⟩
    refine .bind (labelItems_ensures (some (numbered "loop" n)) body (n + 1)) ?_
    rintro body' n' ⟨hn, hl, ho, hc⟩
    refine .pure ⟨(Renames.single "loop" n).append hn, ⟨rfl, hl⟩, ?_, fun known h => ⟨h.1, hc _ h.2⟩⟩
    simp only [Stmt.ownNames, ho]
  | some id, .leave .., n | some id, .next .., n => by
    rw [Stmt.labelLoops]
    exact .pure ⟨.nil n, ⟨rfl, rfl⟩, rfl, fun _ h => h⟩
  | none, .leave .., n | none, .next .., n => by
    rw [Stmt.labelLoops]
    exact .throw trivial

theorem labelItems_ensures : ∀ (current : Option String) (items : List Item) (n : Nat),
    Ensures (labelItems current items) n (fun _ => True) fun items' n' =>
      Renames n n' (itemsLoopStems items) (itemsLoopIds items') ∧ itemsLabelled current items' ∧
      itemsOwnNames items' = itemsOwnNames items ∧ ∀ known, itemsCheckable known items → itemsCheckable known items'
  | _, [], n => by
    rw [labelItems]
    exact .pure ⟨.nil n, trivial, rfl, fun _ h => h⟩
  | current, .stmt s :: rest, n => by
    rw [labelItems]
    refine .bind (s.labelLoops_ensures current n) ?_
    rintro s' n' ⟨hn, hl, ho, hc⟩
    refine .bind (labelItems_ensures current rest n') ?_
    rintro rest' n'' ⟨hn', hl', ho', hc'⟩
    refine .pure ⟨hn.append hn', ⟨hl, hl'⟩, ?_, fun known h => ⟨hc known h.1, hc' known h.2⟩⟩
    simp only [itemsOwnNames, ho, ho']
  | current, .var d :: rest, n => by
    rw [labelItems]
    refine .bind (labelItems_ensures current rest n) ?_
    rintro rest' n' ⟨hn, hl, ho, hc⟩
    exact .pure ⟨hn, hl, by simp only [itemsOwnNames, ho], fun known h => ⟨h.1, hc _ h.2⟩⟩
  | current, .fn head body :: rest, n => by
    rw [labelItems]
    refine .bind (labelItems_ensures current rest n) ?_
    rintro rest' n' ⟨hn, hl, ho, _⟩
    exact .pure ⟨hn, hl, by simp only [itemsOwnNames, ho], fun _ h => h.elim⟩
end

/-! ## Programs -/

/-- The stems of the ids that the loops of a declaration get. -/
def Decl.loopStems : Decl → List String
  | .fn _ (some body) => itemsLoopStems body
  | .fn _ none | .var _ => []

/-- The ids of the loops of a declaration. -/
def Decl.loopIds : Decl → List String
  | .fn _ (some body) => itemsLoopIds body
  | .fn _ none | .var _ => []

/-- The loops of a declaration are labelled. -/
def Decl.Labelled : Decl → Prop
  | .fn _ (some body) => itemsLabelled none body
  | .fn _ none | .var _ => True

theorem Decl.mem_loopStems {x : String} : ∀ d : Decl, x ∈ d.loopStems → x = "while" ∨ x = "loop"
  | .fn _ (some body), h => mem_itemsLoopStems body h
  | .fn _ none, h | .var _, h => by cases h

theorem labelDecls_ensures : ∀ (ds : List Decl) (n : Nat),
    Ensures (labelDecls ds) n (fun _ => True) fun ds' n' =>
      Renames n n' (ds.flatMap Decl.loopStems) (ds'.flatMap Decl.loopIds) ∧ (∀ d ∈ ds', d.Labelled) ∧
      ds'.flatMap Decl.ownNames = ds.flatMap Decl.ownNames ∧
      ds'.filterMap Decl.definedName? = ds.filterMap Decl.definedName? ∧
      ∀ known, declsCheckable known ds → declsCheckable known ds'
  | [], n => by
    rw [labelDecls]
    exact .pure ⟨.nil n, by simp, rfl, rfl, fun _ h => h⟩
  | .fn head (some body) :: rest, n => by
    rw [labelDecls]
    refine .bind (labelItems_ensures none body n) ?_
    rintro body' n' ⟨hn, hl, ho, hc⟩
    refine .bind (labelDecls_ensures rest n') ?_
    rintro rest' n'' ⟨hn', hl', ho', hd', hc'⟩
    refine .pure ⟨hn.append hn', ?_, ?_, ?_, fun known h => ⟨⟨h.1.1, ?_⟩, hc' _ h.2⟩⟩
    · exact List.forall_mem_cons.2 ⟨hl, hl'⟩
    · simp only [List.flatMap_cons, ho', Decl.ownNames, Option.map_some, Option.getD_some, ho]
    · simp only [List.filterMap_cons, Decl.definedName?, hd']
    · intro items hi
      cases hi
      exact hc _ (h.1.2 body rfl)
  | .fn head none :: rest, n => by
    rw [labelDecls]
    refine .bind (labelDecls_ensures rest n) ?_
    rintro rest' n' ⟨hn, hl, ho, hd, hc⟩
    refine .pure ⟨hn, List.forall_mem_cons.2 ⟨trivial, hl⟩, ?_, ?_, fun known h => ⟨h.1, hc _ h.2⟩⟩
    · simp only [List.flatMap_cons, ho]
    · simp only [List.filterMap_cons, Decl.definedName?, hd]
  | .var d :: rest, n => by
    rw [labelDecls]
    refine .bind (labelDecls_ensures rest n) ?_
    rintro rest' n' ⟨hn, hl, ho, hd, hc⟩
    refine .pure ⟨hn, List.forall_mem_cons.2 ⟨trivial, hl⟩, ?_, ?_, fun known h => ⟨h.1, hc _ h.2⟩⟩
    · simp only [List.flatMap_cons, ho]
    · simp only [List.filterMap_cons, Decl.definedName?, hd]

/-- The loops of a program are numbered from zero, over all functions. -/
def LoopsNumbered (ds : List Decl) : Prop :=
  ∃ stems, (∀ x ∈ stems, x = "while" ∨ x = "loop") ∧ ds.flatMap Decl.loopIds = numberFrom 0 stems

/-- What labelling ensures of a whole program. -/
theorem Program.labelLoops_yields (p : Program) :
    Yields p.labelLoops (fun _ => True) fun p' => LoopsNumbered p'.decls ∧ (∀ d ∈ p'.decls, d.Labelled) ∧
      p'.ownNames = p.ownNames ∧ p'.decls.filterMap Decl.definedName? = p.decls.filterMap Decl.definedName? ∧
      ∀ known, declsCheckable known p.decls → declsCheckable known p'.decls := by
  refine .bind (Ensures.run' ((labelDecls_ensures p.decls 0).mono fun ds' _ ⟨hn, h⟩ => And.intro hn.names h))
    fun ds' ⟨hn, h⟩ => .pure ⟨⟨_, fun x hx => ?_, hn⟩, h⟩
  obtain ⟨d, _, hx⟩ := List.mem_flatMap.1 hx
  exact d.mem_loopStems hx

end Khel
