import Khel.Compile
import Khel.Proofs.Naming.Scoping
import Khel.Proofs.Naming.StrayJumps
import Khel.Proofs.Program.Storages

/-!
# Declarations in the order of the text

Checking walks through a program once and comes to its declarations in the order of the text: to a function before its
parameters and the variables of its body. Here they stand in one list, so that a question about a name is one about the
declarations of this name.

* `Program.declarations`: the declarations of a program.
* `Program.prepare`: what is done to a program before it is checked.
* `Program.prepare_declarations`: this changes no declaration but for names of variables that are not linked.
-/

namespace Khel

/-! ## Declarations -/

/-- A declaration, as checking comes to it. -/
inductive Declaration where
  | function (head : FnHead) (hasBody : Bool)
  /-- A variable of the top level. -/
  | top (d : VarDecl)
  /-- A variable of a block. -/
  | inner (d : VarDecl)
  /-- A parameter or the variable of a loop. -/
  | automatic (name : String)

namespace Declaration

/-- The declared name. -/
def name : Declaration → String
  | function head _ => head.ident.name
  | top d | inner d => d.ident.name
  | automatic x => x

/-- How the thing that is declared is kept. -/
def storage : Declaration → Option Storage
  | function .. | top _ => some .external
  | inner d => d.storage
  | automatic _ => none

/-- Do all scopes share what is declared? -/
def isLinked (d : Declaration) : Bool := d.storage = some .external

end Declaration

mutual
/-- The declarations in a statement. -/
def Stmt.declarations : Stmt → List Declaration
  | .ifThen _ s => s.declarations
  | .ifElse _ s t => s.declarations ++ t.declarations
  | .block items => itemsDeclarations items
  | .whileLoop _ body _ => itemsDeclarations body
  | .loop var _ body _ => var.toList.map (fun v => .automatic v.name) ++ itemsDeclarations body
  | .eval _ | .ret .. | .leave .. | .next .. | .skip => []

/-- The declarations in the items of a block. -/
def itemsDeclarations : List Item → List Declaration
  | [] => []
  | .stmt s :: rest => s.declarations ++ itemsDeclarations rest
  | .var d :: rest => .inner d :: itemsDeclarations rest
  | .fn .. :: rest => itemsDeclarations rest
end

/-- A declaration of the top level with all that it declares. -/
def Decl.declarations : Decl → List Declaration
  | .fn head body => .function head body.isSome ::
      (head.params.map (fun p => .automatic p.ident.name) ++ (body.map itemsDeclarations).getD [])
  | .var d => [.top d]

/-- The declarations of a program, in the order of the text. -/
def Program.declarations (p : Program) : List Declaration := p.decls.flatMap Decl.declarations

/-! ## Names and storage -/

/-- The declared name, and how the thing that it names is kept. -/
def Declaration.entry (d : Declaration) : String × Option Storage := (d.name, d.storage)

mutual
theorem Stmt.entry_declarations : ∀ s : Stmt, s.declarations.map Declaration.entry = s.storages
  | .ifThen _ s => s.entry_declarations
  | .ifElse _ s t => by
    rw [Stmt.declarations, List.map_append, s.entry_declarations, t.entry_declarations, Stmt.storages]
  | .block items | .whileLoop _ items _ => entry_itemsDeclarations items
  | .loop var _ body _ => by
    rw [Stmt.declarations, List.map_append, List.map_map, entry_itemsDeclarations body, Stmt.storages]
    rfl
  | .eval _ | .ret .. | .leave .. | .next .. | .skip => rfl

theorem entry_itemsDeclarations : ∀ items : List Item,
    (itemsDeclarations items).map Declaration.entry = itemsStorages items
  | [] => rfl
  | .stmt s :: rest => by
    rw [itemsDeclarations, List.map_append, s.entry_declarations, entry_itemsDeclarations rest, itemsStorages]
  | .var d :: rest => congrArg ((d.ident.name, d.storage) :: ·) (entry_itemsDeclarations rest)
  | .fn .. :: rest => entry_itemsDeclarations rest
end

theorem Decl.entry_declarations : ∀ d : Decl, d.declarations.map Declaration.entry = d.storages
  | .fn head none => by
    simp [Decl.declarations, Decl.storages, Declaration.entry, Declaration.name, Declaration.storage]
  | .fn head (some items) => by
    simp [Decl.declarations, Decl.storages, Declaration.entry, Declaration.name, Declaration.storage,
      ← entry_itemsDeclarations items]
  | .var d => rfl

/-- The declarations name what the program declares. -/
theorem Program.entry_declarations (p : Program) : p.declarations.map Declaration.entry = p.storages := by
  simp only [Program.declarations, Program.storages, List.map_flatMap, Decl.entry_declarations]

/-- What is declared and linked has a linked name. -/
theorem Program.mem_linkedNames_of_declaration {p : Program} {d : Declaration} (hd : d ∈ p.declarations)
    (hlinked : d.isLinked = true) : d.name ∈ p.linkedNames := by
  rw [← p.namesKept_storages.2, mem_namesKept]
  refine ⟨d.storage, ?_, ?_⟩
  · simpa [isLinked, Declaration.isLinked] using hlinked
  · rw [← p.entry_declarations]
    exact List.mem_map_of_mem hd

/-- The names of the variables that are not linked, in order. -/
theorem Program.ownNames_eq (p : Program) :
    (p.declarations.filter (!·.isLinked)).map Declaration.name = p.ownNames := by
  rw [← p.namesKept_storages.1, ← p.entry_declarations, namesKept, List.filter_map, List.map_map]
  congr 1
  apply List.filter_congr
  intro d _
  exact (decide_not).symm

/-! ## Shapes -/

/-- The declaration without the names of its own variables and of what its expressions mention. -/
def Declaration.shape : Declaration → Declaration
  | function head hasBody =>
    .function { head with params := head.params.map fun p => { p with ident := p.ident.shape } } hasBody
  | top d => .top { d with init := d.init.map Expr.shape }
  | inner d => .inner d.shape
  | automatic _ => .automatic ""

mutual
theorem Stmt.declarations_shape : ∀ s : Stmt, s.shape.declarations = s.declarations.map Declaration.shape
  | .ifThen _ s => s.declarations_shape
  | .ifElse _ s t => by
    rw [Stmt.declarations, List.map_append, ← s.declarations_shape, ← t.declarations_shape]
    rfl
  | .block items | .whileLoop _ items _ => itemsDeclarations_shape items
  | .loop var _ body _ => by
    rw [Stmt.declarations, List.map_append, ← itemsDeclarations_shape body]
    cases var <;> rfl
  | .eval _ | .ret .. | .leave .. | .next .. | .skip => rfl

theorem itemsDeclarations_shape : ∀ items : List Item,
    itemsDeclarations (itemsShape items) = (itemsDeclarations items).map Declaration.shape
  | [] => rfl
  | .stmt s :: rest => by
    rw [itemsShape, itemsDeclarations, itemsDeclarations, List.map_append, s.declarations_shape,
      itemsDeclarations_shape rest]
  | .var d :: rest => congrArg (Declaration.inner d.shape :: ·) (itemsDeclarations_shape rest)
  | .fn .. :: rest => itemsDeclarations_shape rest
end

theorem Decl.declarations_shape : ∀ d : Decl, d.shape.declarations = d.declarations.map Declaration.shape
  | .fn head none => by
    simp [Decl.shape, Decl.declarations, Declaration.shape, Ident.shape]
  | .fn head (some items) => by
    simp [Decl.shape, Decl.declarations, Declaration.shape, Ident.shape, itemsDeclarations_shape items]
  | .var d => rfl

theorem Program.declarations_shape (p : Program) : p.shape.declarations = p.declarations.map Declaration.shape := by
  simp only [Program.declarations, Program.shape, List.flatMap_map, List.map_flatMap, Decl.declarations_shape]

/-! ## Labels -/

mutual
theorem Stmt.declarations_unlabelled : ∀ s : Stmt, s.unlabelled.declarations = s.declarations
  | .ifThen _ s => s.declarations_unlabelled
  | .ifElse _ s t => congrArg₂ (· ++ ·) s.declarations_unlabelled t.declarations_unlabelled
  | .block items | .whileLoop _ items _ => itemsDeclarations_unlabelled items
  | .loop _ _ body _ => congrArg (_ ++ ·) (itemsDeclarations_unlabelled body)
  | .eval _ | .ret .. | .leave .. | .next .. | .skip => rfl

theorem itemsDeclarations_unlabelled : ∀ items : List Item,
    itemsDeclarations (itemsUnlabelled items) = itemsDeclarations items
  | [] => rfl
  | .stmt s :: rest => congrArg₂ (· ++ ·) s.declarations_unlabelled (itemsDeclarations_unlabelled rest)
  | .var d :: rest => congrArg (Declaration.inner d :: ·) (itemsDeclarations_unlabelled rest)
  | .fn .. :: rest => itemsDeclarations_unlabelled rest
end

theorem Decl.declarations_unlabelled : ∀ d : Decl, d.unlabelled.declarations = d.declarations
  | .fn head none => rfl
  | .fn head (some items) => by
    simp [Decl.unlabelled, Decl.declarations, itemsDeclarations_unlabelled items]
  | .var d => rfl

theorem Program.declarations_unlabelled (p : Program) : p.unlabelled.declarations = p.declarations := by
  simp only [Program.declarations, Program.unlabelled, List.flatMap_map, Decl.declarations_unlabelled]

/-! ## Before a program is checked -/

/-- Resolves the names of a program and labels its loops. -/
def Program.prepare (p : Program) : Except Rejection Program := do (← p.resolve).labelLoops

theorem Program.analyze_eq (p : Program) : p.analyze = (do (← liftM p.prepare : Program).check) := by
  rw [Program.analyze, Program.prepare]
  cases p.resolve <;> rfl

theorem Program.labelLoops_ids (p : Program) :
    Yields p.labelLoops (fun _ => True) fun r => r.unlabelled = p.unlabelled := by
  have hdecls : Ensures (labelDecls p.decls) 0 (fun _ => True) fun ds _ =>
      ds.map Decl.unlabelled = p.decls.map Decl.unlabelled :=
    .of_run fun _ _ hrun => ((labelDecls_heeds p.decls 0).of_ok hrun).2
  exact .bind (Ensures.run' hdecls) fun ds hds => .pure (congrArg Program.mk hds)

theorem exists_of_forall₂ {α β : Type} {R : α → β → Prop} {xs : List α} {ys : List β} (h : List.Forall₂ R xs ys) :
    (∀ x ∈ xs, ∃ y ∈ ys, R x y) ∧ ∀ y ∈ ys, ∃ x ∈ xs, R x y := by
  induction h with
  | nil => simp
  | cons hxy _ ih =>
    constructor
    · exact List.forall_mem_cons.2 ⟨⟨_, List.mem_cons_self, hxy⟩, fun x hx =>
        (ih.1 x hx).imp fun _ h => ⟨List.mem_cons_of_mem _ h.1, h.2⟩⟩
    · exact List.forall_mem_cons.2 ⟨⟨_, List.mem_cons_self, hxy⟩, fun y hy =>
        (ih.2 y hy).imp fun _ h => ⟨List.mem_cons_of_mem _ h.1, h.2⟩⟩

/-- The declaration `d` becomes `d'`: it keeps its shape, and a variable that is not linked gets a number. -/
structure Declaration.Becomes (d d' : Declaration) : Prop where
  shape : d'.shape = d.shape
  numbered : d.isLinked = false → ∃ n, d'.name = numbered d.name n

namespace Declaration

@[simp] theorem storage_shape (d : Declaration) : d.shape.storage = d.storage := by
  cases d with
  | inner d =>
    show d.shape.storage = d.storage
    unfold VarDecl.shape
    split <;> rfl
  | function | top | automatic => rfl

@[simp] theorem isLinked_shape (d : Declaration) : d.shape.isLinked = d.isLinked := by
  rw [isLinked, storage_shape, isLinked]

theorem name_shape {d : Declaration} (hd : d.isLinked = true) : d.shape.name = d.name := by
  cases d with
  | inner d =>
    have hx : d.isExternal := hd
    show d.shape.ident.name = d.ident.name
    rw [VarDecl.shape, if_pos hx]
  | function | top => rfl
  | automatic => cases hd

namespace Becomes

variable {d d' : Declaration}

theorem storage (h : d.Becomes d') : d'.storage = d.storage := by
  rw [← storage_shape d', h.shape, storage_shape]

theorem isLinked (h : d.Becomes d') : d'.isLinked = d.isLinked := by
  rw [← isLinked_shape d', h.shape, isLinked_shape]

theorem name (h : d.Becomes d') (hd : d.isLinked = true) : d'.name = d.name := by
  rw [← name_shape hd, ← h.shape, name_shape (h.isLinked.trans hd)]

/-- A name without a point is a linked one. -/
theorem isLinked_of_dotless (h : d.Becomes d') (hx : Dotless d'.name) : d.isLinked = true := by
  cases hl : d.isLinked with
  | true => rfl
  | false =>
    obtain ⟨n, hn⟩ := h.numbered hl
    exact absurd hn (hx.ne_numbered _ n)

end Becomes

/-- Declarations of one shape, of which those that are not linked are numbered in order. -/
theorem forall₂_becomes : ∀ {n : Nat} {ds ds' : List Declaration}, ds'.map shape = ds.map shape →
    (ds'.filter (!·.isLinked)).map name = numberFrom n ((ds.filter (!·.isLinked)).map name) →
    List.Forall₂ Becomes ds ds'
  | _, [], [], _, _ => .nil
  | n, d :: ds, d' :: ds', hshape, hnames => by
    obtain ⟨hd, hds⟩ := List.cons_eq_cons.1 hshape
    have hlinked : d'.isLinked = d.isLinked := by rw [← isLinked_shape d', hd, isLinked_shape]
    cases hl : d.isLinked with
    | true =>
      rw [List.filter_cons_of_neg (by simp [hlinked, hl]), List.filter_cons_of_neg (by simp [hl])] at hnames
      exact .cons ⟨hd, fun h => absurd h (by simp [hl])⟩ (forall₂_becomes hds hnames)
    | false =>
      rw [List.filter_cons_of_pos (by simp [hlinked, hl]), List.filter_cons_of_pos (by simp [hl])] at hnames
      obtain ⟨hname, hnames⟩ := List.cons_eq_cons.1 hnames
      exact .cons ⟨hd, fun _ => ⟨n, hname⟩⟩ (forall₂_becomes hds hnames)

end Declaration

/-- Before a program is checked, its variables that are not linked get numbers, and no other declaration changes. -/
theorem Program.prepare_declarations (p : Program) : Yields p.prepare (fun _ => True) fun r =>
    List.Forall₂ Declaration.Becomes p.declarations r.declarations ∧ r.ownNames.Nodup := by
  have hresolve : Yields p.resolve (fun _ => True) fun r => r = p.renamed := by
    rw [p.resolve_eq]
    cases p.broken with
    | nil => exact rfl
    | cons b bs => trivial
  apply Yields.bind (hresolve.and p.resolve_yields)
  rintro r₁ ⟨rfl, hown₁, _⟩
  apply (p.renamed.labelLoops_yields.and p.renamed.labelLoops_ids).mono
  rintro r ⟨⟨_, _, hown₂, _⟩, hunlabelled⟩
  have hshape : r.declarations.map Declaration.shape = p.declarations.map Declaration.shape := by
    rw [← r.declarations_unlabelled, hunlabelled, Program.declarations_unlabelled, ← Program.declarations_shape,
      p.shape_renamed, Program.declarations_shape]
  have hnames : r.ownNames = numberFrom 0 p.ownNames := hown₂.trans hown₁
  refine ⟨Declaration.forall₂_becomes (n := 0) hshape ?_, hnames ▸ nodup_numberFrom 0 _⟩
  rw [r.ownNames_eq, p.ownNames_eq, hnames]

end Khel
