import Khel.Proofs.Program.Checkable

/-!
# Lexical scoping

A program is read here with a stack of open scopes. The file is the outermost of them; a function opens one for its
parameters and the items of its body, a compound block and the body of a loop open one each, and the variable of a loop
belongs to the scope of its body. A name means its declaration in the innermost scope that has one.

What such a reading finds is stated in two parts, and neither stops at the first mistake.

* `Program.broken`: the rules that the program breaks, in the order of the text.
* `Program.renamed`: the program with every name replaced by that of the declaration it means.
* `verdict`: the renamed program if no rule is broken, and the first broken rule otherwise.
* `Program.shape`: all that is left of a program without the names that stand for its own variables and for what its
  expressions mention.
-/

namespace Khel

/-! ## Scopes -/

/-- What a name was declared as. -/
inductive Declared where
  /-- A variable of its own, with its number among all of the program. -/
  | own (name : String) (number : Nat)
  /-- A name that all scopes share. -/
  | linked (name : String)

namespace Declared

/-- The name in the text. -/
def name : Declared → String
  | own x _ | linked x => x

def isLinked : Declared → Bool
  | own .. => false
  | linked _ => true

/-- The name that nothing else has. -/
def uniqueName : Declared → String
  | own x n => numbered x n
  | linked x => x

end Declared

/-- The declarations of the open scopes: the innermost scope stands first, and in it the latest declaration. -/
abbrev Scopes := List (List Declared)

namespace Scopes

/-- The declaration of a name in one scope. -/
def inScope? (x : String) (scope : List Declared) : Option Declared := scope.find? (·.name = x)

/-- The declaration that a name means, from the innermost scope outwards. -/
def meaning? (x : String) : Scopes → Option Declared
  | [] => none
  | scope :: outer => (inScope? x scope).or (meaning? x outer)

/-- The unique name of what a name means; a name without a meaning stays. -/
def rename (scopes : Scopes) (x : String) : String := ((scopes.meaning? x).map Declared.uniqueName).getD x

/-- Adds a declaration to the innermost scope. -/
def declare (d : Declared) : Scopes → Scopes
  | [] => [[d]]
  | scope :: outer => (d :: scope) :: outer

/-- Does the innermost scope have a declaration of this name already? Linked ones go together. -/
def clashes (scopes : Scopes) (d : Declared) : Bool :=
  (inScope? d.name (scopes.headD [])).any fun e => !(e.isLinked && d.isLinked)

/-- The rule that a declaration breaks. -/
def clash (scopes : Scopes) (d : Declared) (span : Span) : List Rejection :=
  if scopes.clashes d then [⟨.duplicateVariable d.name, span⟩] else []

end Scopes

/-! ## Expressions -/

mutual
/-- The rules that an expression breaks. -/
def Expr.broken (scopes : Scopes) : Expr → List Rejection
  | .int .. | .long .. | .str .. => []
  | .var note x => if (scopes.meaning? x).isSome then [] else [⟨.undeclaredVariable x, note.span⟩]
  | .call note f args =>
    (if (scopes.meaning? f).isSome then [] else [⟨.undeclaredFunction f, note.span⟩]) ++ Expr.allBroken scopes args
  | .unary _ _ a => a.broken scopes
  | .binary _ _ l r => l.broken scopes ++ r.broken scopes
  | .assign _ l r =>
    (if l.isVar then [] else [⟨.badTarget l.text, l.span⟩]) ++ (l.broken scopes ++ r.broken scopes)
  | .cond _ c t f => c.broken scopes ++ (t.broken scopes ++ f.broken scopes)
  | .range _ l r => l.broken scopes ++ r.broken scopes
  | .cast _ _ a => a.broken scopes

/-- The rules that a list of expressions breaks. -/
def Expr.allBroken (scopes : Scopes) : List Expr → List Rejection
  | [] => []
  | e :: es => e.broken scopes ++ Expr.allBroken scopes es
end

/-- The rules that an expression breaks, if there is one. -/
def Expr.broken? (scopes : Scopes) (value : Option Expr) : List Rejection := (value.map (Expr.broken scopes)).getD []

mutual
/-- The expression with its names replaced by those of what they mean. -/
def Expr.renamed (scopes : Scopes) : Expr → Expr
  | .int note v => .int note v
  | .long note v => .long note v
  | .str note s => .str note s
  | .var note x => .var note (scopes.rename x)
  | .call note f args => .call note (scopes.rename f) (Expr.allRenamed scopes args)
  | .unary note op a => .unary note op (a.renamed scopes)
  | .binary note op l r => .binary note op (l.renamed scopes) (r.renamed scopes)
  | .assign note l r => .assign note (l.renamed scopes) (r.renamed scopes)
  | .cond note c t f => .cond note (c.renamed scopes) (t.renamed scopes) (f.renamed scopes)
  | .range note l r => .range note (l.renamed scopes) (r.renamed scopes)
  | .cast note t a => .cast note t (a.renamed scopes)

/-- The expressions with their names replaced. -/
def Expr.allRenamed (scopes : Scopes) : List Expr → List Expr
  | [] => []
  | e :: es => e.renamed scopes :: Expr.allRenamed scopes es
end

/-! ## Statements

A variable of its own gets the number `n` of such variables before it in the text. -/

/-- What a variable of a block is declared as. -/
def VarDecl.declared (n : Nat) (d : VarDecl) : Declared :=
  if d.isExternal then .linked d.ident.name else .own d.ident.name n

/-- The rules that a variable of a block breaks. It is declared before its initial value is read; that of an external
one is not read at all. -/
def VarDecl.broken (scopes : Scopes) (n : Nat) (d : VarDecl) : List Rejection :=
  scopes.clash (d.declared n) d.ident.span ++
    if d.isExternal then [] else Expr.broken? (scopes.declare (d.declared n)) d.init

/-- A name, and where it stands, with the name replaced. -/
def Ident.numbered (n : Nat) (ident : Ident) : Ident := { ident with name := Khel.numbered ident.name n }

/-- A variable of a block with its names replaced. -/
def VarDecl.renamed (scopes : Scopes) (n : Nat) (d : VarDecl) : VarDecl :=
  if d.isExternal then d
  else { d with
    ident := d.ident.numbered n
    init := d.init.map (Expr.renamed (scopes.declare (d.declared n))) }

/-- The scopes in the body of a loop. -/
def Scopes.inLoop (scopes : Scopes) (n : Nat) (var : Option Ident) : Scopes :=
  (var.toList.map fun v => .own v.name n) :: scopes

mutual
/-- The rules that a statement breaks. -/
def Stmt.broken (scopes : Scopes) (n : Nat) : Stmt → List Rejection
  | .eval e => e.broken scopes
  | .ret value _ => Expr.broken? scopes value
  | .ifThen c s => c.broken scopes ++ s.broken scopes n
  | .ifElse c s t => c.broken scopes ++ (s.broken scopes n ++ t.broken scopes (n + s.ownNames.length))
  | .block items => itemsBroken ([] :: scopes) n items
  | .whileLoop c body _ => c.broken scopes ++ itemsBroken ([] :: scopes) n body
  | .loop var control body _ =>
    control.broken scopes ++ itemsBroken (scopes.inLoop n var) (n + var.toList.length) body
  | .leave .. | .next .. | .skip => []

/-- The rules that the items of a block break; each sees the declarations before it. -/
def itemsBroken (scopes : Scopes) (n : Nat) : List Item → List Rejection
  | [] => []
  | .stmt s :: rest => s.broken scopes n ++ itemsBroken scopes (n + s.ownNames.length) rest
  | .var d :: rest =>
    d.broken scopes n ++ itemsBroken (scopes.declare (d.declared n)) (n + d.ownNames.length) rest
  | .fn head _ :: rest =>
    ⟨.functionInsideFunction head.ident.name, head.ident.span⟩ :: itemsBroken scopes n rest
end

mutual
/-- The statement with its names replaced. -/
def Stmt.renamed (scopes : Scopes) (n : Nat) : Stmt → Stmt
  | .eval e => .eval (e.renamed scopes)
  | .ret value span => .ret (value.map (Expr.renamed scopes)) span
  | .ifThen c s => .ifThen (c.renamed scopes) (s.renamed scopes n)
  | .ifElse c s t => .ifElse (c.renamed scopes) (s.renamed scopes n) (t.renamed scopes (n + s.ownNames.length))
  | .block items => .block (itemsRenamed ([] :: scopes) n items)
  | .whileLoop c body id => .whileLoop (c.renamed scopes) (itemsRenamed ([] :: scopes) n body) id
  | .loop var control body id =>
    .loop (var.map (Ident.numbered n)) (control.renamed scopes)
      (itemsRenamed (scopes.inLoop n var) (n + var.toList.length) body) id
  | .leave span id => .leave span id
  | .next span id => .next span id
  | .skip => .skip

/-- The items of a block with their names replaced. -/
def itemsRenamed (scopes : Scopes) (n : Nat) : List Item → List Item
  | [] => []
  | .stmt s :: rest => .stmt (s.renamed scopes n) :: itemsRenamed scopes (n + s.ownNames.length) rest
  | .var d :: rest =>
    .var (d.renamed scopes n) :: itemsRenamed (scopes.declare (d.declared n)) (n + d.ownNames.length) rest
  | .fn head body :: rest => .fn head body :: itemsRenamed scopes n rest
end

/-! ## Programs -/

/-- The scope of the file behind some declarations. -/
def fileScope (earlier : List Decl) : Scopes := [earlier.reverse.map fun d => .linked d.name]

/-- The rules that parameters break. -/
def paramsBroken (scopes : Scopes) (n : Nat) : List Param → List Rejection
  | [] => []
  | p :: ps =>
    scopes.clash (.own p.ident.name n) p.ident.span ++ paramsBroken (scopes.declare (.own p.ident.name n)) (n + 1) ps

/-- The scopes behind some parameters. -/
def Scopes.withParams (scopes : Scopes) (n : Nat) : List Param → Scopes
  | [] => scopes
  | p :: ps => (scopes.declare (.own p.ident.name n)).withParams (n + 1) ps

/-- Parameters with their names replaced. -/
def paramsRenamed (n : Nat) : List Param → List Param
  | [] => []
  | p :: ps => { p with ident := p.ident.numbered n } :: paramsRenamed (n + 1) ps

/-- The rule that a second body for a function breaks. -/
def FnHead.secondBody (earlier : List Decl) (head : FnHead) (body : Option (List Item)) : List Rejection :=
  if body.isSome ∧ head.ident.name ∈ earlier.filterMap Decl.definedName? then
    [⟨.duplicateFunction head.ident.name, head.ident.span⟩]
  else []

/-- The scopes in which the body of a function is read. -/
def FnHead.scopes (earlier : List Decl) (n : Nat) (head : FnHead) (body : Option (List Item)) : Scopes :=
  Scopes.withParams ([] :: fileScope (earlier ++ [.fn head body])) n head.params

/-- The rules that a declaration of the top level breaks. It is visible in its own body or initial value. -/
def Decl.broken (earlier : List Decl) (n : Nat) : Decl → List Rejection
  | .fn head body =>
    head.secondBody earlier body ++
      (paramsBroken ([] :: fileScope (earlier ++ [.fn head body])) n head.params ++
        (body.map (itemsBroken (head.scopes earlier n body) (n + head.params.length))).getD [])
  | .var d => Expr.broken? (fileScope (earlier ++ [.var d])) d.init

/-- A declaration of the top level with its names replaced. -/
def Decl.renamed (earlier : List Decl) (n : Nat) : Decl → Decl
  | .fn head body =>
    .fn { head with params := paramsRenamed n head.params }
      (body.map (itemsRenamed (head.scopes earlier n body) (n + head.params.length)))
  | .var d => .var { d with init := d.init.map (Expr.renamed (fileScope (earlier ++ [.var d]))) }

/-- The rules that declarations of the top level break behind some earlier ones. -/
def declsBroken (earlier : List Decl) (n : Nat) : List Decl → List Rejection
  | [] => []
  | d :: ds => d.broken earlier n ++ declsBroken (earlier ++ [d]) (n + d.ownNames.length) ds

/-- Declarations of the top level with their names replaced. -/
def declsRenamed (earlier : List Decl) (n : Nat) : List Decl → List Decl
  | [] => []
  | d :: ds => d.renamed earlier n :: declsRenamed (earlier ++ [d]) (n + d.ownNames.length) ds

/-- The rules of scoping that a program breaks, in the order of the text. -/
def Program.broken (p : Program) : List Rejection := declsBroken [] 0 p.decls

/-- The program with every name replaced by that of the declaration it means. -/
def Program.renamed (p : Program) : Program := ⟨declsRenamed [] 0 p.decls⟩

/-- The result, if no rule is broken, and else the first broken rule. -/
def verdict {α : Type} (broken : List Rejection) (a : α) : Except Rejection α :=
  match broken with
  | [] => .ok a
  | r :: _ => .error r

/-! ## Shapes -/

mutual
/-- The expression without names. -/
def Expr.shape : Expr → Expr
  | .int note v => .int note v
  | .long note v => .long note v
  | .str note s => .str note s
  | .var note _ => .var note ""
  | .call note _ args => .call note "" (Expr.shapes args)
  | .unary note op a => .unary note op a.shape
  | .binary note op l r => .binary note op l.shape r.shape
  | .assign note l r => .assign note l.shape r.shape
  | .cond note c t f => .cond note c.shape t.shape f.shape
  | .range note l r => .range note l.shape r.shape
  | .cast note t a => .cast note t a.shape

/-- The expressions without names. -/
def Expr.shapes : List Expr → List Expr
  | [] => []
  | e :: es => e.shape :: Expr.shapes es
end

/-- Where a name stands. -/
def Ident.shape (ident : Ident) : Ident := { ident with name := "" }

/-- A variable of a block without names, if it is one of its own. -/
def VarDecl.shape (d : VarDecl) : VarDecl :=
  if d.isExternal then d else { d with ident := d.ident.shape, init := d.init.map Expr.shape }

mutual
/-- The statement without names. -/
def Stmt.shape : Stmt → Stmt
  | .eval e => .eval e.shape
  | .ret value span => .ret (value.map Expr.shape) span
  | .ifThen c s => .ifThen c.shape s.shape
  | .ifElse c s t => .ifElse c.shape s.shape t.shape
  | .block items => .block (itemsShape items)
  | .whileLoop c body id => .whileLoop c.shape (itemsShape body) id
  | .loop var control body id => .loop (var.map Ident.shape) control.shape (itemsShape body) id
  | .leave span id => .leave span id
  | .next span id => .next span id
  | .skip => .skip

/-- The items of a block without names. -/
def itemsShape : List Item → List Item
  | [] => []
  | .stmt s :: rest => .stmt s.shape :: itemsShape rest
  | .var d :: rest => .var d.shape :: itemsShape rest
  | .fn head body :: rest => .fn head body :: itemsShape rest
end

/-- A declaration of the top level under its own name, and without the other names. -/
def Decl.shape : Decl → Decl
  | .fn head body =>
    .fn { head with params := head.params.map fun p => { p with ident := p.ident.shape } } (body.map itemsShape)
  | .var d => .var { d with init := d.init.map Expr.shape }

/-- The program without the names that stand for its own variables and for what its expressions mention. -/
def Program.shape (p : Program) : Program := ⟨p.decls.map Decl.shape⟩

end Khel
