import Khel.Naming.Scope

/-!
# Name resolution

Resolution replaces every name by the unique name of what it denotes. It follows lexical scoping: a function's
parameters and the items of its body share a scope, and so do a loop's variable and its body; every other block has a
scope of its own. A local variable is visible in its own initial value, a loop's variable is not visible in what the
loop runs over.

Only names change. The first broken rule, in the order of the program text, rejects the program.
-/

namespace Khel

/-! ## Expressions -/

mutual
/-- Resolves the names in an expression. -/
def Expr.resolve (scope : Scope) : Expr → Except Rejection Expr
  | .int note v => return .int note v
  | .long note v => return .long note v
  | .str note s => return .str note s
  | .var note x =>
    match scope.get? x with
    | some b => return .var note b.uniqueName
    | none => throw ⟨.undeclaredVariable x, note.span⟩
  | .call note f args =>
    match scope.get? f with
    | some b => return .call note b.uniqueName (← Expr.resolveAll scope args)
    | none => throw ⟨.undeclaredFunction f, note.span⟩
  | .unary note op a => return .unary note op (← a.resolve scope)
  | .binary note op l r => return .binary note op (← l.resolve scope) (← r.resolve scope)
  | .assign note l r =>
    if l.isVar then return .assign note (← l.resolve scope) (← r.resolve scope)
    else throw ⟨.badTarget l.text, l.span⟩
  | .cond note c t f => return .cond note (← c.resolve scope) (← t.resolve scope) (← f.resolve scope)
  | .range note l r => return .range note (← l.resolve scope) (← r.resolve scope)
  | .cast note t a => return .cast note t (← a.resolve scope)

/-- Resolves the names in a list of expressions, from left to right. -/
def Expr.resolveAll (scope : Scope) : List Expr → Except Rejection (List Expr)
  | [] => return []
  | e :: es => return (← e.resolve scope) :: (← Expr.resolveAll scope es)
end

/-- Resolves the names in an expression that may be missing. -/
def Expr.resolve? (scope : Scope) : Option Expr → Except Rejection (Option Expr)
  | none => return none
  | some e => return some (← e.resolve scope)

/-! ## Statements -/

/-- Resolves a variable declared in a block, and gives the scope after it. An external one denotes the name that all
scopes share; its initial value is left to be refused later. -/
def VarDecl.resolve (scope : Scope) (d : VarDecl) : Fresh (VarDecl × Scope) :=
  if d.isExternal then
    if scope.declaresOwn d.ident.name then Fresh.reject (.duplicateVariable d.ident.name) d.ident.span
    else return (d, scope.link d.ident.name)
  else do
    let (ident, scope) ← scope.declare d.ident
    return ({ d with ident, init := ← Expr.resolve? scope d.init }, scope)

/-- Declares the variable of a loop, if it has one. -/
def Scope.declare? (scope : Scope) : Option Ident → Fresh (Option Ident × Scope)
  | none => return (none, scope)
  | some ident => do
    let (ident, scope) ← scope.declare ident
    return (some ident, scope)

mutual
/-- Resolves the names in a statement. -/
def Stmt.resolve (scope : Scope) : Stmt → Fresh Stmt
  | .eval e => return .eval (← e.resolve scope)
  | .ret value span => return .ret (← Expr.resolve? scope value) span
  | .ifThen c s => return .ifThen (← c.resolve scope) (← s.resolve scope)
  | .ifElse c s t => return .ifElse (← c.resolve scope) (← s.resolve scope) (← t.resolve scope)
  | .block items => return .block (← resolveItems scope.enter items)
  | .whileLoop c body id => return .whileLoop (← c.resolve scope) (← resolveItems scope.enter body) id
  | .loop var control body id => do
    let control ← control.resolve scope
    let (var, inner) ← scope.enter.declare? var
    return .loop var control (← resolveItems inner body) id
  | .leave span id => return .leave span id
  | .next span id => return .next span id
  | .skip => return .skip

/-- Resolves the items of a block; each sees the declarations before it. -/
def resolveItems (scope : Scope) : List Item → Fresh (List Item)
  | [] => return []
  | .stmt s :: rest => return .stmt (← s.resolve scope) :: (← resolveItems scope rest)
  | .var d :: rest => do
    let (d, scope) ← d.resolve scope
    return .var d :: (← resolveItems scope rest)
  | .fn head _ :: _ => Fresh.reject (.functionInsideFunction head.ident.name) head.ident.span
end

/-! ## Programs -/

/-- What the top level knows after some declarations. -/
structure TopLevel where
  scope : Scope := .empty
  /-- The functions that have a body. -/
  defined : List String := []

/-- Declares the parameters of a function one after the other. -/
def Scope.declareParams (scope : Scope) : List Param → Fresh (List Param × Scope)
  | [] => return ([], scope)
  | p :: ps => do
    let (ident, scope) ← scope.declare p.ident
    let (ps, scope) ← scope.declareParams ps
    return ({ p with ident } :: ps, scope)

/-- Resolves a declaration of the top level, and gives what is known after it. -/
def Decl.resolve (top : TopLevel) : Decl → Fresh (Decl × TopLevel)
  | .fn head body =>
    let name := head.ident.name
    if body.isSome && top.defined.contains name then Fresh.reject (.duplicateFunction name) head.ident.span
    else do
      let scope := top.scope.link name
      let (params, inner) ← scope.enter.declareParams head.params
      let head := { head with params }
      match body with
      | some items => return (.fn head (some (← resolveItems inner items)), ⟨scope, name :: top.defined⟩)
      | none => return (.fn head none, { top with scope })
  | .var d => do
    let scope := top.scope.link d.ident.name
    return (.var { d with init := ← Expr.resolve? scope d.init }, { top with scope })

/-- Resolves declarations of the top level; each sees those before it. -/
def resolveDecls (top : TopLevel) : List Decl → Fresh (List Decl)
  | [] => return []
  | d :: ds => do
    let (d, top) ← d.resolve top
    return d :: (← resolveDecls top ds)

/-- Resolves all names of a program. -/
def Program.resolve (p : Program) : Except Rejection Program :=
  return ⟨← (resolveDecls {} p.decls).run' 0⟩

end Khel
