import Khel.Program.Stmt
import Khel.Typing.Expr

/-!
# Types in statements

Checking walks a function body in the order of the text and enters every variable it meets into the symbol table, so an
expression sees the variables declared before it.
-/

namespace Khel

/-- A step that reads and extends the symbol table. -/
abbrev Checking (α : Type) := StateT SymbolTable (Except CompileError) α

namespace Checking

/-- Rejects the program. -/
def reject {α : Type} (complaint : Complaint) (span : Span) : Checking α := throw (.rejected ⟨complaint, span⟩)

/-- Enters a name into the symbol table. -/
def enter (name : String) (symbol : Symbol) : Checking Unit := modify (·.set name symbol)

/-- Checks an expression under the symbols entered so far. -/
def expr (e : Expr) : Checking Expr := do e.check (← get)

/-- Checks an expression and converts it to a type. -/
def exprAs (target : Ty) (e : Expr) : Checking Expr := do
  let e ← expr e
  e.convert target

/-- Checks the initial value of a static variable, and works it out in the width of the variable. -/
def staticInit (name : String) (ty : Ty) (e : Expr) : Checking (Expr × Int64) :=
  match e.constant? with
  | none => reject (.initializerNotConstant name) e.span
  | some v => return (← exprAs ty e, ty.truncate v)

end Checking

/-- Checks a variable that names one defined elsewhere, from inside a function. -/
def VarDecl.checkExternal (d : VarDecl) : Checking VarDecl :=
  if d.init.isSome then Checking.reject (.externalWithInitializer d.ident.name) d.ident.span
  else do
    match (← get).get? d.ident.name with
    | some prior =>
      if prior.isFunction || prior.ty ≠ d.type.ty then Checking.reject (.redeclared d.ident.name) d.ident.span
      else return d
    | none =>
      Checking.enter d.ident.name ⟨d.type.ty, .static .absent true⟩
      return d

/-- Checks a variable of a function that is kept for the whole run. -/
def VarDecl.checkStatic (d : VarDecl) : Checking VarDecl :=
  match d.init with
  | none => do
    Checking.enter d.ident.name ⟨d.type.ty, .static (.value 0) false⟩
    return d
  | some e => do
    let (e, v) ← Checking.staticInit d.ident.name d.type.ty e
    Checking.enter d.ident.name ⟨d.type.ty, .static (.value v) false⟩
    return { d with init := some e }

/-- Checks a variable of one call of a function; it is known in its own initial value. -/
def VarDecl.checkAutomatic (d : VarDecl) : Checking VarDecl := do
  Checking.enter d.ident.name ⟨d.type.ty, .automatic⟩
  match d.init with
  | none => return d
  | some e => return { d with init := some (← Checking.exprAs d.type.ty e) }

/-- Checks a variable declared in a block. -/
def VarDecl.checkLocal (d : VarDecl) : Checking VarDecl :=
  match d.storage with
  | some .external => d.checkExternal
  | some .static => d.checkStatic
  | none => d.checkAutomatic

mutual
/-- Checks a statement of a function that returns `ret`. -/
def Stmt.check (ret : Ty) : Stmt → Checking Stmt
  | .eval e => return .eval (← Checking.expr e)
  | .ret none span => return .ret none span
  | .ret (some e) span => return .ret (some (← Checking.exprAs ret e)) span
  | .ifThen c s => return .ifThen (← Checking.expr c) (← s.check ret)
  | .ifElse c s t => return .ifElse (← Checking.expr c) (← s.check ret) (← t.check ret)
  | .block items => return .block (← checkItems ret items)
  | .whileLoop c body id => return .whileLoop (← Checking.expr c) (← checkItems ret body) id
  | .loop var control body id => do
    let control ← Checking.expr control
    match var with
    | some ident =>
      Checking.enter ident.name ⟨← control.counterTy, .automatic⟩
      return .loop var control (← checkItems ret body) id
    | none => return .loop var control (← checkItems ret body) id
  | .leave span id => return .leave span id
  | .next span id => return .next span id
  | .skip => return .skip

/-- Checks the items of a block in order. -/
def checkItems (ret : Ty) : List Item → Checking (List Item)
  | [] => return []
  | .stmt s :: rest => return .stmt (← s.check ret) :: (← checkItems ret rest)
  | .var d :: rest => return .var (← d.checkLocal) :: (← checkItems ret rest)
  | .fn head _ :: _ =>
    throw (.fault (.unexpected .typeChecker ("function declaration '" ++ head.ident.name ++ "' in a block")))
end

end Khel
