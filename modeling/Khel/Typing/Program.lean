import Khel.Typing.Stmt

/-!
# Types in programs

A function or a variable of the top level may be declared more than once. Its declarations have to agree, and the symbol
table keeps what they say together: a function is defined once one of them has a body, and a variable has the value of
the one declaration that gives it one.
-/

namespace Khel

/-- What two declarations of a static variable say together of its first value; at most one of them may give it. -/
def StaticInit.merge? : StaticInit → StaticInit → Option StaticInit
  | .value _, .value _ => none
  | .value v, _ | _, .value v => some (.value v)
  | .tentative, _ | _, .tentative => some .tentative
  | .absent, .absent => some .absent

/-- The symbol of a function after one more declaration of it. -/
def FnHead.symbol (head : FnHead) (hasBody : Bool) (prior : Option Symbol) : Except Rejection Symbol :=
  let name := head.ident.name
  let isGlobal := head.isPublic || head.isExternal
  match prior with
  | none => .ok ⟨head.ty, .function (hasBody && !head.isExternal) isGlobal⟩
  | some ⟨ty, .function wasDefined wasGlobal⟩ =>
    if wasDefined && hasBody then .error ⟨.duplicateFunction name, head.ident.span⟩
    else if ty.arity?.getD 0 ≠ head.params.length then
      .error ⟨.arityMismatch name (ty.arity?.getD 0) head.params.length, head.ident.span⟩
    else if ty ≠ head.ty then .error ⟨.redeclared name, head.ident.span⟩
    else .ok ⟨head.ty, .function ((hasBody || wasDefined) && !head.isExternal) (isGlobal || wasGlobal)⟩
  | some _ => .error ⟨.redeclared name, head.ident.span⟩

/-- The symbol of a variable of the top level after one more declaration of it, which says `init` of its value. -/
def VarDecl.symbol (d : VarDecl) (init : StaticInit) (prior : Option Symbol) : Except Rejection Symbol :=
  let name := d.ident.name
  let isGlobal := d.storage ≠ some .static
  match prior with
  | none => .ok ⟨d.type.ty, .static init isGlobal⟩
  | some ⟨ty, .static before wasGlobal⟩ =>
    if ty ≠ d.type.ty then .error ⟨.redeclared name, d.ident.span⟩
    else
      match before.merge? init with
      | some merged => .ok ⟨d.type.ty, .static merged (if d.isExternal then wasGlobal else isGlobal)⟩
      | none => .error ⟨.duplicateVariable name, d.ident.span⟩
  | some _ => .error ⟨.redeclared name, d.ident.span⟩

/-- Enters the parameters of a function, also of one without a body. -/
def Param.enterAll : List Param → Checking Unit
  | [] => return
  | p :: ps => do
    Checking.enter p.ident.name ⟨p.type.ty, .automatic⟩
    Param.enterAll ps

/-- Checks a declaration of the top level. -/
def Decl.check : Decl → Checking Decl
  | .fn head body => do
    let symbol ← head.symbol body.isSome ((← get).get? head.ident.name)
    Checking.enter head.ident.name symbol
    Param.enterAll head.params
    match body with
    | none => return .fn head none
    | some items => return .fn head (some (← checkItems head.ret.ty items))
  | .var d =>
    match d.init with
    | none => do
      let init := if d.isExternal then .absent else .tentative
      Checking.enter d.ident.name (← d.symbol init ((← get).get? d.ident.name))
      return .var d
    | some e => do
      let (e, v) ← Checking.staticInit d.ident.name d.type.ty e
      Checking.enter d.ident.name (← d.symbol (.value v) ((← get).get? d.ident.name))
      return .var { d with init := some e }

/-- Checks declarations of the top level in order. -/
def checkDecls : List Decl → Checking (List Decl)
  | [] => return []
  | d :: ds => return (← d.check) :: (← checkDecls ds)

/-- Checks a program, and gives it back with its symbol table. -/
def Program.check (p : Program) : Except CompileError (Program × SymbolTable) := do
  let (decls, symbols) ← (checkDecls p.decls).run .empty
  return (⟨decls⟩, symbols)

end Khel
