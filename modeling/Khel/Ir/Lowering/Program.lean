import Khel.Ir.Lowering.Stmt

/-!
# Lowering of programs

Functions with a body are lowered in order. The variables of static storage are read off the symbol table, which lists
them in the order of their declaration wherever that stood.
-/

namespace Khel

open Ir

/-- Is the function seen from outside? -/
def FnHead.isGlobalNow (head : FnHead) : Lowering Bool := do
  match (← get).symbols.get? head.ident.name with
  | some ⟨_, .function _ isGlobal⟩ => return isGlobal
  | some _ => Lowering.unexpected ("'" ++ head.ident.name ++ "' is not a function")
  | none => throw (.missingSymbol .irGen head.ident.name)

/-- Lowers a function. One that never says so returns zero at its end. -/
def FnHead.lower (head : FnHead) : Option (List Item) → Lowering Function
  | none => Lowering.unexpected ("function '" ++ head.ident.name ++ "' has no body")
  | some body => do
    let isGlobal ← head.isGlobalNow
    let code ← lowerItems body
    return { name := head.ident.name
             isGlobal
             params := head.params.map fun p => p.ident.name
             code := if itemsHaveReturn body then code else code ++ [.ret (.int 0)] }

/-- Lowers the functions that have a body. -/
def lowerFunctions : List Decl → Lowering (List Function)
  | [] => return []
  | .fn head body :: rest =>
    if body.isSome then return (← head.lower body) :: (← lowerFunctions rest) else lowerFunctions rest
  | .var _ :: rest => lowerFunctions rest

/-- The name of a function that is declared to live elsewhere. -/
def Decl.externalName? : Decl → Option String
  | .fn head none => if head.isExternal then some head.ident.name else none
  | _ => none

/-- The variable of static storage that a symbol stands for, if it is defined here. -/
def Symbol.staticVar? (name : String) (symbol : Symbol) : Option StaticVar :=
  match symbol.role with
  | .static (.value v) isGlobal => some ⟨name, isGlobal, symbol.ty, v⟩
  | .static .tentative isGlobal => some ⟨name, isGlobal, symbol.ty, 0⟩
  | _ => none

/-- The variables of static storage that are defined here, in order. -/
def SymbolTable.staticVars (symbols : SymbolTable) : List StaticVar :=
  symbols.entries.filterMap fun e => e.2.staticVar? e.1

/-- Lowers a checked program. The symbol table comes back with the temporaries added. -/
def Program.lower (p : Program) (symbols : SymbolTable) : Except Fault (Ir.Program × SymbolTable) := do
  let (functions, state) ← (lowerFunctions p.decls).run { symbols }
  return ({ functions
            statics := SymbolTable.staticVars state.symbols
            externals := (p.decls.filterMap Decl.externalName?).eraseDups },
    state.symbols)

end Khel
