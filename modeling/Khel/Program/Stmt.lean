import Khel.Program.Expr

/-!
# Statements, declarations and programs

A block is a list of items, and an item is a statement or a declaration. A function declared inside a block can be
written down here, since it is checking that refuses it.
-/

namespace Khel

/-- The types that can be written in a declaration. -/
inductive TypeName where
  | int | long | void | string
  deriving DecidableEq

/-- The type that a written type stands for. A function that returns nothing still leaves a narrow integer behind. -/
def TypeName.ty : TypeName → Ty
  | .int | .void => .int32
  | .long => .int64
  | .string => .string

/-- A written type as it is shown to the user. -/
def TypeName.text : TypeName → String
  | .int => "тоо"
  | .long => "64тоо"
  | .void => "хоосон"
  | .string => "мөр"

/-- A name, and where it stands. -/
structure Ident where
  name : String
  span : Span := .nowhere
  deriving DecidableEq

/-- A parameter of a function. -/
structure Param where
  ident : Ident
  type : TypeName
  deriving DecidableEq

/-- How a variable is kept, if it says so. -/
inductive Storage where
  /-- Defined elsewhere. -/
  | external
  /-- Kept for the whole run and not seen from outside. -/
  | static
  deriving DecidableEq

/-- The declaration of a variable. -/
structure VarDecl where
  ident : Ident
  type : TypeName
  init : Option Expr
  storage : Option Storage

/-- The declaration of a function, without its body. -/
structure FnHead where
  ident : Ident
  params : List Param
  ret : TypeName
  isPublic : Bool
  isExternal : Bool
  deriving DecidableEq

mutual
/-- A statement. Loops, and the jumps out of them, carry the loop's id once loops have been labelled. -/
inductive Stmt where
  | eval (e : Expr)
  | ret (value : Option Expr) (span : Span)
  | ifThen (test : Expr) (yes : Stmt)
  | ifElse (test : Expr) (yes no : Stmt)
  | block (items : List Item)
  | whileLoop (test : Expr) (body : List Item) (id : Option String)
  /-- Runs through a range if there is a variable and `control` is a range, and else while `control` is not zero. -/
  | loop (var : Option Ident) (control : Expr) (body : List Item) (id : Option String)
  /-- Leaves the loop. -/
  | leave (span : Span) (id : Option String)
  /-- Goes on with the next round of the loop. -/
  | next (span : Span) (id : Option String)
  | skip

/-- An item of a block. -/
inductive Item where
  | stmt (s : Stmt)
  | var (d : VarDecl)
  | fn (head : FnHead) (body : Option (List Item))
end

/-- A declaration at the top level. -/
inductive Decl where
  | fn (head : FnHead) (body : Option (List Item))
  | var (d : VarDecl)

/-- A program. -/
structure Program where
  decls : List Decl := []

/-- Does the variable live outside this program or function? -/
def VarDecl.isExternal (d : VarDecl) : Bool := d.storage = some .external

/-- The type of a function. -/
def FnHead.ty (head : FnHead) : Ty := .fn (head.params.map fun p => p.type.ty) head.ret.ty

mutual
/-- Is there a return in the statement, at any depth? -/
def Stmt.hasReturn : Stmt → Bool
  | .ret .. => true
  | .ifThen _ s => s.hasReturn
  | .ifElse _ s t => s.hasReturn || t.hasReturn
  | .block items => itemsHaveReturn items
  | .whileLoop _ body _ => itemsHaveReturn body
  | .loop _ _ body _ => itemsHaveReturn body
  | .eval _ | .leave .. | .next .. | .skip => false

/-- Is there a return in one of the items? -/
def itemsHaveReturn : List Item → Bool
  | [] => false
  | .stmt s :: rest => s.hasReturn || itemsHaveReturn rest
  | .var _ :: rest => itemsHaveReturn rest
  | .fn .. :: rest => itemsHaveReturn rest
end

end Khel
