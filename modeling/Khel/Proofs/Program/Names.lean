import Khel.Program.Stmt
import Khel.Proofs.Naming.Numbered

/-!
# The names that a program declares

A program declares names of two kinds. A parameter, a loop's variable and a variable of a block that is not external
stand for a variable of their own: two of them never share storage. Functions, variables of the top level and external
variables of a block are *linked*: all declarations of one name mean the same thing.

* `Program.IsPlain`: no declared name has a point in it, and no expression is a cast. Every program that was read from a
  text is like that.
-/

namespace Khel

/-! ## Casts -/

mutual
/-- Is there a cast in the expression? -/
def Expr.hasCast : Expr → Bool
  | .int .. | .long .. | .str .. | .var .. => false
  | .call _ _ args => Expr.haveCast args
  | .unary _ _ a => a.hasCast
  | .binary _ _ l r => l.hasCast || r.hasCast
  | .assign _ l r => l.hasCast || r.hasCast
  | .cond _ c t f => c.hasCast || t.hasCast || f.hasCast
  | .range _ l r => l.hasCast || r.hasCast
  | .cast .. => true

/-- Is there a cast in one of the expressions? -/
def Expr.haveCast : List Expr → Bool
  | [] => false
  | e :: es => e.hasCast || Expr.haveCast es
end

/-- Is there a cast in the initial value? -/
def VarDecl.hasCast (d : VarDecl) : Bool := d.init.any Expr.hasCast

mutual
/-- Is there a cast in the statement? -/
def Stmt.hasCast : Stmt → Bool
  | .eval e => e.hasCast
  | .ret value _ => value.any Expr.hasCast
  | .ifThen c s => c.hasCast || s.hasCast
  | .ifElse c s t => c.hasCast || s.hasCast || t.hasCast
  | .block items => itemsHaveCast items
  | .whileLoop c body _ => c.hasCast || itemsHaveCast body
  | .loop _ control body _ => control.hasCast || itemsHaveCast body
  | .leave .. | .next .. | .skip => false

/-- Is there a cast in one of the items? Functions inside functions are never looked into. -/
def itemsHaveCast : List Item → Bool
  | [] => false
  | .stmt s :: rest => s.hasCast || itemsHaveCast rest
  | .var d :: rest => d.hasCast || itemsHaveCast rest
  | .fn .. :: rest => itemsHaveCast rest
end

/-- Is there a cast in the declaration? -/
def Decl.hasCast : Decl → Bool
  | .fn _ body => body.any itemsHaveCast
  | .var d => d.hasCast

/-- Is there a cast in the program? -/
def Program.hasCast (p : Program) : Bool := p.decls.any Decl.hasCast

/-! ## Variables of their own -/

/-- The name of a variable of a block, if the variable is one of its own. -/
def VarDecl.ownNames (d : VarDecl) : List String := if d.isExternal then [] else [d.ident.name]

mutual
/-- The variables of their own that a statement declares, in the order of the text. -/
def Stmt.ownNames : Stmt → List String
  | .ifThen _ s => s.ownNames
  | .ifElse _ s t => s.ownNames ++ t.ownNames
  | .block items => itemsOwnNames items
  | .whileLoop _ body _ => itemsOwnNames body
  | .loop var _ body _ => var.toList.map Ident.name ++ itemsOwnNames body
  | .eval _ | .ret .. | .leave .. | .next .. | .skip => []

/-- The variables of their own that the items of a block declare. -/
def itemsOwnNames : List Item → List String
  | [] => []
  | .stmt s :: rest => s.ownNames ++ itemsOwnNames rest
  | .var d :: rest => d.ownNames ++ itemsOwnNames rest
  | .fn .. :: rest => itemsOwnNames rest
end

/-- The names of parameters. -/
def paramNames (params : List Param) : List String := params.map fun p => p.ident.name

/-- The variables of their own that a declaration of the top level declares. -/
def Decl.ownNames : Decl → List String
  | .fn head body => paramNames head.params ++ (body.map itemsOwnNames).getD []
  | .var _ => []

/-- The variables of their own that a program declares. -/
def Program.ownNames (p : Program) : List String := p.decls.flatMap Decl.ownNames

/-! ## Linked names -/

/-- The name of a variable of a block, if it is linked. -/
def VarDecl.linkedNames (d : VarDecl) : List String := if d.isExternal then [d.ident.name] else []

mutual
/-- The linked names that a statement declares. -/
def Stmt.linkedNames : Stmt → List String
  | .ifThen _ s => s.linkedNames
  | .ifElse _ s t => s.linkedNames ++ t.linkedNames
  | .block items => itemsLinkedNames items
  | .whileLoop _ body _ => itemsLinkedNames body
  | .loop _ _ body _ => itemsLinkedNames body
  | .eval _ | .ret .. | .leave .. | .next .. | .skip => []

/-- The linked names that the items of a block declare. -/
def itemsLinkedNames : List Item → List String
  | [] => []
  | .stmt s :: rest => s.linkedNames ++ itemsLinkedNames rest
  | .var d :: rest => d.linkedNames ++ itemsLinkedNames rest
  | .fn .. :: rest => itemsLinkedNames rest
end

/-- The linked names that a declaration of the top level declares. -/
def Decl.linkedNames : Decl → List String
  | .fn head body => head.ident.name :: (body.map itemsLinkedNames).getD []
  | .var d => [d.ident.name]

/-- The linked names that a program declares. -/
def Program.linkedNames (p : Program) : List String := p.decls.flatMap Decl.linkedNames

/-- The function that a declaration gives a body to. -/
def Decl.definedName? : Decl → Option String
  | .fn head (some _) => some head.ident.name
  | _ => none

/-- No declared name has a point in it, and no expression is a cast. -/
def Program.IsPlain (p : Program) : Prop :=
  p.hasCast = false ∧ (∀ x ∈ p.ownNames, Dotless x) ∧ ∀ x ∈ p.linkedNames, Dotless x

instance (p : Program) : Decidable p.IsPlain := inferInstanceAs (Decidable (_ ∧ _ ∧ _))

end Khel
