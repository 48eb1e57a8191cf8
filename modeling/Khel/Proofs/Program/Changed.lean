import Khel.Program.Stmt

/-!
# Changing a program from the leaves

Some functions on programs look at expressions, names and places only, and leave the shape of statements and
declarations as it is. A `Change` says what they do at these leaves, and what they do at an initial value that nothing
reads.

* `Program.change`: the program with its leaves changed.
* `Program.exprs`, `Program.nodes`: the expressions of a program, and those together with their parts.
-/

namespace Khel

/-- What becomes of the leaves of a program. -/
structure Change where
  expr : Expr → Expr
  /-- What becomes of an initial value that nothing reads: that of an external variable of a block. -/
  idle : Expr → Expr := expr
  ident : Ident → Ident := id
  span : Span → Span := id

/-! ## Changing -/

/-- Changes the declaration of a variable. -/
def VarDecl.change (c : Change) (d : VarDecl) : VarDecl :=
  { d with ident := c.ident d.ident, init := d.init.map c.expr }

/-- Changes a variable of a block. -/
def VarDecl.changeLocal (c : Change) (d : VarDecl) : VarDecl :=
  d.change (if d.isExternal then { c with expr := c.idle } else c)

theorem VarDecl.changeLocal_eq {c : Change} (h : c.idle = c.expr) (d : VarDecl) : d.changeLocal c = d.change c := by
  cases c
  cases h
  exact congrArg d.change (ite_self _)

/-- Changes a parameter. -/
def Param.change (c : Change) (p : Param) : Param := { p with ident := c.ident p.ident }

/-- Changes the declaration of a function, without its body. -/
def FnHead.change (c : Change) (head : FnHead) : FnHead :=
  { head with ident := c.ident head.ident, params := head.params.map (Param.change c) }

mutual
/-- Changes a statement. -/
def Stmt.change (c : Change) : Stmt → Stmt
  | .eval e => .eval (c.expr e)
  | .ret value span => .ret (value.map c.expr) (c.span span)
  | .ifThen e s => .ifThen (c.expr e) (s.change c)
  | .ifElse e s t => .ifElse (c.expr e) (s.change c) (t.change c)
  | .block items => .block (changeItems c items)
  | .whileLoop e body id => .whileLoop (c.expr e) (changeItems c body) id
  | .loop var control body id => .loop (var.map c.ident) (c.expr control) (changeItems c body) id
  | .leave span id => .leave (c.span span) id
  | .next span id => .next (c.span span) id
  | .skip => .skip

/-- Changes the items of a block. Functions inside functions are never looked into. -/
def changeItems (c : Change) : List Item → List Item
  | [] => []
  | .stmt s :: rest => .stmt (s.change c) :: changeItems c rest
  | .var d :: rest => .var (d.changeLocal c) :: changeItems c rest
  | .fn head body :: rest => .fn head body :: changeItems c rest
end

/-- Changes a declaration of the top level. -/
def Decl.change (c : Change) : Decl → Decl
  | .fn head body => .fn (head.change c) (body.map (changeItems c))
  | .var d => .var (d.change c)

/-- Changes a program. -/
def Program.change (c : Change) (p : Program) : Program := ⟨p.decls.map (Decl.change c)⟩

/-! ## The expressions of a program -/

/-- The expressions of the declaration of a variable. -/
def VarDecl.exprs (d : VarDecl) : List Expr := d.init.toList

mutual
/-- The expressions of a statement. -/
def Stmt.exprs : Stmt → List Expr
  | .eval e => [e]
  | .ret value _ => value.toList
  | .ifThen e s => e :: s.exprs
  | .ifElse e s t => e :: (s.exprs ++ t.exprs)
  | .block items => itemsExprs items
  | .whileLoop e body _ => e :: itemsExprs body
  | .loop _ control body _ => control :: itemsExprs body
  | .leave .. | .next .. | .skip => []

/-- The expressions of the items of a block. -/
def itemsExprs : List Item → List Expr
  | [] => []
  | .stmt s :: rest => s.exprs ++ itemsExprs rest
  | .var d :: rest => d.exprs ++ itemsExprs rest
  | .fn _ none :: rest => itemsExprs rest
  | .fn _ (some body) :: rest => itemsExprs body ++ itemsExprs rest
end

/-- The expressions of a declaration of the top level. -/
def Decl.exprs : Decl → List Expr
  | .fn _ body => (body.map itemsExprs).getD []
  | .var d => d.exprs

/-- The expressions of a program that are no parts of others. -/
def Program.exprs (p : Program) : List Expr := p.decls.flatMap Decl.exprs

mutual
/-- An expression and all its parts. -/
def Expr.nodes : Expr → List Expr
  | .int note v => [.int note v]
  | .long note v => [.long note v]
  | .str note s => [.str note s]
  | .var note x => [.var note x]
  | .call note f args => .call note f args :: Expr.allNodes args
  | .unary note op a => .unary note op a :: a.nodes
  | .binary note op l r => .binary note op l r :: (l.nodes ++ r.nodes)
  | .assign note l r => .assign note l r :: (l.nodes ++ r.nodes)
  | .cond note c t f => .cond note c t f :: (c.nodes ++ t.nodes ++ f.nodes)
  | .range note l r => .range note l r :: (l.nodes ++ r.nodes)
  | .cast note t a => .cast note t a :: a.nodes

/-- The expressions of a list and all their parts. -/
def Expr.allNodes : List Expr → List Expr
  | [] => []
  | e :: es => e.nodes ++ Expr.allNodes es
end

/-- All expressions of a program, with their parts. -/
def Program.nodes (p : Program) : List Expr := p.exprs.flatMap Expr.nodes

end Khel
