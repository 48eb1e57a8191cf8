import Khel.Program.Operator
import Khel.Span
import Khel.Ty

/-!
# Expressions

Every node of an expression carries a note: where it stands, and its type once the program has been checked. The
`mk` functions build a node out of its parts and let it span them.
-/

namespace Khel

/-- What is known of an expression besides its shape. -/
structure Note where
  span : Span := .nowhere
  ty : Option Ty := none
  deriving DecidableEq

/-- An expression. -/
inductive Expr where
  | int (note : Note) (value : Int32)
  | long (note : Note) (value : Int64)
  | str (note : Note) (text : String)
  | var (note : Note) (name : String)
  | call (note : Note) (callee : String) (args : List Expr)
  | unary (note : Note) (op : UnaryOp) (arg : Expr)
  | binary (note : Note) (op : BinaryOp) (left right : Expr)
  | assign (note : Note) (target value : Expr)
  | cond (note : Note) (test yes no : Expr)
  /-- The integers from `first` to `last`, both included; as a value, how many they are. -/
  | range (note : Note) (first last : Expr)
  /-- A change of width, which checking puts where the programmer wrote none. -/
  | cast (note : Note) (target : Ty) (arg : Expr)

namespace Expr

/-! ## Notes -/

/-- The note on the root of an expression. -/
def note : Expr → Note
  | int n _ | long n _ | str n _ | var n _ | call n _ _ | unary n _ _ | binary n _ _ _ | assign n _ _ | cond n _ _ _
  | range n _ _ | cast n _ _ => n

/-- Where an expression stands. -/
def span (e : Expr) : Span := e.note.span

/-- The type found by checking. -/
def ty (e : Expr) : Option Ty := e.note.ty

/-- Puts another note on the root. -/
def setNote (n : Note) : Expr → Expr
  | int _ v => int n v
  | long _ v => long n v
  | str _ s => str n s
  | var _ x => var n x
  | call _ f as => call n f as
  | unary _ op a => unary n op a
  | binary _ op l r => binary n op l r
  | assign _ l r => assign n l r
  | cond _ c t f => cond n c t f
  | range _ l r => range n l r
  | cast _ t a => cast n t a

/-- Records the type of the root. -/
def setTy (t : Ty) (e : Expr) : Expr := e.setNote { e.note with ty := some t }

/-! ## Building -/

/-- Applies an operator that stands at `place`. -/
def mkUnary (place : Span) (op : UnaryOp) (arg : Expr) : Expr := unary { span := place.hull arg.span } op arg

/-- Joins two operands. -/
def mkBinary (op : BinaryOp) (left right : Expr) : Expr := binary { span := left.span.hull right.span } op left right

/-- Assigns a value. -/
def mkAssign (target value : Expr) : Expr := assign { span := target.span.hull value.span } target value

/-- Chooses between two values; the node reaches from the test to the second of them. -/
def mkCond (test yes no : Expr) : Expr := cond { span := test.span.hull no.span } test yes no

/-- Joins the ends of a range. -/
def mkRange (first last : Expr) : Expr := range { span := first.span.hull last.span } first last

/-- Changes the width of a value; the node stands where the value stands and has the new type. -/
def mkCast (target : Ty) (arg : Expr) : Expr := cast { span := arg.span, ty := some target } target arg

/-! ## Queries -/

/-- Is this a plain variable? -/
def isVar : Expr → Bool
  | var .. => true
  | _ => false

/-- Is this a range? -/
def isRange : Expr → Bool
  | range .. => true
  | _ => false

/-! ## Text -/

mutual
/-- An expression as it is shown to the user: as written, but without its brackets. -/
def text : Expr → String
  | int _ v => toString v.toInt
  | long _ v => toString v.toInt
  | str _ s => "\"" ++ s ++ "\""
  | var _ x => x
  | call _ f args => f ++ "(" ++ ", ".intercalate (texts args) ++ ")"
  | unary _ op a => op.symbol ++ a.text
  | binary _ op l r => l.text ++ " " ++ op.symbol ++ " " ++ r.text
  | assign _ l r => l.text ++ " = " ++ r.text
  | cond _ c t f => c.text ++ " ? " ++ t.text ++ " : " ++ f.text
  | range _ l r => l.text ++ ".." ++ r.text
  | cast _ _ a => a.text

/-- The text of each expression of a list. -/
def texts : List Expr → List String
  | [] => []
  | e :: es => e.text :: texts es
end

end Expr

end Khel
