import Khel.Table
import Khel.Ty

/-!
# Symbols

The symbol table says of every name of a checked program what it stands for. Names are listed in the order in which
they were first declared; the intermediate code's temporaries follow them.
-/

namespace Khel

/-- The value that a variable of static storage starts with. -/
inductive StaticInit where
  | value (v : Int64)
  /-- Zero, unless some declaration gives a value. -/
  | tentative
  /-- Defined elsewhere. -/
  | absent
  deriving DecidableEq

/-- What a name stands for. -/
inductive Role where
  | function (isDefined isGlobal : Bool)
  /-- A parameter, a variable of one call, or a temporary. -/
  | automatic
  | static (init : StaticInit) (isGlobal : Bool)
  deriving DecidableEq

/-- What is known of a name. -/
structure Symbol where
  ty : Ty
  role : Role
  deriving DecidableEq

namespace Symbol

/-- Does the name stand for a function? -/
def isFunction (s : Symbol) : Bool :=
  match s.role with
  | .function .. => true
  | _ => false

/-- Is the name kept for the whole run? -/
def isStatic (s : Symbol) : Bool :=
  match s.role with
  | .static .. => true
  | _ => false

/-- Is the name defined here? A function is once its body was seen, and a static variable unless it lives elsewhere. -/
def isDefined (s : Symbol) : Bool :=
  match s.role with
  | .function isDefined _ => isDefined
  | .automatic => true
  | .static init _ => init ≠ .absent

end Symbol

/-- Everything known of the names of a program. -/
abbrev SymbolTable := Table Symbol

end Khel
