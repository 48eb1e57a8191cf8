import Khel.Proofs.Ir.Points
import Mathlib.Algebra.Group.Nat.Defs
import Mathlib.Algebra.Ring.Int.Defs
import Mathlib.Logic.Function.Basic
import Mathlib.Logic.Relation

/-!
# What intermediate code does

A variable holds a signed integer, and what is written to it is wrapped to the width of its type. Texts are known by
their addresses, and a call is answered by the world outside: it sees the arguments and the variables of static storage,
and it may change the latter.

* `Ir.Instr.exec`: what one instruction does.
* `Ir.Steps`: runs, from point to point of a function.
-/

namespace Khel

/-! ## Integers of a width -/

/-- How many bits hold a value of the type. -/
def Ty.bits : Ty → Nat
  | .int32 => 32
  | _ => 64

/-- The signed integer that is left of `v` in the width of the type. -/
def Ty.wrap (t : Ty) (v : Int) : Int := v.bmod (2 ^ t.bits)

/-- The least value of the type. -/
def Ty.least (t : Ty) : Int := -2 ^ (t.bits - 1)

/-- One for what holds, and zero for what does not. -/
def truth (b : Bool) : Int := if b then 1 else 0

def UnaryOp.apply (t : Ty) : UnaryOp → Int → Int
  | .negate, a => t.wrap (-a)
  | .complement, a => t.wrap (-a - 1)
  | .logicalNot, a => truth (a = 0)

/-- Has the division no result? -/
def divisionFails (t : Ty) (a b : Int) : Bool := b = 0 ∨ a = t.least ∧ b = -1

/-- Arithmetic wraps, and division rounds towards zero. -/
def ArithOp.apply (t : Ty) : ArithOp → Int → Int → Option Int
  | .add, a, b => some (t.wrap (a + b))
  | .sub, a, b => some (t.wrap (a - b))
  | .mul, a, b => some (t.wrap (a * b))
  | .div, a, b => if divisionFails t a b then none else some (t.wrap (a.tdiv b))
  | .rem, a, b => if divisionFails t a b then none else some (t.wrap (a.tmod b))

def CompareOp.holds : CompareOp → Int → Int → Bool
  | .eq, a, b => a = b
  | .ne, a, b => a ≠ b
  | .lt, a, b => a < b
  | .le, a, b => a ≤ b
  | .gt, a, b => b < a
  | .ge, a, b => b ≤ a

theorem CompareOp.holds_eq (a b : Int) : CompareOp.eq.holds a b = decide (a = b) := rfl

def StrictOp.apply (t : Ty) : StrictOp → Int → Int → Option Int
  | .arith op, a, b => op.apply t a b
  | .compare op, a, b => some (truth (op.holds a b))

/-! ## The world outside -/

/-- The values of the variables. -/
abbrev Store := String → Int

/-- What a program does not say itself: where its texts and its static variables stand, and what a call does, given its
arguments and the static variables. -/
structure World where
  text : String → Int64
  data : String → Int64
  call : String → List Int → Store → Int × Store

/-- Is the name a variable of static storage? -/
def SymbolTable.isStatic (T : SymbolTable) (x : String) : Bool := (T.get? x).any Symbol.isStatic

/-- The variables of static storage alone. -/
def Store.statics (T : SymbolTable) (s : Store) : Store := fun x => if T.isStatic x then s x else 0

/-- The store with the variables of static storage replaced. -/
def Store.setStatics (T : SymbolTable) (s new : Store) : Store := fun x => if T.isStatic x then new x else s x

/-- The result of a call, and the store after it. -/
def World.answer (w : World) (T : SymbolTable) (f : String) (args : List Int) (s : Store) : Int × Store :=
  ((w.call f args (s.statics T)).1, s.setStatics T (w.call f args (s.statics T)).2)

namespace Ir

/-! ## Instructions -/

/-- Where control goes after an instruction. -/
inductive Flow where
  | next
  | goto (target : String)
  | ret (v : Int)
  deriving DecidableEq

/-- The type of a value. -/
def Value.ty? (T : SymbolTable) : Value → Option Ty
  | .int _ => some .int32
  | .long _ => some .int64
  | .str _ => some .string
  | .var x => (T.get? x).map Symbol.ty

/-- The value has this type, which is not that of a function. -/
def Value.HasTy (T : SymbolTable) (t : Ty) (v : Value) : Prop := v.ty? T = some t ∧ t.isFunction = false

/-- The value is a variable of this type. -/
def Value.IsVarOf (T : SymbolTable) (t : Ty) (v : Value) : Prop := v.HasTy T t ∧ ∃ x, v = .var x

/-- The value as an integer. -/
def Value.read (w : World) (s : Store) : Value → Int
  | .int v => v.toInt
  | .long v => v.toInt
  | .str text => (w.text text).toInt
  | .var x => s x

/-- Writes a value; only a variable can be written. -/
def Value.write (s : Store) (v : Int) : Value → Option Store
  | .var x => some (Function.update s x v)
  | _ => none

/-- What one instruction does to the store, and where control goes. Operations work in the width of the destination. -/
def Instr.exec (w : World) (T : SymbolTable) (s : Store) : Instr → Option (Flow × Store)
  | .ret v => some (.ret (v.read w s), s)
  | .signExtend src dst | .truncate src dst | .copy src dst => do
    let t ← dst.ty? T
    return (.next, ← dst.write s (t.wrap (src.read w s)))
  | .unary op src dst => do
    let t ← dst.ty? T
    return (.next, ← dst.write s (op.apply t (src.read w s)))
  | .binary op l r dst => do
    let t ← dst.ty? T
    let v ← op.apply t (l.read w s) (r.read w s)
    return (.next, ← dst.write s v)
  | .jump target => some (.goto target, s)
  | .jumpIfZero test target => some (if test.read w s = 0 then .goto target else .next, s)
  | .jumpIfNotZero test target => some (if test.read w s = 0 then .next else .goto target, s)
  | .label _ => some (.next, s)
  | .call f args dst => do
    let t ← dst.ty? T
    let (v, s') := w.answer T f (args.map (Value.read w s)) s
    return (.next, ← dst.write s' (t.wrap v))

/-! ## Runs -/

/-- One step of a run of the function `code`. -/
inductive Step (w : World) (T : SymbolTable) (code : List Instr) : List Instr × Store → List Instr × Store → Prop where
  | next {i : Instr} {rest : List Instr} {s s' : Store} : i.exec w T s = some (.next, s') →
    Step w T code (i :: rest, s) (rest, s')
  | goto {i : Instr} {rest target : List Instr} {s s' : Store} {l : String} : i.exec w T s = some (.goto l, s') →
    codeAfter l code = some target → Step w T code (i :: rest, s) (target, s')

/-- A run of the function `code`. -/
abbrev Steps (w : World) (T : SymbolTable) (code : List Instr) := Relation.ReflTransGen (Step w T code)

/-- The function `code` returns `v` when it is entered with the store `s`, and leaves the store `s'`. -/
def Returns (w : World) (T : SymbolTable) (code : List Instr) (s : Store) (v : Int) (s' : Store) : Prop :=
  ∃ i rest, Steps w T code (code, s) (i :: rest, s') ∧ i.exec w T s' = some (.ret v, s')

end Ir

end Khel
