/-!
# Types

There are two widths of integer, strings, and functions over them. Types are compared by structure; equality is decided
by recursion on the type and on its list of parameters.
-/

namespace Khel

/-- The type of a value or of a function. -/
inductive Ty where
  /-- A 32-bit integer. -/
  | int32
  /-- A 64-bit integer. -/
  | int64
  /-- The address of a text. -/
  | string
  /-- A function from its parameters to its result. -/
  | fn (params : List Ty) (ret : Ty)

namespace Ty

/-! ## Equality -/

mutual
/-- Equality of types is decided from the outside in. -/
def decEq : (a b : Ty) → Decidable (a = b)
  | .int32, .int32 | .int64, .int64 | .string, .string => isTrue rfl
  | .fn ps r, .fn qs s =>
    match decEqs ps qs, decEq r s with
    | isTrue hp, isTrue hr => isTrue (by rw [hp, hr])
    | isFalse hp, _ => isFalse fun h => hp (fn.inj h).1
    | _, isFalse hr => isFalse fun h => hr (fn.inj h).2
  | .int32, .int64 | .int32, .string | .int32, .fn .. => isFalse nofun
  | .int64, .int32 | .int64, .string | .int64, .fn .. => isFalse nofun
  | .string, .int32 | .string, .int64 | .string, .fn .. => isFalse nofun
  | .fn .., .int32 | .fn .., .int64 | .fn .., .string => isFalse nofun

/-- Equality of lists of types. -/
def decEqs : (as bs : List Ty) → Decidable (as = bs)
  | [], [] => isTrue rfl
  | a :: as, b :: bs =>
    match decEq a b, decEqs as bs with
    | isTrue h, isTrue hs => isTrue (by rw [h, hs])
    | isFalse h, _ => isFalse fun e => h (List.cons.inj e).1
    | _, isFalse hs => isFalse fun e => hs (List.cons.inj e).2
  | [], _ :: _ => isFalse nofun
  | _ :: _, [] => isFalse nofun
end

instance : DecidableEq Ty := decEq

/-! ## Queries -/

/-- Is this the type of a function? -/
def isFunction : Ty → Bool
  | .fn .. => true
  | _ => false

/-- Is this one of the integer types? -/
def isInteger : Ty → Bool
  | .int32 | .int64 => true
  | _ => false

/-- How many parameters a function takes. -/
def arity? : Ty → Option Nat
  | .fn params _ => some params.length
  | _ => none

/-- The type that two operands meet in: equal types stay, and any two that differ meet in the wide integer. -/
def common (a b : Ty) : Ty := if a = b then a else .int64

/-! ## Text -/

mutual
/-- A type as it is shown to the user. -/
def text : Ty → String
  | .int32 => "тоо"
  | .int64 => "64тоо"
  | .string => "мөр"
  | .fn params ret => "функц(" ++ ", ".intercalate (texts params) ++ ") -> " ++ ret.text

/-- The text of each type of a list. -/
def texts : List Ty → List String
  | [] => []
  | t :: ts => t.text :: texts ts
end

end Ty

end Khel
