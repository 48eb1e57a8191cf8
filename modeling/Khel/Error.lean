import Khel.Span
import Khel.Ty

/-!
# What can go wrong

A program that breaks a rule of the language is *rejected*, with a complaint and the place it is about. A *fault* is a
disagreement between two stages of the compiler, and no fault of the user. Causes are data here; `message` is the only
place that words them.
-/

namespace Khel

/-- The stages that can notice a fault. -/
inductive Stage where
  | resolver | loopLabeler | typeChecker | irGen | instructionSelection | slotAssignment | fixup | emit
  deriving DecidableEq

/-- The name of a stage in a message. -/
def Stage.text : Stage → String
  | .resolver => "resolver"
  | .loopLabeler => "loop labeler"
  | .typeChecker => "type checker"
  | .irGen => "IR generation"
  | .instructionSelection => "instruction selection"
  | .slotAssignment => "slot assignment"
  | .fixup => "instruction fixup"
  | .emit => "emit"

/-- A disagreement between stages. -/
inductive Fault where
  /-- The stage met something that no earlier stage should have left. -/
  | unexpected (stage : Stage) (detail : String)
  | missingSymbol (stage : Stage) (name : String)
  | frameSizeAlreadySet (function : String)
  | pseudoLeft (name : String)
  | noLatinFor (c : Char)
  deriving DecidableEq

/-- The wording of a fault. -/
def Fault.message : Fault → String
  | .unexpected stage detail => "ICE in " ++ stage.text ++ ": unexpected " ++ detail
  | .missingSymbol stage name => "ICE in " ++ stage.text ++ ": symbol '" ++ name ++ "' not found in symbol table"
  | .frameSizeAlreadySet function => "ICE: frame size of function '" ++ function ++ "' is already set"
  | .pseudoLeft name => "ICE: pseudo operand '" ++ name ++ "' should have been replaced"
  | .noLatinFor c => "ICE: no transliteration for character '" ++ c.toString ++ "'"

/-- A rule of the language that a program breaks. -/
inductive Complaint where
  | duplicateVariable (name : String)
  | duplicateFunction (name : String)
  | undeclaredVariable (name : String)
  | undeclaredFunction (name : String)
  /-- Only a variable can be assigned to. -/
  | badTarget (found : String)
  | arityMismatch (name : String) (expected found : Nat)
  /-- A function named where a value is wanted. -/
  | functionAsValue (name : String)
  /-- Two declarations of one name do not agree. -/
  | redeclared (name : String)
  | notAFunction (name : String)
  | functionInsideFunction (name : String)
  | initializerNotConstant (name : String)
  /-- A variable that lives elsewhere is given an initial value inside a function. -/
  | externalWithInitializer (name : String)
  | incompatibleTypes (expected found : Ty)
  | leaveOutsideLoop
  | nextOutsideLoop
  deriving DecidableEq

/-- The wording of a complaint. -/
def Complaint.message : Complaint → String
  | .duplicateVariable name => "хувьсагч '" ++ name ++ "' нь давхардсан байна"
  | .duplicateFunction name => "функц '" ++ name ++ "' нь давхардсан байна"
  | .undeclaredVariable name => "хувьсагч '" ++ name ++ "'-г зарлаагүй байна"
  | .undeclaredFunction name => "функц '" ++ name ++ "'-г зарлаагүй байна"
  | .badTarget found => "хувьсагчид утга оноох үед зүүн талд хувьсагч байх ёстой, олдсон: '" ++ found ++ "'"
  | .arityMismatch name expected found =>
    "функц '" ++ name ++ "'-ийг дуудахдаа аргументын тоог буруу оруулсан байна: " ++ toString expected ++
      " байх ёстой, " ++ toString found ++ " олдсон"
  | .functionAsValue name => "функц '" ++ name ++ "'-ийг хувьсагч мэт ашиглаж болохгүй"
  | .redeclared name => "'" ++ name ++ "'-ийг өөр төрөлтэйгөөр дахин зарласан байна"
  | .notAFunction name => "хувьсагч '" ++ name ++ "'-ийг функц мэт дуудаж байна"
  | .functionInsideFunction name => "функц дотор функц үүсгэж болохгүй: '" ++ name ++ "'"
  | .initializerNotConstant name => "глобал хувьсагч '" ++ name ++ "'-ийн анхны утга тогтмол байх ёстой"
  | .externalWithInitializer name => "функц доторх гадаад хувьсагч '" ++ name ++ "'-д анхны утга өгч болохгүй"
  | .incompatibleTypes expected found =>
    "төрөл таарахгүй байна: '" ++ expected.text ++ "' байх ёстой, '" ++ found.text ++ "' олдсон"
  | .leaveOutsideLoop => "давталтаас гадуур зогсох үйлдэл орсон байна."
  | .nextOutsideLoop => "давталтаас гадуур үргэлжлүүлэх үйлдэл орсон байна."

/-- A complaint, and the place it is about. -/
structure Rejection where
  complaint : Complaint
  span : Span
  deriving DecidableEq

/-- The reason why a compilation stopped. -/
inductive CompileError where
  | rejected (r : Rejection)
  | fault (f : Fault)
  /-- The output could not be written; the text is the system's own. -/
  | output (text : String)
  deriving DecidableEq

namespace CompileError

/-- The wording of an error. -/
def message : CompileError → String
  | .rejected r => r.complaint.message
  | .fault f => f.message
  | .output text => "I/O error: " ++ text

/-- Is the program to blame? -/
def isRejection : CompileError → Bool
  | .rejected _ => true
  | _ => false

/-- Runs a step that can only reject. -/
def ofRejecting {α : Type} : Except Rejection α → Except CompileError α
  | .ok a => .ok a
  | .error r => .error (.rejected r)

/-- Runs a step that can only fail by a fault. -/
def ofFaulting {α : Type} : Except Fault α → Except CompileError α
  | .ok a => .ok a
  | .error f => .error (.fault f)

end CompileError

instance : MonadLift (Except Rejection) (Except CompileError) := ⟨CompileError.ofRejecting⟩

instance : MonadLift (Except Fault) (Except CompileError) := ⟨CompileError.ofFaulting⟩

end Khel
