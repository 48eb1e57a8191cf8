import Khel.Error
import Khel.SourceText

/-!
# Diagnostics

A rejected program is shown with the line that the complaint is about and carets under the place. The terse form names
the line only. Other errors have nothing to show but their wording.
-/

namespace Khel

/-- The part of the compiler that rejects programs, as it is named to the user. -/
def analysisName : String := "Семантик шинжилгээ"

/-- A rejection in one line. -/
def Rejection.terse (r : Rejection) (source : SourceText) : String :=
  "[" ++ analysisName ++ "] " ++ toString (source.lineAt r.span).number ++ "-р мөр: " ++ r.complaint.message ++ "\n"

/-- A rejection with its line of source; there is at least one caret. -/
def Rejection.render (r : Rejection) (source : SourceText) : String :=
  let line := source.lineAt r.span
  "[" ++ analysisName ++ "] " ++ toString line.number ++ "-р мөрөнд алдаа гарлаа:\n" ++
    line.text ++ "\n" ++
    String.ofList (List.replicate line.column ' ' ++ List.replicate (max r.span.length 1) '^') ++ "\n" ++
    "Алдааны мессеж: " ++ r.complaint.message ++ "\n"

/-- An error as the user sees it. -/
def CompileError.render (terse : Bool) (e : CompileError) (source : SourceText) : String :=
  match e with
  | .rejected r => if terse then r.terse source else r.render source
  | .fault f => f.message ++ "\n"
  | .output text => text ++ "\n"

end Khel
