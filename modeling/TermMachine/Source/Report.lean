import TermMachine.External.Report
import TermMachine.Source.Error

/-! # Reports of syntax errors -/
namespace TermMachine.Source.SyntaxError

def foundText (found : Option Char) : String :=
  match found with
  | some c => "token " ++ styled "31" (String.singleton c)
  | none => "end of input"

def labels (e : SyntaxError) : List Report.Label :=
  ⟨e.start, e.stop, "Unexpected " ++ foundText e.found⟩ ::
    match e.unclosed with
    | some (start, stop, delimiter) =>
      [⟨start, stop, "Unclosed delimiter " ++ styled "33" (String.singleton delimiter)⟩]
    | none => []

def report (e : SyntaxError) (id source : String) : String :=
  Report.text ⟨id, e.position, e.reason, e.labels⟩ source

end TermMachine.Source.SyntaxError
