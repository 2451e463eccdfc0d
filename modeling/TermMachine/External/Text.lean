/-! # Texts for a terminal -/
namespace TermMachine

def styled (code text : String) : String := "\x1b[" ++ code ++ "m" ++ text ++ "\x1b[0m"

def bold (text : String) : String := styled "1" text

def errorReport (message : String) (cause : Option String) : String :=
  match cause with
  | some cause => message ++ "\n\nCaused by:\n    " ++ cause ++ "\n"
  | none => message ++ "\n"

end TermMachine
