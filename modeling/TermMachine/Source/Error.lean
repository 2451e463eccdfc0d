import TermMachine.External.Combinators

/-! # Errors in source texts

A syntax error says where the text stops being a term, what is there and what could be there instead.
It is made from the failure that the parsers tell.
-/
namespace TermMachine.Source

/-- `start` and `stop` enclose the characters that the error is about. An unclosed delimiter is given
with the characters that it encloses. -/
structure SyntaxError where
  position : Nat
  reason : String
  start : Nat
  stop : Nat
  found : Option Char
  unclosed : Option (Nat × Nat × Char)
deriving DecidableEq

namespace SyntaxError

def expectedText : Option Char → String
  | some c => "'" ++ String.singleton c ++ "'"
  | none => "end of input"

def expectedTexts (expected : Std.ExtTreeSet (Option Char)) : List String :=
  (expected.toList.map expectedText).mergeSort

def reasonOf (f : Failure) : String :=
  match f.reason with
  | .custom message => message
  | _ =>
    (if f.found.isSome then "Unexpected token" else "Unexpected end of input") ++
      (match f.label with
        | some label => " while parsing " ++ label
        | none => "") ++
      ", expected " ++
      if f.expected.isEmpty then "something else"
      else ", ".intercalate (expectedTexts f.expected)

def unclosedOf (f : Failure) : Option (Nat × Nat × Char) :=
  match f.reason with
  | .unclosed start stop delimiter => some (start, stop, delimiter)
  | _ => none

def ofFailure (f : Failure) : SyntaxError :=
  ⟨f.start, reasonOf f, f.start, f.stop, f.found, unclosedOf f⟩

def earliest? : List Failure → Option Failure
  | [] => none
  | f :: fs =>
    match earliest? fs with
    | some g => if g.start < f.start then some g else some f
    | none => some f

def ofFailures (fs : List Failure) : SyntaxError :=
  match earliest? fs with
  | some f => ofFailure f
  | none => ⟨0, "Not a term", 0, 0, none, none⟩

def message (e : SyntaxError) : String :=
  "Syntax error at " ++ toString e.position ++ ": " ++ e.reason

end SyntaxError
end TermMachine.Source
