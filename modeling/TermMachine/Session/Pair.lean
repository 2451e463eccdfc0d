import TermMachine.External.Text
import TermMachine.Machine.Decode
import TermMachine.Machine.Dump

/-! # Unifying one pair of terms

A machine is reset for each pair. What is printed: the compiled code, if asked for, the answer, and
a dump, if asked for. The answer names every variable of the query that is bound to something other
than itself.
-/
namespace TermMachine.Session

structure Settings where
  listing : Bool
  dump : Bool

/-- The bindings that tell something: a variable that stands for itself is left out. -/
def informative (bindings : List (String × Term)) : List (String × Term) :=
  bindings.filter fun (name, t) => decide (t ≠ .var name)

def bindingText (binding : String × Term) : String := binding.1 ++ " = " ++ binding.2.text

def answerText (bindings : List (String × Term)) : String :=
  match informative bindings with
  | [] => bold "true"
  | told => ",\n".intercalate (told.map bindingText)

inductive PairError where
  | query (cause : CompileError)
  | program (cause : CompileError)
  | run (fault : Fault)

namespace PairError

def message : PairError → String
  | query _ => "Failed to compile query"
  | program _ => "Failed to compile program"
  | run fault => fault.message

def cause? : PairError → Option CompileError
  | query cause => some cause
  | program cause => some cause
  | run _ => none

def report (e : PairError) : String := errorReport e.message (e.cause?.map CompileError.message)

end PairError

def runPair (settings : Settings) (query program : Code) (m : Machine) :
    (String × Option PairError) × Machine :=
  let listing :=
    if settings.listing then
      "% query\n" ++ query.listing m.functors ++ "% program\n" ++ program.listing m.functors
    else ""
  match m.run query program with
  | (.error fault, m) => ((listing, some (.run fault)), m)
  | (.ok false, m) =>
    ((listing ++ bold "false" ++ ".\n" ++ (if settings.dump then m.dump else ""), none), m)
  | (.ok true, m) =>
    match m.bindings with
    | .error fault => ((listing, some (.run fault)), m)
    | .ok bindings =>
      ((listing ++ answerText bindings ++ ".\n" ++ (if settings.dump then m.dump else ""), none), m)

def unifyPair (settings : Settings) (query program : Term) (m : Machine) :
    (String × Option PairError) × Machine :=
  match m.reset.compileQuery query with
  | (.error cause, m) => (("", some (.query cause)), m)
  | (.ok query, m) =>
    match m.compileProgram program with
    | (.error cause, m) => (("", some (.program cause)), m)
    | (.ok program, m) => runPair settings query program m

end TermMachine.Session
