import TermMachine.Session.Arguments
import TermMachine.Session.Pair
import TermMachine.Source.Parser
import TermMachine.Source.Report

/-! # Sessions

With two terms on the command line the program unifies them and ends. With none it reads pairs of
lines, a query and a program, and answers each pair; a blank line is asked for again, and a line
that is no term starts the pair anew. A pair that does not compile gets its error as an answer, and
a fault of the machine ends the session.
-/
namespace TermMachine.Session

/-- What a process leaves: its exit code, its output, the syntax error reports on the way, and the
error that it ends with. -/
structure Outcome where
  code : Nat
  output : String
  reports : String
  error : Option String
deriving DecidableEq

inductive Stage where
  | query
  | program (query : Term)

structure Dialogue where
  settings : Settings
  machine : Machine
  stage : Stage

/-- What a line leads to: text to print and reports, and the dialogue that goes on, or the error it
ends with. -/
structure Reply where
  output : String
  reports : String
  next : Except String Dialogue

namespace Dialogue

def prompt (d : Dialogue) : String :=
  match d.stage with
  | .query => "?- "
  | .program _ => ":- "

def await (d : Dialogue) (stage : Stage) : Dialogue := ⟨d.settings, d.machine, stage⟩

def answer (d : Dialogue) (query program : Term) : Reply :=
  match unifyPair d.settings query program d.machine with
  | ((output, none), m) => ⟨output, "", .ok ⟨d.settings, m, .query⟩⟩
  | ((output, some e), m) =>
    match e.cause? with
    | some cause =>
      ⟨output ++ e.message ++ ": " ++ cause.message ++ "\n", "", .ok ⟨d.settings, m, .query⟩⟩
    | none => ⟨output, "", .error e.report⟩

def source (d : Dialogue) (text : String) : Reply :=
  match d.stage, Source.parse text with
  | .query, .ok t => ⟨"", "", .ok (d.await (.program t))⟩
  | .query, .error e => ⟨"", e.report "query" text, .ok (d.await .query)⟩
  | .program query, .ok t => d.answer query t
  | .program _, .error e => ⟨"", e.report "program" text, .ok (d.await .query)⟩

def line (d : Dialogue) (text : String) : Reply :=
  match Source.trimBlanks text.toList with
  | [] => ⟨"", "", .ok d⟩
  | trimmed => d.source (String.ofList trimmed)

def outcome : Dialogue → List String → Outcome
  | d, [] => ⟨0, d.prompt ++ "\n", "", none⟩
  | d, text :: rest =>
    match d.line text with
    | ⟨output, reports, .error e⟩ => ⟨1, d.prompt ++ output, reports, some e⟩
    | ⟨output, reports, .ok next⟩ =>
      match outcome next rest with
      | ⟨code, rest, moreReports, error⟩ =>
        ⟨code, d.prompt ++ output ++ rest, reports ++ moreReports, error⟩

end Dialogue

/-- The lines of an input. A newline at the end opens no line. -/
def linesOf : List Char → List (List Char)
  | [] => []
  | c :: cs =>
    if c = '\n' then [] :: linesOf cs
    else
      match linesOf cs with
      | [] => [[c]]
      | first :: rest => (c :: first) :: rest

def reportsOf (sources : List (String × String)) : String :=
  String.join (sources.map fun (id, text) =>
    match Source.parse text with
    | .ok _ => ""
    | .error e => e.report id text)

def oneShot (settings : Settings) (capacities : Capacities) (query program : String) : Outcome :=
  match Source.parse query, Source.parse program with
  | .ok q, .ok p =>
    match unifyPair settings q p (Machine.create capacities) with
    | ((output, none), _) => ⟨0, output, "", none⟩
    | ((output, some e), _) => ⟨1, output, "", some e.report⟩
  | _, _ => ⟨1, "", reportsOf [("query", query), ("program", program)], some "Invalid term\n"⟩

def Arguments.settings (a : Arguments) : Settings := ⟨a.has .listing, a.has .dump⟩

inductive Task where
  | dialogue (start : Dialogue)
  | done (outcome : Outcome)

def misuse : Outcome := ⟨2, "", "", none⟩

def help : Outcome := ⟨0, Arguments.usage, "", none⟩

def task (args : List String) : Task :=
  match CommandLine.read Arguments.declared args with
  | .error .help => .done help
  | .error .misuse => .done misuse
  | .ok a =>
    let settings := Arguments.settings a
    let capacities := Arguments.capacities a
    match a.terms with
    | [] => .dialogue ⟨settings, Machine.create capacities, .query⟩
    | [_] => .done ⟨1, "", "", some "A query needs a program to unify with\n"⟩
    | query :: program :: _ => .done (oneShot settings capacities query program)

def outcome (args : List String) (input : String) : Outcome :=
  match task args with
  | .dialogue start => start.outcome ((linesOf input.toList).map String.ofList)
  | .done outcome => outcome

end TermMachine.Session
