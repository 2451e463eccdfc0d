import TermMachine.External.Scanner
import TermMachine.Source.Error
import TermMachine.Term

/-! # Parsing terms

A source text is one term with blanks around its parts. A variable starts with an upper-case letter
or an underscore, a name with a lower-case letter; letters, digits and underscores follow. A name
alone is an atom, and a name with arguments in parentheses a structure.
-/
namespace TermMachine.Source

def isIdentifier (c : Char) : Bool := c.isAlphanum || c == '_'

def startsVariable (c : Char) : Bool := c.isUpper || c == '_'

def startsName (c : Char) : Bool := c.isLower

def ofName (name : String) (args : Option (List Term)) : Term :=
  match args with
  | some args => .app name args
  | none => .atom name

namespace Parser

variable (K : Combinators)

def word (start : Char → Bool) : K.Parser String :=
  K.map String.ofList (K.chain (K.filter start) (K.repeated (K.filter isIdentifier)))

def name : K.Parser String := K.labelled "name" (word K startsName)

def variableTerm : K.Parser Term := K.labelled "variable" (K.map Term.var (word K startsVariable))

def arguments (term : K.Parser Term) : K.Parser (List Term) :=
  K.delimitedBy (K.padded (K.separatedBy term (K.padded (K.just ',')))) (K.just '(') (K.just ')')

def structureTerm (term : K.Parser Term) : K.Parser Term :=
  K.labelled "structure"
    (K.map (fun p => ofName p.1 p.2)
      (K.andThen (K.thenIgnore (name K) K.whitespace) (K.orNot (arguments K term))))

def term : K.Parser Term :=
  K.recursive fun term => K.orElse (variableTerm K) (structureTerm K term)

def source : K.Parser Term := K.thenIgnore (K.padded (term K)) K.finished

end Parser

/-- The term that a text is the source of, with combinators that are given. -/
def parseWith (K : Combinators) (source : String) : Except SyntaxError Term :=
  match K.parse (Parser.source K) source with
  | .ok t => .ok t
  | .error fs => .error (.ofFailures fs)

def parse (source : String) : Except SyntaxError Term := parseWith .scanners source

end TermMachine.Source
