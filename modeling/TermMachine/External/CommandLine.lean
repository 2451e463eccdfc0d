/-! # Command lines

The arguments of a program are read from left to right against the switches and sizes that the
program declares. Switches have a long name, and some a letter; letters can be joined. A size is the
next argument or follows an equals sign. Nothing may be given twice, every argument behind `--` is a
term, and the first argument that asks for help or cannot be read ends the reading.
-/
namespace TermMachine

/-- The names, without their dashes, of the flags `F` and the sizes `S` of a program, and how many
terms it takes. -/
structure Declared (F S : Type) where
  flagOfName? : List Char → Option F
  flagOfLetter? : Char → Option F
  sizeOfName? : List Char → Option S
  terms : Nat

structure CommandLine (F S : Type) where
  terms : List String
  flags : List F
  sizes : List (S × Nat)

namespace CommandLine

inductive Refusal where
  | help
  | misuse

inductive Switch (F : Type) where
  | help
  | flag (flag : F)

/-- An argument by its form. A size has no text yet when its value is the next argument. -/
inductive Argument (F S : Type) where
  | unknown
  | separator
  | switch (switch : Switch F)
  | letters (letters : List Char)
  | size (size : S) (text : Option (List Char))
  | term

section Reading

variable {F S : Type}

def Argument.ofName (o : Declared F S) (name : List Char) (text : Option (List Char)) :
    Argument F S :=
  match o.sizeOfName? name, o.flagOfName? name, text with
  | some s, _, text => .size s text
  | none, some f, none => .switch (.flag f)
  | none, none, none => if name = "help".toList then .switch .help else .unknown
  | none, _, some _ => .unknown

def Argument.ofChars (o : Declared F S) : List Char → Argument F S
  | ['-', '-'] => .separator
  | '-' :: '-' :: name =>
    match name.dropWhile (· ≠ '=') with
    | [] => .ofName o name none
    | _ :: text => .ofName o (name.takeWhile (· ≠ '=')) (some text)
  | '-' :: c :: cs => .letters (c :: cs)
  | _ => .term

def digits? : (value : Nat) → List Char → Option Nat
  | value, [] => some value
  | value, c :: cs => if c.isDigit then digits? (value * 10 + (c.toNat - 48)) cs else none

def wordLimit : Nat := 18446744073709551616

/-- A size: digits, perhaps behind a plus sign, for a number that a machine word holds. -/
def size? (text : List Char) : Option Nat :=
  let digits := if text.head? = some '+' then text.tail else text
  if digits.isEmpty then none
  else
    match digits? 0 digits with
    | some n => if n < wordLimit then some n else none
    | none => none

/-- Whether an argument can be the value of the one before it. -/
def isValue (text : List Char) : Bool := text.head? != some '-' || text == ['-']

variable [DecidableEq F] [BEq S]

def empty : CommandLine F S := ⟨[], [], []⟩

def addTerm (o : Declared F S) (a : CommandLine F S) (text : String) :
    Except Refusal (CommandLine F S) :=
  if a.terms.length < o.terms then .ok ⟨a.terms ++ [text], a.flags, a.sizes⟩ else .error .misuse

def addSwitch (a : CommandLine F S) : Switch F → Except Refusal (CommandLine F S)
  | .help => .error .help
  | .flag flag =>
    if flag ∈ a.flags then .error .misuse else .ok ⟨a.terms, flag :: a.flags, a.sizes⟩

def addLetter (o : Declared F S) (a : CommandLine F S) (c : Char) :
    Except Refusal (CommandLine F S) :=
  match o.flagOfLetter? c with
  | some flag => a.addSwitch (.flag flag)
  | none => if c = 'h' then a.addSwitch .help else .error .misuse

def addSize (a : CommandLine F S) (size : S) (text : List Char) :
    Except Refusal (CommandLine F S) :=
  match a.sizes.lookup size, size? text with
  | none, some n => .ok ⟨a.terms, a.flags, (size, n) :: a.sizes⟩
  | _, _ => .error .misuse

def add (o : Declared F S) : CommandLine F S → List String → Except Refusal (CommandLine F S)
  | a, [] => .ok a
  | a, text :: rest =>
    match Argument.ofChars o text.toList with
    | .unknown => .error .misuse
    | .separator => rest.foldlM (addTerm o) a
    | .term => (a.addTerm o text).bind fun a => add o a rest
    | .switch switch => (a.addSwitch switch).bind fun a => add o a rest
    | .letters letters => (letters.foldlM (addLetter o) a).bind fun a => add o a rest
    | .size size (some value) => (a.addSize size value).bind fun a => add o a rest
    | .size size none =>
      match rest with
      | [] => .error .misuse
      | value :: rest =>
        if isValue value.toList then (a.addSize size value.toList).bind fun a => add o a rest
        else .error .misuse

def read (o : Declared F S) (args : List String) : Except Refusal (CommandLine F S) :=
  add o empty args

end Reading
end CommandLine
end TermMachine
