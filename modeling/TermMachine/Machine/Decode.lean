import TermMachine.Machine.Basic

/-! # Reading terms back

Decoding follows bindings. An unbound reference is named after the first query variable that stands
for it, or else after its address. A structure inside itself is cut short with a variable named
after its functor cell, so that a cyclic term has a finite text.
-/
namespace TermMachine.Machine

def generatedName (a : Address) : String := "_G" ++ a.text

/-- The name put in the place of a structure inside itself. -/
def cutName (t : Address) : String := "_S" ++ t.text

/-- The unbound references behind variables, each with the first name that leads to it. -/
abbrev Names := Std.TreeMap Address String

def namesFrom (h : Heap) : List (String × Address) → Names → Except Heap.Fault Names
  | [], names => .ok names
  | (name, a) :: rest, names =>
    match h.deref a with
    | .error e => .error e
    | .ok a => namesFrom h rest (names.insertIfNew a name)

def names (m : Machine) : Except Fault Names :=
  (namesFrom m.state.heap m.capture.vars ∅).mapError .memory

def readAll (read : Address → Except Fault Term) : (count : Nat) → Address →
    Except Fault (List Term)
  | 0, _ => .ok []
  | count + 1, a =>
    match read a with
    | .error e => .error e
    | .ok t =>
      match readAll read count (a.offset 1) with
      | .error e => .error e
      | .ok ts => .ok (t :: ts)

def readWithin (m : Machine) (names : Names) : (fuel : Nat) → (ancestors : List Address) →
    Address → Except Fault Term
  | 0, _, a => .error (.memory (.referenceCycle a))
  | fuel + 1, ancestors, a =>
    match m.state.heap.deref a with
    | .error e => .error (.memory e)
    | .ok a =>
      match m.state.heap.get a with
      | .error e => .error (.memory e)
      | .ok (.functor _ _) => .error (.memory (.unexpectedFunctor a))
      | .ok (.ref _) => .ok (.var (names.getD a (generatedName a)))
      | .ok (.str t) =>
        if t ∈ ancestors then .ok (.var (cutName t))
        else
          match m.state.heap.functorAt t with
          | .error e => .error (.memory e)
          | .ok (f, n) =>
            match m.functors.lookup f with
            | none => .error (.unknownFunctor f)
            | some functor =>
              if n = 0 then .ok (.atom functor.name)
              else
                match readAll (m.readWithin names fuel (t :: ancestors)) n.val (t.offset 1) with
                | .error e => .error e
                | .ok args => .ok (.app functor.name args)

/-- Reads the term at an address. Its ancestors are distinct functor cells, so no term that is read
is nested deeper than the heap has cells. -/
def readNamed (m : Machine) (names : Names) (a : Address) : Except Fault Term :=
  m.readWithin names (m.state.heap.cells.size + 1) [] a

def readTerm (m : Machine) (a : Address) : Except Fault Term := do
  m.readNamed (← m.names) a

def queryTerm (m : Machine) : Except Fault (Option Term) :=
  match m.capture.root with
  | none => .ok none
  | some a => some <$> m.readTerm a

def readBindings (m : Machine) (names : Names) :
    List (String × Address) → Except Fault (List (String × Term))
  | [] => .ok []
  | (name, a) :: rest =>
    match m.readNamed names a with
    | .error e => .error e
    | .ok t =>
      match m.readBindings names rest with
      | .error e => .error e
      | .ok bindings => .ok ((name, t) :: bindings)

def bindings (m : Machine) : Except Fault (List (String × Term)) := do
  m.readBindings (← m.names) m.capture.vars

def binding (m : Machine) (name : String) : Except Fault (Option Term) :=
  match m.capture.vars.lookup name with
  | none => .ok none
  | some a => some <$> m.readTerm a

end TermMachine.Machine
