import TermMachine.Functor
import TermMachine.Register.Map
import TermMachine.Term

/-! # Register allocation

Registers are given out breadth first. A placement lists the subterm that each register stands for,
so far; the rows of the map are filled in the same order, and filling the row of a structure places
its arguments behind everything placed before. A variable is placed once, at its first occurrence.
Functors are interned row by row, and stay in the table when a later row fails.
-/
namespace TermMachine

def registerLimit : Nat := 65536

structure Placement where
  nodes : Array Term
  vars : Std.TreeMap String Register

namespace Placement

def empty : Placement := ⟨#[], ∅⟩

def isFull (capacity : Nat) (p : Placement) : Bool :=
  decide (capacity ≤ p.nodes.size) || decide (registerLimit ≤ p.nodes.size)

def add (capacity : Nat) (p : Placement) (t : Term) : Except CompileError (Register × Placement) :=
  if p.isFull capacity then .error (.outOfRegisters capacity)
  else .ok (p.nodes.size, ⟨p.nodes.push t, p.vars⟩)

/-- The register of a subterm: a variable that has one keeps it, all else takes the next. -/
def place (capacity : Nat) (p : Placement) : Term → Except CompileError (Register × Placement)
  | .var name =>
    match p.vars[name]? with
    | some x => .ok (x, p)
    | none =>
      match p.add capacity (.var name) with
      | .ok (x, ⟨nodes, vars⟩) => .ok (x, ⟨nodes, vars.insert name x⟩)
      | .error e => .error e
  | t => p.add capacity t

def placeAll (capacity : Nat) :
    Placement → List Term → Except CompileError (List Register × Placement)
  | p, [] => .ok ([], p)
  | p, t :: ts =>
    match p.place capacity t with
    | .error e => .error e
    | .ok (x, p) =>
      match placeAll capacity p ts with
      | .error e => .error e
      | .ok (xs, p) => .ok (x :: xs, p)

def appRow (capacity : Nat) (p : Placement) (functors : Functor.Table) (name : String)
    (args : List Term) : Except CompileError (Row × Placement) × Functor.Table :=
  if h : args.length < 256 then
    match functors.intern ⟨name, ⟨args.length, h⟩⟩ with
    | (none, functors) => (.error (.outOfFunctors functors.capacity), functors)
    | (some f, functors) =>
      match p.placeAll capacity args with
      | .error e => (.error e, functors)
      | .ok (xs, p) => (.ok (.app f ⟨args.length, h⟩ xs, p), functors)
  else (.error (.arityTooLarge name args.length), functors)

def close (p : Placement) (rows : Array Row) : Except CompileError RegisterMap :=
  if rows.size < p.nodes.size then .error (.unallocatedRegister rows.size) else .ok ⟨rows⟩

/-- Fills rows until every placed subterm has one, at most `fuel` of them. -/
def fill (capacity : Nat) : (fuel : Nat) → Placement → Array Row → Functor.Table →
    Except CompileError RegisterMap × Functor.Table
  | 0, p, rows, functors => (p.close rows, functors)
  | fuel + 1, p, rows, functors =>
    match p.nodes[rows.size]? with
    | none => (p.close rows, functors)
    | some (.var name) => fill capacity fuel p (rows.push (.var name)) functors
    | some node =>
      match p.appRow capacity functors node.name node.args with
      | (.error e, functors) => (.error e, functors)
      | (.ok (row, p), functors) => fill capacity fuel p (rows.push row) functors

end Placement

/-- The register map of a term within the given number of registers. A term has no more rows than
subterms, so the rows are all filled when `fill` ends. -/
def RegisterMap.allocate (t : Term) (functors : Functor.Table) (capacity : Nat) :
    Except CompileError RegisterMap × Functor.Table :=
  match Placement.empty.place capacity t with
  | .error e => (.error e, functors)
  | .ok (_, p) => p.fill capacity (t.size + 1) #[] functors

end TermMachine
