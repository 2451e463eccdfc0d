import TermMachine.Functor

/-! # Heaps

A heap is a list of cells. A reference cell is a variable: unbound when it refers to itself, bound
when it refers elsewhere. A structure cell points at a functor cell, and the arguments of the
structure follow that functor cell. Cells are only appended, and the only change to a cell is the
binding of an unbound reference.
-/
namespace TermMachine

inductive Cell where
  | ref (target : Address)
  | str (target : Address)
  | functor (f : FunctorId) (n : Arity)
deriving DecidableEq

def Cell.text (functors : Functor.Table) : Cell → String
  | ref a => "REF " ++ a.text
  | str a => "STR " ++ a.text
  | functor f _ => "FUN " ++ functors.nameOf f

def Cell.labelled : Cell → String
  | ref a => "Reference(" ++ a.labelled ++ ")"
  | str a => "Structure(" ++ a.labelled ++ ")"
  | functor f n => "Functor(" ++ f.labelled ++ ", " ++ n.labelled ++ ")"

structure Heap where
  cells : Array Cell
  capacity : Nat

namespace Heap

inductive Fault where
  | outOfMemory (capacity : Nat)
  | addressOutOfRange (a top : Address)
  | notAFunctor (a : Address) (found : Cell)
  | unexpectedFunctor (a : Address)
  | referenceCycle (start : Address)
deriving DecidableEq

def Fault.message : Fault → String
  | outOfMemory capacity => "heap is full (" ++ toString capacity ++ " cells)"
  | addressOutOfRange a top =>
    "address " ++ a.text ++ " is beyond the top of the heap at " ++ top.text
  | notAFunctor a found =>
    "structure points at " ++ a.text ++ " which holds " ++ found.labelled ++
      " rather than a functor"
  | unexpectedFunctor a =>
    "functor cell at " ++ a.text ++ " reached where a term was expected"
  | referenceCycle start => "reference chain starting at " ++ start.text ++ " does not end"

def empty (capacity : Nat) : Heap := ⟨#[], capacity⟩

def clear (h : Heap) : Heap := ⟨#[], h.capacity⟩

def top (h : Heap) : Address := h.cells.size

def get (h : Heap) (a : Address) : Except Fault Cell :=
  match h.cells[a]? with
  | some cell => .ok cell
  | none => .error (.addressOutOfRange a h.top)

theorem get_eq_ok_iff {h : Heap} {a : Address} {cell : Cell} :
    h.get a = .ok cell ↔ h.cells[a]? = some cell := by
  unfold get
  cases h.cells[a]? <;> simp

def push (h : Heap) (cell : Cell) : Except Fault Address × Heap :=
  match h with
  | ⟨cells, capacity⟩ =>
    if cells.size + 1 ≤ capacity then (.ok cells.size, ⟨cells.push cell, capacity⟩)
    else (.error (.outOfMemory capacity), ⟨cells, capacity⟩)

def pushVariable (h : Heap) : Except Fault Address × Heap := h.push (.ref h.top)

/-- Appends a structure cell with its functor cell, and answers the address of the former. -/
def pushStructure (f : FunctorId) (n : Arity) (h : Heap) : Except Fault Address × Heap :=
  match h with
  | ⟨cells, capacity⟩ =>
    if cells.size + 2 ≤ capacity then
      (.ok cells.size,
        ⟨(cells.push (.str (cells.size + 1))).push (.functor f n), capacity⟩)
    else (.error (.outOfMemory capacity), ⟨cells, capacity⟩)

def pushCopy (a : Address) (h : Heap) : Except Fault Address × Heap :=
  match h.get a with
  | .error e => (.error e, h)
  | .ok (.functor _ _) => (.error (.unexpectedFunctor a), h)
  | .ok cell => h.push cell

/-- Follows at most `fuel` cells from `a` to one that is no bound reference; `none` when more are
needed. -/
def derefWithin (h : Heap) : (fuel : Nat) → Address → Except Fault (Option Address)
  | 0, _ => .ok none
  | fuel + 1, a =>
    match h.get a with
    | .error e => .error e
    | .ok (.ref b) => if b = a then .ok (some a) else h.derefWithin fuel b
    | .ok _ => .ok (some a)

/-- The end of the reference chain from `a`. A chain longer than the heap has come back to a cell
it has met, and never ends. -/
def deref (h : Heap) (a : Address) : Except Fault Address :=
  match h.derefWithin (h.cells.size + 1) a with
  | .ok (some b) => .ok b
  | .ok none => .error (.referenceCycle a)
  | .error e => .error e

def isUnbound (h : Heap) (a : Address) : Except Fault Bool :=
  match h.get a with
  | .ok cell => .ok (decide (cell = .ref a))
  | .error e => .error e

def functorAt (h : Heap) (a : Address) : Except Fault (FunctorId × Arity) :=
  match h.get a with
  | .ok (.functor f n) => .ok (f, n)
  | .ok found => .error (.notAFunctor a found)
  | .error e => .error e

end Heap
end TermMachine
