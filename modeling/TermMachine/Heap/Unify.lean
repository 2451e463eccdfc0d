import Std.Data.TreeSet
import TermMachine.Heap.Basic

/-! # Binding and unification on a heap

Unification works through a stack of pairs of addresses. There is no occurs check, so terms may be
cyclic: a pair of structures is taken apart once, and met again it is left alone. What has been
bound before a mismatch or a fault stays bound.
-/
namespace TermMachine.Heap

def assign (h : Heap) (a value : Address) : Except Fault Bool × Heap :=
  match h.get value with
  | .error e => (.error e, h)
  | .ok (.functor _ _) => (.error (.unexpectedFunctor value), h)
  | .ok _ =>
    match h with
    | ⟨cells, capacity⟩ => (.ok true, ⟨cells.setIfInBounds a (.ref value), capacity⟩)

/-- Binds one of two addresses to the other, and answers whether one of them was unbound. Of two
unbound ones the younger is bound. -/
def bind (a b : Address) (h : Heap) : Except Fault Bool × Heap :=
  match h.isUnbound a, h.isUnbound b with
  | .error e, _ => (.error e, h)
  | _, .error e => (.error e, h)
  | .ok true, .ok true => if a < b then h.assign b a else h.assign a b
  | .ok true, .ok false => h.assign a b
  | .ok false, .ok true => h.assign b a
  | .ok false, .ok false => (.ok false, h)

inductive Meeting where
  /-- One and the same cell. -/
  | same
  /-- Two cells, of which at least one is unbound. -/
  | unbound (a b : Address)
  /-- Two structures, given by the addresses of their functor cells. -/
  | structures (s t : Address)

def meeting (h : Heap) (a b : Address) : Except Fault Meeting :=
  match h.deref a, h.deref b with
  | .error e, _ => .error e
  | .ok _, .error e => .error e
  | .ok a, .ok b =>
    if a = b then .ok .same
    else
      match h.get a, h.get b with
      | .error e, _ => .error e
      | .ok _, .error e => .error e
      | .ok (.functor _ _), .ok _ => .error (.unexpectedFunctor a)
      | .ok _, .ok (.functor _ _) => .error (.unexpectedFunctor b)
      | .ok (.ref _), .ok _ => .ok (.unbound a b)
      | .ok _, .ok (.ref _) => .ok (.unbound a b)
      | .ok (.str s), .ok (.str t) => .ok (.structures s t)

def commonArity (h : Heap) (s t : Address) : Except Fault (Option Arity) :=
  match h.functorAt s, h.functorAt t with
  | .error e, _ => .error e
  | .ok _, .error e => .error e
  | .ok f, .ok g => .ok (if f = g then some f.2 else none)

def unordered (s t : Address) : Address × Address := (min s t, max s t)

/-- Stacks the pairs of arguments behind two functor cells, the last pair on top. -/
def stackArguments (s t : Address) (n : Nat) (pending : List (Address × Address)) :
    List (Address × Address) :=
  n.fold (fun i _ pending => (s.offset (i + 1), t.offset (i + 1)) :: pending) pending

abbrev Seen := Std.TreeSet (Address × Address) lexOrd.compare

/-- Takes at most `fuel` pairs from the stack; `none` when more are needed. -/
def unifyWithin : (fuel : Nat) → List (Address × Address) → Seen → Heap →
    Option (Except Fault Bool) × Heap
  | _, [], _, h => (some (.ok true), h)
  | 0, _ :: _, _, h => (none, h)
  | fuel + 1, (a, b) :: pending, seen, h =>
    match h.meeting a b with
    | .error e => (some (.error e), h)
    | .ok .same => unifyWithin fuel pending seen h
    | .ok (.unbound a b) =>
      match h.bind a b with
      | (.ok true, h) => unifyWithin fuel pending seen h
      | (result, h) => (some result, h)
    | .ok (.structures s t) =>
      if unordered s t ∈ seen then unifyWithin fuel pending seen h
      else
        match h.commonArity s t with
        | .error e => (some (.error e), h)
        | .ok none => (some (.ok false), h)
        | .ok (some n) =>
          unifyWithin fuel (stackArguments s t n.val pending) (seen.insert (unordered s t)) h

/-- Enough pairs for any unification: the first, and 255 for each unordered pair of cells. -/
def pairBound (h : Heap) : Nat := 1 + 255 * (h.cells.size * (h.cells.size + 1) / 2)

def unify (a b : Address) (h : Heap) : Except Fault Bool × Heap :=
  match h.unifyWithin h.pairBound [(a, b)] ∅ with
  | (some result, h) => (result, h)
  | (none, h) => (.ok false, h)

end TermMachine.Heap
