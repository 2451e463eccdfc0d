import Std.Data.TreeMap
import TermMachine.Index

/-! # Register files

The registers of a running machine. Each of the `count` registers is empty or holds the heap
address of a term.
-/
namespace TermMachine

structure RegisterFile where
  count : Nat
  values : Std.TreeMap Register Address

namespace RegisterFile

inductive Fault where
  | indexOutOfRange (x : Register) (count : Nat)
  | noValue (x : Register)
deriving DecidableEq

def Fault.message : Fault → String
  | indexOutOfRange x count =>
    "register " ++ x.text ++ " is out of range, there are " ++ toString count ++ " registers"
  | noValue x => "register " ++ x.text ++ " holds no value"

def empty (count : Nat) : RegisterFile := ⟨count, ∅⟩

def clear (r : RegisterFile) : RegisterFile := ⟨r.count, ∅⟩

def get (r : RegisterFile) (x : Register) : Except Fault (Option Address) :=
  if x < r.count then .ok r.values[x]? else .error (.indexOutOfRange x r.count)

def load (r : RegisterFile) (x : Register) : Except Fault Address :=
  match r.get x with
  | .ok (some a) => .ok a
  | .ok none => .error (.noValue x)
  | .error e => .error e

def store (r : RegisterFile) (x : Register) (a : Address) : Except Fault Unit × RegisterFile :=
  match r with
  | ⟨count, values⟩ =>
    if x < count then (.ok (), ⟨count, values.insert x a⟩)
    else (.error (.indexOutOfRange x count), ⟨count, values⟩)

theorem get_of_lt {r : RegisterFile} {x : Register} (h : x < r.count) :
    r.get x = .ok r.values[x]? := if_pos h

def live (r : RegisterFile) : List (Register × Address) := r.values.toList

end RegisterFile
end TermMachine
