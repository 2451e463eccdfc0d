import TermMachine.CompileError

/-! # Register maps

A register map says what each register of a compiled term stands for, one row per register: a
variable by its name, or a structure by its functor and the registers of its arguments. The term
itself is in `X0`.
-/
namespace TermMachine

inductive Row where
  | var (name : String)
  | app (functor : FunctorId) (arity : Arity) (arguments : List Register)
deriving DecidableEq

def Row.isStructured : Row → Bool
  | .var _ => false
  | .app _ _ _ => true

structure RegisterMap where
  rows : Array Row

namespace RegisterMap

def root : Register := 0

def get (map : RegisterMap) (x : Register) : Except CompileError Row :=
  match map.rows[x]? with
  | some row => .ok row
  | none => .error (.unallocatedRegister x)

def vars (map : RegisterMap) : List (String × Register) :=
  map.rows.toList.zipIdx.filterMap fun
    | (.var name, x) => some (name, x)
    | (.app _ _ _, _) => none

end RegisterMap
end TermMachine
