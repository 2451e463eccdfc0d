import TermMachine.Index

/-! # Why a term does not compile

Each cause keeps the number or the name that its message shows.
-/
namespace TermMachine

inductive CompileError where
  | outOfRegisters (capacity : Nat)
  | arityTooLarge (name : String) (arity : Nat)
  | outOfFunctors (capacity : Nat)
  | outOfCode (capacity : Nat)
  | unallocatedRegister (x : Register)
deriving DecidableEq

def CompileError.message : CompileError → String
  | outOfRegisters capacity =>
    "term needs more than the " ++ toString capacity ++ " available registers"
  | arityTooLarge name arity =>
    name ++ " has " ++ toString arity ++ " arguments, at most 255 are supported"
  | outOfFunctors capacity => "functor table is full (" ++ toString capacity ++ " functors)"
  | outOfCode capacity => "code zone is full (" ++ toString capacity ++ " instructions)"
  | unallocatedRegister x => "register " ++ x.text ++ " was used but never allocated"

end TermMachine
