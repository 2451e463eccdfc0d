import TermMachine.Functor

/-! # Instructions

The `put` and `set` instructions build a query on the heap; the `get` and `unify` instructions match
a program against what the registers hold.
-/
namespace TermMachine

inductive Instruction where
  | putStructure (f : FunctorId) (n : Arity) (x : Register)
  | setVariable (x : Register)
  | setValue (x : Register)
  | getStructure (f : FunctorId) (n : Arity) (x : Register)
  | unifyVariable (x : Register)
  | unifyValue (x : Register)
deriving DecidableEq

def Instruction.text (functors : Functor.Table) : Instruction → String
  | putStructure f _ x => "put_structure " ++ functors.nameOf f ++ ", " ++ x.text
  | setVariable x => "set_variable " ++ x.text
  | setValue x => "set_value " ++ x.text
  | getStructure f _ x => "get_structure " ++ functors.nameOf f ++ ", " ++ x.text
  | unifyVariable x => "unify_variable " ++ x.text
  | unifyValue x => "unify_value " ++ x.text

end TermMachine
