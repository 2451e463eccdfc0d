/-! # Addresses, registers, functor ids and arities

The four kinds of number a machine works with, and their texts. An address and a functor id are
written in upper-case hexadecimal with at least four digits, a register as `X12`, an arity in
decimal. The labelled texts put the kind in front, as in `Address(002A)`.
-/
namespace TermMachine

abbrev Address := Nat

abbrev Register := Nat

abbrev FunctorId := Nat

/-- The number of arguments of a structure: one byte holds it. -/
abbrev Arity := Fin 256

/-- Upper-case hexadecimal, filled up with zeros to four digits. -/
def hexText (n : Nat) : String :=
  String.ofList (((Nat.toDigits 16 n).map Char.toUpper).leftpad 4 '0')

def Address.text (a : Address) : String := hexText a

def Address.labelled (a : Address) : String := "Address(" ++ a.text ++ ")"

def Address.offset (a : Address) (n : Nat) : Address := a + n

def Register.text (x : Register) : String := "X" ++ toString x

def Register.labelled (x : Register) : String := "Xn(" ++ x.text ++ ")"

def FunctorId.text (f : FunctorId) : String := hexText f

def FunctorId.labelled (f : FunctorId) : String := "Functor(" ++ f.text ++ ")"

def Arity.text (n : Arity) : String := toString n.val

def Arity.labelled (n : Arity) : String := "Arity(" ++ n.text ++ ")"

end TermMachine
