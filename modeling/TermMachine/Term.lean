/-! # First-order terms

A term is an atom, a variable or a structure with a list of arguments. A structure without
arguments stands for the same node as the atom of its name, but it is another term and it is
written with its parentheses, as `f()`.
-/
namespace TermMachine

inductive Term where
  | atom (name : String)
  | var (name : String)
  | app (name : String) (args : List Term)

namespace Term

mutual
def decEq : (s t : Term) → Decidable (s = t)
  | .atom a, .atom b =>
    if h : a = b then isTrue (congrArg Term.atom h) else isFalse (fun e => h (Term.atom.inj e))
  | .var a, .var b =>
    if h : a = b then isTrue (congrArg Term.var h) else isFalse (fun e => h (Term.var.inj e))
  | .app a ss, .app b ts =>
    if h : a = b then
      match decEqList ss ts with
      | isTrue hs => isTrue (by rw [h, hs])
      | isFalse hs => isFalse (fun e => hs (Term.app.inj e).2)
    else isFalse (fun e => h (Term.app.inj e).1)
  | .atom _, .var _ => isFalse (fun e => nomatch e)
  | .atom _, .app _ _ => isFalse (fun e => nomatch e)
  | .var _, .atom _ => isFalse (fun e => nomatch e)
  | .var _, .app _ _ => isFalse (fun e => nomatch e)
  | .app _ _, .atom _ => isFalse (fun e => nomatch e)
  | .app _ _, .var _ => isFalse (fun e => nomatch e)

def decEqList : (ss ts : List Term) → Decidable (ss = ts)
  | [], [] => isTrue rfl
  | [], _ :: _ => isFalse (fun e => nomatch e)
  | _ :: _, [] => isFalse (fun e => nomatch e)
  | s :: ss, t :: ts =>
    match decEq s t, decEqList ss ts with
    | isTrue h, isTrue hs => isTrue (by rw [h, hs])
    | isFalse h, _ => isFalse (fun e => h (List.cons.inj e).1)
    | _, isFalse hs => isFalse (fun e => hs (List.cons.inj e).2)
end

instance : DecidableEq Term := decEq

instance : Inhabited Term := ⟨.atom ""⟩

def name : Term → String
  | .atom name => name
  | .var name => name
  | .app name _ => name

/-- The arguments of a structure; atoms and variables have none. -/
def args : Term → List Term
  | .app _ args => args
  | _ => []

mutual
def isGround : Term → Bool
  | .atom _ => true
  | .var _ => false
  | .app _ args => areGround args

def areGround : List Term → Bool
  | [] => true
  | t :: ts => isGround t && areGround ts
end

mutual
/-- The number of subterms, counted by occurrence. -/
def size : Term → Nat
  | .atom _ => 1
  | .var _ => 1
  | .app _ args => 1 + sizeList args

def sizeList : List Term → Nat
  | [] => 0
  | t :: ts => size t + sizeList ts
end

mutual
def text : Term → String
  | .atom name => name
  | .var name => name
  | .app name args => name ++ "(" ++ listText args ++ ")"

def listText : List Term → String
  | [] => ""
  | [t] => text t
  | t :: u :: ts => text t ++ ", " ++ listText (u :: ts)
end

end Term
end TermMachine
