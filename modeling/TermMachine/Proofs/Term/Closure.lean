import TermMachine.Proofs.Term.Basic

/-! # Unification closure of two terms

The nodes of a query and of a program are the positions in the two terms, with all positions of one
variable in one term as one node. The closure is the least equivalence of nodes that relates the two
terms and the arguments of related structures alike. It clashes when it relates structures of
different names or different numbers of arguments.
-/
namespace TermMachine

inductive Side where
  | query
  | program
deriving DecidableEq

structure Position where
  side : Side
  path : List Nat
deriving DecidableEq

namespace Term

def follow : Term → List Nat → Option Term
  | t, [] => some t
  | t, i :: path =>
    match t.args[i]? with
    | some u => follow u path
    | none => none

theorem follow_append {t u : Term} {path : List Nat} (h : t.follow path = some u) (i : Nat) :
    t.follow (path ++ [i]) = u.args[i]? := by
  induction path generalizing t with
  | nil =>
    obtain rfl : t = u := Option.some.inj h
    rw [List.nil_append, follow]
    cases t.args[i]? <;> rfl
  | cons j path ih =>
    rw [follow] at h
    rw [List.cons_append, follow]
    cases hj : t.args[j]? with
    | none => simp [hj] at h
    | some w =>
      simp only [hj] at h ⊢
      exact ih h

theorem exists_follow_append {t u : Term} {path rest : List Nat}
    (h : t.follow (path ++ rest) = some u) :
    ∃ w, t.follow path = some w ∧ w.follow rest = some u := by
  induction path generalizing t with
  | nil => exact ⟨t, rfl, h⟩
  | cons i path ih =>
    rw [List.cons_append, follow] at h
    rw [follow]
    cases hi : t.args[i]? with
    | none => simp [hi] at h
    | some w =>
      simp only [hi] at h ⊢
      exact ih h

end Term

namespace Position

def arg (x : Position) (i : Nat) : Position := ⟨x.side, x.path ++ [i]⟩

def term (q p : Term) (x : Position) : Option Term :=
  match x.side with
  | .query => q.follow x.path
  | .program => p.follow x.path

theorem term_arg {q p t : Term} {x : Position} (h : x.term q p = some t) (i : Nat) :
    (x.arg i).term q p = t.args[i]? := by
  obtain ⟨side, path⟩ := x
  cases side with
  | query => exact Term.follow_append h i
  | program => exact Term.follow_append h i

end Position

/-- The least equivalence of positions that relates both terms, all positions of one variable in one
term, and the arguments of related structures of one name and one number of arguments. -/
inductive Linked (q p : Term) : Position → Position → Prop
  | root : Linked q p ⟨.query, []⟩ ⟨.program, []⟩
  | var {x y : Position} {a : String} : x.side = y.side → x.term q p = some (.var a) →
      y.term q p = some (.var a) → Linked q p x y
  | refl {x : Position} {t : Term} : x.term q p = some t → Linked q p x x
  | symm {x y : Position} : Linked q p x y → Linked q p y x
  | trans {x y z : Position} : Linked q p x y → Linked q p y z → Linked q p x z
  | arg {x y : Position} {s t : Term} {i : Nat} : Linked q p x y → x.term q p = some s →
      y.term q p = some t → s.IsApp → t.IsApp → s.name = t.name → s.args.length = t.args.length →
      i < s.args.length → Linked q p (x.arg i) (y.arg i)

/-- The closure relates structures that differ. -/
def Clash (q p : Term) : Prop :=
  ∃ x y s t, Linked q p x y ∧ x.term q p = some s ∧ y.term q p = some t ∧ s.IsApp ∧ t.IsApp ∧
    (s.name ≠ t.name ∨ s.args.length ≠ t.args.length)

end TermMachine
