import Mathlib.Data.Finset.Card
import TermMachine.Proofs.Term.Closure

/-! # What a term is made of

The functors of a term are the names and argument counts of its atoms and structures, each as often
as it occurs. With the distinct variables they say how many registers the term takes, and how many
cells.
-/
namespace TermMachine.Term

def head : Term → List (String × Nat)
  | .var _ => []
  | t => [(t.name, t.args.length)]

theorem head_of_isApp {t : Term} (ht : t.IsApp) : t.head = [(t.name, t.args.length)] := by
  cases t with
  | atom name => rfl
  | var name => exact ht.elim
  | app name args => rfl

theorem canon_of_isApp {t : Term} (ht : t.IsApp) : t.canon = ofArgs t.name (t.args.map canon) := by
  cases t with
  | atom name => rfl
  | var name => exact ht.elim
  | app name args => rw [canon, canonAll_eq_map, Term.name, Term.args]

mutual
def functors : Term → List (String × Nat)
  | .atom name => [(name, 0)]
  | .var _ => []
  | .app name args => (name, args.length) :: functorsAll args

def functorsAll : List Term → List (String × Nat)
  | [] => []
  | t :: ts => functors t ++ functorsAll ts
end

theorem functors_eq (t : Term) : t.functors = t.head ++ functorsAll t.args := by
  cases t with
  | atom name => rfl
  | var name => rfl
  | app name args => rfl

theorem functorsAll_eq_flatMap (ts : List Term) : functorsAll ts = ts.flatMap functors := by
  induction ts with
  | nil => rfl
  | cons t ts ih => rw [functorsAll, ih, List.flatMap_cons]

theorem varsAll_eq_flatMap (ts : List Term) : varsAll ts = ts.flatMap vars := by
  induction ts with
  | nil => rfl
  | cons t ts ih => rw [varsAll, ih, List.flatMap_cons]

theorem vars_of_isApp {t : Term} (ht : t.IsApp) : t.vars = t.args.flatMap vars := by
  cases t with
  | atom name => rfl
  | var name => exact ht.elim
  | app name args => rw [vars, varsAll_eq_flatMap, Term.args]

theorem mem_vars_iff {t : Term} {name : String} :
    name ∈ t.vars ↔ t = .var name ∨ name ∈ t.args.flatMap vars := by
  rw [← varsAll_eq_flatMap]
  cases t with
  | atom a => simp [vars, args, varsAll]
  | var a => simp [vars, args, varsAll, eq_comm]
  | app a args => simp [vars, Term.args]

/-- The registers that a term takes: one for each variable and one for each functor occurrence. -/
def registers (t : Term) : Nat := t.vars.toFinset.card + t.functors.length

theorem isGround_iff (t : Term) : t.isGround = true ↔ t.vars = [] := by
  induction t with
  | atom name => simp [isGround, vars]
  | var name => simp [isGround, vars]
  | app name args ih =>
    have hall : areGround args = true ↔ varsAll args = [] := by
      induction args with
      | nil => simp [areGround, varsAll]
      | cons u us ihus =>
        have hu := ih u List.mem_cons_self
        have hus := ihus fun w hw => ih w (List.mem_cons_of_mem u hw)
        simp [areGround, varsAll, hu, hus]
    exact hall

end TermMachine.Term
