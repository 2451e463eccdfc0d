import Mathlib.Data.List.Forall2
import TermMachine.Term

/-! # Variables, cells and substitutions of terms

The heap cells that a term is built from, its variables, substitution for them, and the canonical
form of a term, in which an empty structure is an atom.
-/
namespace TermMachine.Term

@[elab_as_elim, induction_eliminator]
theorem induction {P : Term → Prop} (atom : ∀ name, P (.atom name)) (var : ∀ name, P (.var name))
    (app : ∀ name args, (∀ t ∈ args, P t) → P (.app name args)) (t : Term) : P t := by
  refine Term.rec (motive_1 := P) (motive_2 := fun ts => ∀ t ∈ ts, P t) atom var app ?_ ?_ t
  · simp
  · intro t ts ht hts u hu
    rcases List.mem_cons.1 hu with rfl | hu
    · exact ht
    · exact hts u hu

def IsApp : Term → Prop
  | .var _ => False
  | _ => True

@[simp] theorem isApp_atom (name : String) : (Term.atom name).IsApp := trivial
@[simp] theorem isApp_app (name : String) (args : List Term) : (Term.app name args).IsApp := trivial
@[simp] theorem not_isApp_var (name : String) : ¬(Term.var name).IsApp := id

theorem eq_var_or_isApp (t : Term) : (∃ name, t = .var name) ∨ t.IsApp := by
  cases t with
  | atom name => exact .inr trivial
  | var name => exact .inl ⟨name, rfl⟩
  | app name args => exact .inr trivial

mutual
def vars : Term → List String
  | .atom _ => []
  | .var name => [name]
  | .app _ args => varsAll args

def varsAll : List Term → List String
  | [] => []
  | t :: ts => vars t ++ varsAll ts
end

theorem mem_varsAll {a : String} {ts : List Term} : a ∈ varsAll ts ↔ ∃ t ∈ ts, a ∈ t.vars := by
  induction ts with
  | nil => simp [varsAll]
  | cons t ts ih => simp [varsAll, ih]

theorem mem_vars_of_mem_args {a : String} {t u : Term} (hu : u ∈ t.args) (ha : a ∈ u.vars) :
    a ∈ t.vars := by
  cases t with
  | atom name => simp [args] at hu
  | var name => simp [args] at hu
  | app name args => exact mem_varsAll.2 ⟨u, hu, ha⟩

mutual
def cells : Term → Nat
  | .atom _ => 2
  | .var _ => 0
  | .app _ args => 2 + args.length + cellsAll args

def cellsAll : List Term → Nat
  | [] => 0
  | t :: ts => cells t + cellsAll ts
end

/-- A term that builds itself takes a cell even when it is a bare variable. -/
def queryCells : Term → Nat
  | .var _ => 1
  | t => t.cells

theorem queryCells_of_isApp {t : Term} (ht : t.IsApp) : t.queryCells = t.cells := by
  cases t with
  | atom name => rfl
  | var name => exact ht.elim
  | app name args => rfl

theorem sizeList_append (ts us : List Term) :
    sizeList (ts ++ us) = sizeList ts + sizeList us := by
  induction ts with
  | nil => simp [sizeList]
  | cons t ts ih => simp [sizeList, ih, Nat.add_assoc]

theorem sizeList_sublist {ts us : List Term} (h : ts.Sublist us) : sizeList ts ≤ sizeList us := by
  induction h with
  | slnil => exact Nat.le_refl _
  | cons t _ ih => simp only [sizeList]; omega
  | cons_cons t _ ih => simp only [sizeList]; omega

theorem sizeList_args_lt (t : Term) : sizeList t.args < t.size := by
  cases t with
  | atom name => simp [args, sizeList, size]
  | var name => simp [args, sizeList, size]
  | app name args => simp [Term.args, size]

mutual
def subst (s : String → Term) : Term → Term
  | .atom name => .atom name
  | .var name => s name
  | .app name args => .app name (substAll s args)

def substAll (s : String → Term) : List Term → List Term
  | [] => []
  | t :: ts => subst s t :: substAll s ts
end

theorem substAll_eq_map (s : String → Term) (ts : List Term) :
    substAll s ts = ts.map (subst s) := by
  induction ts with
  | nil => rfl
  | cons t ts ih => simp [substAll, ih]

theorem subst_var (t : Term) : t.subst .var = t := by
  induction t with
  | atom name => rfl
  | var name => rfl
  | app name args ih =>
    rw [subst, substAll_eq_map, List.map_congr_left ih, List.map_id']

def rename (ρ : String → String) : Term → Term := subst fun name => .var (ρ name)

def ofArgs (name : String) : List Term → Term
  | [] => .atom name
  | t :: ts => .app name (t :: ts)

theorem ofArgs_inj {f g : String} {ts us : List Term} :
    ofArgs f ts = ofArgs g us ↔ f = g ∧ ts = us := by
  cases ts <;> cases us <;> simp [ofArgs]

mutual
/-- The term with every empty structure as an atom. -/
def canon : Term → Term
  | .atom name => .atom name
  | .var name => .var name
  | .app name args => ofArgs name (canonAll args)

def canonAll : List Term → List Term
  | [] => []
  | t :: ts => canon t :: canonAll ts
end

@[simp] theorem rename_atom (ρ : String → String) (name : String) :
    (Term.atom name).rename ρ = .atom name := rfl

@[simp] theorem rename_var (ρ : String → String) (name : String) :
    (Term.var name).rename ρ = .var (ρ name) := rfl

theorem rename_ofArgs (ρ : String → String) (name : String) (ts : List Term) :
    (ofArgs name ts).rename ρ = ofArgs name (ts.map (rename ρ)) := by
  cases ts with
  | nil => rfl
  | cons t ts => simp [ofArgs, rename, subst, substAll_eq_map]

theorem canonAll_eq_map (ts : List Term) : canonAll ts = ts.map canon := by
  induction ts with
  | nil => rfl
  | cons t ts ih => simp [canonAll, ih]

theorem canon_ofArgs (f : String) (ts : List Term) :
    (ofArgs f ts).canon = ofArgs f (ts.map canon) := by
  cases ts with
  | nil => rfl
  | cons t ts => simp [ofArgs, canon, canonAll_eq_map]

@[simp] theorem canon_canon (t : Term) : t.canon.canon = t.canon := by
  induction t with
  | atom name => rfl
  | var name => rfl
  | app name args ih =>
    simp only [canon, canonAll_eq_map, canon_ofArgs, List.map_map]
    exact congrArg (ofArgs name) (List.map_congr_left fun u hu => ih u hu)

/-- Names of variables do not matter to the canonical form. -/
theorem canon_rename (ρ : String → String) (t : Term) :
    (t.rename ρ).canon = t.canon.rename ρ := by
  induction t with
  | atom name => rfl
  | var name => rfl
  | app name args ih =>
    have hargs : (Term.app name args).rename ρ = .app name (args.map (rename ρ)) := by
      rw [rename, subst, substAll_eq_map]
    rw [hargs, canon, canon, canonAll_eq_map, canonAll_eq_map, rename_ofArgs, List.map_map,
      List.map_map]
    exact congrArg (ofArgs name) (List.map_congr_left ih)

end TermMachine.Term
