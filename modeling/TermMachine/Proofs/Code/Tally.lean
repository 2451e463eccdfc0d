import TermMachine.Proofs.Code.Layout

/-! # What a query's code adds up to

The code of a query has one instruction for the head of each structure and one for each argument. An
argument that is a variable is set for the first time or again, and a variable is set for the first
time once.
-/
namespace TermMachine

namespace Instruction

def isPut : Instruction → Bool
  | putStructure _ _ _ => true
  | _ => false

def isSetVariable : Instruction → Bool
  | setVariable _ => true
  | _ => false

def cost (i : Instruction) : Nat := if i.isPut then 2 else 1

def isVarArgument (isVar : Register → Bool) (i : Instruction) : Bool := !i.isPut && isVar i.register

end Instruction

def RegisterMap.isVar (map : RegisterMap) (x : Register) : Bool :=
  match map.rows[x]? with
  | some (.var _) => true
  | _ => false

theorem RegisterMap.isVar_iff {map : RegisterMap} {x : Register} :
    map.isVar x = true ↔ ∃ name, map.rows[x]? = some (.var name) := by
  unfold isVar
  split
  · rename_i name hx
    exact ⟨fun _ => ⟨name, hx⟩, fun _ => rfl⟩
  · rename_i hx
    exact ⟨nofun, fun ⟨name, hname⟩ => absurd hname (hx name)⟩

/-- An instruction of a query behind `pre`: structures and variables are told apart, and what is set
again has been defined. -/
inductive Instruction.Supported (isVar : Register → Bool) (pre : List Instruction) :
    Instruction → Prop
  | put {f : FunctorId} {n : Arity} {x : Register} : isVar x = false →
      Supported isVar pre (.putStructure f n x)
  | first {x : Register} : isVar x = true → Supported isVar pre (.setVariable x)
  | again {x : Register} : x ∈ pre.filterMap defines → Supported isVar pre (.setValue x)

namespace Term

def innerVars : Term → Nat
  | .var _ => 0
  | t => t.vars.length

theorem innerVars_of_isApp {t : Term} (ht : t.IsApp) : t.innerVars = t.vars.length := by
  cases t with
  | atom name => rfl
  | var name => exact ht.elim
  | app name args => rfl

end Term

structure Code.Tally (isVar : Register → Bool) (t : Term) (code : List Instruction) : Prop where
  supported : ∀ {pre post : List Instruction} {i : Instruction}, code = pre ++ i :: post →
    i.Supported isVar pre
  cost : (code.map Instruction.cost).sum = t.queryCells
  puts : code.countP Instruction.isPut = t.functors.length
  refs : code.countP (Instruction.isVarArgument isVar) = t.vars.length
  firsts : code.countP Instruction.isSetVariable = t.vars.toFinset.card

theorem Instruction.sum_cost (code : List Instruction) :
    (code.map cost).sum = code.length + code.countP isPut := by
  induction code with
  | nil => rfl
  | cons i code ih =>
    rw [List.map_cons, List.sum_cons, ih, List.length_cons, List.countP_cons, cost]
    cases i.isPut
    · simp only [Bool.false_eq_true, if_false]
      omega
    · simp only [if_true]
      omega

theorem Instruction.length_defines (code : List Instruction) :
    (code.filterMap defines).length = code.countP isPut + code.countP isSetVariable := by
  induction code with
  | nil => rfl
  | cons i code ih =>
    rw [List.filterMap_cons, List.countP_cons, List.countP_cons]
    cases i <;> simp [defines, isPut, isSetVariable, ih] <;> omega

namespace Block

variable {style : Style} {met : Std.TreeSet Register} {bs : List Block} {xs : List Register}

/-- The arguments of a query's block are set, and they are those of the block. -/
theorem countP_argumentCode (met : Std.TreeSet Register) (xs : List Register) :
    (argumentCode .query met xs).countP Instruction.isPut = 0 ∧
      ∀ isVar, (argumentCode .query met xs).countP (Instruction.isVarArgument isVar) =
        xs.countP isVar := by
  induction xs generalizing met with
  | nil => exact ⟨rfl, fun _ => rfl⟩
  | cons x xs ih =>
    obtain ⟨hputs, hrefs⟩ := ih (meet met x)
    have hi : ∀ i, i = Style.query.again x ∨ i = Style.query.first x →
        i.isPut = false ∧ i.register = x := by
      rintro i (rfl | rfl)
      · exact ⟨rfl, rfl⟩
      · exact ⟨rfl, rfl⟩
    obtain ⟨hput, hreg⟩ := hi (if x ∈ met then Style.query.again x else Style.query.first x)
      (by split <;> simp)
    rw [argumentCode]
    refine ⟨?_, fun isVar => ?_⟩
    · rw [List.countP_cons, hput, hputs]
      rfl
    · rw [List.countP_cons, List.countP_cons, hrefs, Instruction.isVarArgument, hput, hreg]
      simp

theorem countP_code (met : Std.TreeSet Register) (bs : List Block) :
    (code .query met bs).countP Instruction.isPut = bs.length ∧
      ∀ isVar, (code .query met bs).countP (Instruction.isVarArgument isVar) =
        (bs.map fun b => b.arguments.countP isVar).sum := by
  induction bs generalizing met with
  | nil => exact ⟨rfl, fun _ => rfl⟩
  | cons b bs ih =>
    obtain ⟨hputs, hrefs⟩ := ih (b.after met)
    obtain ⟨hargs, hvars⟩ := countP_argumentCode (met.insert b.register) b.arguments
    have hhead : (Style.query.head b.functor b.arity b.register).isPut = true := rfl
    rw [code, List.cons_append]
    refine ⟨?_, fun isVar => ?_⟩
    · rw [List.countP_cons, List.countP_append, hargs, hputs, hhead, List.length_cons]
      simp
    · rw [List.countP_cons, List.countP_append, hvars, hrefs, Instruction.isVarArgument, hhead,
        List.map_cons, List.sum_cons]
      simp

section Term

variable {table : Functor.Table} {nodes : Array Term} {map : RegisterMap} {root t : Term}
  {x : Register}
variable (h : map.Represents table root nodes)
include h

theorem isVar_iff_node : map.isVar x = true ↔ ∃ name, nodes[x]? = some (.var name) := by
  simp only [RegisterMap.isVar_iff, h.var_row]

theorem length_parentsFirst (hx : nodes[x]? = some t) :
    (parentsFirst map x t []).length = t.functors.length := by
  have hsum := sum_parentsFirst h (f := fun _ => 1) (F := fun u => u.functors.length)
    (fun _ => rfl) ?_ hx
  · simpa using hsum
  · intro b u hfor
    rw [u.functors_eq, Term.head_of_isApp hfor.isApp, Term.functorsAll_eq_flatMap,
      List.length_append, List.length_flatMap, List.length_singleton]

/-- The arguments that are variables, and the variables further down. -/
theorem countP_isVar {xs : List Register} {ts : List Term}
    (hxs : List.Forall₂ (fun x u => nodes[x]? = some u) xs ts) :
    xs.countP map.isVar + (ts.map Term.innerVars).sum = (ts.flatMap Term.vars).length := by
  induction hxs with
  | nil => rfl
  | @cons x u xs ts hu _ ih =>
    have hvar := isVar_iff_node h (x := x)
    rw [List.countP_cons, List.map_cons, List.sum_cons, List.flatMap_cons, List.length_append,
      ← ih]
    rcases u.eq_var_or_isApp with ⟨name, rfl⟩ | happ
    · rw [if_pos (hvar.2 ⟨name, hu⟩), Term.innerVars, Term.vars, List.length_singleton]
      omega
    · have hnot : ¬map.isVar x = true := fun hx => by
        obtain ⟨name, hname⟩ := hvar.1 hx
        rw [hu, Option.some.injEq] at hname
        exact (hname ▸ happ : (Term.var name).IsApp)
      rw [if_neg hnot, Term.innerVars_of_isApp happ]
      omega

theorem sum_countP_isVar (hx : nodes[x]? = some t) :
    ((parentsFirst map x t []).map fun b => b.arguments.countP map.isVar).sum = t.innerVars := by
  refine sum_parentsFirst h (fun _ => rfl) (fun b u hfor => ?_) hx
  rw [countP_isVar h hfor.arguments, Term.innerVars_of_isApp hfor.isApp,
    Term.vars_of_isApp hfor.isApp]

/-- What the blocks with children first add up to. -/
theorem tally_childrenFirst (hn : map.Numbered) (happ : root.IsApp)
    (hsize : map.rows.size = root.registers) :
    Code.Tally map.isVar root
      (code .query ∅ (childrenFirst map RegisterMap.root root [])) := by
  have hbuilds := builds_childrenFirst h hn happ
  have hperm := perm h h.root
  obtain ⟨hputs, hrefs⟩ := countP_code ∅ (childrenFirst map RegisterMap.root root [])
  rw [hperm.length_eq, length_parentsFirst h h.root] at hputs
  constructor
  case supported =>
    intro pre post i heq
    -- which kind of instruction it is does not depend on what has been met
    have hnone : Schedule (Prepared fun _ => False) ∅
        (childrenFirst map RegisterMap.root root []) :=
      schedule_of_forall fun met b y _ => False.elim
    rcases code_marked Style.lawful_query hnone heq with ⟨b, hb, rfl⟩ | hmarked
    · refine .put (Bool.eq_false_iff.2 fun hvar => ?_)
      obtain ⟨name, hname⟩ := RegisterMap.isVar_iff.1 hvar
      rw [(hbuilds.layout.rows b).1 hb] at hname
      cases hname
    · cases hmarked with
      | first y => exact .first (RegisterMap.isVar_iff.2 (hbuilds.first heq).1)
      | again y => exact .again (hbuilds.again heq)
  case cost =>
    have hlength := length_code .query ∅ fun b hb => length_arguments h h.root (hperm.mem_iff.1 hb)
    rw [cells_perm hperm, cells_parentsFirst h h.root, hperm.length_eq,
      length_parentsFirst h h.root] at hlength
    rw [Instruction.sum_cost, hputs, hlength, Term.queryCells_of_isApp happ]
  case puts => exact hputs
  case refs =>
    rw [hrefs, (hperm.map _).sum_nat, sum_countP_isVar h h.root, Term.innerVars_of_isApp happ]
  case firsts =>
    have honce := hbuilds.once.length_eq
    rw [Instruction.length_defines, hputs, List.length_range, hsize, Term.registers] at honce
    omega

end Term

end Block

/-- What the code of a query adds up to. Its variables are those of the term. -/
theorem Code.query_tally {t : Term} {table later : Functor.Table} {capacity : Nat} {query : Code}
    (hquery : Code.query t table capacity = (.ok query, later)) :
    (∃ isVar, Code.Tally isVar t query.instructions) ∧ (query.vars = [] ↔ t.vars = []) := by
  rw [query_eq_compileWith] at hquery
  obtain ⟨map, hmap, rfl⟩ := compileWith_eq_ok hquery
  obtain ⟨nodes, hrep, haccounts, hn, -⟩ := (RegisterMap.allocate_cases t table capacity).2 hmap
  refine ⟨⟨map.isVar, ?_⟩, ?_⟩
  · rcases t.eq_var_or_isApp with ⟨name, rfl⟩ | happ
    · have hvar : map.isVar RegisterMap.root = true :=
        RegisterMap.isVar_iff.2 ⟨name, hrep.var_row.2 hrep.root⟩
      constructor
      case supported =>
        intro pre post i heq
        cases pre with
        | nil =>
          obtain ⟨rfl, -⟩ := List.cons.inj heq
          exact .first hvar
        | cons j pre => simp [queryInstructions] at heq
      case cost => rfl
      case puts => rfl
      case refs => simp [queryInstructions, Instruction.isVarArgument, Instruction.isPut,
        Instruction.register, hvar, Term.vars]
      case firsts => simp [queryInstructions, Instruction.isSetVariable, Term.vars]
    · have hsize : map.rows.size = t.registers := by
        rw [hrep.size_eq, ← haccounts.length_eq_registers, Array.length_toList]
      dsimp only
      rw [queryInstructions_eq map happ]
      exact Block.tally_childrenFirst hrep hn happ hsize
  · rw [List.eq_nil_iff_forall_not_mem, List.eq_nil_iff_forall_not_mem]
    constructor
    · intro hnone name hname
      obtain ⟨x, hx, -⟩ := hrep.exists_register hrep.root hname
      exact hnone (name, x) (hrep.mem_sortedVariables.2 hx)
    · rintro hnone ⟨name, x⟩ hmem
      exact hnone name (hrep.vars (hrep.mem_sortedVariables.1 hmem) (List.mem_singleton_self name))

end TermMachine
