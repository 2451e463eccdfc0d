import TermMachine.Proofs.Code.Compiled

/-! # The functors of compiled code

Compiled code names the functors of its term and no others. The table that a compilation leaves has
them all, so code keeps its listing as the table grows.
-/
namespace TermMachine

namespace Term

mutual
def functorNames : Term → List String
  | .atom name => [name]
  | .var _ => []
  | .app name args => name :: functorNamesAll args

def functorNamesAll : List Term → List String
  | [] => []
  | t :: ts => functorNames t ++ functorNamesAll ts
end

theorem mem_functorNamesAll {a : String} {ts : List Term} :
    a ∈ functorNamesAll ts ↔ ∃ t ∈ ts, a ∈ t.functorNames := by
  induction ts with
  | nil => simp [functorNamesAll]
  | cons t ts ih => simp [functorNamesAll, ih]

theorem name_mem_functorNames {t : Term} (happ : t.IsApp) : t.name ∈ t.functorNames := by
  cases t with
  | atom name => exact List.mem_cons_self
  | var name => exact happ.elim
  | app name args => exact List.mem_cons_self

theorem functorNames_of_mem_args {t u : Term} (hu : u ∈ t.args) :
    u.functorNames ⊆ t.functorNames := by
  intro a ha
  cases t with
  | atom name => cases hu
  | var name => cases hu
  | app name args => exact List.mem_cons_of_mem _ (mem_functorNamesAll.2 ⟨u, hu, ha⟩)

end Term

def Instruction.functors : Instruction → List FunctorId
  | .putStructure f _ _ => [f]
  | .getStructure f _ _ => [f]
  | _ => []

def Instruction.allFunctors (is : List Instruction) : List FunctorId := is.flatMap functors

namespace Block

variable {table : Functor.Table} {nodes : Array Term} {map : RegisterMap} {root t : Term}
  {x : Register} {style : Style}

structure Style.NamesHeads (style : Style) : Prop where
  head : ∀ f n x, (style.head f n x).functors = [f]
  first : ∀ x, (style.first x).functors = []
  again : ∀ x, (style.again x).functors = []

theorem Style.query_namesHeads : Style.query.NamesHeads :=
  ⟨fun _ _ _ => rfl, fun _ => rfl, fun _ => rfl⟩

theorem Style.program_namesHeads : Style.program.NamesHeads :=
  ⟨fun _ _ _ => rfl, fun _ => rfl, fun _ => rfl⟩

theorem allFunctors_argumentCode (hs : style.NamesHeads) (met : Std.TreeSet Register)
    (xs : List Register) : Instruction.allFunctors (argumentCode style met xs) = [] := by
  induction xs generalizing met with
  | nil => rfl
  | cons x xs ih =>
    have hx : Instruction.functors (if x ∈ met then style.again x else style.first x) = [] := by
      by_cases hmet : x ∈ met
      · rw [if_pos hmet, hs.again]
      · rw [if_neg hmet, hs.first]
    rw [argumentCode, Instruction.allFunctors, List.flatMap_cons, hx]
    exact ih _

/-- The instructions of blocks name the functors of the blocks. -/
theorem allFunctors_code (hs : style.NamesHeads) (met : Std.TreeSet Register) (bs : List Block) :
    Instruction.allFunctors (code style met bs) = bs.map Block.functor := by
  induction bs generalizing met with
  | nil => rfl
  | cons b bs ih =>
    have hargs := allFunctors_argumentCode hs (met.insert b.register) b.arguments
    have hrest := ih (b.after met)
    rw [Instruction.allFunctors] at hargs hrest
    rw [code, Instruction.allFunctors, List.cons_append, List.flatMap_cons, List.flatMap_append,
      hs.head, hargs, hrest, List.map_cons]
    rfl

/-- The functor of a block has a name of the block's term. -/
theorem exists_functorName (h : map.Represents table root nodes) (hx : nodes[x]? = some t)
    {b : Block} (hb : b ∈ parentsFirst map x t []) :
    ∃ name ∈ t.functorNames, table.lookup b.functor = some ⟨name, b.arity⟩ := by
  refine induction_on h (P := fun x t => b ∈ parentsFirst map x t [] →
    ∃ name ∈ t.functorNames, table.lookup b.functor = some ⟨name, b.arity⟩) ?_ ?_ hx hb
  · intro x name _ hb
    cases hb
  · intro c u hfor hc ih hb
    rw [parentsFirst_eq hfor.isApp hc] at hb
    rcases List.mem_cons.1 hb with rfl | hb
    · exact ⟨u.name, Term.name_mem_functorNames hfor.isApp, hfor.functor⟩
    · obtain ⟨p, hp, hb⟩ := List.mem_flatMap.1 hb
      obtain ⟨name, hname, hlookup⟩ := ih p hp hb
      exact ⟨name, Term.functorNames_of_mem_args (List.of_mem_zip hp).2 hname, hlookup⟩

end Block

namespace Functor.Table

theorem Extends.nameOf_eq {table later : Table} (h : table.Extends later) {f : FunctorId}
    {g : Functor} (hf : table.lookup f = some g) : later.nameOf f = table.nameOf f := by
  rw [nameOf, nameOf, hf, h hf]

end Functor.Table

namespace Code

variable {table later : Functor.Table} {registers : Nat} {t : Term} {code : Code} {f : FunctorId}

theorem IsQuery.functor (h : IsQuery table registers t code)
    (hf : f ∈ Instruction.allFunctors code.instructions) :
    ∃ name ∈ t.functorNames, ∃ n, table.lookup f = some ⟨name, n⟩ := by
  obtain ⟨map, nodes, hmap, -, rfl⟩ := h
  rcases t.eq_var_or_isApp with ⟨name, rfl⟩ | happ
  · cases hf
  · rw [queryInstructions_eq map happ] at hf
    rw [Block.allFunctors_code Block.Style.query_namesHeads] at hf
    obtain ⟨b, hb, rfl⟩ := List.mem_map.1 hf
    rw [(Block.perm hmap hmap.root).mem_iff] at hb
    obtain ⟨name, hname, hlookup⟩ := Block.exists_functorName hmap hmap.root hb
    exact ⟨name, hname, b.arity, hlookup⟩

theorem IsProgram.functor (h : IsProgram table registers t code)
    (hf : f ∈ Instruction.allFunctors code.instructions) :
    ∃ name ∈ t.functorNames, ∃ n, table.lookup f = some ⟨name, n⟩ := by
  obtain ⟨map, nodes, hmap, -, rfl⟩ := h
  rw [programInstructions_eq hmap] at hf
  rw [Block.allFunctors_code Block.Style.program_namesHeads] at hf
  obtain ⟨b, hb, rfl⟩ := List.mem_map.1 hf
  obtain ⟨name, hname, hlookup⟩ := Block.exists_functorName hmap hmap.root hb
  exact ⟨name, hname, b.arity, hlookup⟩

def Known (table : Functor.Table) (code : Code) : Prop :=
  ∀ f ∈ Instruction.allFunctors code.instructions, ∃ g, table.lookup f = some g

theorem IsQuery.known (h : IsQuery table registers t code) : code.Known table := by
  intro f hf
  obtain ⟨name, -, n, hlookup⟩ := h.functor hf
  exact ⟨⟨name, n⟩, hlookup⟩

theorem IsProgram.known (h : IsProgram table registers t code) : code.Known table := by
  intro f hf
  obtain ⟨name, -, n, hlookup⟩ := h.functor hf
  exact ⟨⟨name, n⟩, hlookup⟩

theorem Known.mono (h : code.Known table) (hext : table.Extends later) : code.Known later := by
  intro f hf
  obtain ⟨g, hg⟩ := h f hf
  exact ⟨g, hext hg⟩

/-- Code keeps its listing as the table grows. -/
theorem Known.listing_eq (h : code.Known table) (hext : table.Extends later) :
    code.listing later = code.listing table := by
  rw [listing, listing]
  refine congrArg String.join (List.map_congr_left fun i hi => ?_)
  have hname : ∀ f ∈ i.functors, later.nameOf f = table.nameOf f := by
    intro f hf
    obtain ⟨g, hg⟩ := h f (List.mem_flatMap.2 ⟨i, hi, hf⟩)
    exact hext.nameOf_eq hg
  cases i with
  | putStructure f n x =>
    change "put_structure " ++ later.nameOf f ++ ", " ++ x.text ++ "\n" = _
    rw [hname f List.mem_cons_self]
    rfl
  | getStructure f n x =>
    change "get_structure " ++ later.nameOf f ++ ", " ++ x.text ++ "\n" = _
    rw [hname f List.mem_cons_self]
    rfl
  | setVariable x => rfl
  | setValue x => rfl
  | unifyVariable x => rfl
  | unifyValue x => rfl

end Code
end TermMachine
