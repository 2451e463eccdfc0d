import TermMachine.Proofs.Code.Compiled
import TermMachine.Proofs.Register.Renumbering

/-! # Code with other functor ids

The ids of functors appear in the first instruction of each block and nowhere else in code. So a
term compiled on another table has the same code up to these ids.
-/
namespace TermMachine

def Instruction.rename (ρ : FunctorId → FunctorId) : Instruction → Instruction
  | .putStructure f n x => .putStructure (ρ f) n x
  | .getStructure f n x => .getStructure (ρ f) n x
  | i => i

def Block.rename (ρ : FunctorId → FunctorId) (b : Block) : Block :=
  { b with functor := ρ b.functor }

def Code.rename (ρ : FunctorId → FunctorId) (code : Code) : Code :=
  ⟨code.instructions.map (Instruction.rename ρ), code.vars⟩

namespace RegisterMap

variable (ρ : FunctorId → FunctorId) (map : RegisterMap)

theorem block?_rename (x : Register) :
    (map.rename ρ).block? x = (map.block? x).map (Block.rename ρ) := by
  rw [block?, block?, rename, Array.getElem?_map]
  rcases map.rows[x]? with _ | _ | _
  · rfl
  · rfl
  · rfl

theorem vars_rename : (map.rename ρ).vars = map.vars := by
  rw [vars, vars, rename, Array.toList_map, List.zipIdx_map, List.filterMap_map]
  refine List.filterMap_congr fun r _ => ?_
  obtain ⟨_ | _, x⟩ := r
  · rfl
  · rfl

theorem sortedVariables_rename :
    Code.sortedVariables (map.rename ρ) = Code.sortedVariables map := by
  rw [Code.sortedVariables, vars_rename, ← Code.sortedVariables]

end RegisterMap

namespace Block

variable (ρ : FunctorId → FunctorId) (map : RegisterMap)

mutual
theorem childrenFirst_rename (x : Register) : (t : Term) → (rest : List Block) →
    childrenFirst (map.rename ρ) x t (rest.map (Block.rename ρ)) =
      (childrenFirst map x t rest).map (Block.rename ρ)
  | .var _, rest => rfl
  | .atom _, rest => by
    simp only [childrenFirst, RegisterMap.block?_rename]
    cases map.block? x with
    | none => rfl
    | some b => rfl
  | .app _ args, rest => by
    simp only [childrenFirst, RegisterMap.block?_rename]
    cases map.block? x with
    | none => rfl
    | some b => exact childrenFirstAll_rename b.arguments args (b :: rest)

theorem childrenFirstAll_rename : (xs : List Register) → (ts : List Term) → (rest : List Block) →
    childrenFirstAll (map.rename ρ) xs ts (rest.map (Block.rename ρ)) =
      (childrenFirstAll map xs ts rest).map (Block.rename ρ)
  | [], _, rest => by simp only [childrenFirstAll]
  | _ :: _, [], rest => by simp only [childrenFirstAll]
  | x :: xs, t :: ts, rest => by
    simp only [childrenFirstAll]
    rw [childrenFirstAll_rename xs ts rest, childrenFirst_rename x t]
end

mutual
theorem parentsFirst_rename (x : Register) : (t : Term) → (rest : List Block) →
    parentsFirst (map.rename ρ) x t (rest.map (Block.rename ρ)) =
      (parentsFirst map x t rest).map (Block.rename ρ)
  | .var _, rest => rfl
  | .atom _, rest => by
    simp only [parentsFirst, RegisterMap.block?_rename]
    cases map.block? x with
    | none => rfl
    | some b => rfl
  | .app _ args, rest => by
    simp only [parentsFirst, RegisterMap.block?_rename]
    cases map.block? x with
    | none => rfl
    | some b => exact congrArg _ (parentsFirstAll_rename b.arguments args rest)

theorem parentsFirstAll_rename : (xs : List Register) → (ts : List Term) → (rest : List Block) →
    parentsFirstAll (map.rename ρ) xs ts (rest.map (Block.rename ρ)) =
      (parentsFirstAll map xs ts rest).map (Block.rename ρ)
  | [], _, rest => by simp only [parentsFirstAll]
  | _ :: _, [], rest => by simp only [parentsFirstAll]
  | x :: xs, t :: ts, rest => by
    simp only [parentsFirstAll]
    rw [parentsFirstAll_rename xs ts rest, parentsFirst_rename x t]
end

structure Style.Renames (ρ : FunctorId → FunctorId) (style : Style) : Prop where
  head : ∀ f n x, (style.head f n x).rename ρ = style.head (ρ f) n x
  first : ∀ x, (style.first x).rename ρ = style.first x
  again : ∀ x, (style.again x).rename ρ = style.again x

theorem Style.query_renames : Style.query.Renames ρ :=
  ⟨fun _ _ _ => rfl, fun _ => rfl, fun _ => rfl⟩

theorem Style.program_renames : Style.program.Renames ρ :=
  ⟨fun _ _ _ => rfl, fun _ => rfl, fun _ => rfl⟩

variable {ρ} {style : Style}

theorem argumentCode_rename (hstyle : style.Renames ρ) (met : Std.TreeSet Register)
    (xs : List Register) :
    (argumentCode style met xs).map (Instruction.rename ρ) = argumentCode style met xs := by
  induction xs generalizing met with
  | nil => rfl
  | cons x xs ih =>
    rw [argumentCode, List.map_cons, ih]
    by_cases hx : x ∈ met
    · rw [if_pos hx, hstyle.again]
    · rw [if_neg hx, hstyle.first]

theorem code_rename (hstyle : style.Renames ρ) (met : Std.TreeSet Register) (bs : List Block) :
    code style met (bs.map (Block.rename ρ)) = (code style met bs).map (Instruction.rename ρ) := by
  induction bs generalizing met with
  | nil => rfl
  | cons b bs ih =>
    have hafter : (b.rename ρ).after met = b.after met := rfl
    simp only [List.map_cons, code, List.map_append, hafter, ih, argumentCode_rename hstyle,
      hstyle.head]
    rfl

end Block

namespace Code

open Functor.Table

variable {ρ : FunctorId → FunctorId} {table table₀ later whole : Functor.Table} {registers : Nat}
  {code : Code}

theorem queryInstructions_rename (map : RegisterMap) (t : Term) :
    queryInstructions (map.rename ρ) t = (queryInstructions map t).map (Instruction.rename ρ) := by
  rcases t.eq_var_or_isApp with ⟨name, rfl⟩ | happ
  · rfl
  · rw [queryInstructions_eq _ happ, queryInstructions_eq _ happ,
      ← Block.code_rename (Block.Style.query_renames ρ), ← Block.childrenFirst_rename, List.map_nil]

theorem programInstructions_rename (map : RegisterMap) (t : Term) :
    programInstructions (map.rename ρ) t =
      (programInstructions map t).map (Instruction.rename ρ) := by
  rw [programInstructions, programInstructions,
    ← Block.code_rename (Block.Style.program_renames ρ), ← Block.parentsFirst_rename, List.map_nil]

@[simp] theorem size_rename (code : Code) : (code.rename ρ).size = code.size := by
  simp [size, rename]

theorem compileWith_repeats {emit : RegisterMap → Term → List Instruction} {t : Term}
    (hemit : ∀ ρ map, emit (map.rename ρ) t = (emit map t).map (Instruction.rename ρ))
    (h : compileWith emit t table registers = (.ok code, later)) (hlater : later.Extends whole)
    (hcov : table₀.Covered whole) :
    Repeats rename table₀ whole code (compileWith emit t table₀ registers) := by
  obtain ⟨map, hmap, rfl⟩ := compileWith_eq_ok h
  obtain ⟨map₀, later₀, hmap₀, hext, hcov', heq⟩ := RegisterMap.allocate_repeats hmap hlater hcov
  refine ⟨_, later₀, compileWith_of_allocate hmap₀, hext, hcov', fun ρ hρ => ?_⟩
  rw [heq ρ hρ, hemit, RegisterMap.sortedVariables_rename, rename]

theorem query_repeats {t : Term} (h : query t table registers = (.ok code, later))
    (hlater : later.Extends whole) (hcov : table₀.Covered whole) :
    Repeats rename table₀ whole code (query t table₀ registers) := by
  rw [query_eq_compileWith] at h ⊢
  exact compileWith_repeats (fun _ map => queryInstructions_rename map t) h hlater hcov

theorem program_repeats {t : Term} (h : program t table registers = (.ok code, later))
    (hlater : later.Extends whole) (hcov : table₀.Covered whole) :
    Repeats rename table₀ whole code (program t table₀ registers) := by
  rw [program_eq_compileWith] at h ⊢
  exact compileWith_repeats (fun _ map => programInstructions_rename map t) h hlater hcov

end Code
end TermMachine
