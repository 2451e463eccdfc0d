import TermMachine.Code.Basic
import TermMachine.Proofs.Register.Allocation

/-! # The blocks of a term and their order

Each structure of a term has one block: its functor, its own register and the registers of its
arguments. A block is written as one instruction for the structure and one for each argument, and
queries and programs differ only in a style: which instructions these are. A query takes the blocks
with children first, a program with parents first.
-/
namespace TermMachine

structure Block where
  functor : FunctorId
  arity : Arity
  register : Register
  arguments : List Register
deriving DecidableEq

def RegisterMap.block? (map : RegisterMap) (x : Register) : Option Block :=
  match map.rows[x]? with
  | some (.app f n xs) => some ⟨f, n, x, xs⟩
  | _ => none

namespace Block

mutual
/-- The blocks of a term held by register `x`, each behind those of its arguments, then `rest`. -/
def childrenFirst (map : RegisterMap) (x : Register) : Term → List Block → List Block
  | .var _, rest => rest
  | .atom _, rest => (map.block? x).toList ++ rest
  | .app _ args, rest =>
    match map.block? x with
    | some b => childrenFirstAll map b.arguments args (b :: rest)
    | none => rest

def childrenFirstAll (map : RegisterMap) : List Register → List Term → List Block → List Block
  | x :: xs, t :: ts, rest => childrenFirst map x t (childrenFirstAll map xs ts rest)
  | _, _, rest => rest
end

mutual
/-- The blocks of a term held by register `x`, each before those of its arguments, then `rest`. -/
def parentsFirst (map : RegisterMap) (x : Register) : Term → List Block → List Block
  | .var _, rest => rest
  | .atom _, rest => (map.block? x).toList ++ rest
  | .app _ args, rest =>
    match map.block? x with
    | some b => b :: parentsFirstAll map b.arguments args rest
    | none => rest

def parentsFirstAll (map : RegisterMap) : List Register → List Term → List Block → List Block
  | x :: xs, t :: ts, rest => parentsFirst map x t (parentsFirstAll map xs ts rest)
  | _, _, rest => rest
end

/-- The instructions that blocks are written in: one for the structure, and one for an argument
register met for the first time or again. -/
structure Style where
  head : FunctorId → Arity → Register → Instruction
  first : Register → Instruction
  again : Register → Instruction

def Style.query : Style := ⟨.putStructure, .setVariable, .setValue⟩

def Style.program : Style := ⟨.getStructure, .unifyVariable, .unifyValue⟩

theorem mem_insert {met : Std.TreeSet Register} {x y : Register} :
    y ∈ met.insert x ↔ y = x ∨ y ∈ met := by
  rw [Std.TreeSet.mem_insert, Std.LawfulEqCmp.compare_eq_iff_eq, eq_comm]

def meet (met : Std.TreeSet Register) (x : Register) : Std.TreeSet Register :=
  if x ∈ met then met else met.insert x

theorem mem_meet {met : Std.TreeSet Register} {x y : Register} :
    y ∈ meet met x ↔ y = x ∨ y ∈ met := by
  unfold meet
  by_cases hx : x ∈ met
  · rw [if_pos hx]
    exact ⟨.inr, fun h => h.elim (fun heq => heq ▸ hx) id⟩
  · rw [if_neg hx, mem_insert]

def meetAll (met : Std.TreeSet Register) (xs : List Register) : Std.TreeSet Register :=
  xs.foldl meet met

theorem mem_meetAll {met : Std.TreeSet Register} {xs : List Register} {y : Register} :
    y ∈ meetAll met xs ↔ y ∈ xs ∨ y ∈ met := by
  induction xs generalizing met with
  | nil => simp [meetAll]
  | cons x xs ih =>
    rw [meetAll, List.foldl_cons, ← meetAll, ih, mem_meet, List.mem_cons]
    tauto

def after (met : Std.TreeSet Register) (b : Block) : Std.TreeSet Register :=
  meetAll (met.insert b.register) b.arguments

theorem mem_after {met : Std.TreeSet Register} {b : Block} {y : Register} :
    y ∈ b.after met ↔ y = b.register ∨ y ∈ b.arguments ∨ y ∈ met := by
  rw [after, mem_meetAll, mem_insert]
  tauto

def afterAll (met : Std.TreeSet Register) (bs : List Block) : Std.TreeSet Register :=
  bs.foldl after met

def argumentCode (style : Style) : Std.TreeSet Register → List Register → List Instruction
  | _, [] => []
  | met, x :: xs =>
    (if x ∈ met then style.again x else style.first x) :: argumentCode style (meet met x) xs

def code (style : Style) : Std.TreeSet Register → List Block → List Instruction
  | _, [] => []
  | met, b :: bs =>
    style.head b.functor b.arity b.register ::
      argumentCode style (met.insert b.register) b.arguments ++ code style (b.after met) bs

@[simp] theorem length_argumentCode (style : Style) (met : Std.TreeSet Register)
    (xs : List Register) : (argumentCode style met xs).length = xs.length := by
  induction xs generalizing met with
  | nil => rfl
  | cons x xs ih => simp [argumentCode, ih]

theorem code_append (style : Style) (met : Std.TreeSet Register) (bs cs : List Block) :
    code style met (bs ++ cs) = code style met bs ++ code style (afterAll met bs) cs := by
  induction bs generalizing met with
  | nil => rfl
  | cons b bs ih =>
    simp only [List.cons_append, code, ih, afterAll, List.foldl_cons, List.append_assoc]

end Block
end TermMachine
