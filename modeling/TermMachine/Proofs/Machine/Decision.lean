import TermMachine.Proofs.Heap.Unfolding
import TermMachine.Proofs.Machine.Provenance
import TermMachine.Proofs.Tree.Closure

/-! # A run decides unification

With room on the heap a run of compiled code answers whether its terms have a common solution in
rational trees, which is when their closure does not clash. A heap that is left by a yes unfolds to
a solution, and a no means that no domain of trees has one.
-/
namespace TermMachine

variable {q p : Term}

/-- The heap of a yes holds a solution in rational trees. -/
theorem Answered.rationallyUnifiable {table : Functor.Table} {k : Address} {h : Heap}
    {c : Capture} {root : Address} (ha : Answered table k q p h c root) :
    RationallyUnifiable q p := by
  have hv := Heap.models_tree ha.heap
  have hroot := ha.captured.root_term
  have hrat := Heap.tree_isRational ha.heap hroot.1 hroot.lt_size
  obtain ⟨σ, -, hσ⟩ := ha.captured.exists_eval hv
  obtain ⟨τ, hτ⟩ := ha.sound hv
  obtain ⟨σ', hσ', hq⟩ := Tree.exists_rational_values (hσ ▸ hrat)
  obtain ⟨τ', hτ', hp⟩ := Tree.exists_rational_values (hτ ▸ hrat)
  exact ⟨σ', τ', hσ', hτ', by rw [hq, hp, ← hσ, hτ]⟩

namespace Machine

variable {capacities : Capacities} {calls : List Call} {query program : Code}

/-- With room on the heap a run answers yes or no, and yes exactly when the terms unify without
occurs check. -/
theorem run_decides_unification (hq : CompiledQuery capacities calls q query)
    (hp : CompiledProgram capacities calls p program)
    (hroom : ((create capacities).afterAll calls).state.heap.top + q.queryCells + p.cells ≤
      capacities.heap) :
    ∃ b, (((create capacities).afterAll calls).run query program).1 = .ok b ∧
      (b = true ↔ RationallyUnifiable q p) ∧ (b = true ↔ ¬Clash q p) := by
  rcases run_cases hq hp rfl rfl with ⟨htrue, root, hans⟩ | ⟨hfalse, -, -, hnone⟩ | ⟨-, hlt⟩
  · have hsol := hans.rationallyUnifiable
    obtain ⟨σ, τ, -, -, heq⟩ := hsol
    exact ⟨true, htrue, by simpa using hans.rationallyUnifiable,
      by simpa using not_clash_of_eval_eq heq⟩
  · refine ⟨false, hfalse, ?_, ?_⟩
    · simp only [Bool.false_eq_true, false_iff]
      rintro ⟨σ, τ, -, -, heq⟩
      exact hnone σ τ heq
    · simp only [Bool.false_eq_true, false_iff, not_not]
      by_contra hc
      obtain ⟨σ, τ, heq⟩ := exists_eval_eq_of_not_clash hc
      exact hnone σ τ heq
  · rw [Heap.top] at hroom
    lia

/-- Two terms that unify in an infinite tree only. -/
theorem run_decides_unification_cyclic :
    let q : Term := .app "f" [.var "X", .var "X"]
    let p : Term := .app "f" [.var "Y", .app "g" [.var "Y"]]
    let query : Code := ⟨[.putStructure 0 2 0, .setVariable 1, .setValue 1], [("X", 1)]⟩
    let program : Code := ⟨[.getStructure 0 2 0, .unifyVariable 1, .unifyVariable 2,
      .getStructure 1 1 2, .unifyValue 1], [("Y", 1)]⟩
    let m := (create ⟨4, 20, 11, 2⟩).afterAll [.query q, .program p]
    CompiledQuery ⟨4, 20, 11, 2⟩ [.query q, .program p] q query ∧
      CompiledProgram ⟨4, 20, 11, 2⟩ [.query q, .program p] p program ∧
      m.state.heap.top + q.queryCells + p.cells ≤ 11 ∧
      ∃ b, (m.run query program).1 = .ok b ∧ (b = true ↔ RationallyUnifiable q p) ∧
        (b = true ↔ ¬Clash q p) := by
  intro q p query program m
  have hq : CompiledQuery ⟨4, 20, 11, 2⟩ [.query q, .program p] q query :=
    ⟨[], [.program p], rfl, by simp, by rfl⟩
  have hp : CompiledProgram ⟨4, 20, 11, 2⟩ [.query q, .program p] p program :=
    ⟨[.query q], [], rfl, by simp, by decide +kernel⟩
  have hroom : m.state.heap.top + q.queryCells + p.cells ≤ 11 := by decide +kernel
  exact ⟨hq, hp, hroom, run_decides_unification hq hp hroom⟩

end Machine
end TermMachine
