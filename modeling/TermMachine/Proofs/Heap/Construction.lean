import TermMachine.Proofs.Heap.Unification

/-! # Heaps built term by term

A heap is built from an empty one when a structure is always followed by its arguments, each a new
variable or a copy of a term. Between structures anything may be appended and unified, and what a
unification that answers no has bound is kept. Such a heap is complete.
-/
namespace TermMachine.Heap

inductive Arguments : Nat → Heap → Heap → Prop
  | nil {h} : Arguments 0 h h
  | newVariable {h h₁ h₂ a n} : pushVariable h = (.ok a, h₁) → Arguments n h₁ h₂ →
      Arguments (n + 1) h h₂
  | copy {h h₁ h₂ a b n} : pushCopy b h = (.ok a, h₁) → Arguments n h₁ h₂ →
      Arguments (n + 1) h h₂

/-- Heaps that come from an empty one by calls that leave no structure without its arguments. Calls
outside structures may fail. -/
inductive Built (capacity : Nat) : Heap → Prop
  | empty : Built capacity (Heap.empty capacity)
  | newVariable {h} : Built capacity h → Built capacity h.pushVariable.2
  | copy {h} (a : Address) : Built capacity h → Built capacity (h.pushCopy a).2
  | newStructure {h h₁ h₂ a f} {n : Arity} : Built capacity h → h.pushStructure f n = (.ok a, h₁) →
      Arguments n.val h₁ h₂ → Built capacity h₂
  | unify {h} (a b : Address) : Built capacity h → Built capacity (h.unify a b).2

variable {h h' : Heap} {a b : Address} {n : Nat}

theorem Complete.pushVariable (hw : h.Complete 0 n) :
    h.pushVariable.2.Complete 0 (n - 1) ∨ h.pushVariable.2 = h ∧ ∀ a, h.pushVariable.1 ≠ .ok a := by
  rw [pushVariable_eq]
  by_cases hroom : h.cells.size + 1 ≤ h.capacity
  · rw [if_pos hroom]
    exact .inl (hw.append_variable (Nat.zero_le _))
  · rw [if_neg hroom]
    exact .inr ⟨rfl, by simp⟩

/-- So may a copy. -/
theorem Complete.pushCopy (hw : h.Complete 0 n) (b : Address) :
    (h.pushCopy b).2.Complete 0 (n - 1) ∨
      (h.pushCopy b).2 = h ∧ ∀ a, (h.pushCopy b).1 ≠ .ok a := by
  rcases h.pushCopy_cases b with ⟨c, hc, ht, heq⟩ | ⟨e, -, heq⟩
  · rw [heq, push_eq]
    by_cases hroom : h.cells.size + 1 ≤ h.capacity
    · rw [if_pos hroom]
      exact .inl (hw.append_copy (Nat.zero_le _) hc ht)
    · rw [if_neg hroom]
      exact .inr ⟨rfl, by simp⟩
  · rw [heq]
    exact .inr ⟨rfl, by simp⟩

theorem Arguments.complete (hargs : Arguments n h h') (hw : h.Complete 0 n) :
    h'.Complete 0 0 := by
  induction hargs with
  | nil => exact hw
  | newVariable hpush _ ih =>
    rcases hw.pushVariable with hnext | ⟨-, hfail⟩
    · rw [hpush] at hnext
      exact ih hnext
    · exact absurd (by rw [hpush]) (hfail _)
  | @copy _ _ _ _ b _ hpush _ ih =>
    rcases hw.pushCopy b with hnext | ⟨-, hfail⟩
    · rw [hpush] at hnext
      exact ih hnext
    · exact absurd (by rw [hpush]) (hfail _)

theorem complete_empty (capacity : Nat) : (empty capacity).Complete 0 0 := by
  have hnone : ∀ {a : Address} {c : Cell}, (empty capacity).cells[a]? ≠ some c := by simp [empty]
  exact ⟨⟨fun _ hc => absurd hc hnone, fun _ hc => absurd hc hnone, fun _ hc => absurd hc hnone⟩,
    fun _ hc => absurd hc hnone⟩

theorem Built.complete {capacity : Nat} (hb : h.Built capacity) : h.Complete 0 0 := by
  induction hb with
  | empty => exact complete_empty capacity
  | newVariable _ ih =>
    rcases ih.pushVariable with hnext | ⟨heq, -⟩
    · exact hnext
    · rw [heq]
      exact ih
  | copy a _ ih =>
    rcases ih.pushCopy a with hnext | ⟨heq, -⟩
    · exact hnext
    · rw [heq]
      exact ih
  | @newStructure h _ _ _ f n _ hpush hargs ih =>
    rw [pushStructure_eq] at hpush
    by_cases hroom : h.cells.size + 2 ≤ h.capacity
    · rw [if_pos hroom, Prod.mk.injEq] at hpush
      exact hargs.complete (hpush.2 ▸ ih.appendStructure (Nat.zero_le _) f n)
    · rw [if_neg hroom] at hpush
      cases hpush
  | unify a b _ ih => exact ih.unify (Nat.zero_le _) (Nat.zero_le _)

end TermMachine.Heap
