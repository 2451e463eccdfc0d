import TermMachine.Proofs.Heap.Unification

/-! # Unifying the other way round

It makes no difference which of two addresses is named first. The two unifications go in step, with
worklists that differ only in the sides of their pairs: of two unbound references the younger is
bound on either side, and two structures taken apart are remembered without their order. Whatever
has been bound before a mismatch or a fault is therefore the same. Only the fault may be another one,
as each run reports the side that it looks at first.
-/
namespace TermMachine.Heap

open Worklist

inductive SameAnswer : Except Fault Bool → Except Fault Bool → Prop
  | answer (r : Bool) : SameAnswer (.ok r) (.ok r)
  | fault (e e' : Fault) : SameAnswer (.error e) (.error e')

theorem SameAnswer.refl (r : Except Fault Bool) : SameAnswer r r := by
  cases r with
  | ok r => exact .answer r
  | error e => exact .fault e e

/-- Of two unbound references it is the younger that is bound, on whichever side it is. -/
theorem bind_comm (h : Heap) (a b : Address) :
    (h.bind b a).2 = (h.bind a b).2 ∧ SameAnswer (h.bind a b).1 (h.bind b a).1 := by
  have hof_eq : h.bind b a = h.bind a b →
      (h.bind b a).2 = (h.bind a b).2 ∧ SameAnswer (h.bind a b).1 (h.bind b a).1 := by
    intro heq
    rw [heq]
    exact ⟨rfl, .refl _⟩
  cases ha : h.isUnbound a with
  | error e =>
    cases hb : h.isUnbound b with
    | error e' => exact ⟨by simp [bind, ha, hb], by simpa [bind, ha, hb] using .fault e e'⟩
    | ok v => exact hof_eq (by simp [bind, ha, hb])
  | ok u =>
    cases hb : h.isUnbound b with
    | error e => exact hof_eq (by cases u <;> simp [bind, ha, hb])
    | ok v =>
      apply hof_eq
      cases u with
      | false => cases v <;> simp [bind, ha, hb]
      | true =>
        cases v with
        | false => simp [bind, ha, hb]
        | true =>
          rcases Nat.lt_trichotomy a b with hlt | rfl | hgt
          · simp [bind, ha, hb, hlt, Nat.lt_asymm hlt]
          · rfl
          · simp [bind, ha, hb, hgt, Nat.lt_asymm hgt]

def Meeting.swap : Meeting → Meeting
  | .same => .same
  | .unbound a b => .unbound b a
  | .structures s t => .structures t s

/-- What two addresses come to is the same from either side, faults apart. -/
theorem meeting_swap (h : Heap) (a b : Address) :
    (∃ m, h.meeting a b = .ok m ∧ h.meeting b a = .ok m.swap) ∨
      ∃ e e', h.meeting a b = .error e ∧ h.meeting b a = .error e' := by
  cases ha : h.deref a with
  | error e =>
    right
    cases hb : h.deref b with
    | error e' => exact ⟨e, e', by simp [meeting, ha], by simp [meeting, hb]⟩
    | ok d => exact ⟨e, e, by simp [meeting, ha], by simp [meeting, ha, hb]⟩
  | ok c =>
  cases hb : h.deref b with
  | error e => exact .inr ⟨e, e, by simp [meeting, ha, hb], by simp [meeting, hb]⟩
  | ok d =>
  by_cases hcd : c = d
  · exact .inl ⟨.same, by simp [meeting, ha, hb, hcd], by simp [meeting, ha, hb, hcd, Meeting.swap]⟩
  obtain ⟨y, hy, -⟩ := (resolves_of_deref ha).cell
  obtain ⟨z, hz, -⟩ := (resolves_of_deref hb).cell
  simp only [meeting, ha, hb, if_neg hcd, if_neg (Ne.symm hcd), get_of_some hy, get_of_some hz]
  cases y with
  | functor f n =>
    cases z with
    | functor g m => exact .inr ⟨_, _, rfl, rfl⟩
    | ref u => exact .inr ⟨_, _, rfl, rfl⟩
    | str u => exact .inr ⟨_, _, rfl, rfl⟩
  | ref t =>
    cases z with
    | functor g m => exact .inr ⟨_, _, rfl, rfl⟩
    | ref u => exact .inl ⟨_, rfl, rfl⟩
    | str u => exact .inl ⟨_, rfl, rfl⟩
  | str t =>
    cases z with
    | functor g m => exact .inr ⟨_, _, rfl, rfl⟩
    | ref u => exact .inl ⟨_, rfl, rfl⟩
    | str u => exact .inl ⟨_, rfl, rfl⟩

theorem commonArity_swap (h : Heap) (s t : Address) :
    h.commonArity t s = h.commonArity s t ∨
      ∃ e e', h.commonArity s t = .error e ∧ h.commonArity t s = .error e' := by
  cases hs : h.functorAt s with
  | error e =>
    right
    cases ht : h.functorAt t with
    | error e' => exact ⟨e, e', by simp [commonArity, hs], by simp [commonArity, ht]⟩
    | ok g => exact ⟨e, e, by simp [commonArity, hs], by simp [commonArity, hs, ht]⟩
  | ok f =>
    left
    cases ht : h.functorAt t with
    | error e => simp [commonArity, hs, ht]
    | ok g =>
      by_cases hfg : f = g
      · simp [commonArity, hs, ht, hfg]
      · simp [commonArity, hs, ht, hfg, Ne.symm hfg]

theorem stackArguments_swap (s t : Address) (n : Nat) (p : List (Address × Address)) :
    stackArguments t s n (p.map Prod.swap) = (stackArguments s t n p).map Prod.swap := by
  induction n with
  | zero => simp [stackArguments]
  | succ n ih => rw [stackArguments_succ, stackArguments_succ, ih, List.map_cons, Prod.swap_prod_mk]

/-- Two runs whose pairs have changed sides leave the same heap at every step, and end alike. -/
theorem unifyWithin_swap (fuel : Nat) (p : List (Address × Address)) (seen : Seen) (h : Heap) :
    (h.unifyWithin fuel (p.map Prod.swap) seen).2 = (h.unifyWithin fuel p seen).2 ∧
      Option.Rel SameAnswer (h.unifyWithin fuel p seen).1
        (h.unifyWithin fuel (p.map Prod.swap) seen).1 := by
  induction fuel generalizing p seen h with
  | zero =>
    cases p with
    | nil => exact ⟨rfl, .some (.answer true)⟩
    | cons q p => exact ⟨rfl, .none⟩
  | succ fuel ih =>
  rcases p with _ | ⟨⟨a, b⟩, p⟩
  · exact ⟨rfl, .some (.answer true)⟩
  rw [List.map_cons, Prod.swap_prod_mk]
  rcases h.meeting_swap a b with ⟨m, hm, hm'⟩ | ⟨e, e', hm, hm'⟩
  swap
  · simp only [unifyWithin, hm, hm']
    exact ⟨trivial, .some (.fault e e')⟩
  cases m with
  | same =>
    simp only [unifyWithin, hm, hm', Meeting.swap]
    exact ih p seen h
  | unbound c d =>
    obtain ⟨hheap, hsame⟩ := h.bind_comm c d
    simp only [unifyWithin, hm, hm', Meeting.swap]
    rcases hcd : h.bind c d with ⟨r, h₁⟩
    rcases hdc : h.bind d c with ⟨r', h₁'⟩
    rw [hcd, hdc] at hheap hsame
    obtain rfl : h₁' = h₁ := hheap
    cases hsame with
    | fault e e' => exact ⟨rfl, .some (.fault e e')⟩
    | answer r =>
      cases r with
      | false => exact ⟨rfl, .some (.answer false)⟩
      | true => exact ih p seen h₁'
  | structures s t =>
    simp only [unifyWithin, hm, hm', Meeting.swap, unordered_comm t s]
    by_cases hmem : unordered s t ∈ seen
    · rw [if_pos hmem, if_pos hmem]
      exact ih p seen h
    · rw [if_neg hmem, if_neg hmem]
      rcases h.commonArity_swap s t with hn | ⟨e, e', he, he'⟩
      · rw [hn]
        rcases h.commonArity s t with e | _ | n
        · exact ⟨rfl, .some (.fault e e)⟩
        · exact ⟨rfl, .some (.answer false)⟩
        · dsimp only
          rw [stackArguments_swap]
          exact ih _ _ h
      · rw [he, he']
        exact ⟨rfl, .some (.fault e e')⟩

/-- On any heap at all, unifying two addresses in either order leaves exactly the same cells, also
when it fails, and the answers are the same or both are faults. -/
theorem unify_comm (h : Heap) (a b : Address) :
    (h.unify b a).2 = (h.unify a b).2 ∧ SameAnswer (h.unify a b).1 (h.unify b a).1 := by
  obtain ⟨hheap, hsame⟩ := unifyWithin_swap h.pairBound [(a, b)] ∅ h
  rw [List.map_singleton, Prod.swap_prod_mk, unifyWithin_pairBound, unifyWithin_pairBound]
    at hheap hsame
  cases hsame with
  | some hsame => exact ⟨hheap, hsame⟩

/-- The fault names the address that was looked at first. -/
example : ((empty 0).unify 3 5).1 = .error (.addressOutOfRange 3 0) ∧
    ((empty 0).unify 5 3).1 = .error (.addressOutOfRange 5 0) := by decide

end TermMachine.Heap
