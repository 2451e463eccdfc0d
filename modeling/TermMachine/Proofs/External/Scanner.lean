import TermMachine.External.Scanner
import TermMachine.Proofs.External.Combinators

/-! # Scanners are lawful

Where a scanner takes something with every value, repetition does not depend on how much of the text
it was given to start with; and where a recursive scanner takes something before it calls itself,
the depth to which it is unfolded is enough.
-/
namespace TermMachine.Source

namespace Scanner

variable {α : Type} {p : Scanner α} {make : Scanner α → Scanner α} {fuel fuel' : Nat} {i : Input}

/-- A loop keeps the values and the failure that it starts with. -/
theorem exists_repeatFrom (p : Scanner α) (fuel : Nat) (i : Input) : ∃ all rest met,
    ∀ values before, p.repeatFrom fuel values before i =
      .ok (values.reverse ++ all) rest (Failure.later before met) := by
  induction fuel generalizing i with
  | zero => exact ⟨[], i, none, by simp [repeatFrom]⟩
  | succ fuel ih =>
    cases hrun : p.run i with
    | error f => exact ⟨[], i, some f, by simp [repeatFrom, hrun]⟩
    | ok value rest met =>
      obtain ⟨all, rest', met', hloop⟩ := ih rest
      refine ⟨value :: all, rest', Failure.later met met', fun values before => ?_⟩
      simp [repeatFrom, hrun, hloop, Failure.later_assoc]

/-- A loop ends before its fuel does. -/
theorem repeatFrom_fuel (hp : Combinators.scanners.Consumes p) (hfuel : i.rest.length < fuel)
    (hfuel' : i.rest.length < fuel') (values : List α) (met : Option Failure) :
    p.repeatFrom fuel values met i = p.repeatFrom fuel' values met i := by
  induction fuel generalizing fuel' i values met with
  | zero => exact absurd hfuel (Nat.not_lt_zero _)
  | succ fuel ih =>
    obtain ⟨fuel', rfl⟩ := Nat.exists_eq_add_one_of_ne_zero (Nat.ne_zero_of_lt hfuel')
    rw [repeatFrom, repeatFrom]
    cases hrun : p.run i with
    | error f => rfl
    | ok value rest met' =>
      have hlt : rest.rest.length < i.rest.length := hp hrun
      exact ih (by omega) (by omega) _ _

theorem run_repeated (hp : Combinators.scanners.Consumes p) (i : Input) : (repeated p).run i =
    match p.run i with
    | .error f => .ok [] i (some f)
    | .ok value rest met => Reply.bind (.ok value rest met) fun x rest =>
      ((repeated p).run rest).map (List.cons x) := by
  cases hrun : p.run i with
  | error f => simp [repeated, repeatFrom, hrun]
  | ok value rest met =>
    have hlt : rest.rest.length < i.rest.length := hp hrun
    obtain ⟨all, rest', met', hloop⟩ := exists_repeatFrom p (rest.rest.length + 1) rest
    have hlong : (repeated p).run i =
        p.repeatFrom (rest.rest.length + 1) [value] (Failure.later none met) rest := by
      simp only [repeated, repeatFrom, hrun]
      exact repeatFrom_fuel hp hlt (Nat.lt_succ_self _) _ _
    have hshort : (repeated p).run rest = .ok all rest' met' := by
      simp [repeated, hloop]
    simp [hlong, hloop, hshort, Reply.bind, Reply.map]

theorem unfolded_run (hmake : Combinators.scanners.Guarded make) {depth depth' : Nat} {i : Input}
    (hdepth : i.rest.length < depth) (hdepth' : i.rest.length < depth') :
    (unfolded make depth).run i = (unfolded make depth').run i := by
  induction depth generalizing depth' i with
  | zero => exact absurd hdepth (Nat.not_lt_zero _)
  | succ depth ih =>
    obtain ⟨depth', rfl⟩ := Nat.exists_eq_add_one_of_ne_zero (Nat.ne_zero_of_lt hdepth')
    refine hmake _ _ i fun j hj => ?_
    exact ih (by omega) (by omega)

theorem run_recursive (hmake : Combinators.scanners.Guarded make) (i : Input) :
    (recursive make).run i = (make (recursive make)).run i := by
  refine hmake _ _ i fun j hj => ?_
  exact unfolded_run hmake hj (Nat.lt_succ_self _)

end Scanner

theorem Combinators.scanners_lawful : Combinators.scanners.Lawful where
  shortens p _ _ _ _ h := p.shortens h
  parse _ _ := rfl
  filter _ _ := rfl
  just _ _ := rfl
  finished _ := rfl
  map _ _ _ := rfl
  andThen _ _ _ := rfl
  orElse _ _ _ := rfl
  orNot _ _ := rfl
  repeated _ _ hp := Scanner.run_repeated hp _
  separatedBy _ _ _ := rfl
  padded _ _ := rfl
  labelled _ _ _ := rfl
  recursive _ _ hmake := Scanner.run_recursive hmake _

end TermMachine.Source
