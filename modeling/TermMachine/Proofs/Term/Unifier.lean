import Mathlib.Data.Set.Function
import TermMachine.Proofs.Tree.Domain

/-! # Unifiers

A substitution unifies two terms when it makes them the same, and every empty structure counts as an
atom. Unifiers are solutions in canonical terms.
-/
namespace TermMachine

/-- The two terms become the same, up to empty structures. -/
def Unifies (s : String → Term) (q p : Term) : Prop := (q.subst s).canon = (p.subst s).canon

/-- On the variables of `q` the substitution is a most general unifier of `q` and `p`. -/
structure MostGeneral (q p : Term) (s : String → Term) : Prop where
  unifies : ∃ s' : String → Term, (∀ a ∈ q.vars, s' a = s a) ∧ Unifies s' q p
  general : ∀ t : String → Term, Unifies t q p →
    ∃ d : String → Term, ∀ a ∈ q.vars, (t a).canon = ((s a).subst d).canon

theorem unifies_iff {s : String → Term} {q p : Term} :
    Unifies s q p ↔
      q.eval (fun a => CanonicalTerm.ofTerm (s a)) = p.eval fun a => CanonicalTerm.ofTerm (s a) := by
  rw [CanonicalTerm.eval_ofTerm, CanonicalTerm.eval_ofTerm]
  exact ⟨fun h => Subtype.ext h, fun h => congrArg Subtype.val h⟩

/-- A solution for two terms with variables of their own unifies the terms kept apart. -/
theorem exists_unifies {q p : Term} {ρ : String → String} (hinj : Set.InjOn ρ {a | a ∈ p.vars})
    (hapart : ∀ a ∈ p.vars, ρ a ∉ q.vars) {s : String → Term} {τ : String → CanonicalTerm}
    (h : q.eval (fun a => CanonicalTerm.ofTerm (s a)) = p.eval τ) :
    ∃ s' : String → Term, (∀ a ∈ q.vars, s' a = s a) ∧ Unifies s' q (p.rename ρ) := by
  classical
  obtain ⟨σ, hσ⟩ := exists_values (fun b a => a ∈ p.vars ∧ ρ a = b)
    (fun ⟨hx, hxb⟩ ⟨hy, hyb⟩ => hinj hx hy (hxb.trans hyb.symm)) (.ofTerm (.atom "")) τ
  refine ⟨fun b => if b ∈ q.vars then s b else (σ b).1, fun a ha => if_pos ha, ?_⟩
  rw [unifies_iff, Term.eval_rename]
  refine (Term.eval_congr fun a ha => ?_).trans (h.trans (Term.eval_congr fun a ha => ?_))
  · rw [if_pos ha]
  · rw [if_neg (hapart a ha), CanonicalTerm.ofTerm_val]
    exact hσ (ρ a) a ⟨ha, rfl⟩

end TermMachine
