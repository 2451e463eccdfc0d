import Mathlib.Data.PFunctor.Univariate.M
import Mathlib.Data.Set.Finite.Basic
import TermMachine.Proofs.Tree.Domain

/-! # Infinite and rational trees

Trees whose nodes have a name and any number of children, finite or not. A tree is rational when it
has finitely many subtrees; unfolding a finite graph gives rational trees.
-/
namespace TermMachine

abbrev TreeShape : PFunctor := ⟨String × Nat, fun shape => Fin shape.2⟩

abbrev Tree := TreeShape.M

namespace Tree

def ofArgs (name : String) (ts : List Tree) : Tree :=
  PFunctor.M.mk ⟨(name, ts.length), ts.get⟩

def name (t : Tree) : String := t.dest.1.1

def children (t : Tree) : List Tree := List.ofFn t.dest.2

@[simp] theorem name_ofArgs (f : String) (ts : List Tree) : (ofArgs f ts).name = f := rfl

@[simp] theorem children_ofArgs (f : String) (ts : List Tree) : (ofArgs f ts).children = ts :=
  List.ofFn_get ts

theorem ofArgs_inj {f g : String} {ts us : List Tree} (h : ofArgs f ts = ofArgs g us) :
    f = g ∧ ts = us :=
  ⟨by simpa using congrArg name h, by simpa using congrArg children h⟩

theorem dest_ofArgs (f : String) (ts : List Tree) {n : Nat} (hn : ts.length = n) :
    (ofArgs f ts).dest = ⟨(f, n), fun i => ts.get (i.cast hn.symm)⟩ := by
  subst hn
  rfl

theorem eq_of_bisim (R : Tree → Tree → Prop)
    (hR : ∀ x y, R x y → x = y ∨
      ∃ f ds es, x = ofArgs f ds ∧ y = ofArgs f es ∧ List.Forall₂ R ds es)
    (x y : Tree) (h : R x y) : x = y := by
  refine PFunctor.M.bisim (fun x y => x = y ∨ R x y) ?_ x y (.inr h)
  have hstep : ∀ x y, x = y ∨ R x y → x = y ∨
      ∃ f ds es, x = ofArgs f ds ∧ y = ofArgs f es ∧ List.Forall₂ R ds es := by
    rintro x y (rfl | hxy)
    · exact .inl rfl
    · exact hR x y hxy
  intro x y hxy
  rcases hstep x y hxy with rfl | ⟨f, ds, es, rfl, rfl, hde⟩
  · exact ⟨_, _, _, rfl, rfl, fun i => .inl rfl⟩
  · refine ⟨_, _, _, dest_ofArgs f ds rfl, dest_ofArgs f es hde.length_eq.symm, fun i => ?_⟩
    exact .inr ((List.forall₂_iff_get.1 hde).2 i.1 i.2 (hde.length_eq ▸ i.2))

instance : TreeDomain Tree where
  node := ofArgs
  node_inj := ofArgs_inj
  eq_of_bisim := eq_of_bisim

variable {α : Type} (label : α → String) (args : α → List α)

def unfold : α → Tree := PFunctor.M.corec fun a => ⟨(label a, (args a).length), (args a).get⟩

theorem unfold_eq (a : α) :
    unfold label args a = node (label a) ((args a).map (unfold label args)) := by
  have hd : (unfold label args a).dest =
      ⟨(label a, (args a).length), fun i => unfold label args ((args a).get i)⟩ :=
    PFunctor.M.dest_corec _ a
  have hn : (ofArgs (label a) ((args a).map (unfold label args))).dest =
      ⟨(label a, (args a).length), fun i => unfold label args ((args a).get i)⟩ := by
    rw [dest_ofArgs _ _ (List.length_map _)]
    exact congrArg (Sigma.mk (label a, (args a).length)) (funext fun i => by simp)
  rw [← PFunctor.M.mk_dest (unfold label args a), hd, ← hn, PFunctor.M.mk_dest]
  rfl

inductive Subtree (s : Tree) : Tree → Prop
  | refl : Subtree s s
  | child {t u : Tree} : u ∈ t.children → Subtree s u → Subtree s t

def IsRational (t : Tree) : Prop := {s | Subtree s t}.Finite

theorem subtree_unfold {S : Set α} (hS : ∀ a ∈ S, ∀ b ∈ args a, b ∈ S) {s t : Tree}
    (hs : Subtree s t) {a : α} (ha : a ∈ S) (ht : t = unfold label args a) :
    ∃ b ∈ S, s = unfold label args b := by
  induction hs generalizing a with
  | refl => exact ⟨a, ha, ht⟩
  | child hu _ ih =>
    subst ht
    rw [unfold_eq] at hu
    have hmem := (children_ofArgs (label a) _) ▸ hu
    obtain ⟨b, hb, rfl⟩ := List.mem_map.1 hmem
    exact ih (hS a ha b hb) rfl

theorem isRational_unfold {S : Set α} (hfin : S.Finite) (hS : ∀ a ∈ S, ∀ b ∈ args a, b ∈ S)
    {a : α} (ha : a ∈ S) : (unfold label args a).IsRational := by
  refine (hfin.image (unfold label args)).subset fun s hs => ?_
  obtain ⟨b, hb, rfl⟩ := subtree_unfold label args hS hs ha rfl
  exact ⟨b, hb, rfl⟩

theorem Subtree.trans {s t u : Tree} (hst : Subtree s t) (htu : Subtree t u) : Subtree s u := by
  induction htu with
  | refl => exact hst
  | child hmem _ ih => exact .child hmem ih

theorem IsRational.subtree {s t : Tree} (ht : t.IsRational) (hs : Subtree s t) : s.IsRational :=
  ht.subset fun _ hu => hu.trans hs

/-- The value of a variable is part of the value of a term that it occurs in. -/
theorem subtree_eval {σ : String → Tree} {a : String} {t : Term} (ha : a ∈ t.vars) :
    Subtree (σ a) (t.eval σ) := by
  induction t with
  | atom name => simp [Term.vars] at ha
  | var name =>
    obtain rfl : a = name := by simpa [Term.vars] using ha
    exact .refl
  | app name args ih =>
    obtain ⟨u, hu, hau⟩ := Term.mem_varsAll.1 ha
    rw [Term.eval, Term.evalAll_eq_map]
    refine .child ?_ (ih u hu hau)
    rw [show (node name (args.map (Term.eval σ)) : Tree).children = args.map (Term.eval σ) from
      children_ofArgs name _]
    exact List.mem_map_of_mem hu

/-- Values that make a term a rational tree can be taken rational everywhere. -/
theorem exists_rational_values {σ : String → Tree} {t : Term} (h : (t.eval σ).IsRational) :
    ∃ σ' : String → Tree, (∀ a, (σ' a).IsRational) ∧ t.eval σ' = t.eval σ := by
  refine ⟨fun a => if a ∈ t.vars then σ a else t.eval σ, fun a => ?_, Term.eval_congr fun a ha => ?_⟩
  · by_cases ha : a ∈ t.vars
    · simpa [ha] using h.subtree (subtree_eval ha)
    · simpa [ha] using h
  · simp [ha]

end Tree
end TermMachine
