import TermMachine.Proofs.Term.Closure
import TermMachine.Proofs.Tree.Rational

/-! # Solutions and the unification closure

Two terms have a common value in some domain of trees exactly when their closure does not clash. A
solution gives linked positions the same value, so they cannot differ. Without a clash the closure
is a graph whose vertices are positions, and unfolding it gives a solution in infinite trees.
-/
namespace TermMachine

/-- The terms have a common value in rational trees, with the variables of each on their own. -/
def RationallyUnifiable (q p : Term) : Prop :=
  ∃ σ τ : String → Tree, (∀ a, (σ a).IsRational) ∧ (∀ a, (τ a).IsRational) ∧ q.eval σ = p.eval τ

variable {q p : Term}

section Domain

variable {D : Type} [TreeDomain D] {σ τ : String → D}

def Side.values (σ τ : String → D) : Side → String → D
  | .query => σ
  | .program => τ

def Position.value (q p : Term) (σ τ : String → D) (x : Position) : Option D :=
  (x.term q p).map (Term.eval (x.side.values σ τ))

theorem Position.value_of_term {x : Position} {t : Term} (h : x.term q p = some t) :
    x.value q p σ τ = some (t.eval (x.side.values σ τ)) := by
  rw [value, h, Option.map_some]

theorem Position.args_of_value_eq {x y : Position} {s t : Term}
    (h : x.value q p σ τ = y.value q p σ τ) (hs : x.term q p = some s) (ht : y.term q p = some t)
    (hsa : s.IsApp) (hta : t.IsApp) : s.name = t.name ∧
      s.args.map (Term.eval (x.side.values σ τ)) = t.args.map (Term.eval (y.side.values σ τ)) := by
  rw [value_of_term hs, value_of_term ht, Option.some.injEq, Term.eval_isApp _ hsa,
    Term.eval_isApp _ hta] at h
  exact TreeDomain.node_inj h

/-- Linked positions have the same value in every solution. -/
theorem Linked.value_eq (hsol : q.eval σ = p.eval τ) {x y : Position} (h : Linked q p x y) :
    x.value q p σ τ = y.value q p σ τ := by
  induction h with
  | root => exact congrArg some hsol
  | @var x y a hside hx hy =>
    rw [Position.value_of_term hx, Position.value_of_term hy, hside]
  | refl => rfl
  | symm _ ih => exact ih.symm
  | trans _ _ ihxy ihyz => exact ihxy.trans ihyz
  | @arg x y s t i _ hs ht hsa hta _ _ _ ih =>
    obtain ⟨-, hargs⟩ := Position.args_of_value_eq ih hs ht hsa hta
    have hi := congrArg (fun l => l[i]?) hargs
    simp only [List.getElem?_map] at hi
    rw [Position.value, Position.value, Position.term_arg hs, Position.term_arg ht]
    exact hi

/-- What has a solution does not clash. -/
theorem not_clash_of_eval_eq (hsol : q.eval σ = p.eval τ) : ¬Clash q p := by
  rintro ⟨x, y, s, t, hxy, hs, ht, hsa, hta, hne⟩
  obtain ⟨hname, hargs⟩ := Position.args_of_value_eq (hxy.value_eq hsol) hs ht hsa hta
  rcases hne with hne | hne
  · exact hne hname
  · exact hne (by simpa using congrArg List.length hargs)

end Domain

section Graph

open Classical in
noncomputable def structureAt (q p : Term) (x : Position) : Option (Position × Term) :=
  if h : ∃ y : Position × Term, Linked q p x y.1 ∧ y.1.term q p = some y.2 ∧ y.2.IsApp then
    some h.choose
  else none

theorem structureAt_eq_some {x y : Position} {t : Term} (h : structureAt q p x = some (y, t)) :
    Linked q p x y ∧ y.term q p = some t ∧ t.IsApp := by
  unfold structureAt at h
  by_cases hex : ∃ y : Position × Term, Linked q p x y.1 ∧ y.1.term q p = some y.2 ∧ y.2.IsApp
  · rw [dif_pos hex, Option.some.injEq] at h
    have hspec := hex.choose_spec
    rwa [h] at hspec
  · simp [dif_neg hex] at h

theorem exists_structureAt {x y : Position} {t : Term} (hxy : Linked q p x y)
    (ht : y.term q p = some t) (happ : t.IsApp) : ∃ z u, structureAt q p x = some (z, u) := by
  have hex : ∃ y : Position × Term, Linked q p x y.1 ∧ y.1.term q p = some y.2 ∧ y.2.IsApp :=
    ⟨(y, t), hxy, ht, happ⟩
  exact ⟨_, _, dif_pos hex⟩

noncomputable def closureName (q p : Term) (x : Position) : String :=
  ((structureAt q p x).map fun y => y.2.name).getD ""

noncomputable def closureArgs (q p : Term) (x : Position) : List Position :=
  ((structureAt q p x).map fun y => (List.range y.2.args.length).map y.1.arg).getD []

noncomputable def closureTree (q p : Term) : Position → Tree :=
  Tree.unfold (closureName q p) (closureArgs q p)

theorem closureTree_of_structureAt {x y : Position} {t : Term}
    (h : structureAt q p x = some (y, t)) : closureTree q p x =
      node t.name ((List.range t.args.length).map fun i => closureTree q p (y.arg i)) := by
  rw [closureTree, Tree.unfold_eq, closureName, closureArgs, h]
  simp [Function.comp_def]

/-- Without a clash linked positions unfold to the same tree. -/
theorem closureTree_eq (hc : ¬Clash q p) {x y : Position} (hxy : Linked q p x y) :
    closureTree q p x = closureTree q p y := by
  refine TreeDomain.eq_of_bisim (fun s t => ∃ x y, Linked q p x y ∧ s = closureTree q p x ∧
    t = closureTree q p y) ?_ _ _ ⟨x, y, hxy, rfl, rfl⟩
  rintro s t ⟨x, y, hxy, rfl, rfl⟩
  cases hx : structureAt q p x with
  | none =>
    cases hy : structureAt q p y with
    | none =>
      left
      rw [closureTree, Tree.unfold_eq, Tree.unfold_eq, closureName, closureArgs, closureName,
        closureArgs, hx, hy]
    | some z =>
      obtain ⟨hyz, ht, happ⟩ := structureAt_eq_some hy
      obtain ⟨w, u, hw⟩ := exists_structureAt (hxy.trans hyz) ht happ
      rw [hx] at hw
      cases hw
  | some z =>
    obtain ⟨hxz, hs, hsa⟩ := structureAt_eq_some hx
    obtain ⟨w, u, hw⟩ := exists_structureAt (hxy.symm.trans hxz) hs hsa
    obtain ⟨hyw, ht, hta⟩ := structureAt_eq_some hw
    have hzw := hxz.symm.trans (hxy.trans hyw)
    have hname : z.2.name = u.name := by
      by_contra hne
      exact hc ⟨_, _, _, _, hzw, hs, ht, hsa, hta, .inl hne⟩
    have hlen : z.2.args.length = u.args.length := by
      by_contra hne
      exact hc ⟨_, _, _, _, hzw, hs, ht, hsa, hta, .inr hne⟩
    refine .inr ⟨u.name, _, _, hname ▸ closureTree_of_structureAt hx,
      closureTree_of_structureAt hw, ?_⟩
    rw [hlen, List.forall₂_map_left_iff, List.forall₂_map_right_iff, List.forall₂_same]
    intro i hi
    refine ⟨_, _, .arg hzw hs ht hsa hta hname hlen ?_, rfl, rfl⟩
    rw [hlen]
    exact List.mem_range.1 hi

open Classical in
noncomputable def closureValue (q p : Term) (side : Side) (a : String) : Tree :=
  if h : ∃ x : Position, x.side = side ∧ x.term q p = some (.var a) then closureTree q p h.choose
  else closureTree q p ⟨.query, []⟩

theorem closureTree_eq_eval (hc : ¬Clash q p) {x : Position} {t : Term}
    (hx : x.term q p = some t) : closureTree q p x = t.eval (closureValue q p x.side) := by
  have happ : ∀ t : Term, t.IsApp → (∀ u ∈ t.args, ∀ x : Position, x.term q p = some u →
      closureTree q p x = u.eval (closureValue q p x.side)) → ∀ x : Position,
      x.term q p = some t → closureTree q p x = t.eval (closureValue q p x.side) := by
    intro t hta ih x hx
    obtain ⟨y, s, hys⟩ := exists_structureAt (.refl hx) hx hta
    obtain ⟨hxy, hs, hsa⟩ := structureAt_eq_some hys
    have hname : s.name = t.name := by
      by_contra hne
      exact hc ⟨_, _, _, _, hxy.symm, hs, hx, hsa, hta, .inl hne⟩
    have hlen : s.args.length = t.args.length := by
      by_contra hne
      exact hc ⟨_, _, _, _, hxy.symm, hs, hx, hsa, hta, .inr hne⟩
    rw [closureTree_of_structureAt hys, Term.eval_isApp _ hta, hname]
    refine congrArg (node t.name) (List.ext_getElem (by simp [hlen]) fun i hi hi' => ?_)
    have hit : i < t.args.length := by simpa using hi'
    have harg : (x.arg i).term q p = some t.args[i] := by
      rw [Position.term_arg hx, List.getElem?_eq_getElem hit]
    have hlink : Linked q p (y.arg i) (x.arg i) :=
      .arg hxy.symm hs hx hsa hta hname hlen (hlen ▸ hit)
    simp only [List.getElem_map, List.getElem_range]
    rw [closureTree_eq hc hlink]
    exact ih _ (List.getElem_mem hit) _ harg
  induction t generalizing x with
  | var a =>
    have hex : ∃ y : Position, y.side = x.side ∧ y.term q p = some (.var a) := ⟨x, rfl, hx⟩
    rw [Term.eval_var, closureValue, dif_pos hex]
    exact closureTree_eq hc (.var hex.choose_spec.1.symm hx hex.choose_spec.2)
  | atom name => exact happ (.atom name) trivial (by simp [Term.args]) x hx
  | app name args ih => exact happ (.app name args) trivial (fun u hu x hx => ih u hu hx) x hx

/-- What does not clash has a solution in trees. -/
theorem exists_eval_eq_of_not_clash (hc : ¬Clash q p) : ∃ σ τ : String → Tree,
    q.eval σ = p.eval τ := by
  refine ⟨closureValue q p .query, closureValue q p .program, ?_⟩
  rw [← closureTree_eq_eval hc (x := ⟨.query, []⟩) rfl,
    ← closureTree_eq_eval hc (x := ⟨.program, []⟩) rfl]
  exact closureTree_eq hc .root

end Graph
end TermMachine
