import TermMachine.Proofs.Machine.Provenance
import TermMachine.Proofs.Machine.ReadModel
import TermMachine.Proofs.Term.Unifier

/-! # The answer of a run is a most general unifier

When a query and a program have a unifier in finite terms, what is read back after their run is a
most general one: the bindings solve the equation, every unifier is an instance of them, and the
query's term reads as the query with its bindings put in.
-/
namespace TermMachine

open Heap

variable {q p : Term} {k : Address} {root : Address} {N : Machine.Names} {read : Address → Term}

/-- What can be read back from a machine that has captured a query. -/
structure ReadBack (k : Address) (m : Machine) (root : Address) (N : Machine.Names)
    (read : Address → Term) : Prop where
  names : Machine.namesFrom m.state.heap m.capture.vars ∅ = .ok N
  reads : ∀ a, HasTerm k m.state.heap a → Machine.Reads N m.functors m.state.heap [] a (read a)
  bindings : m.bindings = .ok (m.capture.vars.map fun v => (v.1, read v.2))
  queryTerm : m.queryTerm = .ok (some (read root))

theorem Captured.readBack {m : Machine} (hw : m.state.heap.WellBuilt m.functors k 0)
    (hc : Captured m.functors k q m.state.heap m.capture root) :
    ∃ N read, ReadBack k m root N read := by
  obtain ⟨N, hN⟩ := Machine.namesFrom_ok hw (fun v hv => hc.var_term hv) ∅
  have hnames : m.names = .ok N := by
    rw [Machine.names, hN]
    rfl
  obtain ⟨read, hread⟩ := Machine.exists_reads hw N
  refine ⟨N, read, hN, fun a ha => (hread a ha).2, ?_, ?_⟩
  · rw [Machine.bindings, hnames]
    exact Machine.readBindings_eq_ok fun v hv => (hread v.2 (hc.var_term hv)).1
  · simp only [Machine.queryTerm, hc.root_eq, Machine.readTerm, hnames]
    exact congrArg (some <$> ·) (hread root hc.root_term).1

section Answer

variable {table : Functor.Table} {h : Heap} {c : Capture} {ρ : String → String}

theorem Answered.exists_model (ha : Answered table k q p h c root) {t : String → Term}
    (ht : Unifies t q (p.rename ρ)) : ∃ v : Address → CanonicalTerm, h.Models table k v ∧
      ∀ a x, (a, x) ∈ c.vars → v x = .ofTerm (t a) := by
  rw [unifies_iff, Term.eval_rename] at ht
  exact ha.complete ht

/-- What is read for the variables of a query is a most general unifier. -/
theorem Answered.mostGeneral (ha : Answered table k q p h c root)
    (hinj : Set.InjOn ρ {a | a ∈ p.vars}) (hapart : ∀ a ∈ p.vars, ρ a ∉ q.vars)
    (hunif : ∃ t, Unifies t q (p.rename ρ)) (hN : Function.Injective (Machine.printedName N))
    (hread : ∀ a, HasTerm k h a → Machine.Reads N table h [] a (read a))
    {s : String → Term} (hs : ∀ a x, (a, x) ∈ c.vars → read x = s a) :
    MostGeneral q (p.rename ρ) s ∧ read root = (q.subst s).canon := by
  have hcap := ha.captured
  obtain ⟨t, ht⟩ := hunif
  obtain ⟨v, hv, -⟩ := ha.exists_model ht
  -- With every name for itself, what is read is the model that gives the bindings.
  have hself := Machine.models_read ha.heap hv hread fun a => CanonicalTerm.ofTerm (.var a)
  have hval : ∀ a, (read a).eval (fun a => CanonicalTerm.ofTerm (.var a)) = .ofTerm (read a) := by
    intro a
    rw [CanonicalTerm.eval_ofTerm, Term.subst_var]
  have hroot := hcap.sound hself (σ := fun a => .ofTerm (s a))
    fun a x hx => by rw [hval, hs a x hx]
  rw [hval] at hroot
  refine ⟨⟨?_, fun t ht => ?_⟩, ?_⟩
  · obtain ⟨τ, hτ⟩ := ha.sound hself
    rw [hval] at hτ
    exact exists_unifies hinj hapart (hroot.symm.trans hτ)
  · obtain ⟨w, hw, hvars⟩ := ha.exists_model ht
    obtain ⟨σ, hσ⟩ := exists_values (fun name b => Machine.printedName N b = name)
      (fun hx hy => hN (hx.trans hy.symm)) (.ofTerm (.atom "")) w
    refine ⟨fun a => (σ a).1, fun a hmem => ?_⟩
    obtain ⟨x, hx⟩ := hcap.var_mem.1 hmem
    have hterm := hcap.var_term hx
    have heq := (hread x hterm).value ha.heap hv (Machine.above_nil k h v x) hterm.1 hw
      (σ := σ) fun b _ _ => hσ _ b rfl
    rw [← hs a x hx, ← CanonicalTerm.val_eval, ← heq, hvars a x hx]
    rfl
  · rw [CanonicalTerm.eval_ofTerm] at hroot
    have hcanon := (hread root hcap.root_term).canon_eq
    rw [← hcanon]
    exact congrArg Subtype.val hroot

end Answer

namespace Machine

variable {capacities : Capacities} {calls : List Call} {query program : Code}
  {ρ : String → String}

/-- With room on the heap, terms that have a unifier in finite terms match, and the bindings of the
query's variables are a most general unifier of the query and the program's term kept apart. -/
theorem run_mostGeneral (hq : CompiledQuery capacities calls q query)
    (hp : CompiledProgram capacities calls p program)
    (hroom : ((create capacities).afterAll calls).state.heap.top + q.queryCells + p.cells ≤
      capacities.heap)
    (hplain : ∀ a ∈ q.vars, ¬['_', 'G'] <+: a.toList)
    (hinj : Set.InjOn ρ {a | a ∈ p.vars}) (hapart : ∀ a ∈ p.vars, ρ a ∉ q.vars)
    (hunif : ∃ t, Unifies t q (p.rename ρ)) :
    (((create capacities).afterAll calls).run query program).1 = .ok true ∧
      ∃ bindings s,
        (((create capacities).afterAll calls).run query program).2.bindings = .ok bindings ∧
        (∀ a t, (a, t) ∈ bindings ↔ a ∈ q.vars ∧ t = s a) ∧
        (((create capacities).afterAll calls).run query program).2.queryTerm =
          .ok (some (q.subst s).canon) ∧
        MostGeneral q (p.rename ρ) s := by
  generalize hm : (create capacities).afterAll calls = m at hroom ⊢
  generalize hn : (m.run query program).2 = n
  rcases run_cases hq hp hm.symm hn.symm with ⟨htrue, root, hans⟩ | ⟨-, -, -, hnone⟩ | ⟨-, hlt⟩
  · have hfunctors : m.functors = n.functors := by rw [← hn, run_eq]
    rw [hfunctors] at hans
    have hcap := hans.captured
    obtain ⟨N, read, hback⟩ := hcap.readBack hans.heap
    obtain ⟨s, hs⟩ := exists_values (fun a x => (a, x) ∈ n.capture.vars) hcap.var_unique default
      read
    have hprinted := printedName_injective hback.names hcap.var_unique
      fun v hv => hplain v.1 (hcap.var_mem.2 ⟨v.2, hv⟩)
    obtain ⟨hgeneral, hroot⟩ := hans.mostGeneral hinj hapart hunif hprinted hback.reads hs
    refine ⟨htrue, _, s, hback.bindings, fun a t => ?_, hroot ▸ hback.queryTerm, hgeneral⟩
    simp only [List.mem_map, Prod.exists, Prod.mk.injEq]
    constructor
    · rintro ⟨a, x, hx, rfl, rfl⟩
      exact ⟨hcap.var_mem.2 ⟨x, hx⟩, hs a x hx⟩
    · rintro ⟨ha, rfl⟩
      obtain ⟨x, hx⟩ := hcap.var_mem.1 ha
      exact ⟨a, x, hx, rfl, hs a x hx⟩
  · obtain ⟨t, ht⟩ := hunif
    rw [unifies_iff, Term.eval_rename] at ht
    exact absurd ht (hnone _ _)
  · rw [Heap.top] at hroom
    lia

/-- A query and a program that use the same name for different variables. -/
theorem run_mostGeneral_shared :
    let q : Term := .app "f" [.var "X", .app "g" [.var "Y"]]
    let p : Term := .app "f" [.var "X", .var "X"]
    let calls : List Call := [.query q, .program p]
    let query : Code := ⟨[.putStructure 1 1 2, .setVariable 3, .putStructure 0 2 0, .setVariable 1,
      .setValue 2], [("X", 1), ("Y", 3)]⟩
    let program : Code := ⟨[.getStructure 0 2 0, .unifyVariable 1, .unifyValue 1], [("X", 1)]⟩
    let m := (create ⟨4, 20, 11, 2⟩).afterAll calls
    CompiledQuery ⟨4, 20, 11, 2⟩ calls q query ∧ CompiledProgram ⟨4, 20, 11, 2⟩ calls p program ∧
      m.state.heap.top + q.queryCells + p.cells ≤ 11 ∧
      (∀ a ∈ q.vars, ¬['_', 'G'] <+: a.toList) ∧ Set.InjOn (fun _ => "Z") {a | a ∈ p.vars} ∧
      (∀ a ∈ p.vars, (fun _ => "Z") a ∉ q.vars) ∧ (∃ t, Unifies t q (p.rename fun _ => "Z")) ∧
      (m.run query program).1 = .ok true ∧ ∃ bindings s,
        (m.run query program).2.bindings = .ok bindings ∧
        (∀ a t, (a, t) ∈ bindings ↔ a ∈ q.vars ∧ t = s a) ∧
        (m.run query program).2.queryTerm = .ok (some (q.subst s).canon) ∧
        MostGeneral q (p.rename fun _ => "Z") s := by
  intro q p calls query program m
  have hq : CompiledQuery ⟨4, 20, 11, 2⟩ calls q query :=
    ⟨[], [.program p], rfl, by simp, by decide +kernel⟩
  have hp : CompiledProgram ⟨4, 20, 11, 2⟩ calls p program :=
    ⟨[.query q], [], rfl, by simp, by decide +kernel⟩
  have hroom : m.state.heap.top + q.queryCells + p.cells ≤ 11 := by decide +kernel
  have hplain : ∀ a ∈ q.vars, ¬['_', 'G'] <+: a.toList := by decide +kernel
  have hinj : Set.InjOn (fun _ : String => "Z") {a | a ∈ p.vars} := by
    intro a ha b hb _
    have hX : ∀ c ∈ p.vars, c = "X" := by decide +kernel
    rw [hX a ha, hX b hb]
  have hapart : ∀ a ∈ p.vars, (fun _ : String => "Z") a ∉ q.vars := by decide +kernel
  have hunif : ∃ t, Unifies t q (p.rename fun _ => "Z") :=
    ⟨fun a => if a = "Y" then .atom "a" else .app "g" [.atom "a"], by
      unfold Unifies
      decide +kernel⟩
  have hrun := run_mostGeneral hq hp (by decide +kernel) hplain hinj hapart hunif
  exact ⟨hq, hp, hroom, hplain, hinj, hapart, hunif, hrun⟩

end Machine
end TermMachine
