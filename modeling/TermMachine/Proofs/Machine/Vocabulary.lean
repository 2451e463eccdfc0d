import TermMachine.Proofs.Code.Vocabulary
import TermMachine.Proofs.Machine.Provenance

/-! # Where the functors on a heap come from

A run builds a structure only when an instruction names its functor, and compiled code names the
functors of its term and no others. So every structure that a run adds to the heap has a name of
the query or of the program, whatever else the functor table holds.
-/
namespace TermMachine

open Heap

inductive Heap.Effect (fs : List FunctorId) (h : Heap) : Heap → Prop
  | same : Effect fs h h
  | term {c : Cell} : c.IsTerm → Effect fs h (h.append c)
  | structured {f : FunctorId} {n : Arity} : f ∈ fs → Effect fs h (h.appendStructure f n)
  | built {f : FunctorId} {n : Arity} {a : Address} : f ∈ fs → h.cells[a]? = some (.ref a) →
      Effect fs h (Run.built h f n a)
  | unified {a b : Address} : Effect fs h (h.unify a b).2

namespace Run

variable (h : Heap) (r : RegisterFile) (c : Cursor)

theorem putStructure_effect (f : FunctorId) (n : Arity) (x : Register) :
    Effect [f] h (putStructure f n x ⟨h, r, c⟩).2.heap := by
  rw [putStructure_eq]
  split
  · split
    · exact .structured List.mem_cons_self
    · exact .structured List.mem_cons_self
  · exact .same

theorem setVariable_effect (x : Register) : Effect [] h (setVariable x ⟨h, r, c⟩).2.heap := by
  rw [setVariable_eq]
  split
  · split
    · exact .term trivial
    · exact .term trivial
  · exact .same

theorem setValue_effect (x : Register) : Effect [] h (setValue x ⟨h, r, c⟩).2.heap := by
  rw [setValue_eq]
  cases r.load x with
  | error e => exact .same
  | ok a =>
    dsimp only
    rcases h.pushCopy_cases a with ⟨d, -, hterm, heq⟩ | ⟨e, -, heq⟩
    · rw [heq, push_eq]
      split
      · exact .term hterm
      · exact .same
    · rw [heq]
      exact .same

theorem unifyVariable_effect (x : Register) :
    Effect [] h (unifyVariable x ⟨h, r, c⟩).2.heap := by
  rw [unifyVariable_eq]
  rcases c.advance with ⟨_ | _ | _, c⟩
  · exact .same
  · dsimp only
    split
    · exact .same
    · exact .same
  · exact setVariable_effect h r c x

theorem unifyValue_effect (x : Register) : Effect [] h (unifyValue x ⟨h, r, c⟩).2.heap := by
  rw [unifyValue_eq]
  cases r.load x with
  | error e => exact .same
  | ok a =>
    dsimp only
    rcases c.advance with ⟨_ | _ | _, c⟩
    · exact .same
    · exact .unified
    · exact setValue_effect h r c x

theorem matchStructure_effect (f : FunctorId) (n : Arity) (a : Address) :
    Effect [f] h (matchStructure f n a ⟨h, r, c⟩).2.heap := by
  rw [matchStructure_eq]
  cases hd : h.deref a with
  | error e => exact .same
  | ok b =>
    obtain ⟨d, hcell, hend⟩ := (resolves_of_deref hd).cell
    simp only [hcell]
    cases d with
    | ref t =>
      obtain rfl := hend t rfl
      dsimp only
      split
      · exact .built List.mem_cons_self hcell
      · exact .same
    | str t =>
      dsimp only
      cases h.functorAt t with
      | error e => exact .same
      | ok found =>
        dsimp only
        split
        · exact .same
        · exact .same
    | functor g m => exact .same

theorem getStructure_effect (f : FunctorId) (n : Arity) (x : Register) :
    Effect [f] h (getStructure f n x ⟨h, r, c⟩).2.heap := by
  rw [getStructure_eq]
  rcases r.get x with e | _ | a
  · exact .same
  · exact putStructure_effect h r c f n x
  · exact matchStructure_effect h r c f n a

theorem step_effect (i : Instruction) (s : RunState) :
    Effect i.functors s.heap (i.step s).2.heap := by
  obtain ⟨h, r, c⟩ := s
  cases i with
  | putStructure f n x => exact putStructure_effect h r c f n x
  | setVariable x => exact setVariable_effect h r c x
  | setValue x => exact setValue_effect h r c x
  | getStructure f n x => exact getStructure_effect h r c f n x
  | unifyVariable x => exact unifyVariable_effect h r c x
  | unifyValue x => exact unifyValue_effect h r c x

end Run

def Heap.AddsOnly (fs : List FunctorId) (h h' : Heap) : Prop :=
  ∀ ⦃a : Address⦄ ⦃f : FunctorId⦄ ⦃n : Arity⦄, h'.cells[a]? = some (.functor f n) →
    h.cells[a]? = some (.functor f n) ∨ f ∈ fs

namespace Heap

variable {h h' h'' : Heap} {fs gs : List FunctorId}

theorem AddsOnly.refl (fs : List FunctorId) (h : Heap) : AddsOnly fs h h := fun _ _ _ hf => .inl hf

theorem AddsOnly.trans (h₁ : AddsOnly fs h h') (h₂ : AddsOnly gs h' h'') :
    AddsOnly (fs ++ gs) h h'' := by
  intro a f n hf
  rcases h₂ hf with hold | hnew
  · exact (h₁ hold).imp_right (List.mem_append_left gs)
  · exact .inr (List.mem_append_right fs hnew)

theorem addsOnly_append {c : Cell} (hc : c.IsTerm) (fs : List FunctorId) :
    AddsOnly fs h (h.append c) := by
  intro a f n hf
  rw [append_cell] at hf
  split at hf
  · cases hf
    exact hc.elim
  · exact .inl hf

theorem addsOnly_appendStructure {f : FunctorId} (hf : f ∈ fs) (n : Arity) :
    AddsOnly fs h (h.appendStructure f n) := by
  intro a g m hg
  rw [appendStructure_cell] at hg
  split at hg
  · cases hg
    exact .inr hf
  · split at hg
    · cases hg
    · exact .inl hg

theorem Grows.addsOnly (hg : Grows h h') (hsize : h'.cells.size = h.cells.size)
    (fs : List FunctorId) : AddsOnly fs h h' := by
  intro a f n hf
  have hc := Array.getElem?_eq_getElem (hsize ▸ lt_size_of_getElem? hf)
  rcases hg.cell hc with hsame | ⟨-, b, hb⟩
  · rw [hf, Option.some.injEq] at hsame
    exact .inl (hsame ▸ hc)
  · rw [hf] at hb
    cases hb

theorem Effect.addsOnly (he : Effect fs h h') : AddsOnly fs h h' := by
  cases he with
  | same => exact .refl fs h
  | term hc => exact addsOnly_append hc fs
  | structured hf => exact addsOnly_appendStructure hf _
  | @built f n b hf hb =>
    have hunbound := appendStructure_cell_of_some hb f n
    have hpoint := (grows_point hunbound h.cells.size).addsOnly (point_size _ _ _) []
    exact fun a g m hg => (addsOnly_appendStructure hf _).trans hpoint hg |>.imp_right (by simp)
  | unified => exact (h.grows_unify _ _).addsOnly (h.unify_size _ _) fs

end Heap

theorem Run.all_addsOnly (is : List Instruction) (s : RunState) :
    AddsOnly (Instruction.allFunctors is) s.heap (Run.all is s).2.heap := by
  induction is generalizing s with
  | nil => exact .refl _ _
  | cons i is ih =>
    have hi := (Run.step_effect i s).addsOnly
    have hfirst : AddsOnly (Instruction.allFunctors (i :: is)) s.heap (i.step s).2.heap :=
      fun a f n hf => (hi hf).imp_right (List.mem_append_left _)
    unfold Run.all
    generalize i.step s = out at hi hfirst ⊢
    rcases out with ⟨_ | _ | _, t⟩
    · exact hfirst
    · exact hfirst
    · exact hi.trans (ih t)

/-- A run adds functors of its query and its program. -/
theorem Machine.runState_addsOnly (query program : Code) (h : Heap) (r : RegisterFile) :
    AddsOnly (Instruction.allFunctors query.instructions ++
      Instruction.allFunctors program.instructions) h (runState query program h r).2.1.heap := by
  have hq := Run.all_addsOnly query.instructions ⟨h, r.clear, .outside .write⟩
  have hearly : ∀ {h' : Heap}, AddsOnly (Instruction.allFunctors query.instructions) h h' →
      AddsOnly (Instruction.allFunctors query.instructions ++
        Instruction.allFunctors program.instructions) h h' :=
    fun hadds => hadds.trans (.refl _ _)
  unfold runState
  generalize Run.all query.instructions ⟨h, r.clear, .outside .write⟩ = out at hq ⊢
  rcases out with ⟨_ | _ | _, h₁, r₁, c₁⟩
  · exact hearly hq
  · exact hearly hq
  · dsimp only
    rcases Capture.ofRegisters query r₁ with ⟨_ | _, capture⟩
    · exact hearly hq
    · exact hq.trans (Run.all_addsOnly program.instructions ⟨h₁, r₁, .outside .read⟩)

/-- Structures that the run of compiled code has built have names of its terms. -/
theorem Machine.run_functorName {capacities : Capacities} {calls : List Call} {q p : Term}
    {query program : Code} (hq : CompiledQuery capacities calls q query)
    (hp : CompiledProgram capacities calls p program) {m n : Machine}
    (hm : m = (create capacities).afterAll calls) (hn : n = (m.run query program).2) {a : Address}
    (ha : m.state.heap.cells.size ≤ a) {f : FunctorId} {arity : Arity}
    (hf : n.state.heap.cells[a]? = some (.functor f arity)) {functor : Functor}
    (hfunctor : n.functors.lookup f = some functor) :
    functor.name ∈ q.functorNames ∨ functor.name ∈ p.functorNames := by
  subst hn
  rw [run_eq] at hf hfunctor
  have hcode := runState_addsOnly query program m.state.heap m.state.registers hf
  rw [Array.getElem?_eq_none ha, List.mem_append] at hcode
  have hname : ∀ {t : Term}, (∃ name ∈ t.functorNames, ∃ k,
      m.functors.lookup f = some ⟨name, k⟩) → functor.name ∈ t.functorNames := by
    rintro t ⟨name, hname, k, hk⟩
    rw [hfunctor, Option.some.injEq] at hk
    exact hk ▸ hname
  subst hm
  rcases hcode with hnone | hquery | hprogram
  · cases hnone
  · exact .inl (hname (hq.isQuery.functor hquery))
  · exact .inr (hname (hp.isProgram.functor hprogram))

end TermMachine
