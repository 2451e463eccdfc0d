import TermMachine.Proofs.Heap.AppendOnly
import TermMachine.Proofs.Heap.Unification

/-! # Unifying a second time

A unification undoes nothing: two addresses that have come to one cell do so ever after, and the
structures taken apart are remembered. When no pair is left, every pair that was to be made equal
comes to one cell, or to structures taken apart whose arguments are such pairs again. A second
unification meets only these pairs and binds nothing. This holds on any heap: its references may be
bound in circles, and its structures may lack functors or arguments.
-/
namespace TermMachine.Heap

def Joins (h : Heap) (a b : Address) : Prop := ∃ c, h.Resolves a c ∧ h.Resolves b c

variable {h : Heap} {a b c s t x v : Address}

namespace Joins

theorem symm (hab : h.Joins a b) : h.Joins b a := by
  obtain ⟨d, ha, hb⟩ := hab
  exact ⟨d, hb, ha⟩

theorem trans (hab : h.Joins a b) (hbc : h.Joins b c) : h.Joins a c := by
  obtain ⟨d, ha, hb⟩ := hab
  obtain ⟨e, hb', hc⟩ := hbc
  exact ⟨d, ha, hb.unique hb' ▸ hc⟩

end Joins

theorem Resolves.joins (hr : h.Resolves a c) : h.Joins a c := ⟨c, hr, hr.end_self⟩

theorem resolves_point_end (hx : h.cells[x]? = some (.ref x)) (hv : h.Resolves v v) :
    (h.point x v).Resolves v v := by
  by_cases hvx : v = x
  · exact .stop (by rw [point_cell hx, if_pos hvx]) fun t ht => (Cell.ref.inj ht).symm
  · obtain ⟨d, hd, hself⟩ := hv.cell
    exact .stop (by rw [point_cell hx, if_neg hvx, hd]) hself

theorem resolves_point (hx : h.cells[x]? = some (.ref x)) (hv : h.Resolves v v) :
    (h.point x v).Resolves x v := by
  by_cases hvx : v = x
  · subst hvx
    exact resolves_point_end hx hv
  · exact .follow (by rw [point_cell hx, if_pos rfl]) hvx (resolves_point_end hx hv)

/-- An address still comes to where the old end of its chain does. -/
theorem Resolves.joins_point (hr : h.Resolves a c) (hx : h.cells[x]? = some (.ref x))
    (hv : h.Resolves v v) : (h.point x v).Joins a c := by
  induction hr with
  | @stop a d hd hs =>
    by_cases ha : a = x
    · rw [ha]
      exact ⟨v, resolves_point hx hv, resolves_point hx hv⟩
    · have hend : (h.point x v).Resolves a a := .stop (by rw [point_cell hx, if_neg ha, hd]) hs
      exact hend.joins
  | @follow a t c hc hne _ ih =>
    have ha : a ≠ x := ne_of_bound hc hne hx
    obtain ⟨d, hd, hcd⟩ := ih
    exact ⟨d, .follow (by rw [point_cell hx, if_neg ha, hc]) hne hd, hcd⟩

/-- Binding the end of one chain to the end of another joins the two. -/
theorem joins_point (hra : h.Resolves a x) (hrb : h.Resolves b v)
    (hx : h.cells[x]? = some (.ref x)) : (h.point x v).Joins a b := by
  have hv := hrb.end_self
  have hax : (h.point x v).Joins a x := hra.joins_point hx hv
  have hxv : (h.point x v).Joins x v := (resolves_point hx hv).joins
  have hbv : (h.point x v).Joins b v := hrb.joins_point hx hv
  exact (hax.trans hxv).trans hbv.symm

namespace Worklist

variable {u w : Worklist} {n : Nat}

theorem Step.joins (hs : Step u w) (hab : u.heap.Joins a b) : w.heap.Joins a b := by
  cases hs with
  | @bind _ _ x v _ _ _ h hends hx =>
    obtain ⟨d, hra, hrb⟩ := hab
    have hself : h.Resolves v v := by
      rcases hends with ⟨-, hrv⟩ | ⟨-, hrv⟩
      · exact hrv.end_self
      · exact hrv.end_self
    exact (hra.joins_point hx hself).trans (hrb.joins_point hx hself).symm
  | _ => exact hab

theorem Steps.joins (hs : Steps n u w) (hab : u.heap.Joins a b) : w.heap.Joins a b :=
  hs.keeps (I := fun w => w.heap.Joins a b) Step.joins hab

theorem Steps.comes_to (hs : Steps n u w)
    (ha : ∃ c, u.heap.Resolves a c ∧ u.heap.cells[c]? = some (.str s)) :
    ∃ c, w.heap.Resolves a c ∧ w.heap.cells[c]? = some (.str s) := by
  obtain ⟨c, hr, hc⟩ := ha
  obtain ⟨d, had, hcd⟩ := hs.joins hr.joins
  have hc' := hs.grows.str hc
  obtain rfl := hcd.unique (.stop hc' (by simp))
  exact ⟨d, had, hc'⟩

theorem Steps.structures (hs : Steps n u w) (hst : Structures u.heap a b s t) :
    Structures w.heap a b s t := ⟨hs.comes_to hst.left, hs.comes_to hst.right⟩

theorem Steps.seen (hs : Steps n u w) : ∀ q ∈ u.seen, q ∈ w.seen :=
  hs.keeps (I := fun w => ∀ q ∈ u.seen, q ∈ w.seen)
    (fun hstep hu q hq => hstep.seen q (hu q hq)) fun _ hq => hq

theorem Step.seen_cases (hs : Step u w) {q : Address × Address} (hq : q ∈ w.seen) :
    q ∈ u.seen ∨ ∃ s t f, ∃ n : Arity, q = unordered s t ∧
      u.heap.cells[s]? = some (.functor f n) ∧ u.heap.cells[t]? = some (.functor f n) ∧
      ∀ i < n.val, (s + (i + 1), t + (i + 1)) ∈ w.pending := by
  cases hs with
  | @apart a b s t f n p seen h _ _ hs ht =>
    rcases mem_insert_seen.1 hq with rfl | hold
    · exact .inr ⟨s, t, f, n, rfl, hs, ht, fun i hi => mem_stackArguments.2 (.inr ⟨i, hi, rfl⟩)⟩
    · exact .inl hold
  | _ => exact .inl hq

def Done (w : Worklist) (a b : Address) : Prop :=
  w.heap.Joins a b ∨ ∃ s t, Structures w.heap a b s t ∧ unordered s t ∈ w.seen

def Agree (w : Worklist) (s t : Address) : Prop :=
  ∃ f, ∃ n : Arity, w.heap.cells[s]? = some (.functor f n) ∧
    w.heap.cells[t]? = some (.functor f n) ∧ ∀ i < n.val, w.Done (s + (i + 1)) (t + (i + 1))

theorem Done.symm (hab : w.Done a b) : w.Done b a := by
  rcases hab with hjoin | ⟨s, t, hst, hseen⟩
  · exact .inl hjoin.symm
  · exact .inr ⟨t, s, ⟨hst.right, hst.left⟩, unordered_comm s t ▸ hseen⟩

theorem Agree.symm (hst : w.Agree s t) : w.Agree t s := by
  obtain ⟨f, n, hs, ht, hargs⟩ := hst
  exact ⟨f, n, ht, hs, fun i hi => (hargs i hi).symm⟩

theorem Done.steps (hab : u.Done a b) (hs : Steps n u w) : w.Done a b := by
  rcases hab with hjoin | ⟨s, t, hst, hseen⟩
  · exact .inl (hs.joins hjoin)
  · exact .inr ⟨s, t, hs.structures hst, hs.seen _ hseen⟩

/-- A step does what is to be done about the pair on top. -/
theorem Step.done (hs : Step u w) {p : List (Address × Address)} (hp : u.pending = (a, b) :: p) :
    w.Done a b := by
  cases hs with
  | same hra hrb =>
    cases hp
    exact .inl ⟨_, hra, hrb⟩
  | bind hends hx =>
    cases hp
    rcases hends with ⟨hra, hrb⟩ | ⟨hrb, hra⟩
    · exact .inl (joins_point hra hrb hx)
    · exact .inl (joins_point hrb hra hx).symm
  | again hst hmem =>
    cases hp
    exact .inr ⟨_, _, hst, hmem⟩
  | apart hst =>
    cases hp
    exact .inr ⟨_, _, hst, mem_insert_seen.2 (.inl rfl)⟩

/-- By the end of a run there is nothing left to do about any pair that waited for it, nor about the
arguments of the structures it has taken apart. -/
theorem Steps.done (hs : Steps n u w) (hend : w.pending = []) :
    (∀ q ∈ u.pending, w.Done q.1 q.2) ∧
      ∀ s t, unordered s t ∈ w.seen → unordered s t ∈ u.seen ∨ w.Agree s t := by
  -- on the steps from the last to the first, so the arguments stacked by a step are done already
  induction hs with
  | refl =>
    refine ⟨fun q hq => ?_, fun s t hst => .inl hst⟩
    rw [hend] at hq
    cases hq
  | @step n u v w hstep hrest ih =>
    obtain ⟨hpend, hseen⟩ := ih hend
    refine ⟨fun q hq => ?_, fun s t hst => ?_⟩
    · obtain ⟨⟨a, b⟩, p, hu, hp⟩ := hstep.pending
      rw [hu] at hq
      rcases List.mem_cons.1 hq with rfl | hq
      · exact (hstep.done hu).steps hrest
      · exact hpend q (hp q hq)
    · rcases hseen s t hst with hmid | hagree
      · rcases hstep.seen_cases hmid with hold | ⟨s', t', f, m, heq, hs, ht, hargs⟩
        · exact .inl hold
        · have hgrow := hstep.grows.trans hrest.grows
          have hagree : w.Agree s' t' :=
            ⟨f, m, hgrow.functor hs, hgrow.functor ht, fun i hi => hpend _ (hargs i hi)⟩
          rcases eq_or_eq_of_unordered heq with ⟨rfl, rfl⟩ | ⟨rfl, rfl⟩
          · exact .inr hagree
          · exact .inr hagree.symm
      · exact .inr hagree

theorem meeting_of_joins (hab : h.Joins a b) : h.meeting a b = .ok .same := by
  obtain ⟨c, ha, hb⟩ := hab
  simp [meeting, deref_eq_ok_iff.2 ha, deref_eq_ok_iff.2 hb]

theorem meeting_of_structures (hst : Structures h a b s t) :
    h.meeting a b = .ok .same ∨ h.meeting a b = .ok (.structures s t) := by
  obtain ⟨⟨c, hrc, hc⟩, ⟨d, hrd, hd⟩⟩ := hst
  by_cases hcd : c = d
  · exact .inl (meeting_of_joins ⟨c, hrc, hcd ▸ hrd⟩)
  · right
    simp [meeting, deref_eq_ok_iff.2 hrc, deref_eq_ok_iff.2 hrd, hcd, get_of_some hc,
      get_of_some hd]

/-- A run over pairs about which there is nothing left to do changes nothing, and does not fail. -/
theorem unifyWithin_of_done (hw : ∀ s t, unordered s t ∈ w.seen → w.Agree s t) (fuel : Nat)
    {p : List (Address × Address)} (hp : ∀ q ∈ p, w.Done q.1 q.2) (seen : Seen) :
    (w.heap.unifyWithin fuel p seen).2 = w.heap ∧
      ∀ r, (w.heap.unifyWithin fuel p seen).1 = some r → r = .ok true := by
  induction fuel generalizing p seen with
  | zero =>
    cases p with
    | nil => exact ⟨rfl, fun r hr => (Option.some.inj hr).symm⟩
    | cons q p => exact ⟨rfl, fun r hr => by cases hr⟩
  | succ fuel ih =>
    rcases p with _ | ⟨⟨a, b⟩, p⟩
    · exact ⟨rfl, fun r hr => (Option.some.inj hr).symm⟩
    have hrest : ∀ q ∈ p, w.Done q.1 q.2 := fun q hq => hp q (List.mem_cons_of_mem _ hq)
    have hskip : w.heap.meeting a b = .ok .same →
        w.heap.unifyWithin (fuel + 1) ((a, b) :: p) seen = w.heap.unifyWithin fuel p seen := by
      intro hm
      rw [unifyWithin, hm]
    rcases hp (a, b) List.mem_cons_self with hjoin | ⟨s, t, hst, hmem⟩
    · rw [hskip (meeting_of_joins hjoin)]
      exact ih hrest seen
    rcases meeting_of_structures hst with hm | hm
    · rw [hskip hm]
      exact ih hrest seen
    obtain ⟨f, n, hs, ht, hargs⟩ := hw s t hmem
    have harity : w.heap.commonArity s t = .ok (some n) := by
      simp [commonArity, functorAt, get_of_some hs, get_of_some ht]
    by_cases hagain : unordered s t ∈ seen
    · have heq : w.heap.unifyWithin (fuel + 1) ((a, b) :: p) seen =
          w.heap.unifyWithin fuel p seen := by simp [unifyWithin, hm, hagain]
      rw [heq]
      exact ih hrest seen
    · have heq : w.heap.unifyWithin (fuel + 1) ((a, b) :: p) seen = w.heap.unifyWithin fuel
          (stackArguments s t n.val p) (seen.insert (unordered s t)) := by
        simp [unifyWithin, hm, hagain, harity]
      rw [heq]
      refine ih (fun q hq => ?_) _
      rcases mem_stackArguments.1 hq with hq | ⟨i, hi, rfl⟩
      · exact hrest q hq
      · exact hargs i hi

end Worklist

/-- On any heap at all, a unification that has answered yes answers yes again, and leaves every cell
as it is. -/
theorem unify_idempotent (h : Heap) (a b : Address) (hok : (h.unify a b).1 = .ok true) :
    (h.unify a b).2.unify a b = (.ok true, (h.unify a b).2) := by
  obtain ⟨n, w, hs, hheap, hans⟩ := h.unify_answers a b
  have hend : w.pending = [] := by
    rw [hok] at hans
    cases hans
    rfl
  obtain ⟨hpend, hseen⟩ := hs.done hend
  have hagree : ∀ s t, unordered s t ∈ w.seen → w.Agree s t := by
    intro s t hst
    exact (hseen s t hst).resolve_left (by simp)
  rw [hheap]
  obtain ⟨hsame, hyes⟩ := Worklist.unifyWithin_of_done hagree w.heap.pairBound hpend ∅
  rw [unifyWithin_pairBound] at hsame hyes
  exact Prod.ext (hyes _ rfl) hsame

/-- Two structures that are their own last arguments, above two references bound in a circle. The
first call binds a variable of one to a variable of the other. -/
theorem unify_idempotent_cyclic :
    let h := (empty 10).performAll [.newVariable, .newVariable, .bind 0 1, .bind 0 1,
      .newStructure 0 2, .newVariable, .newVariable, .unify 5 2,
      .newStructure 0 2, .newVariable, .newVariable, .unify 9 6]
    (h.unify 2 6).1 = .ok true ∧ (h.unify 2 6).2.cells ≠ h.cells ∧
      (h.unify 2 6).2.unify 2 6 = (.ok true, (h.unify 2 6).2) := by
  intro h
  have hok : (h.unify 2 6).1 = .ok true := by decide +kernel
  exact ⟨hok, by decide +kernel, unify_idempotent h 2 6 hok⟩

end TermMachine.Heap
