import TermMachine.Proofs.Heap.Model
import TermMachine.Proofs.Heap.Termination

/-! # Unification solves an equation

On a well-built heap unification of two terms answers, and it answers yes exactly when some model of
the heap makes the two equal, in whatever domain. The models of the heap it leaves are those of the
heap before that solve the equation.

That no solution is lost goes step by step. That the equation holds in the end is a bisimulation: two
structures that have been taken apart are equal when their arguments are, and by the time no pair is
left their arguments are equal or have been taken apart themselves.
-/
namespace TermMachine.Heap

namespace Worklist

variable {table : Functor.Table} {k : Address}

structure Complete (k : Address) (w : Worklist) : Prop where
  heap : w.heap.Complete k 0
  pending : ∀ q ∈ w.pending, HasTerm k w.heap q.1 ∧ HasTerm k w.heap q.2

structure WellBuilt (table : Functor.Table) (k : Address) (w : Worklist) : Prop where
  heap : w.heap.WellBuilt table k 0
  pending : ∀ q ∈ w.pending, HasTerm k w.heap q.1 ∧ HasTerm k w.heap q.2

theorem Complete.sound {w : Worklist} (hw : w.Complete k) : Sound k w :=
  ⟨hw.heap.toSoundFrom, fun q hq => ⟨(hw.pending q hq).1.1, (hw.pending q hq).2.1⟩⟩

theorem WellBuilt.complete {w : Worklist} (hw : w.WellBuilt table k) : w.Complete k :=
  ⟨hw.heap.toComplete, hw.pending⟩

structure Solves {D : Type} [TreeDomain D] (table : Functor.Table) (k : Address) (w : Worklist)
    (v : Address → D) : Prop where
  heap : w.heap.Models table k v
  pending : ∀ q ∈ w.pending, v q.1 = v q.2

theorem Structures.cells {h : Heap} {a b s t : Address} (hst : Structures h a b s t)
    (hs : h.SoundFrom k) (ha : HasTerm k h a) (hb : HasTerm k h b) :
    ∃ c d, (h.Resolves a c ∧ k ≤ c ∧ h.cells[c]? = some (.str s)) ∧
      (h.Resolves b d ∧ k ≤ d ∧ h.cells[d]? = some (.str t)) ∧ k ≤ s ∧ k ≤ t := by
  obtain ⟨⟨c, hrc, hc⟩, ⟨d, hrd, hd⟩⟩ := hst
  have hkc := hs.resolves_le hrc ha.1
  have hkd := hs.resolves_le hrd hb.1
  exact ⟨c, d, ⟨hrc, hkc, hc⟩, ⟨hrd, hkd, hd⟩, (hs.str_functor hkc hc).1, (hs.str_functor hkd hd).1⟩

theorem Step.completeHeap {left : Nat} {u w : Worklist} (hs : Step u w) (hu : Sound k u)
    (hheap : u.heap.Complete k left) : w.heap.Complete k left := by
  cases hs with
  | bind hends hx hv hterm ho =>
    obtain ⟨hka, hkb⟩ := hu.pending _ List.mem_cons_self
    rcases hends with ⟨-, hrv⟩ | ⟨-, hrv⟩
    · exact hheap.point hx (hheap.resolves_le hrv hkb) hv hterm ho
    · exact hheap.point hx (hheap.resolves_le hrv hka) hv hterm ho
  | _ => exact hheap

theorem Step.complete {u w : Worklist} (hs : Step u w) (hu : u.Complete k) : w.Complete k := by
  have hnext := hs.completeHeap hu.sound hu.heap
  have hgrow := hs.grows
  obtain ⟨hheap, hpend⟩ := hu
  obtain ⟨_ | ⟨⟨a, b⟩, p⟩, seen, h⟩ := u
  · cases hs
  obtain ⟨ha, hb⟩ := hpend _ List.mem_cons_self
  have hrest : ∀ q ∈ p, HasTerm k w.heap q.1 ∧ HasTerm k w.heap q.2 := fun q hq =>
    ⟨(hpend q (List.mem_cons_of_mem _ hq)).1.grows hgrow,
      (hpend q (List.mem_cons_of_mem _ hq)).2.grows hgrow⟩
  refine ⟨hnext, ?_⟩
  cases hs with
  | same => exact hrest
  | again => exact hrest
  | bind => exact hrest
  | apart hst _ hsf htf =>
    obtain ⟨c, d, -, -, hks, hkt⟩ := hst.cells hheap.toSoundFrom ha hb
    intro q hq
    rcases mem_stackArguments.1 hq with hq | ⟨i, hi, rfl⟩
    · exact hrest q hq
    · exact ⟨hheap.arguments_hasTerm hks hsf hi, hheap.arguments_hasTerm hkt htf hi⟩

theorem Step.wellBuilt {u w : Worklist} (hs : Step u w) (hu : u.WellBuilt table k) :
    w.WellBuilt table k := by
  have hnext := hs.complete hu.complete
  refine ⟨⟨hnext.heap, ?_⟩, hnext.pending⟩
  cases hs with
  | bind _ hx => exact hu.heap.known_point hx
  | _ => exact hu.heap.known

/-- On a complete heap nothing goes wrong. -/
theorem Answers.eq_ok {w : Worklist} {r : Except Fault Bool} (hr : Answers w r)
    (hw : w.Complete k) : (r = .ok true ∧ w.pending = []) ∨ r = .ok false := by
  obtain ⟨hheap, hpend⟩ := hw
  cases hr with
  | done => exact .inl ⟨rfl, rfl⟩
  | mismatch => exact .inr rfl
  | lost hlost =>
    exfalso
    obtain ⟨ha, hb⟩ := hpend _ List.mem_cons_self
    obtain ⟨c, hc, -⟩ := hheap.deref_term ha
    obtain ⟨d, hd, -⟩ := hheap.deref_term hb
    rcases hlost with hl | hl
    · simp [hc] at hl
    · simp [hd] at hl
  | functor hr hc =>
    exfalso
    obtain ⟨⟨hka, x, hx, hxt⟩, ⟨hkb, y, hy, hyt⟩⟩ := hpend _ List.mem_cons_self
    rcases hr with hr | hr
    · obtain ⟨z, hz, hzt⟩ := hheap.resolves_term hr hka hx hxt
      rw [hc, Option.some.injEq] at hz
      exact (hz ▸ hzt : (Cell.functor _ _).IsTerm).elim
    · obtain ⟨z, hz, hzt⟩ := hheap.resolves_term hr hkb hy hyt
      rw [hc, Option.some.injEq] at hz
      exact (hz ▸ hzt : (Cell.functor _ _).IsTerm).elim
  | headless hst hfault =>
    exfalso
    obtain ⟨ha, hb⟩ := hpend _ List.mem_cons_self
    obtain ⟨c, d, ⟨-, hkc, hc⟩, ⟨-, hkd, hd⟩, -⟩ := hst.cells hheap.toSoundFrom ha hb
    obtain ⟨-, f, n, hf⟩ := hheap.str_functor hkc hc
    obtain ⟨-, g, m, hg⟩ := hheap.str_functor hkd hd
    rcases hfault with hl | hl
    · simp [functorAt, get_of_some hf] at hl
    · simp [functorAt, get_of_some hg] at hl

section Settled

variable {D : Type} {v : Address → D}

def Settled (k : Address) (v : Address → D) (w : Worklist) (a b : Address) : Prop :=
  v a = v b ∨ ∃ c d s t, (k ≤ c ∧ w.heap.cells[c]? = some (.str s) ∧ v a = v c) ∧
    (k ≤ d ∧ w.heap.cells[d]? = some (.str t) ∧ v b = v d) ∧ unordered s t ∈ w.seen

/-- Two addresses that are settled or wait for it. -/
def Owed (k : Address) (v : Address → D) (w : Worklist) (a b : Address) : Prop :=
  (a, b) ∈ w.pending ∨ (b, a) ∈ w.pending ∨ Settled k v w a b

/-- The structures taken apart agree, and so do their arguments as far as they are settled. -/
def TakenApart (k : Address) (v : Address → D) (w : Worklist) : Prop :=
  ∀ s t, unordered s t ∈ w.seen → ∃ f n, w.heap.cells[s]? = some (.functor f n) ∧
    w.heap.cells[t]? = some (.functor f n) ∧ ∀ i < n.val, Owed k v w (s + (i + 1)) (t + (i + 1))

theorem unordered_comm (s t : Address) : unordered s t = unordered t s := by
  rw [unordered, unordered, Nat.min_comm, Nat.max_comm]

theorem eq_or_eq_of_unordered {s t s' t' : Address} (h : unordered s t = unordered s' t') :
    s = s' ∧ t = t' ∨ s = t' ∧ t = s' := by
  simp only [unordered, Prod.mk.injEq] at h
  lia

theorem Settled.symm {w : Worklist} {a b : Address} (h : Settled k v w a b) :
    Settled k v w b a := by
  rcases h with heq | ⟨c, d, s, t, hc, hd, hseen⟩
  · exact .inl heq.symm
  · exact .inr ⟨d, c, t, s, hd, hc, unordered_comm s t ▸ hseen⟩

theorem Settled.mono {u w : Worklist} (hg : Grows u.heap w.heap) (hseen : ∀ q ∈ u.seen, q ∈ w.seen)
    {a b : Address} (h : Settled k v u a b) : Settled k v w a b := by
  rcases h with heq | ⟨c, d, s, t, ⟨hkc, hc, hac⟩, ⟨hkd, hd, hbd⟩, hst⟩
  · exact .inl heq
  · exact .inr ⟨c, d, s, t, ⟨hkc, hg.str hc, hac⟩, ⟨hkd, hg.str hd, hbd⟩, hseen _ hst⟩

theorem Step.seen {u w : Worklist} (hs : Step u w) : ∀ q ∈ u.seen, q ∈ w.seen := by
  cases hs with
  | apart => exact fun q hq => mem_insert_seen.2 (.inr hq)
  | _ => exact fun q hq => hq

/-- A step settles the pair on top, as far as values that follow the references it leaves can see. -/
theorem Step.settled {u w : Worklist} (hs : Step u w) (hu : u.Complete k)
    (hv : FollowsReferences k w.heap v) {a b : Address} {p : List (Address × Address)}
    (hp : u.pending = (a, b) :: p) : Settled k v w a b := by
  have hold := hv.of_grows hs.grows
  obtain ⟨ha, hb⟩ := hu.pending (a, b) (hp ▸ List.mem_cons_self)
  have hheap := hu.heap
  have hsound := hheap.toSoundFrom
  cases hs with
  | same hrc hrd =>
    cases hp
    exact .inl ((hold.resolves hsound hrc ha.1).trans (hold.resolves hsound hrd hb.1).symm)
  | @bind _ _ x y c _ _ h hends hx hy hterm ho =>
    cases hp
    refine .inl ?_
    rcases hends with ⟨hrx, hry⟩ | ⟨hrx, hry⟩
    · have hxy := hv (hsound.resolves_le hrx ha.1) (by rw [point_cell hx, if_pos rfl])
      rw [hold.resolves hsound hrx ha.1, hold.resolves hsound hry hb.1, hxy]
    · have hxy := hv (hsound.resolves_le hrx hb.1) (by rw [point_cell hx, if_pos rfl])
      rw [hold.resolves hsound hrx hb.1, hold.resolves hsound hry ha.1, hxy]
  | @again _ _ s t _ _ _ hst hmem =>
    cases hp
    obtain ⟨c, d, ⟨hrc, hkc, hc⟩, ⟨hrd, hkd, hd⟩, -⟩ := hst.cells hsound ha hb
    exact .inr ⟨c, d, s, t, ⟨hkc, hc, hold.resolves hsound hrc ha.1⟩,
      ⟨hkd, hd, hold.resolves hsound hrd hb.1⟩, hmem⟩
  | @apart _ _ s t _ _ _ _ _ hst =>
    cases hp
    obtain ⟨c, d, ⟨hrc, hkc, hc⟩, ⟨hrd, hkd, hd⟩, -⟩ := hst.cells hsound ha hb
    exact .inr ⟨c, d, s, t, ⟨hkc, hc, hold.resolves hsound hrc ha.1⟩,
      ⟨hkd, hd, hold.resolves hsound hrd hb.1⟩, mem_insert_seen.2 (.inl rfl)⟩

theorem Step.pending {u w : Worklist} (hs : Step u w) :
    ∃ q p, u.pending = q :: p ∧ ∀ r ∈ p, r ∈ w.pending := by
  cases hs with
  | apart => exact ⟨_, _, rfl, fun r hr => mem_stackArguments.2 (.inl hr)⟩
  | _ => exact ⟨_, _, rfl, fun r hr => hr⟩

theorem Step.owed {u w : Worklist} (hs : Step u w) (hu : u.Complete k)
    (hv : FollowsReferences k w.heap v) {a b : Address} (h : Owed k v u a b) : Owed k v w a b := by
  obtain ⟨⟨c, d⟩, p, hp, hrest⟩ := hs.pending
  have htop := hs.settled hu hv hp
  rw [Owed, hp, List.mem_cons, List.mem_cons] at h
  rcases h with (heq | hmem) | (heq | hmem) | hset
  · cases heq
    exact .inr (.inr htop)
  · exact .inl (hrest _ hmem)
  · cases heq
    exact .inr (.inr htop.symm)
  · exact .inr (.inl (hrest _ hmem))
  · exact .inr (.inr (hset.mono hs.grows hs.seen))

theorem Step.takenApart {u w : Worklist} (hs : Step u w) (hu : u.Complete k)
    (hv : FollowsReferences k w.heap v) (h : TakenApart k v u) : TakenApart k v w := by
  have hkeep : ∀ s t, unordered s t ∈ u.seen → ∃ f n, w.heap.cells[s]? = some (.functor f n) ∧
      w.heap.cells[t]? = some (.functor f n) ∧
      ∀ i < n.val, Owed k v w (s + (i + 1)) (t + (i + 1)) := by
    intro s t hst
    obtain ⟨f, n, hfs, hft, hargs⟩ := h s t hst
    exact ⟨f, n, hs.grows.functor hfs, hs.grows.functor hft,
      fun i hi => hs.owed hu hv (hargs i hi)⟩
  cases hs with
  | same => exact hkeep
  | bind => exact hkeep
  | again => exact hkeep
  | @apart _ _ s t f n p _ _ _ _ hsf htf =>
    intro s' t' hst
    rcases mem_insert_seen.1 hst with heq | hmem
    · have hnew : ∀ i < n.val, (s + (i + 1), t + (i + 1)) ∈ stackArguments s t n.val p :=
        fun i hi => mem_stackArguments.2 (.inr ⟨i, hi, rfl⟩)
      rcases eq_or_eq_of_unordered heq with ⟨rfl, rfl⟩ | ⟨rfl, rfl⟩
      · exact ⟨f, n, hsf, htf, fun i hi => .inl (hnew i hi)⟩
      · exact ⟨f, n, htf, hsf, fun i hi => .inr (.inl (hnew i hi))⟩
    · exact hkeep s' t' hmem

theorem Steps.owed {n : Nat} {u w : Worklist} (hs : Steps n u w) (hu : u.Complete k)
    (hv : FollowsReferences k w.heap v) (hu' : TakenApart k v u) {a b : Address}
    (h : Owed k v u a b) : TakenApart k v w ∧ Owed k v w a b := by
  induction hs with
  | refl => exact ⟨hu', h⟩
  | step hstep hrest ih =>
    have hmid := hv.of_grows hrest.grows
    exact ih (hstep.complete hu) hv (hstep.takenApart hu hmid hu') (hstep.owed hu hmid h)

end Settled

section Solutions

variable {D : Type} [TreeDomain D] {v : Address → D}

theorem Structures.solved {h : Heap} {a b s t : Address} {f g : FunctorId} {n m : Arity}
    (hst : Structures h a b s t) (hw : h.WellBuilt table k 0) (ha : HasTerm k h a)
    (hb : HasTerm k h b) (hs : h.cells[s]? = some (.functor f n))
    (ht : h.cells[t]? = some (.functor g m)) (hv : h.Models table k v) (hab : v a = v b) :
    (f, n) = (g, m) ∧ (argumentAddresses s n.val).map v = (argumentAddresses t m.val).map v := by
  obtain ⟨c, d, ⟨hrc, hkc, hc⟩, ⟨hrd, hkd, hd⟩, -⟩ := hst.cells hw.toSoundFrom ha hb
  refine hv.str_inj hw hkc hkd hc hd hs ht ?_
  rw [← hv.resolves hw.toSoundFrom hrc ha.1, ← hv.resolves hw.toSoundFrom hrd hb.1, hab]

omit [TreeDomain D] in
theorem argumentAddresses_map_eq {s t : Address} {n : Nat}
    (h : (argumentAddresses s n).map v = (argumentAddresses t n).map v) {i : Nat} (hi : i < n) :
    v (s + (i + 1)) = v (t + (i + 1)) := by
  have hget := congrArg (fun l => l[i]?) h
  simpa [argumentAddresses, hi] using hget

/-- No step loses a solution. -/
theorem Step.solves {u w : Worklist} (hs : Step u w) (hu : u.WellBuilt table k)
    (hv : u.Solves table k v) : w.Solves table k v := by
  obtain ⟨hheap, hpend⟩ := hu
  obtain ⟨hmodel, heqs⟩ := hv
  obtain ⟨_ | ⟨⟨a, b⟩, p⟩, seen, h⟩ := u
  · cases hs
  obtain ⟨ha, hb⟩ := hpend _ List.mem_cons_self
  have hab : v a = v b := heqs _ List.mem_cons_self
  have hrest : ∀ q ∈ p, v q.1 = v q.2 := fun q hq => heqs q (List.mem_cons_of_mem _ hq)
  cases hs with
  | same => exact ⟨hmodel, hrest⟩
  | again => exact ⟨hmodel, hrest⟩
  | bind hends hx hv hterm ho =>
    refine ⟨?_, hrest⟩
    have hsound := hheap.toSoundFrom
    rcases hends with ⟨hrx, hrv⟩ | ⟨hrx, hrv⟩
    · refine (models_point hx (hsound.resolves_le hrx ha.1)).2 ⟨hmodel, ?_⟩
      rw [← hmodel.resolves hsound hrx ha.1, hab, hmodel.resolves hsound hrv hb.1]
    · refine (models_point hx (hsound.resolves_le hrx hb.1)).2 ⟨hmodel, ?_⟩
      rw [← hmodel.resolves hsound hrx hb.1, ← hab, hmodel.resolves hsound hrv ha.1]
  | apart hst _ hsf htf =>
    obtain ⟨-, hargs⟩ := hst.solved hheap ha hb hsf htf hmodel hab
    refine ⟨hmodel, fun q hq => ?_⟩
    rcases mem_stackArguments.1 hq with hq | ⟨i, hi, rfl⟩
    · exact hrest q hq
    · exact argumentAddresses_map_eq hargs hi

theorem Steps.solves {n : Nat} {u w : Worklist} (hs : Steps n u w) (hu : u.WellBuilt table k)
    (hv : u.Solves table k v) : w.Solves table k v := by
  induction hs with
  | refl => exact hv
  | step hstep _ ih => exact ih (hstep.wellBuilt hu) (hstep.solves hu hv)

theorem Answers.not_solves {w : Worklist} (ha : Answers w (.ok false)) (hw : w.WellBuilt table k)
    (hv : w.Solves table k v) : False := by
  cases ha with
  | mismatch hst hs ht hne =>
    obtain ⟨hta, htb⟩ := hw.pending _ List.mem_cons_self
    exact hne (hst.solved hw.heap hta htb hs ht hv.heap (hv.pending _ List.mem_cons_self)).1

/-- When no pair is left, whatever is settled is equal. -/
theorem eq_of_settled {w : Worklist} (hw : w.heap.WellBuilt table k 0)
    (hv : w.heap.Models table k v) (happ : TakenApart k v w) (hp : w.pending = []) {a b : Address}
    (h : Settled k v w a b) : v a = v b := by
  refine TreeDomain.eq_of_bisim (fun x y => ∃ a b, x = v a ∧ y = v b ∧ Settled k v w a b) ?_ _ _
    ⟨a, b, rfl, rfl, h⟩
  rintro x y ⟨a, b, rfl, rfl, heq | ⟨c, d, s, t, ⟨hkc, hc, hac⟩, ⟨hkd, hd, hbd⟩, hst⟩⟩
  · exact .inl heq
  obtain ⟨f, n, hsf, htf, hargs⟩ := happ s t hst
  obtain ⟨name, hname⟩ := hw.known (hw.str_functor hkc hc).1 hsf
  refine .inr ⟨name, _, _, hac.trans (hv.str hkc hc hsf hname),
    hbd.trans (hv.str hkd hd htf hname), ?_⟩
  rw [List.forall₂_map_left_iff, List.forall₂_map_right_iff, argumentAddresses,
    argumentAddresses, List.forall₂_map_left_iff, List.forall₂_map_right_iff, List.forall₂_same]
  intro i hi
  have howed := hargs i (List.mem_range.1 hi)
  rw [Owed, hp] at howed
  exact ⟨_, _, rfl, rfl, by simpa using howed⟩

end Solutions

end Worklist

variable {table : Functor.Table} {k : Address} {h : Heap} {a b : Address}

/-- Whatever a unification answers, it leaves a complete heap. -/
theorem Complete.unify {left : Nat} (hw : h.Complete k left) (ha : k ≤ a) (hb : k ≤ b) :
    (h.unify a b).2.Complete k left := by
  obtain ⟨n, w, hs, hheap, -⟩ := h.unify_steps a b
  have hstart : Worklist.Sound k ⟨[(a, b)], ∅, h⟩ := ⟨hw.toSoundFrom, by simpa using ⟨ha, hb⟩⟩
  have hend := hs.keeps (I := fun w => Worklist.Sound k w ∧ w.heap.Complete k left)
    (fun hstep hu => ⟨hstep.sound hu.1, hstep.completeHeap hu.1 hu.2⟩) ⟨hstart, hw⟩
  exact hheap ▸ hend.2

/-- A unification that answers yes leaves the heap with the solutions of the equation as its
models, and one that answers no has none to leave. -/
theorem unify_spec (hw : h.WellBuilt table k 0) (ha : HasTerm k h a) (hb : HasTerm k h b) :
    (h.unify a b).2.WellBuilt table k 0 ∧
    (((h.unify a b).1 = .ok true ∧ ∀ {D : Type} [TreeDomain D] (v : Address → D),
        (h.unify a b).2.Models table k v ↔ h.Models table k v ∧ v a = v b) ∨
      ((h.unify a b).1 = .ok false ∧ ∀ {D : Type} [TreeDomain D] (v : Address → D),
        h.Models table k v → v a ≠ v b)) := by
  obtain ⟨n, w, hs, hheap, hans⟩ := h.unify_answers a b
  have hstart : Worklist.WellBuilt table k ⟨[(a, b)], ∅, h⟩ := ⟨hw, by simpa using ⟨ha, hb⟩⟩
  have hend : w.WellBuilt table k := hs.keeps Worklist.Step.wellBuilt hstart
  have hsolves : ∀ {D : Type} [TreeDomain D] (v : Address → D), h.Models table k v → v a = v b →
      w.Solves table k v := fun v hv hab => hs.solves hstart ⟨hv, by simpa using hab⟩
  refine ⟨hheap ▸ hend.heap, ?_⟩
  rcases hans.eq_ok hend.complete with ⟨htrue, hp⟩ | hfalse
  · refine .inl ⟨htrue, fun v => ?_⟩
    rw [hheap]
    constructor
    · intro hv
      obtain ⟨happ, howed⟩ := hs.owed hstart.complete hv.followsReferences
        (fun s t hst => by simp at hst) (.inl List.mem_cons_self)
      rw [Worklist.Owed, hp] at howed
      exact ⟨.of_grows hs.grows hv,
        Worklist.eq_of_settled hend.heap hv happ hp (by simpa using howed)⟩
    · exact fun hv => (hsolves v hv.1 hv.2).heap
  · refine .inr ⟨hfalse, fun v hv hab => ?_⟩
    rw [hfalse] at hans
    exact hans.not_solves hend (hsolves v hv hab)

end TermMachine.Heap
