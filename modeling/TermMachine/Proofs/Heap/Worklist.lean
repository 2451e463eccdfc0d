import TermMachine.Proofs.Heap.Operations

/-! # Unification step by step

The loop of a unification as a transition system on worklists. A step takes the pair on top: it is
dropped when both sides end at one cell, bound when one of them ends unbound, and taken apart when
both are structures, once for each pair of functor cells. What every step keeps, a whole unification
keeps.
-/
namespace TermMachine.Heap

/-- The pairs still to be made equal, the functor cells taken apart, and the heap so far. -/
structure Worklist where
  pending : List (Address × Address)
  seen : Seen
  heap : Heap

namespace Worklist

structure Structures (h : Heap) (a b s t : Address) : Prop where
  left : ∃ c, h.Resolves a c ∧ h.cells[c]? = some (.str s)
  right : ∃ d, h.Resolves b d ∧ h.cells[d]? = some (.str t)

inductive Step : Worklist → Worklist → Prop
  | same {a b c p seen h} : Resolves h a c → h.Resolves b c →
      Step ⟨(a, b) :: p, seen, h⟩ ⟨p, seen, h⟩
  | bind {a b x v c p seen h} :
      Resolves h a x ∧ h.Resolves b v ∨ h.Resolves b x ∧ h.Resolves a v →
      h.cells[x]? = some (.ref x) → h.cells[v]? = some c → c.IsTerm →
      (v ≤ x ∨ ∃ s, c = .str s) → Step ⟨(a, b) :: p, seen, h⟩ ⟨p, seen, h.point x v⟩
  | again {a b s t p seen h} : Structures h a b s t → unordered s t ∈ seen →
      Step ⟨(a, b) :: p, seen, h⟩ ⟨p, seen, h⟩
  | apart {a b s t f n p seen h} : Structures h a b s t → unordered s t ∉ seen →
      h.cells[s]? = some (.functor f n) → h.cells[t]? = some (.functor f n) →
      Step ⟨(a, b) :: p, seen, h⟩ ⟨stackArguments s t n.val p, seen.insert (unordered s t), h⟩

inductive Answers : Worklist → Except Fault Bool → Prop
  | done {seen h} : Answers ⟨[], seen, h⟩ (.ok true)
  | mismatch {a b s t f g n m p seen h} : Structures h a b s t →
      h.cells[s]? = some (.functor f n) → h.cells[t]? = some (.functor g m) → (f, n) ≠ (g, m) →
      Answers ⟨(a, b) :: p, seen, h⟩ (.ok false)
  | lost {a b e p seen h} : deref h a = .error e ∨ h.deref b = .error e →
      Answers ⟨(a, b) :: p, seen, h⟩ (.error e)
  | functor {a b c f n p seen h} : Resolves h a c ∨ h.Resolves b c →
      h.cells[c]? = some (.functor f n) →
      Answers ⟨(a, b) :: p, seen, h⟩ (.error (.unexpectedFunctor c))
  | headless {a b s t e p seen h} : Structures h a b s t →
      h.functorAt s = .error e ∨ h.functorAt t = .error e →
      Answers ⟨(a, b) :: p, seen, h⟩ (.error e)

inductive Steps : Nat → Worklist → Worklist → Prop
  | refl (w : Worklist) : Steps 0 w w
  | step {n u v w} : Step u v → Steps n v w → Steps (n + 1) u w

theorem functorAt_eq_ok {h : Heap} {a : Address} {f : FunctorId} {n : Arity}
    (ha : h.functorAt a = .ok (f, n)) : h.cells[a]? = some (.functor f n) := by
  unfold functorAt at ha
  cases hg : h.get a with
  | error e => simp [hg] at ha
  | ok c =>
    cases c with
    | ref t => simp [hg] at ha
    | str t => simp [hg] at ha
    | functor g m =>
      simp only [hg, Except.ok.injEq, Prod.mk.injEq] at ha
      obtain ⟨rfl, rfl⟩ := ha
      exact get_eq_ok_iff.1 hg

def Proceeds (fuel : Nat) (w : Worklist) : Prop :=
  (∃ v, Step w v ∧
    w.heap.unifyWithin (fuel + 1) w.pending w.seen = v.heap.unifyWithin fuel v.pending v.seen) ∨
  ∃ r, Answers w r ∧ w.heap.unifyWithin (fuel + 1) w.pending w.seen = (some r, w.heap)

variable {h : Heap} {a b c d : Address} {p : List (Address × Address)} {seen : Seen} {fuel : Nat}

/-- Two ends of which one is unbound are bound, the way of `bind`. -/
theorem proceeds_bind (ha : h.deref a = .ok c) (hb : h.deref b = .ok d) (hne : c ≠ d)
    {y z : Cell} (hy : h.cells[c]? = some y) (hz : h.cells[d]? = some z) (hyt : y.IsTerm)
    (hzt : z.IsTerm) (hu : y = .ref c ∨ z = .ref d)
    (hm : h.meeting a b = .ok (.unbound c d)) : Proceeds fuel ⟨(a, b) :: p, seen, h⟩ := by
  have hra := resolves_of_deref ha
  have hrb := resolves_of_deref hb
  rcases bind_cases h c d with ⟨x, v, hxv, hbind, hok⟩ | ⟨-, hfail⟩
  · obtain ⟨e, he, het, hle⟩ := hbind.term
    refine .inl ⟨⟨p, seen, h.point x v⟩, ?_, ?_⟩
    · have hends : h.Resolves a x ∧ h.Resolves b v ∨ h.Resolves b x ∧ h.Resolves a v := by
        rcases hxv with ⟨rfl, rfl⟩ | ⟨rfl, rfl⟩
        · exact .inl ⟨hra, hrb⟩
        · exact .inr ⟨hrb, hra⟩
      refine .bind hends hbind.unbound he het ?_
      cases e with
      | str s => exact .inr ⟨s, rfl⟩
      | functor f n => exact het.elim
      | ref t =>
        have hself : h.Resolves v v := by rcases hends with ⟨-, h'⟩ | ⟨-, h'⟩ <;> exact h'.end_self
        obtain ⟨_, hc', hs⟩ := hself.cell
        rw [he] at hc'
        exact .inl (hle (congrArg Cell.ref (hs t (Option.some.inj hc').symm)))
    · have hpair : h.bind c d = (.ok true, h.point x v) := Prod.ext hok hbind.eq
      simp [unifyWithin, hm, hpair]
  · -- one of the two is unbound and both are terms, so binding cannot fail
    exfalso
    have hbound : (h.bind c d).1 = .ok true := by
      unfold bind
      rw [isUnbound_of_some hy, isUnbound_of_some hz]
      by_cases h1 : y = .ref c <;> by_cases h2 : z = .ref d
      · by_cases hlt : c < d <;> simp [h1, h2, hlt, assign_of_term hy hyt, assign_of_term hz hzt]
      · simp [h1, h2, assign_of_term hz hzt]
      · simp [h1, h2, assign_of_term hy hyt]
      · exact absurd hu (by simp [h1, h2])
    rcases hfail with hf | ⟨e, -, hf⟩ <;> simp [hbound] at hf

/-- Two structures are left alone, taken apart, or do not match. -/
theorem proceeds_structures {s t : Address} (hst : Structures h a b s t)
    (hm : h.meeting a b = .ok (.structures s t)) : Proceeds fuel ⟨(a, b) :: p, seen, h⟩ := by
  by_cases hmem : unordered s t ∈ seen
  · exact .inl ⟨_, .again hst hmem, by simp [unifyWithin, hm, hmem]⟩
  · cases hs : h.functorAt s with
    | error e =>
      exact .inr ⟨_, .headless hst (.inl hs), by simp [unifyWithin, hm, hmem, commonArity, hs]⟩
    | ok x =>
      cases ht : h.functorAt t with
      | error e =>
        exact .inr ⟨_, .headless hst (.inr ht),
          by simp [unifyWithin, hm, hmem, commonArity, hs, ht]⟩
      | ok y =>
        by_cases hxy : x = y
        · subst hxy
          exact .inl ⟨_, .apart hst hmem (functorAt_eq_ok hs) (functorAt_eq_ok ht),
            by simp [unifyWithin, hm, hmem, commonArity, hs, ht]⟩
        · exact .inr ⟨_, .mismatch hst (functorAt_eq_ok hs) (functorAt_eq_ok ht) hxy,
            by simp [unifyWithin, hm, hmem, commonArity, hs, ht, hxy]⟩

/-- The loop takes one step at a time. -/
theorem proceeds (fuel : Nat) (a b : Address) (p : List (Address × Address)) (seen : Seen)
    (h : Heap) : Proceeds fuel ⟨(a, b) :: p, seen, h⟩ := by
  cases ha : h.deref a with
  | error e => exact .inr ⟨_, .lost (.inl ha), by simp [unifyWithin, meeting, ha]⟩
  | ok c =>
  cases hb : h.deref b with
  | error e => exact .inr ⟨_, .lost (.inr hb), by simp [unifyWithin, meeting, ha, hb]⟩
  | ok d =>
  have hra := resolves_of_deref ha
  have hrb := resolves_of_deref hb
  by_cases hcd : c = d
  · subst hcd
    exact .inl ⟨_, .same hra hrb, by simp [unifyWithin, meeting, ha, hb]⟩
  obtain ⟨y, hy, hys⟩ := hra.cell
  obtain ⟨z, hz, hzs⟩ := hrb.cell
  have hgy := get_of_some hy
  have hgz := get_of_some hz
  cases y with
  | functor f n =>
    exact .inr ⟨_, .functor (.inl hra) hy, by simp [unifyWithin, meeting, ha, hb, hcd, hgy, hgz]⟩
  | ref t =>
    cases z with
    | functor g m =>
      exact .inr ⟨_, .functor (.inr hrb) hz, by simp [unifyWithin, meeting, ha, hb, hcd, hgy, hgz]⟩
    | ref u =>
      exact proceeds_bind ha hb hcd hy hz trivial trivial (.inl (congrArg Cell.ref (hys t rfl)))
        (by simp [meeting, ha, hb, hcd, hgy, hgz])
    | str u =>
      exact proceeds_bind ha hb hcd hy hz trivial trivial (.inl (congrArg Cell.ref (hys t rfl)))
        (by simp [meeting, ha, hb, hcd, hgy, hgz])
  | str t =>
    cases z with
    | functor g m =>
      exact .inr ⟨_, .functor (.inr hrb) hz, by simp [unifyWithin, meeting, ha, hb, hcd, hgy, hgz]⟩
    | ref u =>
      exact proceeds_bind ha hb hcd hy hz trivial trivial (.inr (congrArg Cell.ref (hzs u rfl)))
        (by simp [meeting, ha, hb, hcd, hgy, hgz])
    | str u =>
      exact proceeds_structures ⟨⟨c, hra, hy⟩, ⟨d, hrb, hz⟩⟩
        (by simp [meeting, ha, hb, hcd, hgy, hgz])

/-- A unification is a run of steps to the worklist of its answer; without an answer it has used up
its fuel and is not done. -/
theorem unifyWithin_steps (fuel : Nat) (p : List (Address × Address)) (seen : Seen) (h : Heap) :
    ∃ n w, Steps n ⟨p, seen, h⟩ w ∧ (h.unifyWithin fuel p seen).2 = w.heap ∧
      ((∃ r, (h.unifyWithin fuel p seen).1 = some r ∧ Answers w r) ∨
        (h.unifyWithin fuel p seen).1 = none ∧ n = fuel ∧ w.pending ≠ []) := by
  induction fuel generalizing p seen h with
  | zero =>
    cases p with
    | nil => exact ⟨0, _, .refl _, rfl, .inl ⟨_, rfl, .done⟩⟩
    | cons ab p => exact ⟨0, _, .refl _, rfl, .inr ⟨rfl, rfl, by simp⟩⟩
  | succ fuel ih =>
    cases p with
    | nil => exact ⟨0, _, .refl _, rfl, .inl ⟨_, rfl, .done⟩⟩
    | cons ab p =>
      obtain ⟨a, b⟩ := ab
      rcases proceeds fuel a b p seen h with ⟨v, hv, heq⟩ | ⟨r, hr, heq⟩
      · obtain ⟨n, w, hs, hheap, hres⟩ := ih v.pending v.seen v.heap
        dsimp only at heq
        rw [heq]
        refine ⟨n + 1, w, .step hv hs, hheap, ?_⟩
        rcases hres with hres | ⟨hnone, rfl, hne⟩
        · exact .inl hres
        · exact .inr ⟨hnone, rfl, hne⟩
      · dsimp only at heq
        rw [heq]
        exact ⟨0, _, .refl _, rfl, .inl ⟨r, rfl, hr⟩⟩

theorem Steps.keeps {I : Worklist → Prop} (hI : ∀ {u v}, Step u v → I u → I v) {n : Nat}
    {u w : Worklist} (hs : Steps n u w) (hu : I u) : I w := by
  induction hs with
  | refl => exact hu
  | step hstep _ ih => exact ih (hI hstep hu)

theorem stackArguments_succ (s t : Address) (n : Nat) (p : List (Address × Address)) :
    stackArguments s t (n + 1) p = (s + (n + 1), t + (n + 1)) :: stackArguments s t n p := by
  simp [stackArguments, Address.offset]

theorem mem_stackArguments {s t : Address} {n : Nat} {q : Address × Address} :
    q ∈ stackArguments s t n p ↔
      q ∈ p ∨ ∃ i < n, q = (s + (i + 1), t + (i + 1)) := by
  induction n with
  | zero => simp [stackArguments]
  | succ n ih =>
    rw [stackArguments_succ, List.mem_cons, ih]
    constructor
    · rintro (rfl | hq | ⟨i, hi, rfl⟩)
      · exact .inr ⟨n, Nat.lt_succ_self n, rfl⟩
      · exact .inl hq
      · exact .inr ⟨i, Nat.lt_succ_of_lt hi, rfl⟩
    · rintro (hq | ⟨i, hi, rfl⟩)
      · exact .inr (.inl hq)
      · rcases Nat.lt_succ_iff_lt_or_eq.1 hi with hlt | rfl
        · exact .inr (.inr ⟨i, hlt, rfl⟩)
        · exact .inl rfl

theorem Step.grows {u v : Worklist} (hs : Step u v) : Grows u.heap v.heap := by
  cases hs with
  | same => exact .refl _
  | bind _ hx => exact grows_point hx _
  | again => exact .refl _
  | apart => exact .refl _

theorem Step.size_eq {u v : Worklist} (hs : Step u v) :
    v.heap.cells.size = u.heap.cells.size := by
  cases hs with
  | bind => simp
  | _ => rfl

theorem Steps.grows {n : Nat} {u v : Worklist} (hs : Steps n u v) : Grows u.heap v.heap :=
  hs.keeps (I := fun w => Grows u.heap w.heap) (fun hstep hg => hg.trans hstep.grows) (.refl _)

theorem Steps.size_eq {n : Nat} {u v : Worklist} (hs : Steps n u v) :
    v.heap.cells.size = u.heap.cells.size :=
  hs.keeps (I := fun w => w.heap.cells.size = u.heap.cells.size)
    (fun hstep hg => hstep.size_eq.trans hg) rfl

structure Sound (k : Address) (w : Worklist) : Prop where
  heap : w.heap.SoundFrom k
  pending : ∀ q ∈ w.pending, k ≤ q.1 ∧ k ≤ q.2

variable {k : Address}

theorem Step.sound {u v : Worklist} (hs : Step u v) (hu : Sound k u) : Sound k v := by
  obtain ⟨hheap, hpend⟩ := hu
  cases hs with
  | same => exact ⟨hheap, fun q hq => hpend q (List.mem_cons_of_mem _ hq)⟩
  | again => exact ⟨hheap, fun q hq => hpend q (List.mem_cons_of_mem _ hq)⟩
  | bind hends hx hv hterm ho =>
    refine ⟨?_, fun q hq => hpend q (List.mem_cons_of_mem _ hq)⟩
    obtain ⟨hka, hkb⟩ := hpend _ List.mem_cons_self
    rcases hends with ⟨-, hrv⟩ | ⟨-, hrv⟩
    · exact hheap.point hx (hheap.resolves_le hrv hkb) hv hterm ho
    · exact hheap.point hx (hheap.resolves_le hrv hka) hv hterm ho
  | apart hst _ _ _ =>
    refine ⟨hheap, fun q hq => ?_⟩
    obtain ⟨hka, hkb⟩ := hpend _ List.mem_cons_self
    obtain ⟨⟨c, hrc, hc⟩, ⟨d, hrd, hd⟩⟩ := hst
    have hks := (hheap.str_functor (hheap.resolves_le hrc hka) hc).1
    have hkt := (hheap.str_functor (hheap.resolves_le hrd hkb) hd).1
    rcases mem_stackArguments.1 hq with hq | ⟨i, -, rfl⟩
    · exact hpend q (List.mem_cons_of_mem _ hq)
    · exact ⟨Nat.le_trans hks (Nat.le_add_right _ _), Nat.le_trans hkt (Nat.le_add_right _ _)⟩

/-- On a sound heap a unification never meets a cycle of references or a structure without its
functor. -/
theorem Answers.not_isDisorder {w : Worklist} {r : Except Fault Bool} (hr : Answers w r)
    (hw : Sound k w) {e : Fault} (he : r = .error e) : ¬e.IsDisorder := by
  obtain ⟨hheap, hpend⟩ := hw
  cases hr with
  | done => cases he
  | mismatch => cases he
  | functor =>
    cases he
    simp
  | lost hlost =>
    cases he
    obtain ⟨hka, hkb⟩ := hpend _ List.mem_cons_self
    rcases hlost with hl | hl
    · simp [hheap.deref_error hka hl]
    · simp [hheap.deref_error hkb hl]
  | headless hst hfault =>
    obtain ⟨hka, hkb⟩ := hpend _ List.mem_cons_self
    obtain ⟨⟨c, hrc, hc⟩, ⟨d, hrd, hd⟩⟩ := hst
    obtain ⟨-, f, n, hf⟩ := hheap.str_functor (hheap.resolves_le hrc hka) hc
    obtain ⟨-, g, m, hg⟩ := hheap.str_functor (hheap.resolves_le hrd hkb) hd
    rcases hfault with hl | hl
    · simp [functorAt, get_of_some hf] at hl
    · simp [functorAt, get_of_some hg] at hl

end Worklist

/-- A unification as a run of steps. -/
theorem unify_steps (h : Heap) (a b : Address) :
    ∃ n w, Worklist.Steps n ⟨[(a, b)], ∅, h⟩ w ∧ (h.unify a b).2 = w.heap ∧
      (Worklist.Answers w (h.unify a b).1 ∨
        (h.unify a b).1 = .ok false ∧ n = h.pairBound ∧ w.pending ≠ []) := by
  obtain ⟨n, w, hs, hheap, hres⟩ := Worklist.unifyWithin_steps h.pairBound [(a, b)] ∅ h
  refine ⟨n, w, hs, ?_⟩
  rcases hu : h.unifyWithin h.pairBound [(a, b)] ∅ with ⟨_ | r, h'⟩
  · simp only [hu] at hheap hres
    rcases hres with ⟨r, hr, -⟩ | ⟨-, hn⟩
    · cases hr
    · exact ⟨by simp [unify, hu, hheap], .inr ⟨by simp [unify, hu], hn⟩⟩
  · simp only [hu] at hheap hres
    rcases hres with ⟨r', hr, hans⟩ | ⟨hnone, -⟩
    · cases hr
      exact ⟨by simp [unify, hu, hheap], .inl (by simpa [unify, hu] using hans)⟩
    · cases hnone

theorem grows_unify (h : Heap) (a b : Address) : Grows h (h.unify a b).2 := by
  obtain ⟨n, w, hs, hheap, -⟩ := h.unify_steps a b
  exact hheap ▸ hs.grows

theorem unify_size (h : Heap) (a b : Address) : (h.unify a b).2.cells.size = h.cells.size := by
  obtain ⟨n, w, hs, hheap, -⟩ := h.unify_steps a b
  exact hheap ▸ hs.size_eq

namespace SoundFrom

variable {k : Address} {h : Heap}

theorem unify (hs : h.SoundFrom k) {a b : Address} (ha : k ≤ a) (hb : k ≤ b) :
    (h.unify a b).2.SoundFrom k := by
  obtain ⟨n, w, hrun, hheap, -⟩ := h.unify_steps a b
  have hw : Worklist.Sound k w := hrun.keeps Worklist.Step.sound ⟨hs, by simpa using ⟨ha, hb⟩⟩
  exact hheap ▸ hw.heap

theorem unify_error (hs : h.SoundFrom k) {a b : Address} (ha : k ≤ a) (hb : k ≤ b) {e : Fault}
    (he : (h.unify a b).1 = .error e) : ¬e.IsDisorder := by
  obtain ⟨n, w, hrun, -, hres⟩ := h.unify_steps a b
  have hw : Worklist.Sound k w := hrun.keeps Worklist.Step.sound ⟨hs, by simpa using ⟨ha, hb⟩⟩
  rcases hres with hans | ⟨hfalse, -⟩
  · exact hans.not_isDisorder hw he
  · simp [hfalse] at he

end SoundFrom
end TermMachine.Heap
