import TermMachine.Proofs.Heap.Construction

/-! # The equivalence that a unification computes

To make two addresses equal is to make equal whatever an equivalence relates that is closed under
following references and under taking structures apart. A unification answers no exactly when the
least such equivalence relates two structures with different functors. It binds variables to
addresses that are related to them and does nothing else, and when it answers yes the two addresses
stand for the same tree. The tree may be infinite, so sameness is a matter of a relation on
addresses that agrees with the cells, and not of reading the terms.
-/
namespace TermMachine.Heap

open Worklist

/-- The two addresses come to the same unbound cell, or to structures that differ at most in
arguments that are related. -/
inductive Matches (h : Heap) (R : Address → Address → Prop) : Address → Address → Prop
  | unbound {x y c} : h.Resolves x c → h.Resolves y c → h.cells[c]? = some (.ref c) →
      Matches h R x y
  | structures {x y s t f} {n : Arity} : Structures h x y s t →
      h.cells[s]? = some (.functor f n) → h.cells[t]? = some (.functor f n) →
      (∀ i < n.val, R (s + (i + 1)) (t + (i + 1))) → Matches h R x y

/-- The two addresses stand for the same tree, which may be infinite. -/
def SameTree (h : Heap) (x y : Address) : Prop :=
  ∃ R : Address → Address → Prop, (∀ x y, R x y → h.Matches R x y) ∧ R x y

/-- What has to be made equal with `a` and `b`. -/
inductive Equated (h : Heap) (a b : Address) : Address → Address → Prop
  | pair : Equated h a b a b
  | deref {x y} : h.deref x = .ok y → Equated h a b x y
  | argument {c d s t f} {n : Arity} {i : Nat} : Equated h a b c d →
      h.cells[c]? = some (.str s) → h.cells[d]? = some (.str t) →
      h.cells[s]? = some (.functor f n) → h.cells[t]? = some (.functor f n) → i < n.val →
      Equated h a b (s + (i + 1)) (t + (i + 1))
  | refl (x) : Equated h a b x x
  | symm {x y} : Equated h a b x y → Equated h a b y x
  | trans {x y z} : Equated h a b x y → Equated h a b y z → Equated h a b x z

/-- Two structures with different functors would have to be made equal. -/
def Clashes (h : Heap) (a b : Address) : Prop :=
  ∃ c d s t f g, ∃ n m : Arity, h.Equated a b c d ∧
    h.cells[c]? = some (.str s) ∧ h.cells[d]? = some (.str t) ∧
    h.cells[s]? = some (.functor f n) ∧ h.cells[t]? = some (.functor g m) ∧ (f, n) ≠ (g, m)

variable {h h' : Heap} {a b x y z : Address} {R S : Address → Address → Prop}

theorem Matches.symm (hm : h.Matches R x y) : h.Matches (fun x y => R y x) y x := by
  cases hm with
  | unbound hx hy hc => exact .unbound hy hx hc
  | structures hst hs ht hargs => exact .structures ⟨hst.right, hst.left⟩ ht hs hargs

theorem Matches.trans (hxy : h.Matches R x y) (hyz : h.Matches S y z) :
    h.Matches (fun x z => ∃ y, R x y ∧ S y z) x z := by
  -- the cells at the end of `y` are the same for both
  have hcells : ∀ {c d : Address} {C D : Cell}, h.Resolves y c → h.cells[c]? = some C →
      h.Resolves y d → h.cells[d]? = some D → C = D :=
    fun hrc hc hrd hd => hrc.cell_unique hrd hc hd
  cases hxy with
  | unbound hx hy hc =>
    cases hyz with
    | unbound hy' hz hc' => exact .unbound hx (hy.unique hy' ▸ hz) hc
    | structures hst =>
      obtain ⟨d, hd, hstr⟩ := hst.left
      cases hcells hy hc hd hstr
  | structures hst hs ht hargs =>
    obtain ⟨c, hc, hstr⟩ := hst.right
    cases hyz with
    | unbound hy' hz hc' => cases hcells hc hstr hy' hc'
    | structures hst' hs' ht' hargs' =>
      obtain ⟨d, hd, hstr'⟩ := hst'.left
      cases hcells hc hstr hd hstr'
      rw [ht, Option.some.injEq, Cell.functor.injEq] at hs'
      obtain ⟨rfl, rfl⟩ := hs'
      exact .structures ⟨hst.left, hst'.right⟩ hs ht' fun i hi => ⟨_, hargs i hi, hargs' i hi⟩

theorem Matches.mono (hRS : ∀ x y, R x y → S x y) (hm : h.Matches R x y) : h.Matches S x y := by
  cases hm with
  | unbound hx hy hc => exact .unbound hx hy hc
  | structures hst hs ht hargs => exact .structures hst hs ht fun i hi => hRS _ _ (hargs i hi)

namespace SameTree

theorem step (hxy : h.SameTree x y) : h.Matches h.SameTree x y := by
  obtain ⟨R, hR, hr⟩ := hxy
  exact (hR x y hr).mono fun _ _ hr' => ⟨R, hR, hr'⟩

theorem symm (hxy : h.SameTree x y) : h.SameTree y x :=
  ⟨fun x y => h.SameTree y x, fun _ _ hr => hr.step.symm, hxy⟩

theorem trans (hxy : h.SameTree x y) (hyz : h.SameTree y z) : h.SameTree x z :=
  ⟨fun x z => ∃ y, h.SameTree x y ∧ h.SameTree y z,
    fun _ _ ⟨_, hr, hr'⟩ => hr.step.trans hr'.step, y, hxy, hyz⟩

/-- Two structures that stand for the same tree have the same functor, and arguments that do. -/
theorem arguments (hxy : h.SameTree x y) {s t : Address} (hx : h.cells[x]? = some (.str s))
    (hy : h.cells[y]? = some (.str t)) : ∃ f, ∃ n : Arity, h.cells[s]? = some (.functor f n) ∧
      h.cells[t]? = some (.functor f n) ∧
      ∀ i < n.val, h.SameTree (s + (i + 1)) (t + (i + 1)) := by
  have hrx : h.Resolves x x := .stop hx (by simp)
  have hry : h.Resolves y y := .stop hy (by simp)
  cases hxy.step with
  | unbound hc _ hcell => cases hrx.cell_unique hc hx hcell
  | structures hst hs ht hargs =>
    obtain ⟨⟨c, hc, hcs⟩, ⟨d, hd, hdt⟩⟩ := hst
    cases hrx.cell_unique hc hx hcs
    cases hry.cell_unique hd hy hdt
    exact ⟨_, _, hs, ht, hargs⟩

end SameTree

theorem followsReferences_deref {k : Address} (hs : h.SoundFrom k) :
    FollowsReferences k h h.deref := by
  intro x y hk hc
  by_cases hxy : y = x
  · rw [hxy]
  · obtain ⟨hky, d, hd, -⟩ := hs.ref_term hk hc
    obtain ⟨z, hz, hr⟩ := hs.deref_ok hky (lt_size_of_getElem? hd)
    rw [hz, deref_eq_ok_iff.2 (.follow hc hxy hr)]

structure Equates (h : Heap) (a b : Address) (w : Worklist) : Prop where
  grows : Grows h w.heap
  size_eq : w.heap.cells.size = h.cells.size
  ref : ∀ {x y : Address}, w.heap.cells[x]? = some (.ref y) → h.Equated a b x y
  pending : ∀ q ∈ w.pending, h.Equated a b q.1 q.2

theorem Equated.of_ref (hs : h.SoundFrom 0) (hc : h.cells[x]? = some (.ref y)) :
    h.Equated a b x y := by
  obtain ⟨-, d, hd, -⟩ := hs.ref_term (Nat.zero_le _) hc
  obtain ⟨z, hz, -⟩ := hs.deref_ok (Nat.zero_le _) (lt_size_of_getElem? hd)
  have hx : h.deref x = .ok z := (followsReferences_deref hs (Nat.zero_le _) hc).trans hz
  exact (Equated.deref hx).trans (Equated.deref hz).symm

namespace Equates

variable {u w : Worklist}

theorem start (hs : h.SoundFrom 0) (a b : Address) : h.Equates a b ⟨[(a, b)], ∅, h⟩ where
  grows := .refl h
  size_eq := rfl
  ref := .of_ref hs
  pending := by simpa using Equated.pair

theorem resolves (hw : h.Equates a b w) (hr : w.heap.Resolves x y) : h.Equated a b x y := by
  induction hr with
  | stop => exact .refl _
  | follow hc _ _ ih => exact (hw.ref hc).trans ih

theorem structures (hw : h.Equates a b w) {s t : Address} (hxy : h.Equated a b x y)
    (hst : Structures w.heap x y s t) : ∃ c d, h.Equated a b c d ∧
      h.cells[c]? = some (.str s) ∧ h.cells[d]? = some (.str t) := by
  obtain ⟨⟨c, hrc, hc⟩, ⟨d, hrd, hd⟩⟩ := hst
  have hcd : h.Equated a b c d := (hw.resolves hrc).symm.trans (hxy.trans (hw.resolves hrd))
  exact ⟨c, d, hcd, hw.grows.cell_of_not_ref hw.size_eq hc (by simp),
    hw.grows.cell_of_not_ref hw.size_eq hd (by simp)⟩

theorem functor (hw : h.Equates a b w) {s : Address} {f : FunctorId} {n : Arity}
    (hs : w.heap.cells[s]? = some (.functor f n)) : h.cells[s]? = some (.functor f n) :=
  hw.grows.cell_of_not_ref hw.size_eq hs (by simp)

theorem step (hstep : Step u w) (hu : h.Equates a b u) : h.Equates a b w where
  grows := hu.grows.trans hstep.grows
  size_eq := hstep.size_eq.trans hu.size_eq
  ref := by
    intro x y hc
    cases hstep with
    | same => exact hu.ref hc
    | again => exact hu.ref hc
    | apart => exact hu.ref hc
    | @bind a' b' z v _ _ _ _ hends hz =>
      rw [point_cell hz] at hc
      by_cases hx : x = z
      · rw [if_pos hx, Option.some.injEq, Cell.ref.injEq] at hc
        subst hx hc
        have hpair : h.Equated a b a' b' := hu.pending _ List.mem_cons_self
        rcases hends with ⟨hrx, hrv⟩ | ⟨hrx, hrv⟩
        · exact (hu.resolves hrx).symm.trans (hpair.trans (hu.resolves hrv))
        · exact (hu.resolves hrx).symm.trans (hpair.symm.trans (hu.resolves hrv))
      · rw [if_neg hx] at hc
        exact hu.ref hc
  pending := by
    obtain ⟨_ | ⟨⟨a', b'⟩, p⟩, seen, h'⟩ := u
    · cases hstep
    have hpair : h.Equated a b a' b' := hu.pending _ List.mem_cons_self
    have hrest : ∀ q ∈ p, h.Equated a b q.1 q.2 :=
      fun q hq => hu.pending q (List.mem_cons_of_mem _ hq)
    cases hstep with
    | same => exact hrest
    | again => exact hrest
    | bind => exact hrest
    | apart hst _ hs ht =>
      intro q hq
      rcases mem_stackArguments.1 hq with hq | ⟨i, hi, rfl⟩
      · exact hrest q hq
      · obtain ⟨c, d, hcd, hc, hd⟩ := hu.structures hpair hst
        exact .argument hcd hc hd (hu.functor hs) (hu.functor ht) hi

theorem clashes (hw : h.Equates a b w) (hans : Answers w (.ok false)) : h.Clashes a b := by
  cases hans with
  | mismatch hst hs ht hne =>
    obtain ⟨c, d, hcd, hc, hd⟩ := hw.structures (hw.pending _ List.mem_cons_self) hst
    exact ⟨c, d, _, _, _, _, _, _, hcd, hc, hd, hw.functor hs, hw.functor ht, hne⟩

end Equates

/-- When no pair is left, whatever is settled stands for the same tree. -/
theorem sameTree_of_settled {w : Worklist} (hw : w.heap.Complete 0 0)
    (happ : TakenApart 0 w.heap.deref w) (hp : w.pending = []) (hx : HasTerm 0 w.heap x)
    (hy : HasTerm 0 w.heap y) (hxy : Settled 0 w.heap.deref w x y) : w.heap.SameTree x y := by
  refine ⟨fun x y => HasTerm 0 w.heap x ∧ HasTerm 0 w.heap y ∧ Settled 0 w.heap.deref w x y,
    ?_, hx, hy, hxy⟩
  rintro x y ⟨hx, hy, hset⟩
  obtain ⟨e, he, hrx, -, C, hC, hterm⟩ := hw.deref_term hx
  obtain ⟨e', he', hry, -⟩ := hw.deref_term hy
  rcases hset with heq | ⟨c, d, s, t, ⟨-, hc, hxc⟩, ⟨-, hd, hyd⟩, hst⟩
  · -- both come to the cell `C` at `e`, and its arguments are the same
    rw [he, he', Except.ok.injEq] at heq
    subst heq
    cases C with
    | functor f n => exact hterm.elim
    | ref t =>
      obtain ⟨D, hD, hself⟩ := hrx.cell
      rw [hC, Option.some.injEq] at hD
      rw [hself t hD.symm] at hC
      exact .unbound hrx hry hC
    | str s =>
      obtain ⟨-, f, n, hf⟩ := hw.str_functor (Nat.zero_le _) hC
      refine .structures ⟨⟨e, hrx, hC⟩, ⟨e, hry, hC⟩⟩ hf hf fun i hi => ?_
      have harg := hw.arguments_hasTerm (Nat.zero_le _) hf hi
      exact ⟨harg, harg, .inl rfl⟩
  · obtain ⟨f, n, hs, ht, hargs⟩ := happ s t hst
    have hrc : w.heap.Resolves x c :=
      deref_eq_ok_iff.1 (hxc.trans (deref_eq_ok_iff.2 (.stop hc (by simp))))
    have hrd : w.heap.Resolves y d :=
      deref_eq_ok_iff.1 (hyd.trans (deref_eq_ok_iff.2 (.stop hd (by simp))))
    refine .structures ⟨⟨c, hrc, hc⟩, ⟨d, hrd, hd⟩⟩ hs ht fun i hi => ?_
    have howed := hargs i hi
    rw [Owed, hp] at howed
    exact ⟨hw.arguments_hasTerm (Nat.zero_le _) hs hi, hw.arguments_hasTerm (Nat.zero_le _) ht hi,
      by simpa using howed⟩

/-- On a later heap where `a` and `b` stand for the same tree, so do all addresses that are
equated, as soon as following references of the first heap does not change the tree. -/
theorem Equated.sameTree (hg : Grows h h') (hab : h'.SameTree a b)
    (hderef : ∀ {x y : Address}, HasTerm 0 h x → h.Resolves x y → h'.SameTree x y)
    (hxy : h.Equated a b x y) : x = y ∨ h'.SameTree x y := by
  induction hxy with
  | pair => exact .inr hab
  | refl x => exact .inl rfl
  | deref hxy =>
    have hr := deref_eq_ok_iff.1 hxy
    cases hr with
    | stop => exact .inl rfl
    | follow hc hne hrest =>
      exact .inr (hderef ⟨Nat.zero_le _, _, hc, trivial⟩ (.follow hc hne hrest))
  | symm _ ih => exact ih.imp Eq.symm SameTree.symm
  | trans _ _ ih ih' =>
    rcases ih with rfl | hxy
    · exact ih'
    · rcases ih' with rfl | hyz
      · exact .inr hxy
      · exact .inr (hxy.trans hyz)
  | argument _ hc hd hs _ hi ih =>
    rcases ih with rfl | hcd
    · cases hc.symm.trans hd
      exact .inl rfl
    · obtain ⟨f, n, hs', -, hargs⟩ := hcd.arguments (hg.str hc) (hg.str hd)
      cases (hg.functor hs).symm.trans hs'
      exact .inr (hargs _ hi)

/-- When a unification answers yes, all that it had to make equal stands for the same tree. -/
theorem Complete.sameTree_of_unify (hw : h.Complete 0 0) (ha : HasTerm 0 h a) (hb : HasTerm 0 h b)
    (htrue : (h.unify a b).1 = .ok true) :
    (h.unify a b).2.SameTree a b ∧
      ∀ x y, h.Equated a b x y → x = y ∨ (h.unify a b).2.SameTree x y := by
  obtain ⟨n, w, hs, hheap, hans⟩ := h.unify_answers a b
  rw [htrue] at hans
  rw [hheap]
  have hstart : Worklist.Complete 0 ⟨[(a, b)], ∅, h⟩ := ⟨hw, by simpa using ⟨ha, hb⟩⟩
  have hend : Worklist.Complete 0 w := hs.keeps Step.complete hstart
  have hdone : w.pending = [] := by
    rcases hans.eq_ok hend with ⟨-, hp⟩ | hfalse
    · exact hp
    · cases hfalse
  have hends : FollowsReferences 0 w.heap w.heap.deref :=
    followsReferences_deref hend.heap.toSoundFrom
  obtain ⟨happ, howed⟩ := hs.owed hstart hends (fun s t hst => by simp at hst)
    (.inl List.mem_cons_self)
  rw [Owed, hdone] at howed
  have hab : w.heap.SameTree a b := sameTree_of_settled hend.heap happ hdone
    (ha.grows hs.grows) (hb.grows hs.grows) (by simpa using howed)
  refine ⟨hab, fun x y hxy => hxy.sameTree hs.grows hab fun {x y} hx hr => ?_⟩
  -- both ends of a chain come to the same cell later on
  have hy : HasTerm 0 h y := by
    obtain ⟨hk, c, hc, hterm⟩ := hx
    exact ⟨Nat.zero_le _, hw.resolves_term hr hk hc hterm⟩
  exact sameTree_of_settled hend.heap happ hdone (hx.grows hs.grows) (hy.grows hs.grows)
    (.inl ((hends.of_grows hs.grows).resolves hw.toSoundFrom hr (Nat.zero_le _)))

/-- On a heap that is built term by term, cyclic or not, a unification of two terms answers no
exactly when a clash is among what has to be made equal, and yes otherwise. Only unbound references
are changed, each to refer to an address that it has to be made equal with; and when the answer is
yes the two terms stand for the same tree. -/
theorem unify_iff_not_clashes {capacity : Nat} (hbuilt : h.Built capacity) (ha : HasTerm 0 h a)
    (hb : HasTerm 0 h b) :
    ((h.unify a b).1 = .ok true ↔ ¬h.Clashes a b) ∧
    ((h.unify a b).1 = .ok false ↔ h.Clashes a b) ∧
    (∀ x, (h.unify a b).2.cells[x]? = h.cells[x]? ∨
      h.cells[x]? = some (.ref x) ∧
        ∃ y, (h.unify a b).2.cells[x]? = some (.ref y) ∧ h.Equated a b x y) ∧
    ((h.unify a b).1 = .ok true → (h.unify a b).2.SameTree a b) := by
  have hw := hbuilt.complete
  obtain ⟨n, w, hs, hheap, hans⟩ := h.unify_answers a b
  have hstart : Worklist.Complete 0 ⟨[(a, b)], ∅, h⟩ := ⟨hw, by simpa using ⟨ha, hb⟩⟩
  have hend : Worklist.Complete 0 w := hs.keeps Step.complete hstart
  have hequates : h.Equates a b w := hs.keeps Equates.step (.start hw.toSoundFrom a b)
  have htrue : (h.unify a b).1 = .ok true → ¬h.Clashes a b := by
    rintro hyes ⟨c, d, s, t, f, g, n, m, hcd, hc, hd, hf, hg, hne⟩
    rcases (hw.sameTree_of_unify ha hb hyes).2 c d hcd with rfl | hsame
    · cases hc.symm.trans hd
      cases hf.symm.trans hg
      exact hne rfl
    · have hgrow := h.grows_unify a b
      obtain ⟨_, _, hs, ht, -⟩ := hsame.arguments (hgrow.str hc) (hgrow.str hd)
      cases (hgrow.functor hf).symm.trans hs
      cases (hgrow.functor hg).symm.trans ht
      exact hne rfl
  have hfalse : (h.unify a b).1 = .ok false → h.Clashes a b :=
    fun hno => hequates.clashes (hno ▸ hans)
  have hanswer : (h.unify a b).1 = .ok true ∨ (h.unify a b).1 = .ok false := by
    rcases hans.eq_ok hend with ⟨hyes, -⟩ | hno
    · exact .inl hyes
    · exact .inr hno
  refine ⟨⟨htrue, fun hnot => ?_⟩, ⟨hfalse, fun hclash => ?_⟩, fun x => ?_, fun hyes => ?_⟩
  · exact hanswer.resolve_right fun hno => hnot (hfalse hno)
  · exact hanswer.resolve_left fun hyes => htrue hyes hclash
  · rw [hheap]
    cases hx : h.cells[x]? with
    | none =>
      have hsize : w.heap.cells.size ≤ x := hequates.size_eq ▸ Array.getElem?_eq_none_iff.1 hx
      exact .inl (Array.getElem?_eq_none hsize)
    | some c =>
      rcases hequates.grows.cell hx with hsame | ⟨rfl, y, hy⟩
      · exact .inl hsame
      · exact .inr ⟨rfl, y, hy, hequates.ref hy⟩
  · exact (hw.sameTree_of_unify ha hb hyes).1

/-- Two cyclic structures: twice a variable is made equal to a structure that it is the only argument
of. -/
theorem unify_cycles :
    let first := ((pushCopy 0 (pushStructure 0 1 (empty 8).pushVariable.2).2).2.unify 0 1).2
    let both := ((pushCopy 4 (pushStructure 0 1 first.pushVariable.2).2).2.unify 4 5).2
    both.Built 8 ∧ HasTerm 0 both 0 ∧ HasTerm 0 both 4 ∧
      ((both.unify 0 4).1 = .ok true ↔ ¬both.Clashes 0 4) ∧
      ((both.unify 0 4).1 = .ok false ↔ both.Clashes 0 4) ∧
      (∀ x, (both.unify 0 4).2.cells[x]? = both.cells[x]? ∨
        both.cells[x]? = some (.ref x) ∧
          ∃ y, (both.unify 0 4).2.cells[x]? = some (.ref y) ∧ both.Equated 0 4 x y) ∧
      ((both.unify 0 4).1 = .ok true → (both.unify 0 4).2.SameTree 0 4) := by
  intro first both
  have hfirst : first.Built 8 :=
    .unify 0 1 (.newStructure (f := 0) (n := 1) (.newVariable .empty) rfl (.copy (b := 0) rfl .nil))
  have hboth : both.Built 8 :=
    .unify 4 5 (.newStructure (f := 0) (n := 1) (.newVariable hfirst) rfl (.copy (b := 4) rfl .nil))
  have ha : HasTerm 0 both 0 := ⟨Nat.le_refl 0, .ref 1, by decide +kernel, trivial⟩
  have hb : HasTerm 0 both 4 := ⟨Nat.zero_le 4, .ref 5, by decide +kernel, trivial⟩
  exact ⟨hboth, ha, hb, unify_iff_not_clashes hboth ha hb⟩

end TermMachine.Heap
