import TermMachine.Proofs.Functor
import TermMachine.Proofs.Heap.Complete
import TermMachine.Proofs.Tree.Domain

/-! # Well-built heaps and their models

A heap is well built from an address on when it is complete there and its functors are in the table.
A model gives every address a value in a domain of trees that agrees with the cells. What an
operation does to a heap is said by what it does to the models.
-/
namespace TermMachine.Heap

structure WellBuilt (table : Functor.Table) (k : Address) (left : Nat) (h : Heap) : Prop
    extends h.Complete k left where
  known : ∀ {a : Address} {f : FunctorId} {n : Arity}, k ≤ a →
    h.cells[a]? = some (.functor f n) → ∃ name, table.lookup f = some ⟨name, n⟩

/-- Values of addresses that agree with the references from `k` on. -/
def FollowsReferences {D : Type} (k : Address) (h : Heap) (v : Address → D) : Prop :=
  ∀ ⦃a b : Address⦄, k ≤ a → h.cells[a]? = some (.ref b) → v a = v b

/-- Values of addresses that agree with the cells from `k` on. -/
structure Models {D : Type} [TreeDomain D] (table : Functor.Table) (k : Address) (h : Heap)
    (v : Address → D) : Prop where
  ref : ∀ {a b : Address}, k ≤ a → h.cells[a]? = some (.ref b) → v a = v b
  str : ∀ {a t : Address} {f : FunctorId} {n : Arity} {name : String}, k ≤ a →
    h.cells[a]? = some (.str t) → h.cells[t]? = some (.functor f n) →
    table.lookup f = some ⟨name, n⟩ → v a = node name ((argumentAddresses t n.val).map v)

variable {table : Functor.Table} {k : Address} {left : Nat} {h h' : Heap}

namespace WellBuilt

theorem structure_cell (hw : h.WellBuilt table k left) {a t : Address} (hk : k ≤ a)
    (hc : h.cells[a]? = some (.str t)) : k ≤ t ∧ ∃ f n name,
      h.cells[t]? = some (.functor f n) ∧ table.lookup f = some ⟨name, n⟩ := by
  obtain ⟨hkt, f, n, hf⟩ := hw.str_functor hk hc
  obtain ⟨name, hname⟩ := hw.known hkt hf
  exact ⟨hkt, f, n, name, hf, hname⟩

end WellBuilt

theorem wellBuilt_top (table : Functor.Table) (left : Nat) (h : Heap) :
    h.WellBuilt table h.cells.size left := by
  have hnone : ∀ {a : Address} {c : Cell}, h.cells.size ≤ a → h.cells[a]? ≠ some c :=
    fun hk hc => absurd (lt_size_of_getElem? hc) (Nat.not_lt.2 hk)
  exact ⟨⟨⟨fun hk hc => absurd hc (hnone hk), fun hk hc => absurd hc (hnone hk),
    fun hk hc => absurd hc (hnone hk)⟩, fun hk hc => absurd hc (hnone hk)⟩,
    fun hk hc => absurd hc (hnone hk)⟩

section References

variable {D : Type} {v : Address → D}

theorem FollowsReferences.resolves (hv : FollowsReferences k h v) (hs : h.SoundFrom k)
    {a b : Address} (hr : h.Resolves a b) (hk : k ≤ a) : v a = v b := by
  induction hr with
  | stop => rfl
  | follow hc _ _ ih => exact (hv hk hc).trans (ih (hs.ref_term hk hc).1)

theorem FollowsReferences.of_grows (hv : FollowsReferences k h' v) (hg : Grows h h') :
    FollowsReferences k h v := by
  intro a b hk hc
  rcases hg.cell hc with hc' | ⟨hself, -⟩
  · exact hv hk hc'
  · cases hself
    rfl

end References

section Models

variable {D : Type} [TreeDomain D] {v : Address → D}

theorem models_top (table : Functor.Table) (h : Heap) (v : Address → D) :
    h.Models table h.cells.size v :=
  ⟨fun hk hc => absurd (lt_size_of_getElem? hc) (Nat.not_lt.2 hk),
    fun hk hc => absurd (lt_size_of_getElem? hc) (Nat.not_lt.2 hk)⟩

theorem Models.followsReferences (hv : h.Models table k v) : FollowsReferences k h v :=
  fun _ _ hk hc => hv.ref hk hc

theorem Models.resolves (hv : h.Models table k v) (hs : h.SoundFrom k) {a b : Address}
    (hr : h.Resolves a b) (hk : k ≤ a) : v a = v b := hv.followsReferences.resolves hs hr hk

theorem Models.of_grows (hg : Grows h h') (hv : h'.Models table k v) : h.Models table k v where
  ref hk hc := hv.followsReferences.of_grows hg hk hc
  str hk hc hf hl := hv.str hk (hg.str hc) (hg.functor hf) hl

/-- Two structures with equal values have the same functor and equal arguments. -/
theorem Models.str_inj (hv : h.Models table k v) (hw : h.WellBuilt table k left)
    {a b s t : Address} {f g : FunctorId} {n m : Arity} (hka : k ≤ a) (hkb : k ≤ b)
    (ha : h.cells[a]? = some (.str s)) (hb : h.cells[b]? = some (.str t))
    (hs : h.cells[s]? = some (.functor f n)) (ht : h.cells[t]? = some (.functor g m))
    (hab : v a = v b) :
    (f, n) = (g, m) ∧ (argumentAddresses s n.val).map v = (argumentAddresses t m.val).map v := by
  obtain ⟨fname, hf⟩ := hw.known (hw.str_functor hka ha).1 hs
  obtain ⟨gname, hg⟩ := hw.known (hw.str_functor hkb hb).1 ht
  rw [hv.str hka ha hs hf, hv.str hkb hb ht hg] at hab
  obtain ⟨hname, hargs⟩ := TreeDomain.node_inj hab
  have hnm : n = m := by
    have hlen := congrArg List.length hargs
    simpa [argumentAddresses, Fin.ext_iff] using hlen
  subst hname hnm
  exact ⟨by rw [Functor.Table.lookup_inj hf hg], hargs⟩

/-- Only the addresses of the heap matter to its models. -/
theorem Models.congr (hw : h.WellBuilt table k 0) {v' : Address → D}
    (hv : h.Models table k v) (heq : ∀ a < h.cells.size, v' a = v a) : h.Models table k v' where
  ref hk hc := by
    obtain ⟨-, d, hd, -⟩ := hw.ref_term hk hc
    rw [heq _ (lt_size_of_getElem? hc), heq _ (lt_size_of_getElem? hd)]
    exact hv.ref hk hc
  str := by
    intro a t f n name hk hc hf hl
    rw [heq _ (lt_size_of_getElem? hc), hv.str hk hc hf hl]
    refine congrArg (node name) (List.map_congr_left fun b hb => ?_)
    have hkt := (hw.str_functor hk hc).1
    exact (heq b (hw.hasTerm_of_mem hkt hf hb).lt_size).symm

end Models
namespace WellBuilt

variable {c : Cell}

theorem append_term (hw : h.WellBuilt table k left) (hs : (h.append c).SoundFrom k)
    (ht : c.IsTerm) : (h.append c).WellBuilt table k (left - 1) where
  toComplete := hw.toComplete.append_term hs ht
  known := by
    intro a f n hk hc
    rw [append_cell] at hc
    by_cases ha : a = h.cells.size
    · rw [if_pos ha, Option.some.injEq] at hc
      subst hc
      exact ht.elim
    · exact hw.known hk (by simpa [ha] using hc)

theorem append_variable (hw : h.WellBuilt table k left) (hk : k ≤ h.cells.size) :
    (h.append (.ref h.cells.size)).WellBuilt table k (left - 1) :=
  hw.append_term (hw.toSoundFrom.append_variable hk) trivial

theorem append_copy (hw : h.WellBuilt table k left) {a : Address} (hk : k ≤ a)
    (hc : h.cells[a]? = some c) (ht : c.IsTerm) :
    (h.append c).WellBuilt table k (left - 1) :=
  hw.append_term (hw.toSoundFrom.append_copy hk hc) ht

theorem appendStructure (hw : h.WellBuilt table k 0) (hk : k ≤ h.cells.size) {f : FunctorId}
    {n : Arity} {name : String} (hf : table.lookup f = some ⟨name, n⟩) :
    (h.appendStructure f n).WellBuilt table k n.val where
  toComplete := hw.toComplete.appendStructure hk f n
  known := by
    intro a g m hka hc
    rw [appendStructure_cell] at hc
    by_cases h1 : a = h.cells.size + 1
    · rw [if_pos h1, Option.some.injEq, Cell.functor.injEq] at hc
      obtain ⟨rfl, rfl⟩ := hc
      exact ⟨name, hf⟩
    · by_cases h0 : a = h.cells.size
      · simp [h0] at hc
      · exact hw.known hka (by simpa [h1, h0] using hc)

theorem known_point (hw : h.WellBuilt table k left) {x w a : Address} {f : FunctorId} {n : Arity}
    (hx : h.cells[x]? = some (.ref x)) (hk : k ≤ a)
    (hf : (h.point x w).cells[a]? = some (.functor f n)) :
    ∃ name, table.lookup f = some ⟨name, n⟩ := by
  rw [point_cell hx] at hf
  by_cases ha : a = x
  · simp [ha] at hf
  · exact hw.known hk (by simpa [ha] using hf)

theorem point (hw : h.WellBuilt table k left) {x w : Address}
    (hx : h.cells[x]? = some (.ref x)) (hk : k ≤ w) (hc : h.cells[w]? = some c) (ht : c.IsTerm)
    (ho : w ≤ x ∨ ∃ s, c = .str s) : (h.point x w).WellBuilt table k left where
  toComplete := hw.toComplete.point hx hk hc ht ho
  known := hw.known_point hx

end WellBuilt

section Equations

variable {D : Type} [TreeDomain D] {v : Address → D}

/-- An unbound reference adds no equation. -/
theorem models_append_variable :
    (h.append (.ref h.cells.size)).Models table k v ↔ h.Models table k v := by
  refine ⟨.of_grows (grows_append h _), fun hv => ⟨?_, ?_⟩⟩
  · intro a b hk hc
    rw [append_cell] at hc
    by_cases ha : a = h.cells.size
    · rw [if_pos ha, Option.some.injEq, Cell.ref.injEq] at hc
      rw [ha, hc]
    · exact hv.ref hk (by simpa [ha] using hc)
  · intro a t f n name hk hc hf hl
    rw [append_cell] at hc hf
    by_cases ha : a = h.cells.size
    · simp [ha] at hc
    · by_cases ht : t = h.cells.size
      · simp [ht] at hf
      · exact hv.str hk (by simpa [ha] using hc) (by simpa [ht] using hf) hl

/-- A copy of a term equals the term. -/
theorem models_append_copy (hw : h.WellBuilt table k left) {a : Address} {c : Cell} (hk : k ≤ a)
    (hc : h.cells[a]? = some c) (ht : c.IsTerm) :
    (h.append c).Models table k v ↔ h.Models table k v ∧ v h.cells.size = v a := by
  have htop := h.append_cell_top c
  have hsize : k ≤ h.cells.size := Nat.le_trans hk (Nat.le_of_lt (lt_size_of_getElem? hc))
  constructor
  · intro hv
    have hold := Models.of_grows (grows_append h c) hv
    refine ⟨hold, ?_⟩
    cases c with
    | ref b => rw [hv.ref hsize htop, hold.ref hk hc]
    | str t =>
      obtain ⟨-, f, n, name, hf, hl⟩ := hw.structure_cell hk hc
      rw [hv.str hsize htop (append_cell_of_some hf _) hl, hold.str hk hc hf hl]
    | functor f n => exact ht.elim
  · rintro ⟨hv, heq⟩
    constructor
    · intro b d hkb hd
      rw [append_cell] at hd
      by_cases hb : b = h.cells.size
      · rw [if_pos hb, Option.some.injEq] at hd
        subst hd
        rw [hb, heq, hv.ref hk hc]
      · exact hv.ref hkb (by simpa [hb] using hd)
    · intro b t f n name hkb hd hf hl
      rw [append_cell] at hd hf
      have htt : t ≠ h.cells.size := by
        intro htt
        rw [if_pos htt, Option.some.injEq] at hf
        exact (hf ▸ ht : (Cell.functor f n).IsTerm).elim
      rw [if_neg htt] at hf
      by_cases hb : b = h.cells.size
      · rw [if_pos hb, Option.some.injEq] at hd
        subst hd
        rw [hb, heq, hv.str hk hc hf hl]
      · exact hv.str hkb (by simpa [hb] using hd) hf hl

/-- A structure equals the node of its arguments, which are still to come. -/
theorem models_appendStructure (hw : h.WellBuilt table k 0) (hk : k ≤ h.cells.size)
    {f : FunctorId} {n : Arity} {name : String} (hf : table.lookup f = some ⟨name, n⟩) :
    (h.appendStructure f n).Models table k v ↔ h.Models table k v ∧
      v h.cells.size = node name ((argumentAddresses (h.cells.size + 1) n.val).map v) := by
  have h1 := h.appendStructure_cell_functor f n
  have h0 := h.appendStructure_cell_top f n
  refine ⟨fun hv => ⟨.of_grows (grows_appendStructure h f n) hv, hv.str hk h0 h1 hf⟩, ?_⟩
  rintro ⟨hv, heq⟩
  constructor
  · intro a b hka hc
    rw [appendStructure_cell] at hc
    by_cases ha1 : a = h.cells.size + 1
    · simp [ha1] at hc
    · by_cases ha0 : a = h.cells.size
      · simp [ha0] at hc
      · exact hv.ref hka (by simpa [ha1, ha0] using hc)
  · intro a t g m gname hka hc hg hl
    rw [appendStructure_cell] at hc
    by_cases ha1 : a = h.cells.size + 1
    · simp [ha1] at hc
    · by_cases ha0 : a = h.cells.size
      · have ht : t = h.cells.size + 1 := by simpa [ha0] using hc.symm
        rw [ht, h1, Option.some.injEq, Cell.functor.injEq] at hg
        obtain ⟨rfl, rfl⟩ := hg
        rw [hf, Option.some.injEq, Functor.mk.injEq] at hl
        obtain ⟨rfl, -⟩ := hl
        rw [ha0, ht, heq]
      · have hc' : h.cells[a]? = some (.str t) := by simpa [ha1, ha0] using hc
        obtain ⟨-, g', m', -, hg', -⟩ := hw.structure_cell hka hc'
        have hgg := (appendStructure_cell_of_some hg' f n).symm.trans hg
        rw [Option.some.injEq] at hgg
        exact hv.str hka hc' (hgg ▸ hg') hl

/-- A bound reference equals what it is bound to. -/
theorem models_point {x w : Address} (hx : h.cells[x]? = some (.ref x)) (hk : k ≤ x) :
    (h.point x w).Models table k v ↔ h.Models table k v ∧ v x = v w := by
  refine ⟨fun hv => ⟨.of_grows (grows_point hx w) hv, hv.ref hk ?_⟩, ?_⟩
  · rw [point_cell hx, if_pos rfl]
  rintro ⟨hv, heq⟩
  constructor
  · intro a b hka hc
    rw [point_cell hx] at hc
    by_cases ha : a = x
    · rw [if_pos ha, Option.some.injEq, Cell.ref.injEq] at hc
      rw [ha, heq, hc]
    · exact hv.ref hka (by simpa [ha] using hc)
  · intro a t f n name hka hc hf hl
    rw [point_cell hx] at hc hf
    by_cases ha : a = x
    · simp [ha] at hc
    · by_cases ht : t = x
      · simp [ht] at hf
      · exact hv.str hka (by simpa [ha] using hc) (by simpa [ht] using hf) hl

end Equations
end TermMachine.Heap
