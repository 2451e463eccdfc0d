import TermMachine.Proofs.Heap.Operations

/-! # Complete heaps

A heap is complete from an address on when it is sound there and its structures have all their
arguments, of which the last may still be to come. Nothing is said of what the functors stand for:
two structures may share an id and differ in their arity.
-/
namespace TermMachine.Heap

def HasTerm (k : Address) (h : Heap) (a : Address) : Prop :=
  k ≤ a ∧ ∃ c, h.cells[a]? = some c ∧ c.IsTerm

/-- With `left` more cells, every structure from `k` on has all its arguments. -/
structure Complete (k : Address) (left : Nat) (h : Heap) : Prop extends h.SoundFrom k where
  argument : ∀ {a : Address} {f : FunctorId} {n : Arity} {i : Nat}, k ≤ a →
    h.cells[a]? = some (.functor f n) → i < n.val → a + (i + 1) < h.cells.size + left ∧
      ∀ c, h.cells[a + (i + 1)]? = some c → c.IsTerm

def argumentAddresses (t : Address) (n : Nat) : List Address :=
  (List.range n).map fun i => t + (i + 1)

theorem argumentAddresses_eq_range' (t : Address) (n : Nat) :
    argumentAddresses t n = List.range' (t + 1) n := by
  rw [argumentAddresses, List.range'_eq_map_range]
  exact List.map_congr_left fun i _ => by lia

variable {k : Address} {left : Nat} {h h' : Heap} {c : Cell}

theorem HasTerm.grows {a : Address} (ha : HasTerm k h a) (hg : Grows h h') : HasTerm k h' a := by
  obtain ⟨hk, c, hc, ht⟩ := ha
  exact ⟨hk, hg.term hc ht⟩

theorem HasTerm.lt_size {a : Address} (ha : HasTerm k h a) : a < h.cells.size := by
  obtain ⟨-, c, hc, -⟩ := ha
  exact lt_size_of_getElem? hc

namespace Complete

theorem arguments_hasTerm (hw : h.Complete k 0) {t : Address} {f : FunctorId} {n : Arity}
    {i : Nat} (hk : k ≤ t) (ht : h.cells[t]? = some (.functor f n)) (hi : i < n.val) :
    HasTerm k h (t + (i + 1)) := by
  obtain ⟨hlt, hterm⟩ := hw.argument hk ht hi
  have hc := Array.getElem?_eq_getElem (show t + (i + 1) < h.cells.size from hlt)
  exact ⟨Nat.le_trans hk (Nat.le_add_right _ _), _, hc, hterm _ hc⟩

theorem hasTerm_of_mem (hw : h.Complete k 0) {t : Address} {f : FunctorId} {n : Arity}
    {c : Address} (hk : k ≤ t) (ht : h.cells[t]? = some (.functor f n))
    (hc : c ∈ argumentAddresses t n.val) : HasTerm k h c := by
  obtain ⟨i, hi, rfl⟩ := List.mem_map.1 hc
  exact hw.arguments_hasTerm hk ht (List.mem_range.1 hi)

theorem deref_term (hw : h.Complete k left) {a : Address} (ha : HasTerm k h a) :
    ∃ b, h.deref a = .ok b ∧ h.Resolves a b ∧ HasTerm k h b := by
  obtain ⟨hk, c, hc, ht⟩ := ha
  obtain ⟨b, hb, hr⟩ := hw.deref_ok hk (lt_size_of_getElem? hc)
  exact ⟨b, hb, hr, hw.resolves_le hr hk, hw.resolves_term hr hk hc ht⟩

theorem append_term (hw : h.Complete k left) (hs : (h.append c).SoundFrom k) (ht : c.IsTerm) :
    (h.append c).Complete k (left - 1) where
  toSoundFrom := hs
  argument := by
    intro a f n i hk hc hi
    rw [append_cell] at hc
    by_cases ha : a = h.cells.size
    · rw [if_pos ha, Option.some.injEq] at hc
      subst hc
      exact ht.elim
    · rw [if_neg ha] at hc
      obtain ⟨hlt, hterm⟩ := hw.argument hk hc hi
      refine ⟨by rw [append_size]; lia, fun d hd => ?_⟩
      rw [append_cell] at hd
      by_cases htop : a + (i + 1) = h.cells.size
      · rw [if_pos htop, Option.some.injEq] at hd
        exact hd ▸ ht
      · exact hterm d (by simpa [htop] using hd)

theorem append_variable (hw : h.Complete k left) (hk : k ≤ h.cells.size) :
    (h.append (.ref h.cells.size)).Complete k (left - 1) :=
  hw.append_term (hw.toSoundFrom.append_variable hk) trivial

theorem append_copy (hw : h.Complete k left) {a : Address} (hk : k ≤ a)
    (hc : h.cells[a]? = some c) (ht : c.IsTerm) : (h.append c).Complete k (left - 1) :=
  hw.append_term (hw.toSoundFrom.append_copy hk hc) ht

theorem appendStructure (hw : h.Complete k 0) (hk : k ≤ h.cells.size) (f : FunctorId)
    (n : Arity) : (h.appendStructure f n).Complete k n.val where
  toSoundFrom := hw.toSoundFrom.appendStructure hk f n
  argument := by
    intro a g m i hka hc hi
    rw [appendStructure_cell] at hc
    by_cases h1 : a = h.cells.size + 1
    · rw [if_pos h1, Option.some.injEq, Cell.functor.injEq] at hc
      obtain ⟨rfl, rfl⟩ := hc
      have hnone : (h.appendStructure f n).cells[a + (i + 1)]? = none :=
        Array.getElem?_eq_none (by rw [appendStructure_size]; lia)
      refine ⟨by rw [appendStructure_size]; lia, fun d hd => ?_⟩
      rw [hnone] at hd
      cases hd
    · by_cases h0 : a = h.cells.size
      · simp [h0] at hc
      · rw [if_neg h1, if_neg h0] at hc
        obtain ⟨hlt, hterm⟩ := hw.argument hka hc hi
        refine ⟨by rw [appendStructure_size]; lia, fun d hd => ?_⟩
        have hold : (h.appendStructure f n).cells[a + (i + 1)]? = h.cells[a + (i + 1)]? := by
          rw [appendStructure_cell, if_neg (by lia), if_neg (by lia)]
        exact hterm d (hold ▸ hd)

theorem point (hw : h.Complete k left) {x w : Address} (hx : h.cells[x]? = some (.ref x))
    (hk : k ≤ w) (hc : h.cells[w]? = some c) (ht : c.IsTerm) (ho : w ≤ x ∨ ∃ s, c = .str s) :
    (h.point x w).Complete k left where
  toSoundFrom := hw.toSoundFrom.point hx hk hc ht ho
  argument := by
    intro a f n i hka hf hi
    rw [point_cell hx] at hf
    by_cases ha : a = x
    · simp [ha] at hf
    · rw [if_neg ha] at hf
      obtain ⟨hlt, hterm⟩ := hw.argument hka hf hi
      refine ⟨by simpa using hlt, fun d hd => ?_⟩
      rw [point_cell hx] at hd
      by_cases hax : a + (i + 1) = x
      · rw [if_pos hax, Option.some.injEq] at hd
        exact hd ▸ trivial
      · exact hterm d (by simpa [hax] using hd)

end Complete
end TermMachine.Heap
