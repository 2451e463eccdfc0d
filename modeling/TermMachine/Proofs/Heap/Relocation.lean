import TermMachine.Proofs.Heap.Termination

/-! # Heaps further up

A heap can be moved behind other cells, with other ids for its functors. Nothing that is done to a
heap depends on where it stands: it compares addresses and ids with each other, and never looks
below the cells that it was given.
-/
namespace TermMachine

def Cell.move (k : Nat) (ρ : FunctorId → FunctorId) : Cell → Cell
  | .ref a => .ref (k + a)
  | .str a => .str (k + a)
  | .functor f n => .functor (ρ f) n

theorem Cell.move_eq_ref {k t : Address} {ρ : FunctorId → FunctorId} {c : Cell}
    (hc : .ref t = c.move k ρ) :
    ∃ t₀, c = .ref t₀ ∧ t = k + t₀ := by
  cases c with
  | ref t₀ => exact ⟨t₀, rfl, Cell.ref.inj hc⟩
  | str t₀ => cases hc
  | functor f n => cases hc

namespace Heap

def relocate (base : Array Cell) (ρ : FunctorId → FunctorId) (h : Heap) : Heap :=
  ⟨base ++ h.cells.map (Cell.move base.size ρ), h.capacity⟩

section Cells

variable (base : Array Cell) (ρ : FunctorId → FunctorId) (h : Heap)

@[simp] theorem relocate_capacity : (h.relocate base ρ).capacity = h.capacity := rfl

@[simp] theorem relocate_size :
    (h.relocate base ρ).cells.size = base.size + h.cells.size := by simp [relocate]

theorem relocate_cell (a : Address) : (h.relocate base ρ).cells[base.size + a]? =
    h.cells[a]?.map (Cell.move base.size ρ) := by
  rw [relocate, Array.getElem?_append_right (Nat.le_add_right _ _), Nat.add_sub_cancel_left,
    Array.getElem?_map]

theorem room_of_relocate {n : Nat}
    (hroom : (h.relocate base ρ).cells.size + n ≤ (h.relocate base ρ).capacity) :
    h.cells.size + n ≤ h.capacity := by
  rw [relocate_size, relocate_capacity] at hroom
  omega

theorem relocate_append (c : Cell) :
    (h.append c).relocate base ρ = (h.relocate base ρ).append (c.move base.size ρ) := by
  simp [relocate, append, Array.map_push, Array.push_append]

theorem relocate_appendStructure (f : FunctorId) (n : Arity) :
    (h.appendStructure f n).relocate base ρ = (h.relocate base ρ).appendStructure (ρ f) n := by
  rw [appendStructure, appendStructure, relocate_append, relocate_append, relocate_size]
  rfl

theorem relocate_point (x v : Address) : (h.point x v).relocate base ρ =
    (h.relocate base ρ).point (base.size + x) (base.size + v) := by
  simp only [relocate, point, Array.map_setIfInBounds, Cell.move]
  rw [Array.setIfInBounds_append_right (Nat.le_add_right _ _), Nat.add_sub_cancel_left]

theorem relocate_empty (capacity : Nat) :
    (Heap.empty capacity).relocate base ρ = ⟨base, capacity⟩ := by
  simp [relocate, Heap.empty]

end Cells

variable {base : Array Cell} {ρ : FunctorId → FunctorId} {h : Heap} {a b s t : Address}

/-- An answer of the heap further up is an answer of the heap, and what is left is moved alike. -/
def Follows (base : Array Cell) (ρ : FunctorId → FunctorId)
    (out₀ out : Except Fault Bool × Heap) : Prop :=
  ∀ ⦃v : Bool⦄, out.1 = .ok v → out₀.1 = .ok v ∧ out.2 = out₀.2.relocate base ρ

theorem Follows.exists_eq {out₀ : Except Fault Bool × Heap} {v : Bool} {h' : Heap}
    (ho : Follows base ρ out₀ (.ok v, h')) :
    ∃ h₀, out₀ = (.ok v, h₀) ∧ h' = h₀.relocate base ρ := by
  obtain ⟨hv, hheap⟩ := ho rfl
  exact ⟨out₀.2, Prod.ext hv rfl, hheap⟩

theorem relocate_cell_eq_some {c : Cell}
    (hc : (h.relocate base ρ).cells[base.size + a]? = some c) :
    ∃ c₀, h.cells[a]? = some c₀ ∧ c = c₀.move base.size ρ := by
  rw [relocate_cell, Option.map_eq_some_iff] at hc
  obtain ⟨c₀, hc₀, rfl⟩ := hc
  exact ⟨c₀, hc₀, rfl⟩

/-- A chain of references never leaves the heap. -/
theorem resolves_of_relocate {c : Address} (hr : (h.relocate base ρ).Resolves (base.size + a) c) :
    ∃ b, c = base.size + b ∧ h.Resolves a b := by
  generalize hx : base.size + a = x at hr
  induction hr generalizing a with
  | stop hc hs =>
    subst hx
    obtain ⟨c₀, hc₀, rfl⟩ := relocate_cell_eq_some hc
    refine ⟨a, rfl, .stop hc₀ ?_⟩
    rintro t rfl
    have heq := hs _ rfl
    exact Nat.add_left_cancel heq
  | follow hc hne _ ih =>
    subst hx
    obtain ⟨c₀, hc₀, heq⟩ := relocate_cell_eq_some hc
    obtain ⟨t, rfl, rfl⟩ := Cell.move_eq_ref heq
    obtain ⟨b, rfl, hb⟩ := ih rfl
    exact ⟨b, rfl, .follow hc₀ (fun heq => hne (heq ▸ rfl)) hb⟩

theorem relocate_deref {c : Address}
    (hd : (h.relocate base ρ).deref (base.size + a) = .ok c) :
    ∃ b, c = base.size + b ∧ h.deref a = .ok b := by
  obtain ⟨b, rfl, hb⟩ := resolves_of_relocate (resolves_of_deref hd)
  exact ⟨b, rfl, deref_eq_ok_iff.2 hb⟩

theorem relocate_functorAt {f : FunctorId} {n : Arity}
    (hf : (h.relocate base ρ).functorAt (base.size + a) = .ok (f, n)) :
    ∃ f₀, f = ρ f₀ ∧ h.functorAt a = .ok (f₀, n) := by
  obtain ⟨c₀, hc₀, heq⟩ := relocate_cell_eq_some (Worklist.functorAt_eq_ok hf)
  cases c₀ with
  | ref t => cases heq
  | str t => cases heq
  | functor f₀ m =>
    cases heq
    exact ⟨f₀, rfl, by simp [functorAt, get_of_some hc₀]⟩

/-- Ids are told apart as before. -/
theorem relocate_commonArity (hρ : Function.Injective ρ) {r : Option Arity}
    (hr : (h.relocate base ρ).commonArity (base.size + s) (base.size + t) = .ok r) :
    h.commonArity s t = .ok r := by
  unfold commonArity at hr ⊢
  rcases hs : (h.relocate base ρ).functorAt (base.size + s) with e | ⟨f, n⟩
  · simp [hs] at hr
  rcases ht : (h.relocate base ρ).functorAt (base.size + t) with e | ⟨g, m⟩
  · simp [hs, ht] at hr
  obtain ⟨f₀, rfl, hs₀⟩ := relocate_functorAt hs
  obtain ⟨g₀, rfl, ht₀⟩ := relocate_functorAt ht
  simp only [hs, ht, Prod.mk.injEq, hρ.eq_iff] at hr
  simp only [hs₀, ht₀, Prod.mk.injEq]
  exact hr

theorem relocate_pushCopy {b : Address}
    (hb : ((h.relocate base ρ).pushCopy (base.size + a)).1 = .ok b) :
    (∃ b₀, (h.pushCopy a).1 = .ok b₀) ∧
      ((h.relocate base ρ).pushCopy (base.size + a)).2 = (h.pushCopy a).2.relocate base ρ := by
  rcases (h.relocate base ρ).pushCopy_cases (base.size + a) with ⟨c, hc, ht, heq⟩ | ⟨e, -, heq⟩
  · obtain ⟨c₀, hc₀, rfl⟩ := relocate_cell_eq_some hc
    have ht₀ : c₀.IsTerm := by
      cases c₀ with
      | ref t => trivial
      | str t => trivial
      | functor f n => exact ht
    rw [heq, push_eq] at hb ⊢
    rw [pushCopy_eq_push hc₀ ht₀, push_eq]
    by_cases hroom : (h.relocate base ρ).cells.size + 1 ≤ (h.relocate base ρ).capacity
    · rw [if_pos hroom, if_pos (room_of_relocate base ρ h hroom)]
      exact ⟨⟨_, rfl⟩, (relocate_append base ρ h c₀).symm⟩
    · rw [if_neg hroom] at hb
      cases hb
  · rw [heq] at hb
    cases hb

theorem relocate_isUnbound {u : Bool}
    (hu : (h.relocate base ρ).isUnbound (base.size + a) = .ok u) : h.isUnbound a = .ok u := by
  cases hg : (h.relocate base ρ).get (base.size + a) with
  | error e => simp [isUnbound, hg] at hu
  | ok c =>
    have hc := get_eq_ok_iff.1 hg
    obtain ⟨c₀, hc₀, rfl⟩ := relocate_cell_eq_some hc
    rw [isUnbound_of_some hc, Except.ok.injEq] at hu
    rw [isUnbound_of_some hc₀, ← hu]
    cases c₀ with
    | ref t => simp [Cell.move]
    | str t => simp [Cell.move]
    | functor f n => simp [Cell.move]

theorem follows_assign (h : Heap) (x v : Address) : Follows base ρ (h.assign x v)
    ((h.relocate base ρ).assign (base.size + x) (base.size + v)) := by
  intro u hu
  cases hg : (h.relocate base ρ).get (base.size + v) with
  | error e => simp [assign, hg] at hu
  | ok c =>
    have hc := get_eq_ok_iff.1 hg
    obtain ⟨c₀, hc₀, rfl⟩ := relocate_cell_eq_some hc
    cases c₀ with
    | ref t =>
      rw [assign_of_term hc trivial] at hu ⊢
      rw [assign_of_term hc₀ trivial, relocate_point]
      exact ⟨hu, rfl⟩
    | str t =>
      rw [assign_of_term hc trivial] at hu ⊢
      rw [assign_of_term hc₀ trivial, relocate_point]
      exact ⟨hu, rfl⟩
    | functor f n => simp [assign, hg, Cell.move] at hu

/-- Of two unbound references the same one is the younger. -/
theorem follows_bind (h : Heap) (a b : Address) : Follows base ρ (h.bind a b)
    ((h.relocate base ρ).bind (base.size + a) (base.size + b)) := by
  intro v hv
  cases ha : (h.relocate base ρ).isUnbound (base.size + a) with
  | error e => simp [bind, ha] at hv
  | ok u =>
  cases hb : (h.relocate base ρ).isUnbound (base.size + b) with
  | error e => simp [bind, ha, hb] at hv
  | ok w =>
  have ha₀ := relocate_isUnbound ha
  have hb₀ := relocate_isUnbound hb
  cases u with
  | false =>
    cases w with
    | false =>
      simp only [bind, ha, hb] at hv
      simp only [bind, ha, hb, ha₀, hb₀]
      exact ⟨hv, trivial⟩
    | true =>
      simp only [bind, ha, hb, ha₀, hb₀] at hv ⊢
      exact follows_assign h b a hv
  | true =>
    cases w with
    | false =>
      simp only [bind, ha, hb, ha₀, hb₀] at hv ⊢
      exact follows_assign h a b hv
    | true =>
      simp only [bind, ha, hb, ha₀, hb₀, Nat.add_lt_add_iff_left] at hv ⊢
      by_cases hlt : a < b
      · rw [if_pos hlt] at hv ⊢
        rw [if_pos hlt]
        exact follows_assign h b a hv
      · rw [if_neg hlt] at hv ⊢
        rw [if_neg hlt]
        exact follows_assign h a b hv

def Meeting.move (k : Nat) : Meeting → Meeting
  | .same => .same
  | .unbound a b => .unbound (k + a) (k + b)
  | .structures s t => .structures (k + s) (k + t)

theorem relocate_meeting {m : Meeting}
    (hm : (h.relocate base ρ).meeting (base.size + a) (base.size + b) = .ok m) :
    ∃ m₀, h.meeting a b = .ok m₀ ∧ m = m₀.move base.size := by
  cases ha : (h.relocate base ρ).deref (base.size + a) with
  | error e => simp [meeting, ha] at hm
  | ok c =>
  cases hb : (h.relocate base ρ).deref (base.size + b) with
  | error e => simp [meeting, ha, hb] at hm
  | ok d =>
  obtain ⟨c, rfl, ha₀⟩ := relocate_deref ha
  obtain ⟨d, rfl, hb₀⟩ := relocate_deref hb
  by_cases hcd : c = d
  · subst hcd
    simp only [meeting, ha, hb, if_true, Except.ok.injEq] at hm
    exact ⟨.same, by simp [meeting, ha₀, hb₀], hm.symm⟩
  have hne : base.size + c ≠ base.size + d := fun heq => hcd (Nat.add_left_cancel heq)
  obtain ⟨y, hy, -⟩ := (resolves_of_deref ha₀).cell
  obtain ⟨z, hz, -⟩ := (resolves_of_deref hb₀).cell
  have hy' := get_of_some ((relocate_cell base ρ h c).trans (congrArg _ hy))
  have hz' := get_of_some ((relocate_cell base ρ h d).trans (congrArg _ hz))
  have hgy := get_of_some hy
  have hgz := get_of_some hz
  simp only [meeting, ha, hb, if_neg hne, hy', hz'] at hm
  simp only [meeting, ha₀, hb₀, if_neg hcd, hgy, hgz]
  cases y with
  | functor f n => cases hm
  | ref t =>
    cases z with
    | functor g n => cases hm
    | ref u => exact ⟨_, rfl, (Except.ok.inj hm).symm⟩
    | str u => exact ⟨_, rfl, (Except.ok.inj hm).symm⟩
  | str t =>
    cases z with
    | functor g n => cases hm
    | ref u => exact ⟨_, rfl, (Except.ok.inj hm).symm⟩
    | str u => exact ⟨_, rfl, (Except.ok.inj hm).symm⟩

def moved (k : Nat) (q : Address × Address) : Address × Address := (k + q.1, k + q.2)

theorem moved_injective (k : Nat) : Function.Injective (moved k) := by
  intro q r hqr
  obtain ⟨h₁, h₂⟩ := Prod.mk.inj hqr
  exact Prod.ext (Nat.add_left_cancel h₁) (Nat.add_left_cancel h₂)

theorem unordered_moved (k s t : Address) :
    unordered (k + s) (k + t) = moved k (unordered s t) := by
  simp only [unordered, moved, Nat.add_min_add_left, Nat.add_max_add_left]

theorem stackArguments_moved (k s t : Address) (n : Nat) (p : List (Address × Address)) :
    stackArguments (k + s) (k + t) n (p.map (moved k)) =
      (stackArguments s t n p).map (moved k) := by
  induction n with
  | zero => simp [stackArguments]
  | succ n ih =>
    rw [Worklist.stackArguments_succ, Worklist.stackArguments_succ, ih, List.map_cons, moved]
    simp only [Nat.add_assoc]

theorem unifyWithin_nil (fuel : Nat) (seen : Seen) (h : Heap) :
    h.unifyWithin fuel [] seen = (some (.ok true), h) := by
  cases fuel with
  | zero => rfl
  | succ fuel => rfl

/-- Whatever its own fuel, a unification answers as the one further up has answered, unless it runs
out. -/
theorem unifyWithin_relocate (hρ : Function.Injective ρ) {fuel : Nat} (fuel₀ : Nat)
    {p : List (Address × Address)} {seen seen₀ : Seen} {h' : Heap} {v : Bool}
    (hseen : ∀ q, moved base.size q ∈ seen ↔ q ∈ seen₀)
    (hu : (h.relocate base ρ).unifyWithin fuel (p.map (moved base.size)) seen =
      (some (.ok v), h')) :
    (h.unifyWithin fuel₀ p seen₀).1 = none ∨
      ∃ h₀, h.unifyWithin fuel₀ p seen₀ = (some (.ok v), h₀) ∧ h' = h₀.relocate base ρ := by
  -- the larger heap is given more fuel, so the two runs cannot be compared fuel by fuel
  induction fuel generalizing fuel₀ p seen seen₀ h with
  | zero =>
    cases p with
    | nil =>
      cases hu
      exact .inr ⟨h, unifyWithin_nil fuel₀ seen₀ h, rfl⟩
    | cons ab p => cases hu
  | succ fuel ih =>
  cases p with
  | nil =>
    cases hu
    exact .inr ⟨h, unifyWithin_nil fuel₀ seen₀ h, rfl⟩
  | cons ab p =>
  obtain ⟨a, b⟩ := ab
  cases fuel₀ with
  | zero => exact .inl rfl
  | succ fuel₀ =>
  simp only [List.map_cons, moved] at hu
  cases hm : (h.relocate base ρ).meeting (base.size + a) (base.size + b) with
  | error e => simp [unifyWithin, hm] at hu
  | ok m =>
  obtain ⟨m₀, hm₀, rfl⟩ := relocate_meeting hm
  cases m₀ with
  | same =>
    simp only [unifyWithin, hm, Meeting.move] at hu
    simp only [unifyWithin, hm₀]
    exact ih fuel₀ hseen hu
  | unbound c d =>
    have hbind : Follows base ρ (h.bind c d)
        ((h.relocate base ρ).bind (base.size + c) (base.size + d)) := follows_bind h c d
    simp only [unifyWithin, hm, Meeting.move] at hu
    simp only [unifyWithin, hm₀]
    rcases hout : (h.relocate base ρ).bind (base.size + c) (base.size + d) with ⟨_ | u, h₁⟩
    · simp [hout] at hu
    · rw [hout] at hu hbind
      obtain ⟨h₀, hout₀, rfl⟩ := hbind.exists_eq
      rw [hout₀]
      cases u with
      | false =>
        cases hu
        exact .inr ⟨h₀, rfl, rfl⟩
      | true => exact ih fuel₀ hseen hu
  | structures s t =>
    simp only [unifyWithin, hm, Meeting.move, unordered_moved, hseen] at hu
    simp only [unifyWithin, hm₀]
    by_cases hmem : unordered s t ∈ seen₀
    · rw [if_pos hmem] at hu ⊢
      exact ih fuel₀ hseen hu
    · rw [if_neg hmem] at hu ⊢
      cases hc : (h.relocate base ρ).commonArity (base.size + s) (base.size + t) with
      | error e => simp [hc] at hu
      | ok r =>
        rw [hc] at hu
        rw [relocate_commonArity hρ hc]
        cases r with
        | none =>
          cases hu
          exact .inr ⟨h, rfl, rfl⟩
        | some n =>
          dsimp only at hu ⊢
          rw [stackArguments_moved] at hu
          refine ih fuel₀ (fun q => ?_) hu
          rw [Worklist.mem_insert_seen, Worklist.mem_insert_seen, hseen,
            (moved_injective base.size).eq_iff]

theorem follows_unify (hρ : Function.Injective ρ) (h : Heap) (a b : Address) :
    Follows base ρ (h.unify a b)
      ((h.relocate base ρ).unify (base.size + a) (base.size + b)) := by
  intro v hv
  have hrun := (h.relocate base ρ).unifyWithin_pairBound (base.size + a) (base.size + b)
  rw [hv] at hrun
  have hfuel := h.unifyWithin_pairBound a b
  have hempty : ∀ q, moved base.size q ∈ (∅ : Seen) ↔ q ∈ (∅ : Seen) := by simp
  rcases unifyWithin_relocate (p := [(a, b)]) hρ h.pairBound hempty hrun with
    hnone | ⟨h₀, hsome, heq⟩
  · rw [hfuel] at hnone
    cases hnone
  · rw [hfuel, Prod.mk.injEq, Option.some.injEq] at hsome
    exact ⟨hsome.1, by rw [heq, hsome.2]⟩

end Heap
end TermMachine
