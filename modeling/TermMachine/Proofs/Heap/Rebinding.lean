import TermMachine.Proofs.Heap.Construction
import TermMachine.Proofs.Heap.Dereference

/-! # Binding a second time

As long as a heap is changed by appending and unifying only, its references lead down or to a
structure, so following them ends; and binding two ends of chains keeps that. What a second binding
of the same two addresses does depends on what they hold. When one is a structure, nothing is
unbound any more and nothing changes. When both are unbound references, though, the older one still
is, and it is bound to the younger one, which refers to it already: the two references are bound in
a circle, and the chains that came to them do not end any more.
-/
namespace TermMachine.Heap

def Operation.IsBind : Operation → Prop
  | .bind _ _ => True
  | _ => False

/-- Two references, neither of which refers to another cell. -/
def BothUnbound (h : Heap) (a b : Address) : Prop :=
  a ≠ b ∧ h.cells[a]? = some (.ref a) ∧ h.cells[b]? = some (.ref b)

variable {h : Heap} {a b v x y z : Address} {c d : Cell}

theorem BothUnbound.symm (hboth : h.BothUnbound a b) : h.BothUnbound b a :=
  ⟨hboth.1.symm, hboth.2.2, hboth.2.1⟩

theorem SoundFrom.perform (hs : h.SoundFrom 0) {op : Operation} (hop : ¬op.IsBind) :
    (h.perform op).2.SoundFrom 0 := by
  cases op with
  | newVariable =>
    simp only [Heap.perform, pushVariable_eq]
    split
    · exact hs.append_variable (Nat.zero_le _)
    · exact hs
  | newStructure f n =>
    simp only [Heap.perform, pushStructure_eq]
    split
    · exact hs.appendStructure (Nat.zero_le _) f n
    · exact hs
  | copy a =>
    simp only [Heap.perform]
    rcases h.pushCopy_cases a with ⟨c, hc, -, heq⟩ | ⟨e, -, heq⟩
    · rw [heq]
      rcases h.push_cases c with ⟨-, hpush⟩ | hpush
      · rw [hpush]
        exact hs.append_copy (Nat.zero_le _) hc
      · rw [hpush]
        exact hs
    · rw [heq]
      exact hs
  | bind a b => exact absurd trivial hop
  | unify a b => exact hs.unify (Nat.zero_le _) (Nat.zero_le _)
  | clear => exact (complete_empty h.capacity).toSoundFrom

theorem performAll_soundFrom (capacity : Nat) {operations : List Operation}
    (hops : ∀ op ∈ operations, ¬op.IsBind) : ((empty capacity).performAll operations).SoundFrom 0 :=
  performAll_keeps (fun op hop _ hs => hs.perform (hops op hop))
    (complete_empty capacity).toSoundFrom

/-- One of the two is an unbound reference, and is bound to the other: a structure, or an unbound
reference that is no younger. -/
theorem bind_ends (ha : h.Resolves a a) (hb : h.Resolves b b) (hok : (h.bind a b).1 = .ok true) :
    ∃ x v, (x = a ∧ v = b ∨ x = b ∧ v = a) ∧ h.cells[x]? = some (.ref x) ∧
      (h.cells[v]? = some (.ref v) ∧ v ≤ x ∨ ∃ s, h.cells[v]? = some (.str s)) ∧
      (h.bind a b).2 = h.point x v := by
  rcases h.bind_cases a b with ⟨x, v, hxv, hbind, -⟩ | ⟨-, hfalse | ⟨e, -, herr⟩⟩
  · obtain ⟨c, hc, hterm, hle⟩ := hbind.term
    have hv : h.Resolves v v := by
      rcases hxv with ⟨-, rfl⟩ | ⟨-, rfl⟩
      · exact hb
      · exact ha
    refine ⟨x, v, hxv, hbind.unbound, ?_, hbind.eq⟩
    obtain ⟨d, hd, hself⟩ := hv.cell
    obtain rfl : c = d := Option.some.inj (hc.symm.trans hd)
    cases c with
    | ref t =>
      obtain rfl := hself t rfl
      exact .inl ⟨hc, hle rfl⟩
    | str s => exact .inr ⟨s, hc⟩
    | functor f n => exact hterm.elim
  · cases hok.symm.trans hfalse
  · cases hok.symm.trans herr

theorem SoundFrom.bind (hs : h.SoundFrom 0) (ha : h.Resolves a a) (hb : h.Resolves b b)
    (hok : (h.bind a b).1 = .ok true) : (h.bind a b).2.SoundFrom 0 := by
  obtain ⟨x, v, -, hx, hv, heq⟩ := bind_ends ha hb hok
  rw [heq]
  rcases hv with ⟨hv, hle⟩ | ⟨s, hv⟩
  · exact hs.point hx (Nat.zero_le _) hv trivial (.inl hle)
  · exact hs.point hx (Nat.zero_le _) hv trivial (.inr ⟨s, rfl⟩)

theorem bind_self (h : Heap) (a : Address) : (h.bind a a).2 = h := by
  rcases h.bind_cases a a with ⟨x, v, hxv, hbind, -⟩ | ⟨heq, -⟩
  · obtain rfl : x = v := by rcases hxv with ⟨rfl, rfl⟩ | ⟨rfl, rfl⟩ <;> rfl
    rw [hbind.eq, point_self hbind.unbound]
  · exact heq

theorem bind_of_bound (hc : h.cells[a]? = some c) (hd : h.cells[b]? = some d) (hca : c ≠ .ref a)
    (hdb : d ≠ .ref b) : h.bind a b = (.ok false, h) := by
  simp [Heap.bind, isUnbound_of_some hc, isUnbound_of_some hd, hca, hdb]

theorem bind_of_unbound {t : Address} (hx : h.cells[x]? = some (.ref x))
    (hv : h.cells[v]? = some (.ref t)) (hne : t ≠ v) :
    h.bind x v = (.ok true, h.point x v) ∧ h.bind v x = (.ok true, h.point x v) := by
  have hux := isUnbound_of_some hx
  have huv := isUnbound_of_some hv
  have hassign := assign_of_term hv trivial x
  exact ⟨by simp [Heap.bind, hux, huv, hne, hassign], by simp [Heap.bind, hux, huv, hne, hassign]⟩

def circle (h : Heap) (x v : Address) : Heap := (h.point x v).point v x

theorem circle_cell (hboth : h.BothUnbound x v) (z : Address) :
    (h.circle x v).cells[z]? =
      if z = v then some (.ref x) else if z = x then some (.ref v) else h.cells[z]? := by
  obtain ⟨hne, hx, hv⟩ := hboth
  have hv' : (h.point x v).cells[v]? = some (.ref v) := by
    rw [point_cell hx, if_neg (Ne.symm hne), hv]
  rw [circle, point_cell hv', point_cell hx]

theorem circle_comm (hboth : h.BothUnbound x v) : h.circle v x = h.circle x v := by
  refine eq_of_cells rfl fun z => ?_
  rw [circle_cell hboth, circle_cell hboth.symm]
  by_cases hzx : z = x
  · rw [if_pos hzx, if_neg (hzx ▸ hboth.1), if_pos hzx]
  · rw [if_neg hzx, if_neg hzx]

theorem circle_cells_ne (hboth : h.BothUnbound x v) :
    (h.circle x v).cells ≠ (h.point x v).cells := by
  intro heq
  have hcell : (h.circle x v).cells[v]? = (h.point x v).cells[v]? := by rw [heq]
  rw [circle_cell hboth, if_pos rfl, point_cell hboth.2.1, if_neg hboth.1.symm, hboth.2.2,
    Option.some.injEq, Cell.ref.injEq] at hcell
  exact hboth.1 hcell

theorem Resolves.circle (hr : h.Resolves z y) (hboth : h.BothUnbound x v) (hyx : y ≠ x)
    (hyv : y ≠ v) : (h.circle x v).Resolves z y := by
  induction hr with
  | stop hc hs =>
    exact .stop (by rw [circle_cell hboth, if_neg hyv, if_neg hyx, hc]) hs
  | @follow z t y hc hne _ ih =>
    have hzx : z ≠ x := ne_of_bound hc hne hboth.2.1
    have hzv : z ≠ v := ne_of_bound hc hne hboth.2.2
    exact .follow (by rw [circle_cell hboth, if_neg hzv, if_neg hzx, hc]) hne (ih hyx hyv)

/-- Chains that ended at one of the two references do not end any more. -/
theorem deref_circle (hboth : h.BothUnbound x v) (hr : h.Resolves z y) (hy : y = x ∨ y = v) :
    (h.circle x v).deref z = .error (.referenceCycle z) := by
  -- the chain stays among the addresses that came to one of the two, and these are all bound
  have hstep : ∀ z, (∃ y, h.Resolves z y ∧ (y = x ∨ y = v)) → (h.circle x v).IsBound z ∧
      ∃ y, h.Resolves ((h.circle x v).next z) y ∧ (y = x ∨ y = v) := by
    rintro z ⟨y, hr, hy⟩
    have hcell := circle_cell hboth z
    obtain ⟨hne, hx, hv⟩ := hboth
    cases hr with
    | follow hc hct hrest =>
      have hzx : z ≠ x := ne_of_bound hc hct hx
      have hzv : z ≠ v := ne_of_bound hc hct hv
      rw [if_neg hzv, if_neg hzx, hc] at hcell
      rw [next_of_ref hcell]
      exact ⟨⟨_, hcell, hct⟩, y, hrest, hy⟩
    | stop =>
      rcases hy with rfl | rfl
      · rw [if_neg hne, if_pos rfl] at hcell
        rw [next_of_ref hcell]
        exact ⟨⟨v, hcell, hne.symm⟩, v, IsEnd.resolves (.inl hv), .inr rfl⟩
      · rw [if_pos rfl] at hcell
        rw [next_of_ref hcell]
        exact ⟨⟨x, hcell, hne⟩, x, IsEnd.resolves (.inl hx), .inl rfl⟩
  rw [deref, derefWithin_of_endless (isBound_iterate_next hstep ⟨y, hr, hy⟩)]

/-- A second binding of two ends changes nothing, or it binds two unbound references in a circle. -/
theorem bind_again (ha : h.Resolves a a) (hb : h.Resolves b b) (hok : (h.bind a b).1 = .ok true) :
    ¬h.BothUnbound a b ∧ ((h.bind a b).2.bind a b).2 = (h.bind a b).2 ∨
      h.BothUnbound a b ∧ ((h.bind a b).2.bind a b).2 = h.circle a b ∧
        (h.circle a b).cells ≠ (h.bind a b).2.cells := by
  by_cases hab : a = b
  · left
    rw [hab, bind_self, bind_self]
    exact ⟨fun hboth => hboth.1 rfl, rfl⟩
  obtain ⟨x, v, hxv, hx, hv, heq⟩ := bind_ends ha hb hok
  have hne : x ≠ v := by
    rcases hxv with ⟨rfl, rfl⟩ | ⟨rfl, rfl⟩
    · exact hab
    · exact Ne.symm hab
  have hbound : (h.point x v).cells[x]? = some (.ref v) := by rw [point_cell hx, if_pos rfl]
  have hkept : (h.point x v).cells[v]? = h.cells[v]? := by rw [point_cell hx, if_neg hne.symm]
  rw [heq]
  rcases hv with ⟨hv, -⟩ | ⟨s, hv⟩
  · -- only `v` is unbound now, so the second call binds `v`, in either order of the arguments
    right
    have hboth : h.BothUnbound x v := ⟨hne, hx, hv⟩
    obtain ⟨hvx, hxv'⟩ := bind_of_unbound (hkept.trans hv) hbound hne.symm
    rcases hxv with ⟨rfl, rfl⟩ | ⟨rfl, rfl⟩
    · exact ⟨hboth, congrArg Prod.snd hxv', circle_cells_ne hboth⟩
    · rw [circle_comm hboth]
      exact ⟨hboth.symm, congrArg Prod.snd hvx, circle_cells_ne hboth⟩
  · left
    have hnot : Cell.ref v ≠ .ref x := fun hr => hne (Cell.ref.inj hr).symm
    have hstr : Cell.str s ≠ .ref v := by simp
    rcases hxv with ⟨rfl, rfl⟩ | ⟨rfl, rfl⟩
    · refine ⟨fun hboth => hstr (Option.some.inj (hv.symm.trans hboth.2.2)), ?_⟩
      rw [bind_of_bound hbound (hkept.trans hv) hnot hstr]
    · refine ⟨fun hboth => hstr (Option.some.inj (hv.symm.trans hboth.2.1)), ?_⟩
      rw [bind_of_bound (hkept.trans hv) hbound hstr hnot]

/-- On a heap that has been changed by appending and unifying only, all chains end after two ends of
chains have been bound. To bind them a second time changes nothing, except when both were unbound
references: then a cell is changed, and the chains that came to one of the two do not end any
more. -/
theorem bind_twice (capacity : Nat) {operations : List Operation}
    (hops : ∀ op ∈ operations, ¬op.IsBind) (a b : Address) :
    let h := (empty capacity).performAll operations
    let once := (h.bind a b).2
    let twice := (once.bind a b).2
    h.deref a = .ok a → h.deref b = .ok b → (h.bind a b).1 = .ok true →
      (∀ z < h.cells.size, ∃ r, once.deref z = .ok r) ∧
      (twice.cells = once.cells ↔ ¬h.BothUnbound a b) ∧
      ∀ z < h.cells.size,
        (h.BothUnbound a b ∧ (h.deref z = .ok a ∨ h.deref z = .ok b) →
          twice.deref z = .error (.referenceCycle z)) ∧
        (¬(h.BothUnbound a b ∧ (h.deref z = .ok a ∨ h.deref z = .ok b)) →
          ∃ r, twice.deref z = .ok r) := by
  intro h once twice ha hb hok
  have hra := resolves_of_deref ha
  have hrb := resolves_of_deref hb
  have hs : h.SoundFrom 0 := performAll_soundFrom capacity hops
  have hends : ∀ z < h.cells.size, ∃ r, once.deref z = .ok r := by
    intro z hz
    have hlt : z < once.cells.size := Nat.lt_of_lt_of_le hz (h.grows_bind a b).size_le
    obtain ⟨r, hr, -⟩ := (hs.bind hra hrb hok).deref_ok (Nat.zero_le z) hlt
    exact ⟨r, hr⟩
  refine ⟨hends, ?_⟩
  rcases bind_again hra hrb hok with ⟨hnot, hsame⟩ | ⟨hboth, hcircle, hne⟩
  · have htwice : twice = once := hsame
    rw [htwice]
    exact ⟨iff_of_true rfl hnot, fun z hz => ⟨fun hand => absurd hand.1 hnot, fun _ => hends z hz⟩⟩
  · have htwice : twice = h.circle a b := hcircle
    rw [htwice]
    refine ⟨iff_of_false hne (not_not.2 hboth), fun z hz => ⟨fun hand => ?_, fun hother => ?_⟩⟩
    · rcases hand.2 with hz | hz
      · exact deref_circle hboth (resolves_of_deref hz) (.inl rfl)
      · exact deref_circle hboth (resolves_of_deref hz) (.inr rfl)
    · obtain ⟨r, hr, hres⟩ := hs.deref_ok (Nat.zero_le z) hz
      have hra : r ≠ a := fun heq => hother ⟨hboth, .inl (heq ▸ hr)⟩
      have hrb : r ≠ b := fun heq => hother ⟨hboth, .inr (heq ▸ hr)⟩
      exact ⟨r, deref_eq_ok_iff.2 (hres.circle hboth hra hrb)⟩

/-- Two unbound references, to the older of which a third one has been bound. -/
theorem bind_twice_shared :
    let h := (empty 3).performAll [.newVariable, .newVariable, .newVariable, .unify 2 0]
    let once := (h.bind 0 1).2
    let twice := (once.bind 0 1).2
    (∀ op ∈ [Operation.newVariable, .newVariable, .newVariable, .unify 2 0], ¬op.IsBind) ∧
      h.deref 0 = .ok 0 ∧ h.deref 1 = .ok 1 ∧ (h.bind 0 1).1 = .ok true ∧
      (∀ z < h.cells.size, ∃ r, once.deref z = .ok r) ∧
      (twice.cells = once.cells ↔ ¬h.BothUnbound 0 1) ∧
      ∀ z < h.cells.size,
        (h.BothUnbound 0 1 ∧ (h.deref z = .ok 0 ∨ h.deref z = .ok 1) →
          twice.deref z = .error (.referenceCycle z)) ∧
        (¬(h.BothUnbound 0 1 ∧ (h.deref z = .ok 0 ∨ h.deref z = .ok 1)) →
          ∃ r, twice.deref z = .ok r) := by
  intro h once twice
  have hops : ∀ op ∈ [Operation.newVariable, .newVariable, .newVariable, .unify 2 0],
      ¬op.IsBind := by simp [Operation.IsBind]
  have h0 : h.deref 0 = .ok 0 := by decide +kernel
  have h1 : h.deref 1 = .ok 1 := by decide +kernel
  have hok : (h.bind 0 1).1 = .ok true := by decide +kernel
  exact ⟨hops, h0, h1, hok, bind_twice 3 hops 0 1 h0 h1 hok⟩

/-- Binding two ends of chains twice may change a cell the second time, and leave a chain without an
end. -/
theorem bind_twice_changes_cell :
    let h := (empty 2).performAll [.newVariable, .newVariable]
    let once := (h.bind 0 1).2
    let twice := (once.bind 0 1).2
    h.deref 0 = .ok 0 ∧ h.deref 1 = .ok 1 ∧ (h.bind 0 1).1 = .ok true ∧
      once.cells = #[.ref 0, .ref 0] ∧ twice.cells = #[.ref 1, .ref 0] ∧
      twice.deref 0 = .error (.referenceCycle 0) := by decide

end TermMachine.Heap
