import Mathlib.Data.Set.Finite.Lattice
import TermMachine.Proofs.Machine.Naming

/-! # What is read back and what is on the heap

The cells of a heap unfold to a tree, which is infinite when a structure is inside itself. What is
read back is that tree, cut where the functor cell of a structure has been met further up, and the
whole tree comes back when each cut is replaced by the structure that it names, again and again.
-/
namespace TermMachine

inductive Label where
  | var (name : String)
  | functor (name : String) (n : Nat)

def Term.label : Term → Label
  | .var name => .var name
  | t => .functor t.name t.args.length

theorem Term.label_ofArgs (name : String) (ts : List Term) :
    (Term.ofArgs name ts).label = .functor name ts.length := by
  cases ts <;> rfl

theorem Term.length_args_of_label {t : Term} {name : String} {n : Nat}
    (ht : t.label = .functor name n) : t.args.length = n := by
  cases t with
  | var x => cases ht
  | atom a => exact (Label.functor.inj ht).2
  | app a args => exact (Label.functor.inj ht).2

/-- A term has finitely many positions. -/
theorem Term.finite_positions (t : Term) : {path | ∃ u, t.follow path = some u}.Finite := by
  have hnone : ∀ t : Term, t.args = [] → {path | ∃ u, t.follow path = some u}.Finite := by
    intro t ht
    refine (Set.finite_singleton []).subset ?_
    rintro path ⟨u, hu⟩
    cases path with
    | nil => rfl
    | cons i path => simp [follow, ht] at hu
  induction t with
  | atom name => exact hnone _ rfl
  | var name => exact hnone _ rfl
  | app name args ih =>
    have hbelow : ∀ i : Nat,
        {path | ∃ w u : Term, args[i]? = some w ∧ w.follow path = some u}.Finite := by
      intro i
      cases hi : args[i]? with
      | none => simp
      | some w =>
        refine (ih w (List.mem_of_getElem? hi)).subset ?_
        rintro path ⟨w', u, hw', hu⟩
        obtain rfl := Option.some.inj hw'
        exact ⟨u, hu⟩
    have hall := (Set.finite_lt_nat args.length).biUnion fun i _ => (hbelow i).image (i :: ·)
    refine (hall.insert []).subset ?_
    rintro path ⟨u, hu⟩
    cases path with
    | nil => exact .inl rfl
    | cons i path =>
      right
      rw [follow, Term.args] at hu
      cases hi : args[i]? with
      | none => simp [hi] at hu
      | some w =>
        simp only [hi] at hu
        exact Set.mem_biUnion (List.getElem?_eq_some_iff.1 hi).1 ⟨path, ⟨w, u, hi, hu⟩, rfl⟩

namespace Heap

def IsAbove (above path : List Nat) : Prop := above <+: path ∧ above ≠ path

theorem not_isAbove_nil (above : List Nat) : ¬IsAbove above [] :=
  fun ⟨hpre, hne⟩ => hne (List.prefix_nil.1 hpre)

theorem isAbove_concat {above path : List Nat} {i : Nat} :
    IsAbove above (path ++ [i]) ↔ above = path ∨ IsAbove above path := by
  have hne : above <+: path → above ≠ path ++ [i] := by
    rintro hpre rfl
    have hlen := hpre.length_le
    rw [List.length_append, List.length_singleton] at hlen
    omega
  rw [IsAbove, IsAbove, List.prefix_concat_iff]
  constructor
  · rintro ⟨heq | hpre, hnot⟩
    · exact absurd heq hnot
    · by_cases heq : above = path
      · exact .inl heq
      · exact .inr ⟨hpre, heq⟩
  · rintro (rfl | ⟨hpre, -⟩)
    · exact ⟨.inr List.prefix_rfl, hne List.prefix_rfl⟩
    · exact ⟨.inr hpre, hne hpre⟩

theorem IsAbove.exists_rest {above path : List Nat} (h : IsAbove above path) :
    ∃ i rest, path = above ++ i :: rest := by
  obtain ⟨⟨rest, rfl⟩, hne⟩ := h
  cases rest with
  | nil => exact absurd (List.append_nil above).symm hne
  | cons i rest => exact ⟨i, rest, rfl⟩

def Structured (h : Heap) (a : Address) (path : List Nat) (t : Address) : Prop :=
  ∃ b, h.Leads a path b ∧ h.cells[b]? = some (.str t)

/-- The structure at the end of the path is the one strictly above it, at the end of `above`. -/
def Loops (h : Heap) (a : Address) (above path : List Nat) : Prop :=
  IsAbove above path ∧ ∃ t, h.Structured a above t ∧ h.Structured a path t

def IsCut (h : Heap) (a : Address) (path : List Nat) : Prop := ∃ above, h.Loops a above path

inductive Holds (table : Functor.Table) (h : Heap) (name : Address → String) (a : Address)
    (path : List Nat) : Label → Prop
  | var {b} : h.Leads a path b → h.cells[b]? = some (.ref b) →
      Holds table h name a path (.var (name b))
  | functor {t f n fname} : h.Structured a path t → h.cells[t]? = some (.functor f n) →
      table.lookup f = some ⟨fname, n⟩ → Holds table h name a path (.functor fname n.val)

variable {h : Heap} {a c t t' : Address} {path place other rest above : List Nat} {i : Nat}

theorem Structured.unique (ht : h.Structured a path t) (ht' : h.Structured a path t') : t = t' := by
  obtain ⟨b, hb, hcell⟩ := ht
  obtain ⟨b', hb', hcell'⟩ := ht'
  rw [hb.unique hb', hcell', Option.some.injEq, Cell.str.injEq] at hcell
  exact hcell.symm

theorem Structured.not_leads (ht : h.Structured a path t) {b : Address}
    (hb : h.cells[b]? = some (.ref b)) : ¬h.Leads a path b := by
  obtain ⟨d, hd, hcell⟩ := ht
  intro hlead
  rw [hlead.unique hd, hcell] at hb
  cases hb

/-- Behind a structure a path goes on at one of its arguments. -/
theorem leads_append : h.Leads a (path ++ i :: rest) c ↔ ∃ t f n, h.Structured a path t ∧
    h.cells[t]? = some (.functor f n) ∧ i < n.val ∧ h.Leads (t + (i + 1)) rest c := by
  induction path generalizing a with
  | nil =>
    constructor
    · intro hc
      cases hc with
      | arg hr hb hf hi hrest => exact ⟨_, _, _, ⟨_, .here hr, hb⟩, hf, hi, hrest⟩
    · rintro ⟨t, f, n, ⟨b, hb, hcell⟩, hf, hi, hrest⟩
      cases hb with
      | here hr => exact .arg hr hcell hf hi hrest
  | cons j path ih =>
    constructor
    · intro hc
      cases hc with
      | arg hr hb hf hj hrest =>
        obtain ⟨t, g, n, ⟨d, hd, hcell⟩, hg, hi, hlast⟩ := ih.1 hrest
        exact ⟨t, g, n, ⟨d, .arg hr hb hf hj hd, hcell⟩, hg, hi, hlast⟩
    · rintro ⟨t, g, n, ⟨d, hd, hcell⟩, hg, hi, hlast⟩
      cases hd with
      | arg hr hb hf hj hrest =>
        exact .arg hr hb hf hj (ih.2 ⟨t, g, n, ⟨d, hrest, hcell⟩, hg, hi, hlast⟩)

def Alike (h : Heap) (a : Address) (path place : List Nat) : Prop :=
  (∀ t, h.Structured a path t ↔ h.Structured a place t) ∧
    ∀ b, h.cells[b]? = some (.ref b) → (h.Leads a path b ↔ h.Leads a place b)

theorem Alike.leads (hp : h.Alike a path place) (i : Nat) (rest : List Nat) (c : Address) :
    h.Leads a (path ++ i :: rest) c ↔ h.Leads a (place ++ i :: rest) c := by
  simp only [leads_append, hp.1]

theorem Alike.append (hp : h.Alike a path place) (i : Nat) (rest : List Nat) :
    h.Alike a (path ++ i :: rest) (place ++ i :: rest) := by
  refine ⟨fun t => ?_, fun b _ => hp.leads i rest b⟩
  simp only [Structured, hp.leads]

theorem Alike.holds {table : Functor.Table} {name : Address → String} {l : Label}
    (hp : h.Alike a path place) : h.Holds table name a path l ↔ h.Holds table name a place l := by
  constructor
  · rintro (⟨hb, hcell⟩ | ⟨ht, hf, hl⟩)
    · exact .var ((hp.2 _ hcell).1 hb) hcell
    · exact .functor ((hp.1 _).1 ht) hf hl
  · rintro (⟨hb, hcell⟩ | ⟨ht, hf, hl⟩)
    · exact .var ((hp.2 _ hcell).2 hb) hcell
    · exact .functor ((hp.1 _).2 ht) hf hl

/-- A position has one label. -/
theorem Holds.unique {table : Functor.Table} {name : Address → String} {l l' : Label}
    (hl : h.Holds table name a path l) (hl' : h.Holds table name a path l') : l = l' := by
  cases hl with
  | var hb hcell =>
    cases hl' with
    | var hb' => rw [hb.unique hb']
    | functor ht' => exact absurd hb (ht'.not_leads hcell)
  | functor ht hf hname =>
    cases hl' with
    | var hb' hcell' => exact absurd hb' (ht.not_leads hcell')
    | functor ht' hf' hname' =>
      obtain rfl := ht.unique ht'
      obtain ⟨rfl, rfl⟩ := Cell.functor.inj (Option.some.inj (hf.symm.trans hf'))
      obtain ⟨rfl, -⟩ := Functor.mk.inj (Option.some.inj (hname.symm.trans hname'))
      rfl

theorem Holds.exists_leads {table : Functor.Table} {name : Address → String} {l : Label}
    (hl : h.Holds table name a path l) : ∃ b, h.Leads a path b := by
  cases hl with
  | var hb => exact ⟨_, hb⟩
  | functor ht =>
    obtain ⟨b, hb, -⟩ := ht
    exact ⟨b, hb⟩

theorem alike_of_structured (ht : h.Structured a path t) (ht' : h.Structured a place t) :
    h.Alike a path place := by
  refine ⟨fun s => ⟨fun hs => ?_, fun hs => ?_⟩, fun b hb => ?_⟩
  · rwa [hs.unique ht]
  · rwa [hs.unique ht']
  · exact iff_of_false (ht.not_leads hb) (ht'.not_leads hb)

/-- A structure inside itself is there as often as one likes, so its tree is infinite. -/
theorem Loops.infinite (hloop : h.Loops a above path) :
    ¬{path | ∃ b, h.Leads a path b}.Finite := by
  obtain ⟨habove, t, ht, ht'⟩ := hloop
  obtain ⟨i, rest, rfl⟩ := habove.exists_rest
  -- behind each copy of the structure the same path leads to one more
  have hlong : ∀ k, ∃ other, k ≤ other.length ∧ h.Structured a other t := by
    intro k
    induction k with
    | zero => exact ⟨above, Nat.zero_le _, ht⟩
    | succ k ih =>
      obtain ⟨other, hk, hother⟩ := ih
      have halike := (alike_of_structured ht hother).append i rest
      exact ⟨other ++ i :: rest, by simp; omega, (halike.1 t).1 ht'⟩
  intro hfinite
  obtain ⟨k, hk⟩ := (hfinite.image List.length).bddAbove
  obtain ⟨other, hlen, b, hb, -⟩ := hlong (k + 1)
  exact Nat.not_succ_le_self k (hlen.trans (hk ⟨other, ⟨b, hb⟩, rfl⟩))

/-- When each cut in `T` is replaced by the structure above that it names, again and again, the
position at the end of `path` is a copy of the one at `place` in `T`. -/
inductive Unrolls (h : Heap) (a : Address) (T : Term) : List Nat → List Nat → Prop
  | root : Unrolls h a T [] []
  | arg {path place : List Nat} {i : Nat} {u : Term} : Unrolls h a T path place →
      T.follow (place ++ [i]) = some u → Unrolls h a T (path ++ [i]) (place ++ [i])
  | jump {path place above : List Nat} : Unrolls h a T path place → h.Loops a above place →
      Unrolls h a T path above

theorem Unrolls.alike {T : Term} (hp : h.Unrolls a T path place) : h.Alike a path place := by
  induction hp with
  | root => exact ⟨fun _ => Iff.rfl, fun _ _ => Iff.rfl⟩
  | arg _ _ ih => exact ih.append _ []
  | jump _ hloop ih =>
    obtain ⟨-, t, ht, ht'⟩ := hloop
    exact alike_of_structured ((ih.1 t).2 ht') ht

end Heap

namespace Machine

open Heap

/-- What is read at `a` has the positions of the tree there, up to the cuts, and at each what the
tree has. -/
structure Faithful (m : Machine) (name : Address → String) (a : Address) (T : Term) : Prop where
  /-- A structure is cut when it is inside itself, and then named by its functor cell. -/
  cut : ∀ {path u}, T.follow path = some u → m.state.heap.IsCut a path →
    ∃ t, m.state.heap.Structured a path t ∧ u = .var (cutName t)
  /-- Otherwise it is as on the heap. -/
  holds : ∀ {path u}, T.follow path = some u → ¬m.state.heap.IsCut a path →
    m.state.heap.Holds m.functors name a path u.label
  /-- Structures without arguments are atoms. -/
  canon : T.canon = T
  /-- Nothing is left out but what is below a cut. -/
  positions : ∀ path, (∃ u, T.follow path = some u) ↔ (∃ b, m.state.heap.Leads a path b) ∧
    ∀ above, IsAbove above path → ¬m.state.heap.IsCut a above
  /-- Nothing is cut in a finite tree. -/
  finite : (∀ path u, T.follow path = some u → ¬m.state.heap.IsCut a path) ↔
    {path | ∃ b, m.state.heap.Leads a path b}.Finite
  /-- The tree comes back when cuts are replaced. -/
  unrolled : ∀ path l, m.state.heap.Holds m.functors name a path l ↔
    ∃ place u, m.state.heap.Unrolls a T path place ∧ T.follow place = some u ∧
      ¬m.state.heap.IsCut a place ∧ u.label = l

section Reads

variable {names : Names} {table : Functor.Table} {h : Heap} {ancestors : List Address}
  {a c : Address} {T u : Term} {path above rest : List Nat} {i : Nat}

theorem Reads.exists_resolves (hT : Reads names table h ancestors a T) : ∃ b, h.Resolves a b := by
  cases hT with
  | var hr => exact ⟨_, hr⟩
  | cut hr => exact ⟨_, hr⟩
  | app _ hr => exact ⟨_, hr⟩

/-- At each position a term is read inside the structures above. -/
theorem Reads.follow (hT : Reads names table h [] a T) (hu : T.follow path = some u) :
    ∃ ancestors c, Reads names table h ancestors c u ∧
      (∀ b, h.Resolves c b → h.Leads a path b) ∧
      ∀ t, t ∈ ancestors ↔ ∃ above, IsAbove above path ∧ h.Structured a above t := by
  induction path using List.reverseRecOn generalizing u with
  | nil =>
    obtain rfl : T = u := Option.some.inj hu
    refine ⟨[], a, hT, fun b hb => .here hb, fun t => ?_⟩
    simp [not_isAbove_nil]
  | append_singleton path i ih =>
    obtain ⟨w, hw, -⟩ := Term.exists_follow_append hu
    obtain ⟨ancestors, c, hread, hleads, hanc⟩ := ih hw
    rw [Term.follow_append hw] at hu
    cases hread with
    | var => simp [Term.args] at hu
    | cut => simp [Term.args] at hu
    | @app _ _ b t f n name ts hr hc _ hf hl hts =>
      have ht : h.Structured a path t := ⟨b, hleads b hr, hc⟩
      rw [args_ofArgs, List.getElem?_map] at hu
      cases hi : (argumentAddresses t n.val)[i]? with
      | none => simp [hi] at hu
      | some d =>
        simp only [hi, Option.map_some, Option.some.injEq] at hu
        subst hu
        obtain ⟨hlt, hget⟩ := List.getElem?_eq_some_iff.1 hi
        obtain rfl : t + (i + 1) = d := by simpa [argumentAddresses] using hget
        have hin : i < n.val := by simpa [argumentAddresses] using hlt
        refine ⟨_, _, hts _ (List.mem_of_getElem? hi), fun e he => ?_, fun s => ?_⟩
        · exact leads_append.2 ⟨t, f, n, ht, hf, hin, .here he⟩
        -- the structure that the argument belongs to is one more ancestor
        · have hlast : s = t ↔ h.Structured a path s :=
            ⟨fun heq => heq ▸ ht, fun hs => hs.unique ht⟩
          rw [List.mem_cons, hanc, hlast]
          simp only [isAbove_concat, or_and_right, exists_or, exists_eq_left]

/-- A position is cut, or it has what the tree has. -/
theorem Reads.position (hT : Reads names table h [] a T) (hu : T.follow path = some u) :
    (h.IsCut a path ∧ ∃ t, h.Structured a path t ∧ u = .var (cutName t)) ∨
      ¬h.IsCut a path ∧ h.Holds table (printedName names) a path u.label := by
  obtain ⟨ancestors, c, hread, hleads, hanc⟩ := hT.follow hu
  cases hread with
  | @var _ _ b hr hc =>
    refine .inr ⟨?_, .var (hleads b hr) hc⟩
    rintro ⟨above, -, t, -, ht⟩
    exact ht.not_leads hc (hleads b hr)
  | @cut _ _ b t hr hc hmem =>
    have ht : h.Structured a path t := ⟨b, hleads b hr, hc⟩
    obtain ⟨above, habove, hs⟩ := (hanc t).1 hmem
    exact .inl ⟨⟨above, habove, t, hs, ht⟩, t, ht, rfl⟩
  | @app _ _ b t f n name ts hr hc hnot hf hl =>
    have ht : h.Structured a path t := ⟨b, hleads b hr, hc⟩
    refine .inr ⟨?_, ?_⟩
    · rintro ⟨above, habove, s, hs, hs'⟩
      obtain rfl := hs'.unique ht
      exact hnot ((hanc s).2 ⟨above, habove, hs⟩)
    · rw [Term.label_ofArgs, List.length_map]
      have hlen : (argumentAddresses t n.val).length = n.val := by simp [argumentAddresses]
      rw [hlen]
      exact .functor ht hf hl

theorem Reads.not_isCut (hT : Reads names table h [] a T) (hu : T.follow path = some u)
    (habove : IsAbove above path) : ¬h.IsCut a above := by
  obtain ⟨i, rest, rfl⟩ := habove.exists_rest
  obtain ⟨w, hw, hrest⟩ := Term.exists_follow_append hu
  rcases hT.position hw with ⟨-, t, -, rfl⟩ | ⟨hcut, -⟩
  · simp [Term.follow, Term.args] at hrest
  · exact hcut

/-- Below a position that is not cut there is what the tree has. -/
theorem Reads.exists_argument (hT : Reads names table h [] a T) (hu : T.follow path = some u)
    (hcut : ¬h.IsCut a path) (hc : h.Leads a (path ++ [i]) c) :
    ∃ w, T.follow (path ++ [i]) = some w := by
  obtain ⟨t, f, n, ht, hf, hi, -⟩ := leads_append.1 hc
  rcases hT.position hu with ⟨hcut', -⟩ | ⟨-, hholds⟩
  · exact absurd hcut' hcut
  · generalize hl : u.label = l at hholds
    cases hholds with
    | var hb hcell => exact absurd hb (ht.not_leads hcell)
    | functor ht' hf' _ =>
      obtain rfl := ht'.unique ht
      obtain ⟨rfl, rfl⟩ := Cell.functor.inj (Option.some.inj (hf.symm.trans hf'))
      have hlt : i < u.args.length := Term.length_args_of_label hl ▸ hi
      exact ⟨u.args[i], by rw [Term.follow_append hu, List.getElem?_eq_getElem hlt]⟩

/-- The positions that are read are those of the tree, up to the cuts. -/
theorem Reads.positions (hT : Reads names table h [] a T) :
    (∃ u, T.follow path = some u) ↔
      (∃ b, h.Leads a path b) ∧ ∀ above, IsAbove above path → ¬h.IsCut a above := by
  constructor
  · rintro ⟨u, hu⟩
    obtain ⟨ancestors, c, hread, hleads, -⟩ := hT.follow hu
    obtain ⟨b, hb⟩ := hread.exists_resolves
    exact ⟨⟨b, hleads b hb⟩, fun above habove => hT.not_isCut hu habove⟩
  · rintro ⟨⟨b, hb⟩, hnot⟩
    induction path using List.reverseRecOn generalizing b with
    | nil => exact ⟨T, rfl⟩
    | append_singleton path i ih =>
      obtain ⟨t, -, -, ⟨d, hd, -⟩, -⟩ := leads_append.1 hb
      obtain ⟨u, hu⟩ := ih (fun above habove => hnot above (isAbove_concat.2 (.inr habove))) d hd
      exact hT.exists_argument hu (hnot path (isAbove_concat.2 (.inl rfl))) hb

theorem Reads.finite (hT : Reads names table h [] a T) :
    (∀ path u, T.follow path = some u → ¬h.IsCut a path) ↔
      {path | ∃ b, h.Leads a path b}.Finite := by
  constructor
  · intro hnone
    refine T.finite_positions.subset ?_
    rintro path ⟨b, hb⟩
    induction path using List.reverseRecOn generalizing b with
    | nil => exact ⟨T, rfl⟩
    | append_singleton path i ih =>
      obtain ⟨t, -, -, ⟨d, hd, -⟩, -⟩ := leads_append.1 hb
      obtain ⟨u, hu⟩ := ih d hd
      exact hT.exists_argument hu (hnone path u hu) hb
  · rintro hfinite path u - ⟨above, hloop⟩
    exact hloop.infinite hfinite

/-- Each position of the tree is a copy of one that is read and not cut. -/
theorem Reads.exists_place (hT : Reads names table h [] a T) {b : Address}
    (hb : h.Leads a path b) :
    ∃ place u, h.Unrolls a T path place ∧ T.follow place = some u ∧ ¬h.IsCut a place := by
  induction path using List.reverseRecOn generalizing b with
  | nil => exact ⟨[], T, .root, rfl, fun ⟨above, hloop, _⟩ => not_isAbove_nil above hloop⟩
  | append_singleton path i ih =>
    obtain ⟨t, -, -, ⟨d, hd, -⟩, -⟩ := leads_append.1 hb
    obtain ⟨place, u, hunrolls, hu, hcut⟩ := ih hd
    have hplace := (hunrolls.alike.leads i [] b).1 hb
    obtain ⟨w, hw⟩ := hT.exists_argument hu hcut hplace
    -- what is cut here has been read further up
    by_cases hagain : h.IsCut a (place ++ [i])
    · obtain ⟨above, hloop⟩ := hagain
      obtain ⟨j, rest, heq⟩ := hloop.1.exists_rest
      obtain ⟨v, hv, -⟩ := Term.exists_follow_append (heq ▸ hw)
      exact ⟨above, v, (hunrolls.arg hw).jump hloop, hv, hT.not_isCut hw hloop.1⟩
    · exact ⟨place ++ [i], w, hunrolls.arg hw, hw, hagain⟩

theorem Reads.unrolled (hT : Reads names table h [] a T) {l : Label} :
    h.Holds table (printedName names) a path l ↔ ∃ place u, h.Unrolls a T path place ∧
      T.follow place = some u ∧ ¬h.IsCut a place ∧ u.label = l := by
  have hlabel : ∀ {place u}, T.follow place = some u → ¬h.IsCut a place →
      h.Holds table (printedName names) a place u.label := by
    intro place u hu hcut
    rcases hT.position hu with ⟨hcut', -⟩ | ⟨-, hholds⟩
    · exact absurd hcut' hcut
    · exact hholds
  constructor
  · intro hl
    obtain ⟨b, hb⟩ := hl.exists_leads
    obtain ⟨place, u, hunrolls, hu, hcut⟩ := hT.exists_place hb
    exact ⟨place, u, hunrolls, hu, hcut, (hlabel hu hcut).unique (hunrolls.alike.holds.1 hl)⟩
  · rintro ⟨place, u, hunrolls, hu, hcut, rfl⟩
    exact hunrolls.alike.holds.2 (hlabel hu hcut)

end Reads

theorem Reads.faithful {names : Names} {m : Machine} {a : Address} {T : Term}
    (hT : Reads names m.functors m.state.heap [] a T) :
    m.Faithful (printedName names) a T where
  cut hu hcut := by
    rcases hT.position hu with ⟨-, hname⟩ | ⟨hnot, -⟩
    · exact hname
    · exact absurd hcut hnot
  holds hu hcut := by
    rcases hT.position hu with ⟨hcut', -⟩ | ⟨-, hholds⟩
    · exact absurd hcut' hcut
    · exact hholds
  canon := hT.canon_eq
  positions _ := hT.positions
  finite := hT.finite
  unrolled _ _ := hT.unrolled

def Captures (m : Machine) (a : Address) : Prop :=
  m.capture.root = some a ∨ ∃ x, (x, a) ∈ m.capture.vars

section ReadBack

variable {m : Machine} {k root : Address} {q : Term} {N : Names} {read : Address → Term}

theorem readTerm_of_readBack (hback : ReadBack k m root N read)
    (hw : m.state.heap.WellBuilt m.functors k 0) {a : Address} (ha : HasTerm k m.state.heap a) :
    m.readTerm a = .ok (read a) := by
  obtain ⟨read', hread'⟩ := exists_reads hw N
  have hnames : m.names = .ok N := by
    rw [names, hback.names]
    rfl
  rw [Machine.readTerm, hnames, ← (hread' a ha).2.unique (hback.reads a ha)]
  exact (hread' a ha).1

theorem Captures.hasTerm {a : Address} (ha : m.Captures a)
    (hcap : Captured m.functors k q m.state.heap m.capture root) : HasTerm k m.state.heap a := by
  rcases ha with hroot | ⟨x, hx⟩
  · rw [hcap.root_eq, Option.some.injEq] at hroot
    exact hroot ▸ hcap.root_term
  · exact hcap.var_term hx

end ReadBack

variable {capacities : Capacities} {calls : List Call} {q p : Term} {query program : Code}

/-- After any run that answers, everything can be read back, and what is read of the query's term
and of each of its variables is the tree on the heap, cut where a structure is inside itself. -/
theorem run_readBack_faithful (hq : CompiledQuery capacities calls q query)
    (hp : CompiledProgram capacities calls p program) {answer : Bool}
    (hends : (((create capacities).afterAll calls).run query program).1 = .ok answer) {n : Machine}
    (hn : n = (((create capacities).afterAll calls).run query program).2) :
    (∃ T, n.queryTerm = .ok (some T)) ∧ (∃ bindings, n.bindings = .ok bindings) ∧
      (∀ x, ∃ T, n.binding x = .ok T) ∧
      ∃ name : Address → String,
        (∀ b, n.state.heap.cells[b]? = some (.ref b) →
          n.Named (name b) b ∨ n.Generated (name b) b) ∧
        ∀ a, n.Captures a → ∃ T, n.readTerm a = .ok T ∧ n.Faithful name a T := by
  obtain ⟨hw, root, hcap⟩ := run_captured hq hp rfl hn hends
  obtain ⟨N, read, hback⟩ := hcap.readBack hw
  have hread : ∀ {a}, n.Captures a → n.readTerm a = .ok (read a) :=
    fun ha => readTerm_of_readBack hback hw (ha.hasTerm hcap)
  refine ⟨⟨_, hback.queryTerm⟩, ⟨_, hback.bindings⟩, fun x => ?_, printedName N,
    fun b hb => named_or_generated hback.names hb, fun a ha => ⟨read a, hread ha, ?_⟩⟩
  · rw [binding]
    cases hx : n.capture.vars.lookup x with
    | none => exact ⟨none, rfl⟩
    | some a =>
      obtain ⟨before, after, heq, -⟩ := List.lookup_eq_some_iff.1 hx
      have hmem : (x, a) ∈ n.capture.vars := heq ▸ List.mem_append_right _ List.mem_cons_self
      dsimp only
      rw [hread (.inr ⟨x, hmem⟩)]
      exact ⟨some (read a), rfl⟩
  · exact (hback.reads a (ha.hasTerm hcap)).faithful

/-- A run that has put a structure inside itself when it comes to a mismatch. -/
theorem run_readBack_faithful_cyclic :
    let q : Term := .app "p" [.var "X", .var "X", .atom "a"]
    let p : Term := .app "p" [.app "f" [.var "Y"], .var "Y", .atom "b"]
    let query : Code := ⟨[.putStructure 1 0 2, .putStructure 0 3 0, .setVariable 1, .setValue 1,
      .setValue 2], [("X", 1)]⟩
    let program : Code := ⟨[.getStructure 0 3 0, .unifyVariable 1, .unifyVariable 2,
      .unifyVariable 3, .getStructure 2 1 1, .unifyValue 2, .getStructure 3 0 3], [("Y", 2)]⟩
    let calls : List Call := [.query q, .program p]
    let n := (((create ⟨8, 40, 20, 4⟩).afterAll calls).run query program).2
    CompiledQuery ⟨8, 40, 20, 4⟩ calls q query ∧ CompiledProgram ⟨8, 40, 20, 4⟩ calls p program ∧
      (((create ⟨8, 40, 20, 4⟩).afterAll calls).run query program).1 = .ok false ∧
      n.binding "X" = .ok (some (.app "f" [.var "_S0008"])) ∧
      (∃ T, n.queryTerm = .ok (some T)) ∧ (∃ bindings, n.bindings = .ok bindings) ∧
      (∀ x, ∃ T, n.binding x = .ok T) ∧
      ∃ name : Address → String,
        (∀ b, n.state.heap.cells[b]? = some (.ref b) →
          n.Named (name b) b ∨ n.Generated (name b) b) ∧
        ∀ a, n.Captures a → ∃ T, n.readTerm a = .ok T ∧ n.Faithful name a T := by
  intro q p query program calls n
  have hq : CompiledQuery ⟨8, 40, 20, 4⟩ calls q query :=
    ⟨[], [.program p], rfl, by simp, by decide +kernel⟩
  have hp : CompiledProgram ⟨8, 40, 20, 4⟩ calls p program :=
    ⟨[.query q], [], rfl, by simp, by decide +kernel⟩
  have hends : (((create ⟨8, 40, 20, 4⟩).afterAll calls).run query program).1 = .ok false := by
    decide +kernel
  have hbinding : n.binding "X" = .ok (some (.app "f" [.var "_S0008"])) := by decide +kernel
  exact ⟨hq, hp, hends, hbinding, run_readBack_faithful hq hp hends rfl⟩

end Machine

end TermMachine
