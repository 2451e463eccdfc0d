import TermMachine.Proofs.Machine.Decode

/-! # What is read is a model

A heap with a model in finite terms has no structure inside itself, so nothing that is read from it
is cut. Every model is then an instance of what is read, and every instance of what is read is a
model.
-/
namespace TermMachine

open Heap

namespace Machine

variable {names : Names} {table : Functor.Table} {h : Heap} {k : Address}
  {ancestors : List Address} {a b t : Address} {T : Term} {v : Address → CanonicalTerm}

/-- The structures at `ancestors` have larger values than the term at an address. -/
def Above (k : Address) (h : Heap) (v : Address → CanonicalTerm) (ancestors : List Address)
    (a : Address) : Prop :=
  ∀ t ∈ ancestors, ∃ b, k ≤ b ∧ h.cells[b]? = some (.str t) ∧ sizeOf (v a).1 < sizeOf (v b).1

theorem above_nil (k : Address) (h : Heap) (v : Address → CanonicalTerm) (a : Address) :
    Above k h v [] a := by
  intro t ht
  cases ht

section Finite

variable (hw : h.WellBuilt table k 0) (hv : h.Models table k v)
include hw hv

theorem Above.not_mem (habove : Above k h v ancestors a) (hk : k ≤ a) (hr : h.Resolves a b)
    (hb : h.cells[b]? = some (.str t)) : t ∉ ancestors := by
  intro hmem
  obtain ⟨c, hkc, hc, hlt⟩ := habove t hmem
  have hkb := hw.resolves_le hr hk
  obtain ⟨-, f, n, name, hf, hl⟩ := hw.structure_cell hkb hb
  rw [hv.resolves hw.toSoundFrom hr hk, hv.str hkb hb hf hl, hv.str hkc hc hf hl] at hlt
  exact Nat.lt_irrefl _ hlt

theorem sizeOf_argument_lt (hk : k ≤ b) (hb : h.cells[b]? = some (.str t)) {f : FunctorId}
    {n : Arity} (hf : h.cells[t]? = some (.functor f n)) {c : Address}
    (hc : c ∈ argumentAddresses t n.val) : sizeOf (v c).1 < sizeOf (v b).1 := by
  obtain ⟨name, hl⟩ := hw.known (hw.str_functor hk hb).1 hf
  rw [hv.str hk hb hf hl]
  exact CanonicalTerm.sizeOf_lt_of_mem (List.mem_map_of_mem (List.mem_map_of_mem hc))

theorem Above.argument (habove : Above k h v ancestors a) (hk : k ≤ a) (hr : h.Resolves a b)
    (hb : h.cells[b]? = some (.str t)) {f : FunctorId} {n : Arity}
    (hf : h.cells[t]? = some (.functor f n)) {c : Address} (hc : c ∈ argumentAddresses t n.val) :
    Above k h v (t :: ancestors) c := by
  have hkb := hw.resolves_le hr hk
  have hlt := sizeOf_argument_lt hw hv hkb hb hf hc
  have hab := hv.resolves hw.toSoundFrom hr hk
  intro u hu
  rcases List.mem_cons.1 hu with rfl | hu
  · exact ⟨b, hkb, hb, hlt⟩
  · obtain ⟨d, hkd, hd, hlt'⟩ := habove u hu
    rw [hab] at hlt'
    exact ⟨d, hkd, hd, Nat.lt_trans hlt hlt'⟩

/-- Every model is an instance of what is read. -/
theorem Reads.value (hT : Reads names table h ancestors a T) (habove : Above k h v ancestors a)
    (hk : k ≤ a) {D : Type} [TreeDomain D] {w : Address → D} (hw' : h.Models table k w)
    {σ : String → D}
    (hσ : ∀ b, k ≤ b → h.cells[b]? = some (.ref b) → w b = σ (printedName names b)) :
    w a = T.eval σ := by
  induction hT with
  | var hr hc =>
    rw [hw'.resolves hw.toSoundFrom hr hk, hσ _ (hw.resolves_le hr hk) hc, Term.eval_var]
  | cut hr hc hmem => exact absurd hmem (habove.not_mem hw hv hk hr hc)
  | @app _ a b t f n name ts hr hc _ hf hl _ ih =>
    have hkb := hw.resolves_le hr hk
    have hkt := (hw.str_functor hkb hc).1
    rw [hw'.resolves hw.toSoundFrom hr hk, hw'.str hkb hc hf hl, Term.eval_ofArgs, List.map_map]
    refine congrArg (node name) (List.map_congr_left fun c hmem => ?_)
    exact ih c hmem (habove.argument hw hv hk hr hc hf hmem) (hw.hasTerm_of_mem hkt hf hmem).1

/-- What is read at an address does not depend on the structures around it. -/
theorem Reads.within (hT : Reads names table h ancestors a T) (habove : Above k h v ancestors a)
    (hk : k ≤ a) {ancestors' : List Address} (habove' : Above k h v ancestors' a) :
    Reads names table h ancestors' a T := by
  induction hT generalizing ancestors' with
  | var hr hc => exact .var hr hc
  | cut hr hc hmem => exact absurd hmem (habove.not_mem hw hv hk hr hc)
  | @app _ a b t f n name ts hr hc _ hf hl _ ih =>
    have hkt := (hw.str_functor (hw.resolves_le hr hk) hc).1
    refine .app ts hr hc (habove'.not_mem hw hv hk hr hc) hf hl fun c hmem => ?_
    exact ih c hmem (habove.argument hw hv hk hr hc hf hmem) (hw.hasTerm_of_mem hkt hf hmem).1
      (habove'.argument hw hv hk hr hc hf hmem)

end Finite

theorem Reads.of_ref (hc : h.cells[a]? = some (.ref b)) (hT : Reads names table h ancestors b T) :
    Reads names table h ancestors a T := by
  by_cases hab : b = a
  · exact hab ▸ hT
  · cases hT with
    | var hr hend => exact .var (.follow hc hab hr) hend
    | cut hr hend hmem => exact .cut (.follow hc hab hr) hend hmem
    | app ts hr hend hmem hf hl hts =>
      exact .app ts (.follow hc hab hr) hend hmem hf hl hts

/-- Every instance of what is read is a model. -/
theorem models_read (hw : h.WellBuilt table k 0) (hv : h.Models table k v)
    {read : Address → Term} (hread : ∀ a, HasTerm k h a → Reads names table h [] a (read a))
    {D : Type} [TreeDomain D] (σ : String → D) : h.Models table k fun a => (read a).eval σ where
  ref := by
    intro a b hk hc
    obtain ⟨hkb, d, hd, hterm⟩ := hw.ref_term hk hc
    have ha := hread a ⟨hk, _, hc, trivial⟩
    have hb := (hread b ⟨hkb, d, hd, hterm⟩).of_ref hc
    rw [ha.unique hb]
  str := by
    intro a t f n name hk hc hf hl
    have ha := hread a ⟨hk, _, hc, trivial⟩
    have hstop : h.Resolves a a := .stop hc (by simp)
    have hkt := (hw.str_functor hk hc).1
    have hwhole : Reads names table h [] a
        (Term.ofArgs name ((argumentAddresses t n.val).map read)) := by
      refine .app read hstop hc List.not_mem_nil hf hl fun c hmem => ?_
      have hterm := hw.hasTerm_of_mem hkt hf hmem
      exact (hread c hterm).within hw hv (above_nil k h v _) hterm.1
        ((above_nil k h v a).argument hw hv hk hstop hc hf hmem)
    rw [ha.unique hwhole, Term.eval_ofArgs, List.map_map]
    rfl

end Machine
end TermMachine
