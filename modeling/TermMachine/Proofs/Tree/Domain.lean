import TermMachine.Proofs.Term.Basic

/-! # Domains of trees

Terms are interpreted in any domain whose elements are built by nodes: nodes are injective, and
elements that a bisimulation relates are equal. Finite terms are such a domain, and so are finite
and infinite trees together. Equations between terms are solved in a domain by giving values to
their variables.
-/
namespace TermMachine

class TreeDomain (D : Type) where
  node : String → List D → D
  node_inj : ∀ {f g : String} {ds es : List D}, node f ds = node g es → f = g ∧ ds = es
  eq_of_bisim : ∀ (R : D → D → Prop),
    (∀ x y, R x y → x = y ∨
      ∃ f ds es, x = node f ds ∧ y = node f es ∧ List.Forall₂ R ds es) →
    ∀ x y, R x y → x = y

export TreeDomain (node)

namespace Term

variable {D : Type} [TreeDomain D]

mutual
def eval (σ : String → D) : Term → D
  | .atom name => node name []
  | .var name => σ name
  | .app name args => node name (evalAll σ args)

def evalAll (σ : String → D) : List Term → List D
  | [] => []
  | t :: ts => eval σ t :: evalAll σ ts
end

theorem evalAll_eq_map (σ : String → D) (ts : List Term) : evalAll σ ts = ts.map (eval σ) := by
  induction ts with
  | nil => rfl
  | cons t ts ih => simp [evalAll, ih]

@[simp] theorem eval_var (σ : String → D) (name : String) : (Term.var name).eval σ = σ name := rfl

theorem eval_isApp (σ : String → D) {t : Term} (ht : t.IsApp) :
    t.eval σ = node t.name (t.args.map (eval σ)) := by
  cases t with
  | atom name => rfl
  | var name => exact ht.elim
  | app name args => simp [eval, evalAll_eq_map, Term.name, Term.args]

theorem eval_ofArgs (σ : String → D) (name : String) (ts : List Term) :
    (ofArgs name ts).eval σ = node name (ts.map (eval σ)) := by
  cases ts with
  | nil => rfl
  | cons t ts => simp [ofArgs, eval, evalAll_eq_map]

theorem eval_rename (σ : String → D) (ρ : String → String) (t : Term) :
    (t.rename ρ).eval σ = t.eval fun a => σ (ρ a) := by
  induction t with
  | atom name => rfl
  | var name => rfl
  | app name args ih =>
    simp only [rename, subst, substAll_eq_map, eval, evalAll_eq_map, List.map_map]
    exact congrArg (node name) (List.map_congr_left ih)

theorem eval_congr {σ σ' : String → D} {t : Term} (h : ∀ a ∈ t.vars, σ a = σ' a) :
    t.eval σ = t.eval σ' := by
  induction t with
  | atom name => rfl
  | var name => exact h name (by simp [vars])
  | app name args ih =>
    simp only [eval, evalAll_eq_map]
    exact congrArg (node name)
      (List.map_congr_left fun u hu => ih u hu fun a ha => h a (mem_varsAll.2 ⟨u, hu, ha⟩))

end Term

theorem exists_values {α D : Type} (stands : String → α → Prop)
    (huniq : ∀ {a : String} {x y : α}, stands a x → stands a y → x = y) (d : D) (f : α → D) :
    ∃ σ : String → D, ∀ a x, stands a x → f x = σ a := by
  classical
  refine ⟨fun a => if h : ∃ x, stands a x then f h.choose else d, fun a x hx => ?_⟩
  have hex : ∃ x, stands a x := ⟨x, hx⟩
  dsimp only
  rw [dif_pos hex, huniq hx hex.choose_spec]

abbrev CanonicalTerm := {t : Term // t.canon = t}

namespace CanonicalTerm

def ofTerm (t : Term) : CanonicalTerm := ⟨t.canon, t.canon_canon⟩

theorem ofTerm_val (t : CanonicalTerm) : ofTerm t.1 = t := Subtype.ext t.2

theorem canon_ofArgs_val (f : String) (ds : List CanonicalTerm) :
    (Term.ofArgs f (ds.map Subtype.val)).canon = Term.ofArgs f (ds.map Subtype.val) := by
  rw [Term.canon_ofArgs, List.map_map]
  exact congrArg (Term.ofArgs f) (List.map_congr_left fun d _ => d.2)

def build (f : String) (ds : List CanonicalTerm) : CanonicalTerm :=
  ⟨Term.ofArgs f (ds.map Subtype.val), canon_ofArgs_val f ds⟩

theorem build_inj {f g : String} {ds es : List CanonicalTerm} (h : build f ds = build g es) :
    f = g ∧ ds = es := by
  obtain ⟨hfg, hde⟩ := Term.ofArgs_inj.1 (congrArg Subtype.val h)
  exact ⟨hfg, List.map_injective_iff.2 Subtype.val_injective hde⟩

theorem sizeOf_lt_of_mem {f : String} {ts : List Term} {t : Term} (ht : t ∈ ts) :
    sizeOf t < sizeOf (Term.ofArgs f ts) := by
  have hlt := List.sizeOf_lt_of_mem ht
  cases ts with
  | nil => cases ht
  | cons u us =>
    simp only [Term.ofArgs, Term.app.sizeOf_spec]
    omega

theorem eq_of_bisim (R : CanonicalTerm → CanonicalTerm → Prop)
    (hR : ∀ x y, R x y → x = y ∨
      ∃ f ds es, x = build f ds ∧ y = build f es ∧ List.Forall₂ R ds es)
    (x y : CanonicalTerm) (h : R x y) : x = y := by
  rcases hR x y h with heq | ⟨f, ds, es, hx, hy, hde⟩
  · exact heq
  · have hall : ds = es := by
      refine List.ext_get hde.length_eq fun i hi hi' => ?_
      have hmem : (ds.get ⟨i, hi⟩).1 ∈ ds.map Subtype.val :=
        List.mem_map_of_mem (List.get_mem ds ⟨i, hi⟩)
      have hlt : sizeOf (ds.get ⟨i, hi⟩).1 < sizeOf x.1 := by
        rw [hx]
        exact sizeOf_lt_of_mem hmem
      exact eq_of_bisim R hR _ _ ((List.forall₂_iff_get.1 hde).2 i hi hi')
    rw [hx, hy, hall]
termination_by sizeOf x.1

instance : TreeDomain CanonicalTerm where
  node := build
  node_inj := build_inj
  eq_of_bisim := eq_of_bisim

/-- In canonical terms, values of variables are a substitution. -/
theorem val_eval (σ : String → CanonicalTerm) (t : Term) :
    (t.eval σ).1 = (t.subst fun a => (σ a).1).canon := by
  induction t with
  | atom name => rfl
  | var name => exact (σ name).2.symm
  | app name args ih =>
    simp only [Term.eval, Term.evalAll_eq_map, Term.subst, Term.substAll_eq_map, Term.canon,
      Term.canonAll_eq_map]
    refine congrArg (Term.ofArgs name) ?_
    rw [List.map_map, List.map_map]
    exact List.map_congr_left fun u hu => ih u hu

theorem eval_ofTerm (s : String → Term) (t : Term) :
    t.eval (fun a => ofTerm (s a)) = ofTerm (t.subst s) := by
  induction t with
  | atom name => rfl
  | var name => rfl
  | app name args ih =>
    apply Subtype.ext
    simp only [Term.eval, Term.evalAll_eq_map, Term.subst, Term.substAll_eq_map, ofTerm,
      Term.canon, Term.canonAll_eq_map]
    refine congrArg (Term.ofArgs name) ?_
    rw [List.map_map, List.map_map]
    exact List.map_congr_left fun u hu => congrArg Subtype.val (ih u hu)

end CanonicalTerm
end TermMachine
