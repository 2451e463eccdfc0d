import Mathlib.Algebra.GroupWithZero.Nat
import TermMachine.Proofs.Code.Order
import TermMachine.Proofs.Tree.Domain

/-! # Blocks as equations

In a domain of trees a block says that its register stands for the node of its arguments. The blocks
of a term together say what the term's register stands for, once its variables are known.
-/
namespace TermMachine.Block

open RegisterMap

variable {D : Type} [TreeDomain D] {table : Functor.Table} {nodes : Array Term} {map : RegisterMap}
  {root : Term} {σ : String → D} {ν : Register → D}

def Holds (table : Functor.Table) (ν : Register → D) (b : Block) : Prop :=
  ∀ name, table.lookup b.functor = some ⟨name, b.arity⟩ →
    ν b.register = node name (b.arguments.map ν)

theorem Holds.congr {b : Block} {ν' : Register → D} (h : b.Holds table ν)
    (hreg : ν' b.register = ν b.register) (hargs : ∀ y ∈ b.arguments, ν' y = ν y) :
    b.Holds table ν' := by
  intro name hname
  rw [hreg, h name hname, List.map_congr_left hargs]

theorem IsFor.map_eq {b : Block} {t : Term} (hfor : b.IsFor table nodes t)
    (hargs : ∀ p ∈ b.arguments.zip t.args, ν p.1 = p.2.eval σ) :
    b.arguments.map ν = t.args.map (Term.eval σ) := by
  have hlen := hfor.arguments.length_eq
  have hleft := List.map_fst_zip (Nat.le_of_eq hlen)
  have hright := List.map_snd_zip (Nat.le_of_eq hlen.symm)
  calc b.arguments.map ν = (b.arguments.zip t.args).map fun p => ν p.1 := by
        rw [← hleft, List.map_map, hleft]
        rfl
    _ = (b.arguments.zip t.args).map fun p => p.2.eval σ := List.map_congr_left hargs
    _ = t.args.map (Term.eval σ) := by
        rw [← hright, List.map_map, hright]
        rfl

/-- Where all blocks hold, a register stands for the value of its term. -/
theorem eval_of_holds (h : map.Represents table root nodes)
    (hvar : ∀ x name, nodes[x]? = some (.var name) → ν x = σ name) {x : Register} {t : Term}
    (hx : nodes[x]? = some t) (hbs : ∀ b ∈ parentsFirst map x t [], b.Holds table ν) :
    ν x = t.eval σ := by
  refine induction_on h (P := fun x t => (∀ b ∈ parentsFirst map x t [], b.Holds table ν) →
    ν x = t.eval σ) ?_ ?_ hx hbs
  · exact fun x name hx _ => hvar x name hx
  · intro b t hfor hb ih hbs
    rw [parentsFirst_eq hfor.isApp hb] at hbs
    have hargs : ∀ p ∈ b.arguments.zip t.args, ν p.1 = p.2.eval σ := fun p hp =>
      ih p hp fun c hc => hbs c (List.mem_cons_of_mem b (List.mem_flatMap.2 ⟨p, hp, hc⟩))
    rw [hbs b List.mem_cons_self t.name hfor.functor, Term.eval_isApp σ hfor.isApp,
      hfor.map_eq hargs]

theorem holds_of_eval (hν : ∀ x t, nodes[x]? = some t → ν x = t.eval σ) {b : Block} {t : Term}
    (hfor : b.IsFor table nodes t) : b.Holds table ν := by
  intro name hname
  rw [hfor.functor, Option.some.injEq, Functor.mk.injEq] at hname
  rw [hν b.register t hfor.node, Term.eval_isApp σ hfor.isApp, hname.1,
    hfor.map_eq fun p hp => hν p.1 p.2 (hfor.zip hp)]

def cells : List Block → Nat
  | [] => 0
  | b :: bs => 2 + b.arity.val + cells bs

theorem cells_eq_sum (bs : List Block) : cells bs = (bs.map fun b => 2 + b.arity.val).sum := by
  induction bs with
  | nil => rfl
  | cons b bs ih => rw [cells, ih, List.map_cons, List.sum_cons]

theorem cells_perm {bs cs : List Block} (h : bs.Perm cs) : cells bs = cells cs := by
  rw [cells_eq_sum, cells_eq_sum]
  exact (h.map _).sum_nat

/-- Code has an instruction for each cell, but only one for the two of a structure's head. -/
theorem length_code (style : Style) (met : Std.TreeSet Register) {bs : List Block}
    (h : ∀ b ∈ bs, b.arguments.length = b.arity.val) :
    (code style met bs).length + bs.length = cells bs := by
  induction bs generalizing met with
  | nil => rfl
  | cons b bs ih =>
    have hb := h b List.mem_cons_self
    have hrest := ih (b.after met) fun c hc => h c (List.mem_cons_of_mem b hc)
    rw [code, cells, List.cons_append, List.length_cons, List.length_append, length_argumentCode,
      List.length_cons]
    omega

/-- What the blocks of a term add up to, when each block has its share of its subterm. -/
theorem sum_parentsFirst (h : map.Represents table root nodes) {f : Block → Nat} {F : Term → Nat}
    (hvar : ∀ name, F (.var name) = 0)
    (happ : ∀ b t, b.IsFor table nodes t → F t = f b + (t.args.map F).sum) {x : Register} {t : Term}
    (hx : nodes[x]? = some t) : ((parentsFirst map x t []).map f).sum = F t := by
  refine induction_on h (P := fun x t => ((parentsFirst map x t []).map f).sum = F t) ?_ ?_ hx
  · exact fun x name _ => (hvar name).symm
  · intro b t hfor hb ih
    have hsum : ∀ ps : List (Register × Term),
        (∀ p ∈ ps, ((parentsFirst map p.1 p.2 []).map f).sum = F p.2) →
        ((ps.flatMap fun p => parentsFirst map p.1 p.2 []).map f).sum =
          ((ps.map Prod.snd).map F).sum := by
      intro ps hps
      induction ps with
      | nil => rfl
      | cons p ps ihps =>
        rw [List.flatMap_cons, List.map_append, List.sum_append, hps p List.mem_cons_self,
          ihps fun q hq => hps q (List.mem_cons_of_mem p hq), List.map_cons, List.map_cons,
          List.sum_cons]
    rw [parentsFirst_eq hfor.isApp hb, List.map_cons, List.sum_cons, hsum _ ih,
      List.map_snd_zip (Nat.le_of_eq hfor.arguments.length_eq.symm), happ b t hfor]

theorem cells_parentsFirst (h : map.Represents table root nodes) {x : Register} {t : Term}
    (hx : nodes[x]? = some t) : cells (parentsFirst map x t []) = t.cells := by
  have hall : ∀ ts : List Term, Term.cellsAll ts = (ts.map Term.cells).sum := by
    intro ts
    induction ts with
    | nil => rfl
    | cons t ts ih => rw [Term.cellsAll, ih, List.map_cons, List.sum_cons]
  rw [cells_eq_sum]
  refine sum_parentsFirst h (fun _ => rfl) (fun b t hfor => ?_) hx
  rw [← hall, hfor.arity]
  cases t with
  | var name => exact hfor.isApp.elim
  | atom name => rfl
  | app name args => rfl

end TermMachine.Block
