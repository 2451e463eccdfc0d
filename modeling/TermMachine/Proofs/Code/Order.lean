import Mathlib.Data.List.Perm.Basic
import TermMachine.Proofs.Code.Block

/-! # The two orders of blocks

The blocks of a term with children first and with parents first are the same. Two arguments of one
structure have nothing below them in common, and what is below a register is never smaller, so with
children first a register comes after all that is below it and is not met before its own block.
-/
namespace TermMachine

open RegisterMap

namespace Block

structure IsFor (table : Functor.Table) (nodes : Array Term) (b : Block) (t : Term) : Prop where
  node : nodes[b.register]? = some t
  isApp : t.IsApp
  functor : table.lookup b.functor = some ⟨t.name, b.arity⟩
  arity : b.arity.val = t.args.length
  arguments : List.Forall₂ (fun x u => nodes[x]? = some u) b.arguments t.args

structure Fits (table : Functor.Table) (count : Nat) (b : Block) : Prop where
  functor : ∃ name, table.lookup b.functor = some ⟨name, b.arity⟩
  length : b.arguments.length = b.arity.val
  register_lt : b.register < count
  arguments_lt : ∀ x ∈ b.arguments, x < count

variable {table : Functor.Table} {nodes : Array Term} {map : RegisterMap} {root : Term}

theorem IsFor.fits {b : Block} {t : Term} (hb : b.IsFor table nodes t) {count : Nat}
    (hcount : nodes.size ≤ count) : b.Fits table count where
  functor := ⟨t.name, hb.functor⟩
  length := hb.arguments.length_eq.trans hb.arity.symm
  register_lt := Nat.lt_of_lt_of_le (Array.getElem?_eq_some_iff.1 hb.node).1 hcount
  arguments_lt := by
    intro x hx
    obtain ⟨i, hi, rfl⟩ := List.getElem_of_mem hx
    have hget := (List.forall₂_iff_get.1 hb.arguments).2 i hi (hb.arguments.length_eq ▸ hi)
    exact Nat.lt_of_lt_of_le (Array.getElem?_eq_some_iff.1 hget).1 hcount

theorem exists_block (h : map.Represents table root nodes) {x : Register} {t : Term}
    (hx : nodes[x]? = some t) (happ : t.IsApp) :
    ∃ b, map.block? x = some b ∧ b.register = x ∧ b.IsFor table nodes t := by
  obtain ⟨f, n, xs, hrow, hf, hn, hargs⟩ := h.app_row hx happ
  exact ⟨⟨f, n, x, xs⟩, by simp [block?, hrow], rfl, hx, happ, hf, hn, hargs⟩

theorem block?_eq_some {x : Register} {b : Block} (h : map.block? x = some b) :
    b.register = x ∧ map.rows[x]? = some (.app b.functor b.arity b.arguments) := by
  unfold block? at h
  rcases hrow : map.rows[x]? with _ | _ | ⟨f, n, xs⟩
  · simp [hrow] at h
  · simp [hrow] at h
  · simp only [hrow, Option.some.injEq] at h
    subst h
    exact ⟨rfl, rfl⟩

/-- The blocks of terms side by side, when the blocks of each stand before the rest. -/
theorem all_eq_flatMap (one : Register → Term → List Block → List Block)
    (all : List Register → List Term → List Block → List Block)
    (hcons : ∀ x xs t ts rest, all (x :: xs) (t :: ts) rest = one x t (all xs ts rest))
    (hstop : ∀ xs ts rest, xs = [] ∨ ts = [] → all xs ts rest = rest) {ts : List Term}
    (h : ∀ t ∈ ts, ∀ x rest, one x t rest = one x t [] ++ rest) (xs : List Register)
    (rest : List Block) :
    all xs ts rest = ((xs.zip ts).flatMap fun p => one p.1 p.2 []) ++ rest := by
  induction ts generalizing xs with
  | nil => simp [hstop xs [] rest (.inr rfl)]
  | cons t ts ih =>
    cases xs with
    | nil => simp [hstop [] (t :: ts) rest (.inl rfl)]
    | cons x xs =>
      have hrest := ih (fun u hu => h u (List.mem_cons_of_mem t hu)) xs
      rw [hcons, h t List.mem_cons_self, hrest, List.zip_cons_cons, List.flatMap_cons,
        List.append_assoc]

theorem childrenFirstAll_eq {ts : List Term}
    (h : ∀ t ∈ ts, ∀ x rest, childrenFirst map x t rest = childrenFirst map x t [] ++ rest)
    (xs : List Register) (rest : List Block) : childrenFirstAll map xs ts rest =
      ((xs.zip ts).flatMap fun p => childrenFirst map p.1 p.2 []) ++ rest := by
  refine all_eq_flatMap (childrenFirst map) _ (fun _ _ _ _ _ => rfl) ?_ h xs rest
  rintro xs ts rest (rfl | rfl)
  · cases ts <;> rfl
  · cases xs <;> rfl

theorem parentsFirstAll_eq {ts : List Term}
    (h : ∀ t ∈ ts, ∀ x rest, parentsFirst map x t rest = parentsFirst map x t [] ++ rest)
    (xs : List Register) (rest : List Block) : parentsFirstAll map xs ts rest =
      ((xs.zip ts).flatMap fun p => parentsFirst map p.1 p.2 []) ++ rest := by
  refine all_eq_flatMap (parentsFirst map) _ (fun _ _ _ _ _ => rfl) ?_ h xs rest
  rintro xs ts rest (rfl | rfl)
  · cases ts <;> rfl
  · cases xs <;> rfl

theorem childrenFirst_append (t : Term) (x : Register) (rest : List Block) :
    childrenFirst map x t rest = childrenFirst map x t [] ++ rest := by
  induction t generalizing x rest with
  | var name => rfl
  | atom name => simp [childrenFirst]
  | app name args ih =>
    unfold childrenFirst
    cases map.block? x with
    | none => rfl
    | some b =>
      simp only
      rw [childrenFirstAll_eq ih, childrenFirstAll_eq ih, List.append_assoc,
        List.singleton_append]

theorem parentsFirst_append (t : Term) (x : Register) (rest : List Block) :
    parentsFirst map x t rest = parentsFirst map x t [] ++ rest := by
  induction t generalizing x rest with
  | var name => rfl
  | atom name => simp [parentsFirst]
  | app name args ih =>
    unfold parentsFirst
    cases map.block? x with
    | none => rfl
    | some b =>
      simp only
      rw [parentsFirstAll_eq ih, parentsFirstAll_eq ih, List.append_nil, List.cons_append]

theorem childrenFirst_eq {t : Term} (happ : t.IsApp) {b : Block}
    (hb : map.block? b.register = some b) :
    childrenFirst map b.register t [] =
      ((b.arguments.zip t.args).flatMap fun p => childrenFirst map p.1 p.2 []) ++ [b] := by
  cases t with
  | var name => exact happ.elim
  | atom name => simp [childrenFirst, Term.args, hb]
  | app name args =>
    simp only [childrenFirst, hb, Term.args]
    exact childrenFirstAll_eq (fun t _ => childrenFirst_append t) _ _

theorem parentsFirst_eq {t : Term} (happ : t.IsApp) {b : Block}
    (hb : map.block? b.register = some b) :
    parentsFirst map b.register t [] =
      b :: (b.arguments.zip t.args).flatMap fun p => parentsFirst map p.1 p.2 [] := by
  cases t with
  | var name => exact happ.elim
  | atom name => simp [parentsFirst, Term.args, hb]
  | app name args =>
    simp only [parentsFirst, hb, Term.args]
    rw [parentsFirstAll_eq (fun t _ => parentsFirst_append t), List.append_nil]

theorem IsFor.zip {b : Block} {t : Term} (hb : b.IsFor table nodes t) {p : Register × Term}
    (hp : p ∈ b.arguments.zip t.args) : nodes[p.1]? = some p.2 :=
  (List.forall₂_iff_zip.1 hb.arguments).2 hp

theorem IsFor.exists_zip {b : Block} {t : Term} (hb : b.IsFor table nodes t) {x : Register}
    (hx : x ∈ b.arguments) : ∃ u, (x, u) ∈ b.arguments.zip t.args := by
  rw [← List.map_fst_zip (Nat.le_of_eq hb.arguments.length_eq), List.mem_map] at hx
  obtain ⟨⟨y, u⟩, hp, rfl⟩ := hx
  exact ⟨u, hp⟩

/-- Induction on a term along with its registers. -/
theorem induction_on (h : map.Represents table root nodes) {P : Register → Term → Prop}
    (var : ∀ x name, nodes[x]? = some (.var name) → P x (.var name))
    (app : ∀ b t, b.IsFor table nodes t → map.block? b.register = some b →
      (∀ p ∈ b.arguments.zip t.args, P p.1 p.2) → P b.register t)
    {x : Register} {t : Term} (hx : nodes[x]? = some t) : P x t := by
  have happ : ∀ (t : Term), t.IsApp → (∀ u ∈ t.args, ∀ x, nodes[x]? = some u → P x u) →
      ∀ x, nodes[x]? = some t → P x t := by
    intro t happ ih x hx
    obtain ⟨b, hb, rfl, hfor⟩ := exists_block h hx happ
    exact app b t hfor hb fun p hp => ih p.2 (List.of_mem_zip hp).2 p.1 (hfor.zip hp)
  induction t generalizing x with
  | var name => exact var x name hx
  | atom name => exact happ (.atom name) trivial (by simp [Term.args]) x hx
  | app name args ih => exact happ (.app name args) trivial (fun u hu x hx => ih u hu hx) x hx

theorem perm (h : map.Represents table root nodes) {x : Register} {t : Term}
    (hx : nodes[x]? = some t) :
    (childrenFirst map x t []).Perm (parentsFirst map x t []) := by
  refine induction_on h (P := fun x t =>
    (childrenFirst map x t []).Perm (parentsFirst map x t [])) ?_ ?_ hx
  · exact fun x name _ => .refl _
  · intro b t hfor hb ih
    rw [childrenFirst_eq hfor.isApp hb, parentsFirst_eq hfor.isApp hb]
    exact (List.perm_append_singleton b _).trans (.cons b (List.Perm.flatMap_left _ ih))

/-- What is below a register: itself and the arguments, of structures, that are below. -/
inductive Below (map : RegisterMap) (nodes : Array Term) (x : Register) : Register → Prop
  | refl : Below map nodes x x
  | step {y z : Register} {row : Row} : Below map nodes x y → map.rows[y]? = some row →
      z ∈ row.arguments → IsStructured nodes z → Below map nodes x z

theorem Below.le (h : map.Represents table root nodes) {x z : Register}
    (hz : Below map nodes x z) : x ≤ z := by
  induction hz with
  | refl => exact Nat.le_refl x
  | step _ hrow hmem hstr ih => exact Nat.le_trans ih (Nat.le_of_lt (h.younger hrow hmem hstr))

theorem Below.trans {x y z : Register} (hy : Below map nodes x y) (hz : Below map nodes y z) :
    Below map nodes x z := by
  induction hz with
  | refl => exact hy
  | step _ hrow hmem hstr ih => exact .step ih hrow hmem hstr

theorem mem_blocks (h : map.Represents table root nodes) {x : Register} {t : Term}
    (hx : nodes[x]? = some t) {b : Block} (hb : b ∈ parentsFirst map x t []) :
    map.block? b.register = some b ∧ Below map nodes x b.register ∧ ∃ u, b.IsFor table nodes u := by
  refine induction_on h (P := fun x t => b ∈ parentsFirst map x t [] →
    map.block? b.register = some b ∧ Below map nodes x b.register ∧
      ∃ u, b.IsFor table nodes u) ?_ ?_ hx hb
  · intro x name _ hb
    cases hb
  · intro c t hfor hc ih hb
    rw [parentsFirst_eq hfor.isApp hc, List.mem_cons, List.mem_flatMap] at hb
    rcases hb with rfl | ⟨p, hp, hb⟩
    · exact ⟨hc, .refl, t, hfor⟩
    · obtain ⟨hblock, hbelow, u, hu⟩ := ih p hp hb
      have hstr : IsStructured nodes p.1 := by
        refine ⟨p.2, hfor.zip hp, ?_⟩
        rcases p.2.eq_var_or_isApp with ⟨name, hname⟩ | happ
        · rw [hname] at hb
          cases hb
        · exact happ
      have hmem := (List.of_mem_zip hp).1
      exact ⟨hblock, (Below.refl.step (block?_eq_some hc).2 hmem hstr).trans hbelow, u, hu⟩

theorem length_arguments (h : map.Represents table root nodes) {x : Register} {t : Term}
    (hx : nodes[x]? = some t) {b : Block} (hb : b ∈ parentsFirst map x t []) :
    b.arguments.length = b.arity.val := by
  obtain ⟨-, -, u, hu⟩ := mem_blocks h hx hb
  exact hu.arguments.length_eq.trans hu.arity.symm

/-- Arguments of one structure have nothing below them in common. -/
theorem Below.disjoint (h : map.Represents table root nodes) {x y z p : Register} {row : Row}
    (hrow : map.rows[p]? = some row) (hx : x ∈ row.arguments) (hy : y ∈ row.arguments)
    (hxs : IsStructured nodes x) (hys : IsStructured nodes y) (hne : x ≠ y)
    (hxz : Below map nodes x z) (hyz : Below map nodes y z) : False := by
  have hroot : ∀ {x y : Register}, x ∈ row.arguments → IsStructured nodes x → x ≠ y →
      y ∈ row.arguments → Below map nodes y x → IsStructured nodes y → False := by
    intro x y hx hxs hne hy hyx hys
    cases hyx with
    | refl => exact hne rfl
    | step hyw hw hmem _ =>
      obtain rfl := h.argument_unique hw hrow hmem hx hxs
      exact absurd (hyw.le h) (Nat.not_le.2 (h.younger hrow hy hys))
  induction hxz with
  | refl => exact hroot hx hxs hne hy hyz hys
  | step hxw hw hmem hstr ih =>
    cases hyz with
    | refl => exact hroot hy hys hne.symm hx (.step hxw hw hmem hstr) hxs
    | step hyw hw' hmem' _ =>
      obtain rfl := h.argument_unique hw hw' hmem hmem' hstr
      exact ih hyw

theorem isStructured_of_mem {x : Register} {t : Term} (h : nodes[x]? = some t) {b : Block}
    (hb : b ∈ parentsFirst map x t []) : IsStructured nodes x := by
  rcases t.eq_var_or_isApp with ⟨name, rfl⟩ | happ
  · cases hb
  · exact ⟨t, h, happ⟩

/-- Every block is fit for the registers met before it. -/
def Schedule (fit : Std.TreeSet Register → Block → Prop) :
    Std.TreeSet Register → List Block → Prop
  | _, [] => True
  | met, b :: bs => fit met b ∧ Schedule fit (b.after met) bs

def IsNew (met : Std.TreeSet Register) (b : Block) : Prop :=
  b.register ∉ met ∧ b.register ∉ b.arguments

def IsMet (met : Std.TreeSet Register) (b : Block) : Prop := b.register ∈ met

theorem schedule_new {met : Std.TreeSet Register} {bs : List Block}
    (hnew : ∀ b ∈ bs, IsNew met b)
    (hpair : bs.Pairwise fun c b => b.register ≠ c.register ∧ b.register ∉ c.arguments) :
    Schedule IsNew met bs := by
  induction bs generalizing met with
  | nil => trivial
  | cons c bs ih =>
    obtain ⟨hc, hbs⟩ := List.pairwise_cons.1 hpair
    refine ⟨hnew c List.mem_cons_self, ih (fun b hb => ?_) hbs⟩
    obtain ⟨hmet, hself⟩ := hnew b (List.mem_cons_of_mem c hb)
    obtain ⟨hne, harg⟩ := hc b hb
    exact ⟨by simp [mem_after, hne, harg, hmet], hself⟩

theorem childrenFirst_pairwise (h : map.Represents table root nodes) {x : Register} {t : Term}
    (hx : nodes[x]? = some t) : (childrenFirst map x t []).Pairwise
      fun c b => b.register ≠ c.register ∧ b.register ∉ c.arguments := by
  refine induction_on h (P := fun x t => (childrenFirst map x t []).Pairwise
      fun c b => b.register ≠ c.register ∧ b.register ∉ c.arguments) ?_ ?_ hx
  · exact fun x name _ => .nil
  intro b t hfor hb ih
  have hrow := (block?_eq_some hb).2
  -- what a block below an argument has to do with the registers that argument comes from
  have hbelow : ∀ p ∈ b.arguments.zip t.args, ∀ c ∈ childrenFirst map p.1 p.2 [],
      p.1 ∈ b.arguments ∧ IsStructured nodes p.1 ∧ Below map nodes p.1 c.register ∧
        map.rows[c.register]? = some (.app c.functor c.arity c.arguments) ∧
        IsStructured nodes c.register := by
    intro p hp c hc
    have hnode := hfor.zip hp
    have hc' := (perm h hnode).mem_iff.1 hc
    obtain ⟨hblock, hpc, u, hu⟩ := mem_blocks h hnode hc'
    exact ⟨(List.of_mem_zip hp).1, isStructured_of_mem hnode hc', hpc, (block?_eq_some hblock).2,
      u, hu.node, hu.isApp⟩
  rw [childrenFirst_eq hfor.isApp hb]
  refine List.pairwise_append.2 ⟨?_, List.pairwise_singleton _ _, ?_⟩
  · refine List.pairwise_flatMap.2 ⟨ih, ?_⟩
    have hinc : ((b.arguments.zip t.args).map Prod.fst).Pairwise
        fun x y => IsStructured nodes y → x < y := by
      rw [List.map_fst_zip (Nat.le_of_eq hfor.arguments.length_eq)]
      exact h.arguments_pairwise hrow
    refine (List.pairwise_map.1 hinc).imp_of_mem fun {p q} hp hq hpq c hc d hd => ?_
    obtain ⟨hpb, hps, hpc, hcrow, -⟩ := hbelow p hp c hc
    obtain ⟨hqb, hqs, hqd, -, hds⟩ := hbelow q hq d hd
    have hapart := Below.disjoint h hrow hpb hqb hps hqs (Nat.ne_of_lt (hpq hqs)) (z := d.register)
    refine ⟨fun heq => hapart (heq ▸ hpc) hqd, fun hmem => hapart ?_ hqd⟩
    exact .step hpc hcrow hmem hds
  · intro c hc d hd
    obtain rfl := List.mem_singleton.1 hd
    obtain ⟨p, hp, hc⟩ := List.mem_flatMap.1 hc
    obtain ⟨hpb, hps, hpc, hcrow, -⟩ := hbelow p hp c hc
    have hlt := h.younger hrow hpb hps
    have hle := hpc.le h
    refine ⟨by lia, fun hmem => ?_⟩
    have hlt' := h.younger hcrow hmem ⟨t, hfor.node, hfor.isApp⟩
    lia

theorem schedule_childrenFirst (h : map.Represents table root nodes) {x : Register} {t : Term}
    (hx : nodes[x]? = some t) : Schedule IsNew ∅ (childrenFirst map x t []) := by
  refine schedule_new (fun b hb => ⟨by simp, fun hmem => ?_⟩) (childrenFirst_pairwise h hx)
  obtain ⟨hblock, -, u, hu⟩ := mem_blocks h hx ((perm h hx).mem_iff.1 hb)
  have hlt := h.younger (block?_eq_some hblock).2 hmem ⟨u, hu.node, hu.isApp⟩
  exact absurd hlt (Nat.lt_irrefl _)

theorem schedule_append {fit : Std.TreeSet Register → Block → Prop} {met : Std.TreeSet Register}
    {bs cs : List Block} : Schedule fit met (bs ++ cs) ↔
      Schedule fit met bs ∧ Schedule fit (afterAll met bs) cs := by
  induction bs generalizing met with
  | nil => simp [Schedule, afterAll]
  | cons b bs ih => simp only [List.cons_append, Schedule, ih, and_assoc, afterAll, List.foldl_cons]

theorem Schedule.imp {fit fit' : Std.TreeSet Register → Block → Prop}
    (himp : ∀ met b, fit met b → fit' met b) {met : Std.TreeSet Register} {bs : List Block}
    (h : Schedule fit met bs) : Schedule fit' met bs := by
  induction bs generalizing met with
  | nil => trivial
  | cons b bs ih => exact ⟨himp met b h.1, ih h.2⟩

theorem schedule_of_forall {met : Std.TreeSet Register} {bs : List Block}
    {fit : Std.TreeSet Register → Block → Prop} (h : ∀ met b, fit met b) :
    Schedule fit met bs := by
  induction bs generalizing met with
  | nil => trivial
  | cons b bs ih => exact ⟨h met b, ih⟩

theorem afterAll_append (met : Std.TreeSet Register) (bs cs : List Block) :
    afterAll met (bs ++ cs) = afterAll (afterAll met bs) cs := List.foldl_append

theorem mem_afterAll {met : Std.TreeSet Register} {bs : List Block} {y : Register} (h : y ∈ met) :
    y ∈ afterAll met bs := by
  induction bs generalizing met with
  | nil => exact h
  | cons b bs ih => exact ih (mem_after.2 (.inr (.inr h)))

/-- What a block mentions has been met behind it. -/
theorem mem_afterAll_of_block (met : Std.TreeSet Register) {bs : List Block} {b : Block}
    (hb : b ∈ bs) : b.register ∈ afterAll met bs ∧
      ∀ x ∈ b.arguments, x ∈ afterAll met bs := by
  obtain ⟨cs, ds, rfl⟩ := List.append_of_mem hb
  have hafter : afterAll met (cs ++ b :: ds) =
      afterAll (b.after (afterAll met cs)) ds := by
    rw [afterAll_append]
    rfl
  rw [hafter]
  exact ⟨mem_afterAll (mem_after.2 (.inl rfl)),
    fun x hx => mem_afterAll (mem_after.2 (.inr (.inl hx)))⟩

theorem schedule_flatMap {α : Type} {fit : Std.TreeSet Register → Block → Prop}
    {bs : α → List Block} {ps : List α} {met : Std.TreeSet Register}
    (h : ∀ p ∈ ps, ∀ met' : Std.TreeSet Register, (∀ y ∈ met, y ∈ met') →
      Schedule fit met' (bs p)) : Schedule fit met (ps.flatMap bs) := by
  induction ps generalizing met with
  | nil => trivial
  | cons p ps ih =>
    refine schedule_append.2 ⟨h p List.mem_cons_self met fun y hy => hy,
      ih fun q hq met' hmet => ?_⟩
    exact h q (List.mem_cons_of_mem p hq) met' fun y hy => hmet y (mem_afterAll hy)

theorem schedule_parentsFirst (h : map.Represents table root nodes) {x : Register} {t : Term}
    (hx : nodes[x]? = some t) {met : Std.TreeSet Register} (hmet : x ∈ met) :
    Schedule IsMet met (parentsFirst map x t []) := by
  refine induction_on h (P := fun x t => ∀ met, x ∈ met →
    Schedule IsMet met (parentsFirst map x t [])) ?_ ?_ hx met hmet
  · exact fun x name _ met _ => trivial
  · intro b t hfor hb ih met hmet
    rw [parentsFirst_eq hfor.isApp hb]
    refine ⟨hmet, schedule_flatMap fun p hp met' hsub => ih p hp met' (hsub _ ?_)⟩
    exact mem_after.2 (.inr (.inl (List.of_mem_zip hp).1))

end Block
end TermMachine
