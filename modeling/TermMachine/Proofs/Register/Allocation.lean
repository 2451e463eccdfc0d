import TermMachine.Proofs.Functor
import TermMachine.Proofs.Term.Basic
import TermMachine.Register.Allocation

/-! # What register allocation answers

Every register stands for a subterm. The nodes of an allocation list these subterms, and a map that
represents them describes each in its row. A variable has one register wherever it occurs, and a
structure has a new one at each of its places, so read through the rows the registers of structures
go up.
-/
namespace TermMachine

namespace Row

def arguments : Row → List Register
  | .var _ => []
  | .app _ _ xs => xs

/-- The row of a register says which subterm it stands for. -/
inductive Describes (table : Functor.Table) (nodes : Array Term) : Row → Term → Prop
  | var (name : String) : Describes table nodes (.var name) (.var name)
  | app {f : FunctorId} {n : Arity} {xs : List Register} {t : Term} : t.IsApp →
      table.lookup f = some ⟨t.name, n⟩ → n.val = t.args.length →
      List.Forall₂ (fun x u => nodes[x]? = some u) xs t.args → Describes table nodes (.app f n xs) t

end Row

def IsStructured (nodes : Array Term) (x : Register) : Prop := ∃ t, nodes[x]? = some t ∧ t.IsApp

def Increasing (nodes : Array Term) (xs : List Register) : Prop :=
  xs.Pairwise fun x y => IsStructured nodes y → x < y

namespace RegisterMap

def arguments (rows : Array Row) : List Register := rows.toList.flatMap Row.arguments

structure Represents (table : Functor.Table) (t : Term) (nodes : Array Term) (map : RegisterMap) :
    Prop where
  root : nodes[RegisterMap.root]? = some t
  size_eq : map.rows.size = nodes.size
  row : ∀ {x : Register} {row : Row}, map.rows[x]? = some row →
    ∃ u, nodes[x]? = some u ∧ row.Describes table nodes u
  var_unique : ∀ {name : String} {x y : Register}, nodes[x]? = some (.var name) →
    nodes[y]? = some (.var name) → x = y
  vars : ∀ {x : Register} {u : Term}, nodes[x]? = some u → u.vars ⊆ t.vars
  increasing : Increasing nodes (RegisterMap.root :: arguments map.rows)
  younger : ∀ {x y : Register} {row : Row}, map.rows[x]? = some row → y ∈ row.arguments →
    IsStructured nodes y → x < y

end RegisterMap

section Growth

variable {table table' : Functor.Table} {nodes nodes' : Array Term}

def Placement.Extends (nodes nodes' : Array Term) : Prop :=
  ∀ ⦃x : Register⦄ ⦃u : Term⦄, nodes[x]? = some u → nodes'[x]? = some u

theorem Row.Describes.mono {row : Row} {t : Term} (h : row.Describes table nodes t)
    (ht : table.Extends table') (hn : Placement.Extends nodes nodes') :
    row.Describes table' nodes' t := by
  cases h with
  | var name => exact .var name
  | app happ hf hlen hargs => exact .app happ (ht hf) hlen (hargs.imp fun _ _ hx => hn hx)

theorem Row.Describes.argument_lt {row : Row} {t : Term} (h : row.Describes table nodes t)
    {x : Register} (hx : x ∈ row.arguments) : x < nodes.size := by
  cases h with
  | var name => simp [Row.arguments] at hx
  | app _ _ _ hargs =>
    obtain ⟨i, hi, rfl⟩ := List.getElem_of_mem hx
    have hget := (List.forall₂_iff_get.1 hargs).2 i hi (hargs.length_eq ▸ hi)
    exact (Array.getElem?_eq_some_iff.1 hget).1

theorem IsStructured.of_grows (hn : Placement.Extends nodes nodes')
    {x : Register} (hx : x < nodes.size) (h : IsStructured nodes' x) : IsStructured nodes x := by
  obtain ⟨t, ht, happ⟩ := h
  have hold := hn (Array.getElem?_eq_getElem hx)
  rw [ht, Option.some.injEq] at hold
  exact ⟨t, by rw [Array.getElem?_eq_getElem hx, hold], happ⟩

end Growth

namespace Placement

structure Valid (capacity : Nat) (p : Placement) : Prop where
  size_le : p.nodes.size ≤ capacity
  vars_iff : ∀ {name : String} {x : Register},
    p.vars[name]? = some x ↔ p.nodes[x]? = some (.var name)

/-- Terms have been placed, each at its register: a structure at a new one. -/
structure Places (p : Placement) (ts : List Term) (xs : List Register) (p' : Placement) : Prop where
  new : ∃ us, us.Sublist ts ∧ p'.nodes.toList = p.nodes.toList ++ us
  nodes : List.Forall₂ (fun x u => p'.nodes[x]? = some u) xs ts
  fresh : ∀ x ∈ xs, IsStructured p'.nodes x → p.nodes.size ≤ x
  increasing : Increasing p'.nodes xs

variable {capacity : Nat} {p p' : Placement} {t : Term} {ts : List Term} {x : Register}
  {xs : List Register}

theorem Places.extends (h : p.Places ts xs p') : Extends p.nodes p'.nodes := by
  intro x u hx
  obtain ⟨us, -, heq⟩ := h.new
  rw [← Array.getElem?_toList] at hx ⊢
  rw [heq, List.getElem?_append_left (List.getElem?_eq_some_iff.1 hx).1, hx]

theorem Places.size_le (h : p.Places ts xs p') : p.nodes.size ≤ p'.nodes.size := by
  obtain ⟨us, -, heq⟩ := h.new
  have hlen := congrArg List.length heq
  simp only [Array.length_toList, List.length_append] at hlen
  omega

theorem Places.register_lt (h : p.Places ts xs p') {x : Register} (hx : x ∈ xs) :
    x < p'.nodes.size := by
  obtain ⟨i, hi, rfl⟩ := List.getElem_of_mem hx
  have hget := (List.forall₂_iff_get.1 h.nodes).2 i hi (h.nodes.length_eq ▸ hi)
  exact (Array.getElem?_eq_some_iff.1 hget).1

theorem isFull_iff : p.isFull capacity = true ↔ min capacity registerLimit ≤ p.nodes.size := by
  simp only [isFull, Bool.or_eq_true, decide_eq_true_eq]
  omega

theorem add_eq_ok (h : p.add capacity t = .ok (x, p')) :
    p.nodes.size < min capacity registerLimit ∧ x = p.nodes.size ∧
      p' = ⟨p.nodes.push t, p.vars⟩ := by
  unfold add at h
  by_cases hfull : p.isFull capacity
  · simp [hfull] at h
  · simp only [hfull, Bool.false_eq_true, if_false, Except.ok.injEq, Prod.mk.injEq] at h
    rw [isFull_iff, Nat.not_le] at hfull
    exact ⟨hfull, h.1.symm, h.2.symm⟩

/-- A term is placed at a new register, or it is a variable that has one. -/
theorem place_cases (h : p.place capacity t = .ok (x, p')) :
    (∃ name, t = .var name ∧ p.vars[name]? = some x ∧ p' = p) ∨
    (p.nodes.size < min capacity registerLimit ∧ x = p.nodes.size ∧ p'.nodes = p.nodes.push t ∧
      (t.IsApp ∧ p'.vars = p.vars ∨
        ∃ name, t = .var name ∧ p.vars[name]? = none ∧ p'.vars = p.vars.insert name x)) := by
  rcases t.eq_var_or_isApp with ⟨name, rfl⟩ | happ
  · unfold place at h
    cases hv : p.vars[name]? with
    | some y =>
      simp only [hv, Except.ok.injEq, Prod.mk.injEq] at h
      obtain ⟨rfl, rfl⟩ := h
      exact .inl ⟨name, rfl, hv, rfl⟩
    | none =>
      simp only [hv] at h
      rcases hadd : p.add capacity (.var name) with e | ⟨y, q⟩
      · simp [hadd] at h
      · obtain ⟨hlt, rfl, rfl⟩ := add_eq_ok hadd
        simp only [hadd, Except.ok.injEq, Prod.mk.injEq] at h
        obtain ⟨rfl, rfl⟩ := h
        exact .inr ⟨hlt, rfl, rfl, .inr ⟨name, rfl, hv, rfl⟩⟩
  · have hadd : p.add capacity t = .ok (x, p') := by
      cases t with
      | var name => exact happ.elim
      | atom name => exact h
      | app name args => exact h
    obtain ⟨hlt, rfl, rfl⟩ := add_eq_ok hadd
    exact .inr ⟨hlt, rfl, rfl, .inl ⟨happ, rfl⟩⟩

theorem place_valid (hp : p.Valid capacity) (h : p.place capacity t = .ok (x, p')) :
    p'.Valid capacity := by
  rcases place_cases h with ⟨-, -, -, rfl⟩ | ⟨hlt, rfl, hnodes, hvars⟩
  · exact hp
  have hfresh : ∀ name, p.vars[name]? ≠ some p.nodes.size := fun name hname => by
    have hget := hp.vars_iff.1 hname
    simp at hget
  refine ⟨by rw [hnodes, Array.size_push]; omega, ?_⟩
  intro a y
  rw [hnodes, Array.getElem?_push]
  rcases hvars with ⟨happ, hvars⟩ | ⟨name, rfl, hnone, hvars⟩
  · rw [hvars, hp.vars_iff]
    by_cases hy : y = p.nodes.size
    · subst hy
      rw [if_pos rfl]
      constructor
      · simp
      · intro heq
        cases Option.some.inj heq
        exact happ.elim
    · rw [if_neg hy]
  · rw [hvars, Std.TreeMap.getElem?_insert]
    simp only [Std.LawfulEqCmp.compare_eq_iff_eq]
    by_cases hname : name = a
    · subst hname
      by_cases hy : y = p.nodes.size
      · simp [hy]
      · simp [hy, Ne.symm hy, ← hp.vars_iff, hnone]
    · by_cases hy : y = p.nodes.size
      · subst hy
        simp [hname, hfresh a]
      · simp [hname, hy, hp.vars_iff]

theorem place_places (hp : p.Valid capacity) (h : p.place capacity t = .ok (x, p')) :
    p.Places [t] [x] p' := by
  rcases place_cases h with ⟨name, rfl, hname, rfl⟩ | ⟨hlt, rfl, hnodes, -⟩
  · have hx := hp.vars_iff.1 hname
    refine ⟨⟨[], List.nil_sublist _, by simp⟩, by simpa using hx, ?_, List.pairwise_singleton _ _⟩
    rintro y hy ⟨u, hu, happ⟩
    rw [List.mem_singleton.1 hy, hx, Option.some.injEq] at hu
    exact (hu ▸ happ : (Term.var name).IsApp).elim
  · refine ⟨⟨[t], List.Sublist.refl _, by rw [hnodes, Array.toList_push]⟩, by simp [hnodes], ?_,
      List.pairwise_singleton _ _⟩
    intro y hy _
    exact Nat.le_of_eq (List.mem_singleton.1 hy).symm

theorem Places.cons {p₁ : Placement} (h : p.Places [t] [x] p₁) (h' : p₁.Places ts xs p') :
    p.Places (t :: ts) (x :: xs) p' where
  new := by
    obtain ⟨us, hus, heq⟩ := h.new
    obtain ⟨us', hus', heq'⟩ := h'.new
    exact ⟨us ++ us', hus.append hus', by rw [heq', heq, List.append_assoc]⟩
  nodes := .cons (h'.extends (List.forall₂_cons.1 h.nodes).1) h'.nodes
  fresh := by
    intro y hy hstr
    rcases List.mem_cons.1 hy with rfl | hy
    · have hlt := h.register_lt List.mem_cons_self
      exact h.fresh y List.mem_cons_self (hstr.of_grows h'.extends hlt)
    · exact Nat.le_trans h.size_le (h'.fresh y hy hstr)
  increasing := by
    refine List.pairwise_cons.2 ⟨fun y hy hstr => ?_, h'.increasing⟩
    exact Nat.lt_of_lt_of_le (h.register_lt List.mem_cons_self) (h'.fresh y hy hstr)

theorem placeAll_places (hp : p.Valid capacity) (h : p.placeAll capacity ts = .ok (xs, p')) :
    p'.Valid capacity ∧ p.Places ts xs p' := by
  induction ts generalizing p xs with
  | nil =>
    simp only [placeAll, Except.ok.injEq, Prod.mk.injEq] at h
    obtain ⟨rfl, rfl⟩ := h
    exact ⟨hp, ⟨[], List.Sublist.refl _, by simp⟩, .nil, by simp, .nil⟩
  | cons t ts ih =>
    rw [placeAll] at h
    rcases hone : p.place capacity t with e | ⟨y, q⟩
    · simp [hone] at h
    · rcases hall : q.placeAll capacity ts with e | ⟨ys, q'⟩
      · simp [hone, hall] at h
      · simp only [hone, hall, Except.ok.injEq, Prod.mk.injEq] at h
        obtain ⟨rfl, rfl⟩ := h
        obtain ⟨hvalid, hrest⟩ := ih (place_valid hp hone) hall
        exact ⟨hvalid, (place_places hp hone).cons hrest⟩

structure Filled (capacity : Nat) (t : Term) (table : Functor.Table) (p : Placement)
    (rows : Array Row) : Prop where
  valid : p.Valid capacity
  root : p.nodes[RegisterMap.root]? = some t
  size_le : rows.size ≤ p.nodes.size
  row : ∀ {x : Register} {row : Row}, rows[x]? = some row →
    ∃ u, p.nodes[x]? = some u ∧ row.Describes table p.nodes u
  vars : ∀ {x : Register} {u : Term}, p.nodes[x]? = some u → u.vars ⊆ t.vars
  increasing : Increasing p.nodes (RegisterMap.root :: RegisterMap.arguments rows)
  younger : ∀ {x y : Register} {row : Row}, rows[x]? = some row → y ∈ row.arguments →
    IsStructured p.nodes y → x < y

variable {table table' : Functor.Table} {rows : Array Row}

theorem Filled.register_lt (h : Filled capacity t table p rows) {x : Register}
    (hx : x ∈ RegisterMap.root :: RegisterMap.arguments rows) : x < p.nodes.size := by
  rcases List.mem_cons.1 hx with rfl | hx
  · exact (Array.getElem?_eq_some_iff.1 h.root).1
  · obtain ⟨row, hrow, hx⟩ := List.mem_flatMap.1 hx
    obtain ⟨i, hi, rfl⟩ := List.getElem_of_mem hrow
    obtain ⟨u, -, hu⟩ := h.row (Array.getElem?_eq_getElem (by simpa using hi))
    exact hu.argument_lt (by simpa using hx)

theorem arguments_push (rows : Array Row) (row : Row) :
    RegisterMap.arguments (rows.push row) = RegisterMap.arguments rows ++ row.arguments := by
  simp [RegisterMap.arguments]

/-- Filling the next row, for which terms have been placed. -/
theorem Filled.push (h : Filled capacity t table p rows) {u : Term} {row : Row} {us : List Term}
    (hu : p.nodes[rows.size]? = some u) (hvalid : p'.Valid capacity)
    (hplaces : p.Places us row.arguments p') (hus : ∀ w ∈ us, w.vars ⊆ u.vars)
    (ht : table.Extends table') (hrow : row.Describes table' p'.nodes u) :
    Filled capacity t table' p' (rows.push row) where
  valid := hvalid
  root := hplaces.extends h.root
  size_le := by
    have hlt := (Array.getElem?_eq_some_iff.1 hu).1
    have hle := hplaces.size_le
    rw [Array.size_push]
    omega
  row := by
    intro x row' hx
    rw [Array.getElem?_push] at hx
    by_cases hxs : x = rows.size
    · rw [if_pos hxs, Option.some.injEq] at hx
      subst hx hxs
      exact ⟨u, hplaces.extends hu, hrow⟩
    · rw [if_neg hxs] at hx
      obtain ⟨w, hw, hd⟩ := h.row hx
      exact ⟨w, hplaces.extends hw, hd.mono ht hplaces.extends⟩
  vars := by
    intro x w hw
    obtain ⟨new, hnew, heq⟩ := hplaces.new
    have hmem := Array.mem_toList_iff.2 (Array.mem_of_getElem? hw)
    rw [heq, List.mem_append] at hmem
    rcases hmem with hmem | hmem
    · obtain ⟨i, hi, rfl⟩ := List.getElem_of_mem hmem
      exact h.vars (x := i) (by simp at hi ⊢)
    · exact List.Subset.trans (hus w (hnew.subset hmem)) (h.vars hu)
  increasing := by
    rw [arguments_push, ← List.cons_append]
    refine List.pairwise_append.2 ⟨?_, hplaces.increasing, fun x hx y hy hstr => ?_⟩
    · refine h.increasing.imp_of_mem fun hx hy hxy hstr => ?_
      exact hxy (hstr.of_grows hplaces.extends (h.register_lt hy))
    · exact Nat.lt_of_lt_of_le (h.register_lt hx) (hplaces.fresh y hy hstr)
  younger := by
    intro x y row' hx hy hstr
    rw [Array.getElem?_push] at hx
    by_cases hxs : x = rows.size
    · rw [if_pos hxs, Option.some.injEq] at hx
      subst hx hxs
      exact Nat.lt_of_lt_of_le (Array.getElem?_eq_some_iff.1 hu).1 (hplaces.fresh y hy hstr)
    · rw [if_neg hxs] at hx
      obtain ⟨w, -, hd⟩ := h.row hx
      exact h.younger hx hy (hstr.of_grows hplaces.extends (hd.argument_lt hy))

/-- What interning a functor keeps of a table, a row keeps. -/
theorem appRow_keeps {I : Functor.Table → Prop} (hI : ∀ table f, I table → I (table.intern f).2)
    (capacity : Nat) (p : Placement) (name : String) (args : List Term) (h : I table) :
    I (p.appRow capacity table name args).2 := by
  unfold appRow
  by_cases hlen : args.length < 256
  · have hintern := hI table ⟨name, ⟨args.length, hlen⟩⟩ h
    rw [dif_pos hlen]
    rcases hf : table.intern ⟨name, ⟨args.length, hlen⟩⟩ with ⟨_ | f, table'⟩
    · rw [hf] at hintern
      exact hintern
    · rw [hf] at hintern
      dsimp only
      cases p.placeAll capacity args with
      | error e => exact hintern
      | ok r => exact hintern
  · rw [dif_neg hlen]
    exact h

theorem appRow_extends (capacity : Nat) (p : Placement) (table : Functor.Table) (name : String)
    (args : List Term) : table.Extends (p.appRow capacity table name args).2 :=
  appRow_keeps (fun later f h => h.trans (later.extends_intern f)) capacity p name args
    (.refl table)

/-- The functor of a row is in the table that the row leaves, and its arguments are placed. -/
theorem appRow_ok_cases {row : Row} {name : String} {args : List Term}
    (h : p.appRow capacity table name args = (.ok (row, p'), table')) :
    ∃ (hlen : args.length < 256) (f : FunctorId) (xs : List Register),
      table'.lookup f = some ⟨name, ⟨args.length, hlen⟩⟩ ∧
        p.placeAll capacity args = .ok (xs, p') ∧ row = .app f ⟨args.length, hlen⟩ xs := by
  unfold appRow at h
  by_cases hlen : args.length < 256
  · rw [dif_pos hlen] at h
    have hlook := @Functor.Table.lookup_intern table ⟨name, ⟨args.length, hlen⟩⟩
    rcases hf : table.intern ⟨name, ⟨args.length, hlen⟩⟩ with ⟨_ | f, table₁⟩
    · simp [hf] at h
    · rw [hf] at hlook
      rcases hall : p.placeAll capacity args with e | ⟨xs, q⟩
      · simp [hf, hall] at h
      · simp only [hf, hall, Prod.mk.injEq, Except.ok.injEq] at h
        obtain ⟨⟨rfl, rfl⟩, rfl⟩ := h
        exact ⟨hlen, f, xs, hlook rfl, rfl, rfl⟩
  · simp [hlen] at h

theorem appRow_eq_ok {row : Row} (happ : t.IsApp) (hp : p.Valid capacity)
    (h : p.appRow capacity table t.name t.args = (.ok (row, p'), table')) :
    p'.Valid capacity ∧ p.Places t.args row.arguments p' ∧ row.Describes table' p'.nodes t := by
  obtain ⟨hlen, f, xs, hf, hall, rfl⟩ := appRow_ok_cases h
  obtain ⟨hvalid, hplaces⟩ := placeAll_places hp hall
  exact ⟨hvalid, hplaces, .app happ hf rfl hplaces.nodes⟩

def row (capacity : Nat) (p : Placement) (functors : Functor.Table) :
    Term → Except CompileError (Row × Placement) × Functor.Table
  | .var name => (.ok (.var name, p), functors)
  | t => p.appRow capacity functors t.name t.args

theorem row_of_isApp (happ : t.IsApp) :
    p.row capacity table t = p.appRow capacity table t.name t.args := by
  cases t with
  | var name => exact happ.elim
  | atom name => rfl
  | app name args => rfl

theorem row_extends (capacity : Nat) (p : Placement) (table : Functor.Table) (t : Term) :
    table.Extends (p.row capacity table t).2 := by
  rcases t.eq_var_or_isApp with ⟨name, rfl⟩ | happ
  · exact .refl table
  · rw [row_of_isApp happ]
    exact appRow_extends capacity p table t.name t.args

theorem row_eq_ok {r : Row} (hp : p.Valid capacity)
    (h : p.row capacity table t = (.ok (r, p'), table')) :
    p'.Valid capacity ∧ p.Places t.args r.arguments p' ∧ r.Describes table' p'.nodes t := by
  rcases t.eq_var_or_isApp with ⟨name, rfl⟩ | happ
  · simp only [row, Prod.mk.injEq, Except.ok.injEq] at h
    obtain ⟨⟨rfl, rfl⟩, rfl⟩ := h
    exact ⟨hp, ⟨⟨[], List.Sublist.refl _, by simp⟩, .nil, by simp [Row.arguments], .nil⟩, .var name⟩
  · rw [row_of_isApp happ] at h
    exact appRow_eq_ok happ hp h

/-- The subterms without a row, counted with all that is in them. -/
def unfilled (p : Placement) (rows : Array Row) : Nat :=
  Term.sizeList (p.nodes.toList.drop rows.size)

/-- A row takes its subterm away and brings back at most its arguments. -/
theorem unfilled_push {u : Term} {us : List Term} (row : Row)
    (hu : p.nodes[rows.size]? = some u) (h : p.Places us xs p')
    (hus : Term.sizeList us < u.size) : p'.unfilled (rows.push row) < p.unfilled rows := by
  obtain ⟨new, hnew, heq⟩ := h.new
  obtain ⟨hlt, hget⟩ := Array.getElem?_eq_some_iff.1 hu
  have hlen : rows.size < p.nodes.toList.length := by simpa using hlt
  have hle := Term.sizeList_sublist hnew
  have hdrop : p.nodes.toList.drop rows.size = u :: p.nodes.toList.drop (rows.size + 1) := by
    rw [← List.getElem_cons_drop hlen]
    simp [hget]
  rw [unfilled, unfilled, heq, Array.size_push, List.drop_append_of_le_length hlen,
    Term.sizeList_append, hdrop, Term.sizeList, Nat.succ_eq_add_one]
  omega

theorem Filled.represents (h : Filled capacity t table p rows) (hend : p.nodes.size ≤ rows.size) :
    RegisterMap.Represents table t p.nodes ⟨rows⟩ where
  root := h.root
  size_eq := Nat.le_antisymm h.size_le hend
  row := h.row
  var_unique hx hy := Option.some.inj ((h.valid.vars_iff.2 hx).symm.trans (h.valid.vars_iff.2 hy))
  vars := h.vars
  increasing := h.increasing
  younger := h.younger

theorem close_eq_ok {map : RegisterMap} (h : p.close rows = .ok map) :
    p.nodes.size ≤ rows.size ∧ map = ⟨rows⟩ := by
  unfold close at h
  by_cases hlt : rows.size < p.nodes.size
  · simp [hlt] at h
  · rw [if_neg hlt, Except.ok.injEq] at h
    exact ⟨Nat.not_lt.1 hlt, h.symm⟩

theorem close_of_le (h : p.nodes.size ≤ rows.size) : p.close rows = .ok ⟨rows⟩ :=
  if_neg (Nat.not_lt.2 h)

theorem fill_keeps {I : Functor.Table → Prop} (hI : ∀ table f, I table → I (table.intern f).2)
    (capacity fuel : Nat) (p : Placement) (rows : Array Row) (h : I table) :
    I (p.fill capacity fuel rows table).2 := by
  induction fuel generalizing p rows table with
  | zero => exact h
  | succ fuel ih =>
    unfold fill
    split
    · exact h
    · exact ih _ _ h
    · rename_i u _ _
      have hkept := appRow_keeps hI capacity p u.name u.args h
      rcases hrow : p.appRow capacity table u.name u.args with ⟨_ | ⟨row, q⟩, table₁⟩
      · rw [hrow] at hkept
        exact hkept
      · rw [hrow] at hkept
        exact ih _ _ hkept

theorem fill_extends (capacity fuel : Nat) (p : Placement) (rows : Array Row)
    (table : Functor.Table) : table.Extends (p.fill capacity fuel rows table).2 :=
  fill_keeps (fun later f h => h.trans (later.extends_intern f)) capacity fuel p rows (.refl table)

theorem fill_succ {u : Term} (hu : p.nodes[rows.size]? = some u) (fuel : Nat) :
    p.fill capacity (fuel + 1) rows table =
      match p.row capacity table u with
      | (.error e, later) => (.error e, later)
      | (.ok (r, q), later) => fill capacity fuel q (rows.push r) later := by
  rw [fill, hu]
  cases u with
  | var name => rfl
  | atom name => rfl
  | app name args => rfl

/-- What each row keeps holds when all rows are filled, unless one of them fails. -/
theorem fill_run {I : Placement → Array Row → Functor.Table → Prop} {E : CompileError → Prop}
    (hvalid : ∀ {p rows table}, I p rows table → p.Valid capacity)
    (hok : ∀ {p q rows table later u r}, I p rows table → p.nodes[rows.size]? = some u →
      p.row capacity table u = (.ok (r, q), later) → I q (rows.push r) later)
    (herror : ∀ {p rows table later u e}, I p rows table → p.nodes[rows.size]? = some u →
      p.row capacity table u = (.error e, later) → E e)
    {fuel : Nat} (h : I p rows table) (hfuel : p.unfilled rows < fuel) :
    (∀ {e}, (p.fill capacity fuel rows table).1 = .error e → E e) ∧
      ∀ {map later}, p.fill capacity fuel rows table = (.ok map, later) →
        ∃ q, I q map.rows later ∧ q.nodes.size ≤ map.rows.size := by
  induction fuel generalizing p rows table with
  | zero => omega
  | succ fuel ih =>
    cases hu : p.nodes[rows.size]? with
    | none =>
      have hend := Array.getElem?_eq_none_iff.1 hu
      simp only [fill, hu, close_of_le hend, Prod.mk.injEq, Except.ok.injEq]
      refine ⟨nofun, ?_⟩
      rintro map later ⟨rfl, rfl⟩
      exact ⟨p, h, hend⟩
    | some u =>
      rw [fill_succ hu]
      rcases hrow : p.row capacity table u with ⟨e | ⟨r, q⟩, later⟩
      · refine ⟨fun heq => ?_, nofun⟩
        rw [← Except.error.inj heq]
        exact herror h hu hrow
      · obtain ⟨-, hplaces, -⟩ := row_eq_ok (hvalid h) hrow
        have hlt := unfilled_push r hu hplaces u.sizeList_args_lt
        exact ih (hok h hu hrow) (by omega)

theorem Filled.next (h : Filled capacity t table p rows) {u : Term} {r : Row}
    (hu : p.nodes[rows.size]? = some u) (hrow : p.row capacity table u = (.ok (r, p'), table')) :
    Filled capacity t table' p' (rows.push r) := by
  have hgrow := row_extends capacity p table u
  rw [hrow] at hgrow
  obtain ⟨hvalid, hplaces, hdesc⟩ := row_eq_ok h.valid hrow
  exact h.push hu hvalid hplaces (fun w hw a ha => Term.mem_vars_of_mem_args hw ha) hgrow hdesc

/-- The whole term is the first that is placed. -/
theorem place_first (table : Functor.Table) (h : empty.place capacity t = .ok (x, p)) :
    p.nodes = #[t] ∧ Filled capacity t table p #[] := by
  have hempty : empty.Valid capacity := ⟨by simp [empty], by simp [empty]⟩
  have hvalid := place_valid hempty h
  rcases place_cases h with ⟨name, -, hname, -⟩ | ⟨-, -, hnodes, -⟩
  · simp [empty] at hname
  · have hone : p.nodes = #[t] := by simpa [empty] using hnodes
    refine ⟨hone, hvalid, by simp [hone, RegisterMap.root], by simp, by simp, ?_, ?_, by simp⟩
    · intro y u hu
      have hmem := Array.mem_of_getElem? (hone ▸ hu)
      rw [Array.mem_singleton] at hmem
      rw [hmem]
      exact List.Subset.refl _
    · exact List.pairwise_singleton _ _

end Placement

namespace RegisterMap

variable {capacity : Nat} {t : Term} {table table' : Functor.Table} {map : RegisterMap}
  {nodes : Array Term}

theorem allocate_keeps {I : Functor.Table → Prop}
    (hI : ∀ table f, I table → I (table.intern f).2) (t : Term) (capacity : Nat) (h : I table) :
    I (allocate t table capacity).2 := by
  unfold allocate
  cases Placement.empty.place capacity t with
  | error e => exact h
  | ok r => exact Placement.fill_keeps hI capacity _ _ _ h

/-- Whatever holds of the placed term and is kept by each row holds of the map. -/
theorem allocate_run (t : Term) (table : Functor.Table) (capacity : Nat)
    {I : Placement → Array Row → Functor.Table → Prop} {E : CompileError → Prop}
    (hvalid : ∀ {p rows table}, I p rows table → p.Valid capacity)
    (hok : ∀ {p q rows table later u r}, I p rows table → p.nodes[rows.size]? = some u →
      p.row capacity table u = (.ok (r, q), later) → I q (rows.push r) later)
    (herror : ∀ {p rows table later u e}, I p rows table → p.nodes[rows.size]? = some u →
      p.row capacity table u = (.error e, later) → E e)
    (hfirst : ∀ {x p}, Placement.empty.place capacity t = .ok (x, p) → I p #[] table)
    (hfull : ∀ {e}, Placement.empty.place capacity t = .error e → E e) :
    (∀ {e}, (allocate t table capacity).1 = .error e → E e) ∧
      ∀ {map later}, allocate t table capacity = (.ok map, later) →
        ∃ p, I p map.rows later ∧ p.nodes.size ≤ map.rows.size := by
  unfold allocate
  rcases hplace : Placement.empty.place capacity t with e | ⟨x, p⟩
  · refine ⟨fun heq => ?_, nofun⟩
    rw [← Except.error.inj heq]
    exact hfull hplace
  · refine Placement.fill_run hvalid hok herror (hfirst hplace) ?_
    obtain ⟨hone, -⟩ := Placement.place_first table hplace
    simp [Placement.unfilled, hone, Term.sizeList]

theorem allocate_eq_ok (h : allocate t table capacity = (.ok map, table')) :
    ∃ nodes, map.Represents table' t nodes ∧ nodes.size ≤ capacity := by
  have hrun := allocate_run t table capacity (E := fun _ => True)
    (I := fun p rows later => Placement.Filled capacity t later p rows)
    (fun hfilled => hfilled.valid)
    (fun hfilled hu hrow => hfilled.next hu hrow) (fun _ _ _ => trivial)
    (fun hplace => (Placement.place_first table hplace).2) fun _ => trivial
  obtain ⟨p, hfilled, hend⟩ := hrun.2 h
  exact ⟨p.nodes, hfilled.represents hend, hfilled.valid.size_le⟩

namespace Represents

theorem mono (h : map.Represents table t nodes) (ht : table.Extends table') :
    map.Represents table' t nodes where
  root := h.root
  size_eq := h.size_eq
  row hx := by
    obtain ⟨u, hu, hd⟩ := h.row hx
    exact ⟨u, hu, hd.mono ht fun _ _ hy => hy⟩
  var_unique := h.var_unique
  vars := h.vars
  increasing := h.increasing
  younger := h.younger

theorem exists_row (h : map.Represents table t nodes) {x : Register} {u : Term}
    (hx : nodes[x]? = some u) : ∃ row, map.rows[x]? = some row ∧ row.Describes table nodes u := by
  have hlt : x < map.rows.size := h.size_eq ▸ (Array.getElem?_eq_some_iff.1 hx).1
  have hrow := Array.getElem?_eq_getElem hlt
  obtain ⟨w, hw, hd⟩ := h.row hrow
  rw [hx, Option.some.injEq] at hw
  exact ⟨_, hrow, hw ▸ hd⟩

theorem var_row (h : map.Represents table t nodes) {name : String} {x : Register} :
    map.rows[x]? = some (.var name) ↔ nodes[x]? = some (.var name) := by
  constructor
  · intro hrow
    obtain ⟨u, hu, hd⟩ := h.row hrow
    cases hd
    exact hu
  · intro hx
    obtain ⟨row, hrow, hd⟩ := h.exists_row hx
    cases hd with
    | var => exact hrow
    | app happ => exact happ.elim

theorem app_row (h : map.Represents table t nodes) {x : Register} {u : Term}
    (hx : nodes[x]? = some u) (happ : u.IsApp) : ∃ f n xs, map.rows[x]? = some (.app f n xs) ∧
      table.lookup f = some ⟨u.name, n⟩ ∧ n.val = u.args.length ∧
      List.Forall₂ (fun y w => nodes[y]? = some w) xs u.args := by
  obtain ⟨row, hrow, hd⟩ := h.exists_row hx
  cases hd with
  | var name => exact happ.elim
  | app _ hf hn hargs => exact ⟨_, _, _, hrow, hf, hn, hargs⟩

/-- The register of a structure is an argument of one row at most. -/
theorem argument_unique (h : map.Represents table t nodes) {x y z : Register} {r s : Row}
    (hr : map.rows[x]? = some r) (hs : map.rows[y]? = some s) (hzr : z ∈ r.arguments)
    (hzs : z ∈ s.arguments) (hz : IsStructured nodes z) : x = y := by
  obtain ⟨-, hinc⟩ := List.pairwise_cons.1 h.increasing
  obtain ⟨-, hacross⟩ := List.pairwise_flatMap.1 hinc
  have hrow : ∀ {x y : Register} {r s : Row}, map.rows[x]? = some r → map.rows[y]? = some s →
      z ∈ r.arguments → z ∈ s.arguments → ¬x < y := by
    intro x y r s hr hs hzr hzs hxy
    obtain ⟨hx, rfl⟩ := Array.getElem?_eq_some_iff.1 hr
    obtain ⟨hy, rfl⟩ := Array.getElem?_eq_some_iff.1 hs
    have hlt := List.pairwise_iff_getElem.1 hacross x y (by simpa using hx) (by simpa using hy) hxy
    exact absurd (hlt z (by simpa using hzr) z (by simpa using hzs) hz) (Nat.lt_irrefl z)
  have hxy := hrow hr hs hzr hzs
  have hyx := hrow hs hr hzs hzr
  lia

theorem arguments_pairwise (h : map.Represents table t nodes) {x : Register} {r : Row}
    (hr : map.rows[x]? = some r) : Increasing nodes r.arguments := by
  obtain ⟨-, hinc⟩ := List.pairwise_cons.1 h.increasing
  exact (List.pairwise_flatMap.1 hinc).1 r (Array.mem_toList_iff.2 (Array.mem_of_getElem? hr))

end Represents
end RegisterMap
end TermMachine
