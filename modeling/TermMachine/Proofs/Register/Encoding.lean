import TermMachine.Proofs.Register.Capacity

/-! # A register map encodes its term

Following argument registers from `X0` leads along the positions of the term. Each atom or structure
has its own row, which is an argument of one other row, each variable has one row, and the rows are
numbered breadth first.
-/
namespace TermMachine

inductive Row.Heads (table : Functor.Table) : Row → Term → Prop
  | var (name : String) : Heads table (.var name) (.var name)
  | app {f : FunctorId} {n : Arity} {xs : List Register} {u : Term} : u.IsApp →
      table.lookup f = some ⟨u.name, n⟩ → n.val = u.args.length → xs.length = n.val →
      Heads table (.app f n xs) u

/-- The register of a structure stands in one place. -/
theorem Increasing.index_unique {nodes : Array Term} {xs : List Register} {x : Register} {i j : Nat}
    (h : Increasing nodes xs) (hx : IsStructured nodes x) (hi : xs[i]? = some x)
    (hj : xs[j]? = some x) : i = j := by
  have hlt : ∀ {i j : Nat}, xs[i]? = some x → xs[j]? = some x → ¬i < j := by
    intro i j hi hj hij
    obtain ⟨hi, hxi⟩ := List.getElem?_eq_some_iff.1 hi
    obtain ⟨hj, hxj⟩ := List.getElem?_eq_some_iff.1 hj
    have hless := List.pairwise_iff_getElem.1 h i j hi hj hij
    rw [hxi, hxj] at hless
    exact Nat.lt_irrefl x (hless hx)
  have hij := hlt hi hj
  have hji := hlt hj hi
  omega

namespace RegisterMap

def follow (map : RegisterMap) : Register → List Nat → Option Register
  | x, [] => some x
  | x, i :: path =>
    match map.rows[x]? with
    | none => none
    | some row =>
      match row.arguments[i]? with
      | none => none
      | some y => follow map y path

/-- The term that a register stands for when the rows are unfolded and functors are looked up. -/
inductive Unfolds (map : RegisterMap) (table : Functor.Table) : Register → Term → Prop
  | var {x : Register} {name : String} : map.rows[x]? = some (.var name) →
      Unfolds map table x (.var name)
  | app {x : Register} {f : FunctorId} {n : Arity} {xs : List Register} {name : String}
      (ts : Register → Term) : map.rows[x]? = some (.app f n xs) → table.lookup f = some ⟨name, n⟩ →
      (∀ y ∈ xs, Unfolds map table y (ts y)) → Unfolds map table x (Term.ofArgs name (xs.map ts))

/-- The map has one row for each variable of the term and one for each atom or structure in it, and
it can be read back. -/
structure Encodes (map : RegisterMap) (table : Functor.Table) (t : Term) : Prop where
  /-- as many rows as distinct variables and functor occurrences -/
  size_eq : map.rows.size = t.vars.toFinset.card + t.functors.length
  /-- the term comes back, empty structures as atoms -/
  unfolds : ∀ u, map.Unfolds table root u ↔ u = t.canon
  /-- a variable has one row -/
  var_row : ∀ name ∈ t.vars, ∃! x : Register, map.rows[x]? = some (.var name)
  /-- only variables of the term have one -/
  var_mem : ∀ {x : Register} {name : String}, map.rows[x]? = some (.var name) → name ∈ t.vars
  /-- each position of the term leads to a row for the subterm there -/
  position : ∀ {path : List Nat} {u : Term}, t.follow path = some u →
    ∃ x row, map.follow root path = some x ∧ map.rows[x]? = some row ∧ row.Heads table u
  /-- a row of a structure belongs to one position -/
  occurrence : ∀ {x : Register} {f : FunctorId} {n : Arity} {xs : List Register},
    map.rows[x]? = some (.app f n xs) → ∃ path u, t.follow path = some u ∧ u.IsApp ∧
      ∀ other, map.follow root other = some x ↔ other = path
  /-- it is an argument of one other row, and only once -/
  parent : ∀ {x : Register} {f : FunctorId} {n : Arity} {xs : List Register},
    map.rows[x]? = some (.app f n xs) → x ≠ root →
      (∃! y : Register, y ≠ x ∧ ∃ row, map.rows[y]? = some row ∧ x ∈ row.arguments) ∧
        (arguments map.rows).count x = 1
  /-- `X0` is no argument -/
  top : RegisterMap.root ∉ arguments map.rows
  /-- the other registers first appear in the order of their numbers -/
  breadthFirst : (arguments map.rows).eraseDups = List.range' 1 (map.rows.size - 1)

variable {map : RegisterMap} {table : Functor.Table} {t u w : Term} {nodes : Array Term}
  {x y z : Register} {path : List Nat} {i : Nat}

theorem mem_arguments : z ∈ arguments map.rows ↔
    ∃ (y : Register) (row : Row), map.rows[y]? = some row ∧ z ∈ row.arguments := by
  simp only [arguments, List.mem_flatMap, Array.mem_toList_iff, Array.mem_iff_getElem?]
  constructor
  · rintro ⟨row, ⟨y, hy⟩, hz⟩
    exact ⟨y, row, hy, hz⟩
  · rintro ⟨y, row, hy, hz⟩
    exact ⟨row, ⟨y, hy⟩, hz⟩

theorem follow_append (map : RegisterMap) (x : Register) (path : List Nat) (i : Nat) :
    map.follow x (path ++ [i]) = some z ↔ ∃ y row, map.follow x path = some y ∧
      map.rows[y]? = some row ∧ row.arguments[i]? = some z := by
  induction path generalizing x with
  | nil =>
    simp only [List.nil_append, follow, Option.some.injEq]
    cases hx : map.rows[x]? with
    | none => simp [hx]
    | some row =>
      cases hi : row.arguments[i]? with
      | none => simp [hx, hi]
      | some y => simp [hx, hi]
  | cons j path ih =>
    simp only [List.cons_append, follow]
    cases hx : map.rows[x]? with
    | none => simp
    | some row =>
      dsimp only
      cases hj : row.arguments[j]? with
      | none => simp
      | some y => exact ih y

theorem Numbered.mem_iff (h : map.Numbered) :
    x = root ∨ x ∈ arguments map.rows ↔ x < map.rows.size := by
  rw [← List.mem_cons, ← List.mem_eraseDups, h, List.mem_range]

theorem map_eq_canon {xs : List Register} {us : List Term} {ts : Register → Term}
    (hargs : List.Forall₂ (fun y w => nodes[y]? = some w) xs us)
    (hts : ∀ y ∈ xs, ∀ w, nodes[y]? = some w → ts y = w.canon) : xs.map ts = us.map Term.canon := by
  induction hargs with
  | nil => rfl
  | cons hy _ ih =>
    rw [List.map_cons, List.map_cons, hts _ List.mem_cons_self _ hy,
      ih fun y hmem => hts y (List.mem_cons_of_mem _ hmem)]

namespace Represents

variable (h : map.Represents table t nodes)
include h

theorem argument (hx : nodes[x]? = some u) {row : Row} (hrow : map.rows[x]? = some row) :
    List.Forall₂ (fun y w => nodes[y]? = some w) row.arguments u.args := by
  obtain ⟨v, hv, hd⟩ := h.row hrow
  rw [hx, Option.some.injEq] at hv
  subst hv
  cases hd with
  | var name => exact .nil
  | app _ _ _ hargs => exact hargs

theorem follow_iff (hx : nodes[x]? = some u) (path : List Nat) :
    u.follow path = some w ↔ ∃ y, map.follow x path = some y ∧ nodes[y]? = some w := by
  induction path generalizing x u with
  | nil => simp [Term.follow, follow, hx]
  | cons i path ih =>
    obtain ⟨row, hrow, -⟩ := h.exists_row hx
    have hargs := h.argument hx hrow
    rw [Term.follow, follow, hrow]
    by_cases hi : i < u.args.length
    · have hi' : i < row.arguments.length := hargs.length_eq ▸ hi
      have hget := (List.forall₂_iff_get.1 hargs).2 i hi' hi
      rw [List.getElem?_eq_getElem hi]
      dsimp only
      rw [List.getElem?_eq_getElem hi']
      exact ih hget
    · have hi' : ¬i < row.arguments.length := hargs.length_eq ▸ hi
      rw [List.getElem?_eq_none (Nat.not_lt.1 hi)]
      dsimp only
      rw [List.getElem?_eq_none (Nat.not_lt.1 hi')]
      simp

theorem unfolds (hx : nodes[x]? = some u) : map.Unfolds table x u.canon := by
  induction u generalizing x with
  | var name =>
    obtain ⟨row, hrow, hd⟩ := h.exists_row hx
    cases hd with
    | var _ => exact .var hrow
    | app happ _ _ _ => exact happ.elim
  | atom name =>
    obtain ⟨f, n, xs, hrow, hf, -, hargs⟩ := h.app_row hx trivial
    cases hargs
    exact .app (fun _ => default) hrow hf (by simp)
  | app name args ih =>
    obtain ⟨f, n, xs, hrow, hf, -, hargs⟩ := h.app_row hx trivial
    let ts (y : Register) : Term := (nodes[y]?.getD default).canon
    have hmap : xs.map ts = args.map Term.canon :=
      map_eq_canon hargs fun y _ w hw => by simp [ts, hw]
    rw [Term.canon, Term.canonAll_eq_map, ← hmap]
    refine .app ts hrow hf fun y hy => ?_
    obtain ⟨j, hj, rfl⟩ := List.getElem_of_mem hy
    have hj' : j < args.length := hargs.length_eq ▸ hj
    have hget := (List.forall₂_iff_get.1 hargs).2 j hj hj'
    simp only [List.get_eq_getElem, Term.args] at hget
    have hts : ts xs[j] = (args[j]).canon := by simp [ts, hget]
    rw [hts]
    exact ih _ (List.getElem_mem hj') hget

theorem eq_of_unfolds (hx : nodes[x]? = some u) (hw : map.Unfolds table x w) : w = u.canon := by
  induction hw generalizing u with
  | var hrow =>
    obtain ⟨v, hv, hd⟩ := h.row hrow
    rw [hx, Option.some.injEq] at hv
    subst hv
    cases hd
    rfl
  | app ts hrow hf _ ih =>
    obtain ⟨v, hv, hd⟩ := h.row hrow
    rw [hx, Option.some.injEq] at hv
    subst hv
    cases hd with
    | app happ hf' _ hargs =>
      rw [hf, Option.some.injEq] at hf'
      rw [Term.canon_of_isApp happ, map_eq_canon hargs fun y hy w hw => ih y hy hw,
        (Functor.mk.inj hf').1]

theorem heads (hx : nodes[x]? = some u) : ∃ row, map.rows[x]? = some row ∧ row.Heads table u := by
  obtain ⟨row, hrow, hd⟩ := h.exists_row hx
  refine ⟨row, hrow, ?_⟩
  cases hd with
  | var name => exact .var name
  | app happ hf hn hargs => exact .app happ hf hn (hargs.length_eq.trans hn.symm)

theorem isStructured_of_app {f : FunctorId} {n : Arity} {xs : List Register}
    (hx : map.rows[x]? = some (.app f n xs)) : IsStructured nodes x := by
  obtain ⟨u, hu, hd⟩ := h.row hx
  cases hd with
  | app happ _ _ _ => exact ⟨u, hu, happ⟩

theorem isStructured_of_mem_arguments {row : Row} (hx : map.rows[x]? = some row)
    (hz : z ∈ row.arguments) : IsStructured nodes x := by
  cases row with
  | var name => simp [Row.arguments] at hz
  | app f n xs => exact h.isStructured_of_app hx

/-- `X0` is the argument of no row, not even when it is a variable. -/
theorem root_notMem (hsize : map.rows.size = t.registers) :
    RegisterMap.root ∉ arguments map.rows := by
  intro hmem
  obtain ⟨y, row, hrow, hy⟩ := mem_arguments.1 hmem
  rcases t.eq_var_or_isApp with ⟨name, rfl⟩ | happ
  · have hlt := (Array.getElem?_eq_some_iff.1 hrow).1
    have hone : (Term.var name).registers = 1 := by
      simp [Term.registers, Term.vars, Term.functors]
    have hzero : y = 0 := by lia
    obtain rfl : y = RegisterMap.root := hzero
    obtain ⟨u, hu, happ⟩ := h.isStructured_of_mem_arguments hrow hy
    rw [h.root, Option.some.injEq] at hu
    subst hu
    exact happ
  · exact Nat.not_lt_zero _ (h.younger hrow hy ⟨t, h.root, happ⟩)

/-- A structure is an argument at most once. -/
theorem count_le_one (hx : IsStructured nodes x) : (arguments map.rows).count x ≤ 1 := by
  have hinc := (List.pairwise_cons.1 h.increasing).2
  generalize arguments map.rows = xs at hinc
  induction xs with
  | nil => simp
  | cons y ys ih =>
    obtain ⟨hy, hys⟩ := List.pairwise_cons.1 hinc
    by_cases hyx : y = x
    · subst hyx
      have hnot : y ∉ ys := fun hmem => Nat.lt_irrefl y (hy y hmem hx)
      rw [List.count_cons_self, List.count_eq_zero_of_not_mem hnot]
    · rw [List.count_cons_of_ne hyx]
      exact ih hys

theorem exists_parent (hn : map.Numbered) (hx : IsStructured nodes x)
    (hroot : x ≠ RegisterMap.root) :
    ∃ y row, map.rows[y]? = some row ∧ x ∈ row.arguments ∧ y < x := by
  obtain ⟨u, hu, happ⟩ := hx
  have hlt : x < map.rows.size := h.size_eq ▸ (Array.getElem?_eq_some_iff.1 hu).1
  rcases hn.mem_iff.2 hlt with rfl | hmem
  · exact absurd rfl hroot
  · obtain ⟨y, row, hrow, hy⟩ := mem_arguments.1 hmem
    exact ⟨y, row, hrow, hy, h.younger hrow hy ⟨u, hu, happ⟩⟩

theorem exists_path (hn : map.Numbered) (hx : IsStructured nodes x) :
    ∃ path, map.follow RegisterMap.root path = some x := by
  induction x using Nat.strongRecOn with
  | ind x ih =>
    by_cases hroot : x = RegisterMap.root
    · exact ⟨[], by rw [hroot, follow]⟩
    · obtain ⟨y, row, hrow, hy, hlt⟩ := h.exists_parent hn hx hroot
      obtain ⟨path, hpath⟩ := ih y hlt (h.isStructured_of_mem_arguments hrow hy)
      obtain ⟨i, hi⟩ := List.mem_iff_getElem?.1 hy
      exact ⟨path ++ [i], (follow_append map _ path i).2 ⟨y, row, hpath, hrow, hi⟩⟩

/-- A structure is at the end of one path: its parent is unique, and so is its place there. -/
theorem path_unique (hfree : RegisterMap.root ∉ arguments map.rows) (hx : IsStructured nodes x)
    {path other : List Nat} (hpath : map.follow RegisterMap.root path = some x)
    (hother : map.follow RegisterMap.root other = some x) : path = other := by
  have hlast : ∀ {path i}, map.follow RegisterMap.root (path ++ [i]) ≠ some RegisterMap.root := by
    intro path i hpath
    obtain ⟨y, row, -, hrow, hi⟩ := (follow_append map _ path i).1 hpath
    exact hfree (mem_arguments.2 ⟨y, row, hrow, List.mem_of_getElem? hi⟩)
  induction path using List.reverseRecOn generalizing x other with
  | nil =>
    obtain rfl : RegisterMap.root = x := Option.some.inj hpath
    rcases List.eq_nil_or_concat' other with rfl | ⟨other, j, rfl⟩
    · rfl
    · exact absurd hother hlast
  | append_singleton path i ih =>
    rcases List.eq_nil_or_concat' other with rfl | ⟨other, j, rfl⟩
    · obtain rfl : RegisterMap.root = x := Option.some.inj hother
      exact absurd hpath hlast
    · obtain ⟨y, row, hy, hrow, hi⟩ := (follow_append map _ path i).1 hpath
      obtain ⟨z, row', hz, hrow', hj⟩ := (follow_append map _ other j).1 hother
      have hmem := List.mem_of_getElem? hi
      obtain rfl := h.argument_unique hrow hrow' hmem (List.mem_of_getElem? hj) hx
      obtain rfl : row = row' := Option.some.inj (hrow.symm.trans hrow')
      have hij := (h.arguments_pairwise hrow).index_unique hx hi hj
      rw [ih (h.isStructured_of_mem_arguments hrow hmem) hy hz, hij]

/-- Every functor of the term is in the table, with an arity that fits. -/
theorem functor_known (haccounts : Accounts t nodes.toList []) {f : String × Nat}
    (hf : f ∈ t.functors) : f ∈ table.shapes ∧ f.2 ≤ 255 := by
  rw [← haccounts.functors.mem_iff, List.flatMap_nil, List.append_nil, List.mem_flatMap] at hf
  obtain ⟨u, hu, hf⟩ := hf
  obtain ⟨x, hx⟩ := Array.mem_iff_getElem?.1 (Array.mem_toList_iff.1 hu)
  rcases u.eq_var_or_isApp with ⟨name, rfl⟩ | happ
  · cases hf
  · obtain ⟨i, n, xs, -, hlook, hlen, -⟩ := h.app_row hx happ
    rw [Term.head_of_isApp happ, List.mem_singleton] at hf
    subst hf
    refine ⟨Functor.Table.mem_shapes.2 ⟨i, _, hlook, Prod.ext rfl hlen⟩, ?_⟩
    have hlt := n.isLt
    dsimp only
    omega

theorem existsUnique_var_row (hvars : ∀ name, name ∈ t.vars ↔ .var name ∈ nodes.toList)
    {name : String} (hname : name ∈ t.vars) : ∃! x : Register, map.rows[x]? = some (.var name) := by
  obtain ⟨x, hx⟩ := Array.mem_iff_getElem?.1 (Array.mem_toList_iff.1 ((hvars name).1 hname))
  exact ⟨x, h.var_row.2 hx, fun y hy => h.var_unique (h.var_row.1 hy) hx⟩

/-- The map that an allocation fills encodes the term. -/
theorem encodes (haccounts : Accounts t nodes.toList []) (hn : map.Numbered) :
    map.Encodes table t := by
  have hsize : map.rows.size = t.registers := by
    rw [h.size_eq, ← haccounts.length_eq_registers, Array.length_toList]
  have hvars : ∀ name, name ∈ t.vars ↔ .var name ∈ nodes.toList := fun name => by
    simpa using haccounts.vars name
  have hfree := h.root_notMem hsize
  constructor
  case size_eq => exact hsize
  case unfolds =>
    intro u
    constructor
    · exact h.eq_of_unfolds h.root
    · rintro rfl
      exact h.unfolds h.root
  case var_row => exact fun name hname => h.existsUnique_var_row hvars hname
  case var_mem =>
    intro x name hx
    exact h.vars (h.var_row.1 hx) (List.mem_singleton_self name)
  case position =>
    intro path u hpath
    obtain ⟨x, hx, hu⟩ := (h.follow_iff h.root path).1 hpath
    obtain ⟨row, hrow, hheads⟩ := h.heads hu
    exact ⟨x, row, hx, hrow, hheads⟩
  case occurrence =>
    intro x f n xs hx
    have hstr := h.isStructured_of_app hx
    obtain ⟨path, hpath⟩ := h.exists_path hn hstr
    obtain ⟨u, hu, happ⟩ := hstr
    refine ⟨path, u, (h.follow_iff h.root path).2 ⟨x, hpath, hu⟩, happ, fun other => ?_⟩
    constructor
    · exact fun hother => h.path_unique hfree ⟨u, hu, happ⟩ hother hpath
    · rintro rfl
      exact hpath
  case parent =>
    intro x f n xs hx hroot
    have hstr := h.isStructured_of_app hx
    obtain ⟨y, row, hrow, hy, hlt⟩ := h.exists_parent hn hstr hroot
    refine ⟨⟨y, ⟨Nat.ne_of_lt hlt, row, hrow, hy⟩, ?_⟩, ?_⟩
    · rintro z ⟨-, row', hrow', hz⟩
      exact h.argument_unique hrow' hrow hz hy hstr
    · have hle := h.count_le_one hstr
      have hpos := List.count_pos_iff.2 (mem_arguments.2 ⟨y, row, hrow, hy⟩)
      omega
  case top => exact hfree
  case breadthFirst =>
    have hpos : 0 < map.rows.size := h.size_eq ▸ (Array.getElem?_eq_some_iff.1 h.root).1
    have hne : (arguments map.rows).filter (fun z => !z == RegisterMap.root) = arguments map.rows :=
      List.filter_eq_self.2 fun z hz => by
        have hz : z ≠ RegisterMap.root := fun heq => hfree (heq ▸ hz)
        simp [hz]
    have hcons := hn
    rw [Numbered, List.eraseDups_cons, hne, List.range_eq_range',
      ← Nat.sub_add_cancel hpos, List.range'_succ] at hcons
    exact (List.cons.inj hcons).2

end Represents

/-- Registers are given out exactly when the arguments, the registers and the new functors of the
term are within their limits, no register is left without a row, and the map encodes the term. -/
theorem allocate_encodes (t : Term) (table : Functor.Table) (capacity : Nat) :
    ((∃ map, (allocate t table capacity).1 = .ok map) ↔
      (∀ f ∈ t.functors, f.2 ≤ 255) ∧
      t.vars.toFinset.card + t.functors.length ≤ min capacity 65536 ∧
      (t.functors.toFinset \ table.shapes).card ≤ table.capacity - table.size) ∧
    (∀ x, (allocate t table capacity).1 ≠ .error (.unallocatedRegister x)) ∧
    ∀ map later, allocate t table capacity = (.ok map, later) → map.Encodes later t := by
  obtain ⟨herror, hok⟩ := allocate_cases t table capacity
  refine ⟨⟨?_, ?_⟩, ?_, ?_⟩
  · rintro ⟨map, hmap⟩
    have hboth : allocate t table capacity = (.ok map, (allocate t table capacity).2) :=
      Prod.ext hmap rfl
    obtain ⟨nodes, hrep, haccounts, -, hlimit, hgrown⟩ := hok hboth
    have hsize : nodes.size = t.registers := haccounts.length_eq_registers
    refine ⟨fun f hf => (hrep.functor_known haccounts hf).2, ?_, hgrown.card_le fun f hf => ?_⟩
    · rw [← Term.registers, ← hsize, ← hrep.size_eq]
      exact hlimit
    · exact (hrep.functor_known haccounts (List.mem_toFinset.1 hf)).1
  · rintro ⟨harity, hregisters, hnew⟩
    cases hout : (allocate t table capacity).1 with
    | ok map => exact ⟨map, rfl⟩
    | error e =>
      cases herror hout with
      | registers hlt => exact absurd hregisters (Nat.not_le.2 hlt)
      | arity hmem hlt => exact absurd (harity _ hmem) (Nat.not_le.2 hlt)
      | functors hlt => exact absurd hnew (Nat.not_le.2 hlt)
  · intro x hx
    cases herror hx
  · intro map later hmap
    obtain ⟨nodes, hrep, haccounts, hnumbered, -⟩ := hok hmap
    exact hrep.encodes haccounts hnumbered

/-- The arguments of `p` are numbered before those of `h`, and `Z` and `W` keep their registers. -/
theorem allocate_encodes_shared :
    let t := Term.app "p" [.var "Z", .app "h" [.var "Z", .var "W"], .app "f" [.var "W"]]
    ∃ map later, allocate t (.empty 64) 64 = (.ok map, later) ∧
      map.rows.toList.map Row.arguments = [[1, 2, 3], [], [1, 4], [4], []] ∧
      map.Encodes later t := by
  intro t
  obtain ⟨hfits, -, hencodes⟩ := allocate_encodes t (.empty 64) 64
  obtain ⟨map, hmap⟩ := hfits.2 (by decide +kernel)
  have harguments :
      (allocate t (.empty 64) 64).1.map (fun map => map.rows.toList.map Row.arguments) =
        .ok [[1, 2, 3], [], [1, 4], [4], []] := by decide +kernel
  rw [hmap] at harguments
  have heq : allocate t (.empty 64) 64 = (.ok map, (allocate t (.empty 64) 64).2) :=
    Prod.ext hmap rfl
  exact ⟨map, _, heq, Except.ok.inj harguments, hencodes map _ heq⟩

end RegisterMap
end TermMachine
