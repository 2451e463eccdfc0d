import TermMachine.Proofs.Machine.Faithful
import TermMachine.Proofs.Machine.Visits
import TermMachine.Session.Pair

/-! # What an answer tells

An answer names the variables of the query that a run has constrained: one that is bound to a
structure, with the structure, and one that leads to the same unbound cell as a smaller variable,
with the smallest of these. Names come in order, so the first variable that leads to a cell is the
smallest, and it alone is read back as itself.
-/
namespace TermMachine

open Heap

namespace Machine

def StandsFor (m : Machine) (x : String) (b : Address) : Prop :=
  ∃ a, (x, a) ∈ m.capture.vars ∧ m.state.heap.deref a = .ok b

def AllFree (m : Machine) (q : Term) : Prop :=
  (∀ x ∈ q.vars, ∃ b, m.StandsFor x b ∧ m.state.heap.cells[b]? = some (.ref b)) ∧
    ∀ x ∈ q.vars, ∀ y ∈ q.vars, ∀ b, m.StandsFor x b → m.StandsFor y b → x = y

/-- The variable is bound to a structure, or a smaller one leads to the same unbound cell. -/
def Constrained (m : Machine) (x : String) : Prop :=
  ∃ b, m.StandsFor x b ∧ ((∃ s, m.state.heap.cells[b]? = some (.str s)) ∨
    m.state.heap.cells[b]? = some (.ref b) ∧ ∃ y, y < x ∧ m.StandsFor y b)

/-- What is told of a variable: the structure that is read back for it, or the smallest variable
that leads to the same unbound cell, which is another one. -/
def Tells (m : Machine) (x text : String) : Prop :=
  ∃ a b, (x, a) ∈ m.capture.vars ∧ m.state.heap.deref a = .ok b ∧
    ((∃ s T, m.state.heap.cells[b]? = some (.str s) ∧ m.readTerm a = .ok T ∧ text = T.text) ∨
      m.state.heap.cells[b]? = some (.ref b) ∧ text < x ∧ m.StandsFor text b ∧
        ∀ y, m.StandsFor y b → text ≤ y)

section Names

variable {h : Heap} {vars : List (String × Address)} {names N : Names} {name : String} {b : Address}

/-- An address keeps the first name it gets. -/
theorem namesFrom_keeps (hN : namesFrom h vars names = .ok N) (hb : names[b]? = some name) :
    N[b]? = some name := by
  induction vars generalizing names with
  | nil =>
    cases hN
    exact hb
  | cons v vars ih =>
    obtain ⟨x, a⟩ := v
    rw [namesFrom] at hN
    cases hd : h.deref a with
    | error e => simp [hd] at hN
    | ok c =>
      simp only [hd] at hN
      refine ih hN ?_
      rw [Std.TreeMap.getElem?_insertIfNew, if_neg, hb]
      rintro ⟨heq, hnot⟩
      obtain rfl := Std.LawfulEqCmp.eq_of_compare heq
      exact hnot (Std.TreeMap.mem_iff_isSome_getElem?.2 (by rw [hb]; rfl))

/-- Of sorted variables the smallest that leads to an address is its name. -/
theorem namesFrom_smallest (hN : namesFrom h vars names = .ok N)
    (hsorted : (vars.map Prod.fst).Pairwise (· < ·)) (hnew : names[b]? = none)
    (hb : N[b]? = some name) :
    (∃ a, (name, a) ∈ vars ∧ h.deref a = .ok b) ∧
      ∀ y a, (y, a) ∈ vars → h.deref a = .ok b → name ≤ y := by
  induction vars generalizing names with
  | nil =>
    cases hN
    simp [hnew] at hb
  | cons v vars ih =>
    obtain ⟨x, a⟩ := v
    rw [List.map_cons, List.pairwise_cons] at hsorted
    obtain ⟨hleast, hsorted⟩ := hsorted
    rw [namesFrom] at hN
    cases hd : h.deref a with
    | error e => simp [hd] at hN
    | ok c =>
      simp only [hd] at hN
      by_cases hc : c = b
      · subst hc
        have hx : (names.insertIfNew c x)[c]? = some x := by
          rw [Std.TreeMap.getElem?_insertIfNew, if_pos]
          exact ⟨Std.ReflCmp.compare_self, by simp [Std.TreeMap.mem_iff_isSome_getElem?, hnew]⟩
        obtain rfl : x = name := Option.some.inj ((namesFrom_keeps hN hx).symm.trans hb)
        refine ⟨⟨a, List.mem_cons_self, hd⟩, fun y d hy _ => ?_⟩
        rcases List.mem_cons.1 hy with heq | hy
        · cases heq
          exact String.le_refl _
        · exact String.not_lt.1 (String.lt_asymm (hleast y (List.mem_map_of_mem hy)))
      · have hskip : (names.insertIfNew c x)[b]? = none := by
          rw [Std.TreeMap.getElem?_insertIfNew, if_neg, hnew]
          exact fun hcmp => hc (Std.LawfulEqCmp.eq_of_compare hcmp.1)
        obtain ⟨⟨d, hmem, hd'⟩, hall⟩ := ih hN hsorted hskip
        refine ⟨⟨d, List.mem_cons_of_mem _ hmem, hd'⟩, fun y e hy he => ?_⟩
        rcases List.mem_cons.1 hy with heq | hy
        · cases heq
          exact absurd (Except.ok.inj (hd.symm.trans he)) hc
        · exact hall y e hy he

end Names

section Read

variable {m : Machine} {k root : Address} {q : Term} {N : Names} {read : Address → Term}
  {x : String} {a b : Address}

theorem StandsFor.unique (hcap : Captured m.functors k q m.state.heap m.capture root)
    {b' : Address} (hb : m.StandsFor x b) (hb' : m.StandsFor x b') : b = b' := by
  obtain ⟨a, ha, hd⟩ := hb
  obtain ⟨a', ha', hd'⟩ := hb'
  obtain rfl := hcap.var_unique ha ha'
  exact Except.ok.inj (hd.symm.trans hd')

/-- A variable is bound to a structure, or it leads to an unbound cell. -/
theorem exists_standsFor (hw : m.state.heap.WellBuilt m.functors k 0)
    (hcap : Captured m.functors k q m.state.heap m.capture root) (ha : (x, a) ∈ m.capture.vars) :
    ∃ b, m.state.heap.deref a = .ok b ∧ m.state.heap.Resolves a b ∧
      ((∃ s, m.state.heap.cells[b]? = some (.str s)) ∨
        m.state.heap.cells[b]? = some (.ref b)) := by
  obtain ⟨b, hd, hr, -, c, hc, hterm⟩ := hw.deref_term (hcap.var_term ha)
  refine ⟨b, hd, hr, ?_⟩
  obtain ⟨d, hcell, hend⟩ := hr.cell
  obtain rfl : c = d := Option.some.inj (hc.symm.trans hcell)
  cases c with
  | ref t =>
    obtain rfl := hend t rfl
    exact .inr hc
  | str s => exact .inl ⟨s, hc⟩
  | functor f n => exact hterm.elim

/-- No structure is read back as a variable. -/
theorem read_ne_var (hcap : Captured m.functors k q m.state.heap m.capture root)
    (hback : ReadBack k m root N read) (ha : (x, a) ∈ m.capture.vars)
    (hr : m.state.heap.Resolves a b) {s : Address} (hs : m.state.heap.cells[b]? = some (.str s))
    (y : String) : read a ≠ .var y := by
  have hreads := hback.reads a (hcap.var_term ha)
  intro hvar
  rw [hvar] at hreads
  generalize hT : Term.var y = T at hreads
  cases hreads with
  | var hr' hc => cases hr.cell_unique hr' hs hc
  | cut _ _ hmem => cases hmem
  | @app _ _ _ t f n name ts =>
    cases hargs : (argumentAddresses t n.val).map ts with
    | nil => simp [hargs, Term.ofArgs] at hT
    | cons u us => simp [hargs, Term.ofArgs] at hT

/-- An unbound cell is read back as the smallest variable that leads to it. -/
theorem read_eq_smallest (hcap : Captured m.functors k q m.state.heap m.capture root)
    (hback : ReadBack k m root N read)
    (hsorted : (m.capture.vars.map Prod.fst).Pairwise (· < ·)) (ha : (x, a) ∈ m.capture.vars)
    (hr : m.state.heap.Resolves a b) (hb : m.state.heap.cells[b]? = some (.ref b)) :
    ∃ first, read a = .var first ∧ m.StandsFor first b ∧ ∀ y, m.StandsFor y b → first ≤ y := by
  have hread : read a = .var (printedName N b) :=
    (hback.reads a (hcap.var_term ha)).unique (.var hr hb)
  cases hname : N[b]? with
  | none => exact absurd hname (namesFrom_ne_none hback.names (.inr ⟨_, ha, hr⟩))
  | some first =>
    obtain ⟨hfirst, hleast⟩ := namesFrom_smallest hback.names hsorted (by simp) hname
    refine ⟨first, ?_, hfirst, fun y ⟨c, hc, hd⟩ => hleast y c hc hd⟩
    rw [hread, printedName, Std.TreeMap.getD_eq_getD_getElem?, hname]
    rfl

/-- Without constraints the variables are free, and the other way round. -/
theorem allFree_iff (hw : m.state.heap.WellBuilt m.functors k 0)
    (hcap : Captured m.functors k q m.state.heap m.capture root) :
    m.AllFree q ↔ ∀ x, ¬m.Constrained x := by
  have hmem : ∀ {x b}, m.StandsFor x b → x ∈ q.vars := fun ⟨a, ha, _⟩ => hcap.var_mem.2 ⟨a, ha⟩
  constructor
  · rintro ⟨hfree, hapart⟩ x ⟨b, hb, hkind⟩
    rcases hkind with ⟨s, hs⟩ | ⟨-, y, hlt, hy⟩
    · obtain ⟨c, hc, hunbound⟩ := hfree x (hmem hb)
      obtain rfl := hb.unique hcap hc
      cases hs.symm.trans hunbound
    · exact absurd (hapart y (hmem hy) x (hmem hb) b hy hb ▸ hlt) (String.lt_irrefl x)
  · intro hnone
    have hunbound : ∀ {x b}, m.StandsFor x b → m.state.heap.cells[b]? = some (.ref b) := by
      rintro x b ⟨a, ha, hd⟩
      obtain ⟨c, hd', -, hs | hc⟩ := exists_standsFor hw hcap ha
      · obtain rfl := Except.ok.inj (hd.symm.trans hd')
        exact absurd ⟨b, ⟨a, ha, hd⟩, .inl hs⟩ (hnone x)
      · exact Except.ok.inj (hd.symm.trans hd') ▸ hc
    refine ⟨fun x hx => ?_, fun x hx y hy b hxb hyb => ?_⟩
    · obtain ⟨a, ha⟩ := hcap.var_mem.1 hx
      obtain ⟨b, hd, -⟩ := exists_standsFor hw hcap ha
      exact ⟨b, ⟨a, ha, hd⟩, hunbound ⟨a, ha, hd⟩⟩
    · exact String.le_antisymm
        (String.not_lt.1 fun hlt => hnone x ⟨b, hxb, .inr ⟨hunbound hxb, y, hlt, hyb⟩⟩)
        (String.not_lt.1 fun hlt => hnone y ⟨b, hyb, .inr ⟨hunbound hyb, x, hlt, hxb⟩⟩)

def told (m : Machine) (read : Address → Term) : List (String × Term) :=
  Session.informative (m.capture.vars.map fun v => (v.1, read v.2))

theorem mem_told {T : Term} : (x, T) ∈ m.told read ↔
    ∃ a, (x, a) ∈ m.capture.vars ∧ read a = T ∧ T ≠ .var x := by
  simp [told, Session.informative, ← exists_and_right, and_assoc]

theorem told_pairwise (hsorted : (m.capture.vars.map Prod.fst).Pairwise (· < ·)) :
    ((m.told read).map Prod.fst).Pairwise (· < ·) := by
  refine List.Pairwise.sublist (List.filter_sublist.map Prod.fst) ?_
  rw [List.map_map]
  exact hsorted

/-- Exactly the constrained variables are told. -/
theorem told_iff_constrained (hw : m.state.heap.WellBuilt m.functors k 0)
    (hcap : Captured m.functors k q m.state.heap m.capture root)
    (hback : ReadBack k m root N read)
    (hsorted : (m.capture.vars.map Prod.fst).Pairwise (· < ·)) :
    x ∈ (m.told read).map Prod.fst ↔ m.Constrained x := by
  constructor
  · intro hx
    obtain ⟨⟨y, T⟩, hmem, rfl⟩ := List.mem_map.1 hx
    obtain ⟨a, ha, rfl, hne⟩ := mem_told.1 hmem
    obtain ⟨b, hd, hr, hs | hb⟩ := exists_standsFor hw hcap ha
    · exact ⟨b, ⟨a, ha, hd⟩, .inl hs⟩
    · obtain ⟨first, hread, hfirst, hleast⟩ := read_eq_smallest hcap hback hsorted ha hr hb
      refine ⟨b, ⟨a, ha, hd⟩, .inr ⟨hb, first, ?_, hfirst⟩⟩
      by_contra hlt
      have heq := String.le_antisymm (hleast y ⟨a, ha, hd⟩) (String.not_lt.1 hlt)
      exact hne (heq ▸ hread)
  · rintro ⟨b, ⟨a, ha, hd⟩, hkind⟩
    have hr := resolves_of_deref hd
    refine List.mem_map_of_mem (f := Prod.fst) (mem_told.2 ⟨a, ha, rfl, ?_⟩)
    rcases hkind with ⟨s, hs⟩ | ⟨hb, y, hlt, hy⟩
    · exact read_ne_var hcap hback ha hr hs x
    · obtain ⟨first, hread, -, hleast⟩ := read_eq_smallest hcap hback hsorted ha hr hb
      intro hvar
      rw [hread, Term.var.injEq] at hvar
      exact String.not_lt.2 (hleast y hy) (hvar ▸ hlt)

theorem told_eq_nil_iff (hw : m.state.heap.WellBuilt m.functors k 0)
    (hcap : Captured m.functors k q m.state.heap m.capture root)
    (hback : ReadBack k m root N read)
    (hsorted : (m.capture.vars.map Prod.fst).Pairwise (· < ·)) :
    m.told read = [] ↔ m.AllFree q := by
  rw [allFree_iff hw hcap, ← List.map_eq_nil_iff (f := Prod.fst), List.eq_nil_iff_forall_not_mem]
  exact forall_congr' fun x => not_congr (told_iff_constrained hw hcap hback hsorted)

/-- What is told of a variable is right. -/
theorem told_tells (hw : m.state.heap.WellBuilt m.functors k 0)
    (hcap : Captured m.functors k q m.state.heap m.capture root)
    (hback : ReadBack k m root N read)
    (hsorted : (m.capture.vars.map Prod.fst).Pairwise (· < ·)) {T : Term}
    (hT : (x, T) ∈ m.told read) : m.Tells x T.text := by
  obtain ⟨a, ha, rfl, hne⟩ := mem_told.1 hT
  obtain ⟨b, hd, hr, ⟨s, hs⟩ | hb⟩ := exists_standsFor hw hcap ha
  · exact ⟨a, b, ha, hd, .inl ⟨s, _, hs, readTerm_of_readBack hback hw (hcap.var_term ha), rfl⟩⟩
  · obtain ⟨first, hread, hfirst, hleast⟩ := read_eq_smallest hcap hback hsorted ha hr hb
    rw [hread] at hne ⊢
    refine ⟨a, b, ha, hd, .inr ⟨hb, ?_, hfirst, hleast⟩⟩
    by_contra hlt
    have heq := String.le_antisymm (hleast x ⟨a, ha, hd⟩) (String.not_lt.1 hlt)
    exact hne (congrArg Term.var heq)

end Read

end Machine

theorem Capture.loadVariables_names {r : RegisterFile} {vars : List (String × Register)}
    (h : (loadVariables r vars).1 = .ok ()) :
    (loadVariables r vars).2.map Prod.fst = vars.map Prod.fst := by
  induction vars with
  | nil => rfl
  | cons v vars ih =>
    obtain ⟨name, x⟩ := v
    rw [loadVariables] at h ⊢
    cases hx : r.load x with
    | error e => simp [hx] at h
    | ok a =>
      simp only [hx] at h ⊢
      exact congrArg (name :: ·) (ih h)

/-- All variables of a query are captured, in their order. -/
theorem Capture.ofRegisters_names {query : Code} {r : RegisterFile} {c : Capture}
    (h : ofRegisters query r = (.ok (), c)) : c.vars.map Prod.fst = query.vars.map Prod.fst := by
  have hok := congrArg Prod.fst h
  obtain rfl : (ofRegisters query r).2 = c := congrArg Prod.snd h
  clear h
  unfold ofRegisters at hok ⊢
  split
  · rename_i hempty
    rw [if_pos hempty] at hok
    exact loadVariables_names hok
  · rename_i hempty
    rw [if_neg hempty] at hok
    cases hload : r.load RegisterMap.root with
    | error e => simp [hload] at hok
    | ok a =>
      rw [hload] at hok
      exact loadVariables_names hok

namespace Session

theorem mem_bindingText (binding : String × Term) : '=' ∈ (bindingText binding).toList := by
  simp [bindingText, String.toList_append]

theorem answerText_of_ne_nil {bindings : List (String × Term)} (h : informative bindings ≠ []) :
    answerText bindings = ",\n".intercalate ((informative bindings).map bindingText) := by
  unfold answerText
  cases htold : informative bindings with
  | nil => exact absurd htold h
  | cons binding told => rfl

/-- Only an answer that tells no binding is a bare yes. -/
theorem answerText_eq_true {bindings : List (String × Term)} :
    answerText bindings = bold "true" ↔ informative bindings = [] := by
  constructor
  · intro heq
    by_contra hne
    have hmem : '=' ∈ (answerText bindings).toList := by
      rw [answerText_of_ne_nil hne, String.toList_intercalate]
      match informative bindings, hne with
      | [binding], _ => simpa using mem_bindingText binding
      | binding :: next :: told, _ =>
        rw [List.map_cons, List.map_cons, List.map_cons, List.map_cons,
          List.intercalate_cons_cons, List.append_assoc]
        exact List.mem_append_left _ (mem_bindingText binding)
    rw [heq] at hmem
    exact absurd hmem (by decide)
  · intro hnil
    rw [answerText, hnil]

variable {capacities : Capacities} {calls : List Call} {q p : Term} {query program : Code}
  {m n : Machine}

theorem run_vars_pairwise (hq : Machine.CompiledQuery capacities calls q query)
    (hrun : m.run query program = (.ok true, n)) :
    (n.capture.vars.map Prod.fst).Pairwise (· < ·) := by
  obtain ⟨map, nodes, -, -, rfl⟩ := hq.isQuery
  obtain ⟨t, -, hcapture, -⟩ := Machine.runState_eq_ok (Machine.run_eq_ok hrun)
  rw [Capture.ofRegisters_names hcapture]
  exact Code.sortedVariables_pairwise map

/-- The answer says exactly what was constrained. It is a bare yes when the variables of the query
lead to unbound cells, no two of them to the same. Otherwise it has one entry for each variable that
is constrained, by name: the structure that is read back for it, or the smallest variable that leads
to the same cell. -/
theorem runPair_tells (hq : Machine.CompiledQuery capacities calls q query)
    (hp : Machine.CompiledProgram capacities calls p program)
    (hm : m = (Machine.create capacities).afterAll calls)
    (hyes : (m.run query program).1 = .ok true) (hn : n = (m.run query program).2)
    (settings : Settings) :
    (∀ x ∈ q.vars, ∃! b, n.StandsFor x b) ∧ (∀ x b, n.StandsFor x b → x ∈ q.vars) ∧
    ∃ answer, (runPair settings query program m).1 =
        ((if settings.listing then
            "% query\n" ++ query.listing m.functors ++ "% program\n" ++ program.listing m.functors
          else "") ++ answer ++ ".\n" ++ (if settings.dump then n.dump else ""), none) ∧
      (answer = bold "true" ↔ n.AllFree q) ∧
      (¬n.AllFree q → ∃ entries : List (String × String), entries ≠ [] ∧
        answer = ",\n".intercalate (entries.map fun e => e.1 ++ " = " ++ e.2) ∧
        (entries.map Prod.fst).Pairwise (· < ·) ∧
        (∀ x, x ∈ entries.map Prod.fst ↔ n.Constrained x) ∧ ∀ e ∈ entries, n.Tells e.1 e.2) := by
  have hrun : m.run query program = (.ok true, n) := Prod.ext hyes hn.symm
  obtain ⟨hw, root, hcap⟩ := Machine.run_captured hq hp hm hn hyes
  obtain ⟨N, read, hback⟩ := hcap.readBack hw
  have hsorted := run_vars_pairwise hq hrun
  refine ⟨fun x hx => ?_, fun x b ⟨a, ha, _⟩ => hcap.var_mem.2 ⟨a, ha⟩, ?_⟩
  · obtain ⟨a, ha⟩ := hcap.var_mem.1 hx
    obtain ⟨b, hd, -⟩ := Machine.exists_standsFor hw hcap ha
    exact ⟨b, ⟨a, ha, hd⟩, fun c hc => hc.unique hcap ⟨a, ha, hd⟩⟩
  have hfree := Machine.told_eq_nil_iff hw hcap hback hsorted
  refine ⟨answerText (n.capture.vars.map fun v => (v.1, read v.2)), ?_, ?_, fun hnot => ?_⟩
  · rw [runPair, hrun]
    dsimp only
    rw [hback.bindings]
  · rw [← hfree]
    exact answerText_eq_true
  · have hne : n.told read ≠ [] := mt hfree.1 hnot
    refine ⟨(n.told read).map fun e => (e.1, e.2.text), by simpa using hne, ?_, ?_, fun x => ?_,
      fun e he => ?_⟩
    · rw [answerText_of_ne_nil hne, List.map_map]
      rfl
    · rw [List.map_map]
      exact Machine.told_pairwise hsorted
    · rw [List.map_map]
      exact Machine.told_iff_constrained hw hcap hback hsorted
    · obtain ⟨⟨x, T⟩, hmem, rfl⟩ := List.mem_map.1 he
      exact Machine.told_tells hw hcap hback hsorted hmem

/-- Of four variables one is bound to a structure and two lead to the same cell. -/
theorem runPair_tells_alias :
    let q : Term := .app "f" [.var "X", .var "Y", .var "Z", .var "W"]
    let p : Term := .app "f" [.app "g" [.var "A"], .var "B", .var "B", .var "C"]
    let query : Code := ⟨[.putStructure 0 4 0, .setVariable 1, .setVariable 2, .setVariable 3,
      .setVariable 4], [("W", 4), ("X", 1), ("Y", 2), ("Z", 3)]⟩
    let program : Code := ⟨[.getStructure 0 4 0, .unifyVariable 1, .unifyVariable 2, .unifyValue 2,
      .unifyVariable 3, .getStructure 1 1 1, .unifyVariable 4], [("A", 4), ("B", 2), ("C", 3)]⟩
    let calls : List Call := [.query q, .program p]
    let m := (Machine.create ⟨6, 20, 20, 3⟩).afterAll calls
    let n := (m.run query program).2
    Machine.CompiledQuery ⟨6, 20, 20, 3⟩ calls q query ∧
      Machine.CompiledProgram ⟨6, 20, 20, 3⟩ calls p program ∧
      (m.run query program).1 = .ok true ∧
      (runPair ⟨false, false⟩ query program m).1.1 = "X = g(_G0008),\nZ = Y.\n" ∧
      ¬n.AllFree q ∧ ∃ entries : List (String × String),
        (runPair ⟨false, false⟩ query program m).1 =
          (",\n".intercalate (entries.map fun e => e.1 ++ " = " ++ e.2) ++ ".\n", none) ∧
        (entries.map Prod.fst).Pairwise (· < ·) ∧
        (∀ x, x ∈ entries.map Prod.fst ↔ n.Constrained x) ∧ ∀ e ∈ entries, n.Tells e.1 e.2 := by
  intro q p query program calls m n
  have hq : Machine.CompiledQuery ⟨6, 20, 20, 3⟩ calls q query :=
    ⟨[], [.program p], rfl, by simp, by decide +kernel⟩
  have hp : Machine.CompiledProgram ⟨6, 20, 20, 3⟩ calls p program :=
    ⟨[.query q], [], rfl, by simp, by decide +kernel⟩
  have hyes : (m.run query program).1 = .ok true := by decide +kernel
  have hprinted : (runPair ⟨false, false⟩ query program m).1.1 = "X = g(_G0008),\nZ = Y.\n" := by
    decide +kernel
  obtain ⟨-, -, answer, houtput, htrue, htold⟩ :=
    runPair_tells (m := m) (n := n) hq hp rfl hyes rfl ⟨false, false⟩
  clear_value n m
  replace houtput : (runPair ⟨false, false⟩ query program m).1 = (answer ++ ".\n", none) := by
    simpa using houtput
  have hnot : ¬n.AllFree q := fun hfree => by
    rw [houtput, htrue.2 hfree] at hprinted
    exact absurd hprinted (by decide +kernel)
  obtain ⟨entries, -, rfl, hentries⟩ := htold hnot
  exact ⟨hq, hp, hyes, hprinted, hnot, entries, houtput, hentries⟩

end Session

end TermMachine
