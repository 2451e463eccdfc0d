import TermMachine.Proofs.Code.Layout
import TermMachine.Proofs.Machine.Cursor

/-! # Every argument once

The code of a program is blocks, each an instruction for a structure and behind it one for each of
its arguments. The cursor counts the arguments down while the block runs, so a block that is done
leaves it outside, and the next structure is taken up on a heap whose structures are complete.
-/
namespace TermMachine

open Heap

theorem exists_of_forall₂ {α β : Type} {R : α → β → Prop} {as : List α} {bs : List β}
    (h : List.Forall₂ R as bs) {b : β} (hb : b ∈ bs) : ∃ a, R a b := by
  obtain ⟨j, hj, rfl⟩ := List.getElem_of_mem hb
  exact ⟨_, (List.forall₂_iff_get.1 h).2 j (h.length_eq ▸ hj) hj⟩

namespace Run

/-- The arguments are read from a structure that was found, or written to one that is new. -/
def Visits (x : Register) (f : FunctorId) (n : Arity) (args : List Instruction) (s t : RunState) :
    Prop :=
  (∃ u, s.Finds x f n u ∧ ReadsBehind u args t) ∨
    t.heap.cells[s.heap.top + 1]? = some (.functor f n) ∧ t.heap.top = s.heap.top + 2 ∧
      WritesBehind (s.heap.top + 1) args t

section Blocks

variable {k : Address} {f : FunctorId} {n : Arity} {x : Register} {b : Block}
  {args is pre post : List Instruction} {parts : List (List Instruction)} {s t u : RunState}

theorem Idle.getStructure (hs : Idle k s) (hstep : getStructure f n x s = (.ok true, t)) :
    (∃ u, s.Finds x f n u ∧ Reading k (u + 1) n.val t) ∨
    (Writing k n.val t ∧ t.heap.cells[s.heap.top + 1]? = some (.functor f n) ∧
      t.heap.top = s.heap.top + 2) := by
  obtain ⟨h, r, c⟩ := s
  rcases getStructure_eq_ok hstep with rfl | ⟨b, hb, rfl⟩ | ⟨u, hfinds, rfl⟩
  · exact .inr ⟨⟨hs.toTidy.appendStructure f n x _, rfl, rfl⟩,
      appendStructure_cell_functor h f n, appendStructure_size h f n⟩
  · refine .inr ⟨⟨hs.toTidy.built f n hb _, rfl, rfl⟩, ?_, ?_⟩
    · exact (grows_point (appendStructure_cell_of_some hb f n) _).functor
        (appendStructure_cell_functor h f n)
    · exact (point_size _ _ _).trans (appendStructure_size h f n)
  · obtain ⟨a, b, ha, hd, hb, hu⟩ := id hfinds
    obtain ⟨d, hd', -, hterm⟩ := hs.heap.deref_term (hs.registers ha)
    obtain rfl : d = b := Except.ok.inj (hd'.symm.trans hd)
    have hku := (hs.heap.str_functor hterm.1 hb).1
    refine .inl ⟨u, hfinds, hs.toTidy.grows (.refl h) hs.heap _, rfl, fun i hi => ?_⟩
    have harg := hs.heap.arguments_hasTerm hku hu hi
    rwa [show u + (i + 1) = u + 1 + i by lia] at harg

theorem Idle.visits (hs : Idle k s) (hstep : Run.getStructure f n x s = (.ok true, t))
    (hlength : args.length = n.val) (hargs : ∀ i ∈ args, i.Unifies) : Visits x f n args s t := by
  rcases hs.getStructure hstep with ⟨u, hfinds, ht⟩ | ⟨ht, hcell, htop⟩
  · rw [← hlength] at ht
    exact .inl ⟨u, hfinds, ht.readsBehind hargs⟩
  · rw [← hlength] at ht
    exact .inr ⟨hcell, htop, ht.writesBehind hargs htop⟩

theorem written_eq {style : Block.Style} (h : b.Written style is) :
    ∃ args, is = style.head b.functor b.arity b.register :: args ∧
      args.length = b.arity.val ∧ ∀ i ∈ args, ∃ x, i = style.first x ∨ i = style.again x := by
  obtain @⟨args, hlength, hargs⟩ := h
  exact ⟨args, rfl, hlength, fun i hi => exists_of_forall₂ hargs hi⟩

theorem all_flatten_keeps {I : RunState → Prop}
    (hkeeps : ∀ is ∈ parts, ∀ s t, I s → Run.all is s = (.ok true, t) → I t) (hs : I s)
    (hrun : Run.all parts.flatten s = (.ok true, t)) : I t := by
  induction parts generalizing s with
  | nil => exact (Prod.mk.inj hrun).2 ▸ hs
  | cons is parts ih =>
    rw [List.flatten_cons] at hrun
    obtain ⟨u, hfirst, hrest⟩ := all_append_eq_ok.1 hrun
    exact ih (fun js hjs => hkeeps js (List.mem_cons_of_mem is hjs))
      (hkeeps is List.mem_cons_self s u hs hfirst) hrest

/-- The arguments of a query are written one after the other. -/
theorem Tidy.all_set (hs : Tidy k args.length s)
    (hargs : ∀ i ∈ args, ∃ x, i = .setVariable x ∨ i = .setValue x)
    (hrun : Run.all args s = (.ok true, t)) : Tidy k 0 t := by
  induction args generalizing s with
  | nil => exact (Prod.mk.inj hrun).2 ▸ hs
  | cons i args ih =>
    obtain ⟨u, hstep, hrest⟩ := all_cons_eq_ok.1 hrun
    have hwrote : Wrote k (args.length + 1) s u := by
      obtain ⟨y, rfl | rfl⟩ := hargs i List.mem_cons_self
      · exact hs.setVariable hstep
      · exact hs.setValue hstep
    exact ih hwrote.toTidy (fun j hj => hargs j (List.mem_cons_of_mem i hj)) hrest

theorem Tidy.query_block (hs : Tidy k 0 s) (hb : b.Written .query is)
    (hrun : Run.all is s = (.ok true, t)) : Tidy k 0 t := by
  obtain ⟨args, rfl, hlength, hargs⟩ := written_eq hb
  obtain ⟨u, hstep, hrest⟩ := all_cons_eq_ok.1 hrun
  obtain ⟨h, r, c⟩ := s
  obtain rfl := putStructure_eq_ok hstep
  have hput := hs.appendStructure b.functor b.arity b.register (c.writing b.arity)
  rw [← hlength] at hput
  exact hput.all_set hargs hrest

theorem Idle.program_block (hs : Idle k s) (hb : b.Written .program is)
    (hrun : Run.all is s = (.ok true, t)) : Idle k t := by
  obtain ⟨args, rfl, hlength, hargs⟩ := written_eq hb
  obtain ⟨u, hstep, hrest⟩ := all_cons_eq_ok.1 hrun
  rcases hs.getStructure hstep with ⟨u, -, ht⟩ | ⟨ht, -⟩
  · exact (hlength ▸ ht).idle hargs hrest
  · exact (hlength ▸ ht).idle hargs hrest

/-- Wherever a structure is taken up, the code before it is whole blocks, and its arguments are
next. -/
theorem Idle.at_structure (hs : Idle k s) (hparts : ∀ is ∈ parts, ∃ b, Block.Written .program b is)
    (hcode : parts.flatten = pre ++ .getStructure f n x :: post)
    (hrun : Run.all pre s = (.ok true, t)) :
    Idle k t ∧ ∃ args rest, post = args ++ rest ∧ args.length = n.val ∧
      ∀ i ∈ args, i.Unifies := by
  induction parts generalizing s pre with
  | nil => simp at hcode
  | cons is parts ih =>
    obtain ⟨b, hb⟩ := hparts is List.mem_cons_self
    obtain ⟨args, rfl, hlength, hargs⟩ := written_eq hb
    rw [List.flatten_cons, List.cons_append] at hcode
    cases pre with
    | nil =>
      obtain ⟨hhead, hpost⟩ := List.cons.inj hcode
      cases hhead
      exact ⟨(Prod.mk.inj hrun).2 ▸ hs, args, parts.flatten, hpost.symm, hlength, hargs⟩
    | cons i pre =>
      obtain ⟨rfl, htail⟩ := List.cons.inj hcode
      -- the structure is not among the arguments of the first block
      obtain ⟨mid, rfl, hmid⟩ : ∃ mid, pre = args ++ mid ∧
          parts.flatten = mid ++ .getStructure f n x :: post := by
        rcases List.append_eq_append_iff.1 htail with ⟨mid, hpre, hmid⟩ | ⟨mid, hmid, hpost⟩
        · exact ⟨mid, hpre, hmid⟩
        · cases mid with
          | nil => exact ⟨[], by simpa using hmid.symm, hpost.symm⟩
          | cons j mid =>
            obtain ⟨rfl, -⟩ := List.cons.inj hpost
            obtain ⟨y, hy | hy⟩ := hargs _ (hmid ▸ List.mem_append_right _ List.mem_cons_self)
            · cases hy
            · cases hy
      rw [← List.cons_append] at hrun
      obtain ⟨u, hfirst, hrest⟩ := all_append_eq_ok.1 hrun
      exact ih (hs.program_block hb hfirst) (fun js hjs => hparts js (List.mem_cons_of_mem _ hjs))
        hmid hrest

end Blocks

end Run

section Compiled

variable {table : Functor.Table} {registers : Nat} {t : Term} {code : Code}

theorem Code.IsProgram.parts (h : Code.IsProgram table registers t code) :
    ∃ parts : List (List Instruction), code.instructions = parts.flatten ∧
      ∀ is ∈ parts, ∃ b, Block.Written .program b is := by
  obtain ⟨map, nodes, hmap, -, rfl⟩ := h
  obtain ⟨parts, hcode, hparts⟩ := Block.code_written .program
    ((∅ : Std.TreeSet Register).insert RegisterMap.root)
    fun b hb => Block.length_arguments hmap hmap.root hb
  exact ⟨parts, (Code.programInstructions_eq hmap).trans hcode,
    fun is his => exists_of_forall₂ hparts his⟩

theorem Code.IsQuery.parts (h : Code.IsQuery table registers t code) :
    code.instructions = [.setVariable RegisterMap.root] ∨
    ∃ parts : List (List Instruction), code.instructions = parts.flatten ∧
      ∀ is ∈ parts, ∃ b, Block.Written .query b is := by
  obtain ⟨map, nodes, hmap, -, rfl⟩ := h
  rcases t.eq_var_or_isApp with ⟨name, rfl⟩ | happ
  · exact .inl rfl
  · obtain ⟨parts, hcode, hparts⟩ := Block.code_written .query ∅ fun b hb =>
      Block.length_arguments hmap hmap.root ((Block.perm hmap hmap.root).mem_iff.1 hb)
    exact .inr ⟨parts, (Code.queryInstructions_eq map happ).trans hcode,
      fun is his => exists_of_forall₂ hparts his⟩

theorem Code.IsQuery.tidy (h : Code.IsQuery table registers t code) {k : Address} {s u : RunState}
    (hs : Run.Tidy k 0 s) (hrun : Run.all code.instructions s = (.ok true, u)) :
    Run.Tidy k 0 u := by
  rcases h.parts with hvar | ⟨parts, hcode, hparts⟩
  · rw [hvar, Run.all_singleton] at hrun
    exact (hs.setVariable hrun).toTidy
  · rw [hcode] at hrun
    refine Run.all_flatten_keeps (fun is his s u hs hrun => ?_) hs hrun
    obtain ⟨b, hb⟩ := hparts is his
    exact hs.query_block hb hrun

end Compiled

/-- The captured root is in a register. -/
theorem Capture.ofRegisters_root {query : Code} {r : RegisterFile} {c : Capture} {a : Address}
    (h : ofRegisters query r = (.ok (), c)) (ha : c.root = some a) :
    r.values[RegisterMap.root]? = some a := by
  obtain rfl : (ofRegisters query r).2 = c := congrArg Prod.snd h
  clear h
  unfold ofRegisters at ha
  split at ha
  · cases ha
  · split at ha
    · cases ha
    · rename_i b hload
      exact Option.some.inj ha ▸ (RegisterFile.load_eq_ok hload).2

namespace Machine

variable {query program : Code} {m n : Machine} {h : Heap} {r : RegisterFile} {s : RunState}
  {c : Capture}

/-- A run that succeeds has run its query, kept the query's term, and run its program. -/
theorem runState_eq_ok (hrun : runState query program h r = (.ok true, s, c)) :
    ∃ t, Run.all query.instructions ⟨h, r.clear, .outside .write⟩ = (.ok true, t) ∧
      Capture.ofRegisters query t.registers = (.ok (), c) ∧
      Run.all program.instructions ⟨t.heap, t.registers, .outside .read⟩ = (.ok true, s) := by
  unfold runState at hrun
  generalize Run.all query.instructions ⟨h, r.clear, .outside .write⟩ = out at hrun ⊢
  rcases out with ⟨_ | _ | _, t⟩
  · cases hrun
  · cases hrun
  · refine ⟨t, rfl, ?_⟩
    dsimp only at hrun
    generalize Capture.ofRegisters query t.registers = captured at hrun ⊢
    rcases captured with ⟨_ | _, capture⟩
    · cases hrun
    · dsimp only at hrun
      obtain ⟨hresult, hleft⟩ := Prod.mk.inj hrun
      obtain ⟨hstate, rfl⟩ := Prod.mk.inj hleft
      exact ⟨rfl, Prod.ext hresult hstate⟩

theorem runState_of_query {t : RunState}
    (hquery : Run.all query.instructions ⟨h, r.clear, .outside .write⟩ = (.ok true, t))
    (hcapture : Capture.ofRegisters query t.registers = (.ok (), c)) :
    runState query program h r =
      ((Run.all program.instructions ⟨t.heap, t.registers, .outside .read⟩).1,
        (Run.all program.instructions ⟨t.heap, t.registers, .outside .read⟩).2, c) := by
  obtain ⟨h', r', c'⟩ := t
  rw [runState, hquery]
  dsimp only at hcapture ⊢
  rw [hcapture]

theorem run_eq_ok (hrun : m.run query program = (.ok true, n)) :
    runState query program m.state.heap m.state.registers = (.ok true, n.state, n.capture) := by
  rw [run_eq] at hrun
  obtain ⟨hresult, rfl⟩ := Prod.mk.inj hrun
  exact Prod.ext hresult rfl

theorem run_append {done : List Instruction} (later : List Instruction)
    (hrun : m.run query (.ofInstructions done) = (.ok true, n)) :
    m.run query (.ofInstructions (done ++ later)) =
      ((Run.all later n.state).1, { n with state := (Run.all later n.state).2 }) := by
  obtain ⟨t, hquery, hcapture, hdone⟩ := runState_eq_ok (run_eq_ok hrun)
  have hall : Run.all (done ++ later) ⟨t.heap, t.registers, .outside .read⟩ =
      Run.all later n.state := by
    rw [Run.all_append, show Run.all done _ = _ from hdone]
  rw [run_eq] at hrun ⊢
  obtain ⟨-, hmachine⟩ := Prod.mk.inj hrun
  rw [runState_of_query hquery hcapture, Code.ofInstructions, hall, ← hmachine]

/-- A program takes up its work with all structures complete. -/
theorem run_idle (hq : query = .empty ∨
      ∃ (maker : Machine) (q : Term), (maker.compileQuery q).1 = .ok query)
    (hrun : m.run query program = (.ok true, n)) :
    ∃ k s, Run.Idle k s ∧ Run.all program.instructions s = (.ok true, n.state) ∧
      ∀ a, n.capture.root = some a → HasTerm k s.heap a := by
  obtain ⟨s, hquery, hcapture, hprogram⟩ := runState_eq_ok (run_eq_ok hrun)
  have hstart : Run.Tidy m.state.heap.cells.size 0
      ⟨m.state.heap, m.state.registers.clear, .outside .write⟩ :=
    ⟨(wellBuilt_top m.functors 0 m.state.heap).toComplete, Nat.le_refl _,
      fun hx => by simp [RegisterFile.clear] at hx⟩
  have hs : Run.Tidy m.state.heap.cells.size 0 s := by
    rcases hq with rfl | ⟨maker, q, hq⟩
    · exact (Prod.mk.inj hquery).2 ▸ hstart
    · exact (Code.query_eq_ok (load_eq_ok hq)).tidy hstart hquery
  exact ⟨_, _, ⟨hs.grows (.refl _) hs.heap (.outside .read), rfl⟩, hprogram,
    fun a ha => hs.registers (Capture.ofRegisters_root hcapture ha)⟩

/-- No argument is left out or read twice. The cursor stands outside all structures at the end of a
program and wherever a structure is taken up, and there every structure has all its arguments; the
instructions behind it then visit the arguments of that structure, each once and in order. -/
theorem run_visits_arguments (hq : query = .empty ∨
      ∃ (maker : Machine) (q : Term), (maker.compileQuery q).1 = .ok query)
    (hp : ∃ (maker : Machine) (p : Term), (maker.compileProgram p).1 = .ok program)
    (m : Machine) :
    (∀ n, m.run query program = (.ok true, n) → n.state.cursor.left = 0) ∧
    ∀ done f k x later n, program.instructions = done ++ .getStructure f k x :: later →
      m.run query (.ofInstructions done) = (.ok true, n) →
      m.run query program = ((Run.all (.getStructure f k x :: later) n.state).1,
        { n with state := (Run.all (.getStructure f k x :: later) n.state).2 }) ∧
      n.state.cursor.left = 0 ∧ n.state.Whole n.capture.root ∧
      ∀ t, Run.getStructure f k x n.state = (.ok true, t) →
        ∃ args rest, later = args ++ rest ∧ args.length = k.val ∧ (∀ i ∈ args, i.Unifies) ∧
          Run.Visits x f k args n.state t := by
  obtain ⟨maker, p, hp⟩ := hp
  obtain ⟨parts, hcode, hparts⟩ := (Code.program_eq_ok (load_eq_ok hp)).parts
  refine ⟨fun n hrun => ?_, fun done f k x later n heq hrun => ?_⟩
  · obtain ⟨k, s, hs, hprogram, -⟩ := run_idle hq hrun
    rw [hcode] at hprogram
    have hend : Run.Idle k n.state := by
      refine Run.all_flatten_keeps (fun is his s t hs hrun => ?_) hs hprogram
      obtain ⟨b, hb⟩ := hparts is his
      exact hs.program_block hb hrun
    exact hend.outside
  · obtain ⟨bottom, s, hs, hdone, hroot⟩ := run_idle hq hrun
    obtain ⟨hn, args, rest, hlater, hlength, hargs⟩ := hs.at_structure hparts (hcode ▸ heq) hdone
    have hgrow := Run.all_grows hdone
    have hwhole := hn.toTidy.whole fun a ha => (hroot a ha).grows hgrow
    have hon := run_append (.getStructure f k x :: later) hrun
    rw [← heq] at hon
    exact ⟨hon, hn.outside, hwhole, fun t hstep =>
      ⟨args, rest, hlater, hlength, hargs, hn.visits hstep hlength hargs⟩⟩

/-- The second structure is built in an argument of the first, which has been read. -/
theorem run_visits_arguments_built :
    let maker := create ⟨4, 10, 10, 2⟩
    let q : Term := .app "f" [.var "X", .var "X"]
    let p : Term := .app "f" [.app "g" [.var "A"], .var "A"]
    let query : Code := ⟨[.putStructure 0 2 0, .setVariable 1, .setValue 1], [("X", 1)]⟩
    let done : List Instruction := [.getStructure 0 2 0, .unifyVariable 1, .unifyVariable 2]
    let program : Code := ⟨done ++ [.getStructure 1 1 1, .unifyValue 2], [("A", 2)]⟩
    (maker.compileQuery q).1 = .ok query ∧
      ((maker.compileQuery q).2.compileProgram p).1 = .ok program ∧
      ∃ n t, maker.run query (.ofInstructions done) = (.ok true, n) ∧
        Run.getStructure 1 1 1 n.state = (.ok true, t) ∧
        n.state.cursor.left = 0 ∧ n.state.Whole n.capture.root ∧
        ∃ args rest, [.unifyValue 2] = args ++ rest ∧ args.length = 1 ∧
          (∀ i ∈ args, i.Unifies) ∧ Run.Visits 1 1 1 args n.state t := by
  intro maker q p query done program
  have hq : (maker.compileQuery q).1 = .ok query := by rfl
  have hp : ((maker.compileQuery q).2.compileProgram p).1 = .ok program := by decide +kernel
  obtain ⟨-, hleft, hwhole, hvisits⟩ :=
    (run_visits_arguments (.inr ⟨_, q, hq⟩) ⟨_, p, hp⟩ maker).2 done 1 1 1 [.unifyValue 2] _ rfl rfl
  exact ⟨hq, hp, _, _, rfl, rfl, hleft, hwhole, hvisits _ rfl⟩

end Machine
end TermMachine
