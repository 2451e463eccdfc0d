import TermMachine.Proofs.Code.Order

/-! # What an emitter writes

An emitter that has walked through the map of a term has written the blocks of the term. The first
walk over the arguments of a structure writes the blocks below it; then the structure's own block is
written in one piece, since the arguments that are structures are known by now.
-/
namespace TermMachine

open Block

namespace Emitter

/-- What has been written since is the code of the blocks. -/
structure Writes (style : Style) (bs : List Block) (e e' : Emitter) : Prop where
  known : e'.known = afterAll e.known bs
  code : e'.code.toList = e.code.toList ++ Block.code style e.known bs

variable {style : Style} {bs cs : List Block} {e e' e'' : Emitter}

theorem Writes.nil (style : Style) (e : Emitter) : e.Writes style [] e :=
  ⟨rfl, (List.append_nil _).symm⟩

theorem Writes.append (h : e.Writes style bs e') (h' : e'.Writes style cs e'') :
    e.Writes style (bs ++ cs) e'' where
  known := by rw [h'.known, h.known, afterAll_append]
  code := by rw [h'.code, h.code, h.known, code_append, List.append_assoc]

structure Writes.Argument (style : Style) (x : Register) (e e' : Emitter) : Prop where
  known : e'.known = meet e.known x
  code : e'.code.toList =
    e.code.toList ++ [if x ∈ e.known then style.again x else style.first x]

/-- One after the other, the arguments of a block are written behind its head. -/
theorem foldlM_arguments (style : Style)
    (write : Emitter → Register → Except CompileError Emitter) {xs : List Register}
    (hwrite : ∀ x ∈ xs, ∀ e₁, (∀ y ∈ e.known, y ∈ e₁.known) →
      ∃ e₂, write e₁ x = .ok e₂ ∧ Writes.Argument style x e₁ e₂) :
    ∃ e', xs.foldlM write e = .ok e' ∧ e'.known = meetAll e.known xs ∧
      e'.code.toList = e.code.toList ++ argumentCode style e.known xs := by
  induction xs generalizing e with
  | nil => exact ⟨e, rfl, rfl, (List.append_nil _).symm⟩
  | cons x xs ih =>
    obtain ⟨e₁, hx, hknown, hcode⟩ := hwrite x List.mem_cons_self e fun y hy => hy
    have hgrows : ∀ y ∈ e.known, y ∈ e₁.known := fun y hy => by
      rw [hknown, mem_meet]
      exact .inr hy
    obtain ⟨e', hxs, hknown', hcode'⟩ := ih fun y hy e₂ he₂ =>
      hwrite y (List.mem_cons_of_mem x hy) e₂ fun z hz => he₂ z (hgrows z hz)
    refine ⟨e', ?_, ?_, ?_⟩
    · rw [List.foldlM_cons, hx]
      exact hxs
    · rw [hknown', hknown]
      rfl
    · rw [hcode', hcode, hknown, List.append_assoc, List.singleton_append]
      rfl

theorem Writes.block {b : Block} (hknown : e'.known = meetAll (e.know b.register).known b.arguments)
    (hcode : e'.code.toList =
      ((e.know b.register).emit (style.head b.functor b.arity b.register)).code.toList ++
        argumentCode style (e.know b.register).known b.arguments) : e.Writes style [b] e' where
  known := hknown
  code := by
    rw [hcode]
    simp [emit, know, Block.code]

/-- The blocks of terms side by side are written when those of each are, one after the other. -/
theorem foldlM_blocks (write : Emitter → Register → Except CompileError Emitter)
    (blocks : Register × Term → List Block) {fit : Std.TreeSet Register → Block → Prop}
    {ps : List (Register × Term)} (hfit : Schedule fit e.known (ps.flatMap blocks))
    (hwrite : ∀ p ∈ ps, ∀ e, Schedule fit e.known (blocks p) →
      ∃ e', write e p.1 = .ok e' ∧ e.Writes style (blocks p) e') :
    ∃ e', (ps.map Prod.fst).foldlM write e = .ok e' ∧ e.Writes style (ps.flatMap blocks) e' := by
  induction ps generalizing e with
  | nil => exact ⟨e, rfl, .nil style e⟩
  | cons p ps ih =>
    obtain ⟨hfirst, hrest⟩ := schedule_append.1 hfit
    obtain ⟨e₁, hp, hwrites⟩ := hwrite p List.mem_cons_self e hfirst
    rw [← hwrites.known] at hrest
    obtain ⟨e', hps, hwrites'⟩ := ih hrest fun q hq => hwrite q (List.mem_cons_of_mem p hq)
    refine ⟨e', ?_, hwrites.append hwrites'⟩
    rw [List.map_cons, List.foldlM_cons, hp]
    exact hps

variable {table : Functor.Table} {nodes : Array Term} {map : RegisterMap} {root t : Term}
  {x : Register} {depth : Nat}

section Term

variable (h : map.Represents table root nodes)
include h

theorem notMem_known (hx : nodes[x]? = some t) (happ : t.IsApp) {met : Std.TreeSet Register}
    (hnew : Schedule IsNew met (childrenFirst map x t [])) : x ∉ met := by
  obtain ⟨b, hb, rfl, -⟩ := exists_block h hx happ
  rw [childrenFirst_eq happ hb, schedule_append] at hnew
  exact fun hmet => hnew.2.1.1 (mem_afterAll hmet)

theorem get_var {name : String} (hx : nodes[x]? = some (.var name)) :
    map.get x = .ok (.var name) := by
  rw [RegisterMap.get, h.var_row.2 hx]

omit h in
theorem get_block {b : Block} (hb : map.block? b.register = some b) :
    map.get b.register = .ok (.app b.functor b.arity b.arguments) := by
  rw [RegisterMap.get, (block?_eq_some hb).2]

/-- On the first walk over the arguments the blocks below a structure are written. -/
theorem prepare_writes (hx : nodes[x]? = some t)
    (hnew : Schedule IsNew e.known (childrenFirst map x t []))
    (hquery : t.IsApp → ∃ e', query map depth e x = .ok e' ∧
      e.Writes .query (childrenFirst map x t []) e') :
    ∃ e', prepare map (query map depth) e x = .ok e' ∧
      e.Writes .query (childrenFirst map x t []) e' := by
  unfold prepare
  rcases t.eq_var_or_isApp with ⟨name, rfl⟩ | happ
  · refine ⟨e, ?_, .nil .query e⟩
    rw [get_var h hx]
    exact ite_self _
  · obtain ⟨b, hb, rfl, -⟩ := exists_block h hx happ
    rw [if_neg (notMem_known h hx happ hnew), get_block hb]
    exact hquery happ

/-- A query that finds the arguments that are structures known writes one instruction for each
argument. -/
theorem query_argument (hx : nodes[x]? = some t) (hknown : t.IsApp → x ∈ e.known) :
    ∃ e', query map (depth + 1) e x = .ok e' ∧ Writes.Argument .query x e e' := by
  rw [query]
  by_cases hmem : x ∈ e.known
  · rw [if_pos hmem]
    exact ⟨_, rfl, by rw [meet, if_pos hmem]; rfl, by simp [emit, hmem, Style.query]⟩
  · rcases t.eq_var_or_isApp with ⟨name, rfl⟩ | happ
    · rw [if_neg hmem, get_var h hx]
      exact ⟨_, rfl, by rw [meet, if_neg hmem]; rfl, by simp [emit, know, hmem, Style.query]⟩
    · exact absurd (hknown happ) hmem

/-- Once the blocks below a structure are written, the arguments that are structures are known. -/
theorem argument_known {b : Block} (hfor : b.IsFor table nodes t) {p : Register × Term}
    (hp : p ∈ b.arguments.zip t.args) (happ : p.2.IsApp) (met : Std.TreeSet Register) :
    p.1 ∈ afterAll met
      ((b.arguments.zip t.args).flatMap fun p => childrenFirst map p.1 p.2 []) := by
  obtain ⟨c, hc, hregister, -⟩ := exists_block h (hfor.zip hp) happ
  have hmem : c ∈ childrenFirst map p.1 p.2 [] := by
    rw [← hregister] at hc ⊢
    rw [childrenFirst_eq happ hc]
    exact List.mem_append_right _ List.mem_cons_self
  exact hregister ▸ (mem_afterAll_of_block met (List.mem_flatMap.2 ⟨p, hp, hmem⟩)).1

/-- A query writes the blocks of a structure, those of its arguments first. -/
theorem query_writes (hx : nodes[x]? = some t) (happ : t.IsApp)
    (hnew : Schedule IsNew e.known (childrenFirst map x t []))
    (hdepth : map.rows.size < depth + x) :
    ∃ e', query map depth e x = .ok e' ∧ e.Writes .query (childrenFirst map x t []) e' := by
  refine induction_on h (P := fun x t => ∀ (depth : Nat) (e : Emitter), t.IsApp →
    Schedule IsNew e.known (childrenFirst map x t []) → map.rows.size < depth + x →
    ∃ e', query map depth e x = .ok e' ∧ e.Writes .query (childrenFirst map x t []) e') ?_ ?_ hx
    depth e happ hnew hdepth
  · exact fun x name _ depth e happ => happ.elim
  intro b t hfor hb ih depth e happ hnew hdepth
  have hrow := (block?_eq_some hb).2
  have hlt : b.register < map.rows.size := (Array.getElem?_eq_some_iff.1 hrow).1
  obtain ⟨depth, rfl⟩ : ∃ d, depth = d + 2 := ⟨depth - 2, by lia⟩
  have hargs := List.map_fst_zip (Nat.le_of_eq hfor.arguments.length_eq)
  have hnotMem := notMem_known h hfor.node happ hnew
  rw [childrenFirst_eq happ hb] at hnew ⊢
  obtain ⟨e₁, hbelow, hwrites⟩ := foldlM_blocks (prepare map (query map (depth + 1)))
    (fun p => childrenFirst map p.1 p.2 []) (schedule_append.1 hnew).1 fun p hp e hfit =>
      prepare_writes h (hfor.zip hp) hfit fun hpapp => by
        have hyounger := h.younger hrow (List.of_mem_zip hp).1 ⟨p.2, hfor.zip hp, hpapp⟩
        exact ih p hp (depth + 1) e hpapp hfit (by lia)
  rw [hargs] at hbelow
  -- the second walk meets the arguments that are structures again
  have hargument : ∀ y ∈ b.arguments, ∀ e₂ : Emitter,
      (∀ z ∈ (e₁.know b.register).known, z ∈ e₂.known) →
      ∃ e₃, query map (depth + 1) e₂ y = .ok e₃ ∧ Writes.Argument .query y e₂ e₃ := by
    intro y hy e₂ hgrows
    obtain ⟨u, hu⟩ := hfor.exists_zip hy
    refine query_argument h (hfor.zip hu) fun huapp => hgrows y (mem_insert.2 (.inr ?_))
    rw [hwrites.known]
    exact argument_known h hfor hu huapp e.known
  obtain ⟨e₂, hself, hknown, hcode⟩ := foldlM_arguments .query (query map (depth + 1)) hargument
    (e := (e₁.know b.register).emit (.putStructure b.functor b.arity b.register))
  refine ⟨e₂, ?_, hwrites.append (.block hknown hcode)⟩
  rw [query, if_neg hnotMem, get_block hb]
  dsimp only
  rw [hbelow]
  exact hself

omit h in
theorem unify_arguments (e : Emitter) (xs : List Register) :
    (xs.foldl unify e).known = meetAll e.known xs ∧
      (xs.foldl unify e).code.toList = e.code.toList ++ argumentCode .program e.known xs := by
  have hwrite : ∀ (e : Emitter) x, Writes.Argument .program x e (unify e x) := by
    intro e x
    unfold unify
    by_cases hmem : x ∈ e.known
    · rw [if_pos hmem]
      exact ⟨by rw [meet, if_pos hmem]; rfl, by simp [emit, hmem, Style.program]⟩
    · rw [if_neg hmem]
      exact ⟨by rw [meet, if_neg hmem]; rfl, by simp [emit, know, hmem, Style.program]⟩
  obtain ⟨e', hxs, hwrites⟩ := foldlM_arguments .program (fun e x => pure (unify e x)) (e := e)
    fun x (_ : x ∈ xs) e _ => ⟨_, rfl, hwrite e x⟩
  rw [List.foldlM_pure] at hxs
  exact Except.ok.inj hxs ▸ hwrites

/-- A program writes the blocks of a term, those of its arguments last. -/
theorem program_writes (hx : nodes[x]? = some t) (hpos : 0 < depth)
    (hdepth : t.IsApp → map.rows.size < depth + x) :
    ∃ e', program map depth e x = .ok e' ∧ e.Writes .program (parentsFirst map x t []) e' := by
  refine induction_on h (P := fun x t => ∀ (depth : Nat) (e : Emitter), 0 < depth →
    (t.IsApp → map.rows.size < depth + x) → ∃ e', program map depth e x = .ok e' ∧
      e.Writes .program (parentsFirst map x t []) e') ?_ ?_ hx depth e hpos hdepth
  · intro x name hx depth e hpos _
    obtain ⟨depth, rfl⟩ : ∃ d, depth = d + 1 := ⟨depth - 1, by lia⟩
    refine ⟨e, ?_, .nil .program e⟩
    rw [program, get_var h hx]
  intro b t hfor hb ih depth e _ hdepth
  have hrow := (block?_eq_some hb).2
  have hlt : b.register < map.rows.size := (Array.getElem?_eq_some_iff.1 hrow).1
  have hdeep := hdepth hfor.isApp
  obtain ⟨depth, rfl⟩ : ∃ d, depth = d + 2 := ⟨depth - 2, by lia⟩
  have hargs := List.map_fst_zip (Nat.le_of_eq hfor.arguments.length_eq)
  obtain ⟨hknown, hcode⟩ := unify_arguments
    ((e.know b.register).emit (.getStructure b.functor b.arity b.register)) b.arguments
  have hany : Schedule (fun _ _ => True)
      (b.arguments.foldl unify
        ((e.know b.register).emit (.getStructure b.functor b.arity b.register))).known
      ((b.arguments.zip t.args).flatMap fun p => parentsFirst map p.1 p.2 []) :=
    schedule_of_forall fun _ _ => trivial
  obtain ⟨e', hbelow, hwrites⟩ := foldlM_blocks (program map (depth + 1))
    (fun p => parentsFirst map p.1 p.2 []) hany fun p hp e _ =>
      ih p hp (depth + 1) e (Nat.succ_pos depth) fun hpapp => by
        have hyounger := h.younger hrow (List.of_mem_zip hp).1 ⟨p.2, hfor.zip hp, hpapp⟩
        lia
  rw [hargs] at hbelow
  rw [parentsFirst_eq hfor.isApp hb]
  refine ⟨e', ?_, (Writes.block hknown hcode).append hwrites⟩
  rw [program, get_block hb]
  exact hbelow

end Term
end Emitter
end TermMachine
