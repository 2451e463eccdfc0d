import TermMachine.Proofs.Code.Compiled
import TermMachine.Proofs.Register.Encoding

/-! # The layout of compiled code

Query and program are written from the same blocks, one for each structure row of the register map.
In a query a block comes behind those of its arguments, in a program before them, and which
instruction an argument gets depends on whether its register is mentioned before.
-/
namespace TermMachine

namespace Instruction

def register : Instruction → Register
  | putStructure _ _ x => x
  | setVariable x => x
  | setValue x => x
  | getStructure _ _ x => x
  | unifyVariable x => x
  | unifyValue x => x

def defines : Instruction → Option Register
  | putStructure _ _ x => some x
  | setVariable x => some x
  | _ => none

end Instruction

namespace Block

inductive Written (style : Style) (b : Block) : List Instruction → Prop
  | intro {is : List Instruction} : is.length = b.arity.val →
      List.Forall₂ (fun x i => i = style.first x ∨ i = style.again x) b.arguments is →
      Written style b (style.head b.functor b.arity b.register :: is)

/-- The code is written from blocks, which are the structure rows of the map, each once. -/
structure Layout (style : Style) (map : RegisterMap) (blocks : List Block)
    (code : List Instruction) : Prop where
  written : ∃ parts, code = parts.flatten ∧ List.Forall₂ (Written style) blocks parts
  rows : ∀ b, b ∈ blocks ↔ map.rows[b.register]? = some (.app b.functor b.arity b.arguments)
  nodup : (blocks.map register).Nodup

/-- The code of a query: arguments are built before the structures that they belong to. -/
structure Builds (map : RegisterMap) (blocks : List Block) (code : List Instruction) : Prop where
  layout : Layout .query map blocks code
  before : ∀ b ∈ blocks, ∀ c ∈ blocks, c.register ∈ b.arguments → [c, b].Sublist blocks
  last : blocks.getLast?.map register = some RegisterMap.root
  first : ∀ {pre post : List Instruction} {x : Register}, code = pre ++ .setVariable x :: post →
    (∃ name, map.rows[x]? = some (.var name)) ∧ x ∉ pre.map Instruction.register
  again : ∀ {pre post : List Instruction} {x : Register}, code = pre ++ .setValue x :: post →
    x ∈ pre.filterMap Instruction.defines
  once : (code.filterMap Instruction.defines).Perm (List.range map.rows.size)

/-- The code of a program: structures are matched before the arguments that belong to them. -/
structure Matches (map : RegisterMap) (blocks : List Block) (code : List Instruction) : Prop where
  layout : Layout .program map blocks code
  before : ∀ b ∈ blocks, ∀ c ∈ blocks, c.register ∈ b.arguments → [b, c].Sublist blocks
  head : blocks.head?.map register = some RegisterMap.root
  first : ∀ {pre post : List Instruction} {x : Register}, code = pre ++ .unifyVariable x :: post →
    x ∉ pre.map Instruction.register
  again : ∀ {pre post : List Instruction} {x : Register}, code = pre ++ .unifyValue x :: post →
    x ∈ pre.map Instruction.register

theorem argumentCode_forall₂ (style : Style) (met : Std.TreeSet Register) (xs : List Register) :
    List.Forall₂ (fun x i => i = style.first x ∨ i = style.again x) xs
      (argumentCode style met xs) := by
  induction xs generalizing met with
  | nil => exact .nil
  | cons x xs ih =>
    refine .cons ?_ (ih _)
    by_cases hx : x ∈ met
    · exact .inr (if_pos hx)
    · exact .inl (if_neg hx)

theorem code_written (style : Style) (met : Std.TreeSet Register) {bs : List Block}
    (h : ∀ b ∈ bs, b.arguments.length = b.arity.val) :
    ∃ parts, code style met bs = parts.flatten ∧ List.Forall₂ (Written style) bs parts := by
  induction bs generalizing met with
  | nil => exact ⟨[], rfl, .nil⟩
  | cons b bs ih =>
    obtain ⟨parts, hcode, hparts⟩ := ih (b.after met) fun c hc => h c (List.mem_cons_of_mem b hc)
    have hlen := (length_argumentCode style (met.insert b.register) b.arguments).trans
      (h b List.mem_cons_self)
    refine ⟨_ :: parts, ?_, .cons (.intro hlen (argumentCode_forall₂ style _ _)) hparts⟩
    rw [code, hcode, List.flatten_cons]

structure Style.Lawful (style : Style) : Prop where
  head : ∀ f n x, (style.head f n x).register = x
  first : ∀ x, (style.first x).register = x
  again : ∀ x, (style.again x).register = x
  first_ne_head : ∀ f n x y, style.first x ≠ style.head f n y
  again_ne_head : ∀ f n x y, style.again x ≠ style.head f n y
  first_ne_again : ∀ x y, style.first x ≠ style.again y

theorem Style.lawful_query : Style.query.Lawful :=
  ⟨fun _ _ _ => rfl, fun _ => rfl, fun _ => rfl, nofun, nofun, nofun⟩

theorem Style.lawful_program : Style.program.Lawful :=
  ⟨fun _ _ _ => rfl, fun _ => rfl, fun _ => rfl, nofun, nofun, nofun⟩

def Prepared (needed : Register → Prop) (met : Std.TreeSet Register) (b : Block) : Prop :=
  ∀ y ∈ b.arguments, needed y → y ∈ met

/-- The instruction of an argument behind `pre`: the first to mention its register, which then is
not one of those needed, or one that mentions it again. -/
inductive Marked (style : Style) (needed : Register → Prop) (met : Std.TreeSet Register)
    (pre : List Instruction) : Instruction → Prop
  | first (x : Register) : x ∉ met → x ∉ pre.map Instruction.register → ¬needed x →
      Marked style needed met pre (style.first x)
  | again (x : Register) : x ∈ met ∨ x ∈ pre.map Instruction.register →
      Marked style needed met pre (style.again x)

variable {style : Style} {needed : Register → Prop} {met met' : Std.TreeSet Register}
  {pre post : List Instruction} {i : Instruction} {bs : List Block} {b c : Block}
  {x y : Register}

theorem Marked.append (h : Marked style needed met' pre i) (front : List Instruction)
    (hmet : ∀ y, y ∈ met' ↔ y ∈ met ∨ y ∈ front.map Instruction.register) :
    Marked style needed met (front ++ pre) i := by
  cases h with
  | first x hx hpre hneeded =>
    rw [hmet, not_or] at hx
    refine .first x hx.1 ?_ hneeded
    rw [List.map_append, List.mem_append, not_or]
    exact ⟨hx.2, hpre⟩
  | again x hx =>
    refine .again x ?_
    rw [hmet] at hx
    rw [List.map_append, List.mem_append]
    tauto

theorem argumentCode_marked (hs : style.Lawful) {xs : List Register}
    (hneeded : ∀ y ∈ xs, needed y → y ∈ met)
    (h : argumentCode style met xs = pre ++ i :: post) : Marked style needed met pre i := by
  induction xs generalizing met pre with
  | nil => simp [argumentCode] at h
  | cons x xs ih =>
    rw [argumentCode] at h
    cases pre with
    | nil =>
      obtain ⟨hi, -⟩ := List.cons.inj h
      by_cases hx : x ∈ met
      · rw [if_pos hx] at hi
        exact hi ▸ .again x (.inl hx)
      · rw [if_neg hx] at hi
        exact hi ▸ .first x hx (by simp) fun hn => hx (hneeded x List.mem_cons_self hn)
    | cons j pre =>
      obtain ⟨hj, hrest⟩ := List.cons.inj h
      have hreg : j.register = x := by
        rw [← hj]
        by_cases hx : x ∈ met
        · rw [if_pos hx, hs.again]
        · rw [if_neg hx, hs.first]
      have hmarked := ih
        (fun y hy hn => mem_meet.2 (.inr (hneeded y (List.mem_cons_of_mem x hy) hn))) hrest
      refine hmarked.append [j] fun y => ?_
      rw [mem_meet, List.map_singleton, hreg, List.mem_singleton]
      tauto

theorem map_register_argumentCode (hs : style.Lawful) (met : Std.TreeSet Register)
    (xs : List Register) : (argumentCode style met xs).map Instruction.register = xs := by
  induction xs generalizing met with
  | nil => rfl
  | cons x xs ih =>
    rw [argumentCode, List.map_cons, ih]
    by_cases hx : x ∈ met
    · rw [if_pos hx, hs.again]
    · rw [if_neg hx, hs.first]

/-- Each instruction of a code is the head of a block, or it is marked by what stands before it. -/
theorem code_marked (hs : style.Lawful)
    (hneeded : Schedule (Prepared needed) met bs)
    (h : code style met bs = pre ++ i :: post) :
    (∃ b ∈ bs, i = style.head b.functor b.arity b.register) ∨ Marked style needed met pre i := by
  induction bs generalizing met pre with
  | nil => simp [code] at h
  | cons b bs ih =>
    obtain ⟨hfirst, hrest⟩ := hneeded
    rw [code, List.cons_append] at h
    cases pre with
    | nil =>
      obtain ⟨hi, -⟩ := List.cons.inj h
      exact .inl ⟨b, List.mem_cons_self, hi.symm⟩
    | cons j pre =>
      obtain ⟨hj, h⟩ := List.cons.inj h
      have hreg : j.register = b.register := by rw [← hj, hs.head]
      have hinsert : ∀ y, y ∈ met.insert b.register ↔
          y ∈ met ∨ y ∈ [j].map Instruction.register := fun y => by
        rw [mem_insert, List.map_singleton, hreg, List.mem_singleton]
        tauto
      -- behind the arguments of the first block
      have hbehind : ∀ mid, code style (b.after met) bs = mid ++ i :: post →
          pre = argumentCode style (met.insert b.register) b.arguments ++ mid →
          (∃ c ∈ b :: bs, i = style.head c.functor c.arity c.register) ∨
            Marked style needed met (j :: pre) i := by
        rintro mid hmid rfl
        rcases ih hrest hmid with ⟨c, hc, hi⟩ | hmarked
        · exact .inl ⟨c, List.mem_cons_of_mem b hc, hi⟩
        · right
          refine hmarked.append
            (j :: argumentCode style (met.insert b.register) b.arguments) fun y => ?_
          rw [mem_after, List.map_cons, map_register_argumentCode hs, hreg, List.mem_cons]
          tauto
      rcases List.append_eq_append_iff.1 h with ⟨mid, hpre, hmid⟩ | ⟨mid, hargs, hmid⟩
      · exact hbehind mid hmid hpre
      · cases mid with
        | nil => exact hbehind [] hmid.symm (by simpa using hargs.symm)
        | cons k mid =>
          obtain ⟨rfl, -⟩ := List.cons.inj hmid
          have hmarked := argumentCode_marked hs
            (fun y hy hn => mem_insert.2 (.inr (hfirst y hy hn))) hargs
          exact .inr (hmarked.append [j] hinsert)

theorem code_first (hs : style.Lawful)
    (hneeded : Schedule (Prepared needed) met bs)
    (h : code style met bs = pre ++ style.first x :: post) :
    x ∉ pre.map Instruction.register ∧ ¬needed x := by
  rcases code_marked hs hneeded h with ⟨b, -, hb⟩ | hmarked
  · exact absurd hb (hs.first_ne_head _ _ _ _)
  · generalize hi : style.first x = i at hmarked
    cases hmarked with
    | first y hmet hpre hn =>
      have hxy : x = y := by rw [← hs.first x, hi, hs.first]
      exact hxy ▸ ⟨hpre, hn⟩
    | again y => exact absurd hi (hs.first_ne_again x y)

theorem code_again (hs : style.Lawful)
    (hneeded : Schedule (Prepared needed) met bs)
    (h : code style met bs = pre ++ style.again x :: post) :
    x ∈ met ∨ x ∈ pre.map Instruction.register := by
  rcases code_marked hs hneeded h with ⟨b, -, hb⟩ | hmarked
  · exact absurd hb (hs.again_ne_head _ _ _ _)
  · generalize hi : style.again x = i at hmarked
    cases hmarked with
    | first y => exact absurd hi.symm (hs.first_ne_again y x)
    | again y hy =>
      have hxy : x = y := by rw [← hs.again x, hi, hs.again]
      exact hxy ▸ hy

/-- The registers defined by the arguments of a block are those not met before, each once. -/
theorem defines_argumentCode (met : Std.TreeSet Register) (xs : List Register) :
    ((argumentCode .query met xs).filterMap Instruction.defines).Nodup ∧
      ∀ y, y ∈ (argumentCode .query met xs).filterMap Instruction.defines ↔ y ∉ met ∧ y ∈ xs := by
  induction xs generalizing met with
  | nil => simp [argumentCode]
  | cons x xs ih =>
    obtain ⟨hnodup, hmem⟩ := ih (meet met x)
    by_cases hx : x ∈ met
    · have hcode : (argumentCode .query met (x :: xs)).filterMap Instruction.defines =
          (argumentCode .query (meet met x) xs).filterMap Instruction.defines := by
        rw [argumentCode, if_pos hx]
        rfl
      rw [hcode]
      refine ⟨hnodup, fun y => ?_⟩
      rw [hmem, mem_meet, List.mem_cons]
      constructor
      · tauto
      · rintro ⟨hy, rfl | hys⟩
        · exact absurd hx hy
        · exact ⟨fun hor => hor.elim (fun heq => hy (heq ▸ hx)) hy, hys⟩
    · have hcode : (argumentCode .query met (x :: xs)).filterMap Instruction.defines =
          x :: (argumentCode .query (meet met x) xs).filterMap Instruction.defines := by
        rw [argumentCode, if_neg hx]
        rfl
      rw [hcode]
      refine ⟨List.nodup_cons.2 ⟨?_, hnodup⟩, fun y => ?_⟩
      · rw [hmem, mem_meet]
        tauto
      · rw [List.mem_cons, hmem, mem_meet, List.mem_cons]
        by_cases hy : y = x
        · subst hy
          simp [hx]
        · simp [hy]

/-- A query defines each register of its blocks once. -/
theorem defines_code (h : Schedule IsNew met bs) :
    ((code .query met bs).filterMap Instruction.defines).Nodup ∧
      ∀ y, y ∈ (code .query met bs).filterMap Instruction.defines ↔
        y ∉ met ∧ ∃ b ∈ bs, y = b.register ∨ y ∈ b.arguments := by
  induction bs generalizing met with
  | nil => simp [code]
  | cons b bs ih =>
    obtain ⟨⟨hnew, -⟩, hrest⟩ := h
    obtain ⟨hargs, hmemargs⟩ := defines_argumentCode (met.insert b.register) b.arguments
    obtain ⟨hbs, hmembs⟩ := ih hrest
    have hcode : (code .query met (b :: bs)).filterMap Instruction.defines = b.register ::
        ((argumentCode .query (met.insert b.register) b.arguments).filterMap Instruction.defines ++
          (code .query (b.after met) bs).filterMap Instruction.defines) := by
      rw [code, List.cons_append, ← List.filterMap_append]
      rfl
    rw [hcode]
    refine ⟨List.nodup_cons.2 ⟨?_, List.nodup_append.2 ⟨hargs, hbs, ?_⟩⟩, fun y => ?_⟩
    · rw [List.mem_append, hmemargs, hmembs, mem_insert, mem_after]
      tauto
    · intro y hy z hz heq
      rw [hmemargs] at hy
      rw [hmembs, mem_after] at hz
      subst heq
      tauto
    · rw [List.mem_cons, List.mem_append, hmemargs, hmembs, mem_insert, mem_after]
      simp only [List.mem_cons, exists_eq_or_imp]
      by_cases hy : y = b.register
      · subst hy
        simp [hnew]
      · by_cases hmem : y ∈ b.arguments
        · simp [hy, hmem]
        · simp [hy, hmem]

/-- What a query has mentioned it has defined. -/
theorem mem_defines_of_mentioned {needed : Register → Prop}
    (hneeded : Schedule (Prepared needed) ∅ bs)
    (h : code .query ∅ bs = pre ++ post) (hx : x ∈ pre.map Instruction.register) :
    x ∈ pre.filterMap Instruction.defines := by
  induction pre using List.reverseRecOn generalizing post x with
  | nil => cases hx
  | append_singleton pre i ih =>
    rw [List.append_assoc, List.singleton_append] at h
    rw [List.filterMap_append, List.mem_append]
    rw [List.map_append, List.map_singleton, List.mem_append, List.mem_singleton] at hx
    rcases hx with hx | rfl
    · exact .inl (ih h hx)
    · rcases code_marked Style.lawful_query hneeded h with ⟨b, -, rfl⟩ | hmarked
      · exact .inr (List.mem_singleton_self _)
      · cases hmarked with
        | first y => exact .inr (List.mem_singleton_self _)
        | again y hy =>
          rcases hy with hy | hy
          · simp at hy
          · exact .inl (ih h hy)

/-- What a block needs has been met at first or in an earlier block. -/
theorem Schedule.exists_earlier {need : Block → Register → Prop}
    (h : Schedule (fun met b => ∀ y, need b y → y ∈ met) met bs) (hb : b ∈ bs) (hy : need b y) :
    y ∈ met ∨ ∃ c, [c, b].Sublist bs ∧ (y = c.register ∨ y ∈ c.arguments) := by
  induction bs generalizing met with
  | nil => cases hb
  | cons c bs ih =>
    rcases List.mem_cons.1 hb with rfl | hb
    · exact .inl (h.1 y hy)
    · rcases ih h.2 hb with hmet | ⟨d, hd, hyd⟩
      · rcases mem_after.1 hmet with rfl | hmem | hmet
        · exact .inr ⟨c, (List.singleton_sublist.2 hb).cons_cons c, .inl rfl⟩
        · exact .inr ⟨c, (List.singleton_sublist.2 hb).cons_cons c, .inr hmem⟩
        · exact .inl hmet
      · exact .inr ⟨d, hd.cons c, hyd⟩

section Term

variable {table : Functor.Table} {nodes : Array Term} {map : RegisterMap} {root t : Term}
variable (h : map.Represents table root nodes)
include h

theorem mem_parentsFirst_self (hx : nodes[x]? = some t) (hb : map.block? x = some b) :
    b ∈ parentsFirst map x t [] := by
  obtain ⟨rfl, hrow⟩ := block?_eq_some hb
  obtain ⟨u, hu, happ⟩ := h.isStructured_of_app hrow
  rw [hx, Option.some.injEq] at hu
  subst hu
  rw [parentsFirst_eq happ hb]
  exact List.mem_cons_self

theorem mem_parentsFirst_argument (hx : nodes[x]? = some t) (hb : b ∈ parentsFirst map x t [])
    (hy : y ∈ b.arguments) (hc : map.block? y = some c) : c ∈ parentsFirst map x t [] := by
  refine induction_on h (P := fun x t => b ∈ parentsFirst map x t [] →
    c ∈ parentsFirst map x t []) ?_ ?_ hx hb
  · intro x name _ hb
    cases hb
  · intro d t hfor hd ih hb
    rw [parentsFirst_eq hfor.isApp hd] at hb ⊢
    refine List.mem_cons_of_mem d (List.mem_flatMap.2 ?_)
    rcases List.mem_cons.1 hb with rfl | hb
    · obtain ⟨w, hw⟩ := hfor.exists_zip hy
      exact ⟨_, hw, mem_parentsFirst_self h (hfor.zip hw) hc⟩
    · obtain ⟨p, hp, hb⟩ := List.mem_flatMap.1 hb
      exact ⟨p, hp, ih p hp hb⟩

/-- Every structure row has its block among those of the term. -/
theorem mem_parentsFirst_root (hn : map.Numbered) (hb : map.block? x = some b) :
    b ∈ parentsFirst map RegisterMap.root root [] := by
  induction x using Nat.strongRecOn generalizing b with
  | ind x ih =>
    by_cases hroot : x = RegisterMap.root
    · exact mem_parentsFirst_self h h.root (hroot ▸ hb)
    · have hstr := h.isStructured_of_app (block?_eq_some hb).2
      obtain ⟨y, row, hrow, hy, hlt⟩ := h.exists_parent hn hstr hroot
      obtain ⟨u, hu, happ⟩ := h.isStructured_of_mem_arguments hrow hy
      obtain ⟨c, hc, rfl, -⟩ := exists_block h hu happ
      obtain rfl : row = _ := Option.some.inj (hrow.symm.trans (block?_eq_some hc).2)
      exact mem_parentsFirst_argument h h.root (ih _ hlt hc) hy hb

/-- With children first, arguments that are structures are met before their parent's block. -/
theorem schedule_built (hx : nodes[x]? = some t) :
    Schedule (Prepared (IsStructured nodes)) met (childrenFirst map x t []) := by
  refine induction_on h (P := fun x t => ∀ met : Std.TreeSet Register,
    Schedule (Prepared (IsStructured nodes)) met (childrenFirst map x t [])) ?_ ?_ hx met
  · exact fun x name _ met => trivial
  · intro b t hfor hb ih met
    rw [childrenFirst_eq hfor.isApp hb]
    refine schedule_append.2 ⟨schedule_flatMap fun p hp met' _ => ih p hp met', ?_, trivial⟩
    rintro y hy ⟨u, hu, happ⟩
    obtain ⟨w, hw⟩ := hfor.exists_zip hy
    obtain ⟨c, hc, rfl, -⟩ := exists_block h hu happ
    have hmem := (perm h (hfor.zip hw)).mem_iff.2 (mem_parentsFirst_self h (hfor.zip hw) hc)
    exact (mem_afterAll_of_block _ (List.mem_flatMap.2 ⟨_, hw, hmem⟩)).1

theorem mem_iff_row (hn : map.Numbered) : b ∈ parentsFirst map RegisterMap.root root [] ↔
    map.rows[b.register]? = some (.app b.functor b.arity b.arguments) := by
  constructor
  · intro hb
    exact (block?_eq_some (mem_blocks h h.root hb).1).2
  · intro hrow
    refine mem_parentsFirst_root h hn (x := b.register) ?_
    simp [RegisterMap.block?, hrow]

theorem registers_nodup : ((childrenFirst map RegisterMap.root root []).map register).Nodup :=
  List.pairwise_map.2 ((childrenFirst_pairwise h h.root).imp fun hne => hne.1.symm)

theorem eq_of_common_argument (hb : b ∈ parentsFirst map RegisterMap.root root [])
    (hc : c ∈ parentsFirst map RegisterMap.root root []) (hyb : y ∈ b.arguments)
    (hyc : y ∈ c.arguments) (hy : IsStructured nodes y) : b = c := by
  obtain ⟨hb, -⟩ := mem_blocks h h.root hb
  obtain ⟨hc, -⟩ := mem_blocks h h.root hc
  have hreg := h.argument_unique (block?_eq_some hb).2 (block?_eq_some hc).2 hyb hyc hy
  rw [hreg, hc, Option.some.injEq] at hb
  exact hb.symm

/-- The registers of the map are those that its blocks mention. -/
theorem mentioned_iff (hn : map.Numbered) (happ : root.IsApp) :
    (∃ b ∈ parentsFirst map RegisterMap.root root [], y = b.register ∨ y ∈ b.arguments) ↔
      y < map.rows.size := by
  constructor
  · rintro ⟨b, hb, hy⟩
    obtain ⟨-, -, u, hu⟩ := mem_blocks h h.root hb
    have hfits := hu.fits (Nat.le_of_eq h.size_eq.symm)
    rcases hy with rfl | hy
    · exact hfits.register_lt
    · exact hfits.arguments_lt y hy
  · intro hy
    rcases hn.mem_iff.2 hy with rfl | hy
    · obtain ⟨b, hb, hreg, -⟩ := exists_block h h.root happ
      exact ⟨b, mem_parentsFirst_self h h.root hb, .inl hreg.symm⟩
    · obtain ⟨z, row, hrow, hy⟩ := RegisterMap.mem_arguments.1 hy
      cases row with
      | var name => cases hy
      | app f n xs => exact ⟨⟨f, n, z, xs⟩, (mem_iff_row h hn).2 hrow, .inr hy⟩

/-- The blocks with children first make a query. -/
theorem builds_childrenFirst (hn : map.Numbered) (happ : root.IsApp) :
    Builds map (childrenFirst map RegisterMap.root root [])
      (code .query ∅ (childrenFirst map RegisterMap.root root [])) := by
  have hperm := perm h h.root
  have hstructured : Schedule (Prepared (IsStructured nodes)) ∅
      (childrenFirst map RegisterMap.root root []) := schedule_built h h.root
  have hneeded : Schedule (fun met b => ∀ y, y ∈ b.arguments ∧ IsStructured nodes y → y ∈ met) ∅
      (childrenFirst map RegisterMap.root root []) :=
    hstructured.imp fun met b hfit y hy => hfit y hy.1 hy.2
  have hdefines := defines_code (schedule_childrenFirst h h.root)
  have hmem : ∀ y, y ∈ (code .query ∅ (childrenFirst map RegisterMap.root root [])).filterMap
      Instruction.defines ↔ y < map.rows.size := by
    intro y
    rw [hdefines.2, ← mentioned_iff h hn happ]
    simp [hperm.mem_iff]
  constructor
  case layout =>
    refine ⟨code_written .query ∅ fun b hb => length_arguments h h.root (hperm.mem_iff.1 hb),
      fun b => ?_, registers_nodup h⟩
    rw [hperm.mem_iff, mem_iff_row h hn]
  case before =>
    intro b hb c hc hcb
    obtain ⟨-, -, u, hu⟩ := mem_blocks h h.root (hperm.mem_iff.1 hc)
    have hstr : IsStructured nodes c.register := ⟨u, hu.node, hu.isApp⟩
    rcases hneeded.exists_earlier hb ⟨hcb, hstr⟩ with hmet | ⟨d, hd, hreg | hdarg⟩
    · simp at hmet
    · have hdmem := hd.subset List.mem_cons_self
      have heq : d = c := List.inj_on_of_nodup_map (registers_nodup h) hdmem hc hreg.symm
      exact heq ▸ hd
    · have hdmem := hperm.mem_iff.1 (hd.subset List.mem_cons_self)
      obtain rfl := eq_of_common_argument h hdmem (hperm.mem_iff.1 hb) hdarg hcb hstr
      have hnodup := (registers_nodup h).of_map.sublist hd
      simp at hnodup
  case last =>
    obtain ⟨b, hb, hreg, -⟩ := exists_block h h.root happ
    rw [← hreg, childrenFirst_eq happ (hreg ▸ hb), List.getLast?_concat, Option.map_some]
  case first =>
    intro pre post x heq
    have hx : x < map.rows.size := by
      rw [← hmem, heq, List.filterMap_append]
      exact List.mem_append_right _ List.mem_cons_self
    obtain ⟨hpre, hstr⟩ := code_first Style.lawful_query hstructured heq
    refine ⟨?_, hpre⟩
    have hrow := Array.getElem?_eq_getElem hx
    cases hkind : map.rows[x] with
    | var name => exact ⟨name, by rw [hrow, hkind]⟩
    | app f n xs => exact absurd (h.isStructured_of_app (hkind ▸ hrow)) hstr
  case again =>
    intro pre post x heq
    refine mem_defines_of_mentioned hstructured heq ?_
    simpa using code_again Style.lawful_query hstructured heq
  case once =>
    refine (List.perm_ext_iff_of_nodup hdefines.1 List.nodup_range).2 fun y => ?_
    rw [hmem, List.mem_range]

/-- The blocks with parents first make a program. -/
theorem matches_parentsFirst (hn : map.Numbered) (happ : root.IsApp) :
    Matches map (parentsFirst map RegisterMap.root root [])
      (code .program ((∅ : Std.TreeSet Register).insert RegisterMap.root)
        (parentsFirst map RegisterMap.root root [])) := by
  have hnodup := ((perm h h.root).map register).nodup_iff.1 (registers_nodup h)
  obtain ⟨d, hd, hreg, -⟩ := exists_block h h.root happ
  have hcode : code .program ((∅ : Std.TreeSet Register).insert RegisterMap.root)
      (parentsFirst map RegisterMap.root root []) =
      code .program ∅ (parentsFirst map RegisterMap.root root []) := by
    rw [← hreg, parentsFirst_eq happ (hreg ▸ hd), code_insert]
  have hnone : Schedule (Prepared fun _ => False) ∅
      (parentsFirst map RegisterMap.root root []) :=
    schedule_of_forall fun met b y _ => False.elim
  have hmet : Schedule (fun met b => ∀ y, y = b.register → y ∈ met)
      ((∅ : Std.TreeSet Register).insert RegisterMap.root)
      (parentsFirst map RegisterMap.root root []) :=
    Schedule.imp (fun met b (hfit : IsMet met b) y hy => hy ▸ hfit)
      (schedule_parentsFirst h h.root (mem_insert.2 (.inl rfl)))
  rw [hcode]
  constructor
  case layout =>
    exact ⟨code_written .program ∅ fun b hb => length_arguments h h.root hb,
      fun b => mem_iff_row h hn, hnodup⟩
  case before =>
    intro b hb c hc hcb
    obtain ⟨-, -, u, hu⟩ := mem_blocks h h.root hc
    have hstr : IsStructured nodes c.register := ⟨u, hu.node, hu.isApp⟩
    have hlt := h.younger ((mem_iff_row h hn).1 hb) hcb hstr
    rcases hmet.exists_earlier hc rfl with hroot | ⟨d, hd, hdc | hdarg⟩
    · rw [mem_insert] at hroot
      rcases hroot with hroot | hroot
      · exact absurd (hroot ▸ hlt) (Nat.not_lt_zero _)
      · simp at hroot
    · obtain rfl : c = d :=
        List.inj_on_of_nodup_map hnodup hc (hd.subset List.mem_cons_self) hdc
      have htwice := hnodup.of_map.sublist hd
      simp at htwice
    · obtain rfl :=
        eq_of_common_argument h (hd.subset List.mem_cons_self) hb hdarg hcb hstr
      exact hd
  case head =>
    rw [← hreg, parentsFirst_eq happ (hreg ▸ hd), List.head?_cons, Option.map_some]
  case first =>
    intro pre post x heq
    exact (code_first Style.lawful_program hnone heq).1
  case again =>
    intro pre post x heq
    simpa using code_again Style.lawful_program hnone heq

end Term

end Block

namespace Code

variable {t : Term} {table later later' : Functor.Table} {capacity : Nat} {query program : Code}

/-- Query and program of a term are the blocks of its structure rows in two orders. -/
theorem compiled_blocks (happ : t.IsApp) (hquery : Code.query t table capacity = (.ok query, later))
    (hprogram : Code.program t table capacity = (.ok program, later')) :
    ∃ map queryBlocks programBlocks, RegisterMap.allocate t table capacity = (.ok map, later) ∧
      Block.Builds map queryBlocks query.instructions ∧
      Block.Matches map programBlocks program.instructions ∧ queryBlocks.Perm programBlocks := by
  rw [query_eq_compileWith] at hquery
  rw [program_eq_compileWith] at hprogram
  obtain ⟨map, hmap, rfl⟩ := compileWith_eq_ok hquery
  obtain ⟨map', hmap', rfl⟩ := compileWith_eq_ok hprogram
  obtain ⟨hsame, -⟩ := Prod.mk.inj (hmap.symm.trans hmap')
  obtain rfl := Except.ok.inj hsame
  obtain ⟨nodes, hrep, -, hnumbered, -⟩ := (RegisterMap.allocate_cases t table capacity).2 hmap
  refine ⟨map, _, _, hmap, ?_, ?_, Block.perm hrep hrep.root⟩
  · have hbuilds := Block.builds_childrenFirst hrep hnumbered happ
    rw [← queryInstructions_eq map happ] at hbuilds
    exact hbuilds
  · have hmatches := Block.matches_parentsFirst hrep hnumbered happ
    rw [← programInstructions_eq hrep] at hmatches
    exact hmatches

/-- The blocks of `h` and `f` stand before that of `p` in the query and behind it in the program,
and the first of them to mention `W` is another one. -/
theorem compiled_blocks_shared :
    let t := Term.app "p" [.var "Z", .app "h" [.var "Z", .var "W"], .app "f" [.var "W"]]
    ∃ query program later later', Code.query t (.empty 64) 64 = (.ok query, later) ∧
      Code.program t (.empty 64) 64 = (.ok program, later') ∧
      query.instructions = [.putStructure 1 2 2, .setVariable 1, .setVariable 4,
        .putStructure 2 1 3, .setValue 4,
        .putStructure 0 3 0, .setValue 1, .setValue 2, .setValue 3] ∧
      program.instructions = [.getStructure 0 3 0, .unifyVariable 1, .unifyVariable 2,
        .unifyVariable 3, .getStructure 1 2 2, .unifyValue 1, .unifyVariable 4,
        .getStructure 2 1 3, .unifyValue 4] ∧
      ∃ map queryBlocks programBlocks, RegisterMap.allocate t (.empty 64) 64 = (.ok map, later) ∧
        Block.Builds map queryBlocks query.instructions ∧
        Block.Matches map programBlocks program.instructions ∧ queryBlocks.Perm programBlocks := by
  intro t
  let query : Code := ⟨[.putStructure 1 2 2, .setVariable 1, .setVariable 4, .putStructure 2 1 3,
    .setValue 4, .putStructure 0 3 0, .setValue 1, .setValue 2, .setValue 3], [("W", 4), ("Z", 1)]⟩
  let program : Code := ⟨[.getStructure 0 3 0, .unifyVariable 1, .unifyVariable 2, .unifyVariable 3,
    .getStructure 1 2 2, .unifyValue 1, .unifyVariable 4, .getStructure 2 1 3, .unifyValue 4],
    [("W", 4), ("Z", 1)]⟩
  have hquery : (Code.query t (.empty 64) 64).1 = .ok query := by decide +kernel
  have hprogram : (Code.program t (.empty 64) 64).1 = .ok program := by decide +kernel
  have hq : Code.query t (.empty 64) 64 = (.ok query, _) := Prod.ext hquery rfl
  have hp : Code.program t (.empty 64) 64 = (.ok program, _) := Prod.ext hprogram rfl
  exact ⟨query, program, _, _, hq, hp, rfl, rfl, compiled_blocks trivial hq hp⟩

end Code
end TermMachine
