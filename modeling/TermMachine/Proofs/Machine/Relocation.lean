import TermMachine.Machine.Basic
import TermMachine.Proofs.Code.Renumbering
import TermMachine.Proofs.Heap.Relocation
import TermMachine.Proofs.Machine.Instruction

/-! # Runs further up the heap

A run on a heap that stands behind other cells does what the run of the same code does on the heap
alone, with the addresses in its registers moved. Every instruction keeps the two states alike, so a
whole run does.
-/
namespace TermMachine

open Heap

structure RegisterFile.Moves (k : Nat) (r₀ r : RegisterFile) : Prop where
  count : r.count = r₀.count
  values : ∀ x : Register, r.values[x]? = r₀.values[x]?.map (k + ·)

structure Cursor.Moves (k : Nat) (c₀ c : Cursor) : Prop where
  mode : c.mode = c₀.mode
  left : c.left = c₀.left
  position : c₀.mode = .read → 0 < c₀.left → c.position = k + c₀.position

def Cursor.Argument.move (k : Nat) : Cursor.Argument → Cursor.Argument
  | .read a => .read (k + a)
  | .write => .write

namespace RegisterFile.Moves

variable {k : Nat} {r₀ r : RegisterFile} {x : Register}

theorem put (hr : r₀.Moves k r) (x : Register) (a : Address) :
    (r₀.put x a).Moves k (r.put x (k + a)) := by
  constructor
  · exact hr.count
  · intro y
    rw [put_values, put_values]
    by_cases hxy : x = y
    · rw [if_pos hxy, if_pos hxy]
      rfl
    · rw [if_neg hxy, if_neg hxy]
      exact hr.values y

theorem clear (hcount : r.count = r₀.count) : r₀.clear.Moves k r.clear := by
  constructor
  · exact hcount
  · intro x
    simp [RegisterFile.clear]

theorem get (hr : r₀.Moves k r) {v : Option Address} (hv : r.get x = .ok v) :
    ∃ v₀, r₀.get x = .ok v₀ ∧ v = v₀.map (k + ·) := by
  unfold RegisterFile.get at hv ⊢
  by_cases hx : x < r.count
  · rw [if_pos hx, Except.ok.injEq, hr.values] at hv
    rw [if_pos (hr.count ▸ hx)]
    exact ⟨_, rfl, hv.symm⟩
  · rw [if_neg hx] at hv
    cases hv

theorem load (hr : r₀.Moves k r) {a : Address} (ha : r.load x = .ok a) :
    ∃ a₀, r₀.load x = .ok a₀ ∧ a = k + a₀ := by
  obtain ⟨hx, hv⟩ := load_eq_ok ha
  rw [hr.values, Option.map_eq_some_iff] at hv
  obtain ⟨a₀, ha₀, rfl⟩ := hv
  have hx₀ : x < r₀.count := hr.count ▸ hx
  exact ⟨a₀, by simp [RegisterFile.load, get_of_lt hx₀, ha₀], rfl⟩

end RegisterFile.Moves

namespace Cursor.Moves

variable {k : Nat} {c₀ c : Cursor}

theorem outside (k : Nat) (mode : Mode) : (Cursor.outside mode).Moves k (Cursor.outside mode) := by
  constructor
  · rfl
  · rfl
  · intro _ hleft
    exact absurd hleft (Nat.lt_irrefl 0)

theorem writing (k : Nat) (n : Arity) (c₀ c : Cursor) : (c₀.writing n).Moves k (c.writing n) := by
  constructor
  · rfl
  · rfl
  · intro hmode
    cases hmode

theorem reading (k : Nat) (a : Address) (n : Arity) :
    (Cursor.reading a n).Moves k (Cursor.reading (k + a) n) := by
  constructor
  · rfl
  · rfl
  · intro _ _
    rfl

theorem advance (hc : c₀.Moves k c) {arg : Argument} {d : Cursor} (hd : c.advance = (.ok arg, d)) :
    ∃ arg₀ d₀, c₀.advance = (.ok arg₀, d₀) ∧ arg = arg₀.move k ∧ d₀.Moves k d := by
  obtain ⟨mode₀, position₀, left₀⟩ := c₀
  obtain ⟨mode, position, left⟩ := c
  obtain ⟨hmode, hleft, hpos⟩ := hc
  dsimp only at hmode hleft hpos
  subst hmode hleft
  cases left with
  | zero => cases hd
  | succ left =>
    cases mode with
    | read =>
      obtain rfl := hpos rfl (Nat.succ_pos left)
      cases hd
      exact ⟨.read position₀, _, rfl, rfl, rfl, rfl, fun _ _ => rfl⟩
    | write =>
      cases hd
      exact ⟨.write, _, rfl, rfl, rfl, rfl, fun hmode => nomatch hmode⟩

end Cursor.Moves

namespace Run

/-- The state of a run on the heap behind the cells of `base`. -/
inductive Moves (base : Array Cell) (ρ : FunctorId → FunctorId) : RunState → RunState → Prop
  | intro {h r₀ r c₀ c} : RegisterFile.Moves base.size r₀ r → Cursor.Moves base.size c₀ c →
      Moves base ρ ⟨h, r₀, c₀⟩ ⟨h.relocate base ρ, r, c⟩

theorem Moves.heap_eq {base : Array Cell} {ρ : FunctorId → FunctorId} {s₀ s : RunState}
    (hs : Moves base ρ s₀ s) : s.heap = s₀.heap.relocate base ρ := by
  cases hs
  rfl

def Follows (base : Array Cell) (ρ : FunctorId → FunctorId)
    (out₀ out : Except Fault Bool × RunState) : Prop :=
  ∀ ⦃b : Bool⦄, out.1 = .ok b → out₀.1 = .ok b ∧ Moves base ρ out₀.2 out.2

variable {base : Array Cell} {ρ : FunctorId → FunctorId} {h : Heap} {r₀ r : RegisterFile}
  {c₀ c : Cursor}

theorem Follows.exists_eq {out₀ : Except Fault Bool × RunState} {b : Bool} {s : RunState}
    (ho : Follows base ρ out₀ (.ok b, s)) : ∃ s₀, out₀ = (.ok b, s₀) ∧ Moves base ρ s₀ s := by
  obtain ⟨hb, hs⟩ := ho rfl
  exact ⟨out₀.2, Prod.ext hb rfl, hs⟩

theorem putStructure_follows (hr : r₀.Moves base.size r) (c₀ c : Cursor) (f : FunctorId)
    (n : Arity) (x : Register) :
    Follows base ρ (putStructure f n x ⟨h, r₀, c₀⟩)
      (putStructure (ρ f) n x ⟨h.relocate base ρ, r, c⟩) := by
  intro b hb
  rw [putStructure_eq] at hb ⊢
  rw [putStructure_eq]
  by_cases hroom : (h.relocate base ρ).cells.size + 2 ≤ (h.relocate base ρ).capacity
  · rw [if_pos hroom] at hb ⊢
    rw [if_pos (room_of_relocate base ρ h hroom)]
    by_cases hx : x < r.count
    · rw [if_pos hx] at hb ⊢
      rw [if_pos (hr.count ▸ hx), ← relocate_appendStructure, relocate_size]
      exact ⟨hb, .intro (hr.put x _) (Cursor.Moves.writing _ n _ _)⟩
    · rw [if_neg hx] at hb
      cases hb
  · rw [if_neg hroom] at hb
    cases hb

theorem setVariable_follows (hr : r₀.Moves base.size r) (hc : c₀.Moves base.size c)
    (x : Register) :
    Follows base ρ (setVariable x ⟨h, r₀, c₀⟩) (setVariable x ⟨h.relocate base ρ, r, c⟩) := by
  intro b hb
  rw [setVariable_eq] at hb ⊢
  rw [setVariable_eq]
  by_cases hroom : (h.relocate base ρ).cells.size + 1 ≤ (h.relocate base ρ).capacity
  · rw [if_pos hroom] at hb ⊢
    rw [if_pos (room_of_relocate base ρ h hroom)]
    by_cases hx : x < r.count
    · have hcell : (h.append (.ref h.cells.size)).relocate base ρ =
          (h.relocate base ρ).append (.ref (h.relocate base ρ).cells.size) := by
        rw [relocate_append, relocate_size, Cell.move]
      rw [if_pos hx] at hb ⊢
      rw [if_pos (hr.count ▸ hx), ← hcell, relocate_size]
      exact ⟨hb, .intro (hr.put x _) hc⟩
    · rw [if_neg hx] at hb
      cases hb
  · rw [if_neg hroom] at hb
    cases hb

theorem setValue_follows (hr : r₀.Moves base.size r) (hc : c₀.Moves base.size c) (x : Register) :
    Follows base ρ (setValue x ⟨h, r₀, c₀⟩) (setValue x ⟨h.relocate base ρ, r, c⟩) := by
  intro b hb
  rw [setValue_eq] at hb ⊢
  rw [setValue_eq]
  cases hl : r.load x with
  | error e =>
    rw [hl] at hb
    cases hb
  | ok a =>
    obtain ⟨a, hl₀, rfl⟩ := hr.load hl
    rw [hl₀]
    simp only [hl] at hb ⊢
    cases hp : ((h.relocate base ρ).pushCopy (base.size + a)).1 with
    | error e =>
      rw [hp] at hb
      cases hb
    | ok d =>
      obtain ⟨⟨d₀, hp₀⟩, hheap⟩ := relocate_pushCopy hp
      rw [hp] at hb
      rw [hp₀, hheap]
      exact ⟨hb, .intro hr hc⟩

theorem relocate_built (f : FunctorId) (n : Arity) (a : Address) :
    (built h f n a).relocate base ρ = built (h.relocate base ρ) (ρ f) n (base.size + a) := by
  rw [built, built, relocate_point, relocate_appendStructure, relocate_size]

theorem matchStructure_follows (hρ : Function.Injective ρ) (hr : r₀.Moves base.size r)
    (hc : c₀.Moves base.size c) (f : FunctorId) (n : Arity) (a : Address) :
    Follows base ρ (matchStructure f n a ⟨h, r₀, c₀⟩)
      (matchStructure (ρ f) n (base.size + a) ⟨h.relocate base ρ, r, c⟩) := by
  intro b hb
  rw [matchStructure_eq] at hb ⊢
  rw [matchStructure_eq]
  cases hd : (h.relocate base ρ).deref (base.size + a) with
  | error e =>
    rw [hd] at hb
    cases hb
  | ok d =>
  obtain ⟨d, rfl, hd₀⟩ := relocate_deref hd
  obtain ⟨cell, hcell, -⟩ := (resolves_of_deref hd₀).cell
  have hmoved := relocate_cell base ρ h d
  rw [hcell, Option.map_some] at hmoved
  simp only [hd, hmoved] at hb ⊢
  simp only [hd₀, hcell]
  cases cell with
  | ref t =>
    dsimp only [Cell.move] at hb ⊢
    by_cases hroom : (h.relocate base ρ).cells.size + 2 ≤ (h.relocate base ρ).capacity
    · rw [if_pos hroom] at hb ⊢
      rw [if_pos (room_of_relocate base ρ h hroom), ← relocate_built]
      exact ⟨hb, .intro hr (Cursor.Moves.writing _ n _ _)⟩
    · rw [if_neg hroom] at hb
      cases hb
  | str t =>
    dsimp only [Cell.move] at hb ⊢
    rcases hf : (h.relocate base ρ).functorAt (base.size + t) with e | ⟨g, m⟩
    · rw [hf] at hb
      cases hb
    · obtain ⟨g, rfl, hf₀⟩ := relocate_functorAt hf
      simp only [hf, Prod.mk.injEq, hρ.eq_iff] at hb ⊢
      simp only [hf₀, Prod.mk.injEq]
      by_cases hg : g = f ∧ m = n
      · rw [if_pos hg] at hb ⊢
        rw [if_pos hg]
        exact ⟨hb, .intro hr (Cursor.Moves.reading base.size _ n)⟩
      · rw [if_neg hg] at hb ⊢
        rw [if_neg hg]
        exact ⟨hb, .intro hr hc⟩
  | functor g m => cases hb

theorem getStructure_follows (hρ : Function.Injective ρ) (hr : r₀.Moves base.size r)
    (hc : c₀.Moves base.size c) (f : FunctorId) (n : Arity) (x : Register) :
    Follows base ρ (getStructure f n x ⟨h, r₀, c₀⟩)
      (getStructure (ρ f) n x ⟨h.relocate base ρ, r, c⟩) := by
  intro b hb
  rw [getStructure_eq] at hb ⊢
  rw [getStructure_eq]
  cases hg : r.get x with
  | error e =>
    rw [hg] at hb
    cases hb
  | ok v =>
    obtain ⟨v, hg₀, rfl⟩ := hr.get hg
    rw [hg] at hb
    rw [hg₀]
    cases v with
    | none => exact putStructure_follows hr c₀ c f n x hb
    | some a => exact matchStructure_follows hρ hr hc f n a hb

theorem unifyVariable_follows (hr : r₀.Moves base.size r) (hc : c₀.Moves base.size c)
    (x : Register) :
    Follows base ρ (unifyVariable x ⟨h, r₀, c₀⟩) (unifyVariable x ⟨h.relocate base ρ, r, c⟩) := by
  intro b hb
  rw [unifyVariable_eq] at hb ⊢
  rw [unifyVariable_eq]
  rcases hd : c.advance with ⟨e | arg, d⟩
  · rw [hd] at hb
    cases hb
  · obtain ⟨arg, d₀, hd₀, rfl, hmoves⟩ := hc.advance hd
    rw [hd] at hb
    rw [hd₀]
    cases arg with
    | write => exact setVariable_follows hr hmoves x hb
    | read a =>
      dsimp only [Cursor.Argument.move] at hb ⊢
      by_cases hx : x < r.count
      · rw [if_pos hx] at hb ⊢
        rw [if_pos (hr.count ▸ hx)]
        exact ⟨hb, .intro (hr.put x a) hmoves⟩
      · rw [if_neg hx] at hb
        cases hb

theorem unifyValue_follows (hρ : Function.Injective ρ) (hr : r₀.Moves base.size r)
    (hc : c₀.Moves base.size c) (x : Register) :
    Follows base ρ (unifyValue x ⟨h, r₀, c₀⟩) (unifyValue x ⟨h.relocate base ρ, r, c⟩) := by
  intro b hb
  rw [unifyValue_eq] at hb ⊢
  rw [unifyValue_eq]
  cases hl : r.load x with
  | error e =>
    rw [hl] at hb
    cases hb
  | ok a =>
  obtain ⟨a, hl₀, rfl⟩ := hr.load hl
  rcases hd : c.advance with ⟨e | arg, d⟩
  · rw [hl, hd] at hb
    cases hb
  · obtain ⟨arg, d₀, hd₀, rfl, hmoves⟩ := hc.advance hd
    simp only [hl, hd] at hb ⊢
    simp only [hl₀, hd₀]
    cases arg with
    | write => exact setValue_follows hr hmoves x hb
    | read d =>
      dsimp only [Cursor.Argument.move] at hb ⊢
      cases hu : ((h.relocate base ρ).unify (base.size + a) (base.size + d)).1 with
      | error e =>
        rw [hu] at hb
        cases hb
      | ok v =>
        obtain ⟨hu₀, hheap⟩ := follows_unify hρ h a d hu
        rw [hu] at hb
        rw [hu₀, hheap]
        exact ⟨hb, .intro hr hmoves⟩

/-- An instruction does further up what it does on the heap alone. -/
theorem step_follows (hρ : Function.Injective ρ) (i : Instruction) {s₀ s : RunState}
    (hs : Moves base ρ s₀ s) : Follows base ρ (i.step s₀) ((i.rename ρ).step s) := by
  obtain ⟨hr, hc⟩ := hs
  cases i with
  | putStructure f n x => exact putStructure_follows hr _ _ f n x
  | setVariable x => exact setVariable_follows hr hc x
  | setValue x => exact setValue_follows hr hc x
  | getStructure f n x => exact getStructure_follows hρ hr hc f n x
  | unifyVariable x => exact unifyVariable_follows hr hc x
  | unifyValue x => exact unifyValue_follows hρ hr hc x

/-- So does a sequence of instructions. -/
theorem all_follows (hρ : Function.Injective ρ) (is : List Instruction) {s₀ s : RunState}
    (hs : Moves base ρ s₀ s) :
    Follows base ρ (Run.all is s₀) (Run.all (is.map (Instruction.rename ρ)) s) := by
  induction is generalizing s₀ s with
  | nil => exact fun b hb => ⟨hb, hs⟩
  | cons i is ih =>
    have hi := step_follows hρ i hs
    rw [List.map_cons, Run.all, Run.all]
    rcases hstep : (i.rename ρ).step s with ⟨_ | _ | _, t⟩
    · intro b hb
      cases hb
    · rw [hstep] at hi
      obtain ⟨t₀, hstep₀, hmoves⟩ := hi.exists_eq
      rw [hstep₀]
      exact fun b hb => ⟨hb, hmoves⟩
    · rw [hstep] at hi
      obtain ⟨t₀, hstep₀, hmoves⟩ := hi.exists_eq
      rw [hstep₀]
      exact ih hmoves

end Run

namespace Machine

variable {base : Array Cell} {ρ : FunctorId → FunctorId} {r₀ r : RegisterFile}

theorem loadVariables_ok {k : Nat} (hr : r₀.Moves k r) {vars : List (String × Register)}
    (h : (Capture.loadVariables r vars).1 = .ok ()) :
    (Capture.loadVariables r₀ vars).1 = .ok () := by
  induction vars with
  | nil => rfl
  | cons v vars ih =>
    obtain ⟨name, x⟩ := v
    rw [Capture.loadVariables] at h ⊢
    cases hl : r.load x with
    | error e =>
      rw [hl] at h
      cases h
    | ok a =>
      obtain ⟨a, hl₀, rfl⟩ := hr.load hl
      rw [hl] at h
      rw [hl₀]
      exact ih h

/-- What can be captured further up can be captured. -/
theorem capture_ok {k : Nat} (hr : r₀.Moves k r) {query : Code}
    (h : (Capture.ofRegisters (query.rename ρ) r).1 = .ok ()) :
    (Capture.ofRegisters query r₀).1 = .ok () := by
  unfold Capture.ofRegisters at h ⊢
  have hempty : (query.rename ρ).instructions.isEmpty = query.instructions.isEmpty := by
    rw [Code.rename, List.isEmpty_map]
  have hvars : (query.rename ρ).vars = query.vars := rfl
  rw [hempty, hvars] at h
  by_cases hnil : query.instructions.isEmpty
  · rw [if_pos hnil] at h ⊢
    exact loadVariables_ok hr h
  · rw [if_neg hnil] at h ⊢
    cases hl : r.load RegisterMap.root with
    | error e =>
      rw [hl] at h
      cases h
    | ok a =>
      obtain ⟨a, hl₀, rfl⟩ := hr.load hl
      rw [hl] at h
      rw [hl₀]
      exact loadVariables_ok hr h

/-- A run further up answers what the run of the same code on the heap alone answers. -/
theorem runState_follows (hρ : Function.Injective ρ) (hcount : r.count = r₀.count)
    (query program : Code) (h : Heap) {b : Bool}
    (hb : (runState (query.rename ρ) (program.rename ρ) (h.relocate base ρ) r).1 = .ok b) :
    (runState query program h r₀).1 = .ok b ∧
      Run.Moves base ρ (runState query program h r₀).2.1
        (runState (query.rename ρ) (program.rename ρ) (h.relocate base ρ) r).2.1 := by
  have hquery := Run.all_follows hρ query.instructions
    (.intro (h := h) (RegisterFile.Moves.clear (k := base.size) hcount)
      (Cursor.Moves.outside base.size .write))
  have hinstr : ∀ code : Code,
    (code.rename ρ).instructions = code.instructions.map (Instruction.rename ρ) := fun _ => rfl
  unfold runState at hb ⊢
  rw [hinstr] at hb ⊢
  generalize Run.all (query.instructions.map (Instruction.rename ρ))
    ⟨h.relocate base ρ, r.clear, .outside .write⟩ = out at hb hquery ⊢
  rcases out with ⟨e | _ | _, t⟩
  · cases hb
  · obtain ⟨t₀, hrun₀, hmoves⟩ := hquery.exists_eq
    rw [hrun₀]
    exact ⟨hb, hmoves⟩
  · obtain ⟨t₀, hrun₀, hmoves⟩ := hquery.exists_eq
    rw [hrun₀]
    obtain ⟨hr, hc⟩ := hmoves
    rename_i h₁ q₀ q c₀ c
    dsimp only at hb ⊢
    rcases hcap : Capture.ofRegisters (query.rename ρ) q with ⟨e | _, capture⟩
    · rw [hcap] at hb
      cases hb
    · have hcap₀ := capture_ok hr (congrArg Prod.fst hcap)
      rcases hout : Capture.ofRegisters query q₀ with ⟨e | _, capture₀⟩
      · rw [hout] at hcap₀
        cases hcap₀
      · rw [hcap] at hb
        dsimp only at hb ⊢
        exact Run.all_follows hρ program.instructions
          (.intro (h := h₁) hr (Cursor.Moves.outside base.size .read)) hb

end Machine
end TermMachine
