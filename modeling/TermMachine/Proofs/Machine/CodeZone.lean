import TermMachine.Proofs.Code.Vocabulary
import TermMachine.Proofs.Functor.Numbering
import TermMachine.Proofs.Machine.Provenance

/-! # The code zone

The code zone holds the codes that have been returned since the last reset, one behind the other. A
compilation that fails adds nothing to it. All it may leave behind are functors, and these disturb
nothing that has been compiled before: its listing is the same, and it runs as if the failed call
had not been made.
-/
namespace TermMachine.Machine

def compiled (m : Machine) : Call → Option (Except CompileError Code)
  | .query t => some (m.compileQuery t).1
  | .program t => some (m.compileProgram t).1
  | .run _ _ => none
  | .reset => none

def codesAfter (m : Machine) (codes : List Code) : Call → List Code
  | .query t => codes ++ (m.compileQuery t).1.toOption.toList
  | .program t => codes ++ (m.compileProgram t).1.toOption.toList
  | .run _ _ => codes
  | .reset => []

def codesAfterAll (m : Machine) (codes : List Code) : List Call → List Code
  | [] => codes
  | call :: calls => codesAfterAll (m.after call) (m.codesAfter codes call) calls

/-- The codes that a history has returned since its last reset, in order. -/
def returned (capacities : Capacities) (calls : List Call) : List Code :=
  (create capacities).codesAfterAll [] calls

/-- The code zone holds the given codes and nothing else, within its capacity, and their functors
are known. -/
structure HoldsCodes (m : Machine) (codes : List Code) : Prop where
  code_eq : m.code = codes.flatMap Code.instructions
  length_le : m.code.length ≤ m.capacities.code
  known : ∀ code ∈ codes, code.Known m.functors

variable {compile : Functor.Table → Nat → Except CompileError Code × Functor.Table}
  {capacities : Capacities} {m m' : Machine} {codes : List Code} {code : Code} {call : Call}
  {e : CompileError}

theorem load_eq_error (h : (load compile m).1 = .error e) :
    (load compile m).2 =
      { m with functors := (compile m.functors m.capacities.registers).2 } := by
  rw [load_eq] at h ⊢
  generalize compile m.functors m.capacities.registers = out at h ⊢
  rcases out with ⟨_ | new, functors⟩
  · rfl
  · dsimp only at h ⊢
    by_cases hroom : m.code.length + new.size ≤ m.capacities.code
    · rw [if_pos hroom] at h
      cases h
    · rw [if_neg hroom]

/-- A compilation that fails changes the functors only. -/
theorem after_of_error (h : m.compiled call = some (.error e)) :
    m.after call = { m with functors := (m.after call).functors } := by
  cases call with
  | query t =>
    have hload := load_eq_error (Option.some.inj h)
    rw [after, compileQuery, hload]
  | program t =>
    have hload := load_eq_error (Option.some.inj h)
    rw [after, compileProgram, hload]
  | run query program => cases h
  | reset => cases h

/-- What a compilation returns it puts behind the codes that are there. -/
theorem HoldsCodes.load (h : m.HoldsCodes codes)
    (hext : m.functors.Extends (compile m.functors m.capacities.registers).2)
    (hknown : ∀ {code later}, compile m.functors m.capacities.registers = (.ok code, later) →
      code.Known later) :
    (load compile m).2.HoldsCodes (codes ++ (load compile m).1.toOption.toList) := by
  obtain ⟨-, hcapacities, -, hfunctors⟩ := load_keeps compile m
  have hold : ∀ code ∈ codes, code.Known (Machine.load compile m).2.functors :=
    fun code hcode => hfunctors ▸ (h.known code hcode).mono hext
  rcases hout : (Machine.load compile m).1 with e | code
  · have hcode : (Machine.load compile m).2.code = m.code := by rw [load_eq_error hout]
    rw [Except.toOption, Option.toList_none, List.append_nil]
    constructor
    · rw [hcode, h.code_eq]
    · rw [hcode, hcapacities]
      exact h.length_le
    · exact hold
  · obtain ⟨hroom, hcode⟩ := load_room hout
    rw [Except.toOption, Option.toList_some]
    constructor
    · rw [hcode, h.code_eq, List.flatMap_append, List.flatMap_singleton]
    · rw [hcode, hcapacities, List.length_append]
      exact hroom
    · intro c hc
      rcases List.mem_append.1 hc with hc | hc
      · exact hold c hc
      · rw [List.mem_singleton.1 hc]
        exact hknown (load_eq_ok hout)

theorem HoldsCodes.after (h : m.HoldsCodes codes) (call : Call) :
    (m.after call).HoldsCodes (m.codesAfter codes call) := by
  cases call with
  | query t =>
    refine h.load ?_ fun hquery => (Code.query_eq_ok hquery).known
    rw [Code.query_eq_compileWith]
    exact Code.compileWith_extends ..
  | program t =>
    refine h.load ?_ fun hprogram => (Code.program_eq_ok hprogram).known
    rw [Code.program_eq_compileWith]
    exact Code.compileWith_extends ..
  | run query program => exact ⟨h.code_eq, h.length_le, h.known⟩
  | reset => exact ⟨rfl, Nat.zero_le _, by simp [codesAfter]⟩

theorem HoldsCodes.afterAll (h : m.HoldsCodes codes) (calls : List Call) :
    (m.afterAll calls).HoldsCodes (m.codesAfterAll codes calls) := by
  induction calls generalizing m codes with
  | nil => exact h
  | cons call calls ih => exact ih (h.after call)

theorem holdsCodes_returned (capacities : Capacities) (calls : List Call) :
    ((create capacities).afterAll calls).HoldsCodes (returned capacities calls) :=
  HoldsCodes.afterAll ⟨rfl, Nat.zero_le _, by simp⟩ calls

structure SameState (m m' : Machine) : Prop where
  state : m.state = m'.state
  capture : m.capture = m'.capture

theorem SameState.run (h : m.SameState m') (query program : Code) :
    (m.run query program).1 = (m'.run query program).1 ∧
      (m.run query program).2.SameState (m'.run query program).2 := by
  rw [run_eq, run_eq, h.state]
  exact ⟨rfl, rfl, rfl⟩

/-- Neither functors nor the code zone have a part in what is done to the heap. -/
theorem SameState.after (h : m.SameState m') (call : Call) :
    (m.after call).SameState (m'.after call) := by
  have hload : ∀ compile, (load compile m).2.SameState (load compile m').2 := by
    intro compile
    obtain ⟨hstate, -, hcapture, -⟩ := load_keeps compile m
    obtain ⟨hstate', -, hcapture', -⟩ := load_keeps compile m'
    exact ⟨hstate.trans (h.state.trans hstate'.symm),
      hcapture.trans (h.capture.trans hcapture'.symm)⟩
  cases call with
  | query t => exact hload _
  | program t => exact hload _
  | run query program => exact (h.run query program).2
  | reset => exact ⟨by rw [Machine.after, Machine.after, reset, reset, h.state], rfl⟩

theorem SameState.afterAll (h : m.SameState m') (calls : List Call) :
    (m.afterAll calls).SameState (m'.afterAll calls) := by
  induction calls generalizing m m' with
  | nil => exact h
  | cons call calls ih => exact ih (h.after call)

theorem extends_of_error (h : m.compiled call = some (.error e)) :
    m.functors.Extends (m.after call).functors := by
  have hreset : Call.reset ∉ [call] := fun hmem => by
    rw [← List.mem_singleton.1 hmem] at h
    cases h
  exact afterAll_extends hreset

theorem sameState_of_error (h : m.compiled call = some (.error e)) :
    (m.after call).SameState m := by
  rw [after_of_error h]
  exact ⟨rfl, rfl⟩

/-- Whatever has been done to a machine, its code zone is made of the codes that it has returned
since the last reset, in order and within its capacity. A compilation that fails, for any reason,
changes nothing but the functors, of which some may have been added as far as there is room. So the
codes that have been returned keep their listings, and every later run of any code answers and
leaves the heap, the registers and the capture as if the failed call had not been made. -/
theorem failed_compilation_harmless (capacities : Capacities) (calls : List Call) :
    let m := (create capacities).afterAll calls
    m.code = (returned capacities calls).flatMap Code.instructions ∧
      m.code.length ≤ capacities.code ∧
      ∀ call e, m.compiled call = some (.error e) →
        (∃ functors, m.after call = { m with functors } ∧
          m.functors.entries.toList <+: functors.entries.toList ∧
          functors.capacity = m.functors.capacity ∧ functors.size ≤ functors.capacity) ∧
        (∀ code ∈ returned capacities calls,
          code.listing (m.after call).functors = code.listing m.functors) ∧
        ∀ later query program,
          (((m.after call).afterAll later).run query program).1 =
            ((m.afterAll later).run query program).1 ∧
          (((m.after call).afterAll later).run query program).2.SameState
            ((m.afterAll later).run query program).2 := by
  intro m
  have hholds := holdsCodes_returned capacities calls
  refine ⟨hholds.code_eq, ?_, fun call e herror => ⟨?_, ?_, ?_⟩⟩
  · rw [← afterAll_capacities capacities calls]
    exact hholds.length_le
  · have hbefore := afterAll_bounded capacities calls
    have hafter := afterAll_bounded capacities (calls ++ [call])
    rw [afterAll_append] at hafter
    refine ⟨_, after_of_error herror, (extends_of_error herror).entries_isPrefix, ?_, ?_⟩
    · exact hafter.capacity_eq.trans hbefore.capacity_eq.symm
    · exact hafter.size_le.trans_eq hafter.capacity_eq.symm
  · exact fun code hcode => (hholds.known code hcode).listing_eq (extends_of_error herror)
  · exact fun later query program => ((sameState_of_error herror).afterAll later).run query program

/-- A program that finds no room for its third functor, when it has added two. -/
theorem failed_compilation_harmless_midway :
    let calls : List Call := [.query (.app "f" [.var "X"])]
    let m := (create ⟨8, 20, 20, 3⟩).afterAll calls
    let call : Call := .program (.app "g" [.app "h" [.atom "b"], .atom "k"])
    m.compiled call = some (.error (.outOfFunctors 3)) ∧ (m.after call).functors.size = 3 ∧
      (∃ functors, m.after call = { m with functors } ∧
        m.functors.entries.toList <+: functors.entries.toList ∧
        functors.capacity = m.functors.capacity ∧ functors.size ≤ functors.capacity) ∧
      (∀ code ∈ returned ⟨8, 20, 20, 3⟩ calls,
        code.listing (m.after call).functors = code.listing m.functors) ∧
      ∀ later query program,
        (((m.after call).afterAll later).run query program).1 =
          ((m.afterAll later).run query program).1 ∧
        (((m.after call).afterAll later).run query program).2.SameState
          ((m.afterAll later).run query program).2 := by
  intro calls m call
  have herror : m.compiled call = some (.error (.outOfFunctors 3)) := by decide +kernel
  exact ⟨herror, by decide +kernel,
    (failed_compilation_harmless ⟨8, 20, 20, 3⟩ calls).2.2 call _ herror⟩

end TermMachine.Machine
