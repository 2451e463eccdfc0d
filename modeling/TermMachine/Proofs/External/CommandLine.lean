import TermMachine.External.CommandLine

/-! # Command lines read in parts

What stands behind a command line that has been read is read on from there, and arguments that are
terms are taken as such.
-/
namespace TermMachine.CommandLine

variable {F S : Type} [DecidableEq F] [BEq S] {o : Declared F S}

def AreTerms (o : Declared F S) (texts : List String) : Prop :=
  ∀ text ∈ texts, Argument.ofChars o text.toList = .term

theorem add_terms {texts : List String} (h : AreTerms o texts) (a : CommandLine F S) :
    add o a texts = texts.foldlM (addTerm o) a := by
  induction texts generalizing a with
  | nil => rfl
  | cons text texts ih =>
    have htext := h text List.mem_cons_self
    have hrest := ih fun u hu => h u (List.mem_cons_of_mem text hu)
    rw [add, htext, List.foldlM_cons]
    dsimp only [bind]
    exact congrArg _ (funext hrest)

theorem bind_add_append {texts rest : List String} {a : CommandLine F S}
    {e : Except Refusal (CommandLine F S)}
    (ih : ∀ next : CommandLine F S, add o next rest = .ok a →
      add o next (rest ++ texts) = texts.foldlM (addTerm o) a)
    (h : (e.bind fun next => add o next rest) = .ok a) :
    (e.bind fun next => add o next (rest ++ texts)) = texts.foldlM (addTerm o) a := by
  cases e with
  | error refusal => cases h
  | ok next => exact ih next h

/-- Terms may stand behind any command line. -/
theorem add_append {texts : List String} (h : AreTerms o texts) {start a : CommandLine F S}
    {args : List String} (hadd : add o start args = .ok a) :
    add o start (args ++ texts) = texts.foldlM (addTerm o) a := by
  induction start, args using add.induct o with
  | case1 start =>
    obtain rfl := Except.ok.inj hadd
    exact add_terms h _
  | case2 start text rest hform =>
    rw [add, hform] at hadd
    cases hadd
  | case3 start text rest hform =>
    rw [add, hform] at hadd
    rw [List.cons_append, add, hform]
    dsimp only at hadd ⊢
    rw [List.foldlM_append, hadd]
    rfl
  | case4 start text rest hform ih
  | case5 start text rest switch hform ih
  | case6 start text rest letters hform ih
  | case7 start text rest size value hform ih =>
    rw [add, hform] at hadd
    rw [List.cons_append, add, hform]
    exact bind_add_append ih hadd
  | case8 start text size hform =>
    rw [add, hform] at hadd
    cases hadd
  | case9 start text size hform value rest hvalue ih =>
    rw [add, hform] at hadd
    rw [List.cons_append, add, hform, List.cons_append]
    dsimp only at hadd ⊢
    rw [if_pos hvalue] at hadd ⊢
    exact bind_add_append ih hadd
  | case10 start text size hform value rest hvalue =>
    rw [add, hform] at hadd
    dsimp only at hadd
    rw [if_neg hvalue] at hadd
    cases hadd

end TermMachine.CommandLine
