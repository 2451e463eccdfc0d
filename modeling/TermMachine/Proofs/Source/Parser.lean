import TermMachine.Proofs.External.Combinators
import TermMachine.Source.Parser

/-! # The parsers of the grammar

What each parser replies, told from the text alone. The parser of terms calls itself behind a name
and a parenthesis only, so it is what its definition says.
-/
namespace TermMachine.Source

namespace Parser

def comma (K : Combinators) : K.Parser Char := K.padded (K.just ',')

def terms (K : Combinators) (T : K.Parser Term) : K.Parser (List Term) := K.separatedBy T (comma K)

def moreTerms (K : Combinators) (T : K.Parser Term) : K.Parser (List Term) :=
  K.repeated (K.ignoreThen (comma K) T)

variable {K : Combinators} (hK : K.Lawful) {start : Char → Bool} {i : Input} {c : Char}
  {cs : List Char} {T T' : K.Parser Term}
include hK

theorem run_word (hi : i.rest = c :: cs) (hc : start c = true) :
    let rest := Input.skip isIdentifier ⟨i.position + 1, cs⟩
    K.run (word K start) i =
      .ok (String.ofList (c :: cs.takeWhile isIdentifier)) rest (some (.unexpected rest [])) := by
  simp [word, Combinators.chain, hK.map, hK.andThen, hK.filter, Reply.ofTest, hi, hc,
    hK.repeated_filter, Reply.ok_none_bind, Reply.map]

theorem run_word_refused (h : ∀ c ∈ i.rest.head?, start c = false) :
    K.run (word K start) i = .error (.unexpected i []) := by
  simp [word, Combinators.chain, hK.map, hK.andThen, hK.filter, Reply.ofTest_refused h, Reply.bind,
    Reply.map]

theorem run_name (hi : i.rest = c :: cs) (hc : startsName c = true) :
    let rest := (Input.skip isIdentifier ⟨i.position + 1, cs⟩).skip isBlank
    K.run (K.thenIgnore (name K) K.whitespace) i =
      .ok (String.ofList (c :: cs.takeWhile isIdentifier)) rest (some (.unexpected rest [])) := by
  simp [hK.thenIgnore, name, hK.labelled, run_word hK hi hc, hK.whitespace, Reply.bind, Reply.map,
    Failure.later_unexpected_skip]

/-- A name with arguments is a structure; where arguments fail it is an atom, and their failure is
told. -/
theorem run_structureTerm (hi : i.rest = c :: cs) (hc : startsName c = true) (T : K.Parser Term) :
    let rest := (Input.skip isIdentifier ⟨i.position + 1, cs⟩).skip isBlank
    let name := String.ofList (c :: cs.takeWhile isIdentifier)
    K.run (structureTerm K T) i =
      match K.run (arguments K T) rest with
      | .ok ts rest' met =>
        .ok (.app name ts) rest' (Failure.later (some (.unexpected rest [])) met)
      | .error f => .ok (.atom name) rest (Failure.later (some (.unexpected rest [])) (some f)) := by
  intro rest name
  have hname : K.run (K.thenIgnore (Parser.name K) K.whitespace) i =
      .ok name rest (some (.unexpected rest [])) := run_name hK hi hc
  simp only [structureTerm, hK.labelled, hK.map, hK.andThen, hname, Reply.bind, hK.orNot]
  cases K.run (arguments K T) rest <;> rfl

theorem run_structureTerm_refused (h : ∀ c ∈ i.rest.head?, startsName c = false)
    (T : K.Parser Term) :
    K.run (structureTerm K T) i = .error ((Failure.unexpected i []).withLabel "name") := by
  simp [structureTerm, hK.labelled, hK.map, hK.andThen, hK.thenIgnore, name,
    run_word_refused hK h, Reply.bind, Reply.map, Failure.withLabel]

theorem run_arguments (hi : i.rest = '(' :: cs) (T : K.Parser Term) :
    K.run (arguments K T) i =
      (K.run (terms K T) (Input.skip isBlank ⟨i.position + 1, cs⟩)).bind fun ts rest =>
        (Reply.ofTest (· == ')') [some ')'] (rest.skip isBlank)).map fun _ => ts := by
  simp only [arguments, hK.delimitedBy, hK.just, Reply.ofTest, hi, beq_self_eq_true, if_true,
    Reply.ok_none_bind, hK.padded]
  rw [← comma, ← terms]
  cases K.run (terms K T) (Input.skip isBlank ⟨i.position + 1, cs⟩) <;> rfl

theorem run_arguments_refused (h : ∀ c ∈ i.rest.head?, c ≠ '(') (T : K.Parser Term) :
    K.run (arguments K T) i = .error (.unexpected i [some '(']) := by
  have hopen : ∀ c ∈ i.rest.head?, (c == '(') = false := by simpa using h
  simp [arguments, hK.delimitedBy, hK.just, Reply.ofTest_refused hopen, Reply.bind]

theorem run_comma (h : (i.skip isBlank).rest = ',' :: cs) : K.run (comma K) i =
    .ok ',' (Input.skip isBlank ⟨(i.skip isBlank).position + 1, cs⟩) none := by
  simp [comma, hK.padded, hK.just, Reply.ofTest, h]

theorem run_comma_refused (h : ∀ c ∈ (i.skip isBlank).rest.head?, c ≠ ',') :
    K.run (comma K) i = .error (.unexpected (i.skip isBlank) [some ',']) := by
  have hcomma : ∀ c ∈ (i.skip isBlank).rest.head?, (c == ',') = false := by simpa using h
  rw [comma, hK.padded, hK.just, Reply.ofTest_refused hcomma]

theorem run_terms (T : K.Parser Term) (i : Input) : K.run (terms K T) i =
    (K.run T i).bind fun t rest => (K.run (moreTerms K T) rest).map (List.cons t) := by
  simp [terms, hK.separatedBy, hK.map, hK.andThen, moreTerms, Reply.map_bind, Reply.map_map]

theorem consumes_comma (T : K.Parser Term) : K.Consumes (K.ignoreThen (comma K) T) :=
  hK.consumes_map (hK.consumes_andThen (hK.consumes_padded (hK.consumes_just ',')) T) _

theorem run_moreTerms_refused (h : ∀ c ∈ (i.skip isBlank).rest.head?, c ≠ ',') (T : K.Parser Term) :
    K.run (moreTerms K T) i = .ok [] i (some (.unexpected (i.skip isBlank) [some ','])) := by
  rw [moreTerms, hK.repeated _ _ (consumes_comma hK T), hK.ignoreThen, run_comma_refused hK h]
  rfl

theorem run_moreTerms (h : (i.skip isBlank).rest = ',' :: cs) (T : K.Parser Term) :
    K.run (moreTerms K T) i =
      match K.run (terms K T) (Input.skip isBlank ⟨(i.skip isBlank).position + 1, cs⟩) with
      | .ok ts rest met => .ok ts rest met
      | .error f => .ok [] i (some f) := by
  rw [moreTerms, hK.repeated _ _ (consumes_comma hK T), hK.ignoreThen, run_comma hK h,
    Reply.ok_none_bind, run_terms hK]
  cases hrun : K.run T (Input.skip isBlank ⟨(i.skip isBlank).position + 1, cs⟩) with
  | error f => rfl
  | ok t rest met =>
    obtain ⟨ts, rest', met', hmore⟩ := hK.exists_repeated (consumes_comma hK T) rest
    simp only [moreTerms, hmore, Reply.bind, Reply.map]

theorem consumes_name : K.Consumes (K.thenIgnore (name K) K.whitespace) :=
  hK.consumes_map (hK.consumes_andThen (hK.consumes_labelled (hK.consumes_map (hK.consumes_map
    (hK.consumes_andThen (hK.consumes_filter startsName) _) _) _) "name") _) _

theorem guarded_term :
    K.Guarded fun term => K.orElse (variableTerm K) (structureTerm K term) := by
  intro T T' i hagree
  have harguments : K.AgreeBelow i.rest.length (arguments K T) (arguments K T') :=
    .delimitedBy hK (.padded hK (.separatedBy hK hagree
      (hK.consumes_padded (hK.consumes_just ',')))) _ _
  have hstructure : K.run (structureTerm K T) i = K.run (structureTerm K T') i := by
    simp only [structureTerm, hK.labelled, hK.map, hK.andThen]
    cases hname : K.run (K.thenIgnore (name K) K.whitespace) i with
    | error f => rfl
    | ok x rest met =>
      have hlt := consumes_name hK hname
      simp only [Reply.bind, hK.orNot, harguments rest hlt]
  rw [hK.orElse, hK.orElse, hstructure]

theorem run_term (i : Input) :
    K.run (term K) i = K.run (K.orElse (variableTerm K) (structureTerm K (term K))) i :=
  hK.recursive _ i (guarded_term hK)

end Parser
end TermMachine.Source
