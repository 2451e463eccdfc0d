import Mathlib.Tactic.TFAE
import TermMachine.Proofs.Source.Reader
import TermMachine.Proofs.Term.Basic

/-! # Printed terms are sources

The terms that have a source are those whose names are words of the grammar and whose structures
have arguments. The printed form of such a term is a source of it.
-/
namespace TermMachine.Source

def IsWord (start : Char → Prop) (name : String) : Prop :=
  ∃ c cs, name.toList = c :: cs ∧ start c ∧ ∀ d ∈ cs, WordCharacter d

/-- The names of a term are words, and none of its structures is empty. -/
inductive WellSpelled : Term → Prop
  | var {name} : IsWord VariableStart name → WellSpelled (.var name)
  | atom {name} : IsWord NameStart name → WellSpelled (.atom name)
  | app {name t ts} : IsWord NameStart name → (∀ u ∈ t :: ts, WellSpelled u) →
      WellSpelled (.app name (t :: ts))

variable {K : Combinators} {longest : Bool} {text rest w : List Char} {t : Term} {ts : List Term}
  {name : String}

theorem WellSpelled.ofArgs (hname : IsWord NameStart name) (hts : ∀ t ∈ ts, WellSpelled t) :
    WellSpelled (.ofArgs name ts) := by
  cases ts with
  | nil => exact .atom hname
  | cons t ts => exact .app hname hts

theorem WellSpelled.vars (h : WellSpelled t) {a : String} (ha : a ∈ t.vars) :
    IsWord VariableStart a := by
  induction h with
  | var hname =>
    obtain rfl := List.mem_singleton.1 ha
    exact hname
  | atom => cases ha
  | app _ _ ih =>
    obtain ⟨u, hu, hau⟩ := Term.mem_varsAll.1 ha
    exact ih u hu hau

theorem Word.isWord {start : Char → Prop} (h : Word longest start text w rest) :
    IsWord start (String.ofList w) := by
  obtain ⟨c, cs, rfl, hc, hcs⟩ := h.letters
  exact ⟨c, cs, String.toList_ofList, hc, hcs⟩

mutual
theorem Derives.wellSpelled {text rest : List Char} {t : Term} :
    Derives longest text t rest → WellSpelled t
  | .var hword => .var hword.isWord
  | .atom hword => .atom hword.isWord
  | .app hword _ _ ht hts _ =>
    .app hword.isWord (List.forall_mem_cons.2 ⟨ht.wellSpelled, hts.wellSpelled⟩)

theorem DerivesMore.wellSpelled {text rest : List Char} {ts : List Term} :
    DerivesMore longest text ts rest → ∀ t ∈ ts, WellSpelled t
  | .nil => List.forall_mem_nil _
  | .cons _ _ ht hts => List.forall_mem_cons.2 ⟨ht.wellSpelled, hts.wellSpelled⟩
end

theorem wellSpelled_of_parse (hK : K.Lawful) {source : String} (h : parseWith K source = .ok t) :
    WellSpelled t := by
  have haccepts := (parseWith_eq_ok_iff_accepts hK).1 h
  obtain ⟨text, u, rest, -, hu, -, hafter⟩ := Reader.termFirst _ haccepts
  obtain ⟨-, rfl⟩ := Reader.afterTerm_nil.1 hafter
  exact hu.wellSpelled

def moreText (ts : List Term) : List Char := ts.flatMap fun t => ',' :: ' ' :: t.text.toList

theorem toList_listText (t : Term) (ts : List Term) :
    (Term.listText (t :: ts)).toList = t.text.toList ++ moreText ts := by
  induction ts generalizing t with
  | nil => simp [Term.listText, moreText]
  | cons u us ih => simp [Term.listText, moreText, ih]

theorem toList_text_app (name : String) (t : Term) (ts : List Term) (rest : List Char) :
    (Term.app name (t :: ts)).text.toList ++ rest =
      name.toList ++ '(' :: (t.text.toList ++ (moreText ts ++ ')' :: rest)) := by
  simp [Term.text, toList_listText]

theorem IsWord.word {start : Char → Prop} (h : IsWord start name) (rest : List Char) :
    Word false start (name.toList ++ rest) name.toList rest := by
  obtain ⟨c, cs, heq, hc, hcs⟩ := h
  exact ⟨rfl, ⟨c, cs, heq, hc, hcs⟩, by simp⟩

theorem derivesMore_moreText
    (h : ∀ t ∈ ts, ∀ rest, Derives false (t.text.toList ++ rest) t rest) (rest : List Char) :
    DerivesMore false (moreText ts ++ rest) ts rest := by
  induction ts with
  | nil => exact .nil
  | cons t ts ih =>
    have hspace : Blanks (' ' :: (t.text.toList ++ (moreText ts ++ rest)))
        (t.text.toList ++ (moreText ts ++ rest)) :=
      (Blanks.refl _).cons (.inr (.inl rfl))
    have hrest := ih fun u hu => h u (List.mem_cons_of_mem t hu)
    have hmore := DerivesMore.cons (.refl _) hspace (h t List.mem_cons_self _) hrest
    simpa [moreText] using hmore

/-- The grammar derives a well-spelled term from its printed form, whatever follows. -/
theorem WellSpelled.derives (h : WellSpelled t) (rest : List Char) :
    Derives false (t.text.toList ++ rest) t rest := by
  induction h generalizing rest with
  | @var name hname =>
    have hvar := Derives.var (hname.word rest)
    rwa [String.ofList_toList] at hvar
  | @atom name hname =>
    have hatom := Derives.atom (hname.word rest)
    rwa [String.ofList_toList] at hatom
  | @app name t ts hname _ ih =>
    obtain ⟨hfirst, hmore⟩ := List.forall_mem_cons.1 ih
    have happ := Derives.app (hname.word _) (.refl _) (.refl _) (hfirst _)
      (derivesMore_moreText hmore (')' :: rest)) (.refl _)
    rwa [String.ofList_toList, ← toList_text_app] at happ

/-- A well-spelled term is what its printed form parses as. -/
theorem WellSpelled.parse_text (hK : K.Lawful) (h : WellSpelled t) :
    parseWith K t.text = .ok t := by
  have hderives := h.derives []
  rw [List.append_nil] at hderives
  rw [parseWith_eq_ok_iff_accepts hK]
  exact Reader.accepts_of_derives hderives (Reader.afterTerm_nil.2 ⟨.refl [], rfl⟩)

/-- The terms that have a source are the well-spelled ones, and the printed form of a term is a
source of it when the term has a source at all. -/
theorem parse_text_tfae (hK : K.Lawful) (t : Term) :
    [WellSpelled t, parseWith K t.text = .ok t, ∃ source, parseWith K source = .ok t].TFAE := by
  tfae_have 1 → 2 := WellSpelled.parse_text hK
  tfae_have 2 → 3 := fun h => ⟨t.text, h⟩
  tfae_have 3 → 1 := fun ⟨_, h⟩ => wellSpelled_of_parse hK h
  tfae_finish

/-- A term from a source with blanks that its printed form does not have. -/
theorem parse_text_tfae_blanks :
    let t : Term := .app "p" [.var "Z", .app "h" [.var "Z", .atom "w"]]
    Combinators.scanners.Lawful ∧ parse " p ( Z,h(Z ,w))" = .ok t ∧ WellSpelled t ∧
      parse t.text = .ok t := by
  intro t
  have hsource : parse " p ( Z,h(Z ,w))" = .ok t := by rfl
  have hexists : ∃ source, parseWith .scanners source = .ok t := ⟨_, hsource⟩
  have htfae := parse_text_tfae Combinators.scanners_lawful t
  exact ⟨Combinators.scanners_lawful, hsource, (htfae.out 2 0).1 hexists,
    (htfae.out 2 1).1 hexists⟩

end TermMachine.Source
