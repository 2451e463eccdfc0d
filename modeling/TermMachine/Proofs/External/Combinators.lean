import TermMachine.External.Combinators

/-! # Replies

Of several failures the furthest is told, and failures at one position are told as one. So it does
not matter how they are grouped, and a failure that is further on hides all that were met before.
-/
namespace TermMachine.Source

namespace Input

variable {test : Char → Bool} {i : Input}

theorem position_skip_le (test : Char → Bool) (i : Input) :
    i.position ≤ (i.skip test).position := Nat.le_add_right _ _

theorem skip_of_head (h : ∀ c ∈ i.rest.head?, test c = false) : i.skip test = i := by
  obtain ⟨p, cs⟩ := i
  cases cs with
  | nil => rfl
  | cons c cs =>
    have hc : test c = false := h c rfl
    simp [skip, hc]

theorem head_skip (test : Char → Bool) (i : Input) :
    ∀ c ∈ (i.skip test).rest.head?, test c = false := by
  intro c hc
  have hnot := List.head?_dropWhile_not test i.rest
  rw [skip, Option.mem_def] at hc
  rwa [hc] at hnot

theorem skip_eq_or_lt (test : Char → Bool) (i : Input) :
    i.skip test = i ∨ i.position < (i.skip test).position := by
  obtain ⟨p, cs⟩ := i
  cases cs with
  | nil => exact .inl rfl
  | cons c cs =>
    cases hc : test c with
    | false => exact .inl (skip_of_head (by simpa using hc))
    | true => exact .inr (by simp [skip, hc])

end Input

theorem Reason.merge_self (r : Reason) : r.merge r = r := by cases r <;> rfl

theorem Reason.merge_assoc (r s t : Reason) : (r.merge s).merge t = r.merge (s.merge t) := by
  cases r <;> cases s <;> cases t <;> rfl

namespace Failure

variable {f g : Failure} {met next : Option Failure} {i : Input} {n : Nat}
  {e e' : List (Option Char)}

theorem furthest_of_lt (hlt : f.start < g.start) : f.furthest g = g := by
  rw [furthest, if_pos hlt]

theorem furthest_of_gt (hgt : g.start < f.start) : f.furthest g = f := by
  rw [furthest, if_neg (by omega), if_pos hgt]

theorem furthest_of_eq (heq : f.start = g.start) :
    f.furthest g =
      { f with reason := f.reason.merge g.reason, expected := f.expected ∪ g.expected } := by
  rw [furthest, if_neg (by omega), if_neg (by omega)]

theorem start_furthest (f g : Failure) : (f.furthest g).start = max f.start g.start := by
  rcases Nat.lt_trichotomy f.start g.start with hlt | heq | hgt
  · rw [furthest_of_lt hlt, Nat.max_eq_right (Nat.le_of_lt hlt)]
  · rw [furthest_of_eq heq, heq, Nat.max_self]
  · rw [furthest_of_gt hgt, Nat.max_eq_left (Nat.le_of_lt hgt)]

theorem furthest_assoc (f g h : Failure) :
    (f.furthest g).furthest h = f.furthest (g.furthest h) := by
  have hfg := start_furthest f g
  have hgh := start_furthest g h
  rcases Nat.lt_trichotomy f.start g.start with hlt | heq | hgt
  · rw [furthest_of_lt hlt, furthest_of_lt (g := g.furthest h) (by omega)]
  · rcases Nat.lt_trichotomy g.start h.start with hlt' | heq' | hgt'
    · rw [furthest_of_lt hlt', furthest_of_lt (by omega), furthest_of_lt (by omega)]
    · have hunion : f.expected ∪ g.expected ∪ h.expected =
          f.expected ∪ (g.expected ∪ h.expected) := by
        apply Std.ExtTreeSet.ext_mem
        simp only [Std.ExtTreeSet.mem_union_iff, or_assoc, implies_true]
      simp only [furthest, heq, heq', Nat.lt_irrefl, if_false, hunion, Reason.merge_assoc]
    · rw [furthest_of_gt hgt', furthest_of_gt (by omega)]
  · rw [furthest_of_gt hgt]
    rcases Nat.lt_or_ge g.start h.start with hlt' | hge'
    · rw [furthest_of_lt hlt']
    · rw [furthest_of_gt (by omega), furthest_of_gt (by omega)]

@[simp]
theorem later_none (met : Option Failure) : later met none = met := by cases met <;> rfl

@[simp]
theorem none_later (next : Option Failure) : later none next = next := by cases next <;> rfl

theorem later_assoc (a b c : Option Failure) : later (later a b) c = later a (later b c) := by
  cases a with
  | none => simp
  | some f =>
    cases b with
    | none => simp
    | some g =>
      cases c with
      | none => simp
      | some h => simp [later, furthest_assoc]

theorem later_some_of_lt (h : ∀ g ∈ met, g.start < f.start) : later met (some f) = some f := by
  cases met with
  | none => rfl
  | some g => rw [later, furthest_of_lt (h g rfl)]

theorem start_later_lt (hmet : ∀ f ∈ met, f.start < n) (hnext : ∀ f ∈ next, f.start < n) :
    ∀ f ∈ later met next, f.start < n := by
  cases met with
  | none => simpa using hnext
  | some f =>
    cases next with
    | none => simpa using hmet
    | some g =>
      have hf := hmet f rfl
      have hg := hnext g rfl
      simp only [later, Option.mem_def, Option.some.injEq, forall_eq', start_furthest]
      omega

theorem behind_some_of_lt (h : f.start < g.start) : f.behind (some g) = g := furthest_of_lt h

theorem behind_later (f : Failure) (met next : Option Failure)
    (h : ∀ g ∈ met, g.start < f.start) : f.behind (later met next) = f.behind next := by
  cases met with
  | none => simp
  | some g =>
    cases next with
    | none => exact furthest_of_gt (h g rfl)
    | some k =>
      have hg := h g rfl
      rw [later, behind, behind]
      rw [← furthest_assoc, furthest_of_gt hg]

theorem start_behind_ge (f : Failure) (met : Option Failure) : f.start ≤ (f.behind met).start := by
  cases met with
  | none => exact Nat.le_refl _
  | some g =>
    rw [behind, start_furthest]
    exact Nat.le_max_left _ _

theorem unexpected_congr (h : ∀ x, x ∈ e ↔ x ∈ e') : unexpected i e = unexpected i e' := by
  have hset : Std.ExtTreeSet.ofList e compare = Std.ExtTreeSet.ofList e' compare := by
    apply Std.ExtTreeSet.ext_mem
    simp [h]
  rw [unexpected, unexpected, hset]

theorem unexpected_furthest : (unexpected i e).furthest (unexpected i e') =
    unexpected i (e ++ e') := by
  have hset : Std.ExtTreeSet.ofList e compare ∪ Std.ExtTreeSet.ofList e' compare =
      Std.ExtTreeSet.ofList (e ++ e') compare := by
    apply Std.ExtTreeSet.ext_mem
    simp
  simp only [furthest, unexpected, Nat.lt_irrefl, if_false, hset, Reason.merge_self]

theorem withLabel_furthest (label label' : String) (f : Failure) :
    (f.withLabel label).furthest (f.withLabel label') = f.withLabel label := by
  have hset : f.expected ∪ f.expected = f.expected := by
    apply Std.ExtTreeSet.ext_mem
    simp
  simp [furthest, withLabel, hset, Reason.merge_self]

theorem later_unexpected_skip (test : Char → Bool) (i : Input) (e : List (Option Char)) :
    later (some (unexpected i [])) (some (unexpected (i.skip test) e)) =
      some (unexpected (i.skip test) e) := by
  rcases i.skip_eq_or_lt test with heq | hlt
  · rw [heq, later, unexpected_furthest, List.nil_append]
  · exact congrArg some (furthest_of_lt hlt)

theorem behind_unexpected_skip (test : Char → Bool) (i : Input) (e : List (Option Char)) :
    (unexpected (i.skip test) e).behind (some (unexpected i [])) = unexpected (i.skip test) e := by
  rcases i.skip_eq_or_lt test with heq | hlt
  · rw [heq, behind, unexpected_furthest, List.append_nil]
  · exact furthest_of_gt hlt

end Failure

namespace Reply

variable {α β γ : Type}

theorem map_map (r : Reply α) (g : α → β) (g' : β → γ) :
    (r.map g).map g' = r.map fun x => g' (g x) := by
  cases r <;> rfl

theorem map_id (r : Reply α) : (r.map fun x => x) = r := by cases r <;> rfl

theorem map_bind (r : Reply α) (next : α → Input → Reply β) (g : β → γ) :
    (r.bind next).map g = r.bind fun x i => (next x i).map g := by
  cases r with
  | error f => rfl
  | ok value rest met =>
    simp only [bind]
    cases next value rest <;> rfl

theorem ofTest_refused {test : Char → Bool} {expected : List (Option Char)} {i : Input}
    (h : ∀ c ∈ i.rest.head?, test c = false) :
    ofTest test expected i = .error (.unexpected i expected) := by
  unfold ofTest
  cases hrest : i.rest with
  | nil => rfl
  | cons c cs =>
    have hc : test c = false := h c (by simp [hrest])
    simp [hc]

theorem ok_none_bind (value : α) (rest : Input) (next : α → Input → Reply β) :
    (ok value rest none).bind next = next value rest := by
  simp only [bind]
  cases next value rest with
  | error f => rfl
  | ok value rest met => simp

theorem ok_bind_ok {value : α} {value' : β} {mid rest : Input} {met met' : Option Failure}
    {next : α → Input → Reply β} (h : next value mid = .ok value' rest met') :
    (ok value mid met).bind next = .ok value' rest (Failure.later met met') := by
  simp [bind, h]

theorem ok_bind_error {value : α} {mid : Input} {met : Option Failure} {f : Failure}
    {next : α → Input → Reply β} (h : next value mid = .error f) :
    (ok value mid met).bind next = .error (f.behind met) := by
  simp [bind, h]

end Reply

namespace Combinators.Lawful

variable {K : Combinators} (hK : K.Lawful) {α β : Type}
include hK

theorem thenIgnore (p : K.Parser α) (q : K.Parser β) (i : Input) :
    K.run (K.thenIgnore p q) i = (K.run p i).bind fun x rest => (K.run q rest).map fun _ => x := by
  simp [Combinators.thenIgnore, hK.map, hK.andThen, Reply.map_bind, Reply.map_map]

theorem ignoreThen (p : K.Parser α) (q : K.Parser β) (i : Input) :
    K.run (K.ignoreThen p q) i = (K.run p i).bind fun _ rest => K.run q rest := by
  simp [Combinators.ignoreThen, hK.map, hK.andThen, Reply.map_bind, Reply.map_map, Reply.map_id]

theorem delimitedBy (p : K.Parser α) (opening closing : K.Parser β) (i : Input) :
    K.run (K.delimitedBy p opening closing) i =
      ((K.run opening i).bind fun _ rest => K.run p rest).bind fun x rest =>
        (K.run closing rest).map fun _ => x := by
  rw [Combinators.delimitedBy, hK.thenIgnore, hK.ignoreThen]

theorem consumes_filter (test : Char → Bool) : K.Consumes (K.filter test) := by
  intro i value rest met h
  rw [hK.filter] at h
  simp [(Reply.ofTest_eq_ok h).1]

theorem consumes_just (c : Char) : K.Consumes (K.just c) := by
  intro i value rest met h
  rw [hK.just] at h
  simp [(Reply.ofTest_eq_ok h).1]

theorem consumes_map {p : K.Parser α} (hp : K.Consumes p) (g : α → β) :
    K.Consumes (K.map g p) := by
  intro i value rest met h
  rw [hK.map] at h
  obtain ⟨x, hx, -⟩ := Reply.map_eq_ok h
  exact hp hx

theorem consumes_andThen {p : K.Parser α} (hp : K.Consumes p) (q : K.Parser β) :
    K.Consumes (K.andThen p q) := by
  intro i value rest met h
  rw [hK.andThen] at h
  obtain ⟨x, mid, met₁, met₂, hx, hq, -⟩ := Reply.bind_eq_ok h
  obtain ⟨y, hy, -⟩ := Reply.map_eq_ok hq
  exact Nat.lt_of_le_of_lt (hK.shortens q hy) (hp hx)

theorem consumes_padded {p : K.Parser α} (hp : K.Consumes p) : K.Consumes (K.padded p) := by
  intro i value rest met h
  rw [hK.padded] at h
  split at h
  · rename_i x rest' met' hx
    obtain ⟨-, rfl, -⟩ := Reply.ok.inj h
    exact Nat.lt_of_le_of_lt (rest'.length_skip_le isBlank)
      (Nat.lt_of_lt_of_le (hp hx) (i.length_skip_le isBlank))
  · cases h

theorem consumes_labelled {p : K.Parser α} (hp : K.Consumes p) (label : String) :
    K.Consumes (K.labelled label p) := by
  intro i value rest met h
  rw [hK.labelled] at h
  split at h
  · rename_i hx
    obtain ⟨rfl, rfl, rfl⟩ := Reply.ok.inj h
    exact hp hx
  · cases h

/-- Repetition never fails. -/
theorem exists_repeated {p : K.Parser α} (hp : K.Consumes p) (i : Input) :
    ∃ values rest met, K.run (K.repeated p) i = .ok values rest met := by
  induction hn : i.rest.length using Nat.strongRecOn generalizing i with
  | _ n ih =>
    subst hn
    rw [hK.repeated _ _ hp]
    cases hrun : K.run p i with
    | error f => exact ⟨_, _, _, rfl⟩
    | ok x rest met =>
      obtain ⟨values, rest', met', hrest⟩ := ih _ (hp hrun) rest rfl
      exact ⟨_, _, _, Reply.ok_bind_ok (by rw [hrest]; rfl)⟩

/-- Characters that pass a test are taken for as long as there are any. -/
theorem repeated_filter (test : Char → Bool) (i : Input) :
    K.run (K.repeated (K.filter test)) i =
      .ok (i.rest.takeWhile test) (i.skip test) (some (.unexpected (i.skip test) [])) := by
  have hconsumes : K.Consumes (K.filter test) := hK.consumes_filter test
  obtain ⟨p, cs⟩ := i
  induction cs generalizing p with
  | nil => simp [hK.repeated _ _ hconsumes, hK.filter, Reply.ofTest, Input.skip]
  | cons c cs ih =>
    rw [hK.repeated _ _ hconsumes, hK.filter]
    cases hc : test c with
    | false => simp [Reply.ofTest, hc, Input.skip]
    | true =>
      simp [Reply.ofTest, hc, ih, Reply.ok_none_bind, Reply.map, Input.skip, Nat.add_right_comm,
        Nat.add_assoc]

theorem whitespace (i : Input) : K.run K.whitespace i =
    .ok () (i.skip isBlank) (some (.unexpected (i.skip isBlank) [])) := by
  rw [Combinators.whitespace, hK.map, hK.repeated_filter]
  rfl

end Combinators.Lawful

namespace Combinators

/-- Two parsers that reply alike to every text shorter than `n`. -/
def AgreeBelow (K : Combinators) {α : Type} (n : Nat) (p q : K.Parser α) : Prop :=
  ∀ i : Input, i.rest.length < n → K.run p i = K.run q i

namespace AgreeBelow

variable {K : Combinators} (hK : K.Lawful) {α β : Type} {n : Nat} {p p' : K.Parser α}
  {q q' : K.Parser β}

theorem refl (p : K.Parser α) : K.AgreeBelow n p p := fun _ _ => rfl

include hK

theorem map (h : K.AgreeBelow n p p') (g : α → β) : K.AgreeBelow n (K.map g p) (K.map g p') := by
  intro i hi
  rw [hK.map, hK.map, h i hi]

theorem andThen (hp : K.AgreeBelow n p p') (hq : K.AgreeBelow n q q') :
    K.AgreeBelow n (K.andThen p q) (K.andThen p' q') := by
  intro i hi
  rw [hK.andThen, hK.andThen, hp i hi]
  cases hrun : K.run p' i with
  | error f => rfl
  | ok x rest met =>
    have hle := hK.shortens p' hrun
    simp only [Reply.bind, hq rest (by omega)]

theorem padded (h : K.AgreeBelow n p p') : K.AgreeBelow n (K.padded p) (K.padded p') := by
  intro i hi
  rw [hK.padded, hK.padded, h _ (Nat.lt_of_le_of_lt (i.length_skip_le isBlank) hi)]

theorem orNot (h : K.AgreeBelow n p p') : K.AgreeBelow n (K.orNot p) (K.orNot p') := by
  intro i hi
  rw [hK.orNot, hK.orNot, h i hi]

theorem repeated (h : K.AgreeBelow n p p') (hp : K.Consumes p) (hp' : K.Consumes p') :
    K.AgreeBelow n (K.repeated p) (K.repeated p') := by
  induction n with
  | zero => exact fun i hi => absurd hi (Nat.not_lt_zero _)
  | succ n ih =>
    intro i hi
    rw [hK.repeated _ _ hp, hK.repeated _ _ hp', h i hi]
    cases hrun : K.run p' i with
    | error f => rfl
    | ok x rest met =>
      have hlt := hp' hrun
      have hrest := ih (fun j hj => h j (by omega)) rest (by omega)
      simp only [Reply.bind, hrest]

theorem separatedBy (hp : K.AgreeBelow n p p') (hq : K.Consumes q) :
    K.AgreeBelow n (K.separatedBy p q) (K.separatedBy p' q) := by
  have hitem : ∀ p : K.Parser α, K.Consumes (K.ignoreThen q p) := fun p =>
    hK.consumes_map (hK.consumes_andThen hq p) _
  have hmore : K.AgreeBelow n (K.ignoreThen q p) (K.ignoreThen q p') :=
    map hK (andThen hK (refl q) hp) _
  intro i hi
  rw [hK.separatedBy, hK.separatedBy]
  exact map hK (andThen hK hp (repeated hK hmore (hitem p) (hitem p'))) _ i hi

theorem delimitedBy (hp : K.AgreeBelow n p p') (opening closing : K.Parser β) :
    K.AgreeBelow n (K.delimitedBy p opening closing) (K.delimitedBy p' opening closing) :=
  map hK (andThen hK (map hK (andThen hK (refl opening) hp) _) (refl closing)) _

end AgreeBelow
end Combinators
end TermMachine.Source
