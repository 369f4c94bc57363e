import Waymark.Proofs.Parsing

/-!
# Truthful parsers

What a parser blames for a failure is a claim about the text: the position lies in it, and what was asked for does not
stand there (`Failures.TrueOf`). Failures come from branches that were given up, from repetitions that simply stopped
and from parsers that succeeded after all, and the furthest ones win. Still they are all about the one text that the
parsers read, so it is enough that each parser stays in the text it starts in and blames only what the text bears out
(`Parser.Truthful`). One lemma for each operator says so; quiet parsers and look-ahead have nothing to answer for.
-/

namespace Waymark

/-! ## Places and failures -/

/-- A place in a text: what stands before it, as long as its position says, and the rest make up the text. -/
def Cursor.LiesIn (text : List Char) (c : Cursor) : Prop :=
  ∃ before, text = before ++ c.rest ∧ c.position = before.length

namespace Cursor.LiesIn

variable {text run rest : List Char} {c : Cursor}

theorem advance (h : c.LiesIn text) (hrest : c.rest = run ++ rest) : (c.advance run.length rest).LiesIn text := by
  obtain ⟨before, htext, hpos⟩ := h
  refine ⟨before ++ run, ?_, ?_⟩
  · rw [htext, hrest, List.append_assoc]
    rfl
  · rw [List.length_append, ← hpos]
    rfl

theorem position_le (h : c.LiesIn text) : c.position ≤ text.length := by
  obtain ⟨before, rfl, hpos⟩ := h
  rw [hpos, List.length_append]
  omega

theorem drop_eq (h : c.LiesIn text) : text.drop c.position = c.rest := by
  obtain ⟨before, rfl, hpos⟩ := h
  rw [hpos, List.drop_left]

theorem eq_take_append (h : c.LiesIn text) : text = text.take c.position ++ c.rest := by
  rw [← h.drop_eq, List.take_append_drop]

end Cursor.LiesIn

/-- What a terminal asks for stands at the start of a text. -/
def Terminal.Matches : Terminal → List Char → Prop
  | literal word, cs => word.toList <+: cs
  | endOfInput, cs => cs = []

/-- Failures that a text bears out: their position lies in it, nothing that was asked for stands there, and nothing is
left unsaid except at the very start. -/
structure Failures.TrueOf (text : List Char) (e : Failures) : Prop where
  position_le : e.position ≤ text.length
  not_matches : ∀ t ∈ e.expected, ¬t.Matches (text.drop e.position)
  expected_ne_nil : 0 < e.position → e.expected ≠ []

namespace Failures

variable {text : List Char} {a b : Failures} {c : Cursor} {t : Terminal}

theorem le_position_merge_right (a b : Failures) : b.position ≤ (a.merge b).position := by
  unfold merge
  split
  · exact Nat.le_refl _
  · split
    · omega
    · show b.position ≤ a.position
      omega

theorem eraseDups_append_ne_nil {ts us : List Terminal} (h : us ≠ []) : (ts ++ us).eraseDups ≠ [] := by
  obtain ⟨t, ht⟩ := List.exists_mem_of_ne_nil _ h
  exact List.ne_nil_of_mem (List.mem_eraseDups.mpr (List.mem_append_right _ ht))

theorem expected_merge_ne_nil (ha : 0 < a.position → a.expected ≠ []) (hb : b.expected ≠ []) :
    (a.merge b).expected ≠ [] := by
  unfold merge
  split
  · exact hb
  · split
    · exact ha (by omega)
    · exact eraseDups_append_ne_nil hb

theorem trueOf_none (text : List Char) : none.TrueOf text where
  position_le := Nat.zero_le _
  not_matches _ ht := by cases ht
  expected_ne_nil h := absurd h (Nat.lt_irrefl 0)

theorem trueOf_single (hc : c.LiesIn text) (ht : ¬t.Matches c.rest) : (single c t).TrueOf text where
  position_le := hc.position_le
  not_matches u hu := by
    rw [List.mem_singleton.mp hu]
    show ¬t.Matches (text.drop c.position)
    rwa [hc.drop_eq]
  expected_ne_nil _ := List.cons_ne_nil _ _

/-- The further of two true failures is true, and at equal positions both are true of the same place. -/
theorem TrueOf.merge (ha : a.TrueOf text) (hb : b.TrueOf text) : (a.merge b).TrueOf text := by
  unfold Failures.merge
  split
  · exact hb
  · split
    · exact ha
    · have hpos : a.position = b.position := by omega
      refine ⟨ha.position_le, fun t ht => ?_, fun hlt => eraseDups_append_ne_nil ?_⟩
      · rcases List.mem_append.mp (List.mem_eraseDups.mp ht) with ht | ht
        · exact ha.not_matches t ht
        · show ¬t.Matches (text.drop a.position)
          rw [hpos]
          exact hb.not_matches t ht
      · exact hb.expected_ne_nil (hpos ▸ hlt)

end Failures

/-! ## Truthful parsers -/

namespace Parser

variable {α β : Type} {p q : Parser α} {f : α → Parser β} {c c' : Cursor} {a : α}

/-- Wherever a parser starts in a text, it stops in the text and blames only what the text bears out. -/
structure Truthful (p : Parser α) : Prop where
  liesIn : ∀ {text c a c'}, c.LiesIn text → p.Reads c a c' → c'.LiesIn text
  trueOf : ∀ {text c}, c.LiesIn text → (p c).failures.TrueOf text

theorem failures_bind_of_reads (h : p.Reads c a c') :
    ((p >>= f) c).failures = (p c).failures.merge (f a c').failures := by
  show (andThen p f c).failures = _
  unfold andThen
  unfold Reads at h
  split
  next e hp => rw [hp] at h; cases h
  next hp =>
    rw [hp] at h ⊢
    cases h
    rfl

theorem failures_bind_of_fails (h : p.Fails c) : ((p >>= f) c).failures = (p c).failures := by
  show (andThen p f c).failures = _
  unfold andThen
  unfold Fails at h
  split
  next e hp => rw [hp]
  next hp => rw [hp] at h; cases h

theorem reads_or_fails (p : Parser α) (c : Cursor) : (∃ a c', p.Reads c a c') ∨ p.Fails c := by
  unfold Reads Fails
  cases (p c).result with
  | none => exact .inr rfl
  | some r => exact .inl ⟨r.1, r.2, rfl⟩

/-- A parser that blames nothing is truthful if it stops in the text. -/
theorem Truthful.of_blameless (hp : ∀ c, (p c).failures = .none)
    (hin : ∀ {text c a c'}, c.LiesIn text → p.Reads c a c' → c'.LiesIn text) : p.Truthful where
  liesIn := hin
  trueOf {text c} _ := by
    rw [hp]
    exact Failures.trueOf_none text

theorem truthful_pure (a : α) : (pure a : Parser α).Truthful :=
  .of_blameless (fun _ => rfl) fun hc h => by
    rw [(reads_pure.mp h).2]
    exact hc

theorem truthful_literal (word : String) : (literal word).Truthful where
  liesIn {text c a c'} hc h := by
    obtain ⟨rest, hrest, rfl⟩ := reads_literal.mp h
    exact hc.advance hrest
  trueOf {text c} hc := by
    unfold literal
    split
    next => exact Failures.trueOf_none text
    next hnone =>
      refine Failures.trueOf_single hc fun hahead => ?_
      obtain ⟨rest, hrest⟩ := hahead
      rw [List.isPrefixOf?_eq_some_iff_append_eq.mpr hrest] at hnone
      cases hnone

theorem truthful_endOfInput : endOfInput.Truthful where
  liesIn {text c a c'} hc h := by
    rw [(reads_endOfInput.mp h).2]
    exact hc
  trueOf {text c} hc := by
    unfold endOfInput
    split
    next => exact Failures.trueOf_none text
    next hrest =>
      refine Failures.trueOf_single hc fun hnil => ?_
      rw [Terminal.Matches, hrest] at hnil
      cases hnil

theorem truthful_next (P : Char → Bool) : (next P).Truthful := by
  refine .of_blameless (fun c => ?_) fun hc h => ?_
  · unfold next
    split
    · split <;> rfl
    · rfl
  · obtain ⟨rest, hrest, -, rfl⟩ := reads_next.mp h
    rw [← List.singleton_append] at hrest
    exact hc.advance hrest

theorem truthful_span (P : Char → Bool) : (span P).Truthful := by
  refine .of_blameless (fun _ => rfl) fun hc h => ?_
  obtain ⟨rfl, rfl⟩ := reads_span.mp h
  exact hc.advance List.takeWhile_append_dropWhile.symm

namespace Truthful

theorem quiet (hp : p.Truthful) : p.quiet.Truthful :=
  .of_blameless (fun _ => rfl) fun hc h => hp.liesIn hc h

theorem absent (p : Parser α) : p.absent.Truthful := by
  refine .of_blameless (fun c => ?_) fun hc h => ?_
  · unfold Parser.absent
    split <;> rfl
  · rw [(reads_absent.mp h).2]
    exact hc

theorem bind (hp : p.Truthful) (hf : ∀ a, (f a).Truthful) : (p >>= f).Truthful where
  liesIn hc h := by
    obtain ⟨a, d, hread, hrest⟩ := reads_bind.mp h
    exact (hf a).liesIn (hp.liesIn hc hread) hrest
  trueOf {text c} hc := by
    rcases p.reads_or_fails c with ⟨a, d, hread⟩ | hfails
    · rw [failures_bind_of_reads hread]
      exact (hp.trueOf hc).merge ((hf a).trueOf (hp.liesIn hc hread))
    · rw [failures_bind_of_fails hfails]
      exact hp.trueOf hc

theorem orElse (hp : p.Truthful) (hq : q.Truthful) : (p <|> q).Truthful where
  liesIn hc h := by
    rcases reads_orElse.mp h with h | ⟨-, h⟩
    · exact hp.liesIn hc h
    · exact hq.liesIn hc h
  trueOf {text c} hc := by
    show (Parser.orElse p q c).failures.TrueOf text
    have hfailures := hp.trueOf hc
    unfold Parser.orElse
    split
    next hfails =>
      rw [hfails] at hfailures
      exact hfailures.merge (hq.trueOf hc)
    next => exact hfailures

/-- A repetition tries its parser once more than it succeeds, and the last attempt is blamed as well. -/
theorem manyUpTo (hp : p.Truthful) (bound : Nat) : (p.manyUpTo bound).Truthful := by
  induction bound with
  | zero => exact truthful_pure []
  | succ bound ih =>
    constructor
    · intro text c as c' hc h
      unfold Reads Parser.manyUpTo at h
      split at h
      next => cases h; exact hc
      next a d e hread =>
        obtain ⟨⟨bs, d'⟩, hbs, heq⟩ := Option.map_eq_some_iff.mp h
        cases heq
        exact ih.liesIn (hp.liesIn hc (by rw [Reads, hread])) hbs
    · intro text c hc
      have hfailures := hp.trueOf hc
      unfold Parser.manyUpTo
      split
      next hfails =>
        rw [hfails] at hfailures
        exact hfailures
      next a d e hread =>
        have hd : d.LiesIn text := hp.liesIn hc (by rw [Reads, hread])
        rw [hread] at hfailures
        exact hfailures.merge (ih.trueOf hd)

theorem many (hp : p.Truthful) : p.many.Truthful where
  liesIn hc h := (hp.manyUpTo _).liesIn hc h
  trueOf hc := (hp.manyUpTo _).trueOf hc

theorem separated {separator : Parser Unit} (hp : p.Truthful) (hs : separator.Truthful) :
    (p.separated separator).Truthful :=
  hp.bind fun _ => (hs.bind fun _ => hp).many.bind fun _ => truthful_pure _

end Truthful

/-- A repetition never fails. -/
theorem exists_reads_manyUpTo (p : Parser α) (bound : Nat) (c : Cursor) :
    ∃ as c', (p.manyUpTo bound).Reads c as c' := by
  induction bound generalizing c with
  | zero => exact ⟨[], c, rfl⟩
  | succ bound ih =>
    unfold Reads manyUpTo
    split
    next => exact ⟨[], c, rfl⟩
    next a d e _ =>
      obtain ⟨as, c', h⟩ := ih d
      exact ⟨a :: as, c', Option.map_eq_some_iff.mpr ⟨(as, c'), h, rfl⟩⟩

theorem exists_reads_many (p : Parser α) (c : Cursor) : ∃ as c', p.many.Reads c as c' :=
  p.exists_reads_manyUpTo _ c

/-- A repetition stops where its parser fails. -/
theorem Repeats.fails {as : List α} (h : p.Repeats c as c') : p.Fails c' := by
  induction h with
  | stop h => exact h
  | more _ _ ih => exact ih

theorem failures_endOfInput_of_fails (h : endOfInput.Fails c) : (endOfInput c).failures = .single c .endOfInput := by
  unfold Fails endOfInput at h
  unfold endOfInput
  split at h
  · cases h
  · rfl

end Parser

end Waymark
