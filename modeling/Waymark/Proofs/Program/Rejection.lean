import Mathlib.Data.List.Infix
import Waymark.Proofs.Program.Source
import Waymark.Proofs.Truthful

/-!
# Rejected texts

A text that spells no program is rejected for a reason that it bears out (`Program.parse_blames_truthfully`). All rules
of the grammar are truthful. The grammar itself fails only for want of the end of the text, behind the layout and the
functions that it read, and this is among the failures: so something is blamed, and not before that place.

What was read up to there is a program for itself. To see this the text is cut at the place: layout and tokens that end
within the front of a text do not depend on what follows the front (`Lexes.of_append`).
-/

namespace Waymark

/-! ## Texts cut short -/

/-- What layout leaves is the end of a text, and its position counts what was skipped. -/
theorem skipLayout_spec (inComment : Bool) (n : Nat) (cs : List Char) :
    ∃ skipped, cs = skipped ++ (skipLayout inComment n cs).rest ∧
      (skipLayout inComment n cs).position = n + skipped.length := by
  induction cs generalizing inComment n with
  | nil => exact ⟨[], rfl, rfl⟩
  | cons d cs ih =>
    have hskip (b : Bool) : ∃ skipped, d :: cs = skipped ++ (skipLayout b (n + 1) cs).rest ∧
        (skipLayout b (n + 1) cs).position = n + skipped.length := by
      obtain ⟨skipped, hcs, hpos⟩ := ih b (n + 1)
      refine ⟨d :: skipped, by rw [List.cons_append, ← hcs], ?_⟩
      rw [hpos, List.length_cons]
      omega
    unfold skipLayout
    split
    · exact hskip _
    · split
      · exact hskip _
      · split
        · exact hskip _
        · exact ⟨[], rfl, rfl⟩

theorem behindLayout_suffix (cs : List Char) : behindLayout cs <:+ cs := by
  obtain ⟨skipped, hcs, -⟩ := skipLayout_spec false 0 cs
  exact ⟨skipped, hcs.symm⟩

/-- A comment takes up whatever follows its first character. -/
theorem length_skipLayout_comment_lt (n : Nat) {cs : List Char} (hne : cs ≠ []) :
    (skipLayout true n cs).rest.length < cs.length := by
  obtain ⟨d, ds, rfl⟩ := List.exists_cons_of_ne_nil hne
  rw [skipLayout, if_pos rfl]
  obtain ⟨skipped, hds, -⟩ := skipLayout_spec (!isLineEnd d) (n + 1) ds
  have := congrArg List.length hds
  rw [List.length_append] at this
  rw [List.length_cons]
  omega

/-- Layout that ends within the front of a text is the same without what follows the front. -/
theorem rest_skipLayout_of_append (inComment : Bool) (n : Nat) {front left rest : List Char}
    (h : (skipLayout inComment n (front ++ rest)).rest = left ++ rest) :
    (skipLayout inComment n front).rest = left := by
  induction front generalizing inComment n with
  | nil =>
    obtain ⟨skipped, hrest, -⟩ := skipLayout_spec inComment n rest
    rw [List.nil_append] at h
    rw [h] at hrest
    have hlength := congrArg List.length hrest
    simp only [List.length_append] at hlength
    have hleft : left = [] := List.length_eq_zero_iff.mp (by omega)
    rw [hleft]
    rfl
  | cons d front ih =>
    rw [List.cons_append, skipLayout] at h
    rw [skipLayout]
    by_cases hc : inComment
    · rw [if_pos hc] at h ⊢
      exact ih _ _ h
    rw [if_neg hc] at h ⊢
    by_cases hb : isBlank d
    · rw [if_pos hb] at h ⊢
      exact ih _ _ h
    rw [if_neg hb] at h ⊢
    cases front with
    | cons e front =>
      have hhead : (e :: front ++ rest).head? = (e :: front).head? := rfl
      rw [hhead] at h
      by_cases hs : d = '/' ∧ (e :: front).head? = some '/'
      · rw [if_pos hs] at h ⊢
        exact ih _ _ h
      · rw [if_neg hs] at h ⊢
        exact List.append_cancel_right h
    | nil =>
      rw [if_neg (by simp)]
      rw [List.nil_append] at h
      -- a slash at the end of the front starts no comment, since that would take up what follows
      by_cases hs : d = '/' ∧ rest.head? = some '/'
      · rw [if_pos hs] at h
        have hne : rest ≠ [] := by
          rintro rfl
          simp at hs
        have hlt := length_skipLayout_comment_lt (n + 1) hne
        rw [h, List.length_append] at hlt
        omega
      · rw [if_neg hs] at h
        have hcancel : [d] ++ rest = left ++ rest := h
        exact List.append_cancel_right hcancel

theorem behindLayout_of_append {front left rest : List Char} (h : behindLayout (front ++ rest) = left ++ rest) :
    behindLayout front = left :=
  rest_skipLayout_of_append false 0 h

theorem Lexes.suffix {ts : List Token} {cs rest : List Char} (h : Lexes ts cs rest) : rest <:+ cs := by
  induction h with
  | nil => exact List.suffix_rfl
  | cons _ _ _ ih => exact (ih.trans (behindLayout_suffix _)).trans (List.suffix_append _ _)

/-- Tokens that end within the front of a text are found without what follows the front. -/
theorem Lexes.of_append {ts : List Token} {front left rest : List Char} (h : Lexes ts (front ++ rest) (left ++ rest)) :
    Lexes ts front left := by
  generalize hcs : front ++ rest = cs at h
  generalize hend : left ++ rest = last at h
  induction h generalizing front with
  | nil =>
    rw [← hend] at hcs
    rw [List.append_cancel_right hcs]
    exact .nil
  | @cons t ts after _ ht hword h ih =>
    obtain ⟨skipped, hafter⟩ := behindLayout_suffix after
    obtain ⟨lexed, hlexed⟩ := h.suffix
    have hbehind : behindLayout after = (lexed ++ left) ++ rest := by
      rw [List.append_assoc, hend, hlexed]
    have hsplit : after = (skipped ++ (lexed ++ left)) ++ rest := by
      rw [List.append_assoc, ← hbehind, hafter]
    generalize skipped ++ (lexed ++ left) = front' at hsplit
    subst hsplit
    rw [← List.append_assoc] at hcs
    rw [List.append_cancel_right hcs]
    refine .cons ht (fun hw d hd => hword hw d ?_) ?_
    · rw [List.head?_append, Option.mem_def.mp hd]
      rfl
    · rw [behindLayout_of_append hbehind]
      exact ih hbehind.symm hend

/-! ## The rules of the grammar -/

namespace Grammar

open Waymark.Parser

theorem truthful_layout : layout.Truthful := by
  refine .of_blameless (fun _ => rfl) fun {text c a c'} hc h => ?_
  obtain ⟨skipped, hrest, hpos⟩ := skipLayout_spec false c.position c.rest
  have hadvance := hc.advance hrest
  rw [reads_layout.mp h]
  rwa [Cursor.advance, ← hpos] at hadvance

theorem truthful_keyword (word : String) : (keyword word).Truthful :=
  (truthful_literal word).bind fun _ => (Truthful.absent _).bind fun _ => truthful_layout

theorem truthful_mark (text : String) : (mark text).Truthful :=
  (truthful_literal text).bind fun _ => truthful_layout

theorem truthful_identifier : identifier.Truthful :=
  (truthful_next _).bind fun _ => (truthful_span _).bind fun _ => truthful_layout.bind fun _ => truthful_pure _

theorem truthful_instructionKind : instructionKind.Truthful := by
  have hunary (word : String) (mk : String → Instruction) :
      (keyword word >>= fun _ => identifier >>= fun n => pure (mk n)).Truthful :=
    (truthful_keyword word).bind fun _ => truthful_identifier.bind fun _ => truthful_pure _
  have hbare (word : String) (i : Instruction) : (keyword word >>= fun _ => pure i).Truthful :=
    (truthful_keyword word).bind fun _ => truthful_pure _
  have hcomma : comma.Truthful := (truthful_mark ",").quiet
  refine .orElse (hunary _ _) (.orElse (hunary _ _) (.orElse (hunary _ _) (.orElse ?cbr
    (.orElse ?switch (.orElse (hbare _ _) (hbare _ _))))))
  case cbr =>
    exact (truthful_keyword _).bind fun _ => truthful_identifier.bind fun _ => hcomma.bind fun _ =>
      truthful_identifier.bind fun _ => truthful_pure _
  case switch =>
    exact (truthful_keyword _).bind fun _ => (truthful_identifier.separated hcomma).bind fun _ => truthful_pure _

theorem truthful_instruction : instruction.Truthful :=
  (Truthful.absent _).bind fun _ => truthful_instructionKind

theorem truthful_block : block.Truthful :=
  truthful_identifier.bind fun _ => (truthful_mark _).bind fun _ => truthful_instruction.many.bind fun _ =>
    truthful_pure _

theorem truthful_function : function.Truthful :=
  (truthful_keyword _).bind fun _ => truthful_identifier.bind fun _ => (truthful_mark _).bind fun _ =>
    truthful_block.many.bind fun _ => (truthful_mark _).bind fun _ => truthful_pure _

theorem truthful_program : program.Truthful :=
  truthful_layout.bind fun _ => truthful_function.many.bind fun _ => truthful_endOfInput.bind fun _ =>
    truthful_pure _

/-- The grammar fails only for want of the end of the text, behind the layout and the functions that it read; so
something is blamed, there or further on. -/
theorem exists_reads_of_fails_program {text : List Char} {c : Cursor} (hc : c.LiesIn text) (h : program.Fails c) :
    ∃ fs d, (layout >>= fun _ => function.many).Reads c fs d ∧ function.Fails d ∧
      d.position ≤ (program c).failures.position ∧ (program c).failures.expected ≠ [] := by
  obtain ⟨c₀, hlayout, -⟩ := exists_reads_layout c
  obtain ⟨fs, d, hfs⟩ := exists_reads_many function c₀
  have hend : endOfInput.Fails d := by
    refine (endOfInput.reads_or_fails d).resolve_left ?_
    rintro ⟨u, d', hread⟩
    have hprogram : program.Reads c ⟨fs⟩ d' := hlayout.bind (hfs.bind (hread.bind (.pure _ _)))
    exact fails_iff.mp h _ _ hprogram
  have hfailures : (program c).failures =
      (layout c).failures.merge ((function.many c₀).failures.merge (.single d .endOfInput)) := by
    unfold program
    rw [failures_bind_of_reads hlayout, failures_bind_of_reads hfs, failures_bind_of_fails hend,
      failures_endOfInput_of_fails hend]
  have hmany : (function.many c₀).failures.TrueOf text :=
    truthful_function.many.trueOf (truthful_layout.liesIn hc hlayout)
  refine ⟨fs, d, hlayout.bind hfs, ((reads_many consumes_function).mp hfs).fails, ?_, ?_⟩
  · rw [hfailures]
    exact Nat.le_trans (Failures.le_position_merge_right _ (.single d .endOfInput))
      (Failures.le_position_merge_right _ _)
  · rw [hfailures]
    apply Failures.expected_merge_ne_nil (fun hlt => absurd hlt (Nat.lt_irrefl 0))
    exact Failures.expected_merge_ne_nil hmany.expected_ne_nil (List.cons_ne_nil _ _)

/-- Layout and functions spell these functions as far as they were read. -/
theorem spells_of_reads {text : List Char} {fs : List Function} {c : Cursor}
    (h : (layout >>= fun _ => function.many).Reads ⟨0, text⟩ fs c) :
    (Program.mk fs).Spellable ∧ Spells false (Program.mk fs).tokens (text.take c.position) := by
  have hc : c.LiesIn text := (truthful_layout.bind fun _ => truthful_function.many).liesIn ⟨[], rfl, rfl⟩ h
  obtain ⟨_, d, hlayout, hfs⟩ := reads_bind.mp h
  obtain ⟨hgood, hlex⟩ := ((reads_many consumes_function).mp hfs).accounts accounts_function
  rw [rest_of_reads_layout hlayout] at hlex
  have hp : (Program.mk fs).Spellable := hgood
  refine ⟨hp, (spells_iff_lexes hp.proper).mpr ⟨?_, fun haw => by cases haw⟩⟩
  -- the tokens end where the text was cut, so they are found in what was kept
  obtain ⟨lexed, hlexed⟩ := hlex.suffix
  have hbehind : behindLayout (text.take c.position ++ c.rest) = lexed ++ c.rest := by
    rw [← hc.eq_take_append]
    exact hlexed.symm
  have hfront : Lexes (Program.mk fs).tokens (lexed ++ c.rest) ([] ++ c.rest) := by
    rw [hlexed]
    exact hlex
  rw [behindLayout_of_append hbehind]
  exact hfront.of_append

end Grammar

/-! ## Rejected texts -/

namespace Program

theorem exists_read_iff_spells {text : List Char} :
    (∃ p, read text = .ok p) ↔ ∃ p : Program, p.Spellable ∧ Spells false p.tokens text := by
  refine exists_congr fun p => ?_
  rw [read_eq_ok_iff_lexes]
  refine and_congr_right fun hp => ?_
  rw [spells_iff_lexes hp.proper, Bool.false_eq_true, false_imp_iff, and_true]

theorem read_eq_error_iff {text : List Char} {e : ParseFailure} :
    read text = .error e ↔
      Grammar.program.Fails ⟨0, text⟩ ∧ e = .ofFailures text (Grammar.program ⟨0, text⟩).failures := by
  unfold read Parser.Fails
  split
  next q c f h => simp [h]
  next f h => simp [h, eq_comm]

theorem parse_of_read_eq_error {source : String} {e : ParseFailure} (h : read source.toList = .error e) :
    parse source = .error (.grammar e) := by
  unfold parse
  rw [h]
  rfl

/-- **Rejected texts**: a text that spells no program is refused, and what it is blamed on is true. Something is asked
for, at a place in the text. The place does not lie before the end of the layout and the functions that were read, which
are spelled by the text up to there and no other function follows. No literal that is asked for stands at the place,
the end of the text is asked for only before it, and up to twenty characters are quoted as they stand there. -/
theorem parse_blames_truthfully {source : String}
    (h : ¬∃ p : Program, p.Spellable ∧ Spells false p.tokens source.toList) :
    ∃ e, parse source = .error (.grammar e) ∧ e.expected ≠ [] ∧ e.position ≤ source.length ∧
      (∃ fs c, (Grammar.layout >>= fun _ => Grammar.function.many).Reads ⟨0, source.toList⟩ fs c ∧
        c.position ≤ e.position ∧ Grammar.function.Fails c ∧
        (Program.mk fs).Spellable ∧ Spells false (Program.mk fs).tokens (source.toList.take c.position)) ∧
      (∀ word, .literal word ∈ e.expected → ¬word.toList <+: source.toList.drop e.position) ∧
      (.endOfInput ∈ e.expected → e.position < source.length) ∧
      e.found.toList <+: source.toList.drop e.position ∧
      e.found.length = min 20 (source.length - e.position) := by
  rw [← exists_read_iff_spells] at h
  obtain ⟨e, hread⟩ : ∃ e, read source.toList = .error e := by
    cases hread : read source.toList with
    | ok p => exact absurd ⟨p, hread⟩ h
    | error e => exact ⟨e, rfl⟩
  obtain ⟨hfails, rfl⟩ := read_eq_error_iff.mp hread
  have hstart : Cursor.LiesIn source.toList ⟨0, source.toList⟩ := ⟨[], rfl, rfl⟩
  have htrue := Grammar.truthful_program.trueOf hstart
  obtain ⟨fs, c, hreads, hstop, hle, hne⟩ := Grammar.exists_reads_of_fails_program hstart hfails
  obtain ⟨hspellable, hspells⟩ := Grammar.spells_of_reads hreads
  generalize (Grammar.program ⟨0, source.toList⟩).failures = e at *
  refine ⟨.ofFailures source.toList e, parse_of_read_eq_error hread, hne, ?_,
    ⟨fs, c, hreads, hle, hstop, hspellable, hspells⟩, ?_, ?_, ?_, ?_⟩
  · exact htrue.position_le
  · exact fun word hword => htrue.not_matches _ hword
  · intro hend
    have hrest : source.toList.drop e.position ≠ [] := htrue.not_matches _ hend
    rwa [ne_eq, List.drop_eq_nil_iff, Nat.not_le] at hrest
  · show (String.ofList ((source.toList.drop e.position).take 20)).toList <+: _
    rw [String.toList_ofList]
    exact List.take_prefix _ _
  · show (String.ofList ((source.toList.drop e.position).take 20)).length = _
    rw [String.length_ofList, List.length_take, List.length_drop, String.length_toList]
    rfl

/-- A word that starts no instruction is taken for the label of the next block, for want of a colon behind it. -/
theorem parse_blames_truthfully_label :
    let source := "fn f { a: ret }\nfn main { entry: jump somewhere far away }"
    (¬∃ p : Program, p.Spellable ∧ Spells false p.tokens source.toList) ∧
      ∃ e, parse source = .error (.grammar e) ∧ e.position = 38 ∧ e.expected = [.literal ":"] ∧
        e.found = "somewhere far away \x7d" ∧ ¬":".toList <+: source.toList.drop e.position ∧
        ∃ p : Program, ∃ n ≤ e.position, Spells false p.tokens (source.toList.take n) := by
  intro source
  have hread : read source.toList = .error ⟨38, [.literal ":"], "somewhere far away \x7d"⟩ := by decide +kernel
  have hnone : ¬∃ p : Program, p.Spellable ∧ Spells false p.tokens source.toList := by
    rw [← exists_read_iff_spells]
    rintro ⟨p, hp⟩
    cases hread.symm.trans hp
  obtain ⟨e, hparse, -, -, ⟨fs, c, -, hle, -, -, hspells⟩, hliteral, -⟩ := parse_blames_truthfully hnone
  cases hparse.symm.trans (parse_of_read_eq_error hread)
  exact ⟨hnone, _, hparse, rfl, rfl, rfl, hliteral ":" List.mem_cons_self, ⟨fs⟩, c.position, hle, hspells⟩

end Program

end Waymark
