import Waymark.Proofs.Parsing
import Waymark.Proofs.Program.Tokens

/-!
# The texts of the grammar

The grammar accepts exactly the spellings of programs that can be spelled, and reads the program that they spell
(`Program.read_iff_spells`).

What a rule reads is accounted for by the tokens of its value (`Parser.Accounts`). The other way round it finds every
value whose tokens stand ahead (`Parser.Finds`), if what follows cannot be taken for more of it: no comma behind the
targets of a switch, no colon behind a word that was meant for an instruction. An instruction is not found where a
block starts, which is what ends the body of the block before.
-/

namespace Waymark

/-! ## Rules and tokens -/

namespace Parser

variable {α : Type} {p : Parser α} {tokens : α → List Token} {Good : α → Prop} {Next : List Token → Prop}
  {c c' : Cursor} {as : List α} {ts : List Token}

/-- `p` reads one token, which `token` tells from the value. -/
structure Scans (p : Parser α) (token : α → Token) : Prop where
  lexes : ∀ {c a c'}, p.Reads c a c' → Lexes [token a] c.rest c'.rest
  reads : ∀ {c a ts rest}, Lexes (token a :: ts) c.rest rest → ∃ c', p.Reads c a c' ∧ Lexes ts c'.rest rest

/-- What `p` reads is good, and its tokens make up the text to where `p` stops. -/
def Accounts (p : Parser α) (tokens : α → List Token) (Good : α → Prop) : Prop :=
  ∀ c a c', p.Reads c a c' → Good a ∧ Lexes (tokens a) c.rest c'.rest

/-- `p` reads every good value whose tokens stand ahead, if they are followed as `Next` says. -/
def Finds (p : Parser α) (tokens : α → List Token) (Good : α → Prop) (Next : List Token → Prop) : Prop :=
  ∀ c a ts, Good a → Next ts → Lexes (tokens a ++ ts) c.rest [] → ∃ c', p.Reads c a c' ∧ Lexes ts c'.rest []

/-- A parser fails where another token stands than its values start with. -/
theorem Accounts.fails (h : p.Accounts tokens Good) (hhead : ∀ a, ∃ t us, tokens a = t :: us ∧ ts.head? ≠ some t)
    (hts : Lexes ts c.rest []) : p.Fails c := by
  rw [fails_iff]
  intro a c' hread
  obtain ⟨t, us, htokens, hne⟩ := hhead a
  obtain ⟨vs, rfl, -⟩ := (h c a c' hread).2.split hts
  simp [htokens] at hne

theorem Scans.accounts {token : α → Token} (h : p.Scans token) : p.Accounts (fun a => [token a]) fun _ => True :=
  fun _ _ _ hread => ⟨trivial, h.lexes hread⟩

theorem Scans.fails {token : α → Token} (h : p.Scans token) (hhead : ∀ a, ts.head? ≠ some (token a))
    (hts : Lexes ts c.rest []) : p.Fails c :=
  h.accounts.fails (fun a => ⟨token a, [], rfl, hhead a⟩) hts

theorem Accounts.consumes (h : p.Accounts tokens Good) (hne : ∀ a, tokens a ≠ []) : p.Consumes :=
  fun c a c' hread => (h c a c' hread).2.length_lt (hne a)

/-- What is read in a row is accounted for by all the tokens in a row. -/
theorem Repeats.accounts (hs : p.Repeats c as c') (h : p.Accounts tokens Good) :
    (∀ a ∈ as, Good a) ∧ Lexes (as.flatMap tokens) c.rest c'.rest := by
  induction hs with
  | stop => exact ⟨by simp, .nil⟩
  | more hread _ ih =>
    obtain ⟨hgood, hlex⟩ := h _ _ _ hread
    rw [List.flatMap_cons]
    exact ⟨List.forall_mem_cons.mpr ⟨hgood, ih.1⟩, hlex.append ih.2⟩

/-- Values in a row are found one after the other, up to tokens where no other value starts. -/
theorem Finds.repeats (h : p.Finds tokens Good Next) (hstop : ∀ {c : Cursor}, Lexes ts c.rest [] → p.Fails c)
    (hnext : ∀ bs : List α, (∀ b ∈ bs, Good b) → Next (bs.flatMap tokens ++ ts)) (has : ∀ a ∈ as, Good a)
    (hlex : Lexes (as.flatMap tokens ++ ts) c.rest []) : ∃ c', p.Repeats c as c' ∧ Lexes ts c'.rest [] := by
  induction as generalizing c with
  | nil => exact ⟨c, .stop (hstop hlex), hlex⟩
  | cons a as ih =>
    rw [List.forall_mem_cons] at has
    rw [List.flatMap_cons, List.append_assoc] at hlex
    obtain ⟨d, hread, hrest⟩ := h c a _ has.1 (hnext as has.2) hlex
    obtain ⟨c', hs, hts⟩ := ih has.2 hrest
    exact ⟨c', .more hread hs, hts⟩

theorem Accounts.orElse {q : Parser α} (hp : p.Accounts tokens Good) (hq : q.Accounts tokens Good) :
    (p <|> q).Accounts tokens Good := by
  intro c a c' h
  rcases reads_orElse.mp h with h | ⟨-, h⟩
  · exact hp c a c' h
  · exact hq c a c' h

theorem Reads.bind {β : Type} {f : α → Parser β} {a : α} {b : β} {d : Cursor} (h : p.Reads c a d)
    (h' : (f a).Reads d b c') : (p >>= f).Reads c b c' :=
  reads_bind.mpr ⟨a, d, h, h'⟩

theorem Reads.pure (a : α) (c : Cursor) : (Pure.pure a : Parser α).Reads c a c :=
  reads_pure.mpr ⟨rfl, rfl⟩

theorem Reads.orElse {q : Parser α} {a : α} (h : p.Reads c a c') : (p <|> q).Reads c a c' :=
  reads_orElse.mpr (.inl h)

theorem Reads.orElse_of_fails {q : Parser α} {a : α} (h : q.Reads c a c') (hp : p.Fails c) :
    (p <|> q).Reads c a c' :=
  reads_orElse.mpr (.inr ⟨hp, h⟩)

end Parser

namespace Grammar

open Waymark.Parser

variable {c c' : Cursor} {w : String} {ts : List Token}

/-! ## Words and marks -/

theorem reads_layout {u : Unit} : layout.Reads c u c' ↔ c' = skipLayout false c.position c.rest := by
  unfold Reads layout
  simp [eq_comm]

theorem rest_of_reads_layout {u : Unit} (h : layout.Reads c u c') : c'.rest = behindLayout c.rest := by
  rw [reads_layout.mp h]
  exact rest_skipLayout ..

theorem exists_reads_layout (c : Cursor) : ∃ c', layout.Reads c () c' ∧ c'.rest = behindLayout c.rest :=
  ⟨_, rfl, rest_skipLayout ..⟩

theorem fails_next {P : Char → Bool} : (next P).Fails c ↔ ∀ d ∈ c.rest.head?, P d = false := by
  unfold Fails next
  cases c.rest with
  | nil => simp
  | cons d rest => cases hP : P d <;> simp [hP]

theorem scans_keyword (hw : IsIdentifier w) : (keyword w).Scans fun _ => .word w where
  lexes := by
    intro c u c' h
    obtain ⟨_, _, hlit, _, _, habs, hlayout⟩ : ∃ _ _, _ ∧ ∃ _ _, _ ∧ _ := by
      simpa only [keyword, reads_bind] using h
    obtain ⟨after, hrest, rfl⟩ := reads_literal.mp hlit
    obtain ⟨hend, rfl⟩ := reads_absent.mp habs
    rw [hrest, rest_of_reads_layout hlayout]
    exact .cons hw (fun _ => fails_next.mp hend) .nil
  reads := by
    intro c u ts rest h
    generalize hcs : c.rest = cs at h
    cases h with
    | @cons _ _ after _ _ hend h =>
      have hlit : (literal w).Reads c () (c.advance w.length after) := reads_literal.mpr ⟨after, hcs, rfl⟩
      have habs : (absent (next isWordChar)).Reads (c.advance w.length after) () (c.advance w.length after) :=
        reads_absent.mpr ⟨fails_next.mpr (hend rfl), rfl⟩
      obtain ⟨c', hlayout, hrest⟩ := exists_reads_layout (c.advance w.length after)
      refine ⟨c', hlit.bind (habs.bind hlayout), ?_⟩
      rw [hrest]
      exact h

theorem scans_mark {text : String} {m : Char} (htext : text.toList = [m]) (hm : (Token.mark m).Proper) :
    (mark text).Scans fun _ => .mark m where
  lexes := by
    intro c u c' h
    obtain ⟨_, _, hlit, hlayout⟩ := reads_bind.mp h
    obtain ⟨after, hrest, rfl⟩ := reads_literal.mp hlit
    rw [hrest, htext, rest_of_reads_layout hlayout]
    exact .cons hm (fun hword => by cases hword) .nil
  reads := by
    intro c u ts rest h
    generalize hcs : c.rest = cs at h
    cases h with
    | @cons _ _ after _ _ _ h =>
      have hlit : (literal text).Reads c () (c.advance text.length after) :=
        reads_literal.mpr ⟨after, by rw [hcs, htext]; rfl, rfl⟩
      obtain ⟨c', hlayout, hrest⟩ := exists_reads_layout (c.advance text.length after)
      refine ⟨c', hlit.bind hlayout, ?_⟩
      rw [hrest]
      exact h

theorem scans_colon : (mark ":").Scans fun _ => .mark ':' := scans_mark rfl (by simp [Token.Proper])

theorem scans_openBrace : (mark "\x7b").Scans fun _ => .mark '\x7b' := scans_mark rfl (by simp [Token.Proper])

theorem scans_closeBrace : (mark "\x7d").Scans fun _ => .mark '\x7d' := scans_mark rfl (by simp [Token.Proper])

theorem scans_comma : comma.Scans fun _ => .mark ',' :=
  have h : (mark ",").Scans fun _ => .mark ',' := scans_mark rfl (by simp [Token.Proper])
  ⟨h.lexes, h.reads⟩

/-- An identifier is the longest run of word characters, so it ends where no more of them follow. -/
theorem scans_identifier : identifier.Scans Token.word where
  lexes := by
    intro c name c' h
    obtain ⟨d, _, hnext, run, _, hspan, _, _, hlayout, hname⟩ : ∃ _ _, _ ∧ ∃ _ _, _ ∧ ∃ _ _, _ ∧ _ := by
      simpa only [identifier, reads_bind] using h
    obtain ⟨after, hrest, hd, rfl⟩ := reads_next.mp hnext
    obtain ⟨rfl, rfl⟩ := reads_span.mp hspan
    obtain ⟨rfl, rfl⟩ := reads_pure.mp hname
    have hchars : c.rest = (Token.word (String.ofList (d :: after.takeWhile isWordChar))).chars ++
        after.dropWhile isWordChar := by
      simp [Token.chars, hrest]
    have hid : IsIdentifier (String.ofList (d :: after.takeWhile isWordChar)) :=
      ⟨d, _, String.toList_ofList, hd, List.all_eq_true.mp List.all_takeWhile⟩
    rw [rest_of_reads_layout hlayout, hchars]
    refine .cons hid (fun _ e he => ?_) .nil
    have := List.head?_dropWhile_not isWordChar after
    rw [Option.mem_def.mp he] at this
    exact this
  reads := by
    intro c name ts rest h
    generalize hcs : c.rest = cs at h
    cases h with
    | @cons _ _ after _ hid hend h =>
      obtain ⟨d, run, hname, hd, -⟩ := id hid
      have htake := IsIdentifier.takeWhile_append hid (hend rfl)
      have hdrop : (run ++ after).dropWhile isWordChar = after := by
        have happ := List.takeWhile_append_dropWhile (p := isWordChar) (l := name.toList ++ after)
        rw [htake, List.append_cancel_left_eq, hname, List.cons_append,
          List.dropWhile_cons_of_pos (isWordChar_of_isWordStart hd)] at happ
        exact happ
      rw [hname, List.cons_append, List.takeWhile_cons_of_pos (isWordChar_of_isWordStart hd), List.cons.injEq] at htake
      have hnext : (next isWordStart).Reads c d (c.advance 1 (run ++ after)) :=
        reads_next.mpr ⟨_, by rw [hcs, Token.chars, hname]; rfl, hd, rfl⟩
      have hspan : (span isWordChar).Reads (c.advance 1 (run ++ after)) run
          ((c.advance 1 (run ++ after)).advance run.length after) :=
        reads_span.mpr ⟨htake.2.symm, congrArg _ hdrop.symm⟩
      obtain ⟨c', hlayout, hrest⟩ := exists_reads_layout ((c.advance 1 (run ++ after)).advance run.length after)
      refine ⟨c', hnext.bind (hspan.bind (hlayout.bind (reads_pure.mpr ⟨?_, rfl⟩))), ?_⟩
      · rw [← hname, String.ofList_toList]
      · rw [hrest]
        exact h

/-- A rule that starts with a keyword fails where another token stands. -/
theorem fails_keyword_bind {α : Type} {f : Unit → Parser α} (hw : IsIdentifier w) (hhead : ts.head? ≠ some (.word w))
    (hts : Lexes ts c.rest []) : (keyword w >>= f).Fails c := by
  rw [fails_iff]
  intro a c' h
  obtain ⟨u, d, hk, -⟩ := reads_bind.mp h
  exact fails_iff.mp ((scans_keyword hw).fails (fun _ => hhead) hts) u d hk

/-! ## Targets of a switch -/

theorem accounts_target :
    (comma >>= fun _ => identifier).Accounts (fun u => [.mark ',', .word u]) IsIdentifier := by
  intro c u c' h
  obtain ⟨_, d, hc, hu⟩ := reads_bind.mp h
  have hword := scans_identifier.lexes hu
  exact ⟨hword.proper, (scans_comma.lexes hc).append hword⟩

theorem consumes_target : (comma >>= fun _ => identifier).Consumes := accounts_target.consumes (by simp)

theorem finds_target :
    (comma >>= fun _ => identifier).Finds (fun u => [.mark ',', .word u]) IsIdentifier fun _ => True := by
  intro c u ts _ _ hlex
  obtain ⟨d, hc, hrest⟩ := @scans_comma.reads c () _ _ hlex
  obtain ⟨c', hu, hts⟩ := scans_identifier.reads hrest
  exact ⟨c', hc.bind hu, hts⟩

theorem accounts_targets :
    (identifier.separated comma).Accounts commaTokens fun us => us ≠ [] ∧ ∀ u ∈ us, IsIdentifier u := by
  intro c us c' h
  obtain ⟨u, vs, d, rfl, hu, hvs⟩ := (reads_separated consumes_target).mp h
  have hword := scans_identifier.lexes hu
  obtain ⟨hgood, hlex⟩ := hvs.accounts accounts_target
  rw [commaTokens_cons]
  exact ⟨⟨List.cons_ne_nil u vs, List.forall_mem_cons.mpr ⟨hword.proper, hgood⟩⟩, hword.append hlex⟩

theorem finds_targets :
    (identifier.separated comma).Finds commaTokens (fun us => us ≠ [] ∧ ∀ u ∈ us, IsIdentifier u)
      fun ts => ts.head? ≠ some (.mark ',') := by
  rintro c us ts ⟨hne, hgood⟩ hhead hlex
  obtain ⟨u, vs, rfl⟩ := List.exists_cons_of_ne_nil hne
  rw [commaTokens_cons, List.cons_append] at hlex
  obtain ⟨d, hu, hrest⟩ := scans_identifier.reads hlex
  have hstop : ∀ {c : Cursor}, Lexes ts c.rest [] → (comma >>= fun _ => identifier).Fails c := fun hts =>
    accounts_target.fails (fun v => ⟨_, _, rfl, hhead⟩) hts
  obtain ⟨c', hvs, hts⟩ := finds_target.repeats hstop (fun _ _ => trivial) (List.forall_mem_cons.mp hgood).2 hrest
  exact ⟨c', (reads_separated consumes_target).mpr ⟨u, vs, d, rfl, hu, hvs⟩, hts⟩

/-! ## Instructions -/

/-- An instruction of a keyword and a name. -/
theorem accounts_unary {mk : String → Instruction} (hw : IsIdentifier w)
    (htokens : ∀ n, (mk n).tokens = [.word w, .word n]) (hnames : ∀ n, (mk n).names = [n]) :
    (keyword w >>= fun _ => identifier >>= fun n => pure (mk n)).Accounts Instruction.tokens
      Instruction.Spellable := by
  intro c i c' h
  obtain ⟨_, d, hk, h⟩ := reads_bind.mp h
  obtain ⟨n, e, hn, h⟩ := reads_bind.mp h
  obtain ⟨rfl, rfl⟩ := reads_pure.mp h
  have hword := scans_identifier.lexes hn
  have hname : IsIdentifier n := hword.proper
  refine ⟨⟨by simpa [hnames] using hname, fun heq => ?_⟩, ?_⟩
  · have := htokens n
    rw [heq] at this
    cases this
  · rw [htokens]
    exact ((scans_keyword hw).lexes hk).append hword

theorem exists_reads_unary (mk : String → Instruction) {n : String} (hw : IsIdentifier w)
    (h : Lexes (.word w :: .word n :: ts) c.rest []) :
    ∃ c', (keyword w >>= fun _ => identifier >>= fun n => pure (mk n)).Reads c (mk n) c' ∧ Lexes ts c'.rest [] := by
  obtain ⟨d, hk, h⟩ := @(scans_keyword hw).reads c () _ _ h
  obtain ⟨c', hn, hts⟩ := scans_identifier.reads h
  exact ⟨c', hk.bind (hn.bind (.pure _ _)), hts⟩

/-- An instruction of a keyword alone. -/
theorem accounts_bare {i : Instruction} (hw : IsIdentifier w) (htokens : i.tokens = [.word w]) (hi : i.Spellable) :
    (keyword w >>= fun _ => pure i).Accounts Instruction.tokens Instruction.Spellable := by
  intro c j c' h
  obtain ⟨_, d, hk, h⟩ := reads_bind.mp h
  obtain ⟨rfl, rfl⟩ := reads_pure.mp h
  rw [htokens]
  exact ⟨hi, (scans_keyword hw).lexes hk⟩

theorem exists_reads_bare (i : Instruction) (hw : IsIdentifier w) (h : Lexes (.word w :: ts) c.rest []) :
    ∃ c', (keyword w >>= fun _ => pure i).Reads c i c' ∧ Lexes ts c'.rest [] := by
  obtain ⟨c', hk, hts⟩ := @(scans_keyword hw).reads c () _ _ h
  exact ⟨c', hk.bind (.pure _ _), hts⟩

theorem accounts_instructionKind : instructionKind.Accounts Instruction.tokens Instruction.Spellable := by
  unfold instructionKind
  refine .orElse ?call (.orElse ?op (.orElse ?br (.orElse ?cbr (.orElse ?switch (.orElse ?ret ?unreachable)))))
  case call => exact accounts_unary (by decide) (fun _ => rfl) fun _ => rfl
  case op => exact accounts_unary (by decide) (fun _ => rfl) fun _ => rfl
  case br => exact accounts_unary (by decide) (fun _ => rfl) fun _ => rfl
  case cbr =>
    intro c i c' h
    obtain ⟨_, _, hk, h⟩ := reads_bind.mp h
    obtain ⟨t, _, ht, h⟩ := reads_bind.mp h
    obtain ⟨_, _, hc, h⟩ := reads_bind.mp h
    obtain ⟨e, _, he, h⟩ := reads_bind.mp h
    obtain ⟨rfl, rfl⟩ := reads_pure.mp h
    have hthen := scans_identifier.lexes ht
    have helse := scans_identifier.lexes he
    have hkey := (scans_keyword (by decide)).lexes hk
    refine ⟨⟨?_, fun heq => by cases heq⟩, hkey.append (hthen.append ((scans_comma.lexes hc).append helse))⟩
    simpa [Instruction.names, Instruction.targets] using ⟨hthen.proper, helse.proper⟩
  case switch =>
    intro c i c' h
    obtain ⟨_, _, hk, h⟩ := reads_bind.mp h
    obtain ⟨us, _, hus, h⟩ := reads_bind.mp h
    obtain ⟨rfl, rfl⟩ := reads_pure.mp h
    obtain ⟨⟨hne, hgood⟩, hlex⟩ := accounts_targets _ _ _ hus
    exact ⟨⟨hgood, by simpa using hne⟩, ((scans_keyword (by decide)).lexes hk).append hlex⟩
  case ret => exact accounts_bare (by decide) rfl (by decide)
  case unreachable => exact accounts_bare (by decide) rfl (by decide)

/-- The rules for instructions exclude each other by their keywords. -/
theorem finds_instructionKind :
    instructionKind.Finds Instruction.tokens Instruction.Spellable fun ts => ts.head? ≠ some (.mark ',') := by
  intro c i ts hi hhead hlex
  have hskip : ∀ {w} {f : Unit → Parser Instruction} {q : Parser Instruction} {c' : Cursor},
      IsIdentifier w → i.keyword ≠ w → q.Reads c i c' → (keyword w >>= f <|> q).Reads c i c' := by
    intro w f q c' hw hne h
    obtain ⟨us, hi⟩ := i.tokens_eq_keyword
    exact h.orElse_of_fails (fails_keyword_bind hw (by simpa [hi] using hne) hlex)
  cases i with
  | call n =>
    obtain ⟨c', hread, hts⟩ := exists_reads_unary .call (by decide) hlex
    exact ⟨c', hread.orElse, hts⟩
  | op n =>
    obtain ⟨c', hread, hts⟩ := exists_reads_unary .op (by decide) hlex
    exact ⟨c', hskip (by decide) (by simp) hread.orElse, hts⟩
  | br t =>
    obtain ⟨c', hread, hts⟩ := exists_reads_unary .br (by decide) hlex
    refine ⟨c', ?_, hts⟩
    iterate 2 refine hskip (by decide) (by simp) ?_
    exact hread.orElse
  | cbr t e =>
    obtain ⟨d₁, hk, h⟩ := @(scans_keyword (w := "cbr") (by decide)).reads c () _ _ hlex
    obtain ⟨d₂, ht, h⟩ := scans_identifier.reads h
    obtain ⟨d₃, hc, h⟩ := @scans_comma.reads d₂ () _ _ h
    obtain ⟨c', he, hts⟩ := scans_identifier.reads h
    refine ⟨c', ?_, hts⟩
    iterate 3 refine hskip (by decide) (by simp) ?_
    refine .orElse ?_
    exact hk.bind (ht.bind (hc.bind (he.bind (.pure _ _))))
  | switch us =>
    obtain ⟨d, hk, h⟩ := @(scans_keyword (w := "switch") (by decide)).reads c () _ _ hlex
    obtain ⟨c', hus, hts⟩ := finds_targets d us ts ⟨by simpa using hi.2, hi.1⟩ hhead h
    refine ⟨c', ?_, hts⟩
    iterate 4 refine hskip (by decide) (by simp) ?_
    refine .orElse ?_
    exact hk.bind (hus.bind (.pure _ _))
  | ret =>
    obtain ⟨c', hread, hts⟩ := exists_reads_bare .ret (by decide) hlex
    refine ⟨c', ?_, hts⟩
    iterate 5 refine hskip (by decide) (by simp) ?_
    exact hread.orElse
  | unreachable =>
    obtain ⟨c', hread, hts⟩ := exists_reads_bare .unreachable (by decide) hlex
    refine ⟨c', ?_, hts⟩
    iterate 6 refine hskip (by decide) (by simp) ?_
    exact hread

/-- Tokens that start a block: a word with a colon behind it. -/
def StartsBlock (ts : List Token) : Prop := ∃ w us, ts = .word w :: .mark ':' :: us

/-- The look-ahead of an instruction tells a block's start. -/
theorem fails_label_iff (hts : Lexes ts c.rest []) :
    (identifier >>= fun _ => literal ":").Fails c ↔ ¬StartsBlock ts := by
  rw [fails_iff]
  constructor
  · rintro h ⟨w, us, rfl⟩
    obtain ⟨d, hw, hrest⟩ := scans_identifier.reads hts
    generalize hcs : d.rest = cs at hrest
    cases hrest with
    | cons => exact h () _ (hw.bind (reads_literal.mpr ⟨_, hcs, rfl⟩))
  · intro h u c' hread
    obtain ⟨w, d, hw, hlit⟩ := reads_bind.mp hread
    obtain ⟨after, hrest, rfl⟩ := reads_literal.mp hlit
    have hcolon : Lexes [.mark ':'] d.rest (behindLayout after) := by
      rw [hrest]
      exact .cons (by simp [Token.Proper]) (fun hword => by cases hword) .nil
    obtain ⟨us, rfl, -⟩ := ((scans_identifier.lexes hw).append hcolon).split hts
    exact h ⟨w, us, rfl⟩

theorem reads_instruction {i : Instruction} :
    instruction.Reads c i c' ↔ (identifier >>= fun _ => literal ":").Fails c ∧ instructionKind.Reads c i c' := by
  unfold instruction
  rw [reads_bind]
  simp only [reads_absent]
  constructor
  · rintro ⟨_, _, ⟨hfails, rfl⟩, h⟩
    exact ⟨hfails, h⟩
  · rintro ⟨hfails, h⟩
    exact ⟨(), c, ⟨hfails, rfl⟩, h⟩

theorem accounts_instruction : instruction.Accounts Instruction.tokens Instruction.Spellable :=
  fun c i c' h => accounts_instructionKind c i c' (reads_instruction.mp h).2

theorem consumes_instruction : instruction.Consumes :=
  accounts_instruction.consumes fun i => by
    obtain ⟨us, hi⟩ := i.tokens_eq_keyword
    simp [hi]

/-- An instruction is taken for a block only by the colon that follows it. -/
theorem not_startsBlock {i : Instruction} (hi : i.Spellable) (hhead : ts.head? ≠ some (.mark ':')) :
    ¬StartsBlock (i.tokens ++ ts) := by
  rintro ⟨w, us, h⟩
  cases i with
  | switch vs =>
    obtain ⟨v, vs, rfl⟩ := List.exists_cons_of_ne_nil (fun hnil => hi.2 (congrArg _ hnil))
    simp [Instruction.tokens, commaTokens_cons] at h
  | cbr t e => simp [Instruction.tokens, commaTokens_cons] at h
  | _ => simp_all [Instruction.tokens]

theorem finds_instruction : instruction.Finds Instruction.tokens Instruction.Spellable
    fun ts => ts.head? ≠ some (.mark ',') ∧ ts.head? ≠ some (.mark ':') := by
  rintro c i ts hi ⟨hcomma, hcolon⟩ hlex
  obtain ⟨c', hread, hts⟩ := finds_instructionKind c i ts hi hcomma hlex
  exact ⟨c', reads_instruction.mpr ⟨(fails_label_iff hlex).mpr (not_startsBlock hi hcolon), hread⟩, hts⟩

/-! ## Blocks -/

/-- Tokens that end a block: those of the next one, or the brace that closes the function. -/
def EndsBlock (ts : List Token) : Prop := StartsBlock ts ∨ ts.head? = some (.mark '\x7d')

theorem EndsBlock.fails_instruction (h : EndsBlock ts) (hts : Lexes ts c.rest []) : instruction.Fails c := by
  rcases h with hstart | hbrace
  · rw [fails_iff]
    intro i c' hread
    exact (fails_label_iff hts).mp (reads_instruction.mp hread).1 hstart
  · refine accounts_instruction.fails (fun i => ?_) hts
    obtain ⟨us, hi⟩ := i.tokens_eq_keyword
    exact ⟨_, us, hi, by simp [hbrace]⟩

/-- No comma and no colon stands between the instructions of a block or behind the last of them. -/
theorem EndsBlock.head?_ne {m : Char} (h : EndsBlock ts) (is : List Instruction) (hm : m ≠ '\x7d') :
    (is.flatMap Instruction.tokens ++ ts).head? ≠ some (.mark m) := by
  cases is with
  | nil =>
    rcases h with ⟨w, us, rfl⟩ | hbrace
    · simp
    · simpa [hbrace] using hm.symm
  | cons i is =>
    obtain ⟨us, hi⟩ := i.tokens_eq_keyword
    simp [hi]

theorem accounts_block : block.Accounts Block.tokens Block.Spellable := by
  intro c b c' h
  obtain ⟨label, _, hlabel, h⟩ := reads_bind.mp h
  obtain ⟨_, _, hcolon, h⟩ := reads_bind.mp h
  obtain ⟨body, _, hbody, h⟩ := reads_bind.mp h
  obtain ⟨rfl, rfl⟩ := reads_pure.mp h
  have hword := scans_identifier.lexes hlabel
  obtain ⟨hgood, hlex⟩ := ((reads_many consumes_instruction).mp hbody).accounts accounts_instruction
  exact ⟨⟨hword.proper, hgood⟩, hword.append ((scans_colon.lexes hcolon).append hlex)⟩

theorem consumes_block : block.Consumes := accounts_block.consumes fun _ => List.cons_ne_nil _ _

theorem finds_block : block.Finds Block.tokens Block.Spellable EndsBlock := by
  intro c b ts hb hends hlex
  obtain ⟨d, hlabel, h⟩ := scans_identifier.reads hlex
  obtain ⟨d', hcolon, h⟩ := @scans_colon.reads d () _ _ h
  have hnext (is : List Instruction) (_ : ∀ i ∈ is, i.Spellable) :=
    And.intro (hends.head?_ne is (m := ',') (by decide)) (hends.head?_ne is (m := ':') (by decide))
  obtain ⟨c', hbody, hts⟩ := finds_instruction.repeats (fun hts => hends.fails_instruction hts) hnext hb.2 h
  exact ⟨c', hlabel.bind (hcolon.bind (((reads_many consumes_instruction).mpr hbody).bind (.pure _ _))), hts⟩

/-! ## Functions and programs -/

theorem endsBlock_blocks (bs : List Block) (ts : List Token) :
    EndsBlock (bs.flatMap Block.tokens ++ .mark '\x7d' :: ts) := by
  cases bs with
  | nil => exact .inr rfl
  | cons b bs => exact .inl ⟨b.label, _, rfl⟩

theorem accounts_function : function.Accounts Function.tokens Function.Spellable := by
  intro c f c' h
  obtain ⟨_, _, hfn, h⟩ := reads_bind.mp h
  obtain ⟨name, _, hname, h⟩ := reads_bind.mp h
  obtain ⟨_, _, hopen, h⟩ := reads_bind.mp h
  obtain ⟨blocks, _, hblocks, h⟩ := reads_bind.mp h
  obtain ⟨_, _, hclose, h⟩ := reads_bind.mp h
  obtain ⟨rfl, rfl⟩ := reads_pure.mp h
  have hword := scans_identifier.lexes hname
  obtain ⟨hgood, hlex⟩ := ((reads_many consumes_block).mp hblocks).accounts accounts_block
  have hhead := ((scans_keyword (by decide)).lexes hfn).append (hword.append (scans_openBrace.lexes hopen))
  exact ⟨⟨hword.proper, hgood⟩, (hhead.append hlex).append (scans_closeBrace.lexes hclose)⟩

theorem consumes_function : function.Consumes := accounts_function.consumes fun _ => List.cons_ne_nil _ _

theorem finds_function : function.Finds Function.tokens Function.Spellable fun _ => True := by
  intro c f ts hf _ hlex
  rw [f.tokens_append] at hlex
  obtain ⟨d₁, hfn, h⟩ := @(scans_keyword (by decide)).reads c () _ _ hlex
  obtain ⟨d₂, hname, h⟩ := scans_identifier.reads h
  obtain ⟨d₃, hopen, h⟩ := @scans_openBrace.reads d₂ () _ _ h
  have hstop : ∀ {c : Cursor}, Lexes (.mark '\x7d' :: ts) c.rest [] → block.Fails c := fun hlex =>
    accounts_block.fails (fun b => ⟨_, _, rfl, by simp⟩) hlex
  obtain ⟨d₄, hblocks, h⟩ := finds_block.repeats hstop (fun bs _ => endsBlock_blocks bs ts) hf.2 h
  obtain ⟨c', hclose, hts⟩ := @scans_closeBrace.reads d₄ () _ _ h
  have hblocks := (reads_many consumes_block).mpr hblocks
  exact ⟨c', hfn.bind (hname.bind (hopen.bind (hblocks.bind (hclose.bind (.pure _ _))))), hts⟩

theorem fails_function_at_end (h : Lexes [] c.rest []) : function.Fails c :=
  accounts_function.fails (fun _ => ⟨_, _, rfl, by simp⟩) h

/-- The grammar reads a program exactly where its tokens are found, behind layout and to the end. -/
theorem exists_reads_program_iff {p : Program} :
    (∃ c', program.Reads c p c') ↔ p.Spellable ∧ Lexes p.tokens (behindLayout c.rest) [] := by
  constructor
  · rintro ⟨c', h⟩
    obtain ⟨_, _, hlayout, h⟩ := reads_bind.mp h
    obtain ⟨fs, _, hfs, h⟩ := reads_bind.mp h
    obtain ⟨_, _, hend, h⟩ := reads_bind.mp h
    obtain ⟨rfl, rfl⟩ := reads_pure.mp h
    obtain ⟨hnil, rfl⟩ := reads_endOfInput.mp hend
    obtain ⟨hgood, hlex⟩ := ((reads_many consumes_function).mp hfs).accounts accounts_function
    rw [hnil, rest_of_reads_layout hlayout] at hlex
    exact ⟨hgood, hlex⟩
  · rintro ⟨hp, hlex⟩
    obtain ⟨d, hlayout, hrest⟩ := exists_reads_layout c
    rw [← hrest] at hlex
    have hlex : Lexes (p.functions.flatMap Function.tokens ++ []) d.rest [] := by
      rwa [List.append_nil]
    obtain ⟨c', hfs, hnil⟩ := finds_function.repeats fails_function_at_end (fun _ _ => trivial) hp hlex
    have hend : endOfInput.Reads c' () c' := reads_endOfInput.mpr ⟨lexes_nil_iff.mp hnil, rfl⟩
    exact ⟨c', hlayout.bind (((reads_many consumes_function).mpr hfs).bind (hend.bind (.pure _ _)))⟩

end Grammar

/-! ## Whole texts -/

namespace Program

variable {p : Program} {text : List Char}

theorem read_eq_ok_iff_reads : read text = .ok p ↔ ∃ c', Grammar.program.Reads ⟨0, text⟩ p c' := by
  unfold read Parser.Reads
  split
  next q c e h => simp [h]
  next e h => simp [h]

theorem read_eq_ok_iff_lexes : read text = .ok p ↔ p.Spellable ∧ Lexes p.tokens (behindLayout text) [] := by
  rw [read_eq_ok_iff_reads, Grammar.exists_reads_program_iff]

/-- **The texts of the grammar**: a text is read as a program exactly if the program can be spelled and the text spells
its tokens. -/
theorem read_iff_spells (text : List Char) (p : Program) :
    read text = .ok p ↔ p.Spellable ∧ Spells false p.tokens text := by
  rw [read_eq_ok_iff_lexes]
  refine and_congr_right fun hp => ?_
  rw [spells_iff_lexes hp.proper]
  simp

end Program

end Waymark
