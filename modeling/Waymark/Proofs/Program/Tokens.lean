import Waymark.Program.Spelling

/-!
# Texts as tokens

A text spells tokens with layout between them (`Spells`). To compare this with a parser, which skips layout as soon as
it has read a token, the same is told with what stands behind the layout (`behindLayout`): a text starts with tokens,
and something is left behind them and the layout that follows (`Lexes`). A word ends where no word character follows
it. Both accounts agree (`spells_iff_lexes`), and no text starts with two different tokens (`Lexes.token_unique`).
-/

namespace Waymark

/-! ## Layout -/

/-- What stands behind the layout at the start of a text. -/
def behindLayout (cs : List Char) : List Char := (skipLayout false 0 cs).rest

section Layout

variable {c : Char} {cs text : List Char}

/-- What layout leaves does not depend on where it stands. -/
theorem rest_skipLayout (inComment : Bool) (m n : Nat) (cs : List Char) :
    (skipLayout inComment m cs).rest = (skipLayout inComment n cs).rest := by
  induction cs generalizing inComment m n with
  | nil => rfl
  | cons c cs ih =>
    unfold skipLayout
    split
    · exact ih _ _ _
    · split
      · exact ih _ _ _
      · split
        · exact ih _ _ _
        · rfl

/-- A comment goes on up to the first end of a line. -/
theorem rest_skipLayout_comment (ht : ∀ d ∈ text, isLineEnd d = false) (n : Nat) (cs : List Char) :
    (skipLayout true n (text ++ cs)).rest = (skipLayout true 0 cs).rest := by
  induction text generalizing n with
  | nil => exact rest_skipLayout ..
  | cons d text ih =>
    rw [List.forall_mem_cons] at ht
    rw [List.cons_append, skipLayout, if_pos rfl, ht.1]
    exact ih ht.2 _

theorem behindLayout_blank (hc : isBlank c = true) : behindLayout (c :: cs) = behindLayout cs := by
  rw [behindLayout, skipLayout, if_neg (by simp), if_pos hc]
  exact rest_skipLayout ..

theorem behindLayout_slashes : behindLayout ('/' :: '/' :: cs) = (skipLayout true 0 cs).rest := by
  rw [behindLayout, skipLayout, if_neg (by simp), if_neg (by decide), if_pos ⟨rfl, rfl⟩]
  exact @rest_skipLayout_comment ['/'] (List.forall_mem_singleton.mpr rfl) _ _

theorem behindLayout_comment (ht : ∀ d ∈ text, isLineEnd d = false) (hc : isLineEnd c = true) :
    behindLayout ('/' :: '/' :: text ++ c :: cs) = behindLayout cs := by
  rw [List.cons_append, List.cons_append, behindLayout_slashes, rest_skipLayout_comment ht, skipLayout, if_pos rfl, hc]
  exact rest_skipLayout ..

/-- A comment may run out with the text. -/
theorem behindLayout_openComment (ht : ∀ d ∈ text, isLineEnd d = false) :
    behindLayout ('/' :: '/' :: text) = [] := by
  rw [behindLayout_slashes, ← List.append_nil text, rest_skipLayout_comment ht]
  rfl

theorem behindLayout_of_stop (hb : isBlank c = false) (hs : ¬(c = '/' ∧ cs.head? = some '/')) :
    behindLayout (c :: cs) = c :: cs := by
  rw [behindLayout, skipLayout, if_neg (by simp), if_neg (by simp [hb]), if_neg hs]

theorem Layout.behindLayout_append {l : List Char} (h : Layout l) (cs : List Char) :
    behindLayout (l ++ cs) = behindLayout cs := by
  induction h with
  | nil => rfl
  | blank hc _ ih => rw [List.cons_append, behindLayout_blank hc, ih]
  | comment ht hc _ ih =>
    rw [List.append_assoc]
    exact (behindLayout_comment ht hc).trans ih

theorem LastLayout.behindLayout_eq_nil (h : LastLayout cs) : behindLayout cs = [] := by
  cases h with
  | layout h =>
    rw [← List.append_nil cs, h.behindLayout_append]
    rfl
  | comment h ht => rw [h.behindLayout_append, behindLayout_openComment ht]

/-- A comment ends with a line or with the text. -/
theorem comment_cases (cs : List Char) :
    (∀ d ∈ cs, isLineEnd d = false) ∨
      ∃ text c rest, cs = text ++ c :: rest ∧ (∀ d ∈ text, isLineEnd d = false) ∧ isLineEnd c = true := by
  induction cs with
  | nil => exact .inl (by simp)
  | cons d cs ih =>
    cases hd : isLineEnd d with
    | true => exact .inr ⟨[], d, cs, rfl, by simp, hd⟩
    | false =>
      rcases ih with hall | ⟨text, c, rest, rfl, ht, hc⟩
      · exact .inl (List.forall_mem_cons.mpr ⟨hd, hall⟩)
      · exact .inr ⟨d :: text, c, rest, rfl, List.forall_mem_cons.mpr ⟨hd, ht⟩, hc⟩

theorem Layout.append {l m : List Char} (hl : Layout l) (hm : Layout m) : Layout (l ++ m) := by
  induction hl with
  | nil => exact hm
  | blank hc _ ih => exact .blank hc ih
  | comment ht hc _ ih =>
    rw [List.append_assoc, List.cons_append]
    exact .comment ht hc ih

theorem Layout.lastLayout_append {l : List Char} (hl : Layout l) (h : LastLayout cs) : LastLayout (l ++ cs) := by
  cases h with
  | layout h => exact .layout (hl.append h)
  | comment h ht =>
    rw [← List.append_assoc]
    exact .comment (hl.append h) ht

/-- Every text starts with layout, and what stands behind it is told by `behindLayout`. -/
theorem layout_cases (cs : List Char) :
    (LastLayout cs ∧ behindLayout cs = []) ∨ ∃ l, Layout l ∧ cs = l ++ behindLayout cs := by
  -- the text shrinks by a blank or by a whole comment
  induction h : cs.length using Nat.strongRecOn generalizing cs with
  | ind n ih =>
    have more : ∀ rest l, Layout l → l ≠ [] → cs = l ++ rest →
        (LastLayout cs ∧ behindLayout cs = []) ∨ ∃ l, Layout l ∧ cs = l ++ behindLayout cs := by
      intro rest l hl hne hcs
      have hlt : rest.length < n := by
        have := List.length_pos_iff.mpr hne
        rw [← h, hcs, List.length_append]
        omega
      rw [hcs, hl.behindLayout_append]
      rcases ih _ hlt rest rfl with ⟨hlast, hnil⟩ | ⟨m, hm, hrest⟩
      · exact .inl ⟨hl.lastLayout_append hlast, hnil⟩
      · refine .inr ⟨l ++ m, hl.append hm, ?_⟩
        rw [List.append_assoc, ← hrest]
    cases cs with
    | nil => exact .inr ⟨[], .nil, rfl⟩
    | cons c cs =>
      cases hb : isBlank c with
      | true => exact more cs [c] (.blank hb .nil) (by simp) rfl
      | false =>
        by_cases hs : c = '/' ∧ cs.head? = some '/'
        · obtain ⟨rfl, hhead⟩ := hs
          obtain ⟨cs, rfl⟩ : ∃ rest, cs = '/' :: rest := List.head?_eq_some_iff.mp hhead
          rcases comment_cases cs with hall | ⟨text, c, rest, rfl, ht, hc⟩
          · exact .inl ⟨.comment .nil hall, behindLayout_openComment hall⟩
          · exact more rest _ (.comment ht hc .nil) (by simp) (by simp)
        · rw [behindLayout_of_stop hb hs]
          exact .inr ⟨[], .nil, rfl⟩

theorem length_behindLayout_le (cs : List Char) : (behindLayout cs).length ≤ cs.length := by
  rcases layout_cases cs with ⟨-, hnil⟩ | ⟨l, -, hcs⟩
  · simp [hnil]
  · have := congrArg List.length hcs
    rw [List.length_append] at this
    omega

end Layout

/-! ## Tokens -/

/-- No word goes on at the start of the text. -/
def WordEnd (cs : List Char) : Prop := ∀ d ∈ cs.head?, isWordChar d = false

theorem isWordChar_of_isWordStart {c : Char} (h : isWordStart c = true) : isWordChar c = true := by
  simp [isWordChar, h]

/-- Layout consists of characters that stand in no word. -/
theorem isWordChar_of_isBlank {c : Char} (h : isBlank c = true) : isWordChar c = false := by
  simp only [isBlank, isLineEnd, Bool.or_eq_true, decide_eq_true_eq] at h
  rcases h with (rfl | rfl) | (rfl | rfl) <;> decide

theorem Layout.wordEnd {l : List Char} (h : Layout l) (hne : l ≠ []) (cs : List Char) : WordEnd (l ++ cs) := by
  intro d hd
  cases h with
  | nil => exact absurd rfl hne
  | blank hc =>
    cases hd
    exact isWordChar_of_isBlank hc
  | comment =>
    cases hd
    decide

theorem LastLayout.wordEnd {cs : List Char} (h : LastLayout cs) : WordEnd cs := by
  cases h with
  | layout h =>
    by_cases hne : cs = []
    · rw [hne]
      intro d hd
      cases hd
    · rw [← List.append_nil cs]
      exact h.wordEnd hne []
  | @comment l text h =>
    by_cases hne : l = []
    · rw [hne]
      intro d hd
      cases hd
      decide
    · exact h.wordEnd hne _

instance (name : String) : Decidable (IsIdentifier name) :=
  decidable_of_iff (name.toList.head?.any isWordStart && name.toList.tail.all isWordChar) <| by
    unfold IsIdentifier
    cases name.toList with
    | nil => simp
    | cons c cs => simp [and_assoc]

instance (i : Instruction) : Decidable i.Spellable :=
  inferInstanceAs (Decidable ((∀ n ∈ i.names, IsIdentifier n) ∧ i ≠ .switch []))

instance (b : Block) : Decidable b.Spellable :=
  inferInstanceAs (Decidable (IsIdentifier b.label ∧ ∀ i ∈ b.body, i.Spellable))

instance (f : Function) : Decidable f.Spellable :=
  inferInstanceAs (Decidable (IsIdentifier f.name ∧ ∀ b ∈ f.blocks, b.Spellable))

instance (p : Program) : Decidable p.Spellable :=
  inferInstanceAs (Decidable (∀ f ∈ p.functions, f.Spellable))

namespace IsIdentifier

variable {name : String} {after : List Char}

theorem forall_isWordChar (h : IsIdentifier name) : ∀ d ∈ name.toList, isWordChar d = true := by
  obtain ⟨c, cs, hname, hc, hcs⟩ := h
  rw [hname, List.forall_mem_cons]
  exact ⟨isWordChar_of_isWordStart hc, hcs⟩

/-- An identifier is read to its end and no further. -/
theorem takeWhile_append (h : IsIdentifier name) (hend : WordEnd after) :
    (name.toList ++ after).takeWhile isWordChar = name.toList := by
  rw [List.takeWhile_append_of_pos h.forall_isWordChar, List.append_right_eq_self]
  cases after with
  | nil => rfl
  | cons d after => simp [hend d rfl]

end IsIdentifier

namespace Token

/-- A token of the language: an identifier or one of four marks. -/
def Proper : Token → Prop
  | word text => IsIdentifier text
  | mark c => c ∈ [',', ':', '{', '}']

variable {t : Token}

/-- A token shows by its first character whether it is a word, and that it is no layout. -/
theorem Proper.chars_eq (h : t.Proper) :
    ∃ c cs, t.chars = c :: cs ∧ isWordChar c = t.isWord ∧ isBlank c = false ∧ c ≠ '/' := by
  cases t with
  | word text =>
    obtain ⟨c, cs, hname, hc, -⟩ := h
    have hw := isWordChar_of_isWordStart hc
    refine ⟨c, cs, hname, hw, ?_, ?_⟩
    · rw [Bool.eq_false_iff]
      intro hb
      rw [isWordChar_of_isBlank hb] at hw
      cases hw
    · rintro rfl
      exact absurd hw (by decide)
  | mark c =>
    refine ⟨c, [], rfl, ?_⟩
    have hmarks : ∀ d ∈ [',', ':', '{', '}'], isWordChar d = false ∧ isBlank d = false ∧ d ≠ '/' := by
      simp only [List.forall_mem_cons, List.not_mem_nil, false_implies, implies_true, and_true]
      decide
    exact hmarks c h

/-- A token is not skipped as layout. -/
theorem Proper.behindLayout_append (h : t.Proper) (cs : List Char) :
    behindLayout (t.chars ++ cs) = t.chars ++ cs := by
  obtain ⟨c, ds, hchars, -, hb, hs⟩ := h.chars_eq
  rw [hchars]
  exact behindLayout_of_stop hb fun hc => hs hc.1

theorem Proper.wordEnd_iff (h : t.Proper) (cs : List Char) : WordEnd (t.chars ++ cs) ↔ t.isWord = false := by
  obtain ⟨c, ds, hchars, hw, -⟩ := h.chars_eq
  rw [hchars, ← hw]
  simp [WordEnd]

end Token

/-! ## Lexing -/

/-- The text `cs` starts with the tokens `ts`, and `rest` stands behind them and the layout that follows. -/
inductive Lexes : List Token → (cs rest : List Char) → Prop where
  | nil {cs : List Char} : Lexes [] cs cs
  | cons {t : Token} {ts : List Token} {after rest : List Char} (ht : t.Proper)
      (hend : t.isWord = true → WordEnd after) (h : Lexes ts (behindLayout after) rest) :
      Lexes (t :: ts) (t.chars ++ after) rest

theorem lexes_nil_iff {cs rest : List Char} : Lexes [] cs rest ↔ cs = rest := by
  constructor
  · intro h
    cases h
    rfl
  · rintro rfl
    exact .nil

namespace Lexes

variable {t u : Token} {ts us : List Token} {cs mid rest rest' : List Char}

theorem append (h : Lexes ts cs mid) (h' : Lexes us mid rest) : Lexes (ts ++ us) cs rest := by
  induction h with
  | nil => exact h'
  | cons ht hend _ ih => exact .cons ht hend (ih h')

theorem proper (h : Lexes (t :: ts) cs rest) : t.Proper := by
  cases h with
  | cons ht => exact ht

theorem length_le (h : Lexes ts cs rest) : rest.length ≤ cs.length := by
  induction h with
  | nil => exact Nat.le_refl _
  | @cons t _ after _ _ _ _ ih =>
    have := length_behindLayout_le after
    rw [List.length_append]
    omega

/-- Tokens take up some of the text. -/
theorem length_lt (h : Lexes ts cs rest) (hne : ts ≠ []) : rest.length < cs.length := by
  cases h with
  | nil => exact absurd rfl hne
  | @cons t _ after _ ht _ h =>
    obtain ⟨c, ds, hchars, -⟩ := ht.chars_eq
    have := h.length_le
    have := length_behindLayout_le after
    rw [hchars, List.cons_append, List.length_cons, List.length_append]
    omega

/-- No text starts with two different tokens. -/
theorem token_unique (h : Lexes (t :: ts) cs rest) (h' : Lexes (u :: us) cs rest') : t = u := by
  cases h with
  | @cons _ _ after _ ht hend =>
    generalize hcs : t.chars ++ after = cs at h'
    cases h' with
    | @cons _ _ after' _ hu hend' =>
      obtain ⟨c, ds, hc, hcw, -⟩ := ht.chars_eq
      obtain ⟨d, es, hd, hdw, -⟩ := hu.chars_eq
      have hkind : t.isWord = u.isWord := by
        rw [hc, hd] at hcs
        rw [← hcw, ← hdw, (List.cons.inj hcs).1]
      cases t with
      | word s =>
        cases u with
        | word s' =>
          -- both are the longest run of word characters
          have hrun := congrArg (List.takeWhile isWordChar) hcs
          simp only [Token.chars] at hrun
          rw [IsIdentifier.takeWhile_append ht (hend rfl), IsIdentifier.takeWhile_append hu (hend' rfl)] at hrun
          rw [String.toList_injective hrun]
        | mark => cases hkind
      | mark m =>
        cases u with
        | word => cases hkind
        | mark m' => rw [(List.cons.inj hcs).1]

/-- Tokens at the start of a text are the first of all its tokens. -/
theorem split (h : Lexes us cs mid) (h' : Lexes ts cs []) : ∃ vs, ts = us ++ vs ∧ Lexes vs mid [] := by
  induction h generalizing ts with
  | nil => exact ⟨ts, rfl, h'⟩
  | @cons u us after _ hu hend h ih =>
    have hlex : Lexes (u :: us) (u.chars ++ after) _ := .cons hu hend h
    cases ts with
    | nil =>
      rw [lexes_nil_iff.mp h'] at hlex
      exact absurd (hlex.length_lt (List.cons_ne_nil u us)) (Nat.not_lt_zero _)
    | cons t ts =>
      obtain rfl := h'.token_unique hlex
      generalize hcs : t.chars ++ after = cs at h'
      cases h' with
      | cons _ _ h' =>
        rw [List.append_cancel_left_eq] at hcs
        obtain ⟨vs, rfl, hvs⟩ := ih (hcs ▸ h')
        exact ⟨vs, rfl, hvs⟩

end Lexes

theorem commaTokens_cons (u : String) (us : List String) :
    commaTokens (u :: us) = .word u :: us.flatMap fun v => [.mark ',', .word v] := by
  induction us generalizing u with
  | nil => rfl
  | cons v us ih =>
    have hstep : commaTokens (u :: v :: us) = .word u :: .mark ',' :: commaTokens (v :: us) := rfl
    rw [hstep, ih, List.flatMap_cons]
    rfl

theorem mem_commaTokens {t : Token} {us : List String} (h : t ∈ commaTokens us) :
    t = .mark ',' ∨ ∃ u ∈ us, t = .word u := by
  cases us with
  | nil => simp [commaTokens] at h
  | cons u us =>
    simp only [commaTokens_cons, List.mem_cons, List.mem_flatMap, List.not_mem_nil, or_false] at h
    rcases h with rfl | ⟨v, hv, rfl | rfl⟩
    · exact .inr ⟨u, List.mem_cons_self, rfl⟩
    · exact .inl rfl
    · exact .inr ⟨v, List.mem_cons_of_mem u hv, rfl⟩

namespace Instruction

/-- The word that an instruction starts with. -/
@[simp] def keyword : Instruction → String
  | call _ => "call"
  | op _ => "op"
  | br _ => "br"
  | cbr _ _ => "cbr"
  | switch _ => "switch"
  | ret => "ret"
  | unreachable => "unreachable"

theorem isIdentifier_keyword (i : Instruction) : IsIdentifier i.keyword := by
  cases i <;> (simp only [keyword]; decide)

theorem tokens_eq_keyword (i : Instruction) : ∃ us, i.tokens = .word i.keyword :: us := by
  cases i <;> exact ⟨_, rfl⟩

/-- The words of an instruction are its keyword and its names. -/
theorem mem_tokens {i : Instruction} {t : Token} (h : t ∈ i.tokens) :
    t = .word i.keyword ∨ t = .mark ',' ∨ ∃ n ∈ i.names, t = .word n := by
  cases i with
  | cbr t e => exact (List.mem_cons.mp h).imp_right mem_commaTokens
  | switch us => exact (List.mem_cons.mp h).imp_right mem_commaTokens
  | _ => grind [tokens, names, targets, keyword]

theorem Spellable.proper {i : Instruction} (hi : i.Spellable) : ∀ t ∈ i.tokens, t.Proper := by
  intro t ht
  rcases mem_tokens ht with rfl | rfl | ⟨n, hn, rfl⟩
  · exact i.isIdentifier_keyword
  · simp [Token.Proper]
  · exact hi.1 n hn

end Instruction

theorem Block.Spellable.proper {b : Block} (hb : b.Spellable) : ∀ t ∈ b.tokens, t.Proper := by
  simp only [Block.tokens, List.forall_mem_cons, List.forall_mem_flatMap]
  exact ⟨hb.1, by simp [Token.Proper], fun i hi => (hb.2 i hi).proper⟩

theorem Function.tokens_append (f : Function) (ts : List Token) :
    f.tokens ++ ts = .word "fn" :: .word f.name :: .mark '\x7b' ::
      (f.blocks.flatMap Block.tokens ++ .mark '\x7d' :: ts) := by
  simp [Function.tokens]

theorem Function.Spellable.proper {f : Function} (hf : f.Spellable) : ∀ t ∈ f.tokens, t.Proper := by
  have hmark : ∀ m ∈ ['\x7b', '\x7d'], (Token.mark m).Proper := by simp [Token.Proper]
  have hfn : IsIdentifier "fn" := by decide
  simp only [Function.tokens, List.forall_mem_append, List.forall_mem_cons, List.forall_mem_flatMap]
  exact ⟨⟨⟨hfn, hf.1, hmark _ (by simp), by simp⟩, fun b hb => (hf.2 b hb).proper⟩, hmark _ (by simp), by simp⟩

/-- A program that can be spelled has only words and marks of the language. -/
theorem Program.Spellable.proper {p : Program} (hp : p.Spellable) : ∀ t ∈ p.tokens, t.Proper :=
  List.forall_mem_flatMap.mpr fun f hf => (hp f hf).proper

/-! ## Spellings -/

/-- **Spelling and lexing agree**: a text spells tokens exactly if they are found in it to its end, from behind its
first layout on, and it does not start by going on with the word before it. -/
theorem spells_iff_lexes {afterWord : Bool} {ts : List Token} {cs : List Char} (hts : ∀ t ∈ ts, t.Proper) :
    Spells afterWord ts cs ↔ Lexes ts (behindLayout cs) [] ∧ (afterWord = true → WordEnd cs) := by
  induction ts generalizing afterWord cs with
  | nil =>
    rw [lexes_nil_iff]
    constructor
    · intro h
      cases h with
      | last h => exact ⟨h.behindLayout_eq_nil, fun _ => h.wordEnd⟩
    · rintro ⟨hnil, -⟩
      refine .last ?_
      rcases layout_cases cs with ⟨hlast, -⟩ | ⟨l, hl, hcs⟩
      · exact hlast
      · rw [hcs, hnil, List.append_nil]
        exact .layout hl
  | cons t ts ih =>
    rw [List.forall_mem_cons] at hts
    obtain ⟨ht, hts⟩ := hts
    constructor
    · intro h
      cases h with
      | @token _ l rest _ _ hl hw h =>
        obtain ⟨hlex, hend⟩ := (ih hts).mp h
        rw [List.append_assoc]
        refine ⟨?_, fun haw => ?_⟩
        · rw [hl.behindLayout_append, ht.behindLayout_append]
          exact .cons ht hend hlex
        · by_cases hne : l = []
          · rw [hne, List.nil_append, ht.wordEnd_iff, Bool.eq_false_iff]
            exact fun hword => hw haw hword hne
          · exact hl.wordEnd hne _
    · rintro ⟨hlex, haw⟩
      generalize hb : behindLayout cs = b at hlex
      cases hlex with
      | @cons _ _ after _ _ hend h =>
        rcases layout_cases cs with ⟨-, hnil⟩ | ⟨l, hl, hcs⟩
        · obtain ⟨c, ds, hchars, -⟩ := ht.chars_eq
          rw [hnil, hchars] at hb
          cases hb
        · rw [hb] at hcs
          rw [hcs, ← List.append_assoc]
          refine .token hl ?_ ((ih hts).mpr ⟨h, hend⟩)
          rintro haw' hword rfl
          rw [hcs, List.nil_append, ht.wordEnd_iff, hword] at haw
          cases haw haw'

end Waymark
