import Waymark.Program.Printer
import Waymark.Proofs.Check
import Waymark.Proofs.Program.Grammar
import Waymark.Proofs.Program.SplitRules
import Waymark.Tool

/-!
# Printed programs

The printed text of a program spells it, whatever its names are (`Program.spells_chars`). So a program that can be
spelled is read back from its text, and splitting leads from such programs to such programs
(`Program.parse_render_of_printable`).
-/

namespace Waymark

/-! ## Printed texts are spellings -/

namespace Spells

variable {afterWord : Bool} {ts : List Token} {cs : List Char}

/-- Less layout is asked for where no word went before. -/
theorem relax (h : Spells afterWord ts cs) : Spells false ts cs := by
  cases h with
  | last h => exact .last h
  | token hl _ h => exact .token hl (fun hf => by cases hf) h

/-- Blanks may be put in front of a text. -/
theorem blank {c : Char} (hc : isBlank c = true) (h : Spells false ts cs) : Spells afterWord ts (c :: cs) := by
  cases h with
  | last h =>
    cases h with
    | layout h => exact .last (.layout (.blank hc h))
    | comment h ht => exact .last (.comment (.blank hc h) ht)
  | token hl _ h => exact .token (.blank hc hl) (fun _ _ => List.cons_ne_nil _ _) h

theorem word {w : String} (h : Spells true ts cs) : Spells false (.word w :: ts) (w.toList ++ cs) :=
  .token .nil (fun hf => by cases hf) h

theorem mark {c : Char} (h : Spells false ts cs) : Spells afterWord (.mark c :: ts) (c :: cs) :=
  .token .nil (fun _ hf => by cases hf) h

end Spells

theorem commaSeparated_cons_cons (u v : String) (us : List String) :
    commaSeparated (u :: v :: us) = u.toList ++ ',' :: ' ' :: commaSeparated (v :: us) := by
  simp [commaSeparated, List.intercalate]

section

variable {ts : List Token} {cs : List Char}

theorem spells_commaSeparated {us : List String} (hne : us ≠ []) (h : Spells true ts cs) :
    Spells false (commaTokens us ++ ts) (commaSeparated us ++ cs) := by
  induction us with
  | nil => exact absurd rfl hne
  | cons u us ih =>
    cases us with
    | nil => simpa [commaTokens, commaSeparated] using h.word
    | cons v us =>
      rw [commaSeparated_cons_cons, List.append_assoc]
      exact .word (.mark (.blank rfl (ih (List.cons_ne_nil v us))))

theorem Instruction.spells_chars (i : Instruction) (h : Spells true ts cs) :
    Spells false (i.tokens ++ ts) (i.chars ++ cs) := by
  have hword (w : String) {us : List Token} {ds : List Char} (h : Spells false us ds) :
      Spells false (.word w :: us) (w.toList ++ ' ' :: ds) := .word (.blank rfl h)
  cases i with
  | call n => exact hword "call" h.word
  | op n => exact hword "op" h.word
  | br t => exact hword "br" h.word
  | cbr t e => exact hword "cbr" (spells_commaSeparated (List.cons_ne_nil _ _) h)
  | switch us =>
    cases us with
    | nil => exact hword "switch" h.relax
    | cons u us => exact hword "switch" (spells_commaSeparated (List.cons_ne_nil u us) h)
  | ret => exact h.word
  | unreachable => exact h.word

theorem Block.spells_chars (b : Block) (h : Spells false ts cs) : Spells false (b.tokens ++ ts) (b.chars ++ cs) := by
  have hbody : ∀ is : List Instruction, Spells false (is.flatMap Instruction.tokens ++ ts)
      (is.flatMap (fun i => "    ".toList ++ i.chars ++ ['\n']) ++ cs) := by
    intro is
    induction is with
    | nil => exact h
    | cons i is ih =>
      have hi := i.spells_chars (.blank (c := '\n') rfl ih)
      have hindent : Spells false _ (' ' :: ' ' :: ' ' :: ' ' :: _) :=
        .blank rfl (.blank rfl (.blank rfl (.blank rfl hi)))
      simpa using hindent
  have hchars : b.chars ++ cs =
      b.label.toList ++ ':' :: '\n' :: (b.body.flatMap (fun i => "    ".toList ++ i.chars ++ ['\n']) ++ cs) := by
    simp [Block.chars]
  rw [hchars]
  exact .word (.mark (.blank rfl (hbody b.body)))

theorem Function.spells_chars (f : Function) (h : Spells false ts cs) :
    Spells false (f.tokens ++ ts) (f.chars ++ cs) := by
  have hblocks : ∀ (bs : List Block) {ts cs}, Spells false ts cs →
      Spells false (bs.flatMap Block.tokens ++ ts) (bs.flatMap Block.chars ++ cs) := by
    intro bs
    induction bs with
    | nil => exact id
    | cons b bs ih =>
      intro ts cs h
      simpa using b.spells_chars (ih h)
  have hclose : Spells false (.mark '\x7d' :: ts) ('\x7d' :: '\n' :: cs) := .mark (.blank rfl h)
  have hopen : Spells true _ (' ' :: '\x7b' :: '\n' :: _) := .blank rfl (.mark (.blank rfl (hblocks f.blocks hclose)))
  have hchars : f.chars ++ cs = "fn".toList ++ ' ' :: (f.name.toList ++ ' ' :: '\x7b' :: '\n' ::
      (f.blocks.flatMap Block.chars ++ '\x7d' :: '\n' :: cs)) := by
    simp [Function.chars]
  rw [f.tokens_append, hchars]
  exact .word (.blank rfl (.word hopen))

/-- **Printed texts are spellings**, with any layout at the end. -/
theorem Program.spells_chars (p : Program) {cs : List Char} (hcs : LastLayout cs) :
    Spells false p.tokens (p.chars ++ cs) := by
  have hfunctions : ∀ fs : List Function, Spells false (fs.flatMap Function.tokens)
      (['\n'].intercalate (fs.map Function.chars) ++ cs) := by
    intro fs
    induction fs with
    | nil => exact .last hcs
    | cons f fs ih =>
      cases fs with
      | nil => simpa using f.spells_chars (.last hcs)
      | cons g fs =>
        have hf := f.spells_chars (.blank (c := '\n') rfl ih)
        simpa [List.intercalate] using hf
  exact hfunctions p.functions

end

/-! ## Reading back -/

theorem Options.report_of_printIr (o : Options) (h : o.printIr = true) (c : Checked) :
    ∃ rest, o.report c = c.program.render ++ "\n" ++ rest := by
  unfold Options.report
  rw [if_pos h, String.append_assoc]
  exact ⟨_, rfl⟩

namespace Program

variable {p : Program}

/-- No fault is found in a program, and it can be spelled. -/
structure Printable (p : Program) : Prop where
  verified : p.verify = .ok ()
  spellable : p.Spellable

theorem Printable.parse_chars (h : p.Printable) {cs : List Char} (hcs : LastLayout cs) :
    parse (String.ofList (p.chars ++ cs)) = .ok p := by
  rw [parse_eq_ok_iff, read_eq_ok_iff_lexes, String.toList_ofList]
  have hlexes := ((spells_iff_lexes h.spellable.proper).mp (p.spells_chars hcs)).1
  exact ⟨⟨h.spellable, hlexes⟩, verify_eq_ok_iff.mp h.verified⟩

theorem Printable.parse_render (h : p.Printable) : parse p.render = .ok p := by
  have hback := h.parse_chars (.layout .nil)
  rwa [List.append_nil] at hback

theorem Printable.parse_render_newline (h : p.Printable) : parse (p.render ++ "\n") = .ok p := by
  have hback := h.parse_chars (.layout (.blank (c := '\n') rfl .nil))
  rwa [String.ofList_append] at hback

theorem printable_of_parse {source : String} (h : parse source = .ok p) : p.Printable :=
  ⟨verify_eq_ok_iff.mpr (parse_eq_ok_iff.mp h).2, spellable_of_parse h⟩

theorem Printable.split (h : p.Printable) (marker : String) : (p.split marker).program.Printable :=
  have hwf := verify_eq_ok_iff.mp h.verified
  ⟨verify_eq_ok_iff.mpr (hwf.split marker), h.spellable.split hwf marker⟩

/-- **Printing and parsing are inverse**: a program without a fault that can be spelled is parsed back from its text.
All that is parsed is of this kind and so is all that comes of splitting it. So where the tool is asked to print the
split program, what it writes first is a text of that program. -/
theorem parse_render_of_printable :
    (∀ p : Program, p.Printable → parse p.render = .ok p) ∧
    (∀ (source : String) (p : Program), parse source = .ok p → p.Printable) ∧
    (∀ (p : Program) (marker : String), p.Printable → (p.split marker).program.Printable) ∧
    ∀ (o : Options) (source : String) (p : Program), o.printIr = true → parse source = .ok p →
      ∃ c printed rest, checkSource source o.marker o.start o.final = .ok c ∧ o.report c.value = printed ++ rest ∧
        printed = c.value.program.render ++ "\n" ∧ c.value.program = (p.split o.marker).program ∧
        parse printed = .ok (p.split o.marker).program := by
  refine ⟨fun p hp => hp.parse_render, fun source p h => printable_of_parse h, fun p marker hp => hp.split marker, ?_⟩
  intro o source p hprint hparse
  have hp := printable_of_parse hparse
  obtain ⟨g, r, hbuild, -, hquery⟩ := (verify_eq_ok_iff.mp hp.verified).exists_query o.marker o.start o.final
  have hcheck := (checkSource_eq hparse).trans (check_eq_of_query hbuild hquery)
  obtain ⟨rest, hrest⟩ := o.report_of_printIr hprint ⟨(p.split o.marker).program, g, r.value⟩
  exact ⟨_, _, rest, hcheck, hrest, rfl, rfl, (hp.split o.marker).parse_render_newline⟩

/-- Names like keywords, a label that a new block might have got, and a tracepoint call in the middle of a block. -/
theorem parse_render_keyword_names :
    let p : Program := ⟨[
      ⟨"fn", [⟨"ret", [.op "br", .call "t_a", .switch ["ret", "ret.1"]]⟩, ⟨"ret.1", [.call "t_b", .ret]⟩]⟩,
      ⟨"call", [⟨"cbr", [.cbr "cbr" "cbr"]⟩]⟩]⟩
    let o : Options := ⟨"p.ir", "a", "b", "t_", false, true, false, 0, false⟩
    p.Printable ∧ parse p.render = .ok p ∧ (p.split "t_").program ≠ p ∧ (p.split "t_").program.Printable ∧
      o.printIr = true ∧ ∃ c printed rest, checkSource p.render "t_" "a" "b" = .ok c ∧
        o.report c.value = printed ++ rest ∧ parse printed = .ok (p.split "t_").program := by
  intro p o
  obtain ⟨hback, hkind, hsplit, hprint⟩ := parse_render_of_printable
  have hp : p.Printable := ⟨by decide, by decide⟩
  obtain ⟨c, printed, rest, hcheck, hreport, -, -, hparse⟩ := hprint o p.render p rfl (hback p hp)
  exact ⟨hkind p.render p (hback p hp), hback p hp, by decide, hsplit p "t_" hp, rfl,
    c, printed, rest, hcheck, hreport, hparse⟩

end Program

end Waymark
