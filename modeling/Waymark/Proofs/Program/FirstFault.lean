import Mathlib.Data.List.Infix
import Waymark.Proofs.Program.Source

/-!
# The first fault

A program that is not well formed is refused with one fault, although much may be wrong with it. Which one it is can be
said without the search for it, level by level: `Block.Breaks` and `Function.Breaks` tell the first rule that a block or
a function breaks, and `Function.BreaksBehind` that of a function behind others. The search finds exactly that
(`Block.fault?_eq_some_iff`, `Function.fault?_eq_some_iff`), in the first function with something wrong, so that the
functions before it make up a verified program (`Program.verify_accurate`).
-/

namespace Waymark

/-! ## Broken rules -/

/-- The first of the rules for blocks that a block breaks: no terminator stands before the end, one stands at the end,
and it names labels of the function alone. -/
inductive Block.Breaks (function : String) (labels : List String) (b : Block) : Fault → Prop where
  | misplaced {i : Instruction} (hi : i ∈ b.body.dropLast) (hterm : i.isTerminator = true) :
      Breaks function labels b (.misplacedTerminator function b.label)
  /-- This is said of an empty body, too. -/
  | missing (h : ∀ i ∈ b.body, i.isTerminator = false) : Breaks function labels b (.missingTerminator function b.label)
  | target {front : List Instruction} {i : Instruction} {known others : List String} {t : String}
      (hbody : b.body = front ++ [i]) (hterm : i.isTerminator = true) (hfront : ∀ j ∈ front, j.isTerminator = false)
      (htargets : i.targets = known ++ t :: others) (hknown : ∀ u ∈ known, u ∈ labels) (ht : t ∉ labels) :
      Breaks function labels b (.missingTarget function b.label t)

/-- The first of the rules for functions that a function breaks: it has blocks, their labels differ, and each keeps the
rules for blocks. -/
inductive Function.Breaks (f : Function) : Fault → Prop where
  | empty (h : f.blocks = []) : Breaks f (.emptyFunction f.name)
  | label {front others : List String} {label : String} (h : f.labels = front ++ label :: others)
      (hfront : front.Nodup) (hlabel : label ∈ front) : Breaks f (.duplicateBlock f.name label)
  | block {front others : List Block} {b : Block} {e : Fault} (hlabels : f.labels.Nodup)
      (h : f.blocks = front ++ b :: others) (hfront : ∀ c ∈ front, c.WellFormed f.labels)
      (hb : b.Breaks f.name f.labels e) : Breaks f e

/-- The first rule that a function breaks if it follows the functions `before`: its name is new, and it keeps the rules
for functions. -/
inductive Function.BreaksBehind (before : List Function) (f : Function) : Fault → Prop where
  | name {g : Function} (hg : g ∈ before) (hname : g.name = f.name) : BreaksBehind before f (.duplicateFunction f.name)
  | inside {e : Fault} (hname : ∀ g ∈ before, g.name ≠ f.name) (hf : f.Breaks e) : BreaksBehind before f e

/-! ## Blocks -/

namespace Block

variable {function : String} {labels : List String} {b : Block} {e : Fault}

theorem successors_of_body_eq {front : List Instruction} {i : Instruction} (hbody : b.body = front ++ [i])
    (hterm : i.isTerminator = true) : b.successors = i.targets := by
  have hlast : b.terminator? = some i := terminator?_eq_some_iff.mpr ⟨by simp [hbody], hterm⟩
  rw [successors, hlast]

/-- Where no terminator stands before the end, there is none at the end if there is none at all. -/
theorem terminator?_eq_none_iff (hfront : ∀ i ∈ b.body.dropLast, i.isTerminator = false) :
    b.terminator? = none ↔ ∀ i ∈ b.body, i.isTerminator = false := by
  rcases List.eq_nil_or_concat' b.body with hnil | ⟨front, i, hbody⟩
  · simp [terminator?, hnil]
  · rw [hbody, List.dropLast_concat] at hfront
    rw [terminator?, hbody, List.getLast?_concat, List.forall_mem_append, List.forall_mem_singleton]
    cases hi : i.isTerminator with
    | true => simp [hi]
    | false => simpa [hi] using hfront

theorem terminatorFault?_eq_some_iff :
    b.terminatorFault? function = some e ↔
      (∃ i ∈ b.body.dropLast, i.isTerminator = true) ∧ e = .misplacedTerminator function b.label ∨
        (∀ i ∈ b.body, i.isTerminator = false) ∧ e = .missingTerminator function b.label := by
  rw [terminatorFault?]
  split
  next h =>
    obtain ⟨i, hi, hterm⟩ := List.any_eq_true.mp h
    rw [Option.some.injEq]
    constructor
    · rintro rfl
      exact .inl ⟨⟨i, hi, hterm⟩, rfl⟩
    · rintro (⟨-, rfl⟩ | ⟨hall, -⟩)
      · rfl
      · rw [hall i (List.mem_of_mem_dropLast hi)] at hterm
        cases hterm
  next h =>
    have hfront : ∀ i ∈ b.body.dropLast, i.isTerminator = false := by simpa using h
    have hmisplaced : ¬∃ i ∈ b.body.dropLast, i.isTerminator = true := by simpa using hfront
    have hmissing := terminator?_eq_none_iff hfront
    rw [← Option.isNone_iff_eq_none] at hmissing
    split
    next hnone =>
      rw [Option.some.injEq]
      constructor
      · rintro rfl
        exact .inr ⟨hmissing.mp hnone, rfl⟩
      · rintro (⟨hsome, -⟩ | ⟨-, rfl⟩)
        · exact absurd hsome hmisplaced
        · rfl
    next hsome =>
      simp only [reduceCtorEq, false_iff]
      rintro (⟨hi, -⟩ | ⟨hall, -⟩)
      · exact hmisplaced hi
      · exact hsome (hmissing.mpr hall)

theorem targetFault?_eq_some_iff :
    b.targetFault? function labels = some e ↔
      ∃ known t others, b.successors = known ++ t :: others ∧ (∀ u ∈ known, u ∈ labels) ∧ t ∉ labels ∧
        e = .missingTarget function b.label t := by
  rw [targetFault?, Option.map_eq_some_iff]
  simp only [List.find?_eq_some_iff_append]
  constructor
  · rintro ⟨t, ⟨ht, known, others, hsucc, hknown⟩, rfl⟩
    exact ⟨known, t, others, hsucc, by simpa using hknown, by simpa using ht, rfl⟩
  · rintro ⟨known, t, others, hsucc, hknown, ht, rfl⟩
    exact ⟨t, ⟨by simpa using ht, known, others, hsucc, by simpa using hknown⟩, rfl⟩

/-- The search in a block finds the first rule that it breaks. -/
theorem fault?_eq_some_iff :
    (b.terminatorFault? function <|> b.targetFault? function labels) = some e ↔ b.Breaks function labels e := by
  rw [Option.orElse_eq_orElse, Option.orElse_eq_or, Option.or_eq_some_iff, terminatorFault?_eq_some_iff,
    terminatorFault?_eq_none_iff, targetFault?_eq_some_iff]
  constructor
  · rintro ((⟨⟨i, hi, hterm⟩, rfl⟩ | ⟨hall, rfl⟩) | ⟨⟨⟨i, hlast, hterm⟩, hfront⟩, htarget⟩)
    · exact .misplaced hi hterm
    · exact .missing hall
    · obtain ⟨known, t, others, hsucc, hknown, ht, rfl⟩ := htarget
      obtain ⟨front, hbody⟩ := List.getLast?_eq_some_iff.mp hlast
      rw [successors_of_body_eq hbody hterm] at hsucc
      rw [hbody, List.dropLast_concat] at hfront
      exact .target hbody hterm hfront hsucc hknown ht
  · intro h
    cases h with
    | misplaced hi hterm => exact .inl (.inl ⟨⟨_, hi, hterm⟩, rfl⟩)
    | missing hall => exact .inl (.inr ⟨hall, rfl⟩)
    | @target front i known others t hbody hterm hfront htargets hknown ht =>
      rw [← successors_of_body_eq hbody hterm] at htargets
      refine .inr ⟨⟨⟨i, by simp [hbody], hterm⟩, ?_⟩, known, t, others, htargets, hknown, ht, rfl⟩
      rw [hbody, List.dropLast_concat]
      exact hfront

end Block

/-! ## Searches that remember -/

/-- A search that keeps in mind what it has passed stops at the first member of a list in which it finds something. It
finds nothing in the front alone, and what it has in mind there is the front. -/
theorem search_eq_some_iff {α β κ : Type} {search : List κ → List α → Option β} {key : α → κ}
    {find : List κ → α → Option β} (hnil : ∀ seen, search seen [] = none)
    (hcons : ∀ seen a l, search seen (a :: l) = (find seen a).or (search (key a :: seen) l)) {seen : List κ} {l : List α}
    {e : β} :
    search seen l = some e ↔
      ∃ front a others, l = front ++ a :: others ∧ search seen front = none ∧
        find ((front.map key).reverse ++ seen) a = some e := by
  induction l generalizing seen with
  | nil => simp [hnil]
  | cons a l ih =>
    rw [hcons, Option.or_eq_some_iff, ih]
    constructor
    · rintro (hfind | ⟨hnone, front, b, others, rfl, hfront, hfind⟩)
      · exact ⟨[], a, l, rfl, hnil seen, hfind⟩
      · refine ⟨a :: front, b, others, rfl, ?_, by simpa using hfind⟩
        rw [hcons, hnone, hfront]
        rfl
    · rintro ⟨front, b, others, hl, hfront, hfind⟩
      cases front with
      | nil =>
        cases hl
        exact .inl hfind
      | cons c front =>
        obtain ⟨rfl, rfl⟩ := List.cons.inj hl
        rw [hcons, Option.or_eq_none_iff] at hfront
        exact .inr ⟨hfront.1, front, b, others, rfl, hfront.2, by simpa using hfind⟩

/-- The first word that stands in a list for the second time. -/
theorem firstRepeat?_eq_some_iff {words : List String} {w : String} :
    firstRepeat? [] words = some w ↔ ∃ front others, words = front ++ w :: others ∧ front.Nodup ∧ w ∈ front := by
  have hcons : ∀ seen v words, firstRepeat? seen (v :: words) =
      (if v ∈ seen then some v else none).or (firstRepeat? (id v :: seen) words) := by
    intro seen v words
    rw [firstRepeat?]
    split <;> rfl
  rw [search_eq_some_iff (fun _ => rfl) hcons]
  simp [firstRepeat?_eq_none_iff]

/-! ## Functions -/

namespace Function

variable {f : Function} {e : Fault}

/-- The search in a function finds the first rule that it breaks. -/
theorem fault?_eq_some_iff : f.fault? = some e ↔ f.Breaks e := by
  have hblocks : (f.blocks.findSome? fun b => b.terminatorFault? f.name <|> b.targetFault? f.name f.labels) = some e ↔
      ∃ front b others, f.blocks = front ++ b :: others ∧ b.Breaks f.name f.labels e ∧
        ∀ c ∈ front, c.WellFormed f.labels := by
    simp only [List.findSome?_eq_some_iff, Block.fault?_eq_some_iff, Block.fault?_eq_none_iff]
  constructor
  · intro h
    rw [fault?] at h
    split at h
    next hnil =>
      cases h
      exact .empty (List.isEmpty_iff.mp hnil)
    next =>
      split at h
      next label hlabel =>
        cases h
        obtain ⟨front, others, hlabels, hfront, hmem⟩ := firstRepeat?_eq_some_iff.mp hlabel
        exact .label hlabels hfront hmem
      next hnone =>
        obtain ⟨front, b, others, hf, hb, hfront⟩ := hblocks.mp h
        exact .block (firstRepeat?_eq_none_iff.mp hnone).1 hf hfront hb
  · intro h
    cases h with
    | empty hnil => simp [fault?, hnil]
    | @label front others label hlabels hfront hmem =>
      have hne : f.blocks.isEmpty = false := by
        rw [Bool.eq_false_iff]
        intro hnil
        simp [labels, List.isEmpty_iff.mp hnil] at hlabels
      rw [fault?, hne, firstRepeat?_eq_some_iff.mpr ⟨front, others, hlabels, hfront, hmem⟩]
      rfl
    | @block front others b _ hlabels hf hfront hb =>
      have hne : f.blocks.isEmpty = false := by simp [hf]
      have hnone : firstRepeat? [] f.labels = none := firstRepeat?_eq_none_iff.mpr ⟨hlabels, by simp⟩
      rw [fault?, hne, hnone]
      exact hblocks.mpr ⟨front, b, others, hf, hb, hfront⟩

theorem breaksBehind_iff {before : List Function} :
    f.BreaksBehind before e ↔
      (if f.name ∈ before.map (·.name) then some (.duplicateFunction f.name) else f.fault?) = some e := by
  constructor
  · intro h
    cases h with
    | @name g hg hname => rw [if_pos (hname ▸ List.mem_map_of_mem hg)]
    | inside hnew hf =>
      have hname : f.name ∉ before.map (·.name) := fun hmem => by
        obtain ⟨g, hg, hname⟩ := List.mem_map.mp hmem
        exact hnew g hg hname
      rw [if_neg hname]
      exact fault?_eq_some_iff.mpr hf
  · intro h
    split at h
    next hmem =>
      cases h
      obtain ⟨g, hg, hname⟩ := List.mem_map.mp hmem
      exact .name hg hname
    next hnew =>
      exact .inside (fun g hg hname => hnew (hname ▸ List.mem_map_of_mem hg)) (fault?_eq_some_iff.mp h)

/-- The first function with something wrong. -/
theorem firstFault?_eq_some_iff {fs : List Function} :
    firstFault? [] fs = some e ↔
      ∃ before f behind, fs = before ++ f :: behind ∧ firstFault? [] before = none ∧ f.BreaksBehind before e := by
  have hcons : ∀ seen (f : Function) fs, firstFault? seen (f :: fs) =
      (if f.name ∈ seen then some (.duplicateFunction f.name) else f.fault?).or (firstFault? (f.name :: seen) fs) := by
    intro seen f fs
    rw [firstFault?]
    split
    · rfl
    · rw [Option.orElse_eq_orElse, Option.orElse_eq_or]
  rw [search_eq_some_iff (fun _ => rfl) hcons]
  simp only [List.append_nil, List.mem_reverse, breaksBehind_iff]

end Function

namespace Program

variable {p : Program}

/-- **The first fault** of a program lies in the first function that something is wrong with. -/
theorem fault?_eq_some_iff {e : Fault} :
    p.fault? = some e ↔
      ∃ before f behind, p.functions = before ++ f :: behind ∧ (⟨before⟩ : Program).WellFormed ∧
        f.BreaksBehind before e := by
  simp only [fault?, Function.firstFault?_eq_some_iff, ← fault?_eq_none_iff]

/-- **What is refused and why.** A program is verified exactly if it is well formed. Otherwise the error names the first
rule that is broken: it tells of a function behind functions that make up a verified program, and of a block of it, what
is wrong with them. -/
theorem verify_accurate (p : Program) :
    (p.verify = .ok () ↔ p.WellFormed) ∧
      ∀ e, p.verify = .error e ↔
        ∃ before f behind fault, p.functions = before ++ f :: behind ∧ (⟨before⟩ : Program).verify = .ok () ∧
          f.BreaksBehind before fault ∧ e = .fault fault := by
  refine ⟨verify_eq_ok_iff, fun e => ?_⟩
  have herror : p.verify = .error e ↔ ∃ fault, p.fault? = some fault ∧ e = .fault fault := by
    rw [verify]
    cases p.fault? <;> simp [eq_comm]
  rw [herror]
  simp only [fault?_eq_some_iff, verify_eq_ok_iff]
  constructor
  · rintro ⟨fault, ⟨before, f, behind, hp, hbefore, hf⟩, rfl⟩
    exact ⟨before, f, behind, fault, hp, hbefore, hf, rfl⟩
  · rintro ⟨before, f, behind, fault, hp, hbefore, hf, rfl⟩
    exact ⟨fault, ⟨before, f, behind, hp, hbefore, hf⟩, rfl⟩

-- The first block of `g` has a terminator too early, none at its end, and a target that is no label.
example :
    verify ⟨[⟨"f", [⟨"a", [.ret]⟩]⟩, ⟨"g", [⟨"a", [.br "z", .op "x"]⟩, ⟨"b", []⟩]⟩, ⟨"f", []⟩]⟩ =
      .error (.fault (.misplacedTerminator "g" "a")) := by
  decide +kernel

end Program

end Waymark
