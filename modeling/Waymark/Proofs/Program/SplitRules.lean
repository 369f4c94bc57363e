import Waymark.Proofs.FlowGraph
import Waymark.Proofs.Program.Source

/-!
# Splitting keeps the rules

A well-formed program is still well formed after it is split (`Program.WellFormed.split`), so a verified one is still
verified (`Program.verify_split`), and one that can be spelled can still be spelled (`Program.Spellable.split`). All
this is read off the parts of a function: each is a stretch of a block, with a branch to the next part unless it runs to
the block's end.
-/

namespace Waymark

/-! ## Parts -/

namespace Part.Fits

variable {marker : String} {b : Block} {q : Part} {all : List Part}

/-- A part is a stretch of its block, and runs to the end of it if it has no part behind it. -/
theorem body_eq (h : q.Fits marker b all) :
    ∃ front rest, b.body = front ++ (q.body ++ rest) ∧ q.body ≠ [] ∧ (rest = [] ↔ q.next? = none) := by
  obtain ⟨i, is, rest, hbody, hdrop, -, hnext⟩ := h
  refine ⟨b.body.take q.start, rest, ?_, by simp [hbody], ?_⟩
  · rw [← hdrop, List.take_append_drop]
  · cases hq : q.next? with
    | none =>
      rw [hq] at hnext
      simpa using hnext
    | some l =>
      rw [hq] at hnext
      obtain ⟨⟨t, ts, rfl, -⟩, -⟩ := hnext
      simp

theorem next_mem_labels (h : q.Fits marker b all) {l : String} (hl : q.next? = some l) : l ∈ all.map (·.label) := by
  obtain ⟨_, _, _, -, -, -, hnext⟩ := h
  rw [hl] at hnext
  obtain ⟨-, r, hr, hlabel, -⟩ := hnext
  exact List.mem_map.mpr ⟨r, hr, hlabel⟩

/-- Nothing but the last instruction of a block comes last in a part, save for the branch that is put there. -/
theorem mem_dropLast (h : q.Fits marker b all) {j : Instruction} (hj : j ∈ q.toBlock.body.dropLast) :
    j ∈ b.body.dropLast := by
  obtain ⟨front, rest, hbody, hne, hrest⟩ := h.body_eq
  rw [hbody, List.dropLast_append_of_ne_nil (by simp [hne])]
  refine List.mem_append_right _ ?_
  cases hq : q.next? with
  | none =>
    rw [hrest.mpr hq, List.append_nil]
    simpa [toBlock, hq] using hj
  | some l =>
    have hne' : rest ≠ [] := fun hnil => by simp [hrest.mp hnil] at hq
    rw [List.dropLast_append_of_ne_nil hne']
    refine List.mem_append_left _ ?_
    simpa [toBlock, hq] using hj

theorem wellFormed {labels labels' : List String} (h : q.Fits marker b all) (hb : b.WellFormed labels)
    (hold : labels ⊆ labels') (hnew : all.map (·.label) ⊆ labels') : q.toBlock.WellFormed labels' where
  ends := by
    cases hq : q.next? with
    | none =>
      obtain ⟨i, hlast, hi⟩ := hb.ends
      obtain ⟨front, rest, hbody, hne, hrest⟩ := h.body_eq
      rw [hbody, hrest.mpr hq, List.append_nil, List.getLast?_append_of_ne_nil _ hne] at hlast
      exact ⟨i, by simpa [toBlock, hq] using hlast, hi⟩
    | some l => exact ⟨.br l, by simp [toBlock, hq], rfl⟩
  only := fun i hi => hb.only i (h.mem_dropLast hi)
  targets := by
    rw [h.successors]
    cases hq : q.next? with
    | none => exact fun t ht => hold (hb.targets t ht)
    | some l => simpa using hnew (h.next_mem_labels hq)

theorem spellable (h : q.Fits marker b all) (hb : b.Spellable) (hall : ∀ r ∈ all, IsIdentifier r.label)
    (hq : IsIdentifier q.label) : q.toBlock.Spellable := by
  refine ⟨hq, fun i hi => ?_⟩
  rcases List.mem_append.mp hi with hi | hi
  · obtain ⟨front, rest, hbody, -⟩ := h.body_eq
    exact hb.2 i (by simp [hbody, hi])
  · cases hnext : q.next? with
    | none => simp [hnext] at hi
    | some l =>
      obtain ⟨r, hr, hlabel⟩ := List.mem_map.mp (h.next_mem_labels hnext)
      have hl : IsIdentifier l := hlabel ▸ hall r hr
      obtain rfl : i = .br l := by simpa [hnext] using hi
      exact ⟨by simpa [Instruction.names, Instruction.targets] using hl, fun heq => by cases heq⟩

end Part.Fits

/-! ## Labels -/

/-- The numbers behind a label are digits, so an identifier stays one. -/
theorem IsIdentifier.numberedLabel {label : String} (h : IsIdentifier label) (n : Nat) :
    IsIdentifier (numberedLabel label n) := by
  obtain ⟨c, cs, hlabel, hc, hcs⟩ := h
  refine ⟨c, cs ++ '.' :: Nat.toDigits 10 n, ?_, hc, ?_⟩
  · rw [toList_numberedLabel, hlabel, List.cons_append]
  · simp only [List.forall_mem_append, List.forall_mem_cons]
    refine ⟨hcs, rfl, fun d hd => ?_⟩
    simp [isWordChar, Nat.isDigit_of_mem_toDigits (by omega) (by omega) hd]

theorem exists_eq_numberedLabel {taken : List String} {label l : String} {k : Nat} (h : l ∈ freshLabels taken label k) :
    ∃ n, l = numberedLabel label n := by
  rw [freshLabels, freshLabelsFrom_eq] at h
  obtain ⟨n, -, hn⟩ := List.mem_map.mp (List.mem_of_mem_filter (List.mem_of_mem_take h))
  exact ⟨n, hn.symm⟩

/-- A part has the label of a block, or that label with a number. -/
theorem isIdentifier_label_of_mem_parts {marker : String} {block : Nat} {taken : List String} {bs : List Block}
    {q : Part} (hbs : ∀ b ∈ bs, IsIdentifier b.label) (hq : q ∈ parts marker block taken bs) :
    IsIdentifier q.label := by
  induction bs generalizing block taken with
  | nil => cases hq
  | cons b bs ih =>
    rw [List.forall_mem_cons] at hbs
    rcases List.mem_append.mp hq with hq | hq
    · have hlabel := List.mem_map_of_mem (f := (·.label)) hq
      rw [map_label_chainParts, map_fst_zip_newLabels] at hlabel
      rcases List.mem_cons.mp hlabel with heq | hnew
      · rw [heq]
        exact hbs.1
      · obtain ⟨n, hn⟩ := exists_eq_numberedLabel hnew
        rw [hn]
        exact hbs.1.numberedLabel n
    · exact ih hbs.2 hq

/-! ## Functions and programs -/

namespace Function

variable {f : Function}

/-- Every part of a well-formed function is a stretch of one of its blocks. -/
theorem WellFormed.exists_fits (h : f.WellFormed) {marker : String} {q : Part} (hq : q ∈ f.parts marker) :
    ∃ b ∈ f.blocks, q.Fits marker b (f.parts marker) := by
  obtain ⟨b, hb, hfits⟩ := fits_of_mem_parts (fun b hb => (h.blocks b hb).body_ne_nil) hq
  exact ⟨b, List.mem_of_getElem? (List.mk_mem_zipIdx_iff_getElem?.mp hb), hfits⟩

/-- Splitting keeps the labels of a function. -/
theorem labels_subset_labels_split (marker : String) (f : Function) : f.labels ⊆ (f.split marker).1.labels := by
  intro l hl
  obtain ⟨b, hb, rfl⟩ := List.mem_map.mp hl
  obtain ⟨j, hj, hget⟩ := List.mem_iff_getElem.mp hb
  obtain ⟨q, hq, hlabel, -⟩ : ∃ q ∈ f.parts marker, q.label = b.label ∧ q.block = j ∧ q.start = 0 :=
    exists_mem_parts (List.mk_mem_zipIdx_iff_getElem?.mpr (List.getElem?_eq_some_iff.mpr ⟨hj, hget⟩))
  rw [labels_split]
  exact List.mem_map.mpr ⟨q, hq, hlabel⟩

theorem WellFormed.split (h : f.WellFormed) (marker : String) : (f.split marker).1.WellFormed where
  nonempty := by
    obtain ⟨b, bs, hb⟩ := List.exists_cons_of_ne_nil h.nonempty
    have hl : b.label ∈ (f.split marker).1.labels := f.labels_subset_labels_split marker (by simp [Function.labels, hb])
    intro hnil
    simp [Function.labels, hnil] at hl
  labels := by
    rw [labels_split]
    exact nodup_label_parts h.labels (List.Subset.refl _)
  blocks := by
    intro b hb
    rw [blocks_split] at hb
    obtain ⟨q, hq, rfl⟩ := List.mem_map.mp hb
    obtain ⟨b, hb, hfits⟩ := h.exists_fits hq
    refine hfits.wellFormed (h.blocks b hb) (f.labels_subset_labels_split marker) ?_
    rw [labels_split]
    exact List.Subset.refl _

theorem Spellable.split (h : f.Spellable) (hwf : f.WellFormed) (marker : String) : (f.split marker).1.Spellable := by
  refine ⟨h.1, fun b hb => ?_⟩
  rw [blocks_split] at hb
  obtain ⟨q, hq, rfl⟩ := List.mem_map.mp hb
  obtain ⟨b, hb, hfits⟩ := hwf.exists_fits hq
  have hlabel : ∀ r ∈ f.parts marker, IsIdentifier r.label := fun r hr =>
    isIdentifier_label_of_mem_parts (fun b hb => (h.2 b hb).1) hr
  exact hfits.spellable (h.2 b hb) hlabel (hlabel q hq)

end Function

namespace Program

variable {p : Program}

/-- **Splitting keeps a program well formed.** -/
theorem WellFormed.split (h : p.WellFormed) (marker : String) : (p.split marker).program.WellFormed where
  names := by
    have hnames : (p.split marker).program.functions.map (·.name) = p.functions.map (·.name) := by
      simp [Program.split, Function.split]
    rw [hnames]
    exact h.names
  functions := by
    intro g hg
    obtain ⟨f, hf, rfl⟩ := List.mem_map.mp hg
    exact (h.functions f hf).split marker

/-- **A verified program is verified after splitting**, whatever marks its tracepoints: names and labels still differ,
every block still ends in its only terminator, and that still names blocks of its function. -/
theorem verify_split (h : p.verify = .ok ()) (marker : String) : (p.split marker).program.verify = .ok () := by
  have hwf : p.WellFormed := verify_eq_ok_iff.mp h
  exact verify_eq_ok_iff.mpr (hwf.split marker)

/-- Blocks with labels that splitting another one would give, one of them split itself. -/
theorem verify_split_taken_labels :
    let p : Program := ⟨[⟨"main", [⟨"a", [.op "x", .call "t_a", .call "t_b", .cbr "a.1" "a.3"]⟩,
      ⟨"a.1", [.op "y", .call "t_a", .br "a"]⟩, ⟨"a.3", [.ret]⟩]⟩]⟩
    let p' : Program := ⟨[⟨"main", [⟨"a", [.op "x", .br "a.2"]⟩, ⟨"a.2", [.call "t_a", .br "a.4"]⟩,
      ⟨"a.4", [.call "t_b", .cbr "a.1" "a.3"]⟩, ⟨"a.1", [.op "y", .br "a.1.1"]⟩,
      ⟨"a.1.1", [.call "t_a", .br "a"]⟩, ⟨"a.3", [.ret]⟩]⟩]⟩
    p.verify = .ok () ∧ (p.split "t_").program = p' ∧ p'.verify = .ok () := by
  intro p p'
  have hverify : p.verify = .ok () := by decide +kernel
  have hsplit : (p.split "t_").program = p' := by decide +kernel
  have hkeeps := verify_split hverify "t_"
  rw [hsplit] at hkeeps
  exact ⟨hverify, hsplit, hkeeps⟩

/-- **Splitting keeps a program one that can be spelled.** -/
theorem Spellable.split (h : p.Spellable) (hwf : p.WellFormed) (marker : String) :
    (p.split marker).program.Spellable := by
  intro g hg
  obtain ⟨f, hf, rfl⟩ := List.mem_map.mp hg
  exact (h f hf).split (hwf.functions f hf) marker

end Program

end Waymark
