import Waymark.Proofs.Program.SplitBlocks
import Waymark.Proofs.Program.SplitRules

/-!
# The labels of new blocks

The blocks of a function are split one after the other, and each takes its new labels from those that are still free.
All the same they do not depend on what was split before: a numbered label tells the label that it was made of
(`numberedLabel_eq_iff`), since the number behind the last dot has no dot itself. So blocks with different labels never
compete for a new one, whatever dots and digits their labels hold, and each takes the smallest numbers that give no
label of the function as it was (`Function.split_labels`).
-/

namespace Waymark

/-! ## Numbered labels -/

/-- Where a character does not occur behind its last place, that place is found. -/
theorem eq_and_eq_of_append_cons {c : Char} {l l' d d' : List Char} (hd : c ∉ d) (hd' : c ∉ d')
    (h : l ++ c :: d = l' ++ c :: d') : l = l' ∧ d = d' := by
  have hskip : ∀ {m e e' : List Char}, c :: e = m ++ c :: e' → c ∉ e → m = [] := by
    intro m e e' heq he
    cases m with
    | nil => rfl
    | cons x m =>
      rw [List.cons_append, List.cons.injEq] at heq
      exact absurd (heq.2 ▸ List.mem_append_right m List.mem_cons_self) he
  rcases List.append_eq_append_iff.mp h with ⟨m, rfl, hm⟩ | ⟨m, rfl, hm⟩
  · cases hskip hm hd
    exact ⟨(List.append_nil l).symm, (List.cons.inj hm).2⟩
  · cases hskip hm hd'
    exact ⟨List.append_nil l', (List.cons.inj hm).2.symm⟩

theorem dot_notMem_toDigits (n : Nat) : '.' ∉ Nat.toDigits 10 n := by
  intro h
  have hdigit := Nat.isDigit_of_mem_toDigits (by omega) (by omega) h
  cases hdigit

/-- **A numbered label** tells its label and its number. -/
theorem numberedLabel_eq_iff {label label' : String} {m n : Nat} :
    numberedLabel label m = numberedLabel label' n ↔ label = label' ∧ m = n := by
  constructor
  · intro h
    have htext := congrArg String.toList h
    rw [toList_numberedLabel, toList_numberedLabel] at htext
    obtain ⟨hlabel, -⟩ := eq_and_eq_of_append_cons (dot_notMem_toDigits m) (dot_notMem_toDigits n) htext
    cases String.toList_injective hlabel
    exact ⟨rfl, numberedLabel_inj.mp h⟩
  · rintro ⟨rfl, rfl⟩
    rfl

/-! ## The smallest numbers -/

/-- The numbers `ns` are the smallest ones, from one on and in their order, that give no label of `taken`. -/
structure SmallestFree (taken : List String) (label : String) (ns : List Nat) : Prop where
  sorted : ns.Pairwise (· < ·)
  free : ∀ n ∈ ns, 0 < n ∧ numberedLabel label n ∉ taken
  smallest : ∀ m, 0 < m → numberedLabel label m ∉ taken → m ∈ ns ∨ ∀ n ∈ ns, n < m

theorem SmallestFree.congr {taken taken' : List String} {label : String} {ns : List Nat}
    (h : SmallestFree taken label ns) (htaken : ∀ n, numberedLabel label n ∈ taken ↔ numberedLabel label n ∈ taken') :
    SmallestFree taken' label ns where
  sorted := h.sorted
  free := fun n hn => ⟨(h.free n hn).1, fun hmem => (h.free n hn).2 ((htaken n).mpr hmem)⟩
  smallest := fun m hm hfree => h.smallest m hm fun hmem => hfree ((htaken m).mp hmem)

/-- Fresh labels have the smallest numbers. -/
theorem exists_freshLabels_eq (taken : List String) (label : String) (k : Nat) :
    ∃ ns, freshLabels taken label k = ns.map (numberedLabel label) ∧ ns.length = k ∧ SmallestFree taken label ns := by
  generalize hall : (List.range' 1 (taken.length + k)).filter (fun n => numberedLabel label n ∉ taken) = all
  have heq : freshLabels taken label k = (all.take k).map (numberedLabel label) := by
    rw [freshLabels, freshLabelsFrom_eq, List.filter_map, ← List.map_take, ← hall]
    rfl
  have hmem : ∀ n, n ∈ all ↔ (1 ≤ n ∧ n < 1 + (taken.length + k)) ∧ numberedLabel label n ∉ taken := by
    intro n
    simp [← hall, List.mem_range'_1]
  have hrange : (List.range' 1 (taken.length + k)).Pairwise (· < ·) := List.pairwise_lt_range'
  have hsorted : all.Pairwise (· < ·) := hall ▸ hrange.filter _
  refine ⟨all.take k, heq, ?_, hsorted.sublist (List.take_sublist _ _), fun n hn => ?_, fun m hm hfree => ?_⟩
  · rw [← List.length_map (numberedLabel label), ← heq, length_freshLabels]
  · obtain ⟨⟨hpos, -⟩, hfree⟩ := (hmem n).mp (List.mem_of_mem_take hn)
    exact ⟨hpos, hfree⟩
  · -- a free number is one of those that were looked at, or larger than all of them
    by_cases hlt : m < 1 + (taken.length + k)
    · have hm : m ∈ all.take k ++ all.drop k := by
        rw [List.take_append_drop]
        exact (hmem m).mpr ⟨⟨hm, hlt⟩, hfree⟩
      rw [← List.take_append_drop k all, List.pairwise_append] at hsorted
      rcases List.mem_append.mp hm with hm | hm
      · exact .inl hm
      · exact .inr fun n hn => hsorted.2.2 n hn m hm
    · refine .inr fun n hn => ?_
      have hn := (hmem n).mp (List.mem_of_mem_take hn)
      omega

/-! ## The labels of a split function -/

/-- The blocks of a run have the label of the block, and behind it, one for each of its inner tracepoint calls, this
label with the smallest numbers that give no label of `labels`. -/
def Block.Numbers (marker : String) (labels : List String) (b : Block) (run : List Block) : Prop :=
  ∃ ns, run.map (·.label) = b.label :: ns.map (numberedLabel b.label) ∧ ns.length = b.innerTracepoints marker ∧
    SmallestFree labels b.label ns

theorem Block.numbers_splitRun (marker : String) (taken : List String) (b : Block) :
    b.Numbers marker taken (b.splitRun marker taken) := by
  obtain ⟨ns, hns, hlength, hfree⟩ := exists_freshLabels_eq taken b.label (b.pieces marker).2.length
  refine ⟨ns, ?_, hlength.trans (b.length_pieces marker), hfree⟩
  rw [map_label_splitRun, newLabels, hns]

/-- **What was split before does not matter**: the labels that it added were made of other ones. -/
theorem forall₂_numbers_splitRuns {marker : String} {labels taken : List String} {bs : List Block}
    (hnodup : (bs.map (·.label)).Nodup)
    (htaken : ∀ b ∈ bs, ∀ n, numberedLabel b.label n ∈ taken ↔ numberedLabel b.label n ∈ labels) :
    List.Forall₂ (Block.Numbers marker labels) bs (splitRuns marker taken bs) := by
  induction bs generalizing taken with
  | nil => exact .nil
  | cons b bs ih =>
    rw [List.map_cons, List.nodup_cons] at hnodup
    rw [List.forall_mem_cons] at htaken
    obtain ⟨hb, hnodup⟩ := hnodup
    refine .cons ?_ (ih hnodup fun c hc n => ?_)
    · obtain ⟨ns, hlabels, hlength, hfree⟩ := b.numbers_splitRun marker taken
      exact ⟨ns, hlabels, hlength, hfree.congr htaken.1⟩
    · have hnew : numberedLabel c.label n ∉ newLabels marker taken b := by
        intro hmem
        obtain ⟨m, hm⟩ := exists_eq_numberedLabel hmem
        rw [numberedLabel_eq_iff] at hm
        exact hb (hm.1 ▸ List.mem_map_of_mem hc)
      rw [List.mem_append, or_iff_right hnew]
      exact htaken.2 c hc n

/-- **The labels of new blocks** are determined by the labels of the function alone. If these differ, the new blocks of
each block are labelled with it and the smallest numbers that give no label of the function, in order, whatever was
split before. So all labels differ after splitting. -/
theorem Function.split_labels {f : Function} (h : f.labels.Nodup) (marker : String) :
    (∃ runs, (f.split marker).1.blocks = runs.flatten ∧
      List.Forall₂ (fun b run => b.SplitsInto marker run ∧ b.Numbers marker f.labels run) f.blocks runs) ∧
      (f.split marker).1.labels.Nodup := by
  refine ⟨⟨splitRuns marker f.labels f.blocks, splitBlocks_eq_flatten marker f.name _ _, ?_⟩, ?_⟩
  · have hsplits := forall₂_splitRuns marker f.labels f.blocks
    have hnumbers : List.Forall₂ (Block.Numbers marker f.labels) f.blocks (splitRuns marker f.labels f.blocks) :=
      forall₂_numbers_splitRuns h fun _ _ _ => Iff.rfl
    exact hsplits.mp (fun _ _ hsplit hnumber => ⟨hsplit, hnumber⟩) hnumbers
  · rw [labels_split]
    exact nodup_label_parts h (List.Subset.refl _)

/-- The block `a` would give its new blocks the labels of two others, and one of these is split itself. -/
theorem Function.split_labels_taken :
    let f : Function := ⟨"main", [⟨"a", [.op "x", .call "t_a", .call "t_b", .br "a.1"]⟩,
      ⟨"a.1", [.op "y", .call "t_a", .br "a.3"]⟩, ⟨"a.3", [.ret]⟩]⟩
    f.labels.Nodup ∧ (f.split "t_").1.labels = ["a", "a.2", "a.4", "a.1", "a.1.1", "a.3"] ∧
      (f.split "t_").1.labels.Nodup ∧ SmallestFree f.labels "a" [2, 4] := by
  intro f
  have hnodup : f.labels.Nodup := by decide +kernel
  have hlabels : (f.split "t_").1.labels = ["a", "a.2", "a.4", "a.1", "a.1.1", "a.3"] := by decide +kernel
  obtain ⟨⟨runs, hruns, hall⟩, hsplit⟩ := f.split_labels hnodup "t_"
  refine ⟨hnodup, hlabels, hsplit, ?_⟩
  cases hall with
  | @cons _ run _ runs ha _ =>
    obtain ⟨-, ns, hrun, hlength, hfree⟩ := ha
    -- the block has two inner calls, so the second and the third label are those of its new blocks
    obtain ⟨m, n, rfl⟩ := List.length_eq_two.mp hlength
    have hfront := hlabels
    rw [Function.labels, hruns, List.flatten_cons, List.map_append, hrun] at hfront
    simp only [List.map_cons, List.map_nil, List.cons_append, List.cons.injEq] at hfront
    have hm : m = 2 := numberedLabel_inj.mp (hfront.2.1.trans (by decide +kernel))
    have hn : n = 4 := numberedLabel_inj.mp (hfront.2.2.1.trans (by decide +kernel))
    rwa [hm, hn] at hfree

end Waymark
