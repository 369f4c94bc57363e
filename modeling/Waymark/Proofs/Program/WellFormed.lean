import Waymark.Program.WellFormed

/-!
# The search for faults is exact

A program without a fault is well formed, and a well-formed program has none (`Program.fault?_eq_none_iff`). The
statement is put together along the order of the search: labels (`firstRepeat?_eq_none_iff`), blocks, functions.
-/

namespace Waymark

/-- No word is found twice if all differ, from each other and from those seen before. -/
theorem firstRepeat?_eq_none_iff {seen words : List String} :
    firstRepeat? seen words = none ↔ words.Nodup ∧ ∀ w ∈ words, w ∉ seen := by
  induction words generalizing seen with
  | nil => simp [firstRepeat?]
  | cons w words ih =>
    rw [firstRepeat?, List.nodup_cons]
    split
    next h => simp [h]
    next h =>
      rw [ih]
      constructor
      · rintro ⟨hnd, hseen⟩
        refine ⟨⟨fun hw => hseen w hw List.mem_cons_self, hnd⟩, fun v hv => ?_⟩
        rcases List.mem_cons.mp hv with rfl | hv
        · exact h
        · exact fun hs => hseen v hv (List.mem_cons_of_mem _ hs)
      · rintro ⟨⟨hw, hnd⟩, hseen⟩
        refine ⟨hnd, fun v hv hs => ?_⟩
        rcases List.mem_cons.mp hs with rfl | hs
        · exact hw hv
        · exact hseen v (List.mem_cons_of_mem _ hv) hs

namespace Block

theorem terminator?_eq_some_iff {b : Block} {i : Instruction} :
    b.terminator? = some i ↔ b.body.getLast? = some i ∧ i.isTerminator = true := by
  simp [terminator?, Option.filter_eq_some_iff]

theorem terminatorFault?_eq_none_iff {function : String} {b : Block} :
    b.terminatorFault? function = none ↔
      (∃ i, b.body.getLast? = some i ∧ i.isTerminator = true) ∧ ∀ i ∈ b.body.dropLast, i.isTerminator = false := by
  have hends : b.terminator?.isNone = false ↔ ∃ i, b.body.getLast? = some i ∧ i.isTerminator = true := by
    simp only [Option.isNone_eq_false_iff, Option.isSome_iff_exists, terminator?_eq_some_iff]
  have honly : b.body.dropLast.any (·.isTerminator) = false ↔ ∀ i ∈ b.body.dropLast, i.isTerminator = false := by
    simp
  rw [← hends, ← honly, terminatorFault?]
  cases b.body.dropLast.any (·.isTerminator) <;> cases b.terminator?.isNone <;> simp

theorem targetFault?_eq_none_iff {function : String} {labels : List String} {b : Block} :
    b.targetFault? function labels = none ↔ ∀ t ∈ b.successors, t ∈ labels := by
  simp [targetFault?]

theorem fault?_eq_none_iff {function : String} {labels : List String} {b : Block} :
    (b.terminatorFault? function <|> b.targetFault? function labels) = none ↔ b.WellFormed labels := by
  rw [Option.orElse_eq_orElse, Option.orElse_eq_or, Option.or_eq_none_iff, terminatorFault?_eq_none_iff,
    targetFault?_eq_none_iff]
  constructor
  · rintro ⟨⟨hends, honly⟩, htargets⟩
    exact ⟨hends, honly, htargets⟩
  · rintro ⟨hends, honly, htargets⟩
    exact ⟨⟨hends, honly⟩, htargets⟩

end Block

theorem Function.fault?_eq_none_iff {f : Function} : f.fault? = none ↔ f.WellFormed := by
  unfold fault?
  split
  next h =>
    simp only [reduceCtorEq, false_iff]
    exact fun hf => hf.nonempty (List.isEmpty_iff.mp h)
  next h =>
    have hne : f.blocks ≠ [] := fun he => h (List.isEmpty_iff.mpr he)
    split
    next label hl =>
      simp only [reduceCtorEq, false_iff]
      intro hf
      rw [firstRepeat?_eq_none_iff.mpr ⟨hf.labels, by simp⟩] at hl
      cases hl
    next hl =>
      rw [List.findSome?_eq_none_iff]
      simp only [Block.fault?_eq_none_iff]
      exact ⟨fun hb => ⟨hne, (firstRepeat?_eq_none_iff.mp hl).1, hb⟩, fun hf => hf.blocks⟩

theorem Function.firstFault?_eq_none_iff {seen : List String} {fs : List Function} :
    firstFault? seen fs = none ↔
      ((fs.map (·.name)).Nodup ∧ ∀ f ∈ fs, f.name ∉ seen) ∧ ∀ f ∈ fs, f.WellFormed := by
  induction fs generalizing seen with
  | nil => simp [firstFault?]
  | cons f fs ih =>
    rw [firstFault?]
    split
    next h => simp [h]
    next h =>
      rw [Option.orElse_eq_orElse, Option.orElse_eq_or, Option.or_eq_none_iff, fault?_eq_none_iff, ih]
      simp only [List.map_cons, List.nodup_cons, List.mem_map, List.mem_cons, not_or, forall_eq_or_imp]
      constructor
      · rintro ⟨hf, ⟨hnd, hseen⟩, hfs⟩
        refine ⟨⟨⟨?_, hnd⟩, h, fun f' hf' => (hseen f' hf').2⟩, hf, hfs⟩
        rintro ⟨f', hf', heq⟩
        exact (hseen f' hf').1 heq
      · rintro ⟨⟨⟨hname, hnd⟩, -, hseen⟩, hf, hfs⟩
        exact ⟨hf, ⟨hnd, fun f' hf' => ⟨fun heq => hname ⟨f', hf', heq⟩, hseen f' hf'⟩⟩, hfs⟩

/-- **Faults**: the search finds none exactly in well-formed programs. -/
theorem Program.fault?_eq_none_iff {p : Program} : p.fault? = none ↔ p.WellFormed := by
  rw [fault?, Function.firstFault?_eq_none_iff]
  constructor
  · rintro ⟨⟨hnames, -⟩, hfs⟩
    exact ⟨hnames, hfs⟩
  · rintro ⟨hnames, hfs⟩
    exact ⟨⟨hnames, by simp⟩, hfs⟩

end Waymark
