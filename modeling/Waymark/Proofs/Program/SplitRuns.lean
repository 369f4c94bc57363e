import Mathlib.Data.List.Sort
import Waymark.Proofs.Program.Source
import Waymark.Proofs.Program.SplitPlaces

/-!
# Runs of a split program

Every instruction of a program stands in one part of the split program (`Program.splitImage`), and what else stands
there are the branches from part to part. Control on its way to a tracepoint call inside a block comes to such a branch
first (`Program.splitDoor`); apart from that it goes where it went (`Program.WellFormed.step_splitImage_iff`,
`Program.WellFormed.step_splitDoor_iff`). So the split program runs like the program (`Program.split_simulates`).
-/

namespace Waymark

open Relation

namespace Program

variable {marker l : String} {p : Program} {q r m : Position} {f : Function} {b : Block} {c : Part} {i j k n : Nat}

/-! ## Doors -/

/-- A tracepoint call inside a block, at which splitting starts a new one. -/
def isCut (marker : String) (p : Program) (r : Position) : Bool := decide (0 < r.index) && p.marked marker r

/-- Where control on its way to an instruction comes first in the split program: to the branch behind the instruction
before, if a new block starts there. -/
def splitDoor (marker : String) (p : Program) (r : Position) : Position :=
  if p.isCut marker r then
    let q := p.splitImage marker ⟨r.function, r.block, r.index - 1⟩
    ⟨q.function, q.block, q.index + 1⟩
  else p.splitImage marker r

/-- An instruction of the split program that is none of the program. -/
def Inserted (marker : String) (p : Program) (m : Position) : Prop :=
  m ∈ (p.split marker).program.positions ∧ ∀ q ∈ p.positions, p.splitImage marker q ≠ m

/-! ## Steps -/

theorem splitDoor_of_index_eq_zero (marker : String) (p : Program) (i k : Nat) :
    p.splitDoor marker ⟨i, k, 0⟩ = p.splitImage marker ⟨i, k, 0⟩ := rfl

theorem splitDoor_of_not_isCut (hcut : p.isCut marker r = false) : p.splitDoor marker r = p.splitImage marker r := by
  simp [splitDoor, hcut]

theorem isCut_succ (hat : p.At ⟨i, n, k + 1⟩ f b) : p.isCut marker ⟨i, n, k + 1⟩ = b.marked marker (k + 1) := by
  simp [isCut, hat.marked]

/-- Inside a block control goes on to what stands behind an instruction, in its part or in front of the next one. -/
theorem PartAt.splitDoor_succ (hc : p.PartAt marker i n f b c) (h : p.WellFormed) (hj : j < c.body.length)
    (hlt : c.start + j + 1 < b.body.length) : p.splitDoor marker ⟨i, c.block, c.start + j + 1⟩ = ⟨i, n, j + 1⟩ := by
  have hcut : p.isCut marker ⟨i, c.block, c.start + j + 1⟩ = _ := isCut_succ (hc.at_program _)
  cases hmark : b.marked marker (c.start + j + 1) with
  | true =>
    rw [hmark] at hcut
    have hbefore := hc.splitImage_eq h hj
    simp [splitDoor, hcut, hbefore]
  | false =>
    rw [hmark] at hcut
    have hinside := hc.splitImage_eq h (hc.fits.lt_body_length_of_not_marked hj hlt hmark)
    rw [splitDoor_of_not_isCut hcut, Nat.add_assoc, hinside]

/-- A jump to a block leads to its first part. -/
theorem WellFormed.splitDoor_label (h : p.WellFormed) (hf : p.functions[i]? = some f) (hl : l ∈ f.labels) :
    p.splitDoor marker ⟨i, f.labels.idxOf l, 0⟩ = ⟨i, (f.split marker).1.labels.idxOf l, 0⟩ := by
  obtain ⟨b, hb, rfl⟩ := Function.getElem?_idxOf_of_mem hl
  obtain ⟨c, hmem, hlabel, hblock, hstart⟩ :
      ∃ c ∈ f.parts marker, c.label = b.label ∧ c.block = f.labels.idxOf b.label ∧ c.start = 0 :=
    exists_mem_parts (List.mk_mem_zipIdx_iff_getElem?.mpr hb)
  obtain ⟨n, hn⟩ := List.mem_iff_getElem?.mp hmem
  obtain ⟨b', hc⟩ := h.exists_partAt hf hn
  have himage := hc.splitImage_eq h hc.fits.body_length_pos
  rw [hblock, hstart] at himage
  rw [splitDoor_of_index_eq_zero, himage, ← hlabel, hc.idxOf_label h]

/-- **A step** of the program is one of the split program, up to the door of where it leads. -/
theorem WellFormed.step_splitImage_iff (h : p.WellFormed) (hq : q ∈ p.positions) :
    (p.split marker).program.Step (p.splitImage marker q) m ↔ ∃ r, p.Step q r ∧ m = p.splitDoor marker r := by
  obtain ⟨i, n, j, f, b, c, hc, hj, rfl⟩ := h.exists_partAt_of_mem_positions marker hq
  have hb := h.block (hc.at_program 0)
  obtain ⟨hlt, hlast⟩ := hc.fits.length_toBlock hj
  rw [hc.splitImage_eq h hj, (h.split marker).step_iff (hc.at_split j)]
  simp only [h.step_iff (hc.at_program (c.start + j)), hlt, hlast]
  constructor
  · rintro (⟨hlt, rfl⟩ | ⟨hlast, t, ht, rfl⟩)
    · exact ⟨_, .inl ⟨hlt, rfl⟩, (hc.splitDoor_succ h hj hlt).symm⟩
    · rw [hc.fits.successors_of_last hj hlast] at ht
      exact ⟨_, .inr ⟨hlast, t, ht, rfl⟩, (h.splitDoor_label hc.function (hb.targets t ht)).symm⟩
  · rintro ⟨r, ⟨hlt, rfl⟩ | ⟨hlast, t, ht, rfl⟩, rfl⟩
    · exact .inl ⟨hlt, hc.splitDoor_succ h hj hlt⟩
    · refine .inr ⟨hlast, t, ?_, h.splitDoor_label hc.function (hb.targets t ht)⟩
      rw [hc.fits.successors_of_last hj hlast]
      exact ht

/-- A new block starts behind a part, and its door is the branch there. -/
theorem WellFormed.exists_partAt_of_isCut (h : p.WellFormed) (hr : r ∈ p.positions) (hcut : p.isCut marker r = true) :
    ∃ i n f b c l, p.PartAt marker i n f b c ∧ c.next? = some l ∧ r = ⟨i, c.block, c.start + c.body.length⟩ ∧
      p.splitDoor marker r = ⟨i, n, c.body.length⟩ := by
  obtain ⟨i, rb, rk⟩ := r
  obtain ⟨f, b, hat, hk⟩ := mem_positions_iff.mp hr
  obtain ⟨k, rfl⟩ : ∃ k, rk = k + 1 := by
    refine ⟨rk - 1, ?_⟩
    simp only [isCut, Bool.and_eq_true, decide_eq_true_eq] at hcut
    omega
  have hbefore : ⟨i, rb, k⟩ ∈ p.positions := mem_positions_iff.mpr ⟨f, b, hat, Nat.lt_of_succ_lt hk⟩
  obtain ⟨i', n, j, f', b', c, hc, hj, heq⟩ := h.exists_partAt_of_mem_positions marker hbefore
  cases heq
  obtain ⟨rfl, rfl⟩ := hat.unique (hc.at_program _)
  rw [isCut_succ hat] at hcut
  have hend : j + 1 = c.body.length := by
    by_contra hne
    rw [hc.fits.marked_start_add (by omega)] at hcut
    cases hcut
  cases hnext : c.next? with
  | none =>
    have := (hc.fits.end_of_none hnext).1
    simp only at hk
    omega
  | some l =>
    refine ⟨i, n, f, b, c, l, hc, hnext, ?_, ?_⟩
    · rw [← hend, Nat.add_assoc]
    · rw [hc.splitDoor_succ h hj hk, hend]

/-- **A door** leads to the instruction behind it, and nowhere else. -/
theorem WellFormed.step_splitDoor_iff (h : p.WellFormed) (hr : r ∈ p.positions) (hcut : p.isCut marker r = true) :
    (p.split marker).program.Step (p.splitDoor marker r) m ↔ m = p.splitImage marker r := by
  obtain ⟨i, n, f, b, c, l, hc, hnext, rfl, hdoor⟩ := h.exists_partAt_of_isCut hr hcut
  obtain ⟨-, hbody⟩ := hc.fits.end_of_some hnext
  have hsucc : c.toBlock.successors = [l] := by rw [hc.fits.successors, hnext]
  have himage : p.splitImage marker ⟨i, c.block, c.start + c.body.length⟩ =
      ⟨i, (f.split marker).1.labels.idxOf l, 0⟩ := by
    obtain ⟨_, _, _, -, -, -, hrun⟩ := hc.fits
    rw [hnext] at hrun
    obtain ⟨-, d, hmem, rfl, hblock, hstart⟩ := hrun
    obtain ⟨k, hk⟩ := List.mem_iff_getElem?.mp hmem
    obtain ⟨b', hd⟩ := h.exists_partAt hc.function hk
    have hd0 := hd.splitImage_eq h hd.fits.body_length_pos
    rwa [hblock, hstart, Nat.add_zero, ← hd.idxOf_label h] at hd0
  rw [hdoor, (h.split marker).step_iff (hc.at_split _), hbody, hsucc, himage]
  simp

/-! ## What was inserted -/

/-- A door is no instruction of the program. -/
theorem WellFormed.splitImage_ne_splitDoor (h : p.WellFormed) (hq : q ∈ p.positions) (hr : r ∈ p.positions)
    (hcut : p.isCut marker r = true) : p.splitImage marker q ≠ p.splitDoor marker r := by
  obtain ⟨i, n, j, f, b, c, hc, hj, rfl⟩ := h.exists_partAt_of_mem_positions marker hq
  obtain ⟨i', n', f', b', c', l, hc', -, rfl, hdoor⟩ := h.exists_partAt_of_isCut hr hcut
  rw [hc.splitImage_eq h hj, hdoor]
  rintro heq
  cases heq
  cases hc.function.symm.trans hc'.function
  cases hc.part.symm.trans hc'.part
  exact Nat.lt_irrefl _ hj

/-- An instruction that is a door is the one behind it, and is no cut. -/
theorem WellFormed.eq_of_splitImage_eq_splitDoor (h : p.WellFormed) (hq : q ∈ p.positions) (hr : r ∈ p.positions)
    (heq : p.splitImage marker q = p.splitDoor marker r) : q = r ∧ p.isCut marker r = false := by
  cases hcut : p.isCut marker r with
  | true => exact absurd heq (h.splitImage_ne_splitDoor hq hr hcut)
  | false =>
    rw [splitDoor_of_not_isCut hcut] at heq
    exact ⟨splitImage_injOn hq hr heq, rfl⟩

/-- **What was inserted** are the doors. -/
theorem WellFormed.inserted_iff (h : p.WellFormed) :
    p.Inserted marker m ↔ ∃ r ∈ p.positions, p.isCut marker r = true ∧ p.splitDoor marker r = m := by
  constructor
  · rintro ⟨hm, hnone⟩
    obtain ⟨i, n, j, f, b, c, hc, rfl, hj | ⟨rfl, l, hnext⟩⟩ := h.exists_partAt_of_mem_positions_split hm
    · refine absurd (hc.splitImage_eq h hj) (hnone _ (mem_positions_iff.mpr ⟨f, b, hc.at_program _, ?_⟩))
      exact hc.fits.start_add_lt hj
    · obtain ⟨k, hk⟩ := Nat.exists_eq_add_one.mpr hc.fits.body_length_pos
      have hmark := (hc.fits.end_of_some hnext).1
      have hlt := Block.lt_length_of_marked hmark
      rw [hk] at hmark hlt
      refine ⟨⟨i, c.block, c.start + k + 1⟩, mem_positions_iff.mpr ⟨f, b, hc.at_program _, hlt⟩, ?_, ?_⟩
      · rw [isCut_succ (hc.at_program _)]
        exact hmark
      · rw [hc.splitDoor_succ h (by omega) hlt, hk]
  · rintro ⟨r, hr, hcut, rfl⟩
    refine ⟨?_, fun q hq => h.splitImage_ne_splitDoor hq hr hcut⟩
    obtain ⟨i, n, f, b, c, l, hc, hnext, rfl, hdoor⟩ := h.exists_partAt_of_isCut hr hcut
    rw [hdoor]
    refine mem_positions_iff.mpr ⟨_, _, hc.at_split _, ?_⟩
    rw [(hc.fits.end_of_some hnext).2]
    simp

/-! ## Runs -/

/-- A step is one step in the split program, or two through an inserted branch if it leads to a cut. -/
theorem WellFormed.step_iff_split (h : p.WellFormed) (hq : q ∈ p.positions) (hr : r ∈ p.positions) :
    p.Step q r ↔
      (p.split marker).program.Step (p.splitImage marker q) (p.splitImage marker r) ∨
        p.isCut marker r = true ∧ ∃ m, p.Inserted marker m ∧
          (p.split marker).program.Step (p.splitImage marker q) m ∧
          (p.split marker).program.Step m (p.splitImage marker r) := by
  obtain ⟨f, b, hat, -⟩ := mem_positions_iff.mp hq
  simp only [h.step_splitImage_iff hq]
  constructor
  · intro hstep
    cases hcut : p.isCut marker r with
    | true =>
      exact .inr ⟨rfl, _, h.inserted_iff.mpr ⟨r, hr, hcut, rfl⟩, ⟨r, hstep, rfl⟩,
        (h.step_splitDoor_iff hr hcut).mpr rfl⟩
    | false => exact .inl ⟨r, hstep, (splitDoor_of_not_isCut hcut).symm⟩
  · rintro (⟨s, hstep, heq⟩ | ⟨-, m, hm, ⟨s, hstep, rfl⟩, hback⟩)
    · rwa [(h.eq_of_splitImage_eq_splitDoor hr (h.mem_positions_of_step hat hstep) heq).1]
    · have hs := h.mem_positions_of_step hat hstep
      cases hcut : p.isCut marker s with
      | true => rwa [splitImage_injOn hr hs ((h.step_splitDoor_iff hs hcut).mp hback)]
      | false => exact absurd (splitDoor_of_not_isCut hcut).symm (hm.2 s hs)

/-- No single step leads to a cut. -/
theorem WellFormed.not_step_splitImage_of_isCut (h : p.WellFormed) (hq : q ∈ p.positions) (hr : r ∈ p.positions)
    (hcut : p.isCut marker r = true) :
    ¬(p.split marker).program.Step (p.splitImage marker q) (p.splitImage marker r) := by
  obtain ⟨f, b, hat, -⟩ := mem_positions_iff.mp hq
  rw [h.step_splitImage_iff hq]
  rintro ⟨s, hstep, heq⟩
  obtain ⟨rfl, hnot⟩ := h.eq_of_splitImage_eq_splitDoor hr (h.mem_positions_of_step hat hstep) heq
  rw [hnot] at hcut
  cases hcut

/-- A run of the split program is at an instruction that the program comes to, or at the door of one. -/
theorem WellFormed.exists_of_reaches_split (h : p.WellFormed) (hq : q ∈ p.positions)
    (hrun : (p.split marker).program.Reaches (p.splitImage marker q) m) :
    ∃ r ∈ p.positions, p.Reaches q r ∧ (m = p.splitImage marker r ∨ m = p.splitDoor marker r) := by
  induction hrun with
  | refl => exact ⟨q, hq, .refl, .inl rfl⟩
  | @tail m m' _ hstep ih =>
    have himage : ∀ {r}, r ∈ p.positions → p.Reaches q r → m = p.splitImage marker r →
        ∃ s ∈ p.positions, p.Reaches q s ∧ (m' = p.splitImage marker s ∨ m' = p.splitDoor marker s) := by
      rintro r hr hrun rfl
      obtain ⟨f, b, hat, -⟩ := mem_positions_iff.mp hr
      obtain ⟨s, hs, rfl⟩ := (h.step_splitImage_iff hr).mp hstep
      exact ⟨s, h.mem_positions_of_step hat hs, .tail hrun hs, .inr rfl⟩
    obtain ⟨r, hr, hrun, hm | hm⟩ := ih
    · exact himage hr hrun hm
    · cases hcut : p.isCut marker r with
      | true =>
        rw [hm, h.step_splitDoor_iff hr hcut] at hstep
        exact ⟨r, hr, hrun, .inl hstep⟩
      | false =>
        rw [splitDoor_of_not_isCut hcut] at hm
        exact himage hr hrun hm

/-- **Runs** lead from one instruction to another in the split program exactly if they do in the program. -/
theorem WellFormed.reaches_iff_split (h : p.WellFormed) (hq : q ∈ p.positions) (hr : r ∈ p.positions) :
    p.Reaches q r ↔ (p.split marker).program.Reaches (p.splitImage marker q) (p.splitImage marker r) := by
  constructor
  · intro hrun
    clear hr
    have hboth : r ∈ p.positions ∧
        (p.split marker).program.Reaches (p.splitImage marker q) (p.splitImage marker r) := by
      induction hrun with
      | refl => exact ⟨hq, .refl⟩
      | @tail s r _ hstep ih =>
        obtain ⟨hs, hrun⟩ := ih
        obtain ⟨f, b, hat, -⟩ := mem_positions_iff.mp hs
        have hr := h.mem_positions_of_step hat hstep
        refine ⟨hr, ?_⟩
        rcases (h.step_iff_split hs hr).mp hstep with hone | ⟨-, m, -, hto, hfrom⟩
        · exact hrun.tail hone
        · exact (hrun.tail hto).tail hfrom
    exact hboth.2
  · intro hrun
    obtain ⟨s, hs, hreach, heq | heq⟩ := h.exists_of_reaches_split hq hrun
    · rwa [splitImage_injOn hr hs heq]
    · rwa [(h.eq_of_splitImage_eq_splitDoor hr hs heq).1]

/-- The instructions of the program stand in the split program in their order. -/
theorem WellFormed.map_splitImage_sublist (h : p.WellFormed) (marker : String) :
    (p.positions.map (p.splitImage marker)).Sublist (p.split marker).program.positions := by
  have hbefore : (p.positions.map (p.splitImage marker)).Pairwise Position.Before :=
    List.pairwise_map.mpr (p.pairwise_positions.imp_of_mem fun hq hr hqr => splitImage_before hq hr hqr)
  refine List.sublist_of_subperm_of_pairwise (List.Nodup.subperm (hbefore.imp Position.Before.ne) ?_) hbefore
    (pairwise_positions _)
  intro m hm
  obtain ⟨q, hq, rfl⟩ := List.mem_map.mp hm
  exact h.splitImage_mem_positions hq

/-- What was inserted are branches. -/
theorem WellFormed.instruction?_of_inserted (h : p.WellFormed) (hm : p.Inserted marker m) :
    ∃ l, (p.split marker).program.instruction? m = some (.br l) := by
  obtain ⟨r, hr, hcut, rfl⟩ := h.inserted_iff.mp hm
  obtain ⟨i, n, f, b, c, l, hc, hnext, -, hdoor⟩ := h.exists_partAt_of_isCut hr hcut
  refine ⟨l, ?_⟩
  rw [hdoor, (hc.at_split _).instruction?, (hc.fits.end_of_some hnext).2]
  simp

/-- **Splitting keeps the runs of a program.** The split program holds the instructions of a verified program in their
order, and besides them branches only. Control goes from one instruction to another in the program exactly if it does
so in one step of the split program, or, and only where the other one is a tracepoint call inside a block, in two steps
through an inserted branch. So the same instructions can be reached from each other, and the same ones lead nowhere. -/
theorem split_simulates (h : p.verify = .ok ()) (marker : String) :
    let p' := (p.split marker).program
    let image := p.splitImage marker
    (p.positions.map image).Sublist p'.positions ∧
      (∀ m, p.Inserted marker m → ∃ l, p'.instruction? m = some (.br l)) ∧
      (∀ q ∈ p.positions, p'.instruction? (image q) = p.instruction? q) ∧
      (∀ q ∈ p.positions, ∀ r ∈ p.positions,
        (p.Step q r ↔ p'.Step (image q) (image r) ∨
          p.isCut marker r = true ∧ ∃ m, p.Inserted marker m ∧ p'.Step (image q) m ∧ p'.Step m (image r)) ∧
        (p.isCut marker r = true → ¬p'.Step (image q) (image r))) ∧
      (∀ q ∈ p.positions, ∀ r ∈ p.positions, p.Reaches q r ↔ p'.Reaches (image q) (image r)) ∧
      ∀ q ∈ p.positions, (∀ r, ¬p.Step q r) ↔ ∀ m, ¬p'.Step (image q) m := by
  intro p' image
  have hwf := verify_eq_ok_iff.mp h
  refine ⟨hwf.map_splitImage_sublist marker, fun m hm => hwf.instruction?_of_inserted hm,
    fun q hq => hwf.instruction?_splitImage hq, fun q hq r hr => ⟨hwf.step_iff_split hq hr, ?_⟩,
    fun q hq r hr => hwf.reaches_iff_split hq hr, fun q hq => ?_⟩
  · exact hwf.not_step_splitImage_of_isCut hq hr
  · constructor
    · intro hstop m hm
      obtain ⟨r, hr, -⟩ := (hwf.step_splitImage_iff hq).mp hm
      exact hstop r hr
    · intro hstop r hr
      exact hstop _ ((hwf.step_splitImage_iff hq).mpr ⟨r, hr, rfl⟩)

/-- Two cuts next to each other in a block that leads back to itself, with a label that looks like a new one. -/
theorem split_simulates_loop :
    let p : Program := ⟨[⟨"main", [⟨"a", [.op "x", .call "t_a", .call "t_b", .cbr "a" "a.1"]⟩,
      ⟨"a.1", [.call "t_a", .ret]⟩]⟩]⟩
    let p' : Program := ⟨[⟨"main", [⟨"a", [.op "x", .br "a.2"]⟩, ⟨"a.2", [.call "t_a", .br "a.3"]⟩,
      ⟨"a.3", [.call "t_b", .cbr "a" "a.1"]⟩, ⟨"a.1", [.call "t_a", .ret]⟩]⟩]⟩
    p.verify = .ok () ∧ (p.split "t_").program = p' ∧
      (p.Step ⟨0, 0, 1⟩ ⟨0, 0, 2⟩ ∧ ¬p'.Step ⟨0, 1, 0⟩ ⟨0, 2, 0⟩ ∧
        ∃ m, p.Inserted "t_" m ∧ p'.Step ⟨0, 1, 0⟩ m ∧ p'.Step m ⟨0, 2, 0⟩) ∧
      (p.Step ⟨0, 0, 3⟩ ⟨0, 0, 0⟩ ∧ p'.Step ⟨0, 2, 1⟩ ⟨0, 0, 0⟩) ∧
      (p.Reaches ⟨0, 0, 3⟩ ⟨0, 0, 2⟩ ∧ p'.Reaches ⟨0, 2, 1⟩ ⟨0, 2, 0⟩) ∧ ∀ m, ¬p'.Step ⟨0, 3, 1⟩ m := by
  intro p p'
  have hverify : p.verify = .ok () := by decide +kernel
  have hsplit : (p.split "t_").program = p' := by decide +kernel
  have hback : p.Step ⟨0, 0, 3⟩ ⟨0, 0, 0⟩ := .jump rfl rfl rfl List.mem_cons_self
  have hop : p.Step ⟨0, 0, 0⟩ ⟨0, 0, 1⟩ := .next rfl rfl
  have hcall : p.Step ⟨0, 0, 1⟩ ⟨0, 0, 2⟩ := .next rfl rfl
  have hrun : p.Reaches ⟨0, 0, 3⟩ ⟨0, 0, 2⟩ := .tail (.tail (.single hback) hop) hcall
  have hret : ∀ r, ¬p.Step ⟨0, 1, 1⟩ r := by
    intro r hr
    cases hr with
    | next hi ht => cases hi; cases ht
    | jump hi _ _ ht => cases hi; cases ht
  have hq0 : p.splitImage "t_" ⟨0, 0, 0⟩ = ⟨0, 0, 0⟩ := by decide +kernel
  have hq1 : p.splitImage "t_" ⟨0, 0, 1⟩ = ⟨0, 1, 0⟩ := by decide +kernel
  have hq2 : p.splitImage "t_" ⟨0, 0, 2⟩ = ⟨0, 2, 0⟩ := by decide +kernel
  have hq3 : p.splitImage "t_" ⟨0, 0, 3⟩ = ⟨0, 2, 1⟩ := by decide +kernel
  have hlast : p.splitImage "t_" ⟨0, 1, 1⟩ = ⟨0, 3, 1⟩ := by decide +kernel
  obtain ⟨-, -, -, hstep, hreach, hstop⟩ := split_simulates hverify "t_"
  obtain ⟨hcut, hnot⟩ := hstep ⟨0, 0, 1⟩ (by decide +kernel) ⟨0, 0, 2⟩ (by decide +kernel)
  have hjump := (hstep ⟨0, 0, 3⟩ (by decide +kernel) ⟨0, 0, 0⟩ (by decide +kernel)).1
  replace hreach := hreach ⟨0, 0, 3⟩ (by decide +kernel) ⟨0, 0, 2⟩ (by decide +kernel)
  replace hstop := hstop ⟨0, 1, 1⟩ (by decide +kernel)
  rw [hsplit, hq1, hq2] at hcut hnot
  rw [hsplit, hq3, hq0] at hjump
  rw [hsplit, hq3, hq2] at hreach
  rw [hsplit, hlast] at hstop
  replace hnot := hnot (by decide +kernel)
  refine ⟨hverify, hsplit, ⟨hcall, hnot, ((hcut.mp hcall).resolve_left hnot).2⟩, ⟨hback, ?_⟩, ⟨hrun, hreach.mp hrun⟩,
    hstop.mp hret⟩
  exact (hjump.mp hback).resolve_right fun h => by simp [isCut] at h

end Program

end Waymark
