import Waymark.Proofs.Program.Positions
import Waymark.Proofs.Walks

/-!
# Heads of straight runs

A head is a position where a run may be looked at: the start of a block, or a tracepoint call. From one head control
goes to the next one in the same block, or through the terminator to the start of another block
(`Program.onward`), and it does not matter what lies between. So runs of a program and walks from head to head are two
pictures of the same thing (`Program.WellFormed.collapse`).
-/

namespace Waymark

open Relation

/-! ## Cuts in a block -/

namespace Block

variable {marker : String} {b : Block} {k m : Nat}

/-- Whether the instruction number `k` marks a tracepoint. -/
def marked (marker : String) (b : Block) (k : Nat) : Bool := b.body[k]?.any (·.isTracepoint marker)

/-- The first tracepoint call after the instruction number `k`. -/
def nextCut? (marker : String) (b : Block) (k : Nat) : Option Nat :=
  (List.range b.body.length).find? fun m => k < m && b.marked marker m

/-- The last head at or before the instruction number `k`. -/
def headIndex (marker : String) (b : Block) : Nat → Nat
  | 0 => 0
  | k + 1 => if b.marked marker (k + 1) then k + 1 else b.headIndex marker k

theorem lt_length_of_marked (h : b.marked marker k = true) : k < b.body.length := by
  unfold marked at h
  by_contra hk
  rw [List.getElem?_eq_none (Nat.not_lt.mp hk)] at h
  cases h

theorem nextCut?_eq_some_iff :
    b.nextCut? marker k = some m ↔
      k < m ∧ b.marked marker m = true ∧ ∀ l, k < l → l < m → b.marked marker l = false := by
  rw [nextCut?, List.find?_range_eq_some]
  simp only [Bool.and_eq_true, decide_eq_true_eq, List.mem_range, Bool.not_eq_true', Bool.and_eq_false_iff,
    decide_eq_false_iff_not]
  constructor
  · rintro ⟨⟨hk, hm⟩, -, hl⟩
    exact ⟨hk, hm, fun l hkl hlm => (hl l hlm).resolve_left fun h => h hkl⟩
  · rintro ⟨hk, hm, hl⟩
    refine ⟨⟨hk, hm⟩, lt_length_of_marked hm, fun l hlm => ?_⟩
    by_cases hkl : k < l
    · exact .inr (hl l hkl hlm)
    · exact .inl hkl

theorem nextCut?_eq_none_iff : b.nextCut? marker k = none ↔ ∀ m, k < m → b.marked marker m = false := by
  rw [nextCut?, List.find?_eq_none]
  simp only [List.mem_range, Bool.and_eq_true, decide_eq_true_eq, not_and, Bool.not_eq_true]
  constructor
  · intro h m hkm
    by_cases hm : m < b.body.length
    · exact h m hm hkm
    · rw [marked, List.getElem?_eq_none (Nat.not_lt.mp hm)]
      rfl
  · exact fun h m _ hkm => h m hkm

theorem nextCut?_of_marked (h : b.marked marker (k + 1) = true) : b.nextCut? marker k = some (k + 1) :=
  nextCut?_eq_some_iff.mpr ⟨Nat.lt_succ_self k, h, fun l hkl hlk => by omega⟩

/-- An instruction that is no cut does not change what the next one is. -/
theorem nextCut?_succ (h : b.marked marker (k + 1) = false) : b.nextCut? marker k = b.nextCut? marker (k + 1) := by
  unfold nextCut?
  congr 1
  funext m
  by_cases hm : m = k + 1
  · subst hm
    simp [h]
  · have : k < m ↔ k + 1 < m := by omega
    simp [this]

theorem nextCut?_headIndex (marker : String) (b : Block) (k : Nat) :
    b.nextCut? marker (b.headIndex marker k) = b.nextCut? marker k := by
  induction k with
  | zero => rfl
  | succ k ih =>
    rw [headIndex]
    split
    · rfl
    next h => rw [ih, nextCut?_succ (by simpa using h)]

theorem headIndex_of_marked (h : b.marked marker k = true) : b.headIndex marker k = k := by
  cases k with
  | zero => rfl
  | succ k => rw [headIndex, if_pos h]

end Block

/-! ## From head to head -/

/-- Where control goes from a head of the block: to its next cut, or to the blocks that it names. -/
def Block.onward (marker : String) (labels : List String) (b : Block) (q : Position) : List Position :=
  match b.nextCut? marker q.index with
  | some k => [⟨q.function, q.block, k⟩]
  | none => b.successors.map fun t => ⟨q.function, labels.idxOf t, 0⟩

namespace Program

/-- Whether a position holds a tracepoint call. -/
def marked (marker : String) (p : Program) (q : Position) : Bool := (p.instruction? q).any (·.isTracepoint marker)

/-- The positions at the start of a block or at a tracepoint call, in the order of the text. -/
def heads (marker : String) (p : Program) : List Position :=
  p.positions.filter fun q => q.index = 0 || (p.instruction? q).any (·.isTracepoint marker)

/-- The heads that control may come to next. -/
def onward (marker : String) (p : Program) (q : Position) : List Position :=
  (p.functions[q.function]?.bind fun f => f.blocks[q.block]?.map fun b => b.onward marker f.labels q).getD []

/-- The last head at or before a position. -/
def headOf (marker : String) (p : Program) (q : Position) : Position :=
  (p.functions[q.function]?.bind fun f => f.blocks[q.block]?.map fun b =>
    ⟨q.function, q.block, b.headIndex marker q.index⟩).getD q

/-- Control goes from a head to another, and has not come to `goal` yet. -/
def Leads (marker : String) (p : Program) (goal q r : Position) : Prop := q ≠ goal ∧ r ∈ p.onward marker q

variable {marker : String} {p : Program} {q r goal : Position} {f : Function} {b : Block}

theorem At.onward (h : p.At q f b) : p.onward marker q = b.onward marker f.labels q := by
  simp [Program.onward, h.1, h.2]

theorem At.headOf (h : p.At q f b) : p.headOf marker q = ⟨q.function, q.block, b.headIndex marker q.index⟩ := by
  simp [Program.headOf, h.1, h.2]

theorem mem_heads_iff :
    q ∈ p.heads marker ↔
      ∃ f b, p.At q f b ∧ q.index < b.body.length ∧ (q.index = 0 ∨ b.marked marker q.index = true) := by
  simp only [heads, List.mem_filter, mem_positions_iff, Bool.or_eq_true, decide_eq_true_eq]
  constructor
  · rintro ⟨⟨f, b, hq, hk⟩, hmark⟩
    rw [hq.instruction?] at hmark
    exact ⟨f, b, hq, hk, hmark⟩
  · rintro ⟨f, b, hq, hk, hmark⟩
    refine ⟨⟨f, b, hq, hk⟩, ?_⟩
    rw [hq.instruction?]
    exact hmark

theorem At.marked (h : p.At q f b) : p.marked marker q = b.marked marker q.index := by
  rw [Program.marked, h.instruction?, Block.marked]

theorem mem_heads_iff_marked :
    q ∈ p.heads marker ↔ q ∈ p.positions ∧ (q.index = 0 ∨ p.marked marker q = true) := by
  simp [heads, Program.marked]

theorem nodup_heads (marker : String) (p : Program) : (p.heads marker).Nodup :=
  p.nodup_positions.filter _

theorem headOf_of_mem_heads (h : q ∈ p.heads marker) : p.headOf marker q = q := by
  obtain ⟨f, b, hq, -, hmark⟩ := mem_heads_iff.mp h
  rw [hq.headOf]
  rcases hmark with h0 | hmark
  · rw [h0, Block.headIndex, ← h0]
  · rw [Block.headIndex_of_marked hmark]

/-- What lies ahead is the same from everywhere behind a head. -/
theorem onward_headOf (hq : p.At q f b) : p.onward marker (p.headOf marker q) = p.onward marker q := by
  have hhead : p.At (p.headOf marker q) f b := by
    rw [hq.headOf]
    exact hq
  rw [hhead.onward, hq.onward, hq.headOf, Block.onward, Block.onward, Block.nextCut?_headIndex]

/-- Control goes from heads to heads. -/
theorem WellFormed.mem_heads_of_onward (h : p.WellFormed) (hq : p.At q f b) (hr : r ∈ p.onward marker q) :
    r ∈ p.heads marker := by
  rw [hq.onward, Block.onward] at hr
  rw [mem_heads_iff]
  split at hr
  next k hcut =>
    cases List.mem_singleton.mp hr
    have hmark := (Block.nextCut?_eq_some_iff.mp hcut).2.1
    exact ⟨f, b, hq, Block.lt_length_of_marked hmark, .inr hmark⟩
  next =>
    obtain ⟨t, ht, rfl⟩ := List.mem_map.mp hr
    obtain ⟨target, hc, -⟩ := Function.getElem?_idxOf_of_mem ((h.block hq).targets t ht)
    have htarget : p.At ⟨q.function, f.labels.idxOf t, 0⟩ f target := ⟨hq.1, hc⟩
    exact ⟨f, target, htarget, List.length_pos_iff.mpr (h.block htarget).body_ne_nil, .inl rfl⟩

/-! ### Steps and heads -/

/-- What is left of the block of a position. -/
def remaining (p : Program) (q : Position) : Nat :=
  ((p.functions[q.function]?.bind fun f => f.blocks[q.block]?).map fun b => b.body.length - q.index).getD 0

theorem At.remaining (h : p.At q f b) : p.remaining q = b.body.length - q.index := by
  simp [Program.remaining, h.1, h.2]

/-- The last instruction of a block leads on to the blocks that it names. -/
theorem At.onward_of_last (hq : p.At q f b) (hlast : q.index + 1 = b.body.length) :
    p.onward marker q = b.successors.map fun t => ⟨q.function, f.labels.idxOf t, 0⟩ := by
  have hcut : b.nextCut? marker q.index = none := by
    refine Block.nextCut?_eq_none_iff.mpr fun m hm => ?_
    rw [Bool.eq_false_iff]
    intro hmark
    have := Block.lt_length_of_marked hmark
    omega
  rw [hq.onward, Block.onward, hcut]

/-- An instruction before a cut leads on to it. -/
theorem At.onward_of_marked (hq : p.At q f b) (hmark : b.marked marker (q.index + 1) = true) :
    p.onward marker q = [⟨q.function, q.block, q.index + 1⟩] := by
  rw [hq.onward, Block.onward, Block.nextCut?_of_marked hmark]

/-- Passing what is no cut changes neither the head behind nor those ahead. -/
theorem At.headOf_succ (hq : p.At q f b) (hmark : b.marked marker (q.index + 1) = false) :
    p.headOf marker ⟨q.function, q.block, q.index + 1⟩ = p.headOf marker q ∧
      p.onward marker ⟨q.function, q.block, q.index + 1⟩ = p.onward marker q := by
  have hr : p.At ⟨q.function, q.block, q.index + 1⟩ f b := hq
  constructor
  · rw [hr.headOf, hq.headOf, Block.headIndex]
    simp [hmark]
  · rw [hr.onward, hq.onward, Block.onward, Block.onward, ← Block.nextCut?_succ hmark]

/-- A step leads to a head ahead, or stays behind the same one. -/
theorem WellFormed.headOf_of_step (h : p.WellFormed) (hq : p.At q f b) (hstep : p.Step q r) :
    p.headOf marker r = p.headOf marker q ∧ p.remaining r < p.remaining q ∨
      p.headOf marker r ∈ p.onward marker q := by
  have hrp := h.mem_positions_of_step hq hstep
  rcases (h.step_iff hq).mp hstep with ⟨hk, rfl⟩ | ⟨hlast, t, ht, rfl⟩
  · have hr : p.At ⟨q.function, q.block, q.index + 1⟩ f b := hq
    cases hmark : b.marked marker (q.index + 1) with
    | true =>
      rw [hq.onward_of_marked hmark, hr.headOf, Block.headIndex_of_marked hmark]
      exact .inr List.mem_cons_self
    | false =>
      refine .inl ⟨(hq.headOf_succ hmark).1, ?_⟩
      rw [hr.remaining, hq.remaining]
      simp only
      omega
  · refine .inr ?_
    rw [hq.onward_of_last hlast, headOf_of_mem_heads]
    · exact List.mem_map.mpr ⟨t, ht, rfl⟩
    · obtain ⟨f', b', hr, hk⟩ := mem_positions_iff.mp hrp
      exact mem_heads_iff.mpr ⟨f', b', hr, hk, .inl rfl⟩

/-- Steps lead to every head ahead, and do not meet another one before. -/
theorem WellFormed.steps_of_onward (h : p.WellFormed) (hq : p.At q f b) (hk : q.index < b.body.length)
    (hr : r ∈ p.onward marker q) (hgoal : goal ∈ p.heads marker) (hne : p.headOf marker q ≠ goal) :
    TransGen (p.StepShort goal) q r := by
  -- along what is left of the block
  induction hn : b.body.length - q.index using Nat.strongRecOn generalizing q with
  | _ n ih =>
    have hqne : q ≠ goal := by
      rintro rfl
      exact hne (headOf_of_mem_heads hgoal)
    by_cases hlast : q.index + 1 = b.body.length
    · rw [hq.onward_of_last hlast] at hr
      obtain ⟨t, ht, rfl⟩ := List.mem_map.mp hr
      exact .single ⟨hqne, (h.step_iff hq).mpr (.inr ⟨hlast, t, ht, rfl⟩)⟩
    · have hlt : q.index + 1 < b.body.length := by omega
      have hstep : p.StepShort goal q ⟨q.function, q.block, q.index + 1⟩ :=
        ⟨hqne, (h.step_iff hq).mpr (.inl ⟨hlt, rfl⟩)⟩
      cases hmark : b.marked marker (q.index + 1) with
      | true =>
        rw [hq.onward_of_marked hmark] at hr
        cases List.mem_singleton.mp hr
        exact .single hstep
      | false =>
        obtain ⟨hhead, honward⟩ := hq.headOf_succ hmark
        refine .head hstep (ih _ ?_ hq hlt (by rw [honward]; exact hr) (by rw [hhead]; exact hne) rfl)
        simp only
        omega

/-- **From head to head**: walks along heads are a coarser picture of the runs that do not start behind the goal. -/
theorem WellFormed.collapse (h : p.WellFormed) (hgoal : goal ∈ p.heads marker) :
    Collapse (p.StepShort goal) (p.Leads marker goal)
      (fun q => q ∈ p.positions ∧ (p.headOf marker q = goal → q = goal)) (p.headOf marker) p.remaining where
  ok_step := by
    rintro q r ⟨hqp, hok⟩ ⟨hne, hstep⟩
    obtain ⟨f, b, hq, hk⟩ := mem_positions_iff.mp hqp
    refine ⟨h.mem_positions_of_step hq hstep, fun hrgoal => ?_⟩
    rcases (h.step_iff hq).mp hstep with ⟨-, rfl⟩ | ⟨hlast, t, ht, rfl⟩
    · cases hmark : b.marked marker (q.index + 1) with
      | true =>
        have hr : p.At ⟨q.function, q.block, q.index + 1⟩ f b := hq
        rwa [hr.headOf, Block.headIndex_of_marked hmark] at hrgoal
      | false =>
        rw [(hq.headOf_succ hmark).1] at hrgoal
        exact absurd (hok hrgoal) hne
    · rwa [headOf_of_mem_heads] at hrgoal
      obtain ⟨f', b', hr, hk⟩ := mem_positions_iff.mp (h.mem_positions_of_step hq hstep)
      exact mem_heads_iff.mpr ⟨f', b', hr, hk, .inl rfl⟩
  step := by
    rintro q r ⟨hqp, hok⟩ ⟨hne, hstep⟩
    obtain ⟨f, b, hq, hk⟩ := mem_positions_iff.mp hqp
    refine (h.headOf_of_step hq hstep).imp_right fun hr => ⟨fun hgq => hne (hok hgq), ?_⟩
    rwa [onward_headOf hq]
  lift := by
    rintro q r ⟨hqp, -⟩ ⟨hne, hr⟩
    obtain ⟨f, b, hq, hk⟩ := mem_positions_iff.mp hqp
    rw [onward_headOf hq] at hr
    exact ⟨r, h.steps_of_onward hq hk hr hgoal hne, headOf_of_mem_heads (h.mem_heads_of_onward hq hr)⟩

end Program

end Waymark
