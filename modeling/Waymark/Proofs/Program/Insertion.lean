import Waymark.Proofs.Program.Positions

/-!
# One more instruction

An `op` put before an instruction of a program (`Program.insertOp`) moves what follows in that block on by one
(`Position.shift`). The program stays well formed (`Program.WellFormed.insertOp`), and the last call of every tracepoint
is the same call as before (`Program.lastCall?_insertOp`).
-/

namespace Waymark

/-- Puts an `op` before the instruction number `k`. -/
def Block.insertOp (k : Nat) (name : String) (b : Block) : Block :=
  { b with body := b.body.insertIdx k (.op name) }

/-- Puts an `op` before an instruction of the block number `c`. -/
def Function.insertOp (c k : Nat) (name : String) (f : Function) : Function :=
  { f with blocks := f.blocks.modify c (·.insertOp k name) }

/-- Puts an `op` before the instruction at a position. -/
def Program.insertOp (p : Program) (q : Position) (name : String) : Program :=
  ⟨p.functions.modify q.function (·.insertOp q.block q.index name)⟩

/-- Where the instruction at `r` stands after one was put before that at `q`. -/
def Position.shift (q r : Position) : Position :=
  ⟨r.function, r.block,
    if r.function = q.function ∧ r.block = q.block ∧ q.index ≤ r.index then r.index + 1 else r.index⟩

/-! ## Positions -/

namespace Position

variable {q r s : Position}

theorem shift_before_shift (h : r.Before s) : (q.shift r).Before (q.shift s) := by
  unfold Before at h ⊢
  simp only [shift]
  split <;> split <;> omega

theorem shift_injective (q : Position) : Function.Injective q.shift := by
  rintro ⟨rf, rb, rk⟩ ⟨sf, sb, sk⟩ h
  simp only [shift, mk.injEq] at h ⊢
  obtain ⟨rfl, rfl, h⟩ := h
  refine ⟨rfl, rfl, ?_⟩
  split at h <;> split at h <;> omega

theorem shift_ne_self (q r : Position) : q.shift r ≠ q := by
  intro h
  have hf : (q.shift r).function = q.function := by rw [h]
  have hb : (q.shift r).block = q.block := by rw [h]
  have hk : (q.shift r).index = q.index := by rw [h]
  simp only [shift] at hf hb
  simp only [shift, hf, hb, true_and] at hk
  split at hk <;> omega

/-- A position is the new one, or that of an old instruction. -/
theorem eq_or_exists_shift (q s : Position) : s = q ∨ ∃ r, q.shift r = s := by
  obtain ⟨sf, sb, sk⟩ := s
  by_cases hlt : sf = q.function ∧ sb = q.block ∧ q.index < sk
  · obtain ⟨rfl, rfl, hk⟩ := hlt
    refine .inr ⟨⟨q.function, q.block, sk - 1⟩, ?_⟩
    simp only [shift, true_and, mk.injEq]
    rw [if_pos (by omega)]
    omega
  · by_cases heq : (⟨sf, sb, sk⟩ : Position) = q
    · exact .inl heq
    · refine .inr ⟨⟨sf, sb, sk⟩, ?_⟩
      simp only [shift, mk.injEq, true_and, ite_eq_right_iff]
      rintro ⟨rfl, rfl, hle⟩
      refine absurd ?_ heq
      have : sk = q.index := by omega
      rw [this]

theorem shift_self (q : Position) : q.shift q = ⟨q.function, q.block, q.index + 1⟩ := by
  simp [shift]

theorem index_le_index_shift (q r : Position) : r.index ≤ (q.shift r).index := by
  simp only [shift]
  split <;> omega

/-- What stands at the start of a block stays there, unless it is what the new instruction was put before. -/
theorem shift_eq_self_of_index_eq_zero (hr : r.index = 0) (hne : r ≠ q) : q.shift r = r := by
  obtain ⟨rf, rb, rk⟩ := r
  simp only at hr
  simp only [shift, mk.injEq, true_and, ite_eq_right_iff]
  rintro ⟨rfl, rfl, hle⟩
  refine absurd ?_ hne
  have : rk = q.index := by omega
  rw [this]

theorem index_shift_eq_zero (h : (q.shift r).index = 0) : q.shift r = r := by
  obtain ⟨rf, rb, rk⟩ := r
  simp only [shift, mk.injEq, true_and] at h ⊢
  split at h
  · omega
  next hn => rw [if_neg hn]

end Position

/-- A change of one member of a list. -/
theorem getElem?_modify_eq_some_iff {α : Type} {l : List α} {g : α → α} {m n : Nat} {y : α} :
    (l.modify m g)[n]? = some y ↔ ∃ x, l[n]? = some x ∧ (if n = m then g x else x) = y := by
  rw [List.getElem?_modify, Option.map_eq_map, Option.map_eq_some_iff]
  simp only [eq_comm]

/-- A change that a projection does not see. -/
theorem map_modify_of_keeps {α β : Type} {l : List α} {g : α → α} {h : α → β} (hg : ∀ x, h (g x) = h x) (m : Nat) :
    (l.modify m g).map h = l.map h := by
  refine List.ext_getElem? fun n => ?_
  simp only [List.getElem?_map, List.getElem?_modify]
  cases l[n]? with
  | none => rfl
  | some x =>
    simp only [Option.map_eq_map, Option.map_some]
    split
    · rw [hg]
    · rfl

theorem Function.labels_insertOp (c k : Nat) (name : String) (f : Function) :
    (f.insertOp c k name).labels = f.labels := by
  unfold labels insertOp
  exact map_modify_of_keeps (by intro b; rfl) c

namespace Program

variable {marker name : String} {p : Program} {q r s : Position} {f : Function} {b : Block}

/-- Every block is an old one, or the one with the new instruction. -/
theorem at_insertOp_iff {f' : Function} {b' : Block} :
    (p.insertOp q name).At r f' b' ↔
      ∃ f b, p.At r f b ∧ (if r.function = q.function then f.insertOp q.block q.index name else f) = f' ∧
        (if r.function = q.function ∧ r.block = q.block then b.insertOp q.index name else b) = b' := by
  simp only [At, insertOp, getElem?_modify_eq_some_iff]
  constructor
  · rintro ⟨⟨f, hf, rfl⟩, hb⟩
    split at hb
    next hfn =>
      obtain ⟨b, hb', rfl⟩ := getElem?_modify_eq_some_iff.mp hb
      exact ⟨f, b, ⟨hf, hb'⟩, rfl, by simp [hfn]⟩
    next hfn => exact ⟨f, b', ⟨hf, hb⟩, rfl, by simp [hfn]⟩
  · rintro ⟨f, b, ⟨hf, hb⟩, rfl, rfl⟩
    refine ⟨⟨f, hf, rfl⟩, ?_⟩
    split
    next hfn => exact getElem?_modify_eq_some_iff.mpr ⟨b, hb, by simp [hfn]⟩
    next hfn => simpa [hfn] using hb

theorem At.insertOp (h : p.At r f b) (q : Position) (name : String) :
    ∃ f', f'.labels = f.labels ∧ (p.insertOp q name).At r f'
      (if r.function = q.function ∧ r.block = q.block then b.insertOp q.index name else b) := by
  refine ⟨_, ?_, at_insertOp_iff.mpr ⟨f, b, h, rfl, rfl⟩⟩
  split
  · exact f.labels_insertOp ..
  · rfl

/-- The old instructions are found where they were moved to. -/
@[simp] theorem instruction?_insertOp_shift (p : Program) (q r : Position) (name : String) :
    (p.insertOp q name).instruction? (q.shift r) = p.instruction? r := by
  by_cases hat : ∃ f b, p.At r f b
  · obtain ⟨f, b, hat⟩ := hat
    obtain ⟨f', -, hat'⟩ := hat.insertOp q name
    have hshift : (p.insertOp q name).At (q.shift r) f' _ := hat'
    rw [hshift.instruction?, hat.instruction?]
    by_cases hblock : r.function = q.function ∧ r.block = q.block
    · rw [if_pos hblock]
      simp only [Block.insertOp, Position.shift, hblock, true_and, List.getElem?_insertIdx]
      by_cases hk : q.index ≤ r.index
      · simp [hk, Nat.not_lt.mpr (Nat.le_succ_of_le hk), Nat.ne_of_gt (Nat.lt_succ_of_le hk)]
      · simp [hk, Nat.not_le.mp hk]
    · rw [if_neg hblock]
      simp only [Position.shift, ← and_assoc, hblock, false_and, if_false]
  · have hnone : p.instruction? r = none := by
      rw [Option.eq_none_iff_forall_ne_some]
      rintro i hi
      obtain ⟨f, b, h, -⟩ := instruction?_eq_some_iff.mp hi
      exact hat ⟨f, b, h⟩
    rw [hnone, Option.eq_none_iff_forall_ne_some]
    rintro i hi
    obtain ⟨f', b', h, -⟩ := instruction?_eq_some_iff.mp hi
    obtain ⟨f, b, h, -⟩ := at_insertOp_iff.mp h
    exact hat ⟨f, b, h⟩

/-- The new instruction is found where it was put. -/
theorem instruction?_insertOp_self (hq : q ∈ p.positions) (name : String) :
    (p.insertOp q name).instruction? q = some (.op name) := by
  obtain ⟨f, b, hat, hk⟩ := mem_positions_iff.mp hq
  obtain ⟨f', -, hat'⟩ := hat.insertOp q name
  rw [hat'.instruction?, if_pos ⟨rfl, rfl⟩]
  simp [Block.insertOp, List.getElem?_insertIdx_self, Nat.le_of_lt hk]

/-! ## Calls -/

/-- **The last call** of a tracepoint is the same call. -/
theorem lastCall?_insertOp (hq : q ∈ p.positions) (marker name x : String) :
    (p.insertOp q name).lastCall? marker x = (p.lastCall? marker x).map q.shift := by
  apply lastCall?_eq_map
  · intro s
    constructor
    · intro hs
      rcases Position.eq_or_exists_shift q s with rfl | ⟨r, rfl⟩
      · rw [Calls, instruction?_insertOp_self hq] at hs
        cases hs
      · exact ⟨r, by simpa [Calls] using hs, rfl⟩
    · rintro ⟨r, hr, rfl⟩
      simpa [Calls] using hr
  · exact fun r s _ _ hrs => Position.shift_before_shift hrs

end Program

/-! ## Rules -/

theorem insertIdx_concat {α : Type} {l : List α} {k : Nat} (hk : k ≤ l.length) (x y : α) :
    (l ++ [y]).insertIdx k x = l.insertIdx k x ++ [y] := by
  induction l generalizing k with
  | nil =>
    cases Nat.le_zero.mp hk
    rfl
  | cons z l ih =>
    cases k with
    | zero => rfl
    | succ k => simp [ih (Nat.le_of_succ_le_succ hk)]

namespace Block

variable {b : Block} {k : Nat} {labels : List String}

/-- A block keeps its last instruction. -/
theorem exists_body_insertOp (hk : k < b.body.length) (name : String) :
    ∃ init i, b.body = init ++ [i] ∧ k ≤ init.length ∧
      (b.insertOp k name).body = init.insertIdx k (.op name) ++ [i] := by
  rcases List.eq_nil_or_concat b.body with hnil | ⟨init, i, hbody⟩
  · simp [hnil] at hk
  · rw [List.concat_eq_append] at hbody
    have hle : k ≤ init.length := by
      rw [hbody, List.length_append] at hk
      exact Nat.le_of_lt_succ hk
    refine ⟨init, i, hbody, hle, ?_⟩
    rw [insertOp, hbody, insertIdx_concat hle]

theorem terminator?_insertOp (hk : k < b.body.length) (name : String) :
    (b.insertOp k name).terminator? = b.terminator? := by
  obtain ⟨init, i, hbody, -, hinsert⟩ := exists_body_insertOp hk name
  rw [terminator?, terminator?, hbody, hinsert, List.getLast?_concat, List.getLast?_concat]

theorem successors_insertOp (hk : k < b.body.length) (name : String) :
    (b.insertOp k name).successors = b.successors := by
  rw [successors, successors, terminator?_insertOp hk]

theorem WellFormed.insertOp (h : b.WellFormed labels) (hk : k < b.body.length) (name : String) :
    (b.insertOp k name).WellFormed labels := by
  obtain ⟨init, i, hbody, hle, hinsert⟩ := exists_body_insertOp hk name
  obtain ⟨hends, honly, htargets⟩ := h
  rw [hbody] at hends honly
  refine ⟨?_, fun j hj => ?_, by rw [successors_insertOp hk]; exact htargets⟩
  · rw [hinsert]
    simpa using hends
  · rw [hinsert, List.dropLast_concat] at hj
    rw [List.dropLast_concat] at honly
    rcases (List.mem_insertIdx hle).mp hj with rfl | hj
    · rfl
    · exact honly j hj

end Block

theorem Function.WellFormed.insertOp {f : Function} {b : Block} {c k : Nat} (h : f.WellFormed)
    (hb : f.blocks[c]? = some b) (hk : k < b.body.length) (name : String) : (f.insertOp c k name).WellFormed := by
  refine ⟨?_, ?_, fun b' hb' => ?_⟩
  · simpa [Function.insertOp] using h.nonempty
  · rw [f.labels_insertOp]
    exact h.labels
  · rw [f.labels_insertOp]
    obtain ⟨m, hm⟩ := List.mem_iff_getElem?.mp hb'
    obtain ⟨b₀, hb₀, rfl⟩ := getElem?_modify_eq_some_iff.mp hm
    have hwf := h.blocks b₀ (List.mem_of_getElem? hb₀)
    split
    next hmc =>
      subst hmc
      cases hb.symm.trans hb₀
      exact hwf.insertOp hk name
    next => exact hwf

namespace Program

variable {marker name : String} {p : Program} {q r s : Position} {f : Function} {b : Block}

/-- A well-formed program stays well formed. -/
theorem WellFormed.insertOp (h : p.WellFormed) (hq : q ∈ p.positions) (name : String) :
    (p.insertOp q name).WellFormed := by
  obtain ⟨f, b, hat, hk⟩ := mem_positions_iff.mp hq
  refine ⟨?_, fun f' hf' => ?_⟩
  · have hnames : (p.insertOp q name).functions.map (·.name) = p.functions.map (·.name) := by
      unfold Program.insertOp
      exact map_modify_of_keeps (by intro f; rfl) q.function
    rw [hnames]
    exact h.names
  · obtain ⟨m, hm⟩ := List.mem_iff_getElem?.mp hf'
    obtain ⟨f₀, hf₀, rfl⟩ := getElem?_modify_eq_some_iff.mp hm
    have hwf := h.functions f₀ (List.mem_of_getElem? hf₀)
    split
    next hmf =>
      subst hmf
      cases hat.1.symm.trans hf₀
      exact hwf.insertOp hat.2 hk name
    next => exact hwf

/-- Every block leads where it led before. -/
theorem At.exists_insertOp (h : p.At r f b) (hq : q ∈ p.positions) (name : String) :
    ∃ f' b', f'.labels = f.labels ∧ b'.successors = b.successors ∧ (p.insertOp q name).At r f' b' := by
  obtain ⟨f', hlabels, hat'⟩ := h.insertOp q name
  refine ⟨f', _, hlabels, ?_, hat'⟩
  split
  next hblock =>
    obtain ⟨g, c, hqat, hk⟩ := mem_positions_iff.mp hq
    have hqr : p.At q f b := by rwa [At, ← hblock.1, ← hblock.2]
    obtain ⟨-, rfl⟩ := hqat.unique hqr
    exact Block.successors_insertOp hk name
  next => rfl

end Program

end Waymark
