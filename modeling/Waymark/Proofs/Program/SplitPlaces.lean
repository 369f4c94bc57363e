import Mathlib.Order.Monotone.Basic
import Waymark.Proofs.Program.SplitRules

/-!
# Where instructions stand in a split program

Every instruction of a well-formed program stands in one part of the split program (`Program.splitImage`), in its order
(`Program.splitImage_before`): a part holds the instructions of its block from one head up to the next
(`Program.PartAt.splitImage_eq`). What else stands in the split program are the branches from part to part
(`Program.WellFormed.exists_partAt_of_mem_positions_split`).
-/

namespace Waymark

/-! ## Heads in a block -/

namespace Block

variable {marker : String} {b : Block} {k n : Nat}

theorem headIndex_le (marker : String) (b : Block) (k : Nat) : b.headIndex marker k ≤ k := by
  induction k with
  | zero => exact Nat.le_refl 0
  | succ k ih =>
    rw [headIndex]
    split
    · exact Nat.le_refl _
    · omega

theorem headIndex_mono (marker : String) (b : Block) : Monotone (b.headIndex marker) := by
  apply monotone_nat_of_le_succ
  intro k
  have hle := b.headIndex_le marker k
  rw [headIndex]
  split
  · omega
  · exact Nat.le_refl _

theorem headIndex_eq_zero_or_marked (marker : String) (b : Block) (k : Nat) :
    b.headIndex marker k = 0 ∨ b.marked marker (b.headIndex marker k) = true := by
  induction k with
  | zero => exact .inl rfl
  | succ k ih =>
    rw [headIndex]
    split
    next h => exact .inr h
    next => exact ih

/-- The last head stays the same up to the next tracepoint call. -/
theorem headIndex_add (hn : n = 0 ∨ b.marked marker n = true)
    (hk : ∀ j, j < k → b.marked marker (n + j + 1) = false) : b.headIndex marker (n + k) = n := by
  induction k with
  | zero =>
    rcases hn with rfl | hn
    · rfl
    · exact headIndex_of_marked hn
  | succ k ih =>
    rw [← Nat.add_assoc, headIndex, hk k (Nat.lt_succ_self k)]
    exact ih fun j hj => hk j (by omega)

end Block

/-! ## How far a part reaches -/

namespace Part.Fits

variable {marker l : String} {b : Block} {c : Part} {all : List Part} {j : Nat}

theorem body_length_pos (h : c.Fits marker b all) : 0 < c.body.length := by
  obtain ⟨i, is, _, hbody, -⟩ := h
  rw [hbody]
  exact Nat.succ_pos _

theorem getElem?_start_add (h : c.Fits marker b all) (hj : j < c.body.length) :
    b.body[c.start + j]? = c.body[j]? := by
  obtain ⟨i, is, rest, -, hdrop, -⟩ := h
  rw [← List.getElem?_drop, hdrop, List.getElem?_append_left hj]

theorem start_add_lt (h : c.Fits marker b all) (hj : j < c.body.length) : c.start + j < b.body.length := by
  have hget := h.getElem?_start_add hj
  rw [List.getElem?_eq_getElem hj] at hget
  exact (List.getElem?_eq_some_iff.mp hget).1

/-- Past its start a part holds no tracepoint call. -/
theorem marked_start_add (h : c.Fits marker b all) (hj : j + 1 < c.body.length) :
    b.marked marker (c.start + j + 1) = false := by
  rw [Block.marked, Nat.add_assoc, h.getElem?_start_add hj]
  obtain ⟨i, is, _, hbody, -, his, -⟩ := h
  rw [hbody, List.getElem?_cons_succ, Option.any_eq_false]
  exact fun x hx => by simpa using his x (List.mem_of_getElem? hx)

theorem end_of_none (h : c.Fits marker b all) (hnext : c.next? = none) :
    c.start + c.body.length = b.body.length ∧ c.toBlock.body = c.body := by
  have hpos := h.body_length_pos
  have hlen := congrArg List.length (h.nextCut?_of_none hnext).2
  rw [List.length_drop] at hlen
  refine ⟨by omega, ?_⟩
  simp [toBlock, hnext]

theorem end_of_some (h : c.Fits marker b all) (hnext : c.next? = some l) :
    b.marked marker (c.start + c.body.length) = true ∧ c.toBlock.body = c.body ++ [.br l] := by
  refine ⟨(Block.nextCut?_eq_some_iff.mp (h.nextCut?_of_some hnext)).2.1, ?_⟩
  simp [toBlock, hnext]

/-- What is last in a part is last in its block, save for the branch that is put there. -/
theorem length_toBlock (h : c.Fits marker b all) (hj : j < c.body.length) :
    (j + 1 < c.toBlock.body.length ↔ c.start + j + 1 < b.body.length) ∧
      (j + 1 = c.toBlock.body.length ↔ c.start + j + 1 = b.body.length) := by
  cases hnext : c.next? with
  | none =>
    obtain ⟨hend, hbody⟩ := h.end_of_none hnext
    rw [hbody]
    omega
  | some l =>
    obtain ⟨hmark, hbody⟩ := h.end_of_some hnext
    have := Block.lt_length_of_marked hmark
    rw [hbody, List.length_append, List.length_singleton]
    omega

/-- The part at the end of a block leads where the block leads. -/
theorem successors_of_last (h : c.Fits marker b all) (hj : j < c.body.length)
    (hlast : c.start + j + 1 = b.body.length) : c.toBlock.successors = b.successors := by
  rw [h.successors]
  cases hnext : c.next? with
  | none => rfl
  | some l =>
    have := Block.lt_length_of_marked (h.end_of_some hnext).1
    omega

/-- The instruction behind a part is a tracepoint call, or there is none. -/
theorem lt_body_length_of_not_marked (h : c.Fits marker b all) (hj : j < c.body.length)
    (hlt : c.start + j + 1 < b.body.length) (hmark : b.marked marker (c.start + j + 1) = false) :
    j + 1 < c.body.length := by
  by_contra hlast
  have hlen : c.start + j + 1 = c.start + c.body.length := by omega
  cases hnext : c.next? with
  | none =>
    have := (h.end_of_none hnext).1
    omega
  | some l =>
    rw [hlen, (h.end_of_some hnext).1] at hmark
    cases hmark

end Part.Fits

/-! ## Positions in the split program -/

/-- Places in a list that is in the order of the text are in that order. -/
theorem Position.Before.idxOf_lt {l : List Position} {q r : Position} (h : q.Before r) (hl : l.Pairwise Before)
    (hq : q ∈ l) (hr : r ∈ l) : l.idxOf q < l.idxOf r := by
  have hqlt := List.idxOf_lt_length_of_mem hq
  have hrlt := List.idxOf_lt_length_of_mem hr
  rcases Nat.lt_trichotomy (l.idxOf q) (l.idxOf r) with hlt | heq | hgt
  · exact hlt
  · exact absurd ((List.idxOf_inj hq).mp heq) h.ne
  · have hback := List.pairwise_iff_getElem.mp hl _ _ hrlt hqlt hgt
    rw [List.getElem_idxOf, List.getElem_idxOf] at hback
    exact absurd hback h.asymm

namespace Program

/-- Where an instruction of the program stands in the split program: the heads of its function are the starts of the
new blocks, in order. -/
def splitImage (marker : String) (p : Program) (q : Position) : Position :=
  ⟨q.function, (p.functions[q.function]?.map fun f => (f.heads marker q.function).idxOf (p.headOf marker q)).getD 0,
    q.index - (p.headOf marker q).index⟩

/-- The block number `n` of the split function number `i` is the part `c` of the block `b`. -/
structure PartAt (marker : String) (p : Program) (i n : Nat) (f : Function) (b : Block) (c : Part) : Prop where
  function : p.functions[i]? = some f
  part : (f.parts marker)[n]? = some c
  block : f.blocks[c.block]? = some b
  fits : c.Fits marker b (f.parts marker)

variable {marker l : String} {p : Program} {q r m s : Position} {f : Function} {b : Block} {c : Part} {i j k n : Nat}

theorem WellFormed.exists_partAt (h : p.WellFormed) (hf : p.functions[i]? = some f)
    (hc : (f.parts marker)[n]? = some c) : ∃ b, p.PartAt marker i n f b c := by
  have hwf := h.functions f (List.mem_of_getElem? hf)
  obtain ⟨b, hb, hfits⟩ := fits_of_mem_parts (fun b hb => (hwf.blocks b hb).body_ne_nil) (List.mem_of_getElem? hc)
  exact ⟨b, hf, hc, List.mk_mem_zipIdx_iff_getElem?.mp hb, hfits⟩

namespace PartAt

theorem at_program (hc : p.PartAt marker i n f b c) (k : Nat) : p.At ⟨i, c.block, k⟩ f b := ⟨hc.function, hc.block⟩

theorem getElem?_split (hc : p.PartAt marker i n f b c) : (f.split marker).1.blocks[n]? = some c.toBlock := by
  rw [f.blocks_split, List.getElem?_map, hc.part]
  rfl

theorem at_split (hc : p.PartAt marker i n f b c) (k : Nat) :
    (p.split marker).program.At ⟨i, n, k⟩ (f.split marker).1 c.toBlock := by
  refine ⟨?_, hc.getElem?_split⟩
  show (p.functions.map fun f => (f.split marker).1)[i]? = some (f.split marker).1
  rw [List.getElem?_map, hc.function]
  rfl

theorem wellFormed (hc : p.PartAt marker i n f b c) (h : p.WellFormed) : f.WellFormed :=
  h.functions f (List.mem_of_getElem? hc.function)

/-- The label of a part leads to its number. -/
theorem idxOf_label (hc : p.PartAt marker i n f b c) (h : p.WellFormed) :
    (f.split marker).1.labels.idxOf c.label = n :=
  ((hc.wellFormed h).split marker).idxOf_label hc.getElem?_split

theorem getElem?_heads (hc : p.PartAt marker i n f b c) (h : p.WellFormed) :
    (f.heads marker i)[n]? = some (c.place i) := by
  rw [(hc.wellFormed h).heads_eq_map_place, List.getElem?_map, hc.part]
  rfl

/-- A part starts at the start of its block or at a tracepoint call. -/
theorem start_eq_zero_or_marked (hc : p.PartAt marker i n f b c) (h : p.WellFormed) :
    c.start = 0 ∨ b.marked marker c.start = true := by
  have hmem := List.mem_of_getElem? (hc.getElem?_heads h)
  obtain ⟨f', b', hat, -, hhead⟩ := mem_heads_iff.mp ((mem_function_heads_iff hc.function).mp hmem).1
  obtain ⟨-, rfl⟩ := hat.unique (hc.at_program c.start)
  exact hhead

/-- **Where instructions stand**: a part holds the instructions of its block from its start on. -/
theorem splitImage_eq (hc : p.PartAt marker i n f b c) (h : p.WellFormed) (hj : j < c.body.length) :
    p.splitImage marker ⟨i, c.block, c.start + j⟩ = ⟨i, n, j⟩ := by
  have hhead : b.headIndex marker (c.start + j) = c.start :=
    Block.headIndex_add (hc.start_eq_zero_or_marked h) fun k hk => hc.fits.marked_start_add (by omega)
  have hheadOf : p.headOf marker ⟨i, c.block, c.start + j⟩ = c.place i := by
    rw [(hc.at_program _).headOf, hhead]
    rfl
  obtain ⟨hlt, hget⟩ := List.getElem?_eq_some_iff.mp (hc.getElem?_heads h)
  have hindex : (f.heads marker i).idxOf (c.place i) = n := by
    rw [← hget]
    exact (f.nodup_heads marker i).idxOf_getElem n hlt
  rw [splitImage, hheadOf]
  simp only [hc.function, Option.map_some, Option.getD_some, hindex]
  simp [Part.place]

end PartAt

/-- Every position of a function lies behind one of its heads. -/
theorem headOf_mem_heads (marker : String) (hq : q ∈ p.positions) (hf : p.functions[q.function]? = some f) :
    p.headOf marker q ∈ f.heads marker q.function ∧ (p.headOf marker q).index ≤ q.index := by
  obtain ⟨f', b, hat, hk⟩ := mem_positions_iff.mp hq
  have hle := b.headIndex_le marker q.index
  rw [hat.headOf]
  refine ⟨(mem_function_heads_iff hf).mpr ⟨mem_heads_iff.mpr ⟨f', b, hat, ?_, ?_⟩, rfl⟩, hle⟩
  · exact Nat.lt_of_le_of_lt hle hk
  · exact b.headIndex_eq_zero_or_marked marker q.index

/-- **Every instruction** of the program stands in a part. -/
theorem WellFormed.exists_partAt_of_mem_positions (h : p.WellFormed) (marker : String) (hq : q ∈ p.positions) :
    ∃ i n j f b c, p.PartAt marker i n f b c ∧ j < c.body.length ∧ q = ⟨i, c.block, c.start + j⟩ := by
  obtain ⟨f, b, hat, hk⟩ := mem_positions_iff.mp hq
  have hle := b.headIndex_le marker q.index
  have hhead := (headOf_mem_heads marker hq hat.1).1
  rw [(h.function hat).heads_eq_map_place, hat.headOf] at hhead
  obtain ⟨c, hmem, hplace⟩ := List.mem_map.mp hhead
  obtain ⟨n, hn⟩ := List.mem_iff_getElem?.mp hmem
  obtain ⟨b', hc⟩ := h.exists_partAt hat.1 hn
  have hblock : c.block = q.block := congrArg Position.block hplace
  have hstart : c.start = b.headIndex marker q.index := congrArg Position.index hplace
  obtain rfl : b = b' := by
    have hb := hc.block
    rw [hblock, hat.2] at hb
    exact Option.some.inj hb
  refine ⟨q.function, n, q.index - c.start, f, b, c, hc, ?_, ?_⟩
  · cases hnext : c.next? with
    | none =>
      have := (hc.fits.end_of_none hnext).1
      omega
    | some l =>
      have hcut := hc.fits.nextCut?_of_some hnext
      rw [hstart, Block.nextCut?_headIndex] at hcut
      have := (Block.nextCut?_eq_some_iff.mp hcut).1
      omega
  · have hindex : c.start + (q.index - c.start) = q.index := by omega
    rw [hindex, hblock]

/-- Every instruction of the split program stands in a part, or is the branch behind one. -/
theorem WellFormed.exists_partAt_of_mem_positions_split (h : p.WellFormed)
    (hm : m ∈ (p.split marker).program.positions) :
    ∃ i n j f b c, p.PartAt marker i n f b c ∧ m = ⟨i, n, j⟩ ∧
      (j < c.body.length ∨ j = c.body.length ∧ ∃ l, c.next? = some l) := by
  obtain ⟨f', b', ⟨hf', hb⟩, hk⟩ := mem_positions_iff.mp hm
  have hmap : (p.functions.map fun f => (f.split marker).1)[m.function]? = some f' := hf'
  rw [List.getElem?_map, Option.map_eq_some_iff] at hmap
  obtain ⟨f, hf, rfl⟩ := hmap
  rw [f.blocks_split, List.getElem?_map, Option.map_eq_some_iff] at hb
  obtain ⟨c, hn, rfl⟩ := hb
  obtain ⟨b, hc⟩ := h.exists_partAt hf hn
  refine ⟨m.function, m.block, m.index, f, b, c, hc, rfl, ?_⟩
  cases hnext : c.next? with
  | none =>
    rw [(hc.fits.end_of_none hnext).2] at hk
    exact .inl hk
  | some l =>
    rw [(hc.fits.end_of_some hnext).2, List.length_append, List.length_singleton] at hk
    rcases Nat.lt_or_eq_of_le (Nat.le_of_lt_succ hk) with hlt | heq
    · exact .inl hlt
    · exact .inr ⟨heq, l, rfl⟩

/-! ## Their order -/

/-- Positions of one function lie behind the same head, or behind heads in their order. -/
theorem headOf_before (marker : String) (hq : q ∈ p.positions) (hr : r ∈ p.positions)
    (hfn : q.function = r.function) (hqr : q.Before r) :
    p.headOf marker q = p.headOf marker r ∧ q.index < r.index ∨ (p.headOf marker q).Before (p.headOf marker r) := by
  obtain ⟨f, b, hat, -⟩ := mem_positions_iff.mp hq
  obtain ⟨f', b', hat', -⟩ := mem_positions_iff.mp hr
  rw [hat.headOf, hat'.headOf]
  rcases hqr with hlt | ⟨-, hlt | ⟨hblock, hlt⟩⟩
  · omega
  · exact .inr (.inr ⟨hfn, .inl hlt⟩)
  · have hqr : p.At q f' b' := by rwa [At, hfn, hblock]
    obtain ⟨rfl, rfl⟩ := hat.unique hqr
    have hle := b.headIndex_mono marker (Nat.le_of_lt hlt)
    rcases Nat.lt_or_eq_of_le hle with hhead | hhead
    · exact .inr (.inr ⟨hfn, .inr ⟨hblock, hhead⟩⟩)
    · exact .inl ⟨by rw [hfn, hblock, hhead], hlt⟩

/-- The text of the program keeps its order. -/
theorem splitImage_before (hq : q ∈ p.positions) (hr : r ∈ p.positions) (hqr : q.Before r) :
    (p.splitImage marker q).Before (p.splitImage marker r) := by
  by_cases hfn : q.function = r.function
  · obtain ⟨f, _, hat, -⟩ := mem_positions_iff.mp hq
    have hf : p.functions[r.function]? = some f := hfn ▸ hat.1
    obtain ⟨hqhead, hqle⟩ := headOf_mem_heads marker hq hat.1
    obtain ⟨hrhead, hrle⟩ := headOf_mem_heads marker hr hf
    rw [hfn] at hqhead
    unfold splitImage
    rw [hfn, hf, Option.map_some, Option.getD_some, Option.map_some, Option.getD_some]
    rcases headOf_before marker hq hr hfn hqr with ⟨hhead, hlt⟩ | hhead
    · refine .inr ⟨rfl, .inr ⟨by rw [hhead], ?_⟩⟩
      rw [hhead] at hqle
      show q.index - (p.headOf marker q).index < r.index - (p.headOf marker r).index
      rw [hhead]
      omega
    · exact .inr ⟨rfl, .inl (hhead.idxOf_lt (f.pairwise_heads marker _) hqhead hrhead)⟩
  · refine .inl ?_
    show q.function < r.function
    unfold Position.Before at hqr
    omega

theorem splitImage_injOn (hq : q ∈ p.positions) (hr : r ∈ p.positions)
    (heq : p.splitImage marker q = p.splitImage marker r) : q = r := by
  rcases Position.before_trichotomy q r with hqr | hqr | hqr
  · exact absurd heq (splitImage_before hq hr hqr).ne
  · exact hqr
  · exact absurd heq.symm (splitImage_before hr hq hqr).ne

theorem WellFormed.splitImage_mem_positions (h : p.WellFormed) (hq : q ∈ p.positions) :
    p.splitImage marker q ∈ (p.split marker).program.positions := by
  obtain ⟨i, n, j, f, b, c, hc, hj, rfl⟩ := h.exists_partAt_of_mem_positions marker hq
  rw [hc.splitImage_eq h hj]
  refine mem_positions_iff.mpr ⟨_, _, hc.at_split j, ?_⟩
  simp only [Part.toBlock, List.length_append]
  omega

/-- The instructions of the program are found where they stand. -/
theorem WellFormed.instruction?_splitImage (h : p.WellFormed) (hq : q ∈ p.positions) :
    (p.split marker).program.instruction? (p.splitImage marker q) = p.instruction? q := by
  obtain ⟨i, n, j, f, b, c, hc, hj, rfl⟩ := h.exists_partAt_of_mem_positions marker hq
  rw [hc.splitImage_eq h hj, (hc.at_split j).instruction?, (hc.at_program _).instruction?]
  simp only [Part.toBlock, List.getElem?_append_left hj, hc.fits.getElem?_start_add hj]

end Program

end Waymark
