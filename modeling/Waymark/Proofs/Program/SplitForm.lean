import Waymark.Proofs.Program.Split

/-!
# Split programs

A program is split if tracepoint calls stand at the heads of its blocks and nowhere else. Splitting makes every program
such a one (`Program.isSplit_split`) and leaves those as they are (`Program.IsSplit.split_eq`), so that it makes no
difference whether a program is split once or twice (`Program.split_split`). Nothing is asked of the program for this:
labels may repeat, targets may be missing, and blocks may be empty.
-/

namespace Waymark

/-- No instruction but the first one of a block marks a tracepoint. -/
def Block.IsSplit (marker : String) (b : Block) : Prop := ∀ i ∈ b.body.tail, i.isTracepoint marker = false

/-- All blocks of a program are split. -/
def Program.IsSplit (marker : String) (p : Program) : Prop := ∀ f ∈ p.functions, ∀ b ∈ f.blocks, b.IsSplit marker

variable {marker function label : String} {taken : List String} {b : Block} {bs : List Block} {p : Program}

/-! ## Split programs stay as they are -/

theorem cutAtTracepoints_of_forall {is : List Instruction} (h : ∀ i ∈ is, i.isTracepoint marker = false) :
    cutAtTracepoints marker is = (is, []) := by
  induction is with
  | nil => rfl
  | cons i is ih =>
    rw [List.forall_mem_cons] at h
    simp [cutAtTracepoints, ih h.2, h.1]

/-- A split block is its own only piece. -/
theorem Block.IsSplit.pieces_eq_self (h : b.IsSplit marker) : b.pieces marker = (b.body, []) := by
  cases hb : b.body with
  | nil => simp [pieces, hb]
  | cons i is =>
    have his : ∀ j ∈ is, j.isTracepoint marker = false := by simpa [IsSplit, hb] using h
    rw [pieces_eq hb, cutAtTracepoints_of_forall his]

theorem splitBlocks_of_isSplit (h : ∀ b ∈ bs, b.IsSplit marker) :
    splitBlocks marker function taken bs = (bs, []) := by
  induction bs generalizing taken with
  | nil => rfl
  | cons b bs ih =>
    rw [List.forall_mem_cons] at h
    simp [splitBlocks, h.1.pieces_eq_self, ih h.2, chain, chainCuts]

/-- **A split program stays as it is**, and no cut is made in it. -/
theorem Program.IsSplit.split_eq (h : p.IsSplit marker) : p.split marker = ⟨p, []⟩ := by
  have hf : ∀ f ∈ p.functions, f.split marker = (f, []) := fun f hf => by
    rw [Function.split, splitBlocks_of_isSplit (h f hf)]
  have hprogram : (p.functions.map fun f => (f.split marker).1) = p.functions :=
    (List.map_congr_left fun f hm => congrArg Prod.fst (hf f hm)).trans (List.map_id _)
  have hcuts : (p.functions.flatMap fun f => (f.split marker).2) = [] :=
    List.flatMap_eq_nil_iff.mpr fun f hm => by rw [hf f hm]
  rw [Program.split, hprogram, hcuts]

/-! ## Splitting makes split programs -/

/-- Every block of a chain is split if the pieces are: the branch behind a piece marks no tracepoint. -/
theorem isSplit_of_mem_chain {body : List Instruction} {links : List (String × Piece)}
    (hbody : ∀ i ∈ body.tail, i.isTracepoint marker = false) (hlinks : ∀ link ∈ links, link.2.Sharp marker)
    (hb : b ∈ chain label body links) : b.IsSplit marker := by
  induction links generalizing label body with
  | nil =>
    rw [List.mem_singleton.mp hb]
    exact hbody
  | cons link links ih =>
    obtain ⟨next, piece⟩ := link
    rw [List.forall_mem_cons] at hlinks
    rcases List.mem_cons.mp hb with rfl | hb
    · intro i hi
      cases body with
      | nil => cases hi
      | cons j js =>
        rcases List.mem_append.mp hi with hi | hi
        · exact hbody i hi
        · rw [List.mem_singleton.mp hi]
          rfl
    · have hpiece : ∀ i ∈ piece.body.tail, i.isTracepoint marker = false := hlinks.1.rest
      exact ih hpiece hlinks.2 hb

/-- What comes before the first cut of a block is split, and so are its pieces. -/
theorem Block.sharp_pieces (marker : String) (b : Block) :
    (∀ i ∈ (b.pieces marker).1.tail, i.isTracepoint marker = false) ∧ ∀ c ∈ (b.pieces marker).2, c.Sharp marker := by
  cases hb : b.body with
  | nil => simp [pieces, hb]
  | cons i is =>
    rw [pieces_eq hb]
    exact (cutAtTracepoints_spec marker is).2

theorem isSplit_of_mem_splitBlocks (hb : b ∈ (splitBlocks marker function taken bs).1) : b.IsSplit marker := by
  induction bs generalizing taken with
  | nil => cases hb
  | cons c bs ih =>
    rcases List.mem_append.mp hb with hb | hb
    · obtain ⟨hhead, hpieces⟩ := c.sharp_pieces marker
      exact isSplit_of_mem_chain hhead (fun link hlink => hpieces _ (List.of_mem_zip hlink).2) hb
    · exact ih hb

/-- **Splitting puts every tracepoint call at the head of a block.** -/
theorem Program.isSplit_split (marker : String) (p : Program) : (p.split marker).program.IsSplit marker := by
  intro g hg b hb
  obtain ⟨f, -, rfl⟩ := List.mem_map.mp hg
  exact isSplit_of_mem_splitBlocks hb

/-- **To split twice is to split once.** -/
theorem Program.split_split (marker : String) (p : Program) :
    (p.split marker).program.split marker = ⟨(p.split marker).program, []⟩ :=
  (p.isSplit_split marker).split_eq

end Waymark
