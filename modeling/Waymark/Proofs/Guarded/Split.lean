import Waymark.Misuse
import Waymark.Proofs.Program.Split

/-!
# Guarded splitting

Splitting with indices: a body is cut at the numbers of its tracepoint calls, from the last one to the first so that the
others stay in place, and every piece is asked for its first instruction. An index that lies outside is an error here.
Each new block is given a label by a search of its own that starts with the number one and goes on until a label is free
(`firstFreeLabel`); there is no bound on how far it may go, and it ends because it meets a taken label only once.

No body gives an error, each search finds the label that `freshLabels` counts on to (`labelsInTurn_eq`), and the program
is that of `Program.split` (`Program.guardedSplit_eq`).
-/

namespace Waymark

@[simp] theorem ok_bind {ε α β : Type} (a : α) (f : α → Except ε β) : (Except.ok a >>= f) = f a := rfl

/-- The element number `i` of a list, which has to be there. -/
def elementAt {α : Type} (l : List α) (i : Nat) : Except Misuse α :=
  match l[i]? with
  | some a => .ok a
  | none => .error (.index i l.length)

theorem elementAt_eq_ok {α : Type} {l : List α} {i : Nat} {a : α} (h : l[i]? = some a) : elementAt l i = .ok a := by
  rw [elementAt, h]

/-! ## Bodies -/

/-- The numbers of the instructions in front of which a body is cut. -/
def cutPoints (marker : String) (is : List Instruction) : List Nat :=
  (is.zipIdx.tail.filter (·.1.isTracepoint marker)).map Prod.snd

/-- What stands before an index and what stands from it on; the index must not lie behind the end. -/
def splitOff (is : List Instruction) (cut : Nat) : Except Misuse (List Instruction × List Instruction) :=
  if cut ≤ is.length then .ok (is.take cut, is.drop cut) else .error (.index cut is.length)

/-- Cuts off the tails at some indices, from the last one to the first. -/
def cutTails (is : List Instruction) : (cuts : List Nat) → Except Misuse (List Instruction × List (List Instruction))
  | [] => .ok (is, [])
  | cut :: cuts => do
    let (is, tails) ← cutTails is cuts
    let (is, tail) ← splitOff is cut
    return (is, tail :: tails)

/-- A tail with its first instruction, which has to be there. -/
def guardedPiece (tail : List Instruction) : Except Misuse Piece := do
  let head ← elementAt tail 0
  return ⟨head, tail.drop 1⟩

/-- The pieces of a block, by indices. -/
def Block.guardedPieces (marker : String) (b : Block) : Except Misuse (List Instruction × List Piece) := do
  let (head, tails) ← cutTails b.body (cutPoints marker b.body)
  return (head, ← tails.mapM guardedPiece)

theorem splitOff_append (is js : List Instruction) : splitOff (is ++ js) is.length = .ok (is, js) := by
  simp [splitOff]

/-- Cuts at the starts of pieces give the pieces back. -/
theorem cutTails_starts (head : List Instruction) (pieces : List Piece) :
    cutTails (head ++ pieces.flatMap Piece.body) (starts head.length pieces) = .ok (head, pieces.map Piece.body) := by
  induction pieces generalizing head with
  | nil => simp [starts, cutTails]
  | cons c cs ih =>
    have htail := ih (head ++ c.body)
    rw [List.append_assoc, List.length_append] at htail
    rw [List.flatMap_cons, starts, cutTails, htail, ok_bind]
    simp only [splitOff_append, ok_bind]
    rfl

theorem mapM_guardedPiece (pieces : List Piece) : (pieces.map Piece.body).mapM guardedPiece = .ok pieces := by
  have hpiece : guardedPiece ∘ Piece.body = fun c => pure (id c) := rfl
  rw [List.mapM_map, hpiece, List.mapM_pure, List.map_id]
  rfl

/-- The cuts of a body are the starts of its pieces. -/
theorem cutPoints_eq_starts (marker : String) (b : Block) :
    cutPoints marker b.body = starts (b.pieces marker).1.length (b.pieces marker).2 ∧
      b.body = (b.pieces marker).1 ++ (b.pieces marker).2.flatMap Piece.body := by
  unfold Block.pieces
  cases hbody : b.body with
  | nil => exact ⟨rfl, rfl⟩
  | cons i is =>
    have hstarts := starts_cutAtTracepoints marker 1 is
    refine ⟨?_, ?_⟩
    · rw [cutPoints, List.zipIdx_cons, List.tail_cons, ← hstarts, List.length_cons, Nat.add_comm 1]
    · rw [List.cons_append, (cutAtTracepoints_spec marker is).1]

theorem Block.guardedPieces_eq (marker : String) (b : Block) : b.guardedPieces marker = .ok (b.pieces marker) := by
  obtain ⟨hcuts, hbody⟩ := cutPoints_eq_starts marker b
  have htails := cutTails_starts (b.pieces marker).1 (b.pieces marker).2
  rw [← hbody, ← hcuts] at htails
  simp only [guardedPieces, htails, ok_bind, mapM_guardedPiece]
  rfl

/-! ## Labels -/

section Labels

variable {taken : List String} {label : String} {candidates m n k : Nat}

/-- The taken labels that do not have a number below `n`. -/
def takenFrom (taken : List String) (label : String) (n : Nat) : List String :=
  taken.filter (· ∉ (List.range n).map (numberedLabel label))

theorem takenFrom_succ (taken : List String) (label : String) (n : Nat) :
    takenFrom taken label (n + 1) = (takenFrom taken label n).filter (· ≠ numberedLabel label n) := by
  unfold takenFrom
  rw [List.filter_filter, List.range_succ]
  refine List.filter_congr fun l _ => ?_
  simp [and_comm]

/-- A taken label is looked at once. -/
theorem length_takenFrom_succ_lt (h : numberedLabel label n ∈ taken) :
    (takenFrom taken label (n + 1)).length < (takenFrom taken label n).length := by
  have hbelow : numberedLabel label n ∉ (List.range n).map (numberedLabel label) := by
    intro hmem
    obtain ⟨m, hm, heq⟩ := List.mem_map.mp hmem
    rw [numberedLabel_inj.mp heq, List.mem_range] at hm
    exact Nat.lt_irrefl n hm
  rw [takenFrom_succ, List.length_filter_lt_length_iff_exists]
  exact ⟨_, List.mem_filter.mpr ⟨h, decide_eq_true hbelow⟩, by simp⟩

/-- The first label numbered from `n` on that is not taken. -/
def firstFreeLabel (taken : List String) (label : String) (n : Nat) : String :=
  if numberedLabel label n ∈ taken then firstFreeLabel taken label (n + 1) else numberedLabel label n
termination_by (takenFrom taken label n).length
decreasing_by exact length_takenFrom_succ_lt ‹_›

/-- Labels for `k` new blocks, one after the other: the search for each starts from one again, and what it finds is
taken from then on. -/
def labelsInTurn (taken : List String) (label : String) : (k : Nat) → List String
  | 0 => []
  | k + 1 =>
    let l := firstFreeLabel taken label 1
    l :: labelsInTurn (l :: taken) label k

/-- A search goes on to the first number that is free. -/
theorem firstFreeLabel_eq (hle : m ≤ n) (hfree : numberedLabel label n ∉ taken)
    (htaken : ∀ i, m ≤ i → i < n → numberedLabel label i ∈ taken) :
    firstFreeLabel taken label m = numberedLabel label n := by
  fun_induction firstFreeLabel taken label m with
  | case1 m hm ih =>
    have hne : m ≠ n := by
      rintro rfl
      exact hfree hm
    exact ih (by omega) fun i hi => htaken i (by omega)
  | case2 m hm =>
    have hge : ¬m < n := fun hlt => hm (htaken m (Nat.le_refl m) hlt)
    rw [Nat.le_antisymm hle (Nat.not_lt.mp hge)]

/-- What was taken before `n` does not show from there on. -/
theorem freshLabelsFrom_cons_taken (hm : m < n) :
    freshLabelsFrom (numberedLabel label m :: taken) label candidates n k =
      freshLabelsFrom taken label candidates n k := by
  rw [freshLabelsFrom_eq, freshLabelsFrom_eq]
  congr 1
  refine List.filter_congr fun l hl => ?_
  obtain ⟨i, hi, rfl⟩ := List.mem_map.mp hl
  have hne : i ≠ m := by
    have := (List.mem_range'_1.mp hi).1
    omega
  simp [numberedLabel_inj, hne]

/-- Searches that start again and again find what one search finds that goes on, where nothing before it is free. -/
theorem labelsInTurn_eq_freshLabelsFrom (hbelow : ∀ i, 0 < i → i < n → numberedLabel label i ∈ taken) (hn : 0 < n)
    (hk : (freshLabelsFrom taken label candidates n k).length = k) :
    labelsInTurn taken label k = freshLabelsFrom taken label candidates n k := by
  induction candidates generalizing taken n k with
  | zero =>
    have hnone : freshLabelsFrom taken label 0 n k = [] := by simp [freshLabelsFrom]
    rw [hnone] at hk ⊢
    cases hk
    rfl
  | succ candidates ih =>
    cases k with
    | zero => simp [freshLabelsFrom, labelsInTurn]
    | succ k =>
      -- once the label number `n` is taken too, nothing before `n + 1` is free
      have hupTo : ∀ {taken' : List String}, taken ⊆ taken' → numberedLabel label n ∈ taken' →
          ∀ i, 0 < i → i < n + 1 → numberedLabel label i ∈ taken' := by
        intro taken' hsub hmem i hi hlt
        rcases Nat.lt_succ_iff_lt_or_eq.mp hlt with hlt | rfl
        · exact hsub (hbelow i hi hlt)
        · exact hmem
      rw [freshLabelsFrom] at hk ⊢
      by_cases h : numberedLabel label n ∈ taken
      · simp only [h, if_true] at hk ⊢
        exact ih (hupTo (List.Subset.refl _) h) (Nat.succ_pos n) hk
      · have hfirst : firstFreeLabel taken label 1 = numberedLabel label n := firstFreeLabel_eq hn h hbelow
        simp only [h, if_false, List.length_cons, Nat.add_right_cancel_iff] at hk ⊢
        rw [← freshLabelsFrom_cons_taken (Nat.lt_succ_self n)] at hk ⊢
        rw [labelsInTurn, hfirst]
        congr 1
        exact ih (hupTo (List.subset_cons_self _ _) List.mem_cons_self) (Nat.succ_pos n) hk

/-- **Fresh labels are found one by one**, each by a search of its own. -/
theorem labelsInTurn_eq (taken : List String) (label : String) (k : Nat) :
    labelsInTurn taken label k = freshLabels taken label k :=
  labelsInTurn_eq_freshLabelsFrom (fun i hi hlt => by omega) Nat.one_pos (length_freshLabels taken label k)

end Labels

/-! ## Functions and programs -/

/-- Splits blocks of a function in order, by indices and with labels found one by one. -/
def guardedSplitBlocks (marker function : String) (taken : List String) :
    List Block → Except Misuse (List Block × List Cut)
  | [] => .ok ([], [])
  | b :: bs => do
    let (head, pieces) ← b.guardedPieces marker
    let fresh := labelsInTurn taken b.label pieces.length
    let links := fresh.zip pieces
    let (blocks, cuts) ← guardedSplitBlocks marker function (fresh ++ taken) bs
    return (chain b.label head links ++ blocks, chainCuts function b.label links ++ cuts)

/-- A function after splitting by indices, and the cuts made in it. -/
def Function.guardedSplit (marker : String) (f : Function) : Except Misuse (Function × List Cut) := do
  let (blocks, cuts) ← guardedSplitBlocks marker f.name f.labels f.blocks
  return (⟨f.name, blocks⟩, cuts)

/-- A program after splitting by indices, and all cuts made in it. -/
def Program.guardedSplit (marker : String) (p : Program) : Except Misuse Split := do
  let splits ← p.functions.mapM (·.guardedSplit marker)
  return ⟨⟨splits.map Prod.fst⟩, splits.flatMap Prod.snd⟩

theorem guardedSplitBlocks_eq (marker function : String) (taken : List String) (bs : List Block) :
    guardedSplitBlocks marker function taken bs = .ok (splitBlocks marker function taken bs) := by
  induction bs generalizing taken with
  | nil => rfl
  | cons b bs ih =>
    simp only [guardedSplitBlocks, b.guardedPieces_eq, ok_bind, labelsInTurn_eq, ih]
    rfl

theorem Function.guardedSplit_eq (marker : String) (f : Function) : f.guardedSplit marker = .ok (f.split marker) := by
  simp only [guardedSplit, guardedSplitBlocks_eq, ok_bind]
  rfl

/-- **Splitting looks at no instruction that is not there**: no cut lies outside its body, and no piece is empty. The
labels that are found one by one are those that are counted on to. -/
theorem Program.guardedSplit_eq (marker : String) (p : Program) : p.guardedSplit marker = .ok (p.split marker) := by
  have hsplit : (fun f : Function => f.guardedSplit marker) = fun f => pure (f.split marker) :=
    funext (Function.guardedSplit_eq marker)
  rw [guardedSplit, hsplit, List.mapM_pure, pure_bind, List.map_map, List.flatMap_map]
  rfl

end Waymark
