import Mathlib.Data.List.Perm.Subperm
import Waymark.Program.Split
import Waymark.Proofs.Program.Heads

/-!
# The blocks of a split function

Splitting replaces each block by a chain of parts. `parts` lists them with the places they were cut from, and the split
function is that list (`splitBlocks_eq_parts`). In a well-formed function the parts stand at its heads, in their order
(`map_place_parts`), their labels differ (`nodup_label_parts`), and each runs up to the next cut of its block or to the
end of it (`Part.Fits`). Every cut makes one new block (`Program.newBlocks_add_blockCount`).
-/

namespace Waymark

/-! ## Fresh labels -/

section FreshLabels

variable {taken : List String} {label l : String} {k m n : Nat}

theorem toList_numberedLabel (label : String) (n : Nat) :
    (numberedLabel label n).toList = label.toList ++ '.' :: Nat.toDigits 10 n := by
  simp [numberedLabel, String.toList_append]

theorem numberedLabel_inj : numberedLabel label m = numberedLabel label n ↔ m = n := by
  refine ⟨fun h => ?_, fun h => h ▸ rfl⟩
  have htext := congrArg String.toList h
  rw [toList_numberedLabel, toList_numberedLabel] at htext
  have hdigits : Nat.toDigits 10 m = Nat.toDigits 10 n := (List.cons.inj (List.append_cancel_left htext)).2
  rw [← @Nat.ofDigitChars_ten_toDigits m, hdigits, Nat.ofDigitChars_ten_toDigits]

/-- The labels that are not taken, from all candidates. -/
theorem freshLabelsFrom_eq (taken : List String) (label : String) (candidates n k : Nat) :
    freshLabelsFrom taken label candidates n k =
      (((List.range' n candidates).map (numberedLabel label)).filter (· ∉ taken)).take k := by
  induction candidates generalizing n k with
  | zero => simp [freshLabelsFrom]
  | succ candidates ih =>
    cases k with
    | zero => simp [freshLabelsFrom]
    | succ k =>
      rw [freshLabelsFrom, List.range'_succ, List.map_cons, List.filter_cons]
      by_cases h : numberedLabel label n ∈ taken
      · simp [h, ih]
      · simp [h, ih]

theorem notMem_of_mem_freshLabels (h : l ∈ freshLabels taken label k) : l ∉ taken := by
  rw [freshLabels, freshLabelsFrom_eq] at h
  simpa using (List.mem_filter.mp (List.mem_of_mem_take h)).2

theorem nodup_numberedLabels (label : String) (n k : Nat) : ((List.range' n k).map (numberedLabel label)).Nodup := by
  rw [List.Nodup, List.pairwise_map]
  exact (List.nodup_range' (s := n) (n := k)).imp fun hne heq => hne (numberedLabel_inj.mp heq)

theorem nodup_freshLabels (taken : List String) (label : String) (k : Nat) : (freshLabels taken label k).Nodup := by
  rw [freshLabels, freshLabelsFrom_eq]
  exact ((nodup_numberedLabels label _ _).filter _).sublist (List.take_sublist _ _)

/-- Of more candidates than are taken, enough are left. -/
theorem length_freshLabels (taken : List String) (label : String) (k : Nat) :
    (freshLabels taken label k).length = k := by
  rw [freshLabels, freshLabelsFrom_eq, List.length_take]
  generalize hall : (List.range' 1 (taken.length + k)).map (numberedLabel label) = all
  have hnd : all.Nodup := hall ▸ nodup_numberedLabels label _ _
  have hlen : all.length = taken.length + k := by simp [← hall]
  -- the candidates that are taken are not more than all that is taken
  have htaken : (all.filter (· ∈ taken)).length ≤ taken.length := by
    have hfilter : (all.filter (· ∈ taken)).Nodup := hnd.filter _
    refine (hfilter.subperm fun l hl => ?_).length_le
    simpa using (List.mem_filter.mp hl).2
  have hsplit := List.length_eq_length_filter_add (l := all) (· ∈ taken)
  simp only [decide_not]
  omega

end FreshLabels

/-! ## Pieces -/

section Pieces

variable {marker : String}

/-- A piece starts at a tracepoint call and holds no other one. -/
structure Piece.Sharp (marker : String) (c : Piece) : Prop where
  head : c.head.isTracepoint marker = true
  rest : ∀ i ∈ c.rest, i.isTracepoint marker = false

/-- Cutting loses nothing, and cuts in front of tracepoint calls only. -/
theorem cutAtTracepoints_spec (marker : String) (is : List Instruction) :
    (cutAtTracepoints marker is).1 ++ (cutAtTracepoints marker is).2.flatMap Piece.body = is ∧
      (∀ i ∈ (cutAtTracepoints marker is).1, i.isTracepoint marker = false) ∧
      ∀ c ∈ (cutAtTracepoints marker is).2, c.Sharp marker := by
  induction is with
  | nil => simp [cutAtTracepoints]
  | cons i is ih =>
    obtain ⟨happ, hhead, hpieces⟩ := ih
    unfold cutAtTracepoints
    simp only
    cases hi : i.isTracepoint marker with
    | true => simpa [hi, Piece.body, happ] using And.intro ⟨hi, hhead⟩ hpieces
    | false => simpa [hi, happ] using And.intro hhead hpieces

/-- Where pieces start that follow each other from the instruction number `n` on. -/
def starts (n : Nat) : List Piece → List Nat
  | [] => []
  | c :: cs => n :: starts (n + c.body.length) cs

/-- The pieces of a list start at its tracepoint calls. -/
theorem starts_cutAtTracepoints (marker : String) (n : Nat) (is : List Instruction) :
    starts (n + (cutAtTracepoints marker is).1.length) (cutAtTracepoints marker is).2 =
      ((is.zipIdx n).filter (·.1.isTracepoint marker)).map Prod.snd := by
  induction is generalizing n with
  | nil => rfl
  | cons i is ih =>
    have ih := ih (n + 1)
    rw [List.zipIdx_cons, List.filter_cons]
    unfold cutAtTracepoints
    simp only
    cases hi : i.isTracepoint marker with
    | true =>
      simp only [if_true, List.length_nil, Nat.add_zero, starts, Piece.body, List.length_cons, List.map_cons]
      rw [← ih]
      congr 2
      omega
    | false =>
      simp only [Bool.false_eq_true, if_false, List.length_cons]
      rw [← ih]
      congr 1
      omega

end Pieces

/-! ## Parts -/

/-- A block of a split function, with the block it was cut from, the number of its first instruction there, and the
label of the part that it runs into. -/
structure Part where
  block : Nat
  start : Nat
  label : String
  body : List Instruction
  next? : Option String

/-- The block that a part is. -/
def Part.toBlock (q : Part) : Block := ⟨q.label, q.body ++ (q.next?.map .br).toList⟩

/-- The parts that `chain` makes of the block number `block`, from the instruction number `start` on. -/
def chainParts (block start : Nat) (label : String) (body : List Instruction) : List (String × Piece) → List Part
  | [] => [⟨block, start, label, body, none⟩]
  | (next, piece) :: links =>
    ⟨block, start, label, body, some next⟩ :: chainParts block (start + body.length) next piece.body links

/-- The labels of the new blocks of a block. -/
def newLabels (marker : String) (taken : List String) (b : Block) : List String :=
  freshLabels taken b.label (b.pieces marker).2.length

/-- The parts that `splitBlocks` makes of blocks numbered from `block` on. -/
def parts (marker : String) (block : Nat) (taken : List String) : List Block → List Part
  | [] => []
  | b :: bs =>
    chainParts block 0 b.label (b.pieces marker).1 ((newLabels marker taken b).zip (b.pieces marker).2) ++
      parts marker (block + 1) (newLabels marker taken b ++ taken) bs

theorem chain_eq_chainParts (block start : Nat) (label : String) (body : List Instruction)
    (links : List (String × Piece)) :
    chain label body links = (chainParts block start label body links).map Part.toBlock := by
  induction links generalizing start label body with
  | nil => simp [chain, chainParts, Part.toBlock]
  | cons link links ih => simp [chain, chainParts, Part.toBlock, ih (start + body.length)]

/-- A split function consists of its parts. -/
theorem splitBlocks_eq_parts (marker function : String) (block : Nat) (taken : List String) (bs : List Block) :
    (splitBlocks marker function taken bs).1 = (parts marker block taken bs).map Part.toBlock := by
  induction bs generalizing block taken with
  | nil => rfl
  | cons b bs ih =>
    simp only [splitBlocks, parts, List.map_append, ← chain_eq_chainParts]
    rw [← ih (block + 1)]
    rfl

/-! ### Their labels -/

section PartLabels

variable {marker : String} {block : Nat} {taken : List String}

theorem map_label_chainParts (block start : Nat) (label : String) (body : List Instruction)
    (links : List (String × Piece)) :
    (chainParts block start label body links).map (·.label) = label :: links.map Prod.fst := by
  induction links generalizing start label body with
  | nil => rfl
  | cons link links ih => simp [chainParts, ih]

theorem map_fst_zip_newLabels (marker : String) (taken : List String) (b : Block) :
    ((newLabels marker taken b).zip (b.pieces marker).2).map Prod.fst = newLabels marker taken b :=
  List.map_fst_zip (Nat.le_of_eq (length_freshLabels _ _ _))

theorem map_snd_zip_newLabels (marker : String) (taken : List String) (b : Block) :
    ((newLabels marker taken b).zip (b.pieces marker).2).map Prod.snd = (b.pieces marker).2 :=
  List.map_snd_zip (Nat.le_of_eq (length_freshLabels _ _ _).symm)

/-- A part has the label of its block or one that was not taken. -/
theorem label_mem_or_notMem_of_mem_parts {bs : List Block} {q : Part} (hq : q ∈ parts marker block taken bs) :
    q.label ∈ bs.map (·.label) ∨ q.label ∉ taken := by
  induction bs generalizing block taken with
  | nil => cases hq
  | cons b bs ih =>
    rcases List.mem_append.mp hq with hq | hq
    · have hlabel : q.label ∈ b.label :: newLabels marker taken b := by
        rw [← map_fst_zip_newLabels, ← map_label_chainParts]
        exact List.mem_map.mpr ⟨q, hq, rfl⟩
      rcases List.mem_cons.mp hlabel with heq | hnew
      · exact .inl (by simp [heq])
      · exact .inr (notMem_of_mem_freshLabels hnew)
    · rcases ih hq with hmem | hnew
      · exact .inl (List.mem_cons_of_mem _ hmem)
      · exact .inr fun h => hnew (List.mem_append_right _ h)

/-- The parts of blocks with different labels have different labels. -/
theorem nodup_label_parts {bs : List Block} (hnd : (bs.map (·.label)).Nodup) (htaken : bs.map (·.label) ⊆ taken) :
    ((parts marker block taken bs).map (·.label)).Nodup := by
  induction bs generalizing block taken with
  | nil => exact List.nodup_nil
  | cons b bs ih =>
    rw [List.map_cons, List.nodup_cons] at hnd
    rw [List.map_cons, List.cons_subset] at htaken
    obtain ⟨hb, hnd⟩ := hnd
    obtain ⟨hbt, htaken⟩ := htaken
    rw [parts, List.map_append, map_label_chainParts, map_fst_zip_newLabels, List.nodup_append]
    refine ⟨List.nodup_cons.mpr ⟨fun h => notMem_of_mem_freshLabels h hbt, nodup_freshLabels _ _ _⟩,
      ih hnd fun l hl => List.mem_append_right _ (htaken hl), ?_⟩
    rintro l hl m hm rfl
    obtain ⟨q, hq, rfl⟩ := List.mem_map.mp hm
    -- later parts have labels of later blocks, or new ones that are newer
    rcases label_mem_or_notMem_of_mem_parts hq with hlater | hnew
    · rcases List.mem_cons.mp hl with heq | hfresh
      · exact hb (heq ▸ hlater)
      · exact notMem_of_mem_freshLabels hfresh (htaken hlater)
    · rcases List.mem_cons.mp hl with heq | hfresh
      · exact hnew (List.mem_append_right _ (heq ▸ hbt))
      · exact hnew (List.mem_append_left _ hfresh)

end PartLabels

/-! ### Their places -/

section PartPlaces

variable {marker : String}

/-- The position of the first instruction of a part, for the function number `function`. -/
def Part.place (function : Nat) (q : Part) : Position := ⟨function, q.block, q.start⟩

/-- The numbers of the instructions of a block where a part starts. -/
def Block.cuts (marker : String) (b : Block) : List Nat :=
  (List.range b.body.length).filter fun k => k = 0 || b.marked marker k

theorem map_place_chainParts (function block start : Nat) (label : String) (body : List Instruction)
    (links : List (String × Piece)) :
    (chainParts block start label body links).map (Part.place function) =
      (start :: starts (start + body.length) (links.map Prod.snd)).map fun k => ⟨function, block, k⟩ := by
  induction links generalizing start label body with
  | nil => rfl
  | cons link links ih =>
    rw [chainParts, List.map_cons, ih]
    rfl

theorem Block.pieces_eq {b : Block} {i : Instruction} {is : List Instruction} (hb : b.body = i :: is) :
    b.pieces marker = (i :: (cutAtTracepoints marker is).1, (cutAtTracepoints marker is).2) := by
  simp [pieces, hb]

/-- The parts of a block start at its cuts. -/
theorem Block.cuts_eq_starts {b : Block} (hb : b.body ≠ []) :
    b.cuts marker = 0 :: starts (b.pieces marker).1.length (b.pieces marker).2 := by
  obtain ⟨i, is, hbody⟩ := List.exists_cons_of_ne_nil hb
  have hmarked : ∀ x ∈ is.zipIdx 1, x.1.isTracepoint marker = (x.2 = 0 || b.marked marker x.2) := by
    rintro ⟨x, k⟩ hx
    obtain ⟨hk, -, hx⟩ := List.mem_zipIdx hx
    obtain ⟨k, rfl⟩ : ∃ l, k = l + 1 := ⟨k - 1, by omega⟩
    have hget : b.body[k + 1]? = some x := by
      rw [hbody, List.getElem?_cons_succ, hx]
      exact List.getElem?_eq_getElem _
    simp [marked, hget]
  rw [pieces_eq hbody, List.length_cons, Nat.add_comm, starts_cutAtTracepoints, List.filter_congr hmarked, cuts, hbody,
    List.length_cons, List.range_eq_range', List.range'_succ, List.filter_cons, if_pos (by simp)]
  congr 1
  rw [Nat.zero_add, ← List.zipIdx_map_snd 1 is, List.filter_map]
  rfl

/-- The parts of a list of blocks stand at their cuts, in order. -/
theorem map_place_parts (function : Nat) (block : Nat) (taken : List String) {bs : List Block}
    (hbs : ∀ b ∈ bs, b.body ≠ []) :
    (parts marker block taken bs).map (Part.place function) =
      (bs.zipIdx block).flatMap fun x => (x.1.cuts marker).map fun k => ⟨function, x.2, k⟩ := by
  induction bs generalizing block taken with
  | nil => rfl
  | cons b bs ih =>
    rw [parts, List.map_append, map_place_chainParts, map_snd_zip_newLabels, List.zipIdx_cons, List.flatMap_cons,
      ih _ _ fun c hc => hbs c (List.mem_cons_of_mem _ hc), Block.cuts_eq_starts (hbs b List.mem_cons_self),
      Nat.zero_add]

end PartPlaces

/-! ### Their bodies -/

section PartBodies

variable {marker : String} {block start : Nat} {label : String} {b : Block} {q : Part} {all all' : List Part}

/-- A part of the block `b` runs up to the next tracepoint call in it, where another part of `all` starts, or to the
end of the block. -/
def Part.Fits (marker : String) (b : Block) (all : List Part) (q : Part) : Prop :=
  ∃ i is rest, q.body = i :: is ∧ b.body.drop q.start = q.body ++ rest ∧ (∀ j ∈ is, j.isTracepoint marker = false) ∧
    match q.next? with
    | none => rest = []
    | some l => (∃ t ts, rest = t :: ts ∧ t.isTracepoint marker = true) ∧
        ∃ r ∈ all, r.label = l ∧ r.block = q.block ∧ r.start = q.start + q.body.length

theorem Part.Fits.mono (h : q.Fits marker b all) (hall : all ⊆ all') : q.Fits marker b all' := by
  obtain ⟨i, is, rest, hbody, hdrop, his, hnext⟩ := h
  refine ⟨i, is, rest, hbody, hdrop, his, ?_⟩
  split
  next hn => simpa [hn] using hnext
  next l hn =>
    rw [hn] at hnext
    obtain ⟨hrest, r, hr, hlabel⟩ := hnext
    exact ⟨hrest, r, hall hr, hlabel⟩

/-- A chain starts with the block that is cut. -/
theorem exists_mem_chainParts (block start : Nat) (label : String) (body : List Instruction)
    (links : List (String × Piece)) :
    ∃ q ∈ chainParts block start label body links, q.label = label ∧ q.block = block ∧ q.start = start := by
  cases links with
  | nil => exact ⟨_, List.mem_cons_self, rfl, rfl, rfl⟩
  | cons link links => exact ⟨_, List.mem_cons_self, rfl, rfl, rfl⟩

theorem fits_of_mem_chainParts {i : Instruction} {is : List Instruction} {links : List (String × Piece)}
    (his : ∀ j ∈ is, j.isTracepoint marker = false) (hlinks : ∀ c ∈ links.map Prod.snd, c.Sharp marker)
    (hdrop : b.body.drop start = i :: is ++ (links.map Prod.snd).flatMap Piece.body)
    (hq : q ∈ chainParts block start label (i :: is) links) :
    q.block = block ∧ q.Fits marker b (chainParts block start label (i :: is) links) := by
  induction links generalizing start label i is with
  | nil =>
    cases List.mem_singleton.mp hq
    exact ⟨rfl, i, is, [], rfl, by simpa using hdrop, his, rfl⟩
  | cons link links ih =>
    obtain ⟨next, piece⟩ := link
    rw [List.map_cons, List.forall_mem_cons] at hlinks
    rw [List.map_cons, List.flatMap_cons] at hdrop
    obtain ⟨hpiece, hlinks⟩ := hlinks
    rcases List.mem_cons.mp hq with rfl | hq
    · obtain ⟨r, hr, hlabel, hblock, hstart⟩ :=
        exists_mem_chainParts block (start + (i :: is).length) next piece.body links
      exact ⟨rfl, i, is, _, rfl, hdrop, his, ⟨piece.head, _, rfl, hpiece.head⟩,
        r, List.mem_cons_of_mem _ hr, hlabel, hblock, hstart⟩
    · have hdrop' : b.body.drop (start + (i :: is).length) =
          piece.body ++ (links.map Prod.snd).flatMap Piece.body := by
        rw [← List.drop_drop, hdrop, List.drop_left]
      obtain ⟨hblock, hfits⟩ := ih hpiece.rest hlinks hdrop' hq
      exact ⟨hblock, hfits.mono (List.subset_cons_self _ _)⟩

/-- Every part is a part of some block. -/
theorem fits_of_mem_parts {taken : List String} {bs : List Block} (hbs : ∀ b ∈ bs, b.body ≠ [])
    (hq : q ∈ parts marker block taken bs) :
    ∃ b, (b, q.block) ∈ bs.zipIdx block ∧ q.Fits marker b (parts marker block taken bs) := by
  induction bs generalizing block taken with
  | nil => cases hq
  | cons b bs ih =>
    rw [List.zipIdx_cons]
    rcases List.mem_append.mp hq with hq | hq
    · obtain ⟨i, is, hbody⟩ := List.exists_cons_of_ne_nil (hbs b List.mem_cons_self)
      obtain ⟨happ, hhead, hsharp⟩ := cutAtTracepoints_spec marker is
      have hpieces : b.pieces marker = _ := Block.pieces_eq hbody
      have hsnd := map_snd_zip_newLabels marker taken b
      rw [show (b.pieces marker).1 = i :: (cutAtTracepoints marker is).1 by rw [hpieces]] at hq
      obtain ⟨hblock, hfits⟩ := fits_of_mem_chainParts hhead (by rw [hsnd, hpieces]; exact hsharp)
        (by rw [hsnd, hpieces, List.drop_zero, hbody, List.cons_append, happ]) hq
      refine ⟨b, hblock ▸ List.mem_cons_self, hfits.mono ?_⟩
      rw [parts, hpieces]
      exact List.subset_append_left _ _
    · obtain ⟨c, hc, hfits⟩ := ih (fun c hc => hbs c (List.mem_cons_of_mem _ hc)) hq
      exact ⟨c, List.mem_cons_of_mem _ hc, hfits.mono (List.subset_append_right _ _)⟩

/-- Every block has a part with its label. -/
theorem exists_mem_parts {taken : List String} {bs : List Block} {j : Nat} (hb : (b, j) ∈ bs.zipIdx block) :
    ∃ q ∈ parts marker block taken bs, q.label = b.label ∧ q.block = j ∧ q.start = 0 := by
  induction bs generalizing block taken with
  | nil => cases hb
  | cons c bs ih =>
    rw [List.zipIdx_cons] at hb
    rcases List.mem_cons.mp hb with heq | hb
    · cases heq
      obtain ⟨q, hq, hlabel, hblock, hstart⟩ := exists_mem_chainParts j 0 b.label (b.pieces marker).1
        ((newLabels marker taken b).zip (b.pieces marker).2)
      exact ⟨q, List.mem_append_left _ hq, hlabel, hblock, hstart⟩
    · obtain ⟨q, hq, hlabel⟩ := @ih _ (newLabels marker taken c ++ taken) hb
      exact ⟨q, List.mem_append_right _ hq, hlabel⟩

end PartBodies

/-! ## How many blocks -/

theorem length_chain (function label : String) (body : List Instruction) (links : List (String × Piece)) :
    (chain label body links).length = (chainCuts function label links).length + 1 := by
  induction links generalizing label body with
  | nil => rfl
  | cons link links ih => simp [chain, chainCuts, ih]

theorem length_splitBlocks (marker function : String) (taken : List String) (bs : List Block) :
    (splitBlocks marker function taken bs).1.length =
      (splitBlocks marker function taken bs).2.length + bs.length := by
  induction bs generalizing taken with
  | nil => rfl
  | cons b bs ih =>
    simp only [splitBlocks, List.length_append, List.length_cons, length_chain function, ih]
    omega

/-- Every cut makes one new block. -/
theorem Program.newBlocks_add_blockCount (marker : String) (p : Program) :
    (p.split marker).newBlocks + p.blockCount = (p.split marker).program.blockCount := by
  obtain ⟨fs⟩ := p
  simp only [Split.newBlocks, split, blockCount]
  induction fs with
  | nil => rfl
  | cons f fs ih =>
    have hf : (f.split marker).1.blocks.length = (f.split marker).2.length + f.blocks.length :=
      length_splitBlocks marker f.name f.labels f.blocks
    simp only [List.map_cons, List.flatMap_cons, List.length_append, hf, ← ih]
    omega

end Waymark
