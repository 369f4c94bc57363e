import Waymark.Event
import Waymark.Proofs.Guarded.Split

/-!
# Splitting block by block

Splitting loses nothing, repeats nothing and leaves everything in its order. Each block is replaced, where it stands, by
a run of blocks that says the same (`Block.SplitsInto`): a chain of its pieces, one for each tracepoint call behind the
first instruction and one more. A function is the runs of its blocks one after the other (`splitBlocks_eq_flatten`), and
what is counted on the way is the number of blocks that were added (`Program.split_replaces`).

Nothing is asked of the program. Blocks may be empty, terminators may stand anywhere and labels may repeat, since no
block is looked at but for its tracepoint calls.
-/

namespace Waymark

/-! ## Runs of blocks -/

/-- The number of tracepoint calls behind the first instruction of a block. -/
def Block.innerTracepoints (marker : String) (b : Block) : Nat := b.body.tail.countP (·.isTracepoint marker)

/-- Blocks that run into each other and say together what a block with this label and body says: each but the last ends
in a branch to the next, and without these branches their bodies make up the whole. -/
structure Unfolds (label : String) (body : List Instruction) (run : List Block) : Prop where
  nonempty : run ≠ []
  label : (run.head nonempty).label = label
  linked : run.IsChain fun c d => c.body.getLast? = some (.br d.label)
  body : run.dropLast.flatMap (·.body.dropLast) ++ (run.getLast nonempty).body = body

/-- A run of blocks in place of a block, with a new one for each of its inner tracepoint calls. -/
structure Block.SplitsInto (marker : String) (b : Block) (run : List Block) : Prop where
  unfolds : Unfolds b.label b.body run
  length : run.length = b.innerTracepoints marker + 1

theorem unfolds_singleton (label : String) (body : List Instruction) : Unfolds label body [⟨label, body⟩] where
  nonempty := List.cons_ne_nil _ _
  label := rfl
  linked := .singleton _
  body := rfl

/-- One more block in front of a run. -/
theorem Unfolds.cons {next : String} {rest : List Instruction} {run : List Block} (h : Unfolds next rest run)
    (label : String) (body : List Instruction) :
    Unfolds label (body ++ rest) (⟨label, body ++ [.br next]⟩ :: run) := by
  obtain ⟨hne, hlabel, hlinked, hbody⟩ := h
  refine ⟨List.cons_ne_nil _ _, rfl, ?_, ?_⟩
  · obtain ⟨c, run, rfl⟩ := List.exists_cons_of_ne_nil hne
    rw [List.head_cons] at hlabel
    rw [List.isChain_cons_cons, List.getLast?_concat, hlabel]
    exact ⟨rfl, hlinked⟩
  · rw [List.dropLast_cons_of_ne_nil hne, List.getLast_cons hne, List.flatMap_cons, List.dropLast_concat,
      List.append_assoc, hbody]

/-- A chain says what its pieces say. -/
theorem unfolds_chain (label : String) (body : List Instruction) (links : List (String × Piece)) :
    Unfolds label (body ++ (links.map Prod.snd).flatMap Piece.body) (chain label body links) := by
  induction links generalizing label body with
  | nil =>
    rw [List.map_nil, List.flatMap_nil, List.append_nil]
    exact unfolds_singleton label body
  | cons link links ih =>
    obtain ⟨next, piece⟩ := link
    exact (ih next piece.body).cons label body

/-! ## Blocks and functions -/

/-- There is a piece for each tracepoint call. -/
theorem length_cutAtTracepoints (marker : String) (is : List Instruction) :
    (cutAtTracepoints marker is).2.length = is.countP (·.isTracepoint marker) := by
  induction is with
  | nil => rfl
  | cons i is ih =>
    unfold cutAtTracepoints
    cases hi : i.isTracepoint marker with
    | true => simp [hi, ih]
    | false => simp [hi, ih]

theorem Block.length_pieces (marker : String) (b : Block) : (b.pieces marker).2.length = b.innerTracepoints marker := by
  cases hb : b.body with
  | nil => simp [pieces, innerTracepoints, hb]
  | cons i is => rw [pieces_eq hb, length_cutAtTracepoints, innerTracepoints, hb, List.tail_cons]

/-- The blocks that a block is split into if the labels in `taken` are not free. -/
def Block.splitRun (marker : String) (taken : List String) (b : Block) : List Block :=
  chain b.label (b.pieces marker).1 ((newLabels marker taken b).zip (b.pieces marker).2)

/-- The runs that blocks are split into, one for each. -/
def splitRuns (marker : String) (taken : List String) : List Block → List (List Block)
  | [] => []
  | b :: bs => b.splitRun marker taken :: splitRuns marker (newLabels marker taken b ++ taken) bs

theorem Block.map_label_splitRun (marker : String) (taken : List String) (b : Block) :
    (b.splitRun marker taken).map (·.label) = b.label :: newLabels marker taken b := by
  have hlabel : ((·.label) ∘ Part.toBlock : Part → String) = (·.label) := rfl
  rw [splitRun, chain_eq_chainParts 0 0, List.map_map, hlabel, map_label_chainParts, map_fst_zip_newLabels]

theorem Block.splitsInto_splitRun (marker : String) (taken : List String) (b : Block) :
    b.SplitsInto marker (b.splitRun marker taken) where
  unfolds := by
    have h := unfolds_chain b.label (b.pieces marker).1 ((newLabels marker taken b).zip (b.pieces marker).2)
    rwa [map_snd_zip_newLabels, ← (cutPoints_eq_starts marker b).2] at h
  length := by
    have hlabels := congrArg List.length (b.map_label_splitRun marker taken)
    rwa [List.length_map, List.length_cons, newLabels, length_freshLabels, length_pieces] at hlabels

theorem forall₂_splitRuns (marker : String) (taken : List String) (bs : List Block) :
    List.Forall₂ (Block.SplitsInto marker) bs (splitRuns marker taken bs) := by
  induction bs generalizing taken with
  | nil => exact .nil
  | cons b bs ih => exact .cons (b.splitsInto_splitRun marker taken) (ih _)

theorem splitBlocks_eq_flatten (marker function : String) (taken : List String) (bs : List Block) :
    (splitBlocks marker function taken bs).1 = (splitRuns marker taken bs).flatten := by
  induction bs generalizing taken with
  | nil => rfl
  | cons b bs ih =>
    rw [splitRuns, List.flatten_cons, ← ih]
    rfl

/-- A function with a run of blocks in place of each block. -/
def Function.SplitsInto (marker : String) (f g : Function) : Prop :=
  g.name = f.name ∧ ∃ runs, List.Forall₂ (Block.SplitsInto marker) f.blocks runs ∧ g.blocks = runs.flatten

theorem Function.splitsInto_split (marker : String) (f : Function) : f.SplitsInto marker (f.split marker).1 :=
  ⟨rfl, splitRuns marker f.labels f.blocks, forall₂_splitRuns marker _ _, splitBlocks_eq_flatten marker f.name _ _⟩

/-! ## Programs -/

/-- Each cut is one event of the finest level, and the last event is none. -/
theorem Split.length_filter_events (s : Split) : (s.events.filter (·.level = .trace)).length = s.newBlocks := by
  have hcuts : (s.cuts.map Event.cut).filter (·.level = .trace) = s.cuts.map Event.cut := by
    refine List.filter_eq_self.mpr fun e he => ?_
    obtain ⟨c, -, rfl⟩ := List.mem_map.mp he
    rfl
  rw [events, List.filter_append, hcuts, List.length_append, List.length_map]
  rfl

/-- **Splitting replaces blocks and does nothing else**, in any program and for any marker. The functions keep their
names and their order, and each block gives way to a run of blocks that says the same. As many blocks are counted as
were added, and each of them is one event. To cut bodies at indices, from the last one to the first, and to look for
each new label from the number one on comes to the same. -/
theorem Program.split_replaces (marker : String) (p : Program) :
    List.Forall₂ (Function.SplitsInto marker) p.functions (p.split marker).program.functions ∧
      (p.split marker).program.blockCount = p.blockCount + (p.split marker).newBlocks ∧
      ((p.split marker).events.filter (·.level = .trace)).length = (p.split marker).newBlocks ∧
      p.guardedSplit marker = .ok (p.split marker) := by
  refine ⟨?_, ?_, (p.split marker).length_filter_events, p.guardedSplit_eq marker⟩
  · have hsplit : (p.split marker).program.functions = p.functions.map fun f => (f.split marker).1 := rfl
    rw [hsplit, List.forall₂_map_right_iff, List.forall₂_same]
    exact fun f _ => f.splitsInto_split marker
  · rw [← p.newBlocks_add_blockCount marker, Nat.add_comm]

-- A block that ends too early, branches to a new label by itself, and calls two tracepoints in a row.
example :
    (Program.split "t_" ⟨[⟨"f", [⟨"a", [.call "t_x", .ret, .call "t_x", .br "a.1", .call "t_x", .call "t_y"]⟩,
      ⟨"a", []⟩]⟩]⟩).program =
      ⟨[⟨"f", [⟨"a", [.call "t_x", .ret, .br "a.1"]⟩, ⟨"a.1", [.call "t_x", .br "a.1", .br "a.2"]⟩,
        ⟨"a.2", [.call "t_x", .br "a.3"]⟩, ⟨"a.3", [.call "t_y"]⟩, ⟨"a", []⟩]⟩]⟩ := by
  decide +kernel

end Waymark
