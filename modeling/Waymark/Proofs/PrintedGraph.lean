import Waymark.Proofs.LeadingTracepoints
import Waymark.Proofs.Program.Printing

/-!
# Printed graphs

A printed control-flow graph tells the graph (`FlowGraph.render_faithful`). Its text is a row of words with marks
between them: numbers of vertices, names of blocks and names of tracepoints hold only word characters, whatever dots,
digits and underscores they have, and a blank, a comma, a bracket or the end of a line follows each of them. So a word
ends where the next character is none of its own (`eq_and_eq_of_word_append`), a list ends where no comma follows
(`eq_and_eq_of_listed_append`), and whether a list is there at all shows in the mark before it.

What the lines tell (`Row`) is thus found again in the text, and it is all there is to the graph: the successors of each
vertex, and the names that stand for it.
-/

namespace Waymark

/-! ## Words and lists -/

/-- A text of word characters. -/
def IsWord (w : String) : Prop := ∀ d ∈ w.toList, isWordChar d = true

variable {w w' : String} {ws ws' : List String} {t t' : List Char}

/-- A word is told from what follows it. -/
theorem eq_and_eq_of_word_append (hw : IsWord w) (hw' : IsWord w') (ht : WordEnd t) (ht' : WordEnd t')
    (h : w.toList ++ t = w'.toList ++ t') : w = w' ∧ t = t' := by
  have hend : ∀ {u : List Char}, WordEnd u → u.takeWhile isWordChar = [] := by
    intro u hu
    cases u with
    | nil => rfl
    | cons d u => rw [List.takeWhile_cons, hu d rfl]; rfl
  have htake := congrArg (List.takeWhile isWordChar) h
  rw [List.takeWhile_append_of_pos hw, List.takeWhile_append_of_pos hw', hend ht, hend ht', List.append_nil,
    List.append_nil] at htake
  rw [htake] at h
  exact ⟨String.toList_injective htake, List.append_cancel_left h⟩

/-- The words of a list behind its first one, each behind a comma. -/
def moreWords (ws : List String) : List Char := ws.flatMap fun w => ',' :: ' ' :: w.toList

/-- What follows a list is no part of it: no word goes on, and no comma stands there. -/
def ListEnd (t : List Char) : Prop := WordEnd t ∧ t.head? ≠ some ','

theorem ListEnd.wordEnd_moreWords (ht : ListEnd t) (ws : List String) : WordEnd (moreWords ws ++ t) := by
  cases ws with
  | nil => exact ht.1
  | cons w ws =>
    intro d hd
    cases hd
    rfl

theorem eq_and_eq_of_moreWords_append (hws : ∀ w ∈ ws, IsWord w) (hws' : ∀ w ∈ ws', IsWord w) (ht : ListEnd t)
    (ht' : ListEnd t') (h : moreWords ws ++ t = moreWords ws' ++ t') : ws = ws' ∧ t = t' := by
  induction ws generalizing ws' with
  | nil =>
    cases ws' with
    | nil => exact ⟨rfl, h⟩
    | cons w' ws' =>
      have hcomma : t.head? = some ',' := congrArg List.head? h
      exact absurd hcomma ht.2
  | cons w ws ih =>
    cases ws' with
    | nil =>
      have hcomma : some ',' = t'.head? := congrArg List.head? h
      exact absurd hcomma.symm ht'.2
    | cons w' ws' =>
      rw [List.forall_mem_cons] at hws hws'
      have hrest : w.toList ++ (moreWords ws ++ t) = w'.toList ++ (moreWords ws' ++ t') := by
        simpa [moreWords] using h
      obtain ⟨rfl, hmore⟩ := eq_and_eq_of_word_append hws.1 hws'.1 (ht.wordEnd_moreWords ws)
        (ht'.wordEnd_moreWords ws') hrest
      obtain ⟨rfl, rfl⟩ := ih hws.2 hws'.2 hmore
      exact ⟨rfl, rfl⟩

/-- Words with commas between them, after an opening mark and before a closing one; nothing if there are none. -/
def listed (opening closing : List Char) : List String → List Char
  | [] => []
  | w :: ws => opening ++ (w.toList ++ (moreWords ws ++ closing))

/-- A list is told from what follows it, if that does not look like another list. -/
theorem eq_and_eq_of_listed_append {opening closing : List Char} (hws : ∀ w ∈ ws, IsWord w)
    (hws' : ∀ w ∈ ws', IsWord w) (hend : ListEnd (closing ++ t)) (hend' : ListEnd (closing ++ t'))
    (ht : ¬opening <+: t) (ht' : ¬opening <+: t')
    (h : listed opening closing ws ++ t = listed opening closing ws' ++ t') : ws = ws' ∧ t = t' := by
  cases ws with
  | nil =>
    cases ws' with
    | nil => exact ⟨rfl, h⟩
    | cons w' ws' =>
      refine absurd ⟨w'.toList ++ (moreWords ws' ++ closing) ++ t', ?_⟩ ht
      rw [← List.append_assoc]
      exact h.symm
  | cons w ws =>
    cases ws' with
    | nil =>
      refine absurd ⟨w.toList ++ (moreWords ws ++ closing) ++ t, ?_⟩ ht'
      rw [← List.append_assoc]
      exact h
    | cons w' ws' =>
      rw [List.forall_mem_cons] at hws hws'
      have hrest : w.toList ++ (moreWords ws ++ (closing ++ t)) =
          w'.toList ++ (moreWords ws' ++ (closing ++ t')) := by
        simpa [listed] using h
      obtain ⟨rfl, hmore⟩ := eq_and_eq_of_word_append hws.1 hws'.1 (hend.wordEnd_moreWords ws)
        (hend'.wordEnd_moreWords ws') hrest
      obtain ⟨rfl, hclosing⟩ := eq_and_eq_of_moreWords_append hws.2 hws'.2 hend hend' hmore
      exact ⟨rfl, List.append_cancel_left hclosing⟩

theorem toList_intercalate_cons (w : String) (ws : List String) :
    (", ".intercalate (w :: ws)).toList = w.toList ++ moreWords ws := by
  rw [String.toList_intercalate]
  induction ws generalizing w with
  | nil => simp [moreWords, List.intercalate]
  | cons x ws ih =>
    rw [List.map_cons, List.map_cons, List.intercalate_cons_cons, ← List.map_cons, ih]
    simp [moreWords]

/-! ## Vertices -/

theorem toList_render_vertex (v : Vertex) : (Vertex.render v).toList = 'v' :: Nat.toDigits 10 v := by
  unfold Vertex.render
  rw [String.toList_append, Nat.toString_eq_repr, Nat.toList_repr]
  rfl

theorem isWord_render_vertex (v : Vertex) : IsWord (Vertex.render v) := by
  intro d hd
  rw [toList_render_vertex] at hd
  rcases List.mem_cons.mp hd with rfl | hd
  · rfl
  · simp [isWordChar, Nat.isDigit_of_mem_toDigits (by omega) (by omega) hd]

theorem render_vertex_injective : Function.Injective Vertex.render := by
  intro v v' h
  have htext := congrArg String.toList h
  rw [toList_render_vertex, toList_render_vertex] at htext
  rw [← @Nat.ofDigitChars_ten_toDigits v, (List.cons.inj htext).2, Nat.ofDigitChars_ten_toDigits]

/-! ## Rows -/

/-- What a line of a printed graph tells. -/
structure Row where
  vertex : Vertex
  name : String
  tracepoints : List String
  successors : List Vertex

namespace Row

/-- The characters of a line. -/
def chars (r : Row) : List Char :=
  (Vertex.render r.vertex).toList ++ ' ' :: (r.name.toList ++ (listed [' ', '['] [']'] r.tracepoints ++
    (listed [' ', '-', '>', ' '] [] (r.successors.map Vertex.render) ++ ['\n'])))

/-- The names in a row are words. -/
structure Legible (r : Row) : Prop where
  name : IsWord r.name
  tracepoints : ∀ t ∈ r.tracepoints, IsWord t

variable {r r' : Row} {rs rs' : List Row} {t t' : List Char}

/-- Behind a name comes a list, or the end of the line. -/
theorem wordEnd_lists (ns vs : List String) (t : List Char) :
    WordEnd (listed [' ', '['] [']'] ns ++ (listed [' ', '-', '>', ' '] [] vs ++ '\n' :: t)) := by
  intro d hd
  cases ns <;> cases vs <;> cases hd <;> rfl

/-- Successors are not taken for tracepoints. -/
theorem not_bracket_ahead (vs : List String) (t : List Char) :
    ¬[' ', '['] <+: listed [' ', '-', '>', ' '] [] vs ++ '\n' :: t := by
  cases vs <;> simp [listed]

/-- **A line is told from what follows it**, and tells its row. -/
theorem eq_and_eq_of_chars_append (hr : r.Legible) (hr' : r'.Legible) (h : r.chars ++ t = r'.chars ++ t') :
    r = r' ∧ t = t' := by
  obtain ⟨v, name, ns, vs⟩ := r
  obtain ⟨v', name', ns', vs'⟩ := r'
  have hblank : ∀ u, WordEnd (' ' :: u) := by
    intro u d hd
    cases hd
    rfl
  have hclose : ∀ u, ListEnd ([']'] ++ u) := by
    refine fun u => ⟨fun d hd => ?_, by simp⟩
    cases hd
    rfl
  have hline : ∀ u, ListEnd ([] ++ '\n' :: u) := by
    refine fun u => ⟨fun d hd => ?_, by simp⟩
    cases hd
    rfl
  have hwords : ∀ us : List Vertex, ∀ w ∈ us.map Vertex.render, IsWord w := by
    intro us
    rw [List.forall_mem_map]
    exact fun u _ => isWord_render_vertex u
  simp only [chars, List.append_assoc, List.cons_append, List.nil_append] at h
  obtain ⟨hvertex, hbehind⟩ := eq_and_eq_of_word_append (isWord_render_vertex v) (isWord_render_vertex v') (hblank _)
    (hblank _) h
  obtain ⟨rfl, hlists⟩ := eq_and_eq_of_word_append hr.name hr'.name (wordEnd_lists _ _ _) (wordEnd_lists _ _ _)
    (List.cons.inj hbehind).2
  obtain ⟨rfl, harrow⟩ := eq_and_eq_of_listed_append hr.tracepoints hr'.tracepoints (hclose _) (hclose _)
    (not_bracket_ahead _ _) (not_bracket_ahead _ _) hlists
  obtain ⟨hsuccessors, hend⟩ := eq_and_eq_of_listed_append (hwords vs) (hwords vs') (hline _) (hline _) (by simp)
    (by simp) harrow
  obtain rfl := render_vertex_injective hvertex
  obtain rfl := List.map_injective_iff.mpr render_vertex_injective hsuccessors
  exact ⟨rfl, (List.cons.inj hend).2⟩

/-- **Lines tell their rows.** -/
theorem eq_of_flatMap_chars (hrs : ∀ r ∈ rs, r.Legible) (hrs' : ∀ r ∈ rs', r.Legible)
    (h : rs.flatMap chars = rs'.flatMap chars) : rs = rs' := by
  have hne : ∀ (r : Row) (u : List Char), r.chars ++ u ≠ [] := by
    intro r u hnil
    simp [chars] at hnil
  induction rs generalizing rs' with
  | nil =>
    cases rs' with
    | nil => rfl
    | cons r' rs' => exact absurd h.symm (hne r' _)
  | cons r rs ih =>
    cases rs' with
    | nil => exact absurd h (hne r _)
    | cons r' rs' =>
      rw [List.forall_mem_cons] at hrs hrs'
      rw [List.flatMap_cons, List.flatMap_cons] at h
      obtain ⟨rfl, hrest⟩ := eq_and_eq_of_chars_append hrs.1 hrs'.1 h
      rw [ih hrs.2 hrs'.2 hrest]

end Row

theorem Labels.mem_namesOf_iff {l : Labels} {name : String} {v : Vertex} :
    name ∈ l.namesOf v ↔ l.get? name = some v := by
  unfold namesOf
  simp only [List.mem_map, List.mem_filter, decide_eq_true_eq]
  constructor
  · rintro ⟨⟨n, u⟩, ⟨hmem, rfl⟩, rfl⟩
    exact get?_of_mem hmem
  · intro hget
    exact ⟨(name, v), ⟨mem_of_get?_eq_some hget, rfl⟩, rfl⟩

namespace FlowGraph

variable {g h : FlowGraph} {p : Program} {marker : String}

/-- The rows of a graph. -/
def rows (g : FlowGraph) : List Row :=
  g.blocks.mapIdx fun v name => ⟨v, name.render, g.labels.namesOf v, g.graph.successors v⟩

theorem toList_renderArrow (vs : List Vertex) :
    (renderArrow vs).toList = listed [' ', '-', '>', ' '] [] (vs.map Vertex.render) := by
  unfold renderArrow
  cases vs with
  | nil => rfl
  | cons v vs =>
    rw [List.isEmpty_cons, if_neg Bool.false_ne_true, String.toList_append, List.map_cons, toList_intercalate_cons,
      listed, List.append_nil]
    rfl

theorem toList_renderBlock (g : FlowGraph) (v : Vertex) (name : BlockName) :
    (g.renderBlock v name).toList = name.render.toList ++ listed [' ', '['] [']'] (g.labels.namesOf v) := by
  unfold renderBlock
  rw [String.toList_append]
  cases g.labels.namesOf v with
  | nil => rfl
  | cons n ns =>
    rw [List.isEmpty_cons, if_neg Bool.false_ne_true, String.toList_append, String.toList_append,
      toList_intercalate_cons, listed]
    simp

/-- The text of a graph is made of its rows. -/
theorem toList_render (g : FlowGraph) : g.render.toList = g.rows.flatMap Row.chars := by
  unfold render rows
  rw [String.toList_join, List.mapIdx_eq_zipIdx_map, List.mapIdx_eq_zipIdx_map, List.flatMap_map, List.flatMap_map]
  congr 1
  funext ⟨name, v⟩
  simp [Row.chars, toList_renderBlock, toList_renderArrow]

/-! ## Graphs from their rows -/

/-- A graph in which all names are words, each vertex has one, and tracepoints stand for vertices. -/
structure Legible (g : FlowGraph) : Prop where
  size : g.blocks.length = g.graph.size
  names : ∀ n ∈ g.blocks, IsWord n.render
  tracepoints : ∀ {t v}, g.labels.get? t = some v → IsWord t ∧ v < g.graph.size

theorem Legible.legible_rows (hg : g.Legible) : ∀ r ∈ g.rows, r.Legible := by
  intro r hr
  obtain ⟨v, hv, rfl⟩ := List.mem_mapIdx.mp hr
  exact ⟨hg.names _ (List.getElem_mem hv), fun t ht => (hg.tracepoints (Labels.mem_namesOf_iff.mp ht)).1⟩

theorem map_name_rows (g : FlowGraph) : g.rows.map Row.name = g.blocks.map BlockName.render := by
  apply List.ext_getElem?
  intro v
  rw [rows, List.getElem?_map, List.getElem?_mapIdx, Option.map_map, List.getElem?_map]
  rfl

theorem exists_row {v : Vertex} (hv : v < g.blocks.length) :
    ∃ name, g.rows[v]? = some ⟨v, name, g.labels.namesOf v, g.graph.successors v⟩ := by
  rw [rows, List.getElem?_mapIdx, List.getElem?_eq_getElem hv]
  exact ⟨_, rfl⟩

/-- The rows of two graphs tell whether they have the same edges and the same names for them. -/
theorem Legible.eq_of_rows_eq (hg : g.Legible) (hh : h.Legible) (hrows : g.rows = h.rows) :
    g.graph = h.graph ∧ (∀ t, g.labels.get? t = h.labels.get? t) ∧
      g.blocks.map BlockName.render = h.blocks.map BlockName.render := by
  have hnames : g.blocks.map BlockName.render = h.blocks.map BlockName.render := by
    rw [← map_name_rows, ← map_name_rows, hrows]
  have hlength : g.blocks.length = h.blocks.length := by
    simpa using congrArg List.length hnames
  have hsize : g.graph.size = h.graph.size := by
    rw [← hg.size, ← hh.size, hlength]
  have hrow : ∀ v, v < g.graph.size →
      g.labels.namesOf v = h.labels.namesOf v ∧ g.graph.successors v = h.graph.successors v := by
    intro v hv
    rw [← hg.size] at hv
    obtain ⟨n, hn⟩ := exists_row hv
    obtain ⟨n', hn'⟩ := exists_row (hlength ▸ hv)
    rw [hrows, hn'] at hn
    obtain ⟨-, -, htracepoints, hsuccessors⟩ := Row.mk.inj (Option.some.inj hn)
    exact ⟨htracepoints.symm, hsuccessors.symm⟩
  have hlabels : ∀ t v, g.labels.get? t = some v ↔ h.labels.get? t = some v := by
    intro t v
    constructor
    · intro hget
      rw [← Labels.mem_namesOf_iff, ← (hrow v (hg.tracepoints hget).2).1, Labels.mem_namesOf_iff]
      exact hget
    · intro hget
      rw [← Labels.mem_namesOf_iff, (hrow v (hsize ▸ (hh.tracepoints hget).2)).1, Labels.mem_namesOf_iff]
      exact hget
  refine ⟨Graph.ext_successors hsize fun v => ?_, fun t => Option.ext fun v => hlabels t v, hnames⟩
  by_cases hv : v < g.graph.size
  · exact (hrow v hv).2
  · rw [Graph.successors_of_size_le (Nat.not_lt.mp hv), Graph.successors_of_size_le (hsize ▸ Nat.not_lt.mp hv)]

/-- **A printed graph tells the graph.** -/
theorem Legible.eq_of_render_eq (hg : g.Legible) (hh : h.Legible) (htext : g.render = h.render) :
    g.graph = h.graph ∧ (∀ t, g.labels.get? t = h.labels.get? t) ∧
      g.blocks.map BlockName.render = h.blocks.map BlockName.render := by
  refine hg.eq_of_rows_eq hh (Row.eq_of_flatMap_chars hg.legible_rows hh.legible_rows ?_)
  rw [← toList_render, ← toList_render, htext]

/-! ## Built graphs -/

open Program

theorem blocks_of_build (hg : (build marker p).value = .ok g) : g.blocks = p.blockNames := by
  unfold build at hg
  simp only at hg
  split at hg
  · cases hg
  · split at hg
    · cases hg
    · cases hg
      rfl

theorem isWord_render_of_mem_blockNames (hp : p.Spellable) {n : BlockName} (hn : n ∈ p.blockNames) :
    IsWord n.render := by
  obtain ⟨f, hf, hn⟩ := List.mem_flatMap.mp hn
  obtain ⟨b, hb, rfl⟩ := List.mem_map.mp hn
  intro d hd
  simp only [BlockName.render, String.toList_append, List.mem_append] at hd
  rcases hd with (hd | hd) | hd
  · exact (hp f hf).1.forall_isWordChar d hd
  · cases List.mem_singleton.mp hd
    rfl
  · exact ((hp f hf).2 b hb).1.forall_isWordChar d hd

theorem isWord_of_calls (hp : p.Spellable) {name : String} {q : Position} (hq : p.Calls marker name q) :
    IsWord name := by
  obtain ⟨-, hcall⟩ := calls_iff.mp hq
  obtain ⟨f, b, hat, hbody⟩ := instruction?_eq_some_iff.mp hcall
  have hspell := ((hp f (List.mem_of_getElem? hat.1)).2 b (List.mem_of_getElem? hat.2)).2 _ (List.mem_of_getElem? hbody)
  have hcallee : IsIdentifier (marker ++ name) := hspell.1 _ List.mem_cons_self
  intro d hd
  apply hcallee.forall_isWordChar d
  rw [String.toList_append]
  exact List.mem_append_right _ hd

/-- The graph of a program that was parsed can be told from its text. -/
theorem exists_legible_build (hp : p.Printable) (marker : String) :
    ∃ g, (build marker p).value = .ok g ∧ g.Legible := by
  have hwf := verify_eq_ok_iff.mp hp.verified
  obtain ⟨g, hg, hlabels, -⟩ := build_labels hwf marker
  obtain ⟨g', hg', hdepicts⟩ := depicts_of_targetsFound (fun f hf => (hwf.functions f hf).targetsFound) marker
  cases hg.symm.trans hg'
  refine ⟨g, hg, hdepicts.blocks, fun n hn => ?_, fun {t v} hget => ?_⟩
  · rw [blocks_of_build hg] at hn
    exact isWord_render_of_mem_blockNames hp.spellable hn
  · rw [hlabels, get?_insertAll_callsAt, Option.map_eq_some_iff] at hget
    obtain ⟨q, hlast, rfl⟩ := hget
    have hcalls : p.Calls marker t q := calls_of_lastCall? hlast
    obtain ⟨f, b, hat, -⟩ := instruction?_eq_some_iff.mp (calls_iff.mp hcalls).2
    exact ⟨isWord_of_calls hp.spellable hcalls, (hdepicts.vertices _).mpr ⟨q, f, b, hat, rfl⟩⟩

theorem printable_of_parsed {source : String} {p' : Program} (h : parse source = .ok p)
    (hp' : p' = p ∨ ∃ m, p' = (p.split m).program) : p'.Printable := by
  rcases hp' with rfl | ⟨m, rfl⟩
  · exact printable_of_parse h
  · exact (printable_of_parse h).split m

/-- **The text of a graph is faithful**: the graphs of any two programs that were parsed, and perhaps split, are built
for any markers; and if their texts are equal, so are the graphs, the vertices that the names of tracepoints stand for,
and the names of the blocks as they are printed. -/
theorem render_faithful {source source' : String} {p p' q q' : Program} (hp : parse source = .ok p)
    (hp' : p' = p ∨ ∃ m, p' = (p.split m).program) (hq : parse source' = .ok q)
    (hq' : q' = q ∨ ∃ m, q' = (q.split m).program) (marker marker' : String) :
    ∃ g h, (build marker p').value = .ok g ∧ (build marker' q').value = .ok h ∧
      (g.render = h.render → g.graph = h.graph ∧ (∀ t, g.labels.get? t = h.labels.get? t) ∧
        g.blocks.map BlockName.render = h.blocks.map BlockName.render) := by
  obtain ⟨g, hg, hlegible⟩ := exists_legible_build (printable_of_parsed hp hp') marker
  obtain ⟨h, hh, hlegible'⟩ := exists_legible_build (printable_of_parsed hq hq') marker'
  exact ⟨g, h, hg, hh, hlegible.eq_of_render_eq hlegible'⟩

/-- A printed name does not tell where that of the function ends: a block is split in one program and two blocks are
spelled out in the other, whose function has a longer name and whose calls have no marker, and the texts are equal. -/
theorem render_faithful_dotted_names :
    let p : Program := ⟨[⟨"a", [⟨"b.c", [.op "w", .call "t_x", .br "b.c"]⟩]⟩]⟩
    let q : Program := ⟨[⟨"a.b", [⟨"c", [.br "c.1"]⟩, ⟨"c.1", [.call "x", .br "c"]⟩]⟩]⟩
    let text := "v0 a.b.c -> v1\nv1 a.b.c.1 [x] -> v0\n"
    parse p.render = .ok p ∧ parse q.render = .ok q ∧
      ∃ g h, (build "t_" (p.split "t_").program).value = .ok g ∧ (build "" q).value = .ok h ∧ g.render = text ∧
        h.render = text ∧ g.blocks ≠ h.blocks ∧ g.graph = h.graph ∧ g.labels.get? "x" = h.labels.get? "x" := by
  intro p q text
  have hp : parse p.render = .ok p := by decide +kernel
  have hq : parse q.render = .ok q := by decide +kernel
  have hgtext : (build "t_" (p.split "t_").program).value.map (·.render) = .ok text := by decide +kernel
  have hhtext : (build "" q).value.map (·.render) = .ok text := by decide +kernel
  obtain ⟨g, h, hg, hh, hfaithful⟩ := render_faithful hp (.inr ⟨"t_", rfl⟩) hq (.inl rfl) "t_" ""
  rw [hg] at hgtext
  rw [hh] at hhtext
  have hgrender : g.render = text := Except.ok.inj hgtext
  have hhrender : h.render = text := Except.ok.inj hhtext
  obtain ⟨hgraph, hlabels, -⟩ := hfaithful (hgrender.trans hhrender.symm)
  refine ⟨hp, hq, g, h, hg, hh, hgrender, hhrender, ?_, hgraph, hlabels "x"⟩
  rw [blocks_of_build hg, blocks_of_build hh]
  decide +kernel

end FlowGraph

end Waymark
