import Mathlib.Data.List.Sort
import Mathlib.Tactic.ByContra
import Waymark.Program.Run
import Waymark.Program.WellFormed

/-!
# Positions and steps

The positions of a program are listed in the order of the text (`Program.pairwise_positions`), and calls that are moved
in this order are still counted in it (`Program.lastCall?_eq_map`). In a well-formed program control passes every
instruction of a block but the last one, and goes from there to the starts of the blocks that it names
(`Program.WellFormed.step_iff`).
-/

namespace Waymark

/-! ## Positions -/

namespace Program

variable {p : Program} {q r : Position} {f f' : Function} {b b' : Block} {i : Instruction}

/-- The position `q` lies in the block `b` of the function `f`, or just behind it. -/
def At (p : Program) (q : Position) (f : Function) (b : Block) : Prop :=
  p.functions[q.function]? = some f ∧ f.blocks[q.block]? = some b

theorem At.unique (h : p.At q f b) (h' : p.At q f' b') : f = f' ∧ b = b' := by
  obtain ⟨hf, hb⟩ := h
  obtain ⟨hf', hb'⟩ := h'
  cases hf.symm.trans hf'
  exact ⟨rfl, Option.some.inj (hb.symm.trans hb')⟩

theorem At.instruction? (h : p.At q f b) : p.instruction? q = b.body[q.index]? := by
  simp [Program.instruction?, h.1, h.2]

theorem instruction?_eq_some_iff :
    p.instruction? q = some i ↔ ∃ f b, p.At q f b ∧ b.body[q.index]? = some i := by
  simp only [instruction?, bind, Option.bind_eq_some_iff, At]
  constructor
  · rintro ⟨f, hf, b, hb, hi⟩
    exact ⟨f, b, ⟨hf, hb⟩, hi⟩
  · rintro ⟨f, b, ⟨hf, hb⟩, hi⟩
    exact ⟨f, hf, b, hb, hi⟩

theorem mem_positions_iff : q ∈ p.positions ↔ ∃ f b, p.At q f b ∧ q.index < b.body.length := by
  simp only [positions, List.mem_flatMap, List.mem_map, List.mem_range, Prod.exists, List.mk_mem_zipIdx_iff_getElem?]
  constructor
  · rintro ⟨f, i, hf, b, j, hb, k, hk, rfl⟩
    exact ⟨f, b, ⟨hf, hb⟩, hk⟩
  · rintro ⟨f, b, ⟨hf, hb⟩, hk⟩
    exact ⟨f, q.function, hf, b, q.block, hb, q.index, hk, rfl⟩

theorem mem_positions_iff_isSome : q ∈ p.positions ↔ (p.instruction? q).isSome = true := by
  rw [mem_positions_iff, Option.isSome_iff_exists]
  simp only [instruction?_eq_some_iff]
  constructor
  · rintro ⟨f, b, hat, hk⟩
    exact ⟨b.body[q.index], f, b, hat, List.getElem?_eq_getElem hk⟩
  · rintro ⟨i, f, b, hat, hi⟩
    exact ⟨f, b, hat, (List.getElem?_eq_some_iff.mp hi).1⟩

end Program

/-! ## The order of the text -/

/-- A position comes before another in the text. -/
def Position.Before (q r : Position) : Prop :=
  q.function < r.function ∨
    q.function = r.function ∧ (q.block < r.block ∨ q.block = r.block ∧ q.index < r.index)

theorem Position.Before.ne {q r : Position} (h : q.Before r) : q ≠ r := by
  rintro rfl
  unfold Before at h
  omega

theorem Position.Before.asymm {q r : Position} (h : q.Before r) : ¬r.Before q := by
  unfold Before at h ⊢
  omega

instance : Std.Irrefl Position.Before := ⟨fun _ h => h.ne rfl⟩

instance : Std.Antisymm Position.Before := ⟨fun _ _ h h' => absurd h' h.asymm⟩

theorem Position.before_trichotomy (q r : Position) : q.Before r ∨ q = r ∨ r.Before q := by
  obtain ⟨qf, qb, qk⟩ := q
  obtain ⟨rf, rb, rk⟩ := r
  simp only [Before, mk.injEq]
  omega

namespace Program

/-- Lists made for the members of a numbered list are in order if each of them is, and all of one come before all of
the next. -/
theorem pairwise_flatMap_zipIdx {α : Type} {l : List α} {g : α × Nat → List Position} {R : Position → Position → Prop}
    (hin : ∀ x ∈ l.zipIdx, (g x).Pairwise R)
    (hnext : ∀ x y : α × Nat, x.2 < y.2 → ∀ q ∈ g x, ∀ r ∈ g y, R q r) : (l.zipIdx.flatMap g).Pairwise R := by
  rw [List.pairwise_flatMap]
  refine ⟨hin, ?_⟩
  have hsnd : (l.zipIdx.map Prod.snd).Pairwise (· < ·) := by
    rw [List.zipIdx_map_snd]
    exact List.pairwise_lt_range'
  exact (List.pairwise_map.mp hsnd).imp fun {x y} hxy => hnext x y hxy

/-- The positions are listed in the order of the text. -/
theorem pairwise_positions (p : Program) : p.positions.Pairwise Position.Before := by
  refine pairwise_flatMap_zipIdx (fun ⟨f, i⟩ _ => pairwise_flatMap_zipIdx (fun ⟨b, j⟩ _ => ?_) ?_) ?_
  · exact List.pairwise_map.mpr (List.pairwise_lt_range.imp fun hlt => .inr ⟨rfl, .inr ⟨rfl, hlt⟩⟩)
  · intro x y hxy q hq r hr
    obtain ⟨k, _, rfl⟩ := List.mem_map.mp hq
    obtain ⟨m, _, rfl⟩ := List.mem_map.mp hr
    exact .inr ⟨rfl, .inl hxy⟩
  · intro x y hxy q hq r hr
    obtain ⟨⟨b, j⟩, _, hq⟩ := List.mem_flatMap.mp hq
    obtain ⟨⟨c, m⟩, _, hr⟩ := List.mem_flatMap.mp hr
    obtain ⟨_, _, rfl⟩ := List.mem_map.mp hq
    obtain ⟨_, _, rfl⟩ := List.mem_map.mp hr
    exact .inl hxy

theorem nodup_positions (p : Program) : p.positions.Nodup :=
  p.pairwise_positions.imp Position.Before.ne

end Program

/-! ## Calls -/

namespace Program

variable {p p' : Program} {q : Position} {marker name : String}

/-- The position `q` holds a call of the tracepoint. -/
def Calls (p : Program) (marker name : String) (q : Position) : Prop :=
  (p.instruction? q).bind (·.tracepoint? marker) = some name

theorem mem_calls_iff :
    q ∈ p.positions.filter (fun r => (p.instruction? r).bind (·.tracepoint? marker) = some name) ↔
      p.Calls marker name q := by
  rw [List.mem_filter, decide_eq_true_eq, mem_positions_iff_isSome]
  refine and_iff_right_of_imp fun h => ?_
  obtain ⟨i, hi, -⟩ := Option.bind_eq_some_iff.mp h
  rw [hi]
  rfl

theorem calls_of_lastCall? (h : p.lastCall? marker name = some q) : p.Calls marker name q :=
  mem_calls_iff.mp (List.mem_of_getLast? h)

/-- Where the calls of a tracepoint are moved and stay in order, the last one is moved with them. -/
theorem lastCall?_eq_map {move : Position → Position}
    (hcalls : ∀ s, p'.Calls marker name s ↔ ∃ r, p.Calls marker name r ∧ move r = s)
    (hbefore : ∀ r s, p.Calls marker name r → p.Calls marker name s → r.Before s → (move r).Before (move s)) :
    p'.lastCall? marker name = (p.lastCall? marker name).map move := by
  rw [lastCall?, lastCall?, ← List.getLast?_map]
  apply congrArg
  apply List.Pairwise.eq_of_mem_iff ((pairwise_positions p').filter _)
  · rw [List.pairwise_map]
    refine ((pairwise_positions p).filter _).imp_of_mem fun hr hs hrs => ?_
    exact hbefore _ _ (mem_calls_iff.mp hr) (mem_calls_iff.mp hs) hrs
  · intro s
    simp only [List.mem_map, mem_calls_iff, hcalls]

end Program

/-! ## Steps of a well-formed program -/

/-- What names a target ends its block. -/
theorem Instruction.isTerminator_of_mem_targets {i : Instruction} {t : String} (h : t ∈ i.targets) :
    i.isTerminator = true := by
  cases i <;> simp_all [targets, isTerminator]

namespace Block.WellFormed

variable {labels : List String} {b : Block} {k : Nat} {i : Instruction}

theorem body_ne_nil (h : b.WellFormed labels) : b.body ≠ [] := by
  obtain ⟨i, hi, -⟩ := h.ends
  rintro hb
  rw [hb] at hi
  cases hi

/-- The terminators of a block are its last instruction. -/
theorem isTerminator_iff (h : b.WellFormed labels) (hi : b.body[k]? = some i) :
    i.isTerminator = true ↔ k + 1 = b.body.length := by
  obtain ⟨t, ht, hterm⟩ := h.ends
  rw [List.getLast?_eq_getElem?] at ht
  have hk : k < b.body.length := (List.getElem?_eq_some_iff.mp hi).1
  constructor
  · intro hterm'
    by_contra hne
    have hmem : i ∈ b.body.dropLast := by
      rw [List.dropLast_eq_take]
      exact List.mem_take_iff_getElem.mpr ⟨k, by omega, (List.getElem?_eq_some_iff.mp hi).2⟩
    rw [h.only i hmem] at hterm'
    cases hterm'
  · intro hlast
    rw [show b.body.length - 1 = k by omega, hi] at ht
    cases ht
    exact hterm

theorem successors_eq (h : b.WellFormed labels) (hi : b.body[k]? = some i) (hk : k + 1 = b.body.length) :
    b.successors = i.targets := by
  have hlast : b.body.getLast? = some i := by
    rw [List.getLast?_eq_getElem?, ← hk]
    exact hi
  have hterm : b.terminator? = some i := by
    simp [terminator?, hlast, (h.isTerminator_iff hi).mpr hk]
  simp [successors, hterm]

end Block.WellFormed

namespace Function

variable {f : Function} {b : Block} {c : Nat} {t : String}

theorem getElem?_labels (f : Function) (c : Nat) : f.labels[c]? = f.blocks[c]?.map (·.label) :=
  List.getElem?_map

/-- A label is the number of its block. -/
theorem WellFormed.idxOf_label (h : f.WellFormed) (hc : f.blocks[c]? = some b) : f.labels.idxOf b.label = c := by
  have hl : f.labels[c]? = some b.label := by rw [getElem?_labels, hc]; rfl
  obtain ⟨hlt, heq⟩ := List.getElem?_eq_some_iff.mp hl
  rw [← heq]
  exact h.labels.idxOf_getElem c hlt

theorem getElem?_idxOf_of_mem (h : t ∈ f.labels) : ∃ b, f.blocks[f.labels.idxOf t]? = some b ∧ b.label = t := by
  have hl : f.labels[f.labels.idxOf t]? = some t :=
    List.getElem?_eq_some_iff.mpr ⟨List.idxOf_lt_length_of_mem h, List.getElem_idxOf _⟩
  rw [getElem?_labels] at hl
  exact Option.map_eq_some_iff.mp hl

end Function

namespace Program.WellFormed

variable {p : Program} {q r : Position} {f : Function} {b : Block}

theorem function (h : p.WellFormed) (hq : p.At q f b) : f.WellFormed :=
  h.functions f (List.mem_of_getElem? hq.1)

theorem block (h : p.WellFormed) (hq : p.At q f b) : b.WellFormed f.labels :=
  (h.function hq).blocks b (List.mem_of_getElem? hq.2)

/-- In a well-formed program control passes every instruction but the last, which leads to the blocks it names. -/
theorem step_iff (h : p.WellFormed) (hq : p.At q f b) :
    p.Step q r ↔
      q.index + 1 < b.body.length ∧ r = ⟨q.function, q.block, q.index + 1⟩ ∨
        q.index + 1 = b.body.length ∧ ∃ t ∈ b.successors, r = ⟨q.function, f.labels.idxOf t, 0⟩ := by
  have hb := h.block hq
  constructor
  · intro hstep
    cases hstep with
    | @next _ _ k i hi ht =>
      rw [hq.instruction?] at hi
      have hk : k < b.body.length := (List.getElem?_eq_some_iff.mp hi).1
      have hne : k + 1 ≠ b.body.length := fun hlast => by
        rw [(hb.isTerminator_iff hi).mpr hlast] at ht
        cases ht
      exact .inl ⟨Nat.lt_of_le_of_ne hk hne, rfl⟩
    | @jump _ _ k c i fn target hi hf hc ht =>
      rw [hq.instruction?] at hi
      cases hq.1.symm.trans hf
      have hlast := (hb.isTerminator_iff hi).mp (Instruction.isTerminator_of_mem_targets ht)
      refine .inr ⟨hlast, target.label, by rw [hb.successors_eq hi hlast]; exact ht, ?_⟩
      rw [(h.function hq).idxOf_label hc]
  · obtain ⟨qf, qb, k⟩ := q
    rintro (⟨hk, rfl⟩ | ⟨hlast, t, ht, rfl⟩)
    · have hi : b.body[k]? = some b.body[k] := List.getElem?_eq_getElem (Nat.lt_of_succ_lt hk)
      refine .next (by rw [hq.instruction?]; exact hi) ?_
      rw [Bool.eq_false_iff]
      exact fun hterm => (Nat.ne_of_lt hk) ((hb.isTerminator_iff hi).mp hterm)
    · have hi : b.body[k]? = some b.body[k] := List.getElem?_eq_getElem (by simp only at hlast; omega)
      obtain ⟨target, hc, rfl⟩ := Function.getElem?_idxOf_of_mem (hb.targets t ht)
      refine .jump (by rw [hq.instruction?]; exact hi) hq.1 hc ?_
      rw [← hb.successors_eq hi hlast]
      exact ht

/-- Control stays in the program. -/
theorem mem_positions_of_step (h : p.WellFormed) (hq : p.At q f b) (hstep : p.Step q r) : r ∈ p.positions := by
  rw [mem_positions_iff]
  rcases (h.step_iff hq).mp hstep with ⟨hk, rfl⟩ | ⟨-, t, ht, rfl⟩
  · exact ⟨f, b, hq, hk⟩
  · obtain ⟨target, hc, -⟩ := Function.getElem?_idxOf_of_mem ((h.block hq).targets t ht)
    have htarget : p.At ⟨q.function, f.labels.idxOf t, 0⟩ f target := ⟨hq.1, hc⟩
    exact ⟨f, target, htarget, List.length_pos_iff.mpr (h.block htarget).body_ne_nil⟩

end Program.WellFormed

end Waymark
