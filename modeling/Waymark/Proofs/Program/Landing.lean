import Mathlib.Order.Monotone.Basic
import Waymark.Proofs.Program.Heads
import Waymark.Proofs.Program.Insertion

/-!
# Heads around one more instruction

An `op` put into a program leaves its heads what they are (`Program.landing`). Only where it stands before a tracepoint
call at the start of a block there is a head more: control that jumps to the block comes to the `op` first
(`Position.entry`) and goes on from there to the call (`Program.onward_landing`, `Program.onward_entry`).
-/

namespace Waymark

/-! ## Tracepoint calls -/

namespace Program

variable {marker name : String} {p : Program} {q r s : Position} {f : Function} {b : Block}

theorem marked_insertOp_shift (p : Program) (q r : Position) (marker name : String) :
    (p.insertOp q name).marked marker (q.shift r) = p.marked marker r := by
  simp [Program.marked]

/-- The tracepoint calls of the new program are the old ones. -/
theorem marked_insertOp_iff (hq : q ∈ p.positions) :
    (p.insertOp q name).marked marker s = true ↔ ∃ r, q.shift r = s ∧ p.marked marker r = true := by
  constructor
  · intro hs
    rcases Position.eq_or_exists_shift q s with rfl | ⟨r, rfl⟩
    · rw [Program.marked, instruction?_insertOp_self hq] at hs
      cases hs
    · exact ⟨r, rfl, by rwa [marked_insertOp_shift] at hs⟩
  · rintro ⟨r, rfl, hr⟩
    rwa [marked_insertOp_shift]

end Program

/-! ## Where heads come to stand -/

/-- Where a jump to the head `r` leads in the new program: the starts of blocks stay what they are. -/
def Position.entry (q r : Position) : Position := if r.index = 0 then r else q.shift r

namespace Program

variable {marker name : String} {p : Program} {q r s : Position} {f : Function} {b : Block}

/-- What becomes of the head `r`: a call is moved with its instruction, any other start of a block stays. -/
def landing (marker : String) (p : Program) (q r : Position) : Position :=
  if p.marked marker r then q.shift r else r

/-- A head is moved and entered at the same place, unless the new instruction stands between a block and the call at its
start. -/
theorem entry_ne_landing_iff (hr : r ∈ p.heads marker) :
    q.entry r ≠ p.landing marker q r ↔ r = q ∧ q.index = 0 ∧ p.marked marker q = true := by
  unfold Position.entry landing
  cases hm : p.marked marker r with
  | false =>
    have h0 : r.index = 0 := (mem_heads_iff_marked.mp hr).2.resolve_right (by simp [hm])
    simp only [h0, if_true, Bool.false_eq_true, if_false, ne_eq, not_true_eq_false, false_iff]
    rintro ⟨rfl, -, hq⟩
    rw [hm] at hq
    cases hq
  | true =>
    by_cases h0 : r.index = 0
    · simp only [h0, if_true]
      constructor
      · intro hne
        have hrq : r = q := by
          by_contra hrq
          exact hne (Position.shift_eq_self_of_index_eq_zero h0 hrq).symm
        subst hrq
        exact ⟨rfl, h0, hm⟩
      · rintro ⟨rfl, -, -⟩
        exact (Position.shift_ne_self r r).symm
    · simp only [h0, if_false, if_true, ne_eq, not_true_eq_false, false_iff]
      rintro ⟨rfl, hq, -⟩
      exact h0 hq

theorem landing_injOn (hr : r ∈ p.heads marker) (hs : s ∈ p.heads marker)
    (h : p.landing marker q r = p.landing marker q s) : r = s := by
  -- a call that is moved does not come to the start of a block
  have hmixed : ∀ {r s}, p.marked marker r = true → p.marked marker s = false → s ∈ p.heads marker →
      q.shift r ≠ s := by
    rintro r s hr hs hhead rfl
    have h0 : (q.shift r).index = 0 := (mem_heads_iff_marked.mp hhead).2.resolve_right (by simp [hs])
    rw [Position.index_shift_eq_zero h0, hr] at hs
    cases hs
  unfold landing at h
  cases hmr : p.marked marker r with
  | true =>
    cases hms : p.marked marker s with
    | true => exact q.shift_injective (by simpa [hmr, hms] using h)
    | false => exact absurd (by simpa [hmr, hms] using h) (hmixed hmr hms hs)
  | false =>
    cases hms : p.marked marker s with
    | true => exact absurd (by simpa [hmr, hms] using h.symm) (hmixed hms hmr hr)
    | false => simpa [hmr, hms] using h

/-- The new head is no old one, and is the entry to one head alone. -/
theorem entry_unique (hs : s ∈ p.heads marker) (hne : q.entry s ≠ p.landing marker q s) :
    p.landing marker q r ≠ q.entry s ∧ (q.entry r = q.entry s → r = s) := by
  obtain ⟨rfl, h0, hm⟩ := (entry_ne_landing_iff hs).mp hne
  have hentry : s.entry s = s := if_pos h0
  rw [hentry]
  constructor
  · unfold landing
    split
    · exact s.shift_ne_self r
    next hmr =>
      rintro rfl
      exact hmr hm
  · unfold Position.entry
    split
    · exact id
    · exact fun h => absurd h (s.shift_ne_self r)

/-! ## Heads of the new program -/

theorem mem_heads_insertOp_shift (hr : p.marked marker r = true) (q : Position) (name : String) :
    q.shift r ∈ (p.insertOp q name).heads marker := by
  rw [mem_heads_iff_marked, marked_insertOp_shift, mem_positions_iff_isSome, instruction?_insertOp_shift]
  refine ⟨?_, .inr hr⟩
  unfold Program.marked at hr
  cases hi : p.instruction? r with
  | none => simp [hi] at hr
  | some i => rfl

theorem mem_heads_insertOp_of_index_eq_zero (hq : q ∈ p.positions) (hr : r ∈ p.positions) (h0 : r.index = 0)
    (name : String) : r ∈ (p.insertOp q name).heads marker := by
  rw [mem_heads_iff_marked, mem_positions_iff_isSome]
  refine ⟨?_, .inl h0⟩
  by_cases hrq : r = q
  · rw [hrq, instruction?_insertOp_self hq]
    rfl
  · rw [← Position.shift_eq_self_of_index_eq_zero h0 hrq, instruction?_insertOp_shift]
    exact mem_positions_iff_isSome.mp hr

theorem landing_mem_heads (hq : q ∈ p.positions) (hr : r ∈ p.heads marker) (name : String) :
    p.landing marker q r ∈ (p.insertOp q name).heads marker := by
  obtain ⟨hpos, hhead⟩ := mem_heads_iff_marked.mp hr
  unfold landing
  split
  next hm => exact mem_heads_insertOp_shift hm q name
  next hm => exact mem_heads_insertOp_of_index_eq_zero hq hpos (hhead.resolve_right hm) name

theorem entry_mem_heads (hq : q ∈ p.positions) (hr : r ∈ p.heads marker) (name : String) :
    q.entry r ∈ (p.insertOp q name).heads marker := by
  obtain ⟨hpos, hhead⟩ := mem_heads_iff_marked.mp hr
  unfold Position.entry
  split
  next h0 => exact mem_heads_insertOp_of_index_eq_zero hq hpos h0 name
  next h0 => exact mem_heads_insertOp_shift (hhead.resolve_left h0) q name

end Program

/-! ## From head to head -/

/-- Cuts that are moved in order stay in order. -/
theorem Block.nextCut?_of_marked_iff {marker : String} {b b' : Block} {move : Nat → Nat} {m m' : Nat}
    (hmono : StrictMono move) (hmarked : ∀ l, b'.marked marker l = true ↔ ∃ k, move k = l ∧ b.marked marker k = true)
    (hm : ∀ k, b.marked marker k = true → (m < k ↔ m' < move k)) :
    b'.nextCut? marker m' = (b.nextCut? marker m).map move := by
  cases hcut : b.nextCut? marker m with
  | none =>
    rw [Option.map_none, nextCut?_eq_none_iff]
    intro l hl
    rw [Bool.eq_false_iff]
    intro hml
    obtain ⟨k, rfl, hk⟩ := (hmarked l).mp hml
    have := nextCut?_eq_none_iff.mp hcut k ((hm k hk).mpr hl)
    rw [hk] at this
    cases this
  | some k =>
    obtain ⟨hlt, hk, hbetween⟩ := nextCut?_eq_some_iff.mp hcut
    rw [Option.map_some, nextCut?_eq_some_iff]
    refine ⟨(hm k hk).mp hlt, (hmarked _).mpr ⟨k, rfl, hk⟩, fun l hml hlk => ?_⟩
    rw [Bool.eq_false_iff]
    intro hl
    obtain ⟨j, rfl, hj⟩ := (hmarked l).mp hl
    have := hbetween j ((hm j hj).mpr hml) (hmono.lt_iff_lt.mp hlk)
    rw [hj] at this
    cases this

namespace Program

variable {marker name : String} {p : Program} {q r s : Position} {f : Function} {b : Block}

/-- The next cut after a head is the one that was next before. -/
theorem At.nextCut?_landing {f' : Function} {b' : Block} (hq : q ∈ p.positions) (hr : r ∈ p.heads marker)
    (hat : p.At r f b) (hat' : (p.insertOp q name).At r f' b') :
    b'.nextCut? marker (p.landing marker q r).index =
      (b.nextCut? marker r.index).map fun k => (q.shift ⟨r.function, r.block, k⟩).index := by
  have hmarked : ∀ k, p.marked marker ⟨r.function, r.block, k⟩ = b.marked marker k := fun k =>
    @At.marked marker p ⟨r.function, r.block, k⟩ f b hat
  have hmarked' : ∀ k, (p.insertOp q name).marked marker ⟨r.function, r.block, k⟩ = b'.marked marker k := fun k =>
    @At.marked marker _ ⟨r.function, r.block, k⟩ f' b' hat'
  have hmono : StrictMono fun k => (q.shift ⟨r.function, r.block, k⟩).index := by
    intro k m hkm
    simp only [Position.shift]
    split <;> split <;> omega
  refine Block.nextCut?_of_marked_iff hmono (fun l => ?_) fun k hk => ?_
  · rw [← hmarked', marked_insertOp_iff hq]
    constructor
    · rintro ⟨⟨rf, rb, k⟩, hshift, hk⟩
      cases congrArg Position.function hshift
      cases congrArg Position.block hshift
      exact ⟨k, congrArg Position.index hshift, by rw [← hmarked]; exact hk⟩
    · rintro ⟨k, rfl, hk⟩
      exact ⟨_, rfl, by rw [hmarked]; exact hk⟩
  · unfold landing
    split
    · exact hmono.lt_iff_lt.symm
    next hm =>
      -- a start of a block that is no call is before all calls, moved or not
      have h0 : r.index = 0 := (mem_heads_iff_marked.mp hr).2.resolve_right hm
      have hk0 : 0 < k := by
        refine Nat.pos_of_ne_zero ?_
        rintro rfl
        rw [← hmarked, ← h0] at hk
        exact hm hk
      have := q.index_le_index_shift ⟨r.function, r.block, k⟩
      rw [h0]
      simp only at this
      omega

/-- **From a head** control goes to the entries of the heads that it went to before. -/
theorem onward_landing (hq : q ∈ p.positions) (hr : r ∈ p.heads marker) (name : String) :
    (p.insertOp q name).onward marker (p.landing marker q r) = (p.onward marker r).map q.entry := by
  obtain ⟨f, b, hat, -, -⟩ := mem_heads_iff.mp hr
  obtain ⟨f', b', hlabels, hsucc, hat'⟩ := hat.exists_insertOp hq name
  have hfunction : (p.landing marker q r).function = r.function := by unfold landing; split <;> rfl
  have hblock : (p.landing marker q r).block = r.block := by unfold landing; split <;> rfl
  have hland : (p.insertOp q name).At (p.landing marker q r) f' b' := by
    rw [At, hfunction, hblock]
    exact hat'
  rw [hland.onward, hat.onward, Block.onward, Block.onward, hat.nextCut?_landing hq hr hat', hsucc, hlabels, hfunction,
    hblock]
  cases hcut : b.nextCut? marker r.index with
  | none =>
    simp [Position.entry]
  | some k =>
    have hk : k ≠ 0 := Nat.ne_of_gt (Nat.zero_lt_of_lt (Block.nextCut?_eq_some_iff.mp hcut).1)
    simp only [Option.map_some, List.map_cons, List.map_nil, Position.entry, hk, if_false]
    rfl

/-- **From the new head** control goes on to the call that it was put before. -/
theorem onward_entry (hr : r ∈ p.heads marker) (hne : q.entry r ≠ p.landing marker q r) (name : String) :
    (p.insertOp q name).onward marker (q.entry r) = [p.landing marker q r] := by
  obtain ⟨rfl, h0, hm⟩ := (entry_ne_landing_iff hr).mp hne
  obtain ⟨f, b, hat, -, -⟩ := mem_heads_iff.mp hr
  obtain ⟨f', -, hat'⟩ := hat.insertOp r name
  have hmarked := p.marked_insertOp_shift r r marker name
  have hnext : (p.insertOp r name).At ⟨r.function, r.block, r.index + 1⟩ f' _ := hat'
  rw [r.shift_self, hnext.marked, hm] at hmarked
  rw [Position.entry, if_pos h0, landing, if_pos hm, hat'.onward_of_marked hmarked, r.shift_self]

end Program

end Waymark
