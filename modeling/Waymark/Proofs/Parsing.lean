import Mathlib.Data.List.Basic
import Waymark.Parsing

/-!
# What parsers read

A parser reads a value at a place and stops at another (`Parser.Reads`), or fails (`Parser.Fails`). One equivalence for
each operator says when, so that what a grammar reads can be told without looking at how failures are gathered. The
bound of a repetition does not show: a parser that consumes something each time is repeated until it fails
(`Parser.reads_many`).
-/

namespace Waymark.Parser

variable {α β : Type} {p q : Parser α} {f : α → Parser β} {c c' c'' : Cursor} {a : α} {as : List α}

/-- `p` reads `a` at `c` and stops at `c'`. -/
def Reads (p : Parser α) (c : Cursor) (a : α) (c' : Cursor) : Prop := (p c).result = some (a, c')

/-- `p` reads nothing at `c`. -/
def Fails (p : Parser α) (c : Cursor) : Prop := (p c).result = none

theorem fails_iff : p.Fails c ↔ ∀ a c', ¬p.Reads c a c' := by
  unfold Fails Reads
  rw [Option.eq_none_iff_forall_ne_some, Prod.forall]

/-! ## Single parsers -/

theorem reads_literal {text : String} {u : Unit} :
    (literal text).Reads c u c' ↔ ∃ rest, c.rest = text.toList ++ rest ∧ c' = c.advance text.length rest := by
  unfold Reads literal
  simp only [eq_comm (a := c.rest), ← List.isPrefixOf?_eq_some_iff_append_eq]
  cases text.toList.isPrefixOf? c.rest with
  | none => simp
  | some rest => simp [eq_comm]

theorem reads_next {P : Char → Bool} {d : Char} :
    (next P).Reads c d c' ↔ ∃ rest, c.rest = d :: rest ∧ P d = true ∧ c' = c.advance 1 rest := by
  unfold Reads next
  cases c.rest with
  | nil => simp
  | cons e rest =>
    simp only [List.cons.injEq]
    constructor
    · intro h
      split at h
      next hP =>
        cases h
        exact ⟨rest, ⟨rfl, rfl⟩, hP, rfl⟩
      next => cases h
    · rintro ⟨rest, ⟨rfl, rfl⟩, hP, rfl⟩
      simp [hP]

theorem reads_span {P : Char → Bool} {run : List Char} :
    (span P).Reads c run c' ↔ run = c.rest.takeWhile P ∧ c' = c.advance run.length (c.rest.dropWhile P) := by
  unfold Reads span
  simp only [Option.some.injEq, Prod.mk.injEq]
  constructor
  · rintro ⟨rfl, rfl⟩
    exact ⟨rfl, rfl⟩
  · rintro ⟨rfl, rfl⟩
    exact ⟨rfl, rfl⟩

theorem reads_endOfInput {u : Unit} : endOfInput.Reads c u c' ↔ c.rest = [] ∧ c' = c := by
  unfold Reads endOfInput
  cases c.rest with
  | nil => simp [eq_comm]
  | cons d rest => simp

/-! ## Operators -/

theorem reads_pure {b : α} : (pure b : Parser α).Reads c a c' ↔ a = b ∧ c' = c := by
  show some (b, c) = some (a, c') ↔ _
  simp [eq_comm]

/-- One parser reads on where the other one stops. -/
theorem reads_bind {b : β} : (p >>= f).Reads c b c'' ↔ ∃ a c', p.Reads c a c' ∧ (f a).Reads c' b c'' := by
  show (andThen p f c).result = _ ↔ _
  unfold Reads andThen
  split
  next e h => simp [h]
  next a c' e h =>
    simp only [h, Option.some.injEq, Prod.mk.injEq]
    constructor
    · intro hf
      exact ⟨a, c', ⟨rfl, rfl⟩, hf⟩
    · rintro ⟨a, c', ⟨rfl, rfl⟩, hf⟩
      exact hf

/-- The second parser reads only where the first one fails. -/
theorem reads_orElse : (p <|> q).Reads c a c' ↔ p.Reads c a c' ∨ p.Fails c ∧ q.Reads c a c' := by
  show (Parser.orElse p q c).result = _ ↔ _
  unfold Reads Fails Parser.orElse
  split
  next e h => simp [h]
  next h =>
    have hsome : (p c).result ≠ none := fun hnone => h (p c).failures (by rw [← hnone])
    simp [hsome]

theorem reads_absent {u : Unit} : p.absent.Reads c u c' ↔ p.Fails c ∧ c' = c := by
  unfold Reads Fails absent
  cases (p c).result with
  | none => simp [eq_comm]
  | some r => simp

/-! ## Repetition -/

/-- `p` reads one value after the other from `c` on, and fails at `c'`. -/
inductive Repeats (p : Parser α) : Cursor → List α → Cursor → Prop where
  | stop {c : Cursor} (h : p.Fails c) : Repeats p c [] c
  | more {c c' c'' : Cursor} {a : α} {as : List α} (h : p.Reads c a c') (hs : Repeats p c' as c'') :
      Repeats p c (a :: as) c''

/-- Whatever `p` reads takes up some of the text. -/
def Consumes (p : Parser α) : Prop := ∀ c a c', p.Reads c a c' → c'.rest.length < c.rest.length

/-- More repetitions are allowed than there are characters left, so the bound is never met. -/
theorem reads_manyUpTo (hp : p.Consumes) {bound : Nat} (hb : c.rest.length < bound) :
    (p.manyUpTo bound).Reads c as c' ↔ p.Repeats c as c' := by
  induction bound generalizing c as with
  | zero => omega
  | succ bound ih =>
    show (manyUpTo p (bound + 1) c).result = _ ↔ _
    unfold manyUpTo
    split
    next e h =>
      have hfails : p.Fails c := by rw [Fails, h]
      simp only [Option.some.injEq, Prod.mk.injEq]
      constructor
      · rintro ⟨rfl, rfl⟩
        exact .stop hfails
      · intro hr
        cases hr with
        | stop => exact ⟨rfl, rfl⟩
        | more hread => exact absurd hread (fails_iff.mp hfails _ _)
    next a d e h =>
      have hread : p.Reads c a d := by rw [Reads, h]
      have hlt : d.rest.length < bound := by
        have := hp c a d hread
        omega
      simp only [Option.map_eq_some_iff, Prod.mk.injEq]
      constructor
      · rintro ⟨⟨bs, d'⟩, hrest, rfl, rfl⟩
        exact .more hread ((ih hlt).mp hrest)
      · intro hr
        cases hr with
        | stop hfails => exact absurd hread (fails_iff.mp hfails _ _)
        | more hread' hs =>
          cases hread.symm.trans hread'
          exact ⟨_, (ih hlt).mpr hs, rfl, rfl⟩

theorem reads_many (hp : p.Consumes) : p.many.Reads c as c' ↔ p.Repeats c as c' :=
  reads_manyUpTo hp (Nat.lt_succ_self _)

/-- One value, and then others, each behind a separator. -/
theorem reads_separated {separator : Parser Unit} (hp : (separator >>= fun _ => p).Consumes) :
    (p.separated separator).Reads c as c'' ↔
      ∃ a bs c', as = a :: bs ∧ p.Reads c a c' ∧ (separator >>= fun _ => p).Repeats c' bs c'' := by
  show (p >>= fun a => (separator >>= fun _ => p).many >>= fun bs => pure (a :: bs)).Reads c as c'' ↔ _
  simp only [reads_bind, reads_pure, reads_many hp]
  constructor
  · rintro ⟨a, c', ha, bs, _, hbs, rfl, rfl⟩
    exact ⟨a, bs, c', rfl, ha, hbs⟩
  · rintro ⟨a, bs, c', rfl, ha, hbs⟩
    exact ⟨a, c', ha, bs, c'', hbs, rfl, rfl⟩

end Waymark.Parser
