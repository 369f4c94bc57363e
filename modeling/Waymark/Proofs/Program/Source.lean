import Waymark.Program.Source
import Waymark.Proofs.Program.Grammar
import Waymark.Proofs.Program.WellFormed

/-!
# What a source denotes

Every program that a source denotes is well formed (`Program.parse_eq_ok_iff`) and can be spelled
(`Program.spellable_of_parse`), so each of its switches has a target (`Program.switch_nil_notMem_of_parse`).
-/

namespace Waymark

namespace Program

variable {source : String} {p : Program}

/-- A program is verified exactly if it is well formed. -/
theorem verify_eq_ok_iff : p.verify = .ok () ↔ p.WellFormed := by
  rw [← fault?_eq_none_iff, verify]
  cases p.fault? <;> simp

/-- A source denotes what the grammar reads in it, if that has no fault. -/
theorem parse_eq_ok_iff : parse source = .ok p ↔ read source.toList = .ok p ∧ p.WellFormed := by
  rw [← fault?_eq_none_iff]
  unfold parse
  cases hr : read source.toList with
  | error e =>
    have herror : (Except.error e : Except _ Program).mapError .grammar = .error (SourceError.grammar e) := rfl
    simp [herror, bind, Except.bind]
  | ok q =>
    have hok : (Except.ok q : Except _ Program).mapError .grammar = (.ok q : Except SourceError Program) := rfl
    simp only [hok, bind, Except.bind, verify, Except.ok.injEq]
    cases hq : q.fault? with
    | some e =>
      simp only [reduceCtorEq, false_iff, not_and]
      rintro rfl
      simp [hq]
    | none =>
      constructor
      · rintro h
        cases h
        exact ⟨rfl, hq⟩
      · rintro ⟨rfl, -⟩
        rfl

theorem spellable_of_parse (h : parse source = .ok p) : p.Spellable :=
  (read_eq_ok_iff_lexes.mp (parse_eq_ok_iff.mp h).1).1

theorem switch_nil_notMem_of_parse (h : parse source = .ok p) :
    ∀ f ∈ p.functions, ∀ b ∈ f.blocks, .switch [] ∉ b.body := by
  intro f hf b hb hswitch
  have hb : b.Spellable := (spellable_of_parse h f hf).2 b hb
  exact (hb.2 _ hswitch).2 rfl

end Program

end Waymark
