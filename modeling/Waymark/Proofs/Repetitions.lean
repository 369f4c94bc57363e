import Mathlib.Data.List.Induction

/-!
# Lists without repetitions

`List.eraseDups` keeps the first of equal members. What it makes of a list is told by adding one member at the end
(`eraseDups_concat`): it is kept if it is new. So it makes no difference whether repetitions are left out before or
after lists are mapped and put together.
-/

namespace Waymark

variable {α β : Type} [BEq α] [LawfulBEq α] [BEq β] [LawfulBEq β]

theorem eraseDups_concat (l : List α) (a : α) :
    (l ++ [a]).eraseDups = if a ∈ l then l.eraseDups else l.eraseDups ++ [a] := by
  have hrest : [a].removeAll l = [a].filter fun b => !l.elem b := rfl
  rw [List.eraseDups_append, hrest]
  by_cases h : a ∈ l
  · simp [h]
  · simp [h, List.eraseDups_cons]

theorem eraseDups_map_eraseDups (h : α → β) (l : List α) : (l.eraseDups.map h).eraseDups = (l.map h).eraseDups := by
  induction l using List.reverseRecOn with
  | nil => rfl
  | append_singleton l a ih =>
    rw [eraseDups_concat, List.map_append, List.map_singleton, eraseDups_concat, ← ih]
    by_cases ha : a ∈ l
    · rw [if_pos ha, if_pos (List.mem_map_of_mem ha)]
    · have hmem : h a ∈ l.eraseDups.map h ↔ h a ∈ l.map h := by simp
      rw [if_neg ha, List.map_append, List.map_singleton, eraseDups_concat]
      simp only [hmem]

theorem eraseDups_map_congr (h : α → β) {l m : List α} (hlm : l.eraseDups = m.eraseDups) :
    (l.map h).eraseDups = (m.map h).eraseDups := by
  rw [← eraseDups_map_eraseDups, hlm, eraseDups_map_eraseDups]

theorem eraseDups_eraseDups (l : List α) : l.eraseDups.eraseDups = l.eraseDups := by
  simpa using eraseDups_map_eraseDups id l

theorem eraseDups_append_eraseDups (l m : List α) : (l.eraseDups ++ m.eraseDups).eraseDups = (l ++ m).eraseDups := by
  induction m using List.reverseRecOn with
  | nil => simpa using eraseDups_eraseDups l
  | append_singleton m a ih =>
    rw [eraseDups_concat, ← List.append_assoc, eraseDups_concat, ← ih]
    by_cases ha : a ∈ m
    · rw [if_pos ha, if_pos (List.mem_append_right l ha)]
    · have hmem : a ∈ l.eraseDups ++ m.eraseDups ↔ a ∈ l ++ m := by simp
      rw [if_neg ha, ← List.append_assoc, eraseDups_concat]
      simp only [hmem]

/-- Lists put together from parts that differ in repetitions alone. -/
theorem eraseDups_flatMap_congr {ι : Type} {l : List ι} {f g : ι → List α}
    (h : ∀ i ∈ l, (f i).eraseDups = (g i).eraseDups) : (l.flatMap f).eraseDups = (l.flatMap g).eraseDups := by
  induction l with
  | nil => rfl
  | cons i l ih =>
    rw [List.forall_mem_cons] at h
    rw [List.flatMap_cons, List.flatMap_cons, ← eraseDups_append_eraseDups, ← eraseDups_append_eraseDups (g i), h.1,
      ih h.2]

end Waymark
