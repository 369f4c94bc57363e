import Mathlib.Logic.Relation
import Mathlib.Order.WellFounded
import Waymark.Graph.Walk

/-!
# Walks along a relation

Walks in a graph and runs of a program are both walks along a relation that a goal cuts short, and three questions are
asked about them: whether one comes to the goal, whether one goes on for ever (`Endless`), and whether one gets stuck
before the goal (`Stuck`). Where no walk is endless, one of them comes to the goal or gets stuck
(`stuck_of_not_endless`).

A relation may be a coarser picture of another one (`Collapse`): every fine step is a coarse step or stays at the same
place and uses up a rank, and every coarse step is made of fine ones. Then all three questions have the same answers
(`Collapse.reach_iff`, `Collapse.endless_iff`, `Collapse.stuck_iff`).

Walks in a graph are its paths as far as the final vertex (`Graph.reach_iff_exists_path`), and they come to the final
vertex and to dead ends where paths do (`Graph.reach_final_iff_exists_path`, `Graph.strands_iff_exists_path`).
-/

namespace Waymark

open Relation

section Walks

variable {α : Type} {r : α → α → Prop} {a b goal : α}

/-- Some walk from `a` goes on for ever. -/
def Endless (r : α → α → Prop) (a : α) : Prop :=
  ∃ walk : Nat → α, walk 0 = a ∧ ∀ n, r (walk n) (walk (n + 1))

/-- Some walk from `a` cannot go on, and has not come to `goal`. -/
def Stuck (r : α → α → Prop) (goal a : α) : Prop :=
  ∃ b, ReflTransGen r a b ∧ b ≠ goal ∧ ∀ c, ¬r b c

theorem not_endless_iff : ¬Endless r a ↔ Acc (Function.swap r) a := by
  unfold Endless
  rw [← not_acc_iff_exists_descending_chain (r := Function.swap r), not_not]

theorem Stuck.head (h : r a b) (hb : Stuck r goal b) : Stuck r goal a := by
  obtain ⟨c, hc, hne, hstop⟩ := hb
  exact ⟨c, .head h hc, hne, hstop⟩

theorem acc_of_reach (h : ReflTransGen r a b) (ha : Acc (Function.swap r) a) : Acc (Function.swap r) b := by
  induction h with
  | refl => exact ha
  | tail _ hbc ih => exact ih.inv hbc

/-- A walk into one that goes on for ever goes on for ever. -/
theorem Endless.of_reach (h : ReflTransGen r a b) (hb : Endless r b) : Endless r a := by
  by_contra hn
  exact not_endless_iff.mpr (acc_of_reach h (not_endless_iff.mp hn)) hb

/-- A walk back to its start can be repeated for ever. -/
theorem endless_of_transGen_self (h : TransGen r a a) : Endless r a := by
  by_contra hn
  have hacc := not_endless_iff.mp hn
  induction hacc with
  | intro a _ ih =>
    obtain ⟨b, hab, hba⟩ := TransGen.head'_iff.mp h
    exact ih b hab (TransGen.tail' hba hab) (fun hb => hn (Endless.of_reach (.single hab) hb))

/-- Where no walk goes on for ever, one comes to the goal or gets stuck. -/
theorem stuck_of_not_endless (h : ¬Endless r a) (hg : ¬ReflTransGen r a goal) : Stuck r goal a := by
  have hacc := not_endless_iff.mp h
  clear h
  induction hacc with
  | intro a _ ih =>
    by_cases hstop : ∃ b, r a b
    · obtain ⟨b, hab⟩ := hstop
      exact Stuck.head hab (ih b hab fun hb => hg (.head hab hb))
    · refine ⟨a, .refl, ?_, fun c hc => hstop ⟨c, hc⟩⟩
      rintro rfl
      exact hg .refl

end Walks

/-! ## Coarser pictures -/

/-- `s` is a coarser picture of `r` on the places that are `ok`, where `f` says what becomes of each place. -/
structure Collapse {α β : Type} (r : α → α → Prop) (s : β → β → Prop) (ok : α → Prop) (f : α → β) (rank : α → Nat) :
    Prop where
  ok_step : ∀ {a b}, ok a → r a b → ok b
  /-- A fine step is a coarse one, or stays and uses up some of the rank. -/
  step : ∀ {a b}, ok a → r a b → f b = f a ∧ rank b < rank a ∨ s (f a) (f b)
  /-- A coarse step is made of fine ones. -/
  lift : ∀ {a y}, ok a → s (f a) y → ∃ b, TransGen r a b ∧ f b = y

namespace Collapse

variable {α β : Type} {r : α → α → Prop} {s : β → β → Prop} {ok : α → Prop} {f : α → β} {rank : α → Nat} {a b : α}
  {y : β}

theorem ok_reach (h : Collapse r s ok f rank) (ha : ok a) (hab : ReflTransGen r a b) : ok b := by
  induction hab with
  | refl => exact ha
  | tail _ hbc ih => exact h.ok_step ih hbc

theorem reach_map (h : Collapse r s ok f rank) (ha : ok a) (hab : ReflTransGen r a b) :
    ReflTransGen s (f a) (f b) := by
  induction hab with
  | refl => exact .refl
  | tail hab hbc ih =>
    rcases h.step (h.ok_reach ha hab) hbc with ⟨heq, _⟩ | hs
    · rw [heq]; exact ih
    · exact .tail ih hs

theorem reach_lift (h : Collapse r s ok f rank) (ha : ok a) (hy : ReflTransGen s (f a) y) :
    ∃ b, ReflTransGen r a b ∧ f b = y := by
  induction hy with
  | refl => exact ⟨a, .refl, rfl⟩
  | tail _ hyz ih =>
    obtain ⟨b, hab, rfl⟩ := ih
    obtain ⟨c, hbc, rfl⟩ := h.lift (h.ok_reach ha hab) hyz
    exact ⟨c, hab.trans hbc.to_reflTransGen, rfl⟩

/-- A walk is one of the coarse picture too, or stays and uses up some of the rank. -/
theorem transGen_map (h : Collapse r s ok f rank) (ha : ok a) (hab : TransGen r a b) :
    f b = f a ∧ rank b < rank a ∨ TransGen s (f a) (f b) := by
  induction hab with
  | single hab => exact (h.step ha hab).imp_right .single
  | tail hab hbc ih =>
    rcases ih with ⟨heq, hlt⟩ | hs <;> rcases h.step (h.ok_reach ha hab.to_reflTransGen) hbc with ⟨heq', hlt'⟩ | hs'
    · exact .inl ⟨heq'.trans heq, hlt'.trans hlt⟩
    · exact .inr (heq ▸ .single hs')
    · exact .inr (heq' ▸ hs)
    · exact .inr (hs.tail hs')

/-- A walk back to its start cannot only stay. -/
theorem transGen_self (h : Collapse r s ok f rank) (ha : ok a) (haa : TransGen r a a) : TransGen s (f a) (f a) :=
  (h.transGen_map ha haa).resolve_left fun hstay => Nat.lt_irrefl _ hstay.2

/-- Both pictures have endless walks from a place, or neither has. -/
theorem endless_iff (h : Collapse r s ok f rank) (ha : ok a) : Endless r a ↔ Endless s (f a) := by
  rw [← not_iff_not, not_endless_iff, not_endless_iff]
  constructor
  · intro hacc
    replace hacc := acc_transGen_iff.mpr hacc
    induction hacc with
    | intro a _ ih =>
      refine ⟨_, fun y hy => ?_⟩
      obtain ⟨b, hab, rfl⟩ := h.lift ha hy
      exact ih b (transGen_swap.mpr hab) (h.ok_reach ha hab.to_reflTransGen)
  · -- the coarse walk first, then the rank at each of its places
    intro hacc
    generalize hy : f a = y at hacc
    induction hacc generalizing a with
    | intro y _ ih =>
      induction hn : rank a using Nat.strongRecOn generalizing a with
      | _ n ihn =>
        refine ⟨_, fun b hab => ?_⟩
        rcases h.step ha hab with ⟨heq, hlt⟩ | hs
        · exact ihn (rank b) (hn ▸ hlt) (h.ok_step ha hab) (heq.trans hy) rfl
        · exact ih (f b) (by rw [← hy]; exact hs) (h.ok_step ha hab) rfl

/-- A place where the coarse picture cannot go on leads to one where the fine picture cannot. -/
theorem exists_stop (h : Collapse r s ok f rank) (ha : ok a) (hstop : ∀ y, ¬s (f a) y) :
    ∃ b, ReflTransGen r a b ∧ f b = f a ∧ ∀ c, ¬r b c := by
  induction hn : rank a using Nat.strongRecOn generalizing a with
  | _ n ih =>
    by_cases hr : ∃ b, r a b
    · obtain ⟨b, hab⟩ := hr
      rcases h.step ha hab with ⟨heq, hlt⟩ | hs
      · obtain ⟨c, hbc, hfc, hc⟩ := ih (rank b) (hn ▸ hlt) (h.ok_step ha hab) (by rw [heq]; exact hstop) rfl
        exact ⟨c, .head hab hbc, hfc.trans heq, hc⟩
      · exact absurd hs (hstop _)
    · exact ⟨a, .refl, rfl, fun c hc => hr ⟨c, hc⟩⟩

section Goals

variable {goal : α} (h : Collapse r s ok f rank) (hgoal : ∀ {a}, ok a → f a = f goal → ReflTransGen r a goal)

include h hgoal

/-- Both pictures lead to the goal, or neither does. -/
theorem reach_iff (ha : ok a) : ReflTransGen r a goal ↔ ReflTransGen s (f a) (f goal) := by
  constructor
  · exact h.reach_map ha
  · intro hs
    obtain ⟨b, hab, hb⟩ := h.reach_lift ha hs
    exact hab.trans (hgoal (h.ok_reach ha hab) hb)

/-- Both pictures may get stuck before the goal, or neither may. -/
theorem stuck_iff (ha : ok a) : Stuck r goal a ↔ Stuck s (f goal) (f a) := by
  constructor
  · rintro ⟨b, hab, hne, hstop⟩
    have hb := h.ok_reach ha hab
    refine ⟨f b, h.reach_map ha hab, fun heq => hne ?_, fun y hy => ?_⟩
    · exact ((reflTransGen_iff_eq hstop).mp (hgoal hb heq)).symm
    · obtain ⟨c, hbc, _⟩ := h.lift hb hy
      obtain ⟨d, hbd, _⟩ := TransGen.head'_iff.mp hbc
      exact hstop d hbd
  · rintro ⟨y, hy, hne, hstop⟩
    obtain ⟨b, hab, rfl⟩ := h.reach_lift ha hy
    obtain ⟨c, hbc, hfc, hc⟩ := h.exists_stop (h.ok_reach ha hab) hstop
    refine ⟨c, hab.trans hbc, ?_, hc⟩
    rintro rfl
    exact hne hfc.symm

end Goals

end Collapse

/-! ## Walks in a graph -/

namespace Graph

variable {g : Graph} {final v w : Vertex} {path : List Vertex}

theorem isSink_iff : g.isSink v = true ↔ ∀ w, w ∉ g.successors v := by
  simp [isSink, List.eq_nil_iff_forall_not_mem]

/-- A dead end is a vertex other than the final one where no walk goes on. -/
theorem isSink_iff_of_ne (h : v ≠ final) : g.isSink v = true ↔ ∀ w, ¬g.Arc final v w := by
  rw [isSink_iff]
  exact forall_congr' fun w => ⟨fun hw ha => hw ha.2, fun hw hm => hw ⟨h, hm⟩⟩

theorem strands_iff : g.Strands final v ↔ Stuck (g.Arc final) final v := by
  constructor
  · rintro ⟨w, hw, hne, hsink⟩
    exact ⟨w, hw, hne, (isSink_iff_of_ne hne).mp hsink⟩
  · rintro ⟨w, hw, hne, hstop⟩
    exact ⟨w, hw, hne, (isSink_iff_of_ne hne).mpr hstop⟩

/-- No edge leaves the final vertex. -/
theorem not_arc_final : ¬g.Arc final final w := fun h => h.1 rfl

theorem reach_final_iff : g.Reach final final w ↔ w = final :=
  reflTransGen_iff_eq fun _ => not_arc_final

theorem not_strands_final : ¬g.Strands final final := by
  rintro ⟨w, hw, hne, _⟩
  exact hne (reach_final_iff.mp hw)

theorem Strands.head (h : g.Arc final v w) (hw : g.Strands final w) : g.Strands final v := by
  rw [strands_iff] at hw ⊢
  exact hw.head h

theorem Loops.head (h : g.Arc final v w) (hw : g.Loops final w) : g.Loops final v := by
  obtain ⟨u, hu, hl⟩ := hw
  exact ⟨u, .head h hu, hl⟩

/-- A walk into a loop goes on for ever. -/
theorem Loops.endless (h : g.Loops final v) : Endless (g.Arc final) v := by
  obtain ⟨w, hw, hl⟩ := h
  exact Endless.of_reach hw (endless_of_transGen_self hl)

/-- Every walk from a vertex of the graph stays in the graph. -/
theorem lt_size_of_reach (hv : v < g.size) (h : g.Reach final v w) : w < g.size := by
  cases h with
  | refl => exact hv
  | tail _ ha => exact g.lt_size_of_mem_successors ha.2

/-! ## Paths -/

theorem IsPath.ne_nil (h : g.IsPath v w path) : path ≠ [] := by
  cases h <;> exact List.cons_ne_nil _ _

/-- A path ends with its last vertex. -/
theorem IsPath.eq_dropLast_append (h : g.IsPath v w path) : path = path.dropLast ++ [w] := by
  induction h with
  | single v => rfl
  | cons hv hp ih => rw [List.dropLast_cons_of_ne_nil hp.ne_nil, List.cons_append, ← ih]

/-- A path that has not come to the final vertex before its end is a walk. -/
theorem IsPath.reach (h : g.IsPath v w path) (hnot : final ∉ path.dropLast) : g.Reach final v w := by
  induction h with
  | single v => exact .refl
  | cons hv hp ih =>
    rw [List.dropLast_cons_of_ne_nil hp.ne_nil, List.mem_cons, not_or] at hnot
    exact .head ⟨Ne.symm hnot.1, hv⟩ (ih hnot.2)

/-- A path to the final vertex is a walk up to where it first comes there. -/
theorem IsPath.reach_final (h : g.IsPath v final path) : g.Reach final v final := by
  generalize hw : final = w at h
  induction h with
  | single v => exact hw ▸ .refl
  | @cons u v w path hv hp ih =>
    by_cases hu : u = final
    · rw [hu, hw]; exact .refl
    · rw [← hw]
      exact .head ⟨hu, hv⟩ (hw ▸ ih hw)

/-- Walks are the paths on which the final vertex does not stand before the end. -/
theorem reach_iff_exists_path : g.Reach final v w ↔ ∃ path, g.IsPath v w path ∧ final ∉ path.dropLast := by
  constructor
  · intro h
    induction h using ReflTransGen.head_induction_on with
    | refl => exact ⟨[w], .single w, by simp⟩
    | @head u v ha _ ih =>
      obtain ⟨path, hp, hnot⟩ := ih
      refine ⟨u :: path, .cons ha.2 hp, ?_⟩
      rw [List.dropLast_cons_of_ne_nil hp.ne_nil, List.mem_cons, not_or]
      exact ⟨Ne.symm ha.1, hnot⟩
  · rintro ⟨path, hp, hnot⟩
    exact hp.reach hnot

/-- Walks come to the final vertex wherever paths do. -/
theorem reach_final_iff_exists_path : g.Reach final v final ↔ ∃ path, g.IsPath v final path := by
  constructor
  · intro h
    obtain ⟨path, hp, _⟩ := reach_iff_exists_path.mp h
    exact ⟨path, hp⟩
  · rintro ⟨path, hp⟩
    exact hp.reach_final

/-- Walks run into a dead end where a path that does not pass the final vertex leads to one. -/
theorem strands_iff_exists_path :
    g.Strands final v ↔ ∃ w path, g.IsPath v w path ∧ final ∉ path ∧ g.isSink w = true := by
  unfold Strands
  refine exists_congr fun w => ?_
  rw [reach_iff_exists_path]
  constructor
  · rintro ⟨⟨path, hp, hnot⟩, hne, hsink⟩
    refine ⟨path, hp, ?_, hsink⟩
    rw [hp.eq_dropLast_append]
    simp [hnot, Ne.symm hne]
  · rintro ⟨path, hp, hnot, hsink⟩
    rw [hp.eq_dropLast_append, List.mem_append, List.mem_singleton, not_or] at hnot
    exact ⟨⟨path, hp, hnot.1⟩, Ne.symm hnot.2, hsink⟩

end Graph

end Waymark
