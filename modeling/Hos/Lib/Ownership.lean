import Mathlib.Data.List.Nodup
import Mathlib.Data.Set.Basic

/-!
# Resources that hold units of a pool

A pool is the set of its units in use. A family of resources owns what it took when
each of them holds a unit that was not in use before, no two hold the same one, and
nothing else was taken. Two families that took one after the other own together what
they took. Giving back the units of all resources restores the pool, and no unit is
given back twice.
-/

namespace Hos

variable {ρ γ : Type} {before middle after : Set γ} {unit unit' : ρ → Option γ} {R T : Set ρ}

/-- The resources in `R` hold exactly the units taken between `before` and `after`. -/
structure Owned (before after : Set γ) (unit : ρ → Option γ) (R : Set ρ) : Prop where
  fresh : ∀ r ∈ R, ∃ g, unit r = some g ∧ g ∉ before
  injective : ∀ r ∈ R, ∀ r' ∈ R, unit r = unit r' → r = r'
  mem_after : ∀ g, g ∈ after ↔ g ∈ before ∨ ∃ r ∈ R, unit r = some g

namespace Owned

theorem empty (before : Set γ) (unit : ρ → Option γ) : Owned before before unit ∅ where
  fresh _ hr := absurd hr (Set.notMem_empty _)
  injective _ hr := absurd hr (Set.notMem_empty _)
  mem_after _ := ⟨.inl, fun h => h.elim id fun ⟨_, hr, _⟩ => absurd hr (Set.notMem_empty _)⟩

theorem congr (h : Owned before after unit R) (hunit : ∀ r ∈ R, unit' r = unit r) :
    Owned before after unit' R where
  fresh r hr := by
    rw [hunit r hr]
    exact h.fresh r hr
  injective r hr r' hr' := by
    rw [hunit r hr, hunit r' hr']
    exact h.injective r hr r' hr'
  mem_after g := by
    rw [h.mem_after g]
    refine or_congr_right (exists_congr fun r => and_congr_right fun hr => ?_)
    rw [hunit r hr]

/-- What was taken first and what was taken then. -/
theorem union (h : Owned before middle unit R) (h' : Owned middle after unit T) :
    Owned before after unit (R ∪ T) where
  fresh := by
    rintro r (hr | hr)
    · exact h.fresh r hr
    · obtain ⟨g, hg, hfree⟩ := h'.fresh r hr
      exact ⟨g, hg, fun hmem => hfree ((h.mem_after g).mpr (.inl hmem))⟩
  injective := by
    -- a unit of the first family is in use when the second one takes its own
    have hcross : ∀ r ∈ R, ∀ r' ∈ T, unit r ≠ unit r' := by
      intro r hr r' hr' heq
      obtain ⟨g, hg, hfree⟩ := h'.fresh r' hr'
      exact hfree ((h.mem_after g).mpr (.inr ⟨r, hr, heq.trans hg⟩))
    rintro r (hr | hr) r' (hr' | hr') heq
    · exact h.injective r hr r' hr' heq
    · exact absurd heq (hcross r hr r' hr')
    · exact absurd heq.symm (hcross r' hr' r hr)
    · exact h'.injective r hr r' hr' heq
  mem_after g := by
    rw [h'.mem_after g, h.mem_after g, or_assoc]
    refine or_congr_right ?_
    constructor
    · rintro (⟨r, hr, hg⟩ | ⟨r, hr, hg⟩)
      · exact ⟨r, .inl hr, hg⟩
      · exact ⟨r, .inr hr, hg⟩
    · rintro ⟨r, hr | hr, hg⟩
      · exact .inl ⟨r, hr, hg⟩
      · exact .inr ⟨r, hr, hg⟩

/-- Giving back the units of all resources, each of them once. -/
theorem release {rs : List ρ} (h : Owned before after unit {r | r ∈ rs}) (hnodup : rs.Nodup) :
    (rs.filterMap unit).Nodup ∧ (∀ g ∈ rs.filterMap unit, g ∈ after ∧ g ∉ before) ∧
      ∀ g, g ∈ before ↔ g ∈ after ∧ g ∉ rs.filterMap unit := by
  have hmem : ∀ g, g ∈ rs.filterMap unit ↔ ∃ r ∈ rs, unit r = some g := fun g => List.mem_filterMap
  have hnew : ∀ g ∈ rs.filterMap unit, g ∈ after ∧ g ∉ before := by
    intro g hg
    obtain ⟨r, hr, hunit⟩ := (hmem g).mp hg
    obtain ⟨g', hg', hfree⟩ := h.fresh r hr
    cases hunit.symm.trans hg'
    exact ⟨(h.mem_after g).mpr (.inr ⟨r, hr, hunit⟩), hfree⟩
  refine ⟨?_, hnew, fun g => ⟨fun hg => ?_, fun hg => ?_⟩⟩
  · refine List.pairwise_filterMap.mpr (hnodup.imp_of_mem fun {r r'} hr hr' hne g hg g' hg' heq =>
      hne ?_)
    subst heq
    exact h.injective r hr r' hr' (hg.trans hg'.symm)
  · exact ⟨(h.mem_after g).mpr (.inl hg), fun hmem' => (hnew g hmem').2 hg⟩
  · refine ((h.mem_after g).mp hg.1).resolve_right fun hunit => hg.2 ?_
    exact (hmem g).mpr hunit

end Owned

end Hos
