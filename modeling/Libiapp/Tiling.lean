import Mathlib.Order.CompletePartialOrder
import Mathlib.Order.Interval.Set.Disjoint

/-! Tilings of an interval. Pieces that are taken off one after the other at a moving
end cover what lies behind that end, each point once. -/
namespace Libiapp.Tiling

structure Tiles {ι α : Type} [LinearOrder α] (bytes : ι → Set α) (a b : α) : Prop where
  union : ⋃ i, bytes i = Set.Ico a b
  apart : Pairwise fun i j => Disjoint (bytes i) (bytes j)

variable {ι α : Type} [LinearOrder α] {bytes : ι → Set α} {a b c : α}

theorem tilesNone (a : α) : Tiles (fun _ : ι => (∅ : Set α)) a a :=
  ⟨by simp,fun _ _ _ => Set.disjoint_empty _⟩

theorem tilesWithin (tiles : Tiles bytes a b) (i : ι) : bytes i ⊆ Set.Ico a b := by
  rw [← tiles.union]
  exact Set.subset_iUnion bytes i

theorem tilesExtend [DecidableEq ι] {i : ι} (tiles : Tiles bytes a b) (unused : bytes i = ∅) (low : a ≤ b)
    (high : b ≤ c) : Tiles (Function.update bytes i (Set.Ico b c)) a c := by
  have behind : ∀ j, Disjoint (bytes j) (Set.Ico b c) := fun j =>
    (Set.Ico_disjoint_Ico_same (a := a)).mono_left (tilesWithin tiles j)
  constructor
  · rw [← Set.Ico_union_Ico_eq_Ico low high,← tiles.union]
    ext x
    simp only [Set.mem_iUnion,Set.mem_union]
    constructor
    · rintro ⟨j,mem⟩
      by_cases same : j = i
      · subst j
        exact Or.inr (by simpa using mem)
      · exact Or.inl ⟨j,by simpa [same] using mem⟩
    · rintro (⟨j,mem⟩ | mem)
      · have other : j ≠ i := by
          rintro rfl
          simp [unused] at mem
        exact ⟨j,by simpa [other] using mem⟩
      · exact ⟨i,by simpa using mem⟩
  · intro j k different
    by_cases first : j = i
    · subst j
      simpa [Ne.symm different] using (behind k).symm
    · by_cases second : k = i
      · subst k
        simpa [first] using behind j
      · simpa [first,second] using tiles.apart different

end Libiapp.Tiling
