import Mathlib

/-! Lists of half-open ranges, each in front of the next. -/
namespace RangeList

variable {α β : Type} [LinearOrder β] (lo hi : α → β)

/-- Every range ends before the ranges behind it in the list start. -/
def Separated (l : List α) : Prop := l.Pairwise fun a b => hi a ≤ lo b

/-- The range from `s` to `e` shares a point with that of `a`. -/
def Overlaps (s e : β) (a : α) : Prop := s < hi a ∧ lo a < e

variable {lo hi} {l l₁ l₂ : List α} {a x : α}

theorem disjoint_iff (ha : lo a < hi a) (hx : lo x < hi x) :
    Disjoint (Set.Ico (lo a) (hi a)) (Set.Ico (lo x) (hi x)) ↔ hi a ≤ lo x ∨ hi x ≤ lo a := by
  rw [Set.Ico_disjoint_Ico]
  constructor
  · intro h
    by_contra hno
    obtain ⟨h1,h2⟩ := not_or.mp hno
    have hlt : max (lo a) (lo x) < min (hi a) (hi x) :=
      max_lt (lt_min ha (not_le.mp h2)) (lt_min (not_le.mp h1) hx)
    exact absurd h (not_le.mpr hlt)
  · rintro (h | h)
    · exact (min_le_left _ _).trans (h.trans (le_max_right _ _))
    · exact (min_le_right _ _).trans (h.trans (le_max_left _ _))

/-- Separated lists are those sorted by start whose ranges are pairwise disjoint. -/
theorem separated_iff (hne : ∀ a ∈ l, lo a < hi a) : Separated lo hi l ↔
    (l.Pairwise fun a b => lo a ≤ lo b) ∧
      l.Pairwise fun a b => Disjoint (Set.Ico (lo a) (hi a)) (Set.Ico (lo b) (hi b)) := by
  constructor
  · intro h
    refine ⟨h.imp_of_mem ?_,h.imp_of_mem ?_⟩
    · intro a b ha _ hab
      exact (hne a ha).le.trans hab
    · intro a b ha hb hab
      exact (disjoint_iff (hne a ha) (hne b hb)).mpr (Or.inl hab)
  · rintro ⟨hsort,hdis⟩
    refine (hsort.and hdis).imp_of_mem ?_
    rintro a b ha hb ⟨hle,hd⟩
    rcases (disjoint_iff (hne a ha) (hne b hb)).mp hd with h | h
    · exact h
    · exact absurd (h.trans hle) (not_le.mpr (hne b hb))

theorem Separated.insert (h : Separated lo hi (l₁++l₂)) (hbefore : ∀ a ∈ l₁, hi a ≤ lo x)
    (hbehind : ∀ a ∈ l₂, hi x ≤ lo a) : Separated lo hi (l₁++x::l₂) := by
  obtain ⟨h₁,h₂,h₁₂⟩ := List.pairwise_append.mp h
  refine List.pairwise_append.mpr ⟨h₁,List.pairwise_cons.mpr ⟨hbehind,h₂⟩,?_⟩
  intro a ha b hb
  rcases List.mem_cons.mp hb with rfl | hb
  · exact hbefore a ha
  · exact h₁₂ a ha b hb

theorem Separated.sublist (h : Separated lo hi l₂) (hsub : l₁.Sublist l₂) : Separated lo hi l₁ :=
  List.Pairwise.sublist hsub h

end RangeList
