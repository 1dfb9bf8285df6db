import Mathlib

/-! Lists kept in descending order of a measure, newer elements before older ones of the same
measure. `sortDesc` is the list that insertion in order of arrival builds. -/
namespace StableOrder

variable {α : Type} (len : α → ℕ)

/-- Insert behind every element of larger measure and before the others. -/
def insertDesc (x : α) : List α → List α
  | [] => [x]
  | y::ys => if len x < len y then y::insertDesc x ys else x::y::ys

/-- The list built from arrivals given newest first. -/
def sortDesc (l : List α) : List α := l.foldr (insertDesc len) []

@[simp] theorem sortDesc_nil : sortDesc len [] = [] := rfl
@[simp] theorem sortDesc_cons (x : α) (l : List α) :
    sortDesc len (x::l) = insertDesc len x (sortDesc len l) := rfl

@[simp] theorem mem_insertDesc {x y : α} {l : List α} : y ∈ insertDesc len x l ↔ y = x ∨ y ∈ l := by
  induction l with
  | nil => simp [insertDesc]
  | cons z l ih =>
    rw [insertDesc]
    split
    · simp only [List.mem_cons,ih]
      tauto
    · simp

@[simp] theorem mem_sortDesc {y : α} {l : List α} : y ∈ sortDesc len l ↔ y ∈ l := by
  induction l with
  | nil => simp
  | cons x l ih => simp [ih]

theorem insertDesc_ne_nil (x : α) (l : List α) : insertDesc len x l ≠ [] := by
  cases l with
  | nil => simp [insertDesc]
  | cons y l =>
    rw [insertDesc]
    split <;> simp

theorem sortDesc_eq_nil {l : List α} : sortDesc len l = [] ↔ l = [] := by
  cases l with
  | nil => simp
  | cons x l => simp [insertDesc_ne_nil]

def Desc (l : List α) : Prop := l.Pairwise fun x y => len y ≤ len x

theorem Desc.insert {l : List α} (h : Desc len l) (x : α) : Desc len (insertDesc len x l) := by
  induction l with
  | nil => simp [insertDesc,Desc]
  | cons y l ih =>
    obtain ⟨hy,hl⟩ := List.pairwise_cons.mp h
    rw [insertDesc]
    by_cases hlt : len x < len y
    · rw [if_pos hlt]
      apply List.pairwise_cons.mpr
      refine ⟨?_,ih hl⟩
      intro z hz
      rcases (mem_insertDesc len).mp hz with rfl | hz
      · omega
      · exact hy z hz
    · rw [if_neg hlt]
      apply List.pairwise_cons.mpr
      refine ⟨?_,h⟩
      intro z hz
      rcases List.mem_cons.mp hz with rfl | hz
      · omega
      · have := hy z hz
        omega

theorem sortDesc_desc (l : List α) : Desc len (sortDesc len l) := by
  induction l with
  | nil => simp [Desc]
  | cons x l ih => exact ih.insert len x

theorem Desc.split {l : List α} (h : Desc len l) (n : ℕ) :
    ∃ big small, l = big ++ small ∧ (∀ x ∈ big, n < len x) ∧ ∀ x ∈ small, len x ≤ n := by
  induction l with
  | nil => exact ⟨[],[],rfl,by simp,by simp⟩
  | cons x l ih =>
    obtain ⟨hx,hl⟩ := List.pairwise_cons.mp h
    by_cases hlt : n < len x
    · obtain ⟨big,small,he,hb,hs⟩ := ih hl
      refine ⟨x::big,small,by simp [he],?_,hs⟩
      simpa [hlt] using hb
    · refine ⟨[],x::l,rfl,by simp,?_⟩
      intro y hy
      rcases List.mem_cons.mp hy with rfl | hy
      · omega
      · have := hx y hy
        omega

theorem insertDesc_append_left {x : α} {a b : List α} (hb : ∀ y ∈ b, len y ≤ len x) :
    insertDesc len x (a ++ b) = insertDesc len x a ++ b := by
  induction a with
  | nil =>
    cases b with
    | nil => rfl
    | cons y b =>
      have := hb y (by simp)
      simp [insertDesc,not_lt.mpr this]
  | cons y a ih =>
    by_cases hlt : len x < len y <;> simp [insertDesc,hlt,ih]

theorem insertDesc_append_right {x : α} {a b : List α} (ha : ∀ y ∈ a, len x < len y) :
    insertDesc len x (a ++ b) = a ++ insertDesc len x b := by
  induction a with
  | nil => rfl
  | cons y a ih =>
    have hy := ha y (by simp)
    simp [insertDesc,hy,ih (fun z hz => ha z (by simp [hz]))]

theorem sortDesc_split (t : ℕ) (l : List α) :
    sortDesc len l = sortDesc len (l.filter fun x => t < len x) ++
      sortDesc len (l.filter fun x => len x ≤ t) := by
  induction l with
  | nil => rfl
  | cons x l ih =>
    by_cases hlt : t < len x
    · have hle : ¬ len x ≤ t := by omega
      have hb : ∀ y ∈ sortDesc len (l.filter fun x => len x ≤ t), len y ≤ len x := by
        intro y hy
        have := (List.mem_filter.mp ((mem_sortDesc len).mp hy)).2
        simp only [decide_eq_true_eq] at this
        omega
      simp only [sortDesc_cons,List.filter_cons,hlt,hle,decide_true,decide_false,if_true,ih]
      exact insertDesc_append_left len hb
    · have hle : len x ≤ t := by omega
      have ha : ∀ y ∈ sortDesc len (l.filter fun x => t < len x), len x < len y := by
        intro y hy
        have := (List.mem_filter.mp ((mem_sortDesc len).mp hy)).2
        simp only [decide_eq_true_eq] at this
        omega
      simp only [sortDesc_cons,List.filter_cons,hlt,hle,decide_true,decide_false,if_true,ih]
      exact insertDesc_append_right len ha

/-- Sorting respects a relation between elements of the same measure. -/
theorem insertDesc_rel {β : Type} {len' : β → ℕ} {rel : α → β → Prop}
    (hlen : ∀ x y, rel x y → len x = len' y) {x : α} {y : β} (hxy : rel x y) {l : List α} {l' : List β}
    (h : List.Forall₂ rel l l') : List.Forall₂ rel (insertDesc len x l) (insertDesc len' y l') := by
  induction h with
  | nil => exact List.Forall₂.cons hxy List.Forall₂.nil
  | cons hzw hl ih =>
    simp only [insertDesc,hlen _ _ hxy,hlen _ _ hzw]
    split
    · exact List.Forall₂.cons hzw ih
    · exact List.Forall₂.cons hxy (List.Forall₂.cons hzw hl)

theorem sortDesc_rel {β : Type} {len' : β → ℕ} {rel : α → β → Prop}
    (hlen : ∀ x y, rel x y → len x = len' y) {l : List α} {l' : List β}
    (h : List.Forall₂ rel l l') : List.Forall₂ rel (sortDesc len l) (sortDesc len' l') := by
  induction h with
  | nil => exact List.Forall₂.nil
  | cons hxy hl ih => exact insertDesc_rel len hlen hxy ih

/-- The newest among the elements of largest measure. -/
def IsNewestLargest (l : List α) (x : α) : Prop :=
  ∃ newer older, l = newer ++ x::older ∧ (∀ y ∈ newer, len y < len x) ∧ ∀ y ∈ older, len y ≤ len x

variable {len} in
theorem IsNewestLargest.mem {l : List α} {x : α} (h : IsNewestLargest len l x) : x ∈ l := by
  obtain ⟨newer,older,rfl,-⟩ := h
  simp

/-- The head of the sorted list is the newest element of largest measure. -/
theorem head?_sortDesc {l : List α} {x : α} (h : (sortDesc len l).head? = some x) :
    IsNewestLargest len l x := by
  induction l generalizing x with
  | nil => simp at h
  | cons y l ih =>
    rw [sortDesc_cons] at h
    cases hs : sortDesc len l with
    | nil =>
      rw [hs] at h
      have hl := (sortDesc_eq_nil len).mp hs
      have hx : y = x := by simpa [insertDesc] using h
      subst hx
      subst hl
      exact ⟨[],[],rfl,by simp,by simp⟩
    | cons z zs =>
      have hz := ih (x:=z) (by rw [hs]; rfl)
      rw [hs,insertDesc] at h
      by_cases hlt : len y < len z
      · simp only [hlt,if_true,List.head?_cons,Option.some.injEq] at h
        subst h
        obtain ⟨newer,older,he,hn,ho⟩ := hz
        refine ⟨y::newer,older,by simp [he],?_,ho⟩
        intro w hw
        rcases List.mem_cons.mp hw with rfl | hw
        · exact hlt
        · exact hn w hw
      · simp only [hlt,if_false,List.head?_cons,Option.some.injEq] at h
        subst h
        refine ⟨[],l,rfl,by simp,?_⟩
        intro w hw
        have hw' : w ∈ z::zs := by rw [← hs]; simpa using hw
        have hd := sortDesc_desc len l
        rw [hs] at hd
        rcases List.mem_cons.mp hw' with rfl | hw'
        · omega
        · have := (List.pairwise_cons.mp hd).1 w hw'
          omega

theorem insertDesc_perm (x : α) (l : List α) : (insertDesc len x l).Perm (x::l) := by
  induction l with
  | nil => exact List.Perm.refl _
  | cons y l ih =>
    rw [insertDesc]
    split
    · exact (ih.cons y).trans (List.Perm.swap x y l)
    · exact List.Perm.refl _

theorem sortDesc_perm (l : List α) : (sortDesc len l).Perm l := by
  induction l with
  | nil => exact List.Perm.refl _
  | cons x l ih => exact (insertDesc_perm len x _).trans (ih.cons x)

theorem insertDesc_of_le {x : α} {l : List α} (h : ∀ y ∈ l, len y ≤ len x) :
    insertDesc len x l = x::l := by
  simpa [insertDesc] using insertDesc_append_left len (x:=x) (a:=[]) h

theorem filter_insertDesc {p : α → Bool} {x : α} {l : List α} (hl : Desc len l) :
    (insertDesc len x l).filter p =
      if p x then insertDesc len x (l.filter p) else l.filter p := by
  induction l with
  | nil => cases hp : p x <;> simp [insertDesc,hp]
  | cons y l ih =>
    obtain ⟨hy,hd⟩ := List.pairwise_cons.mp hl
    by_cases hlt : len x < len y
    · rw [insertDesc,if_pos hlt,List.filter_cons,ih hd]
      cases hpy : p y <;> cases hpx : p x <;> simp [hpy,insertDesc,hlt]
    · have hle : ∀ z ∈ (y::l).filter p, len z ≤ len x := by
        intro z hz
        rcases List.mem_cons.mp (List.mem_filter.mp hz).1 with rfl | hz
        · omega
        · have := hy z hz
          omega
      rw [insertDesc,if_neg hlt,List.filter_cons,insertDesc_of_le len hle]

theorem sortDesc_filter (p : α → Bool) (l : List α) :
    sortDesc len (l.filter p) = (sortDesc len l).filter p := by
  induction l with
  | nil => rfl
  | cons x l ih =>
    rw [sortDesc_cons,filter_insertDesc len (sortDesc_desc len l),← ih]
    cases hp : p x <;> simp [hp]

end StableOrder
