import Mathlib

/-! Runs of a step function, total or fallible, whose steps all meet a condition on the state they start
from. -/
namespace GuardedRun

variable {σ ι : Type} (step : σ → ι → σ) (C : σ → ι → Prop)

/-- Every step of the run from `s` meets `C`. -/
def Meets : σ → List ι → Prop
  | _, [] => True
  | s, i::is => C s i ∧ Meets (step s i) is

variable {step C}

/-- A relation to the history that every admitted step extends holds at the end of the run. -/
theorem Meets.history {I : List ι → σ → Prop} {is : List ι} {s : σ} (past : List ι) (hrun : Meets step C s is)
    (hI : I past s) (hstep : ∀ past s i, i ∈ is → I past s → C s i → I (past++[i]) (step s i)) :
    I (past++is) (is.foldl step s) := by
  induction is generalizing s past with
  | nil => simpa using hI
  | cons i is ih =>
    rw [List.append_cons]
    apply ih _ hrun.2 (hstep past s i (by simp) hI hrun.1)
    intro past s j hj
    exact hstep past s j (by simp [hj])

theorem Meets.invariant {I : σ → Prop} {is : List ι} {s : σ} (hrun : Meets step C s is) (hI : I s)
    (hstep : ∀ s i, i ∈ is → I s → C s i → I (step s i)) : I (is.foldl step s) :=
  hrun.history (I := fun _ => I) [] hI fun _ => hstep

theorem meets_append {as bs : List ι} {s : σ} :
    Meets step C s (as++bs) ↔ Meets step C s as ∧ Meets step C (as.foldl step s) bs := by
  induction as generalizing s with
  | nil => simp [Meets]
  | cons a as ih => simp only [List.cons_append,Meets,ih,List.foldl_cons,and_assoc]

theorem meets_of_forall {is : List ι} (h : ∀ i ∈ is, ∀ s, C s i) (s : σ) : Meets step C s is := by
  induction is generalizing s with
  | nil => trivial
  | cons i is ih => exact ⟨h i (by simp) s,ih (fun j hj => h j (by simp [hj])) _⟩

section Fallible
variable (run : σ → ι → Option σ) (C : σ → ι → Prop)

/-- Every step of the run from `s` that is come to meets `C`. -/
def Admits : σ → List ι → Prop
  | _, [] => True
  | s, i::is => C s i ∧ ∀ s', run s i = some s' → Admits s' is

variable {run C}

/-- When admitted steps return and extend a relation to the history, the run returns and the relation
holds at its end. -/
theorem Admits.history {I : List ι → σ → Prop} {is : List ι} {s : σ} (past : List ι)
    (hrun : Admits run C s is) (hI : I past s)
    (hstep : ∀ past s i, I past s → C s i → ∃ s', run s i = some s' ∧ I (past++[i]) s') :
    ∃ s', is.foldlM run s = some s' ∧ I (past++is) s' := by
  induction is generalizing s past with
  | nil => exact ⟨s,rfl,by simpa using hI⟩
  | cons i is ih =>
    obtain ⟨s₁,hs₁,hI₁⟩ := hstep past s i hI hrun.1
    obtain ⟨s₂,hs₂,hI₂⟩ := ih (past++[i]) (hrun.2 s₁ hs₁) hI₁
    refine ⟨s₂,?_,by rwa [List.append_cons]⟩
    rw [List.foldlM_cons,hs₁]
    exact hs₂

end Fallible

end GuardedRun
