import Ixmap.RegProgram

/-! Programs whose writes are permitted by what they have last read from the registers, or written to them. -/
namespace RegProgram

variable {R V E α β σ : Type}

theorem Follows.always {γ : Type} {P : Protocol R V E γ} {p : Prog R V E α} {g : γ} {Q : α → γ → Prop} {Q' : α → Prop}
    (h : Follows P p g Q) (hp : Always Q' p) : Follows P p g fun a g' => Q a g' ∧ Q' a := by
  induction p generalizing g with
  | ret a => exact ⟨h,hp⟩
  | read r k ih => exact fun v hv => ih v (h v hv) (hp v)
  | write r v k ih => exact ⟨h.1,ih h.2 hp⟩
  | mark e k ih => exact fun ht => ⟨(h ht).1,ih (h ht).2 hp⟩

/-- All accesses are to registers of `S`, whatever they answer. -/
def Within (S : Set R) : Prog R V E α → Prop
  | .ret _ => True
  | .read r k => r ∈ S ∧ ∀ v, Within S (k v)
  | .write r _ k => r ∈ S ∧ Within S k
  | .mark _ k => Within S k

section Within
variable {S T : Set R}

theorem within_pure (a : α) : Within S (pure a : Prog R V E α) := trivial

theorem within_read {r : R} (h : r ∈ S) : Within S (readReg r : Prog R V E V) := ⟨h,fun _ => trivial⟩

theorem within_write {r : R} (h : r ∈ S) (v : V) : Within S (writeReg r v : Prog R V E Unit) := ⟨h,trivial⟩

theorem Within.bind {p : Prog R V E α} {f : α → Prog R V E β} (h : Within S p) (hf : ∀ a, Within S (f a)) :
    Within S (p >>= f) := by
  change Within S (Prog.bind p f)
  induction p with
  | ret a => exact hf a
  | read r k ih => exact ⟨h.1,fun v => ih v (h.2 v)⟩
  | write r v k ih => exact ⟨h.1,ih h.2⟩
  | mark e k ih => exact ih h

theorem Within.ite {c : Prop} [Decidable c] {p q : Prog R V E α} (hp : Within S p) (hq : Within S q) :
    Within S (if c then p else q) := by
  by_cases h : c
  · rwa [if_pos h]
  · rwa [if_neg h]

theorem Within.mono {p : Prog R V E α} (h : Within S p) (hST : S ⊆ T) : Within T p := by
  induction p with
  | ret a => trivial
  | read r k ih => exact ⟨hST h.1,fun v => ih v (h.2 v)⟩
  | write r v k ih => exact ⟨hST h.1,ih h.2⟩
  | mark e k ih => exact ih h

end Within

variable [DecidableEq R]

/-- What was last read from each register, or written to it. -/
def shadow (g : R → Option V) : Act R V E → R → Option V
  | .read r v => Function.update g r (some v)
  | .write r v => Function.update g r (some v)
  | .mark _ => g

/-- What is known of the registers permits a write; nothing is promised behind a trace point. -/
def guarded (may : (R → Option V) → R → V → Prop) : Protocol R V E (R → Option V) where
  next := shadow
  sees _ _ _ := True
  may g a := ∀ r v, a = .write r v → may g r v
  timely _ := False

section
variable {may : (R → Option V) → R → V → Prop} {g : R → Option V}

theorem guarded_read {r : R} {f : V → Prog R V E β} {Q : β → (R → Option V) → Prop} :
    Follows (guarded may) (readReg r >>= f) g Q ↔
      ∀ v, Follows (guarded may) (f v) (Function.update g r (some v)) Q :=
  follows_read.trans (forall_congr' fun _ => forall_prop_of_true trivial)

theorem guarded_write {r : R} {v : V} {f : Unit → Prog R V E β} {Q : β → (R → Option V) → Prop} (hmay : may g r v)
    (h : Follows (guarded may) (f ()) (Function.update g r (some v)) Q) :
    Follows (guarded may) (writeReg r v >>= f) g Q := by
  refine follows_write.mpr ⟨fun r' v' ha => ?_,h⟩
  cases ha
  exact hmay

theorem guarded_writeReg {r : R} {v : V} {Q : Unit → (R → Option V) → Prop} (hmay : may g r v)
    (h : Q () (Function.update g r (some v))) : Follows (guarded may) (writeReg r v : Prog R V E Unit) g Q :=
  guarded_write hmay h

theorem guarded_point {e : E} {Q : Unit → (R → Option V) → Prop} :
    Follows (guarded may) (point e : Prog R V E Unit) g Q := fun h => h.elim

theorem Follows.frame {S : Set R} {p : Prog R V E α} {Q : α → (R → Option V) → Prop}
    (h : Follows (guarded may) p g Q) (hS : Within S p) :
    Follows (guarded may) p g fun a g' => Q a g' ∧ ∀ r ∉ S, g' r = g r := by
  induction p generalizing g with
  | ret a => exact ⟨h,fun _ _ => rfl⟩
  | read r k ih =>
    refine fun v hv => (ih v (h v hv) (hS.2 v)).mono fun a g' hg => ⟨hg.1,fun r' hr' => ?_⟩
    rw [hg.2 r' hr']
    exact Function.update_of_ne (ne_of_mem_of_not_mem hS.1 hr').symm _ _
  | write r v k ih =>
    refine ⟨h.1,(ih h.2 hS.2).mono fun a g' hg => ⟨hg.1,fun r' hr' => ?_⟩⟩
    rw [hg.2 r' hr']
    exact Function.update_of_ne (ne_of_mem_of_not_mem hS.1 hr').symm _ _
  | mark e k ih => exact fun ht => ht.elim

theorem Within.follows {S : Set R} {p : Prog R V E α} (hS : Within S p) (hmay : ∀ g, ∀ r ∈ S, ∀ v, may g r v) :
    Follows (guarded may) p g fun _ g' => ∀ r ∉ S, g' r = g r := by
  have hfree : Follows (guarded may) p g fun _ _ => True := by
    induction p generalizing g with
    | ret a => trivial
    | read r k ih => exact fun v _ => ih v (hS.2 v)
    | write r v k ih =>
      refine ⟨fun r' v' ha => ?_,ih hS.2⟩
      cases ha
      exact hmay _ _ hS.1 _
    | mark e k ih => exact fun ht => ht.elim
  exact (hfree.frame hS).mono fun _ _ hg => hg.2

/-- Before the first trace point every write is permitted by the accesses that precede it. -/
theorem Follows.permitted {p : Prog R V E α} {Q : α → (R → Option V) → Prop} (h : Follows (guarded may) p g Q)
    (d : Device R V σ) (s : σ) (n : ℕ) {pre post : List (Act R V E)} {r : R} {v : V}
    (hacts : (accesses d n p s).2.2 = pre++.write r v::post) (hquiet : ∀ e, .mark e ∉ pre) :
    may (pre.foldl shadow g) r v := by
  induction n generalizing p g s pre with
  | zero => exact absurd hacts (by simp [accesses])
  | succ n ih =>
    cases p with
    | ret a => exact absurd hacts (by simp [accesses])
    | read r' k =>
      cases pre with
      | nil => simp [accesses] at hacts
      | cons a pre =>
        simp only [accesses,List.cons_append,List.cons.injEq] at hacts
        rw [← hacts.1,List.foldl_cons]
        exact ih (h _ trivial) _ hacts.2 fun e he => hquiet e (List.mem_cons_of_mem _ he)
    | write r' v' k =>
      cases pre with
      | nil =>
        simp only [accesses,List.nil_append,List.cons.injEq] at hacts
        exact h.1 r v hacts.1
      | cons a pre =>
        simp only [accesses,List.cons_append,List.cons.injEq] at hacts
        rw [← hacts.1,List.foldl_cons]
        exact ih h.2 _ hacts.2 fun e he => hquiet e (List.mem_cons_of_mem _ he)
    | mark e k =>
      cases pre with
      | nil => simp [accesses] at hacts
      | cons a pre =>
        simp only [accesses,List.cons_append,List.cons.injEq] at hacts
        exact absurd (hacts.1 ▸ List.mem_cons_self) (hquiet e)

/-- A program that ends without having passed a trace point ends as it should. -/
theorem Follows.ends {p : Prog R V E α} {Q : α → (R → Option V) → Prop} (h : Follows (guarded may) p g Q)
    (d : Device R V σ) (s : σ) (n : ℕ) {a : α} (hend : (accesses d n p s).1 = .ret a)
    (hquiet : ∀ e, .mark e ∉ (accesses d n p s).2.2) : Q a ((accesses d n p s).2.2.foldl shadow g) := by
  induction n generalizing p g s with
  | zero =>
    obtain rfl : p = .ret a := hend
    exact h
  | succ n ih =>
    cases p with
    | ret b =>
      obtain rfl : b = a := Prog.ret.inj hend
      exact h
    | read r k => exact ih (h _ trivial) _ hend fun e he => hquiet e (List.mem_cons_of_mem _ he)
    | write r v k => exact ih h.2 _ hend fun e he => hquiet e (List.mem_cons_of_mem _ he)
    | mark e k => exact absurd List.mem_cons_self (hquiet e)

end

end RegProgram
