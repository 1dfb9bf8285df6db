import Mathlib

/-! A heap of numbered blocks behind a fallible allocator. Whether a request succeeds is
given by its number in the order of requests, so that a result for every pattern of outcomes
is a result for every heap; a block is named by the request that created it. -/
namespace BlockHeap

structure Heap (α : Type) where
  /-- Outcome of each request. -/
  ok : ℕ → Bool
  /-- Requests made so far. -/
  calls : ℕ
  live : ℕ → Bool
  /-- How often each block was given back. -/
  frees : ℕ → ℕ
  /-- Contents, kept after the block is given back. -/
  val : ℕ → α

namespace Heap
variable {α : Type}

def init (ok : ℕ → Bool) (val : ℕ → α) : Heap α := ⟨ok,0,fun _ => false,fun _ => 0,val⟩

def alloc (h : Heap α) : Option ℕ × Heap α :=
  if h.ok h.calls then
    (some h.calls,{ h with calls := h.calls+1, live := Function.update h.live h.calls true })
  else (none,{ h with calls := h.calls+1 })

def free (h : Heap α) (b : ℕ) : Heap α :=
  { h with live := Function.update h.live b false,
           frees := Function.update h.frees b (h.frees b+1) }

def write (h : Heap α) (b : ℕ) (v : α) : Heap α := { h with val := Function.update h.val b v }

@[simp] theorem free_val (h : Heap α) (b : ℕ) : (h.free b).val = h.val := rfl
@[simp] theorem free_ok (h : Heap α) (b : ℕ) : (h.free b).ok = h.ok := rfl
@[simp] theorem free_calls (h : Heap α) (b : ℕ) : (h.free b).calls = h.calls := rfl
@[simp] theorem write_ok (h : Heap α) (b : ℕ) (v : α) : (h.write b v).ok = h.ok := rfl
@[simp] theorem write_calls (h : Heap α) (b : ℕ) (v : α) : (h.write b v).calls = h.calls := rfl
@[simp] theorem write_live (h : Heap α) (b : ℕ) (v : α) : (h.write b v).live = h.live := rfl
@[simp] theorem write_frees (h : Heap α) (b : ℕ) (v : α) : (h.write b v).frees = h.frees := rfl

@[simp] theorem alloc_val (h : Heap α) : h.alloc.2.val = h.val := by
  unfold alloc
  split <;> rfl

@[simp] theorem alloc_ok (h : Heap α) : h.alloc.2.ok = h.ok := by
  unfold alloc
  split <;> rfl

@[simp] theorem alloc_calls (h : Heap α) : h.alloc.2.calls = h.calls+1 := by
  unfold alloc
  split <;> rfl

@[simp] theorem alloc_frees (h : Heap α) : h.alloc.2.frees = h.frees := by
  unfold alloc
  split <;> rfl

theorem alloc_live {h : Heap α} (hok : h.ok h.calls = true) :
    h.alloc.2.live = Function.update h.live h.calls true := by
  simp [alloc,hok]

theorem alloc_some {h : Heap α} (hok : h.ok h.calls = true) : h.alloc.1 = some h.calls := by
  simp [alloc,hok]

theorem alloc_none {h : Heap α} (hok : h.ok h.calls = false) : h.alloc.1 = none := by
  simp [alloc,hok]

/-- `w` counts the owners of each block: one for a live block, none for the others, and
blocks not yet requested are not live. -/
structure Owns (w : ℕ → ℕ) (h : Heap α) : Prop where
  count : ∀ b, w b = (h.live b).toNat
  fresh : ∀ b, h.calls ≤ b → h.live b = false

def granted (h : Heap α) (b : ℕ) : Bool := decide (b < h.calls) && h.ok b

/-- Every block of `S` granted so far is live or has been given back, once. -/
def Ledger (S : Set ℕ) (h : Heap α) : Prop :=
  ∀ b ∈ S, h.frees b + (h.live b).toNat = (h.granted b).toNat

namespace Owns
variable {w w' : ℕ → ℕ} {h : Heap α} {b : ℕ}

theorem alloc_some (hw : Owns w h) (hok : h.ok h.calls = true) :
    Owns (w + Pi.single h.calls 1) h.alloc.2 := by
  have hdead := hw.fresh h.calls le_rfl
  constructor
  · intro b
    have hc := hw.count b
    by_cases hb : b = h.calls
    · subst hb
      simp [Heap.alloc,hok,hc,hdead]
    · simp [Heap.alloc,hok,hc,hb]
  · intro b hb
    rw [alloc_calls] at hb
    have hne : b ≠ h.calls := by omega
    simp [Heap.alloc,hok,hne,hw.fresh b (by omega)]

theorem alloc_none (hw : Owns w h) (hok : h.ok h.calls = false) : Owns w h.alloc.2 := by
  constructor
  · intro b
    simp [Heap.alloc,hok,hw.count b]
  · intro b hb
    rw [alloc_calls] at hb
    simp [Heap.alloc,hok,hw.fresh b (by omega)]

theorem write (hw : Owns w h) (v : α) : Owns w (h.write b v) := ⟨hw.count,hw.fresh⟩

theorem free (hw : Owns (w + Pi.single b 1) h) : Owns w (h.free b) := by
  constructor
  · intro c
    have hc := hw.count c
    by_cases hcb : c = b
    · subst hcb
      have hle := (h.live c).toNat_le
      simp only [Pi.add_apply,Pi.single_eq_same] at hc
      simp only [Heap.free,Function.update_self,Bool.toNat_false]
      omega
    · simp only [Pi.add_apply,Pi.single_eq_of_ne hcb,add_zero] at hc
      simpa [Heap.free,hcb] using hc
  · intro c hc
    by_cases hcb : c = b
    · subst hcb
      simp [Heap.free]
    · simpa [Heap.free,hcb] using hw.fresh c hc

theorem live (hw : Owns w h) (hb : 0 < w b) : h.live b = true := by
  have hc := hw.count b
  cases hl : h.live b with
  | true => rfl
  | false =>
    rw [hl] at hc
    simp only [Bool.toNat_false] at hc
    omega

theorem congr (hw : Owns w h) (he : ∀ b, w b = w' b) : Owns w' h :=
  ⟨fun b => (he b) ▸ hw.count b,hw.fresh⟩

theorem live_congr {h' : Heap α} (hw : Owns w h) (hw' : Owns w' h') (he : w b = w' b) :
    h'.live b = h.live b := by
  have := (hw.count b).symm.trans (he.trans (hw'.count b))
  cases hl : h.live b <;> cases hl' : h'.live b <;> simp [hl,hl'] at this ⊢

theorem live_eq {h' : Heap α} (hw : Owns w h) (hw' : Owns w h') (b : ℕ) : h'.live b = h.live b :=
  hw.live_congr hw' rfl

end Owns

namespace Ledger
variable {S : Set ℕ} {h : Heap α} {b : ℕ}

theorem alloc (hl : Ledger S h) (hfresh : h.live h.calls = false) : Ledger S h.alloc.2 := by
  intro b hS
  have hb := hl b hS
  by_cases hbc : b = h.calls
  · subst hbc
    simp only [granted,hfresh,lt_irrefl,decide_false,Bool.false_and,Bool.toNat_false,add_zero] at hb
    cases hok : h.ok h.calls <;> simp [Heap.alloc,granted,hok,hb,hfresh]
  · have hlt : decide (b ≤ h.calls) = decide (b < h.calls) := by
      apply decide_eq_decide.mpr
      omega
    cases hok : h.ok h.calls <;> simpa [Heap.alloc,granted,hok,hbc,hlt] using hb

theorem write (hl : Ledger S h) (v : α) : Ledger S (h.write b v) := hl

theorem free (hl : Ledger S h) (hlive : h.live b = true) : Ledger S (h.free b) := by
  intro c hS
  have hc := hl c hS
  have hg : (h.free b).granted c = h.granted c := rfl
  rw [hg,← hc]
  by_cases hcb : c = b
  · subst hcb
    simp [Heap.free,hlive]
  · simp [Heap.free,hcb]

end Ledger

/-- The live blocks are those of `O`, and the ledger of all blocks is in order. -/
structure Keeps (O : Set ℕ) (h : Heap α) : Prop where
  live : ∀ b, h.live b = true ↔ b ∈ O
  fresh : ∀ b ∈ O, b < h.calls
  ledger : h.Ledger Set.univ

namespace Keeps
variable {O O' : Set ℕ} {h : Heap α} {b : ℕ}

theorem dead (hk : Keeps O h) : h.live h.calls = false := by
  rw [← Bool.not_eq_true,hk.live]
  exact fun hb => (hk.fresh _ hb).false

theorem congr (hk : Keeps O h) (he : ∀ b, b ∈ O ↔ b ∈ O') : Keeps O' h :=
  ⟨fun b => (hk.live b).trans (he b),fun b hb => hk.fresh b ((he b).mpr hb),hk.ledger⟩

theorem alloc_none (hk : Keeps O h) (hok : h.ok h.calls = false) : Keeps O h.alloc.2 := by
  refine ⟨?_,fun b hb => ?_,hk.ledger.alloc hk.dead⟩
  · simpa [Heap.alloc,hok] using hk.live
  · rw [alloc_calls]
    exact (hk.fresh b hb).trans (Nat.lt_succ_self _)

theorem alloc_some (hk : Keeps O h) (hok : h.ok h.calls = true) : Keeps (insert h.calls O) h.alloc.2 := by
  refine ⟨fun b => ?_,fun b hb => ?_,hk.ledger.alloc hk.dead⟩
  · rw [alloc_live hok,Set.mem_insert_iff,← hk.live]
    by_cases hbc : b = h.calls
    · simp [hbc]
    · simp [hbc]
  · rw [alloc_calls]
    rcases hb with rfl | hb
    · exact Nat.lt_succ_self _
    · exact (hk.fresh b hb).trans (Nat.lt_succ_self _)

theorem write (hk : Keeps O h) (v : α) : Keeps O (h.write b v) := ⟨hk.live,hk.fresh,hk.ledger⟩

theorem free (hk : Keeps O h) (hb : b ∈ O) : Keeps (O \ {b}) (h.free b) := by
  refine ⟨fun c => ?_,fun c hc => hk.fresh c hc.1,hk.ledger.free ((hk.live b).mpr hb)⟩
  rw [Set.mem_sdiff,← hk.live,Set.mem_singleton_iff]
  by_cases hcb : c = b
  · simp [Heap.free,hcb]
  · simp [Heap.free,hcb]

end Keeps

/-- The live blocks are those of `l`, with these contents. -/
structure Holds (h : Heap α) (l : List (ℕ × α)) : Prop where
  nodup : (l.map Prod.fst).Nodup
  live : ∀ b, h.live b = true ↔ b ∈ l.map Prod.fst
  val : ∀ p ∈ l, h.val p.1 = p.2
  fresh : ∀ b, h.calls ≤ b → h.live b = false

namespace Holds
variable {h : Heap α} {l l' l₂ : List (ℕ × α)} {b : ℕ} {v : α}

theorem nil (hdead : ∀ b, h.live b = false) : Holds h [] :=
  ⟨by simp,by simp [hdead],by simp,fun b _ => hdead b⟩

theorem dead (hl : Holds h []) (b : ℕ) : h.live b = false := by
  simpa using (hl.live b).not

theorem perm (hl : Holds h l) (hp : l.Perm l') : Holds h l' :=
  ⟨(hp.map _).nodup_iff.mp hl.nodup,fun b => (hl.live b).trans (hp.map _).mem_iff,
    fun p hp' => hl.val p (hp.mem_iff.mpr hp'),hl.fresh⟩

theorem mem (hl : Holds h l) (hb : (b,v) ∈ l) : h.live b = true ∧ h.val b = v :=
  ⟨(hl.live b).mpr (List.mem_map_of_mem (f := Prod.fst) hb),hl.val _ hb⟩

theorem lt (hl : Holds h l) (hb : (b,v) ∈ l) : b < h.calls := by
  by_contra hle
  have hlive := (hl.mem hb).1
  rw [hl.fresh b (not_lt.mp hle)] at hlive
  cases hlive

theorem alloc (hl : Holds h l) (hok : h.ok h.calls = true) (v : α) :
    Holds (h.alloc.2.write h.calls v) (l++[(h.calls,v)]) := by
  have hnew : h.calls ∉ l.map Prod.fst := by
    rw [← hl.live,hl.fresh _ le_rfl]
    simp
  refine ⟨?_,?_,?_,?_⟩
  · rw [List.map_append,List.map_singleton]
    exact hl.nodup.append (List.nodup_singleton _) (by simpa using hnew)
  · intro c
    have hc := hl.live c
    by_cases hcc : c = h.calls
    · simp [alloc_live hok,hcc]
    · simpa [alloc_live hok,hcc] using hc
  · intro p hp
    rcases List.mem_append.mp hp with hp | hp
    · have hne : p.1 ≠ h.calls := fun he => hnew (he ▸ List.mem_map_of_mem hp)
      simpa [Heap.write,hne] using hl.val p hp
    · obtain rfl := List.mem_singleton.mp hp
      simp [Heap.write]
  · intro c hc
    have hlt : h.calls < c := by simpa using hc
    simpa [alloc_live hok,hlt.ne'] using hl.fresh c hlt.le

theorem write (l₁ : List (ℕ × α)) (hl : Holds h (l₁++(b,v)::l₂)) (w : α) : Holds (h.write b w) (l₁++(b,w)::l₂) := by
  have hkeys : (l₁++(b,w)::l₂).map Prod.fst = (l₁++(b,v)::l₂).map Prod.fst := by simp
  have hnodup := hl.nodup
  simp only [List.map_append,List.map_cons] at hnodup
  have hnot := List.nodup_middle.mp hnodup |> List.nodup_cons.mp
  refine ⟨hkeys ▸ hl.nodup,fun c => hkeys ▸ hl.live c,?_,hl.fresh⟩
  intro p hp
  by_cases hpb : p.1 = b
  · rcases List.mem_append.mp hp with hp | hp
    · exact absurd (List.mem_append_left _ (hpb ▸ List.mem_map_of_mem hp)) hnot.1
    rcases List.mem_cons.mp hp with rfl | hp
    · simp [Heap.write]
    · exact absurd (List.mem_append_right _ (hpb ▸ List.mem_map_of_mem hp)) hnot.1
  · have hmem : p ∈ l₁++(b,v)::l₂ := by
      have hne : p ≠ (b,w) := fun he => hpb (congrArg Prod.fst he)
      simp only [List.mem_append,List.mem_cons,hne,false_or] at hp ⊢
      exact hp.imp_right Or.inr
    simpa [Heap.write,hpb] using hl.val p hmem

theorem free (l₁ : List (ℕ × α)) (hl : Holds h (l₁++(b,v)::l₂)) : Holds (h.free b) (l₁++l₂) := by
  have hnodup := hl.nodup
  simp only [List.map_append,List.map_cons] at hnodup
  have hnot := List.nodup_middle.mp hnodup |> List.nodup_cons.mp
  rw [← List.map_append] at hnot
  refine ⟨hnot.2,?_,?_,?_⟩
  · intro c
    have hc := hl.live c
    by_cases hcb : c = b
    · subst hcb
      simpa [Heap.free] using hnot.1
    · simpa [Heap.free,hcb] using hc
  · intro p hp
    apply hl.val p
    rcases List.mem_append.mp hp with hp | hp
    · simp [hp]
    · simp [hp]
  · intro c hc
    by_cases hcb : c = b
    · simp [Heap.free,hcb]
    · simpa [Heap.free,hcb] using hl.fresh c hc

end Holds

end Heap
end BlockHeap
