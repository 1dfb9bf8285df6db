import Mathlib

/-! A system that grants resources and takes them back. What a request gets depends only on its
number in the order of requests, so that a result for every stream of answers is a result for every
pattern of failures; a grant is named by the request it answers. -/
namespace ResourceLedger

structure Sys (R : Type) where
  /-- Outcome of each request: refused, or granted with a value such as an address. -/
  answer : ℕ → Option ℕ
  /-- Requests made so far. -/
  calls : ℕ
  held : List (ℕ × R)
  /-- Releases of something that was not held, or not in this form. -/
  wrong : ℕ

structure Grant where
  id : ℕ
  value : ℕ
  deriving DecidableEq, Repr

namespace Sys
variable {R : Type}

def init (answer : ℕ → Option ℕ) : Sys R := ⟨answer,0,[],0⟩

/-- A request that is refused whatever the system would answer. -/
def deny (s : Sys R) : Sys R := { s with calls := s.calls+1 }

/-- A request that grants nothing to hold. -/
def attempt (s : Sys R) : Option ℕ × Sys R := (s.answer s.calls,s.deny)

def acquire (s : Sys R) (r : R) : Option Grant × Sys R :=
  match s.answer s.calls with
  | none => (none,s.deny)
  | some v => (some ⟨s.calls,v⟩,{ s with calls := s.calls+1, held := (s.calls,r)::s.held })

/-- Give back the grant with this name; `fits` is what the releasing call says about it. -/
def release [DecidableEq R] (s : Sys R) (id : ℕ) (fits : R → Bool) : Sys R :=
  match s.held.find? fun e => decide (e.1 = id) && fits e.2 with
  | none => { s with wrong := s.wrong+1 }
  | some e => { s with held := s.held.erase e }

theorem acquire_some {s s' : Sys R} {r : R} {g : Grant} (h : s.acquire r = (some g,s')) :
    s'.held = (g.id,r)::s.held := by
  unfold acquire at h
  cases ha : s.answer s.calls with
  | none => simp [ha] at h
  | some v =>
    simp only [ha,Prod.mk.injEq,Option.some.injEq] at h
    obtain ⟨rfl,rfl⟩ := h
    rfl

theorem acquire_subset {s s' : Sys R} {r : R} {g : Grant} (h : s.acquire r = (some g,s')) :
    s.held ⊆ s'.held := by
  rw [acquire_some h]
  exact List.subset_cons_self _ _

/-- Since `s₀`, `own` has been acquired and not given back, what was held before is still held, and no
release has gone wrong. -/
structure Since (s₀ s : Sys R) (own : Multiset (ℕ × R)) : Prop where
  held : ∃ l : List (ℕ × R), (l : Multiset (ℕ × R)) = own ∧ s.held = l++s₀.held
  ids : (own.map Prod.fst).Nodup
  lt : ∀ e ∈ own, e.1 < s.calls
  wrong : s.wrong = s₀.wrong

/-- Everything acquired has been given back, once, and nothing else. -/
def Restored (s₀ s : Sys R) : Prop := s.held = s₀.held ∧ s.wrong = s₀.wrong

section Since
variable {s₀ s s' : Sys R} {own : Multiset (ℕ × R)} {r : R} {g : Grant}

theorem Since.refl (s : Sys R) : Since s s 0 := ⟨⟨[],rfl,rfl⟩,by simp,by simp,rfl⟩

theorem Since.restored (h : Since s₀ s 0) : Restored s₀ s := by
  obtain ⟨l,hl,hheld⟩ := h.held
  rw [Multiset.coe_eq_zero] at hl
  exact ⟨by rw [hheld,hl,List.nil_append],h.wrong⟩

theorem Since.not_restored (h : Since s₀ s own) (hown : own ≠ 0) : ¬ Restored s₀ s := by
  rintro ⟨hheld,-⟩
  obtain ⟨l,hl,hheld'⟩ := h.held
  have hnil : l = [] := by simpa [hheld'] using hheld
  exact hown (by rw [← hl,hnil,Multiset.coe_nil])

theorem Since.deny (h : Since s₀ s own) : Since s₀ s.deny own :=
  ⟨h.held,h.ids,fun e he => (h.lt e he).trans (Nat.lt_succ_self _),h.wrong⟩

theorem Since.attempt {v : Option ℕ} (h : Since s₀ s own) (ha : s.attempt = (v,s')) : Since s₀ s' own := by
  rw [← (Prod.mk.inj ha).2]
  exact h.deny

theorem Since.refused (h : Since s₀ s own) (ha : s.acquire r = (none,s')) : Since s₀ s' own := by
  unfold acquire at ha
  cases hv : s.answer s.calls with
  | none =>
    simp only [hv,Prod.mk.injEq,true_and] at ha
    exact ha ▸ h.deny
  | some v => simp [hv] at ha

theorem Since.granted (h : Since s₀ s own) (ha : s.acquire r = (some g,s')) :
    Since s₀ s' ({(g.id,r)}+own) := by
  unfold acquire at ha
  cases hv : s.answer s.calls with
  | none => simp [hv] at ha
  | some v =>
    simp only [hv,Prod.mk.injEq,Option.some.injEq] at ha
    obtain ⟨rfl,rfl⟩ := ha
    obtain ⟨l,hl,hheld⟩ := h.held
    have hnew : s.calls ∉ own.map Prod.fst := by
      intro hmem
      obtain ⟨e,he,hid⟩ := Multiset.mem_map.mp hmem
      exact (h.lt e he).ne hid
    refine ⟨⟨(s.calls,r)::l,?_,by simp [hheld]⟩,?_,?_,h.wrong⟩
    · rw [← Multiset.cons_coe,hl,Multiset.singleton_add]
    · rw [Multiset.singleton_add,Multiset.map_cons]
      exact Multiset.nodup_cons.mpr ⟨hnew,h.ids⟩
    · intro e he
      rw [Multiset.singleton_add,Multiset.mem_cons] at he
      rcases he with rfl | he
      · exact Nat.lt_succ_self _
      · exact (h.lt e he).trans (Nat.lt_succ_self _)

/-- What was acquired last is found first, so that a release never reaches what was held before. -/
theorem Since.release [DecidableEq R] {id : ℕ} {fits : R → Bool} (h : Since s₀ s ({(id,r)}+own))
    (hfits : fits r = true) : Since s₀ (s.release id fits) own := by
  obtain ⟨l,hl,hheld⟩ := h.held
  rw [Multiset.singleton_add] at hl
  have hids : (l.map Prod.fst).Nodup := by
    have hids := h.ids
    rw [Multiset.singleton_add,← hl] at hids
    simpa using hids
  have hmem : (id,r) ∈ l := by
    rw [← Multiset.mem_coe,hl]
    exact Multiset.mem_cons_self _ _
  have hfind : s.held.find? (fun e => decide (e.1 = id) && fits e.2) = some (id,r) := by
    rw [hheld,List.find?_append]
    have hsome : (l.find? fun e => decide (e.1 = id) && fits e.2).isSome := by
      rw [List.find?_isSome]
      exact ⟨(id,r),hmem,by simp [hfits]⟩
    obtain ⟨e,he⟩ := Option.isSome_iff_exists.mp hsome
    have hpe := List.find?_some he
    simp only [Bool.and_eq_true,decide_eq_true_eq] at hpe
    obtain rfl : e = (id,r) :=
      List.inj_on_of_nodup_map hids (List.mem_of_find?_eq_some he) hmem hpe.1
    rw [he,Option.some_or]
  have hrelease : s.release id fits = { s with held := s.held.erase (id,r) } := by
    unfold Sys.release
    rw [hfind]
  have hnodup := h.ids
  rw [Multiset.singleton_add,Multiset.map_cons] at hnodup
  rw [hrelease]
  refine ⟨⟨l.erase (id,r),?_,?_⟩,(Multiset.nodup_cons.mp hnodup).2,?_,h.wrong⟩
  · have hperm := Multiset.coe_eq_coe.mpr (List.perm_cons_erase hmem)
    rw [hl,← Multiset.cons_coe] at hperm
    exact ((Multiset.cons_inj_right _).mp hperm).symm
  · simp only [hheld]
    exact List.erase_append_left _ hmem
  · intro e he
    exact h.lt e (by simp [he])

end Since

section Release
variable [DecidableEq R] {s : Sys R} {id : ℕ} {fits : R → Bool}

theorem count_release {e : ℕ × R} (he : fits e.2 = false) :
    (s.release id fits).held.count e = s.held.count e := by
  unfold release
  split
  · rfl
  · rename_i e' hfind
    have hfits := List.find?_some hfind
    have hne : e ≠ e' := by
      rintro rfl
      simp [he] at hfits
    exact List.count_erase_of_ne hne

theorem Since.count_lt {s₀ : Sys R} {own : Multiset (ℕ × R)} {e : ℕ × R} (h : Since s₀ s own) (he : e ∈ own) :
    s₀.held.count e < s.held.count e := by
  obtain ⟨l,rfl,hheld⟩ := h.held
  rw [hheld,List.count_append]
  exact Nat.lt_add_of_pos_left (List.count_pos_iff.mpr he)

end Release

/-- The `n` requests that led from `s` to `t` were granted. -/
structure Granted (s t : Sys R) (n : ℕ) : Prop where
  answer : t.answer = s.answer
  calls : t.calls = s.calls+n
  all : ∀ i < n, s.answer (s.calls+i) ≠ none

section Granted
variable {s t t' : Sys R} {n : ℕ} {r : R}

theorem Granted.refl (s : Sys R) : Granted s s 0 := ⟨rfl,rfl,by simp⟩

theorem Granted.attempt {v : ℕ} (h : Granted s t n) (ha : t.attempt = (some v,t')) : Granted s t' (n+1) := by
  obtain ⟨hv,rfl⟩ := Prod.mk.inj ha
  rw [h.answer,h.calls] at hv
  refine ⟨h.answer,by simp [Sys.deny,h.calls,Nat.add_assoc],fun i hi => ?_⟩
  rcases Nat.lt_succ_iff_lt_or_eq.mp hi with hi | rfl
  · exact h.all i hi
  · simp [hv]

theorem Granted.acquire {g : Grant} (h : Granted s t n) (ha : t.acquire r = (some g,t')) :
    Granted s t' (n+1) := by
  unfold Sys.acquire at ha
  cases hv : t.answer t.calls with
  | none => simp [hv] at ha
  | some v =>
    simp only [hv,Prod.mk.injEq,Option.some.injEq] at ha
    have hstep : Granted s t.deny (n+1) := h.attempt (v := v) (by simp [Sys.attempt,hv])
    rw [← ha.2]
    exact ⟨hstep.answer,hstep.calls,hstep.all⟩

theorem Granted.attempt_none (h : Granted s t n) (ha : t.attempt = (none,t')) :
    s.answer (s.calls+n) = none := by
  rw [← h.answer,← h.calls]
  exact (Prod.mk.inj ha).1

theorem Granted.acquire_none (h : Granted s t n) (ha : t.acquire r = (none,t')) :
    s.answer (s.calls+n) = none := by
  rw [← h.answer,← h.calls]
  unfold Sys.acquire at ha
  cases hv : t.answer t.calls with
  | none => rfl
  | some v => simp [hv] at ha

end Granted

/-- What a call has acquired for its result on top of `own`, nothing if it failed. -/
def Yields {α : Type} (s₀ : Sys R) (own : Multiset (ℕ × R)) (cost : α → Multiset (ℕ × R))
    (x : Option α × Sys R) : Prop := Since s₀ x.2 (x.1.elim 0 cost+own)

/-- A failed call has given back what it acquired; what a successful one acquired, the release function
gives back whenever it is called. -/
def Balanced {α : Type} (s₀ : Sys R) (x : Option α × Sys R) (release : Sys R → α → Sys R) : Prop :=
  (x.1 = none → Restored s₀ x.2) ∧ ∀ a, x.1 = some a → ∃ own, Since s₀ x.2 own ∧
    ∀ t rest, Since s₀ t (own+rest) → Since s₀ (release t a) rest

section Yields
variable {α : Type} {s₀ s : Sys R} {own : Multiset (ℕ × R)} {cost : α → Multiset (ℕ × R)}

@[simp] theorem yields_none : Yields s₀ own cost (none,s) ↔ Since s₀ s own := by simp [Yields]

@[simp] theorem yields_some {a : α} : Yields s₀ own cost (some a,s) ↔ Since s₀ s (cost a+own) := Iff.rfl

theorem Yields.balanced {x : Option α × Sys R} {release : Sys R → α → Sys R} (h : Yields s₀ 0 cost x)
    (hrelease : ∀ a, x.1 = some a → ∀ t rest, Since s₀ t (cost a+rest) → Since s₀ (release t a) rest) :
    Balanced s₀ x release := by
  obtain ⟨_ | a,s⟩ := x
  · exact ⟨fun _ => (yields_none.mp h).restored,by simp⟩
  · refine ⟨by simp,fun b hb => ?_⟩
    obtain rfl := Option.some.inj hb
    exact ⟨cost a,by simpa using h,hrelease a rfl⟩

theorem balanced_of_none {x : Option α × Sys R} {release : Sys R → α → Sys R} (hnone : x.1 = none)
    (h : Restored s₀ x.2) : Balanced s₀ x release := ⟨fun _ => h,by simp [hnone]⟩

theorem not_balanced [DecidableEq R] {x : Option α × Sys R} {release : Sys R → α → Sys R} {e : ℕ × R}
    (hx : s₀.held.count e < x.2.held.count e)
    (hrelease : ∀ a, x.1 = some a → ∀ t, (release t a).held.count e = t.held.count e) : ¬ Balanced s₀ x release := by
  rintro ⟨hnone,hsome⟩
  cases ha : x.1 with
  | none =>
    rw [(hnone ha).1] at hx
    exact lt_irrefl _ hx
  | some a =>
    obtain ⟨own,hown,hback⟩ := hsome a ha
    have hheld := (hback x.2 0 (by simpa using hown)).restored.1
    rw [← hrelease a ha x.2,hheld] at hx
    exact lt_irrefl _ hx

end Yields

/-- One of the `n` requests from `s` on is refused. -/
def Refused (s : Sys R) (n : ℕ) : Prop := ∃ i < n, s.answer (s.calls+i) = none

/-- The `n` requests since `s₀` were granted, and `own` is held. -/
structure Passed (s₀ s : Sys R) (own : Multiset (ℕ × R)) (n : ℕ) : Prop where
  since : Since s₀ s own
  granted : Granted s₀ s n

/-- One of the `n` requests since `s₀` was refused, and `own` is held. -/
structure Stopped (s₀ s : Sys R) (own : Multiset (ℕ × R)) (n : ℕ) : Prop where
  since : Since s₀ s own
  refused : Refused s₀ n

/-- A call that stops at the first request that is refused. -/
def Passes {α : Type} (s₀ : Sys R) (own : Multiset (ℕ × R)) (n : ℕ) (cost : α → Multiset (ℕ × R)) :
    Option α × Sys R → Prop
  | (none,s) => Stopped s₀ s own n
  | (some a,s) => Passed s₀ s (cost a+own) n

section Passes
variable {s₀ s s' : Sys R} {own own' : Multiset (ℕ × R)} {n m : ℕ} {r : R}

theorem Granted.not_refused (h : Granted s s' n) : ¬ Refused s n := fun ⟨i,hi,hnone⟩ => h.all i hi hnone

theorem Passed.refl (s : Sys R) : Passed s s 0 0 := ⟨.refl s,.refl s⟩

theorem Stopped.mono (h : Stopped s₀ s own n) (hle : n ≤ m) : Stopped s₀ s own m := by
  obtain ⟨i,hi,hnone⟩ := h.refused
  exact ⟨h.since,i,hi.trans_le hle,hnone⟩

theorem Stopped.give (h : Stopped s₀ s own n) (hgive : Since s₀ s own → Since s₀ s' own') :
    Stopped s₀ s' own' n := ⟨hgive h.since,h.refused⟩

theorem Passed.acquire {g : Grant} (h : Passed s₀ s own n) (ha : s.acquire r = (some g,s')) :
    Passed s₀ s' ({(g.id,r)}+own) (n+1) := ⟨h.since.granted ha,h.granted.acquire ha⟩

theorem Passed.refuse (h : Passed s₀ s own n) (ha : s.acquire r = (none,s')) : Stopped s₀ s' own (n+1) :=
  ⟨h.since.refused ha,n,Nat.lt_succ_self n,h.granted.acquire_none ha⟩

theorem Passed.attempt {v : ℕ} (h : Passed s₀ s own n) (ha : s.attempt = (some v,s')) :
    Passed s₀ s' own (n+1) := ⟨h.since.attempt ha,h.granted.attempt ha⟩

theorem Passed.attempt_refuse (h : Passed s₀ s own n) (ha : s.attempt = (none,s')) :
    Stopped s₀ s' own (n+1) := ⟨h.since.attempt ha,n,Nat.lt_succ_self n,h.granted.attempt_none ha⟩

end Passes

end Sys
end ResourceLedger
