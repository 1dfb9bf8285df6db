import Ixmap.BlockHeap
import Ixmap.PrefixBits

/-! The chained hash table of `hash.c`. Entries are heap blocks, and `entry->key` points into the
entry's own block. -/
namespace Ixmap
namespace Hash
open BlockHeap PrefixBits

variable {α : Type}

def hashBit : ℕ := 16

/-- Irreducible, so that no proof unrolls a loop over the chains. -/
@[irreducible] def hashSize : ℕ := 2^hashBit

/-- `struct hash_table`. As in C, `keyCompare` is false on a match. -/
structure HashTable (α : Type) where
  head : ℕ → List ℕ
  entryKey : α → Bytes
  entryDelete : Heap α → ℕ → Heap α
  keyGenerate : Bytes → ℕ → ℕ
  keyCompare : Bytes → Bytes → Bool

def HashTable.setHead (t : HashTable α) (hashKey : ℕ) (head : List ℕ) : HashTable α :=
  { t with head := Function.update t.head hashKey head }

def hashInit (t : HashTable α) : HashTable α := { t with head := fun _ => [] }

/-- The loop over a chain: its first entry with the key. -/
def chainFind (t : HashTable α) (h : Heap α) (key : Bytes) : List ℕ → Option ℕ
  | [] => none
  | entry::rest =>
    if !t.keyCompare key (t.entryKey (h.val entry)) then some entry else chainFind t h key rest

def hashAdd (t : HashTable α) (h : Heap α) (key : Bytes) (entryNew : ℕ) : Bool × HashTable α :=
  let hashKey := t.keyGenerate key hashBit
  match chainFind t h key (t.head hashKey) with
  | some _ => (false,t)
  | none => (true,t.setHead hashKey (entryNew::t.head hashKey))

def hashDelete (t : HashTable α) (h : Heap α) (key : Bytes) : Bool × HashTable α × Heap α :=
  let hashKey := t.keyGenerate key hashBit
  match chainFind t h key (t.head hashKey) with
  | none => (false,t,h)
  | some target => (true,t.setHead hashKey ((t.head hashKey).erase target),t.entryDelete h target)

/-- One round of the loop in `hash_delete_all`. -/
def hashDrop (t : HashTable α) (h : Heap α) (hashKey entry : ℕ) : HashTable α × Heap α :=
  (t.setHead hashKey ((t.head hashKey).erase entry),t.entryDelete h entry)

/-- The inner loop of `hash_delete_all`. -/
def hashDeleteChain (s : HashTable α × Heap α) (hashKey : ℕ) : HashTable α × Heap α :=
  (s.1.head hashKey).foldl (fun s entry => hashDrop s.1 s.2 hashKey entry) s

def hashDeleteAll (t : HashTable α) (h : Heap α) : HashTable α × Heap α :=
  (List.range hashSize).foldl hashDeleteChain (t,h)

def hashLookup (t : HashTable α) (h : Heap α) (key : Bytes) : Option ℕ :=
  chainFind t h key (t.head (t.keyGenerate key hashBit))

/-- The callbacks compare, and depend on, the first `size` bytes of a key. -/
structure Lawful (size : ℕ) (t : HashTable α) : Prop where
  compare : ∀ a b, t.keyCompare a b = false ↔ EqBytes size a b
  generate : ∀ a b bits, EqBytes size a b → t.keyGenerate a bits = t.keyGenerate b bits

/-- The entry is in some chain. -/
def HashTable.Has (t : HashTable α) (e : ℕ) : Prop := ∃ i, e ∈ t.head i

/-- Every entry is in the chain of its key, and no two have the same key. -/
structure Chains (size : ℕ) (t : HashTable α) (h : Heap α) : Prop where
  lawful : Lawful size t
  placed : ∀ i, ∀ e ∈ t.head i, t.keyGenerate (t.entryKey (h.val e)) hashBit = i
  nodup : ∀ i, (t.head i).Nodup
  distinct : ∀ e e', t.Has e → t.Has e' →
    EqBytes size (t.entryKey (h.val e)) (t.entryKey (h.val e')) → e = e'

variable {size e entryNew : ℕ} {t : HashTable α} {h h' : Heap α} {key : Bytes} {chain : List ℕ}

theorem chainFind_mem (hf : chainFind t h key chain = some e) : e ∈ chain := by
  induction chain with
  | nil => simp [chainFind] at hf
  | cons entry rest ih =>
    rw [chainFind] at hf
    split at hf
    · simp [Option.some.inj hf]
    · simp [ih hf]

theorem chainFind_some (hl : Lawful size t) (hf : chainFind t h key chain = some e) :
    e ∈ chain ∧ EqBytes size key (t.entryKey (h.val e)) := by
  induction chain with
  | nil => simp [chainFind] at hf
  | cons entry rest ih =>
    rw [chainFind] at hf
    cases hc : t.keyCompare key (t.entryKey (h.val entry)) with
    | false =>
      simp only [hc,Bool.not_false,if_true,Option.some_inj] at hf
      subst hf
      exact ⟨by simp,(hl.compare _ _).mp hc⟩
    | true =>
      simp only [hc,Bool.not_true,Bool.false_eq_true,if_false] at hf
      exact ⟨by simp [(ih hf).1],(ih hf).2⟩

theorem chainFind_none (hl : Lawful size t) (hf : chainFind t h key chain = none) :
    ∀ e ∈ chain, ¬ EqBytes size key (t.entryKey (h.val e)) := by
  induction chain with
  | nil => simp
  | cons entry rest ih =>
    rw [chainFind] at hf
    cases hc : t.keyCompare key (t.entryKey (h.val entry)) with
    | false => simp [hc] at hf
    | true =>
      simp only [hc,Bool.not_true,Bool.false_eq_true,if_false] at hf
      intro e he heq
      rcases List.mem_cons.mp he with rfl | he
      · rw [(hl.compare _ _).mpr heq] at hc
        exact Bool.noConfusion hc
      · exact ih hf e he heq

namespace Chains

theorem mem_head (hc : Chains size t h) (hk : EqBytes size key (t.entryKey (h.val e))) :
    e ∈ t.head (t.keyGenerate key hashBit) ↔ t.Has e := by
  constructor
  · exact fun he => ⟨_,he⟩
  · rintro ⟨i,hi⟩
    rw [hc.lawful.generate _ _ _ hk,hc.placed i e hi]
    exact hi

theorem lookup_iff (hc : Chains size t h) :
    hashLookup t h key = some e ↔ t.Has e ∧ EqBytes size key (t.entryKey (h.val e)) := by
  constructor
  · intro hf
    obtain ⟨hmem,hk⟩ := chainFind_some hc.lawful hf
    exact ⟨⟨_,hmem⟩,hk⟩
  · rintro ⟨hhas,hk⟩
    cases hf : hashLookup t h key with
    | none => exact absurd hk (chainFind_none hc.lawful hf e ((hc.mem_head hk).mpr hhas))
    | some e' =>
      obtain ⟨hmem,hk'⟩ := chainFind_some hc.lawful hf
      rw [hc.distinct e' e ⟨_,hmem⟩ hhas (hk'.symm.trans hk)]

theorem congr (hc : Chains size t h) (hv : ∀ e, t.Has e → h'.val e = h.val e) : Chains size t h' := by
  refine ⟨hc.lawful,?_,hc.nodup,?_⟩
  · intro i e he
    rw [hv e ⟨i,he⟩]
    exact hc.placed i e he
  · intro e e' he he'
    rw [hv e he,hv e' he']
    exact hc.distinct e e' he he'

theorem mem_setHead {k i : ℕ} {l : List ℕ} :
    e ∈ (t.setHead k l).head i ↔ (i = k ∧ e ∈ l) ∨ (i ≠ k ∧ e ∈ t.head i) := by
  by_cases hik : i = k
  · subst hik
    simp [HashTable.setHead]
  · simp [HashTable.setHead,hik]

theorem has_setHead {k : ℕ} {l : List ℕ} (hc : Chains size t h) :
    (t.setHead k l).Has e ↔
      e ∈ l ∨ (t.Has e ∧ t.keyGenerate (t.entryKey (h.val e)) hashBit ≠ k) := by
  constructor
  · rintro ⟨i,hi⟩
    rcases mem_setHead.mp hi with ⟨-,hl⟩ | ⟨hne,hi⟩
    · exact Or.inl hl
    · exact Or.inr ⟨⟨i,hi⟩,by rwa [hc.placed i e hi]⟩
  · rintro (hl | ⟨⟨i,hi⟩,hne⟩)
    · exact ⟨k,mem_setHead.mpr (Or.inl ⟨rfl,hl⟩)⟩
    · rw [hc.placed i e hi] at hne
      exact ⟨i,mem_setHead.mpr (Or.inr ⟨hne,hi⟩)⟩

theorem replace {k : ℕ} {l : List ℕ} (hc : Chains size t h)
    (hplaced : ∀ e ∈ l, t.keyGenerate (t.entryKey (h.val e)) hashBit = k) (hnodup : l.Nodup)
    (hdistinct : ∀ e e', (t.setHead k l).Has e → (t.setHead k l).Has e' →
      EqBytes size (t.entryKey (h.val e)) (t.entryKey (h.val e')) → e = e') :
    Chains size (t.setHead k l) h := by
  refine ⟨⟨hc.lawful.compare,hc.lawful.generate⟩,?_,?_,hdistinct⟩
  · intro i e he
    rcases mem_setHead.mp he with ⟨rfl,hl⟩ | ⟨-,hi⟩
    · exact hplaced e hl
    · exact hc.placed i e hi
  · intro i
    by_cases hik : i = k
    · subst hik
      simpa [HashTable.setHead] using hnodup
    · simpa [HashTable.setHead,hik] using hc.nodup i

theorem add_present (hf : hashLookup t h key = some e) : hashAdd t h key entryNew = (false,t) := by
  unfold hashLookup at hf
  simp [hashAdd,hf]

theorem add_absent (hc : Chains size t h) (hf : hashLookup t h key = none)
    (hkey : EqBytes size key (t.entryKey (h.val entryNew))) :
    ∃ head, hashAdd t h key entryNew = (true,{ t with head }) ∧ Chains size { t with head } h ∧
      ∀ e, HashTable.Has { t with head } e ↔ e = entryNew ∨ t.Has e := by
  have hno : ∀ e, t.Has e → ¬ EqBytes size key (t.entryKey (h.val e)) := by
    intro e he hk
    rw [hc.lookup_iff.mpr ⟨he,hk⟩] at hf
    simp at hf
  have hhas : ∀ e, (t.setHead (t.keyGenerate key hashBit)
      (entryNew::t.head (t.keyGenerate key hashBit))).Has e ↔ e = entryNew ∨ t.Has e := by
    intro e
    rw [hc.has_setHead,List.mem_cons,or_assoc]
    apply or_congr_right
    constructor
    · rintro (hm | ⟨he,-⟩)
      · exact ⟨_,hm⟩
      · exact he
    · rintro ⟨i,hi⟩
      by_cases hik : i = t.keyGenerate key hashBit
      · exact Or.inl (hik ▸ hi)
      · exact Or.inr ⟨⟨i,hi⟩,by rwa [hc.placed i e hi]⟩
  refine ⟨_,?_,hc.replace ?_ ?_ ?_,hhas⟩
  · unfold hashLookup at hf
    simp only [hashAdd,hf]
    rfl
  · intro e he
    rcases List.mem_cons.mp he with rfl | he
    · exact (hc.lawful.generate _ _ _ hkey).symm
    · exact hc.placed _ e he
  · exact List.nodup_cons.mpr ⟨fun hm => hno entryNew ⟨_,hm⟩ hkey,hc.nodup _⟩
  · intro e e' he he' hk
    rcases (hhas e).mp he with rfl | hold <;> rcases (hhas e').mp he' with rfl | hold'
    · rfl
    · exact absurd (hkey.trans hk) (hno e' hold')
    · exact absurd (hkey.trans hk.symm) (hno e hold)
    · exact hc.distinct e e' hold hold' hk

theorem delete_absent (hf : hashLookup t h key = none) : hashDelete t h key = (false,t,h) := by
  unfold hashLookup at hf
  simp [hashDelete,hf]

theorem drop {i : ℕ} (hc : Chains size t h) (he : e ∈ t.head i) :
    Chains size (t.setHead i ((t.head i).erase e)) h ∧
      ∀ e', (t.setHead i ((t.head i).erase e)).Has e' ↔ t.Has e' ∧ e' ≠ e := by
  have hhas : ∀ e', (t.setHead i ((t.head i).erase e)).Has e' ↔ t.Has e' ∧ e' ≠ e := by
    intro e'
    rw [hc.has_setHead,(hc.nodup _).mem_erase_iff]
    constructor
    · rintro (⟨hne,hm⟩ | ⟨he',hg⟩)
      · exact ⟨⟨_,hm⟩,hne⟩
      · refine ⟨he',?_⟩
        rintro rfl
        exact hg (hc.placed _ _ he)
    · rintro ⟨⟨k,hk⟩,hne⟩
      by_cases hki : k = i
      · exact Or.inl ⟨hne,hki ▸ hk⟩
      · exact Or.inr ⟨⟨k,hk⟩,by rwa [hc.placed k e' hk]⟩
  refine ⟨hc.replace ?_ ((hc.nodup _).erase e) ?_,hhas⟩
  · intro e' he'
    exact hc.placed _ e' (List.mem_of_mem_erase he')
  · intro e₁ e₂ h1 h2
    exact hc.distinct e₁ e₂ ((hhas e₁).mp h1).1 ((hhas e₂).mp h2).1

theorem delete_present (hc : Chains size t h) (hf : hashLookup t h key = some e) :
    ∃ i, e ∈ t.head i ∧ hashDelete t h key = (true,hashDrop t h i e) := by
  obtain ⟨he,hk⟩ := hc.lookup_iff.mp hf
  refine ⟨_,(hc.mem_head hk).mpr he,?_⟩
  unfold hashLookup at hf
  simp only [hashDelete,hf]
  rfl

end Chains

section DeleteAll
variable {i x : ℕ} {l : List ℕ}

theorem hashDeleteChain_nil (hl : t.head i = []) : hashDeleteChain (t,h) i = (t,h) := by
  simp [hashDeleteChain,hl]

theorem hashDeleteChain_cons (hl : t.head i = x::l) :
    hashDeleteChain (t,h) i = hashDeleteChain (hashDrop t h i x) i := by
  have hrest : (hashDrop t h i x).1.head i = l := by simp [hashDrop,HashTable.setHead,hl]
  rw [hashDeleteChain,hashDeleteChain,hl,hrest,List.foldl_cons]

variable {P : HashTable α → Heap α → Prop}

theorem hashDeleteChain_induct
    (hstep : ∀ t h i e, P t h → e ∈ t.head i → P (hashDrop t h i e).1 (hashDrop t h i e).2) (hP : P t h) :
    P (hashDeleteChain (t,h) i).1 (hashDeleteChain (t,h) i).2 ∧
      (hashDeleteChain (t,h) i).1.head = Function.update t.head i [] := by
  induction hl : t.head i generalizing t h with
  | nil =>
    rw [hashDeleteChain_nil hl,← hl,Function.update_eq_self]
    exact ⟨hP,rfl⟩
  | cons x l ih =>
    rw [hashDeleteChain_cons hl]
    have hrest : (hashDrop t h i x).1.head = Function.update t.head i l := by
      simp [hashDrop,HashTable.setHead,hl]
    obtain ⟨h1,h2⟩ := ih (hstep t h i x hP (by simp [hl])) (by rw [hrest,Function.update_self])
    rw [hrest,Function.update_idem] at h2
    exact ⟨h1,h2⟩

/-- What dropping an entry preserves holds behind `hash_delete_all`, which empties every chain. -/
theorem hashDeleteAll_induct
    (hstep : ∀ t h i e, P t h → e ∈ t.head i → P (hashDrop t h i e).1 (hashDrop t h i e).2) (hP : P t h) :
    P (hashDeleteAll t h).1 (hashDeleteAll t h).2 ∧
      ∀ i < hashSize, (hashDeleteAll t h).1.head i = [] := by
  have hloop : ∀ is : List ℕ, P (is.foldl hashDeleteChain (t,h)).1 (is.foldl hashDeleteChain (t,h)).2 ∧
      ∀ i ∈ is, (is.foldl hashDeleteChain (t,h)).1.head i = [] := by
    intro is
    induction is using List.reverseRecOn with
    | nil => exact ⟨hP,by simp⟩
    | append_singleton is i ih =>
      rw [List.foldl_append,List.foldl_cons,List.foldl_nil]
      obtain ⟨h1,h2⟩ := hashDeleteChain_induct hstep ih.1 (i := i)
      refine ⟨h1,fun k hk => ?_⟩
      rw [h2]
      by_cases hki : k = i
      · rw [hki,Function.update_self]
      · rw [Function.update_of_ne hki]
        exact ih.2 k (by simpa [hki] using hk)
  obtain ⟨h1,h2⟩ := hloop (List.range hashSize)
  exact ⟨h1,fun i hi => h2 i (List.mem_range.mpr hi)⟩

end DeleteAll

end Hash
end Ixmap
