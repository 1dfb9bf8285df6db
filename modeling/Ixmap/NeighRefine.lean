import Ixmap.Neigh
import Ixmap.HashLinks

/-! The neighbour table of `neigh.c`, with its chains as the links between its entries, refines a map
from addresses to link-layer addresses, under every pattern of allocation failures. -/
namespace Ixmap
namespace Neighbour
open BlockHeap PrefixBits Hash FibTable HList

/-- `struct neigh_table` with the links of its entries. -/
structure NeighMem where
  block : ℕ
  table : HashMem NeighEntry
  desc : Heap NeighEntry

namespace NeighMem

/-- What the memory of the table holds before `hash_init` is arbitrary. -/
def neighAlloc (links : Links ℕ ℕ) (desc : Heap NeighEntry) (family : ℕ) : Option NeighMem :=
  match desc.alloc with
  | (none,_) => none
  | (some block,desc) => (neighCallbacks family).map fun t =>
    ⟨block,HashMem.hashInit ⟨links,t.entryKey,t.entryDelete,t.keyGenerate,t.keyCompare⟩,desc⟩

def neighAdd (neigh : NeighMem) (fuel family : ℕ) (dstAddr macAddr : Bytes) : Option (Bool × NeighMem) :=
  match neigh.desc.alloc with
  | (none,desc) => some (false,{ neigh with desc })
  | (some entry,desc) =>
    match addrSize family with
    | none => some (false,{ neigh with desc := desc.free entry })
    | some size =>
      let desc := desc.write entry
        ⟨macOf macAddr,memcpy (desc.val entry).dstAddr dstAddr size⟩
      (neigh.table.hashAdd fuel desc (desc.val entry).dstAddr entry).map fun
        | (true,table) => (true,{ neigh with table, desc })
        | (false,table) => (false,{ neigh with table, desc := desc.free entry })

def neighDelete (neigh : NeighMem) (fuel : ℕ) (dstAddr : Bytes) : Option (Bool × NeighMem) :=
  (neigh.table.hashDelete fuel neigh.desc dstAddr).map fun
    | (ret,table,desc) => (ret,{ neigh with table, desc })

def neighLookup (neigh : NeighMem) (fuel : ℕ) (dstAddr : Bytes) : Option (Option ℕ) :=
  neigh.table.hashLookup fuel neigh.desc dstAddr

def view (neigh : NeighMem) (head : ℕ → List ℕ) : NeighTable :=
  ⟨neigh.block,neigh.table.table head,neigh.desc⟩

end NeighMem

/-- A call on the table. -/
inductive NeighOp where
  | add (dstAddr macAddr : Bytes)
  | delete (dstAddr : Bytes)
  | lookup (dstAddr : Bytes)
  | deleteAll

/-- What a call returns. A lookup returns an entry, of which its users read the address. -/
inductive NeighRet where
  | ret (ok : Bool)
  | mac (found : Option Mac)
  | done
deriving DecidableEq

def NeighOp.step (fuel family : ℕ) (neigh : NeighMem) : NeighOp → Option (NeighRet × NeighMem)
  | .add dstAddr macAddr =>
    (neigh.neighAdd fuel family dstAddr macAddr).map fun r => (.ret r.1,r.2)
  | .delete dstAddr => (neigh.neighDelete fuel dstAddr).map fun r => (.ret r.1,r.2)
  | .lookup dstAddr => (neigh.neighLookup fuel dstAddr).map fun entry =>
    (.mac (entry.map fun e => (neigh.desc.val e).dstMac),neigh)
  | .deleteAll => (neigh.table.hashDeleteAll fuel neigh.desc).map fun r =>
    (.done,{ neigh with table := r.1, desc := r.2 })

def neighRun (fuel family : ℕ) (neigh : NeighMem) : List NeighOp → Option (List NeighRet × NeighMem)
  | [] => some ([],neigh)
  | op::ops =>
    match op.step fuel family neigh with
    | none => none
    | some (r,neigh) => (neighRun fuel family neigh ops).map fun s => (r::s.1,s.2)

def keyOf (size : ℕ) (a : Bytes) : Fin size → UInt8 := fun i => a i

/-- The abstract table, with the number of blocks requested so far. -/
structure AbsNeigh (size : ℕ) where
  calls : ℕ
  map : (Fin size → UInt8) → Option Mac

/-- A call on the abstract table, given the outcome of each request. -/
def AbsNeigh.step {size : ℕ} (ok : ℕ → Bool) (s : AbsNeigh size) : NeighOp → NeighRet × AbsNeigh size
  | .add dstAddr macAddr =>
    if ok s.calls = true ∧ s.map (keyOf size dstAddr) = none then
      (.ret true,⟨s.calls+1,Function.update s.map (keyOf size dstAddr) (some (macOf macAddr))⟩)
    else (.ret false,⟨s.calls+1,s.map⟩)
  | .delete dstAddr =>
    (.ret (s.map (keyOf size dstAddr)).isSome,⟨s.calls,Function.update s.map (keyOf size dstAddr) none⟩)
  | .lookup dstAddr => (.mac (s.map (keyOf size dstAddr)),s)
  | .deleteAll => (.done,⟨s.calls,fun _ => none⟩)

def absRun {size : ℕ} (ok : ℕ → Bool) (s : AbsNeigh size) : List NeighOp → List NeighRet × AbsNeigh size
  | [] => ([],s)
  | op::ops =>
    let (r,s) := s.step ok op
    let (rs,s) := absRun ok s ops
    (r::rs,s)

variable {size family fuel : ℕ} {neigh : NeighTable} {addr a b macAddr : Bytes}

theorem keyOf_inj : keyOf size a = keyOf size b ↔ EqBytes size a b := by
  constructor
  · intro h k hk
    exact congrFun h ⟨k,hk⟩
  · intro h
    funext i
    exact h i i.isLt

theorem update_keyOf (map : (Fin size → UInt8) → Option Mac) (v : Option Mac) (a b : Bytes) :
    Function.update map (keyOf size b) v (keyOf size a) =
      if EqBytes size a b then v else map (keyOf size a) := by
  simp only [Function.update_apply,keyOf_inj]

theorem callbacks_bound {table : HashTable NeighEntry} (ht : neighCallbacks family = some table)
    (key : Bytes) : table.keyGenerate key hashBit < hashSize := by
  unfold neighCallbacks at ht
  split at ht
  · rw [← Option.some.inj ht]
    simp only [neighKeyGenerateV4,Nat.shiftRight_eq_div_pow,hashBit,hashSize]
    omega
  · split at ht
    · rw [← Option.some.inj ht]
      simp only [neighKeyGenerateV6,Nat.shiftRight_eq_div_pow,hashBit,hashSize]
      omega
    · simp at ht

/-- The blocks of a table: its own and its entries'. -/
def owned (neigh : NeighTable) : Set ℕ := insert neigh.block { e | neigh.table.Has e }

/-- The live blocks are those of the table. -/
structure NeighBooks (neigh : NeighTable) : Prop where
  block : ¬ neigh.table.Has neigh.block
  keeps : neigh.desc.Keeps (owned neigh)

namespace NeighBooks

theorem add (hb : NeighBooks neigh) (hI : NeighInv size neigh) (hsize : addrSize family = some size)
    (addr macAddr : Bytes) : NeighBooks (neighAdd neigh family addr macAddr).2 ∧
      ((neighAdd neigh family addr macAddr).1 = false →
        ∀ b, (neighAdd neigh family addr macAddr).2.desc.live b = neigh.desc.live b) := by
  have hout := hI.add_outcome hsize addr macAddr
  generalize neighAdd neigh family addr macAddr = r at hout ⊢
  have hnew : neigh.desc.calls ∉ owned neigh := fun hc => (hb.keeps.fresh _ hc).false
  have hwritten (hok : neigh.desc.ok neigh.desc.calls = true) :
      (written neigh size addr macAddr).Keeps (insert neigh.desc.calls (owned neigh)) :=
    (hb.keeps.alloc_some hok).write _
  cases hout with
  | failed hok =>
    refine ⟨⟨hb.block,hb.keeps.alloc_none hok⟩,fun _ b => ?_⟩
    simp [Heap.alloc,hok]
  | bound hok hbound =>
    have hk := (hwritten hok).free (Set.mem_insert _ _)
    rw [Set.insert_sdiff_self_of_notMem hnew] at hk
    exact ⟨⟨hb.block,hk⟩,fun _ b => Bool.eq_iff_iff.mpr ((hk.live b).trans (hb.keeps.live b).symm)⟩
  | linked head hok hunbound hI' hhas =>
    refine ⟨⟨?_,?_⟩,by simp⟩
    · intro hc
      rcases (hhas _).mp hc with he | he
      · exact hnew (Or.inl he.symm)
      · exact hb.block he
    · refine (hwritten hok).congr fun b => ?_
      simp only [owned,Set.mem_insert_iff,Set.mem_ofPred_eq,hhas]
      tauto

theorem drop {i e : ℕ} (hb : NeighBooks neigh) (hI : NeighInv size neigh) (he : e ∈ neigh.table.head i) :
    NeighBooks (dropped neigh i e) := by
  obtain ⟨-,hhas⟩ := hI.drop he
  have hmem : neigh.table.Has e := ⟨i,he⟩
  refine ⟨fun hc => hb.block ((hhas _).mp hc).1,?_⟩
  rw [hI.dropped_desc i e]
  refine (hb.keeps.free (Or.inr hmem)).congr fun b => ?_
  have hne : e ≠ neigh.block := fun hc => hb.block (hc ▸ hmem)
  simp only [owned,Set.mem_sdiff,Set.mem_insert_iff,Set.mem_ofPred_eq,Set.mem_singleton_iff,hhas]
  constructor
  · rintro ⟨hb | hb,hbe⟩
    · exact Or.inl hb
    · exact Or.inr ⟨hb,hbe⟩
  · rintro (hb | ⟨hb,hbe⟩)
    · exact ⟨Or.inl hb,fun hc => hne (hc ▸ hb)⟩
    · exact ⟨Or.inr hb,hbe⟩

end NeighBooks

theorem neighAdd_calls (hsize : addrSize family = some size) (addr macAddr : Bytes) :
    (neighAdd neigh family addr macAddr).2.desc.calls = neigh.desc.calls+1 := by
  cases hok : neigh.desc.ok neigh.desc.calls with
  | false => rw [neighAdd_failed hok,Heap.alloc_calls]
  | true =>
    rw [neighAdd_written hok hsize]
    split <;> simp [written]

/-- What the loops of `hash_delete_all` preserve. -/
structure Emptying (size : ℕ) (neigh : NeighTable) (table : HashTable NeighEntry) (desc : Heap NeighEntry) :
    Prop where
  inv : NeighInv size { neigh with table, desc }
  books : NeighBooks { neigh with table, desc }
  ok : desc.ok = neigh.desc.ok
  calls : desc.calls = neigh.desc.calls
  generate : table.keyGenerate = neigh.table.keyGenerate

theorem Emptying.drop {table : HashTable NeighEntry} {desc : Heap NeighEntry} (i e : ℕ)
    (hE : Emptying size neigh table desc) (he : e ∈ table.head i) :
    Emptying size neigh (hashDrop table desc i e).1 (hashDrop table desc i e).2 := by
  have hdesc : (hashDrop table desc i e).2 = desc.free e := hE.inv.dropped_desc i e
  exact ⟨(hE.inv.drop he).1,hE.books.drop hE.inv he,by rw [hdesc]; exact hE.ok,
    by rw [hdesc]; exact hE.calls,hE.generate⟩

theorem NeighBooks.deleteAll {table : HashTable NeighEntry} {desc : Heap NeighEntry}
    (hb : NeighBooks neigh) (hI : NeighInv size neigh)
    (hbound : ∀ key, neigh.table.keyGenerate key hashBit < hashSize)
    (hr : hashDeleteAll neigh.table neigh.desc = (table,desc)) :
    Emptying size neigh table desc ∧ ∀ a, neighMac { neigh with table, desc } a = none := by
  have hall := hashDeleteAll_induct (fun _ _ i e hE he => Emptying.drop i e hE he)
    (⟨hI,hb,rfl,rfl,rfl⟩ : Emptying size neigh neigh.table neigh.desc)
  rw [hr] at hall
  obtain ⟨hE,hempty⟩ := hall
  refine ⟨hE,fun a => ?_⟩
  apply Option.eq_none_iff_forall_ne_some.mpr
  intro mac hm
  obtain ⟨e,⟨i,hi⟩,-⟩ := hE.inv.mac_iff.mp hm
  have hlt : i < hashSize := by
    rw [← hE.inv.chains.placed i e hi]
    exact hE.generate ▸ hbound _
  rw [hempty i hlt] at hi
  simp at hi

section Memory
variable {p : NeighMem} {head : ℕ → List ℕ} (hm : p.table.Shows head)
  (hbound : ∀ key, p.table.keyGenerate key hashBit < hashSize)
  (hfuel : ∀ i, (head i).length ≤ fuel)
include hm hbound hfuel

theorem neighAdd_sim (hsize : addrSize family = some size) (hold : ∀ i, ∀ e ∈ head i, e < p.desc.calls)
    (addr macAddr : Bytes) :
    ∃ p' head', p.neighAdd fuel family addr macAddr =
        some ((neighAdd (p.view head) family addr macAddr).1,p') ∧
      (neighAdd (p.view head) family addr macAddr).2 = p'.view head' ∧ p'.table.Shows head' ∧
      p'.table.keyGenerate = p.table.keyGenerate ∧
      ((neighAdd (p.view head) family addr macAddr).1 = false → p'.table = p.table) := by
  cases hok : p.desc.ok p.desc.calls with
  | false =>
    have ha : p.desc.alloc = (none,p.desc.alloc.2) := Prod.ext (Heap.alloc_none hok) rfl
    rw [neighAdd_failed (show (p.view head).desc.ok (p.view head).desc.calls = false from hok),
      NeighMem.neighAdd,ha]
    exact ⟨_,head,rfl,rfl,hm,rfl,fun _ => rfl⟩
  | true =>
    have ha : p.desc.alloc = (some p.desc.calls,p.desc.alloc.2) := Prod.ext (Heap.alloc_some hok) rfl
    set desc := written (p.view head) size addr macAddr with hdesc
    obtain ⟨links,head',h1,h2,h3,h4⟩ := HashMem.hashAdd_sim (h := desc) hm
      (hbound (desc.val p.desc.calls).dstAddr) hfuel fun i hi => (hold i _ hi).false
    have hadd : ∀ ret table, p.table.hashAdd fuel desc (desc.val p.desc.calls).dstAddr p.desc.calls =
        some (ret,table) → p.neighAdd fuel family addr macAddr =
          some (ret,{ p with table, desc := if ret then desc else desc.free p.desc.calls }) := by
      intro ret table ht
      rw [NeighMem.neighAdd,ha]
      simp only [hsize]
      change (p.table.hashAdd fuel desc (desc.val p.desc.calls).dstAddr p.desc.calls).map _ = _
      rw [ht]
      cases ret <;> rfl
    rcases hr : hashAdd (p.table.table head) desc (desc.val p.desc.calls).dstAddr p.desc.calls with ⟨ret,table⟩
    have hview := neighAdd_of_hashAdd (show (p.view head).desc.ok (p.view head).desc.calls = true from hok) hsize hr
    rw [hr] at h1 h2 h4
    simp only at h2
    subst h2
    rw [hadd _ _ h1,hview]
    exact ⟨_,head',rfl,rfl,h3,rfl,fun hret => by rw [h4 hret]⟩

theorem neighDelete_sim (addr : Bytes) :
    ∃ p' head', p.neighDelete fuel addr = some ((neighDelete (p.view head) addr).1,p') ∧
      (neighDelete (p.view head) addr).2 = p'.view head' ∧ p'.table.Shows head' ∧
      p'.table.keyGenerate = p.table.keyGenerate := by
  obtain ⟨links,head',h1,h2,h3⟩ := HashMem.hashDelete_sim (h := p.desc) hm (hbound addr) hfuel
  rw [NeighMem.neighDelete,h1,neighDelete]
  rcases hr : hashDelete (p.view head).table (p.view head).desc addr with ⟨ret,table,desc⟩
  change hashDelete (p.table.table head) p.desc addr = _ at hr
  rw [hr] at h2 ⊢
  simp only at h2
  subst h2
  exact ⟨_,head',rfl,rfl,h3,rfl⟩

end Memory

/-- The memory shows a table that binds what the abstract table binds. -/
structure Rep (size : ℕ) (ok : ℕ → Bool) (p : NeighMem) (s : AbsNeigh size) (head : ℕ → List ℕ) : Prop where
  links : p.table.Shows head
  inv : NeighInv size (p.view head)
  books : NeighBooks (p.view head)
  bound : ∀ key, p.table.keyGenerate key hashBit < hashSize
  map : ∀ a, neighMac (p.view head) a = s.map (keyOf size a)
  ok : p.desc.ok = ok
  calls : p.desc.calls = s.calls

namespace Rep
variable {ok : ℕ → Bool} {p : NeighMem} {s : AbsNeigh size} {head : ℕ → List ℕ}

theorem length_le (h : Rep size ok p s head) (i : ℕ) : (head i).length ≤ s.calls := by
  have hsub : head i ⊆ List.range p.desc.calls :=
    fun e he => List.mem_range.mpr (h.inv.old e ⟨i,he⟩)
  have hle := (List.subperm_of_subset (h.inv.chains.nodup i) hsub).length_le
  rwa [List.length_range,h.calls] at hle

theorem lookup (h : Rep size ok p s head) (hfuel : s.calls ≤ fuel) (a : Bytes) :
    p.neighLookup fuel a = some (neighLookup (p.view head) a) :=
  HashMem.hashLookup_sim h.links (h.bound a) fun i => (h.length_le i).trans hfuel

theorem lookup_isSome (h : Rep size ok p s head) (a : Bytes) :
    (neighLookup (p.view head) a).isSome = (s.map (keyOf size a)).isSome := by
  rw [← h.map,neighMac,Option.isSome_map]

theorem add (h : Rep size ok p s head) (hsize : addrSize family = some size) (hfuel : s.calls ≤ fuel)
    (addr macAddr : Bytes) : ∃ p' head', (NeighOp.add addr macAddr).step fuel family p =
        some ((s.step ok (.add addr macAddr)).1,p') ∧ Rep size ok p' (s.step ok (.add addr macAddr)).2 head' := by
  obtain ⟨p',head',h1,h2,h3,h4,-⟩ := neighAdd_sim h.links h.bound
    (fun i => (h.length_le i).trans hfuel) hsize (fun i e he => h.inv.old e ⟨i,he⟩) addr macAddr
  obtain ⟨hI,hret,hmac⟩ := h.inv.add hsize addr macAddr
  have hbooks := (h.books.add h.inv hsize addr macAddr).1
  have hoks : (neighAdd (p.view head) family addr macAddr).2.desc.ok = p.desc.ok :=
    neighAdd_ok hsize addr macAddr
  have hcalls : (neighAdd (p.view head) family addr macAddr).2.desc.calls = p.desc.calls+1 :=
    neighAdd_calls hsize addr macAddr
  have hcond : (p.view head).desc.ok (p.view head).desc.calls = true ∧ neighMac (p.view head) addr = none ↔
      ok s.calls = true ∧ s.map (keyOf size addr) = none := by
    rw [h.map]
    change p.desc.ok p.desc.calls = true ∧ _ ↔ _
    rw [h.ok,h.calls]
  rw [hcond] at hret
  rw [h2] at hI hmac hbooks hoks hcalls
  rw [NeighOp.step,h1,AbsNeigh.step]
  by_cases hc : ok s.calls = true ∧ s.map (keyOf size addr) = none
  · have hval := hret.mpr hc
    rw [if_pos hc,hval]
    refine ⟨p',head',rfl,⟨h3,hI,hbooks,h4 ▸ h.bound,fun a => ?_,hoks.trans h.ok,hcalls.trans (by rw [h.calls])⟩⟩
    rw [hmac a,hval,h.map]
    simp [update_keyOf]
  · have hval := Bool.eq_false_iff.mpr fun hv => hc (hret.mp hv)
    rw [if_neg hc,hval]
    refine ⟨p',head',rfl,⟨h3,hI,hbooks,h4 ▸ h.bound,fun a => ?_,hoks.trans h.ok,hcalls.trans (by rw [h.calls])⟩⟩
    rw [hmac a,hval,h.map]
    simp

theorem delete (h : Rep size ok p s head) (hfuel : s.calls ≤ fuel) (addr : Bytes) :
    ∃ p' head', (NeighOp.delete addr).step fuel family p = some ((s.step ok (.delete addr)).1,p') ∧
      Rep size ok p' (s.step ok (.delete addr)).2 head' := by
  obtain ⟨p',head',h1,h2,h3,h4⟩ := neighDelete_sim h.links h.bound
    (fun i => (h.length_le i).trans hfuel) addr
  obtain ⟨hI,hmac⟩ := h.inv.remove addr
  have hmap : ∀ a, neighMac (neighDelete (p.view head) addr).2 a =
      Function.update s.map (keyOf size addr) none (keyOf size a) := by
    intro a
    rw [hmac a,update_keyOf,h.map]
  have hsome := h.lookup_isSome addr
  rw [NeighOp.step,h1,AbsNeigh.step,← hsome]
  cases hf : neighLookup (p.view head) addr with
  | none =>
    rw [neighDelete_absent hf] at h2 hmap ⊢
    simp only at h2 hmap
    rw [h2] at hmap
    have hdesc : p'.desc = p.desc := (congrArg NeighTable.desc h2).symm
    refine ⟨p',head',rfl,⟨h3,h2 ▸ h.inv,h2 ▸ h.books,h4 ▸ h.bound,hmap,?_,?_⟩⟩
    · rw [hdesc,h.ok]
    · rw [hdesc,h.calls]
  | some e =>
    obtain ⟨i,hi,hdel⟩ := h.inv.delete_present hf
    have hbooks := h.books.drop h.inv hi
    rw [hdel] at h2 hmap hI ⊢
    simp only at h2 hmap hI
    have hdesc : p'.desc = p.desc.free e :=
      (congrArg NeighTable.desc h2).symm.trans (h.inv.dropped_desc i e)
    rw [h2] at hmap hI hbooks
    refine ⟨p',head',rfl,⟨h3,hI,hbooks,h4 ▸ h.bound,hmap,?_,?_⟩⟩
    · rw [hdesc,Heap.free_ok,h.ok]
    · rw [hdesc,Heap.free_calls,h.calls]

theorem deleteAll (h : Rep size ok p s head) (hfuel : s.calls ≤ fuel) :
    ∃ p' head', NeighOp.deleteAll.step fuel family p = some ((s.step ok .deleteAll).1,p') ∧
      Rep size ok p' (s.step ok .deleteAll).2 head' := by
  obtain ⟨links,head',h1,h2,h3⟩ := HashMem.hashDeleteAll_sim (h := p.desc) h.links
    fun i => (h.length_le i).trans hfuel
  rcases hr : hashDeleteAll (p.table.table head) p.desc with ⟨table,desc⟩
  rw [hr] at h1 h2
  simp only at h1 h2
  subst h2
  obtain ⟨hE,hnone⟩ := h.books.deleteAll h.inv h.bound hr
  rw [NeighOp.step,h1,AbsNeigh.step]
  exact ⟨_,head',rfl,⟨h3,hE.inv,hE.books,h.bound,hnone,hE.ok.trans h.ok,hE.calls.trans h.calls⟩⟩

theorem live_iff (h : Rep size ok p s head) (hfuel : s.calls ≤ fuel) (e : ℕ) :
    p.desc.live e = true ↔ e = p.block ∨ ∃ a, p.neighLookup fuel a = some (some e) := by
  have hhas : (p.view head).table.Has e ↔ ∃ a, p.neighLookup fuel a = some (some e) := by
    simp only [h.lookup hfuel,Option.some_inj]
    constructor
    · exact fun he => ⟨_,h.inv.chains.lookup_iff.mpr ⟨he,EqBytes.refl _ _⟩⟩
    · rintro ⟨a,ha⟩
      exact (h.inv.chains.lookup_iff.mp ha).1
  exact (h.books.keeps.live e).trans (or_congr_right hhas)

/-- An addition that fails gives its entry back and leaves the links alone. -/
theorem add_failed {p' : NeighMem} (h : Rep size ok p s head) (hsize : addrSize family = some size)
    (hfuel : s.calls ≤ fuel) (hadd : p.neighAdd fuel family addr macAddr = some (false,p')) :
    p'.table = p.table ∧ ∀ e, p'.desc.live e = p.desc.live e := by
  obtain ⟨p'',head',h1,h2,-,-,h5⟩ := neighAdd_sim h.links h.bound
    (fun i => (h.length_le i).trans hfuel) hsize (fun i e he => h.inv.old e ⟨i,he⟩) addr macAddr
  obtain ⟨hret,rfl⟩ := Prod.mk.inj (Option.some.inj (hadd.symm.trans h1))
  have hlive := (h.books.add h.inv hsize addr macAddr).2 hret.symm
  rw [h2] at hlive
  exact ⟨h5 hret.symm,hlive⟩

theorem delete_found {p' : NeighMem} (h : Rep size ok p s head) (hfuel : s.calls ≤ fuel)
    (hdel : p.neighDelete fuel addr = some (true,p')) :
    ∃ e, p.neighLookup fuel addr = some (some e) ∧ p'.desc = p.desc.free e := by
  obtain ⟨p'',head',h1,h2,-⟩ := neighDelete_sim h.links h.bound
    (fun i => (h.length_le i).trans hfuel) addr
  obtain ⟨hret,rfl⟩ := Prod.mk.inj (Option.some.inj (hdel.symm.trans h1))
  rw [h.lookup hfuel]
  cases hf : neighLookup (p.view head) addr with
  | none =>
    rw [neighDelete_absent hf] at hret
    simp at hret
  | some e =>
    obtain ⟨i,-,hdropped⟩ := h.inv.delete_present hf
    rw [hdropped] at h2
    exact ⟨e,rfl,(congrArg NeighTable.desc h2).symm.trans (h.inv.dropped_desc i e)⟩

/-- A call on the memory returns what the abstract call returns. -/
theorem step (h : Rep size ok p s head) (hsize : addrSize family = some size) (hfuel : s.calls ≤ fuel)
    (op : NeighOp) : ∃ p' head', op.step fuel family p = some ((s.step ok op).1,p') ∧
      Rep size ok p' (s.step ok op).2 head' := by
  cases op with
  | add dstAddr macAddr => exact h.add hsize hfuel dstAddr macAddr
  | delete dstAddr => exact h.delete hfuel dstAddr
  | lookup dstAddr =>
    refine ⟨p,head,?_,h⟩
    rw [NeighOp.step,h.lookup hfuel,AbsNeigh.step,← h.map]
    rfl
  | deleteAll => exact h.deleteAll hfuel

end Rep

theorem AbsNeigh.step_calls (ok : ℕ → Bool) (s : AbsNeigh size) (op : NeighOp) :
    (s.step ok op).2.calls ≤ s.calls+1 := by
  cases op with
  | add dstAddr macAddr =>
    rw [AbsNeigh.step]
    split <;> rfl
  | delete dstAddr => exact Nat.le_succ _
  | lookup dstAddr => exact Nat.le_succ _
  | deleteAll => exact Nat.le_succ _

theorem Rep.run {ok : ℕ → Bool} {p : NeighMem} {s : AbsNeigh size} {head : ℕ → List ℕ}
    (h : Rep size ok p s head) (hsize : addrSize family = some size) (ops : List NeighOp)
    (hfuel : s.calls+ops.length ≤ fuel) :
    ∃ p' head', neighRun fuel family p ops = some ((absRun ok s ops).1,p') ∧
      Rep size ok p' (absRun ok s ops).2 head' ∧ (absRun ok s ops).2.calls ≤ fuel := by
  induction ops generalizing p s head with
  | nil => exact ⟨p,head,rfl,h,hfuel⟩
  | cons op ops ih =>
    rw [List.length_cons] at hfuel
    have hcan : s.calls ≤ fuel := by omega
    obtain ⟨p₁,head₁,hstep,hrep⟩ := h.step hsize hcan op
    have hcalls := s.step_calls ok op
    obtain ⟨p',head',hrun,hrep',hle⟩ := ih hrep (by omega)
    refine ⟨p',head',?_,hrep',hle⟩
    rw [neighRun,hstep]
    simp only [hrun]
    rfl

theorem rep_alloc {links : Links ℕ ℕ} {ok : ℕ → Bool} {v : ℕ → NeighEntry} {p : NeighMem}
    (hsize : addrSize family = some size)
    (hp : NeighMem.neighAlloc links (Heap.init ok v) family = some p) :
    Rep size ok p ⟨1,fun _ => none⟩ fun _ => [] := by
  have hempty : (Heap.init ok v).Keeps ∅ := ⟨by simp [Heap.init],by simp,fun b _ => rfl⟩
  cases hok : ok 0 with
  | false =>
    have ha : (Heap.init ok v).alloc = (none,(Heap.init ok v).alloc.2) := Prod.ext (Heap.alloc_none hok) rfl
    rw [NeighMem.neighAlloc,ha] at hp
    simp at hp
  | true =>
    have ha : (Heap.init ok v).alloc = (some 0,(Heap.init ok v).alloc.2) := Prod.ext (Heap.alloc_some hok) rfl
    rw [NeighMem.neighAlloc,ha] at hp
    obtain ⟨t,ht,rfl⟩ := Option.map_eq_some_iff.mp hp
    have halloc : neighAlloc (Heap.init ok v) family = some ⟨0,hashInit t,(Heap.init ok v).alloc.2⟩ := by
      rw [neighAlloc,ha]
      simp [ht]
    obtain ⟨hI,hmac,hoks⟩ := neighAlloc_inv hsize halloc
    refine ⟨HashMem.hashInit_shows _,hI,⟨?_,?_⟩,callbacks_bound ht,hmac,hoks,Heap.alloc_calls _⟩
    · rintro ⟨i,hi⟩
      simp [NeighMem.view,HashMem.table] at hi
    · refine (hempty.alloc_some hok).congr fun b => ?_
      simp [owned,NeighMem.view,HashMem.table,HashTable.Has,Heap.init]

/-- The neighbour table refines a map: over every sequence of calls on a table of either family, under
every pattern of allocation failures and whatever its memory held before, the loops end, the calls
return what they return on the map, and lookups find what the map binds. The live blocks are the
table and its entries, and every block is given back at most once: a failed addition gives its entry
back and leaves the links alone, a deletion gives back the entry it found. -/
theorem neigh_refines {links : Links ℕ ℕ} {ok : ℕ → Bool} {v : ℕ → NeighEntry} {neigh : NeighMem}
    (hsize : addrSize family = some size)
    (halloc : NeighMem.neighAlloc links (Heap.init ok v) family = some neigh) (ops : List NeighOp)
    (hfuel : ops.length+1 ≤ fuel) :
    let abs := absRun ok (⟨1,fun _ => none⟩ : AbsNeigh size) ops
    ∃ st, neighRun fuel family neigh ops = some (abs.1,st) ∧
      (∀ key, st.table.keyGenerate key hashBit < hashSize) ∧
      (∀ a, ∃ e, st.neighLookup fuel a = some e ∧
        e.map (fun e => (st.desc.val e).dstMac) = abs.2.map (keyOf size a)) ∧
      (∀ e, st.desc.live e = true ↔ e = st.block ∨ ∃ a, st.neighLookup fuel a = some (some e)) ∧
      (∀ e, st.desc.frees e+(st.desc.live e).toNat = (st.desc.granted e).toNat) ∧
      (∀ a mac st', st.neighAdd fuel family a mac = some (false,st') →
        st'.table = st.table ∧ ∀ e, st'.desc.live e = st.desc.live e) ∧
      ∀ a st', st.neighDelete fuel a = some (true,st') →
        ∃ e, st.neighLookup fuel a = some (some e) ∧ st'.desc = st.desc.free e := by
  intro abs
  obtain ⟨st,head,hrun,h,hcalls⟩ := (rep_alloc hsize halloc).run hsize ops
    (show 1+ops.length ≤ fuel by omega)
  exact ⟨st,hrun,h.bound,fun a => ⟨_,h.lookup hcalls a,h.map a⟩,h.live_iff hcalls,
    fun e => h.books.keeps.ledger e trivial,fun _ _ _ => h.add_failed hsize hcalls,
    fun _ _ => h.delete_found hcalls⟩

/-- An address with the chain of 0.0.0.0. -/
def sameChain : Bytes := fun i => [1,0,201,97].getD i 0

/-- Calls on two addresses of one chain, of which the fifth request for a block fails. -/
def sameChainOps : List NeighOp :=
  [.add (fun _ => 0) (fun _ => 1),.add sameChain (fun _ => 2),.add (fun _ => 0) (fun _ => 3),
    .delete (fun _ => 0),.lookup sameChain,.lookup (fun _ => 0),.add (fun _ => 0) (fun _ => 4),
    .deleteAll,.lookup sameChain]

theorem neigh_refines_sameChain :
    neighKeyGenerateV4 sameChain hashBit = neighKeyGenerateV4 (fun _ => 0) hashBit ∧
    ∃ neigh st, NeighMem.neighAlloc ⟨fun _ => some 7,fun _ => none⟩
        (Heap.init (fun k => k != 4) fun _ => default) afInet = some neigh ∧
      neighRun 10 afInet neigh sameChainOps = some ([.ret true,.ret true,.ret false,.ret true,
        .mac (some fun _ => 2),.mac none,.ret false,.done,.mac none],st) := by
  have halloc : ∃ neigh, NeighMem.neighAlloc ⟨fun _ => some 7,fun _ => none⟩
      (Heap.init (fun k => k != 4) fun _ => default) afInet = some neigh := ⟨_,rfl⟩
  obtain ⟨neigh,hneigh⟩ := halloc
  have houts : (absRun (fun k => k != 4) (⟨1,fun _ => none⟩ : AbsNeigh 4) sameChainOps).1 =
      [.ret true,.ret true,.ret false,.ret true,.mac (some fun _ => 2),.mac none,.ret false,.done,
        .mac none] := by
    decide
  obtain ⟨st,hrun,-⟩ := neigh_refines (rfl : addrSize afInet = some 4) hneigh sameChainOps
    (show 9+1 ≤ 10 by decide)
  rw [houts] at hrun
  exact ⟨by decide,neigh,st,hneigh,hrun⟩

end Neighbour
end Ixmap
