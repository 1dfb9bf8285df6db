import Ixmap.Fib
import Ixmap.Hash

/-! The neighbour tables of `neigh.c`: link-layer addresses keyed by 4-byte or 16-byte addresses.
Keys are read in the host's byte order, which is little-endian. -/
namespace Ixmap
namespace Neighbour
open BlockHeap PrefixBits Hash FibTable

abbrev Mac := Fin 6 → UInt8

def macOf (a : Bytes) : Mac := fun i => a i

def goldenRatioPrime32 : ℕ := 0x9e370001
def goldenRatioPrime64 : ℕ := 0x9e37fffffffc0001

/-- `struct neigh_entry`, whose `hash.key` points to `dst_addr`. -/
structure NeighEntry where
  dstMac : Mac
  dstAddr : Bytes
deriving Inhabited

/-- `struct neigh_table`: its block, its table and the part of the memory pool that serves it. -/
structure NeighTable where
  block : ℕ
  table : HashTable NeighEntry
  desc : Heap NeighEntry

def neighEntryDelete (h : Heap NeighEntry) (entry : ℕ) : Heap NeighEntry := h.free entry

def neighKeyGenerateV4 (key : Bytes) (bitLen : ℕ) : ℕ :=
  let hash := littleEndian key 0 4 * goldenRatioPrime32 % 2^32
  hash >>> (32-bitLen)

def neighKeyGenerateV6 (key : Bytes) (bitLen : ℕ) : ℕ :=
  let hash := littleEndian key 0 8 * littleEndian key 8 8 % 2^64
  let hash := hash * goldenRatioPrime64 % 2^64
  hash >>> (64-bitLen)

def neighKeyCompareV4 (keyTgt keyEnt : Bytes) : Bool :=
  littleEndian keyTgt 0 4 ^^^ littleEndian keyEnt 0 4 != 0

def neighKeyCompareV6 (keyTgt keyEnt : Bytes) : Bool :=
  if littleEndian keyTgt 0 8 ^^^ littleEndian keyEnt 0 8 != 0 then true
  else littleEndian keyTgt 8 8 ^^^ littleEndian keyEnt 8 8 != 0

/-- The callbacks that `neigh_alloc` sets for a family. -/
def neighCallbacks (family : ℕ) : Option (HashTable NeighEntry) :=
  if family = afInet then
    some ⟨fun _ => [],NeighEntry.dstAddr,neighEntryDelete,neighKeyGenerateV4,neighKeyCompareV4⟩
  else if family = afInet6 then
    some ⟨fun _ => [],NeighEntry.dstAddr,neighEntryDelete,neighKeyGenerateV6,neighKeyCompareV6⟩
  else none

def neighAlloc (desc : Heap NeighEntry) (family : ℕ) : Option NeighTable :=
  match desc.alloc with
  | (none,_) => none
  | (some block,desc) => (neighCallbacks family).map fun table => ⟨block,hashInit table,desc⟩

def neighAdd (neigh : NeighTable) (family : ℕ) (dstAddr macAddr : Bytes) : Bool × NeighTable :=
  match neigh.desc.alloc with
  | (none,desc) => (false,{ neigh with desc })
  | (some entry,desc) =>
    match addrSize family with
    | none => (false,{ neigh with desc := desc.free entry })
    | some size =>
      let desc := desc.write entry
        ⟨macOf macAddr,memcpy (desc.val entry).dstAddr dstAddr size⟩
      match hashAdd neigh.table desc (desc.val entry).dstAddr entry with
      | (true,table) => (true,{ neigh with table, desc })
      | (false,table) => (false,{ neigh with table, desc := desc.free entry })

def neighDelete (neigh : NeighTable) (dstAddr : Bytes) : Bool × NeighTable :=
  match hashDelete neigh.table neigh.desc dstAddr with
  | (ret,table,desc) => (ret,{ neigh with table, desc })

def neighLookup (neigh : NeighTable) (dstAddr : Bytes) : Option ℕ :=
  hashLookup neigh.table neigh.desc dstAddr

def neighMac (neigh : NeighTable) (dstAddr : Bytes) : Option Mac :=
  (neighLookup neigh dstAddr).map fun entry => (neigh.desc.val entry).dstMac

theorem xor_ne_zero {a b : ℕ} : (a ^^^ b != 0) = false ↔ a = b := by
  rw [bne_eq_false_iff_eq]
  exact Nat.xor_eq_zero_iff

theorem compareV4_iff (a b : Bytes) : neighKeyCompareV4 a b = false ↔ EqBytes 4 a b := by
  rw [neighKeyCompareV4,xor_ne_zero,littleEndian_inj]
  simp only [zero_add]
  rfl

theorem eqBytes_halves {a b : Bytes} : EqBytes 16 a b ↔
    littleEndian a 0 8 = littleEndian b 0 8 ∧ littleEndian a 8 8 = littleEndian b 8 8 := by
  rw [littleEndian_inj,littleEndian_inj]
  constructor
  · intro h
    exact ⟨fun k hk => h _ (by omega),fun k hk => h _ (by omega)⟩
  · rintro ⟨h1,h2⟩ k hk
    by_cases hlt : k < 8
    · simpa using h1 k hlt
    · have := h2 (k-8) (by omega)
      rwa [show 8+(k-8) = k by omega] at this

theorem compareV6_iff (a b : Bytes) : neighKeyCompareV6 a b = false ↔ EqBytes 16 a b := by
  rw [eqBytes_halves,neighKeyCompareV6]
  split
  · rename_i hne
    refine iff_of_false (by simp) ?_
    rintro ⟨heq,-⟩
    rw [xor_ne_zero.mpr heq] at hne
    exact Bool.noConfusion hne
  · rename_i heq
    rw [Bool.not_eq_true,xor_ne_zero] at heq
    rw [xor_ne_zero]
    exact ⟨fun h => ⟨heq,h⟩,fun h => h.2⟩

theorem callbacks_lawful {family size : ℕ} {table : HashTable NeighEntry}
    (hsize : addrSize family = some size) (ht : neighCallbacks family = some table) :
    Lawful size table := by
  unfold addrSize at hsize
  unfold neighCallbacks at ht
  split at hsize
  · rename_i hf
    rw [if_pos hf,Option.some_inj] at ht
    rw [Option.some_inj] at hsize
    subst ht hsize
    refine ⟨compareV4_iff,fun a b bits h => ?_⟩
    have heq : littleEndian a 0 4 = littleEndian b 0 4 :=
      littleEndian_inj.mpr fun k hk => by simpa using h k hk
    simp only [neighKeyGenerateV4,heq]
  · rename_i hf
    split at hsize
    · rename_i hf6
      rw [if_neg hf,if_pos hf6,Option.some_inj] at ht
      rw [Option.some_inj] at hsize
      subst ht hsize
      refine ⟨compareV6_iff,fun a b bits h => ?_⟩
      simp only [neighKeyGenerateV6,(eqBytes_halves.mp h).1,(eqBytes_halves.mp h).2]
    · simp at hsize

/-- A neighbour table with keys of `size` bytes. -/
structure NeighInv (size : ℕ) (neigh : NeighTable) : Prop where
  chains : Chains size neigh.table neigh.desc
  key : neigh.table.entryKey = NeighEntry.dstAddr
  delete : neigh.table.entryDelete = neighEntryDelete
  /-- Entries are blocks that were granted. -/
  old : ∀ e, neigh.table.Has e → e < neigh.desc.calls

variable {size family : ℕ} {neigh : NeighTable} {addr a macAddr : Bytes} {mac : Mac}

theorem NeighInv.mac_iff (hI : NeighInv size neigh) : neighMac neigh a = some mac ↔
    ∃ e, neigh.table.Has e ∧ EqBytes size a (neigh.desc.val e).dstAddr ∧ (neigh.desc.val e).dstMac = mac := by
  rw [neighMac,Option.map_eq_some_iff]
  constructor
  · rintro ⟨e,he,hm⟩
    obtain ⟨hhas,hk⟩ := hI.chains.lookup_iff.mp he
    rw [hI.key] at hk
    exact ⟨e,hhas,hk,hm⟩
  · rintro ⟨e,hhas,hk,hm⟩
    exact ⟨e,hI.chains.lookup_iff.mpr ⟨hhas,by rwa [hI.key]⟩,hm⟩

theorem neighMac_none : neighMac neigh a = none ↔ hashLookup neigh.table neigh.desc a = none := by
  simp [neighMac,neighLookup]

theorem NeighInv.mac_congr {b : Bytes} (hI : NeighInv size neigh) (hab : EqBytes size a b) :
    neighMac neigh a = neighMac neigh b := by
  apply Option.ext
  intro mac
  rw [hI.mac_iff,hI.mac_iff]
  exact exists_congr fun e => and_congr_right fun _ =>
    and_congr_left fun _ => ⟨fun h => hab.symm.trans h,fun h => hab.trans h⟩

theorem neighAlloc_inv {desc : Heap NeighEntry} (hsize : addrSize family = some size)
    (hn : neighAlloc desc family = some neigh) :
    NeighInv size neigh ∧ (∀ a, neighMac neigh a = none) ∧ neigh.desc.ok = desc.ok := by
  unfold neighAlloc at hn
  rcases ha : desc.alloc with ⟨_ | block,desc'⟩
  · simp [ha] at hn
  · simp only [ha,Option.map_eq_some_iff] at hn
    obtain ⟨table,ht,rfl⟩ := hn
    have hl := callbacks_lawful hsize ht
    have hdesc : desc' = desc.alloc.2 := by rw [ha]
    have hcb : table.entryKey = NeighEntry.dstAddr ∧ table.entryDelete = neighEntryDelete := by
      unfold neighCallbacks at ht
      split at ht
      · rw [← Option.some_inj.mp ht]
        exact ⟨rfl,rfl⟩
      · split at ht
        · rw [← Option.some_inj.mp ht]
          exact ⟨rfl,rfl⟩
        · simp at ht
    refine ⟨⟨⟨⟨hl.compare,hl.generate⟩,?_,?_,?_⟩,hcb.1,hcb.2,?_⟩,?_,?_⟩
    · simp [hashInit]
    · simp [hashInit]
    · rintro e e' ⟨i,hi⟩
      simp [hashInit] at hi
    · rintro e ⟨i,hi⟩
      simp [hashInit] at hi
    · intro a
      simp [neighMac,neighLookup,hashLookup,hashInit,chainFind]
    · rw [hdesc,Heap.alloc_ok]

def written (neigh : NeighTable) (size : ℕ) (addr macAddr : Bytes) : Heap NeighEntry :=
  neigh.desc.alloc.2.write neigh.desc.calls
    ⟨macOf macAddr,memcpy (neigh.desc.alloc.2.val neigh.desc.calls).dstAddr addr size⟩

theorem written_self : (written neigh size addr macAddr).val neigh.desc.calls =
    ⟨macOf macAddr,memcpy (neigh.desc.alloc.2.val neigh.desc.calls).dstAddr addr size⟩ := by
  simp [written,Heap.write]

theorem written_other {e : ℕ} (he : e ≠ neigh.desc.calls) :
    (written neigh size addr macAddr).val e = neigh.desc.val e := by
  simp [written,Heap.write,he]

theorem neighAdd_failed (hok : neigh.desc.ok neigh.desc.calls = false) :
    neighAdd neigh family addr macAddr = (false,{ neigh with desc := neigh.desc.alloc.2 }) := by
  have ha : neigh.desc.alloc = (none,neigh.desc.alloc.2) := Prod.ext (Heap.alloc_none hok) rfl
  unfold neighAdd
  rw [ha]

theorem neighAdd_written (hok : neigh.desc.ok neigh.desc.calls = true)
    (hsize : addrSize family = some size) : neighAdd neigh family addr macAddr =
      match hashAdd neigh.table (written neigh size addr macAddr)
        ((written neigh size addr macAddr).val neigh.desc.calls).dstAddr neigh.desc.calls with
      | (true,table) => (true,{ neigh with table, desc := written neigh size addr macAddr })
      | (false,table) =>
        (false,{ neigh with table, desc := (written neigh size addr macAddr).free neigh.desc.calls }) := by
  have ha : neigh.desc.alloc = (some neigh.desc.calls,neigh.desc.alloc.2) :=
    Prod.ext (Heap.alloc_some hok) rfl
  unfold neighAdd
  rw [ha]
  simp only [hsize]
  rfl

theorem neighAdd_of_hashAdd {ret : Bool} {table : HashTable NeighEntry}
    (hok : neigh.desc.ok neigh.desc.calls = true) (hsize : addrSize family = some size)
    (hr : hashAdd neigh.table (written neigh size addr macAddr)
      ((written neigh size addr macAddr).val neigh.desc.calls).dstAddr neigh.desc.calls = (ret,table)) :
    neighAdd neigh family addr macAddr = (ret,{ neigh with
      table, desc := if ret then written neigh size addr macAddr
        else (written neigh size addr macAddr).free neigh.desc.calls }) := by
  rw [neighAdd_written hok hsize,hr]
  cases ret <;> rfl

theorem NeighInv.congr (hI : NeighInv size neigh) (desc : Heap NeighEntry)
    (hv : ∀ e, neigh.table.Has e → desc.val e = neigh.desc.val e) (hcalls : neigh.desc.calls ≤ desc.calls) :
    NeighInv size { neigh with desc } ∧ ∀ a, neighMac { neigh with desc } a = neighMac neigh a := by
  have hI' : NeighInv size { neigh with desc } :=
    ⟨hI.chains.congr hv,hI.key,hI.delete,fun e he => (hI.old e he).trans_le hcalls⟩
  refine ⟨hI',?_⟩
  intro a
  apply Option.ext
  intro mac
  rw [hI'.mac_iff,hI.mac_iff]
  apply exists_congr
  intro e
  apply and_congr_right
  intro he
  simp only [hv e he]

theorem NeighInv.ne_calls {e : ℕ} (hI : NeighInv size neigh) (he : neigh.table.Has e) :
    e ≠ neigh.desc.calls := (hI.old e he).ne

theorem NeighInv.mac_linked {neigh' : NeighTable} {e₀ : ℕ} (hI : NeighInv size neigh)
    (hI' : NeighInv size neigh') (hdesc : neigh'.desc = neigh.desc)
    (hhas : ∀ e, neigh'.table.Has e ↔ e = e₀ ∨ neigh.table.Has e)
    (hkey : EqBytes size (neigh.desc.val e₀).dstAddr addr) (hunbound : neighMac neigh addr = none) (a : Bytes) :
    neighMac neigh' a =
      if EqBytes size a addr then some (neigh.desc.val e₀).dstMac else neighMac neigh a := by
  apply Option.ext
  intro mac
  rw [hI'.mac_iff,hdesc]
  by_cases hab : EqBytes size a addr
  · simp only [hab,if_true,Option.some_inj]
    constructor
    · rintro ⟨e,he,hk,hm⟩
      rcases (hhas e).mp he with rfl | he
      · exact hm
      · have hbound := hI.mac_iff.mpr ⟨e,he,hab.symm.trans hk,hm⟩
        simp [hunbound] at hbound
    · exact fun hm => ⟨e₀,(hhas _).mpr (Or.inl rfl),hab.trans hkey.symm,hm⟩
  · simp only [hab,if_false]
    rw [hI.mac_iff]
    constructor
    · rintro ⟨e,he,hk,hm⟩
      rcases (hhas e).mp he with rfl | he
      · exact absurd (hk.trans hkey) hab
      · exact ⟨e,he,hk,hm⟩
    · rintro ⟨e,he,hk,hm⟩
      exact ⟨e,(hhas e).mpr (Or.inr he),hk,hm⟩

/-- What `neigh_add` can do. -/
inductive AddOutcome (size : ℕ) (neigh : NeighTable) (addr macAddr : Bytes) : Bool × NeighTable → Prop where
  | failed : neigh.desc.ok neigh.desc.calls = false →
      AddOutcome size neigh addr macAddr (false,{ neigh with desc := neigh.desc.alloc.2 })
  | bound : neigh.desc.ok neigh.desc.calls = true → neighMac neigh addr ≠ none →
      AddOutcome size neigh addr macAddr
        (false,{ neigh with desc := (written neigh size addr macAddr).free neigh.desc.calls })
  | linked (head : ℕ → List ℕ) : neigh.desc.ok neigh.desc.calls = true → neighMac neigh addr = none →
      NeighInv size { neigh with
        table := { neigh.table with head }, desc := written neigh size addr macAddr } →
      (∀ e, HashTable.Has { neigh.table with head } e ↔ e = neigh.desc.calls ∨ neigh.table.Has e) →
      AddOutcome size neigh addr macAddr (true,{ neigh with
        table := { neigh.table with head }, desc := written neigh size addr macAddr })

theorem NeighInv.of_written (hI : NeighInv size neigh) (addr macAddr : Bytes) :
    NeighInv size { neigh with desc := written neigh size addr macAddr } ∧
      ∀ a, neighMac { neigh with desc := written neigh size addr macAddr } a =
        neighMac neigh a :=
  hI.congr _ (fun _ he => written_other (hI.ne_calls he)) (by simp [written])

theorem written_key (neigh : NeighTable) (size : ℕ) (addr macAddr : Bytes) :
    EqBytes size ((written neigh size addr macAddr).val neigh.desc.calls).dstAddr addr := by
  rw [written_self]
  exact eqBytes_memcpy _ _ _

theorem NeighInv.add_outcome (hI : NeighInv size neigh) (hsize : addrSize family = some size)
    (addr macAddr : Bytes) : AddOutcome size neigh addr macAddr (neighAdd neigh family addr macAddr) := by
  cases hok : neigh.desc.ok neigh.desc.calls with
  | false =>
    rw [neighAdd_failed hok]
    exact .failed hok
  | true =>
    rw [neighAdd_written hok hsize]
    obtain ⟨hIw,hmacw⟩ := hI.of_written addr macAddr
    have hsame := hIw.mac_congr (written_key neigh size addr macAddr)
    cases hf : hashLookup neigh.table (written neigh size addr macAddr)
        ((written neigh size addr macAddr).val neigh.desc.calls).dstAddr with
    | some e =>
      have hbound : neighMac neigh addr ≠ none := by
        rw [← hmacw,← hsame,Ne,neighMac_none,hf]
        simp
      rw [Chains.add_present hf]
      exact .bound hok hbound
    | none =>
      have hunbound : neighMac neigh addr = none := by
        rw [← hmacw,← hsame,neighMac_none]
        exact hf
      obtain ⟨head,hadd,hchains,hhas⟩ := hIw.chains.add_absent hf (by
        rw [hI.key]
        exact EqBytes.refl _ _)
      rw [hadd]
      refine .linked head hok hunbound ⟨hchains,hI.key,hI.delete,?_⟩ hhas
      intro e he
      rcases (hhas e).mp he with rfl | he
      · simp [written]
      · exact hIw.old e he

/-- `neigh_add` binds an unbound address if it gets a block, and else changes nothing. -/
theorem NeighInv.add (hI : NeighInv size neigh) (hsize : addrSize family = some size) (addr macAddr : Bytes) :
    NeighInv size (neighAdd neigh family addr macAddr).2 ∧
      ((neighAdd neigh family addr macAddr).1 = true ↔
        neigh.desc.ok neigh.desc.calls = true ∧ neighMac neigh addr = none) ∧
      ∀ a, neighMac (neighAdd neigh family addr macAddr).2 a =
        if (neighAdd neigh family addr macAddr).1 = true ∧ EqBytes size a addr then
          some (macOf macAddr)
        else neighMac neigh a := by
  obtain ⟨hIw,hmacw⟩ := hI.of_written addr macAddr
  have hout := hI.add_outcome hsize addr macAddr
  generalize neighAdd neigh family addr macAddr = r at hout ⊢
  cases hout with
  | failed hok =>
    obtain ⟨h1,h2⟩ := hI.congr neigh.desc.alloc.2 (by simp) (by simp)
    exact ⟨h1,by simp [hok],by simpa using h2⟩
  | bound hok hbound =>
    obtain ⟨h1,h2⟩ := hIw.congr ((written neigh size addr macAddr).free neigh.desc.calls)
      (fun _ _ => rfl) le_rfl
    exact ⟨h1,by simp [hbound],fun a => by simpa using (h2 a).trans (hmacw a)⟩
  | linked head hok hunbound hI' hhas =>
    refine ⟨hI',by simp [hok,hunbound],?_⟩
    intro a
    rw [hIw.mac_linked hI' rfl hhas (written_key _ _ _ _) (by rw [hmacw,hunbound]) a,hmacw]
    simp [written_self]

def dropped (neigh : NeighTable) (i e : ℕ) : NeighTable :=
  { neigh with table := (hashDrop neigh.table neigh.desc i e).1
               desc := (hashDrop neigh.table neigh.desc i e).2 }

theorem NeighInv.dropped_desc (hI : NeighInv size neigh) (i e : ℕ) :
    (dropped neigh i e).desc = neigh.desc.free e := by
  rw [dropped,hashDrop,hI.delete]
  rfl

theorem NeighInv.drop {i e : ℕ} (hI : NeighInv size neigh) (he : e ∈ neigh.table.head i) :
    NeighInv size (dropped neigh i e) ∧
      ∀ e', (dropped neigh i e).table.Has e' ↔ neigh.table.Has e' ∧ e' ≠ e := by
  obtain ⟨hchains,hhas⟩ := hI.chains.drop he
  have hold : ∀ e', (dropped neigh i e).table.Has e' → e' < (dropped neigh i e).desc.calls := by
    rw [hI.dropped_desc i e]
    exact fun e' he' => hI.old e' ((hhas e').mp he').1
  refine ⟨⟨hchains.congr fun _ _ => ?_,hI.key,hI.delete,hold⟩,hhas⟩
  rw [hI.dropped_desc i e,Heap.free_val]

theorem NeighInv.delete_present {e : ℕ} (hI : NeighInv size neigh)
    (hf : hashLookup neigh.table neigh.desc addr = some e) :
    ∃ i, e ∈ neigh.table.head i ∧ neighDelete neigh addr = (true,dropped neigh i e) := by
  obtain ⟨i,he,hdel⟩ := hI.chains.delete_present hf
  exact ⟨i,he,by rw [neighDelete,hdel,dropped]⟩

theorem neighDelete_absent (hf : hashLookup neigh.table neigh.desc addr = none) :
    neighDelete neigh addr = (false,neigh) := by
  rw [neighDelete,Chains.delete_absent hf]

theorem NeighInv.remove (hI : NeighInv size neigh) (addr : Bytes) :
    NeighInv size (neighDelete neigh addr).2 ∧ ∀ a, neighMac (neighDelete neigh addr).2 a =
      if EqBytes size a addr then none else neighMac neigh a := by
  cases hf : hashLookup neigh.table neigh.desc addr with
  | none =>
    rw [neighDelete_absent hf]
    refine ⟨hI,?_⟩
    intro a
    by_cases hab : EqBytes size a addr
    · simp only [hab,if_true]
      rw [hI.mac_congr hab,neighMac_none]
      exact hf
    · simp only [hab,if_false]
  | some e =>
    obtain ⟨i,hi,hdel⟩ := hI.delete_present hf
    obtain ⟨he,hk⟩ := hI.chains.lookup_iff.mp hf
    rw [hI.key] at hk
    rw [hdel]
    obtain ⟨hI',hhas⟩ := hI.drop hi
    refine ⟨hI',?_⟩
    intro a
    apply Option.ext
    intro mac
    rw [hI'.mac_iff,hI.dropped_desc i e]
    by_cases hab : EqBytes size a addr
    · simp only [hab,if_true,reduceCtorEq,iff_false]
      rintro ⟨e',he',hk',-⟩
      obtain ⟨hold,hne⟩ := (hhas e').mp he'
      apply hne
      apply hI.chains.distinct e' e hold he
      rw [hI.key]
      exact hk'.symm.trans (hab.trans hk)
    · simp only [hab,if_false]
      rw [hI.mac_iff]
      constructor
      · rintro ⟨e',he',hk',hm⟩
        exact ⟨e',((hhas e').mp he').1,hk',hm⟩
      · rintro ⟨e',he',hk',hm⟩
        refine ⟨e',(hhas e').mpr ⟨he',?_⟩,hk',hm⟩
        rintro rfl
        exact hab (hk'.trans hk.symm)

theorem neighAdd_ok (hsize : addrSize family = some size) (addr macAddr : Bytes) :
    (neighAdd neigh family addr macAddr).2.desc.ok = neigh.desc.ok := by
  cases hok : neigh.desc.ok neigh.desc.calls with
  | false => rw [neighAdd_failed hok,Heap.alloc_ok]
  | true =>
    rw [neighAdd_written hok hsize]
    split <;> simp [written]

theorem NeighInv.remove_ok (hI : NeighInv size neigh) (addr : Bytes) :
    (neighDelete neigh addr).2.desc.ok = neigh.desc.ok := by
  rw [neighDelete,hashDelete]
  dsimp only
  split
  · rfl
  · rw [hI.delete]
    rfl

end Neighbour
end Ixmap
