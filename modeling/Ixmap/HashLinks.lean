import Ixmap.Hash
import Ixmap.HList

/-! The functions of `hash.c` on the links that the entries hold, and that they do to the links what
their counterparts in `Ixmap.Hash` do to the chains. The loops walk pointers, so each has a bound
on its rounds; the length of the longest chain is enough. -/
namespace Ixmap
namespace Hash
open BlockHeap PrefixBits HList

variable {α : Type}

/-- `struct hash_table` with the `hlist_node` of every entry. -/
structure HashMem (α : Type) where
  links : Links ℕ ℕ
  entryKey : α → Bytes
  entryDelete : Heap α → ℕ → Heap α
  keyGenerate : Bytes → ℕ → ℕ
  keyCompare : Bytes → Bytes → Bool

namespace HashMem

/-- The heads are not initialised when the table is allocated. -/
def hashInit (t : HashMem α) : HashMem α :=
  { t with links := (List.range hashSize).foldl Links.initHead t.links }

/-- `hlist_for_each_entry`, up to the first entry with the key. -/
def scan (t : HashMem α) (h : Heap α) (key : Bytes) : ℕ → Option ℕ → Option (Option ℕ)
  | _, none => some none
  | 0, some _ => none
  | fuel+1, some entry =>
    if !t.keyCompare key (t.entryKey (h.val entry)) then some (some entry)
    else scan t h key fuel (t.links.cell (.next entry))

def hashLookup (t : HashMem α) (fuel : ℕ) (h : Heap α) (key : Bytes) : Option (Option ℕ) :=
  t.scan h key fuel (t.links.cell (.first (t.keyGenerate key hashBit)))

def hashAdd (t : HashMem α) (fuel : ℕ) (h : Heap α) (key : Bytes) (entryNew : ℕ) :
    Option (Bool × HashMem α) :=
  let hashKey := t.keyGenerate key hashBit
  (t.scan h key fuel (t.links.cell (.first hashKey))).map fun
    | some _ => (false,t)
    | none => (true,{ t with links := t.links.addHead entryNew hashKey })

def hashDelete (t : HashMem α) (fuel : ℕ) (h : Heap α) (key : Bytes) :
    Option (Bool × HashMem α × Heap α) :=
  let hashKey := t.keyGenerate key hashBit
  (t.scan h key fuel (t.links.cell (.first hashKey))).map fun
    | none => (false,t,h)
    | some target => (true,{ t with links := t.links.delInit target },t.entryDelete h target)

/-- `hlist_for_each_entry_safe`: the next node is read before the entry goes. -/
def deleteChain : ℕ → HashMem α → Heap α → Option ℕ → Option (HashMem α × Heap α)
  | _, t, h, none => some (t,h)
  | 0, _, _, some _ => none
  | fuel+1, t, h, some entry =>
    let next := t.links.cell (.next entry)
    deleteChain fuel { t with links := t.links.delInit entry } (t.entryDelete h entry) next

def hashDeleteAll (t : HashMem α) (fuel : ℕ) (h : Heap α) : Option (HashMem α × Heap α) :=
  (List.range hashSize).foldlM
    (fun s i => deleteChain fuel s.1 s.2 (s.1.links.cell (.first i))) (t,h)

/-- The table with these chains. -/
def table (t : HashMem α) (head : ℕ → List ℕ) : HashTable α :=
  ⟨head,t.entryKey,t.entryDelete,t.keyGenerate,t.keyCompare⟩

/-- The links of the table are these chains. -/
def Shows (t : HashMem α) (head : ℕ → List ℕ) : Prop := Holds (Set.Iio hashSize) t.links head

variable {t : HashMem α} {h : Heap α} {key : Bytes} {head : ℕ → List ℕ} {fuel i e : ℕ}
variable {l : List ℕ} {c : Cell ℕ ℕ}

theorem initHeads_chain {links : Links ℕ ℕ} {is : List ℕ} (hi : i ∈ is) :
    Chain (is.foldl Links.initHead links) (.first i) [] := by
  induction is using List.reverseRecOn with
  | nil => simp at hi
  | append_singleton is k ih =>
    rw [List.foldl_append,List.foldl_cons,List.foldl_nil,Links.initHead]
    by_cases hik : i = k
    · simp [Chain,Links.setCell,hik]
    · have hi' : i ∈ is := by simpa [hik] using hi
      exact (Links.setCell_of_ne fun he => hik (Cell.first.inj he)).trans (ih hi')

theorem hashInit_shows (t : HashMem α) : t.hashInit.Shows fun _ => [] := by
  rw [Shows,hashInit]
  exact ⟨fun i hi => initHeads_chain (List.mem_range.mpr hi),by simp,by simp⟩

theorem scan_chain (h : Heap α) (key : Bytes) (head : ℕ → List ℕ) (hc : Chain t.links c l)
    (hfuel : l.length ≤ fuel) :
    t.scan h key fuel (t.links.cell c) = some (chainFind (t.table head) h key l) := by
  induction l generalizing c fuel with
  | nil =>
    rw [hc.cell,chainFind,List.head?_nil]
    cases fuel <;> rfl
  | cons x l ih =>
    obtain ⟨hx,-,hrest⟩ := hc
    obtain ⟨fuel,rfl⟩ : ∃ k, fuel = k+1 := ⟨fuel-1,by simp at hfuel; omega⟩
    rw [hx,scan,chainFind,ih hrest (by simpa using hfuel),apply_ite some]
    rfl

variable (hm : t.Shows head) (hkey : t.keyGenerate key hashBit < hashSize)
  (hfuel : ∀ i, (head i).length ≤ fuel)
include hm hkey hfuel

theorem hashLookup_sim : t.hashLookup fuel h key = some (Hash.hashLookup (t.table head) h key) :=
  scan_chain h key head (hm.chain _ hkey) (hfuel _)

theorem hashAdd_sim {entryNew : ℕ} (hnew : ∀ i, entryNew ∉ head i) :
    ∃ links head', t.hashAdd fuel h key entryNew =
        some ((Hash.hashAdd (t.table head) h key entryNew).1,{ t with links }) ∧
      (Hash.hashAdd (t.table head) h key entryNew).2 = t.table head' ∧
      Shows { t with links } head' ∧
      ((Hash.hashAdd (t.table head) h key entryNew).1 = false → links = t.links) := by
  have hscan := scan_chain h key head (hm.chain _ hkey) (hfuel _)
  simp only [hashAdd,hscan,Option.map_some]
  unfold Hash.hashAdd
  simp only
  rw [show (t.table head).head ((t.table head).keyGenerate key hashBit) =
    head (t.keyGenerate key hashBit) from rfl]
  cases chainFind (t.table head) h key (head (t.keyGenerate key hashBit)) with
  | some e => exact ⟨t.links,head,rfl,rfl,hm,fun _ => rfl⟩
  | none => exact ⟨_,_,rfl,rfl,hm.addHead hkey hnew,by simp⟩

theorem hashDelete_sim :
    ∃ links head', t.hashDelete fuel h key =
        some ((Hash.hashDelete (t.table head) h key).1,{ t with links },
          (Hash.hashDelete (t.table head) h key).2.2) ∧
      (Hash.hashDelete (t.table head) h key).2.1 = t.table head' ∧ Shows { t with links } head' := by
  have hscan := scan_chain h key head (hm.chain _ hkey) (hfuel _)
  simp only [hashDelete,hscan,Option.map_some]
  unfold Hash.hashDelete
  simp only
  rw [show (t.table head).head ((t.table head).keyGenerate key hashBit) =
    head (t.keyGenerate key hashBit) from rfl]
  cases hf : chainFind (t.table head) h key (head (t.keyGenerate key hashBit)) with
  | none => exact ⟨t.links,head,rfl,rfl,hm⟩
  | some e => exact ⟨_,_,rfl,rfl,hm.delInit hkey (chainFind_mem hf)⟩

omit hm hkey hfuel

theorem deleteChain_sim (hm : t.Shows head) (hi : i < hashSize) (hl : head i = l)
    (hfuel : l.length ≤ fuel) :
    ∃ links head', deleteChain fuel t h (t.links.cell (.first i)) =
        some ({ t with links },(hashDeleteChain (t.table head,h) i).2) ∧
      (hashDeleteChain (t.table head,h) i).1 = t.table head' ∧ Shows { t with links } head' ∧
      ∀ k, (head' k).length ≤ (head k).length := by
  induction l generalizing t h head fuel with
  | nil =>
    have hfirst := (hm.chain i hi).cell
    rw [hl,List.head?_nil] at hfirst
    rw [hfirst,hashDeleteChain_nil hl]
    refine ⟨t.links,head,?_,rfl,hm,fun _ => le_rfl⟩
    cases fuel <;> rfl
  | cons x l ih =>
    obtain ⟨fuel,rfl⟩ : ∃ k, fuel = k+1 := ⟨fuel-1,by simp at hfuel; omega⟩
    have hchain := hm.chain i hi
    rw [hl] at hchain
    obtain ⟨hfirst,-,hrest⟩ := hchain
    have hm' : Shows { t with links := t.links.delInit x } (Function.update head i l) := by
      have := hm.delInit hi (n := x) (by simp [hl])
      rwa [hl,List.erase_cons_head] at this
    have hnext : t.links.cell (.next x) = (t.links.delInit x).cell (.first i) := by
      have hfirst' := (hm'.chain i hi).cell
      rw [Function.update_self] at hfirst'
      exact hrest.cell.trans hfirst'.symm
    obtain ⟨links,head',h1,h2,h3,h4⟩ := ih hm' (Function.update_self _ _ _) (h := t.entryDelete h x)
      (by simpa using hfuel)
    have hdrop : hashDrop (t.table head) h i x =
        ((HashMem.mk (t.links.delInit x) t.entryKey t.entryDelete t.keyGenerate t.keyCompare).table
          (Function.update head i l),t.entryDelete h x) := by
      simp [hashDrop,HashTable.setHead,table,hl]
    rw [hfirst,deleteChain,hnext,hashDeleteChain_cons hl,hdrop]
    refine ⟨links,head',h1,h2,h3,fun k => (h4 k).trans ?_⟩
    by_cases hki : k = i
    · subst hki
      simp [hl]
    · rw [Function.update_of_ne hki]

theorem hashDeleteAll_sim (hm : t.Shows head) (hfuel : ∀ i, (head i).length ≤ fuel) :
    ∃ links head', t.hashDeleteAll fuel h =
        some ({ t with links },(Hash.hashDeleteAll (t.table head) h).2) ∧
      (Hash.hashDeleteAll (t.table head) h).1 = t.table head' ∧ Shows { t with links } head' := by
  have hloop : ∀ is : List ℕ, (∀ i ∈ is, i < hashSize) → ∀ t : HashMem α, ∀ h head, t.Shows head →
      (∀ i, (head i).length ≤ fuel) → ∃ links head',
        is.foldlM (fun s i => deleteChain fuel s.1 s.2 (s.1.links.cell (.first i))) (t,h) =
          some ({ t with links },(is.foldl hashDeleteChain (t.table head,h)).2) ∧
        (is.foldl hashDeleteChain (t.table head,h)).1 = t.table head' ∧ Shows { t with links } head' := by
    intro is
    induction is with
    | nil => exact fun _ t h head hm _ => ⟨t.links,head,rfl,rfl,hm⟩
    | cons i is ih =>
      intro his t h head hm hfuel
      obtain ⟨links,head',h1,h2,h3,h4⟩ := deleteChain_sim hm (his i (by simp)) rfl (hfuel i) (h := h)
      obtain ⟨links',head'',h5,h6,h7⟩ := ih (fun k hk => his k (by simp [hk])) { t with links }
        (hashDeleteChain (t.table head,h) i).2 head' h3 fun k => (h4 k).trans (hfuel k)
      have hpair : hashDeleteChain (t.table head,h) i =
          (HashMem.table { t with links } head',(hashDeleteChain (t.table head,h) i).2) := Prod.ext h2 rfl
      rw [List.foldlM_cons,List.foldl_cons,h1,hpair]
      exact ⟨links',head'',h5,h6,h7⟩
  exact hloop (List.range hashSize) (fun i hi => List.mem_range.mp hi) t h head hm hfuel

end HashMem
end Hash
end Ixmap
