import Ixmap.FibTrie
import Ixmap.FibBlocks

/-! What adding a route does to the trie invariant, with every pattern of allocation failures. -/
namespace Ixmap
namespace FibTable
open BlockHeap PrefixBits Lpm StableOrder

def Named (K : Keys) (id : ℤ) (n p : ℕ) : Prop := K.id p = id ∧ K.len p = n

instance (K : Keys) (id : ℤ) (n p : ℕ) : Decidable (Named K id n p) := by
  unfold Named
  infer_instance

/-- The key of a route: its name and the first bits of its prefix. -/
def HasKey (K : Keys) (id : ℤ) (n : ℕ) (pfx : Bytes) (p : ℕ) : Prop :=
  Named K id n p ∧ Agree (K.pfx p) pfx n

variable {K : Keys} {R : List ℕ} {pfx b : Bytes} {o w n m p ptr index i : ℕ} {id : ℤ}
variable {h : Heap FibEntry} {node node' : LpmNode} {nodes nodes' : ℕ → LpmNode} {e : LpmEntry}

@[simp] theorem identify_eq (h : Heap FibEntry) (p : ℕ) :
    fibCallbacks.entryIdentify (h.val p) id n = !decide (Named (keysOf h) id n p) := by
  unfold fibCallbacks fibEntryIdentify
  by_cases hn : Named (keysOf h) id n p
  · have hid : (h.val p).id = id := hn.1
    have hlen : (h.val p).prefixLen = n := hn.2
    simp [hn,hid,hlen]
  · have hne : ¬ ((h.val p).id = id ∧ (h.val p).prefixLen = n) := hn
    simpa [hn] using not_and_or.mp hne

@[simp] theorem compare_eq (h : Heap FibEntry) (p : ℕ) :
    fibCallbacks.entryCompare (h.val p) n = decide (n < (keysOf h).len p) := rfl

@[simp] theorem pull_eq (h : Heap FibEntry) (p : ℕ) : fibCallbacks.entryPull h p = fibEntryPull h p := rfl

@[simp] theorem put_eq (h : Heap FibEntry) (p : ℕ) : fibCallbacks.entryPut h p = fibEntryPut h p := by
  simp only [fibCallbacks]

section entries
variable {l big small : List LpmEntry} {prior : ℕ}

theorem insertScan_small (hno : ∀ x ∈ l, ¬ Named (keysOf h) id n x.ptr)
    (hs : ∀ x ∈ l, (keysOf h).len x.ptr ≤ n) :
    insertScan fibCallbacks id n h l i prior = some prior := by
  induction l generalizing i with
  | nil => rfl
  | cons x l ih =>
    have hx := hno x (by simp)
    have hle := not_lt.mpr (hs x (by simp))
    simp only [insertScan,identify_eq,compare_eq,hx,hle,decide_false,Bool.not_false,Bool.not_true,
      Bool.false_eq_true,if_false]
    exact ih (fun y hy => hno y (by simp [hy])) (fun y hy => hs y (by simp [hy]))

theorem insertScan_split (hno : ∀ x ∈ big ++ small, ¬ Named (keysOf h) id n x.ptr)
    (hb : ∀ x ∈ big, n < (keysOf h).len x.ptr) (hs : ∀ x ∈ small, (keysOf h).len x.ptr ≤ n) :
    insertScan fibCallbacks id n h (big ++ small) i i = some (i+big.length) := by
  induction big generalizing i with
  | nil => exact insertScan_small hno hs
  | cons x big ih =>
    have hx := hno x (by simp)
    have hlt := hb x (by simp)
    simp only [List.cons_append,insertScan,identify_eq,compare_eq,hx,hlt,decide_false,decide_true,
      Bool.not_false,Bool.not_true,Bool.false_eq_true,if_false,if_true]
    rw [ih (fun y hy => hno y (by simp [hy])) (fun y hy => hb y (by simp [hy])),List.length_cons]
    congr 1
    omega

theorem insertScan_named (hx : ∃ x ∈ l, Named (keysOf h) id n x.ptr) :
    insertScan fibCallbacks id n h l i prior = none := by
  induction l generalizing i prior with
  | nil => simp at hx
  | cons y l ih =>
    by_cases hy : Named (keysOf h) id n y.ptr
    · simp [insertScan,hy]
    · obtain ⟨x,hx,hn⟩ := hx
      rcases List.mem_cons.mp hx with rfl | hx
      · exact absurd hn hy
      · simp only [insertScan,identify_eq,hy,decide_false,Bool.not_false,Bool.not_true,
          Bool.false_eq_true,if_false]
        exact ih ⟨x,hx,hn⟩

theorem entryInsert_absent (hno : ∀ x ∈ big ++ small, ¬ Named (keysOf h) id n x.ptr)
    (hb : ∀ x ∈ big, n < (keysOf h).len x.ptr) (hs : ∀ x ∈ small, (keysOf h).len x.ptr ≤ n) :
    lpmEntryInsert fibCallbacks id n h (big ++ small) e = some (big ++ e::small,fibEntryPull h e.ptr) := by
  simp [lpmEntryInsert,insertScan_split hno hb hs]

theorem entryInsert_named (hx : ∃ x ∈ l, Named (keysOf h) id n x.ptr) :
    lpmEntryInsert fibCallbacks id n h l e = none := by
  simp [lpmEntryInsert,insertScan_named hx]

theorem entryDelete_absent (hno : ∀ x ∈ l, ¬ Named (keysOf h) id n x.ptr) :
    lpmEntryDelete fibCallbacks id n h l = none := by
  induction l with
  | nil => rfl
  | cons x l ih =>
    have hx := hno x (by simp)
    simp [lpmEntryDelete,hx,ih (fun y hy => hno y (by simp [hy]))]

theorem entryDelete_first (hno : ∀ x ∈ big, ¬ Named (keysOf h) id n x.ptr)
    (he : Named (keysOf h) id n e.ptr) :
    lpmEntryDelete fibCallbacks id n h (big ++ e::small) =
      some (big ++ small,(fibEntryPut h e.ptr).free e.addr) := by
  induction big with
  | nil => simp [lpmEntryDelete,he]
  | cons x big ih =>
    have hx := hno x (by simp)
    simp [lpmEntryDelete,hx,ih (fun y hy => hno y (by simp [hy]))]

end entries

/-- `node'` is `node` with the entry `e` in its place. -/
structure Grown (K : Keys) (id : ℤ) (n : ℕ) (e : LpmEntry) (node node' : LpmNode) : Prop where
  absent : ∀ x ∈ node.head, ¬ Named K id n x.ptr
  place : ∃ big small, node.head = big ++ small ∧ node' = node.setHead (big ++ e::small) ∧
    (∀ x ∈ big, n < K.len x.ptr) ∧ ∀ x ∈ small, K.len x.ptr ≤ n

/-- A list that can take an entry of this name: in order and without that name. -/
def Open (K : Keys) (id : ℤ) (n : ℕ) (node : LpmNode) : Prop :=
  Desc K.len (node.head.map LpmEntry.ptr) ∧ ∀ x ∈ node.head, ¬ Named K id n x.ptr

theorem Open.insert (ho : Open (keysOf h) id n node) (e : LpmEntry) :
    ∃ head, lpmEntryInsert fibCallbacks id n h node.head e = some (head,fibEntryPull h e.ptr) ∧
      Grown (keysOf h) id n e node (node.setHead head) := by
  obtain ⟨hd,hno⟩ := ho
  obtain ⟨big,small,he,hb,hs⟩ := Desc.split (fun x : LpmEntry => (keysOf h).len x.ptr)
    (List.pairwise_map.mp hd) n
  refine ⟨big ++ e::small,?_,hno,big,small,he,rfl,hb,hs⟩
  rw [he]
  exact entryInsert_absent (he ▸ hno) hb hs

/-- The outcome of the insertion loop over nodes that can all take the entry: `k` entries were
inserted before an allocation failed, or all of them. -/
structure AddLoopSpec (id : ℤ) (n ptr base m : ℕ) (nodes : ℕ → LpmNode) (h : Heap FibEntry)
    (r : LoopRes FibEntry) (k : ℕ) : Prop where
  le : k ≤ m
  ok : r.ok = decide (k = m)
  granted : ∀ j < k, h.ok (h.calls+j) = true
  refused : k < m → h.ok (h.calls+k) = false
  keys : keysOf r.heap = keysOf h
  grown : ∀ j < k, Grown (keysOf h) id n ⟨h.calls+j,ptr⟩ (nodes (base+j)) (r.nodes (base+j))
  same : ∀ y, y < base ∨ base+k ≤ y → r.nodes y = nodes y

theorem addLoop_open (ptr index i : ℕ) (hidx : ∀ j, j < i+m → index ||| j = index+j)
    (hopen : ∀ j < m, Open (keysOf h) id n (nodes (index+i+j))) :
    ∃ k, AddLoopSpec id n ptr (index+i) m nodes h
        (lpmAddLoop fibCallbacks id n ptr index m i nodes h) k ∧
      (lpmAddLoop fibCallbacks id n ptr index m i nodes h).count = i+k := by
  induction m generalizing i nodes h with
  | zero => exact ⟨0,⟨le_rfl,rfl,by simp,by simp,rfl,by simp,fun _ _ => rfl⟩,rfl⟩
  | succ m ih =>
    rw [lpmAddLoop]
    cases hok : h.ok h.calls with
    | false =>
      have ha : h.alloc = (none,h.alloc.2) := Prod.ext (Heap.alloc_none hok) rfl
      rw [ha]
      exact ⟨0,⟨by omega,rfl,by simp,by simpa using hok,keysOf_alloc h,by simp,fun _ _ => rfl⟩,rfl⟩
    | true =>
      have ha : h.alloc = (some h.calls,h.alloc.2) := Prod.ext (Heap.alloc_some hok) rfl
      rw [ha,hidx i (by omega)]
      have hopen0 := hopen 0 (by omega)
      rw [Nat.add_zero,← keysOf_alloc] at hopen0
      obtain ⟨head,hins,hg⟩ := hopen0.insert ⟨h.calls,ptr⟩
      rw [keysOf_alloc] at hg
      simp only [hins]
      set nodes₁ := Function.update nodes (index+i) ((nodes (index+i)).setHead head) with hnodes₁
      have hother : ∀ y, y ≠ index+i → nodes₁ y = nodes y := fun y hy => by simp [hnodes₁,hy]
      have hself : nodes₁ (index+i) = (nodes (index+i)).setHead head := by simp [hnodes₁]
      have hopen₁ : ∀ j < m, Open (keysOf (fibEntryPull h.alloc.2 ptr)) id n (nodes₁ (index+(i+1)+j)) := by
        intro j hj
        rw [hother _ (by omega),keysOf_pull,keysOf_alloc]
        simpa [Nat.add_assoc,Nat.add_comm,Nat.add_left_comm] using hopen (j+1) (by omega)
      obtain ⟨k,hspec,hcount⟩ := ih (i+1) (fun j hj => hidx j (by omega)) hopen₁
      have hcalls : (fibEntryPull h.alloc.2 ptr).calls = h.calls+1 := by simp [fibEntryPull]
      have hoks : (fibEntryPull h.alloc.2 ptr).ok = h.ok := by simp [fibEntryPull]
      have hkeys : keysOf (fibEntryPull h.alloc.2 ptr) = keysOf h := by simp
      refine ⟨k+1,⟨?_,?_,?_,?_,?_,?_,?_⟩,by rw [hcount]; omega⟩
      · have := hspec.le
        omega
      · rw [hspec.ok]
        simp
      · intro j hj
        cases j with
        | zero => simpa using hok
        | succ j =>
          have := hspec.granted j (by omega)
          rw [hcalls,hoks] at this
          rwa [show h.calls+(j+1) = h.calls+1+j by omega]
      · intro hk
        have := hspec.refused (by omega)
        rw [hcalls,hoks] at this
        rwa [show h.calls+(k+1) = h.calls+1+k by omega]
      · rw [hspec.keys,hkeys]
      · intro j hj
        cases j with
        | zero =>
          rw [Nat.add_zero,Nat.add_zero,hspec.same _ (by omega),hself]
          exact hg
        | succ j =>
          have := hspec.grown j (by omega)
          rw [hcalls,hkeys,hother _ (by omega)] at this
          rwa [show index+i+(j+1) = index+(i+1)+j by omega,show h.calls+(j+1) = h.calls+1+j by omega]
      · intro y hy
        rw [hspec.same y (by omega),hother y (by omega)]

theorem addLoop_named (hx : ∃ x ∈ (nodes (index ||| i)).head, Named (keysOf h) id n x.ptr) :
    lpmAddLoop fibCallbacks id n ptr index (m+1) i nodes h =
      ⟨false,i,nodes,if h.ok h.calls then h.alloc.2.free h.calls else h.alloc.2⟩ := by
  rw [lpmAddLoop]
  cases hok : h.ok h.calls with
  | false =>
    have ha : h.alloc = (none,h.alloc.2) := Prod.ext (Heap.alloc_none hok) rfl
    rw [ha]
    rfl
  | true =>
    have ha : h.alloc = (some h.calls,h.alloc.2) := Prod.ext (Heap.alloc_some hok) rfl
    rw [ha]
    rw [← keysOf_alloc] at hx
    simp only [entryInsert_named hx]
    rfl

/-- The first of the nodes below a path that a prefix of `m` further bits covers. -/
def blockBase (pfx : Bytes) (o w m : ℕ) : ℕ := field pfx o w/2^(w-m)*2^(w-m)

theorem alignIndex_field (hw : w ≤ 32) :
    alignIndex (field pfx o w) (2^(w-m)) = blockBase pfx o w m := by
  have hlt : field pfx o w < 2^32 :=
    lt_of_lt_of_le (field_lt pfx o w) (Nat.pow_le_pow_right (by omega) hw)
  exact and_mask hlt (by omega)

theorem block_index {j : ℕ} (hj : j < 2^(w-m)) : blockBase pfx o w m ||| j = blockBase pfx o w m+j :=
  block_or hj

theorem mem_block (hab : Agree pfx b o) (hm : m ≤ w) : Agree pfx b (o+m) ↔
    blockBase pfx o w m ≤ field b o w ∧ field b o w < blockBase pfx o w m+2^(w-m) := by
  have hpos : 0 < 2^(w-m) := Nat.two_pow_pos _
  rw [agree_field_div hm,blockBase]
  constructor
  · rintro ⟨_,he⟩
    rw [he]
    have h1 := Nat.div_add_mod (field b o w) (2^(w-m))
    have h2 := Nat.mod_lt (field b o w) hpos
    rw [Nat.mul_comm] at h1
    omega
  · rintro ⟨hlo,hhi⟩
    refine ⟨hab,?_⟩
    symm
    apply (Nat.div_eq_iff hpos).mpr
    omega

theorem block_lt (pfx : Bytes) (o : ℕ) {j : ℕ} (hm : m ≤ w) (hj : j < 2^(w-m)) : blockBase pfx o w m+j < 2^w := by
  have hpos : 0 < 2^(w-m) := Nat.two_pow_pos _
  have hlt := field_lt pfx o w
  have hq : field pfx o w/2^(w-m) < 2^m := by
    apply Nat.div_lt_of_lt_mul
    rwa [← pow_add,Nat.sub_add_cancel hm]
  have hmul := Nat.mul_le_mul_right (2^(w-m)) (show field pfx o w/2^(w-m)+1 ≤ 2^m by omega)
  rw [← pow_add,Nat.add_sub_cancel' hm,Nat.add_mul] at hmul
  unfold blockBase
  omega

/-- Every node of the block lies on a path that the prefix covers. -/
theorem exists_block_path (pfx : Bytes) (o : ℕ) {j : ℕ} (hm : m ≤ w) (hj : j < 2^(w-m)) :
    ∃ b, Agree pfx b o ∧ Agree pfx b (o+m) ∧ field b o w = blockBase pfx o w m+j := by
  obtain ⟨b,hab,hf⟩ := exists_field pfx o w (block_lt pfx o hm hj)
  refine ⟨b,hab,(mem_block hab hm).mpr ?_,hf⟩
  omega

theorem At.cons_untouched (hA : At K R b o node) (ht : ¬ Touches K b o p) : At K (p::R) b o node := by
  apply hA.congr_routes
  simp [ht]

/-- A node that takes the entry of a route it stores represents the routes with it. -/
theorem At.grow (hA : At K R b o node) (ho : 16 ≤ o) (hg : Grown K id n e node node')
    (hlen : K.len e.ptr = n) (hs : Stored K b o e.ptr) : At K (e.ptr::R) b o node' := by
  obtain ⟨-,big,small,hhead,rfl,hb,hsm⟩ := hg
  have hlist : (big ++ e::small).map LpmEntry.ptr =
      sortDesc K.len ((e.ptr::R).filter fun p => Stored K b o p) := by
    have hh := hA.head
    rw [hhead,List.map_append] at hh
    simp only [List.filter_cons,hs,decide_true,if_true,sortDesc_cons,← hh]
    rw [insertDesc_append_right K.len,insertDesc_of_le K.len]
    · simp
    · intro q hq
      obtain ⟨x,hx,rfl⟩ := List.mem_map.mp hq
      rw [hlen]
      exact hsm x hx
    · intro q hq
      obtain ⟨x,hx,rfl⟩ := List.mem_map.mp hq
      rw [hlen]
      exact hb x hx
  have hle : K.len e.ptr ≤ o := hs.1.1
  cases node with
  | leaf head =>
    refine ⟨hlist,?_⟩
    intro q hq hpass
    rcases List.mem_cons.mp hq with rfl | hq
    · have := hpass.1
      omega
    · exact hA.2 q hq hpass
  | branch head table next =>
    obtain ⟨-,⟨q,hq,hpass⟩,hc⟩ := hA
    refine ⟨hlist,⟨q,List.mem_cons_of_mem _ hq,hpass⟩,?_⟩
    intro c hbc
    apply (hc c hbc).cons_untouched
    rintro ⟨hlev,-⟩
    omega

/-- Adding the entry of a route to the block of nodes it covers. -/
theorem Below.insert {c : ℕ} (hB : Below K R pfx o w nodes) (ho : 16 ≤ o+w) (hm : m ≤ w)
    (hlev : InLevel (o+w) (o+m)) (hlen : K.len ptr = o+m) (hag : Agree (K.pfx ptr) pfx (o+m))
    (hgrown : ∀ j < 2^(w-m), Grown K id (o+m) ⟨c+j,ptr⟩ (nodes (blockBase pfx o w m+j))
      (nodes' (blockBase pfx o w m+j)))
    (hsame : ∀ y, y < blockBase pfx o w m ∨ blockBase pfx o w m+2^(w-m) ≤ y → nodes' y = nodes y) :
    Below K (ptr::R) pfx o w nodes' := by
  intro b hab
  by_cases hin : Agree pfx b (o+m)
  · obtain ⟨hlo,hhi⟩ := (mem_block hab hm).mp hin
    have hg := hgrown (field b o w-blockBase pfx o w m) (by omega)
    rw [Nat.add_sub_cancel' hlo] at hg
    apply (hB b hab).grow ho hg hlen
    unfold Stored
    rw [hlen]
    exact ⟨hlev,hag.trans hin⟩
  · have hout : field b o w < blockBase pfx o w m ∨ blockBase pfx o w m+2^(w-m) ≤ field b o w := by
      by_contra hc
      exact hin ((mem_block hab hm).mpr (by omega))
    rw [hsame _ hout]
    apply (hB b hab).cons_untouched
    rintro ⟨-,ht⟩
    rw [hlen,min_eq_left (by omega)] at ht
    exact hin (hag.symm.trans ht)

theorem Below.isOpen (hB : Below K R pfx o w nodes) (hm : m ≤ w)
    (habs : ∀ q ∈ R, ¬ HasKey K id (o+m) pfx q) :
    ∀ j < 2^(w-m), Open K id (o+m) (nodes (blockBase pfx o w m+j)) := by
  intro j hj
  obtain ⟨b,hab,hin,hf⟩ := exists_block_path pfx o hm hj
  have hh := (hB b hab).head
  rw [hf] at hh
  refine ⟨by rw [hh]; exact sortDesc_desc _ _,?_⟩
  intro x hx hnamed
  have hmem : x.ptr ∈ (nodes (blockBase pfx o w m+j)).head.map LpmEntry.ptr :=
    List.mem_map_of_mem hx
  rw [hh,mem_sortDesc,List.mem_filter] at hmem
  obtain ⟨hR,hst⟩ := hmem
  have hcov := (of_decide_eq_true hst).2
  rw [hnamed.2] at hcov
  exact habs x.ptr hR ⟨hnamed,hcov.trans hin.symm⟩

theorem Below.holds (hB : Below K R pfx o w nodes) (hm : m ≤ w) (hlev : InLevel (o+w) (o+m))
    (hp : p ∈ R) (hkey : HasKey K id (o+m) pfx p) :
    ∀ j < 2^(w-m), ∃ x ∈ (nodes (blockBase pfx o w m+j)).head, x.ptr = p := by
  intro j hj
  obtain ⟨b,hab,hin,hf⟩ := exists_block_path pfx o hm hj
  have hh := (hB b hab).head
  rw [hf] at hh
  have hmem : p ∈ (nodes (blockBase pfx o w m+j)).head.map LpmEntry.ptr := by
    rw [hh,mem_sortDesc,List.mem_filter]
    refine ⟨hp,decide_eq_true ?_⟩
    unfold Stored
    rw [hkey.1.2]
    exact ⟨hlev,hkey.2.trans hin⟩
  exact List.mem_map.mp hmem

theorem Below.nonempty (hB : Below K R pfx o 8 nodes)
    (hpass : ∃ p ∈ R, Passes K pfx o p) : ¬ unused nodes = true := by
  obtain ⟨p,hp,hlt,hag⟩ := hpass
  rw [unused_iff]
  intro hall
  have hA := hB (K.pfx p) hag.symm
  have hempty := hall (field (K.pfx p) o 8) (field_lt (K.pfx p) o 8)
  cases hn : nodes (field (K.pfx p) o 8) with
  | branch head table next =>
    rw [hn] at hempty
    exact Bool.noConfusion hempty
  | leaf head =>
    rw [hn] at hA hempty
    have hnil : head = [] := List.isEmpty_iff.mp hempty
    obtain ⟨hh,hno⟩ := hA
    rw [hnil,List.map_nil] at hh
    have hfil := (sortDesc_eq_nil K.len).mp hh.symm
    by_cases hle : K.len p ≤ o+8
    · have := List.filter_eq_nil_iff.mp hfil p hp
      apply this
      apply decide_eq_true
      exact ⟨⟨hle,by omega⟩,Agree.refl _ _⟩
    · exact hno p hp ⟨by omega,Agree.refl _ _⟩

theorem below_fresh (ho : 16 ≤ o) (hno : ∀ p ∈ R, ¬ Passes K pfx o p) :
    Below K R pfx o 8 fun _ => lpmInitNode := by
  intro b hab
  refine ⟨?_,?_⟩
  · symm
    apply (sortDesc_eq_nil K.len).mpr
    apply List.filter_eq_nil_iff.mpr
    intro p hp hst
    obtain ⟨⟨-,hlev⟩,hag⟩ := of_decide_eq_true hst
    exact hno p hp ⟨by omega,(hag.mono (by omega)).trans hab.symm⟩
  · rintro p hp ⟨hlt,hag⟩
    exact hno p hp ⟨by omega,(hag.mono (by omega)).trans hab.symm⟩

/-- Tables that `_lpm_add` creates on its way. -/
def missingTables (pfx : Bytes) (n : ℕ) : LpmNode → ℕ → ℕ
  | .leaf _, o => (n-o+7)/8
  | .branch _ _ next, o =>
    if 8 < n-o then missingTables pfx n (next (lpmIndex pfx o 8)) (o+8) else 0

/-- List entries of a route longer than 16 bits. -/
def spread (n : ℕ) : ℕ := 2^((8-n%8)%8)

def Granted (h : Heap FibEntry) (k : ℕ) : Prop := ∀ j < k, h.ok (h.calls+j) = true

/-- One of the requests up to the first entry, behind `t` tables, fails. -/
def FailsEarly (h : Heap FibEntry) (t : ℕ) : Prop := ∃ j ≤ t, h.ok (h.calls+j) = false

/-- Out of `t` tables and `range` entries to allocate, the first failure strikes behind the
first entry. -/
def Stranded (h : Heap FibEntry) (t range : ℕ) : Prop :=
  ∃ k, 0 < k ∧ k < range ∧ Granted h (t+k) ∧ h.ok (h.calls+(t+k)) = false

/-- What `_lpm_add` can do for a route whose key is new. -/
inductive AddOutcome (R : List ℕ) (pfx : Bytes) (o n ptr : ℕ) (parent : LpmNode) (h : Heap FibEntry)
    (r : Bool × LpmNode × Heap FibEntry) : Prop where
  | added : r.1 = true → At (keysOf h) (ptr::R) pfx o r.2.1 → keysOf r.2.2 = keysOf h →
      Granted h (missingTables pfx n parent o+spread n) → AddOutcome R pfx o n ptr parent h r
  | refused : r.1 = false → r.2.1 = parent → keysOf r.2.2 = keysOf h →
      FailsEarly h (missingTables pfx n parent o) → AddOutcome R pfx o n ptr parent h r
  | stranded : r.1 = false → Stranded h (missingTables pfx n parent o) (spread n) →
      keysOf r.2.2 = keysOf h → (∃ x ∈ entriesOf r.2.1, x.ptr = ptr) →
      AddOutcome R pfx o n ptr parent h r

theorem releaseEmpty_keys (head : List LpmEntry) (t : ℕ) (next : ℕ → LpmNode) (h : Heap FibEntry) :
    keysOf (releaseEmpty head t next h).2 = keysOf h := by
  unfold releaseEmpty
  split <;> rfl

def missingBelow (pfx : Bytes) (n o : ℕ) (next : ℕ → LpmNode) : ℕ :=
  if 8 < n-o then missingTables pfx n (next (field pfx o 8)) (o+8) else 0

/-- The same outcomes for the part of `_lpm_add` behind the creation of the table; a refusal
leaves the table to the test for emptiness. -/
inductive TableOutcome (R : List ℕ) (pfx : Bytes) (o n ptr t : ℕ) (head : List LpmEntry)
    (next : ℕ → LpmNode) (h : Heap FibEntry) (r : Bool × LpmNode × Heap FibEntry) : Prop where
  | added (next' : ℕ → LpmNode) : r.1 = true → r.2.1 = .branch head t next' →
      Below (keysOf h) (ptr::R) pfx o 8 next' → keysOf r.2.2 = keysOf h →
      Granted h (missingBelow pfx n o next+spread n) → TableOutcome R pfx o n ptr t head next h r
  | refused (h' : Heap FibEntry) : r.1 = false → r.2 = releaseEmpty head t next h' →
      keysOf h' = keysOf h → FailsEarly h (missingBelow pfx n o next) →
      TableOutcome R pfx o n ptr t head next h r
  | stranded : r.1 = false → Stranded h (missingBelow pfx n o next) (spread n) →
      keysOf r.2.2 = keysOf h → (∃ x ∈ entriesOf r.2.1, x.ptr = ptr) →
      TableOutcome R pfx o n ptr t head next h r

theorem mem_branch {head : List LpmEntry} {t y : ℕ} {next : ℕ → LpmNode} {x : LpmEntry}
    (hy : y < tableSize8) (hx : x ∈ entriesOf (next y)) : x ∈ entriesOf (.branch head t next) :=
  Multiset.mem_add.mpr (Or.inr (mem_entriesIn.mpr ⟨y,hy,hx⟩))

theorem below_update {child : LpmNode} {R' : List ℕ} (hchild : At K R' pfx (o+w) child)
    (hkeep : ∀ b, Agree pfx b o → ¬ Agree pfx b (o+w) → At K R' b (o+w) (nodes (field b o w))) :
    Below K R' pfx o w (Function.update nodes (field pfx o w) child) := by
  intro b hab
  by_cases hin : Agree pfx b (o+w)
  · rw [← (agree_field.mp hin).2,Function.update_self]
    exact hchild.congr_path hin
  · have hne : field b o w ≠ field pfx o w := by
      intro he
      exact hin (agree_field.mpr ⟨hab,he.symm⟩)
    rw [Function.update_of_ne hne]
    exact hkeep b hab hin

theorem Below.update {child : LpmNode} (hB : Below K R pfx o w nodes) (hlen : o+w < K.len ptr)
    (hag : Agree (K.pfx ptr) pfx (K.len ptr)) (hchild : At K (ptr::R) pfx (o+w) child) :
    Below K (ptr::R) pfx o w (Function.update nodes (field pfx o w) child) := by
  refine below_update hchild fun b hab hin => (hB b hab).cons_untouched ?_
  rintro ⟨-,ht⟩
  rw [min_eq_right (by omega)] at ht
  exact hin ((hag.mono (by omega)).symm.trans ht)

section Table
variable {deeper : LpmNode → Heap FibEntry → Bool × LpmNode × Heap FibEntry}
variable {t : ℕ} {head : List LpmEntry} {next : ℕ → LpmNode}

theorem addTable_deeper (hB : Below (keysOf h) R pfx o 8 next) (h8 : o%8 = 0)
    (hlen : (keysOf h).len ptr = n) (hag : Agree ((keysOf h).pfx ptr) pfx n) (hlong : 8 < n-o)
    (hdeep : AddOutcome R pfx (o+8) n ptr (next (field pfx o 8)) h (deeper (next (field pfx o 8)) h)) :
    TableOutcome R pfx o n ptr t head next h
      (lpmAddTable fibCallbacks id n deeper pfx ptr o head t next h) := by
  unfold lpmAddTable
  rw [lpmIndex_octet h8]
  simp only [if_pos hlong]
  have hmiss : missingBelow pfx n o next = missingTables pfx n (next (field pfx o 8)) (o+8) :=
    if_pos hlong
  rcases hr : deeper (next (field pfx o 8)) h with ⟨ret,child,h'⟩
  rw [hr] at hdeep
  rcases hdeep with ⟨h1,h2,h3,hok⟩ | ⟨h1,h2,h3,hfail⟩ | ⟨h1,h2,h3,x,hx,hxp⟩
  · simp only at h1 h2 h3
    subst h1
    refine .added _ rfl rfl ?_ h3 (by rwa [hmiss])
    exact hB.update (by omega) (by rwa [hlen]) h2
  · simp only at h1 h2 h3
    subst h1
    refine .refused h' rfl ?_ h3 (by rwa [hmiss])
    simp only [h2,Function.update_eq_self]
  · simp only at h1 h2 h3 hx
    subst h1
    refine .stranded rfl (by rwa [hmiss]) (by rw [releaseEmpty_keys,h3]) ⟨x,?_,hxp⟩
    rw [entriesOf_release]
    apply mem_branch (field_lt pfx o 8)
    rwa [Function.update_self]

theorem addTable_block (hB : Below (keysOf h) R pfx o 8 next) (ho : 16 ≤ o) (h8 : o%8 = 0) (hon : o < n)
    (hlen : (keysOf h).len ptr = n) (hag : Agree ((keysOf h).pfx ptr) pfx n)
    (habs : ∀ q ∈ R, ¬ HasKey (keysOf h) id n pfx q) (hlong : ¬ 8 < n-o) :
    TableOutcome R pfx o n ptr t head next h
      (lpmAddTable fibCallbacks id n deeper pfx ptr o head t next h) := by
  unfold lpmAddTable
  rw [lpmIndex_octet h8]
  simp only [if_neg hlong]
  have hmiss : missingBelow pfx n o next = 0 := if_neg hlong
  obtain ⟨m,rfl⟩ : ∃ m, n = o+m := ⟨n-o,by omega⟩
  simp only [Nat.add_sub_cancel_left] at hlong ⊢
  have hm : m ≤ 8 := by omega
  rw [alignIndex_field (by omega)]
  obtain ⟨k,hspec,hcount⟩ := addLoop_open ptr (blockBase pfx o 8 m) 0
    (fun j hj => block_index (by simpa using hj)) (hB.isOpen hm habs)
  rw [Nat.add_zero] at hspec
  rw [hspec.ok]
  have hspread : spread (o+m) = 2^(8-m) := by
    unfold spread
    congr 1
    omega
  by_cases hall : k = 2^(8-m)
  · simp only [hall,decide_true,if_true]
    refine .added _ rfl rfl ?_ hspec.keys ?_
    · exact hB.insert (by omega) hm ⟨by omega,by omega⟩ hlen hag
        (fun j hj => hspec.grown j (by omega)) (fun y hy => hspec.same y (by omega))
    · intro j hj
      exact hspec.granted j (by omega)
  · have hlt : k < 2^(8-m) := lt_of_le_of_ne hspec.le hall
    simp only [hall,decide_false,Bool.false_eq_true,if_false]
    rcases Nat.eq_zero_or_pos k with rfl | hpos
    · refine .refused _ rfl ?_ hspec.keys ⟨0,by omega,hspec.refused hlt⟩
      have hsame : (lpmAddLoop fibCallbacks id (o+m) ptr (blockBase pfx o 8 m) (2^(8-m)) 0 next h).nodes =
          next := by
        funext y
        exact hspec.same y (by omega)
      simp only [lpmRollback,hsame]
    · refine .stranded rfl ?_ ?_ ?_
      · rw [hmiss,hspread]
        refine ⟨k,hpos,hlt,?_,?_⟩
        · intro j hj
          exact hspec.granted j (by omega)
        · simpa using hspec.refused hlt
      · rw [releaseEmpty_keys]
        exact hspec.keys
      · obtain ⟨-,big,small,-,hset,-,-⟩ := hspec.grown 0 hpos
        refine ⟨⟨h.calls+0,ptr⟩,?_,rfl⟩
        rw [entriesOf_release]
        apply mem_branch (block_lt pfx o hm (Nat.two_pow_pos _))
        apply head_le_entriesOf
        simp only [lpmRollback]
        rw [hset]
        simp

theorem addTable_outcome (hB : Below (keysOf h) R pfx o 8 next) (ho : 16 ≤ o) (h8 : o%8 = 0) (hon : o < n)
    (hlen : (keysOf h).len ptr = n) (hag : Agree ((keysOf h).pfx ptr) pfx n)
    (habs : ∀ q ∈ R, ¬ HasKey (keysOf h) id n pfx q)
    (hdeep : 8 < n-o → AddOutcome R pfx (o+8) n ptr (next (field pfx o 8)) h
      (deeper (next (field pfx o 8)) h)) :
    TableOutcome R pfx o n ptr t head next h
      (lpmAddTable fibCallbacks id n deeper pfx ptr o head t next h) := by
  by_cases hlong : 8 < n-o
  · exact addTable_deeper hB h8 hlen hag hlong (hdeep hlong)
  · exact addTable_block hB ho h8 hon hlen hag habs hlong

end Table

theorem releaseEmpty_used {head : List LpmEntry} {t : ℕ} {next : ℕ → LpmNode} (h : Heap FibEntry)
    (hne : ¬ unused next = true) :
    releaseEmpty head t next h = (.branch head t next,h) := by
  unfold releaseEmpty
  rw [if_neg hne]

theorem releaseEmpty_fresh (head : List LpmEntry) (t : ℕ) (h : Heap FibEntry) :
    releaseEmpty head t (fun _ => lpmInitNode) h = (.leaf head,h.free t) := by
  unfold releaseEmpty
  rw [if_pos (unused_iff.mpr fun _ _ => rfl)]

theorem Granted.of_alloc {k : ℕ} (hok : h.ok h.calls = true) (hg : Granted h.alloc.2 k) :
    Granted h (k+1) := by
  intro j hj
  cases j with
  | zero => simpa using hok
  | succ j =>
    have := hg j (by omega)
    rw [Heap.alloc_ok,Heap.alloc_calls] at this
    rwa [show h.calls+(j+1) = h.calls+1+j by omega]

theorem Stranded.of_alloc {t range : ℕ} (hok : h.ok h.calls = true)
    (hs : Stranded h.alloc.2 t range) : Stranded h (t+1) range := by
  obtain ⟨k,hpos,hlt,hg,hr⟩ := hs
  rw [Heap.alloc_ok,Heap.alloc_calls] at hr
  refine ⟨k,hpos,hlt,?_,?_⟩
  · rw [show t+1+k = t+k+1 by omega]
    exact hg.of_alloc hok
  · rwa [show h.calls+(t+1+k) = h.calls+1+(t+k) by omega]

/-- A node with a table, in terms of the outcome behind its creation. -/
theorem AddOutcome.of_branch {t : ℕ} {head : List LpmEntry} {next : ℕ → LpmNode}
    {r : Bool × LpmNode × Heap FibEntry} (hA : At (keysOf h) R pfx o (.branch head t next))
    (h8 : o%8 = 0) (hon : o < n) (hlen : (keysOf h).len ptr = n)
    (hag : Agree ((keysOf h).pfx ptr) pfx n)
    (hr : TableOutcome R pfx o n ptr t head next h r) :
    AddOutcome R pfx o n ptr (.branch head t next) h r := by
  obtain ⟨hh,hpass,hB⟩ := at_branch.mp hA
  have hmiss : missingTables pfx n (.branch head t next) o = missingBelow pfx n o next := by
    rw [missingTables,lpmIndex_octet h8]
    rfl
  rcases hr with ⟨next',h1,h2,h3,h4,hok⟩ | ⟨h',h1,h2,h3,hfail⟩ | ⟨h1,h2,h3,hleft⟩
  · refine .added h1 ?_ h4 (by rwa [hmiss])
    rw [h2]
    refine at_branch.mpr ⟨?_,⟨ptr,by simp,by omega,hag.mono (by omega)⟩,h3⟩
    have hns : ¬ Stored (keysOf h) pfx o ptr := by
      rintro ⟨⟨hle,-⟩,-⟩
      omega
    simpa [hns] using hh
  · rw [releaseEmpty_used h' (hB.nonempty hpass)] at h2
    refine .refused h1 ?_ ?_ (by rwa [hmiss])
    · rw [h2]
    · rw [h2]
      exact h3
  · exact .stranded h1 (by rwa [hmiss]) h3 hleft

theorem AddOutcome.of_leaf {head : List LpmEntry} {r : Bool × LpmNode × Heap FibEntry}
    (hok : h.ok h.calls = true) (hA : At (keysOf h) R pfx o (.leaf head))
    (hon : o < n) (hlen : (keysOf h).len ptr = n) (hag : Agree ((keysOf h).pfx ptr) pfx n)
    (hr : TableOutcome R pfx o n ptr h.calls head (fun _ => lpmInitNode) h.alloc.2 r) :
    AddOutcome R pfx o n ptr (.leaf head) h r := by
  obtain ⟨hh,hno⟩ := hA
  have hmiss : missingTables pfx n (.leaf head) o = missingBelow pfx n o (fun _ => lpmInitNode)+1 := by
    simp only [missingBelow,lpmInitNode,missingTables]
    split <;> omega
  rcases hr with ⟨next',h1,h2,h3,h4,hgr⟩ | ⟨h',h1,h2,h3,j,hj,hfail⟩ | ⟨h1,h2,h3,hleft⟩
  · rw [keysOf_alloc] at h3 h4
    refine .added h1 ?_ h4 ?_
    · rw [h2]
      refine at_branch.mpr ⟨?_,⟨ptr,by simp,by omega,hag.mono (by omega)⟩,h3⟩
      have hns : ¬ Stored (keysOf h) pfx o ptr := by
        rintro ⟨⟨hle,-⟩,-⟩
        omega
      simpa [hns] using hh
    · rw [hmiss,Nat.add_right_comm]
      exact hgr.of_alloc hok
  · rw [keysOf_alloc] at h3
    rw [releaseEmpty_fresh] at h2
    rw [Heap.alloc_ok,Heap.alloc_calls] at hfail
    refine .refused h1 ?_ ?_ ⟨j+1,by omega,?_⟩
    · rw [h2]
    · rw [h2,keysOf_free]
      exact h3
    · rwa [show h.calls+(j+1) = h.calls+1+j by omega]
  · rw [keysOf_alloc] at h3
    refine .stranded h1 ?_ h3 hleft
    rw [hmiss]
    exact h2.of_alloc hok

theorem addRec_outcome {depth : ℕ} (hA : At (keysOf h) R pfx o node) (ho : 16 ≤ o) (h8 : o%8 = 0)
    (hon : o < n) (hdepth : depth = (n-o+7)/8) (hlen : (keysOf h).len ptr = n)
    (hag : Agree ((keysOf h).pfx ptr) pfx n) (habs : ∀ q ∈ R, ¬ HasKey (keysOf h) id n pfx q) :
    AddOutcome R pfx o n ptr node h (lpmAddRec fibCallbacks id n pfx ptr depth node o h) := by
  induction depth generalizing node o h with
  | zero => omega
  | succ depth ih =>
    cases node with
    | leaf head =>
      rw [lpmAddRec]
      cases hok : h.ok h.calls with
      | false =>
        have ha : h.alloc = (none,h.alloc.2) := Prod.ext (Heap.alloc_none hok) rfl
        rw [ha]
        exact .refused rfl rfl (keysOf_alloc h) ⟨0,by omega,hok⟩
      | true =>
        have ha : h.alloc = (some h.calls,h.alloc.2) := Prod.ext (Heap.alloc_some hok) rfl
        rw [ha]
        have hK := keysOf_alloc h
        have hB := below_fresh ho hA.2
        apply AddOutcome.of_leaf hok hA hon hlen hag
        apply addTable_outcome
        · rwa [hK]
        · exact ho
        · exact h8
        · exact hon
        · rwa [hK]
        · rwa [hK]
        · rwa [hK]
        · intro hlong
          rw [← hK] at hlen hag habs hB
          exact ih (hB pfx (Agree.refl _ _)) (by omega) (by omega) (by omega) (by omega)
            hlen hag habs
    | branch head table next =>
      rw [lpmAddRec]
      obtain ⟨-,-,hB⟩ := at_branch.mp hA
      apply AddOutcome.of_branch hA h8 hon hlen hag
      apply addTable_outcome hB ho h8 hon hlen hag habs
      intro hlong
      exact ih (hB pfx (Agree.refl _ _)) (by omega) (by omega) (by omega) (by omega) hlen hag habs

/-- Deleting what a loop has just inserted gives the nodes back. -/
theorem rollback_grown {k c : ℕ} (hptr : Named (keysOf h) id n ptr)
    (hidx : ∀ j, j < i+k → index ||| j = index+j)
    (hgrown : ∀ j < k, Grown (keysOf h) id n ⟨c+j,ptr⟩ (nodes (index+i+j)) (nodes' (index+i+j)))
    (hsame : ∀ y, y < index+i ∨ index+i+k ≤ y → nodes' y = nodes y) :
    (lpmRollback fibCallbacks id n index k i nodes' h).1 = nodes ∧
      keysOf (lpmRollback fibCallbacks id n index k i nodes' h).2 = keysOf h := by
  induction k generalizing i nodes' h c with
  | zero =>
    refine ⟨?_,rfl⟩
    funext y
    exact hsame y (by omega)
  | succ k ih =>
    obtain ⟨hno,big,small,hhead,hset,-,-⟩ := hgrown 0 (by omega)
    rw [Nat.add_zero] at hno hhead hset
    have hbig : ∀ x ∈ big, ¬ Named (keysOf h) id n x.ptr := by
      intro x hx
      exact hno x (by rw [hhead]; simp [hx])
    have hdel : lpmEntryDelete fibCallbacks id n h (big ++ ⟨c+0,ptr⟩::small) =
        some (big ++ small,(fibEntryPut h ptr).free (c+0)) := entryDelete_first hbig hptr
    have hback : (nodes' (index+i)).setHead (big ++ small) = nodes (index+i) := by
      rw [hset,LpmNode.setHead_setHead,← hhead,LpmNode.setHead_head]
    rw [lpmRollback,hidx i (by omega),hset,LpmNode.head_setHead,hdel,← hset]
    simp only [hback]
    have hkeys : keysOf ((fibEntryPut h ptr).free (c+0)) = keysOf h := by simp
    set h₁ := (fibEntryPut h ptr).free (c+0)
    set nodes₁ := Function.update nodes' (index+i) (nodes (index+i)) with hnodes₁
    have hgrown₁ : ∀ j < k, Grown (keysOf h₁) id n ⟨c+1+j,ptr⟩ (nodes (index+(i+1)+j))
        (nodes₁ (index+(i+1)+j)) := by
      intro j hj
      rw [hkeys,hnodes₁,Function.update_of_ne (by omega)]
      simpa [Nat.add_assoc,Nat.add_comm,Nat.add_left_comm] using hgrown (j+1) (by omega)
    have hsame₁ : ∀ y, y < index+(i+1) ∨ index+(i+1)+k ≤ y → nodes₁ y = nodes y := by
      intro y hy
      by_cases hyi : y = index+i
      · rw [hnodes₁,hyi,Function.update_self]
      · rw [hnodes₁,Function.update_of_ne hyi]
        exact hsame y (by omega)
    have hrec := ih (by rwa [hkeys]) (fun j hj => hidx j (by omega)) hgrown₁ hsame₁
    exact ⟨hrec.1,hrec.2.trans hkeys⟩

theorem addRec_present (ptr : ℕ) {depth : ℕ} (hA : At (keysOf h) R pfx o node) (ho : 16 ≤ o) (h8 : o%8 = 0)
    (hon : o < n) (hdepth : depth = (n-o+7)/8) (hp : p ∈ R) (hkey : HasKey (keysOf h) id n pfx p) :
    ∃ h', lpmAddRec fibCallbacks id n pfx ptr depth node o h = (false,node,h') ∧ keysOf h' = keysOf h := by
  have hpass : Passes (keysOf h) pfx o p := ⟨by rw [hkey.1.2]; exact hon,hkey.2.mono (by omega)⟩
  induction depth generalizing node o with
  | zero => omega
  | succ depth ih =>
    cases node with
    | leaf head => exact absurd hpass (hA.2 p hp)
    | branch head table next =>
      obtain ⟨-,hpassing,hB⟩ := at_branch.mp hA
      have hused : ∀ h' : Heap FibEntry,
          releaseEmpty head table next h' = (.branch head table next,h') :=
        fun h' => releaseEmpty_used h' (hB.nonempty hpassing)
      rw [lpmAddRec]
      unfold lpmAddTable
      rw [lpmIndex_octet h8]
      by_cases hlong : 8 < n-o
      · obtain ⟨h',hr,hk⟩ := ih (hB pfx (Agree.refl _ _)) (by omega) (by omega) (by omega) (by omega)
          ⟨by rw [hkey.1.2]; omega,hkey.2.mono (by omega)⟩
        refine ⟨h',?_,hk⟩
        simp only [if_pos hlong,hr,Function.update_eq_self,hused]
      · obtain ⟨m,rfl⟩ : ∃ m, n = o+m := ⟨n-o,by omega⟩
        simp only [Nat.add_sub_cancel_left] at hlong ⊢
        have hm : m ≤ 8 := by omega
        rw [if_neg hlong,alignIndex_field (by omega)]
        obtain ⟨x,hx,hxp⟩ := hB.holds hm ⟨by omega,by omega⟩ hp hkey 0 (Nat.two_pow_pos _)
        have hnamed : ∃ x ∈ (next (blockBase pfx o 8 m ||| 0)).head, Named (keysOf h) id (o+m) x.ptr :=
          ⟨x,by simpa using hx,hxp ▸ hkey.1⟩
        obtain ⟨c,hc⟩ : ∃ c, 2^(8-m) = c+1 := ⟨2^(8-m)-1,by have := Nat.two_pow_pos (8-m); omega⟩
        rw [hc,addLoop_named hnamed]
        simp only [lpmRollback,Bool.false_eq_true,if_false,hused]
        refine ⟨_,rfl,?_⟩
        split <;> simp

end FibTable
end Ixmap
