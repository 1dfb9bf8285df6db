import Ixmap.FibTrieAdd
import Ixmap.FibBlocks

/-! What deleting a route does to the trie invariant and to the books. -/
namespace Ixmap
namespace FibTable
open BlockHeap PrefixBits Lpm StableOrder

variable {K : Keys} {R : List ℕ} {pfx b : Bytes} {o w n m p index i : ℕ} {id : ℤ}
variable {h : Heap FibEntry} {node node' : LpmNode} {nodes nodes' : ℕ → LpmNode} {e : LpmEntry}
variable {S : Set ℕ} {rest c : ℕ → ℕ}

/-- `node'` is `node` without one entry of route `p`. -/
def Shrunk (p : ℕ) (node node' : LpmNode) : Prop :=
  ∃ big e small, e.ptr = p ∧ node.head = big ++ e::small ∧ node' = node.setHead (big ++ small)

/-- Route `p` has an entry in the list, and no other route there has its name. -/
structure Holds (K : Keys) (id : ℤ) (n p : ℕ) (node : LpmNode) : Prop where
  mem : ∃ x ∈ node.head, x.ptr = p
  named : Named K id n p
  only : ∀ x ∈ node.head, Named K id n x.ptr → x.ptr = p

theorem Holds.delete (hh : Holds (keysOf h) id n p node) :
    ∃ big e small, e.ptr = p ∧ node.head = big ++ e::small ∧
      lpmEntryDelete fibCallbacks id n h node.head = some (big ++ small,(fibEntryPut h p).free e.addr) := by
  obtain ⟨x,hx,hxp⟩ := hh.mem
  have hfind : (node.head.find? fun x => Named (keysOf h) id n x.ptr).isSome := by
    rw [List.find?_isSome]
    exact ⟨x,hx,decide_eq_true (hxp ▸ hh.named)⟩
  obtain ⟨e,he⟩ := Option.isSome_iff_exists.mp hfind
  obtain ⟨hnamed,big,small,hsplit,hbig⟩ := List.find?_eq_some_iff_append.mp he
  have hname := of_decide_eq_true hnamed
  have hep : e.ptr = p := hh.only e (by rw [hsplit]; simp) hname
  have hno : ∀ y ∈ big, ¬ Named (keysOf h) id n y.ptr := by
    intro y hy
    simpa using hbig y hy
  refine ⟨big,e,small,hep,hsplit,?_⟩
  rw [hsplit,entryDelete_first hno hname,hep]

/-- The deletion loop over nodes that all hold the route. -/
structure DeleteLoopSpec (p base m : ℕ) (nodes : ℕ → LpmNode) (h : Heap FibEntry)
    (r : LoopRes FibEntry) : Prop where
  ok : r.ok = true
  keys : keysOf r.heap = keysOf h
  shrunk : ∀ j < m, Shrunk p (nodes (base+j)) (r.nodes (base+j))
  same : ∀ y, y < base ∨ base+m ≤ y → r.nodes y = nodes y

theorem deleteLoop_holds (index i : ℕ) (hidx : ∀ j, j < i+m → index ||| j = index+j)
    (hholds : ∀ j < m, Holds (keysOf h) id n p (nodes (index+i+j))) :
    DeleteLoopSpec p (index+i) m nodes h (lpmDeleteLoop fibCallbacks id n index m i nodes h) := by
  induction m generalizing i nodes h with
  | zero => exact ⟨rfl,rfl,by simp,fun _ _ => rfl⟩
  | succ m ih =>
    obtain ⟨big,e,small,hep,hsplit,hdel⟩ := (hholds 0 (by omega)).delete
    rw [Nat.add_zero] at hsplit hdel
    rw [lpmDeleteLoop,hidx i (by omega),hdel]
    dsimp only
    set nodes₁ := Function.update nodes (index+i) ((nodes (index+i)).setHead (big ++ small)) with hnodes₁
    have hother : ∀ y, y ≠ index+i → nodes₁ y = nodes y := fun y hy => by simp [hnodes₁,hy]
    have hself : nodes₁ (index+i) = (nodes (index+i)).setHead (big ++ small) := by simp [hnodes₁]
    have hkeys : keysOf ((fibEntryPut h p).free e.addr) = keysOf h := by simp
    have hholds₁ : ∀ j < m, Holds (keysOf ((fibEntryPut h p).free e.addr)) id n p
        (nodes₁ (index+(i+1)+j)) := by
      intro j hj
      rw [hother _ (by omega),hkeys]
      simpa [Nat.add_assoc,Nat.add_comm,Nat.add_left_comm] using hholds (j+1) (by omega)
    have hspec := ih (i+1) (fun j hj => hidx j (by omega)) hholds₁
    refine ⟨hspec.ok,hspec.keys.trans hkeys,?_,?_⟩
    · intro j hj
      cases j with
      | zero =>
        rw [Nat.add_zero,hspec.same _ (by omega),hself]
        exact ⟨big,e,small,hep,hsplit,rfl⟩
      | succ j =>
        have hrec := hspec.shrunk j (by omega)
        rw [hother _ (by omega)] at hrec
        rwa [show index+i+(j+1) = index+(i+1)+j by omega]
    · intro y hy
      rw [hspec.same y (by omega),hother y (by omega)]

/-- The deletion loop keeps the books and gives the route back with its last entry. -/
theorem deleteLoop_books {size : ℕ} (index i : ℕ) (hidx : ∀ j, j < i+(m+1) → index ||| j = index+j)
    (hsize : ∀ j, j < i+(m+1) → index+j < size)
    (hholds : ∀ j < m+1, Holds (keysOf h) id n p (nodes (index+i+j)))
    (hb : ArrayBooks S (rest + Pi.single p 1) c size nodes h)
    (hz : c p + refs (entriesIn size (lpmDeleteLoop fibCallbacks id n index (m+1) i nodes h).nodes) p = 0) :
    ArrayBooks S rest c size (lpmDeleteLoop fibCallbacks id n index (m+1) i nodes h).nodes
      (lpmDeleteLoop fibCallbacks id n index (m+1) i nodes h).heap := by
  induction m generalizing i nodes h with
  | zero =>
    obtain ⟨big,e,small,hep,hsplit,hdel⟩ := (hholds 0 (by omega)).delete
    subst hep
    rw [Nat.add_zero] at hsplit hdel
    have hy := hsize i (by omega)
    have hperm : (nodes (index+i)).head.Perm (e::(big ++ small)) := by
      rw [hsplit]
      exact List.perm_middle
    rw [lpmDeleteLoop,hidx i (by omega),hdel] at hz ⊢
    simp only [lpmDeleteLoop] at hz ⊢
    unfold ArrayBooks at hb ⊢
    rw [entriesIn_delete hy hperm,← tablesIn_setHead hy nodes (big ++ small)] at hb
    exact hb.put_last hz
  | succ m ih =>
    obtain ⟨big,e,small,hep,hsplit,hdel⟩ := (hholds 0 (by omega)).delete
    subst hep
    rw [Nat.add_zero] at hsplit hdel
    have hy := hsize i (by omega)
    have hperm : (nodes (index+i)).head.Perm (e::(big ++ small)) := by
      rw [hsplit]
      exact List.perm_middle
    rw [lpmDeleteLoop,hidx i (by omega),hdel] at hz ⊢
    dsimp only at hz ⊢
    set nodes₁ := Function.update nodes (index+i) ((nodes (index+i)).setHead (big ++ small)) with hnodes₁
    have hkeys : keysOf ((fibEntryPut h e.ptr).free e.addr) = keysOf h := by simp
    have hother : ∀ y, y ≠ index+i → nodes₁ y = nodes y := fun y hy => by simp [hnodes₁,hy]
    have hholds₁ : ∀ j < m+1, Holds (keysOf ((fibEntryPut h e.ptr).free e.addr)) id n e.ptr
        (nodes₁ (index+(i+1)+j)) := by
      intro j hj
      rw [hother _ (by omega),hkeys]
      simpa [Nat.add_assoc,Nat.add_comm,Nat.add_left_comm] using hholds (j+1) (by omega)
    have hkept : c e.ptr+refs (entriesIn size nodes₁) e.ptr ≠ 0 := by
      obtain ⟨x,hx,hxp⟩ := (hholds₁ 0 (by omega)).mem
      rw [Nat.add_zero] at hx
      have hmem := mem_entriesIn.mpr ⟨index+(i+1),hsize (i+1) (by omega),head_le_entriesOf _ hx⟩
      have hpos : 0 < refs (entriesIn size nodes₁) e.ptr := by
        rw [← hxp]
        exact Multiset.count_pos.mpr (Multiset.mem_map_of_mem _ hmem)
      omega
    unfold ArrayBooks at hb
    rw [entriesIn_delete hy hperm,← tablesIn_setHead hy nodes (big ++ small)] at hb
    exact ih (i+1) (fun j hj => hidx j (by omega)) (fun j hj => hsize j (by omega)) hholds₁
      (hb.put_kept hkept) hz

/-- A rollback whose deletions all succeed is the deletion loop. -/
theorem rollback_eq (hok : (lpmDeleteLoop fibCallbacks id n index m i nodes h).ok = true) :
    lpmRollback fibCallbacks id n index m i nodes h =
      ((lpmDeleteLoop fibCallbacks id n index m i nodes h).nodes,
        (lpmDeleteLoop fibCallbacks id n index m i nodes h).heap) := by
  induction m generalizing i nodes h with
  | zero => rfl
  | succ m ih =>
    rw [lpmDeleteLoop] at hok
    rw [lpmRollback,lpmDeleteLoop]
    cases hd : lpmEntryDelete fibCallbacks id n h (nodes (index ||| i)).head with
    | none =>
      rw [hd] at hok
      exact Bool.noConfusion hok
    | some r =>
      rw [hd] at hok
      exact ih hok

theorem deleteLoop_absent (hno : ∀ x ∈ (nodes (index ||| i)).head, ¬ Named (keysOf h) id n x.ptr) :
    lpmDeleteLoop fibCallbacks id n index (m+1) i nodes h = ⟨false,i,nodes,h⟩ := by
  rw [lpmDeleteLoop,entryDelete_absent hno]

theorem At.filter_untouched (hA : At K R b o node) (ht : ¬ Touches K b o p) :
    At K (R.filter (· ≠ p)) b o node := by
  apply hA.congr_routes
  rw [List.filter_filter]
  apply List.filter_congr
  intro q _
  by_cases hq : q = p
  · subst hq
    simp [ht]
  · simp [hq]

theorem filter_ne_stored (a : Bytes) (o : ℕ) : ((R.filter (· ≠ p)).filter fun q => Stored K a o q) =
    (R.filter fun q => Stored K a o q).filter (· ≠ p) := by
  rw [List.filter_filter,List.filter_filter]
  apply List.filter_congr
  intro q _
  rw [Bool.and_comm]

/-- A node that gives up the entry of a route it stores represents the other routes. -/
theorem At.shrink (hA : At K R b o node) (ho : 16 ≤ o) (hs : Shrunk p node node') (hR : R.Nodup)
    (hle : K.len p ≤ o) : At K (R.filter (· ≠ p)) b o node' := by
  obtain ⟨big,e,small,hep,hhead,rfl⟩ := hs
  have hlist : (big ++ small).map LpmEntry.ptr =
      sortDesc K.len ((R.filter (· ≠ p)).filter fun q => Stored K b o q) := by
    have hh := hA.head
    rw [filter_ne_stored,sortDesc_filter,← hh,hhead]
    have hnd : ((big ++ e::small).map LpmEntry.ptr).Nodup := by
      rw [← hhead,hh]
      exact (sortDesc_perm K.len _).nodup_iff.mpr (hR.filter _)
    simp only [List.map_append,List.map_cons,List.nodup_append,List.nodup_cons] at hnd
    obtain ⟨-,⟨hsm,-⟩,hdis⟩ := hnd
    have hbig : (big.map LpmEntry.ptr).filter (· ≠ p) = big.map LpmEntry.ptr := by
      apply List.filter_eq_self.mpr
      intro q hq
      exact decide_eq_true (hep ▸ hdis q hq e.ptr (by simp))
    have hsmall : (small.map LpmEntry.ptr).filter (· ≠ p) = small.map LpmEntry.ptr := by
      apply List.filter_eq_self.mpr
      intro q hq
      exact decide_eq_true (fun he => hsm (by rw [hep,← he]; exact hq))
    rw [List.map_append,List.map_append,List.map_cons,List.filter_append,hbig,List.filter_cons,hsmall]
    simp [hep]
  have hpass : ∀ q, q ∈ R → Passes K b o q → q ∈ R.filter (· ≠ p) := by
    intro q hq hps
    refine List.mem_filter.mpr ⟨hq,decide_eq_true ?_⟩
    rintro rfl
    have := hps.1
    omega
  cases node with
  | leaf head =>
    refine ⟨hlist,?_⟩
    intro q hq
    exact hA.2 q (List.mem_filter.mp hq).1
  | branch head table next =>
    obtain ⟨-,⟨q,hq,hps⟩,hc⟩ := hA
    refine ⟨hlist,⟨q,hpass q hq hps,hps⟩,?_⟩
    intro c hbc
    apply (hc c hbc).filter_untouched
    rintro ⟨hlev,-⟩
    omega

theorem Below.delete (hB : Below K R pfx o w nodes) (ho : 16 ≤ o+w) (hm : m ≤ w) (hR : R.Nodup)
    (hkey : HasKey K id (o+m) pfx p)
    (hshrunk : ∀ j < 2^(w-m), Shrunk p (nodes (blockBase pfx o w m+j)) (nodes' (blockBase pfx o w m+j)))
    (hsame : ∀ y, y < blockBase pfx o w m ∨ blockBase pfx o w m+2^(w-m) ≤ y → nodes' y = nodes y) :
    Below K (R.filter (· ≠ p)) pfx o w nodes' := by
  have hlen := hkey.1.2
  intro b hab
  by_cases hin : Agree pfx b (o+m)
  · obtain ⟨hlo,hhi⟩ := (mem_block hab hm).mp hin
    have hs := hshrunk (field b o w-blockBase pfx o w m) (by omega)
    rw [Nat.add_sub_cancel' hlo] at hs
    exact (hB b hab).shrink ho hs hR (by omega)
  · have hout : field b o w < blockBase pfx o w m ∨ blockBase pfx o w m+2^(w-m) ≤ field b o w := by
      by_contra hc
      exact hin ((mem_block hab hm).mpr (by omega))
    rw [hsame _ hout]
    apply (hB b hab).filter_untouched
    rintro ⟨-,ht⟩
    rw [hlen,min_eq_left (by omega)] at ht
    exact hin (hkey.2.symm.trans ht)

theorem Below.replace {child : LpmNode} (hB : Below K R pfx o w nodes)
    (hkey : HasKey K id n pfx p) (hlen : o+w < n)
    (hchild : At K (R.filter (· ≠ p)) pfx (o+w) child) :
    Below K (R.filter (· ≠ p)) pfx o w (Function.update nodes (field pfx o w) child) := by
  refine below_update hchild fun b hab hin => (hB b hab).filter_untouched ?_
  rintro ⟨-,ht⟩
  rw [hkey.1.2,min_eq_right (by omega)] at ht
  exact hin ((hkey.2.mono (by omega)).symm.trans ht)

theorem Below.passing (hB : Below K R pfx o 8 nodes) (ho : 16 ≤ o)
    (hne : ¬ unused nodes = true) : ∃ p ∈ R, Passes K pfx o p := by
  rw [unused_iff] at hne
  push Not at hne
  obtain ⟨i,hi,hused⟩ := hne
  obtain ⟨b,hab,hf⟩ := exists_field pfx o 8 hi
  have hA := hB b hab
  rw [hf] at hA
  cases hn : nodes i with
  | branch head table next =>
    rw [hn] at hA
    obtain ⟨-,⟨p,hp,hlt,hag⟩,-⟩ := hA
    exact ⟨p,hp,by omega,(hag.mono (by omega)).trans hab.symm⟩
  | leaf head =>
    rw [hn] at hA hused
    cases head with
    | nil => exact absurd rfl hused
    | cons e head =>
      have hmem : e.ptr ∈ sortDesc K.len (R.filter fun p => Stored K b (o+8) p) := by
        rw [← hA.1]
        simp
      rw [mem_sortDesc,List.mem_filter] at hmem
      obtain ⟨hR,hst⟩ := hmem
      obtain ⟨⟨-,hlev⟩,hag⟩ := of_decide_eq_true hst
      exact ⟨e.ptr,hR,by omega,(hag.mono (by omega)).trans hab.symm⟩

/-- The test for emptiness keeps exactly the tables that are needed. -/
theorem Below.release {head : List LpmEntry} {t : ℕ} (hB : Below K R pfx o 8 nodes) (ho : 16 ≤ o)
    (hh : head.map LpmEntry.ptr = sortDesc K.len (R.filter fun p => Stored K pfx o p)) :
    At K R pfx o (releaseEmpty head t nodes h).1 := by
  by_cases hall : unused nodes = true
  · unfold releaseEmpty
    rw [if_pos hall]
    refine ⟨hh,?_⟩
    intro p hp hpass
    exact hB.nonempty ⟨p,hp,hpass⟩ hall
  · rw [releaseEmpty_used h hall]
    exact at_branch.mpr ⟨hh,hB.passing ho hall,hB⟩

theorem Below.isHeld (hB : Below K R pfx o w nodes) (hm : m ≤ w) (hlev : InLevel (o+w) (o+m))
    (hp : p ∈ R) (hkey : HasKey K id (o+m) pfx p)
    (huniq : ∀ q ∈ R, HasKey K id (o+m) pfx q → q = p) :
    ∀ j < 2^(w-m), Holds K id (o+m) p (nodes (blockBase pfx o w m+j)) := by
  intro j hj
  refine ⟨hB.holds hm hlev hp hkey j hj,hkey.1,?_⟩
  intro x hx hnamed
  obtain ⟨b,hab,hin,hf⟩ := exists_block_path pfx o hm hj
  have hh := (hB b hab).head
  rw [hf] at hh
  have hmem : x.ptr ∈ (nodes (blockBase pfx o w m+j)).head.map LpmEntry.ptr := List.mem_map_of_mem hx
  rw [hh,mem_sortDesc,List.mem_filter] at hmem
  obtain ⟨hR,hst⟩ := hmem
  have hcov := (of_decide_eq_true hst).2
  rw [hnamed.2] at hcov
  exact huniq x.ptr hR ⟨hnamed,hcov.trans hin.symm⟩

theorem stored_filter_above (hlt : o < K.len p) :
    ((R.filter (· ≠ p)).filter fun q => Stored K pfx o q) = R.filter fun q => Stored K pfx o q := by
  rw [filter_ne_stored]
  apply List.filter_eq_self.mpr
  intro q hq
  have hst := of_decide_eq_true (List.mem_filter.mp hq).2
  apply decide_eq_true
  rintro rfl
  have := hst.1.1
  omega

/-- A release of entries of route `p` that leaves no reference to it gives its block back. -/
def GivesBack (p : ℕ) (node : LpmNode) (h : Heap FibEntry) (r : LpmNode × Heap FibEntry) : Prop :=
  ∀ S rest c, NodeBooks S (rest + Pi.single p 1) c node h →
    c p + refs (entriesOf r.1) p = 0 → NodeBooks S rest c r.1 r.2

theorem GivesBack.child {head : List LpmEntry} {t y : ℕ} {next : ℕ → LpmNode}
    {r : LpmNode × Heap FibEntry} (hy : y < tableSize8) (hg : GivesBack p (next y) h r) :
    GivesBack p (.branch head t next) h (releaseEmpty head t (Function.update next y r.1) r.2) := by
  intro S rest c hb hz
  rw [entriesOf_release] at hz
  apply releaseEmpty_books
  apply nodeBooks_branch.mpr
  apply (arrayBooks_child hy).mpr
  apply hg
  · have hself := nodeBooks_branch.mp hb
    rw [← Function.update_eq_self y next] at hself
    have hnode := (arrayBooks_child hy).mp hself
    rwa [add_right_comm rest,add_right_comm (rest + _)] at hnode
  · change c p + refs ((head : Multiset LpmEntry) + entriesIn tableSize8 (Function.update next y r.1)) p = 0 at hz
    rw [entriesIn_child hy,refs_add,refs_add] at hz
    simp only [Pi.add_apply]
    omega

theorem GivesBack.loop {head : List LpmEntry} {t : ℕ} {next : ℕ → LpmNode} (hm : m ≤ 8)
    (hholds : ∀ j < 2^(8-m), Holds (keysOf h) id n p (next (blockBase pfx o 8 m+j))) :
    GivesBack p (.branch head t next) h
      (releaseEmpty head t (lpmDeleteLoop fibCallbacks id n (blockBase pfx o 8 m) (2^(8-m)) 0 next h).nodes
        (lpmDeleteLoop fibCallbacks id n (blockBase pfx o 8 m) (2^(8-m)) 0 next h).heap) := by
  intro S rest c hb hz
  obtain ⟨k,hk⟩ : ∃ k, 2^(8-m) = k+1 := ⟨2^(8-m)-1,by have := Nat.two_pow_pos (8-m); omega⟩
  rw [entriesOf_release] at hz
  apply releaseEmpty_books
  apply nodeBooks_branch.mpr
  have harr := nodeBooks_branch.mp hb
  rw [add_right_comm rest] at harr
  rw [hk] at hz hholds ⊢
  refine deleteLoop_books (blockBase pfx o 8 m) 0 ?_ ?_ (by simpa using hholds) harr ?_
  · intro j hj
    exact block_index (by omega)
  · intro j hj
    exact block_lt pfx o hm (by omega)
  · change c p + refs ((head : Multiset LpmEntry) + entriesIn tableSize8 _) p = 0 at hz
    rw [refs_add] at hz
    rw [Pi.add_apply]
    omega

theorem deleteRec_present (hA : At (keysOf h) R pfx o node) (ho : 16 ≤ o) (h8 : o%8 = 0) (hon : o < n)
    (hR : R.Nodup) (hp : p ∈ R) (hkey : HasKey (keysOf h) id n pfx p)
    (huniq : ∀ q ∈ R, HasKey (keysOf h) id n pfx q → q = p) :
    ∃ r, lpmDeleteRec fibCallbacks id n pfx node o h = (true,r) ∧
      At (keysOf h) (R.filter (· ≠ p)) pfx o r.1 ∧ keysOf r.2 = keysOf h ∧ GivesBack p node h r := by
  have hpass : Passes (keysOf h) pfx o p := ⟨by rw [hkey.1.2]; exact hon,hkey.2.mono (by omega)⟩
  induction node generalizing o with
  | leaf head => exact absurd hpass (hA.2 p hp)
  | branch head table next ih =>
    obtain ⟨hh,hpassing,hB⟩ := at_branch.mp hA
    rw [← stored_filter_above hpass.1] at hh
    rw [lpmDeleteRec,lpmIndex_octet h8]
    by_cases hlong : 8 < n-o
    · obtain ⟨r,hr,hA',hk,hg⟩ := ih (field pfx o 8) (hB pfx (Agree.refl _ _)) (by omega) (by omega)
        (by omega) ⟨by rw [hkey.1.2]; omega,hkey.2.mono (by omega)⟩
      simp only [if_pos hlong,hr]
      refine ⟨_,rfl,?_,?_,hg.child (field_lt pfx o 8)⟩
      · exact (hB.replace hkey (by omega) hA').release ho hh
      · rw [releaseEmpty_keys,hk]
    · obtain ⟨m,rfl⟩ : ∃ m, n = o+m := ⟨n-o,by omega⟩
      simp only [Nat.add_sub_cancel_left] at hlong ⊢
      have hm : m ≤ 8 := by omega
      rw [if_neg hlong,alignIndex_field (by omega)]
      have hholds := hB.isHeld hm ⟨by omega,by omega⟩ hp hkey huniq
      have hspec := deleteLoop_holds (blockBase pfx o 8 m) 0
        (fun j hj => block_index (by simpa using hj)) hholds
      rw [Nat.add_zero] at hspec
      simp only [hspec.ok,if_true]
      refine ⟨_,rfl,?_,?_,GivesBack.loop hm hholds⟩
      · exact (hB.delete (by omega) hm hR hkey hspec.shrunk hspec.same).release ho hh
      · rw [releaseEmpty_keys,hspec.keys]

theorem deleteRec_absent (hA : At (keysOf h) R pfx o node) (h8 : o%8 = 0) (hon : o < n)
    (habs : ∀ q ∈ R, ¬ HasKey (keysOf h) id n pfx q) :
    lpmDeleteRec fibCallbacks id n pfx node o h = (false,node,h) := by
  induction node generalizing o with
  | leaf head => rfl
  | branch head table next ih =>
    obtain ⟨hh,hpassing,hB⟩ := at_branch.mp hA
    rw [lpmDeleteRec,lpmIndex_octet h8]
    by_cases hlong : 8 < n-o
    · have hr := ih (field pfx o 8) (hB pfx (Agree.refl _ _)) (by omega) (by omega)
      simp only [if_pos hlong,hr,Function.update_eq_self]
    · obtain ⟨m,rfl⟩ : ∃ m, n = o+m := ⟨n-o,by omega⟩
      simp only [Nat.add_sub_cancel_left] at hlong ⊢
      have hm : m ≤ 8 := by omega
      rw [if_neg hlong,alignIndex_field (by omega)]
      have hopen := (hB.isOpen hm habs 0 (Nat.two_pow_pos _)).2
      obtain ⟨c,hc⟩ : ∃ c, 2^(8-m) = c+1 := ⟨2^(8-m)-1,by have := Nat.two_pow_pos (8-m); omega⟩
      rw [hc,deleteLoop_absent (by simpa using hopen)]
      rfl

theorem lpmDelete_present {table : ℕ → LpmNode} (hB : Below (keysOf h) R pfx 0 16 table)
    (hR : R.Nodup) (hp : p ∈ R) (hkey : HasKey (keysOf h) id n pfx p)
    (huniq : ∀ q ∈ R, HasKey (keysOf h) id n pfx q → q = p) :
    ∃ r, lpmDelete fibCallbacks id n table pfx h = (true,r) ∧
      Below (keysOf h) (R.filter (· ≠ p)) pfx 0 16 r.1 ∧ keysOf r.2 = keysOf h ∧
      ∀ S rest c, ArrayBooks S (rest + Pi.single p 1) c tableSize16 table h →
        c p + refs (entriesIn tableSize16 r.1) p = 0 → ArrayBooks S rest c tableSize16 r.1 r.2 := by
  unfold lpmDelete
  rw [lpmIndex_root]
  by_cases hlong : 16 < n
  · obtain ⟨r,hr,hA,hk,hg⟩ := deleteRec_present (hB pfx (Agree.refl _ _)) le_rfl rfl hlong hR hp
      hkey huniq
    rw [Nat.zero_add] at hr
    simp only [if_pos hlong,hr]
    refine ⟨_,rfl,hB.replace hkey (by omega) hA,hk,?_⟩
    intro S rest c hb hz
    have hy : field pfx 0 16 < tableSize16 := tableSize16_eq ▸ field_lt pfx 0 16
    apply (arrayBooks_child hy).mpr
    apply hg
    · rw [← Function.update_eq_self (field pfx 0 16) table] at hb
      have hnode := (arrayBooks_child hy).mp hb
      rwa [add_right_comm rest] at hnode
    · rw [entriesIn_child hy,refs_add] at hz
      simp only [Pi.add_apply]
      omega
  · obtain ⟨m,rfl⟩ : ∃ m, n = 0+m := ⟨n,by omega⟩
    simp only [Nat.zero_add] at hlong ⊢
    have hm : m ≤ 16 := by omega
    rw [if_neg hlong,alignIndex_field (by omega)]
    have hholds := hB.isHeld hm ⟨by omega,by omega⟩ hp hkey huniq
    have hspec := deleteLoop_holds (blockBase pfx 0 16 m) 0
      (fun j hj => block_index (by simpa using hj)) hholds
    simp only [Nat.add_zero,Nat.zero_add] at hspec hholds
    refine ⟨_,by rw [hspec.ok],?_,hspec.keys,?_⟩
    · exact hB.delete (by omega) hm hR hkey hspec.shrunk hspec.same
    · intro S rest c hb hz
      obtain ⟨k,hk⟩ : ∃ k, 2^(16-m) = k+1 := ⟨2^(16-m)-1,by have := Nat.two_pow_pos (16-m); omega⟩
      rw [hk] at hz hholds ⊢
      refine deleteLoop_books (blockBase pfx 0 16 m) 0 ?_ ?_ (by simpa using hholds) hb hz
      · intro j hj
        exact block_index (by omega)
      · intro j hj
        rw [tableSize16_eq]
        exact block_lt pfx 0 hm (by omega)

theorem lpmDelete_absent {table : ℕ → LpmNode} (hB : Below (keysOf h) R pfx 0 16 table)
    (habs : ∀ q ∈ R, ¬ HasKey (keysOf h) id n pfx q) :
    lpmDelete fibCallbacks id n table pfx h = (false,table,h) := by
  unfold lpmDelete
  rw [lpmIndex_root]
  by_cases hlong : 16 < n
  · have hr := deleteRec_absent (hB pfx (Agree.refl _ _)) rfl hlong habs
    rw [Nat.zero_add] at hr
    simp only [if_pos hlong,hr,Function.update_eq_self]
  · obtain ⟨m,rfl⟩ : ∃ m, n = 0+m := ⟨n,by omega⟩
    simp only [Nat.zero_add] at hlong ⊢
    have hm : m ≤ 16 := by omega
    rw [if_neg hlong,alignIndex_field (by omega)]
    have hopen := (hB.isOpen hm habs 0 (Nat.two_pow_pos _)).2
    obtain ⟨c,hc⟩ : ∃ c, 2^(16-m) = c+1 := ⟨2^(16-m)-1,by have := Nat.two_pow_pos (16-m); omega⟩
    rw [hc,deleteLoop_absent (by simpa using hopen)]

theorem At.ptr_mem (hA : At K R b o node) {x : LpmEntry} (hx : x ∈ entriesOf node) : x.ptr ∈ R := by
  have hhead : ∀ {b o node}, At K R b o node → x ∈ node.head → x.ptr ∈ R := by
    intro b o node hA hx
    have hmem : x.ptr ∈ node.head.map LpmEntry.ptr := List.mem_map_of_mem hx
    rw [hA.head,mem_sortDesc] at hmem
    exact (List.mem_filter.mp hmem).1
  induction node generalizing b o with
  | leaf head => exact hhead hA hx
  | branch head table next ih =>
    rcases Multiset.mem_add.mp hx with hx | hx
    · exact hhead hA hx
    · obtain ⟨i,hi,hx⟩ := mem_entriesIn.mp hx
      obtain ⟨a,hba,hf⟩ := exists_field b o 8 hi
      have hchild := hA.2.2 a hba
      rw [hf] at hchild
      exact ih i hchild hx

theorem Below.ptr_mem {table : ℕ → LpmNode} (hB : Below K R b 0 16 table) {x : LpmEntry}
    (hx : x ∈ entriesIn tableSize16 table) : x.ptr ∈ R := by
  obtain ⟨i,hi,hx⟩ := mem_entriesIn.mp hx
  rw [tableSize16_eq] at hi
  obtain ⟨a,hba,hf⟩ := exists_field b 0 16 hi
  have hchild := hB a hba
  rw [hf] at hchild
  exact hchild.ptr_mem hx

theorem Below.refs_eq_zero {table : ℕ → LpmNode} (hB : Below K R b 0 16 table) (hp : p ∉ R) :
    refs (entriesIn tableSize16 table) p = 0 := by
  apply refs_of_ne
  rintro x hx rfl
  exact hp (hB.ptr_mem hx)

end FibTable
end Ixmap
