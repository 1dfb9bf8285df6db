import Ixmap.FibRefine

/-! Deleting a route undoes adding it, down to the structure of the trie, and a reachable trie has
exactly the tables that its routes need. -/
namespace Ixmap
namespace FibTable
open BlockHeap PrefixBits Lpm StableOrder

variable {R : List ℕ} {pfx a : Bytes} {o w n m ptr : ℕ} {id : ℤ}
variable {h : Heap FibEntry} {node : LpmNode} {nodes : ℕ → LpmNode}

/-- The loops of an addition and a deletion over the block of a new route cancel. The heap may have
changed in between, but not what it says about the entries. -/
theorem block_undone (hB : Below (keysOf h) R pfx o w nodes) (hm : m ≤ w)
    (hok : ∀ j, h.ok j = true) (hname : Named (keysOf h) id (o+m) ptr)
    (habs : ∀ q ∈ R, ¬ HasKey (keysOf h) id (o+m) pfx q) :
    ∃ nodes' h₁, (∃ c, lpmAddLoop fibCallbacks id (o+m) ptr (blockBase pfx o w m) (2^(w-m)) 0 nodes h =
        ⟨true,c,nodes',h₁⟩) ∧
      ∀ h', keysOf h' = keysOf h → ∃ c h'', lpmDeleteLoop fibCallbacks id (o+m)
        (blockBase pfx o w m) (2^(w-m)) 0 nodes' h' = ⟨true,c,nodes,h''⟩ := by
  have hidx : ∀ j, j < 0+2^(w-m) → blockBase pfx o w m ||| j = blockBase pfx o w m+j :=
    fun j hj => block_index (by omega)
  obtain ⟨k,hspec,-⟩ := addLoop_open ptr (blockBase pfx o w m) 0 hidx (hB.isOpen hm habs)
  have hall : k = 2^(w-m) := by
    by_contra hne
    have hfail := hspec.refused (lt_of_le_of_ne hspec.le hne)
    simp [hok] at hfail
  subst hall
  rcases hr : lpmAddLoop fibCallbacks id (o+m) ptr (blockBase pfx o w m) (2^(w-m)) 0 nodes h
    with ⟨ret,c,nodes',h₁⟩
  rw [hr] at hspec
  have hret : ret = true := by simpa using hspec.ok
  subst hret
  refine ⟨nodes',h₁,⟨c,rfl⟩,fun h' hk => ?_⟩
  have hname' : Named (keysOf h') id (o+m) ptr := by rwa [hk]
  have hgrown := hspec.grown
  rw [← hk] at hgrown
  have hdel := (deleteLoop_holds _ 0 hidx fun j hj => (hgrown j hj).holds hname').ok
  have hback := (rollback_grown hname' hidx hgrown hspec.same).1
  rw [rollback_eq hdel] at hback
  rcases hd : lpmDeleteLoop fibCallbacks id (o+m) (blockBase pfx o w m) (2^(w-m)) 0 nodes' h'
    with ⟨ret,c',nodes'',h''⟩
  simp only [hd] at hdel hback
  exact ⟨c',h'',by rw [hdel,hback]⟩

/-- `r` is the outcome of an addition that the deletion of the same route takes back, in any heap
that says the same about the entries. -/
def Undone (id : ℤ) (n : ℕ) (pfx : Bytes) (o : ℕ) (node : LpmNode) (h : Heap FibEntry)
    (r : Bool × LpmNode × Heap FibEntry) : Prop :=
  r.1 = true ∧ ∀ h', keysOf h' = keysOf h →
    ∃ h'', lpmDeleteRec fibCallbacks id n pfx r.2.1 o h' = (true,node,h'')

/-- The deletion finds the table as it was before the addition, and looks whether it is in use. -/
theorem addTable_undone (head : List LpmEntry) (t : ℕ) {next : ℕ → LpmNode}
    (deeper : LpmNode → Heap FibEntry → Bool × LpmNode × Heap FibEntry)
    (hB : Below (keysOf h) R pfx o 8 next) (h8 : o%8 = 0) (hon : o < n) (hok : ∀ j, h.ok j = true)
    (hname : Named (keysOf h) id n ptr)
    (habs : ∀ q ∈ R, ¬ HasKey (keysOf h) id n pfx q)
    (hdeep : 8 < n-o → Undone id n pfx (o+8) (next (field pfx o 8)) h (deeper (next (field pfx o 8)) h)) :
    ∃ next' h₁, lpmAddTable fibCallbacks id n deeper pfx ptr o head t next h =
        (true,.branch head t next',h₁) ∧
      ∀ h', keysOf h' = keysOf h → ∃ h'', lpmDeleteRec fibCallbacks id n pfx (.branch head t next') o h' =
        (true,releaseEmpty head t next h'') := by
  unfold lpmAddTable
  simp only [lpmDeleteRec,lpmIndex_octet h8]
  by_cases hlong : 8 < n-o
  · obtain ⟨hret,hundo⟩ := hdeep hlong
    rcases hr : deeper (next (field pfx o 8)) h with ⟨ret,child,h₁⟩
    rw [hr] at hret hundo
    simp only at hret
    subst hret
    refine ⟨Function.update next (field pfx o 8) child,h₁,by simp only [if_pos hlong],?_⟩
    intro h' hk
    obtain ⟨h'',hdel⟩ := hundo h' hk
    refine ⟨h'',?_⟩
    simp only [if_pos hlong,Function.update_self,hdel,Function.update_idem,Function.update_eq_self]
  · obtain ⟨m,rfl⟩ : ∃ m, n = o+m := ⟨n-o,by omega⟩
    simp only [Nat.add_sub_cancel_left] at hlong ⊢
    have hm : m ≤ 8 := by omega
    simp only [if_neg hlong,alignIndex_field (show 8 ≤ 32 by omega)]
    obtain ⟨next',h₁,⟨c,hadd⟩,hundo⟩ := block_undone hB hm hok hname habs
    refine ⟨next',h₁,by simp only [hadd,if_true],?_⟩
    intro h' hk
    obtain ⟨c',h'',hdel⟩ := hundo h' hk
    exact ⟨h'',by simp only [hdel,if_true]⟩

/-- A table that the addition had to allocate is found unused; any other is in use. -/
theorem addRec_undone {depth : ℕ} (hA : At (keysOf h) R pfx o node) (ho : 16 ≤ o) (h8 : o%8 = 0)
    (hon : o < n) (hdepth : depth = (n-o+7)/8) (hok : ∀ j, h.ok j = true)
    (hname : Named (keysOf h) id n ptr) (habs : ∀ q ∈ R, ¬ HasKey (keysOf h) id n pfx q) :
    Undone id n pfx o node h (lpmAddRec fibCallbacks id n pfx ptr depth node o h) := by
  induction depth generalizing node o h with
  | zero => omega
  | succ depth ih =>
    cases node with
    | leaf head =>
      have ha : h.alloc = (some h.calls,h.alloc.2) := Prod.ext (Heap.alloc_some (hok _)) rfl
      have hB := below_fresh ho hA.2
      have hok' : ∀ j, h.alloc.2.ok j = true := by simpa using hok
      rw [← keysOf_alloc] at hname habs hB
      rw [lpmAddRec,ha]
      obtain ⟨next',h₁,hadd,hundo⟩ := addTable_undone head h.calls
        (fun node h => lpmAddRec fibCallbacks id n pfx ptr depth node (o+8) h) hB h8 hon hok' hname habs
        fun hlong =>
        ih (hB pfx (Agree.refl _ _)) (by omega) (by omega) (by omega) (by omega) hok' hname habs
      simp only [hadd]
      refine ⟨rfl,fun h' hk => ?_⟩
      obtain ⟨h'',hdel⟩ := hundo h' (by rw [hk,keysOf_alloc])
      exact ⟨h''.free h.calls,by rw [hdel,releaseEmpty_fresh]⟩
    | branch head table next =>
      obtain ⟨-,hpass,hB⟩ := at_branch.mp hA
      rw [lpmAddRec]
      obtain ⟨next',h₁,hadd,hundo⟩ := addTable_undone head table
        (fun node h => lpmAddRec fibCallbacks id n pfx ptr depth node (o+8) h) hB h8 hon hok hname habs
        fun hlong =>
        ih (hB pfx (Agree.refl _ _)) (by omega) (by omega) (by omega) (by omega) hok hname habs
      rw [hadd]
      refine ⟨rfl,fun h' hk => ?_⟩
      obtain ⟨h'',hdel⟩ := hundo h' hk
      exact ⟨h'',by rw [hdel,releaseEmpty_used h'' (hB.nonempty hpass)]⟩

theorem lpmAdd_undone {table : ℕ → LpmNode} (hB : Below (keysOf h) R pfx 0 16 table)
    (hok : ∀ j, h.ok j = true) (hname : Named (keysOf h) id n ptr)
    (habs : ∀ q ∈ R, ¬ HasKey (keysOf h) id n pfx q) :
    ∃ table' h₁, lpmAdd fibCallbacks id n table pfx ptr h = (true,table',h₁) ∧
      ∀ h', keysOf h' = keysOf h →
        ∃ h'', lpmDelete fibCallbacks id n table' pfx h' = (true,table,h'') := by
  unfold lpmAdd lpmDelete
  simp only [lpmIndex_root]
  by_cases hlong : 16 < n
  · obtain ⟨hret,hundo⟩ := addRec_undone (hB pfx (Agree.refl _ _)) le_rfl rfl hlong rfl hok hname habs
    rw [← depthOf] at hret hundo
    rcases hr : lpmAddRec fibCallbacks id n pfx ptr (depthOf n) (table (field pfx 0 16)) 16 h
      with ⟨ret,child,h₁⟩
    rw [hr] at hret hundo
    simp only at hret
    subst hret
    refine ⟨Function.update table (field pfx 0 16) child,h₁,by simp only [if_pos hlong],?_⟩
    intro h' hk
    obtain ⟨h'',hdel⟩ := hundo h' hk
    refine ⟨h'',?_⟩
    simp only [if_pos hlong,Function.update_self,hdel,Function.update_idem,Function.update_eq_self]
  · obtain ⟨m,rfl⟩ : ∃ m, n = 0+m := ⟨n,by omega⟩
    have hm : m ≤ 16 := by omega
    obtain ⟨table',h₁,⟨c,hadd⟩,hundo⟩ := block_undone hB hm hok hname habs
    simp only [Nat.zero_add] at hlong hadd hundo ⊢
    simp only [if_neg hlong,alignIndex_field (show 16 ≤ 32 by omega)]
    refine ⟨table',h₁,by simp only [hadd,if_true],?_⟩
    intro h' hk
    obtain ⟨c',h'',hdel⟩ := hundo h' hk
    exact ⟨h'',by rw [hdel]⟩

section Fib
variable {S : Set ℕ} {fib fib' : Fib} {r : Route} {routes : List AbsRoute}

theorem FibInv.live_eq (hI : FibInv S fib R) (hI' : FibInv S fib' R) (htable : fib'.table = fib.table)
    (hblock : fib'.block = fib.block) (b : ℕ) : fib'.desc.live b = fib.desc.live b := by
  obtain ⟨c,-,hb⟩ := hI.books
  obtain ⟨c',-,hb'⟩ := hI'.books
  rw [outside,htable,hblock] at hb'
  exact hb.owns.live_eq hb'.owns b

theorem FibInv.undone (hI : FibInv S fib R) (hok : ∀ j, fib.desc.ok j = true) (hr : r.Valid)
    (ht : ¬ Taken fib r.pfx r.prefixLen r.id) :
    ∃ fib₁ fib₂, fibRouteUpdate fib r = (true,fib₁) ∧
      fibRouteDelete fib₁ r.pfx r.prefixLen r.id = (true,fib₂) ∧ fib₂.table = fib.table ∧
      ∀ b, fib₂.desc.live b = fib.desc.live b := by
  obtain ⟨size,hsize,hlen⟩ := hr.exists_size
  have hkey := prepared_hasKey fib hlen
  have hoks : ∀ j, (prepared fib r size).ok j = true := by simpa [prepared] using hok
  have habs : ∀ q ∈ R, ¬ HasKey (keysOf (prepared fib r size)) r.id r.prefixLen r.pfx q :=
    fun q hq hk => ht (hI.taken_iff.mpr ⟨q,hq,(hI.prepared_key hq).mp hk⟩)
  obtain ⟨table,desc,hadd,hundo⟩ := lpmAdd_undone (hI.prepared_below r.pfx) hoks hkey.1 habs
  have hout := hI.update hsize hlen
  have hupd := fibRouteUpdate_prepared (hok fib.desc.calls) hsize
  rw [hadd] at hupd
  simp only at hupd
  rw [hupd] at hout
  rcases hout with ⟨-,-,hI₁,hkeys⟩ | ⟨h1,-⟩ | ⟨h1,-⟩ | ⟨h1,-⟩
  · obtain ⟨desc',hdel⟩ := hundo desc hkeys
    have hpres := hI₁.delete_present (List.mem_cons_self) (by rw [hkeys]; exact hkey)
    have hrest : (fib.desc.calls::R).filter (· ≠ fib.desc.calls) = R := by
      rw [List.filter_cons_of_neg (by simp)]
      exact List.filter_eq_self.mpr fun q hq =>
        decide_eq_true fun he => hI.calls_notMem (he ▸ hq)
    have hcall : fibRouteDelete { fib with table, desc } r.pfx r.prefixLen r.id =
        (true,{ fib with desc := desc' }) := by
      unfold fibRouteDelete
      rw [hdel]
    rw [hcall,hrest] at hpres
    exact ⟨_,_,hupd,hcall,rfl,hI.live_eq hpres.2.1 rfl rfl⟩
  all_goals simp at h1

end Fib

/-- The node that `k` octets behind the first sixteen bits of an address lead to. -/
def nodeBelow (a : Bytes) : ℕ → LpmNode → ℕ → Option LpmNode
  | 0, node, _ => some node
  | _+1, .leaf _, _ => none
  | k+1, .branch _ _ next, offset => nodeBelow a k (next (lpmIndex a offset 8)) (offset+8)

def nodeAt (table : ℕ → LpmNode) (a : Bytes) (k : ℕ) : Option LpmNode :=
  nodeBelow a k (table (lpmIndex a 0 16)) 16

def hasTable : LpmNode → Bool
  | .leaf _ => false
  | .branch _ _ _ => true

variable {K : Keys} {node' : LpmNode} {k : ℕ}

theorem At.nodeBelow (hA : At K R a o node) (h8 : o%8 = 0) (hn : nodeBelow a k node o = some node') :
    At K R a (o+8*k) node' := by
  induction k generalizing node o with
  | zero =>
    obtain rfl : node = node' := by simpa [FibTable.nodeBelow] using hn
    exact hA
  | succ k ih =>
    cases node with
    | leaf head => simp [FibTable.nodeBelow] at hn
    | branch head table next =>
      rw [FibTable.nodeBelow,lpmIndex_octet h8] at hn
      have := ih (hA.2.2 a (Agree.refl a o)) (by omega) hn
      rwa [show o+8*(k+1) = o+8+8*k by omega]

theorem At.hasTable_iff (hA : At K R a o node) : hasTable node = true ↔ ∃ p ∈ R, Passes K a o p := by
  cases node with
  | leaf head => simpa [hasTable] using hA.2
  | branch head table next => simpa [hasTable] using hA.2.1

theorem At.eq_init (hA : At K [] a o node) : node = lpmInitNode := by
  cases node with
  | leaf head => simpa [lpmInitNode] using hA.1
  | branch head table next => simpa using hA.2.1

section Abstract
variable {fib : Fib} {routes : List AbsRoute} {s : AbsRoute} {p : ℕ}

/-- The abstract route is longer than `o` bits and starts as the address does. -/
def AbsRoute.through (s : AbsRoute) (a : Bytes) (o : ℕ) : Bool :=
  decide (o < s.len) && s.bits.take o == prefixBits a o

theorem Says.passes_iff (hs : Says s (K.entry p)) : Passes K a o p ↔ s.through a o = true := by
  rw [AbsRoute.through,Bool.and_eq_true,decide_eq_true_iff,beq_iff_eq,← hs.len_eq,hs.bits_eq]
  refine and_congr_right fun hlt => ?_
  have htake : (prefixBits (K.pfx p) (K.len p)).take o = prefixBits (K.pfx p) o := by
    rw [prefixBits,← List.map_take,List.take_range,min_eq_left hlt.le]
    rfl
  rw [htake,prefixBits_inj]

theorem Rep.hasTable_iff (h : Rep fib routes) (hn : nodeAt fib.table a k = some node) :
    hasTable node = true ↔ ∃ s ∈ routes, s.through a (16+8*k) = true := by
  obtain ⟨-,R,hI,hf⟩ := h
  rw [nodeAt,lpmIndex_root] at hn
  have hA := (hI.root a a (Agree.refl a 0)).nodeBelow rfl hn
  rw [Nat.zero_add] at hA
  rw [hA.hasTable_iff,← List.any_eq_true]
  exact forall₂_exists (fun p s hs => hs.passes_iff) hf

theorem Rep.table_init (h : Rep fib []) {i : ℕ} (hi : i < tableSize16) : fib.table i = lpmInitNode := by
  obtain ⟨-,R,hI,hf⟩ := h
  obtain rfl := List.forall₂_nil_right_iff.mp hf
  obtain ⟨b,-,hfield⟩ := exists_field (fun _ => 0) 0 16 (tableSize16_eq ▸ hi)
  rw [← hfield]
  exact (hI.root b b (Agree.refl b 0)).eq_init

end Abstract

/-- Deleting undoes adding: in every table reached by updates and deletions, with allocation
succeeding, a new route can be added and deleted, and both the trie and the set of allocated blocks
are then what they were. A node has a table iff a route longer than its path runs through it, and
without routes no table is left. -/
theorem fib_delete_undoes (v : ℕ → FibEntry) (ops : List FibOp) (hops : ∀ op ∈ ops, op.Valid) :
    ∃ fib, fibAlloc (Heap.init (fun _ => true) v) = some fib ∧
      (∀ r : Route, r.Valid → ¬ Taken (fibRun fib ops).2 r.pfx r.prefixLen r.id →
        ∃ fib₁ fib₂, fibRouteUpdate (fibRun fib ops).2 r = (true,fib₁) ∧
          fibRouteDelete fib₁ r.pfx r.prefixLen r.id = (true,fib₂) ∧
          fib₂.table = (fibRun fib ops).2.table ∧
          ∀ b, fib₂.desc.live b = (fibRun fib ops).2.desc.live b) ∧
      (∀ a k node, nodeAt (fibRun fib ops).2.table a k = some node →
        (hasTable node = true ↔
          ∃ s ∈ (absRun [] (ops.map FibOp.abs)).2, s.through a (16+8*k) = true)) ∧
      ((absRun [] (ops.map FibOp.abs)).2 = [] →
        ∀ i < tableSize16, (fibRun fib ops).2.table i = lpmInitNode) := by
  obtain ⟨fib,hfib,hinit⟩ := rep_init v
  have hrep := (hinit.run hops).2
  refine ⟨fib,hfib,?_,fun a k node hn => hrep.hasTable_iff hn,?_⟩
  · obtain ⟨hok,R,hI,-⟩ := hrep
    exact fun r hr ht => hI.undone hok hr ht
  · intro hnil i hi
    rw [hnil] at hrep
    exact hrep.table_init hi

def tenSubnet : List FibOp := [.update { tenNet with prefixLen := 24 }]

theorem fib_delete_undoes_tenNet : (∀ op ∈ tenSubnet, op.Valid) ∧
    ∃ fib, fibAlloc (Heap.init (fun _ => true) fun _ => initEntry default tenNet 4) = some fib ∧
      (∃ fib₁ fib₂, fibRouteUpdate (fibRun fib tenSubnet).2 tenNet = (true,fib₁) ∧
        fibRouteDelete fib₁ tenNet.pfx 8 1 = (true,fib₂) ∧ fib₂.table = (fibRun fib tenSubnet).2.table) ∧
      hasTable ((fibRun fib tenSubnet).2.table (lpmIndex tenNet.pfx 0 16)) = true := by
  have hops : ∀ op ∈ tenSubnet, op.Valid := by
    simp [tenSubnet,FibOp.Valid,Route.Valid,tenNet]
  obtain ⟨fib,hfib,hundo,htables,-⟩ := fib_delete_undoes _ tenSubnet hops
  obtain ⟨fib',hfib',hinit⟩ := rep_init fun _ => initEntry default tenNet 4
  obtain rfl : fib = fib' := Option.some.inj (hfib.symm.trans hfib')
  obtain ⟨-,R,hI,hf⟩ := (hinit.run hops).2
  have hfree : ¬ Taken (fibRun fib tenSubnet).2 tenNet.pfx tenNet.prefixLen tenNet.id := by
    rw [taken_iff_any hI hf]
    decide
  obtain ⟨fib₁,fib₂,hadd,hdel,htable,-⟩ := hundo tenNet (Or.inl ⟨rfl,by decide⟩) hfree
  exact ⟨hops,fib,hfib,⟨fib₁,fib₂,hadd,hdel,htable⟩,
    (htables tenNet.pfx 0 _ rfl).mpr ⟨_,List.mem_singleton.mpr rfl,by decide⟩⟩

end FibTable
end Ixmap
