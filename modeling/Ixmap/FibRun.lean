import Ixmap.FibUpdate

/-! Runs of `fib_route_update` and `fib_route_delete`: the invariant of a forwarding table and
what one call does to it. -/
namespace Ixmap
namespace FibTable
open BlockHeap PrefixBits Lpm StableOrder

/-- The owners of blocks outside the trie: the routes and the table itself. -/
def outside (fib : Fib) (R : List ℕ) : ℕ → ℕ := (fun b => R.count b) + Pi.single fib.block 1

def SameKey (K : Keys) (p q : ℕ) : Prop := HasKey K (K.id p) (K.len p) (K.pfx p) q

/-- A table that holds the routes `R`, newest first, with its books in order. -/
structure FibInv (S : Set ℕ) (fib : Fib) (R : List ℕ) : Prop where
  below : Below (keysOf fib.desc) R (fun _ => 0) 0 16 fib.table
  uniq : ∀ p ∈ R, ∀ q ∈ R, SameKey (keysOf fib.desc) p q → q = p
  books : ∃ c, (∀ p ∈ R, c p = 0) ∧
    ArrayBooks S (outside fib R) c tableSize16 fib.table fib.desc

/-- A route with the key is in the table. -/
def Taken (fib : Fib) (pfx : Bytes) (prefixLen : ℕ) (id : ℤ) : Prop :=
  ∃ x ∈ entriesIn tableSize16 fib.table, HasKey (keysOf fib.desc) id prefixLen pfx x.ptr

variable {S : Set ℕ} {fib : Fib} {R : List ℕ} {r : Route} {pfx : Bytes} {n p size : ℕ} {id : ℤ}

theorem agree_zero (a b : Bytes) : Agree a b 0 := fun _ hi => absurd hi (by omega)

namespace FibInv

theorem root (hI : FibInv S fib R) (a : Bytes) : Below (keysOf fib.desc) R a 0 16 fib.table :=
  hI.below.congr_path (agree_zero _ _)

theorem count_le (hI : FibInv S fib R) (b : ℕ) : R.count b ≤ (fib.desc.live b).toNat := by
  obtain ⟨c,-,hb⟩ := hI.books
  have := hb.owns.count b
  simp only [outside,Pi.add_apply] at this
  omega

theorem nodup (hI : FibInv S fib R) : R.Nodup := by
  apply List.nodup_iff_count_le_one.mpr
  intro b
  exact (hI.count_le b).trans (Bool.toNat_le _)

theorem live (hI : FibInv S fib R) (hp : p ∈ R) : fib.desc.live p = true := by
  have hle := hI.count_le p
  have hpos := List.count_pos_iff.mpr hp
  cases hl : fib.desc.live p with
  | true => rfl
  | false =>
    rw [hl] at hle
    simp only [Bool.toNat_false] at hle
    omega

theorem calls_notMem (hI : FibInv S fib R) : fib.desc.calls ∉ R := by
  intro hmem
  obtain ⟨c,-,hb⟩ := hI.books
  have := hI.live hmem
  rw [hb.fresh] at this
  exact Bool.noConfusion this

theorem calls_dead {c : ℕ → ℕ} {desc : Heap FibEntry} (hI : FibInv S fib R)
    (hb : ArrayBooks S (outside fib R) c tableSize16 fib.table desc) :
    desc.live fib.desc.calls = false := by
  obtain ⟨c',-,hb'⟩ := hI.books
  rw [hb'.owns.live_eq hb.owns]
  exact hb'.fresh

end FibInv

theorem At.exists_entry {K : Keys} {o : ℕ} {node : LpmNode} (hA : At K R (K.pfx p) o node)
    (hp : p ∈ R) (hlev : o ≤ 16 ∨ o < K.len p+8) : ∃ x ∈ entriesOf node, x.ptr = p := by
  induction node generalizing o with
  | leaf head =>
    have hle : K.len p ≤ o := by
      by_contra hlt
      exact hA.2 p hp ⟨by omega,Agree.refl _ _⟩
    have hmem : p ∈ (LpmNode.leaf head).head.map LpmEntry.ptr := by
      rw [hA.head,mem_sortDesc,List.mem_filter]
      exact ⟨hp,decide_eq_true ⟨⟨hle,hlev⟩,Agree.refl _ _⟩⟩
    exact List.mem_map.mp hmem
  | branch head table next ih =>
    by_cases hle : K.len p ≤ o
    · have hmem : p ∈ (LpmNode.branch head table next).head.map LpmEntry.ptr := by
        rw [hA.head,mem_sortDesc,List.mem_filter]
        exact ⟨hp,decide_eq_true ⟨⟨hle,hlev⟩,Agree.refl _ _⟩⟩
      obtain ⟨x,hx,hxp⟩ := List.mem_map.mp hmem
      exact ⟨x,head_le_entriesOf _ hx,hxp⟩
    · obtain ⟨x,hx,hxp⟩ := ih (field (K.pfx p) o 8) (hA.2.2 _ (Agree.refl _ _)) (by omega)
      exact ⟨x,mem_branch (field_lt _ o 8) hx,hxp⟩

theorem FibInv.exists_entry (hI : FibInv S fib R) (hp : p ∈ R) :
    ∃ x ∈ entriesIn tableSize16 fib.table, x.ptr = p := by
  obtain ⟨x,hx,hxp⟩ := (hI.root _ _ (Agree.refl ((keysOf fib.desc).pfx p) 0)).exists_entry hp
    (Or.inl le_rfl)
  exact ⟨x,mem_entriesIn.mpr ⟨_,tableSize16_eq ▸ field_lt _ 0 16,hx⟩,hxp⟩

theorem FibInv.taken_iff (hI : FibInv S fib R) :
    Taken fib pfx n id ↔ ∃ p ∈ R, HasKey (keysOf fib.desc) id n pfx p := by
  constructor
  · rintro ⟨x,hx,hkey⟩
    exact ⟨x.ptr,hI.below.ptr_mem hx,hkey⟩
  · rintro ⟨p,hp,hkey⟩
    obtain ⟨x,hx,rfl⟩ := hI.exists_entry hp
    exact ⟨x,hx,hkey⟩

/-- Supported families and lengths. -/
def Route.Valid (r : Route) : Prop :=
  (r.family = afInet ∧ r.prefixLen ≤ 32) ∨ (r.family = afInet6 ∧ r.prefixLen ≤ 128)

theorem Route.Valid.exists_size (hr : r.Valid) : ∃ size, addrSize r.family = some size ∧ r.prefixLen ≤ 8*size := by
  rcases hr with ⟨hf,hl⟩ | ⟨hf,hl⟩
  · exact ⟨4,by simp [addrSize,hf],by omega⟩
  · exact ⟨16,by simp [addrSize,hf,afInet,afInet6],by omega⟩

/-- The heap that `fib_route_update` hands to `lpm_add`, the new entry being block `calls`. -/
def prepared (fib : Fib) (r : Route) (size : ℕ) : Heap FibEntry :=
  fib.desc.alloc.2.write fib.desc.calls (initEntry (fib.desc.alloc.2.val fib.desc.calls) r size)

theorem prepared_other (hp : p ≠ fib.desc.calls) :
    (keysOf (prepared fib r size)).entry p = (keysOf fib.desc).entry p := by
  simp [keysOf,prepared,Heap.write,hp]

theorem prepared_self : (prepared fib r size).val fib.desc.calls =
    initEntry (fib.desc.alloc.2.val fib.desc.calls) r size := by
  simp [prepared,Heap.write]

theorem prepared_hasKey (fib : Fib) (hlen : r.prefixLen ≤ 8*size) :
    HasKey (keysOf (prepared fib r size)) r.id r.prefixLen r.pfx fib.desc.calls := by
  have hpfx : (keysOf (prepared fib r size)).pfx fib.desc.calls =
      memcpy (fib.desc.alloc.2.val fib.desc.calls).pfx r.pfx size := by
    simp [Keys.pfx,keysOf,prepared_self,initEntry]
  refine ⟨⟨?_,?_⟩,?_⟩
  · simp [Keys.id,keysOf,prepared_self,initEntry]
  · simp [Keys.len,keysOf,prepared_self,initEntry]
  · rw [hpfx]
    intro i hi
    have hlt : i/8 < size := by omega
    simp [bit,memcpy,hlt]

theorem fibRouteUpdate_failed (hok : fib.desc.ok fib.desc.calls = false) :
    fibRouteUpdate fib r = (false,{ fib with desc := fib.desc.alloc.2 }) := by
  have ha : fib.desc.alloc = (none,fib.desc.alloc.2) := Prod.ext (Heap.alloc_none hok) rfl
  unfold fibRouteUpdate
  rw [ha]

theorem fibRouteUpdate_prepared (hok : fib.desc.ok fib.desc.calls = true)
    (hsize : addrSize r.family = some size) : fibRouteUpdate fib r =
      match lpmAdd fibCallbacks r.id r.prefixLen fib.table r.pfx fib.desc.calls (prepared fib r size) with
      | (true,table,desc) => (true,{ fib with table, desc })
      | (false,table,desc) => (false,{ fib with table, desc := desc.free fib.desc.calls }) := by
  have ha : fib.desc.alloc = (some fib.desc.calls,fib.desc.alloc.2) := Prod.ext (Heap.alloc_some hok) rfl
  unfold fibRouteUpdate
  rw [ha]
  simp only [hsize]
  rfl

namespace FibInv

theorem prepared_same (hI : FibInv S fib R) (hp : p ∈ R) :
    (keysOf (prepared fib r size)).entry p = (keysOf fib.desc).entry p :=
  prepared_other fun he => hI.calls_notMem (he ▸ hp)

theorem prepared_below (hI : FibInv S fib R) (a : Bytes) :
    Below (keysOf (prepared fib r size)) R a 0 16 fib.table := by
  intro b hab
  apply (hI.root a b hab).congr_keys
  intro p hp
  simp only [Keys.len,Keys.pfx,hI.prepared_same hp,and_self]

theorem prepared_key (hI : FibInv S fib R) (hp : p ∈ R) :
    HasKey (keysOf (prepared fib r size)) id n pfx p ↔ HasKey (keysOf fib.desc) id n pfx p := by
  simp only [HasKey,Named,Keys.id,Keys.len,Keys.pfx,hI.prepared_same hp]

theorem prepared_books (hI : FibInv S fib R) (r : Route) (size : ℕ) (hok : fib.desc.ok fib.desc.calls = true) :
    ∃ c, (∀ p ∈ fib.desc.calls::R, c p = 0) ∧
      ArrayBooks S (outside fib R + Pi.single fib.desc.calls 1) c tableSize16 fib.table
        (prepared fib r size) := by
  obtain ⟨c,hc,hb⟩ := hI.books
  refine ⟨_,?_,(hb.alloc_rest hok).write_fresh _ (hI.below.refs_eq_zero hI.calls_notMem)⟩
  intro p hp
  by_cases hpc : p = fib.desc.calls
  · subst hpc
    simp [initEntry]
  · rw [Function.update_of_ne hpc]
    rcases List.mem_cons.mp hp with he | hp
    · exact absurd he hpc
    · exact hc p hp

end FibInv

/-- The routes `R` say the same in both states. -/
def SameRoutes (fib fib' : Fib) (R : List ℕ) : Prop :=
  ∀ p ∈ R, (keysOf fib'.desc).entry p = (keysOf fib.desc).entry p

theorem FibInv.of_same {fib' : Fib} {c : ℕ → ℕ} (hI : FibInv S fib R) (htable : fib'.table = fib.table)
    (hsame : SameRoutes fib fib' R) (hc : ∀ p ∈ R, c p = 0)
    (hb : ArrayBooks S (outside fib' R) c tableSize16 fib.table fib'.desc) : FibInv S fib' R := by
  refine ⟨?_,?_,c,hc,htable ▸ hb⟩
  · intro b hab
    rw [htable]
    apply (hI.below b hab).congr_keys
    intro p hp
    simp only [Keys.len,Keys.pfx,hsame p hp,and_self]
  · intro p hp q hq hkey
    apply hI.uniq p hp q hq
    simpa only [SameKey,HasKey,Named,Keys.id,Keys.len,Keys.pfx,hsame p hp,hsame q hq] using hkey

/-- The key is new and an allocation fails behind the first list entry. -/
def MidFailure (fib : Fib) (r : Route) : Prop :=
  ¬ Taken fib r.pfx r.prefixLen r.id ∧ fib.desc.ok fib.desc.calls = true ∧
    Stranded fib.desc.alloc.2 (tablesNeeded fib.table r.pfx r.prefixLen) (entriesNeeded r.prefixLen)

/-- What `fib_route_update` can do. -/
inductive UpdateOutcome (S : Set ℕ) (fib : Fib) (R : List ℕ) (r : Route) (size : ℕ)
    (res : Bool × Fib) : Prop where
  | added : res.1 = true → ¬ Taken fib r.pfx r.prefixLen r.id →
      FibInv S res.2 (fib.desc.calls::R) → keysOf res.2.desc = keysOf (prepared fib r size) →
      UpdateOutcome S fib R r size res
  | refused : res.1 = false → (Taken fib r.pfx r.prefixLen r.id ∨ ∃ j, fib.desc.ok j = false) →
      res.2.table = fib.table → FibInv S res.2 R → SameRoutes fib res.2 R →
      res.2.desc.ok = fib.desc.ok → UpdateOutcome S fib R r size res
  | rolledBack : res.1 = false → r.prefixLen ≤ 16 → MidFailure fib r → res.2.table = fib.table →
      (S = ∅ → FibInv S res.2 R) → SameRoutes fib res.2 R → UpdateOutcome S fib R r size res
  | stranded : res.1 = false → 16 < r.prefixLen → MidFailure fib r → UpdateOutcome S fib R r size res

theorem FibInv.alloc_failed (hI : FibInv S fib R) (hok : fib.desc.ok fib.desc.calls = false) :
    FibInv S { fib with desc := fib.desc.alloc.2 } R := by
  obtain ⟨c,hc,hb⟩ := hI.books
  have hsame : SameRoutes fib { fib with desc := fib.desc.alloc.2 } R := by
    intro p hp
    rw [keysOf_alloc]
  exact hI.of_same rfl hsame hc (hb.alloc_none hok)

/-- A refused update gives its entry back and leaves the rest alone. -/
theorem FibInv.refused {table : ℕ → LpmNode} {desc : Heap FibEntry} (hI : FibInv S fib R)
    (hok : fib.desc.ok fib.desc.calls = true) (htable : table = fib.table)
    (hkeys : keysOf desc = keysOf (prepared fib r size))
    (hbooks : KeepsBooks fib.table (prepared fib r size) (table,desc)) :
    FibInv S { fib with table, desc := desc.free fib.desc.calls } R ∧
      SameRoutes fib { fib with table, desc := desc.free fib.desc.calls } R := by
  obtain ⟨c,hc,hb⟩ := hI.prepared_books r size hok
  subst htable
  have hsame : SameRoutes fib { fib with desc := desc.free fib.desc.calls } R := by
    intro p hp
    rw [keysOf_free,hkeys,hI.prepared_same hp]
  exact ⟨hI.of_same rfl hsame (fun p hp => hc p (by simp [hp])) (hbooks S _ c hb).free_rest,hsame⟩

theorem FibInv.added {table : ℕ → LpmNode} {desc : Heap FibEntry} (hI : FibInv S fib R)
    (hok : fib.desc.ok fib.desc.calls = true) (hlen : r.prefixLen ≤ 8*size)
    (habs : ∀ q ∈ R, ¬ HasKey (keysOf (prepared fib r size)) r.id r.prefixLen r.pfx q)
    (hB : Below (keysOf (prepared fib r size)) (fib.desc.calls::R) r.pfx 0 16 table)
    (hkeys : keysOf desc = keysOf (prepared fib r size))
    (hbooks : KeepsBooks fib.table (prepared fib r size) (table,desc)) :
    FibInv S { fib with table, desc } (fib.desc.calls::R) := by
  obtain ⟨c,hc,hb⟩ := hI.prepared_books r size hok
  obtain ⟨⟨hid,hn⟩,hag⟩ := prepared_hasKey fib hlen
  have hout : outside { fib with table, desc } (fib.desc.calls::R) =
      outside fib R + Pi.single fib.desc.calls 1 := by
    funext b
    simp only [outside,Pi.add_apply,List.count_cons,Pi.single_apply]
    by_cases hbc : b = fib.desc.calls
    · simp [hbc]
      omega
    · simp [hbc,Ne.symm hbc]
  refine ⟨?_,?_,c,hc,?_⟩
  · rw [hkeys]
    exact hB.congr_path (agree_zero _ _)
  · rw [hkeys]
    intro p hp q hq hkey
    rcases List.mem_cons.mp hp with rfl | hp <;> rcases List.mem_cons.mp hq with rfl | hq
    · rfl
    · rw [SameKey,hid,hn] at hkey
      exact absurd ⟨hkey.1,hkey.2.trans hag⟩ (habs q hq)
    · obtain ⟨⟨hid',hn'⟩,hag'⟩ := hkey
      refine absurd ⟨⟨?_,?_⟩,?_⟩ (habs p hp)
      · rw [← hid',hid]
      · rw [← hn',hn]
      · rw [← hn,hn']
        exact hag'.symm.trans (hn' ▸ hn ▸ hag)
    · apply hI.uniq p hp q hq
      simpa only [SameKey,HasKey,Named,Keys.id,Keys.len,Keys.pfx,hI.prepared_same hp,
        hI.prepared_same hq] using hkey
  · rw [hout]
    exact hbooks S _ c hb

theorem FibInv.update (hI : FibInv S fib R) (hsize : addrSize r.family = some size)
    (hlen : r.prefixLen ≤ 8*size) : UpdateOutcome S fib R r size (fibRouteUpdate fib r) := by
  cases hok : fib.desc.ok fib.desc.calls with
  | false =>
    rw [fibRouteUpdate_failed hok]
    refine .refused rfl (Or.inr ⟨_,hok⟩) rfl (hI.alloc_failed hok) ?_ (Heap.alloc_ok _)
    intro p hp
    rw [keysOf_alloc]
  | true =>
    rw [fibRouteUpdate_prepared hok hsize]
    have hkey := prepared_hasKey fib hlen
    have hzero : ((prepared fib r size).val fib.desc.calls).refcount = 0 := by
      rw [prepared_self]
      rfl
    have hoks : ∀ desc, keysOf desc = keysOf (prepared fib r size) → desc.ok = fib.desc.ok := by
      intro desc hk
      have : (keysOf desc).ok = (keysOf (prepared fib r size)).ok := by rw [hk]
      simpa [keysOf,prepared] using this
    by_cases ht : Taken fib r.pfx r.prefixLen r.id
    · obtain ⟨p,hp,hpk⟩ := hI.taken_iff.mp ht
      obtain ⟨desc,hadd,hkeys,hbooks⟩ := lpmAdd_present fib.desc.calls (hI.prepared_below r.pfx) hp
        ((hI.prepared_key hp).mpr hpk) hzero
      rw [hadd]
      obtain ⟨hinv,hsame⟩ := hI.refused hok rfl hkeys hbooks
      exact .refused rfl (Or.inl ht) rfl hinv hsame (hoks desc hkeys)
    · have habs : ∀ q ∈ R, ¬ HasKey (keysOf (prepared fib r size)) r.id r.prefixLen r.pfx q := by
        intro q hq hk
        exact ht (hI.taken_iff.mpr ⟨q,hq,(hI.prepared_key hq).mp hk⟩)
      have hout := lpmAdd_outcome (hI.prepared_below r.pfx) hkey habs hzero
      rcases hr : lpmAdd fibCallbacks r.id r.prefixLen fib.table r.pfx fib.desc.calls
        (prepared fib r size) with ⟨ret,table,desc⟩
      rw [hr] at hout
      rcases hout with ⟨h1,h2,h3,h4,-⟩ | ⟨h1,h2,h3,h4,j,-,h5⟩ | ⟨h1,h2,h3,h4,h5,h6⟩ | ⟨h1,h2,h3,-,-⟩
      · simp only at h1
        subst h1
        exact .added rfl ht (hI.added hok hlen habs h2 h3 h4) h3
      · simp only at h1 h2
        subst h1
        obtain ⟨hinv,hsame⟩ := hI.refused hok h2 h3 h4
        have hfail : fib.desc.ok ((prepared fib r size).calls+j) = false := by
          rw [← hoks _ rfl]
          exact h5
        exact .refused rfl (Or.inr ⟨_,hfail⟩) h2 hinv hsame (hoks desc h3)
      · simp only at h1 h4
        subst h1
        obtain ⟨c,hc,hb⟩ := hI.prepared_books r size hok
        have hsame : SameRoutes fib { fib with table, desc := desc.free fib.desc.calls } R := by
          intro p hp
          rw [keysOf_free,h5,hI.prepared_same hp]
        refine .rolledBack rfl h2 ⟨ht,hok,h3⟩ h4 ?_ hsame
        intro hS
        have hb' := h6 S _ c hb (hc _ (by simp))
        rw [h4] at hb'
        exact hI.of_same h4 hsame (fun p hp => hc p (by simp [hp]))
          (hb'.free_dead (hI.calls_dead hb') (by simp [hS]))
      · simp only at h1
        subst h1
        exact .stranded rfl h2 ⟨ht,hok,h3⟩

theorem FibInv.delete_absent (hI : FibInv S fib R) (ht : ¬ Taken fib pfx n id) :
    fibRouteDelete fib pfx n id = (false,fib) := by
  unfold fibRouteDelete
  rw [lpmDelete_absent (hI.root pfx) fun q hq hk => ht (hI.taken_iff.mpr ⟨q,hq,hk⟩)]

theorem FibInv.same_key {q : ℕ} (hI : FibInv S fib R) (hp : p ∈ R)
    (hkey : HasKey (keysOf fib.desc) id n pfx p) (hq : q ∈ R)
    (hk : HasKey (keysOf fib.desc) id n pfx q) : q = p := by
  apply hI.uniq p hp q hq
  rw [SameKey,hkey.1.1,hkey.1.2]
  exact ⟨hk.1,hk.2.trans hkey.2.symm⟩

theorem FibInv.delete_present (hI : FibInv S fib R) (hp : p ∈ R)
    (hkey : HasKey (keysOf fib.desc) id n pfx p) :
    (fibRouteDelete fib pfx n id).1 = true ∧
      FibInv S (fibRouteDelete fib pfx n id).2 (R.filter (· ≠ p)) ∧
      keysOf (fibRouteDelete fib pfx n id).2.desc = keysOf fib.desc := by
  obtain ⟨res,hdel,hB,hkeys,hgives⟩ := lpmDelete_present (hI.root pfx) hI.nodup hp hkey
    fun q hq hk => hI.same_key hp hkey hq hk
  obtain ⟨c,hc,hb⟩ := hI.books
  have hout : outside fib R = outside fib (R.filter (· ≠ p)) + Pi.single p 1 := by
    have hone := List.nodup_iff_count_le_one.mp hI.nodup p
    have hpos := List.count_pos_iff.mpr hp
    funext b
    simp only [outside,Pi.add_apply,Pi.single_apply]
    by_cases hbp : b = p
    · subst hbp
      have hz : (R.filter (· ≠ b)).count b = 0 := List.count_eq_zero.mpr (by simp)
      simp only [hz,if_true]
      omega
    · rw [List.count_filter (by simpa using hbp)]
      simp [hbp]
  have hzero : c p + refs (entriesIn tableSize16 res.1) p = 0 := by
    rw [hc p hp,hB.refs_eq_zero (by simp)]
  unfold fibRouteDelete
  rw [hdel]
  refine ⟨rfl,⟨?_,?_,c,?_,?_⟩,hkeys⟩
  · rw [hkeys]
    exact hB.congr_path (agree_zero _ _)
  · rw [hkeys]
    intro q hq q' hq'
    exact hI.uniq q (List.mem_filter.mp hq).1 q' (List.mem_filter.mp hq').1
  · intro q hq
    exact hc q (List.mem_filter.mp hq).1
  · rw [hout] at hb
    exact hgives S _ c hb hzero

/-- A call of the table's interface. -/
inductive FibOp where
  | update (r : Route)
  | delete (pfx : Bytes) (prefixLen : ℕ) (id : ℤ)

def FibOp.step (fib : Fib) : FibOp → Bool × Fib
  | .update r => fibRouteUpdate fib r
  | .delete pfx prefixLen id => fibRouteDelete fib pfx prefixLen id

def fibRun (fib : Fib) : List FibOp → List Bool × Fib
  | [] => ([],fib)
  | op::ops =>
    let (ret,fib) := op.step fib
    let (rets,fib) := fibRun fib ops
    (ret::rets,fib)

theorem below_init (K : Keys) (a : Bytes) : Below K [] a 0 16 lpmInit := by
  intro b hab
  exact ⟨rfl,by simp⟩

theorem entriesIn_init (size : ℕ) : entriesIn size lpmInit = 0 ∧ tablesIn size lpmInit = 0 :=
  ⟨Finset.sum_eq_zero fun _ _ => rfl,Finset.sum_eq_zero fun _ _ => rfl⟩

theorem books_init (S : Set ℕ) (ok : ℕ → Bool) (v : ℕ → FibEntry) :
    Books S 0 (fun p => (v p).refcount) 0 0 (Heap.init ok v) := by
  refine ⟨⟨fun b => ?_,fun b _ => rfl⟩,fun p => ?_,fun b _ => ?_⟩
  · simp [blocks,Heap.init]
  · simp [refs,Heap.init]
  · simp [Heap.granted,Heap.init]

theorem fibAlloc_inv (S : Set ℕ) (ok : ℕ → Bool) (v : ℕ → FibEntry) (hok : ok 0 = true) :
    ∃ fib, fibAlloc (Heap.init ok v) = some fib ∧ FibInv S fib [] ∧ fib.desc.ok = ok := by
  refine ⟨⟨0,lpmInit,(Heap.init ok v).alloc.2⟩,?_,⟨below_init _ _,by simp,?_⟩,Heap.alloc_ok _⟩
  · unfold fibAlloc
    rw [show (Heap.init ok v).alloc = (some 0,(Heap.init ok v).alloc.2) from
      Prod.ext (Heap.alloc_some hok) rfl]
  · refine ⟨fun p => (v p).refcount,by simp,?_⟩
    have hb := (books_init S ok v).alloc_rest hok
    unfold ArrayBooks
    rw [(entriesIn_init _).1,(entriesIn_init _).2]
    convert hb using 1
    funext b
    simp [outside,Heap.init]

theorem FibInv.of_alloc (S : Set ℕ) {ok : ℕ → Bool} {v : ℕ → FibEntry}
    (halloc : fibAlloc (Heap.init ok v) = some fib) : FibInv S fib [] := by
  have hok : ok 0 = true := by
    by_contra hno
    rw [Bool.not_eq_true] at hno
    simp [fibAlloc,Heap.alloc,Heap.init,hno] at halloc
  obtain ⟨fib',hfib,hI,-⟩ := fibAlloc_inv S ok v hok
  rw [halloc,Option.some_inj] at hfib
  exact hfib ▸ hI

end FibTable
end Ixmap
