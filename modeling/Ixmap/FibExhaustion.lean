import Ixmap.FibRun
import Ixmap.GuardedRun

/-! Running out of memory: what a failing `lpm_add` leaves behind, and the life of the blocks of a
table up to `fib_release`. -/
namespace Ixmap
namespace FibTable
open BlockHeap PrefixBits Lpm StableOrder GuardedRun

variable {S : Set ℕ} {fib : Fib} {R : List ℕ} {r : Route} {c base : ℕ → ℕ} {size ptr : ℕ}
variable {E : Multiset LpmEntry} {T : Multiset ℕ} {h : Heap FibEntry} {e : LpmEntry}

/-- The prefix is no longer than an address of the family, if the family is supported. -/
def Route.Fits (r : Route) : Prop :=
  match addrSize r.family with
  | none => True
  | some size => r.prefixLen ≤ 8*size

def FibOp.Fits : FibOp → Prop
  | .update r => r.Fits
  | .delete _ _ _ => True

/-- No allocation fails between the list entries of a prefix below the root table. -/
def Unstranded (fib : Fib) : FibOp → Prop
  | .update r => ¬ (16 < r.prefixLen ∧ MidFailure fib r)
  | .delete _ _ _ => True

/-- No allocation fails between the list entries of a prefix. -/
def Undisturbed (fib : Fib) : FibOp → Prop
  | .update r => ¬ MidFailure fib r
  | .delete _ _ _ => True

def FibOp.next (fib : Fib) (op : FibOp) : Fib := (op.step fib).2

/-- The tables that runs from `fib_alloc` reach when every call meets `C`. -/
def Reached (C : Fib → FibOp → Prop) (ok : ℕ → Bool) (v : ℕ → FibEntry) (fib : Fib) : Prop :=
  ∃ fib₀ ops, fibAlloc (Heap.init ok v) = some fib₀ ∧ (∀ op ∈ ops, op.Fits) ∧
    Meets FibOp.next C fib₀ ops ∧ fib = (fibRun fib₀ ops).2

theorem fibRun_eq_foldl (ops : List FibOp) (fib : Fib) :
    (fibRun fib ops).2 = ops.foldl FibOp.next fib := by
  induction ops generalizing fib with
  | nil => rfl
  | cons op ops ih => exact ih _

/-- How a call changes the routes of a table: one is added in front, or some are dropped. -/
inductive Evolves (fib : Fib) (op : FibOp) (R : List ℕ) : List ℕ → Prop where
  | added {r : Route} {size : ℕ} : op = .update r → addrSize r.family = some size →
      keysOf (op.next fib).desc = keysOf (prepared fib r size) → Evolves fib op R (fib.desc.calls::R)
  | kept {R' : List ℕ} : R'.Sublist R → SameRoutes fib (op.next fib) R' → Evolves fib op R R'

theorem FibInv.update_unsupported (hI : FibInv S fib R) (hsize : addrSize r.family = none) :
    FibInv S (fibRouteUpdate fib r).2 R ∧ SameRoutes fib (fibRouteUpdate fib r).2 R := by
  cases hok : fib.desc.ok fib.desc.calls with
  | false =>
    rw [fibRouteUpdate_failed hok]
    refine ⟨hI.alloc_failed hok,?_⟩
    intro p hp
    rw [keysOf_alloc]
  | true =>
    have ha : fib.desc.alloc = (some fib.desc.calls,fib.desc.alloc.2) := Prod.ext (Heap.alloc_some hok) rfl
    have heq : (fibRouteUpdate fib r).2 = { fib with desc := fib.desc.alloc.2.free fib.desc.calls } := by
      unfold fibRouteUpdate
      rw [ha]
      simp only [hsize]
    have hsame : SameRoutes fib { fib with desc := fib.desc.alloc.2.free fib.desc.calls } R := by
      intro p hp
      rw [keysOf_free,keysOf_alloc]
    obtain ⟨c,hc,hb⟩ := hI.books
    rw [heq]
    exact ⟨hI.of_same rfl hsame hc (hb.alloc_rest hok).free_rest,hsame⟩

/-- One call keeps the books unless an allocation fails among the list entries. Where the releases
are not counted, a prefix of the root table may fail there too. -/
theorem FibInv.step (hI : FibInv S fib R) (op : FibOp) (hfit : op.Fits)
    (hmid : ∀ r, op = .update r → MidFailure fib r → S = ∅ ∧ r.prefixLen ≤ 16) :
    ∃ R', FibInv S (op.next fib) R' ∧ Evolves fib op R R' := by
  cases op with
  | update r =>
    have hfit : r.Fits := hfit
    unfold Route.Fits at hfit
    cases hsize : addrSize r.family with
    | none =>
      obtain ⟨hinv,hsame⟩ := hI.update_unsupported hsize
      exact ⟨R,hinv,.kept (List.Sublist.refl R) hsame⟩
    | some size =>
      rw [hsize] at hfit
      rcases hI.update hsize hfit with ⟨-,-,hinv,hkeys⟩ | ⟨-,-,-,hinv,hsame,-⟩ |
        ⟨-,-,hm,-,hinv,hsame⟩ | ⟨-,hlt,hm⟩
      · exact ⟨_,hinv,.added rfl hsize hkeys⟩
      · exact ⟨R,hinv,.kept (List.Sublist.refl R) hsame⟩
      · exact ⟨R,hinv (hmid r rfl hm).1,.kept (List.Sublist.refl R) hsame⟩
      · exact absurd (hmid r rfl hm).2 (by omega)
  | delete pfx n id =>
    by_cases ht : Taken fib pfx n id
    · obtain ⟨p,hp,hkey⟩ := hI.taken_iff.mp ht
      obtain ⟨-,hinv,hkeys⟩ := hI.delete_present hp hkey
      refine ⟨_,hinv,.kept List.filter_sublist ?_⟩
      intro q hq
      rw [FibOp.next,FibOp.step,hkeys]
    · have hsame : FibOp.next fib (.delete pfx n id) = fib := by
        simp only [FibOp.next,FibOp.step,hI.delete_absent ht]
      refine ⟨R,?_,.kept (List.Sublist.refl R) ?_⟩
      · rw [hsame]
        exact hI
      · intro p hp
        rw [hsame]

theorem Reached.inv {C : Fib → FibOp → Prop} {ok : ℕ → Bool} {v : ℕ → FibEntry} (S : Set ℕ)
    (hreach : Reached C ok v fib)
    (hC : ∀ fib r, C fib (.update r) → MidFailure fib r → S = ∅ ∧ r.prefixLen ≤ 16) :
    ∃ R, FibInv S fib R := by
  obtain ⟨fib₀,ops,halloc,hfits,hrun,rfl⟩ := hreach
  rw [fibRun_eq_foldl]
  apply hrun.invariant (I := fun fib => ∃ R, FibInv S fib R) ⟨[],FibInv.of_alloc S halloc⟩
  rintro fib op hop ⟨R,hI⟩ hmeet
  obtain ⟨R',hI',-⟩ := hI.step op (hfits op hop) (by
    rintro r rfl
    exact hC fib r hmeet)
  exact ⟨R',hI'⟩

section
variable {t range : ℕ}

theorem Stranded.not_granted (hs : Stranded h t range) : ¬ Granted h (t+range) := by
  obtain ⟨k,-,hlt,-,hfail⟩ := hs
  intro hg
  have := hg (t+k) (by omega)
  rw [this] at hfail
  exact Bool.noConfusion hfail

theorem Stranded.not_early (hs : Stranded h t range) : ¬ FailsEarly h t := by
  obtain ⟨k,hpos,-,hg,-⟩ := hs
  rintro ⟨j,hj,hfail⟩
  have := hg j (by omega)
  rw [this] at hfail
  exact Bool.noConfusion hfail

end

/-- Nothing is left of a call of `lpm_add` for the block `ptr`: the same lists and tables, no entry
for `ptr`, and of the blocks the call allocated none is live. -/
structure Untouched (ptr : ℕ) (table : ℕ → LpmNode) (h : Heap FibEntry)
    (res : (ℕ → LpmNode) × Heap FibEntry) : Prop where
  table_eq : res.1 = table
  unreferenced : ∀ x ∈ entriesIn tableSize16 res.1, x.ptr ≠ ptr
  freed : ∀ b, h.calls ≤ b → res.2.live b = false
  kept : ∀ b, b ≠ ptr → res.2.live b = h.live b

theorem FibInv.untouched {rest : ℕ → ℕ} {c' : ℕ → ℕ} {res : (ℕ → LpmNode) × Heap FibEntry} (hI : FibInv S fib R)
    (hb : ArrayBooks S (rest + Pi.single fib.desc.calls 1) c tableSize16 fib.table (prepared fib r size))
    (htable : res.1 = fib.table) {w : ℕ → ℕ} (hw : ∀ b, b ≠ fib.desc.calls → w b = rest b)
    (hb' : ArrayBooks S w c' tableSize16 res.1 res.2) :
    Untouched fib.desc.calls fib.table (prepared fib r size) res := by
  have hkept : ∀ b, b ≠ fib.desc.calls → res.2.live b = (prepared fib r size).live b := by
    intro b hne
    apply hb.owns.live_congr hb'.owns
    rw [htable]
    simp only [Pi.add_apply,Pi.single_eq_of_ne hne,hw b hne,add_zero]
  refine ⟨htable,?_,?_,hkept⟩
  · intro x hx hptr
    rw [htable] at hx
    exact hI.calls_notMem (hptr ▸ hI.below.ptr_mem hx)
  · intro b hle
    have hlt : fib.desc.calls < b := by
      simpa [prepared] using hle
    rw [hkept b (by omega)]
    exact hb.owns.fresh b hle

theorem FibInv.lpmAdd_untouched_iff (hI : FibInv S fib R) (hlen : r.prefixLen ≤ 8*size)
    (hok : fib.desc.ok fib.desc.calls = true) :
    let res := lpmAdd fibCallbacks r.id r.prefixLen fib.table r.pfx fib.desc.calls (prepared fib r size)
    (res.1 = false → Untouched fib.desc.calls fib.table (prepared fib r size) res.2) ↔
      ¬ (16 < r.prefixLen ∧ MidFailure fib r) := by
  intro res
  obtain ⟨c,hc,hb⟩ := hI.prepared_books r size hok
  have hzero : ((prepared fib r size).val fib.desc.calls).refcount = 0 := by
    rw [prepared_self]
    rfl
  by_cases ht : Taken fib r.pfx r.prefixLen r.id
  · obtain ⟨p,hp,hpk⟩ := hI.taken_iff.mp ht
    obtain ⟨desc,hadd,hkeys,hbooks⟩ := lpmAdd_present fib.desc.calls (hI.prepared_below r.pfx) hp
      ((hI.prepared_key hp).mpr hpk) hzero
    have hres : res.2 = (fib.table,desc) := by simp only [res,hadd]
    have hun : Untouched fib.desc.calls fib.table (prepared fib r size) res.2 := by
      rw [hres]
      exact hI.untouched hb rfl (fun b hne => by simp [hne]) (hbooks S _ c hb)
    exact iff_of_true (fun _ => hun) fun hmid => hmid.2.1 ht
  · have habs : ∀ q ∈ R, ¬ HasKey (keysOf (prepared fib r size)) r.id r.prefixLen r.pfx q := by
      intro q hq hk
      exact ht (hI.taken_iff.mpr ⟨q,hq,(hI.prepared_key hq).mp hk⟩)
    have hout := lpmAdd_outcome (hI.prepared_below r.pfx) (prepared_hasKey fib hlen) habs hzero
    rcases hout with ⟨h1,-,-,-,h5⟩ | ⟨-,h2,-,h4,h5⟩ | ⟨-,h2,-,h4,-,h6⟩ | ⟨h1,h2,h3,-,x,hx,hxp⟩
    · exact iff_of_true (fun h0 => absurd (h1.symm.trans h0) (by simp)) fun hmid => hmid.2.2.2.not_granted h5
    · exact iff_of_true (fun _ => hI.untouched hb h2 (fun b hne => by simp [hne]) (h4 S _ c hb))
        fun hmid => hmid.2.2.2.not_early h5
    · exact iff_of_true (fun _ => hI.untouched hb h4 (fun _ _ => rfl) (h6 S _ c hb (hc _ (by simp))))
        fun hmid => absurd hmid.1 (by omega)
    · exact iff_of_false (fun hun => (hun h1).unreferenced x hx hxp) fun hno => hno ⟨h2,ht,hok,h3⟩

/-- `lpm_add` undoes what it did exactly when no allocation fails between the list entries of a
prefix that ends below the root table. -/
theorem lpm_add_atomic_iff {ok : ℕ → Bool} {v : ℕ → FibEntry} (hreach : Reached Unstranded ok v fib)
    (hr : r.Valid) (hsize : addrSize r.family = some size)
    (hok : fib.desc.ok fib.desc.calls = true) :
    let res := lpmAdd fibCallbacks r.id r.prefixLen fib.table r.pfx fib.desc.calls (prepared fib r size)
    (res.1 = false → Untouched fib.desc.calls fib.table (prepared fib r size) res.2) ↔
      ¬ (16 < r.prefixLen ∧ MidFailure fib r) := by
  obtain ⟨R,hI⟩ := hreach.inv ∅ fun fib r hC hm => ⟨rfl,by
    by_contra hlt
    exact hC ⟨by omega,hm⟩⟩
  obtain ⟨size',hsize',hlen⟩ := hr.exists_size
  rw [hsize,Option.some_inj] at hsize'
  subst hsize'
  exact hI.lpmAdd_untouched_iff hlen hok

def tenNetLong : Route := ⟨afInet,.link,fun k => if k = 0 then 10 else 0,23,fun _ => 0,0,1⟩

def tenNetNode : Route := { tenNetLong with prefixLen := 16 }

theorem reached_tenNetNode {C : Fib → FibOp → Prop} {ok : ℕ → Bool} (hok : ok 0 = true)
    (hC : ∀ fib, C fib (.update tenNetNode)) : Reached C ok (fun _ => default)
    (fibRun ⟨0,lpmInit,(Heap.init ok fun _ => default).alloc.2⟩ [.update tenNetNode]).2 := by
  refine ⟨_,[.update tenNetNode],?_,?_,⟨hC _,trivial⟩,rfl⟩
  · simp [fibAlloc,Heap.alloc,Heap.init,hok]
  · intro op hop
    rw [List.mem_singleton.mp hop]
    change 16 ≤ 8*4
    decide

/-- The table below the node of 10.0.0.0/16, request 4, is refused: the route longer by seven bits is
not added and nothing is left of it. -/
theorem lpm_add_atomic_tenNetLong :
    let fib := (fibRun ⟨0,lpmInit,(Heap.init (fun j => j != 4) fun _ => default).alloc.2⟩ [.update tenNetNode]).2
    let res := lpmAdd fibCallbacks tenNetLong.id tenNetLong.prefixLen fib.table tenNetLong.pfx
      fib.desc.calls (prepared fib tenNetLong 4)
    tenNetLong.Valid ∧ addrSize tenNetLong.family = some 4 ∧ fib.desc.ok fib.desc.calls = true ∧
      res.1 = false ∧ Untouched fib.desc.calls fib.table (prepared fib tenNetLong 4) res.2 := by
  intro fib res
  have hfail : res.1 = false := by decide
  have hmid : ¬ (16 < tenNetLong.prefixLen ∧ MidFailure fib tenNetLong) := by
    rintro ⟨-,-,-,k,hk,-,hgranted,-⟩
    exact absurd (hgranted 0 (by omega)) (by decide)
  have hatomic := (lpm_add_atomic_iff (reached_tenNetNode rfl fun _ hlt => absurd hlt.1 (by decide))
    (Or.inl (by decide)) rfl (by decide)).mpr hmid
  exact ⟨Or.inl (by decide),rfl,by decide,hfail,hatomic hfail⟩

/-- The second list entry of 10.0.0.0/23, request 4, fails: `lpm_add` reports it, but the first one
stays in the table and a lookup returns the block that `fib_route_update` then frees. -/
theorem lpm_add_strands_entry :
    let h := Heap.init (fun j => j != 4) fun _ => default
    ∃ fib, fibAlloc h = some fib ∧
      let res := lpmAdd fibCallbacks tenNetLong.id tenNetLong.prefixLen fib.table tenNetLong.pfx
        fib.desc.calls (prepared fib tenNetLong 4)
      res.1 = false ∧ lpmLookup fib.table tenNetLong.pfx = none ∧
      lpmLookup res.2.1 tenNetLong.pfx = some ⟨3,fib.desc.calls⟩ := by
  refine ⟨_,rfl,?_,?_,?_⟩
  · decide
  · decide
  · decide

def referred (E : Multiset LpmEntry) : ℕ → ℕ := fun p => if refs E p = 0 then 0 else 1

/-- Books of a table whose routes are exactly those its entries refer to. -/
structure Closed (S : Set ℕ) (base c : ℕ → ℕ) (E : Multiset LpmEntry) (T : Multiset ℕ) (h : Heap FibEntry) :
    Prop where
  books : Books S (base + referred E) c E T h
  counted : ∀ x ∈ E, c x.ptr = 0

namespace Closed

theorem delete (hc : Closed S base c (e ::ₘ E) T h) :
    Closed S base c E T ((fibEntryPut h e.ptr).free e.addr) := by
  refine ⟨?_,fun x hx => hc.counted x (Multiset.mem_cons_of_mem hx)⟩
  have hz := hc.counted e (Multiset.mem_cons_self e E)
  have hother : ∀ b, b ≠ e.ptr → referred (e ::ₘ E) b = referred E b := by
    intro b hb
    simp only [referred,refs_cons,Pi.add_apply,Pi.single_eq_of_ne hb,add_zero]
  by_cases hlast : refs E e.ptr = 0
  · apply Books.put_last _ (by omega)
    have hsplit : base + referred (e ::ₘ E) = base + referred E + Pi.single e.ptr 1 := by
      funext b
      by_cases hb : b = e.ptr
      · simp [hb,referred,hlast]
      · simp [hother b hb,hb]
    rw [← hsplit]
    exact hc.books
  · apply Books.put_kept _ (by omega)
    have hsame : referred (e ::ₘ E) = referred E := by
      funext b
      by_cases hb : b = e.ptr
      · simp [hb,referred,hlast]
      · exact hother b hb
    rw [← hsame]
    exact hc.books

theorem free_table {t : ℕ} (hc : Closed S base c E (t ::ₘ T) h) : Closed S base c E T (h.free t) :=
  ⟨hc.books.free_table,hc.counted⟩

theorem entryDeleteAll {head : List LpmEntry} (hc : Closed S base c ((head : Multiset LpmEntry)+E) T h) :
    Closed S base c E T (lpmEntryDeleteAll fibCallbacks h head) := by
  induction head generalizing h with
  | nil => simpa [lpmEntryDeleteAll] using hc
  | cons e head ih =>
    apply ih
    rw [← Multiset.cons_coe,Multiset.cons_add] at hc
    exact hc.delete

/-- Emptying the nodes of an array one after the other. -/
theorem sweep (clear : LpmNode → Heap FibEntry → Heap FibEntry) {nodes : ℕ → LpmNode} (k : ℕ)
    (hclear : ∀ i < k, ∀ E T h, Closed S base c (entriesOf (nodes i)+E) (tablesOf (nodes i)+T) h →
      Closed S base c E T (clear (nodes i) h))
    (hc : Closed S base c (entriesIn k nodes+E) (tablesIn k nodes+T) h) :
    Closed S base c E T ((List.range k).foldl (fun h i => clear (nodes i) h) h) := by
  induction k generalizing E T with
  | zero => simpa [entriesIn,tablesIn] using hc
  | succ k ih =>
    rw [List.range_succ,List.foldl_append]
    apply hclear k (by omega)
    apply ih fun i hi => hclear i (by omega)
    simpa only [entriesIn,tablesIn,Finset.sum_range_succ,add_assoc] using hc

theorem clearNode (node : LpmNode) {E : Multiset LpmEntry} {T : Multiset ℕ} {h : Heap FibEntry}
    (hc : Closed S base c (entriesOf node+E) (tablesOf node+T) h) :
    Closed S base c E T (lpmEntryDeleteAll fibCallbacks (lpmDeleteAllRec fibCallbacks node h) node.head) := by
  apply entryDeleteAll
  induction node generalizing E T h with
  | leaf head =>
    rw [tablesOf,zero_add] at hc
    exact hc
  | branch head table next ih =>
    unfold lpmDeleteAllRec
    apply free_table
    apply sweep (fun node h =>
      lpmEntryDeleteAll fibCallbacks (lpmDeleteAllRec fibCallbacks node h) node.head) tableSize8
    · intro i hi E T h hc
      exact entryDeleteAll (ih i hc)
    · convert hc using 1
      · simp only [entriesOf,entriesIn,LpmNode.head]
        abel
      · simp only [tablesOf,tablesIn,← Multiset.singleton_add]
        abel

end Closed

theorem FibInv.outside_eq (hI : FibInv S fib R) :
    outside fib R = Pi.single fib.block 1 + referred (entriesIn tableSize16 fib.table) := by
  funext p
  have hcount : R.count p = referred (entriesIn tableSize16 fib.table) p := by
    by_cases hp : p ∈ R
    · obtain ⟨x,hmem,hxp⟩ := hI.exists_entry hp
      have hpos : refs (entriesIn tableSize16 fib.table) p ≠ 0 :=
        (Multiset.count_pos.mpr (Multiset.mem_map.mpr ⟨x,hmem,hxp⟩)).ne'
      rw [List.count_eq_one_of_mem hI.nodup hp,referred,if_neg hpos]
    · rw [List.count_eq_zero_of_not_mem hp,referred,if_pos (hI.below.refs_eq_zero hp)]
  simp only [outside,Pi.add_apply,hcount,add_comm]

theorem FibInv.closed (hI : FibInv S fib R) : ∃ c, Closed S (Pi.single fib.block 1) c
    (entriesIn tableSize16 fib.table) (tablesIn tableSize16 fib.table) fib.desc := by
  obtain ⟨c,hc,hb⟩ := hI.books
  refine ⟨c,?_,fun x hx => hc _ (hI.below.ptr_mem hx)⟩
  rw [← hI.outside_eq]
  exact hb

/-- `fib_release` gives back everything the table owns. -/
theorem FibInv.release (hI : FibInv S fib R) : ∃ c, Books S 0 c 0 0 (fibRelease fib) := by
  obtain ⟨c,hc⟩ := hI.closed
  have hswept : Closed S (Pi.single fib.block 1) c 0 0 (lpmDeleteAll fibCallbacks fib.table fib.desc).2 := by
    apply Closed.sweep (fun node h =>
      lpmEntryDeleteAll fibCallbacks (lpmDeleteAllRec fibCallbacks node h) node.head) tableSize16
    · intro i hi E T h
      exact Closed.clearNode _
    · simpa using hc
  refine ⟨c,Books.free_rest ?_⟩
  convert hswept.books using 1
  funext b
  simp [referred,refs]

/-- The life of the blocks of a table. -/
structure Accounted (fib : Fib) : Prop where
  /-- Reference counts count list entries. -/
  counted : ∀ x ∈ entriesIn tableSize16 fib.table,
    (fib.desc.val x.ptr).refcount = refs (entriesIn tableSize16 fib.table) x.ptr
  live : ∀ x ∈ entriesIn tableSize16 fib.table, fib.desc.live x.ptr = true
  /-- A live block is in the table or is a route that the table refers to. -/
  owned : ∀ b, fib.desc.live b = true → b = fib.block ∨ b ∈ tablesIn tableSize16 fib.table ∨
    ∃ x ∈ entriesIn tableSize16 fib.table, b = x.addr ∨ b = x.ptr
  /-- A block that was granted is live or has been freed, once. -/
  once : ∀ b, fib.desc.frees b+(fib.desc.live b).toNat = (fib.desc.granted b).toNat
  /-- After `fib_release` none is live and each has been freed once. -/
  released : ∀ b, (fibRelease fib).live b = false ∧
    (fibRelease fib).frees b = ((fibRelease fib).granted b).toNat

theorem FibInv.accounted (hI : FibInv Set.univ fib R) : Accounted fib := by
  obtain ⟨c,hb,hc⟩ := hI.closed
  obtain ⟨c',hrel⟩ := hI.release
  have hdead : ∀ b, (fibRelease fib).live b = false := by
    intro b
    have := hrel.owns.count b
    simp only [blocks,Pi.add_apply,Pi.zero_apply,Multiset.map_zero,Multiset.count_zero] at this
    cases hl : (fibRelease fib).live b with
    | false => rfl
    | true => simp [hl] at this
  refine ⟨?_,?_,?_,fun b => hb.ledger b trivial,?_⟩
  · intro x hx
    rw [hb.count,hc x hx,zero_add]
  · intro x hx
    exact hI.live (hI.below.ptr_mem hx)
  · intro b hl
    have hcount := hb.owns.count b
    rw [hl] at hcount
    by_contra hno
    push Not at hno
    obtain ⟨hblock,htable,hentry⟩ := hno
    have h1 : referred (entriesIn tableSize16 fib.table) b = 0 :=
      if_pos (refs_of_ne fun x hx => (hentry x hx).2.symm)
    have h2 : ((entriesIn tableSize16 fib.table).map LpmEntry.addr).count b = 0 := by
      apply Multiset.count_eq_zero.mpr
      intro hmem
      obtain ⟨x,hx,hxb⟩ := Multiset.mem_map.mp hmem
      exact (hentry x hx).1 hxb.symm
    simp only [Pi.add_apply,Pi.single_eq_of_ne hblock,h1,blocks,h2,
      Multiset.count_eq_zero_of_notMem htable,Bool.toNat_true] at hcount
    omega
  · intro b
    have := hrel.ledger b trivial
    rw [hdead b,Bool.toNat_false,add_zero] at this
    exact ⟨hdead b,this⟩

/-- The life of a `fib_entry` in every run in which no allocation fails between the list entries
of one prefix. -/
theorem fib_entry_lifetime {ok : ℕ → Bool} {v : ℕ → FibEntry} (hreach : Reached Undisturbed ok v fib) :
    Accounted fib := by
  obtain ⟨R,hI⟩ := hreach.inv Set.univ fun fib r hC hm => absurd hm hC
  exact hI.accounted

/-- A run whose only update is refused: its list entry, request 2, cannot be allocated. -/
theorem fib_entry_lifetime_refused :
    let fib := (fibRun ⟨0,lpmInit,(Heap.init (fun j => j != 2) fun _ => default).alloc.2⟩
      [.update tenNetNode]).2
    Reached Undisturbed (fun j => j != 2) (fun _ => default) fib ∧ Accounted fib := by
  have hC : ∀ fib, Undisturbed fib (.update tenNetNode) := by
    rintro fib ⟨-,-,k,hpos,hlt,-⟩
    have hone : entriesNeeded tenNetNode.prefixLen = 1 := rfl
    omega
  exact ⟨reached_tenNetNode rfl hC,fib_entry_lifetime (reached_tenNetNode rfl hC)⟩

def tenNetPair : Route := { tenNetLong with prefixLen := 15 }

/-- The second list entry of 10.0.0.0/15, request 3, fails: the rollback drops the last reference
and frees the `fib_entry`, and `fib_route_update` frees it again. -/
theorem fib_route_update_double_free :
    ∃ fib, fibAlloc (Heap.init (fun j => j != 3) fun _ => default) = some fib ∧
      (fibRouteUpdate fib tenNetPair).1 = false ∧
      (fibRouteUpdate fib tenNetPair).2.desc.frees fib.desc.calls = 2 := by
  refine ⟨_,rfl,?_,?_⟩
  · decide
  · decide

end FibTable
end Ixmap
