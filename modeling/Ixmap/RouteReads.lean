import Ixmap.LpmBounds
import Ixmap.NetlinkBuffer

/-! How far a route message makes the trie read. `netlink_route` hands its array `prefix[16]` to `lpm.c`,
whose walks read as many bits of it as `rtm_dst_len` says. -/
namespace Ixmap
namespace Lpm
open BlockHeap PrefixBits

variable {α : Type}

section Outside
variable {cb : Callbacks α} {id : ℤ} {n width o ptr : ℕ} {pfx : Bytes} {h : Heap α}

/-- A walk that comes to a table behind the last bit of the address leaves the address there. -/
theorem addTableIn_outside {deeper : LpmNode → Heap α → Option (Bool × LpmNode × Heap α)} (head : List LpmEntry)
    (table : ℕ) (next : ℕ → LpmNode) (hw : 32 ∣ width) (ho : o%8 = 0) (hle : o ≤ width) (hn : width < n)
    (hdeeper : o+8 ≤ width → ∀ node, deeper node h = none) :
    lpmAddTableIn cb id n width deeper pfx ptr o head table next h = none := by
  rw [lpmAddTableIn]
  by_cases hin : o+8 ≤ width
  · rw [lpmIndexIn_octet hw ho hin]
    simp only [if_neg (show ¬ n < o by omega),if_pos (show 8 < n-o by omega),if_pos (octet_lt pfx o),hdeeper hin]
  · have hnone : lpmIndexIn width pfx o 8 = none := if_neg (by omega)
    rw [hnone]

theorem addRecIn_outside {depth : ℕ} {node : LpmNode} (hw : 32 ∣ width) (ho : o%8 = 0) (hle : o ≤ width)
    (hn : width < n) (hdepth : n ≤ o+8*depth) (hok : ∀ k, h.ok k = true) :
    lpmAddRecIn cb id n width pfx ptr depth node o h = none := by
  induction depth generalizing o node h with
  | zero => omega
  | succ depth ih =>
    have hdeeper : ∀ h : Heap α, (∀ k, h.ok k = true) → o+8 ≤ width → ∀ node,
        lpmAddRecIn cb id n width pfx ptr depth node (o+8) h = none :=
      fun h hok hin node => ih (by omega) hin (by omega) hok
    cases node with
    | leaf head =>
      rw [lpmAddRecIn]
      have hsome := Heap.alloc_some (hok h.calls)
      have hoks := h.alloc_ok
      rcases halloc : h.alloc with ⟨_ | table,h'⟩ <;> rw [halloc] at hsome hoks
      · simp at hsome
      · exact addTableIn_outside head table _ hw ho hle hn (hdeeper h' fun k => hoks ▸ hok k)
    | branch head table next => exact addTableIn_outside head table next hw ho hle hn (hdeeper h hok)

theorem addIn_outside {table : ℕ → LpmNode} (hw : 32 ∣ width) (hpos : 16 ≤ width) (hn : width < n)
    (hok : ∀ k, h.ok k = true) : lpmAddIn cb id n width table pfx ptr h = none := by
  rw [lpmAddIn,lpmIndexIn_root hw (by omega)]
  simp only [if_pos (show 16 < n by omega),if_pos (root_lt pfx)]
  rw [addRecIn_outside hw (by decide) hpos hn (by unfold depthOf; omega) hok]
  rfl

/-- A deletion stops at the last table of its path, however long the prefix. -/
theorem deleteRecIn_shape {node : LpmNode} (hw : 32 ∣ width) (ho : o%8 = 0) (hn : width < n)
    (hs : Shape width o node) :
    lpmDeleteRecIn cb id n width pfx node o h = some (lpmDeleteRec cb id n pfx node o h) := by
  induction node generalizing o h with
  | leaf head => rfl
  | branch head table next ih =>
    obtain ⟨hin,hnext⟩ := hs
    have hlong : 8 < n-o := by omega
    rw [lpmDeleteRecIn,lpmDeleteRec,lpmIndexIn_octet hw ho hin]
    simp only [if_neg (show ¬ n < o by omega),if_pos hlong,if_pos (octet_lt pfx o)]
    rw [ih _ (by omega) (hnext _)]
    rcases lpmDeleteRec cb id n pfx (next (lpmIndex pfx o 8)) (o+8) h with ⟨_ | _,node,h⟩ <;> rfl

theorem deleteIn_shape {table : ℕ → LpmNode} (hw : 32 ∣ width) (hpos : 16 ≤ width)
    (hs : ∀ i, Shape width 16 (table i)) :
    lpmDeleteIn cb id n width table pfx h = some (lpmDelete cb id n table pfx h) := by
  rcases le_or_gt n width with hn | hn
  · exact deleteIn_eq table hw (by omega) hn
  · rw [lpmDeleteIn,lpmDelete,lpmIndexIn_root hw (by omega)]
    simp only [if_pos (show 16 < n by omega),if_pos (root_lt pfx)]
    rw [deleteRecIn_shape hw (by decide) hn (hs _)]
    rfl

end Outside

section Outcomes
variable {cb : Callbacks α} {id : ℤ} {n o ptr index m i : ℕ} {pfx : Bytes} {h : Heap α}
  {nodes : ℕ → LpmNode} {node : LpmNode}

/-- The callbacks leave it open what the allocator answers next. -/
structure Callbacks.Neutral (cb : Callbacks α) : Prop where
  pull : ∀ h p, (cb.entryPull h p).ok = h.ok
  put : ∀ h p, (cb.entryPut h p).ok = h.ok

variable (hcb : cb.Neutral)
include hcb

theorem entryDelete_ok {l l' : List LpmEntry} {h' : Heap α} (hd : lpmEntryDelete cb id n h l = some (l',h')) :
    h'.ok = h.ok := by
  induction l generalizing l' h' with
  | nil => simp [lpmEntryDelete] at hd
  | cons entry rest ih =>
    rw [lpmEntryDelete] at hd
    split_ifs at hd
    · obtain ⟨-,rfl⟩ := Prod.mk.inj (Option.some.inj hd)
      exact hcb.put h entry.ptr
    · rcases hr : lpmEntryDelete cb id n h rest with _ | ⟨l,h₁⟩ <;> rw [hr] at hd
      · simp at hd
      · obtain ⟨-,rfl⟩ := Prod.mk.inj (Option.some.inj hd)
        exact ih hr

theorem addLoop_ok : (lpmAddLoop cb id n ptr index m i nodes h).heap.ok = h.ok := by
  induction m generalizing i nodes h with
  | zero => rfl
  | succ m ih =>
    have halloc := h.alloc_ok
    rw [lpmAddLoop]
    rcases hr : h.alloc with ⟨_ | entry,h₁⟩ <;> rw [hr] at halloc
    · exact halloc
    simp only [lpmEntryInsert]
    rcases insertScan cb id n h₁ (nodes (index ||| i)).head 0 0 with _ | prior
    · exact halloc
    · simp only
      rw [ih,hcb.pull]
      exact halloc

theorem rollback_ok : (lpmRollback cb id n index m i nodes h).2.ok = h.ok := by
  induction m generalizing i nodes h with
  | zero => rfl
  | succ m ih =>
    rw [lpmRollback]
    rcases hd : lpmEntryDelete cb id n h (nodes (index ||| i)).head with _ | ⟨head,h₁⟩
    · exact ih
    · exact ih.trans (entryDelete_ok hcb hd)

theorem deleteLoop_ok : (lpmDeleteLoop cb id n index m i nodes h).heap.ok = h.ok := by
  induction m generalizing i nodes h with
  | zero => rfl
  | succ m ih =>
    rw [lpmDeleteLoop]
    rcases hd : lpmEntryDelete cb id n h (nodes (index ||| i)).head with _ | ⟨head,h₁⟩
    · rfl
    · exact ih.trans (entryDelete_ok hcb hd)

omit hcb in
theorem releaseEmpty_ok (head : List LpmEntry) (table : ℕ) : (releaseEmpty head table nodes h).2.ok = h.ok := by
  unfold releaseEmpty
  split_ifs <;> rfl

theorem addTable_ok {deeper : LpmNode → Heap α → Bool × LpmNode × Heap α} (head : List LpmEntry) (table : ℕ)
    (hdeeper : ∀ node h, (deeper node h).2.2.ok = h.ok) :
    (lpmAddTable cb id n deeper pfx ptr o head table nodes h).2.2.ok = h.ok := by
  rw [lpmAddTable]
  by_cases hlong : 8 < n-o
  · simp only [if_pos hlong]
    have hchild := hdeeper (nodes (lpmIndex pfx o 8)) h
    rcases hr : deeper (nodes (lpmIndex pfx o 8)) h with ⟨_ | _,node,h₁⟩ <;> rw [hr] at hchild
    · exact (releaseEmpty_ok head table).trans hchild
    · exact hchild
  · simp only [if_neg hlong]
    split_ifs
    · exact addLoop_ok hcb
    · exact (releaseEmpty_ok head table).trans (addLoop_ok hcb)

theorem addRec_ok {depth : ℕ} : (lpmAddRec cb id n pfx ptr depth node o h).2.2.ok = h.ok := by
  induction depth generalizing o node h with
  | zero => rfl
  | succ depth ih =>
    cases node with
    | leaf head =>
      have halloc := h.alloc_ok
      rw [lpmAddRec]
      rcases hr : h.alloc with ⟨_ | table,h₁⟩ <;> rw [hr] at halloc
      · exact halloc
      · exact (addTable_ok hcb head table fun node h => ih).trans halloc
    | branch head table next => exact addTable_ok hcb head table fun node h => ih

theorem add_ok : (lpmAdd cb id n nodes pfx ptr h).2.2.ok = h.ok := by
  rw [lpmAdd]
  by_cases hlong : 16 < n
  · simp only [if_pos hlong]
    exact addRec_ok hcb
  · simp only [if_neg hlong]
    split_ifs
    · exact addLoop_ok hcb
    · exact (rollback_ok hcb).trans (addLoop_ok hcb)

theorem deleteRec_ok : (lpmDeleteRec cb id n pfx node o h).2.2.ok = h.ok := by
  induction node generalizing o h with
  | leaf head => rfl
  | branch head table next ih =>
    rw [lpmDeleteRec]
    by_cases hlong : 8 < n-o
    · simp only [if_pos hlong]
      have hchild := ih (lpmIndex pfx o 8) (o := o+8) (h := h)
      rcases hr : lpmDeleteRec cb id n pfx (next (lpmIndex pfx o 8)) (o+8) h with ⟨_ | _,node,h₁⟩ <;>
        rw [hr] at hchild
      · exact hchild
      · exact (releaseEmpty_ok head table).trans hchild
    · simp only [if_neg hlong]
      split_ifs
      · exact (releaseEmpty_ok head table).trans (deleteLoop_ok hcb)
      · exact deleteLoop_ok hcb

theorem delete_ok : (lpmDelete cb id n nodes pfx h).2.2.ok = h.ok := by
  rw [lpmDelete]
  by_cases hlong : 16 < n
  · simp only [if_pos hlong]
    exact deleteRec_ok hcb
  · simp only [if_neg hlong]
    exact deleteLoop_ok hcb

end Outcomes

end Lpm

namespace FibTable
open BlockHeap PrefixBits Lpm

def fibRouteUpdateIn (width : ℕ) (fib : Fib) (r : Route) : Option (Bool × Fib) :=
  match fib.desc.alloc with
  | (none,desc) => some (false,{ fib with desc })
  | (some entry,desc) =>
    match addrSize r.family with
    | none => some (false,{ fib with desc := desc.free entry })
    | some size =>
      let desc := desc.write entry (initEntry (desc.val entry) r size)
      match lpmAddIn fibCallbacks r.id r.prefixLen width fib.table r.pfx entry desc with
      | none => none
      | some (true,table,desc) => some (true,{ fib with table, desc })
      | some (false,table,desc) => some (false,{ fib with table, desc := desc.free entry })

def fibRouteDeleteIn (width : ℕ) (fib : Fib) (pfx : Bytes) (prefixLen : ℕ) (id : ℤ) : Option (Bool × Fib) :=
  match lpmDeleteIn fibCallbacks id prefixLen width fib.table pfx fib.desc with
  | none => none
  | some (ret,table,desc) => some (ret,{ fib with table, desc })

section
variable {width n : ℕ} {fib : Fib} {r : Route} {pfx : Bytes} {id : ℤ}

theorem fibCallbacks_neutral : fibCallbacks.Neutral := by
  refine ⟨fun h p => rfl,fun h p => ?_⟩
  simp only [fibCallbacks,fibEntryPut]
  split_ifs <;> rfl

theorem updateIn_eq (hw : 32 ∣ width) (hpos : 0 < width) (hn : r.prefixLen ≤ width) :
    fibRouteUpdateIn width fib r = some (fibRouteUpdate fib r) := by
  unfold fibRouteUpdateIn fibRouteUpdate
  rcases fib.desc.alloc with ⟨_ | entry,desc⟩
  · rfl
  simp only
  rcases addrSize r.family with _ | size
  · rfl
  simp only [addIn_eq fib.table hw hpos hn]
  split <;> simp_all

/-- With memory for all its tables, a prefix that is too long is read to its end. -/
theorem updateIn_outside (hw : 32 ∣ width) (hpos : 16 ≤ width) (hn : width < r.prefixLen)
    (hfamily : addrSize r.family ≠ none) (hok : ∀ k, fib.desc.ok k = true) : fibRouteUpdateIn width fib r = none := by
  have hsome := Heap.alloc_some (hok fib.desc.calls)
  have hoks := fib.desc.alloc_ok
  obtain ⟨size,hsize⟩ := Option.ne_none_iff_exists'.mp hfamily
  unfold fibRouteUpdateIn
  rcases halloc : fib.desc.alloc with ⟨_ | entry,desc⟩ <;> rw [halloc] at hsome hoks
  · simp at hsome
  have hok' : ∀ k, (desc.write entry (initEntry (desc.val entry) r size)).ok k = true := fun k => hoks ▸ hok k
  simp only [hsize]
  rw [addIn_outside hw hpos hn hok']

theorem deleteIn_eq_delete (hw : 32 ∣ width) (hpos : 16 ≤ width) (hs : ∀ i, Shape width 16 (fib.table i)) :
    fibRouteDeleteIn width fib pfx n id = some (fibRouteDelete fib pfx n id) := by
  unfold fibRouteDeleteIn fibRouteDelete
  rw [deleteIn_shape hw hpos hs]

theorem routeUpdate_ok : (fibRouteUpdate fib r).2.desc.ok = fib.desc.ok := by
  have halloc := fib.desc.alloc_ok
  unfold fibRouteUpdate
  rcases hr : fib.desc.alloc with ⟨_ | entry,desc⟩ <;> rw [hr] at halloc
  · exact halloc
  simp only
  rcases addrSize r.family with _ | size
  · exact halloc
  have hadd : (lpmAdd fibCallbacks r.id r.prefixLen fib.table r.pfx entry
      (desc.write entry (initEntry (desc.val entry) r size))).2.2.ok = desc.ok := add_ok fibCallbacks_neutral
  simp only
  split <;> rename_i hres <;> rw [hres] at hadd <;> exact hadd.trans halloc

theorem routeDelete_ok : (fibRouteDelete fib pfx n id).2.desc.ok = fib.desc.ok := delete_ok fibCallbacks_neutral

end

end FibTable

namespace Forwarder
open BlockHeap PrefixBits Lpm FibTable

/-- Bits of the array `prefix` of `netlink_route`. -/
def prefixWidth : ℕ := 8*16

namespace NlBuf

/-- `netlink_route` behind its attribute loop, with the reads of `prefix` checked. -/
def routeStepIn : RouteStep := fun t isNew m d =>
  let type := if m.table = rtTableLocal then .local else d.type
  let r : Route := ⟨m.family,type,d.pfx,m.dstLen,d.nexthop,portIndex t d.ifindex,d.ifindex⟩
  match familyOf m.family with
  | none => .ok t
  | some f =>
    if isNew then
      match fibRouteUpdateIn prefixWidth (t.fib f) r with
      | none => .error .read
      | some (_,fib) => .ok (t.setFib f fib)
    else
      match fibRouteDeleteIn prefixWidth (t.fib f) r.pfx r.prefixLen r.id with
      | none => .error .read
      | some (_,fib) => .ok (t.setFib f fib)

def netlinkProcessIn (b : NlBuf) (fuel : ℕ) (t : Thread) : Except Fault Thread := b.processBy routeStepIn fuel t

end NlBuf

/-- No table of the tries is behind the last bit of an address. -/
def TriesInside (t : Thread) : Prop := ∀ f i, Shape prefixWidth 16 ((t.fib f).table i)

/-- No request for memory of the routing tables is refused. -/
def Plenty (t : Thread) : Prop := ∀ f k, (t.fib f).desc.ok k = true

/-- The prefix of a new route is no longer than the array. -/
def LenOk (isNew : Bool) (m : RtMsg) : Prop := isNew = true → familyOf m.family ≠ none → m.dstLen ≤ prefixWidth

section
variable {t : Thread} {isNew : Bool} {m : RtMsg} {d : RouteLocals} {f g : Family} {fib : Fib}

theorem TriesInside.setFib (ht : TriesInside t) (hfib : ∀ i, Shape prefixWidth 16 (fib.table i)) :
    TriesInside (t.setFib f fib) := by
  intro g
  rw [fib_setFib]
  split_ifs
  · exact hfib
  · exact ht g

theorem Plenty.setFib (ht : Plenty t) (hfib : fib.desc.ok = (t.fib f).desc.ok) : Plenty (t.setFib f fib) := by
  intro g
  rw [fib_setFib]
  split_ifs
  · rw [hfib]
    exact ht f
  · exact ht g

theorem addrSize_of_family {family : ℕ} (h : familyOf family = some f) : addrSize family ≠ none := by
  unfold familyOf at h
  unfold addrSize
  split_ifs at h ⊢ <;> simp_all

theorem shape_update {width : ℕ} {r : Route} (hw : 8 ∣ width) (hr : r.prefixLen ≤ width)
    (hs : ∀ y, Shape width 16 (fib.table y)) (y : ℕ) : Shape width 16 ((fibRouteUpdate fib r).2.table y) :=
  shape_step hw (show FibOp.InWidth width (.update r) from hr) hs y

theorem routeStepIn_ok (ht : TriesInside t) (hlen : LenOk isNew m) :
    NlBuf.routeStepIn t isNew m d = .ok (NlBuf.routeCall t isNew m d) ∧
      TriesInside (NlBuf.routeCall t isNew m d) := by
  unfold NlBuf.routeStepIn NlBuf.routeCall
  simp only
  cases hf : familyOf m.family with
  | none => exact ⟨rfl,ht⟩
  | some f =>
    cases isNew with
    | true =>
      have hn := hlen rfl (by simp [hf])
      simp only [if_true]
      rw [updateIn_eq (by decide) (by decide) hn]
      exact ⟨rfl,ht.setFib (shape_update (by decide) hn (ht f))⟩
    | false =>
      simp only [Bool.false_eq_true,if_false]
      rw [deleteIn_eq_delete (by decide) (by decide) (ht f)]
      exact ⟨rfl,ht.setFib fun i => shape_delete (ht f) i⟩

theorem routeStepIn_read (ht : Plenty t) (hlen : ¬ LenOk isNew m) :
    NlBuf.routeStepIn t isNew m d = .error .read := by
  simp only [LenOk,Classical.not_imp,not_le] at hlen
  obtain ⟨rfl,hfamily,hlong⟩ := hlen
  obtain ⟨f,hf⟩ := Option.ne_none_iff_exists'.mp hfamily
  simp only [NlBuf.routeStepIn,hf,if_true]
  rw [updateIn_outside (by decide) (by decide) hlong (addrSize_of_family hf) (ht f)]

theorem plenty_routeCall (ht : Plenty t) : Plenty (NlBuf.routeCall t isNew m d) := by
  unfold NlBuf.routeCall
  simp only
  cases familyOf m.family with
  | none => exact ht
  | some f =>
    cases isNew with
    | true => exact ht.setFib routeUpdate_ok
    | false => exact ht.setFib routeDelete_ok

theorem routeStepIn_ne_fuel : NlBuf.routeStepIn t isNew m d ≠ .error .fuel := by
  unfold NlBuf.routeStepIn
  simp only
  split
  · simp
  split_ifs <;> split <;> simp

theorem fib_neighCall {m : NdMsg} {port : ℕ} {d : NeighLocals} :
    (NlBuf.neighCall t isNew m port d).fib = t.fib := by
  unfold NlBuf.neighCall
  cases familyOf m.family with
  | none => rfl
  | some f => cases isNew <;> exact fib_setNeigh

/-- What processing keeps: the ports, tries that end with the address, and an allocator that grants everything. -/
structure Kept (t t' : Thread) : Prop where
  ports : SamePorts t t'
  tries : TriesInside t'
  plenty : Plenty t → Plenty t'

theorem Kept.of_fib {t' : Thread} (ht : TriesInside t) (hports : SamePorts t t') (hfib : t'.fib = t.fib) : Kept t t' := by
  refine ⟨hports,?_,?_⟩
  · unfold TriesInside
    rwa [hfib]
  · unfold Plenty
    rw [hfib]
    exact id

theorem Kept.refl (ht : TriesInside t) : Kept t t := .of_fib ht ⟨rfl,rfl,rfl⟩ rfl

theorem Kept.trans {t' t'' : Thread} (h : Kept t t') (h' : Kept t' t'') : Kept t t'' :=
  ⟨h.ports.trans h'.ports,h'.tries,fun hp => h'.plenty (h.plenty hp)⟩

end

/-- The thread with these answers to the requests for memory of its routing tables. -/
def Thread.withMemory (t : Thread) (ok : Family → ℕ → Bool) : Thread := { t with
  fibInet := { t.fibInet with desc := { t.fibInet.desc with ok := ok .inet } }
  fibInet6 := { t.fibInet6 with desc := { t.fibInet6.desc with ok := ok .inet6 } } }

end Forwarder
end Ixmap
