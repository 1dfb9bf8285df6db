import Ixmap.BufAlloc
import Ixmap.Plane

/-! What the constructors of `lib/ixmap.c` acquire, against what their cleanup labels and release functions
give back. -/
namespace Ixmap
namespace Construct

open ResourceLedger Sys

def malloc (s : Sys Res) (size : ℕ) : Option Grant × Sys Res := s.acquire (.heap size)

def free (s : Sys Res) (g : Grant) : Sys Res :=
  s.release g.id fun
    | .heap _ => true
    | _ => false

def sizeofIxmapHandle : ℕ := 112

def sizeofIxmapRing : ℕ := 40

/-- The arguments of `ixmap_open`. -/
structure OpenArgs where
  numQueuesReq : ℕ
  intrRate : ℕ
  rxBudget : ℕ
  txBudget : ℕ
  mtuFrame : ℕ
  promisc : ℕ
  numRxDesc : ℕ
  numTxDesc : ℕ

/-- `struct ixmap_info_req`, as `IXMAP_INFO` fills it in. -/
structure InfoReq where
  mmioSize : ℕ
  maxInterruptRate : ℕ
  maxRxQueues : ℕ
  maxTxQueues : ℕ

/-- `struct ixmap_handle` with the grants behind its pointers. -/
structure IxmapHandle where
  self : Grant
  fd : Grant
  bar : Grant
  barSize : ℕ
  rxRing : Grant
  txRing : Grant
  numTxDesc : ℕ
  numRxDesc : ℕ
  rxBudget : ℕ
  txBudget : ℕ
  numQueues : ℕ
  numInterruptRate : ℕ
  promisc : Bool
  mtuFrame : ℕ

/-- `err_alloc_rx_ring`; `ih->bar_size` is still the 0 of `memset`. -/
def errAllocRxRing (s : Sys Res) (ih fd bar : Grant) : Sys Res := free (closeFd (munmap s bar 0) fd) ih

def ixmapOpen (s : Sys Res) (args : OpenArgs) (info : InfoReq) : Option IxmapHandle × Sys Res :=
  match malloc s sizeofIxmapHandle with
  | (none,s₁) => (none,s₁)
  | (some ih,s₁) =>
    match openFd s₁ with
    | (none,s₂) => (none,free s₂ ih)
    | (some fd,s₂) =>
      -- `IXMAP_INFO`
      match s₂.attempt with
      | (none,s₃) => (none,free (closeFd s₃ fd) ih)
      | (some _,s₃) =>
        let numInterruptRate := min args.intrRate info.maxInterruptRate
        let numQueues := min args.numQueuesReq (min info.maxRxQueues info.maxTxQueues)
        -- `IXMAP_UP`
        match s₃.attempt with
        | (none,s₄) => (none,free (closeFd s₄ fd) ih)
        | (some _,s₄) =>
          match mmap s₄ .mapping info.mmioSize with
          | (none,s₅) => (none,free (closeFd s₅ fd) ih)
          | (some bar,s₅) =>
            match malloc s₅ (sizeofIxmapRing*numQueues) with
            | (none,s₆) => (none,errAllocRxRing s₆ ih fd bar)
            | (some rxRing,s₆) =>
              match malloc s₆ (sizeofIxmapRing*numQueues) with
              | (none,s₇) => (none,errAllocRxRing (free s₇ rxRing) ih fd bar)
              | (some txRing,s₇) =>
                (some { self := ih, fd := fd, bar := bar, barSize := info.mmioSize, rxRing := rxRing
                        txRing := txRing, numTxDesc := args.numTxDesc, numRxDesc := args.numRxDesc
                        rxBudget := args.rxBudget, txBudget := args.txBudget, numQueues := numQueues
                        numInterruptRate := numInterruptRate, promisc := args.promisc ≠ 0
                        mtuFrame := args.mtuFrame },s₇)

def ixmapClose (s : Sys Res) (ih : IxmapHandle) : Sys Res :=
  free (closeFd (munmap (free (free s ih.txRing) ih.rxRing) ih.bar ih.barSize) ih.fd) ih.self

/-- The metadata nodes behind `desc->node`. -/
inductive NodeTree
  | null
  | node (self : Grant) (child0 child1 : NodeTree)

def ixmapMemDestroy (s : Sys Res) : NodeTree → Sys Res
  | .null => s
  | .node self child0 child1 =>
    numaFree (ixmapMemDestroy (ixmapMemDestroy s child0) child1) self sizeofIxmapMnode

/-- The tree is what `desc->node` has grown to. -/
def ixmapDescRelease (s : Sys Res) (ihList : List Handle) (desc : Desc) (tree : NodeTree) : Sys Res :=
  unwindDesc (ixmapMemDestroy s tree) desc.self desc.addrVirt (ihList.zip desc.rings)

def ixmapBufRelease (s : Sys Res) (buf : BufMem) (ihList : List Handle) : Sys Res :=
  unwindBuf (numaFree s buf.slots (4*(buf.buf.count*ihList.length % 2^32))) buf.self buf.addrDmaArray
    buf.addrVirt ihList buf.addrDma buf.buf.count buf.buf.bufSize

/-- The register space was mapped and memory for a ring was refused. -/
def RingRefused (s : Sys Res) (info : InfoReq) : Prop :=
  (∀ i < 5, s.answer (s.calls+i) ≠ none) ∧ info.mmioSize ≠ 0 ∧
    (s.answer (s.calls+5) = none ∨ s.answer (s.calls+6) = none)

/-- The last of `n` granted requests mapped huge pages with a length that is not one of whole pages. -/
def Ragged (s : Sys Res) (n hugePage len : ℕ) : Prop :=
  (∀ i < n, s.answer (s.calls+i) ≠ none) ∧ len ≠ 0 ∧ ¬ hugePage ∣ len

def IxmapHandle.own (ih : IxmapHandle) : Multiset (ℕ × Res) :=
  {(ih.txRing.id,.heap (sizeofIxmapRing*ih.numQueues))}+({(ih.rxRing.id,.heap (sizeofIxmapRing*ih.numQueues))}+
    ({(ih.bar.id,.mapping ih.barSize)}+({(ih.fd.id,.fd)}+{(ih.self.id,.heap sizeofIxmapHandle)})))

def CoreRings.own (ih : Handle) (r : CoreRings) : Multiset (ℕ × Res) :=
  {(r.txSlots.id,.numa (4*ih.numTxDesc))}+({(r.txDma.id,.dma ih.fd r.txVirt ih.sizeTxDesc)}+
    ({(r.rxSlots.id,.numa (4*ih.numRxDesc))}+{(r.rxDma.id,.dma ih.fd r.rxVirt ih.sizeRxDesc)}))

def ringsOwn (l : List (Handle × CoreRings)) : Multiset (ℕ × Res) := (l.map fun p => p.2.own p.1).sum

def NodeTree.own : NodeTree → Multiset (ℕ × Res)
  | .null => 0
  | .node self child0 child1 => child0.own+(child1.own+{(self.id,.numa sizeofIxmapMnode)})

def Desc.own (hugePage : ℕ) (ihList : List Handle) (d : Desc) : Multiset (ℕ × Res) :=
  ringsOwn (ihList.zip d.rings)+({(d.addrVirt.id,.huge hugePage size1gb)}+{(d.self.id,.numa sizeofIxmapDesc)})

def dmaOwn (addr size : ℕ) (l : List (Handle × Grant)) : Multiset (ℕ × Res) :=
  (l.map fun p => {(p.2.id,Res.dma p.1.fd addr size)}).sum

def BufMem.own (hugePage : ℕ) (ihList : List Handle) (b : BufMem) : Multiset (ℕ × Res) :=
  let size := bufBytes ihList.length b.buf.count b.buf.bufSize
  {(b.slots.id,.numa (4*(b.buf.count*ihList.length % 2^32)))}+(dmaOwn b.addrVirt.value size (ihList.zip b.addrDma)+
    ({(b.addrVirt.id,.huge hugePage size)}+({(b.addrDmaArray.id,.numa (8*ihList.length))}+
      {(b.self.id,.numa sizeofIxmapBuf)})))

section
variable {s₀ s s' : Sys Res} {own : Multiset (ℕ × Res)} {g : Grant} {kind : ℕ → Res} {hugePage len n : ℕ}

theorem since_free {size : ℕ} (h : Since s₀ s ({(g.id,.heap size)}+own)) : Since s₀ (free s g) own :=
  h.release rfl

theorem since_munmap (h : Since s₀ s ({(g.id,.mapping len)}+own)) : Since s₀ (munmap s g len) own :=
  h.release (by simp)

theorem since_munmap_huge (hdvd : hugePage ∣ len) (h : Since s₀ s ({(g.id,.huge hugePage len)}+own)) :
    Since s₀ (munmap s g len) own := h.release (by simpa using hdvd)

theorem since_dmaUnmap {ih : Handle} {addr len : ℕ} (h : Since s₀ s ({(g.id,.dma ih.fd addr len)}+own)) :
    Since s₀ (ixmapDmaUnmap s ih g) own := h.release (by simp)

/-- A mapping that was refused was one of no bytes or is the first request to be refused. -/
theorem passed_mmap_none (h : Passed s₀ s own n) (hm : mmap s kind len = (none,s')) :
    Since s₀ s' own ∧ (len = 0 ∨ s₀.answer (s₀.calls+n) = none) := by
  unfold mmap at hm
  split_ifs at hm with hzero
  · exact ⟨(Prod.mk.inj hm).2 ▸ h.since.deny,.inl hzero⟩
  · exact ⟨h.since.refused hm,.inr (h.granted.acquire_none hm)⟩

theorem passed_mmap (h : Passed s₀ s own n) (hm : mmap s kind len = (some g,s')) :
    len ≠ 0 ∧ Passed s₀ s' ({(g.id,kind len)}+own) (n+1) := by
  unfold mmap at hm
  split_ifs at hm with hzero
  · simp at hm
  · exact ⟨hzero,h.acquire hm⟩

theorem not_ragged (h : Stopped s₀ s own n) {m : ℕ} (hn : n ≤ m) : ¬ Ragged s₀ m hugePage len := by
  obtain ⟨i,hi,hnone⟩ := h.refused
  exact fun hr => hr.1 i (hi.trans_le hn) hnone

/-- A mapping of huge pages that `munmap` refuses to take back. -/
theorem count_munmap_ragged {id : ℕ} (hragged : ¬ hugePage ∣ len) :
    (munmap s g len).held.count (id,Res.huge hugePage len) =
      s.held.count (id,Res.huge hugePage len) :=
  count_release (by simpa using fun hdvd => absurd hdvd hragged)

@[simp] theorem count_numaFree_huge {id size : ℕ} :
    (numaFree s g size).held.count (id,Res.huge hugePage len) =
      s.held.count (id,Res.huge hugePage len) := count_release (by simp)

@[simp] theorem count_dmaUnmap_huge {id : ℕ} {ih : Handle} :
    (ixmapDmaUnmap s ih g).held.count (id,Res.huge hugePage len) =
      s.held.count (id,Res.huge hugePage len) := count_release rfl

theorem yields_assignPort (addr : ℕ) (ih : Handle) (h : Since s₀ s own) :
    Yields s₀ own (CoreRings.own ih) (assignPort s addr ih) := by
  unfold assignPort
  rcases hrx : ixmapDmaMap s ih addr ih.sizeRxDesc with ⟨_ | rxDma,s₁⟩ <;> simp only
  · exact yields_none.mpr (h.refused hrx)
  have h₁ := h.granted hrx
  rcases hrxs : numaAlloc s₁ (4*ih.numRxDesc) with ⟨_ | rxSlots,s₂⟩ <;> simp only
  · exact yields_none.mpr (since_dmaUnmap (h₁.refused hrxs))
  have h₂ := h₁.granted hrxs
  rcases htx : ixmapDmaMap s₂ ih (addr+ih.sizeRxDesc) ih.sizeTxDesc with ⟨_ | txDma,s₃⟩ <;> simp only
  · exact yields_none.mpr (since_dmaUnmap (since_numaFree (h₂.refused htx)))
  have h₃ := h₂.granted htx
  rcases htxs : numaAlloc s₃ (4*ih.numTxDesc) with ⟨_ | txSlots,s₄⟩ <;> simp only
  · exact yields_none.mpr (since_dmaUnmap (since_numaFree (since_dmaUnmap (h₃.refused htxs))))
  · rw [yields_some,CoreRings.own,add_assoc,add_assoc,add_assoc]
    exact h₃.granted htxs

theorem since_assignPorts (addr : ℕ) (ihList : List Handle) (h : Since s₀ s own) :
    Since s₀ (assignPorts s addr ihList).sys
      (ringsOwn (ihList.zip (assignPorts s addr ihList).rings)+own) := by
  induction ihList generalizing s own addr with
  | nil => simpa [assignPorts,ringsOwn] using h
  | cons ih rest hrest =>
    have hport := yields_assignPort addr ih h
    unfold assignPorts
    rcases hassign : assignPort s addr ih with ⟨_ | r,s₁⟩ <;> rw [hassign] at hport <;> simp only
    · simpa [ringsOwn] using hport
    · have hall := hrest (addr+ih.sizeRxDesc+ih.sizeRxDesc) (yields_some.mp hport)
      simp only [ringsOwn,List.zip_cons_cons,List.map_cons,List.sum_cons] at hall ⊢
      rwa [add_comm (r.own ih),add_assoc (List.sum _)]

theorem since_unassignPorts {l : List (Handle × CoreRings)} (h : Since s₀ s (ringsOwn l+own)) :
    Since s₀ (unassignPorts s l) own := by
  induction l generalizing s with
  | nil => simpa [unassignPorts,ringsOwn] using h
  | cons p rest hrest =>
    simp only [ringsOwn,List.map_cons,List.sum_cons,CoreRings.own,add_assoc] at h
    exact hrest (since_dmaUnmap (since_numaFree (since_dmaUnmap (since_numaFree h))))

theorem since_unwindDesc {desc addr : Grant} {l : List (Handle × CoreRings)} (hdvd : hugePage ∣ size1gb)
    (h : Since s₀ s (ringsOwn l+({(addr.id,.huge hugePage size1gb)}+({(desc.id,.numa sizeofIxmapDesc)}+own)))) :
    Since s₀ (unwindDesc s desc addr l) own :=
  since_numaFree (since_munmap_huge hdvd (since_unassignPorts h))

theorem count_unassignPorts {id : ℕ} (l : List (Handle × CoreRings)) :
    (unassignPorts s l).held.count (id,Res.huge hugePage len) =
      s.held.count (id,Res.huge hugePage len) := by
  induction l generalizing s with
  | nil => rfl
  | cons p rest hrest => simp [unassignPorts,hrest]

theorem count_unwindDesc {id : ℕ} {desc addr : Grant} {l : List (Handle × CoreRings)}
    (hragged : ¬ hugePage ∣ size1gb) :
    (unwindDesc s desc addr l).held.count (id,Res.huge hugePage size1gb) =
      s.held.count (id,Res.huge hugePage size1gb) := by
  rw [unwindDesc,count_numaFree_huge,count_munmap_ragged hragged,count_unassignPorts]

theorem since_memDestroy {tree : NodeTree} (h : Since s₀ s (tree.own+own)) :
    Since s₀ (ixmapMemDestroy s tree) own := by
  induction tree generalizing s own with
  | null => simpa [ixmapMemDestroy,NodeTree.own] using h
  | node self child0 child1 ih0 ih1 =>
    simp only [NodeTree.own,add_assoc] at h
    exact since_numaFree (ih1 (ih0 h))

theorem count_memDestroy {id : ℕ} (tree : NodeTree) :
    (ixmapMemDestroy s tree).held.count (id,Res.huge hugePage len) =
      s.held.count (id,Res.huge hugePage len) := by
  induction tree generalizing s with
  | null => rfl
  | node self child0 child1 ih0 ih1 => simp [ixmapMemDestroy,ih0,ih1]

theorem descAlloc_cases (hugePage : ℕ) (s : Sys Res) (ihList : List Handle) :
    (¬ Ragged s 2 hugePage size1gb ∧ (ixmapDescAlloc hugePage s ihList).1 = none ∧
      Restored s (ixmapDescAlloc hugePage s ihList).2) ∨
    (hugePage ∣ size1gb ∧ Yields s 0 (fun d => (NodeTree.node d.node .null .null).own+d.own hugePage ihList)
      (ixmapDescAlloc hugePage s ihList)) ∨
    (Ragged s 2 hugePage size1gb ∧ ∃ id, s.held.count (id,Res.huge hugePage size1gb) <
      (ixmapDescAlloc hugePage s ihList).2.held.count (id,Res.huge hugePage size1gb)) := by
  unfold ixmapDescAlloc
  have h := Passed.refl s
  rcases hdesc : numaAlloc s sizeofIxmapDesc with ⟨_ | desc,s₁⟩ <;> simp only
  · have hstop := h.refuse hdesc
    exact .inl ⟨not_ragged hstop (by decide),trivial,hstop.since.restored⟩
  have h₁ := h.acquire hdesc
  rcases hmmap : mmap s₁ (.huge hugePage) size1gb with ⟨_ | addr,s₂⟩ <;> simp only
  · obtain ⟨hsince,hnone⟩ := passed_mmap_none h₁ hmmap
    exact .inl ⟨fun hr => hnone.elim hr.2.1 (hr.1 1 (by decide)),trivial,(since_numaFree hsince).restored⟩
  obtain ⟨hlen,h₂⟩ := passed_mmap h₁ hmmap
  have h₃ := since_assignPorts addr.value ihList h₂.since
  by_cases hdvd : hugePage ∣ size1gb
  · refine .inr (.inl ⟨hdvd,?_⟩)
    rcases hports : assignPorts s₂ addr.value ihList with ⟨rings,_ | cursor,s₃⟩ <;> rw [hports] at h₃ <;> simp only
    · exact yields_none.mpr (since_unwindDesc hdvd h₃)
    rcases hnode : numaAlloc s₃ sizeofIxmapMnode with ⟨_ | node,s₄⟩ <;> simp only
    · exact yields_none.mpr (since_unwindDesc hdvd (h₃.refused hnode))
    · simp only [yields_some,NodeTree.own,Desc.own,zero_add,add_assoc]
      exact h₃.granted hnode
  · refine .inr (.inr ⟨⟨h₂.granted.all,hlen,hdvd⟩,addr.id,?_⟩)
    rcases hports : assignPorts s₂ addr.value ihList with ⟨rings,_ | cursor,s₃⟩ <;> rw [hports] at h₃ <;> simp only
    · rw [count_unwindDesc hdvd]
      exact h₃.count_lt (by simp)
    rcases hnode : numaAlloc s₃ sizeofIxmapMnode with ⟨_ | node,s₄⟩ <;> simp only
    · rw [count_unwindDesc hdvd]
      exact (h₃.refused hnode).count_lt (by simp)
    · exact (h₃.granted hnode).count_lt (by simp)

theorem since_descRelease {ihList : List Handle} {d : Desc} {tree : NodeTree} (hdvd : hugePage ∣ size1gb)
    (h : Since s₀ s (tree.own+d.own hugePage ihList+own)) : Since s₀ (ixmapDescRelease s ihList d tree) own := by
  simp only [Desc.own,add_assoc] at h
  exact since_unwindDesc hdvd (since_memDestroy h)

theorem descAlloc_balanced_iff (hugePage : ℕ) (s : Sys Res) (ihList : List Handle) :
    Balanced s (ixmapDescAlloc hugePage s ihList)
      (fun t d => ixmapDescRelease t ihList d (.node d.node .null .null)) ↔ ¬ Ragged s 2 hugePage size1gb := by
  rcases descAlloc_cases hugePage s ihList with ⟨hsound,hnone,hrest⟩ | ⟨hdvd,hyields⟩ | ⟨hragged,id,hlt⟩
  · exact iff_of_true (balanced_of_none hnone hrest) hsound
  · exact iff_of_true (hyields.balanced fun _ _ _ _ => since_descRelease hdvd) fun hr => hr.2.2 hdvd
  · refine iff_of_false (not_balanced hlt fun d _ t => ?_) (not_not.mpr hragged)
    rw [ixmapDescRelease,count_unwindDesc hragged.2.2,count_memDestroy]

theorem since_mapPorts (addr size : ℕ) (ihList : List Handle) (h : Since s₀ s own) :
    Since s₀ (mapPorts s addr size ihList).sys
      (dmaOwn addr size (ihList.zip (mapPorts s addr size ihList).addrDma)+own) := by
  induction ihList generalizing s own with
  | nil => simpa [mapPorts,dmaOwn] using h
  | cons ih rest hrest =>
    unfold mapPorts
    rcases hmap : ixmapDmaMap s ih addr size with ⟨_ | g,s₁⟩ <;> simp only
    · simpa [dmaOwn] using h.refused hmap
    · have hall := hrest (h.granted hmap)
      simp only [dmaOwn,List.zip_cons_cons,List.map_cons,List.sum_cons] at hall ⊢
      rwa [add_comm {(g.id,Res.dma ih.fd addr size)},add_assoc]

theorem since_unmapPorts {addr size : ℕ} {l : List (Handle × Grant)} (h : Since s₀ s (dmaOwn addr size l+own)) :
    Since s₀ (unmapPorts s l) own := by
  induction l generalizing s with
  | nil => simpa [unmapPorts,dmaOwn] using h
  | cons p rest hrest =>
    simp only [dmaOwn,List.map_cons,List.sum_cons,add_assoc] at h
    exact hrest (since_dmaUnmap h)

theorem since_unwindBuf {buf array addr : Grant} {ihList : List Handle} {dma : List Grant} {count bufSize : ℕ}
    (hdvd : hugePage ∣ bufBytes ihList.length count bufSize)
    (h : Since s₀ s (dmaOwn addr.value (bufBytes ihList.length count bufSize) (ihList.zip dma)+
      ({(addr.id,.huge hugePage (bufBytes ihList.length count bufSize))}+({(array.id,.numa (8*ihList.length))}+
        ({(buf.id,.numa sizeofIxmapBuf)}+own))))) :
    Since s₀ (unwindBuf s buf array addr ihList dma count bufSize) own :=
  since_numaFree (since_numaFree (since_munmap_huge hdvd (since_unmapPorts h)))

theorem count_unmapPorts {id : ℕ} (l : List (Handle × Grant)) :
    (unmapPorts s l).held.count (id,Res.huge hugePage len) = s.held.count (id,Res.huge hugePage len) := by
  induction l generalizing s with
  | nil => rfl
  | cons p rest hrest => rw [unmapPorts,hrest,count_dmaUnmap_huge]

theorem count_unwindBuf {id : ℕ} {buf array addr : Grant} {ihList : List Handle} {dma : List Grant}
    {count bufSize : ℕ} (hragged : ¬ hugePage ∣ bufBytes ihList.length count bufSize) :
    (unwindBuf s buf array addr ihList dma count bufSize).held.count
        (id,Res.huge hugePage (bufBytes ihList.length count bufSize)) =
      s.held.count (id,Res.huge hugePage (bufBytes ihList.length count bufSize)) := by
  simp only [unwindBuf,count_numaFree_huge,count_munmap_ragged hragged,count_unmapPorts]

theorem bufAlloc_cases (hugePage : ℕ) (s : Sys Res) (ihList : List Handle) (count bufSize : ℕ) :
    let size := bufBytes ihList.length count bufSize
    (¬ Ragged s 3 hugePage size ∧ (ixmapBufAlloc hugePage s ihList count bufSize).1 = none ∧
      Restored s (ixmapBufAlloc hugePage s ihList count bufSize).2) ∨
    (hugePage ∣ size ∧ Yields s 0 (BufMem.own hugePage ihList) (ixmapBufAlloc hugePage s ihList count bufSize)) ∨
    (Ragged s 3 hugePage size ∧ ∃ id, s.held.count (id,Res.huge hugePage size) <
      (ixmapBufAlloc hugePage s ihList count bufSize).2.held.count (id,Res.huge hugePage size)) := by
  intro size
  unfold ixmapBufAlloc
  have h := Passed.refl s
  rcases hbuf : numaAlloc s sizeofIxmapBuf with ⟨_ | buf,s₁⟩ <;> simp only
  · have hstop := h.refuse hbuf
    exact .inl ⟨not_ragged hstop (by decide),trivial,hstop.since.restored⟩
  have h₁ := h.acquire hbuf
  rcases harray : numaAlloc s₁ (8*ihList.length) with ⟨_ | array,s₂⟩ <;> simp only
  · have hstop := h₁.refuse harray
    exact .inl ⟨not_ragged hstop (by decide),trivial,(since_numaFree hstop.since).restored⟩
  have h₂ := h₁.acquire harray
  rcases hmmap : mmap s₂ (.huge hugePage) size with ⟨_ | addr,s₃⟩ <;> simp only [size] at hmmap <;> simp only
  · obtain ⟨hsince,hnone⟩ := passed_mmap_none h₂ hmmap
    exact .inl ⟨fun hr => hnone.elim hr.2.1 (hr.1 2 (by decide)),trivial,(since_numaFree (since_numaFree hsince)).restored⟩
  obtain ⟨hlen,h₃⟩ := passed_mmap h₂ hmmap
  have h₄ := since_mapPorts addr.value (bufBytes ihList.length count bufSize) ihList h₃.since
  by_cases hdvd : hugePage ∣ size
  · refine .inr (.inl ⟨hdvd,?_⟩)
    rcases hmap : mapPorts s₃ addr.value (bufBytes ihList.length count bufSize) ihList with ⟨dma,_ | _,s₄⟩ <;>
      rw [hmap] at h₄ <;> simp only
    · exact yields_none.mpr (since_unwindBuf hdvd h₄)
    rcases hslots : numaAlloc s₄ (4*(count*ihList.length % 2^32)) with ⟨_ | slots,s₅⟩ <;> simp only
    · exact yields_none.mpr (since_unwindBuf hdvd (h₄.refused hslots))
    · simp only [yields_some,BufMem.own,add_assoc]
      exact h₄.granted hslots
  · refine .inr (.inr ⟨⟨h₃.granted.all,hlen,hdvd⟩,addr.id,?_⟩)
    rcases hmap : mapPorts s₃ addr.value (bufBytes ihList.length count bufSize) ihList with ⟨dma,_ | _,s₄⟩ <;>
      rw [hmap] at h₄ <;> simp only
    · rw [count_unwindBuf hdvd]
      exact h₄.count_lt (by simp [size])
    rcases hslots : numaAlloc s₄ (4*(count*ihList.length % 2^32)) with ⟨_ | slots,s₅⟩ <;> simp only
    · rw [count_unwindBuf hdvd]
      exact (h₄.refused hslots).count_lt (by simp [size])
    · exact (h₄.granted hslots).count_lt (by simp [size])

theorem since_bufRelease {ihList : List Handle} {b : BufMem}
    (hdvd : hugePage ∣ bufBytes ihList.length b.buf.count b.buf.bufSize)
    (h : Since s₀ s (b.own hugePage ihList+own)) : Since s₀ (ixmapBufRelease s b ihList) own := by
  simp only [BufMem.own,add_assoc] at h
  exact since_unwindBuf hdvd (since_numaFree h)

theorem bufAlloc_balanced_iff (hugePage : ℕ) (s : Sys Res) (ihList : List Handle) (count bufSize : ℕ) :
    Balanced s (ixmapBufAlloc hugePage s ihList count bufSize) (fun t b => ixmapBufRelease t b ihList) ↔
      ¬ Ragged s 3 hugePage (bufBytes ihList.length count bufSize) := by
  -- the release function computes the length again, from what the buffer records
  have hrecord : ∀ b, (ixmapBufAlloc hugePage s ihList count bufSize).1 = some b →
      b.buf.count = count ∧ b.buf.bufSize = bufSize := by
    intro b hb
    obtain ⟨hsize,hcount,-⟩ := bufAlloc_some (Prod.ext hb rfl)
    exact ⟨hcount,hsize⟩
  rcases bufAlloc_cases hugePage s ihList count bufSize with ⟨hsound,hnone,hrest⟩ | ⟨hdvd,hyields⟩ | ⟨hragged,id,hlt⟩
  · exact iff_of_true (balanced_of_none hnone hrest) hsound
  · refine iff_of_true (hyields.balanced fun b hb t rest => ?_) fun hr => hr.2.2 hdvd
    obtain ⟨rfl,rfl⟩ := hrecord b hb
    exact since_bufRelease hdvd
  · refine iff_of_false (not_balanced hlt fun b hb t => ?_) (not_not.mpr hragged)
    obtain ⟨rfl,rfl⟩ := hrecord b hb
    rw [ixmapBufRelease,count_unwindBuf hragged.2.2,count_numaFree_huge]

theorem since_ixmapClose {ih : IxmapHandle} (h : Since s₀ s (ih.own+own)) : Since s₀ (ixmapClose s ih) own := by
  simp only [IxmapHandle.own,add_assoc] at h
  exact since_free (since_closeFd (since_munmap (since_free (since_free h))))

/-- The register space stays mapped: `munmap` is given the length 0. -/
theorem errAllocRxRing_leaks {ih fd bar : Grant} (hlen : len ≠ 0)
    (h : Since s₀ s ({(bar.id,.mapping len)}+own)) : ¬ Restored s₀ (errAllocRxRing s ih fd bar) := by
  rintro ⟨hheld,-⟩
  have hcount : (errAllocRxRing s ih fd bar).held.count (bar.id,Res.mapping len) =
      s.held.count (bar.id,Res.mapping len) := by
    unfold errAllocRxRing
    rw [free,count_release rfl,closeFd,count_release (by simp),munmap,count_release (by simpa using hlen)]
  have hlt := h.count_lt (e := (bar.id,Res.mapping len)) (by simp)
  rw [← hcount,hheld] at hlt
  exact lt_irrefl _ hlt

theorem unopened {info : InfoReq} {n : ℕ} {s : Sys Res} (h : Stopped s₀ s 0 n) (hn : n ≤ 5) :
    ¬ RingRefused s₀ info ∧ Yields s₀ 0 IxmapHandle.own (none,s) := by
  obtain ⟨i,hi,hnone⟩ := h.refused
  exact ⟨fun hring => hring.1 i (hi.trans_le hn) hnone,yields_none.mpr h.since⟩

/-- Opening keeps what the handle records, nothing, or, if memory for a ring was refused, the mapping. -/
theorem open_cases (s : Sys Res) (args : OpenArgs) (info : InfoReq) :
    (¬ RingRefused s info ∧ Yields s 0 IxmapHandle.own (ixmapOpen s args info)) ∨
      (RingRefused s info ∧ (ixmapOpen s args info).1 = none ∧ ¬ Restored s (ixmapOpen s args info).2) := by
  unfold ixmapOpen
  have h := Passed.refl s
  rcases hih : malloc s sizeofIxmapHandle with ⟨_ | ih,s₁⟩ <;> simp only
  · exact .inl (unopened (h.refuse hih) (by decide))
  have h₁ := h.acquire hih
  rcases hfd : openFd s₁ with ⟨_ | fd,s₂⟩ <;> simp only
  · exact .inl (unopened ((h₁.refuse hfd).give since_free) (by decide))
  have h₂ := h₁.acquire hfd
  rcases hinfo : s₂.attempt with ⟨_ | v,s₃⟩ <;> simp only
  · exact .inl (unopened ((h₂.attempt_refuse hinfo).give fun hs => since_free (since_closeFd hs)) (by decide))
  have h₃ := h₂.attempt hinfo
  rcases hup : s₃.attempt with ⟨_ | w,s₄⟩ <;> simp only
  · exact .inl (unopened ((h₃.attempt_refuse hup).give fun hs => since_free (since_closeFd hs)) (by decide))
  have h₄ := h₃.attempt hup
  rcases hbar : mmap s₄ .mapping info.mmioSize with ⟨_ | bar,s₅⟩ <;> simp only
  · obtain ⟨hsince,hnone⟩ := passed_mmap_none h₄ hbar
    exact .inl ⟨fun hr => hnone.elim hr.2.1 (hr.1 4 (by decide)),yields_none.mpr (since_free (since_closeFd hsince))⟩
  obtain ⟨hlen,h₅⟩ := passed_mmap h₄ hbar
  generalize hsize : sizeofIxmapRing*(min args.numQueuesReq (min info.maxRxQueues info.maxTxQueues)) = ringSize
  rcases hrx : malloc s₅ ringSize with ⟨_ | rxRing,s₆⟩ <;> simp only
  · exact .inr ⟨⟨h₅.granted.all,hlen,.inl (h₅.granted.acquire_none hrx)⟩,trivial,
      errAllocRxRing_leaks hlen (h₅.refuse hrx).since⟩
  have h₆ := h₅.acquire hrx
  rcases htx : malloc s₆ ringSize with ⟨_ | txRing,s₇⟩ <;> simp only
  · exact .inr ⟨⟨h₅.granted.all,hlen,.inr (h₆.granted.acquire_none htx)⟩,trivial,
      errAllocRxRing_leaks hlen (since_free (h₆.refuse htx).since)⟩
  · have h₇ := h₆.acquire htx
    refine .inl ⟨fun hr => hr.2.2.elim (h₇.granted.all 5 (by decide)) (h₇.granted.all 6 (by decide)),?_⟩
    simp only [yields_some,IxmapHandle.own,hsize,add_assoc]
    exact h₇.since

end

/-- Planes are unwound exactly, whichever step fails; a handle iff the failure is not that of the memory for a
ring, and descriptor memory and packet buffers iff the huge pages they got mapped are a whole number of pages. -/
theorem constructors_unwind_iff (s : Sys Res) (args : OpenArgs) (info : InfoReq) (ihList : List PortHandle)
    (hugePage coreId count bufSize : ℕ) :
    let handles := ihList.map PortHandle.toHandle
    (Balanced s (ixmapOpen s args info) ixmapClose ↔ ¬ RingRefused s info) ∧
    (Balanced s (ixmapDescAlloc hugePage s handles)
      (fun t d => ixmapDescRelease t handles d (.node d.node .null .null)) ↔ ¬ Ragged s 2 hugePage size1gb) ∧
    (Balanced s (ixmapBufAlloc hugePage s handles count bufSize) (fun t b => ixmapBufRelease t b handles) ↔
      ¬ Ragged s 3 hugePage (bufBytes ihList.length count bufSize)) ∧
    Balanced s (ixmapPlaneAlloc s ihList coreId) (fun t p => ixmapPlaneRelease t p ihList.length) := by
  intro handles
  refine ⟨?_,?_,?_,?_⟩
  · rcases open_cases s args info with ⟨hring,hopen⟩ | ⟨hring,hnone,hleak⟩
    · exact iff_of_true (hopen.balanced fun _ _ _ _ => since_ixmapClose) hring
    · exact iff_of_false (fun hbal => hleak (hbal.1 hnone)) (not_not.mpr hring)
  · exact descAlloc_balanced_iff hugePage s handles
  · have hbuf := bufAlloc_balanced_iff hugePage s handles count bufSize
    rwa [List.length_map] at hbuf
  · exact (yields_planeAlloc ihList coreId (Since.refl s)).balanced fun _ _ _ _ => since_planeRelease

/-- The sixth request, for the receive rings, is refused: the call fails and keeps the mapping of the
register space. The 16 MiB of the default buffers stay mapped behind their release when pages are 1 GiB. -/
theorem constructors_leak :
    (let s := Sys.init fun n => if n = 5 then none else some n
    let opened := ixmapOpen s ⟨4,8,1024,4096,1522,1,4096,4096⟩ ⟨2^19,0xff8,16,16⟩
    opened.1.isNone ∧ opened.2.held = [(4,Res.mapping (2^19))] ∧ opened.2.wrong = 1) ∧
    let alloc := ixmapBufAlloc (2^30) (Sys.init some) [⟨3,512,512⟩] 8192 2048
    alloc.1.map (fun b => let t := ixmapBufRelease alloc.2 b [⟨3,512,512⟩]
      (t.held,t.wrong)) = some ([(2,Res.huge (2^30) (2^24))],1) := by
  decide +kernel

end Construct
end Ixmap
