import Ixmap.Construct

/-! `ixmap_buf_alloc` and the two address computations for packet-buffer slots. -/
namespace Ixmap
namespace Construct

open ResourceLedger Driver

structure Mapped where
  addrDma : List Grant
  done : Bool
  sys : Sys Res

def mapPorts (s : Sys Res) (addrVirt size : ℕ) : List Handle → Mapped
  | [] => ⟨[],true,s⟩
  | ih::rest =>
    match ixmapDmaMap s ih addrVirt size with
    | (none,s₁) => ⟨[],false,s₁⟩
    | (some g,s₁) =>
      let t := mapPorts s₁ addrVirt size rest
      ⟨g::t.addrDma,t.done,t.sys⟩

/-- The loop behind `err_ixmap_dma_map`, over the ports that were mapped. -/
def unmapPorts (s : Sys Res) : List (Handle × Grant) → Sys Res
  | [] => s
  | (ih,g)::rest => unmapPorts (ixmapDmaUnmap s ih g) rest

/-- `struct ixmap_buf` with the grants behind its pointers. -/
structure BufMem where
  self : Grant
  addrDmaArray : Grant
  addrVirt : Grant
  addrDma : List Grant
  slots : Grant
  buf : Buf

/-- `buf_size * (ih_num * count)`, computed in 32 bits. -/
def bufBytes (ihNum count bufSize : ℕ) : ℕ := bufSize*(ihNum*count % 2^32) % 2^32

def unwindBuf (s : Sys Res) (buf array addr : Grant) (ihList : List Handle) (dma : List Grant)
    (count bufSize : ℕ) : Sys Res :=
  let s₁ := munmap (unmapPorts s (ihList.zip dma)) addr (bufBytes ihList.length count bufSize)
  numaFree (numaFree s₁ array (8*ihList.length)) buf sizeofIxmapBuf

def ixmapBufAlloc (hugePage : ℕ) (s : Sys Res) (ihList : List Handle) (count bufSize : ℕ) :
    Option BufMem × Sys Res :=
  match numaAlloc s sizeofIxmapBuf with
  | (none,s₁) => (none,s₁)
  | (some buf,s₁) =>
    match numaAlloc s₁ (8*ihList.length) with
    | (none,s₂) => (none,numaFree s₂ buf sizeofIxmapBuf)
    | (some array,s₂) =>
      match mmap s₂ (.huge hugePage) (bufBytes ihList.length count bufSize) with
      | (none,s₃) => (none,numaFree (numaFree s₃ array (8*ihList.length)) buf sizeofIxmapBuf)
      | (some addr,s₃) =>
        match mapPorts s₃ addr.value (bufBytes ihList.length count bufSize) ihList with
        | ⟨dma,false,s₄⟩ => (none,unwindBuf s₄ buf array addr ihList dma count bufSize)
        | ⟨dma,true,s₄⟩ =>
          match numaAlloc s₄ (4*(count*ihList.length % 2^32)) with
          | (none,s₅) => (none,unwindBuf s₅ buf array addr ihList dma count bufSize)
          | (some slots,s₅) =>
            (some ⟨buf,array,addr,dma,slots,
              ⟨fun p => ((dma[p]?).map Grant.value).getD 0,bufSize,count,fun _ => 0⟩⟩,s₅)

theorem mapPorts_held {s : Sys Res} {addr size : ℕ} {ihList : List Handle}
    (h : (mapPorts s addr size ihList).done = true) :
    s.held ⊆ (mapPorts s addr size ihList).sys.held ∧
      List.Forall₂ (fun ih g => (g.id,Res.dma ih.fd addr size) ∈ (mapPorts s addr size ihList).sys.held)
        ihList (mapPorts s addr size ihList).addrDma := by
  induction ihList generalizing s with
  | nil => exact ⟨fun _ hx => hx,List.Forall₂.nil⟩
  | cons ih rest hrest =>
    rw [mapPorts] at h ⊢
    rcases hp : ixmapDmaMap s ih addr size with ⟨_ | g,s₁⟩
    · simp [hp] at h
    · simp only [hp] at h ⊢
      obtain ⟨hsub,hall⟩ := hrest h
      refine ⟨List.Subset.trans (Sys.acquire_subset hp) hsub,List.Forall₂.cons (hsub ?_) hall⟩
      rw [Sys.acquire_some hp]
      exact List.mem_cons_self

/-- A successful call has mapped the buffer once for the CPU and once for every port, all with the
same length, which is not zero. -/
theorem bufAlloc_some {s s' : Sys Res} {ihList : List Handle} {hugePage count bufSize : ℕ} {b : BufMem}
    (h : ixmapBufAlloc hugePage s ihList count bufSize = (some b,s')) :
    b.buf.bufSize = bufSize ∧ b.buf.count = count ∧ 0 < bufBytes ihList.length count bufSize ∧
      (b.addrVirt.id,Res.huge hugePage (bufBytes ihList.length count bufSize)) ∈ s'.held ∧
      List.Forall₂ (fun ih g => (g.id,Res.dma ih.fd b.addrVirt.value
        (bufBytes ihList.length count bufSize)) ∈ s'.held) ihList b.addrDma := by
  unfold ixmapBufAlloc at h
  split at h
  · simp at h
  split at h
  · simp at h
  split at h
  · simp at h
  rename_i addr s₃ hmmap
  split at h
  · simp at h
  rename_i dma s₄ hmap
  split at h
  · simp at h
  rename_i slots s₅ hslots
  simp only [Prod.mk.injEq,Option.some.injEq] at h
  obtain ⟨rfl,rfl⟩ := h
  obtain ⟨hpos,hmapping⟩ := mmap_some hmmap
  have hheld := mapPorts_held (congrArg Mapped.done hmap)
  rw [hmap] at hheld
  have hsub := Sys.acquire_subset hslots
  refine ⟨rfl,rfl,hpos,hsub (hheld.1 ?_),hheld.2.imp fun _ _ hg => hsub hg⟩
  rw [hmapping]
  exact List.mem_cons_self

/-- Every slot of every port is at the offset its index gives, for the CPU and for every port, no two
slots share a byte and all are inside the `size` bytes that were mapped. -/
structure SlotsConsistent (b : Buf) (ihNum size : ℕ) : Prop where
  virt : ∀ s < ihNum*b.count, ixmapSlotAddrVirt b s = s*b.bufSize
  dma : ∀ s < ihNum*b.count, ∀ p < ihNum, ixmapSlotAddrDma b s p = b.addrDma p+s*b.bufSize
  disjoint : ∀ s < ihNum*b.count, ∀ t < ihNum*b.count, s ≠ t →
    Disjoint (Set.Ico (ixmapSlotAddrVirt b s) (ixmapSlotAddrVirt b s+b.bufSize))
      (Set.Ico (ixmapSlotAddrVirt b t) (ixmapSlotAddrVirt b t+b.bufSize))
  inside : ∀ s < ihNum*b.count, ixmapSlotAddrVirt b s+b.bufSize ≤ size

theorem slotAddrVirt_eq {b : Buf} {s : ℕ} (hs : s < 2^16) (hlt : s*b.bufSize < 2^32) :
    ixmapSlotAddrVirt b s = s*b.bufSize := by
  have hidx : ((s : ℤ) % 2^16).toNat = s := by omega
  rw [ixmapSlotAddrVirt,hidx,Nat.mul_comm,Nat.mod_eq_of_lt hlt]

theorem slotAddrDma_eq {b : Buf} {s p : ℕ} (hlt : s*b.bufSize < 2^32) :
    ixmapSlotAddrDma b s p = b.addrDma p+s*b.bufSize := by
  have hcast : (b.bufSize : ℤ)*(s : ℤ) = ((s*b.bufSize : ℕ) : ℤ) := by
    push_cast
    ring
  have hmod : (((s*b.bufSize : ℕ) : ℤ) % 2^32).toNat = s*b.bufSize := by omega
  rw [ixmapSlotAddrDma,hcast,hmod]

theorem slots_consistent_of_le {b : Buf} {ihNum : ℕ} (hidx : ihNum*b.count ≤ 2^16)
    (hsize : ihNum*b.count*b.bufSize < 2^32) :
    SlotsConsistent b ihNum (bufBytes ihNum b.count b.bufSize) := by
  have hbytes : bufBytes ihNum b.count b.bufSize = ihNum*b.count*b.bufSize := by
    have hcount : ihNum*b.count % 2^32 = ihNum*b.count := Nat.mod_eq_of_lt (by omega)
    rw [bufBytes,hcount,Nat.mul_comm,Nat.mod_eq_of_lt hsize]
  have hend : ∀ s < ihNum*b.count, s*b.bufSize+b.bufSize ≤ ihNum*b.count*b.bufSize := by
    intro s hs
    rw [← Nat.succ_mul]
    exact Nat.mul_le_mul_right _ hs
  have hvirt : ∀ s < ihNum*b.count, ixmapSlotAddrVirt b s = s*b.bufSize := by
    intro s hs
    rcases Nat.eq_zero_or_pos b.bufSize with h0 | hpos
    · simp [ixmapSlotAddrVirt,h0]
    · have := hend s hs
      exact slotAddrVirt_eq (by omega) (by omega)
  refine ⟨hvirt,?_,?_,?_⟩
  · intro s hs p _
    have hle := hend s hs
    have hlt : s*b.bufSize < 2^32 := by omega
    exact slotAddrDma_eq hlt
  · have hbefore : ∀ s t, s < t → s*b.bufSize+b.bufSize ≤ t*b.bufSize := by
      intro s t hst
      rw [← Nat.succ_mul]
      exact Nat.mul_le_mul_right _ hst
    intro s hs t ht hne
    rw [hvirt s hs,hvirt t ht,Set.Ico_disjoint_Ico]
    rcases Nat.lt_or_gt_of_ne hne with hst | hts
    · exact (min_le_left _ _).trans ((hbefore s t hst).trans (le_max_right _ _))
    · exact (min_le_right _ _).trans ((hbefore t s hts).trans (le_max_left _ _))
  · intro s hs
    rw [hvirt s hs,hbytes]
    exact hend s hs

/-- The 65536th slot is taken for the first, and the last slot ends behind 4 GB. -/
theorem SlotsConsistent.bounds {b : Buf} {ihNum : ℕ} (hpos : 0 < bufBytes ihNum b.count b.bufSize)
    (h : SlotsConsistent b ihNum (bufBytes ihNum b.count b.bufSize)) :
    ihNum*b.count ≤ 2^16 ∧ ihNum*b.count*b.bufSize < 2^32 := by
  have hbuf : 0 < b.bufSize := by
    by_contra h0
    simp [bufBytes,Nat.eq_zero_of_not_pos h0] at hpos
  have hidx : ihNum*b.count ≤ 2^16 := by
    by_contra hlt
    have hv := h.virt (2^16) (by omega)
    have hzero : (((2^16 : ℕ) : ℤ) % 2^16).toNat = 0 := by decide
    rw [ixmapSlotAddrVirt,hzero] at hv
    omega
  refine ⟨hidx,?_⟩
  rcases Nat.eq_zero_or_pos (ihNum*b.count) with h0 | hslots
  · simp [h0]
  · have hlast := h.inside (ihNum*b.count-1) (by omega)
    rw [h.virt _ (by omega),← Nat.succ_mul,Nat.succ_eq_add_one,Nat.sub_add_cancel hslots] at hlast
    exact hlast.trans_lt (Nat.mod_lt _ (by decide))

/-- Slot addresses agree exactly while the slots of all ports have 16-bit indices and less than 4 GB in
all, given that the mappings were made. -/
theorem buf_slots_iff {s s' : Sys Res} {ihList : List Handle} {hugePage count bufSize : ℕ} {b : BufMem}
    (h : ixmapBufAlloc hugePage s ihList count bufSize = (some b,s')) :
    ∃ size, (b.addrVirt.id,Res.huge hugePage size) ∈ s'.held ∧
      List.Forall₂ (fun ih g => (g.id,Res.dma ih.fd b.addrVirt.value size) ∈ s'.held) ihList b.addrDma ∧
      (SlotsConsistent b.buf ihList.length size ↔
        ihList.length*count ≤ 2^16 ∧ ihList.length*count*bufSize < 2^32) := by
  obtain ⟨rfl,rfl,hpos,hmap,hdma⟩ := bufAlloc_some h
  exact ⟨_,hmap,hdma,fun hs => hs.bounds hpos,fun hb => slots_consistent_of_le hb.1 hb.2⟩

/-- Two ports with the default of 8192 buffers each. -/
theorem buf_slots_default : ∃ b s' size, ixmapBufAlloc (2^30) (Sys.init fun _ => some (2^30))
    [⟨3,4096,4096⟩,⟨4,4096,4096⟩] 8192 2048 = (some b,s') ∧ SlotsConsistent b.buf 2 size := by
  have hrun : ∃ b s', ixmapBufAlloc (2^30) (Sys.init fun _ => some (2^30))
      [⟨3,4096,4096⟩,⟨4,4096,4096⟩] 8192 2048 = (some b,s') := ⟨_,_,rfl⟩
  obtain ⟨b,s',h⟩ := hrun
  obtain ⟨size,-,-,hiff⟩ := buf_slots_iff h
  exact ⟨b,s',size,h,hiff.mpr (by decide)⟩

/-- Nine ports with the default of 8192 buffers each: the first slot of the last port has the CPU
address of slot 0, and its device address is right. -/
theorem buf_slots_nine_ports : ∃ b s', ixmapBufAlloc (2^30) (Sys.init fun _ => some (2^30))
    (List.replicate 9 ⟨3,4096,4096⟩) 8192 2048 = (some b,s') ∧
      ixmapSlotAddrVirt b.buf (8*8192 : ℕ) = 0 ∧
      ixmapSlotAddrDma b.buf (8*8192 : ℕ) 8 = b.buf.addrDma 8+8*8192*2048 := by
  refine ⟨_,_,rfl,?_,?_⟩
  · decide
  · decide

end Construct
end Ixmap
