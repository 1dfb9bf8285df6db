import Mathlib
import Ixmap.ResourceLedger
import Ixmap.RangeList
import Ixmap.Driver
import Ixmap.Memory

/-! `ixmap_desc_alloc` and `ixmap_buf_alloc` of `lib/ixmap.c`, with their loops over the ports and their
cleanup labels, and the addresses they lay out. -/
namespace Ixmap
namespace Construct

open ResourceLedger

/-- What the library acquires: blocks from `numa_alloc_onnode`, mappings from `mmap`, those with
`MAP_HUGETLB` by the size of their pages, DMA mappings made through the descriptor of a port, blocks from
`malloc` and `ixmap_mem_alloc`, file descriptors and streams. -/
inductive Res
  | numa (size : ℕ)
  | mapping (len : ℕ)
  | huge (page len : ℕ)
  | dma (fd addr len : ℕ)
  | heap (size : ℕ)
  | mem (size : ℕ)
  | fd
  | file
  deriving DecidableEq, Repr

/-- `struct ixmap_handle`, as far as these functions read it. -/
structure Handle where
  fd : ℕ
  numRxDesc : ℕ
  numTxDesc : ℕ
  deriving DecidableEq, Repr

def numaAlloc (s : Sys Res) (size : ℕ) : Option Grant × Sys Res := s.acquire (.numa size)

def numaFree (s : Sys Res) (g : Grant) (size : ℕ) : Sys Res := s.release g.id (· = .numa size)

/-- `mmap`, of the kind its flags say; a mapping of no bytes is refused. -/
def mmap (s : Sys Res) (kind : ℕ → Res) (len : ℕ) : Option Grant × Sys Res :=
  if len = 0 then (none,s.deny) else s.acquire (kind len)

theorem mmap_some {s s' : Sys Res} {kind : ℕ → Res} {len : ℕ} {g : Grant} (h : mmap s kind len = (some g,s')) :
    0 < len ∧ s'.held = (g.id,kind len)::s.held := by
  unfold mmap at h
  split_ifs at h with hzero
  · simp at h
  · exact ⟨Nat.pos_of_ne_zero hzero,Sys.acquire_some h⟩

/-- `munmap`; the system rounds the length of a mapping of huge pages up to whole pages, but refuses to
unmap a length that is not one of whole pages. -/
def munmap (s : Sys Res) (g : Grant) (len : ℕ) : Sys Res :=
  s.release g.id fun
    | .mapping l => l = len
    | .huge page l => page ∣ len ∧ l = len
    | _ => false

def ixmapDmaMap (s : Sys Res) (ih : Handle) (addrVirt size : ℕ) : Option Grant × Sys Res :=
  s.acquire (.dma ih.fd addrVirt size)

def ixmapDmaUnmap (s : Sys Res) (ih : Handle) (addrDma : Grant) : Sys Res :=
  s.release addrDma.id fun
    | .dma fd _ _ => fd = ih.fd
    | _ => false

def align (x a : ℕ) : ℕ := (x+(a-1))/a*a

def size1gb : ℕ := 2^30

def sizeofIxmapDesc : ℕ := 24

def sizeofIxmapMnode : ℕ := 48

def sizeofIxmapBuf : ℕ := 32

def ringBytes (numDesc : ℕ) : ℕ := 16*numDesc

def Handle.sizeRxDesc (ih : Handle) : ℕ := align (ringBytes ih.numRxDesc) 128

def Handle.sizeTxDesc (ih : Handle) : ℕ := align (ringBytes ih.numTxDesc) 128

/-- `ih->rx_ring[core_id]` and `ih->tx_ring[core_id]` of one port. -/
structure CoreRings where
  rxVirt : ℕ
  rxDma : Grant
  rxSlots : Grant
  txVirt : ℕ
  txDma : Grant
  txSlots : Grant

/-- The body of the loop over the ports, with the cleanup labels inside it. -/
def assignPort (s : Sys Res) (addrVirt : ℕ) (ih : Handle) : Option CoreRings × Sys Res :=
  match ixmapDmaMap s ih addrVirt ih.sizeRxDesc with
  | (none,s₁) => (none,s₁)
  | (some rxDma,s₁) =>
    match numaAlloc s₁ (4*ih.numRxDesc) with
    | (none,s₂) => (none,ixmapDmaUnmap s₂ ih rxDma)
    | (some rxSlots,s₂) =>
      match ixmapDmaMap s₂ ih (addrVirt+ih.sizeRxDesc) ih.sizeTxDesc with
      | (none,s₃) => (none,ixmapDmaUnmap (numaFree s₃ rxSlots (4*ih.numRxDesc)) ih rxDma)
      | (some txDma,s₃) =>
        match numaAlloc s₃ (4*ih.numTxDesc) with
        | (none,s₄) =>
          (none,ixmapDmaUnmap (numaFree (ixmapDmaUnmap s₄ ih txDma) rxSlots (4*ih.numRxDesc)) ih rxDma)
        | (some txSlots,s₄) =>
          (some ⟨addrVirt,rxDma,rxSlots,addrVirt+ih.sizeRxDesc,txDma,txSlots⟩,s₄)

structure Assigned where
  rings : List CoreRings
  /-- Where the cursor ended, unless a port failed. -/
  cursor : Option ℕ
  sys : Sys Res

/-- The loop; the cursor moves by `size_rx_desc` after either ring. -/
def assignPorts (s : Sys Res) (addrVirt : ℕ) : List Handle → Assigned
  | [] => ⟨[],some addrVirt,s⟩
  | ih::rest =>
    match assignPort s addrVirt ih with
    | (none,s₁) => ⟨[],none,s₁⟩
    | (some r,s₁) =>
      let t := assignPorts s₁ (addrVirt+ih.sizeRxDesc+ih.sizeRxDesc) rest
      ⟨r::t.rings,t.cursor,t.sys⟩

/-- The loop behind `err_desc_assign`, over the ports that were assigned. -/
def unassignPorts (s : Sys Res) : List (Handle × CoreRings) → Sys Res
  | [] => s
  | (ih,r)::rest =>
    let s₁ := ixmapDmaUnmap (numaFree s r.txSlots (4*ih.numTxDesc)) ih r.txDma
    let s₂ := ixmapDmaUnmap (numaFree s₁ r.rxSlots (4*ih.numRxDesc)) ih r.rxDma
    unassignPorts s₂ rest

/-- `struct ixmap_desc`, the rings of its core and the region its allocator manages. -/
structure Desc where
  self : Grant
  addrVirt : Grant
  rings : List CoreRings
  addrMem : ℕ
  sizeMem : ℕ
  node : Grant

/-- `size - (addr_mem - desc->addr_virt)`, narrowed to the `unsigned int` that `ixmap_mem_init` takes. -/
def sizeMem (addrVirt addrMem : ℕ) : ℕ := (((size1gb : ℤ)-((addrMem : ℤ)-addrVirt)) % 2^32).toNat

def unwindDesc (s : Sys Res) (desc addr : Grant) (assigned : List (Handle × CoreRings)) : Sys Res :=
  numaFree (munmap (unassignPorts s assigned) addr size1gb) desc sizeofIxmapDesc

/-- `hugePage` is the size of the system's huge pages. -/
def ixmapDescAlloc (hugePage : ℕ) (s : Sys Res) (ihList : List Handle) : Option Desc × Sys Res :=
  match numaAlloc s sizeofIxmapDesc with
  | (none,s₁) => (none,s₁)
  | (some desc,s₁) =>
    match mmap s₁ (.huge hugePage) size1gb with
    | (none,s₂) => (none,numaFree s₂ desc sizeofIxmapDesc)
    | (some addr,s₂) =>
      match assignPorts s₂ addr.value ihList with
      | ⟨rings,none,s₃⟩ => (none,unwindDesc s₃ desc addr (ihList.zip rings))
      | ⟨rings,some cursor,s₃⟩ =>
        match numaAlloc s₃ sizeofIxmapMnode with
        | (none,s₄) => (none,unwindDesc s₄ desc addr (ihList.zip rings))
        | (some node,s₄) =>
          (some ⟨desc,addr,rings,align cursor 64,sizeMem addr.value (align cursor 64),node⟩,s₄)

/-- Where the loop places the rings, as half-open ranges: RX and TX of each port in turn. -/
def ringRanges (addrVirt : ℕ) : List Handle → List (ℕ × ℕ)
  | [] => []
  | ih::rest =>
    (addrVirt,addrVirt+ringBytes ih.numRxDesc)::
    (addrVirt+ih.sizeRxDesc,addrVirt+ih.sizeRxDesc+ringBytes ih.numTxDesc)::
    ringRanges (addrVirt+ih.sizeRxDesc+ih.sizeRxDesc) rest

def strides (ihList : List Handle) : ℕ := (ihList.map fun ih => 2*ih.sizeRxDesc).sum

def Desc.ringRanges (d : Desc) (ihList : List Handle) : List (ℕ × ℕ) :=
  (ihList.zip d.rings).flatMap fun p =>
    [(p.2.rxVirt,p.2.rxVirt+ringBytes p.1.numRxDesc),(p.2.txVirt,p.2.txVirt+ringBytes p.1.numTxDesc)]

theorem assignPort_some {s s' : Sys Res} {addr : ℕ} {ih : Handle} {r : CoreRings}
    (h : assignPort s addr ih = (some r,s')) : r.rxVirt = addr ∧ r.txVirt = addr+ih.sizeRxDesc := by
  unfold assignPort at h
  split at h
  · simp at h
  split at h
  · simp at h
  split at h
  · simp at h
  split at h
  · simp at h
  · simp only [Prod.mk.injEq,Option.some.injEq] at h
    obtain ⟨rfl,-⟩ := h
    exact ⟨rfl,rfl⟩

theorem assignPorts_ranges {s : Sys Res} {addr cursor : ℕ} {ihList : List Handle}
    (h : (assignPorts s addr ihList).cursor = some cursor) :
    cursor = addr+strides ihList ∧
      (ihList.zip (assignPorts s addr ihList).rings).flatMap (fun p =>
        [(p.2.rxVirt,p.2.rxVirt+ringBytes p.1.numRxDesc),
          (p.2.txVirt,p.2.txVirt+ringBytes p.1.numTxDesc)]) = ringRanges addr ihList := by
  induction ihList generalizing s addr with
  | nil => simp_all [assignPorts,strides,ringRanges]
  | cons ih rest hrest =>
    rw [assignPorts] at h ⊢
    rcases hp : assignPort s addr ih with ⟨_ | r,s₁⟩
    · simp [hp] at h
    · simp only [hp] at h ⊢
      obtain ⟨hcur,hranges⟩ := hrest h
      obtain ⟨hrx,htx⟩ := assignPort_some hp
      refine ⟨?_,?_⟩
      · simp only [strides,List.map_cons,List.sum_cons] at hcur ⊢
        omega
      · simp [ringRanges,hranges,hrx,htx]

theorem descAlloc_some {hugePage : ℕ} {s s' : Sys Res} {ihList : List Handle} {d : Desc}
    (h : ixmapDescAlloc hugePage s ihList = (some d,s')) :
    d.addrMem = align (d.addrVirt.value+strides ihList) 64 ∧
      d.sizeMem = sizeMem d.addrVirt.value d.addrMem ∧
      d.ringRanges ihList = ringRanges d.addrVirt.value ihList := by
  unfold ixmapDescAlloc at h
  split at h
  · simp at h
  split at h
  · simp at h
  split at h
  · simp at h
  rename_i rings cursor s₃ hassign
  split at h
  · simp at h
  · simp only [Prod.mk.injEq,Option.some.injEq] at h
    obtain ⟨rfl,-⟩ := h
    obtain ⟨rfl,hranges⟩ := assignPorts_ranges (congrArg Assigned.cursor hassign)
    rw [hassign] at hranges
    exact ⟨rfl,rfl,hranges⟩

theorem align_dvd (x a : ℕ) : a ∣ align x a := Dvd.intro_left _ rfl

theorem align_of_dvd {x a : ℕ} (ha : 0 < a) (h : a ∣ x) : align x a = x := by
  obtain ⟨k,rfl⟩ := h
  rw [align,Nat.mul_add_div ha,Nat.div_eq_of_lt (by omega),Nat.add_zero,Nat.mul_comm]

theorem le_align (x : ℕ) {a : ℕ} (ha : 0 < a) : x ≤ align x a := by
  have h := Nat.div_add_mod (x+(a-1)) a
  have hlt := Nat.mod_lt (x+(a-1)) ha
  rw [Nat.mul_comm] at h
  unfold align
  omega

theorem ringRanges_aligned {addr : ℕ} (haddr : 128 ∣ addr) (ihList : List Handle) :
    ∀ r ∈ ringRanges addr ihList, 128 ∣ r.1 := by
  induction ihList generalizing addr with
  | nil => simp [ringRanges]
  | cons ih rest hrest =>
    have hsize : 128 ∣ ih.sizeRxDesc := align_dvd _ _
    intro r hr
    simp only [ringRanges,List.mem_cons] at hr
    rcases hr with rfl | rfl | hr
    · exact haddr
    · exact haddr.add hsize
    · exact hrest ((haddr.add hsize).add hsize) r hr

/-- A TX ring takes no more than the room its port's RX ring was given. -/
def TxFits (ihList : List Handle) : Prop := ∀ ih ∈ ihList, ringBytes ih.numTxDesc ≤ ih.sizeRxDesc

theorem TxFits.tail {ih : Handle} {rest : List Handle} (h : TxFits (ih::rest)) : TxFits rest :=
  fun ih' hmem => h ih' (List.mem_cons_of_mem _ hmem)

theorem strides_cons (ih : Handle) (rest : List Handle) :
    strides (ih::rest) = 2*ih.sizeRxDesc+strides rest := rfl

theorem strides_dvd (ihList : List Handle) : 128 ∣ strides ihList := by
  refine List.dvd_sum ?_
  intro x hx
  obtain ⟨ih,-,rfl⟩ := List.mem_map.mp hx
  exact (align_dvd _ _).mul_left 2

theorem ringRanges_within (addr : ℕ) {ihList : List Handle} (h : TxFits ihList) :
    ∀ r ∈ ringRanges addr ihList, addr ≤ r.1 ∧ r.2 ≤ addr+strides ihList := by
  induction ihList generalizing addr with
  | nil => simp [ringRanges]
  | cons ih rest hrest =>
    have hrx : ringBytes ih.numRxDesc ≤ ih.sizeRxDesc := le_align _ (by decide)
    have htx := h ih List.mem_cons_self
    intro r hr
    simp only [ringRanges,List.mem_cons] at hr
    rw [strides_cons]
    rcases hr with rfl | rfl | hr
    · exact ⟨le_rfl,by simp only; omega⟩
    · exact ⟨by simp only; omega,by simp only; omega⟩
    · have hin := hrest _ h.tail r hr
      omega

theorem ringRanges_separated (addr : ℕ) {ihList : List Handle} (h : TxFits ihList) :
    RangeList.Separated Prod.fst Prod.snd (ringRanges addr ihList) := by
  induction ihList generalizing addr with
  | nil => exact List.Pairwise.nil
  | cons ih rest hrest =>
    have hrx : ringBytes ih.numRxDesc ≤ ih.sizeRxDesc := le_align _ (by decide)
    have htx := h ih List.mem_cons_self
    have hbehind := fun r hr => (ringRanges_within (addr+ih.sizeRxDesc+ih.sizeRxDesc) h.tail r hr).1
    refine List.pairwise_cons.mpr ⟨?_,List.pairwise_cons.mpr ⟨?_,hrest _ h.tail⟩⟩
    · intro r hr
      rcases List.mem_cons.mp hr with rfl | hr
      · simpa using hrx
      · exact le_trans (by simp only; omega) (hbehind r hr)
    · intro r hr
      exact le_trans (by simp only; omega) (hbehind r hr)

/-- What the loop places next, a ring or the pool behind all rings, starts at the cursor. -/
theorem ringRanges_next {addr stop : ℕ} {ihList : List Handle} (hlt : addr < stop)
    (hle : addr+strides ihList ≤ stop) :
    ∃ r ∈ ringRanges addr ihList++[(addr+strides ihList,stop)], addr ∈ Set.Ico r.1 r.2 := by
  induction ihList generalizing addr with
  | nil => exact ⟨(addr,stop),by simp [ringRanges,strides],by simpa using hlt⟩
  | cons ih rest hrest =>
    rcases Nat.eq_zero_or_pos ih.numRxDesc with hrx | hrx
    · have hsize : ih.sizeRxDesc = 0 := by simp [Handle.sizeRxDesc,hrx,ringBytes,align]
      rcases Nat.eq_zero_or_pos ih.numTxDesc with htx | htx
      · rw [strides_cons,hsize] at hle ⊢
        obtain ⟨r,hr,hmem⟩ := hrest hlt (by omega)
        refine ⟨r,?_,hmem⟩
        simp only [ringRanges,hsize,List.cons_append,List.mem_cons]
        exact Or.inr (Or.inr (by simpa using hr))
      · exact ⟨(addr+ih.sizeRxDesc,addr+ih.sizeRxDesc+ringBytes ih.numTxDesc),by simp [ringRanges],
          by simp [hsize,ringBytes,htx]⟩
    · exact ⟨(addr,addr+ringBytes ih.numRxDesc),by simp [ringRanges],by simp [ringBytes,hrx]⟩

/-- Rings and pool that share no byte and stay in front of `stop` leave no TX ring too long. -/
theorem txFits_of_disjoint {addr stop : ℕ} {ihList : List Handle} (hle : addr+strides ihList ≤ stop)
    (hdis : (ringRanges addr ihList++[(addr+strides ihList,stop)]).Pairwise fun a b =>
      Disjoint (Set.Ico a.1 a.2) (Set.Ico b.1 b.2))
    (hstop : ∀ r ∈ ringRanges addr ihList, r.2 ≤ stop) : TxFits ihList := by
  induction ihList generalizing addr with
  | nil => simp [TxFits]
  | cons ih rest hrest =>
    have hcur : addr+strides (ih::rest) = addr+ih.sizeRxDesc+ih.sizeRxDesc+strides rest := by
      rw [strides_cons]
      omega
    rw [hcur] at hle hdis
    simp only [ringRanges,List.cons_append,List.pairwise_cons] at hdis
    obtain ⟨-,htail,hdis⟩ := hdis
    have hfit : ringBytes ih.numTxDesc ≤ ih.sizeRxDesc := by
      by_contra hlong
      have htx := hstop (addr+ih.sizeRxDesc,addr+ih.sizeRxDesc+ringBytes ih.numTxDesc) (by simp [ringRanges])
      obtain ⟨r,hr,hmem⟩ := ringRanges_next (by simp only at htx; omega) hle
      exact Set.disjoint_left.mp (htail r hr) ⟨by simp,by omega⟩ hmem
    intro ih' hih'
    rcases List.mem_cons.mp hih' with rfl | hih'
    · exact hfit
    · exact hrest hle hdis (fun r hr => hstop r (by simp [ringRanges,hr])) ih' hih'

def Desc.pool (d : Desc) : ℕ × ℕ := (d.addrMem,d.addrMem+d.sizeMem)

/-- Rings and pool are disjoint, rings are aligned and everything is inside the mapping. -/
structure LayoutOk (d : Desc) (ihList : List Handle) : Prop where
  disjoint : (d.ringRanges ihList++[d.pool]).Pairwise fun a b =>
    Disjoint (Set.Ico a.1 a.2) (Set.Ico b.1 b.2)
  aligned : ∀ r ∈ d.ringRanges ihList, 128 ∣ r.1
  inside : ∀ r ∈ d.ringRanges ihList++[d.pool],
    d.addrVirt.value ≤ r.1 ∧ r.2 ≤ d.addrVirt.value+size1gb

theorem descAlloc_addrMem {hugePage : ℕ} {s s' : Sys Res} {ihList : List Handle} {d : Desc}
    (h : ixmapDescAlloc hugePage s ihList = (some d,s')) (hbase : 64 ∣ d.addrVirt.value) :
    d.addrMem = d.addrVirt.value+strides ihList := by
  rw [(descAlloc_some h).1]
  exact align_of_dvd (by decide) (hbase.add ((by decide : 64 ∣ 128).trans (strides_dvd ihList)))

theorem descAlloc_pool {hugePage : ℕ} {s s' : Sys Res} {ihList : List Handle} {d : Desc}
    (h : ixmapDescAlloc hugePage s ihList = (some d,s')) (hbase : 64 ∣ d.addrVirt.value)
    (hfit : strides ihList ≤ size1gb) :
    d.pool = (d.addrVirt.value+strides ihList,d.addrVirt.value+size1gb) := by
  have hmem := descAlloc_addrMem h hbase
  have hsize := (descAlloc_some h).2.1
  rw [hmem,sizeMem] at hsize
  unfold size1gb at *
  simp only [Desc.pool,hmem,Prod.mk.injEq,true_and]
  omega

/-- The layout is sound exactly when no TX ring outgrows the RX ring in front of it and the strides,
twice the RX rings, fit the mapping. -/
theorem desc_layout_iff {hugePage : ℕ} {s s' : Sys Res} {ihList : List Handle} {d : Desc}
    (h : ixmapDescAlloc hugePage s ihList = (some d,s')) (hpage : 4096 ∣ d.addrVirt.value) :
    LayoutOk d ihList ↔ TxFits ihList ∧ strides ihList ≤ size1gb := by
  have hbase : 128 ∣ d.addrVirt.value := (by decide : 128 ∣ 4096).trans hpage
  have hbase' : 64 ∣ d.addrVirt.value := (by decide : 64 ∣ 4096).trans hpage
  have hranges := (descAlloc_some h).2.2
  constructor
  · rintro ⟨hdis,-,hin⟩
    have hfit : strides ihList ≤ size1gb := by
      have hpool := (hin d.pool (by simp)).2
      have hmem := descAlloc_addrMem h hbase'
      simp only [Desc.pool] at hpool
      omega
    rw [hranges,descAlloc_pool h hbase' hfit] at hdis
    refine ⟨txFits_of_disjoint (by omega) hdis ?_,hfit⟩
    intro r hr
    exact (hin r (by simp [hranges,hr])).2
  · rintro ⟨htx,hfit⟩
    have hpool := descAlloc_pool h hbase' hfit
    have hwithin := ringRanges_within d.addrVirt.value htx
    refine ⟨?_,?_,?_⟩
    · have hsep : RangeList.Separated Prod.fst Prod.snd (ringRanges d.addrVirt.value ihList++[d.pool]) := by
        refine List.pairwise_append.mpr ⟨ringRanges_separated _ htx,List.pairwise_singleton _ _,?_⟩
        intro r hr p hp
        rw [List.mem_singleton.mp hp,hpool]
        exact (hwithin r hr).2
      rw [hranges]
      refine hsep.imp ?_
      intro a b hab
      exact Set.Ico_disjoint_Ico.mpr ((min_le_left _ _).trans (hab.trans (le_max_right _ _)))
    · rw [hranges]
      exact ringRanges_aligned hbase ihList
    · rw [hranges,hpool]
      intro r hr
      rcases List.mem_append.mp hr with hr | hr
      · have := hwithin r hr
        omega
      · obtain rfl := List.mem_singleton.mp hr
        simp

/-- Two ports with 4096 descriptors in every ring. -/
theorem desc_layout_equal : ∃ d s', ixmapDescAlloc (2^30) (Sys.init fun _ => some (2^30))
    [⟨3,4096,4096⟩,⟨4,4096,4096⟩] = (some d,s') ∧ LayoutOk d [⟨3,4096,4096⟩,⟨4,4096,4096⟩] := by
  have hrun : ∃ d s', ixmapDescAlloc (2^30) (Sys.init fun _ => some (2^30))
      [⟨3,4096,4096⟩,⟨4,4096,4096⟩] = (some d,s') ∧ 4096 ∣ d.addrVirt.value := ⟨_,_,rfl,by decide⟩
  obtain ⟨d,s',h,hpage⟩ := hrun
  refine ⟨d,s',h,(desc_layout_iff h hpage).mpr ⟨?_,by decide⟩⟩
  unfold TxFits
  decide

/-- A port with 8 RX and 16 TX descriptors: the pool starts in the middle of the TX ring. -/
theorem desc_layout_longer_tx : ∃ d s', ixmapDescAlloc (2^30) (Sys.init fun _ => some (2^30)) [⟨3,8,16⟩] =
    (some d,s') ∧ d.ringRanges [⟨3,8,16⟩] = [(2^30,2^30+128),(2^30+128,2^30+384)] ∧
      d.pool = (2^30+256,2^31) ∧ ¬ LayoutOk d [⟨3,8,16⟩] := by
  refine ⟨_,_,rfl,rfl,rfl,?_⟩
  rintro ⟨hdis,-,-⟩
  have htx := (List.pairwise_cons.mp (List.pairwise_cons.mp hdis).2).1 (2^30+256,2^31) (by decide)
  exact Set.disjoint_left.mp htx (show 2^30+256 ∈ Set.Ico (2^30+128) (2^30+384) by simp)
    (show 2^30+256 ∈ Set.Ico (2^30+256) (2^31) by simp)

end Construct
end Ixmap
