import Mathlib
import Ixmap.CircularIndex

/-! The descriptor rings and packet-buffer slots of `lib/driver.c`, with the device that
completes descriptors. Rings carry the history of posted and cleaned slots as ghost
lists; nothing in the driver reads them. -/
namespace Ixmap
namespace Driver

open CircularIndex

/-- `union ixmap_adv_rx_desc` as its two little-endian quadwords. -/
structure RxDesc where
  pktAddr : ℕ
  hdrAddr : ℕ
  deriving DecidableEq, Repr

/-- `wb.upper.status_error` overlays the low half of `read.hdr_addr`. -/
def RxDesc.statusError (d : RxDesc) : ℕ := d.hdrAddr % 2^32

def RxDesc.length (d : RxDesc) : ℕ := d.hdrAddr / 2^32 % 2^16

/-- `union ixmap_adv_tx_desc`; `wb.status` overlays `read.olinfo_status`. -/
structure TxDesc where
  bufferAddr : ℕ
  cmdTypeLen : ℕ
  olinfoStatus : ℕ
  deriving DecidableEq, Repr

def TxDesc.status (d : TxDesc) : ℕ := d.olinfoStatus

def statDd : ℕ := 0x01

def maxDataPerTxd : ℕ := 2^14

def slotInflight : ℕ := 0x1

/-- `IXGBE_TXD_CMD_EOP | IXGBE_TXD_CMD_RS` with the advanced data type, DEXT and IFCS. -/
def txFlags : ℕ := 0x01000000 ||| 0x08000000 ||| 0x00300000 ||| 0x20000000 ||| 0x02000000

def ixmapTestStaterr (d : RxDesc) (bits : ℕ) : ℕ := d.statusError &&& bits

/-- `struct ixmap_ring` with its descriptor memory, its two device registers and ghosts. -/
structure Ring (D : Type) where
  nextToUse : ℕ
  nextToClean : ℕ
  slotIndex : ℕ → ℤ
  desc : ℕ → D
  /-- Tail register, written by the driver. -/
  tail : ℕ
  /-- Head register, advanced by the device. -/
  head : ℕ
  /-- Ghost: the slot attached to every descriptor ever posted, oldest first. -/
  posted : List ℤ
  /-- Ghost: the slots detached by cleaning, oldest first. -/
  cleaned : List ℤ
  /-- Ghost: how many descriptors the device has completed. -/
  completed : ℕ

/-- `struct ixmap_port`, less what only the interrupt and set-up code reads. -/
structure Port where
  rxRing : Ring RxDesc
  txRing : Ring TxDesc
  rxSlotNext : ℕ
  rxSlotOffset : ℕ
  txSuspended : ℕ
  numTxDesc : ℕ
  numRxDesc : ℕ
  rxBudget : ℕ
  txBudget : ℕ
  macAddr : List UInt8
  countRxAllocFailed : ℕ
  countRxCleanTotal : ℕ
  countTxXmitFailed : ℕ
  countTxCleanTotal : ℕ

/-- `struct ixmap_buf`; `slots` is the memory the `int` slot index points into. -/
structure Buf where
  addrDma : ℕ → ℕ
  bufSize : ℕ
  count : ℕ
  slots : ℤ → ℕ

/-- `struct ixmap_plane` and the buffer shared by all its ports. -/
structure Plane where
  ports : ℕ → Port
  buf : Buf

/-- `struct ixmap_packet`; `slotBuf` is the offset from `buf->addr_virt`. -/
structure Packet where
  slotBuf : ℕ
  slotSize : ℕ
  slotIndex : ℤ
  deriving DecidableEq, Repr

def Plane.setPort (d : Plane) (p : ℕ) (port : Port) : Plane :=
  { d with ports := Function.update d.ports p port }

def Plane.setSlot (d : Plane) (slot : ℤ) (flags : ℕ) : Plane :=
  { d with buf := { d.buf with slots := Function.update d.buf.slots slot flags } }

def ixmapDescUnused {D : Type} (r : Ring D) (numDesc : ℕ) : ℕ :=
  unused numDesc r.nextToUse r.nextToClean % 2^16

def ixmapWriteTail {D : Type} (r : Ring D) (value : ℕ) : Ring D := { r with tail := value }

def ixmapSlotAddrDma (b : Buf) (slot : ℤ) (p : ℕ) : ℕ :=
  b.addrDma p + (b.bufSize*slot % 2^32).toNat

/-- The index parameter is a `uint16_t`. -/
def ixmapSlotAddrVirt (b : Buf) (slot : ℤ) : ℕ :=
  b.bufSize*(slot % 2^16).toNat % 2^32

/-- The `int` slot index of position `next` in a port's region. -/
def slotAt (offset next : ℕ) : ℤ := Int.bmod (offset+next : ℕ) (2^32)

def wrapNext (count next : ℕ) : ℕ := if next+1 = count then 0 else next+1

/-- The scan of `ixmap_slot_assign`: the first free position, cyclically. -/
def slotScan (slots : ℤ → ℕ) (offset count : ℕ) : ℕ → ℕ → Option ℕ
  | 0, _ => none
  | k+1, next =>
    if slots (slotAt offset next) &&& slotInflight = 0 then some next
    else slotScan slots offset count k (wrapNext count next)

def ixmapSlotAssign (d : Plane) (p : ℕ) : ℤ × Plane :=
  let port := d.ports p
  match slotScan d.buf.slots port.rxSlotOffset d.buf.count d.buf.count port.rxSlotNext with
  | none => (-1,d)
  | some next =>
    let slot := slotAt port.rxSlotOffset next
    (slot,(d.setPort p { port with rxSlotNext := wrapNext d.buf.count next }).setSlot slot
      (d.buf.slots slot ||| slotInflight))

def ixmapSlotRelease (d : Plane) (slot : ℤ) : Plane := d.setSlot slot 0

/-- Attach a slot at `next_to_use`, write the descriptor there and advance. -/
def Ring.post {D : Type} (r : Ring D) (n : ℕ) (slot : ℤ) (desc : D) : Ring D :=
  { r with
    slotIndex := Function.update r.slotIndex r.nextToUse slot
    desc := Function.update r.desc r.nextToUse desc
    nextToUse := next n r.nextToUse
    posted := r.posted ++ [slot] }

def Ring.clean {D : Type} (r : Ring D) (n : ℕ) : Ring D :=
  { r with
    nextToClean := next n r.nextToClean
    cleaned := r.cleaned ++ [r.slotIndex r.nextToClean] }

/-- The device writes back the descriptor at its head and advances. -/
def Ring.complete {D : Type} (r : Ring D) (n : ℕ) (wb : D → D) : Ring D :=
  { r with
    desc := Function.update r.desc r.head (wb (r.desc r.head))
    head := next n r.head
    completed := r.completed+1 }

def rxPost (d : Plane) (p : ℕ) (slot : ℤ) : Plane :=
  let port := d.ports p
  d.setPort p { port with
    rxRing := port.rxRing.post port.numRxDesc slot ⟨ixmapSlotAddrDma d.buf slot p % 2^64,0⟩ }

/-- The posting loop of `ixmap_rx_assign`; the first argument counts what is still wanted. -/
def rxAssignLoop (p : ℕ) : ℕ → ℕ → Plane → ℕ × Plane
  | 0, total, d => (total,d)
  | k+1, total, d =>
    let r := ixmapSlotAssign d p
    if r.1 < 0 then
      let port := r.2.ports p
      (total,r.2.setPort p
        { port with countRxAllocFailed := (port.countRxAllocFailed + (k+1)) % 2^64 })
    else rxAssignLoop p k (total+1) (rxPost r.2 p r.1)

def ixmapRxAssign (d : Plane) (p : ℕ) : Plane :=
  let maxAllocation := ixmapDescUnused (d.ports p).rxRing (d.ports p).numRxDesc
  if maxAllocation = 0 then d
  else
    let r := rxAssignLoop p maxAllocation 0 d
    if r.1 = 0 then r.2
    else
      let port := r.2.ports p
      r.2.setPort p { port with rxRing := ixmapWriteTail port.rxRing port.rxRing.nextToUse }

/-- Both failure exits of `ixmap_tx_assign`. -/
def txXmitFailed (d : Plane) (p : ℕ) (packet : Packet) : Plane :=
  let port := d.ports p
  ixmapSlotRelease
    (d.setPort p { port with countTxXmitFailed := (port.countTxXmitFailed+1) % 2^64 })
    packet.slotIndex

def txDesc (d : Plane) (p : ℕ) (packet : Packet) : TxDesc where
  bufferAddr := ixmapSlotAddrDma d.buf packet.slotIndex p % 2^64
  cmdTypeLen := packet.slotSize ||| txFlags
  olinfoStatus := packet.slotSize*2^14 % 2^32

/-- `ixmap_tx_assign` gives up when the ring is full or the packet too long. -/
def TxRefused (d : Plane) (p : ℕ) (packet : Packet) : Prop :=
  ixmapDescUnused (d.ports p).txRing (d.ports p).numTxDesc = 0 ∨ maxDataPerTxd < packet.slotSize

instance (d : Plane) (p : ℕ) (packet : Packet) : Decidable (TxRefused d p packet) := by
  unfold TxRefused; infer_instance

def ixmapTxAssign (d : Plane) (p : ℕ) (packet : Packet) : Plane :=
  if TxRefused d p packet then txXmitFailed d p packet
  else
    let port := d.ports p
    d.setPort p { port with
      txRing := port.txRing.post port.numTxDesc packet.slotIndex (txDesc d p packet)
      txSuspended := (port.txSuspended+1) % 2^32 }

def ixmapTxXmit (d : Plane) (p : ℕ) : Plane :=
  let port := d.ports p
  if port.txSuspended = 0 then d
  else d.setPort p { port with
    txRing := ixmapWriteTail port.txRing port.txRing.nextToUse
    txSuspended := 0 }

def rxAdvance (d : Plane) (p : ℕ) : Plane :=
  d.setPort p { d.ports p with rxRing := (d.ports p).rxRing.clean (d.ports p).numRxDesc }

def txAdvance (d : Plane) (p : ℕ) : Plane :=
  let r := (d.ports p).txRing
  (ixmapSlotRelease d (r.slotIndex r.nextToClean)).setPort p
    { d.ports p with txRing := r.clean (d.ports p).numTxDesc }

/-- The loop of `ixmap_rx_clean`; the first argument is what is left of the budget. -/
def rxCleanLoop (p : ℕ) : ℕ → Plane → List Packet × Plane
  | 0, d => ([],d)
  | k+1, d =>
    let r := (d.ports p).rxRing
    if r.nextToClean = r.nextToUse then ([],d)
    else if ixmapTestStaterr (r.desc r.nextToClean) statDd = 0 then ([],d)
    else
      let slot := r.slotIndex r.nextToClean
      let packet := ⟨ixmapSlotAddrVirt d.buf slot,(r.desc r.nextToClean).length,slot⟩
      let rest := rxCleanLoop p k (rxAdvance d p)
      (packet::rest.1,rest.2)

def ixmapRxClean (d : Plane) (p : ℕ) : List Packet × Plane :=
  let r := rxCleanLoop p (d.ports p).rxBudget d
  let port := r.2.ports p
  (r.1,r.2.setPort p
    { port with countRxCleanTotal := (port.countRxCleanTotal + r.1.length) % 2^64 })

/-- The loop of `ixmap_tx_clean`, returning how many descriptors it cleaned. -/
def txCleanLoop (p : ℕ) : ℕ → Plane → ℕ × Plane
  | 0, d => (0,d)
  | k+1, d =>
    let r := (d.ports p).txRing
    if r.nextToClean = r.nextToUse then (0,d)
    else if (r.desc r.nextToClean).status &&& statDd = 0 then (0,d)
    else
      let rest := txCleanLoop p k (txAdvance d p)
      (rest.1+1,rest.2)

def ixmapTxClean (d : Plane) (p : ℕ) : Plane :=
  let r := txCleanLoop p (d.ports p).txBudget d
  let port := r.2.ports p
  r.2.setPort p { port with countTxCleanTotal := (port.countTxCleanTotal + r.1) % 2^64 }

section RingInvariant

variable {D : Type} {n : ℕ} {posts : ℤ → D → Prop} {dd : D → Prop} {r : Ring D}

/-- Slots attached to outstanding descriptors, oldest first. -/
def Ring.out (r : Ring D) : List ℤ := r.posted.drop r.cleaned.length

/-- A ring of `n` descriptors as a queue: the indices are residues of the counters of posted,
completed and cleaned descriptors, and every outstanding cell still holds what was posted. -/
structure RingInv (n : ℕ) (posts : ℤ → D → Prop) (dd : D → Prop) (r : Ring D) : Prop where
  pos : 0 < n
  use : r.nextToUse = r.posted.length % n
  clean : r.nextToClean = r.cleaned.length % n
  head : r.head = r.completed % n
  tail : ∃ published, r.completed ≤ published ∧ published ≤ r.posted.length ∧
    r.tail = published % n
  order : r.cleaned.length ≤ r.completed
  room : r.posted.length < r.cleaned.length+n
  fifo : r.cleaned <+: r.posted
  slot : ∀ a x, r.cleaned.length ≤ a → r.posted[a]? = some x → r.slotIndex (a%n) = x
  fresh : ∀ a x, r.completed ≤ a → r.posted[a]? = some x →
    posts x (r.desc (a%n)) ∧ ¬ dd (r.desc (a%n))
  done : ∀ a, r.cleaned.length ≤ a → a < r.completed → dd (r.desc (a%n))

theorem RingInv.completed_le (h : RingInv n posts dd r) : r.completed ≤ r.posted.length := by
  obtain ⟨published,h1,h2,-⟩ := h.tail
  omega

@[simp] theorem Ring.out_length (r : Ring D) :
    r.out.length = r.posted.length - r.cleaned.length := by
  simp [Ring.out]

/-- The index formula of the driver counts the free descriptors. -/
theorem RingInv.unused_eq (h : RingInv n posts dd r) :
    unused n r.nextToUse r.nextToClean = n-1-r.out.length := by
  have hle := h.completed_le
  have hord := h.order
  rw [h.use,h.clean,Ring.out_length]
  exact unused_mod (by omega) h.room

theorem RingInv.empty_iff (h : RingInv n posts dd r) :
    r.nextToClean = r.nextToUse ↔ r.cleaned.length = r.posted.length := by
  have hle := h.completed_le
  have hord := h.order
  rw [h.use,h.clean]
  exact mod_eq_iff (by omega) h.room

theorem RingInv.post (h : RingInv n posts dd r) (hroom : r.posted.length+1 < r.cleaned.length+n)
    {x : ℤ} {d : D} (hp : posts x d) (hd : ¬ dd d) : RingInv n posts dd (r.post n x d) := by
  have hle := h.completed_le
  have hord := h.order
  have hcell : ∀ a, r.cleaned.length ≤ a → a < r.posted.length → a%n ≠ r.posted.length%n := by
    intro a ha hlt he
    have := eq_of_mod_eq he (by omega) (by omega)
    omega
  constructor
  · exact h.pos
  · simp [Ring.post,h.use,next_mod h.pos]
  · exact h.clean
  · exact h.head
  · obtain ⟨published,h1,h2,h3⟩ := h.tail
    exact ⟨published,h1,by simp [Ring.post]; omega,h3⟩
  · exact h.order
  · simp only [Ring.post,List.length_append,List.length_singleton]
    omega
  · exact h.fifo.trans (List.prefix_append _ _)
  · intro a y ha hy
    simp only [Ring.post,h.use] at ha hy ⊢
    by_cases hlt : a < r.posted.length
    · rw [List.getElem?_append_left hlt] at hy
      rw [Function.update_of_ne (hcell a ha hlt)]
      exact h.slot a y ha hy
    · rw [List.getElem?_append_right (by omega)] at hy
      have ha' : a = r.posted.length := by
        have := (List.getElem?_eq_some_iff.mp hy).1
        simp only [List.length_singleton] at this
        omega
      subst ha'
      simpa using hy
  · intro a y ha hy
    simp only [Ring.post,h.use] at ha hy ⊢
    by_cases hlt : a < r.posted.length
    · rw [List.getElem?_append_left hlt] at hy
      rw [Function.update_of_ne (hcell a (by omega) hlt)]
      exact h.fresh a y ha hy
    · rw [List.getElem?_append_right (by omega)] at hy
      have ha' : a = r.posted.length := by
        have := (List.getElem?_eq_some_iff.mp hy).1
        simp only [List.length_singleton] at this
        omega
      subst ha'
      have hy' : x = y := by simpa using hy
      subst hy'
      simpa using ⟨hp,hd⟩
  · intro a ha hlt
    simp only [Ring.post,h.use] at ha hlt ⊢
    rw [Function.update_of_ne (hcell a ha (by omega))]
    exact h.done a ha hlt

theorem Ring.out_post (h : RingInv n posts dd r) (x : ℤ) (d : D) :
    (r.post n x d).out = r.out ++ [x] := by
  have hle := h.completed_le
  have hord := h.order
  simp only [Ring.out,Ring.post]
  exact List.drop_append_of_le_length (by omega)

/-- The cleaning loops go on only over a descriptor the device has completed. -/
theorem RingInv.cleanable (h : RingInv n posts dd r) (hne : r.nextToClean ≠ r.nextToUse)
    (hdd : dd (r.desc r.nextToClean)) : r.cleaned.length < r.completed := by
  by_contra hc
  have hle := h.completed_le
  have hord := h.order
  have hlt : r.cleaned.length < r.posted.length := by
    have := mt h.empty_iff.mpr hne
    omega
  have hf := h.fresh r.cleaned.length r.posted[r.cleaned.length] (by omega)
    (List.getElem?_eq_getElem hlt)
  rw [h.clean] at hdd
  exact hf.2 hdd

theorem RingInv.out_cons (h : RingInv n posts dd r) (hlt : r.cleaned.length < r.completed) :
    r.out = r.slotIndex r.nextToClean :: (r.clean n).out := by
  have hle := h.completed_le
  have hget := List.getElem?_eq_getElem (show r.cleaned.length < r.posted.length by omega)
  have hs := h.slot r.cleaned.length _ (le_refl _) hget
  simp only [Ring.out,Ring.clean,List.length_append,List.length_singleton,h.clean,hs]
  exact List.drop_eq_getElem_cons (by omega)

theorem RingInv.clean_inv (h : RingInv n posts dd r) (hlt : r.cleaned.length < r.completed) :
    RingInv n posts dd (r.clean n) := by
  have hle := h.completed_le
  have hord := h.order
  have hlen : (r.clean n).cleaned.length = r.cleaned.length+1 := by simp [Ring.clean]
  constructor
  · exact h.pos
  · exact h.use
  · rw [hlen]
    simp [Ring.clean,h.clean,next_mod h.pos]
  · exact h.head
  · exact h.tail
  · rw [hlen]
    exact hlt
  · have hroom := h.room
    rw [hlen]
    simp only [Ring.clean]
    omega
  · have hpost : r.posted.take r.cleaned.length = r.cleaned :=
      (List.prefix_iff_eq_take.mp h.fifo).symm
    have hcons := h.out_cons hlt
    have hsplit : r.posted = r.cleaned ++ r.out := by
      have := List.take_append_drop r.cleaned.length r.posted
      rw [hpost] at this
      exact this.symm
    refine ⟨(r.clean n).out,?_⟩
    simp only [Ring.clean] at hcons ⊢
    conv_rhs => rw [hsplit,hcons]
    simp [Ring.out]
  · intro a x ha hx
    rw [hlen] at ha
    exact h.slot a x (by omega) hx
  · exact h.fresh
  · intro a ha hlt'
    rw [hlen] at ha
    exact h.done a (by omega) hlt'

theorem RingInv.write_tail (h : RingInv n posts dd r) :
    RingInv n posts dd (ixmapWriteTail r r.nextToUse) := by
  have hle := h.completed_le
  constructor
  · exact h.pos
  · exact h.use
  · exact h.clean
  · exact h.head
  · exact ⟨r.posted.length,hle,le_refl _,h.use⟩
  · exact h.order
  · exact h.room
  · exact h.fifo
  · exact h.slot
  · exact h.fresh
  · exact h.done

theorem RingInv.complete_inv (h : RingInv n posts dd r) (hne : r.head ≠ r.tail) {wb : D → D}
    (hwb : ∀ d, dd (wb d)) : RingInv n posts dd (r.complete n wb) := by
  have hle := h.completed_le
  have hord := h.order
  have hroom := h.room
  obtain ⟨published,h1,h2,h3⟩ := h.tail
  have hlt : r.completed < published := by
    rcases Nat.lt_or_eq_of_le h1 with hlt | heq
    · exact hlt
    · exact absurd (by rw [h.head,h3,heq]) hne
  have hcell : ∀ a, r.cleaned.length ≤ a → a < r.posted.length → a ≠ r.completed →
      a%n ≠ r.completed%n := by
    intro a ha ha' hne he
    exact hne (eq_of_mod_eq he (by omega) (by omega))
  constructor
  · exact h.pos
  · exact h.use
  · exact h.clean
  · simp [Ring.complete,h.head,next_mod h.pos]
  · exact ⟨published,hlt,h2,h3⟩
  · simp only [Ring.complete]
    omega
  · exact h.room
  · exact h.fifo
  · exact h.slot
  · intro a x ha hx
    simp only [Ring.complete,h.head] at ha hx ⊢
    have hal := (List.getElem?_eq_some_iff.mp hx).1
    rw [Function.update_of_ne (hcell a (by omega) hal (by omega))]
    exact h.fresh a x (by omega) hx
  · intro a ha hlt'
    simp only [Ring.complete,h.head] at ha hlt' ⊢
    by_cases he : a = r.completed
    · subst he
      simpa using hwb _
    · rw [Function.update_of_ne (hcell a ha (by omega) he)]
      exact h.done a ha (by omega)

end RingInvariant

end Driver
end Ixmap
