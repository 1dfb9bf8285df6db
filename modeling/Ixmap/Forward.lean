import Ixmap.Netlink

/-! Forwarding of `forward.c`. A frame lies in the packet buffer at `slot_buf`: the Ethernet header
in its first 14 bytes, the IP header behind it. -/
namespace Ixmap
namespace Forwarder
open BlockHeap PrefixBits FibTable Neighbour Driver

/-- Byte order of the host. -/
inductive Endian where
  | little
  | big
deriving DecidableEq, Repr

def Endian.load16 (host : Endian) (mem : Bytes) (a : ℕ) : ℕ :=
  match host with
  | .little => (mem a).toNat+256*(mem (a+1)).toNat
  | .big => 256*(mem a).toNat+(mem (a+1)).toNat

def Endian.store16 (host : Endian) (mem : Bytes) (a v : ℕ) : Bytes :=
  let low := UInt8.ofNat (v%256)
  let high := UInt8.ofNat (v/256%256)
  match host with
  | .little => Function.update (Function.update mem a low) (a+1) high
  | .big => Function.update (Function.update mem a high) (a+1) low

def Endian.htons (host : Endian) (v : ℕ) : ℕ :=
  match host with
  | .little => v%256*256+v/256%256
  | .big => v%2^16

/-- `memcpy` of `n` bytes to address `a`. -/
def copyTo (mem : Bytes) (a : ℕ) (src : Bytes) (n : ℕ) : Bytes :=
  fun k => if a ≤ k ∧ k < a+n then src (k-a) else mem k

def ethPIp : ℕ := 0x0800
def ethPArp : ℕ := 0x0806
def ethPIpv6 : ℕ := 0x86DD

def frame (mem : Bytes) (packet : Packet) : List UInt8 :=
  (List.range packet.slotSize).map fun k => mem (packet.slotBuf+k)

def writeTap (t : Thread) (portIndex : ℕ) (packet : Packet) : Thread :=
  { t with tap := t.tap ++ [((t.tunPlane portIndex).fd,frame t.mem packet)] }

def forwardArpProcess (t : Thread) (portIndex : ℕ) (packet : Packet) : ℤ × Thread :=
  (-1,writeTap t portIndex packet)

/-- What becomes of a frame. -/
inductive Verdict where
  | drop
  | toTap
  | via (port : ℕ) (mac : Mac)
deriving DecidableEq

/-- `switch(fib_entry->type)`; a local route has no neighbour and goes to `packet_local` at once. -/
def selectNeigh (neigh : NeighTable) (fibEntry : FibEntry) (daddr : Bytes) : Option ℕ :=
  match fibEntry.type with
  | .local => none
  | .link => neighLookup neigh daddr
  | .forward => neighLookup neigh fibEntry.nexthop

/-- The part that `forward_ip_process` and `forward_ip6_process` share: from `fib_lookup` to the
check for the last hop. -/
def forwardLookup (t : Thread) (f : Family) (daddr : Bytes) (ttl : UInt8) : Verdict :=
  match fibLookup (t.fib f) daddr with
  | none => .drop
  | some p =>
    let fibEntry := (t.fib f).desc.val p
    if fibEntry.portIndex < 0 then .toTap
    else
      let port := fibEntry.portIndex.toNat
      match selectNeigh (t.neigh f port) fibEntry daddr with
      | none => .toTap
      | some e => if ttl = 1 then .toTap else .via port ((t.neigh f port).desc.val e).dstMac

def writeMacs (t : Thread) (mem : Bytes) (eth port : ℕ) (dstMac : Mac) : Bytes :=
  let mem := copyTo mem eth (fun k => if h : k < 6 then dstMac ⟨k,h⟩ else 0) 6
  copyTo mem (eth+6) (fun k => (t.plane.ports port).macAddr.getD k 0) 6

/-- `ip->ttl--` and the incremental update of `ip->check`. -/
def patchIp (host : Endian) (mem : Bytes) (ip : ℕ) : Bytes :=
  let mem := Function.update mem (ip+8) (mem (ip+8)-1)
  let check := host.load16 mem (ip+10)+host.htons 0x0100
  host.store16 mem (ip+10) (check+if 0xFFFF ≤ check then 1 else 0)

def forwardIpProcess (host : Endian) (t : Thread) (portIndex : ℕ) (packet : Packet) : ℤ × Thread :=
  let eth := packet.slotBuf
  let ip := eth+14
  match forwardLookup t .inet (fun k => t.mem (ip+16+k)) (t.mem (ip+8)) with
  | .drop => (-1,t)
  | .toTap => (-1,writeTap t portIndex packet)
  | .via port mac => (port,{ t with mem := writeMacs t (patchIp host t.mem ip) eth port mac })

def isLinkLocal (a : Bytes) : Bool := a 0 == 0xfe && a 1 &&& 0xc0 == 0x80

def forwardIp6Process (t : Thread) (portIndex : ℕ) (packet : Packet) : ℤ × Thread :=
  let eth := packet.slotBuf
  let ip6 := eth+14
  let dst := fun k => t.mem (ip6+24+k)
  if isLinkLocal dst then (-1,writeTap t portIndex packet)
  else
    match forwardLookup t .inet6 dst (t.mem (ip6+7)) with
    | .drop => (-1,t)
    | .toTap => (-1,writeTap t portIndex packet)
    | .via port mac =>
      let mem := Function.update t.mem (ip6+7) (t.mem (ip6+7)-1)
      (port,{ t with mem := writeMacs t mem eth port mac })

def etherType (mem : Bytes) (eth : ℕ) : ℕ := 256*(mem (eth+12)).toNat+(mem (eth+13)).toNat

def forwardPacket (host : Endian) (t : Thread) (portIndex : ℕ) (packet : Packet) : ℤ × Thread :=
  let proto := etherType t.mem packet.slotBuf
  if proto = ethPArp then forwardArpProcess t portIndex packet
  else if proto = ethPIp then forwardIpProcess host t portIndex packet
  else if proto = ethPIpv6 then forwardIp6Process t portIndex packet
  else (-1,t)

/-- The end of the loop body: behind `ixmap_tx_assign` the code runs on into `packet_drop`. -/
def disposePacket (t : Thread) (ret : ℤ) (packet : Packet) : Thread :=
  let plane := if ret < 0 then t.plane else ixmapTxAssign t.plane ret.toNat packet
  { t with plane := ixmapSlotRelease plane packet.slotIndex }

def forwardProcess (host : Endian) (portIndex : ℕ) (t : Thread) : List Packet → Thread
  | [] => t
  | packet::rest =>
    let r := forwardPacket host t portIndex packet
    forwardProcess host portIndex (disposePacket r.2 r.1 packet) rest

def forwardProcessTun (t : Thread) (portIndex : ℕ) (readBuf : List UInt8) : Thread :=
  if t.plane.buf.bufSize < readBuf.length then t
  else
    let r := ixmapSlotAssign t.plane portIndex
    if r.1 < 0 then { t with plane := r.2 }
    else
      let packet : Packet := ⟨ixmapSlotAddrVirt r.2.buf r.1,readBuf.length,r.1⟩
      { t with
        mem := copyTo t.mem packet.slotBuf (fun k => readBuf.getD k 0) readBuf.length
        plane := ixmapTxAssign r.2 portIndex packet }

section
variable {mem : Bytes} {a k n : ℕ} {src : Bytes}

theorem copyTo_inside (hk : k < n) : copyTo mem a src n (a+k) = src k := by
  simp [copyTo,hk]

theorem copyTo_outside (hk : ¬ (a ≤ k ∧ k < a+n)) : copyTo mem a src n k = mem k := if_neg hk

theorem writeMacs_spec (t : Thread) (mem : Bytes) (eth port : ℕ) (mac : Mac) :
    (∀ i : Fin 6, writeMacs t mem eth port mac (eth+i) = mac i) ∧
      (∀ i < 6, writeMacs t mem eth port mac (eth+6+i) = (t.plane.ports port).macAddr.getD i 0) ∧
      ∀ k, ¬ (eth ≤ k ∧ k < eth+12) → writeMacs t mem eth port mac k = mem k := by
  refine ⟨?_,?_,?_⟩
  · intro i
    rw [writeMacs,copyTo_outside (by omega),copyTo_inside i.isLt]
    simp
  · intro i hi
    rw [writeMacs,copyTo_inside hi]
  · intro k hk
    rw [writeMacs,copyTo_outside (by omega),copyTo_outside (by omega)]

theorem store16_outside (host : Endian) (mem : Bytes) (a v : ℕ) (hk : k ≠ a ∧ k ≠ a+1) :
    host.store16 mem a v k = mem k := by
  cases host <;> simp [Endian.store16,hk.1,hk.2]

end

theorem pred_toNat {x : UInt8} (hx : x ≠ 0) : (x-1).toNat+1 = x.toNat := by
  have hpos : x.toNat ≠ 0 := fun h => hx (UInt8.toNat_inj.mp h)
  have hlt := x.toNat_lt
  rw [UInt8.toNat_sub]
  simp only [UInt8.toNat_one]
  omega

theorem patchIp_ttl (host : Endian) (mem : Bytes) (ip : ℕ) :
    patchIp host mem ip (ip+8) = mem (ip+8)-1 := by
  rw [patchIp,store16_outside _ _ _ _ (by omega),Function.update_self]

theorem patchIp_outside (host : Endian) (mem : Bytes) (ip k : ℕ) (hk : k ≠ ip+8)
    (hs : ¬ (k = ip+10 ∨ k = ip+11)) : patchIp host mem ip k = mem k := by
  rw [patchIp,store16_outside _ _ _ _ (by omega),Function.update_of_ne hk]

end Forwarder
end Ixmap
