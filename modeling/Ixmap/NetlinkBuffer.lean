import Ixmap.Forward
import Ixmap.RecordWalk

/-! `netlink.c` on the bytes of a buffer, with the macros of the netlink headers. Every read is checked
against the buffer and the message, every copy against its destination. -/
namespace Ixmap
namespace Forwarder
open BlockHeap PrefixBits FibTable Neighbour RecordWalk

/-- The number in `n` bytes. -/
def Endian.load (host : Endian) (n : ℕ) (mem : Bytes) (a : ℕ) : ℕ :=
  match host with
  | .little => littleEndian mem a n
  | .big => littleEndian (fun k => mem (a+(n-1-k))) 0 n

/-- The `n` bytes of a number. -/
def Endian.bytes (host : Endian) (n v : ℕ) : List UInt8 :=
  let digits := (List.range n).map fun k => UInt8.ofNat (v/256^k%256)
  match host with
  | .little => digits
  | .big => digits.reverse

/-- Why processing stops early: a loop takes more rounds than it was given, a read leaves the buffer
or the message, a copy is larger than its destination. -/
inductive Fault where
  | fuel
  | read
  | copy
deriving DecidableEq

/-- `read_buf` and `read_size`; what lies behind the bytes that were read is arbitrary. -/
structure NlBuf where
  host : Endian
  readBuf : Bytes
  readSize : ℤ

def rtmNewroute : ℕ := 24
def rtmDelroute : ℕ := 25
def rtmNewneigh : ℕ := 28
def rtmDelneigh : ℕ := 29
def rtaDst : ℕ := 1
def rtaOif : ℕ := 4
def rtaGateway : ℕ := 5
def ndaDst : ℕ := 1
def ndaLladdr : ℕ := 2

def nlmsgHdrlen : ℕ := 16
def rtaHdrlen : ℕ := 4
def rtmLen : ℕ := 12

namespace NlBuf

/-- A read of `n` bytes at `a` on behalf of a message that ends at `stop`. -/
def check (b : NlBuf) (stop a n : ℕ) : Except Fault Unit :=
  if ((a+n : ℕ) : ℤ) ≤ b.readSize ∧ a+n ≤ stop then .ok () else .error .read

def u8 (b : NlBuf) (a : ℕ) : ℕ := (b.readBuf a).toNat
def u16 (b : NlBuf) (a : ℕ) : ℕ := b.host.load 2 b.readBuf a
def u32 (b : NlBuf) (a : ℕ) : ℕ := b.host.load 4 b.readBuf a
def int (b : NlBuf) (a : ℕ) : ℤ := (b.u32 a : ℤ).bmod (2^32)

def nlmsgLen (b : NlBuf) (nlh : ℕ) : ℕ := b.u32 nlh
def nlmsgType (b : NlBuf) (nlh : ℕ) : ℕ := b.u16 (nlh+4)
def rtaLen (b : NlBuf) (rta : ℕ) : ℕ := b.u16 rta
def rtaType (b : NlBuf) (rta : ℕ) : ℕ := b.u16 (rta+2)

def nlmsgData (nlh : ℕ) : ℕ := nlh+nlmsgHdrlen

def rtmRta (nlh : ℕ) : ℕ := nlmsgData nlh+rtmLen

/-- `RTM_PAYLOAD`, an unsigned difference that becomes an `int`. -/
def rtmPayload (b : NlBuf) (nlh : ℕ) : ℤ := ((b.nlmsgLen nlh : ℤ)-(nlmsgHdrlen+rtmLen : ℕ)).bmod (2^32)

def nlmsgHead (b : NlBuf) (nlh : ℕ) : Except Fault ℕ :=
  (b.check (nlh+nlmsgHdrlen) nlh nlmsgHdrlen).map fun _ => b.nlmsgLen nlh

def rtaHead (b : NlBuf) (stop rta : ℕ) : Except Fault ℕ :=
  (b.check stop rta rtaHdrlen).map fun _ => b.rtaLen rta

def rtaPayload (b : NlBuf) (rta : ℕ) : ℕ := b.rtaLen rta-rtaHdrlen

/-- `memcpy(dst, RTA_DATA(rta), RTA_PAYLOAD(rta))` to an array of `size` bytes. -/
def copyAttr (b : NlBuf) (stop rta size : ℕ) (dst : Bytes) : Except Fault Bytes := do
  b.check stop (rta+rtaHdrlen) (b.rtaPayload rta)
  if b.rtaPayload rta ≤ size then
    .ok (memcpy dst (fun k => b.readBuf (rta+rtaHdrlen+k)) (b.rtaPayload rta))
  else .error .copy

def routeAttr (b : NlBuf) (stop : ℕ) (d : RouteLocals) (rta : ℕ) : Except Fault RouteLocals :=
  if b.rtaType rta = rtaDst then (b.copyAttr stop rta 16 d.pfx).map fun pfx => { d with pfx }
  else if b.rtaType rta = rtaGateway then
    (b.copyAttr stop rta 16 d.nexthop).map fun nexthop => { d with nexthop, type := .forward }
  else if b.rtaType rta = rtaOif then
    (b.check stop (rta+rtaHdrlen) 4).map fun _ => { d with ifindex := b.int (rta+rtaHdrlen) }
  else .ok d

def rtmsg (b : NlBuf) (nlh : ℕ) : RtMsg :=
  ⟨b.u8 (nlmsgData nlh),b.u8 (nlmsgData nlh+1),b.u8 (nlmsgData nlh+4),[]⟩

/-- `netlink_route` behind its attribute loop. -/
def routeCall (t : Thread) (isNew : Bool) (m : RtMsg) (d : RouteLocals) : Thread :=
  let type := if m.table = rtTableLocal then .local else d.type
  let r : Route := ⟨m.family,type,d.pfx,m.dstLen,d.nexthop,portIndex t d.ifindex,d.ifindex⟩
  match familyOf m.family with
  | none => t
  | some f =>
    if isNew then t.setFib f (fibRouteUpdate (t.fib f) r).2
    else t.setFib f (fibRouteDelete (t.fib f) r.pfx r.prefixLen r.id).2

def nlmsgEnd (b : NlBuf) (nlh : ℕ) : ℕ := nlh+b.nlmsgLen nlh

/-- What is done with a route message whose attributes have been read. -/
abbrev RouteStep := Thread → Bool → RtMsg → RouteLocals → Except Fault Thread

def netlinkRoute (b : NlBuf) (step : RouteStep) (fuel : ℕ) (t : Thread) (nlh : ℕ) : Except Fault Thread := do
  b.check (b.nlmsgEnd nlh) (nlmsgData nlh) rtmLen
  let d ← loop .fuel rtaHdrlen (b.rtaHead (b.nlmsgEnd nlh)) (b.routeAttr (b.nlmsgEnd nlh)) fuel
    ⟨fun _ => 0,fun _ => 0,-1,.link⟩ (rtmRta nlh) (b.rtmPayload nlh)
  step t (b.nlmsgType nlh == rtmNewroute) (b.rtmsg nlh) d

def neighAttr (b : NlBuf) (stop : ℕ) (d : NeighLocals) (rta : ℕ) : Except Fault NeighLocals :=
  if b.rtaType rta = ndaDst then (b.copyAttr stop rta 16 d.dstAddr).map fun dstAddr => { d with dstAddr }
  else if b.rtaType rta = ndaLladdr then (b.copyAttr stop rta 6 d.dstMac).map fun dstMac => { d with dstMac }
  else .ok d

def ndmsg (b : NlBuf) (nlh : ℕ) : NdMsg := ⟨b.u8 (nlmsgData nlh),b.int (nlmsgData nlh+4),[]⟩

/-- `netlink_neigh` behind its attribute loop. -/
def neighCall (t : Thread) (isNew : Bool) (m : NdMsg) (port : ℕ) (d : NeighLocals) : Thread :=
  match familyOf m.family with
  | none => t
  | some f =>
    if isNew then t.setNeigh f port (neighAdd (t.neigh f port) m.family d.dstAddr d.dstMac).2
    else t.setNeigh f port (neighDelete (t.neigh f port) d.dstAddr).2

def netlinkNeigh (b : NlBuf) (fuel : ℕ) (t : Thread) (nlh : ℕ) : Except Fault Thread := do
  b.check (b.nlmsgEnd nlh) (nlmsgData nlh) rtmLen
  match findPort t (b.ndmsg nlh).ifindex with
  | none => .ok t
  | some port =>
    (loop .fuel rtaHdrlen (b.rtaHead (b.nlmsgEnd nlh)) (b.neighAttr (b.nlmsgEnd nlh)) fuel
        ⟨fun _ => 0,fun _ => 0⟩ (rtmRta nlh) (b.rtmPayload nlh)).map
      (neighCall t (b.nlmsgType nlh == rtmNewneigh) (b.ndmsg nlh) port)

def netlinkMsg (b : NlBuf) (step : RouteStep) (fuel : ℕ) (t : Thread) (nlh : ℕ) : Except Fault Thread :=
  if b.nlmsgType nlh = rtmNewroute ∨ b.nlmsgType nlh = rtmDelroute then b.netlinkRoute step fuel t nlh
  else if b.nlmsgType nlh = rtmNewneigh ∨ b.nlmsgType nlh = rtmDelneigh then b.netlinkNeigh fuel t nlh
  else .ok t

def processBy (b : NlBuf) (step : RouteStep) (fuel : ℕ) (t : Thread) : Except Fault Thread :=
  loop .fuel nlmsgHdrlen b.nlmsgHead (b.netlinkMsg step fuel) fuel t 0 b.readSize

/-- The calls are made, whatever they read. -/
def routeStep : RouteStep := fun t isNew m d => .ok (routeCall t isNew m d)

def netlinkProcess (b : NlBuf) (fuel : ℕ) (t : Thread) : Except Fault Thread := b.processBy routeStep fuel t

end NlBuf

theorem samePorts_routeCall (t : Thread) (isNew : Bool) (m : RtMsg) (d : RouteLocals) :
    SamePorts t (NlBuf.routeCall t isNew m d) := by
  unfold NlBuf.routeCall
  dsimp only
  split
  · exact ⟨rfl,rfl,rfl⟩
  split <;> exact samePorts_setFib

theorem samePorts_neighCall (t : Thread) (isNew : Bool) (m : NdMsg) (port : ℕ) (d : NeighLocals) :
    SamePorts t (NlBuf.neighCall t isNew m port d) := by
  unfold NlBuf.neighCall
  split
  · exact ⟨rfl,rfl,rfl⟩
  split <;> exact samePorts_setNeigh

theorem routeCall_eq (t : Thread) (isNew : Bool) (m : RtMsg) (attrs : List RouteAttr) :
    NlBuf.routeCall t isNew m (attrs.foldl routeAttr ⟨fun _ => 0,fun _ => 0,-1,.link⟩) =
      netlinkRoute t isNew { m with attrs } := by
  unfold NlBuf.routeCall netlinkRoute routeArgs routeLocals
  dsimp only
  cases familyOf m.family with
  | none => rfl
  | some f =>
    by_cases ht : m.table = rtTableLocal
    · simp only [if_pos ht]
    · simp only [if_neg ht]

theorem neighCall_eq {t : Thread} {port : ℕ} (isNew : Bool) (m : NdMsg) (attrs : List NeighAttr)
    (hport : findPort t m.ifindex = some port) :
    NlBuf.neighCall t isNew m port (attrs.foldl neighAttr ⟨fun _ => 0,fun _ => 0⟩) =
      netlinkNeigh t isNew { m with attrs } := by
  unfold NlBuf.neighCall netlinkNeigh
  simp only [hport]
  rfl

end Forwarder
end Ixmap
