import Ixmap.NetlinkBuffer
import Ixmap.RouteSync

/-! `netlink_process` on the encoding of a list of messages: it makes the calls that the messages stand
for, in their order. -/
namespace Ixmap
namespace Forwarder
open BlockHeap PrefixBits FibTable Neighbour RecordWalk

theorem littleEndian_digits {mem : Bytes} {a n v : ℕ}
    (h : ∀ k < n, mem (a+k) = UInt8.ofNat (v/256^k%256)) : littleEndian mem a n = v%256^n := by
  induction n with
  | zero => simp [littleEndian,Nat.mod_one]
  | succ n ih =>
    rw [littleEndian,ih fun k hk => h k (by omega),h n (by omega),pow_succ,Nat.mod_mul]
    have hlt : v/256^n%256 < 256 := Nat.mod_lt _ (by decide)
    rw [UInt8.toNat_ofNat_of_lt' hlt,mul_comm (256^n)]

@[simp] theorem Endian.bytes_length (host : Endian) (n v : ℕ) : (host.bytes n v).length = n := by
  cases host <;> simp [Endian.bytes]

theorem load_bytes {host : Endian} {mem : Bytes} {a n v : ℕ} (h : Held mem a (host.bytes n v)) :
    host.load n mem a = v%256^n := by
  cases host with
  | little =>
    apply littleEndian_digits
    intro k hk
    rw [h k (by simpa using hk)]
    simp [Endian.bytes]
  | big =>
    apply littleEndian_digits
    intro k hk
    rw [zero_add,h (n-1-k) (by simp; omega)]
    have hidx : n-1-(n-1-k) = k := by omega
    simp [Endian.bytes,hidx]

theorem load_bytes_int {host : Endian} {mem : Bytes} {a : ℕ} {i : ℤ}
    (h : Held mem a (host.bytes 4 (i%2^32).toNat)) (hi : -2^31 ≤ i ∧ i < 2^31) :
    ((host.load 4 mem a : ℕ) : ℤ).bmod (2^32) = i := by
  rw [load_bytes h]
  have hlt : (i%2^32).toNat < 256^4 := by omega
  rw [Nat.mod_eq_of_lt hlt,Int.toNat_of_nonneg (Int.emod_nonneg _ (by decide))]
  rw [Int.bmod_def]
  split <;> omega

def Endian.intBytes (host : Endian) (i : ℤ) : List UInt8 := host.bytes 4 (i%2^32).toNat

/-- An attribute with any padding behind it. -/
structure Rta where
  type : ℕ
  data : List UInt8
  pad : List UInt8
  type_lt : type < 2^16
  len_lt : rtaHdrlen+data.length < 2^16
  aligned : rtaHdrlen+data.length+pad.length = align4 (rtaHdrlen+data.length)

namespace Rta

def bytes (host : Endian) (a : Rta) : List UInt8 :=
  host.bytes 2 (rtaHdrlen+a.data.length) ++ host.bytes 2 a.type ++ a.data ++ a.pad

/-- The payload of an attribute of the given type. -/
def payload? (type : ℕ) (a : Rta) : Option (List UInt8) := if a.type = type then some a.data else none

end Rta

/-- An address of a family; those of families without a table are at most as long as `AF_INET6`'s. -/
def AddrLen (family : UInt8) (data : List UInt8) : Prop :=
  data.length ≤ 16 ∧ ∀ f, familyOf family.toNat = some f → data.length = f.size

/-- A route message: what it says, and attributes that say it, in any order and with others between them. -/
structure WireRoute (host : Endian) where
  family : UInt8
  dstLen : UInt8
  srcLen : UInt8
  tos : UInt8
  table : UInt8
  protocol : UInt8
  scope : UInt8
  type : UInt8
  flags : ℕ
  dst : Option (List UInt8)
  gateway : Option (List UInt8)
  oif : Option ℤ
  attrs : List Rta
  dst_attr : attrs.filterMap (Rta.payload? rtaDst) = dst.toList
  gateway_attr : attrs.filterMap (Rta.payload? rtaGateway) = gateway.toList
  oif_attr : attrs.filterMap (Rta.payload? rtaOif) = (oif.map host.intBytes).toList
  dst_len : ∀ data ∈ dst, AddrLen family data
  gateway_len : ∀ data ∈ gateway, AddrLen family data
  oif_lt : ∀ i ∈ oif, -2^31 ≤ i ∧ i < 2^31

/-- A neighbour message, likewise. -/
structure WireNeigh (host : Endian) where
  family : UInt8
  pad1 : UInt8
  pad2 : ℕ
  ifindex : ℤ
  state : ℕ
  flags : UInt8
  type : UInt8
  dst : Option (List UInt8)
  lladdr : Option (List UInt8)
  attrs : List Rta
  dst_attr : attrs.filterMap (Rta.payload? ndaDst) = dst.toList
  lladdr_attr : attrs.filterMap (Rta.payload? ndaLladdr) = lladdr.toList
  dst_len : ∀ data ∈ dst, AddrLen family data
  lladdr_len : ∀ data ∈ lladdr, data.length = 6
  ifindex_lt : -2^31 ≤ ifindex ∧ ifindex < 2^31

/-- What stands behind the header of a message. -/
inductive WireBody (host : Endian) where
  | route (isNew : Bool) (m : WireRoute host)
  | neigh (isNew : Bool) (m : WireNeigh host)
  | other (type : ℕ) (data : List UInt8) (hlt : type < 2^16)
      (hne : type ∉ [rtmNewroute,rtmDelroute,rtmNewneigh,rtmDelneigh])

section
variable {host : Endian}

def WireRoute.fixed (m : WireRoute host) : List UInt8 :=
  [m.family,m.dstLen,m.srcLen,m.tos,m.table,m.protocol,m.scope,m.type] ++ host.bytes 4 m.flags

def WireNeigh.fixed (m : WireNeigh host) : List UInt8 :=
  [m.family,m.pad1] ++ host.bytes 2 m.pad2 ++ host.intBytes m.ifindex ++ host.bytes 2 m.state ++ [m.flags,m.type]

namespace WireBody

def type : WireBody host → ℕ
  | .route isNew _ => if isNew then rtmNewroute else rtmDelroute
  | .neigh isNew _ => if isNew then rtmNewneigh else rtmDelneigh
  | .other type _ _ _ => type

def bytes : WireBody host → List UInt8
  | .route _ m => m.fixed ++ m.attrs.flatMap (Rta.bytes host)
  | .neigh _ m => m.fixed ++ m.attrs.flatMap (Rta.bytes host)
  | .other _ data _ _ => data

end WireBody

end

/-- A message with any padding behind it. -/
structure WireMsg (host : Endian) where
  flags : ℕ
  seq : ℕ
  pid : ℕ
  body : WireBody host
  pad : List UInt8
  aligned : nlmsgHdrlen+body.bytes.length+pad.length = align4 (nlmsgHdrlen+body.bytes.length)

namespace WireMsg
variable {host : Endian}

def len (m : WireMsg host) : ℕ := nlmsgHdrlen+m.body.bytes.length

def bytes (m : WireMsg host) : List UInt8 :=
  host.bytes 4 m.len ++ host.bytes 2 m.body.type ++ host.bytes 2 m.flags ++ host.bytes 4 m.seq ++
    host.bytes 4 m.pid ++ m.body.bytes ++ m.pad

end WireMsg

/-- A call that changes a table. -/
inductive TableOp where
  | routeUpdate (f : Family) (r : Route)
  | routeDelete (f : Family) (pfx : Bytes) (prefixLen : ℕ) (id : ℤ)
  | neighAdd (f : Family) (port : ℕ) (dstAddr dstMac : Bytes)
  | neighDelete (f : Family) (port : ℕ) (dstAddr : Bytes)

def applyOp (t : Thread) : TableOp → Thread
  | .routeUpdate f r => t.setFib f (fibRouteUpdate (t.fib f) r).2
  | .routeDelete f pfx prefixLen id => t.setFib f (fibRouteDelete (t.fib f) pfx prefixLen id).2
  | .neighAdd f port dstAddr dstMac =>
    t.setNeigh f port (neighAdd (t.neigh f port) f.af dstAddr dstMac).2
  | .neighDelete f port dstAddr => t.setNeigh f port (neighDelete (t.neigh f port) dstAddr).2

section
variable {host : Endian}

/-- The arguments that a route message stands for. -/
def WireRoute.route (t : Thread) (m : WireRoute host) : Route where
  family := m.family.toNat
  type := if m.table.toNat = rtTableLocal then .local else linkType m.gateway
  pfx := zeroExtend (m.dst.getD [])
  prefixLen := m.dstLen.toNat
  nexthop := zeroExtend (m.gateway.getD [])
  portIndex := portIndex t (m.oif.getD (-1))
  id := m.oif.getD (-1)

/-- The call that a message stands for, if any. -/
def WireBody.tableOp (t : Thread) : WireBody host → Option TableOp
  | .route isNew m => (familyOf m.family.toNat).map fun f =>
      if isNew then .routeUpdate f (m.route t)
      else .routeDelete f (m.route t).pfx (m.route t).prefixLen (m.route t).id
  | .neigh isNew m => (findPort t m.ifindex).bind fun port => (familyOf m.family.toNat).map fun f =>
      if isNew then .neighAdd f port (zeroExtend (m.dst.getD [])) (zeroExtend (m.lladdr.getD []))
      else .neighDelete f port (zeroExtend (m.dst.getD []))
  | .other .. => none

def WireMsg.tableOp (t : Thread) (m : WireMsg host) : Option TableOp := m.body.tableOp t

def WireMsg.run (t : Thread) (m : WireMsg host) : Thread := (m.tableOp t).elim t (applyOp t)

end

/-- The buffer was read from these messages. -/
structure NlBuf.Carries (b : NlBuf) (msgs : List (WireMsg b.host)) : Prop where
  size : b.readSize = (msgs.flatMap WireMsg.bytes).length
  lt : b.readSize < 2^31
  held : Held b.readBuf 0 (msgs.flatMap WireMsg.bytes)

theorem held_zeroExtend (data : List UInt8) : Held (zeroExtend data) 0 data := by
  intro k hk
  rw [zero_add,zeroExtend,List.getD_eq_getElem _ _ hk]

def Endian.int (host : Endian) (data : List UInt8) : ℤ := ((host.load 4 (zeroExtend data) 0 : ℕ) : ℤ).bmod (2^32)

theorem int_intBytes {host : Endian} {i : ℤ} (hi : -2^31 ≤ i ∧ i < 2^31) : host.int (host.intBytes i) = i :=
  load_bytes_int (held_zeroExtend _) hi

theorem lastOf_map {α β γ : Type} {f : α → β} {g : β → Option γ} {g' : α → Option γ} {l : List α}
    {v : Option γ} (hg : ∀ a, g (f a) = g' a) (hv : l.filterMap g' = v.toList) : lastOf g (l.map f) = v := by
  have hcomp : g ∘ f = g' := funext hg
  rw [lastOf,← List.head?_filterMap,List.filterMap_reverse,List.head?_reverse,List.filterMap_map,hcomp,hv]
  cases v <;> rfl

namespace Rta
variable {host : Endian} {a : Rta}

theorem bytes_length (host : Endian) (a : Rta) : (a.bytes host).length = align4 (rtaHdrlen+a.data.length) := by
  rw [← a.aligned]
  simp [bytes,rtaHdrlen]
  omega

theorem payload?_mem {attrs : List Rta} {type : ℕ} {v : Option (List UInt8)}
    (hv : attrs.filterMap (payload? type) = v.toList) (ha : a ∈ attrs) (htype : a.type = type) : a.data ∈ v := by
  have hmem : a.data ∈ attrs.filterMap (payload? type) :=
    List.mem_filterMap.mpr ⟨a,ha,by rw [payload?,if_pos htype]⟩
  rwa [hv,Option.mem_toList] at hmem

def route (host : Endian) (a : Rta) : RouteAttr :=
  if a.type = rtaDst then .dst a.data
  else if a.type = rtaGateway then .gateway a.data
  else if a.type = rtaOif then .oif (host.int a.data)
  else .other

def neigh (a : Rta) : NeighAttr :=
  if a.type = ndaDst then .dst a.data
  else if a.type = ndaLladdr then .lladdr a.data
  else .other

end Rta

namespace NlBuf
variable {b : NlBuf} {stop p : ℕ} {a : Rta}

/-- The bytes of an attribute lie in the buffer and in its message. -/
structure AttrAt (b : NlBuf) (stop p : ℕ) (a : Rta) : Prop where
  held : Held b.readBuf p (a.bytes b.host)
  size : ((p+(a.bytes b.host).length : ℕ) : ℤ) ≤ b.readSize
  inside : p+(a.bytes b.host).length ≤ stop

namespace AttrAt

theorem fields (h : AttrAt b stop p a) : b.rtaLen p = rtaHdrlen+a.data.length ∧ b.rtaType p = a.type ∧
    Held b.readBuf (p+rtaHdrlen) a.data := by
  have hheld := h.held
  simp only [Rta.bytes,held_append,List.length_append,Endian.bytes_length] at hheld
  obtain ⟨⟨⟨hlen,htype⟩,hdata⟩,-⟩ := hheld
  refine ⟨?_,?_,hdata⟩
  · rw [rtaLen,u16,load_bytes hlen]
    exact Nat.mod_eq_of_lt a.len_lt
  · rw [rtaType,u16,load_bytes htype]
    exact Nat.mod_eq_of_lt a.type_lt

theorem check {k n : ℕ} (h : AttrAt b stop p a) (hk : k+n ≤ rtaHdrlen+a.data.length) :
    b.check stop (p+k) n = .ok () := by
  have hlen := a.bytes_length b.host
  have haligned := a.aligned
  have hsize := h.size
  have hinside := h.inside
  rw [NlBuf.check,if_pos]
  push_cast at hsize ⊢
  omega

theorem rtaHead (h : AttrAt b stop p a) : b.rtaHead stop p = .ok (rtaHdrlen+a.data.length) := by
  have hcheck : b.check stop p rtaHdrlen = .ok () := h.check (k := 0) (by omega)
  rw [NlBuf.rtaHead,hcheck,h.fields.1]
  rfl

theorem copyAttr {size : ℕ} {dst : Bytes} (h : AttrAt b stop p a) (hsize : a.data.length ≤ size) :
    b.copyAttr stop p size dst = .ok (copyIn dst a.data) := by
  obtain ⟨hlen,-,hdata⟩ := h.fields
  have hpay : b.rtaPayload p = a.data.length := by
    rw [rtaPayload,hlen]
    omega
  have hcopy : memcpy dst (fun k => b.readBuf (p+rtaHdrlen+k)) a.data.length = copyIn dst a.data := by
    funext k
    simp only [copyIn,memcpy]
    split
    · rename_i hk
      rw [hdata k hk,List.getD_eq_getElem _ _ hk]
    · rfl
  rw [NlBuf.copyAttr,hpay,h.check le_rfl,if_pos hsize,hcopy]
  rfl

end AttrAt

end NlBuf

section
variable {host : Endian}

namespace Rta

theorem route_dst (host : Endian) (a : Rta) : (a.route host).dst? = a.payload? rtaDst := by
  unfold route payload?
  split_ifs <;> rfl

theorem route_gateway (host : Endian) (a : Rta) : (a.route host).gateway? = a.payload? rtaGateway := by
  unfold route payload?
  split_ifs with h1 h2 <;> first | rfl | exact absurd (h1.symm.trans h2) (by decide)

theorem route_oif (host : Endian) (a : Rta) : (a.route host).oif? = (a.payload? rtaOif).map host.int := by
  unfold route payload?
  split_ifs with h1 h2 h2 h3 <;> first
    | rfl
    | exact absurd (h1.symm.trans h2) (by decide)
    | exact absurd (h2.symm.trans h3) (by decide)

end Rta

namespace WireRoute

def msg (m : WireRoute host) : RtMsg :=
  ⟨m.family.toNat,m.dstLen.toNat,m.table.toNat,m.attrs.map (Rta.route host)⟩

theorem lastOf_dst (m : WireRoute host) : lastOf RouteAttr.dst? m.msg.attrs = m.dst :=
  lastOf_map (Rta.route_dst host) m.dst_attr

theorem lastOf_gateway (m : WireRoute host) : lastOf RouteAttr.gateway? m.msg.attrs = m.gateway :=
  lastOf_map (Rta.route_gateway host) m.gateway_attr

theorem lastOf_oif (m : WireRoute host) : lastOf RouteAttr.oif? m.msg.attrs = m.oif := by
  refine lastOf_map (Rta.route_oif host) ?_
  rw [← List.map_filterMap,m.oif_attr]
  cases hoif : m.oif with
  | none => rfl
  | some i => simp [int_intBytes (m.oif_lt i hoif)]

theorem sized {f : Family} (m : WireRoute host) (hf : familyOf m.family.toNat = some f) :
    ∀ a ∈ m.msg.attrs, a.Sized f.size := by
  intro a ha
  obtain ⟨w,hw,rfl⟩ := List.mem_map.mp ha
  unfold Rta.route
  split_ifs with h1 h2
  · exact (m.dst_len _ (Rta.payload?_mem m.dst_attr hw h1)).2 f hf
  · exact (m.gateway_len _ (Rta.payload?_mem m.gateway_attr hw h2)).2 f hf
  · trivial
  · trivial

theorem routeArgs_eq {f : Family} (t : Thread) (m : WireRoute host) (hf : familyOf m.family.toNat = some f) :
    routeArgs t m.msg = m.route t := by
  unfold routeArgs routeLocals
  rw [foldl_routeAttr _ (m.sized hf),m.lastOf_dst,m.lastOf_gateway,m.lastOf_oif]
  have htable : m.msg.table = m.table.toNat := rfl
  rw [htable]
  by_cases ht : m.table.toNat = rtTableLocal
  · simp only [route,if_pos ht]
    rfl
  · simp only [route,if_neg ht]
    rfl

theorem netlinkRoute_eq (t : Thread) (isNew : Bool) (m : WireRoute host) :
    netlinkRoute t isNew m.msg = ((WireBody.route isNew m).tableOp t).elim t (applyOp t) := by
  unfold netlinkRoute WireBody.tableOp
  cases hf : familyOf m.family.toNat with
  | none => simp only [msg,hf,Option.map_none,Option.elim_none]
  | some f =>
    rw [m.routeArgs_eq t hf]
    cases isNew <;> simp only [msg,hf,Option.map_some,Option.elim_some] <;> rfl

end WireRoute

theorem Rta.neigh_dst (a : Rta) : a.neigh.dst? = a.payload? ndaDst := by
  unfold neigh payload?
  split_ifs <;> rfl

theorem Rta.neigh_lladdr (a : Rta) : a.neigh.lladdr? = a.payload? ndaLladdr := by
  unfold neigh payload?
  split_ifs with h1 h2 <;> first | rfl | exact absurd (h1.symm.trans h2) (by decide)

namespace WireNeigh

def msg (m : WireNeigh host) : NdMsg := ⟨m.family.toNat,m.ifindex,m.attrs.map Rta.neigh⟩

theorem lastOf_dst (m : WireNeigh host) : lastOf NeighAttr.dst? m.msg.attrs = m.dst :=
  lastOf_map Rta.neigh_dst m.dst_attr

theorem lastOf_lladdr (m : WireNeigh host) : lastOf NeighAttr.lladdr? m.msg.attrs = m.lladdr :=
  lastOf_map Rta.neigh_lladdr m.lladdr_attr

theorem sized {f : Family} (m : WireNeigh host) (hf : familyOf m.family.toNat = some f) :
    ∀ a ∈ m.msg.attrs, a.Sized f.size := by
  intro a ha
  obtain ⟨w,hw,rfl⟩ := List.mem_map.mp ha
  unfold Rta.neigh
  split_ifs with h1 h2
  · exact (m.dst_len _ (Rta.payload?_mem m.dst_attr hw h1)).2 f hf
  · exact m.lladdr_len _ (Rta.payload?_mem m.lladdr_attr hw h2)
  · trivial

theorem netlinkNeigh_eq (t : Thread) (isNew : Bool) (m : WireNeigh host) :
    netlinkNeigh t isNew m.msg = ((WireBody.neigh isNew m).tableOp t).elim t (applyOp t) := by
  unfold netlinkNeigh WireBody.tableOp
  cases hp : findPort t m.ifindex with
  | none => simp only [msg,hp,Option.bind_none,Option.elim_none]
  | some port =>
    cases hf : familyOf m.family.toNat with
    | none => simp only [msg,hp,hf,Option.bind_some,Option.map_none,Option.elim_none]
    | some f =>
      have hd : neighLocals m.msg = ⟨zeroExtend (m.dst.getD []),zeroExtend (m.lladdr.getD [])⟩ := by
        rw [neighLocals,foldl_neighAttr _ (m.sized hf),m.lastOf_dst,m.lastOf_lladdr]
      have haf : m.family.toNat = f.af := familyOf_eq.mp hf
      have hf' : familyOf f.af = some f := familyOf_eq.mpr rfl
      rw [hd]
      cases isNew <;>
        simp only [msg,hp,haf,hf',Option.bind_some,Option.map_some,Option.elim_some] <;> rfl

end WireNeigh

end

@[simp] theorem WireRoute.fixed_length {host : Endian} (m : WireRoute host) : m.fixed.length = rtmLen := by
  simp [fixed,rtmLen]

@[simp] theorem WireNeigh.fixed_length {host : Endian} (m : WireNeigh host) : m.fixed.length = rtmLen := by
  simp [fixed,rtmLen,Endian.intBytes]

theorem WireBody.type_lt {host : Endian} (m : WireBody host) : m.type < 2^16 := by
  cases m with
  | route isNew m => cases isNew <;> simp [type,rtmNewroute,rtmDelroute]
  | neigh isNew m => cases isNew <;> simp [type,rtmNewneigh,rtmDelneigh]
  | other _ _ hlt _ => exact hlt

namespace NlBuf
variable {b : NlBuf} {stop p nlh pos fuel : ℕ} {a : Rta} {t : Thread}

theorem routeAttr_encoded {m : WireRoute b.host} {d : RouteLocals} (h : AttrAt b stop p a) (ha : a ∈ m.attrs) :
    b.routeAttr stop d p = .ok (Forwarder.routeAttr d (a.route b.host)) := by
  obtain ⟨-,htype,hdata⟩ := h.fields
  unfold routeAttr Rta.route
  rw [htype]
  split_ifs with h1 h2 h3
  · rw [h.copyAttr (m.dst_len _ (Rta.payload?_mem m.dst_attr ha h1)).1]
    rfl
  · rw [h.copyAttr (m.gateway_len _ (Rta.payload?_mem m.gateway_attr ha h2)).1]
    rfl
  · obtain ⟨i,hi,hi'⟩ := Option.map_eq_some_iff.mp (Rta.payload?_mem m.oif_attr ha h3)
    rw [← hi'] at hdata ⊢
    have hlt := m.oif_lt i hi
    have hint : b.int (p+rtaHdrlen) = i := load_bytes_int hdata hlt
    have hcheck : b.check stop (p+rtaHdrlen) 4 = .ok () := h.check (by simp [← hi',Endian.intBytes])
    rw [hcheck,hint,int_intBytes hlt]
    rfl
  · rfl

theorem neighAttr_encoded {m : WireNeigh b.host} {d : NeighLocals} (h : AttrAt b stop p a) (ha : a ∈ m.attrs) :
    b.neighAttr stop d p = .ok (Forwarder.neighAttr d a.neigh) := by
  obtain ⟨-,htype,-⟩ := h.fields
  unfold neighAttr Rta.neigh
  rw [htype]
  split_ifs with h1 h2
  · rw [h.copyAttr (m.dst_len _ (Rta.payload?_mem m.dst_attr ha h1)).1]
    rfl
  · rw [h.copyAttr (m.lladdr_len _ (Rta.payload?_mem m.lladdr_attr ha h2)).le]
    rfl
  · rfl

theorem attrs_encoded {σ : Type} {body : σ → ℕ → Except Fault σ} {step : σ → Rta → σ} {s : σ}
    {attrs : List Rta} (hheld : Held b.readBuf pos (attrs.flatMap (Rta.bytes b.host)))
    (hsize : ((pos+(attrs.flatMap (Rta.bytes b.host)).length : ℕ) : ℤ) ≤ b.readSize)
    (hlt : b.readSize < 2^31) (hfuel : b.readSize < fuel)
    (hstop : stop = pos+(attrs.flatMap (Rta.bytes b.host)).length)
    (hbody : ∀ s p, ∀ a ∈ attrs, AttrAt b stop p a → body s p = .ok (step s a)) :
    loop .fuel rtaHdrlen (b.rtaHead stop) body fuel s pos (attrs.flatMap (Rta.bytes b.host)).length =
      .ok (attrs.foldl step s) := by
  have hrecords : ∀ a ∈ attrs, rtaHdrlen ≤ rtaHdrlen+a.data.length ∧
      rtaHdrlen+a.data.length ≤ (a.bytes b.host).length ∧
      (a.bytes b.host).length = align4 (rtaHdrlen+a.data.length) := by
    intro a _
    have hlen := a.bytes_length b.host
    have haligned := a.aligned
    exact ⟨by omega,by omega,hlen⟩
  push_cast at hsize
  refine loop_encoded (by decide) hrecords hheld rfl (by omega) ?_ (by omega)
  intro s p a ha hat hp hend
  push_cast at hend
  have h : AttrAt b stop p a := ⟨hat,by push_cast; omega,by omega⟩
  exact ⟨h.rtaHead,hbody s p a ha h⟩

/-- The bytes of a message lie in the buffer. -/
structure MsgAt (b : NlBuf) (nlh : ℕ) (m : WireMsg b.host) : Prop where
  held : Held b.readBuf nlh m.bytes
  size : ((nlh+m.bytes.length : ℕ) : ℤ) ≤ b.readSize
  lt : b.readSize < 2^31

namespace MsgAt
variable {m : WireMsg b.host}

theorem fields (h : MsgAt b nlh m) : b.nlmsgLen nlh = m.len ∧ b.nlmsgType nlh = m.body.type ∧
    Held b.readBuf (nlmsgData nlh) m.body.bytes ∧ ((nlh+m.len : ℕ) : ℤ) ≤ b.readSize := by
  have hheld := h.held
  have hsize := h.size
  have hlt := h.lt
  simp only [WireMsg.bytes,held_append,List.length_append,Endian.bytes_length] at hheld hsize
  obtain ⟨⟨⟨⟨⟨⟨hlen,htype⟩,-⟩,-⟩,-⟩,hbody⟩,-⟩ := hheld
  have hle : ((nlh+m.len : ℕ) : ℤ) ≤ b.readSize := by
    rw [WireMsg.len,nlmsgHdrlen]
    push_cast at hsize ⊢
    omega
  refine ⟨?_,?_,hbody,hle⟩
  · rw [nlmsgLen,u32,load_bytes hlen]
    exact Nat.mod_eq_of_lt (by push_cast at hle; omega)
  · rw [nlmsgType,u16,load_bytes htype]
    exact Nat.mod_eq_of_lt m.body.type_lt

theorem attrs {fixed : List UInt8} {attrs : List Rta} (h : MsgAt b nlh m) (hfixed : fixed.length = rtmLen)
    (hbody : m.body.bytes = fixed ++ attrs.flatMap (Rta.bytes b.host)) :
    b.check (b.nlmsgEnd nlh) (nlmsgData nlh) rtmLen = .ok () ∧
    b.rtmPayload nlh = (attrs.flatMap (Rta.bytes b.host)).length ∧ Held b.readBuf (nlmsgData nlh) fixed ∧
    Held b.readBuf (rtmRta nlh) (attrs.flatMap (Rta.bytes b.host)) ∧
    b.nlmsgEnd nlh = rtmRta nlh+(attrs.flatMap (Rta.bytes b.host)).length ∧
    ((rtmRta nlh+(attrs.flatMap (Rta.bytes b.host)).length : ℕ) : ℤ) ≤ b.readSize := by
  obtain ⟨hlen,-,hheld,hle⟩ := h.fields
  have hlt := h.lt
  rw [hbody,held_append,hfixed] at hheld
  have hmsg : m.len = nlmsgHdrlen+rtmLen+(attrs.flatMap (Rta.bytes b.host)).length := by
    rw [WireMsg.len,hbody,List.length_append,hfixed]
    omega
  have hend : b.nlmsgEnd nlh = rtmRta nlh+(attrs.flatMap (Rta.bytes b.host)).length := by
    rw [nlmsgEnd,hlen,hmsg,rtmRta,nlmsgData]
    omega
  have hsize : ((rtmRta nlh+(attrs.flatMap (Rta.bytes b.host)).length : ℕ) : ℤ) ≤ b.readSize := by
    rwa [← hend,nlmsgEnd,hlen]
  refine ⟨?_,?_,hheld.1,hheld.2,hend,hsize⟩
  · rw [NlBuf.check,if_pos]
    rw [hend]
    rw [rtmRta] at hsize ⊢
    push_cast at hsize ⊢
    omega
  · rw [rtmPayload,hlen,hmsg]
    push_cast at hsize ⊢
    rw [add_sub_cancel_left]
    exact Int.bmod_eq_of_le_mul_two (by omega) (by omega)

theorem netlinkRoute {isNew : Bool} {r : WireRoute b.host} (h : MsgAt b nlh m) (hm : m.body = .route isNew r)
    (hfuel : b.readSize < fuel) :
    b.netlinkRoute routeStep fuel t nlh = .ok (Forwarder.netlinkRoute t isNew r.msg) := by
  obtain ⟨hcheck,hpay,hfixed,hattrs,hend,hsize⟩ := h.attrs r.fixed_length (congrArg WireBody.bytes hm)
  have htype : (b.nlmsgType nlh == rtmNewroute) = isNew := by
    rw [h.fields.2.1,hm]
    cases isNew <;> rfl
  have hrtm : b.rtmsg nlh = ⟨r.family.toNat,r.dstLen.toNat,r.table.toNat,[]⟩ := by
    have hbyte : ∀ k (hk : k < r.fixed.length), b.u8 (nlmsgData nlh+k) = (r.fixed.get ⟨k,hk⟩).toNat :=
      fun k hk => congrArg UInt8.toNat (hfixed k hk)
    exact congrArg₂ (fun f d => (⟨f,d.1,d.2,[]⟩ : RtMsg)) (hbyte 0 (by simp [rtmLen]))
      (congrArg₂ Prod.mk (hbyte 1 (by simp [rtmLen])) (hbyte 4 (by simp [rtmLen])))
  have hloop := attrs_encoded (s := ⟨fun _ => 0,fun _ => 0,-1,.link⟩) hattrs hsize h.lt hfuel hend
    fun d p a ha hat => routeAttr_encoded (d := d) hat ha
  rw [NlBuf.netlinkRoute,hcheck,hpay,hloop,htype,hrtm,← List.foldl_map]
  exact congrArg Except.ok (routeCall_eq t isNew ⟨_,_,_,[]⟩ _)

theorem netlinkNeigh {isNew : Bool} {r : WireNeigh b.host} (h : MsgAt b nlh m) (hm : m.body = .neigh isNew r)
    (hfuel : b.readSize < fuel) : b.netlinkNeigh fuel t nlh = .ok (Forwarder.netlinkNeigh t isNew r.msg) := by
  obtain ⟨hcheck,hpay,hfixed,hattrs,hend,hsize⟩ := h.attrs r.fixed_length (congrArg WireBody.bytes hm)
  have htype : (b.nlmsgType nlh == rtmNewneigh) = isNew := by
    rw [h.fields.2.1,hm]
    cases isNew <;> rfl
  have hnd : b.ndmsg nlh = ⟨r.family.toNat,r.ifindex,[]⟩ := by
    have hfamily : b.u8 (nlmsgData nlh) = r.family.toNat := congrArg UInt8.toNat (hfixed 0 (by simp [rtmLen]))
    simp only [WireNeigh.fixed,held_append,List.length_append,Endian.bytes_length] at hfixed
    have hifindex : b.int (nlmsgData nlh+4) = r.ifindex := load_bytes_int hfixed.1.1.2 r.ifindex_lt
    rw [ndmsg,hfamily,hifindex]
  rw [NlBuf.netlinkNeigh,hcheck,hnd]
  cases hport : findPort t r.ifindex with
  | none =>
    simp only [Forwarder.netlinkNeigh,WireNeigh.msg,hport]
    rfl
  | some port =>
    have hloop := attrs_encoded (s := ⟨fun _ => 0,fun _ => 0⟩) hattrs hsize h.lt hfuel hend
      fun d p a ha hat => neighAttr_encoded (d := d) hat ha
    simp only
    rw [hpay,hloop,htype,← List.foldl_map]
    exact congrArg Except.ok (neighCall_eq isNew ⟨_,_,[]⟩ _ hport)

theorem netlinkMsg (h : MsgAt b nlh m) (hfuel : b.readSize < fuel) :
    b.netlinkMsg routeStep fuel t nlh = .ok (m.run t) := by
  rw [NlBuf.netlinkMsg,h.fields.2.1,WireMsg.run,WireMsg.tableOp]
  cases hm : m.body with
  | route isNew r =>
    rw [if_pos (by cases isNew <;> simp [WireBody.type]),h.netlinkRoute hm hfuel,r.netlinkRoute_eq]
  | neigh isNew r =>
    have hroute : ¬ ((WireBody.neigh isNew r).type = rtmNewroute ∨ (WireBody.neigh isNew r).type = rtmDelroute) := by
      cases isNew <;> simp [WireBody.type,rtmNewroute,rtmDelroute,rtmNewneigh,rtmDelneigh]
    rw [if_neg hroute,if_pos (by cases isNew <;> simp [WireBody.type]),h.netlinkNeigh hm hfuel,r.netlinkNeigh_eq]
  | other type data hlt hne =>
    simp only [List.mem_cons,List.not_mem_nil,or_false,not_or] at hne
    rw [if_neg (by simp [WireBody.type,hne]),if_neg (by simp [WireBody.type,hne])]
    rfl

end MsgAt

theorem Carries.process {msgs : List (WireMsg b.host)} (hb : b.Carries msgs) (hfuel : b.readSize < fuel) :
    b.netlinkProcess fuel t = .ok (msgs.foldl WireMsg.run t) := by
  have hrecords : ∀ m ∈ msgs, nlmsgHdrlen ≤ m.len ∧ m.len ≤ m.bytes.length ∧ m.bytes.length = align4 m.len := by
    intro m _
    have hlen : m.bytes.length = m.len+m.pad.length := by
      simp [WireMsg.bytes,WireMsg.len,nlmsgHdrlen]
      omega
    have haligned : m.len+m.pad.length = align4 m.len := m.aligned
    exact ⟨by rw [WireMsg.len]; omega,by omega,by omega⟩
  refine loop_encoded (by decide) hrecords hb.held hb.size hb.lt ?_ hfuel
  intro t nlh m hm hheld _ hend
  have h : MsgAt b nlh m := ⟨hheld,by simpa using hend,hb.lt⟩
  refine ⟨?_,h.netlinkMsg hfuel⟩
  obtain ⟨hlen,-,-,hle⟩ := h.fields
  have hhdr := (hrecords m hm).1
  push_cast at hle
  rw [nlmsgHead,NlBuf.check,if_pos ⟨by push_cast; omega,le_rfl⟩,hlen]
  rfl

end NlBuf

theorem samePorts_applyOp (t : Thread) (op : TableOp) : SamePorts t (applyOp t op) := by
  cases op with
  | routeUpdate | routeDelete => exact samePorts_setFib
  | neighAdd | neighDelete => exact samePorts_setNeigh

theorem SamePorts.tableOp_eq {host : Endian} {t t' : Thread} (h : SamePorts t t') (m : WireMsg host) :
    m.tableOp t' = m.tableOp t := by
  unfold WireMsg.tableOp
  cases m.body with
  | route isNew r => simp only [WireBody.tableOp,WireRoute.route,portIndex,h.findPort_eq]
  | neigh isNew r => simp only [WireBody.tableOp,h.findPort_eq]
  | other => rfl

/-- The calls do not depend on those before them, since no call changes the ports. -/
theorem foldl_tableOp {host : Endian} {t₀ t : Thread} (msgs : List (WireMsg host)) (h : SamePorts t₀ t) :
    msgs.foldl WireMsg.run t = (msgs.filterMap (WireMsg.tableOp t₀)).foldl applyOp t := by
  induction msgs generalizing t with
  | nil => rfl
  | cons m msgs ih =>
    rw [List.foldl_cons,WireMsg.run,h.tableOp_eq]
    cases hop : m.tableOp t₀ with
    | none =>
      rw [List.filterMap_cons_none hop]
      exact ih h
    | some op =>
      rw [List.filterMap_cons_some hop,List.foldl_cons]
      exact ih (h.trans (samePorts_applyOp t op))

/-- Processing encoded messages makes the calls that they stand for, in order; processing a
concatenation is processing its parts. -/
theorem netlink_decodes {b : NlBuf} {msgs : List (WireMsg b.host)} {fuel : ℕ} (t : Thread)
    (hb : b.Carries msgs) (hfuel : b.readSize < fuel) :
    b.netlinkProcess fuel t = .ok ((msgs.filterMap (WireMsg.tableOp t)).foldl applyOp t) ∧
    ∀ (buf₁ buf₂ : Bytes) (n₁ n₂ : ℤ) (msgs₁ msgs₂ : List (WireMsg b.host)), msgs = msgs₁ ++ msgs₂ →
      NlBuf.Carries ⟨b.host,buf₁,n₁⟩ msgs₁ → NlBuf.Carries ⟨b.host,buf₂,n₂⟩ msgs₂ →
      b.netlinkProcess fuel t =
        NlBuf.netlinkProcess ⟨b.host,buf₁,n₁⟩ fuel t >>= NlBuf.netlinkProcess ⟨b.host,buf₂,n₂⟩ fuel := by
  refine ⟨?_,?_⟩
  · rw [hb.process hfuel,foldl_tableOp msgs ⟨rfl,rfl,rfl⟩]
  · intro buf₁ buf₂ n₁ n₂ msgs₁ msgs₂ hmsgs h1 h2
    have hsize := hb.size
    have hsize₁ : n₁ = (msgs₁.flatMap WireMsg.bytes).length := h1.size
    have hsize₂ : n₂ = (msgs₂.flatMap WireMsg.bytes).length := h2.size
    rw [hmsgs,List.flatMap_append,List.length_append] at hsize
    rw [hb.process hfuel,h1.process (by simp only; omega),hmsgs,List.foldl_append]
    exact (h2.process (by simp only; omega)).symm

def NlBuf.ofMsgs {host : Endian} (msgs : List (WireMsg host)) : NlBuf :=
  ⟨host,zeroExtend (msgs.flatMap WireMsg.bytes),(msgs.flatMap WireMsg.bytes).length⟩

theorem carries_ofMsgs {host : Endian} (msgs : List (WireMsg host))
    (hlt : (msgs.flatMap WireMsg.bytes).length < 2^31) : (NlBuf.ofMsgs msgs).Carries msgs :=
  ⟨rfl,by simp only [NlBuf.ofMsgs]; omega,held_zeroExtend _⟩

/-- 10.0.0.0/8 via 192.168.0.1 on interface 2, with a priority among the attributes. -/
def tenRoute : WireRoute .little where
  family := 2
  dstLen := 8
  srcLen := 0
  tos := 0
  table := 254
  protocol := 3
  scope := 0
  type := 1
  flags := 0
  dst := some [10,0,0,0]
  gateway := some [192,168,0,1]
  oif := some 2
  attrs := [⟨rtaOif,[2,0,0,0],[],by decide,by decide,rfl⟩,⟨rtaGateway,[192,168,0,1],[],by decide,by decide,rfl⟩,
    ⟨6,[100],[0,0,0],by decide,by decide,rfl⟩,⟨rtaDst,[10,0,0,0],[],by decide,by decide,rfl⟩]
  dst_attr := rfl
  gateway_attr := rfl
  oif_attr := rfl
  dst_len := by simp [AddrLen,familyOf,afInet,Family.size]
  gateway_len := by simp [AddrLen,familyOf,afInet,Family.size]
  oif_lt := by simp

def tenRouteMsgs : List (WireMsg .little) :=
  [⟨0,1,0,.other 3 [0,0,0,0] (by decide) (by decide),[],rfl⟩,⟨0,2,0,.route true tenRoute,[],rfl⟩]

theorem netlink_decodes_tenRoute : (NlBuf.ofMsgs tenRouteMsgs).netlinkProcess 100 onePort =
    .ok (applyOp onePort (.routeUpdate .inet
      ⟨afInet,.forward,zeroExtend [10,0,0,0],8,zeroExtend [192,168,0,1],0,2⟩)) :=
  (netlink_decodes onePort (carries_ofMsgs tenRouteMsgs (by decide)) (by decide)).1

end Forwarder
end Ixmap
