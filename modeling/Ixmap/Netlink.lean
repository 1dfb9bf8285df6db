import Ixmap.Driver
import Ixmap.Neigh

/-! The state of a forwarding thread and the netlink messages of `netlink.c` that keep its tables.
A message is its fixed part and its attributes in order. -/
namespace Ixmap
namespace Forwarder
open BlockHeap PrefixBits FibTable Neighbour

/-- `struct tun_port`, less its MTU. -/
structure TunPort where
  fd : ℤ
  ifindex : ℕ

/-- `struct ixmapfwd_thread` with the memory of the packet buffers and the TAP interfaces. -/
structure Thread where
  plane : Driver.Plane
  neighInet : ℕ → NeighTable
  neighInet6 : ℕ → NeighTable
  fibInet : Fib
  fibInet6 : Fib
  tunPlane : ℕ → TunPort
  numPorts : ℕ
  /-- The bytes from `buf->addr_virt` on. -/
  mem : Bytes
  /-- What was written, with the file descriptor, oldest first. -/
  tap : List (ℤ × List UInt8)

inductive Family where
  | inet
  | inet6
deriving DecidableEq, Repr

/-- The tables that `switch(family)` selects. -/
def familyOf (family : ℕ) : Option Family :=
  if family = afInet then some .inet else if family = afInet6 then some .inet6 else none

namespace Family

def af : Family → ℕ
  | .inet => afInet
  | .inet6 => afInet6

def size : Family → ℕ
  | .inet => 4
  | .inet6 => 16

end Family

namespace Thread

def fib (t : Thread) : Family → Fib
  | .inet => t.fibInet
  | .inet6 => t.fibInet6

def setFib (t : Thread) : Family → Fib → Thread
  | .inet, fib => { t with fibInet := fib }
  | .inet6, fib => { t with fibInet6 := fib }

def neigh (t : Thread) : Family → ℕ → NeighTable
  | .inet => t.neighInet
  | .inet6 => t.neighInet6

def setNeigh (t : Thread) (f : Family) (port : ℕ) (neigh : NeighTable) : Thread :=
  match f with
  | .inet => { t with neighInet := Function.update t.neighInet port neigh }
  | .inet6 => { t with neighInet6 := Function.update t.neighInet6 port neigh }

end Thread

/-- Attributes of a route message. -/
inductive RouteAttr where
  | dst (data : List UInt8)
  | gateway (data : List UInt8)
  | oif (ifindex : ℤ)
  | other

/-- `struct rtmsg` and its attributes. -/
structure RtMsg where
  family : ℕ
  dstLen : ℕ
  table : ℕ
  attrs : List RouteAttr

/-- Attributes of a neighbour message. -/
inductive NeighAttr where
  | dst (data : List UInt8)
  | lladdr (data : List UInt8)
  | other

/-- `struct ndmsg` and its attributes. -/
structure NdMsg where
  family : ℕ
  ifindex : ℤ
  attrs : List NeighAttr

inductive NlMsg where
  | newRoute (m : RtMsg)
  | delRoute (m : RtMsg)
  | newNeigh (m : NdMsg)
  | delNeigh (m : NdMsg)
  | unknown

def rtTableLocal : ℕ := 255

/-- `memcpy` of an attribute's payload. -/
def copyIn (dst : Bytes) (data : List UInt8) : Bytes := memcpy dst (fun k => data.getD k 0) data.length

/-- The locals of `netlink_route` that its attribute loop sets. -/
structure RouteLocals where
  pfx : Bytes
  nexthop : Bytes
  ifindex : ℤ
  type : FibType

def routeAttr (d : RouteLocals) : RouteAttr → RouteLocals
  | .dst data => { d with pfx := copyIn d.pfx data }
  | .gateway data => { d with nexthop := copyIn d.nexthop data, type := .forward }
  | .oif ifindex => { d with ifindex }
  | .other => d

def routeLocals (m : RtMsg) : RouteLocals :=
  let d := m.attrs.foldl routeAttr ⟨fun _ => 0,fun _ => 0,-1,.link⟩
  if m.table = rtTableLocal then { d with type := .local } else d

/-- The loop over the ports: the first with the interface. The C comparison is unsigned. -/
def findPort (t : Thread) (ifindex : ℤ) : Option ℕ :=
  (List.range t.numPorts).find? fun i => (t.tunPlane i).ifindex == (ifindex % 2^32).toNat

/-- `port_index`, which stays -1 when no port has the interface. -/
def portIndex (t : Thread) (ifindex : ℤ) : ℤ :=
  match findPort t ifindex with
  | some i => i
  | none => -1

/-- The arguments of the calls that `netlink_route` makes. -/
def routeArgs (t : Thread) (m : RtMsg) : Route :=
  let d := routeLocals m
  ⟨m.family,d.type,d.pfx,m.dstLen,d.nexthop,portIndex t d.ifindex,d.ifindex⟩

def netlinkRoute (t : Thread) (isNew : Bool) (m : RtMsg) : Thread :=
  let r := routeArgs t m
  match familyOf m.family with
  | none => t
  | some f =>
    if isNew then t.setFib f (fibRouteUpdate (t.fib f) r).2
    else t.setFib f (fibRouteDelete (t.fib f) r.pfx r.prefixLen r.id).2

/-- The locals of `netlink_neigh` that its attribute loop sets. -/
structure NeighLocals where
  dstAddr : Bytes
  dstMac : Bytes

def neighAttr (d : NeighLocals) : NeighAttr → NeighLocals
  | .dst data => { d with dstAddr := copyIn d.dstAddr data }
  | .lladdr data => { d with dstMac := copyIn d.dstMac data }
  | .other => d

def neighLocals (m : NdMsg) : NeighLocals := m.attrs.foldl neighAttr ⟨fun _ => 0,fun _ => 0⟩

def netlinkNeigh (t : Thread) (isNew : Bool) (m : NdMsg) : Thread :=
  match findPort t m.ifindex with
  | none => t
  | some port =>
    let d := neighLocals m
    match familyOf m.family with
    | none => t
    | some f =>
      if isNew then t.setNeigh f port (neighAdd (t.neigh f port) m.family d.dstAddr d.dstMac).2
      else t.setNeigh f port (neighDelete (t.neigh f port) d.dstAddr).2

def netlinkMsg (t : Thread) : NlMsg → Thread
  | .newRoute m => netlinkRoute t true m
  | .delRoute m => netlinkRoute t false m
  | .newNeigh m => netlinkNeigh t true m
  | .delNeigh m => netlinkNeigh t false m
  | .unknown => t

def netlinkProcess (t : Thread) (msgs : List NlMsg) : Thread := msgs.foldl netlinkMsg t

section
variable {t : Thread} {f g : Family} {port port' family : ℕ} {neigh : NeighTable} {fib : Fib}

theorem familyOf_eq : familyOf family = some f ↔ family = f.af := by
  constructor
  · intro h
    unfold familyOf at h
    split at h
    · rename_i he
      rw [← Option.some_inj.mp h]
      exact he
    · split at h
      · rename_i he
        rw [← Option.some_inj.mp h]
        exact he
      · simp at h
  · rintro rfl
    cases f <;> rfl

theorem addrSize_af (f : Family) : addrSize f.af = some f.size := by
  cases f <;> rfl

theorem fib_setFib : (t.setFib f fib).fib g = if g = f then fib else t.fib g := by
  cases f <;> cases g <;> rfl

theorem neigh_setNeigh :
    (t.setNeigh f port neigh).neigh g port' = if g = f ∧ port' = port then neigh else t.neigh g port' := by
  by_cases hp : port' = port <;> cases f <;> cases g <;>
    simp [Thread.setNeigh,Thread.neigh,hp]

@[simp] theorem neigh_setFib : (t.setFib f fib).neigh = t.neigh := by
  cases f <;> rfl

@[simp] theorem fib_setNeigh : (t.setNeigh f port neigh).fib = t.fib := by
  cases f <;> rfl

/-- What netlink messages leave alone. -/
structure SamePorts (t t' : Thread) : Prop where
  tun : t'.tunPlane = t.tunPlane
  num : t'.numPorts = t.numPorts
  plane : t'.plane = t.plane

theorem SamePorts.trans {t t' t'' : Thread} (h : SamePorts t t') (h' : SamePorts t' t'') :
    SamePorts t t'' := ⟨h'.tun.trans h.tun,h'.num.trans h.num,h'.plane.trans h.plane⟩

theorem SamePorts.findPort_eq {t t' : Thread} (h : SamePorts t t') (ifindex : ℤ) :
    findPort t' ifindex = findPort t ifindex := by
  simp only [findPort,h.tun,h.num]

theorem samePorts_setFib : SamePorts t (t.setFib f fib) := by
  cases f <;> exact ⟨rfl,rfl,rfl⟩

theorem samePorts_setNeigh : SamePorts t (t.setNeigh f port neigh) := by
  cases f <;> exact ⟨rfl,rfl,rfl⟩

theorem samePorts_route (t : Thread) (isNew : Bool) (m : RtMsg) : SamePorts t (netlinkRoute t isNew m) := by
  unfold netlinkRoute
  dsimp only
  split
  · exact ⟨rfl,rfl,rfl⟩
  split <;> exact samePorts_setFib

theorem samePorts_neigh (t : Thread) (isNew : Bool) (m : NdMsg) : SamePorts t (netlinkNeigh t isNew m) := by
  unfold netlinkNeigh
  split
  · exact ⟨rfl,rfl,rfl⟩
  dsimp only
  split
  · exact ⟨rfl,rfl,rfl⟩
  split <;> exact samePorts_setNeigh

theorem samePorts_msg (t : Thread) (msg : NlMsg) : SamePorts t (netlinkMsg t msg) := by
  cases msg with
  | newRoute m => exact samePorts_route t true m
  | delRoute m => exact samePorts_route t false m
  | newNeigh m => exact samePorts_neigh t true m
  | delNeigh m => exact samePorts_neigh t false m
  | unknown => exact ⟨rfl,rfl,rfl⟩

theorem samePorts_process (t : Thread) (msgs : List NlMsg) : SamePorts t (netlinkProcess t msgs) := by
  unfold netlinkProcess
  induction msgs generalizing t with
  | nil => exact ⟨rfl,rfl,rfl⟩
  | cons msg msgs ih => exact (samePorts_msg t msg).trans (ih _)

theorem fib_netlinkNeigh (t : Thread) (isNew : Bool) (m : NdMsg) : (netlinkNeigh t isNew m).fib = t.fib := by
  unfold netlinkNeigh
  split
  · rfl
  dsimp only
  split
  · rfl
  split <;> exact fib_setNeigh

theorem neigh_netlinkRoute (t : Thread) (isNew : Bool) (m : RtMsg) :
    (netlinkRoute t isNew m).neigh = t.neigh := by
  unfold netlinkRoute
  dsimp only
  split
  · rfl
  split <;> exact neigh_setFib

theorem fib_netlinkRoute (t : Thread) (isNew : Bool) (m : RtMsg) (f : Family) :
    (netlinkRoute t isNew m).fib f =
      if familyOf m.family = some f then
        if isNew then (fibRouteUpdate (t.fib f) (routeArgs t m)).2
        else (fibRouteDelete (t.fib f) (routeArgs t m).pfx (routeArgs t m).prefixLen (routeArgs t m).id).2
      else t.fib f := by
  unfold netlinkRoute
  cases hf : familyOf m.family with
  | none => simp
  | some g =>
    by_cases hfg : f = g
    · subst hfg
      cases isNew <;> simp [fib_setFib]
    · cases isNew <;> simp [fib_setFib,hfg,Ne.symm hfg]

end

/-- The last of the values that a list of attributes gives. -/
def lastOf {α β : Type} (g : α → Option β) (l : List α) : Option β := l.reverse.findSome? g

theorem lastOf_append {α β : Type} (g : α → Option β) (l : List α) (a : α) :
    lastOf g (l ++ [a]) = (g a).or (lastOf g l) := by
  rw [lastOf,List.reverse_append,List.reverse_singleton,List.singleton_append,List.findSome?_cons]
  cases g a <;> rfl

def zeroExtend (data : List UInt8) : Bytes := fun k => data.getD k 0

theorem copyIn_last {α : Type} {g : α → Option (List UInt8)} {l : List α} {data : List UInt8}
    (h : ∀ a ∈ l, ∀ old, g a = some old → old.length = data.length) :
    copyIn (zeroExtend ((lastOf g l).getD [])) data = zeroExtend data := by
  have hlen : ((lastOf g l).getD []).length ≤ data.length := by
    cases hl : lastOf g l with
    | none => simp
    | some old =>
      obtain ⟨a,ha,hg⟩ := List.exists_of_findSome?_eq_some hl
      exact (h a (List.mem_reverse.mp ha) old hg).le
  funext k
  simp only [copyIn,memcpy,zeroExtend]
  split
  · rfl
  · rw [List.getD_eq_default _ _ (by omega),List.getD_eq_default _ _ (by omega)]

/-- Addresses have the length of the family. -/
def RouteAttr.Sized (n : ℕ) : RouteAttr → Prop
  | .dst data => data.length = n
  | .gateway data => data.length = n
  | _ => True

def RouteAttr.dst? : RouteAttr → Option (List UInt8)
  | .dst data => some data
  | _ => none

def RouteAttr.gateway? : RouteAttr → Option (List UInt8)
  | .gateway data => some data
  | _ => none

def RouteAttr.oif? : RouteAttr → Option ℤ
  | .oif ifindex => some ifindex
  | _ => none

/-- A route message as the kernel sends it for a family. -/
structure RtMsg.Valid (m : RtMsg) (f : Family) : Prop where
  family : m.family = f.af
  len : m.dstLen ≤ 8*f.size
  sized : ∀ a ∈ m.attrs, a.Sized f.size

def NeighAttr.Sized (n : ℕ) : NeighAttr → Prop
  | .dst data => data.length = n
  | .lladdr data => data.length = 6
  | .other => True

def NeighAttr.dst? : NeighAttr → Option (List UInt8)
  | .dst data => some data
  | _ => none

def NeighAttr.lladdr? : NeighAttr → Option (List UInt8)
  | .lladdr data => some data
  | _ => none

/-- A neighbour message as the kernel sends it for a family. -/
structure NdMsg.Valid (m : NdMsg) (f : Family) : Prop where
  family : m.family = f.af
  sized : ∀ a ∈ m.attrs, a.Sized f.size

/-- Messages as the kernel sends them; those of other families are ignored. -/
def NlMsg.Valid : NlMsg → Prop
  | .newRoute m | .delRoute m => ∀ f, familyOf m.family = some f → m.Valid f
  | .newNeigh m | .delNeigh m => ∀ f, familyOf m.family = some f → m.Valid f
  | .unknown => True

/-- The type of a route outside the local table. -/
def linkType : Option (List UInt8) → FibType
  | some _ => .forward
  | none => .link

section
variable {n : ℕ}

theorem RouteAttr.Sized.dst {a : RouteAttr} {data : List UInt8} (h : a.Sized n) (hd : a.dst? = some data) :
    data.length = n := by
  cases a <;> simp only [RouteAttr.dst?,reduceCtorEq,Option.some_inj] at hd
  exact hd ▸ h

theorem RouteAttr.Sized.gateway {a : RouteAttr} {data : List UInt8} (h : a.Sized n)
    (hd : a.gateway? = some data) : data.length = n := by
  cases a <;> simp only [RouteAttr.gateway?,reduceCtorEq,Option.some_inj] at hd
  exact hd ▸ h

theorem NeighAttr.Sized.dst {a : NeighAttr} {data : List UInt8} (h : a.Sized n) (hd : a.dst? = some data) :
    data.length = n := by
  cases a <;> simp only [NeighAttr.dst?,reduceCtorEq,Option.some_inj] at hd
  exact hd ▸ h

theorem NeighAttr.Sized.lladdr {a : NeighAttr} {data : List UInt8} (h : a.Sized n)
    (hd : a.lladdr? = some data) : data.length = 6 := by
  cases a <;> simp only [NeighAttr.lladdr?,reduceCtorEq,Option.some_inj] at hd
  exact hd ▸ h

/-- The attribute loop keeps the last value of each attribute. -/
theorem foldl_routeAttr (attrs : List RouteAttr) (h : ∀ a ∈ attrs, a.Sized n) :
    attrs.foldl routeAttr ⟨fun _ => 0,fun _ => 0,-1,.link⟩ =
      ⟨zeroExtend ((lastOf RouteAttr.dst? attrs).getD []),
        zeroExtend ((lastOf RouteAttr.gateway? attrs).getD []),(lastOf RouteAttr.oif? attrs).getD (-1),
        linkType (lastOf RouteAttr.gateway? attrs)⟩ := by
  induction attrs using List.reverseRecOn with
  | nil => rfl
  | append_singleton attrs a ih =>
    have hold : ∀ a ∈ attrs, a.Sized n := fun a ha => h a (by simp [ha])
    have ha : a.Sized n := h a (by simp)
    rw [List.foldl_append,List.foldl_cons,List.foldl_nil,ih hold]
    simp only [lastOf_append]
    cases a with
    | dst data =>
      have hlast : ∀ a ∈ attrs, ∀ old, a.dst? = some old → old.length = data.length :=
        fun a hm old hd => ((hold a hm).dst hd).trans ha.symm
      simp [routeAttr,copyIn_last hlast,RouteAttr.dst?,RouteAttr.gateway?,RouteAttr.oif?]
    | gateway data =>
      have hlast : ∀ a ∈ attrs, ∀ old, a.gateway? = some old → old.length = data.length :=
        fun a hm old hd => ((hold a hm).gateway hd).trans ha.symm
      simp [routeAttr,copyIn_last hlast,RouteAttr.dst?,RouteAttr.gateway?,RouteAttr.oif?,linkType]
    | oif ifindex => simp [routeAttr,RouteAttr.dst?,RouteAttr.gateway?,RouteAttr.oif?]
    | other => simp [routeAttr,RouteAttr.dst?,RouteAttr.gateway?,RouteAttr.oif?]

theorem foldl_neighAttr (attrs : List NeighAttr) (h : ∀ a ∈ attrs, a.Sized n) :
    attrs.foldl neighAttr ⟨fun _ => 0,fun _ => 0⟩ =
      ⟨zeroExtend ((lastOf NeighAttr.dst? attrs).getD []),
        zeroExtend ((lastOf NeighAttr.lladdr? attrs).getD [])⟩ := by
  induction attrs using List.reverseRecOn with
  | nil => rfl
  | append_singleton attrs a ih =>
    have hold : ∀ a ∈ attrs, a.Sized n := fun a ha => h a (by simp [ha])
    have ha : a.Sized n := h a (by simp)
    rw [List.foldl_append,List.foldl_cons,List.foldl_nil,ih hold]
    simp only [lastOf_append]
    cases a with
    | dst data =>
      have hlast : ∀ a ∈ attrs, ∀ old, a.dst? = some old → old.length = data.length :=
        fun a hm old hd => ((hold a hm).dst hd).trans ha.symm
      simp [neighAttr,copyIn_last hlast,NeighAttr.dst?,NeighAttr.lladdr?]
    | lladdr data =>
      have hlast : ∀ a ∈ attrs, ∀ old, a.lladdr? = some old → old.length = data.length :=
        fun a hm old hd => ((hold a hm).lladdr hd).trans ha.symm
      simp [neighAttr,copyIn_last hlast,NeighAttr.dst?,NeighAttr.lladdr?]
    | other => simp [neighAttr,NeighAttr.dst?,NeighAttr.lladdr?]

end

end Forwarder
end Ixmap
