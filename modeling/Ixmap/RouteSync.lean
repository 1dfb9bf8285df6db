import Ixmap.DriverRun
import Ixmap.FibRefine
import Ixmap.GuardedRun
import Ixmap.Netlink

/-! Route messages: what the forwarding tables hold after any sequence of netlink messages, against
a route map in which a new route replaces the one with its key. -/
namespace Ixmap
namespace Forwarder
open BlockHeap PrefixBits Lpm FibTable Neighbour GuardedRun

/-- What a route message says about a family, on the ports of the thread. -/
def RtMsg.meaning (t : Thread) (f : Family) (m : RtMsg) : AbsRoute where
  bits := prefixBits (zeroExtend ((lastOf RouteAttr.dst? m.attrs).getD [])) m.dstLen
  id := (lastOf RouteAttr.oif? m.attrs).getD (-1)
  type := if m.table = rtTableLocal then .local else linkType (lastOf RouteAttr.gateway? m.attrs)
  portIndex := portIndex t ((lastOf RouteAttr.oif? m.attrs).getD (-1))
  nexthop := (List.range f.size).map (zeroExtend ((lastOf RouteAttr.gateway? m.attrs).getD []))

/-- A route takes the place of the one with its key. -/
def upsert (s : AbsRoute) (routes : List AbsRoute) : List AbsRoute :=
  if routes.any (·.hasKey s.bits s.id) then routes.map fun s' => if s'.hasKey s.bits s.id then s else s'
  else s::routes

/-- The route map of a family after one more message. -/
def replay (t : Thread) (f : Family) (routes : List AbsRoute) : NlMsg → List AbsRoute
  | .newRoute m => if familyOf m.family = some f then upsert (m.meaning t f) routes else routes
  | .delRoute m =>
    if familyOf m.family = some f then
      routes.filter fun s => !s.hasKey (m.meaning t f).bits (m.meaning t f).id
    else routes
  | _ => routes

/-- A new route whose key is in the table says what the table already has under it. -/
def RouteUnchanged (t : Thread) : NlMsg → Prop
  | .newRoute m => ∀ f, familyOf m.family = some f → ∀ x ∈ entriesIn tableSize16 (t.fib f).table,
      HasKey (keysOf (t.fib f).desc) (routeArgs t m).id m.dstLen (routeArgs t m).pfx x.ptr →
      Says (routeArgs t m).abs ((t.fib f).desc.val x.ptr)
  | _ => True

variable {t t₀ : Thread} {f : Family} {m : RtMsg} {routes : List AbsRoute} {s : AbsRoute} {fib : Fib}

theorem routeArgs_abs (hm : m.Valid f) : (routeArgs t m).abs = m.meaning t f := by
  have hd := foldl_routeAttr m.attrs hm.sized
  have hsize : addrSize m.family = some f.size := by rw [hm.family,addrSize_af]
  by_cases hlocal : m.table = rtTableLocal
  · simp [routeArgs,routeLocals,hd,Route.abs,RtMsg.meaning,hsize,hlocal]
  · simp [routeArgs,routeLocals,hd,Route.abs,RtMsg.meaning,hsize,hlocal]

theorem routeArgs_valid (t : Thread) (hm : m.Valid f) : (routeArgs t m).Valid := by
  have hfam : (routeArgs t m).family = f.af := hm.family
  have hlen : (routeArgs t m).prefixLen ≤ 8*f.size := hm.len
  cases f with
  | inet => exact Or.inl ⟨hfam,hlen⟩
  | inet6 => exact Or.inr ⟨hfam,hlen⟩

theorem SamePorts.meaning_eq (h : SamePorts t₀ t) (f : Family) (m : RtMsg) :
    m.meaning t f = m.meaning t₀ f := by
  simp only [RtMsg.meaning,portIndex,h.findPort_eq]

theorem upsert_unchanged (h : ∀ s' ∈ routes, s'.hasKey s.bits s.id = true → s' = s) :
    ((AbsOp.update s).step routes).2 = upsert s routes := by
  by_cases hany : routes.any (·.hasKey s.bits s.id) = true
  · rw [AbsOp.step,upsert,if_pos hany,if_pos hany]
    have hid : routes.map (fun s' => if s'.hasKey s.bits s.id then s else s') = routes.map id := by
      apply List.map_congr_left
      intro s' hs'
      by_cases hk : s'.hasKey s.bits s.id = true
      · rw [if_pos hk,h s' hs' hk,id]
      · rw [if_neg hk,id]
    rw [hid,List.map_id]
  · rw [AbsOp.step,upsert,if_neg hany,if_neg hany]

theorem delete_eq_filter (routes : List AbsRoute) (bits : List Bool) (id : ℤ) :
    ((AbsOp.delete bits id).step routes).2 = routes.filter fun s => !s.hasKey bits id := by
  rw [AbsOp.step]
  split
  · rfl
  · rename_i hany
    symm
    apply List.filter_eq_self.mpr
    intro s hs
    have hno : s.hasKey bits id = false := by
      by_contra hk
      exact hany (List.any_eq_true.mpr ⟨s,hs,by simpa using hk⟩)
    simp [hno]

theorem rep_unchanged (h : Rep (t.fib f) routes) (hlen : ∀ s ∈ routes, s.nexthop.length = f.size)
    (hm : m.Valid f) (hsame : RouteUnchanged t (.newRoute m)) :
    ∀ s' ∈ routes, s'.hasKey (m.meaning t f).bits (m.meaning t f).id = true → s' = m.meaning t f := by
  intro s' hs' hk
  obtain ⟨x,hx,hsaid⟩ := h.exists_entry hs'
  have hbits : (m.meaning t f).bits = prefixBits (routeArgs t m).pfx m.dstLen := by
    rw [← routeArgs_abs hm]
    rfl
  have hid : (m.meaning t f).id = (routeArgs t m).id := by
    rw [← routeArgs_abs hm]
    rfl
  rw [hbits,hid] at hk
  have hmsg := hsame f (familyOf_eq.mpr hm.family) x hx (hsaid.hasKey_iff.mpr hk)
  rw [routeArgs_abs hm] at hmsg
  have hn : s'.nexthop.length = (m.meaning t f).nexthop.length := by
    rw [hlen s' hs']
    simp [RtMsg.meaning]
  rw [← hsaid,← hmsg,hn]
  rfl

/-- The table of a family holds the route map that the messages so far describe. -/
structure Synced (t₀ : Thread) (f : Family) (past : List NlMsg) (t : Thread) : Prop where
  ports : SamePorts t₀ t
  rep : Rep (t.fib f) (past.foldl (replay t₀ f) [])
  hops : ∀ s ∈ past.foldl (replay t₀ f) [], s.nexthop.length = f.size

theorem upsert_hops (hlen : ∀ s ∈ routes, s.nexthop.length = f.size) (hs : s.nexthop.length = f.size) :
    ∀ s' ∈ upsert s routes, s'.nexthop.length = f.size := by
  intro s' hs'
  unfold upsert at hs'
  split at hs'
  · obtain ⟨s₁,h1,rfl⟩ := List.mem_map.mp hs'
    split
    · exact hs
    · exact hlen s₁ h1
  · rcases List.mem_cons.mp hs' with rfl | hs'
    · exact hs
    · exact hlen s' hs'

/-- One message keeps the table in step with the route map. -/
theorem Synced.msg {past : List NlMsg} {msg : NlMsg} (h : Synced t₀ f past t) (hv : msg.Valid)
    (hsame : RouteUnchanged t msg) : Synced t₀ f (past++[msg]) (netlinkMsg t msg) := by
  have hports := h.ports.trans (samePorts_msg t msg)
  have hreplay : (past++[msg]).foldl (replay t₀ f) [] =
      replay t₀ f (past.foldl (replay t₀ f) []) msg := by
    rw [List.foldl_append,List.foldl_cons,List.foldl_nil]
  cases msg with
  | newRoute m =>
    by_cases hf : familyOf m.family = some f
    · have hm : m.Valid f := hv f hf
      have hmean := h.ports.meaning_eq f m
      have hfib : (netlinkMsg t (.newRoute m)).fib f = (fibRouteUpdate (t.fib f) (routeArgs t m)).2 := by
        rw [netlinkMsg,fib_netlinkRoute,if_pos hf,if_pos rfl]
      have hup := (h.rep.update (routeArgs_valid t hm)).2.1
      rw [routeArgs_abs hm,upsert_unchanged (rep_unchanged h.rep h.hops hm hsame),hmean] at hup
      refine ⟨hports,?_,?_⟩
      · rw [hreplay,replay,if_pos hf,hfib]
        exact hup
      · rw [hreplay,replay,if_pos hf]
        exact upsert_hops h.hops (by simp [RtMsg.meaning])
    · refine ⟨hports,?_,?_⟩
      · rw [hreplay,replay,if_neg hf,netlinkMsg,fib_netlinkRoute,if_neg hf]
        exact h.rep
      · rw [hreplay,replay,if_neg hf]
        exact h.hops
  | delRoute m =>
    by_cases hf : familyOf m.family = some f
    · have hm : m.Valid f := hv f hf
      have hmean := h.ports.meaning_eq f m
      have hfib : (netlinkMsg t (.delRoute m)).fib f =
          (fibRouteDelete (t.fib f) (routeArgs t m).pfx m.dstLen (routeArgs t m).id).2 := by
        rw [netlinkMsg,fib_netlinkRoute,if_pos hf]
        rfl
      have hdel := (h.rep.delete (routeArgs t m).pfx m.dstLen (routeArgs t m).id).2.1
      have hkey : prefixBits (routeArgs t m).pfx m.dstLen = (m.meaning t₀ f).bits ∧
          (routeArgs t m).id = (m.meaning t₀ f).id := by
        rw [← hmean,← routeArgs_abs hm]
        exact ⟨rfl,rfl⟩
      rw [delete_eq_filter,hkey.1,hkey.2] at hdel
      refine ⟨hports,?_,?_⟩
      · rw [hreplay,replay,if_pos hf,hfib,hkey.2]
        exact hdel
      · rw [hreplay,replay,if_pos hf]
        intro s hs
        exact h.hops s (List.mem_filter.mp hs).1
    · refine ⟨hports,?_,?_⟩
      · rw [hreplay,replay,if_neg hf,netlinkMsg,fib_netlinkRoute,if_neg hf]
        exact h.rep
      · rw [hreplay,replay,if_neg hf]
        exact h.hops
  | newNeigh m =>
    refine ⟨hports,?_,hreplay ▸ h.hops⟩
    rw [hreplay,netlinkMsg,fib_netlinkNeigh]
    exact h.rep
  | delNeigh m =>
    refine ⟨hports,?_,hreplay ▸ h.hops⟩
    rw [hreplay,netlinkMsg,fib_netlinkNeigh]
    exact h.rep
  | unknown => exact ⟨hports,hreplay ▸ h.rep,hreplay ▸ h.hops⟩

theorem Synced.unchanged {past : List NlMsg} (h : Synced t₀ f past t) (hm : m.Valid f)
    (hmap : ∀ s ∈ past.foldl (replay t₀ f) [],
      s.hasKey (m.meaning t₀ f).bits (m.meaning t₀ f).id = true → s = m.meaning t₀ f) :
    RouteUnchanged t (.newRoute m) := by
  intro g hg x hx hkey
  have hgf : g = f := by
    rw [familyOf_eq.mpr hm.family,Option.some_inj] at hg
    exact hg.symm
  subst hgf
  obtain ⟨-,R,hI,hf⟩ := h.rep
  obtain ⟨s,hs,hsaid⟩ := forall₂_mem_left hf (hI.below.ptr_mem hx)
  have habs : (routeArgs t m).abs = m.meaning t₀ g := by
    rw [routeArgs_abs hm,h.ports.meaning_eq]
  have hk := hsaid.hasKey_iff.mp hkey
  rw [show prefixBits (routeArgs t m).pfx m.dstLen = (routeArgs t m).abs.bits from rfl,
    show (routeArgs t m).id = (routeArgs t m).abs.id from rfl,habs] at hk
  rw [habs,← hmap s hs hk]
  exact hsaid

/-- The tables of a thread before any message, with memory for every request. -/
def EmptyFibs (t : Thread) : Prop := ∀ f, ∃ v, fibAlloc (Heap.init (fun _ => true) v) = some (t.fib f)

theorem EmptyFibs.synced (h : EmptyFibs t) (f : Family) : Synced t f [] t := by
  obtain ⟨v,hv⟩ := h f
  obtain ⟨fib,hfib,hrep⟩ := rep_init v
  rw [hv,Option.some_inj] at hfib
  subst hfib
  exact ⟨⟨rfl,rfl,rfl⟩,hrep,by simp⟩

/-- Lookups follow the route map as long as no message changes a route that the table holds. -/
theorem route_sync (t : Thread) (msgs : List NlMsg) (hempty : EmptyFibs t) (hvalid : ∀ msg ∈ msgs, msg.Valid)
    (hrun : Meets netlinkMsg RouteUnchanged t msgs) (f : Family) (dst : Bytes) :
    match fibLookup ((netlinkProcess t msgs).fib f) dst with
    | none => ∀ s ∈ msgs.foldl (replay t f) [], s.covers dst = false
    | some p => ∃ s, Says s (((netlinkProcess t msgs).fib f).desc.val p) ∧
        IsBest (msgs.foldl (replay t f) []) dst s := by
  have h := hrun.history (I := fun past t' => Synced t f past t') [] (hempty.synced f)
    fun past t' msg hmsg hs hC => hs.msg (hvalid msg hmsg) hC
  exact h.rep.lookup dst

def onePort : Thread where
  plane := Driver.initPlane Driver.smallConfig
  neighInet _ := ⟨0,⟨fun _ => [],NeighEntry.dstAddr,neighEntryDelete,neighKeyGenerateV4,neighKeyCompareV4⟩,
    (Heap.init (fun _ => true) fun _ => default).alloc.2⟩
  neighInet6 _ := ⟨0,⟨fun _ => [],NeighEntry.dstAddr,neighEntryDelete,neighKeyGenerateV6,neighKeyCompareV6⟩,
    (Heap.init (fun _ => true) fun _ => default).alloc.2⟩
  fibInet := ⟨0,lpmInit,(Heap.init (fun _ => true) fun _ => default).alloc.2⟩
  fibInet6 := ⟨0,lpmInit,(Heap.init (fun _ => true) fun _ => default).alloc.2⟩
  tunPlane _ := ⟨5,2⟩
  numPorts := 1
  mem _ := 0
  tap := []

def viaGateway (host : UInt8) : RtMsg := ⟨afInet,16,254,[.dst [10,0,0,0],.gateway [10,0,0,host],.oif 2]⟩

theorem viaGateway_family {host : UInt8} (hf : familyOf (viaGateway host).family = some f) : f = .inet := by
  have h : familyOf afInet = some f := hf
  rw [show familyOf afInet = some .inet from rfl,Option.some_inj] at h
  exact h.symm

theorem viaGateway_valid (host : UInt8) : NlMsg.Valid (.newRoute (viaGateway host)) := by
  intro f hf
  obtain rfl := viaGateway_family hf
  refine ⟨rfl,show 16 ≤ 8*4 by decide,?_⟩
  simp [viaGateway,RouteAttr.Sized,Family.size]

theorem onePort_emptyFibs : EmptyFibs onePort := by
  intro f
  cases f <;> exact ⟨_,rfl⟩

/-- Over an empty table: a route is announced twice, deleted and announced through another gateway. -/
theorem route_sync_rebound :
    let msgs := [NlMsg.newRoute (viaGateway 1),.newRoute (viaGateway 1),.delRoute (viaGateway 1),
      .newRoute (viaGateway 2)]
    EmptyFibs onePort ∧ (∀ msg ∈ msgs, msg.Valid) ∧ Meets netlinkMsg RouteUnchanged onePort msgs ∧
      ∀ dst, match fibLookup ((netlinkProcess onePort msgs).fib .inet) dst with
        | none => (AbsRoute.covers ((viaGateway 2).meaning onePort .inet) dst) = false
        | some p => Says ((viaGateway 2).meaning onePort .inet)
            (((netlinkProcess onePort msgs).fib .inet).desc.val p) := by
  intro msgs
  have hv1 := viaGateway_valid 1
  have hvalid : ∀ msg ∈ msgs, msg.Valid := by
    simp only [msgs,List.forall_mem_cons]
    exact ⟨hv1,hv1,hv1,viaGateway_valid 2,by simp⟩
  -- the route map stays empty or holds the one route, so each announcement finds what it says
  have hrun : Meets netlinkMsg RouteUnchanged onePort msgs := by
    have h0 := onePort_emptyFibs.synced .inet
    have u0 := h0.unchanged (hv1 .inet rfl) (by decide)
    have h1 := h0.msg hv1 u0
    have u1 := h1.unchanged (hv1 .inet rfl) (by decide)
    have h3 := (h1.msg hv1 u1).msg (show NlMsg.Valid (.delRoute (viaGateway 1)) from hv1) trivial
    exact ⟨u0,u1,trivial,h3.unchanged (viaGateway_valid 2 .inet rfl) (by decide),trivial⟩
  refine ⟨onePort_emptyFibs,hvalid,hrun,?_⟩
  intro dst
  have h := route_sync onePort msgs onePort_emptyFibs hvalid hrun .inet dst
  have hmap : msgs.foldl (replay onePort .inet) [] = [(viaGateway 2).meaning onePort .inet] := rfl
  rw [hmap] at h
  split
  · rename_i hl
    rw [hl] at h
    exact h _ (by simp)
  · rename_i p hl
    rw [hl] at h
    obtain ⟨s,hs,hbest⟩ := h
    have hmem := StableOrder.IsNewestLargest.mem hbest
    rw [List.mem_filter,List.mem_singleton] at hmem
    rwa [← hmem.1]

/-- A new gateway for a route in the table is ignored: the lookup returns the old one. -/
theorem gateway_change_ignored :
    let msgs := [NlMsg.newRoute (viaGateway 1),NlMsg.newRoute (viaGateway 2)]
    let fib := (netlinkProcess onePort msgs).fib .inet
    fibLookup fib (zeroExtend [10,0,0,9]) = some 1 ∧
      ((fib.desc.val 1).abs 4).nexthop = [10,0,0,1] ∧
      (msgs.foldl (replay onePort .inet) []).map AbsRoute.nexthop = [[10,0,0,2]] := by
  refine ⟨?_,?_,?_⟩
  · decide
  · decide
  · decide

end Forwarder
end Ixmap
