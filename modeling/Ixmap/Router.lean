import Ixmap.FibExhaustion
import Ixmap.Forward
import Ixmap.NeighSync

/-! Forwarding against a reference router, in every state of the tables that netlink messages
reach. Blocks are numbered in the order they are created, so the newest route is the one in the
block with the largest number. -/
namespace Ixmap
namespace Forwarder
open BlockHeap PrefixBits Lpm FibTable Neighbour Hash GuardedRun StableOrder

def Carries (fib : Fib) (p : ℕ) : Prop := ∃ x ∈ entriesIn tableSize16 fib.table, x.ptr = p

def CoversDst (fib : Fib) (dst : Bytes) (p : ℕ) : Prop :=
  Agree (fib.desc.val p).pfx dst (fib.desc.val p).prefixLen

/-- The longest route that covers the destination, the newest among equals. -/
structure BestRoute (fib : Fib) (dst : Bytes) (p : ℕ) : Prop where
  carried : Carries fib p
  covers : CoversDst fib dst p
  best : ∀ q, Carries fib q → CoversDst fib dst q →
    (fib.desc.val q).prefixLen < (fib.desc.val p).prefixLen ∨
      ((fib.desc.val q).prefixLen = (fib.desc.val p).prefixLen ∧ q ≤ p)

def Binds (neigh : NeighTable) (size : ℕ) (a : Bytes) (mac : Mac) : Prop :=
  ∃ e, neigh.table.Has e ∧ EqBytes size a (neigh.desc.val e).dstAddr ∧ (neigh.desc.val e).dstMac = mac

/-- Whose link-layer address a route asks for. -/
def target (e : FibEntry) (dst : Bytes) : Bytes :=
  match e.type with
  | .forward => e.nexthop
  | _ => dst

/-- What a router does with a frame for `dst`. -/
inductive Routes (t : Thread) (f : Family) (dst : Bytes) (ttl : UInt8) : Verdict → Prop where
  | unrouted : (∀ p, Carries (t.fib f) p → ¬ CoversDst (t.fib f) dst p) → Routes t f dst ttl .drop
  | unreachable {p : ℕ} : BestRoute (t.fib f) dst p →
      ((t.fib f).desc.val p).portIndex = -1 ∨ ((t.fib f).desc.val p).type = .local →
      Routes t f dst ttl .toTap
  | unresolved {p port : ℕ} : BestRoute (t.fib f) dst p → ((t.fib f).desc.val p).portIndex = port →
      (∀ mac, ¬ Binds (t.neigh f port) f.size (target ((t.fib f).desc.val p) dst) mac) →
      Routes t f dst ttl .toTap
  | expired {p : ℕ} : BestRoute (t.fib f) dst p → ttl = 1 → Routes t f dst ttl .toTap
  | forwarded {p port : ℕ} {mac : Mac} : BestRoute (t.fib f) dst p →
      ((t.fib f).desc.val p).portIndex = port → ((t.fib f).desc.val p).type ≠ .local →
      Binds (t.neigh f port) f.size (target ((t.fib f).desc.val p) dst) mac → ttl ≠ 1 →
      Routes t f dst ttl (.via port mac)

/-- What becomes of a frame whose header has its TTL at `ttlAt` and a checksum at `sum`. -/
inductive Delivers (t : Thread) (ingress : ℕ) (packet : Driver.Packet) (ttlAt : ℕ) (sum : ℕ → Prop) :
    Verdict → ℤ × Thread → Prop where
  | drop : Delivers t ingress packet ttlAt sum .drop (-1,t)
  | toTap : Delivers t ingress packet ttlAt sum .toTap
      (-1,{ t with tap := t.tap ++ [((t.tunPlane ingress).fd,frame t.mem packet)] })
  | via {port : ℕ} {mac : Mac} {mem : Bytes} : port < t.numPorts →
      (∀ i : Fin 6, mem (packet.slotBuf+i) = mac i) →
      (∀ i < 6, mem (packet.slotBuf+6+i) = (t.plane.ports port).macAddr.getD i 0) →
      (mem ttlAt).toNat+1 = (t.mem ttlAt).toNat →
      (∀ k, ¬ (packet.slotBuf ≤ k ∧ k < packet.slotBuf+12) → k ≠ ttlAt → ¬ sum k → mem k = t.mem k) →
      Delivers t ingress packet ttlAt sum (.via port mac) (port,{ t with mem })

/-- The routes of a table are numbered by age and name one of `numPorts` ports, or none. -/
def FibOk (numPorts : ℕ) (fib : Fib) : Prop :=
  ∃ R, FibInv ∅ fib R ∧ R.Pairwise (· > ·) ∧
    ∀ p ∈ R, -1 ≤ (fib.desc.val p).portIndex ∧ (fib.desc.val p).portIndex < numPorts

/-- The invariant of the tables. -/
structure TablesInv (t : Thread) : Prop where
  fibs : ∀ f, FibOk t.numPorts (t.fib f)
  neighs : ∀ f port, port < t.numPorts → NeighInv f.size (t.neigh f port)

variable {t : Thread} {f : Family} {fib : Fib} {R : List ℕ} {dst : Bytes} {ttl : UInt8} {p : ℕ} {S : Set ℕ}

theorem carries_iff (hI : FibInv S fib R) : Carries fib p ↔ p ∈ R := by
  constructor
  · rintro ⟨x,hx,rfl⟩
    exact hI.below.ptr_mem hx
  · exact hI.exists_entry

theorem lookup_best (hI : FibInv S fib R) (hage : R.Pairwise (· > ·)) (dst : Bytes) :
    match fibLookup fib dst with
    | none => ∀ p, Carries fib p → ¬ CoversDst fib dst p
    | some p => BestRoute fib dst p := by
  have hl : fibLookup fib dst =
      (sortDesc (keysOf fib.desc).len (R.filter fun p => Covers (keysOf fib.desc) dst p)).head? :=
    lookup_spec (hI.root dst)
  rw [hl]
  split
  · rename_i hnone
    rw [List.head?_eq_none_iff,sortDesc_eq_nil] at hnone
    intro p hp hc
    have := List.filter_eq_nil_iff.mp hnone p ((carries_iff hI).mp hp)
    exact this (decide_eq_true hc)
  · rename_i p hsome
    obtain ⟨newer,older,hsplit,hnew,hold⟩ := head?_sortDesc _ hsome
    have hmem : ∀ q, q ∈ newer ++ p::older ↔ Carries fib q ∧ CoversDst fib dst q := by
      intro q
      rw [← hsplit,List.mem_filter,decide_eq_true_iff,carries_iff hI]
      rfl
    have hsorted : (newer ++ p::older).Pairwise (· > ·) := hsplit ▸ hage.filter _
    have hself := (hmem p).mp (by simp)
    refine ⟨hself.1,hself.2,?_⟩
    intro q hq hc
    rcases List.mem_append.mp ((hmem q).mpr ⟨hq,hc⟩) with hq | hq
    · exact Or.inl (hnew q hq)
    · rcases List.mem_cons.mp hq with rfl | hq
      · exact Or.inr ⟨rfl,le_rfl⟩
      · have hlt := (List.pairwise_cons.mp (List.pairwise_append.mp hsorted).2.1).1 q hq
        rcases (hold q hq).lt_or_eq with hlen | hlen
        · exact Or.inl hlen
        · exact Or.inr ⟨hlen,le_of_lt hlt⟩

theorem binds_iff {size : ℕ} {neigh : NeighTable} {a : Bytes} {mac : Mac}
    (hI : NeighInv size neigh) : Binds neigh size a mac ↔ neighMac neigh a = some mac := hI.mac_iff.symm

/-- Routes that are not local differ in the address whose neighbour they need. -/
theorem selectNeigh_target (neigh : NeighTable) {e : FibEntry} (dst : Bytes) (h : e.type ≠ .local) :
    selectNeigh neigh e dst = neighLookup neigh (target e dst) := by
  unfold selectNeigh target
  cases htype : e.type with
  | «local» => exact absurd htype h
  | link => rfl
  | forward => rfl

theorem lookupRec_mem {node : LpmNode} {offset : ℕ} {head : List LpmEntry} {x : LpmEntry}
    (ho : offset%8 = 0) (h : lpmLookupRec dst node offset = some head) (hx : x ∈ head) :
    x ∈ entriesOf node := by
  induction node generalizing offset with
  | leaf list => simp [lpmLookupRec] at h
  | branch list table next ih =>
    have hlt : lpmIndex dst offset 8 < tableSize8 := by
      rw [lpmIndex_octet ho]
      exact field_lt _ _ _
    rw [lpmLookupRec] at h
    cases hrec : lpmLookupRec dst (next (lpmIndex dst offset 8)) (offset+8) with
    | some found =>
      rw [hrec,Option.some_inj] at h
      subst h
      exact mem_branch hlt (ih _ (by omega) hrec)
    | none =>
      simp only [hrec,Option.ite_none_left_eq_some,Option.some_inj] at h
      exact mem_branch hlt (head_le_entriesOf _ (h.2 ▸ hx))

/-- Whatever state a table is in, a lookup returns one of its routes. -/
theorem carries_of_lookup (h : fibLookup fib dst = some p) : Carries fib p := by
  obtain ⟨x,hx,rfl⟩ := Option.map_eq_some_iff.mp h
  have hlt : lpmIndex dst 0 16 < tableSize16 := by
    rw [lpmIndex_root]
    exact tableSize16_eq ▸ field_lt _ 0 16
  refine ⟨x,mem_entriesIn.mpr ⟨_,hlt,?_⟩,rfl⟩
  simp only [lpmLookup] at hx
  cases hrec : lpmLookupRec dst (fib.table (lpmIndex dst 0 16)) 16 with
  | some head =>
    rw [hrec] at hx
    exact lookupRec_mem rfl hrec (List.mem_of_head? hx)
  | none =>
    rw [hrec] at hx
    exact head_le_entriesOf _ (List.mem_of_head? hx)

theorem forwardLookup_routes (hI : TablesInv t) (f : Family) (dst : Bytes) (ttl : UInt8) :
    Routes t f dst ttl (forwardLookup t f dst ttl) ∧
      ∀ port mac, forwardLookup t f dst ttl = .via port mac → port < t.numPorts ∧ ttl ≠ 1 := by
  obtain ⟨R,hfib,hage,hports⟩ := hI.fibs f
  have hbest := lookup_best hfib hage dst
  unfold forwardLookup
  cases hl : fibLookup (t.fib f) dst with
  | none =>
    rw [hl] at hbest
    exact ⟨.unrouted hbest,by simp⟩
  | some p =>
    rw [hl] at hbest
    have hbest : BestRoute (t.fib f) dst p := hbest
    obtain ⟨hlow,hhigh⟩ := hports p ((carries_iff hfib).mp hbest.carried)
    dsimp only
    by_cases hneg : ((t.fib f).desc.val p).portIndex < 0
    · rw [if_pos hneg]
      exact ⟨.unreachable hbest (Or.inl (by omega)),by simp⟩
    rw [if_neg hneg]
    obtain ⟨port,hport⟩ : ∃ port : ℕ, ((t.fib f).desc.val p).portIndex = port :=
      ⟨_,(Int.toNat_of_nonneg (by omega)).symm⟩
    have hlt : port < t.numPorts := by omega
    rw [hport,Int.toNat_natCast]
    have hneigh := hI.neighs f port hlt
    by_cases hlocal : ((t.fib f).desc.val p).type = .local
    · have hsel : selectNeigh (t.neigh f port) ((t.fib f).desc.val p) dst = none := by
        simp only [selectNeigh,hlocal]
      rw [hsel]
      exact ⟨.unreachable hbest (Or.inr hlocal),by simp⟩
    have hsel := selectNeigh_target (t.neigh f port) dst hlocal
    rw [hsel]
    cases hn : neighLookup (t.neigh f port) (target ((t.fib f).desc.val p) dst) with
    | none =>
      refine ⟨.unresolved hbest hport ?_,by simp⟩
      intro mac hbind
      rw [binds_iff hneigh,neighMac,hn] at hbind
      simp at hbind
    | some e =>
      dsimp only
      by_cases hone : ttl = 1
      · rw [if_pos hone]
        exact ⟨.expired hbest hone,by simp⟩
      · rw [if_neg hone]
        refine ⟨.forwarded hbest hport hlocal ?_ hone,?_⟩
        · rw [binds_iff hneigh,neighMac,hn]
          rfl
        · intro port' mac hv
          rw [Verdict.via.injEq] at hv
          exact ⟨hv.1 ▸ hlt,hone⟩

/-- No allocation fails between the list entries of a new route. -/
def NoMidFailure (t : Thread) : NlMsg → Prop
  | .newRoute m => ∀ f, familyOf m.family = some f → ¬ MidFailure (t.fib f) (routeArgs t m)
  | _ => True

theorem FibOk.step {numPorts : ℕ} (h : FibOk numPorts fib) (op : FibOp) (hfit : op.Fits)
    (hun : Unstranded fib op)
    (hport : ∀ r, op = .update r → -1 ≤ r.portIndex ∧ r.portIndex < numPorts) :
    FibOk numPorts (op.next fib) := by
  obtain ⟨R,hI,hage,hports⟩ := h
  obtain ⟨R',hI',hev⟩ := hI.step op hfit (by
    rintro r rfl hm
    refine ⟨rfl,?_⟩
    by_contra hlt
    exact hun ⟨by omega,hm⟩)
  refine ⟨R',hI',?_⟩
  -- the port of a route is part of its key
  have hsame : ∀ p, (keysOf (op.next fib).desc).entry p = (keysOf fib.desc).entry p →
      ((op.next fib).desc.val p).portIndex = (fib.desc.val p).portIndex := by
    intro p he
    simpa [keysOf] using congrArg FibEntry.portIndex he
  cases hev with
  | @added r size hop hsize hkeys =>
    refine ⟨List.pairwise_cons.mpr ⟨fun q hq => ?_,hage⟩,?_⟩
    · by_contra hge
      obtain ⟨c,-,hb⟩ := hI.books
      have hdead := hb.owns.fresh q (by omega)
      rw [hI.live hq] at hdead
      exact Bool.noConfusion hdead
    · intro p hp
      rcases List.mem_cons.mp hp with rfl | hp
      · have hval : ((op.next fib).desc.val fib.desc.calls).portIndex = r.portIndex := by
          have := congrArg (fun K => (K.entry fib.desc.calls).portIndex) hkeys
          simpa [keysOf,prepared_self,initEntry] using this
        rw [hval]
        exact hport r hop
      · rw [hsame p (by rw [hkeys,hI.prepared_same hp])]
        exact hports p hp
  | kept hsub hroutes =>
    refine ⟨hage.sublist hsub,?_⟩
    intro p hp
    rw [hsame p (hroutes p hp)]
    exact hports p (hsub.subset hp)

theorem portIndex_bounds (t : Thread) (ifindex : ℤ) :
    -1 ≤ portIndex t ifindex ∧ portIndex t ifindex < t.numPorts := by
  unfold portIndex
  cases hp : findPort t ifindex with
  | none =>
    dsimp only
    omega
  | some i =>
    have hi := List.mem_range.mp (List.mem_of_find?_eq_some hp)
    dsimp only
    omega

theorem TablesInv.route {m : RtMsg} (hI : TablesInv t) (isNew : Bool)
    (hv : ∀ f, familyOf m.family = some f → m.Valid f)
    (hun : isNew = true → NoMidFailure t (.newRoute m)) : TablesInv (netlinkRoute t isNew m) := by
  have hports := samePorts_route t isNew m
  refine ⟨?_,?_⟩
  · intro f
    rw [hports.num,fib_netlinkRoute]
    by_cases hf : familyOf m.family = some f
    · rw [if_pos hf]
      cases isNew with
      | true =>
        rw [if_pos rfl]
        refine (hI.fibs f).step (.update (routeArgs t m)) ?_ (fun hm => hun rfl f hf hm.2) ?_
        · have hm := hv f hf
          have hsize : addrSize (routeArgs t m).family = some f.size := by
            rw [show (routeArgs t m).family = m.family from rfl,hm.family,addrSize_af]
          simp only [FibOp.Fits,Route.Fits,hsize]
          exact hm.len
        · intro r hr
          rw [FibOp.update.injEq] at hr
          subst hr
          exact portIndex_bounds t _
      | false =>
        exact (hI.fibs f).step
          (.delete (routeArgs t m).pfx (routeArgs t m).prefixLen (routeArgs t m).id)
          trivial trivial (by simp)
    · rw [if_neg hf]
      exact hI.fibs f
  · intro f port hp
    rw [neigh_netlinkRoute]
    exact hI.neighs f port (hports.num ▸ hp)

theorem TablesInv.neigh {m : NdMsg} (hI : TablesInv t) (isNew : Bool)
    (hv : ∀ f, familyOf m.family = some f → m.Valid f) : TablesInv (netlinkNeigh t isNew m) := by
  have hports := samePorts_neigh t isNew m
  refine ⟨?_,?_⟩
  · intro f
    rw [hports.num,fib_netlinkNeigh]
    exact hI.fibs f
  · intro f port hp
    rw [neigh_netlinkNeigh]
    have hold := hI.neighs f port (hports.num ▸ hp)
    by_cases hc : familyOf m.family = some f ∧ findPort t m.ifindex = some port
    · have hsize : addrSize m.family = some f.size := by rw [(hv f hc.1).family,addrSize_af]
      rw [if_pos hc]
      cases isNew with
      | true => exact (hold.add hsize _ _).1
      | false => exact (hold.remove _).1
    · rw [if_neg hc]
      exact hold

theorem TablesInv.step {msg : NlMsg} (hI : TablesInv t) (hv : msg.Valid) (hun : NoMidFailure t msg) :
    TablesInv (netlinkMsg t msg) := by
  cases msg with
  | newRoute m => exact hI.route true hv fun _ => hun
  | delRoute m => exact hI.route false hv (by simp)
  | newNeigh m => exact hI.neigh true hv
  | delNeigh m => exact hI.neigh false hv
  | unknown => exact hI

/-- The tables that a thread sets up, with any outcome of later allocations. -/
structure EmptyTables (t : Thread) : Prop where
  fibs : ∀ f, ∃ ok v, fibAlloc (Heap.init ok v) = some (t.fib f)
  neighs : ∀ f port, port < t.numPorts → ∃ ok v, neighAlloc (Heap.init ok v) f.af = some (t.neigh f port)

theorem EmptyTables.inv (h : EmptyTables t) : TablesInv t := by
  refine ⟨?_,?_⟩
  · intro f
    obtain ⟨ok,v,hf⟩ := h.fibs f
    exact ⟨[],FibInv.of_alloc ∅ hf,List.Pairwise.nil,by simp⟩
  · intro f port hp
    obtain ⟨ok,v,hn⟩ := h.neighs f port hp
    exact (neighAlloc_inv (addrSize_af f) hn).1

/-- A frame whose TTL was decremented at `ttlAt`, outside the Ethernet header, and whose other bytes
changed at most where `sum` says. -/
theorem delivers_via {packet : Driver.Packet} {ingress port ttlAt : ℕ} {mac : Mac} {mem : Bytes} {sum : ℕ → Prop}
    (hport : port < t.numPorts) (hout : packet.slotBuf+12 ≤ ttlAt) (hpos : t.mem ttlAt ≠ 0)
    (httl : mem ttlAt = t.mem ttlAt-1) (hrest : ∀ k, k ≠ ttlAt → ¬ sum k → mem k = t.mem k) :
    Delivers t ingress packet ttlAt sum (.via port mac)
      (port,{ t with mem := writeMacs t mem packet.slotBuf port mac }) := by
  obtain ⟨hdst,hsrc,hkeep⟩ := writeMacs_spec t mem packet.slotBuf port mac
  refine .via hport hdst hsrc ?_ ?_
  · rw [hkeep ttlAt (by omega),httl]
    exact pred_toNat hpos
  · intro k hk hne hs
    rw [hkeep k hk,hrest k hne hs]

theorem forwardIp_delivers (hI : TablesInv t) (host : Endian) (ingress : ℕ) (packet : Driver.Packet)
    (hpos : t.mem (packet.slotBuf+22) ≠ 0) :
    ∃ v, Routes t .inet (fun k => t.mem (packet.slotBuf+30+k)) (t.mem (packet.slotBuf+22)) v ∧
      Delivers t ingress packet (packet.slotBuf+22)
        (fun k => k = packet.slotBuf+24 ∨ k = packet.slotBuf+25) v
        (forwardIpProcess host t ingress packet) := by
  obtain ⟨hroutes,hvia⟩ := forwardLookup_routes hI .inet
    (fun k => t.mem (packet.slotBuf+30+k)) (t.mem (packet.slotBuf+22))
  refine ⟨_,hroutes,?_⟩
  unfold forwardIpProcess
  cases hv : forwardLookup t .inet (fun k => t.mem (packet.slotBuf+30+k)) (t.mem (packet.slotBuf+22)) with
  | drop =>
    simp only [hv]
    exact .drop
  | toTap =>
    simp only [hv]
    exact .toTap
  | via port mac =>
    simp only [hv]
    refine delivers_via (hvia port mac hv).1 (by omega) hpos (patchIp_ttl host t.mem _) ?_
    intro k hk hs
    exact patchIp_outside host t.mem _ k hk hs

theorem forwardIp6_delivers (hI : TablesInv t) (ingress : ℕ) (packet : Driver.Packet)
    (hll : isLinkLocal (fun k => t.mem (packet.slotBuf+38+k)) = false)
    (hpos : t.mem (packet.slotBuf+21) ≠ 0) :
    ∃ v, Routes t .inet6 (fun k => t.mem (packet.slotBuf+38+k)) (t.mem (packet.slotBuf+21)) v ∧
      Delivers t ingress packet (packet.slotBuf+21) (fun _ => False) v
        (forwardIp6Process t ingress packet) := by
  obtain ⟨hroutes,hvia⟩ := forwardLookup_routes hI .inet6
    (fun k => t.mem (packet.slotBuf+38+k)) (t.mem (packet.slotBuf+21))
  refine ⟨_,hroutes,?_⟩
  unfold forwardIp6Process
  rw [if_neg (by simpa using hll)]
  cases hv : forwardLookup t .inet6 (fun k => t.mem (packet.slotBuf+38+k)) (t.mem (packet.slotBuf+21)) with
  | drop =>
    dsimp only
    exact .drop
  | toTap =>
    dsimp only
    exact .toTap
  | via port mac =>
    dsimp only
    refine delivers_via (hvia port mac hv).1 (by omega) hpos (Function.update_self _ _ _) ?_
    intro k hk _
    exact Function.update_of_ne hk _ _

/-- `fe80::`, the network of link-local addresses, has a prefix of 10 bits. -/
def linkLocalNet : Bytes := zeroExtend [0xfe,0x80]

theorem eq_fe_bits (x : UInt8) : (x == 0xfe) = true ↔ ∀ i < 8, x.toNat.testBit (7-i) = (254 : ℕ).testBit (7-i) := by
  have h : ∀ n < 256, (UInt8.ofNat n == 0xfe) = true ↔ ∀ i < 8, n.testBit (7-i) = (254 : ℕ).testBit (7-i) := by
    decide +kernel
  have := h x.toNat x.toNat_lt
  rwa [UInt8.ofNat_toNat] at this

theorem mask_c0_bits (x : UInt8) :
    (x &&& 0xc0 == 0x80) = true ↔ ∀ i < 2, x.toNat.testBit (7-i) = (128 : ℕ).testBit (7-i) := by
  have h : ∀ n < 256, (UInt8.ofNat n &&& 0xc0 == 0x80) = true ↔
      ∀ i < 2, n.testBit (7-i) = (128 : ℕ).testBit (7-i) := by
    decide +kernel
  have := h x.toNat x.toNat_lt
  rwa [UInt8.ofNat_toNat] at this

theorem isLinkLocal_iff (a : Bytes) : isLinkLocal a = true ↔ Agree a linkLocalNet 10 := by
  rw [isLinkLocal,Bool.and_eq_true,eq_fe_bits,mask_c0_bits]
  constructor
  · rintro ⟨h0,h1⟩ i hi
    by_cases hlt : i < 8
    · have hdiv : i/8 = 0 := by omega
      have hmod : i%8 = i := by omega
      rw [bit,bit,hdiv,hmod,h0 i hlt]
      rfl
    · have hdiv : i/8 = 1 := by omega
      have hmod : i%8 = i-8 := by omega
      rw [bit,bit,hdiv,hmod,h1 (i-8) (by omega)]
      rfl
  · intro h
    constructor
    · intro i hi
      have hb := h i (by omega)
      rwa [bit,bit,show i/8 = 0 by omega,show i%8 = i by omega] at hb
    · intro i hi
      have hb := h (8+i) (by omega)
      rwa [bit,bit,show (8+i)/8 = 1 by omega,show (8+i)%8 = i by omega] at hb

/-- Forwarding agrees with the reference router in every state of the tables that messages reach, as
long as no allocation failed between the list entries of a route. -/
theorem forward_reference (t₀ : Thread) (msgs : List NlMsg) (hempty : EmptyTables t₀)
    (hvalid : ∀ msg ∈ msgs, msg.Valid) (hrun : Meets netlinkMsg NoMidFailure t₀ msgs)
    (host : Endian) (ingress : ℕ) (packet : Driver.Packet) :
    let t := netlinkProcess t₀ msgs
    let dst6 := fun k => t.mem (packet.slotBuf+38+k)
    (t.mem (packet.slotBuf+22) ≠ 0 →
      ∃ v, Routes t .inet (fun k => t.mem (packet.slotBuf+30+k)) (t.mem (packet.slotBuf+22)) v ∧
        Delivers t ingress packet (packet.slotBuf+22)
          (fun k => k = packet.slotBuf+24 ∨ k = packet.slotBuf+25) v
          (forwardIpProcess host t ingress packet)) ∧
    (Agree dst6 linkLocalNet 10 → forwardIp6Process t ingress packet =
      (-1,{ t with tap := t.tap ++ [((t.tunPlane ingress).fd,frame t.mem packet)] })) ∧
    (¬ Agree dst6 linkLocalNet 10 → t.mem (packet.slotBuf+21) ≠ 0 →
      ∃ v, Routes t .inet6 dst6 (t.mem (packet.slotBuf+21)) v ∧
        Delivers t ingress packet (packet.slotBuf+21) (fun _ => False) v
          (forwardIp6Process t ingress packet)) := by
  intro t dst6
  have hI : TablesInv t := hrun.invariant hempty.inv
    fun t msg hmsg hI hun => hI.step (hvalid msg hmsg) hun
  refine ⟨forwardIp_delivers hI host ingress packet,?_,?_⟩
  · intro hll
    unfold forwardIp6Process
    rw [if_pos ((isLinkLocal_iff _).mpr hll)]
    rfl
  · intro hll
    apply forwardIp6_delivers hI ingress packet
    rw [← Bool.not_eq_true,isLinkLocal_iff]
    exact hll

def onePortMsgs : List NlMsg := [.newRoute (viaGateway 9),.newNeigh (neighbour 1)]

def loaded : Thread := { onePort with
  mem := fun k => if k = 12 then 8 else if k = 22 then 64 else if k = 30 then 10 else if k = 33 then 5 else 0 }

theorem loaded_empty : EmptyTables loaded := by
  refine ⟨?_,?_⟩
  · intro f
    cases f <;> exact ⟨fun _ => true,fun _ => default,rfl⟩
  · intro f port _
    cases f <;> exact ⟨fun _ => true,fun _ => default,rfl⟩

theorem onePortMsgs_valid : ∀ msg ∈ onePortMsgs, msg.Valid := by
  simpa [onePortMsgs] using ⟨viaGateway_valid 9,neighbour_valid 1⟩

theorem onePortMsgs_noMidFailure : Meets netlinkMsg NoMidFailure loaded onePortMsgs := by
  refine ⟨?_,trivial,trivial⟩
  rintro f hf ⟨-,-,k,-,-,-,hfail⟩
  obtain rfl := viaGateway_family hf
  exact Bool.noConfusion (show true = false from hfail)

/-- The frame is forwarded by its only port. -/
theorem forward_reference_loaded : EmptyTables loaded ∧ (∀ msg ∈ onePortMsgs, msg.Valid) ∧
    ∃ mac, Routes (netlinkProcess loaded onePortMsgs) .inet
      (fun k => (netlinkProcess loaded onePortMsgs).mem (30+k)) 64 (.via 0 mac) := by
  refine ⟨loaded_empty,onePortMsgs_valid,?_⟩
  obtain ⟨v,hroutes,hdel⟩ := (forward_reference loaded onePortMsgs loaded_empty onePortMsgs_valid
    onePortMsgs_noMidFailure .little 0 ⟨0,64,0⟩).1 (by decide)
  have hret : (forwardIpProcess .little (netlinkProcess loaded onePortMsgs) 0 ⟨0,64,0⟩).1 = 0 := by decide
  generalize forwardIpProcess .little (netlinkProcess loaded onePortMsgs) 0 ⟨0,64,0⟩ = r at hdel hret
  cases hdel with
  | drop => simp at hret
  | toTap => simp at hret
  | @via port mac mem =>
    have hport : port = 0 := by simpa using hret
    have httl : (netlinkProcess loaded onePortMsgs).mem 22 = 64 := by decide
    subst hport
    exact ⟨mac,by simpa [httl] using hroutes⟩

def longRoute : RtMsg := { viaGateway 9 with dstLen := 23 }

/-- A frame to 10.0.1.5 with TTL 64 in the first slot, and a table whose request 4 fails. -/
def exhausted : Thread := { onePort with
  fibInet := ⟨0,lpmInit,(Heap.init (fun j => j != 4) fun _ => default).alloc.2⟩
  mem := fun k => if k = 12 then 8 else if k = 22 then 64 else if k = 30 then 10 else if k = 32 then 1
    else if k = 33 then 5 else 0 }

theorem exhausted_empty : EmptyTables exhausted := by
  refine ⟨?_,?_⟩
  · intro f
    cases f with
    | inet => exact ⟨fun j => j != 4,fun _ => default,rfl⟩
    | inet6 => exact ⟨fun _ => true,fun _ => default,rfl⟩
  · intro f port _
    cases f <;> exact ⟨fun _ => true,fun _ => default,rfl⟩

theorem longRoute_valid : NlMsg.Valid (.newRoute longRoute) := by
  intro f hf
  obtain rfl := viaGateway_family (show familyOf (viaGateway 9).family = some f from hf)
  refine ⟨rfl,show 23 ≤ 8*4 by decide,?_⟩
  simp [longRoute,viaGateway,RouteAttr.Sized,Family.size]

/-- The second list entry of the route fails. -/
def stranded : Thread := netlinkProcess exhausted [.newRoute longRoute]

theorem stranded_carries : Carries (stranded.fib .inet) 1 :=
  carries_of_lookup (show fibLookup (stranded.fib .inet) (fun k => if k = 0 then 10 else 0) = some 1 by decide)

theorem stranded_covers : CoversDst (stranded.fib .inet) (fun k => stranded.mem (30+k)) 1 := by
  unfold CoversDst
  decide

theorem stranded_forward : (forwardIpProcess .little stranded 0 ⟨0,64,0⟩).1 = -1 ∧
    (forwardIpProcess .little stranded 0 ⟨0,64,0⟩).2.tap = stranded.tap := by
  refine ⟨?_,?_⟩
  · decide
  · decide

/-- The table keeps the first list entry, which refers to a freed block, and a frame to the other half
of the network is dropped although the route covers it. -/
theorem stranded_route_drops :
    EmptyTables exhausted ∧ NlMsg.Valid (.newRoute longRoute) ∧ stranded.mem 22 = 64 ∧
      (∃ p, Carries (stranded.fib .inet) p ∧ (stranded.fib .inet).desc.live p = false) ∧
      ¬ ∃ v, Routes stranded .inet (fun k => stranded.mem (30+k)) (stranded.mem 22) v ∧
        Delivers stranded 0 ⟨0,64,0⟩ 22 (fun k => k = 24 ∨ k = 25) v
          (forwardIpProcess .little stranded 0 ⟨0,64,0⟩) := by
  obtain ⟨hret,htap⟩ := stranded_forward
  refine ⟨exhausted_empty,longRoute_valid,by decide,⟨1,stranded_carries,by decide⟩,?_⟩
  rintro ⟨v,hroutes,hdel⟩
  generalize forwardIpProcess .little stranded 0 ⟨0,64,0⟩ = r at hdel hret htap
  cases hdel with
  | drop =>
    cases hroutes with
    | unrouted hnone => exact hnone 1 stranded_carries stranded_covers
  | toTap => simp at htap
  | via hp => simp at hret

end Forwarder
end Ixmap
