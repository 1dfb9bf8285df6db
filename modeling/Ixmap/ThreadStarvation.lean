import Ixmap.SlotSearch
import Ixmap.ThreadOwnership

/-! When a receive ring runs dry. Descriptors are posted before the loop starts and in the transmit
handler only, so a receive event that takes the last posted descriptor leaves the ring empty with free
slots behind it. -/
namespace Ixmap
namespace Forwarder
open Driver GuardedRun

/-- No descriptor is posted to the receive ring of the port while its region has a free slot. -/
def Starved (d : Plane) (p : ℕ) : Prop :=
  (d.ports p).rxRing.nextToUse = (d.ports p).rxRing.nextToClean ∧
    ∃ next < d.buf.count, d.buf.slots (slotAt (d.ports p).rxSlotOffset next) &&& slotInflight = 0

/-- Descriptors between `next_to_clean` and `next_to_use`. -/
def pending (port : Port) : ℕ := port.numRxDesc-1-ixmapDescUnused port.rxRing port.numRxDesc

/-- `ixmap_rx_clean` is going to take every posted descriptor: there is one, each has its DD bit set
and the budget covers them. -/
def Drains (port : Port) : Prop :=
  port.rxRing.nextToClean ≠ port.rxRing.nextToUse ∧ pending port ≤ port.rxBudget ∧
    ∀ j < pending port, rxDone (port.rxRing.desc ((port.rxRing.nextToClean+j)%port.numRxDesc))

def ThreadOp.isCall : ThreadOp → Bool
  | .nicRx .. | .nicTx .. => false
  | _ => true

/-- An event served by the loop: the calls of its handler in their order, the device in between. -/
structure Served (numPorts : ℕ) where
  kind : EventKind
  ops : List ThreadOp
  calls : ops.filter ThreadOp.isCall = kind.calls numPorts

def Served.isTx {numPorts : ℕ} (e : Served numPorts) : Bool :=
  match e.kind with
  | .irqTx _ => true
  | _ => false

def serve {numPorts : ℕ} (host : Endian) (t : Thread) (e : Served numPorts) : Thread :=
  e.ops.foldl (threadStep host) t

/-- The events of one `epoll_wait`, each served once. -/
def serveBatch {numPorts : ℕ} (host : Endian) (t : Thread) (batch : List (Served numPorts)) : Thread :=
  batch.foldl (serve host) t

/-- A possible step that drains no ring, unless a transmit event is still to come. -/
def Spare (numPorts : ℕ) (txBehind : Bool) (t : Thread) (op : ThreadOp) : Prop :=
  Possible numPorts t op ∧
    ∀ p, op = .receive p → txBehind = false → ¬ Drains (t.plane.ports p)

/-- The steps of a batch drain a ring only in front of a transmit event of the same batch. -/
def Refilled {numPorts : ℕ} (host : Endian) : Thread → List (Served numPorts) → Prop
  | _, [] => True
  | t, e::rest =>
    Meets (threadStep host) (Spare numPorts (rest.any Served.isTx)) t e.ops ∧
      Refilled host (serve host t e) rest

/-- `thread_process_interrupt` posts the first descriptors of every port. -/
def prepared (t : Thread) : Thread := (t.forPorts ixmapRxAssign).2

def region (cfg : Config) (p : ℕ) : Set ℤ :=
  {x | ∃ next < cfg.count, x = ((p*cfg.count+next : ℕ) : ℤ)}

/-- The slot indices of all ports are values of an `int`. -/
def SlotsFit (cfg : Config) : Prop := cfg.numPorts*cfg.count ≤ 2^31

/-- The receive side of one port: its ring is a queue of slots of its region. -/
structure PortInv (cfg : Config) (p : ℕ) (port : Port) : Prop where
  num : port.numRxDesc = cfg.numRxDesc p
  offset : port.rxSlotOffset = p*cfg.count % 2^32
  next : 0 < cfg.count → port.rxSlotNext < cfg.count
  ring : RingInv (cfg.numRxDesc p) (fun _ _ => True) rxDone port.rxRing
  slots : ∀ x ∈ port.rxRing.out, x ∈ region cfg p

structure RxInv (cfg : Config) (d : Plane) : Prop where
  count : d.buf.count = cfg.count
  port : ∀ p < cfg.numPorts, PortInv cfg p (d.ports p)

def Keeps (d d' : Plane) : Prop :=
  ∀ x, d.buf.slots x &&& slotInflight ≠ 0 → d'.buf.slots x &&& slotInflight ≠ 0

def AllTaken (cfg : Config) (d : Plane) (p : ℕ) : Prop :=
  ∀ x ∈ region cfg p, d.buf.slots x &&& slotInflight ≠ 0

/-- The receive side of a port stays as it is. -/
structure SameRx (port port' : Port) : Prop where
  ring : port'.rxRing = port.rxRing
  num : port'.numRxDesc = port.numRxDesc
  offset : port'.rxSlotOffset = port.rxSlotOffset
  next : port'.rxSlotNext = port.rxSlotNext

/-- No port's receive side changes. -/
structure RxFrame (d d' : Plane) : Prop where
  count : d'.buf.count = d.buf.count
  port : ∀ p, SameRx (d.ports p) (d'.ports p)

section
variable {cfg : Config} {d d' : Plane} {p q : ℕ} {port port' : Port}

theorem SameRx.refl (port : Port) : SameRx port port := ⟨rfl,rfl,rfl,rfl⟩

theorem SameRx.trans {port'' : Port} (h : SameRx port port') (h' : SameRx port' port'') :
    SameRx port port'' :=
  ⟨h'.ring.trans h.ring,h'.num.trans h.num,h'.offset.trans h.offset,h'.next.trans h.next⟩

theorem RxFrame.refl (d : Plane) : RxFrame d d := ⟨rfl,fun _ => SameRx.refl _⟩

theorem RxFrame.trans {d'' : Plane} (h : RxFrame d d') (h' : RxFrame d' d'') : RxFrame d d'' :=
  ⟨h'.count.trans h.count,fun p => (h.port p).trans (h'.port p)⟩

theorem RxFrame.setPort (h : SameRx (d.ports p) port) : RxFrame d (d.setPort p port) := by
  refine ⟨rfl,?_⟩
  intro q
  by_cases hq : q = p
  · subst hq
    rwa [setPort_self]
  · rw [setPort_other d port hq]
    exact SameRx.refl _

theorem RxFrame.setSlot (d : Plane) (x : ℤ) (flags : ℕ) : RxFrame d (d.setSlot x flags) :=
  ⟨rfl,fun _ => SameRx.refl _⟩

theorem rxFrame_txXmit (d : Plane) (p : ℕ) : RxFrame d (ixmapTxXmit d p) := by
  unfold ixmapTxXmit
  dsimp only
  split
  · exact RxFrame.refl d
  · exact RxFrame.setPort ⟨rfl,rfl,rfl,rfl⟩

theorem rxFrame_txAssign (d : Plane) (p : ℕ) (packet : Packet) : RxFrame d (ixmapTxAssign d p packet) := by
  unfold ixmapTxAssign
  split
  · refine RxFrame.trans ?_ (RxFrame.setSlot _ _ _)
    exact RxFrame.setPort ⟨rfl,rfl,rfl,rfl⟩
  · exact RxFrame.setPort ⟨rfl,rfl,rfl,rfl⟩

theorem rxFrame_txCleanLoop (p k : ℕ) (d : Plane) : RxFrame d (txCleanLoop p k d).2 := by
  induction k generalizing d with
  | zero => exact RxFrame.refl d
  | succ k ih =>
    rw [txCleanLoop]
    dsimp only
    split
    · exact RxFrame.refl d
    split
    · exact RxFrame.refl d
    · have hadv : RxFrame d (txAdvance d p) :=
        (RxFrame.setSlot d _ 0).trans (RxFrame.setPort ⟨rfl,rfl,rfl,rfl⟩)
      exact hadv.trans (ih _)

theorem rxFrame_txClean (d : Plane) (p : ℕ) : RxFrame d (ixmapTxClean d p) :=
  (rxFrame_txCleanLoop p _ d).trans (RxFrame.setPort ⟨rfl,rfl,rfl,rfl⟩)

theorem rxFrame_nicTx (d : Plane) (p status : ℕ) : RxFrame d (nicTx d p status) :=
  RxFrame.setPort ⟨rfl,rfl,rfl,rfl⟩

theorem rxFrame_forwardTurn (host : Endian) (portIndex : ℕ) (t : Thread) (packet : Packet) :
    RxFrame t.plane (forwardTurn host portIndex t packet).plane := by
  have hplane := forwardPacket_plane host t portIndex packet
  rw [forwardTurn,disposePacket]
  dsimp only
  rw [hplane]
  split
  · exact RxFrame.setSlot _ _ _
  · exact (rxFrame_txAssign _ _ _).trans (RxFrame.setSlot _ _ _)

theorem rxFrame_forwardProcess (host : Endian) (portIndex : ℕ) (t : Thread) (packets : List Packet) :
    RxFrame t.plane (forwardProcess host portIndex t packets).plane := by
  rw [forwardProcess_eq_foldl]
  induction packets generalizing t with
  | nil => exact RxFrame.refl _
  | cons packet rest ih => exact (rxFrame_forwardTurn host portIndex t packet).trans (ih _)

theorem PortInv.frame (h : PortInv cfg p port) (hs : SameRx port port') : PortInv cfg p port' := by
  constructor
  · rw [hs.num,h.num]
  · rw [hs.offset,h.offset]
  · rw [hs.next]
    exact h.next
  · rw [hs.ring]
    exact h.ring
  · rw [hs.ring]
    exact h.slots

theorem RxInv.frame (h : RxInv cfg d) (hf : RxFrame d d') : RxInv cfg d' :=
  ⟨hf.count.trans h.count,fun p hp => (h.port p hp).frame (hf.port p)⟩

theorem RxInv.setPort (h : RxInv cfg d) (hport : PortInv cfg p port) : RxInv cfg (d.setPort p port) := by
  refine ⟨h.count,?_⟩
  intro q hq
  by_cases he : q = p
  · subst he
    rwa [setPort_self]
  · rw [setPort_other d port he]
    exact h.port q hq

theorem slotAt_eq (hfit : SlotsFit cfg) (hp : p < cfg.numPorts) {next : ℕ} (hn : next < cfg.count) :
    slotAt (p*cfg.count % 2^32) next = ((p*cfg.count+next : ℕ) : ℤ) := by
  have hle := Nat.mul_le_mul_right cfg.count (Nat.succ_le_of_lt hp)
  rw [SlotsFit] at hfit
  rw [Nat.succ_mul] at hle
  have hmod : p*cfg.count % 2^32 = p*cfg.count := Nat.mod_eq_of_lt (by omega)
  rw [hmod]
  unfold slotAt
  apply Int.bmod_eq_of_le
  · omega
  · omega

theorem region_nonneg {x : ℤ} (hx : x ∈ region cfg p) : ¬ x < 0 := by
  obtain ⟨i,-,rfl⟩ := hx
  omega

theorem region_disjoint {x : ℤ} (hp : x ∈ region cfg p) (hq : x ∈ region cfg q) : p = q := by
  obtain ⟨i,hi,rfl⟩ := hp
  obtain ⟨j,hj,he⟩ := hq
  have he : p*cfg.count+i = q*cfg.count+j := by exact_mod_cast he
  have hpos : 0 < cfg.count := by omega
  have hdiv := congrArg (·/cfg.count) he
  simpa [Nat.mul_comm _ cfg.count,Nat.mul_add_div hpos,Nat.div_eq_of_lt hi,Nat.div_eq_of_lt hj] using hdiv

theorem PortInv.empty_iff (h : PortInv cfg p port) :
    port.rxRing.nextToUse = port.rxRing.nextToClean ↔ port.rxRing.out = [] := by
  have hle := h.ring.completed_le
  have hord := h.ring.order
  rw [eq_comm,h.ring.empty_iff,← List.length_eq_zero_iff,Ring.out_length]
  omega

/-- Under the invariant a port is not starved when its ring holds a descriptor or all its slots are in
flight. -/
theorem RxInv.starved_iff (h : RxInv cfg d) (hfit : SlotsFit cfg) (hp : p < cfg.numPorts) :
    ¬ Starved d p ↔ (d.ports p).rxRing.out ≠ [] ∨ AllTaken cfg d p := by
  have hport := h.port p hp
  rw [Starved,hport.empty_iff,h.count,hport.offset,not_and_or]
  refine or_congr Iff.rfl ?_
  rw [not_exists]
  constructor
  · rintro hno x ⟨next,hn,rfl⟩ hfree
    exact hno next ⟨hn,by rwa [slotAt_eq hfit hp hn]⟩
  · rintro hall next ⟨hn,hfree⟩
    rw [slotAt_eq hfit hp hn] at hfree
    exact hall _ ⟨next,hn,rfl⟩ hfree

theorem keeps_take (d : Plane) (x : ℤ) : Keeps d (d.setSlot x (d.buf.slots x ||| slotInflight)) := by
  intro y hy
  by_cases he : y = x
  · subst he
    simpa using inflight_or (d.buf.slots y)
  · simpa [Function.update_of_ne he] using hy

theorem Keeps.refl (d : Plane) : Keeps d d := fun _ hx => hx

theorem Keeps.trans {d'' : Plane} (h : Keeps d d') (h' : Keeps d' d'') : Keeps d d'' :=
  fun x hx => h' x (h x hx)

theorem AllTaken.keeps (h : AllTaken cfg d p) (hk : Keeps d d') : AllTaken cfg d' p :=
  fun x hx => hk x (h x hx)

theorem RxInv.slotAssign (h : RxInv cfg d) (hfit : SlotsFit cfg) (hp : p < cfg.numPorts) :
    (ixmapSlotAssign d p = (-1,d) ∧ AllTaken cfg d p) ∨
      ∃ next x, next < cfg.count ∧ x ∈ region cfg p ∧ d.buf.slots x &&& slotInflight = 0 ∧
        ixmapSlotAssign d p = (x,(d.setPort p { d.ports p with rxSlotNext := next }).setSlot x
          (d.buf.slots x ||| slotInflight)) := by
  have hport := h.port p hp
  cases hscan : slotScan d.buf.slots (d.ports p).rxSlotOffset d.buf.count d.buf.count
      (d.ports p).rxSlotNext with
  | none =>
    refine Or.inl ⟨by simp [ixmapSlotAssign,hscan],?_⟩
    rintro x ⟨next,hn,rfl⟩
    rw [h.count,hport.offset] at hscan
    have hall := slotScan_all (hport.next (by omega)) hscan next hn
    rwa [slotAt_eq hfit hp hn] at hall
  | some next =>
    have hpos : 0 < cfg.count := by
      by_contra hz
      rw [h.count,Nat.eq_zero_of_not_pos hz] at hscan
      simp [slotScan] at hscan
    have hfree := slotScan_free hscan
    have hlt : next < cfg.count := by
      rw [h.count] at hscan
      obtain ⟨i,-,rfl,-⟩ := slotScan_some (hport.next hpos) hscan
      exact Nat.mod_lt _ hpos
    rw [hport.offset,slotAt_eq hfit hp hlt] at hfree
    refine Or.inr ⟨wrapNext cfg.count next,((p*cfg.count+next : ℕ) : ℤ),wrapNext_lt hlt,⟨next,hlt,rfl⟩,
      hfree,?_⟩
    rw [ixmapSlotAssign]
    dsimp only
    rw [hscan]
    dsimp only
    rw [hport.offset,slotAt_eq hfit hp hlt,h.count]

theorem PortInv.setNext (h : PortInv cfg p port) {next : ℕ} (hn : next < cfg.count) :
    PortInv cfg p { port with rxSlotNext := next } :=
  ⟨h.num,h.offset,fun _ => hn,h.ring,h.slots⟩

theorem PortInv.post (h : PortInv cfg p port) {x : ℤ} {desc : RxDesc} (hx : x ∈ region cfg p)
    (hd : ¬ rxDone desc) (hroom : port.rxRing.out.length+1 < cfg.numRxDesc p) :
    PortInv cfg p { port with rxRing := port.rxRing.post port.numRxDesc x desc } := by
  have hlen := port.rxRing.out_length
  have hord := h.ring.order
  have hle := h.ring.completed_le
  refine ⟨h.num,h.offset,h.next,?_,?_⟩
  · rw [h.num]
    exact h.ring.post (by omega) trivial hd
  intro y hy
  simp only [h.num,Ring.out_post h.ring] at hy
  rcases List.mem_append.mp hy with hy | hy
  · exact h.slots y hy
  · rwa [List.mem_singleton.mp hy]

theorem PortInv.writeTail (h : PortInv cfg p port) :
    PortInv cfg p { port with rxRing := ixmapWriteTail port.rxRing port.rxRing.nextToUse } :=
  ⟨h.num,h.offset,h.next,h.ring.write_tail,h.slots⟩

theorem PortInv.descUnused (h : PortInv cfg p port) :
    ixmapDescUnused port.rxRing port.numRxDesc = cfg.numRxDesc p-1-port.rxRing.out.length := by
  have hrange := cfg.rx_range p
  rw [ixmapDescUnused,h.num,h.ring.unused_eq]
  exact Nat.mod_eq_of_lt (by omega)

/-- What the calls that post descriptors to the ring of port `p` do to the other ports and the flags. -/
structure Posting (p : ℕ) (d d' : Plane) : Prop where
  others : ∀ q, q ≠ p → d'.ports q = d.ports q
  keeps : Keeps d d'

theorem Posting.refl (p : ℕ) (d : Plane) : Posting p d d := ⟨fun _ _ => rfl,Keeps.refl d⟩

theorem Posting.trans {d'' : Plane} (h : Posting p d d') (h' : Posting p d' d'') : Posting p d d'' :=
  ⟨fun q hq => (h'.others q hq).trans (h.others q hq),h.keeps.trans h'.keeps⟩

theorem Posting.setPort (d : Plane) (p : ℕ) (port : Port) : Posting p d (d.setPort p port) :=
  ⟨fun _ hq => setPort_other d port hq,Keeps.refl d⟩

/-- The loop of `ixmap_rx_assign` posts what is wanted unless all slots of the port are in flight. -/
theorem rxAssignLoop_spec (hfit : SlotsFit cfg) (hp : p < cfg.numPorts) (k total : ℕ) (h : RxInv cfg d)
    (hroom : (d.ports p).rxRing.out.length+k < cfg.numRxDesc p) :
    RxInv cfg (rxAssignLoop p k total d).2 ∧ Posting p d (rxAssignLoop p k total d).2 ∧
      (((rxAssignLoop p k total d).2.ports p).rxRing.out.length = (d.ports p).rxRing.out.length+k ∨
        AllTaken cfg (rxAssignLoop p k total d).2 p) := by
  induction k generalizing total d with
  | zero => exact ⟨h,Posting.refl p d,Or.inl rfl⟩
  | succ k ih =>
    have hport := h.port p hp
    rw [rxAssignLoop]
    rcases h.slotAssign hfit hp with ⟨he,hall⟩ | ⟨next,x,hn,hx,-,he⟩
    · rw [he]
      exact ⟨h.setPort ⟨hport.num,hport.offset,hport.next,hport.ring,hport.slots⟩,
        Posting.setPort d p _,Or.inr hall⟩
    · rw [he]
      simp only [region_nonneg hx,if_false]
      -- the plane behind the assignment, and behind the post
      generalize hd₁ : (d.setPort p { d.ports p with rxSlotNext := next }).setSlot x
        (d.buf.slots x ||| slotInflight) = d₁
      have h₁ : RxInv cfg d₁ := by
        rw [← hd₁]
        exact (h.setPort (hport.setNext hn)).frame (RxFrame.setSlot _ _ _)
      have hring : (d₁.ports p).rxRing = (d.ports p).rxRing := by
        rw [← hd₁]
        simp
      have hpost₁ : Posting p d d₁ := by
        rw [← hd₁]
        exact ⟨fun _ hq => setPort_other d _ hq,keeps_take d x⟩
      have hout : ((rxPost d₁ p x).ports p).rxRing.out = (d.ports p).rxRing.out ++ [x] := by
        rw [rxPost,setPort_self]
        simp only [(h₁.port p hp).num]
        rw [Ring.out_post (h₁.port p hp).ring,hring]
      have h₂ : RxInv cfg (rxPost d₁ p x) := by
        refine h₁.setPort ((h₁.port p hp).post hx ?_ ?_)
        · simp [rxDone,ixmapTestStaterr,RxDesc.statusError]
        · rw [hring]
          omega
      obtain ⟨hinv,hpost,hend⟩ := ih (total+1) h₂ (by rw [hout,List.length_append,List.length_singleton]; omega)
      refine ⟨hinv,(hpost₁.trans (Posting.setPort d₁ p _)).trans hpost,?_⟩
      rw [hout,List.length_append,List.length_singleton] at hend
      rcases hend with hend | hend
      · exact Or.inl (by omega)
      · exact Or.inr hend

theorem rxAssign_spec (hfit : SlotsFit cfg) (hp : p < cfg.numPorts) (hdesc : 2 ≤ cfg.numRxDesc p)
    (h : RxInv cfg d) : RxInv cfg (ixmapRxAssign d p) ∧ Posting p d (ixmapRxAssign d p) ∧
      ¬ Starved (ixmapRxAssign d p) p := by
  have hport := h.port p hp
  have hun := hport.descUnused
  unfold ixmapRxAssign
  dsimp only
  split
  · refine ⟨h,Posting.refl p d,(h.starved_iff hfit hp).mpr (Or.inl ?_)⟩
    intro hnil
    rw [hnil,List.length_nil] at hun
    omega
  · obtain ⟨hinv,hpost,hend⟩ := rxAssignLoop_spec hfit hp
      (ixmapDescUnused (d.ports p).rxRing (d.ports p).numRxDesc) 0 h (by omega)
    have hnot := (hinv.starved_iff hfit hp).mpr (hend.imp_left fun hlen hnil => by
      rw [hnil,List.length_nil] at hlen
      omega)
    split
    · exact ⟨hinv,hpost,hnot⟩
    · refine ⟨hinv.setPort (hinv.port p hp).writeTail,hpost.trans (Posting.setPort _ p _),?_⟩
      simpa [Starved,ixmapWriteTail] using hnot

theorem Posting.not_starved (hpost : Posting p d d') (h : RxInv cfg d) (h' : RxInv cfg d')
    (hfit : SlotsFit cfg) (hq : q < cfg.numPorts) (hne : q ≠ p) (hn : ¬ Starved d q) : ¬ Starved d' q := by
  rw [h'.starved_iff hfit hq,hpost.others q hne]
  exact ((h.starved_iff hfit hq).mp hn).imp_right fun hall => hall.keeps hpost.keeps

theorem RxFrame.not_starved (hf : RxFrame d d') (hk : Keeps d d') (h : RxInv cfg d) (hfit : SlotsFit cfg)
    (hq : q < cfg.numPorts) (hn : ¬ Starved d q) : ¬ Starved d' q := by
  rw [(h.frame hf).starved_iff hfit hq,(hf.port q).ring]
  exact ((h.starved_iff hfit hq).mp hn).imp_right fun hall => hall.keeps hk

theorem PortInv.pending_eq (h : PortInv cfg p port) : pending port = port.rxRing.out.length := by
  have hroom := h.ring.room
  have hlen := port.rxRing.out_length
  rw [pending,h.descUnused,h.num]
  omega

/-- A ring that is not drained keeps a descriptor: one that has not arrived, or one over budget. -/
theorem PortInv.not_drained (h : PortInv cfg p port) (hd : ¬ Drains port) (hne : port.rxRing.out ≠ []) :
    min port.rxBudget (port.rxRing.completed-port.rxRing.cleaned.length) < port.rxRing.out.length := by
  by_contra hge
  apply hd
  have hlen := port.rxRing.out_length
  refine ⟨?_,?_,?_⟩
  · intro he
    exact hne (h.empty_iff.mp he.symm)
  · rw [h.pending_eq]
    omega
  · intro j hj
    rw [h.pending_eq] at hj
    rw [h.num,h.ring.clean,Nat.mod_add_mod]
    exact h.ring.done _ (by omega) (by omega)

theorem rxClean_spec (h : RxInv cfg d) (hp : p < cfg.numPorts) :
    RxInv cfg (ixmapRxClean d p).2 ∧ (ixmapRxClean d p).2.buf = d.buf ∧
      (∀ q, q ≠ p → (ixmapRxClean d p).2.ports q = d.ports q) ∧
      (ixmapRxClean d p).1.map Packet.slotIndex ++ ((ixmapRxClean d p).2.ports p).rxRing.out =
        (d.ports p).rxRing.out ∧
      (¬ Drains (d.ports p) → (d.ports p).rxRing.out ≠ [] →
        ((ixmapRxClean d p).2.ports p).rxRing.out ≠ []) := by
  have hport := h.port p hp
  obtain ⟨ring,hd,hring,hsplit,-,hlen⟩ := rxCleanLoop_ring p (d.ports p).rxBudget hport.ring hport.num
  have hslots : ∀ x ∈ ring.out, x ∈ region cfg p := by
    intro x hx
    apply hport.slots
    rw [← hsplit]
    exact List.mem_append_right _ hx
  rw [ixmapRxClean]
  dsimp only
  rw [hd]
  have hinv : RxInv cfg (d.setPort p { d.ports p with rxRing := ring }) :=
    h.setPort ⟨hport.num,hport.offset,hport.next,hring,hslots⟩
  refine ⟨hinv.frame (RxFrame.setPort ⟨rfl,rfl,rfl,rfl⟩),rfl,?_,?_,?_⟩
  · intro q hq
    rw [setPort_other _ _ hq,setPort_other _ _ hq]
  · simpa using hsplit
  · intro hnot hne hnil
    have hlt := hport.not_drained hnot hne
    simp only [setPort_self] at hnil
    rw [hnil,List.append_nil] at hsplit
    rw [← hsplit,List.length_map] at hlt
    omega

theorem foldl_turn_slots {host : Endian} {portIndex : ℕ} {t : Thread} {packets : List Packet} {x : ℤ}
    (hx : x ∉ packets.map Packet.slotIndex) :
    (packets.foldl (forwardTurn host portIndex) t).plane.buf.slots x = t.plane.buf.slots x := by
  induction packets generalizing t with
  | nil => rfl
  | cons packet rest ih =>
    rw [List.map_cons,List.mem_cons,not_or] at hx
    rw [List.foldl_cons,ih hx.2,forwardTurn_slots,Function.update_of_ne hx.1]

end

section
variable {cfg : Config} {host : Endian} {t : Thread} {p q : ℕ} {op : ThreadOp}

theorem receive_rxInv (h : RxInv cfg t.plane) (hp : p < cfg.numPorts) :
    RxInv cfg (threadStep host t (.receive p)).plane :=
  (rxClean_spec h hp).1.frame (rxFrame_forwardProcess host p (cleaned t p) (received t p))

/-- A receive that does not drain its ring starves no port: what it frees belongs to its own port. -/
theorem receive_not_starved (h : RxInv cfg t.plane) (hfit : SlotsFit cfg) (hp : p < cfg.numPorts)
    (hq : q < cfg.numPorts) (hd : ¬ Drains (t.plane.ports p)) (hn : ¬ Starved t.plane q) :
    ¬ Starved (threadStep host t (.receive p)).plane q := by
  obtain ⟨-,hbuf,hothers,hsplit,hkeep⟩ := rxClean_spec h hp
  have hring := ((rxFrame_forwardProcess host p (cleaned t p) (received t p)).port q).ring
  rw [h.starved_iff hfit hq] at hn
  rw [(receive_rxInv h hp).starved_iff hfit hq,threadStep,hring]
  -- the flags of a port none of whose slots were received
  have htaken : AllTaken cfg t.plane q → (∀ x ∈ region cfg q, x ∉ (received t p).map Packet.slotIndex) →
      AllTaken cfg (forwardProcess host p (cleaned t p) (received t p)).plane q := by
    intro hall hout x hx
    rw [forwardProcess_eq_foldl,foldl_turn_slots (hout x hx)]
    exact hbuf.symm ▸ hall x hx
  have hreceived : ∀ x ∈ (received t p).map Packet.slotIndex, x ∈ (t.plane.ports p).rxRing.out := by
    intro x hx
    rw [← hsplit]
    exact List.mem_append_left _ hx
  by_cases hpq : q = p
  · subst hpq
    by_cases hemp : (t.plane.ports q).rxRing.out = []
    · refine Or.inr (htaken (hn.resolve_left fun hne => hne hemp) ?_)
      intro x _ hx
      have hmem := hreceived x hx
      rw [hemp] at hmem
      exact List.not_mem_nil hmem
    · exact Or.inl (hkeep hd hemp)
  · rw [cleaned,hothers q hpq]
    refine hn.imp_right fun hall => htaken hall ?_
    intro x hx hmem
    exact hpq (region_disjoint hx ((h.port p hp).slots x (hreceived x hmem)))

theorem tun_spec (h : RxInv cfg t.plane) (hfit : SlotsFit cfg) (hp : p < cfg.numPorts)
    (readBuf : List UInt8) : RxInv cfg (forwardProcessTun t p readBuf).plane ∧
      Keeps t.plane (forwardProcessTun t p readBuf).plane ∧
      ∀ q, ((forwardProcessTun t p readBuf).plane.ports q).rxRing = (t.plane.ports q).rxRing := by
  unfold forwardProcessTun
  dsimp only
  split
  · exact ⟨h,Keeps.refl _,fun _ => rfl⟩
  rcases h.slotAssign hfit hp with ⟨he,-⟩ | ⟨next,x,hn,hx,hfree,he⟩
  · rw [he]
    exact ⟨h,Keeps.refl _,fun _ => rfl⟩
  · have hinv := (h.setPort ((h.port p hp).setNext hn)).frame
      (RxFrame.setSlot _ x (t.plane.buf.slots x ||| slotInflight))
    rw [he]
    simp only [region_nonneg hx,if_false]
    refine ⟨hinv.frame (rxFrame_txAssign _ _ _),?_,?_⟩
    · unfold ixmapTxAssign
      split
      · -- refused: the flag of a slot that was free before is cleared again
        intro y hy
        have hne : y ≠ x := by
          rintro rfl
          exact hy hfree
        simpa [txXmitFailed,ixmapSlotRelease,Function.update_of_ne hne] using hy
      · exact keeps_take t.plane x
    · intro q
      rw [((rxFrame_txAssign _ p _).port q).ring]
      by_cases hq : q = p
      · subst hq
        simp
      · simp [setPort_other _ _ hq]

theorem nicRx_spec (lo : ℕ) {hi : ℕ} (h : RxInv cfg t.plane) (hp : p < cfg.numPorts)
    (hne : (t.plane.ports p).rxRing.head ≠ (t.plane.ports p).rxRing.tail) (hdd : hi%2 = 1) :
    RxInv cfg (nicRx t.plane p lo hi) ∧
      ∀ q, ((nicRx t.plane p lo hi).ports q).rxRing.out = (t.plane.ports q).rxRing.out := by
  have hport := h.port p hp
  have hwb : rxDone ⟨lo,hi⟩ := by
    simp only [rxDone,ixmapTestStaterr,RxDesc.statusError,statDd,Nat.and_one_is_mod]
    omega
  refine ⟨h.setPort ⟨hport.num,hport.offset,hport.next,?_,hport.slots⟩,?_⟩
  · rw [hport.num]
    exact hport.ring.complete_inv hne fun _ => hwb
  · intro q
    by_cases hq : q = p
    · subst hq
      rw [nicRx,setPort_self]
      rfl
    · rw [nicRx,setPort_other _ _ hq]

theorem threadStep_rxInv (hfit : SlotsFit cfg) (hdesc : ∀ p < cfg.numPorts, 2 ≤ cfg.numRxDesc p)
    (h : RxInv cfg t.plane) (hpos : Possible cfg.numPorts t op) :
    RxInv cfg (threadStep host t op).plane := by
  cases op with
  | receive p => exact receive_rxInv h hpos
  | txXmit p => exact h.frame (rxFrame_txXmit _ p)
  | txClean p => exact h.frame (rxFrame_txClean _ p)
  | rxAssign p => exact (rxAssign_spec hfit hpos (hdesc p hpos) h).1
  | tun p readBuf => exact (tun_spec h hfit hpos readBuf).1
  | netlink msgs => exact (samePorts_process t msgs).plane.symm ▸ h
  | nicRx p lo hi data => exact (nicRx_spec lo h hpos.1 hpos.2.1 hpos.2.2).1
  | nicTx p status => exact h.frame (rxFrame_nicTx _ p status)

theorem threadStep_not_starved (hfit : SlotsFit cfg) (hdesc : ∀ p < cfg.numPorts, 2 ≤ cfg.numRxDesc p)
    (h : RxInv cfg t.plane) (hpos : Possible cfg.numPorts t op)
    (hclean : ∀ p, op ≠ .txClean p) (hdrain : ∀ p, op = .receive p → ¬ Drains (t.plane.ports p))
    (hq : q < cfg.numPorts) (hn : ¬ Starved t.plane q) : ¬ Starved (threadStep host t op).plane q := by
  cases op with
  | receive p => exact receive_not_starved h hfit hpos hq (hdrain p rfl) hn
  | txXmit p =>
    refine (rxFrame_txXmit t.plane p).not_starved ?_ h hfit hq hn
    unfold Keeps ixmapTxXmit
    dsimp only
    split <;> exact fun _ hx => hx
  | txClean p => exact absurd rfl (hclean p)
  | rxAssign p =>
    obtain ⟨hinv,hpost,hself⟩ := rxAssign_spec hfit hpos (hdesc p hpos) h
    by_cases hqp : q = p
    · exact hqp ▸ hself
    · exact hpost.not_starved h hinv hfit hq hqp hn
  | tun p readBuf =>
    obtain ⟨hinv,hkeeps,hring⟩ := tun_spec h hfit hpos readBuf
    rw [threadStep,hinv.starved_iff hfit hq,hring q]
    exact ((h.starved_iff hfit hq).mp hn).imp_right fun hall => hall.keeps hkeeps
  | netlink msgs =>
    rw [threadStep,(samePorts_process t msgs).plane]
    exact hn
  | nicRx p lo hi data =>
    obtain ⟨hinv,hout⟩ := nicRx_spec lo h hpos.1 hpos.2.1 hpos.2.2
    rw [threadStep,hinv.starved_iff hfit hq,hout q]
    exact (h.starved_iff hfit hq).mp hn
  | nicTx p status => exact (rxFrame_nicTx t.plane p status).not_starved (Keeps.refl _) h hfit hq hn

/-- The step frees no slot of a port: it neither receives nor cleans a transmit ring. -/
def ThreadOp.Quiet (op : ThreadOp) : Prop := (∀ p, op ≠ .receive p) ∧ ∀ p, op ≠ .txClean p

theorem run_rxInv (hfit : SlotsFit cfg) (hdesc : ∀ p < cfg.numPorts, 2 ≤ cfg.numRxDesc p)
    {txBehind : Bool} {ops : List ThreadOp}
    (hrun : Meets (threadStep host) (Spare cfg.numPorts txBehind) t ops) (h : RxInv cfg t.plane) :
    RxInv cfg (ops.foldl (threadStep host) t).plane :=
  hrun.invariant (I := fun t => RxInv cfg t.plane) h fun _ _ _ h hop => threadStep_rxInv hfit hdesc h hop.1

theorem run_not_starved (hfit : SlotsFit cfg) (hdesc : ∀ p < cfg.numPorts, 2 ≤ cfg.numRxDesc p)
    {txBehind : Bool} {ops : List ThreadOp}
    (hrun : Meets (threadStep host) (Spare cfg.numPorts txBehind) t ops)
    (hops : ∀ op ∈ ops, op.Quiet ∨ (txBehind = false ∧ ∀ p, op ≠ .txClean p))
    (h : RxInv cfg t.plane) (hq : q < cfg.numPorts)
    (hn : ¬ Starved t.plane q) : ¬ Starved (ops.foldl (threadStep host) t).plane q := by
  refine (hrun.invariant (I := fun t => RxInv cfg t.plane ∧ ¬ Starved t.plane q) ⟨h,hn⟩ ?_).2
  rintro t op hmem ⟨h,hn⟩ ⟨hpos,hspare⟩
  refine ⟨threadStep_rxInv hfit hdesc h hpos,?_⟩
  rcases hops op hmem with ⟨hreceive,hclean⟩ | ⟨hlast,hclean⟩
  · exact threadStep_not_starved hfit hdesc h hpos hclean (fun p he => absurd he (hreceive p)) hq hn
  · exact threadStep_not_starved hfit hdesc h hpos hclean (fun p he => hspare p he hlast) hq hn

theorem refilled_not_starved (hfit : SlotsFit cfg) (hdesc : ∀ p < cfg.numPorts, 2 ≤ cfg.numRxDesc p)
    {txBehind : Bool} {before after : List ThreadOp}
    (hrun : Meets (threadStep host) (Spare cfg.numPorts txBehind) t (before++.rxAssign q::after))
    (hquiet : ∀ op ∈ after, op.Quiet) (h : RxInv cfg t.plane) (hq : q < cfg.numPorts) :
    ¬ Starved ((before++.rxAssign q::after).foldl (threadStep host) t).plane q := by
  obtain ⟨hbefore,hassign,hafter⟩ := meets_append.mp hrun
  obtain ⟨hinv,-,hself⟩ := rxAssign_spec hfit hq (hdesc q hq) (run_rxInv hfit hdesc hbefore h)
  rw [List.foldl_append,List.foldl_cons]
  exact run_not_starved hfit hdesc hafter (fun op hop => Or.inl (hquiet op hop)) hinv hq hself

theorem mem_calls {n : ℕ} (e : Served n) (hmem : op ∈ e.ops) (hcall : op.isCall = true) :
    op ∈ e.kind.calls n := by
  rw [← e.calls]
  exact List.mem_filter.mpr ⟨hmem,hcall⟩

theorem serve_tx {n : ℕ} (e : Served n) (htx : e.isTx = true) (hq : q < n) :
    ∃ before after, e.ops = before++.rxAssign q::after ∧ ∀ op ∈ after, op.Quiet := by
  obtain ⟨p,hkind⟩ : ∃ p, e.kind = .irqTx p := by
    cases hkind : e.kind <;> simp_all [Served.isTx]
  have hcalls := e.calls
  rw [hkind,EventKind.calls] at hcalls
  have hmem : ThreadOp.rxAssign q ∈ e.ops := by
    have : ThreadOp.rxAssign q ∈ e.ops.filter ThreadOp.isCall := by
      rw [hcalls]
      exact List.mem_cons_of_mem _ (List.mem_map_of_mem (List.mem_range.mpr hq))
    exact (List.mem_filter.mp this).1
  obtain ⟨before,after,hops⟩ := List.append_of_mem hmem
  refine ⟨before,after,hops,?_⟩
  rw [hops,List.filter_append,List.filter_cons_of_pos (by rfl)] at hcalls
  -- the cleaning is in front, so what is behind are posts
  have hposts : ∀ op ∈ after.filter ThreadOp.isCall, ∃ r, op = .rxAssign r := by
    intro op hop
    cases hb : before.filter ThreadOp.isCall with
    | nil => simp [hb] at hcalls
    | cons first more =>
      rw [hb,List.cons_append,List.cons.injEq] at hcalls
      have hin : op ∈ (List.range n).map ThreadOp.rxAssign := by
        rw [← hcalls.2]
        exact List.mem_append_right _ (List.mem_cons_of_mem _ hop)
      obtain ⟨r,-,hr⟩ := List.mem_map.mp hin
      exact ⟨r,hr.symm⟩
  intro op hop
  constructor
  · rintro r rfl
    obtain ⟨r',he⟩ := hposts _ (List.mem_filter.mpr ⟨hop,rfl⟩)
    cases he
  · rintro r rfl
    obtain ⟨r',he⟩ := hposts _ (List.mem_filter.mpr ⟨hop,rfl⟩)
    cases he

theorem serve_other {n : ℕ} (e : Served n) (htx : e.isTx = false) : ∀ op ∈ e.ops, ∀ p, op ≠ .txClean p := by
  rintro op hop p rfl
  have hmem := mem_calls e hop rfl
  cases hkind : e.kind <;> simp [hkind,EventKind.calls,Served.isTx] at hmem htx

/-- After a batch no port is starved, provided none was before or the batch has a transmit event. -/
theorem batch_not_starved (hfit : SlotsFit cfg) (hdesc : ∀ p < cfg.numPorts, 2 ≤ cfg.numRxDesc p)
    {batch : List (Served cfg.numPorts)} (hrun : Refilled host t batch) (h : RxInv cfg t.plane)
    (hstart : batch.any Served.isTx = true ∨ ∀ q < cfg.numPorts, ¬ Starved t.plane q) :
    RxInv cfg (serveBatch host t batch).plane ∧
      ∀ q < cfg.numPorts, ¬ Starved (serveBatch host t batch).plane q := by
  induction batch generalizing t with
  | nil => exact ⟨h,hstart.resolve_left (by simp)⟩
  | cons e rest ih =>
    obtain ⟨hmeets,hrest⟩ := hrun
    refine ih hrest (run_rxInv hfit hdesc hmeets h) ?_
    by_cases hbehind : rest.any Served.isTx = true
    · exact Or.inl hbehind
    refine Or.inr ?_
    intro q hq
    cases htx : e.isTx with
    | true =>
      obtain ⟨before,after,hops,hquiet⟩ := serve_tx e htx hq
      rw [hops] at hmeets
      rw [serve,hops]
      exact refilled_not_starved hfit hdesc hmeets hquiet h hq
    | false =>
      have hn := hstart.resolve_left (by simp [htx,hbehind]) q hq
      refine run_not_starved hfit hdesc hmeets ?_ h hq hn
      exact fun op hop => Or.inr ⟨by simpa using hbehind,serve_other e htx op hop⟩

theorem rxInv_initPlane (cfg : Config) : RxInv cfg (initPlane cfg) := by
  refine ⟨rfl,?_⟩
  intro p _
  refine ⟨rfl,rfl,fun hpos => hpos,initRing_inv (cfg.rx_range p).1 _ _ _,?_⟩
  intro x hx
  simp [initPlane,initRing,Ring.out] at hx

theorem prepared_not_starved (hfit : SlotsFit cfg) (hdesc : ∀ p < cfg.numPorts, 2 ≤ cfg.numRxDesc p)
    (hinit : t.plane = initPlane cfg) (hports : t.numPorts = cfg.numPorts) :
    RxInv cfg (prepared t).plane ∧ ∀ q < cfg.numPorts, ¬ Starved (prepared t).plane q := by
  have hcalls : prepared t =
      ((List.range cfg.numPorts).map ThreadOp.rxAssign).foldl (threadStep .little) t := by
    rw [← hports]
    exact forPorts_calls .little .rxAssign (fun _ _ => rfl) t
  have h : RxInv cfg t.plane := hinit ▸ rxInv_initPlane cfg
  have hrun : Meets (threadStep .little) (Spare cfg.numPorts false) t
      ((List.range cfg.numPorts).map ThreadOp.rxAssign) := by
    apply meets_of_forall
    intro op hop t
    obtain ⟨p,hp,rfl⟩ := List.mem_map.mp hop
    refine ⟨List.mem_range.mp hp,?_⟩
    rintro q ⟨⟩
  rw [hcalls]
  refine ⟨run_rxInv hfit hdesc hrun h,?_⟩
  intro q hq
  have hmem : ThreadOp.rxAssign q ∈ (List.range cfg.numPorts).map ThreadOp.rxAssign :=
    List.mem_map_of_mem (List.mem_range.mpr hq)
  obtain ⟨before,after,hops⟩ := List.append_of_mem hmem
  rw [hops] at hrun ⊢
  refine refilled_not_starved hfit hdesc hrun ?_ h hq
  intro op hop
  have hin : op ∈ (List.range cfg.numPorts).map ThreadOp.rxAssign := by
    rw [hops]
    exact List.mem_append_right _ (List.mem_cons_of_mem _ hop)
  obtain ⟨r,-,rfl⟩ := List.mem_map.mp hin
  exact ⟨fun p => by simp,fun p => by simp⟩

end

/-- Whenever the thread is about to block, no port is starved, in every run in which a batch drains a
receive ring only in front of a transmit event. -/
theorem rx_never_starved (cfg : Config) (host : Endian) (t : Thread) (hinit : t.plane = initPlane cfg)
    (hports : t.numPorts = cfg.numPorts) (hfit : SlotsFit cfg)
    (hdesc : ∀ p < cfg.numPorts, 2 ≤ cfg.numRxDesc p) (batches : List (List (Served cfg.numPorts)))
    (hrun : Meets (serveBatch host) (Refilled host) (prepared t) batches) :
    ∀ p < cfg.numPorts, ¬ Starved (batches.foldl (serveBatch host) (prepared t)).plane p := by
  have hstart := prepared_not_starved hfit hdesc hinit hports
  refine (hrun.invariant (I := fun t => RxInv cfg t.plane ∧ ∀ q < cfg.numPorts, ¬ Starved t.plane q)
    hstart ?_).2
  rintro t batch - ⟨h,hn⟩ hbatch
  exact batch_not_starved hfit hdesc hbatch h (Or.inr hn)

/-- A frame arrives for which there is no route, and its interrupt is served. -/
def dropEvent : Served 1 where
  kind := .irqRx 0
  ops := [.nicRx 0 0 arrival toTenNet,.receive 0,.txXmit 0]
  calls := rfl

def txEvent : Served 1 where
  kind := .irqTx 0
  ops := [.txClean 0,.rxAssign 0]
  calls := rfl

/-- The ring is drained by the first event of the batch and filled again by the second. -/
theorem rx_never_starved_refill :
    Drains ((threadStep .little (prepared onePort) (.nicRx 0 0 arrival toTenNet)).plane.ports 0) ∧
      ¬ Starved (serveBatch .little (prepared onePort) [dropEvent,txEvent]).plane 0 := by
  have hrun : Meets (serveBatch .little) (Refilled .little) (prepared onePort) [[dropEvent,txEvent]] := by
    refine ⟨⟨⟨⟨⟨by decide,by decide,by decide⟩,?_⟩,⟨Nat.one_pos,?_⟩,⟨Nat.one_pos,?_⟩,trivial⟩,
      ⟨⟨Nat.one_pos,?_⟩,⟨Nat.one_pos,?_⟩,trivial⟩,trivial⟩,trivial⟩
    · intro p _ htx
      cases htx
    · intro p _ htx
      cases htx
    · intro p _ htx
      cases htx
    · intro p he
      cases he
    · intro p he
      cases he
  refine ⟨⟨by decide,by decide,?_⟩,?_⟩
  · intro j hj
    have hone : j = 0 := by
      have : pending ((threadStep .little (prepared onePort)
        (.nicRx 0 0 arrival toTenNet)).plane.ports 0) = 1 := by decide
      omega
    subst hone
    show _ ≠ _
    decide
  · exact rx_never_starved smallConfig .little onePort rfl rfl (by unfold SlotsFit; decide) (by decide)
      [[dropEvent,txEvent]] hrun 0 (by decide)

/-- One frame without a route: the ring is empty, both slots of the port are free. -/
theorem drop_starves :
    Meets (threadStep .little) (Possible 1) (prepared onePort) dropEvent.ops ∧
      Starved (serveBatch .little (prepared onePort) [dropEvent]).plane 0 := by
  refine ⟨⟨⟨by decide,by decide,by decide⟩,Nat.one_pos,Nat.one_pos,trivial⟩,?_,0,?_,?_⟩
  · decide +kernel
  · decide +kernel
  · decide +kernel

end Forwarder
end Ixmap
