import Mathlib
import Ixmap.Driver

/-! Ownership of packet-buffer slots over whole runs of the driver. A slot is held by the
client, by an outstanding receive or transmit descriptor, or by nobody; the flag word of a
slot is the number of its owners. -/
namespace Ixmap
namespace Driver

/-- What the plane and the buffer are set up with. -/
structure Config where
  numPorts : ℕ
  count : ℕ
  bufSize : ℕ
  addrDma : ℕ → ℕ
  numRxDesc : ℕ → ℕ
  numTxDesc : ℕ → ℕ
  rxBudget : ℕ → ℕ
  txBudget : ℕ → ℕ
  macAddr : ℕ → List UInt8
  rx_range : ∀ p, 1 ≤ numRxDesc p ∧ numRxDesc p ≤ 4096
  tx_range : ∀ p, 1 ≤ numTxDesc p ∧ numTxDesc p ≤ 4096

/-- A ring as `ixmap_desc_alloc` leaves it, in zeroed memory. -/
def initRing {D : Type} (zero : D) : Ring D := ⟨0,0,fun _ => 0,fun _ => zero,0,0,[],[],0⟩

def initPlane (cfg : Config) : Plane where
  ports p := {
    rxRing := initRing ⟨0,0⟩
    txRing := initRing ⟨0,0,0⟩
    rxSlotNext := 0
    rxSlotOffset := p*cfg.count % 2^32
    txSuspended := 0
    numTxDesc := cfg.numTxDesc p
    numRxDesc := cfg.numRxDesc p
    rxBudget := cfg.rxBudget p
    txBudget := cfg.txBudget p
    macAddr := cfg.macAddr p
    countRxAllocFailed := 0
    countRxCleanTotal := 0
    countTxXmitFailed := 0
    countTxCleanTotal := 0 }
  buf := ⟨cfg.addrDma,cfg.bufSize,cfg.count,fun _ => 0⟩

def rxPosts (cfg : Config) (p : ℕ) (x : ℤ) (d : RxDesc) : Prop :=
  d.pktAddr = (cfg.addrDma p + (cfg.bufSize*x % 2^32).toNat) % 2^64

def txPosts (cfg : Config) (p : ℕ) (x : ℤ) (d : TxDesc) : Prop :=
  d.bufferAddr = (cfg.addrDma p + (cfg.bufSize*x % 2^32).toNat) % 2^64

def rxDone (d : RxDesc) : Prop := ixmapTestStaterr d statDd ≠ 0

def txDone (d : TxDesc) : Prop := d.status &&& statDd ≠ 0

/-- Outstanding descriptors of one port that point to slot `x`. -/
def Port.owners (port : Port) (x : ℤ) : ℕ := port.rxRing.out.count x + port.txRing.out.count x

def Plane.owners (numPorts : ℕ) (d : Plane) (x : ℤ) : ℕ :=
  ∑ p ∈ Finset.range numPorts, (d.ports p).owners x

/-- The ring and slot invariant while the client holds the slots of `held`. -/
structure PlaneInv (cfg : Config) (held : List ℤ) (d : Plane) : Prop where
  addr : d.buf.addrDma = cfg.addrDma
  size : d.buf.bufSize = cfg.bufSize
  numRx : ∀ p, (d.ports p).numRxDesc = cfg.numRxDesc p
  numTx : ∀ p, (d.ports p).numTxDesc = cfg.numTxDesc p
  rx : ∀ p < cfg.numPorts, RingInv (cfg.numRxDesc p) (rxPosts cfg p) rxDone (d.ports p).rxRing
  tx : ∀ p < cfg.numPorts, RingInv (cfg.numTxDesc p) (txPosts cfg p) txDone (d.ports p).txRing
  own : ∀ x, 0 ≤ x → held.count x + d.owners cfg.numPorts x = d.buf.slots x
  flag : ∀ x, 0 ≤ x → d.buf.slots x ≤ 1
  neg : ∀ x, x < 0 → held.count x + d.owners cfg.numPorts x = 0

section Plane

variable {cfg : Config} {held held' : List ℤ} {d : Plane} {p : ℕ}

@[simp] theorem setPort_buf (d : Plane) (p : ℕ) (port : Port) : (d.setPort p port).buf = d.buf := rfl
@[simp] theorem setPort_self (d : Plane) (p : ℕ) (port : Port) : (d.setPort p port).ports p = port := by
  simp [Plane.setPort]
@[simp] theorem setSlot_ports (d : Plane) (x : ℤ) (f : ℕ) : (d.setSlot x f).ports = d.ports := rfl
@[simp] theorem setSlot_slots (d : Plane) (x : ℤ) (f : ℕ) :
    (d.setSlot x f).buf.slots = Function.update d.buf.slots x f := rfl
@[simp] theorem setSlot_addrDma (d : Plane) (x : ℤ) (f : ℕ) :
    (d.setSlot x f).buf.addrDma = d.buf.addrDma := rfl
@[simp] theorem setSlot_bufSize (d : Plane) (x : ℤ) (f : ℕ) :
    (d.setSlot x f).buf.bufSize = d.buf.bufSize := rfl

theorem setPort_other (d : Plane) {p q : ℕ} (port : Port) (h : q ≠ p) :
    (d.setPort p port).ports q = d.ports q := by
  simp [Plane.setPort,h]

@[simp] theorem owners_setSlot (d : Plane) (n : ℕ) (x : ℤ) (f : ℕ) :
    (d.setSlot x f).owners n = d.owners n := rfl

theorem owners_setPort {n : ℕ} (hp : p < n) (d : Plane) (port : Port) (x : ℤ) :
    (d.setPort p port).owners n x + (d.ports p).owners x = d.owners n x + port.owners x := by
  have hmem : p ∈ Finset.range n := Finset.mem_range.mpr hp
  have hrest : ∑ q ∈ (Finset.range n).erase p, ((d.setPort p port).ports q).owners x =
      ∑ q ∈ (Finset.range n).erase p, (d.ports q).owners x := by
    apply Finset.sum_congr rfl
    intro q hq
    rw [setPort_other d port (Finset.ne_of_mem_erase hq)]
  have h1 := Finset.add_sum_erase (Finset.range n) (fun q => ((d.setPort p port).ports q).owners x) hmem
  have h2 := Finset.add_sum_erase (Finset.range n) (fun q => (d.ports q).owners x) hmem
  simp only [setPort_self] at h1
  simp only [Plane.owners]
  omega

theorem PlaneInv.congr (h : PlaneInv cfg held d) (hc : ∀ x, held'.count x = held.count x) :
    PlaneInv cfg held' d := by
  constructor
  · exact h.addr
  · exact h.size
  · exact h.numRx
  · exact h.numTx
  · exact h.rx
  · exact h.tx
  · intro x hx
    rw [hc x]
    exact h.own x hx
  · exact h.flag
  · intro x hx
    rw [hc x]
    exact h.neg x hx

/-- Rewriting one port is safe when its rings stay queues and owners only change hands. -/
theorem PlaneInv.setPort (h : PlaneInv cfg held d) (hp : p < cfg.numPorts) {port : Port}
    (hrn : port.numRxDesc = cfg.numRxDesc p) (htn : port.numTxDesc = cfg.numTxDesc p)
    (hrx : RingInv (cfg.numRxDesc p) (rxPosts cfg p) rxDone port.rxRing)
    (htx : RingInv (cfg.numTxDesc p) (txPosts cfg p) txDone port.txRing)
    (hown : ∀ x, held'.count x + port.owners x = held.count x + (d.ports p).owners x) :
    PlaneInv cfg held' (d.setPort p port) := by
  have hkeep : ∀ x, held'.count x + (d.setPort p port).owners cfg.numPorts x =
      held.count x + d.owners cfg.numPorts x := by
    intro x
    have h1 := owners_setPort hp d port x
    have h2 := hown x
    omega
  constructor
  · exact h.addr
  · exact h.size
  · intro q
    by_cases hq : q = p
    · subst hq; simpa using hrn
    · rw [setPort_other d port hq]; exact h.numRx q
  · intro q
    by_cases hq : q = p
    · subst hq; simpa using htn
    · rw [setPort_other d port hq]; exact h.numTx q
  · intro q hq'
    by_cases hq : q = p
    · subst hq; simpa using hrx
    · rw [setPort_other d port hq]; exact h.rx q hq'
  · intro q hq'
    by_cases hq : q = p
    · subst hq; simpa using htx
    · rw [setPort_other d port hq]; exact h.tx q hq'
  · intro x hx
    rw [hkeep x]
    exact h.own x hx
  · exact h.flag
  · intro x hx
    rw [hkeep x]
    exact h.neg x hx

theorem PlaneInv.setPort_rings (h : PlaneInv cfg held d) {port : Port}
    (hrn : port.numRxDesc = (d.ports p).numRxDesc) (htn : port.numTxDesc = (d.ports p).numTxDesc)
    (hrx : port.rxRing = (d.ports p).rxRing) (htx : port.txRing = (d.ports p).txRing) :
    PlaneInv cfg held (d.setPort p port) := by
  by_cases hp : p < cfg.numPorts
  · refine h.setPort hp (hrn.trans (h.numRx p)) (htn.trans (h.numTx p)) (hrx ▸ h.rx p hp)
      (htx ▸ h.tx p hp) ?_
    intro x
    simp only [Port.owners,hrx,htx]
  · -- no port of the plane at all
    have hout : ∀ q < cfg.numPorts, (d.setPort p port).ports q = d.ports q :=
      fun q hq => setPort_other d port (by omega)
    have hown : ∀ x, (d.setPort p port).owners cfg.numPorts x = d.owners cfg.numPorts x := by
      intro x
      apply Finset.sum_congr rfl
      intro q hq
      rw [hout q (Finset.mem_range.mp hq)]
    constructor
    · exact h.addr
    · exact h.size
    · intro q
      by_cases hq : q = p
      · subst hq; simpa using hrn.trans (h.numRx q)
      · rw [setPort_other d port hq]; exact h.numRx q
    · intro q
      by_cases hq : q = p
      · subst hq; simpa using htn.trans (h.numTx q)
      · rw [setPort_other d port hq]; exact h.numTx q
    · intro q hq
      rw [hout q hq]
      exact h.rx q hq
    · intro q hq
      rw [hout q hq]
      exact h.tx q hq
    · intro x hx
      rw [hown x]
      exact h.own x hx
    · exact h.flag
    · intro x hx
      rw [hown x]
      exact h.neg x hx

theorem PlaneInv.release {x : ℤ} (h : PlaneInv cfg (x::held) d) :
    PlaneInv cfg held (ixmapSlotRelease d x) := by
  have hx : 0 ≤ x := by
    by_contra hc
    have := h.neg x (by omega)
    simp at this
  have hone := h.own x hx
  have hflag := h.flag x hx
  simp only [List.count_cons_self] at hone
  constructor
  · exact h.addr
  · exact h.size
  · exact h.numRx
  · exact h.numTx
  · exact h.rx
  · exact h.tx
  · intro y hy
    by_cases he : y = x
    · subst he
      simp only [ixmapSlotRelease,setSlot_slots,Function.update_self,owners_setSlot]
      omega
    · simp only [ixmapSlotRelease,setSlot_slots,Function.update_of_ne he,owners_setSlot]
      have := h.own y hy
      rwa [List.count_cons_of_ne (Ne.symm he)] at this
  · intro y hy
    by_cases he : y = x
    · simp [ixmapSlotRelease,he]
    · simpa only [ixmapSlotRelease,setSlot_slots,Function.update_of_ne he] using h.flag y hy
  · intro y hy
    have := h.neg y hy
    rw [List.count_cons_of_ne (by omega)] at this
    exact this

theorem PlaneInv.take {x : ℤ} (h : PlaneInv cfg held d) (hx : 0 ≤ x)
    (hfree : d.buf.slots x &&& slotInflight = 0) :
    PlaneInv cfg (x::held) (d.setSlot x (d.buf.slots x ||| slotInflight)) := by
  have hz : d.buf.slots x = 0 := by
    have h1 := h.flag x hx
    simp only [slotInflight,Nat.and_one_is_mod] at hfree
    omega
  have hone := h.own x hx
  constructor
  · exact h.addr
  · exact h.size
  · exact h.numRx
  · exact h.numTx
  · exact h.rx
  · exact h.tx
  · intro y hy
    by_cases he : y = x
    · subst he
      simp only [setSlot_slots,Function.update_self,owners_setSlot,List.count_cons_self,hz,
        slotInflight,Nat.zero_or]
      omega
    · simp only [setSlot_slots,Function.update_of_ne he,owners_setSlot]
      rw [List.count_cons_of_ne (Ne.symm he)]
      exact h.own y hy
  · intro y hy
    by_cases he : y = x
    · simp [he,hz,slotInflight]
    · simpa only [setSlot_slots,Function.update_of_ne he] using h.flag y hy
  · intro y hy
    rw [List.count_cons_of_ne (by omega)]
    exact h.neg y hy

/-- A word in front of the flag array belongs to no slot. -/
theorem PlaneInv.setSlot_neg {x : ℤ} (h : PlaneInv cfg held d) (hx : x < 0) (f : ℕ) :
    PlaneInv cfg held (d.setSlot x f) := by
  constructor
  · exact h.addr
  · exact h.size
  · exact h.numRx
  · exact h.numTx
  · exact h.rx
  · exact h.tx
  · intro y hy
    simp only [setSlot_slots,Function.update_of_ne (show y ≠ x by omega),owners_setSlot]
    exact h.own y hy
  · intro y hy
    simpa only [setSlot_slots,Function.update_of_ne (show y ≠ x by omega)] using h.flag y hy
  · exact h.neg

theorem slotScan_free {slots : ℤ → ℕ} {offset count k next r : ℕ}
    (h : slotScan slots offset count k next = some r) :
    slots (slotAt offset r) &&& slotInflight = 0 := by
  induction k generalizing next with
  | zero => simp [slotScan] at h
  | succ k ih =>
    rw [slotScan] at h
    split at h
    · rename_i hf
      have he : next = r := by simpa using h
      rwa [← he]
    · exact ih h

def granted (slot : ℤ) : List ℤ := if slot < 0 then [] else [slot]

theorem slotAssign_cases (d : Plane) (p : ℕ) :
    ixmapSlotAssign d p = (-1,d) ∨
    ∃ next, d.buf.slots (slotAt (d.ports p).rxSlotOffset next) &&& slotInflight = 0 ∧
      ixmapSlotAssign d p = (slotAt (d.ports p).rxSlotOffset next,
        (d.setPort p { d.ports p with rxSlotNext := wrapNext d.buf.count next }).setSlot
          (slotAt (d.ports p).rxSlotOffset next)
          (d.buf.slots (slotAt (d.ports p).rxSlotOffset next) ||| slotInflight)) := by
  cases hscan : slotScan d.buf.slots (d.ports p).rxSlotOffset d.buf.count d.buf.count
      (d.ports p).rxSlotNext with
  | none => exact Or.inl (by simp [ixmapSlotAssign,hscan])
  | some next => exact Or.inr ⟨next,slotScan_free hscan,by simp [ixmapSlotAssign,hscan]⟩

theorem PlaneInv.slotAssign (h : PlaneInv cfg held d) (p : ℕ) :
    PlaneInv cfg (granted (ixmapSlotAssign d p).1 ++ held) (ixmapSlotAssign d p).2 := by
  rcases slotAssign_cases d p with he | ⟨next,hfree,he⟩
  · rw [he]
    simpa [granted] using h
  · have hport : PlaneInv cfg held (d.setPort p
        { d.ports p with rxSlotNext := wrapNext d.buf.count next }) :=
      h.setPort_rings rfl rfl rfl rfl
    rw [he]
    by_cases hneg : slotAt (d.ports p).rxSlotOffset next < 0
    · simpa [granted,hneg] using hport.setSlot_neg hneg _
    · simpa [granted,hneg] using hport.take (not_lt.mp hneg) hfree

theorem slotAssign_frame (d : Plane) (p q : ℕ) :
    ∃ next, (ixmapSlotAssign d p).2.ports q = { d.ports q with rxSlotNext := next } := by
  rcases slotAssign_cases d p with he | ⟨next,-,he⟩
  · exact ⟨(d.ports q).rxSlotNext,by rw [he]⟩
  · rw [he]
    by_cases hq : q = p
    · subst hq
      exact ⟨wrapNext d.buf.count next,by simp⟩
    · exact ⟨(d.ports q).rxSlotNext,by simp [setPort_other _ _ hq]⟩

theorem PlaneInv.rxPost {x : ℤ} (h : PlaneInv cfg (x::held) d) (hp : p < cfg.numPorts)
    (hroom : (d.ports p).rxRing.out.length+1 < cfg.numRxDesc p) :
    PlaneInv cfg held (rxPost d p x) := by
  have hr := h.rx p hp
  have hlen := (d.ports p).rxRing.out_length
  have hord := hr.order
  have hle := hr.completed_le
  refine h.setPort hp (h.numRx p) (h.numTx p) ?_ (h.tx p hp) ?_
  · rw [h.numRx p]
    apply hr.post (by omega)
    · simp [rxPosts,ixmapSlotAddrDma,h.addr,h.size]
    · simp [rxDone,ixmapTestStaterr,RxDesc.statusError]
  · intro y
    simp only [Port.owners,h.numRx p,Ring.out_post hr,List.count_append,List.count_cons,
      List.count_nil]
    omega

theorem PlaneInv.slotAssign_free (h : PlaneInv cfg held d) (hx : 0 ≤ (ixmapSlotAssign d p).1) :
    d.owners cfg.numPorts (ixmapSlotAssign d p).1 = 0 := by
  rcases slotAssign_cases d p with he | ⟨next,hfree,he⟩
  · rw [he] at hx
    omega
  · rw [he] at hx ⊢
    dsimp only at hx ⊢
    have hown := h.own _ hx
    have hflag := h.flag _ hx
    rw [slotInflight,Nat.and_one_is_mod] at hfree
    omega

theorem owners_slotAssign (d : Plane) (p n : ℕ) (x : ℤ) :
    (ixmapSlotAssign d p).2.owners n x = d.owners n x := by
  apply Finset.sum_congr rfl
  intro q _
  obtain ⟨next,hframe⟩ := slotAssign_frame d p q
  rw [hframe]
  rfl

theorem PlaneInv.out_rxPost {x : ℤ} (h : PlaneInv cfg held d) (hp : p < cfg.numPorts) :
    ((Driver.rxPost d p x).ports p).rxRing.out = (d.ports p).rxRing.out ++ [x] := by
  simp only [Driver.rxPost,setPort_self,h.numRx p]
  rw [Ring.out_post (h.rx p hp)]

theorem PlaneInv.owners_rxPost {x : ℤ} (h : PlaneInv cfg held d) (hp : p < cfg.numPorts) (y : ℤ) :
    d.owners cfg.numPorts y ≤ (Driver.rxPost d p x).owners cfg.numPorts y := by
  have hout := h.out_rxPost (x := x) hp
  have hgain : (d.ports p).owners y ≤ ((Driver.rxPost d p x).ports p).owners y := by
    simp only [Port.owners,hout,List.count_append]
    simp only [Driver.rxPost,setPort_self]
    omega
  have hset := owners_setPort hp d ((Driver.rxPost d p x).ports p) y
  rw [show d.setPort p ((Driver.rxPost d p x).ports p) = Driver.rxPost d p x by simp [Driver.rxPost]] at hset
  omega

/-- The posting loop never runs out of descriptors, leaves the client's slots alone and attaches only
slots that had no owner. -/
theorem PlaneInv.rxAssignLoop (hp : p < cfg.numPorts) (k total : ℕ) (h : PlaneInv cfg held d)
    (hroom : (d.ports p).rxRing.out.length+k < cfg.numRxDesc p) :
    PlaneInv cfg held (rxAssignLoop p k total d).2 ∧
      ∃ new, ((Driver.rxAssignLoop p k total d).2.ports p).rxRing.out = (d.ports p).rxRing.out ++ new ∧
        ∀ x ∈ new, d.owners cfg.numPorts x = 0 := by
  induction k generalizing total d with
  | zero => exact ⟨h,[],by simp [Driver.rxAssignLoop]⟩
  | succ k ih =>
    have hs := h.slotAssign p
    obtain ⟨next,hframe⟩ := slotAssign_frame d p p
    have hring : ((ixmapSlotAssign d p).2.ports p).rxRing = (d.ports p).rxRing := by rw [hframe]
    rw [Driver.rxAssignLoop]
    by_cases hneg : (ixmapSlotAssign d p).1 < 0
    · simp only [hneg,if_true]
      simp only [granted,hneg,if_true,List.nil_append] at hs
      exact ⟨hs.setPort_rings rfl rfl rfl rfl,[],by simp [hring]⟩
    · simp only [hneg,if_false]
      simp only [granted,hneg,if_false,List.singleton_append] at hs
      have hout := hs.out_rxPost (x := (ixmapSlotAssign d p).1) hp
      rw [hring] at hout
      obtain ⟨hinv,new,hnew,hfree⟩ := ih (total+1) (hs.rxPost hp (by rw [hring]; omega))
        (by rw [hout,List.length_append,List.length_singleton]; omega)
      refine ⟨hinv,(ixmapSlotAssign d p).1::new,?_,?_⟩
      · rw [hnew,hout,List.append_assoc,List.singleton_append]
      intro x hx
      rcases List.mem_cons.mp hx with rfl | hx
      · exact h.slotAssign_free (not_lt.mp hneg)
      · have hle := hs.owners_rxPost (x := (ixmapSlotAssign d p).1) hp x
        rw [hfree x hx,owners_slotAssign] at hle
        exact Nat.le_zero.mp hle

theorem PlaneInv.descUnused_rx (h : PlaneInv cfg held d) (hp : p < cfg.numPorts) :
    ixmapDescUnused (d.ports p).rxRing (d.ports p).numRxDesc =
      cfg.numRxDesc p-1-(d.ports p).rxRing.out.length := by
  have hrange := cfg.rx_range p
  rw [ixmapDescUnused,h.numRx p,(h.rx p hp).unused_eq]
  exact Nat.mod_eq_of_lt (by omega)

theorem PlaneInv.descUnused_tx (h : PlaneInv cfg held d) (hp : p < cfg.numPorts) :
    ixmapDescUnused (d.ports p).txRing (d.ports p).numTxDesc =
      cfg.numTxDesc p-1-(d.ports p).txRing.out.length := by
  have hrange := cfg.tx_range p
  rw [ixmapDescUnused,h.numTx p,(h.tx p hp).unused_eq]
  exact Nat.mod_eq_of_lt (by omega)

theorem PlaneInv.rxAssign (h : PlaneInv cfg held d) (hp : p < cfg.numPorts) :
    PlaneInv cfg held (ixmapRxAssign d p) := by
  unfold ixmapRxAssign
  dsimp only
  split
  · exact h
  · rename_i hmax
    have hun := h.descUnused_rx hp
    have hloop := (h.rxAssignLoop hp (ixmapDescUnused (d.ports p).rxRing (d.ports p).numRxDesc) 0
      (by omega)).1
    split
    · exact hloop
    · exact hloop.setPort hp (hloop.numRx p) (hloop.numTx p) (hloop.rx p hp).write_tail
        (hloop.tx p hp) (fun x => rfl)

theorem PlaneInv.rxAssign_posts (h : PlaneInv cfg held d) (hp : p < cfg.numPorts) :
    ∃ new, ((ixmapRxAssign d p).ports p).rxRing.out = (d.ports p).rxRing.out ++ new ∧
      ∀ x ∈ new, d.owners cfg.numPorts x = 0 := by
  unfold ixmapRxAssign
  dsimp only
  split
  · exact ⟨[],by simp⟩
  · have hun := h.descUnused_rx hp
    obtain ⟨new,hnew,hfree⟩ := (h.rxAssignLoop hp
      (ixmapDescUnused (d.ports p).rxRing (d.ports p).numRxDesc) 0 (by omega)).2
    refine ⟨new,?_,hfree⟩
    split
    · exact hnew
    · simpa [ixmapWriteTail,Ring.out] using hnew

theorem PlaneInv.txXmitFailed {packet : Packet} (h : PlaneInv cfg (packet.slotIndex::held) d) (p : ℕ) :
    PlaneInv cfg held (txXmitFailed d p packet) := by
  apply PlaneInv.release
  exact h.setPort_rings rfl rfl rfl rfl

/-- `ixmap_tx_assign` disposes of the slot on every path. -/
theorem PlaneInv.txAssign {packet : Packet} (h : PlaneInv cfg (packet.slotIndex::held) d)
    (hp : p < cfg.numPorts) : PlaneInv cfg held (ixmapTxAssign d p packet) := by
  unfold ixmapTxAssign
  split
  · exact h.txXmitFailed p
  · rename_i href
    have hr := h.tx p hp
    have hun := h.descUnused_tx hp
    have hlen := (d.ports p).txRing.out_length
    have hord := hr.order
    have hle := hr.completed_le
    have hroom : ixmapDescUnused (d.ports p).txRing (d.ports p).numTxDesc ≠ 0 :=
      fun hz => href (Or.inl hz)
    refine h.setPort hp (h.numRx p) (h.numTx p) (h.rx p hp) ?_ ?_
    · rw [h.numTx p]
      apply hr.post (by omega)
      · simp [txPosts,txDesc,ixmapSlotAddrDma,h.addr,h.size]
      · simp only [txDone,txDesc,TxDesc.status,statDd,Nat.and_one_is_mod]
        omega
    · intro y
      simp only [Port.owners,h.numTx p,Ring.out_post hr,List.count_append,List.count_cons,
        List.count_nil]
      omega

theorem PlaneInv.txXmit (h : PlaneInv cfg held d) (hp : p < cfg.numPorts) :
    PlaneInv cfg held (ixmapTxXmit d p) := by
  unfold ixmapTxXmit
  dsimp only
  split
  · exact h
  · exact h.setPort hp (h.numRx p) (h.numTx p) (h.rx p hp) (h.tx p hp).write_tail (fun x => rfl)

theorem PlaneInv.txClean_step (h : PlaneInv cfg held d) (hp : p < cfg.numPorts)
    (hne : (d.ports p).txRing.nextToClean ≠ (d.ports p).txRing.nextToUse)
    (hdd : txDone ((d.ports p).txRing.desc (d.ports p).txRing.nextToClean)) :
    PlaneInv cfg held (txAdvance d p) := by
  have hr := h.tx p hp
  have hlt := hr.cleanable hne hdd
  have hmove : PlaneInv cfg ((d.ports p).txRing.slotIndex (d.ports p).txRing.nextToClean::held)
      (d.setPort p { d.ports p with
        txRing := (d.ports p).txRing.clean (d.ports p).numTxDesc }) := by
    refine h.setPort hp (h.numRx p) (h.numTx p) (h.rx p hp) ?_ ?_
    · rw [h.numTx p]
      exact hr.clean_inv hlt
    · intro y
      simp only [Port.owners,h.numTx p,hr.out_cons hlt,List.count_cons]
      omega
  exact hmove.release

/-- The receive cleaning loop takes the oldest outstanding slots off the ring, as many of the completed
ones as the budget allows. -/
theorem rxCleanLoop_ring {n : ℕ} {posts : ℤ → RxDesc → Prop} (p k : ℕ)
    (h : RingInv n posts rxDone (d.ports p).rxRing) (hn : (d.ports p).numRxDesc = n) :
    ∃ ring, (rxCleanLoop p k d).2 = d.setPort p { d.ports p with rxRing := ring } ∧
      RingInv n posts rxDone ring ∧
      (rxCleanLoop p k d).1.map Packet.slotIndex ++ ring.out = (d.ports p).rxRing.out ∧
      ring.cleaned = (d.ports p).rxRing.cleaned ++ (rxCleanLoop p k d).1.map Packet.slotIndex ∧
      (rxCleanLoop p k d).1.length =
        min k ((d.ports p).rxRing.completed-(d.ports p).rxRing.cleaned.length) := by
  induction k generalizing d with
  | zero => exact ⟨_,by simp [rxCleanLoop,Plane.setPort],h,rfl,by simp [rxCleanLoop],by simp [rxCleanLoop]⟩
  | succ k ih =>
    have hord := h.order
    have hle := h.completed_le
    have hstop : (d.ports p).rxRing.completed-(d.ports p).rxRing.cleaned.length = 0 →
        ∃ ring, d = d.setPort p { d.ports p with rxRing := ring } ∧ RingInv n posts rxDone ring ∧
          ring.out = (d.ports p).rxRing.out ∧ ring.cleaned = (d.ports p).rxRing.cleaned ++ [] ∧
          0 = min (k+1) ((d.ports p).rxRing.completed-(d.ports p).rxRing.cleaned.length) := by
      intro hz
      exact ⟨(d.ports p).rxRing,by simp [Plane.setPort],h,rfl,by simp,by omega⟩
    rw [rxCleanLoop]
    by_cases hemp : (d.ports p).rxRing.nextToClean = (d.ports p).rxRing.nextToUse
    · have hlen := h.empty_iff.mp hemp
      simp only [hemp,if_true]
      exact hstop (by omega)
    simp only [hemp,if_false]
    by_cases hdd : ixmapTestStaterr ((d.ports p).rxRing.desc (d.ports p).rxRing.nextToClean)
        statDd = 0
    · simp only [hdd,if_true]
      apply hstop
      by_contra hc
      have hdone := h.done (d.ports p).rxRing.cleaned.length (le_refl _) (by omega)
      rw [← h.clean] at hdone
      exact hdone hdd
    simp only [hdd,if_false]
    have hlt := h.cleanable hemp hdd
    have hadv : ((rxAdvance d p).ports p).rxRing = (d.ports p).rxRing.clean n := by
      simp [rxAdvance,hn]
    obtain ⟨ring,hd,hring,hsplit,hcl,hlen⟩ := ih (d := rxAdvance d p)
      (by rw [hadv]; exact h.clean_inv hlt) (by simpa [rxAdvance] using hn)
    rw [hadv] at hsplit hcl hlen
    refine ⟨ring,?_,hring,?_,?_,?_⟩
    · rw [hd]
      simp [rxAdvance,Plane.setPort]
    · rw [List.map_cons,List.cons_append,hsplit,← h.out_cons hlt]
    · rw [hcl]
      simp [Ring.clean]
    · simp only [Ring.clean,List.length_append,List.length_singleton] at hlen
      rw [List.length_cons,hlen]
      omega

theorem PlaneInv.rxCleanLoop (hp : p < cfg.numPorts) (k : ℕ) (h : PlaneInv cfg held d) :
    PlaneInv cfg ((rxCleanLoop p k d).1.map Packet.slotIndex ++ held) (rxCleanLoop p k d).2 ∧
    (rxCleanLoop p k d).1.map Packet.slotIndex = (d.ports p).rxRing.out.take
      (min k ((d.ports p).rxRing.completed-(d.ports p).rxRing.cleaned.length)) ∧
    ((rxCleanLoop p k d).2.ports p).rxRing.cleaned = (d.ports p).rxRing.cleaned ++
      (rxCleanLoop p k d).1.map Packet.slotIndex := by
  obtain ⟨ring,hd,hring,hsplit,hcl,hlen⟩ := rxCleanLoop_ring p k (h.rx p hp) (h.numRx p)
  refine ⟨?_,?_,?_⟩
  · rw [hd]
    refine h.setPort hp (h.numRx p) (h.numTx p) hring (h.tx p hp) ?_
    intro x
    simp only [Port.owners,← hsplit,List.count_append]
    omega
  · rw [← hsplit,← hlen,List.take_left' (by simp)]
  · rw [hd,setPort_self]
    exact hcl

theorem PlaneInv.rxClean (h : PlaneInv cfg held d) (hp : p < cfg.numPorts) :
    PlaneInv cfg ((ixmapRxClean d p).1.map Packet.slotIndex ++ held) (ixmapRxClean d p).2 := by
  have hloop := (h.rxCleanLoop hp (d.ports p).rxBudget).1
  exact hloop.setPort_rings rfl rfl rfl rfl

theorem PlaneInv.txCleanLoop (hp : p < cfg.numPorts) (k : ℕ) (h : PlaneInv cfg held d) :
    PlaneInv cfg held (txCleanLoop p k d).2 := by
  induction k generalizing d with
  | zero => exact h
  | succ k ih =>
    rw [Driver.txCleanLoop]
    dsimp only
    split
    · exact h
    · rename_i hne
      split
      · exact h
      · rename_i hdd
        exact ih (h.txClean_step hp hne hdd)

theorem PlaneInv.txClean (h : PlaneInv cfg held d) (hp : p < cfg.numPorts) :
    PlaneInv cfg held (ixmapTxClean d p) := by
  have hloop := h.txCleanLoop hp (d.ports p).txBudget
  exact hloop.setPort_rings rfl rfl rfl rfl

def nicRx (d : Plane) (p lo hi : ℕ) : Plane :=
  d.setPort p { d.ports p with
    rxRing := (d.ports p).rxRing.complete (d.ports p).numRxDesc (fun _ => ⟨lo,hi⟩) }

def nicTx (d : Plane) (p status : ℕ) : Plane :=
  d.setPort p { d.ports p with
    txRing := (d.ports p).txRing.complete (d.ports p).numTxDesc
      (fun t => { t with olinfoStatus := status }) }

theorem PlaneInv.nicRx (h : PlaneInv cfg held d) (hp : p < cfg.numPorts) {lo hi : ℕ}
    (hne : (d.ports p).rxRing.head ≠ (d.ports p).rxRing.tail) (hdd : hi%2 = 1) :
    PlaneInv cfg held (nicRx d p lo hi) := by
  have hwb : rxDone ⟨lo,hi⟩ := by
    simp only [rxDone,ixmapTestStaterr,RxDesc.statusError,statDd,Nat.and_one_is_mod]
    omega
  refine h.setPort hp (h.numRx p) (h.numTx p) ?_ (h.tx p hp) (fun x => rfl)
  rw [h.numRx p]
  exact (h.rx p hp).complete_inv hne (fun _ => hwb)

theorem PlaneInv.nicTx (h : PlaneInv cfg held d) (hp : p < cfg.numPorts) {status : ℕ}
    (hne : (d.ports p).txRing.head ≠ (d.ports p).txRing.tail) (hdd : status%2 = 1) :
    PlaneInv cfg held (nicTx d p status) := by
  have hwb : ∀ t : TxDesc, txDone { t with olinfoStatus := status } := by
    intro t
    simp only [txDone,TxDesc.status,statDd,Nat.and_one_is_mod]
    omega
  refine h.setPort hp (h.numRx p) (h.numTx p) (h.rx p hp) ?_ (fun x => rfl)
  rw [h.numTx p]
  exact (h.tx p hp).complete_inv hne hwb

theorem initRing_inv {D : Type} {n : ℕ} (hn : 0 < n) (posts : ℤ → D → Prop) (dd : D → Prop)
    (zero : D) : RingInv n posts dd (initRing zero) := by
  constructor <;> simp [initRing,hn]

theorem initPlane_inv (cfg : Config) : PlaneInv cfg [] (initPlane cfg) := by
  constructor
  · rfl
  · rfl
  · exact fun p => rfl
  · exact fun p => rfl
  · exact fun p _ => initRing_inv (cfg.rx_range p).1 _ _ _
  · exact fun p _ => initRing_inv (cfg.tx_range p).1 _ _ _
  · intro x _
    simp [Plane.owners,Port.owners,initPlane,initRing,Ring.out]
  · intro x _
    simp [initPlane]
  · intro x _
    simp [Plane.owners,Port.owners,initPlane,initRing,Ring.out]

end Plane

end Driver
end Ixmap
