import Mathlib
import Ixmap.DriverOwnership

/-! Runs of the driver: any interleaving of library calls by a client that disposes of each
slot it holds exactly once, with a device completing published descriptors in ring order. -/
namespace Ixmap
namespace Driver

/-- The driver, the slots the client holds, and what has passed through each port so far. -/
structure RunState where
  plane : Plane
  held : List ℤ
  /-- Packets handed to `ixmap_tx_assign`, per port. -/
  passed : ℕ → ℕ
  /-- Slots returned by `ixmap_rx_clean`, per port and oldest first. -/
  returned : ℕ → List ℤ

inductive Op
  | rxAssign (p : ℕ)
  | rxClean (p : ℕ)
  | txAssign (p : ℕ) (packet : Packet)
  | txXmit (p : ℕ)
  | txClean (p : ℕ)
  | slotAssign (p : ℕ)
  | slotRelease (slot : ℤ)
  | nicRx (p lo hi : ℕ)
  | nicTx (p status : ℕ)

/-- One call, or one completion by the device; `none` is a call the client may not make or a
completion the device does not perform. -/
def step (cfg : Config) (s : RunState) : Op → Option RunState
  | .rxAssign p => if p < cfg.numPorts then some { s with plane := ixmapRxAssign s.plane p } else none
  | .rxClean p =>
    if p < cfg.numPorts then
      let r := ixmapRxClean s.plane p
      some { s with
        plane := r.2
        held := r.1.map Packet.slotIndex ++ s.held
        returned := Function.update s.returned p (s.returned p ++ r.1.map Packet.slotIndex) }
    else none
  | .txAssign p packet =>
    if p < cfg.numPorts ∧ packet.slotIndex ∈ s.held then
      some { s with
        plane := ixmapTxAssign s.plane p packet
        held := s.held.erase packet.slotIndex
        passed := Function.update s.passed p (s.passed p+1) }
    else none
  | .txXmit p => if p < cfg.numPorts then some { s with plane := ixmapTxXmit s.plane p } else none
  | .txClean p => if p < cfg.numPorts then some { s with plane := ixmapTxClean s.plane p } else none
  | .slotAssign p =>
    if p < cfg.numPorts then
      let r := ixmapSlotAssign s.plane p
      some { s with plane := r.2, held := granted r.1 ++ s.held }
    else none
  | .slotRelease slot =>
    if slot ∈ s.held then
      some { s with plane := ixmapSlotRelease s.plane slot, held := s.held.erase slot }
    else none
  | .nicRx p lo hi =>
    if p < cfg.numPorts ∧ (s.plane.ports p).rxRing.head ≠ (s.plane.ports p).rxRing.tail ∧ hi%2 = 1 then
      some { s with plane := nicRx s.plane p lo hi }
    else none
  | .nicTx p status =>
    if p < cfg.numPorts ∧ (s.plane.ports p).txRing.head ≠ (s.plane.ports p).txRing.tail ∧
        status%2 = 1 then
      some { s with plane := nicTx s.plane p status }
    else none

def initState (cfg : Config) : RunState := ⟨initPlane cfg,[],fun _ => 0,fun _ => []⟩

def run (cfg : Config) : RunState → List Op → Option RunState
  | s, [] => some s
  | s, op::ops => (step cfg s op).bind fun s' => run cfg s' ops

/-- What the run-level accounting reads of a port. -/
def Port.view (port : Port) : List ℤ × ℕ × ℕ × ℕ :=
  (port.rxRing.cleaned,port.countTxXmitFailed,port.countTxCleanTotal,port.txRing.out.length)

section View

variable {cfg : Config} {held : List ℤ} {d : Plane} {p : ℕ}

theorem view_setPort {port : Port} (h : port.view = (d.ports p).view) (q : ℕ) :
    ((d.setPort p port).ports q).view = (d.ports q).view := by
  by_cases hq : q = p
  · subst hq; simpa using h
  · rw [setPort_other d port hq]

theorem view_slotAssign (d : Plane) (p q : ℕ) :
    ((ixmapSlotAssign d p).2.ports q).view = (d.ports q).view := by
  obtain ⟨next,h⟩ := slotAssign_frame d p q
  rw [h]
  rfl

theorem view_rxAssignLoop (k total : ℕ) (d : Plane) (p q : ℕ) :
    ((rxAssignLoop p k total d).2.ports q).view = (d.ports q).view := by
  induction k generalizing total d with
  | zero => rfl
  | succ k ih =>
    rw [Driver.rxAssignLoop]
    by_cases hneg : (ixmapSlotAssign d p).1 < 0
    · simp only [hneg,if_true]
      exact (view_setPort (by rfl) q).trans (view_slotAssign d p q)
    · simp only [hneg,if_false]
      rw [ih]
      exact (view_setPort (by rfl) q).trans (view_slotAssign d p q)

theorem view_rxAssign (d : Plane) (p q : ℕ) :
    ((ixmapRxAssign d p).ports q).view = (d.ports q).view := by
  unfold ixmapRxAssign
  dsimp only
  split
  · rfl
  · split
    · exact view_rxAssignLoop _ _ _ _ _
    · exact (view_setPort (by rfl) q).trans (view_rxAssignLoop _ _ _ _ _)

theorem view_txXmit (d : Plane) (p q : ℕ) :
    ((ixmapTxXmit d p).ports q).view = (d.ports q).view := by
  unfold ixmapTxXmit
  dsimp only
  split
  · rfl
  · exact view_setPort (by rfl) q

theorem rxCleanLoop_frame (k : ℕ) (d : Plane) (p q : ℕ) :
    ((rxCleanLoop p k d).2.ports q).view.2 = (d.ports q).view.2 ∧
      (q ≠ p → (rxCleanLoop p k d).2.ports q = d.ports q) := by
  induction k generalizing d with
  | zero => exact ⟨rfl,fun _ => rfl⟩
  | succ k ih =>
    rw [Driver.rxCleanLoop]
    dsimp only
    split
    · exact ⟨rfl,fun _ => rfl⟩
    split
    · exact ⟨rfl,fun _ => rfl⟩
    have hih := ih (rxAdvance d p)
    by_cases hq : q = p
    · subst hq
      refine ⟨hih.1.trans ?_,fun h => absurd rfl h⟩
      simp [rxAdvance,Port.view]
    · have hother : (rxAdvance d p).ports q = d.ports q := setPort_other _ _ hq
      rw [hother] at hih
      exact hih

/-- The transmit cleaning loop turns outstanding descriptors into counted ones. -/
theorem txCleanLoop_frame (hp : p < cfg.numPorts) (k : ℕ) (h : PlaneInv cfg held d) :
    ((txCleanLoop p k d).2.ports p).rxRing = (d.ports p).rxRing ∧
    ((txCleanLoop p k d).2.ports p).countTxXmitFailed = (d.ports p).countTxXmitFailed ∧
    ((txCleanLoop p k d).2.ports p).countTxCleanTotal = (d.ports p).countTxCleanTotal ∧
    ((txCleanLoop p k d).2.ports p).txRing.out.length+(txCleanLoop p k d).1 =
      (d.ports p).txRing.out.length ∧
    ∀ q, q ≠ p → (txCleanLoop p k d).2.ports q = d.ports q := by
  induction k generalizing d with
  | zero => exact ⟨rfl,rfl,rfl,rfl,fun _ _ => rfl⟩
  | succ k ih =>
    rw [Driver.txCleanLoop]
    dsimp only
    split
    · exact ⟨rfl,rfl,rfl,rfl,fun _ _ => rfl⟩
    rename_i hne
    split
    · exact ⟨rfl,rfl,rfl,rfl,fun _ _ => rfl⟩
    rename_i hdd
    have hlt := (h.tx p hp).cleanable hne hdd
    have hcons := congrArg List.length ((h.tx p hp).out_cons hlt)
    obtain ⟨h1,h2,h3,h4,h5⟩ := ih (h.txClean_step hp hne hdd)
    have hself : (txAdvance d p).ports p = { d.ports p with
        txRing := (d.ports p).txRing.clean (cfg.numTxDesc p) } := by
      simp [txAdvance,h.numTx p]
    rw [hself] at h1 h2 h3 h4
    refine ⟨h1,h2,h3,?_,?_⟩
    · simp only [List.length_cons] at hcons
      dsimp only at h4 ⊢
      omega
    · intro q hq
      rw [h5 q hq]
      exact setPort_other _ _ hq

end View

/-- Packets a port has accounted for: refused, cleaned, or still outstanding. -/
def Port.ledger (port : Port) : ℕ :=
  port.countTxXmitFailed + port.countTxCleanTotal + port.txRing.out.length

/-- The invariant of a run. -/
structure RunInv (cfg : Config) (s : RunState) : Prop where
  plane : PlaneInv cfg s.held s.plane
  returned : ∀ p, s.returned p = (s.plane.ports p).rxRing.cleaned
  passed : ∀ p < cfg.numPorts, s.passed p % 2^64 = (s.plane.ports p).ledger % 2^64

section Run

variable {cfg : Config} {s : RunState}

theorem RunInv.frame (h : RunInv cfg s) {d : Plane} {held : List ℤ} (hd : PlaneInv cfg held d)
    (hview : ∀ q, (d.ports q).view = (s.plane.ports q).view) :
    RunInv cfg { s with plane := d, held := held } := by
  have hv : ∀ q, (d.ports q).rxRing.cleaned = (s.plane.ports q).rxRing.cleaned ∧
      (d.ports q).ledger = (s.plane.ports q).ledger := by
    intro q
    have hq := hview q
    simp only [Port.view,Prod.mk.injEq] at hq
    simp [Port.ledger,hq.1,hq.2.1,hq.2.2.1,hq.2.2.2]
  constructor
  · exact hd
  · intro p
    rw [(hv p).1]
    exact h.returned p
  · intro p hp
    rw [(hv p).2]
    exact h.passed p hp

theorem PlaneInv.erase {held : List ℤ} {d : Plane} {x : ℤ} (h : PlaneInv cfg held d)
    (hx : x ∈ held) : PlaneInv cfg (x::held.erase x) d :=
  h.congr fun y => (List.perm_cons_erase hx).symm.count_eq y

theorem RunInv.rxClean (h : RunInv cfg s) {p : ℕ} (hp : p < cfg.numPorts) :
    RunInv cfg { s with
      plane := (ixmapRxClean s.plane p).2
      held := (ixmapRxClean s.plane p).1.map Packet.slotIndex ++ s.held
      returned := Function.update s.returned p
        (s.returned p ++ (ixmapRxClean s.plane p).1.map Packet.slotIndex) } := by
  have hcl := (h.plane.rxCleanLoop hp (s.plane.ports p).rxBudget).2.2
  have hframe := fun q => rxCleanLoop_frame (s.plane.ports p).rxBudget s.plane p q
  constructor
  · exact h.plane.rxClean hp
  · intro q
    by_cases hq : q = p
    · subst hq
      simp only [Function.update_self,ixmapRxClean,setPort_self,h.returned q]
      exact hcl.symm
    · simp only [Function.update_of_ne hq,ixmapRxClean,setPort_other _ _ hq]
      rw [(hframe q).2 hq]
      exact h.returned q
  · intro q hq'
    have hl : ((ixmapRxClean s.plane p).2.ports q).ledger = (s.plane.ports q).ledger := by
      have hv := (hframe q).1
      simp only [Port.view,Prod.mk.injEq] at hv
      by_cases hq : q = p
      · subst hq
        simp [ixmapRxClean,Port.ledger,hv.1,hv.2.1,hv.2.2]
      · simp only [ixmapRxClean,setPort_other _ _ hq,Port.ledger,hv.1,hv.2.1,hv.2.2]
    simp only [hl]
    exact h.passed q hq'

theorem RunInv.txAssign (h : RunInv cfg s) {p : ℕ} (hp : p < cfg.numPorts) {packet : Packet}
    (hx : packet.slotIndex ∈ s.held) :
    RunInv cfg { s with
      plane := ixmapTxAssign s.plane p packet
      held := s.held.erase packet.slotIndex
      passed := Function.update s.passed p (s.passed p+1) } := by
  have hr := h.plane.tx p hp
  have hplane := (h.plane.erase hx).txAssign hp
  constructor
  · exact hplane
  · intro q
    rw [h.returned q]
    by_cases hq : q = p
    · subst hq
      simp only [ixmapTxAssign]
      split <;> simp [txXmitFailed,ixmapSlotRelease]
    · simp only [ixmapTxAssign]
      split <;> simp [txXmitFailed,ixmapSlotRelease,setPort_other _ _ hq]
  · intro q hq'
    have hpass := h.passed q hq'
    by_cases hq : q = p
    · subst hq
      simp only [Function.update_self,ixmapTxAssign]
      split
      · simp only [txXmitFailed,ixmapSlotRelease,setSlot_ports,setPort_self,Port.ledger] at hpass ⊢
        omega
      · simp only [setPort_self,Port.ledger,h.plane.numTx q,Ring.out_post hr,List.length_append,
          List.length_singleton] at hpass ⊢
        omega
    · simp only [Function.update_of_ne hq,ixmapTxAssign]
      split <;> simpa [txXmitFailed,ixmapSlotRelease,setPort_other _ _ hq] using hpass

theorem RunInv.txClean (h : RunInv cfg s) {p : ℕ} (hp : p < cfg.numPorts) :
    RunInv cfg { s with plane := ixmapTxClean s.plane p } := by
  obtain ⟨h1,h2,h3,h4,h5⟩ := txCleanLoop_frame hp (s.plane.ports p).txBudget h.plane
  constructor
  · exact h.plane.txClean hp
  · intro q
    rw [h.returned q]
    by_cases hq : q = p
    · subst hq
      simp [ixmapTxClean,h1]
    · simp [ixmapTxClean,setPort_other _ _ hq,h5 q hq]
  · intro q hq'
    have hpass := h.passed q hq'
    by_cases hq : q = p
    · subst hq
      simp only [ixmapTxClean,setPort_self,Port.ledger,h2,h3] at hpass ⊢
      omega
    · simpa [ixmapTxClean,setPort_other _ _ hq,h5 q hq] using hpass

theorem step_inv (h : RunInv cfg s) {op : Op} {s' : RunState} (hs : step cfg s op = some s') :
    RunInv cfg s' := by
  cases op with
  | rxAssign p =>
    by_cases hp : p < cfg.numPorts <;> simp [step,hp] at hs
    subst hs
    exact h.frame (h.plane.rxAssign hp) (view_rxAssign s.plane p)
  | rxClean p =>
    by_cases hp : p < cfg.numPorts <;> simp [step,hp] at hs
    subst hs
    simpa using h.rxClean hp
  | txAssign p packet =>
    by_cases hp : p < cfg.numPorts ∧ packet.slotIndex ∈ s.held <;> simp [step,hp] at hs
    subst hs
    exact h.txAssign hp.1 hp.2
  | txXmit p =>
    by_cases hp : p < cfg.numPorts <;> simp [step,hp] at hs
    subst hs
    exact h.frame (h.plane.txXmit hp) (view_txXmit s.plane p)
  | txClean p =>
    by_cases hp : p < cfg.numPorts <;> simp [step,hp] at hs
    subst hs
    exact h.txClean hp
  | slotAssign p =>
    by_cases hp : p < cfg.numPorts <;> simp [step,hp] at hs
    subst hs
    exact h.frame (h.plane.slotAssign p) (view_slotAssign s.plane p)
  | slotRelease x =>
    by_cases hx : x ∈ s.held <;> simp [step,hx] at hs
    subst hs
    exact h.frame (h.plane.erase hx).release (fun q => rfl)
  | nicRx p lo hi =>
    by_cases hp : p < cfg.numPorts ∧ (s.plane.ports p).rxRing.head ≠
        (s.plane.ports p).rxRing.tail ∧ hi%2 = 1
    · rw [step,if_pos hp] at hs
      cases hs
      exact h.frame (h.plane.nicRx hp.1 hp.2.1 hp.2.2) (fun q => view_setPort (by rfl) q)
    · rw [step,if_neg hp] at hs
      cases hs
  | nicTx p status =>
    by_cases hp : p < cfg.numPorts ∧ (s.plane.ports p).txRing.head ≠
        (s.plane.ports p).txRing.tail ∧ status%2 = 1
    · rw [step,if_pos hp] at hs
      cases hs
      exact h.frame (h.plane.nicTx hp.1 hp.2.1 hp.2.2) (fun q => view_setPort (by rfl) q)
    · rw [step,if_neg hp] at hs
      cases hs

theorem run_inv {ops : List Op} {s' : RunState} (h : RunInv cfg s) (hs : run cfg s ops = some s') :
    RunInv cfg s' := by
  induction ops generalizing s with
  | nil =>
    cases hs
    exact h
  | cons op ops ih =>
    obtain ⟨t,ht,hrest⟩ := Option.bind_eq_some_iff.mp hs
    exact ih (step_inv h ht) hrest

theorem initState_inv (cfg : Config) : RunInv cfg (initState cfg) :=
  ⟨initPlane_inv cfg,fun _ => rfl,fun _ _ => rfl⟩

/-- A ring between calls: indices in range, one descriptor never used, every outstanding cell
still holding the slot posted there, and uncompleted ones reading as not done. -/
structure RingSound {D : Type} (n : ℕ) (posts : ℤ → D → Prop) (dd : D → Prop) (r : Ring D) :
    Prop where
  use_lt : r.nextToUse < n
  clean_lt : r.nextToClean < n
  room : r.out.length ≤ n-1
  kept : ∀ a x, r.cleaned.length ≤ a → r.posted[a]? = some x → r.slotIndex (a%n) = x
  fresh : ∀ a x, r.completed ≤ a → r.posted[a]? = some x →
    posts x (r.desc (a%n)) ∧ ¬ dd (r.desc (a%n))

theorem RingInv.sound {D : Type} {n : ℕ} {posts : ℤ → D → Prop} {dd : D → Prop} {r : Ring D}
    (h : RingInv n posts dd r) : RingSound n posts dd r := by
  have hroom := h.room
  constructor
  · rw [h.use]
    exact Nat.mod_lt _ h.pos
  · rw [h.clean]
    exact Nat.mod_lt _ h.pos
  · rw [Ring.out_length]
    omega
  · exact h.slot
  · exact h.fresh

theorem rxClean_returns {held : List ℤ} {d : Plane} (h : PlaneInv cfg held d) {p : ℕ}
    (hp : p < cfg.numPorts) :
    (ixmapRxClean d p).1.map Packet.slotIndex = (d.ports p).rxRing.out.take
      (min (d.ports p).rxBudget
        ((d.ports p).rxRing.completed-(d.ports p).rxRing.cleaned.length)) :=
  (h.rxCleanLoop hp (d.ports p).rxBudget).2.1

/-- Rings and slots in every state a disciplined client and an in-order device can reach: sound
rings, at most one owner for each slot, the flag set exactly on owned slots, received slots
returned once and in posting order, and every packet passed to `ixmap_tx_assign` accounted for. -/
theorem driver_run_safe (cfg : Config) (ops : List Op) {s : RunState}
    (h : run cfg (initState cfg) ops = some s) :
    (∀ p < cfg.numPorts,
      RingSound (cfg.numRxDesc p) (rxPosts cfg p) rxDone (s.plane.ports p).rxRing ∧
      RingSound (cfg.numTxDesc p) (txPosts cfg p) txDone (s.plane.ports p).txRing) ∧
    (∀ x, s.held.count x + s.plane.owners cfg.numPorts x ≤ 1) ∧
    (∀ x, 0 ≤ x → (s.plane.buf.slots x &&& slotInflight ≠ 0 ↔
      s.held.count x + s.plane.owners cfg.numPorts x = 1)) ∧
    (∀ p < cfg.numPorts,
      s.returned p <+: (s.plane.ports p).rxRing.posted ∧
      (s.returned p).length ≤ (s.plane.ports p).rxRing.completed ∧
      (ixmapRxClean s.plane p).1.map Packet.slotIndex =
        ((s.plane.ports p).rxRing.posted.drop (s.returned p).length).take
          (min (s.plane.ports p).rxBudget
            ((s.plane.ports p).rxRing.completed-(s.returned p).length))) ∧
    (∀ p < cfg.numPorts, s.passed p % 2^64 =
      ((s.plane.ports p).countTxXmitFailed + (s.plane.ports p).countTxCleanTotal +
        (s.plane.ports p).txRing.out.length) % 2^64) := by
  have hinv := run_inv (initState_inv cfg) h
  have hpl := hinv.plane
  refine ⟨fun p hp => ⟨(hpl.rx p hp).sound,(hpl.tx p hp).sound⟩,?_,?_,?_,hinv.passed⟩
  · intro x
    by_cases hx : 0 ≤ x
    · rw [hpl.own x hx]
      exact hpl.flag x hx
    · have := hpl.neg x (by omega)
      omega
  · intro x hx
    have hflag := hpl.flag x hx
    rw [hpl.own x hx,slotInflight,Nat.and_one_is_mod]
    omega
  · intro p hp
    have hr := hpl.rx p hp
    rw [hinv.returned p]
    exact ⟨hr.fifo,hr.order,rxClean_returns hpl hp⟩

def smallConfig : Config where
  numPorts := 1
  count := 2
  bufSize := 2048
  addrDma _ := 0x10000
  numRxDesc _ := 2
  numTxDesc _ := 2
  rxBudget _ := 1024
  txBudget _ := 4096
  macAddr _ := [0,0,0,0,0,1]
  rx_range _ := by decide
  tx_range _ := by decide

def smallOps : List Op :=
  [.rxAssign 0,.nicRx 0 0 (60*2^32+1),.rxClean 0,.txAssign 0 ⟨0,60,0⟩,.txXmit 0,.nicTx 0 1,
    .txClean 0]

theorem driver_run_safe_small :
    ∃ s, run smallConfig (initState smallConfig) smallOps = some s ∧
      (s.plane.ports 0).txRing.nextToUse < 2 ∧ s.held.count 0 + s.plane.owners 1 0 ≤ 1 := by
  have hsome : (run smallConfig (initState smallConfig) smallOps).isSome = true := by decide
  obtain ⟨s,hs⟩ := Option.isSome_iff_exists.mp hsome
  have h := driver_run_safe smallConfig smallOps hs
  exact ⟨s,hs,(h.1 0 (by decide)).2.use_lt,h.2.1 0⟩

end Run

end Driver
end Ixmap
