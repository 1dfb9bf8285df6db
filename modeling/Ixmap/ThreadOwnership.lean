import Ixmap.Router
import Ixmap.ThreadWait
import Ixmap.DriverRun
import Ixmap.GuardedRun

/-! Who owns a packet-buffer slot along the runs of a thread: the calls of its handlers, in any order,
with the device completing descriptors in between. A frame that `forward_process` hands to a transmit
ring loses its flag at once; every other frame is disposed of exactly once. -/
namespace Ixmap
namespace Forwarder
open PrefixBits Driver GuardedRun

def Verdict.egress : Verdict → Option ℕ
  | .via port _ => some port
  | _ => none

def egress (t : Thread) (packet : Packet) : Option ℕ :=
  let ip := packet.slotBuf+14
  if etherType t.mem packet.slotBuf = ethPIp then
    (forwardLookup t .inet (fun k => t.mem (ip+16+k)) (t.mem (ip+8))).egress
  else if etherType t.mem packet.slotBuf = ethPIpv6 then
    if isLinkLocal (fun k => t.mem (ip+24+k)) then none
    else (forwardLookup t .inet6 (fun k => t.mem (ip+24+k)) (t.mem (ip+7))).egress
  else none

/-- The frame has no way out, or `ixmap_tx_assign` refuses it. -/
def NotSent (t : Thread) (packet : Packet) : Prop :=
  ∀ port, egress t packet = some port → TxRefused t.plane port packet

def forwardTurn (host : Endian) (portIndex : ℕ) (t : Thread) (packet : Packet) : Thread :=
  let r := forwardPacket host t portIndex packet
  disposePacket r.2 r.1 packet

/-- Outstanding transmit descriptors of all ports that point to slot `x`. -/
def txOwners (numPorts : ℕ) (d : Plane) (x : ℤ) : ℕ :=
  ∑ p ∈ Finset.range numPorts, (d.ports p).txRing.out.count x

/-- Attached to one transmit descriptor and in flight, or free and attached to none. -/
def DisposedOnce (numPorts : ℕ) (d : Plane) (x : ℤ) : Prop :=
  (txOwners numPorts d x = 1 ∧ d.buf.slots x &&& slotInflight ≠ 0) ∨
    (txOwners numPorts d x = 0 ∧ d.buf.slots x &&& slotInflight = 0)

/-- The calls of the handlers, and the device. -/
inductive ThreadOp where
  /-- `ixmap_rx_clean` and `forward_process` on what it returns. -/
  | receive (portIndex : ℕ)
  | txXmit (portIndex : ℕ)
  | txClean (portIndex : ℕ)
  | rxAssign (portIndex : ℕ)
  | tun (portIndex : ℕ) (readBuf : List UInt8)
  | netlink (msgs : List NlMsg)
  /-- A frame arrives: its bytes and the descriptor the device writes back. -/
  | nicRx (portIndex lo hi : ℕ) (data : List UInt8)
  | nicTx (portIndex status : ℕ)

/-- The device stores a frame in the slot at the head of the receive ring. -/
def dma (t : Thread) (portIndex : ℕ) (data : List UInt8) : Bytes :=
  let r := (t.plane.ports portIndex).rxRing
  copyTo t.mem (t.plane.buf.bufSize*r.slotIndex r.head % 2^32).toNat (fun k => data.getD k 0) data.length

def received (t : Thread) (portIndex : ℕ) : List Packet := (ixmapRxClean t.plane portIndex).1

def cleaned (t : Thread) (portIndex : ℕ) : Thread :=
  { t with plane := (ixmapRxClean t.plane portIndex).2 }

def threadStep (host : Endian) (t : Thread) : ThreadOp → Thread
  | .receive portIndex => forwardProcess host portIndex (cleaned t portIndex) (received t portIndex)
  | .txXmit portIndex => { t with plane := ixmapTxXmit t.plane portIndex }
  | .txClean portIndex => { t with plane := ixmapTxClean t.plane portIndex }
  | .rxAssign portIndex => { t with plane := ixmapRxAssign t.plane portIndex }
  | .tun portIndex readBuf => forwardProcessTun t portIndex readBuf
  | .netlink msgs => netlinkProcess t msgs
  | .nicRx portIndex lo hi data =>
    { t with plane := nicRx t.plane portIndex lo hi, mem := dma t portIndex data }
  | .nicTx portIndex status => { t with plane := nicTx t.plane portIndex status }

/-- The calls a handler makes. -/
def EventKind.calls (numPorts : ℕ) : EventKind → List ThreadOp
  | .irqRx portIndex => .receive portIndex :: (List.range numPorts).map .txXmit
  | .irqTx portIndex => .txClean portIndex :: (List.range numPorts).map .rxAssign
  | .tun portIndex readBuf => .tun portIndex readBuf :: (List.range numPorts).map .txXmit
  | .signal => []
  | .netlink msgs => [.netlink msgs]

/-- Ports are those of the thread, and the device completes only what was handed to it. -/
def Possible (numPorts : ℕ) (t : Thread) : ThreadOp → Prop
  | .receive portIndex | .txXmit portIndex | .txClean portIndex | .rxAssign portIndex
  | .tun portIndex _ => portIndex < numPorts
  | .netlink _ => True
  | .nicRx portIndex _ hi _ => portIndex < numPorts ∧
    (t.plane.ports portIndex).rxRing.head ≠ (t.plane.ports portIndex).rxRing.tail ∧ hi%2 = 1
  | .nicTx portIndex status => portIndex < numPorts ∧
    (t.plane.ports portIndex).txRing.head ≠ (t.plane.ports portIndex).txRing.tail ∧ status%2 = 1

/-- No frame of the batch that a `forward_process` starts with is sent. -/
def NoneSent (host : Endian) (t : Thread) (portIndex : ℕ) : Prop :=
  Meets (forwardTurn host portIndex) NotSent (cleaned t portIndex) (received t portIndex)

/-- A possible step, that sends no frame when it is a `forward_process`. -/
def Retains (host : Endian) (numPorts : ℕ) (t : Thread) (op : ThreadOp) : Prop :=
  Possible numPorts t op ∧ ∀ portIndex, op = .receive portIndex → NoneSent host t portIndex

/-- What a slot's owners can rely on. -/
structure SlotsSound (numPorts : ℕ) (d : Plane) : Prop where
  /-- No two outstanding descriptors of any rings share a slot. -/
  once : ∀ x, d.owners numPorts x ≤ 1
  flagged : ∀ x, 0 ≤ x → (d.buf.slots x &&& slotInflight ≠ 0 ↔ d.owners numPorts x = 1)
  assigned : ∀ p < numPorts, 0 ≤ (ixmapSlotAssign d p).1 → d.owners numPorts (ixmapSlotAssign d p).1 = 0
  attached : ∀ p < numPorts, ∃ new,
    ((ixmapRxAssign d p).ports p).rxRing.out = (d.ports p).rxRing.out ++ new ∧
      ∀ x ∈ new, d.owners numPorts x = 0

section
variable {cfg : Config} {held : List ℤ} {host : Endian} {t : Thread} {portIndex : ℕ}
variable {packet : Packet} {packets : List Packet}

theorem forwardProcess_eq_foldl (host : Endian) (portIndex : ℕ) (t : Thread) (packets : List Packet) :
    forwardProcess host portIndex t packets = packets.foldl (forwardTurn host portIndex) t := by
  induction packets generalizing t with
  | nil => rfl
  | cons packet rest ih => exact ih _

theorem forwardPacket_plane (host : Endian) (t : Thread) (portIndex : ℕ) (packet : Packet) :
    (forwardPacket host t portIndex packet).2.plane = t.plane := by
  obtain ⟨mem,tap,hframe⟩ := forwardPacket_frame host t portIndex packet
  rw [hframe]

theorem forwardPacket_egress (host : Endian) (t : Thread) (portIndex : ℕ) (packet : Packet) :
    (forwardPacket host t portIndex packet).1 = (egress t packet).elim (-1) (fun port => (port : ℤ)) := by
  unfold forwardPacket egress
  dsimp only
  by_cases harp : etherType t.mem packet.slotBuf = ethPArp
  · simp [harp,forwardArpProcess,ethPArp,ethPIp,ethPIpv6]
  rw [if_neg harp]
  by_cases hip : etherType t.mem packet.slotBuf = ethPIp
  · rw [if_pos hip,if_pos hip]
    unfold forwardIpProcess
    dsimp only
    split <;> rename_i hv <;> simp [hv,Verdict.egress]
  rw [if_neg hip,if_neg hip]
  by_cases hip6 : etherType t.mem packet.slotBuf = ethPIpv6
  · rw [if_pos hip6,if_pos hip6]
    unfold forwardIp6Process
    dsimp only
    by_cases hl : isLinkLocal (fun k => t.mem (packet.slotBuf+14+24+k)) = true
    · simp [hl]
    rw [if_neg hl,if_neg hl]
    split <;> rename_i hv <;> simp [hv,Verdict.egress]
  · simp [hip6]

theorem disposePacket_slots (t : Thread) (ret : ℤ) (packet : Packet) :
    (disposePacket t ret packet).plane.buf.slots =
      Function.update t.plane.buf.slots packet.slotIndex 0 := by
  by_cases hret : ret < 0
  · simp [disposePacket,hret,ixmapSlotRelease]
  · by_cases href : TxRefused t.plane ret.toNat packet
    · simp [disposePacket,hret,ixmapSlotRelease,ixmapTxAssign,href,txXmitFailed]
    · simp [disposePacket,hret,ixmapSlotRelease,ixmapTxAssign,href]

theorem forwardTurn_slots (host : Endian) (portIndex : ℕ) (t : Thread) (packet : Packet) :
    (forwardTurn host portIndex t packet).plane.buf.slots =
      Function.update t.plane.buf.slots packet.slotIndex 0 := by
  rw [forwardTurn,disposePacket_slots,forwardPacket_plane]

theorem foldl_turn_free {x : ℤ} (hx : x ∈ packets.map Packet.slotIndex ∨ t.plane.buf.slots x = 0) :
    (packets.foldl (forwardTurn host portIndex) t).plane.buf.slots x = 0 := by
  induction packets generalizing t with
  | nil => simpa using hx
  | cons packet rest ih =>
    apply ih
    rw [forwardTurn_slots]
    by_cases he : x = packet.slotIndex
    · exact Or.inr (by rw [he,Function.update_self])
    · rw [Function.update_of_ne he]
      simpa [he] using hx

/-- A frame that is not sent gives up its slot once: the second release of a refused frame finds the
slot free already. -/
theorem turn_inv (h : PlaneInv cfg (packet.slotIndex::held) t.plane) (hsent : NotSent t packet) :
    PlaneInv cfg held (forwardTurn host portIndex t packet).plane := by
  have hret := forwardPacket_egress host t portIndex packet
  have hplane := forwardPacket_plane host t portIndex packet
  cases hegress : egress t packet with
  | none =>
    rw [hegress] at hret
    simpa [forwardTurn,disposePacket,hret,hplane] using h.release
  | some port =>
    rw [hegress] at hret
    have hagain : ixmapSlotRelease (txXmitFailed t.plane port packet) packet.slotIndex =
        txXmitFailed t.plane port packet := by
      simp [txXmitFailed,ixmapSlotRelease,Plane.setSlot]
    have hneg : ¬ ((port : ℤ) < 0) := by omega
    simpa [forwardTurn,disposePacket,hret,hplane,hneg,ixmapTxAssign,hsent port hegress,hagain] using
      h.txXmitFailed port

theorem turns_inv (h : PlaneInv cfg (packets.map Packet.slotIndex ++ held) t.plane)
    (hsent : Meets (forwardTurn host portIndex) NotSent t packets) :
    PlaneInv cfg held (packets.foldl (forwardTurn host portIndex) t).plane := by
  induction packets generalizing t with
  | nil => exact h
  | cons packet rest ih => exact ih (turn_inv h hsent.1) hsent.2

theorem receive_inv (h : PlaneInv cfg held t.plane) (hp : portIndex < cfg.numPorts)
    (hsent : NoneSent host t portIndex) :
    PlaneInv cfg held (threadStep host t (.receive portIndex)).plane := by
  rw [threadStep,forwardProcess_eq_foldl]
  exact turns_inv (h.rxClean hp) hsent

theorem tun_inv (h : PlaneInv cfg held t.plane) (hp : portIndex < cfg.numPorts) (readBuf : List UInt8) :
    PlaneInv cfg held (forwardProcessTun t portIndex readBuf).plane := by
  have hs := h.slotAssign portIndex
  unfold forwardProcessTun
  dsimp only
  split
  · exact h
  split
  · rename_i hneg
    simpa [granted,hneg] using hs
  · rename_i hneg
    simp only [granted,hneg,if_false,List.singleton_append] at hs
    exact hs.txAssign hp

theorem threadStep_inv {op : ThreadOp} (h : PlaneInv cfg [] t.plane)
    (hop : Retains host cfg.numPorts t op) : PlaneInv cfg [] (threadStep host t op).plane := by
  obtain ⟨hpos,hsent⟩ := hop
  cases op with
  | receive portIndex => exact receive_inv h hpos (hsent portIndex rfl)
  | txXmit portIndex => exact h.txXmit hpos
  | txClean portIndex => exact h.txClean hpos
  | rxAssign portIndex => exact h.rxAssign hpos
  | tun portIndex readBuf => exact tun_inv h hpos readBuf
  | netlink msgs => exact (samePorts_process t msgs).plane.symm ▸ h
  | nicRx portIndex lo hi data => exact h.nicRx hpos.1 hpos.2.1 hpos.2.2
  | nicTx portIndex status => exact h.nicTx hpos.1 hpos.2.1 hpos.2.2

theorem slotsSound_of_inv {d : Plane} (h : PlaneInv cfg [] d) : SlotsSound cfg.numPorts d := by
  have hown : ∀ x, 0 ≤ x → d.owners cfg.numPorts x = d.buf.slots x := by
    intro x hx
    simpa using h.own x hx
  constructor
  · intro x
    by_cases hx : 0 ≤ x
    · rw [hown x hx]
      exact h.flag x hx
    · have hneg := h.neg x (by omega)
      simp only [List.count_nil] at hneg
      omega
  · intro x hx
    have hflag := h.flag x hx
    rw [hown x hx,slotInflight,Nat.and_one_is_mod]
    omega
  · intro p _ hx
    exact h.slotAssign_free hx
  · intro p hp
    exact h.rxAssign_posts hp

theorem txOwners_le (n : ℕ) (d : Plane) (x : ℤ) : txOwners n d x ≤ d.owners n x := by
  apply Finset.sum_le_sum
  intro q _
  exact Nat.le_add_left _ _

/-- When none is sent, every frame of the batch ends free and attached to no descriptor. -/
theorem disposed_of_inv (h : PlaneInv cfg [] t.plane) (hp : portIndex < cfg.numPorts)
    (hsent : NoneSent host t portIndex) (hmem : packet ∈ received t portIndex) :
    DisposedOnce cfg.numPorts (threadStep host t (.receive portIndex)).plane packet.slotIndex := by
  have hinv := receive_inv h hp hsent
  have hfree : (threadStep host t (.receive portIndex)).plane.buf.slots packet.slotIndex = 0 := by
    rw [threadStep,forwardProcess_eq_foldl]
    exact foldl_turn_free (Or.inl (List.mem_map_of_mem hmem))
  have hzero : (threadStep host t (.receive portIndex)).plane.owners cfg.numPorts
      packet.slotIndex = 0 := by
    by_cases hx : 0 ≤ packet.slotIndex
    · have hown := hinv.own _ hx
      omega
    · have hneg := hinv.neg _ (not_le.mp hx)
      omega
  have hle := txOwners_le cfg.numPorts (threadStep host t (.receive portIndex)).plane packet.slotIndex
  exact Or.inr ⟨by omega,by rw [hfree]; rfl⟩

theorem forPorts_calls (host : Endian) (call : ℕ → ThreadOp) {body : Plane → ℕ → Plane}
    (hcall : ∀ t port, threadStep host t (call port) = { t with plane := body t.plane port }) (t : Thread) :
    (t.forPorts body).2 = ((List.range t.numPorts).map call).foldl (threadStep host) t := by
  have hloop : ∀ k i t, { t with plane := (portLoop body k i t.plane).2 } =
      ((List.range' i k).map call).foldl (threadStep host) t := by
    intro k
    induction k with
    | zero => exact fun i t => rfl
    | succ k ih =>
      intro i t
      rw [List.range'_succ,List.map_cons,List.foldl_cons,hcall,← ih]
      rfl
  rw [List.range_eq_range',← hloop]
  rfl

theorem handle_calls {ev : Event} (hok : ev.readOk = true) (t : Thread) (i : ℕ) :
    (handle host t i ev).2.2 = (ev.kind.calls t.numPorts).foldl (threadStep host) t := by
  rcases ev with ⟨kind,readOk⟩
  simp only at hok
  subst hok
  cases kind with
  | irqRx portIndex =>
    have hn := forwardProcess_numPorts host portIndex (cleaned t portIndex) (received t portIndex)
    have hports := forPorts_calls host .txXmit (fun _ _ => rfl)
      (forwardProcess host portIndex (cleaned t portIndex) (received t portIndex))
    rw [hn] at hports
    exact hports
  | irqTx portIndex => exact forPorts_calls host .rxAssign (fun _ _ => rfl) _
  | tun portIndex readBuf =>
    have hports := forPorts_calls host .txXmit (fun _ _ => rfl)
      (forwardProcessTun t portIndex readBuf)
    rw [forwardProcessTun_numPorts] at hports
    exact hports
  | signal => rfl
  | netlink msgs => rfl

end

/-- In every state of a run in which no `forward_process` sends a frame, a slot has one owner at most
and is in flight exactly while it has one, free slots alone are handed out, and the next batch that
sends none is disposed of exactly once. -/
theorem thread_slots_safe (cfg : Config) (host : Endian) (t : Thread) (hinit : t.plane = initPlane cfg)
    (ops : List ThreadOp) (hrun : Meets (threadStep host) (Retains host cfg.numPorts) t ops) :
    SlotsSound cfg.numPorts (ops.foldl (threadStep host) t).plane ∧
      ∀ portIndex < cfg.numPorts, NoneSent host (ops.foldl (threadStep host) t) portIndex →
        ∀ packet ∈ received (ops.foldl (threadStep host) t) portIndex, DisposedOnce cfg.numPorts
          (threadStep host (ops.foldl (threadStep host) t) (.receive portIndex)).plane packet.slotIndex := by
  have hinv : PlaneInv cfg [] (ops.foldl (threadStep host) t).plane := by
    refine hrun.invariant (I := fun t => PlaneInv cfg [] t.plane) ?_ ?_
    · rw [hinit]
      exact initPlane_inv cfg
    · intro t op _ h hop
      exact threadStep_inv h hop
  refine ⟨slotsSound_of_inv hinv,?_⟩
  intro portIndex hp hsent packet hmem
  exact disposed_of_inv hinv hp hsent hmem

def arrival : ℕ := 34*2^32+1

def toTenNet : List UInt8 :=
  List.replicate 12 0 ++ [8,0] ++ List.replicate 8 0 ++ [64] ++ List.replicate 7 0 ++ [10,0,0,5]

/-- The frame is dropped for want of a route. -/
theorem thread_slots_safe_drop :
    let t := [ThreadOp.rxAssign 0,.nicRx 0 0 arrival toTenNet].foldl (threadStep .little) onePort
    received t 0 = [⟨0,34,0⟩] ∧ SlotsSound 1 t.plane ∧
      DisposedOnce 1 (threadStep .little t (.receive 0)).plane 0 := by
  intro t
  have hrun : Meets (threadStep .little) (Retains .little 1) onePort
      [ThreadOp.rxAssign 0,.nicRx 0 0 arrival toTenNet] := by
    refine ⟨⟨show 0 < 1 by decide,?_⟩,⟨⟨by decide,by decide,by decide⟩,?_⟩,trivial⟩
    · intro portIndex he
      simp at he
    · intro portIndex he
      simp at he
  have hone : received t 0 = [⟨0,34,0⟩] := by decide
  have hsent : NoneSent .little t 0 := by
    rw [NoneSent,hone]
    refine ⟨?_,trivial⟩
    intro port hport
    rw [show egress (cleaned t 0) ⟨0,34,0⟩ = none by decide] at hport
    simp at hport
  obtain ⟨hsound,hbatch⟩ := thread_slots_safe smallConfig .little onePort rfl _ hrun
  exact ⟨hone,hsound,hbatch 0 (by decide) hsent ⟨0,34,0⟩ (by rw [show received t 0 = _ from hone]; simp)⟩

/-- A route and its neighbour become known, and a frame for them arrives. -/
def sendOps : List ThreadOp := [.netlink onePortMsgs,.rxAssign 0,.nicRx 0 0 arrival toTenNet,.receive 0]

/-- The frame is published, and another one is dropped before the device has sent it. -/
def dropOps : List ThreadOp := [.txXmit 0,.rxAssign 0,.nicRx 0 0 arrival [],.receive 0]

/-- The frame that was sent is attached to a transmit descriptor and marked free, and soon its slot is
handed out again. -/
theorem sent_slot_released :
    let sent := sendOps.foldl (threadStep .little) onePort
    let later := dropOps.foldl (threadStep .little) sent
    Meets (threadStep .little) (Possible 1) onePort (sendOps++dropOps) ∧
      (txOwners 1 sent.plane 0 = 1 ∧ sent.plane.buf.slots 0 &&& slotInflight = 0) ∧
      (txOwners 1 later.plane 0 = 1 ∧ (ixmapSlotAssign later.plane 0).1 = 0) := by
  refine ⟨⟨trivial,Nat.one_pos,⟨Nat.one_pos,by decide +kernel⟩,Nat.one_pos,Nat.one_pos,Nat.one_pos,
    ⟨Nat.one_pos,by decide +kernel⟩,Nat.one_pos,trivial⟩,?_,?_⟩
  · decide +kernel
  · decide +kernel

end Forwarder
end Ixmap
