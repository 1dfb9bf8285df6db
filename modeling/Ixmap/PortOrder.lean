import Ixmap.PortInit

/-! The order in which a port is brought up. A ring is described to the device while its queue is off, a queue
is enabled once its ring has been described, and the receiver and the interrupts come last: on every device,
as long as no poll has run out. -/
namespace Ixmap
namespace PortInit
open RegProgram

/-- The values last read from the registers, or written to them. -/
abbrev Known := ℕ → Option (BitVec 32)

/-- The register is known to have one of the bits. -/
def On (g : Known) (reg : ℕ) (bits : BitVec 32) : Prop := ∃ v, g reg = some v ∧ v &&& bits ≠ 0#32

/-- The register is known to have none of the bits. -/
def Off (g : Known) (reg : ℕ) (bits : BitVec 32) : Prop := ∃ v, g reg = some v ∧ v &&& bits = 0#32

/-- The registers describe a ring of this address and length, and it is empty. -/
structure RingSet (base i : ℕ) (dma : BitVec 64) (len : BitVec 32) (g : Known) : Prop where
  addr : ∃ lo hi : BitVec 32, g (balReg base i) = some lo ∧ g (bahReg base i) = some hi ∧ hi ++ lo = dma
  len : g (lenReg base i) = some len
  head : g (headReg base i) = some 0#32
  tail : g (tailReg base i) = some 0#32

/-- A receive ring with advanced descriptors of one buffer. -/
structure RxReady (l : Layout) (i : ℕ) (g : Known) : Prop where
  ring : RingSet rxBase i (l.rxDma i) (l.numRxDesc*16#32) g
  buffers : On g (srrctlReg i) 0x02000000#32

/-- A transmit ring without write-back of the head. -/
structure TxReady (l : Layout) (i : ℕ) (g : Known) : Prop where
  ring : RingSet txBase i (l.txDma i) (l.numTxDesc*16#32) g
  noWriteBack : g (tdwbalReg i) = some 0#32 ∧ g (tdwbahReg i) = some 0#32

/-- The registers that describe a ring. -/
def ringRegs (base i : ℕ) : List ℕ := [balReg base i,bahReg base i,lenReg base i,headReg base i,tailReg base i]

def rxRegs (i : ℕ) : List ℕ := srrctlReg i::ringRegs rxBase i

def txRegs (i : ℕ) : List ℕ := tdwbalReg i::tdwbahReg i::ringRegs txBase i

def RxUp (l : Layout) (i : ℕ) (g : Known) : Prop := RxReady l i g ∧ On g (dctlReg rxBase i) dctlEnable

def TxUp (l : Layout) (i : ℕ) (g : Known) : Prop := TxReady l i g ∧ On g (dctlReg txBase i) dctlEnable

/-- What has to be known before `v` is written to `r`. -/
structure Permitted (l : Layout) (g : Known) (r : ℕ) (v : BitVec 32) : Prop where
  rxRing : ∀ i < l.numQueues, r ∈ rxRegs i → Off g rxctrlReg rxctrlRxen ∧ Off g (dctlReg rxBase i) dctlEnable
  rxQueue : ∀ i < l.numQueues, r = dctlReg rxBase i → v &&& dctlEnable ≠ 0#32 →
    Off g rxctrlReg rxctrlRxen ∧ RxReady l i g
  receiver : r = rxctrlReg → v &&& rxctrlRxen ≠ 0#32 → ∀ i < l.numQueues, RxUp l i g
  txRing : ∀ i < l.numQueues, r ∈ txRegs i → Off g (dctlReg txBase i) dctlEnable
  txQueue : ∀ i < l.numQueues, r = dctlReg txBase i → v &&& dctlEnable ≠ 0#32 →
    On g dmatxctlReg dmatxctlTe ∧ TxReady l i g
  arbiter : r = mtqcReg → On g rttdcsReg rttdcsArbdis
  interrupts : r = eimsExReg 0 ∨ r = eimsExReg 1 →
    On g rxctrlReg rxctrlRxen ∧ ∀ i < l.numQueues, RxUp l i g ∧ TxUp l i g

/-- The registers of the queues, of their buffers, and those that switch something on. -/
def watched : Set ℕ := {r | 0x01000 ≤ r ∧ r < 0x02200 ∨ 0x06000 ≤ r ∧ r < 0x07000 ∨
  r = rxctrlReg ∨ r = dmatxctlReg ∨ r = rttdcsReg ∨ r = mtqcReg ∨ r = eimsExReg 0 ∨ r = eimsExReg 1}

section
variable {l : Layout} {g : Known} {r i : ℕ} {v : BitVec 32}

theorem Layout.lt_16 (l : Layout) (hi : i < l.numQueues) : i < 16 := hi.trans_le l.queues

@[simp] theorem queueReg_inj {base offset offset' : ℕ} : queueReg base offset i = queueReg base offset' i ↔ offset = offset' := by
  rw [queueReg,queueReg]
  omega

theorem mem_rxRegs : r ∈ rxRegs i ↔ r = 0x02100+i*4 ∨ r = 0x01000+i*0x40 ∨ r = 0x01004+i*0x40 ∨ r = 0x01008+i*0x40 ∨
    r = 0x01010+i*0x40 ∨ r = 0x01018+i*0x40 := by
  simp only [rxRegs,ringRegs,List.mem_cons,List.not_mem_nil,or_false]
  rfl

theorem mem_txRegs : r ∈ txRegs i ↔ r = 0x06038+i*0x40 ∨ r = 0x0603c+i*0x40 ∨ r = 0x06000+i*0x40 ∨ r = 0x06004+i*0x40 ∨
    r = 0x06008+i*0x40 ∨ r = 0x06010+i*0x40 ∨ r = 0x06018+i*0x40 := by
  simp only [txRegs,ringRegs,List.mem_cons,List.not_mem_nil,or_false]
  rfl

theorem dctl_rx : dctlReg rxBase i = 0x01028+i*0x40 := rfl

theorem dctl_tx : dctlReg txBase i = 0x06028+i*0x40 := rfl

theorem mem_watched : r ∈ watched ↔ 0x01000 ≤ r ∧ r < 0x02200 ∨ 0x06000 ≤ r ∧ r < 0x07000 ∨
    r = 0x03000 ∨ r = 0x04A80 ∨ r = 0x04900 ∨ r = 0x08120 ∨ r = 0x00AA0 ∨ r = 0x00AA4 := Iff.rfl

theorem permitted_rx (hr : 0x01000 ≤ r ∧ r < 0x02200)
    (hring : ∀ i < l.numQueues, r ∈ rxRegs i → Off g rxctrlReg rxctrlRxen ∧ Off g (dctlReg rxBase i) dctlEnable)
    (hqueue : ∀ i < l.numQueues, r = dctlReg rxBase i → v &&& dctlEnable ≠ 0#32 →
      Off g rxctrlReg rxctrlRxen ∧ RxReady l i g) : Permitted l g r v := by
  refine ⟨hring,hqueue,fun h => ?_,fun i hi h => ?_,fun i hi h => ?_,fun h => ?_,fun h => ?_⟩
  · rw [rxctrlReg] at h
    omega
  · rw [mem_txRegs] at h
    omega
  · rw [dctl_tx] at h
    omega
  · rw [mtqcReg] at h
    omega
  · simp only [eimsExReg] at h
    omega

theorem permitted_tx (hr : 0x06000 ≤ r ∧ r < 0x07000)
    (hring : ∀ i < l.numQueues, r ∈ txRegs i → Off g (dctlReg txBase i) dctlEnable)
    (hqueue : ∀ i < l.numQueues, r = dctlReg txBase i → v &&& dctlEnable ≠ 0#32 →
      On g dmatxctlReg dmatxctlTe ∧ TxReady l i g) : Permitted l g r v := by
  refine ⟨fun i hi h => ?_,fun i hi h => ?_,fun h => ?_,hring,hqueue,fun h => ?_,fun h => ?_⟩
  · have := l.lt_16 hi
    rw [mem_rxRegs] at h
    omega
  · have := l.lt_16 hi
    rw [dctl_rx] at h
    omega
  · rw [rxctrlReg] at h
    omega
  · rw [mtqcReg] at h
    omega
  · simp only [eimsExReg] at h
    omega

theorem permitted_single (hr : ¬(0x01000 ≤ r ∧ r < 0x02200) ∧ ¬(0x06000 ≤ r ∧ r < 0x07000))
    (hreceiver : r = rxctrlReg → v &&& rxctrlRxen ≠ 0#32 → ∀ i < l.numQueues, RxUp l i g)
    (harbiter : r = mtqcReg → On g rttdcsReg rttdcsArbdis)
    (hirq : r = eimsExReg 0 ∨ r = eimsExReg 1 →
      On g rxctrlReg rxctrlRxen ∧ ∀ i < l.numQueues, RxUp l i g ∧ TxUp l i g) : Permitted l g r v := by
  refine ⟨fun i hi h => ?_,fun i hi h => ?_,hreceiver,fun i hi h => ?_,fun i hi h => ?_,harbiter,hirq⟩
  all_goals have h16 := l.lt_16 hi
  · rw [mem_rxRegs] at h
    omega
  · rw [dctl_rx] at h
    omega
  · rw [mem_txRegs] at h
    omega
  · rw [dctl_tx] at h
    omega

theorem permitted_other (hr : r ∉ watched) : Permitted l g r v := by
  rw [mem_watched] at hr
  refine permitted_single ⟨?_,?_⟩ (fun h => ?_) (fun h => ?_) fun h => ?_
  · omega
  · omega
  · rw [rxctrlReg] at h
    omega
  · rw [mtqcReg] at h
    omega
  · simp only [eimsExReg] at h
    omega

/-- While a queue and the receiver are off, its ring may be described. -/
structure RxOpen (i : ℕ) (g : Known) : Prop where
  receiver : Off g rxctrlReg rxctrlRxen
  queue : Off g (dctlReg rxBase i) dctlEnable

theorem Off.write {reg : ℕ} {bits : BitVec 32} (h : Off g reg bits) (hne : reg ≠ r) :
    Off (Function.update g r (some v)) reg bits := by
  obtain ⟨w,hw,hbits⟩ := h
  exact ⟨w,(Function.update_of_ne hne _ _).trans hw,hbits⟩

theorem On.write {reg : ℕ} {bits : BitVec 32} (h : On g reg bits) (hne : reg ≠ r) :
    On (Function.update g r (some v)) reg bits := by
  obtain ⟨w,hw,hbits⟩ := h
  exact ⟨w,(Function.update_of_ne hne _ _).trans hw,hbits⟩

theorem RxOpen.permits (h : RxOpen i g) (hi : i < l.numQueues) (hr : r ∈ rxRegs i) : Permitted l g r v := by
  have h16 := l.lt_16 hi
  rw [mem_rxRegs] at hr
  refine permitted_rx (by omega) (fun j hj hr' => ?_) fun j hj hr' => ?_
  all_goals have h16' := l.lt_16 hj
  · rw [mem_rxRegs] at hr'
    obtain rfl : j = i := by omega
    exact ⟨h.receiver,h.queue⟩
  · rw [dctl_rx] at hr'
    omega

theorem RxOpen.write (h : RxOpen i g) (hi : i < 16) (hr : r ∈ rxRegs i) : RxOpen i (Function.update g r (some v)) := by
  rw [mem_rxRegs] at hr
  refine ⟨h.receiver.write ?_,h.queue.write ?_⟩
  · rw [rxctrlReg]
    omega
  · rw [dctl_rx]
    omega

theorem clear_bits (v bits : BitVec 32) : (v &&& ~~~bits) &&& bits = 0#32 := by
  apply BitVec.eq_of_getLsbD_eq
  intro k hk
  simp only [BitVec.getLsbD_and,BitVec.getLsbD_not,BitVec.getLsbD_zero,hk,decide_true,Bool.true_and]
  cases v.getLsbD k <;> cases bits.getLsbD k <;> rfl

theorem set_bits (v : BitVec 32) {bits : BitVec 32} (h : bits ≠ 0#32) : (v ||| bits) &&& bits ≠ 0#32 := by
  intro hzero
  refine h (BitVec.eq_of_getLsbD_eq fun k hk => ?_)
  have hbit := congrArg (·.getLsbD k) hzero
  simp only [BitVec.getLsbD_and,BitVec.getLsbD_or,BitVec.getLsbD_zero] at hbit
  cases hb : bits.getLsbD k with
  | false => rw [BitVec.getLsbD_zero]
  | true => simp [hb] at hbit

theorem dma_halves (dma : BitVec 64) : (dma >>> 32).setWidth 32 ++ dma.setWidth 32 = dma := by
  apply BitVec.eq_of_getLsbD_eq
  intro k hk
  rw [BitVec.getLsbD_append]
  by_cases h32 : k < 32
  · simp [h32]
  · have hback : 32+(k-32) = k := by omega
    have hlow : k-32 < 32 := by omega
    simp [h32,hlow,hback]

theorem follows_poll {may : Known → ℕ → BitVec 32 → Prop} (reg : ℕ) (again : BitVec 32 → Bool) (n : ℕ) (g : Known) :
    Follows (guarded may) (poll reg again n) g fun expired g' =>
      expired = false → ∃ v, again v = false ∧ g' = Function.update g reg (some v) := by
  induction n generalizing g with
  | zero => exact fun h => Bool.noConfusion h
  | succ n ih =>
    refine guarded_read.mpr fun v => ?_
    by_cases hagain : n ≠ 0 ∧ again v = true
    · rw [if_pos hagain]
      refine (ih _).mono fun expired g' hg he => ?_
      obtain ⟨w,hw,rfl⟩ := hg he
      exact ⟨w,hw,Function.update_idem _ _ _⟩
    · rw [if_neg hagain]
      intro he
      have hn : n ≠ 0 := of_decide_eq_false he
      exact ⟨v,Bool.eq_false_iff.mpr fun hv => hagain ⟨hn,hv⟩,rfl⟩

theorem follows_pollOrNote {may : Known → ℕ → BitVec 32 → Prop} (reg : ℕ) (again : BitVec 32 → Bool) (note : Note)
    (g : Known) : Follows (guarded may) (pollOrNote reg again note) g fun _ g' =>
      ∃ v, again v = false ∧ g' = Function.update g reg (some v) := by
  refine (follows_poll reg again 10 g).bind fun expired g' hg => ?_
  cases expired with
  | true => exact guarded_point
  | false => exact hg rfl

theorem follows_disableRxQueue (hi : i < 16) : Follows (guarded (Permitted l)) (ixmapDisableRxQueue i) g fun _ g' =>
    ∃ v, v &&& dctlEnable = 0#32 ∧ g' = Function.update g (dctlReg rxBase i) (some v) := by
  refine guarded_read.mpr fun rxdctl => guarded_write ?_ ?_
  · rw [dctl_rx]
    refine permitted_rx (by omega) (fun j hj h => ?_) fun j hj h hv => absurd (clear_bits _ _) hv
    have := l.lt_16 hj
    rw [mem_rxRegs] at h
    omega
  · refine (follows_pollOrNote _ _ _ _).mono fun _ g' hg => ?_
    obtain ⟨v,hv,rfl⟩ := hg
    refine ⟨v,?_,?_⟩
    · simpa using hv
    · rw [Function.update_idem,Function.update_idem]

theorem RxReady.of_writes (ih : Handle) (g : Known) {srrctl : BitVec 32} (hi : i < 16) (hs : srrctl &&& 0x02000000#32 ≠ 0#32) :
    RxReady ih.toLayout i (Function.update (Function.update (Function.update (Function.update (Function.update
      (Function.update g (balReg rxBase i) (some ((ih.rxDma i).setWidth 32)))
      (bahReg rxBase i) (some ((ih.rxDma i >>> 32).setWidth 32))) (lenReg rxBase i) (some (ih.numRxDesc*16#32)))
      (headReg rxBase i) (some 0#32)) (tailReg rxBase i) (some 0#32)) (srrctlReg i) (some srrctl)) := by
  have hsrrctl : ∀ offset < 0x40, queueReg rxBase offset i ≠ srrctlReg i := by
    intro offset ho
    rw [queueReg,srrctlReg,rxBase]
    omega
  refine ⟨⟨⟨_,_,?_,?_,dma_halves _⟩,?_,?_,?_⟩,srrctl,Function.update_self _ _ _,hs⟩
  all_goals simp [balReg,bahReg,lenReg,headReg,tailReg,hsrrctl]

theorem RingSet.congr {base : ℕ} {dma : BitVec 64} {len : BitVec 32} {g' : Known} (h : RingSet base i dma len g)
    (hg : ∀ r ∈ ringRegs base i, g' r = g r) : RingSet base i dma len g' := by
  simp only [ringRegs,List.forall_mem_cons] at hg
  obtain ⟨hbal,hbah,hlen,hhead,htail,-⟩ := hg
  obtain ⟨lo,hi,hlo,hhi,haddr⟩ := h.addr
  exact ⟨⟨lo,hi,hbal.trans hlo,hbah.trans hhi,haddr⟩,hlen.trans h.len,hhead.trans h.head,htail.trans h.tail⟩

theorem On.congr {reg : ℕ} {bits : BitVec 32} {g' : Known} (h : On g reg bits) (hg : g' reg = g reg) : On g' reg bits := by
  obtain ⟨w,hw,hbits⟩ := h
  exact ⟨w,hg.trans hw,hbits⟩

theorem Off.congr {reg : ℕ} {bits : BitVec 32} {g' : Known} (h : Off g reg bits) (hg : g' reg = g reg) :
    Off g' reg bits := by
  obtain ⟨w,hw,hbits⟩ := h
  exact ⟨w,hg.trans hw,hbits⟩

theorem RxReady.congr {g' : Known} (h : RxReady l i g) (hg : ∀ r ∈ rxRegs i, g' r = g r) : RxReady l i g' :=
  ⟨h.ring.congr fun r hr => hg r (List.mem_cons_of_mem _ hr),h.buffers.congr (hg _ List.mem_cons_self)⟩

theorem RxReady.write_dctl (h : RxReady l i g) (v : Option (BitVec 32)) :
    RxReady l i (Function.update g (dctlReg rxBase i) v) := by
  refine h.congr fun r hr => Function.update_of_ne ?_ _ _
  rw [mem_rxRegs] at hr
  rw [dctl_rx]
  omega

def rxBlock (i : ℕ) : Set ℕ := {r | r = dctlReg rxBase i ∨ r ∈ rxRegs i}

theorem mem_rxBlock : r ∈ rxBlock i ↔ r = 0x01028+i*0x40 ∨ r = 0x02100+i*4 ∨ r = 0x01000+i*0x40 ∨
    r = 0x01004+i*0x40 ∨ r = 0x01008+i*0x40 ∨ r = 0x01010+i*0x40 ∨ r = 0x01018+i*0x40 := or_congr Iff.rfl mem_rxRegs

theorem RxUp.congr {g' : Known} (h : RxUp l i g) (hg : ∀ r ∈ rxBlock i, g' r = g r) : RxUp l i g' :=
  ⟨h.1.congr fun r hr => hg r (Or.inr hr),h.2.congr (hg _ (Or.inl rfl))⟩

theorem within_pollOrNote {S : Set ℕ} {reg : ℕ} (hr : reg ∈ S) (again : BitVec 32 → Bool) (note : Note) :
    Within S (pollOrNote reg again note) := by
  have hpoll : ∀ n, Within S (poll reg again n) := by
    intro n
    induction n with
    | zero => exact within_pure _
    | succ n ih => exact (within_read hr).bind fun v => Within.ite ih (within_pure _)
  refine (hpoll 10).bind fun expired => ?_
  cases expired with
  | true => exact trivial
  | false => exact within_pure _

theorem within_configureRxRing (ih : Handle) (i : ℕ) : Within (rxBlock i) (ixmapConfigureRxRing ih i i) := by
  have hdctl : dctlReg rxBase i ∈ rxBlock i := Or.inl rfl
  have hring : ∀ r ∈ rxRegs i, r ∈ rxBlock i := fun r hr => Or.inr hr
  simp only [rxRegs,ringRegs,List.forall_mem_cons] at hring
  obtain ⟨hsrrctl,hbal,hbah,hlen,hhead,htail,-⟩ := hring
  refine (within_read hdctl).bind fun _ => Within.bind ?_ fun _ => ?_
  · refine (within_read hdctl).bind fun _ => (within_write hdctl _).bind fun _ => ?_
    exact within_pollOrNote hdctl _ _
  refine (within_write hbal _).bind fun _ => (within_write hbah _).bind fun _ => (within_write hlen _).bind fun _ => ?_
  refine (within_write hhead _).bind fun _ => (within_write htail _).bind fun _ => (within_write hsrrctl _).bind fun _ => ?_
  exact (within_write hdctl _).bind fun _ => (within_pollOrNote hdctl _ _).bind fun _ => within_pure _

def srrctlValue (ih : Handle) : BitVec 32 :=
  let srrctl := align1k ih.bufSize >>> 10 ||| 0x02000000#32
  if 1 < ih.numQueues then srrctl ||| 0x10000000#32 else srrctl

theorem srrctlValue_type (ih : Handle) : srrctlValue ih &&& 0x02000000#32 ≠ 0#32 := by
  rw [srrctlValue]
  split_ifs
  · rw [BitVec.or_assoc,BitVec.or_comm 0x02000000#32,← BitVec.or_assoc]
    exact set_bits _ (by decide)
  · exact set_bits _ (by decide)

theorem permitted_dctl (hi : i < 16) (hoff : Off g rxctrlReg rxctrlRxen) (h : RxReady l i g) :
    Permitted l g (dctlReg rxBase i) v := by
  have hr := dctl_rx (i := i)
  refine permitted_rx (by omega) (fun j hj hr' => ?_) fun j hj hr' _ => ?_
  all_goals have h16' := l.lt_16 hj
  · rw [mem_rxRegs] at hr'
    omega
  · rw [dctl_rx,dctl_rx] at hr'
    obtain rfl : j = i := by omega
    exact ⟨hoff,h⟩

/-- A ring is described while its queue and the receiver are off, and the queue runs behind it. -/
theorem follows_configureRxRing (ih : Handle) (hi : i < ih.numQueues) (hoff : Off g rxctrlReg rxctrlRxen) :
    Follows (guarded (Permitted ih.toLayout)) (ixmapConfigureRxRing ih i i) g fun ih' g' =>
      Off g' rxctrlReg rxctrlRxen ∧ RxUp ih.toLayout i g' ∧
        ih' = { ih with rxTail := Function.update ih.rxTail i (some (tailReg rxBase i)) } := by
  have h16 : i < 16 := ih.lt_16 hi
  have hctrl : rxctrlReg ≠ dctlReg rxBase i := by
    rw [rxctrlReg,dctl_rx]
    omega
  refine guarded_read.mpr fun rxdctl => (follows_disableRxQueue h16).bind fun _ g₁ hg₁ => ?_
  obtain ⟨v,hv,rfl⟩ := hg₁
  rw [Function.update_idem]
  have hopen : RxOpen i (Function.update g (dctlReg rxBase i) (some v)) :=
    ⟨hoff.write hctrl,v,Function.update_self _ _ _,hv⟩
  have hmem : ∀ r ∈ ringRegs rxBase i, r ∈ rxRegs i := fun r hr => List.mem_cons_of_mem _ hr
  have hbal := hmem (balReg rxBase i) (by simp [ringRegs])
  have hbah := hmem (bahReg rxBase i) (by simp [ringRegs])
  have hlen := hmem (lenReg rxBase i) (by simp [ringRegs])
  have hhead := hmem (headReg rxBase i) (by simp [ringRegs])
  have htail := hmem (tailReg rxBase i) (by simp [ringRegs])
  have hsrrctl : srrctlReg i ∈ rxRegs i := List.mem_cons_self
  refine guarded_write (hopen.permits hi hbal) ?_
  replace hopen := hopen.write (v := (ih.rxDma i).setWidth 32) h16 hbal
  refine guarded_write (hopen.permits hi hbah) ?_
  replace hopen := hopen.write (v := (ih.rxDma i >>> 32).setWidth 32) h16 hbah
  refine guarded_write (hopen.permits hi hlen) ?_
  replace hopen := hopen.write (v := ih.numRxDesc*16#32) h16 hlen
  refine guarded_write (hopen.permits hi hhead) ?_
  replace hopen := hopen.write (v := 0#32) h16 hhead
  refine guarded_write (hopen.permits hi htail) ?_
  replace hopen := hopen.write (v := 0#32) h16 htail
  refine guarded_write (hopen.permits hi hsrrctl) ?_
  replace hopen := hopen.write (v := srrctlValue ih) h16 hsrrctl
  have hready := RxReady.of_writes ih (Function.update g (dctlReg rxBase i) (some v)) h16 (srrctlValue_type ih)
  refine guarded_write (permitted_dctl h16 hopen.receiver hready) ?_
  refine (follows_pollOrNote _ _ _ _).bind fun _ g₂ hg₂ => ?_
  obtain ⟨w,hw,rfl⟩ := hg₂
  rw [Function.update_idem]
  refine ⟨hopen.receiver.write hctrl,⟨hready.write_dctl _,w,Function.update_self _ _ _,?_⟩,rfl⟩
  simpa using hw

theorem rxBlock_apart {j : ℕ} (hi : i < 16) (hj : j < 16) (hne : j ≠ i) (hr : r ∈ rxBlock j) : r ∉ rxBlock i := by
  rw [mem_rxBlock] at hr ⊢
  omega

/-- All rings in front of `i` are set up, and so are those behind it when the loop ends. -/
theorem follows_configureRxRings (left i : ℕ) (ih : Handle) (g : Known) (hsum : i+left = ih.numQueues)
    (hoff : Off g rxctrlReg rxctrlRxen) (hup : ∀ j < i, RxUp ih.toLayout j g)
    (htail : ∀ j < i, ih.rxTail j = some (tailReg rxBase j)) :
    Follows (guarded (Permitted ih.toLayout)) (configureRxRings left i ih) g fun ih' g' =>
      (∀ j < ih.numQueues, RxUp ih.toLayout j g' ∧ ih'.rxTail j = some (tailReg rxBase j)) ∧
        ih'.toLayout = ih.toLayout := by
  induction left generalizing i ih g with
  | zero =>
    obtain rfl : i = ih.numQueues := hsum
    exact ⟨fun j hj => ⟨hup j hj,htail j hj⟩,rfl⟩
  | succ left hrest =>
    have hi : i < ih.numQueues := by omega
    have h16 := ih.lt_16 hi
    have hbyte : i%2^8 = i := Nat.mod_eq_of_lt (by omega)
    rw [configureRxRings,hbyte]
    refine ((follows_configureRxRing ih hi hoff).frame (within_configureRxRing ih i)).bind fun ih₁ g₁ hg₁ => ?_
    obtain ⟨⟨hoff₁,hup₁,rfl⟩,hkeep⟩ := hg₁
    have hsum' : i+1+left = ih.numQueues := by omega
    refine hrest (i+1) { ih with rxTail := Function.update ih.rxTail i (some (tailReg rxBase i)) } g₁ hsum' hoff₁
      (fun j hj => ?_) fun j hj => ?_
    · rcases Nat.lt_succ_iff_lt_or_eq.mp hj with hj | rfl
      · exact (hup j hj).congr fun r hr => hkeep r (rxBlock_apart h16 (by omega) (by omega) hr)
      · exact hup₁
    · rcases Nat.lt_succ_iff_lt_or_eq.mp hj with hj | rfl
      · exact (Function.update_of_ne (by omega) _ _).trans (htail j hj)
      · exact Function.update_self _ _ _

/-- The bytes of a register, as the device numbers the entries of the table. -/
def byteAt (v : BitVec 32) (b : ℕ) : BitVec 8 := (v >>> (8*b)).setWidth 8

/-- Register `k` holds four entries, the first of them in its highest byte. -/
def RetaWord (n k : ℕ) (g : Known) : Prop :=
  ∃ w, g (retaReg k) = some w ∧ ∀ b < 4, byteAt w b = BitVec.ofNat 8 ((4*k+3-b)%n)

theorem byteAt_shift (v : BitVec 32) {m : ℕ} (hm : m < 256) : byteAt (v <<< 8 ||| BitVec.ofNat 32 m) 0 = BitVec.ofNat 8 m ∧
    ∀ b < 3, byteAt (v <<< 8 ||| BitVec.ofNat 32 m) (b+1) = byteAt v b := by
  refine ⟨?_,fun b hb => ?_⟩
  · apply BitVec.eq_of_getLsbD_eq
    intro k hk
    rw [byteAt,BitVec.getLsbD_setWidth,BitVec.getLsbD_ushiftRight,BitVec.getLsbD_or,BitVec.getLsbD_shiftLeft,
      BitVec.getLsbD_ofNat,BitVec.getLsbD_ofNat]
    simp only [Nat.mul_zero,Nat.zero_add,hk,decide_true,Bool.true_and,Bool.not_true,Bool.and_false,Bool.false_and,
      Bool.false_or,show k < 32 by omega]
  · apply BitVec.eq_of_getLsbD_eq
    intro k hk
    have hhigh : m.testBit (8*(b+1)+k) = false := by
      have hpow : 2^8 ≤ 2^(8*(b+1)+k) := Nat.pow_le_pow_right (by decide) (by omega)
      exact Nat.testBit_lt_two_pow (hm.trans_le hpow)
    rw [byteAt,byteAt,BitVec.getLsbD_setWidth,BitVec.getLsbD_setWidth,BitVec.getLsbD_ushiftRight,BitVec.getLsbD_ushiftRight,
      BitVec.getLsbD_or,BitVec.getLsbD_shiftLeft,BitVec.getLsbD_ofNat,hhigh]
    simp only [show 8*(b+1)+k < 32 by omega,show ¬8*(b+1)+k < 8 by omega,show 8*(b+1)+k-8 = 8*b+k by omega,decide_true,
      decide_false,Bool.true_and,Bool.not_false,Bool.and_false,Bool.or_false]

theorem reta_unwatched {k : ℕ} (hk : k < 32) : retaReg k ∉ watched := by
  rw [mem_watched,retaReg]
  omega

theorem follows_fillReta {n : ℕ} (hn : 0 < n) (hn16 : n ≤ 16) (left i j : ℕ) (reta : BitVec 32) (g : Known)
    (hsum : i+left = 128) (hj : (if j = n then 0 else j) = i%n)
    (hreta : ∀ b < 4, b < i → byteAt reta b = BitVec.ofNat 8 ((i-1-b)%n)) (hdone : ∀ k, 4*k+4 ≤ i → RetaWord n k g) :
    Follows (guarded (Permitted l)) (fillReta n left i j reta) g fun _ g' => ∀ k < 32, RetaWord n k g' := by
  induction left generalizing i j reta g with
  | zero => exact fun k hk => hdone k (by omega)
  | succ left ih =>
    have hlt : i%n < n := Nat.mod_lt _ hn
    obtain ⟨h0,hsucc⟩ := byteAt_shift reta (m := i%n) (by omega)
    have hnext : (if i%n+1 = n then 0 else i%n+1) = (i+1)%n := by
      rw [← Nat.mod_add_mod]
      split_ifs with hwrap
      · rw [hwrap,Nat.mod_self]
      · exact (Nat.mod_eq_of_lt (by omega)).symm
    have hbytes : ∀ b < 4, b < i+1 → byteAt (reta <<< 8 ||| BitVec.ofNat 32 (i%n)) b = BitVec.ofNat 8 ((i+1-1-b)%n) := by
      intro b hb hbi
      rw [Nat.add_sub_cancel]
      cases b with
      | zero => exact h0
      | succ b =>
        rw [hsucc b (by omega),hreta b (by omega) (by omega)]
        congr 2
        omega
    have hrest : ∀ g', (∀ k, 4*k+4 ≤ i+1 → RetaWord n k g') → Follows (guarded (Permitted l))
        (fillReta n left (i+1) (i%n+1) (reta <<< 8 ||| BitVec.ofNat 32 (i%n))) g' fun _ g' => ∀ k < 32, RetaWord n k g' :=
      fun g' => ih _ _ _ _ (by omega) hnext hbytes
    simp only [fillReta,hj]
    by_cases hlast : i &&& 3 = 3
    · -- the fourth entry completes register `k`
      have hmod : i%4 = 3 := by rwa [show 3 = 2^2-1 from rfl,Nat.and_two_pow_sub_one_eq_mod] at hlast
      obtain ⟨k,rfl⟩ : ∃ k, i = 4*k+3 := ⟨i/4,by omega⟩
      have hshift : (4*k+3) >>> 2 = k := by
        rw [Nat.shiftRight_eq_div_pow]
        omega
      rw [storeReta,if_pos hlast,if_pos (by omega),hshift]
      refine guarded_write (permitted_other (reta_unwatched (by omega))) (hrest _ fun k' hk' => ?_)
      by_cases hk : k' = k
      · subst hk
        exact ⟨_,Function.update_self _ _ _,fun b hb => hbytes b hb (by omega)⟩
      · obtain ⟨w,hw,hwb⟩ := hdone k' (by omega)
        refine ⟨w,(Function.update_of_ne ?_ _ _).trans hw,hwb⟩
        rw [retaReg,retaReg]
        omega
    · have hmod : i%4 ≠ 3 := by rwa [show 3 = 2^2-1 from rfl,Nat.and_two_pow_sub_one_eq_mod] at hlast
      rw [storeReta,if_neg hlast]
      exact hrest g fun k hk => hdone k (by omega)

theorem follows_other {α : Type} {p : PortProg α} (hp : Within watchedᶜ p) :
    Follows (guarded (Permitted l)) p g fun _ g' => ∀ r ∈ watched, g' r = g r :=
  (hp.follows fun _ _ hr _ => permitted_other hr).mono fun _ _ hg r hr => hg r (Set.notMem_compl_iff.mpr hr)

theorem within_setRxMode (l : Layout) : Within watchedᶜ (ixmapSetRxMode l) := by
  have hfctrl : fctrlReg ∈ watchedᶜ := by simp [mem_watched,fctrlReg]
  have hvlnctrl : vlnctrlReg ∈ watchedᶜ := by simp [mem_watched,vlnctrlReg]
  have hvmolr : vmolrReg ∈ watchedᶜ := by simp [mem_watched,vmolrReg]
  refine (within_read hfctrl).bind fun _ => (within_read hvlnctrl).bind fun _ => (within_read hvmolr).bind fun _ => ?_
  exact (within_write hvmolr _).bind fun _ => (within_write hvlnctrl _).bind fun _ => within_write hfctrl _

theorem follows_disableRx : Follows (guarded (Permitted l)) ixmapDisableRx g fun _ g' => Off g' rxctrlReg rxctrlRxen := by
  refine guarded_read.mpr fun rxctrl => ?_
  by_cases hon : rxctrl &&& rxctrlRxen ≠ 0#32
  · rw [if_pos hon]
    refine guarded_read.mpr fun _ => guarded_writeReg ?_ ⟨_,Function.update_self _ _ _,clear_bits _ _⟩
    exact permitted_single (by simp [rxctrlReg]) (fun _ hv => absurd (clear_bits _ _) hv) (by simp [rxctrlReg,mtqcReg])
      (by simp [rxctrlReg,eimsExReg])
  · rw [if_neg hon]
    exact ⟨rxctrl,Function.update_self _ _ _,not_not.mp hon⟩

theorem within_setupPsrtype (l : Layout) : Within watchedᶜ (ixmapSetupPsrtype l) := by
  have hpsrtype : psrtypeReg ∈ watchedᶜ := by simp [mem_watched,psrtypeReg]
  exact within_write hpsrtype _

theorem within_setupRdrxctl : Within watchedᶜ ixmapSetupRdrxctl := by
  have hrdrxctl : rdrxctlReg ∈ watchedᶜ := by simp [mem_watched,rdrxctlReg]
  have hrscdbu : rscdbuReg ∈ watchedᶜ := by simp [mem_watched,rscdbuReg]
  refine (within_read hrdrxctl).bind fun _ => (within_read hrscdbu).bind fun _ => ?_
  exact (within_write hrscdbu _).bind fun _ => within_write hrdrxctl _

theorem within_setupRfctl : Within watchedᶜ ixmapSetupRfctl := by
  have hrfctl : rfctlReg ∈ watchedᶜ := by simp [mem_watched,rfctlReg]
  exact (within_read hrfctl).bind fun _ => within_write hrfctl _

def table : Set ℕ := {r | 0x05C00 ≤ r ∧ r < 0x05C80}

/-- The table is filled, when there are queues. -/
def TableSet (l : Layout) (g : Known) : Prop := 0 < l.numQueues → ∀ k < 32, RetaWord l.numQueues k g

theorem TableSet.congr {g' : Known} (h : TableSet l g) (hg : ∀ r ∈ table, g' r = g r) : TableSet l g' := by
  intro hn k hk
  obtain ⟨w,hw,hbytes⟩ := h hn k hk
  have hmem : retaReg k ∈ table := by
    simp only [table,retaReg,Set.mem_ofPred_eq]
    omega
  exact ⟨w,(hg _ hmem).trans hw,hbytes⟩

theorem within_writeSeeds (i : ℕ) (hseeds : List (BitVec 32)) (hi : i+hseeds.length ≤ 10) :
    Within (watchedᶜ ∩ tableᶜ) (writeSeeds i hseeds) := by
  induction hseeds generalizing i with
  | nil => exact within_pure _
  | cons seed rest ih =>
    rw [List.length_cons] at hi
    have hmem : rssrkReg i ∈ watchedᶜ ∩ tableᶜ := by
      rw [Set.mem_inter_iff,Set.mem_compl_iff,Set.mem_compl_iff,mem_watched,rssrkReg,table,Set.mem_ofPred_eq]
      omega
    exact (within_write hmem _).bind fun _ => ih (i+1) (by omega)

theorem within_storeReta (i : ℕ) (reta : BitVec 32) : Within watchedᶜ (storeReta i reta) := by
  rw [storeReta]
  split_ifs with hlast hlt
  · refine within_write (reta_unwatched ?_) _
    rw [Nat.shiftRight_eq_div_pow]
    omega
  · exact within_pure _
  · exact within_pure _

theorem within_fillReta (n left i j : ℕ) (reta : BitVec 32) : Within watchedᶜ (fillReta n left i j reta) := by
  induction left generalizing i j reta with
  | zero => exact within_pure _
  | succ left ih => exact (within_storeReta _ _).bind fun _ => ih _ _ _

theorem follows_plain {α : Type} {p : PortProg α} (hp : Within (watchedᶜ ∩ tableᶜ) p) :
    Follows (guarded (Permitted l)) p g fun _ g' => ∀ r ∈ watched ∪ table, g' r = g r := by
  refine (hp.follows fun _ _ hr _ => permitted_other hr.1).mono fun _ _ hg r hr => hg r fun hr' => ?_
  exact hr.elim (fun h => hr'.1 h) fun h => hr'.2 h

theorem follows_setupMrqc : Follows (guarded (Permitted l)) (ixmapSetupMrqc l) g fun _ g' =>
    TableSet l g' ∧ ∀ r ∈ watched, g' r = g r := by
  have hfill : ∀ g : Known, Follows (guarded (Permitted l)) (fillReta l.numQueues 128 0 0 0#32) g fun _ g' => TableSet l g' := by
    intro g
    rcases Nat.eq_zero_or_pos l.numQueues with hn | hn
    · exact (follows_other (within_fillReta _ _ _ _ _)).mono fun _ _ _ hpos => absurd hn hpos.ne'
    · refine (follows_fillReta hn l.queues 128 0 0 0#32 g rfl ?_ ?_ ?_).mono fun _ _ hg _ => hg
      · rw [if_neg hn.ne,Nat.zero_mod]
      · exact fun b _ hb => absurd hb (Nat.not_lt_zero b)
      · exact fun k hk => absurd hk (by omega)
  have hrxcsum : rxcsumReg ∈ watchedᶜ ∩ tableᶜ := by simp [mem_watched,rxcsumReg,table]
  have hmrqc : mrqcReg ∈ watchedᶜ ∩ tableᶜ := by simp [mem_watched,mrqcReg,table]
  refine (follows_plain (within_writeSeeds 0 seeds (by decide))).bind fun _ g₁ hg₁ => ?_
  refine ((hfill g₁).frame (within_fillReta _ _ _ _ _)).bind fun _ g₂ hg₂ => ?_
  have hrest : Within (watchedᶜ ∩ tableᶜ) (do
      let rxcsum ← readReg rxcsumReg
      writeReg rxcsumReg (rxcsum ||| 0x2000#32)
      writeReg mrqcReg (0x1#32 ||| (0x00020000#32 ||| 0x00010000#32 ||| 0x00400000#32 ||| 0x00100000#32 |||
        0x00200000#32 ||| 0x00800000#32)) : PortProg Unit) :=
    (within_read hrxcsum).bind fun _ => (within_write hrxcsum _).bind fun _ => within_write hmrqc _
  refine (follows_plain hrest).mono fun _ g₃ hg₃ => ?_
  refine ⟨hg₂.1.congr fun r hr => hg₃ r (Or.inr hr),fun r hr => ?_⟩
  rw [hg₃ r (Or.inl hr),hg₂.2 r (Set.notMem_compl_iff.mpr hr),hg₁ r (Or.inl hr)]

theorem within_setRxBufferLen (ih : Handle) : Within (watchedᶜ ∩ tableᶜ) (ixmapSetRxBufferLen ih) := by
  have hmhadd : mhaddReg ∈ watchedᶜ ∩ tableᶜ := by simp [mem_watched,mhaddReg,table]
  have hhlreg0 : hlreg0Reg ∈ watchedᶜ ∩ tableᶜ := by simp [mem_watched,hlreg0Reg,table]
  refine (within_read hmhadd).bind fun _ => Within.bind (Within.ite (within_write hmhadd _) (within_pure _)) fun _ => ?_
  exact (within_read hhlreg0).bind fun _ => (within_write hhlreg0 _).bind fun _ => within_pure _

theorem follows_setRxBufferLen (ih : Handle) : Follows (guarded (Permitted l)) (ixmapSetRxBufferLen ih) g fun ih' g' =>
    (∀ r ∈ watched ∪ table, g' r = g r) ∧ ih'.toLayout = ih.toLayout ∧ ih'.rxTail = ih.rxTail := by
  refine (follows_plain (within_setRxBufferLen ih)).always ?_
  refine (always_true _).bind fun _ _ => (always_true _).bind fun _ _ => (always_true _).bind fun _ _ => ?_
  exact (always_true _).bind fun _ _ => ⟨rfl,rfl⟩

end

end PortInit
end Ixmap
