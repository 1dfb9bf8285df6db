import Ixmap.PortOrder

/-! The whole of what `main` does for a port: receiving, transmitting, interrupts. On every device all writes come
in the permitted order as long as no poll has run out, and then the port is ready. -/
namespace Ixmap
namespace PortInit
open RegProgram

section
variable {l : Layout} {g : Known} {r i : ℕ} {v : BitVec 32}

/-- Where the registers of the receive queues and of their buffers lie. -/
def rxWindow : Set ℕ := {r | 0x01000 ≤ r ∧ r < 0x02200}

theorem mem_rxWindow : r ∈ rxWindow ↔ 0x01000 ≤ r ∧ r < 0x02200 := Iff.rfl

theorem rxBlock_window (hi : i < 16) : rxBlock i ⊆ rxWindow := by
  intro r hr
  rw [mem_rxBlock] at hr
  rw [mem_rxWindow]
  omega

theorem within_configureRxRings (left i : ℕ) (ih : Handle) (h : i+left ≤ 16) :
    Within rxWindow (configureRxRings left i ih) := by
  induction left generalizing i ih with
  | zero => exact within_pure _
  | succ left hrest =>
    have hbyte : i%2^8 = i := Nat.mod_eq_of_lt (by omega)
    rw [configureRxRings,hbyte]
    exact ((within_configureRxRing ih i).mono (rxBlock_window (by omega))).bind fun ih' => hrest (i+1) ih' (by omega)

theorem follows_enableRx (hup : ∀ i < l.numQueues, RxUp l i g) :
    Follows (guarded (Permitted l)) ixmapEnableRx g fun _ g' =>
      On g' rxctrlReg rxctrlRxen ∧ ∀ r ≠ rxctrlReg, g' r = g r := by
  refine guarded_read.mpr fun rxctrl => guarded_writeReg ?_ ⟨?_,?_⟩
  · refine permitted_single (by simp [rxctrlReg]) (fun _ _ i hi => ?_) (by simp [rxctrlReg,mtqcReg])
      (by simp [rxctrlReg,eimsExReg])
    refine (hup i hi).congr fun r hr => Function.update_of_ne ?_ _ _
    have hr' := rxBlock_window (l.lt_16 hi) hr
    rw [mem_rxWindow] at hr'
    rw [rxctrlReg]
    omega
  · exact ⟨_,Function.update_self _ _ _,set_bits _ (by decide)⟩
  · intro r hr
    rw [Function.update_idem]
    exact Function.update_of_ne hr _ _

/-- What `ixmap_configure_rx` leaves behind. -/
structure RxConfigured (l : Layout) (ih : Handle) (g : Known) : Prop where
  layout : ih.toLayout = l
  receiver : On g rxctrlReg rxctrlRxen
  up : ∀ i < l.numQueues, RxUp l i g
  tail : ∀ i < l.numQueues, ih.rxTail i = some (tailReg rxBase i)
  table : TableSet l g

theorem follows_configureRx (ih : Handle) (g : Known) :
    Follows (guarded (Permitted ih.toLayout)) (ixmapConfigureRx ih) g (RxConfigured ih.toLayout) := by
  have hctrl : rxctrlReg ∈ watched := by simp [mem_watched,rxctrlReg]
  refine (follows_other (within_setRxMode _)).bind fun _ g₁ _ => ?_
  refine follows_disableRx.bind fun _ g₂ hoff => ?_
  refine (follows_other (within_setupPsrtype _)).bind fun _ g₃ h₃ => ?_
  refine (follows_other within_setupRdrxctl).bind fun _ g₄ h₄ => ?_
  refine (follows_other within_setupRfctl).bind fun _ g₅ h₅ => ?_
  refine follows_setupMrqc.bind fun _ g₆ h₆ => ?_
  refine (follows_setRxBufferLen ih).bind fun ih₁ g₇ h₇ => ?_
  obtain ⟨hkeep,hlayout,-⟩ := h₇
  have hoff₇ : Off g₇ rxctrlReg rxctrlRxen := by
    refine hoff.congr ?_
    rw [hkeep _ (Or.inl hctrl),h₆.2 _ hctrl,h₅ _ hctrl,h₄ _ hctrl,h₃ _ hctrl]
  have htable : TableSet ih.toLayout g₇ := h₆.1.congr fun r hr => hkeep r (Or.inr hr)
  have hqueues : 0+ih₁.numQueues ≤ 16 := by
    rw [Nat.zero_add]
    exact ih₁.queues
  have hrings := (follows_configureRxRings ih₁.numQueues 0 ih₁ g₇ (Nat.zero_add _) hoff₇
    (fun j hj => absurd hj (Nat.not_lt_zero j)) fun j hj => absurd hj (Nat.not_lt_zero j)).frame
    (within_configureRxRings _ 0 ih₁ hqueues)
  rw [← hlayout] at htable ⊢
  refine hrings.bind fun ih₂ g₈ h₈ => ?_
  obtain ⟨⟨hup,hlayout₂⟩,hkeep₈⟩ := h₈
  refine (follows_enableRx fun i hi => (hup i hi).1).bind fun _ g₉ h₉ => ?_
  refine ⟨hlayout₂,h₉.1,fun i hi => (hup i hi).1.congr fun r hr => h₉.2 r ?_,fun i hi => (hup i hi).2,?_⟩
  · have hr' := rxBlock_window (ih₁.lt_16 hi) hr
    rw [mem_rxWindow] at hr'
    rw [rxctrlReg]
    omega
  · refine htable.congr fun r hr => ?_
    simp only [PortInit.table,Set.mem_ofPred_eq] at hr
    rw [h₉.2 r (by rw [rxctrlReg]; omega),hkeep₈ r (by rw [mem_rxWindow]; omega)]

/-- While a queue is off and the DMA engine is on, its ring may be described. -/
structure TxOpen (i : ℕ) (g : Known) : Prop where
  engine : On g dmatxctlReg dmatxctlTe
  queue : Off g (dctlReg txBase i) dctlEnable

theorem TxOpen.permits (h : TxOpen i g) (hi : i < l.numQueues) (hr : r ∈ txRegs i) : Permitted l g r v := by
  have h16 := l.lt_16 hi
  rw [mem_txRegs] at hr
  refine permitted_tx (by omega) (fun j hj hr' => ?_) fun j hj hr' => ?_
  all_goals have h16' := l.lt_16 hj
  · rw [mem_txRegs] at hr'
    obtain rfl : j = i := by omega
    exact h.queue
  · rw [dctl_tx] at hr'
    omega

theorem TxOpen.write (h : TxOpen i g) (hr : r ∈ txRegs i) : TxOpen i (Function.update g r (some v)) := by
  rw [mem_txRegs] at hr
  refine ⟨h.engine.write ?_,h.queue.write ?_⟩
  · rw [dmatxctlReg]
    omega
  · rw [dctl_tx]
    omega

def txBlock (i : ℕ) : Set ℕ := {r | r = dctlReg txBase i ∨ r ∈ txRegs i}

theorem mem_txBlock : r ∈ txBlock i ↔ r = 0x06028+i*0x40 ∨ r = 0x06038+i*0x40 ∨ r = 0x0603c+i*0x40 ∨
    r = 0x06000+i*0x40 ∨ r = 0x06004+i*0x40 ∨ r = 0x06008+i*0x40 ∨ r = 0x06010+i*0x40 ∨ r = 0x06018+i*0x40 :=
  or_congr Iff.rfl mem_txRegs

theorem TxReady.congr {g' : Known} (h : TxReady l i g) (hg : ∀ r ∈ txRegs i, g' r = g r) : TxReady l i g' := by
  refine ⟨h.ring.congr fun r hr => hg r (by simp [txRegs,hr]),?_,?_⟩
  · rw [hg _ (by simp [txRegs])]
    exact h.noWriteBack.1
  · rw [hg _ (by simp [txRegs])]
    exact h.noWriteBack.2

theorem TxUp.congr {g' : Known} (h : TxUp l i g) (hg : ∀ r ∈ txBlock i, g' r = g r) : TxUp l i g' :=
  ⟨h.1.congr fun r hr => hg r (Or.inr hr),h.2.congr (hg _ (Or.inl rfl))⟩

theorem TxReady.write_dctl (h : TxReady l i g) (v : Option (BitVec 32)) :
    TxReady l i (Function.update g (dctlReg txBase i) v) := by
  refine h.congr fun r hr => Function.update_of_ne ?_ _ _
  rw [mem_txRegs] at hr
  rw [dctl_tx]
  omega

theorem TxReady.of_writes (ih : Handle) (i : ℕ) (g : Known) :
    TxReady ih.toLayout i (Function.update (Function.update (Function.update (Function.update (Function.update
      (Function.update (Function.update g (balReg txBase i) (some ((ih.txDma i).setWidth 32)))
      (bahReg txBase i) (some ((ih.txDma i >>> 32).setWidth 32))) (lenReg txBase i) (some (ih.numTxDesc*16#32)))
      (tdwbahReg i) (some 0#32)) (tdwbalReg i) (some 0#32)) (headReg txBase i) (some 0#32))
      (tailReg txBase i) (some 0#32)) := by
  refine ⟨⟨⟨_,_,?_,?_,dma_halves _⟩,?_,?_,?_⟩,?_,?_⟩
  all_goals simp [balReg,bahReg,lenReg,headReg,tailReg,tdwbahReg,tdwbalReg]

theorem follows_writeFlush {may : Known → ℕ → BitVec 32 → Prop} (g : Known) :
    Follows (guarded may) ixmapWriteFlush g fun _ g' => ∃ v, g' = Function.update g statusReg (some v) :=
  guarded_read.mpr fun v => ⟨v,rfl⟩

theorem permitted_txdctl (hi : i < 16) (h : v &&& dctlEnable ≠ 0#32 → On g dmatxctlReg dmatxctlTe ∧ TxReady l i g) :
    Permitted l g (dctlReg txBase i) v := by
  have hr := dctl_tx (i := i)
  refine permitted_tx (by omega) (fun j hj hr' => ?_) fun j hj hr' hv => ?_
  all_goals have h16' := l.lt_16 hj
  · rw [mem_txRegs] at hr'
    omega
  · rw [dctl_tx,dctl_tx] at hr'
    obtain rfl : j = i := by omega
    exact h hv

/-- A ring is described while its queue is off, and the queue runs behind it. -/
theorem follows_configureTxRing (ih : Handle) (hi : i < ih.numQueues) (hon : On g dmatxctlReg dmatxctlTe) :
    Follows (guarded (Permitted ih.toLayout)) (ixmapConfigureTxRing ih i i) g fun ih' g' =>
      On g' dmatxctlReg dmatxctlTe ∧ TxUp ih.toLayout i g' ∧
        ih' = { ih with txTail := Function.update ih.txTail i (some (tailReg txBase i)) } := by
  have h16 : i < 16 := ih.lt_16 hi
  have hctl : dmatxctlReg ≠ dctlReg txBase i := by
    rw [dmatxctlReg,dctl_tx]
    omega
  have hstatus : dctlReg txBase i ≠ statusReg := by
    rw [dctl_tx,statusReg]
    omega
  refine guarded_write (permitted_txdctl h16 fun hv => absurd (by decide) hv) ?_
  refine (follows_writeFlush _).bind fun _ g₁ hg₁ => ?_
  obtain ⟨status,rfl⟩ := hg₁
  have hopen : TxOpen i (Function.update (Function.update g (dctlReg txBase i) (some 0x04000000#32)) statusReg
      (some status)) := by
    refine ⟨(hon.write hctl).write (by decide),Off.write ?_ hstatus⟩
    exact ⟨_,Function.update_self _ _ _,by decide⟩
  have hbal : balReg txBase i ∈ txRegs i := by simp [txRegs,ringRegs]
  have hbah : bahReg txBase i ∈ txRegs i := by simp [txRegs,ringRegs]
  have hlen : lenReg txBase i ∈ txRegs i := by simp [txRegs,ringRegs]
  have hwbah : tdwbahReg i ∈ txRegs i := by simp [txRegs]
  have hwbal : tdwbalReg i ∈ txRegs i := by simp [txRegs]
  have hhead : headReg txBase i ∈ txRegs i := by simp [txRegs,ringRegs]
  have htail : tailReg txBase i ∈ txRegs i := by simp [txRegs,ringRegs]
  refine guarded_write (hopen.permits hi hbal) ?_
  replace hopen := hopen.write (v := (ih.txDma i).setWidth 32) hbal
  refine guarded_write (hopen.permits hi hbah) ?_
  replace hopen := hopen.write (v := (ih.txDma i >>> 32).setWidth 32) hbah
  refine guarded_write (hopen.permits hi hlen) ?_
  replace hopen := hopen.write (v := ih.numTxDesc*16#32) hlen
  refine guarded_write (hopen.permits hi hwbah) ?_
  replace hopen := hopen.write (v := 0#32) hwbah
  refine guarded_write (hopen.permits hi hwbal) ?_
  replace hopen := hopen.write (v := 0#32) hwbal
  refine guarded_write (hopen.permits hi hhead) ?_
  replace hopen := hopen.write (v := 0#32) hhead
  refine guarded_write (hopen.permits hi htail) ?_
  replace hopen := hopen.write (v := 0#32) htail
  have hready := TxReady.of_writes ih i (Function.update (Function.update g (dctlReg txBase i)
    (some 0x04000000#32)) statusReg (some status))
  refine guarded_write (permitted_txdctl h16 fun _ => ⟨hopen.engine,hready⟩) ?_
  refine (follows_pollOrNote _ _ _ _).bind fun _ g₂ hg₂ => ?_
  obtain ⟨w,hw,rfl⟩ := hg₂
  rw [Function.update_idem]
  refine ⟨hopen.engine.write hctl,⟨hready.write_dctl _,w,Function.update_self _ _ _,?_⟩,rfl⟩
  simpa using hw

/-- What `ixmap_configure_tx` accesses. -/
def txWindow : Set ℕ := {r | 0x06000 ≤ r ∧ r < 0x07000 ∨ r = statusReg ∨ r = rttdcsReg ∨ r = mtqcReg ∨ r = dmatxctlReg}

theorem mem_txWindow : r ∈ txWindow ↔
    0x06000 ≤ r ∧ r < 0x07000 ∨ r = 0x00008 ∨ r = 0x04900 ∨ r = 0x08120 ∨ r = 0x04A80 := Iff.rfl

theorem within_configureTxRing (ih : Handle) (i : ℕ) :
    Within (txBlock i ∪ {statusReg}) (ixmapConfigureTxRing ih i i) := by
  have hdctl : dctlReg txBase i ∈ txBlock i ∪ {statusReg} := Or.inl (Or.inl rfl)
  have hstatus : statusReg ∈ txBlock i ∪ {statusReg} := Or.inr rfl
  have hring : ∀ r ∈ txRegs i, r ∈ txBlock i ∪ {statusReg} := fun r hr => Or.inl (Or.inr hr)
  simp only [txRegs,ringRegs,List.forall_mem_cons] at hring
  obtain ⟨hwbal,hwbah,hbal,hbah,hlen,hhead,htail,-⟩ := hring
  refine (within_write hdctl _).bind fun _ => Within.bind ((within_read hstatus).bind fun _ => within_pure _) fun _ => ?_
  refine (within_write hbal _).bind fun _ => (within_write hbah _).bind fun _ => (within_write hlen _).bind fun _ => ?_
  refine (within_write hwbah _).bind fun _ => (within_write hwbal _).bind fun _ => (within_write hhead _).bind fun _ => ?_
  refine (within_write htail _).bind fun _ => (within_write hdctl _).bind fun _ => ?_
  exact (within_pollOrNote hdctl _ _).bind fun _ => within_pure _

theorem txBlock_window (hi : i < 16) : txBlock i ∪ {statusReg} ⊆ txWindow := by
  rintro r (hr | hr)
  · rw [mem_txBlock] at hr
    rw [mem_txWindow]
    omega
  · exact Or.inr (Or.inl hr)

theorem within_configureTxRings (left i : ℕ) (ih : Handle) (h : i+left ≤ 16) :
    Within txWindow (configureTxRings left i ih) := by
  induction left generalizing i ih with
  | zero => exact within_pure _
  | succ left hrest =>
    have hbyte : i%2^8 = i := Nat.mod_eq_of_lt (by omega)
    rw [configureTxRings,hbyte]
    exact ((within_configureTxRing ih i).mono (txBlock_window (by omega))).bind fun ih' => hrest (i+1) ih' (by omega)

theorem txBlock_apart {j : ℕ} (hne : j ≠ i) (hr : r ∈ txBlock j) : r ∉ txBlock i ∪ {statusReg} := by
  rw [mem_txBlock] at hr
  rw [Set.mem_union,Set.mem_singleton_iff,mem_txBlock,statusReg]
  omega

theorem follows_configureTxRings (left i : ℕ) (ih : Handle) (g : Known) (hsum : i+left = ih.numQueues)
    (hon : On g dmatxctlReg dmatxctlTe) (hup : ∀ j < i, TxUp ih.toLayout j g)
    (htail : ∀ j < i, ih.txTail j = some (tailReg txBase j)) :
    Follows (guarded (Permitted ih.toLayout)) (configureTxRings left i ih) g fun ih' g' =>
      (∀ j < ih.numQueues, TxUp ih.toLayout j g' ∧ ih'.txTail j = some (tailReg txBase j)) ∧
        ih'.toLayout = ih.toLayout ∧ ih'.rxTail = ih.rxTail := by
  induction left generalizing i ih g with
  | zero =>
    obtain rfl : i = ih.numQueues := hsum
    exact ⟨fun j hj => ⟨hup j hj,htail j hj⟩,rfl,rfl⟩
  | succ left hrest =>
    have hi : i < ih.numQueues := by omega
    have h16 := ih.lt_16 hi
    have hbyte : i%2^8 = i := Nat.mod_eq_of_lt (by omega)
    rw [configureTxRings,hbyte]
    refine ((follows_configureTxRing ih hi hon).frame (within_configureTxRing ih i)).bind fun ih₁ g₁ hg₁ => ?_
    obtain ⟨⟨hon₁,hup₁,rfl⟩,hkeep⟩ := hg₁
    have hsum' : i+1+left = ih.numQueues := by omega
    refine hrest (i+1) { ih with txTail := Function.update ih.txTail i (some (tailReg txBase i)) } g₁ hsum' hon₁
      (fun j hj => ?_) fun j hj => ?_
    · rcases Nat.lt_succ_iff_lt_or_eq.mp hj with hj | rfl
      · exact (hup j hj).congr fun r hr => hkeep r (txBlock_apart (by omega) hr)
      · exact hup₁
    · rcases Nat.lt_succ_iff_lt_or_eq.mp hj with hj | rfl
      · exact (Function.update_of_ne (by omega) _ _).trans (htail j hj)
      · exact Function.update_self _ _ _

theorem permitted_control (hr : r = rttdcsReg ∨ r = dmatxctlReg) : Permitted l g r v := by
  rcases hr with rfl | rfl
  · exact permitted_single (by simp [rttdcsReg]) (by simp [rttdcsReg,rxctrlReg]) (by simp [rttdcsReg,mtqcReg])
      (by simp [rttdcsReg,eimsExReg])
  · exact permitted_single (by simp [dmatxctlReg]) (by simp [dmatxctlReg,rxctrlReg]) (by simp [dmatxctlReg,mtqcReg])
      (by simp [dmatxctlReg,eimsExReg])

theorem follows_setupMtqc : Follows (guarded (Permitted l)) ixmapSetupMtqc g fun _ _ => True := by
  refine guarded_read.mpr fun rttdcs => guarded_write (permitted_control (Or.inl rfl)) ?_
  refine guarded_write ?_ (guarded_writeReg (permitted_control (Or.inl rfl)) trivial)
  refine permitted_single (by simp [mtqcReg]) (by simp [mtqcReg,rxctrlReg]) (fun _ => ?_) (by simp [mtqcReg,eimsExReg])
  exact ⟨_,Function.update_self _ _ _,set_bits _ (by decide)⟩

theorem within_setupMtqc : Within txWindow ixmapSetupMtqc := by
  have hrttdcs : rttdcsReg ∈ txWindow := by simp [mem_txWindow,rttdcsReg]
  have hmtqc : mtqcReg ∈ txWindow := by simp [mem_txWindow,mtqcReg]
  refine (within_read hrttdcs).bind fun _ => (within_write hrttdcs _).bind fun _ => ?_
  exact (within_write hmtqc _).bind fun _ => within_write hrttdcs _

theorem within_configureTx (ih : Handle) : Within txWindow (ixmapConfigureTx ih) := by
  have hdma : dmatxctlReg ∈ txWindow := by simp [mem_txWindow,dmatxctlReg]
  refine within_setupMtqc.bind fun _ => (within_read hdma).bind fun _ => (within_write hdma _).bind fun _ => ?_
  exact within_configureTxRings _ 0 ih (by rw [Nat.zero_add]; exact ih.queues)

/-- The DMA engine is on before any queue, and all queues run in the end. -/
theorem follows_configureTx (ih : Handle) (g : Known) :
    Follows (guarded (Permitted ih.toLayout)) (ixmapConfigureTx ih) g fun ih' g' =>
      (∀ j < ih.numQueues, TxUp ih.toLayout j g' ∧ ih'.txTail j = some (tailReg txBase j)) ∧
        ih'.toLayout = ih.toLayout ∧ ih'.rxTail = ih.rxTail := by
  refine follows_setupMtqc.bind fun _ g₁ _ => guarded_read.mpr fun dmatxctl => ?_
  refine guarded_write (permitted_control (Or.inr rfl)) ?_
  refine follows_configureTxRings _ 0 ih _ (Nat.zero_add _) ⟨_,Function.update_self _ _ _,set_bits _ (by decide)⟩ ?_ ?_
  · exact fun j hj => absurd hj (Nat.not_lt_zero j)
  · exact fun j hj => absurd hj (Nat.not_lt_zero j)

/-- The port receives and transmits on all queues, packets are spread over them, the tails are where the rings are
advanced, and the interrupts of all queues are on. -/
structure PortReady (l : Layout) (ih : Handle) (g : Known) : Prop where
  receiver : On g rxctrlReg rxctrlRxen
  up : ∀ i < l.numQueues, RxUp l i g ∧ TxUp l i g
  tail : ∀ i < l.numQueues, ih.rxTail i = some (tailReg rxBase i) ∧ ih.txTail i = some (tailReg txBase i)
  spread : TableSet l g
  interrupts : g (eimsExReg 0) = some (~~~0#32) ∧ g (eimsExReg 1) = some (~~~0#32)

/-- The receiver and all queues run. -/
def AllUp (l : Layout) (g : Known) : Prop := On g rxctrlReg rxctrlRxen ∧ ∀ i < l.numQueues, RxUp l i g ∧ TxUp l i g

/-- The registers that this rests on. -/
def upRegs : Set ℕ := {r | r = rxctrlReg ∨ 0x01000 ≤ r ∧ r < 0x02200 ∨ 0x06000 ≤ r ∧ r < 0x07000}

theorem mem_upRegs : r ∈ upRegs ↔ r = 0x03000 ∨ 0x01000 ≤ r ∧ r < 0x02200 ∨ 0x06000 ≤ r ∧ r < 0x07000 := Iff.rfl

theorem txBlock_up (hi : i < 16) (hr : r ∈ txBlock i) : r ∈ upRegs := by
  rw [mem_txBlock] at hr
  rw [mem_upRegs]
  omega

theorem AllUp.congr {g' : Known} (h : AllUp l g) (hg : ∀ r ∈ upRegs, g' r = g r) : AllUp l g' := by
  refine ⟨h.1.congr (hg _ (Or.inl rfl)),fun i hi => ⟨(h.2 i hi).1.congr fun r hr => ?_,(h.2 i hi).2.congr fun r hr => ?_⟩⟩
  · exact hg r (Or.inr (Or.inl (rxBlock_window (l.lt_16 hi) hr)))
  · exact hg r (txBlock_up (l.lt_16 hi) hr)

theorem AllUp.write (h : AllUp l g) (hr : r ∉ upRegs) (v : Option (BitVec 32)) : AllUp l (Function.update g r v) :=
  h.congr fun _ hr' => Function.update_of_ne (ne_of_mem_of_not_mem hr' hr) _ _

theorem AllUp.permits_irq (h : AllUp l g) (hr : r = eimsExReg 0 ∨ r = eimsExReg 1) : Permitted l g r v := by
  simp only [eimsExReg] at hr
  refine permitted_single ⟨by omega,by omega⟩ (fun hr' => ?_) (fun hr' => ?_) fun _ => h
  · rw [rxctrlReg] at hr'
    omega
  · rw [mtqcReg] at hr'
    omega

theorem enableHalf_set {mask : BitVec 32} (hmask : mask ≠ 0#32) (i : ℕ) : enableHalf i mask = writeReg (eimsExReg i) mask :=
  if_pos hmask

theorem ixmapIrqEnableQueues_all : ixmapIrqEnableQueues (~~~0#64) =
    writeReg (eimsExReg 0) (~~~0#32) >>= fun _ => writeReg (eimsExReg 1) (~~~0#32) := by
  rw [ixmapIrqEnableQueues,enableHalf_set (by decide),enableHalf_set (by decide)]
  rfl

theorem follows_irqEnable (h : AllUp l g) : Follows (guarded (Permitted l)) ixmapIrqEnable g fun _ g' =>
    (∀ r ∈ upRegs ∪ table, g' r = g r) ∧ g' (eimsExReg 0) = some (~~~0#32) ∧ g' (eimsExReg 1) = some (~~~0#32) := by
  have heims : eimsReg ∉ upRegs := by simp [mem_upRegs,eimsReg]
  have hex0 : eimsExReg 0 ∉ upRegs := by simp [mem_upRegs,eimsExReg]
  have hfree : ∀ r ∈ upRegs ∪ table, r ≠ eimsReg ∧ r ≠ eimsExReg 0 ∧ r ≠ eimsExReg 1 ∧ r ≠ statusReg := by
    intro r hr
    rw [Set.mem_union,mem_upRegs,table,Set.mem_ofPred_eq] at hr
    simp only [eimsReg,eimsExReg,statusReg]
    omega
  refine guarded_write (permitted_other (by simp [mem_watched,eimsReg])) ?_
  have h₁ := h.write heims (some (((0x0000FFFF#32 ||| 0x00100000#32 ||| 0x40000000#32 ||| 0x80000000#32) &&&
    ~~~0x0000FFFF#32) &&& ~~~0x00100000#32 &&& ~~~0x40000000#32 &&& ~~~0x80000000#32))
  rw [ixmapIrqEnableQueues_all,bind_assoc]
  refine guarded_write (h₁.permits_irq (Or.inl rfl)) ?_
  refine guarded_write ((h₁.write hex0 _).permits_irq (Or.inr rfl)) ?_
  refine (follows_writeFlush _).mono fun _ g' hg => ?_
  obtain ⟨status,rfl⟩ := hg
  refine ⟨fun r hr => ?_,?_,?_⟩
  · obtain ⟨h1,h2,h3,h4⟩ := hfree r hr
    rw [Function.update_of_ne h4,Function.update_of_ne h3,Function.update_of_ne h2,Function.update_of_ne h1]
  · rfl
  · rfl

theorem follows_bringUp (ih : Handle) (g : Known) :
    Follows (guarded (Permitted ih.toLayout)) (bringUp ih) g (PortReady ih.toLayout) := by
  refine (follows_configureRx ih g).bind fun ih₁ g₁ h₁ => ?_
  have htx := (follows_configureTx ih₁ g₁).frame (within_configureTx ih₁)
  rw [h₁.layout] at htx
  refine htx.bind fun ih₂ g₂ h₂ => ?_
  obtain ⟨⟨hup,-,hrx⟩,hkeep⟩ := h₂
  have hall : AllUp ih.toLayout g₂ := by
    refine ⟨h₁.receiver.congr (hkeep _ (by simp [mem_txWindow,rxctrlReg])),fun i hi => ⟨?_,(hup i hi).1⟩⟩
    refine (h₁.up i hi).congr fun r hr => hkeep r ?_
    have hr' := rxBlock_window (ih.lt_16 hi) hr
    rw [mem_rxWindow] at hr'
    rw [mem_txWindow]
    omega
  have htable : TableSet ih.toLayout g₂ := by
    refine h₁.table.congr fun r hr => hkeep r ?_
    rw [PortInit.table,Set.mem_ofPred_eq] at hr
    rw [mem_txWindow]
    omega
  refine (follows_irqEnable hall).bind fun _ g₃ h₃ => ?_
  have hall₃ := hall.congr fun r hr => h₃.1 r (Or.inl hr)
  refine ⟨hall₃.1,hall₃.2,fun i hi => ⟨?_,(hup i hi).2⟩,htable.congr fun r hr => h₃.1 r (Or.inr hr),h₃.2⟩
  rw [hrx]
  exact h₁.tail i hi

end

def twoQueues : Handle := ⟨⟨2,512#32,512#32,500#16,false,fun i => 0x10000#64+BitVec.ofNat 64 (i*0x2000),
  fun i => 0x20000#64+BitVec.ofNat 64 (i*0x2000),by decide⟩,1500#32,0#32,fun _ => none,fun _ => none⟩

/-- The whole bring-up of two queues on registers that keep what is written to them. -/
def twoQueuesUp := accesses memory 121 (bringUp twoQueues) fun _ => 0#32

def silent : Act ℕ (BitVec 32) Note → Bool
  | .mark _ => false
  | _ => true

theorem twoQueuesUp_quiet (e : Note) : .mark e ∉ twoQueuesUp.2.2 := by
  have hall : twoQueuesUp.2.2.all silent = true := by decide +kernel
  intro he
  exact absurd (List.all_eq_true.mp hall _ he) (by simp [silent])

end PortInit
end Ixmap
