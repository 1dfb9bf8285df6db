import Mathlib

/-! The frame and buffer sizes that `lib/rxinit.c` programs into a port, and the slot stride that `main`
derives from them. Registers hold 32 bits; whatever they held before is arbitrary. -/
namespace Ixmap
namespace RxInit

/-- `struct ixmap_handle` as far as the receive set-up reads and writes it, with the register space. -/
structure Nic where
  regs : ℕ → ℕ
  mtuFrame : ℕ
  bufSize : ℕ
  numQueues : ℕ

def ixmapReadReg (h : Nic) (reg : ℕ) : ℕ := h.regs reg % 2^32

def ixmapWriteReg (h : Nic) (reg value : ℕ) : Nic :=
  { h with regs := Function.update h.regs reg (value % 2^32) }

def srrctlReg (i : ℕ) : ℕ := 0x02100+i*4

def hlreg0Reg : ℕ := 0x04240

def mhaddReg : ℕ := 0x04268

def minFrame : ℕ := 1514+4

def vlanHlen : ℕ := 4

def maxRxbuffer : ℕ := 16384

def align1k (x : ℕ) : ℕ := (x+1023) % 2^32/1024*1024

def clampFrame (mtu : ℕ) : ℕ := if mtu < minFrame then minFrame else mtu

def setMfs (h : Nic) (mtu : ℕ) : Nic :=
  let mhadd := ixmapReadReg h mhaddReg
  if mtu ≠ mhadd>>>16 then ixmapWriteReg h mhaddReg ((mhadd &&& 0xFFFF) ||| ((mtu<<<16) % 2^32)) else h

/-- The buffer for a frame: whole KB, up to what one descriptor can take. -/
def capBuffer (mtu : ℕ) : ℕ := if maxRxbuffer < align1k mtu then maxRxbuffer else align1k mtu

def ixmapSetRxBufferLen (h : Nic) : Nic :=
  let h₁ := setMfs h (clampFrame h.mtuFrame)
  let mtu := (clampFrame h.mtuFrame+vlanHlen) % 2^32
  let h₂ := { h₁ with mtuFrame := mtu, bufSize := capBuffer mtu }
  -- JUMBOEN
  ixmapWriteReg h₂ hlreg0Reg (ixmapReadReg h₂ hlreg0Reg ||| 0x4)

def ixmapConfigureSrrctl (h : Nic) (regIdx : ℕ) : Nic :=
  -- ADV_ONEBUF, and DROP_EN when there are several queues
  let srrctl := (align1k h.bufSize>>>10) ||| 0x02000000
  ixmapWriteReg h (srrctlReg regIdx) (if 1 < h.numQueues then srrctl ||| 0x10000000 else srrctl)

/-- The loop over the queues of `ixmap_configure_rx`; the index is passed as a `uint8_t`. -/
def configureRings (h : Nic) : ℕ → Nic
  | 0 => h
  | n+1 => ixmapConfigureSrrctl (configureRings h n) (n % 2^8)

/-- The two steps of `ixmap_configure_rx` that program sizes, in their order. -/
def ixmapConfigureRx (h : Nic) : Nic := configureRings (ixmapSetRxBufferLen h) h.numQueues

def maxBufSize (ports : List Nic) : ℕ :=
  ports.foldl (fun size h => if size < h.bufSize then h.bufSize else size) 0

/-- The `MFS` field of `MHADD`: the largest frame accepted without a VLAN tag. -/
def mfs (h : Nic) : ℕ := ixmapReadReg h mhaddReg>>>16

/-- The low five bits of `SRRCTL`: the packet buffer of a queue, in KB. -/
def bsizepkt (h : Nic) (regIdx : ℕ) : ℕ := ixmapReadReg h (srrctlReg regIdx) % 2^5*1024

theorem readReg_write (h : Nic) (reg value : ℕ) :
    ixmapReadReg (ixmapWriteReg h reg value) reg = value % 2^32 := by
  simp [ixmapReadReg,ixmapWriteReg]

theorem readReg_write_ne (h : Nic) {reg reg' : ℕ} (value : ℕ) (hne : reg' ≠ reg) :
    ixmapReadReg (ixmapWriteReg h reg value) reg' = ixmapReadReg h reg' := by
  simp [ixmapReadReg,ixmapWriteReg,hne]

/-- Only 16 bits of the frame size reach the MFS field. -/
theorem mfs_field (mhadd mtu : ℕ) :
    (((mhadd &&& 0xFFFF) ||| ((mtu<<<16) % 2^32)) % 2^32)>>>16 = mtu % 2^16 := by
  have hlow : (mhadd &&& 0xFFFF) = mhadd % 2^16 := Nat.and_two_pow_sub_one_eq_mod mhadd 16
  have hshift : (mtu<<<16) % 2^32 = (mtu % 2^16)<<<16 := by
    rw [Nat.shiftLeft_eq,Nat.shiftLeft_eq]
    omega
  rw [hlow,hshift,Nat.or_comm,← Nat.shiftLeft_add_eq_or_of_lt (Nat.mod_lt _ (by decide)),
    Nat.shiftLeft_eq,Nat.shiftRight_eq_div_pow]
  omega

theorem mfs_setMfs (h : Nic) (mtu : ℕ) : mfs (setMfs h mtu) = mtu % 2^16 := by
  unfold mfs setMfs
  simp only
  split_ifs with hne
  · rw [readReg_write]
    exact mfs_field _ _
  · -- a field that already agrees has 16 bits
    have hlt : ixmapReadReg h mhaddReg>>>16 < 2^16 := by
      rw [Nat.shiftRight_eq_div_pow,ixmapReadReg]
      omega
    rw [not_not.mp hne,Nat.mod_eq_of_lt hlt]

theorem mfs_setRxBufferLen (h : Nic) : mfs (ixmapSetRxBufferLen h) = clampFrame h.mtuFrame % 2^16 := by
  rw [← mfs_setMfs h,mfs,ixmapSetRxBufferLen,readReg_write_ne _ _ (by decide)]
  rfl

theorem configureRings_fields (h : Nic) (n : ℕ) :
    (configureRings h n).bufSize = h.bufSize ∧ (configureRings h n).numQueues = h.numQueues ∧
      mfs (configureRings h n) = mfs h := by
  induction n with
  | zero => exact ⟨rfl,rfl,rfl⟩
  | succ n ih =>
    refine ⟨ih.1,ih.2.1,?_⟩
    rw [← ih.2.2,configureRings,mfs,ixmapConfigureSrrctl,readReg_write_ne]
    · rfl
    · unfold mhaddReg srrctlReg
      omega

/-- What every queue's `SRRCTL` says about its buffer. -/
def srrctlBytes (bufSize : ℕ) : ℕ := (align1k bufSize>>>10) % 2^5*1024

theorem bsizepkt_field (x : ℕ) {flags : ℕ} (hflags : 2^5 ∣ flags) : (x ||| flags) % 2^5 = x % 2^5 := by
  rw [Nat.or_mod_two_pow,Nat.mod_eq_zero_of_dvd hflags,Nat.or_zero]

theorem bsizepkt_configureSrrctl (h : Nic) (i : ℕ) :
    bsizepkt (ixmapConfigureSrrctl h i) i = srrctlBytes h.bufSize := by
  unfold bsizepkt ixmapConfigureSrrctl srrctlBytes
  simp only
  rw [readReg_write,Nat.mod_mod_of_dvd _ (by decide)]
  split_ifs
  · rw [bsizepkt_field _ (by decide),bsizepkt_field _ (by decide)]
  · rw [bsizepkt_field _ (by decide)]

theorem bsizepkt_configureSrrctl_ne (h : Nic) {i j : ℕ} (hne : i ≠ j) :
    bsizepkt (ixmapConfigureSrrctl h j) i = bsizepkt h i := by
  have hreg : srrctlReg i ≠ srrctlReg j := by
    unfold srrctlReg
    omega
  unfold bsizepkt ixmapConfigureSrrctl
  simp only
  rw [readReg_write_ne _ _ hreg]

theorem bsizepkt_configureRings (h : Nic) {i n : ℕ} (hi : i < n) :
    bsizepkt (configureRings h n) (i % 2^8) = srrctlBytes h.bufSize := by
  induction n with
  | zero => omega
  | succ n ih =>
    rw [configureRings]
    by_cases heq : i % 2^8 = n % 2^8
    · rw [heq,bsizepkt_configureSrrctl,(configureRings_fields h n).1]
    · rw [bsizepkt_configureSrrctl_ne _ heq]
      have hne : i ≠ n := fun he => heq (he ▸ rfl)
      exact ih (by omega)

/-- A capped buffer is a whole number of KB that fits the field. -/
theorem srrctlBytes_capBuffer (mtu : ℕ) : srrctlBytes (capBuffer mtu) = capBuffer mtu := by
  unfold srrctlBytes capBuffer maxRxbuffer align1k
  rw [Nat.shiftRight_eq_div_pow]
  split_ifs <;> omega

theorem capBuffer_fits_iff {mtu : ℕ} (hlt : mtu < 2^32) :
    clampFrame mtu % 2^16+vlanHlen ≤ capBuffer ((clampFrame mtu+vlanHlen) % 2^32) ↔
      clampFrame mtu % 2^16 ≤ 16380 := by
  have hclamp : minFrame ≤ clampFrame mtu ∧ clampFrame mtu < 2^32 := by
    unfold clampFrame minFrame
    split_ifs <;> omega
  generalize clampFrame mtu = m at *
  unfold capBuffer maxRxbuffer align1k vlanHlen minFrame at *
  split_ifs <;> omega

theorem foldl_bufSize_le (ports : List Nic) (size : ℕ) :
    size ≤ ports.foldl (fun size h => if size < h.bufSize then h.bufSize else size) size ∧
      ∀ h ∈ ports, h.bufSize ≤
        ports.foldl (fun size h => if size < h.bufSize then h.bufSize else size) size := by
  induction ports generalizing size with
  | nil => simp
  | cons g rest ih =>
    simp only [List.foldl_cons]
    have hstep : size ≤ (if size < g.bufSize then g.bufSize else size) ∧
        g.bufSize ≤ (if size < g.bufSize then g.bufSize else size) := by
      split_ifs <;> omega
    obtain ⟨hle,hall⟩ := ih (if size < g.bufSize then g.bufSize else size)
    refine ⟨hstep.1.trans hle,?_⟩
    intro h hh
    rcases List.mem_cons.mp hh with rfl | hh
    · exact hstep.2.trans hle
    · exact hall h hh

theorem bufSize_le_maxBufSize {ports : List Nic} {h : Nic} (hmem : h ∈ ports) :
    h.bufSize ≤ maxBufSize ports := (foldl_bufSize_le ports 0).2 h hmem

/-- The largest frame a port accepts fits the buffer of each of its queues, and that buffer the stride
of the slots, exactly when 16 bits of the frame size leave room for a tag in 16 KB. -/
theorem rx_one_buffer_iff {ports : List Nic} {h : Nic} (hmem : h ∈ ports) (hmtu : h.mtuFrame < 2^32) {i : ℕ}
    (hi : i < h.numQueues) :
    (mfs (ixmapConfigureRx h)+vlanHlen ≤ bsizepkt (ixmapConfigureRx h) (i % 2^8) ∧
      bsizepkt (ixmapConfigureRx h) (i % 2^8) ≤ maxBufSize (ports.map ixmapConfigureRx)) ↔
      clampFrame h.mtuFrame % 2^16 ≤ 16380 := by
  obtain ⟨hbuf,-,hmfs⟩ := configureRings_fields (ixmapSetRxBufferLen h) h.numQueues
  have hset : (ixmapSetRxBufferLen h).bufSize = capBuffer ((clampFrame h.mtuFrame+vlanHlen) % 2^32) := rfl
  have hsize : bsizepkt (ixmapConfigureRx h) (i % 2^8) = (ixmapConfigureRx h).bufSize := by
    rw [ixmapConfigureRx,bsizepkt_configureRings _ hi,hbuf,hset,srrctlBytes_capBuffer]
  have hstride := bufSize_le_maxBufSize (List.mem_map_of_mem (f := ixmapConfigureRx) hmem)
  rw [hsize,and_iff_left hstride,ixmapConfigureRx,hmfs,hbuf,hset,mfs_setRxBufferLen]
  exact capBuffer_fits_iff hmtu

/-- The default frame size, on a port with one queue whose registers are all ones. -/
theorem rx_one_buffer_default :
    let h : Nic := ⟨fun _ => 2^32-1,0,0,1⟩
    mfs (ixmapConfigureRx h)+vlanHlen ≤ bsizepkt (ixmapConfigureRx h) (0 % 2^8) ∧
      bsizepkt (ixmapConfigureRx h) (0 % 2^8) ≤ maxBufSize [ixmapConfigureRx h] :=
  (rx_one_buffer_iff (List.mem_singleton_self _) (by decide) (by decide : 0 < 1)).mpr (by decide)

/-- With `-m 20000` the port accepts frames of 20000 bytes into buffers of 16384. -/
theorem rx_one_buffer_jumbo : mfs (ixmapConfigureRx ⟨fun _ => 0,20000,0,1⟩) = 20000 ∧
    bsizepkt (ixmapConfigureRx ⟨fun _ => 0,20000,0,1⟩) 0 = 16384 := by
  decide

end RxInit
end Ixmap
