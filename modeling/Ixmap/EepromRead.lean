import Ixmap.SerialEeprom

/-! What a read of the EEPROM returns when nobody else uses it: the stored word, whether it is read through
EERD or bit by bit, and the device is left as it was found. -/
namespace Ixmap
namespace Hw
open RegProgram

section
variable {τ : Type} {m : Device Reg (BitVec 32) τ}

namespace Nvm

/-- Nobody is behind the semaphore bits of SWSM. -/
structure SemFree (d : Nvm τ) : Prop where
  smbi : d.swsm.getLsbD 0 = false
  swesmbi : d.swsm.getLsbD 1 = false

theorem run_getSemaphore {d : Nvm τ} (h : SemFree d) : run (nvm m) ixmapGetEepromSemaphore d =
    (0,{ d with swsm := d.swsm ||| swsmSmbi ||| swsmSwesmbi ||| swsmSmbi }) := by
  have hclear : d.swsm &&& swsmSmbi = 0#32 := (smbi_clear _).mpr h.smbi
  have hset : (d.swsm ||| swsmSmbi ||| swsmSwesmbi) &&& swsmSwesmbi ≠ 0#32 := by
    rw [ne_eq,swesmbi_clear]
    simp [swsmSwesmbi]
  have htake : run (nvm m) takeSmbi d = (true,{ d with swsm := d.swsm ||| swsmSmbi }) := by
    have hpoll : run (nvm m) (pollSmbi (1999+1)) d = (true,{ d with swsm := d.swsm ||| swsmSmbi }) := by
      rw [pollSmbi]
      simp only [run_bind,run_readReg,read_swsm,hclear,if_true,run_pure]
    rw [takeSmbi]
    simp only [run_bind,semaphoreTimeout,hpoll,if_true,run_pure]
  have hrequest : run (nvm m) (requestSwesmbi (1999+1)) { d with swsm := d.swsm ||| swsmSmbi } =
      (true,{ d with swsm := d.swsm ||| swsmSmbi ||| swsmSwesmbi ||| swsmSmbi }) := by
    rw [requestSwesmbi]
    simp only [run_bind,run_readReg,run_writeReg,read_swsm,write_swsm,hset,ne_eq,not_false_eq_true,if_true,run_pure]
  rw [ixmapGetEepromSemaphore]
  simp only [run_bind,htake,if_true,semaphoreTimeout,hrequest,run_pure]

theorem swsm_restored {d : Nvm τ} (h : SemFree d) :
    (d.swsm ||| swsmSmbi ||| swsmSwesmbi ||| swsmSmbi) &&& ~~~(swsmSwesmbi ||| swsmSmbi) = d.swsm := by
  apply BitVec.eq_of_getLsbD_eq
  intro i hi
  have hsmbi : swsmSmbi.getLsbD i = decide (0 = i) := by
    exact (BitVec.getLsbD_twoPow 0 i (w := 32)).trans (by simp)
  have hswesmbi : swsmSwesmbi.getLsbD i = decide (1 = i) := by
    exact (BitVec.getLsbD_twoPow 1 i (w := 32)).trans (by simp)
  simp only [BitVec.getLsbD_and,BitVec.getLsbD_or,BitVec.getLsbD_not,hsmbi,hswesmbi,hi,decide_true,Bool.true_and]
  by_cases h0 : 0 = i
  · subst h0
    simpa using h.smbi.symm
  by_cases h1 : 1 = i
  · subst h1
    simpa using h.swesmbi.symm
  simp [h0,h1]

theorem run_releaseSemaphore (d : Nvm τ) : run (nvm m) ixmapReleaseEepromSemaphore d =
    ((),{ d with swsm := d.swsm &&& ~~~(swsmSwesmbi ||| swsmSmbi) }) := rfl

theorem run_acquireSync {d : Nvm τ} {mask : BitVec 16} (h : SemFree d) (hfree : d.gssr &&& busyMask mask = 0#32) :
    run (nvm m) (ixmapAcquireSwfwSync mask) d = (0,{ d with gssr := d.gssr ||| mask.setWidth 32 }) := by
  have hloop : run (nvm m) (acquireLoop mask (199+1) 0#32) d = (0,{ d with gssr := d.gssr ||| mask.setWidth 32 }) := by
    rw [acquireLoop]
    simp only [run_bind,run_getSemaphore h]
    rw [if_neg (not_not.mpr rfl)]
    simp only [run_bind,run_readReg,read_gssr,hfree,if_true,run_writeReg,write_gssr,run_releaseSemaphore,run_point,
      run_pure,swsm_restored h]
  exact hloop

theorem run_releaseSync {d : Nvm τ} (mask : BitVec 16) (h : SemFree d) :
    run (nvm m) (ixmapReleaseSwfwSync mask) d = ((),{ d with gssr := d.gssr &&& ~~~mask.setWidth 32 }) := by
  rw [ixmapReleaseSwfwSync]
  simp only [run_bind,run_point,run_getSemaphore h]
  rw [if_neg (not_not.mpr rfl)]
  simp only [run_bind,run_readReg,read_gssr,run_writeReg,write_gssr,run_releaseSemaphore,swsm_restored h]

theorem gnt_clear (d : Nvm τ) : d.eecValue &&& eecGnt = 0#32 ↔ d.granted = false := by
  rw [← d.eecValue_bits.2.2.2.2.2.1]
  exact and_twoPow_eq_zero _ (n := 7) (by decide)

theorem run_pollGrant (n : ℕ) (eec : BitVec 32) (d : Nvm τ) (hreq : d.req = true) (hg : d.granted = false)
    (hn : d.grantLeft < n) : run (nvm m) (pollGrant n eec) d =
      (eecValue { d with granted := true, grantLeft := 0 },{ d with granted := true, grantLeft := 0 }) := by
  induction n generalizing eec d with
  | zero => omega
  | succ n ih =>
    rw [pollGrant]
    by_cases hleft : d.grantLeft = 0
    · have hpoll : d.pollEec = { d with granted := true, grantLeft := 0 } := by
        simp [pollEec,hreq,hg,hleft]
      have hgnt : eecValue { d with granted := true, grantLeft := 0 } &&& eecGnt ≠ 0#32 := by
        rw [ne_eq,gnt_clear]
        exact Bool.noConfusion
      simp only [run_bind,run_readReg,read_eec,hpoll,ne_eq,hgnt,not_false_eq_true,if_true,run_pure]
    · have hpoll : d.pollEec = { d with grantLeft := d.grantLeft-1 } := by
        simp [pollEec,hreq,hg,hleft]
      have hgnt : eecValue { d with grantLeft := d.grantLeft-1 } &&& eecGnt = 0#32 := (gnt_clear _).mpr hg
      simp only [run_bind,run_readReg,read_eec,hpoll,ne_eq,hgnt,not_true_eq_false,if_false]
      exact ih _ { d with grantLeft := d.grantLeft-1 } hreq hg (by simp only; omega)

/-- Nobody uses the EEPROM, and its lines are as a reset or the last user has left them. -/
structure Idle (d : Nvm τ) : Prop extends SemFree d where
  free : d.gssr &&& busyMask gssrEepSm = 0#32
  req : d.req = false
  granted : d.granted = false
  sk : d.chip.sk = false
  di : d.chip.di = false
  received : d.chip.received = []

def requested (d : Nvm τ) : Nvm τ :=
  { d with gssr := d.gssr ||| gssrEepSm.setWidth 32, req := true, grantLeft := d.grantWait }

/-- The device at the disposal of a driver, with the chip selected. -/
def taken (d : Nvm τ) : Nvm τ :=
  { d with gssr := d.gssr ||| gssrEepSm.setWidth 32, req := true, granted := true, grantLeft := 0,
           chip := { d.chip with cs := false } }

theorem run_acquireEeprom {d : Nvm τ} (h : Idle d) (hw : d.grantWait < grantAttempts) :
    run (nvm m) ixmapAcquireEeprom d = (0,d.taken) := by
  obtain ⟨d₁,hd₁⟩ : ∃ d₁ : Nvm τ, d₁ = { d with gssr := d.gssr ||| gssrEepSm.setWidth 32 } := ⟨_,rfl⟩
  have hreq₁ : d₁.req = false := hd₁ ▸ h.req
  have hgranted₁ : d₁.granted = false := hd₁ ▸ h.granted
  have hpoll : d₁.pollEec = d₁ := by simp [pollEec,hreq₁]
  have hrequest : d₁.writeEec (d₁.eecValue ||| eecReq) = d.requested := by
    have hbit : (d₁.eecValue ||| eecReq).getLsbD 6 = true := by simp [eecReq]
    simp only [writeEec,hbit,hreq₁,hgranted₁,Bool.false_eq_true,if_false,Bool.not_false,Bool.and_true,if_true]
    rw [requested,hd₁,← h.granted]
  obtain ⟨d₂,hd₂⟩ : ∃ d₂ : Nvm τ, d₂ = { d.requested with granted := true, grantLeft := 0 } := ⟨_,rfl⟩
  have hgrant : ∀ eec, run (nvm m) (pollGrant grantAttempts eec) d.requested = (d₂.eecValue,d₂) := by
    intro eec
    rw [hd₂]
    exact run_pollGrant _ eec d.requested rfl h.granted hw
  have hg : Granted d₂ := by
    rw [hd₂]
    exact ⟨rfl,rfl⟩
  have hgnt : ¬d₂.eecValue &&& eecGnt = 0#32 := by
    rw [gnt_clear,hg.granted]
    exact Bool.noConfusion
  have hselect : d₂.writeEec (d₂.eecValue &&& ~~~(eecCs ||| eecSk)) = d.taken := by
    obtain ⟨-,-,h2,-,h6,-⟩ := d₂.eecValue_bits
    have hv : (d₂.eecValue &&& ~~~(eecCs ||| eecSk)).getLsbD 0 = false ∧
        (d₂.eecValue &&& ~~~(eecCs ||| eecSk)).getLsbD 1 = false ∧
        (d₂.eecValue &&& ~~~(eecCs ||| eecSk)).getLsbD 2 = false ∧
        (d₂.eecValue &&& ~~~(eecCs ||| eecSk)).getLsbD 6 = true := by
      have hdi : d₂.chip.di = false := hd₂ ▸ h.di
      simp only [BitVec.getLsbD_and,h2,h6,hg.req,hdi]
      simp [eecCs,eecSk]
    rw [hg.writeEec hv.2.2.2,hv.1,hv.2.1,hv.2.2.1,hd₂]
    have hsk := h.sk
    have hdi := h.di
    simp only [setChip,requested,taken,Chip.pins_level hsk,hsk,hdi]
  rw [ixmapAcquireEeprom]
  simp only [run_bind,run_acquireSync h.toSemFree h.free,ne_eq,not_true_eq_false,if_false,← hd₁,run_readReg,read_eec,
    hpoll,run_writeReg,write_eec,hrequest,hgrant,hgnt,hselect,run_flush,run_pure]

theorem taken_ready {d : Nvm τ} (h : Idle d) : Ready d.taken := ⟨⟨rfl,rfl⟩,h.sk,rfl,h.di⟩

def atRest (d : Nvm τ) : Nvm τ :=
  { d with grantLeft := 0, chip := { d.chip with cs := true, out := false, busy := 0 } }

theorem gssr_restored {gssr : BitVec 32} {mask : BitVec 16} (h : gssr &&& busyMask mask = 0#32) :
    (gssr ||| mask.setWidth 32) &&& ~~~mask.setWidth 32 = gssr := by
  apply BitVec.eq_of_getLsbD_eq
  intro i hi
  rw [BitVec.getLsbD_and,BitVec.getLsbD_or,BitVec.getLsbD_not,BitVec.getLsbD_setWidth,decide_eq_true hi,Bool.true_and,
    Bool.true_and]
  cases hm : mask.getLsbD i with
  | false => simp
  | true =>
    rw [(free_bits h hm).1]
    rfl

theorem run_releaseEeprom {d : Nvm τ} (h : Idle d) (r : List Bool) (o : Bool) :
    run (nvm m) ixmapReleaseEeprom (d.taken.setChip (d.taken.chip.amid 0 r o)) = ((),d.atRest) := by
  obtain ⟨d₁,hd₁⟩ : ∃ d₁, d₁ = d.taken.setChip (d.taken.chip.amid 0 r o) := ⟨_,rfl⟩
  have hg : Granted d₁ := hd₁ ▸ (taken_ready h).toGranted.setChip _
  obtain ⟨v,hv⟩ : ∃ v, v = (d₁.eecValue ||| eecCs) &&& ~~~eecSk := ⟨_,rfl⟩
  have hbits : v.getLsbD 0 = false ∧ v.getLsbD 1 = true ∧ v.getLsbD 2 = false ∧ v.getLsbD 6 = true := by
    obtain ⟨-,-,h2,-,h6,-⟩ := d₁.eecValue_bits
    have hdi : d₁.chip.di = false := by
      rw [hd₁]
      exact h.di
    simp only [hv,BitVec.getLsbD_and,BitVec.getLsbD_or,h2,h6,hg.req,hdi]
    simp [eecCs,eecSk]
  have hlast : (v &&& ~~~eecReq).getLsbD 0 = false ∧ (v &&& ~~~eecReq).getLsbD 1 = true ∧
      (v &&& ~~~eecReq).getLsbD 2 = false ∧ (v &&& ~~~eecReq).getLsbD 6 = false := by
    simp only [BitVec.getLsbD_and,hbits]
    simp [eecReq]
  obtain ⟨d₂,hd₂⟩ : ∃ d₂ : Nvm τ, d₂ = { d.atRest with gssr := d.gssr ||| gssrEepSm.setWidth 32 } := ⟨_,rfl⟩
  have hwrite : (d₁.writeEec v).writeEec (v &&& ~~~eecReq) = d₂ := by
    have hreq := h.req
    have hgranted := h.granted
    rw [hg.writeEec hbits.2.2.2,hbits.1,hbits.2.1,hbits.2.2.1,hd₂]
    simp only [writeEec,hlast,hd₁,setChip,taken,atRest,Chip.pins,Chip.amid,h.sk,h.di,h.received,hreq,hgranted,if_true,
      Bool.false_eq_true,if_false,Bool.and_false,Bool.false_and]
  have hsem : SemFree d₂ := by
    rw [hd₂]
    exact ⟨h.smbi,h.swesmbi⟩
  rw [ixmapReleaseEeprom,← hd₁]
  simp only [run_bind,run_readReg,read_eec,hg.pollEec,← hv,run_writeReg,write_eec,run_flush,hwrite,
    run_releaseSync _ hsem]
  rw [hd₂]
  simp only [atRest,gssr_restored h.free]

theorem run_readBufferBitBang {d : Nvm τ} {eeprom : EepromInfo} {offset : BitVec 16} (words : ℕ) (h : Idle d)
    (hw : d.grantWait < grantAttempts) (hb : d.chip.busy < readyAttempts)
    (ha : eeprom.addressBits = d.chip.addressBits)
    (hsize : offset.toNat+words ≤ if d.chip.large then 2^15 else 2^8) :
    run (nvm m) (ixmapReadEepromBufferBitBang eeprom offset words) d =
      ((0,(List.range words).map fun k => d.chip.word (offset.toNat+k)),d.atRest) := by
  obtain ⟨r,o,hready⟩ := run_readyLoop (m := m) readyAttempts d.taken (taken_ready h) h.received hb
  have hlow : Ready (d.taken.setChip (d.taken.chip.amid 0 r o)) :=
    (taken_ready h).setChip ((taken_ready h).low.amid _ _ _)
  obtain ⟨r',o',hread⟩ := run_bitBangLoop (m := m) offset words 0 0x03#8 [] _ hlow rfl (Or.inl rfl) hsize
  have ha' : eeprom.addressBits = (d.taken.setChip (d.taken.chip.amid 0 r o)).chip.addressBits := ha
  have hrelease : run (nvm m) ixmapReleaseEeprom ((d.taken.setChip (d.taken.chip.amid 0 r o)).setChip
      ((d.taken.setChip (d.taken.chip.amid 0 r o)).chip.amid 0 r' o')) = ((),d.atRest) := run_releaseEeprom h r' o'
  rw [ixmapReadEepromBufferBitBang]
  simp only [run_bind,run_acquireEeprom h hw,ne_eq,not_true_eq_false,if_false,ixmapReadyEeprom,hready,if_true,run_pure,
    ha',hread,hrelease]
  rfl

theorem eerd_done (v : BitVec 32) : (v <<< 16 ||| 0x2#32) &&& 0x2#32 ≠ 0#32 := by
  rw [ne_eq]
  refine (and_twoPow_eq_zero _ (n := 1) (by decide)).not.mpr ?_
  simp

theorem eerd_data (w : BitVec 16) : ((w.setWidth 32 <<< 16 ||| 0x2#32) >>> 16).setWidth 16 = w := by
  apply BitVec.eq_of_getLsbD_eq
  intro i hi
  have hlow : (0x2#32).getLsbD (16+i) = false := by
    have hall : ∀ i < 16, (0x2#32).getLsbD (16+i) = false := by decide
    exact hall i hi
  rw [BitVec.getLsbD_setWidth,BitVec.getLsbD_ushiftRight,BitVec.getLsbD_or,hlow,BitVec.getLsbD_shiftLeft,
    BitVec.getLsbD_setWidth]
  simp only [hi,decide_true,Bool.true_and,Bool.or_false,show 16+i < 32 by omega,show ¬16+i < 16 by omega,decide_false,
    Bool.not_false,Nat.add_sub_cancel_left,show i < 32 by omega]

theorem run_pollDone (n : ℕ) (d : Nvm τ) (hn : d.eerdLeft < n) :
    run (nvm m) (pollDone eerdReg n) d = (0,{ d with eerdLeft := 0 }) := by
  induction n generalizing d with
  | zero => omega
  | succ n ih =>
    rw [pollDone]
    by_cases hleft : d.eerdLeft = 0
    · simp only [run_bind,run_readReg,read_eerd,readEerd,hleft,if_true,ne_eq,eerd_done,not_false_eq_true,run_pure]
      rw [← hleft]
    · have hwait : ¬0#32 &&& 0x2#32 ≠ 0#32 := by decide
      simp only [run_bind,run_readReg,read_eerd,readEerd,hleft,if_false,hwait]
      exact ih { d with eerdLeft := d.eerdLeft-1 } (by simp only; omega)

theorem writeEerd_start (d : Nvm τ) {x : BitVec 32} (hx : x.toNat < 2^14) :
    d.writeEerd (x <<< 2 ||| 0x1#32) = { d with eerdAddr := x.toNat, eerdLeft := d.eerdWait } := by
  have hstart : (x <<< 2 ||| 0x1#32).getLsbD 0 = true := by simp
  have haddr : (x <<< 2 ||| 0x1#32) >>> 2 = x := by
    apply BitVec.eq_of_getLsbD_eq
    intro i hi
    rw [BitVec.getLsbD_ushiftRight,BitVec.getLsbD_or,BitVec.getLsbD_one,BitVec.getLsbD_shiftLeft]
    simp only [show ¬2+i < 2 by omega,show ¬2+i = 0 by omega,decide_false,Bool.not_false,Bool.and_true,Bool.and_false,
      Bool.or_false,Nat.add_sub_cancel_left]
    by_cases h30 : 2+i < 32
    · rw [decide_eq_true h30,Bool.true_and]
    · rw [decide_eq_false h30,Bool.false_and,← BitVec.testBit_toNat]
      exact (Nat.testBit_lt_two_pow (hx.trans_le (Nat.pow_le_pow_right (by decide) (by omega)))).symm
  rw [writeEerd,if_pos hstart,haddr,Nat.mod_eq_of_lt hx]

theorem run_eerdLoop (offset : BitVec 16) (n i : ℕ) (data : List (BitVec 16)) (d : Nvm τ)
    (hw : d.eerdWait < 100000) (hsize : offset.toNat+i+n ≤ 2^14) : ∃ a l,
      run (nvm m) (eerdLoop offset n i data) d =
        ((0,data++(List.range n).map fun k => d.chip.word (offset.toNat+i+k)),{ d with eerdAddr := a, eerdLeft := l }) := by
  induction n generalizing i data d with
  | zero =>
    refine ⟨d.eerdAddr,d.eerdLeft,?_⟩
    rw [eerdLoop,List.range_zero,List.map_nil,List.append_nil]
    rfl
  | succ n ih =>
    obtain ⟨x,hx,hxn⟩ : ∃ x, offset.setWidth 32+BitVec.ofNat 32 i = x ∧ x.toNat = offset.toNat+i := by
      refine ⟨_,rfl,?_⟩
      rw [BitVec.toNat_add,BitVec.toNat_setWidth,BitVec.toNat_ofNat]
      have := offset.isLt
      omega
    have hstart := d.writeEerd_start (x := x) (by omega)
    rw [hxn] at hstart
    have hpoll : run (nvm m) (ixmapPollEerdEewrDone .read) { d with eerdAddr := offset.toNat+i, eerdLeft := d.eerdWait } =
        (0,{ d with eerdAddr := offset.toNat+i, eerdLeft := 0 }) := run_pollDone _ _ hw
    obtain ⟨a,l,hrest⟩ := ih (i+1) (data++[d.chip.word (offset.toNat+i)])
      { d with eerdAddr := offset.toNat+i, eerdLeft := 0 } hw (by omega)
    refine ⟨a,l,?_⟩
    rw [eerdLoop]
    simp only [run_bind,run_writeReg,write_eerd,hx,hstart,hpoll,if_true,run_readReg,read_eerd,readEerd,eerd_data]
    refine hrest.trans ?_
    rw [List.append_assoc,List.range_succ_eq_map,List.map_cons,List.map_map]
    refine Prod.ext (Prod.ext rfl (congrArg (data++·) ?_)) rfl
    refine congrArg₂ List.cons rfl (List.map_congr_left fun k _ => ?_)
    exact congrArg d.chip.word (by simp only [Nat.succ_eq_add_one]; omega)

end Nvm

/-- What the EEPROM is for: words at the offsets below its size. -/
structure WordStore where
  size : ℕ
  word : ℕ → BitVec 16

def WordStore.read (s : WordStore) (offset : ℕ) : ℤ × List (BitVec 16) :=
  if offset < s.size then (0,[s.word offset]) else (errEeprom,[])

/-- The device keeps the words of a store, is idle, answers before the time-outs, and has a size that its
addresses reach. -/
structure Nvm.Stores (d : Nvm τ) (s : WordStore) : Prop extends d.Idle where
  size : s.size = 2^(d.sizeCode.toNat+6)
  word : ∀ n, d.chip.word n = s.word n
  grantWait : d.grantWait < grantAttempts
  busy : d.chip.busy < readyAttempts
  eerdWait : d.eerdWait < 100000
  sizeCode : d.sizeCode.toNat ≤ if d.chip.large then 9 else 2

/-- The driver's parameters of the EEPROM, once they have been read, are the device's. -/
structure EepromInfo.Fits (eeprom : EepromInfo) (d : Nvm τ) : Prop where
  type : eeprom.type = .spi
  wordSize : eeprom.wordSize.toNat = 2^(d.sizeCode.toNat+6)
  addressBits : eeprom.addressBits = d.chip.addressBits

/-- The parameters have not been read yet, or fit. -/
def EepromInfo.Agrees (eeprom : EepromInfo) (d : Nvm τ) : Prop := eeprom.type = .uninitialized ∨ eeprom.Fits d

namespace Nvm

theorem size_field (d : Nvm τ) : ((d.eecValue &&& eecSize) >>> 11).toNat = d.sizeCode.toNat := by
  have h : (d.eecValue &&& eecSize) >>> 11 = d.sizeCode.setWidth 32 := by
    apply BitVec.eq_of_getLsbD_eq
    intro i hi
    have hmask : ∀ i < 32, eecSize.getLsbD (11+i) = decide (i < 4) := by decide
    rw [BitVec.getLsbD_ushiftRight,BitVec.getLsbD_and,hmask i hi,eecValue]
    simp only [BitVec.getLsbD_or,getLsbD_flag,BitVec.getLsbD_shiftLeft,BitVec.getLsbD_setWidth]
    by_cases h4 : i < 4
    · interval_cases i <;> simp
    · rw [BitVec.getLsbD_of_ge _ _ (by omega : 4 ≤ i)]
      simp [h4]
  rw [h,BitVec.toNat_setWidth]
  have := d.sizeCode.isLt
  omega

theorem run_initParams {d : Nvm τ} {s : WordStore} {eeprom : EepromInfo} (h : Stores d s)
    (hi : eeprom.Agrees d) :
    ∃ eeprom' : EepromInfo, run (nvm m) (ixmapInitEepromParams eeprom) d = (eeprom',d) ∧ eeprom'.Fits d := by
  rcases hi with hi | hi
  · obtain ⟨-,-,-,-,-,-,h8,h10⟩ := d.eecValue_bits
    have hpoll : d.pollEec = d := by simp [pollEec,h.req]
    have hpres : d.eecValue &&& eecPres ≠ 0#32 := by
      rw [ne_eq]
      refine (and_twoPow_eq_zero _ (n := 8) (by decide)).not.mpr ?_
      rw [h8]
      exact Bool.noConfusion
    have haddr : d.eecValue &&& eecAddrSize ≠ 0#32 ↔ d.chip.large = true := by
      rw [ne_eq]
      refine (and_twoPow_eq_zero _ (n := 10) (by decide)).not.trans ?_
      rw [h10,Bool.not_eq_false]
    rw [ixmapInitEepromParams,if_pos hi]
    simp only [run_bind,run_readReg,read_eec,hpoll,run_pure,size_field]
    refine ⟨_,rfl,?_,?_,?_⟩
    · simp only [ne_eq,hpres,not_false_eq_true,if_true]
    · simp only [ne_eq,hpres,not_false_eq_true,if_true,BitVec.toNat_setWidth,BitVec.toNat_shiftLeft]
      have hcode : d.sizeCode.toNat+6 ≤ 15 := by
        have := h.sizeCode
        split at this <;> omega
      have hlt : 2^(d.sizeCode.toNat+6) ≤ 2^15 := Nat.pow_le_pow_right (by decide) hcode
      rw [Nat.shiftLeft_eq,BitVec.toNat_ofNat]
      omega
    · simp only [haddr,Chip.addressBits]
  · refine ⟨eeprom,?_,hi⟩
    rw [ixmapInitEepromParams,if_neg (by rw [hi.type]; exact EepromType.noConfusion)]
    rfl

section
variable {d : Nvm τ} {s : WordStore} {eeprom : EepromInfo}

theorem Stores.atRest (h : Stores d s) : Stores d.atRest s :=
  ⟨⟨⟨h.smbi,h.swesmbi⟩,h.free,h.req,h.granted,h.sk,h.di,h.received⟩,h.size,h.word,h.grantWait,Nat.zero_lt_succ _,
    h.eerdWait,h.sizeCode⟩

theorem Stores.eerd (h : Stores d s) (a l : ℕ) : Stores { d with eerdAddr := a, eerdLeft := l } s :=
  ⟨⟨⟨h.smbi,h.swesmbi⟩,h.free,h.req,h.granted,h.sk,h.di,h.received⟩,h.size,h.word,h.grantWait,h.busy,h.eerdWait,
    h.sizeCode⟩

theorem Stores.size_le (h : Stores d s) : s.size ≤ if d.chip.large then 2^15 else 2^8 := by
  have hcode := h.sizeCode
  rw [h.size]
  split_ifs with hl
  · rw [if_pos hl] at hcode
    exact Nat.pow_le_pow_right two_pos (by omega)
  · rw [if_neg hl] at hcode
    exact Nat.pow_le_pow_right two_pos (by omega)

/-- The device is as it was, as far as others can tell. -/
structure Unchanged (d d' : Nvm τ) : Prop where
  inner : d'.inner = d.inner
  swsm : d'.swsm = d.swsm
  gssr : d'.gssr = d.gssr

theorem Unchanged.trans {d d' d'' : Nvm τ} (h : Unchanged d d') (h' : Unchanged d' d'') : Unchanged d d'' :=
  ⟨h'.inner.trans h.inner,h'.swsm.trans h.swsm,h'.gssr.trans h.gssr⟩

theorem run_readEerd (h : Stores d s) (hf : eeprom.Fits d) {offset : BitVec 16} (ho : offset ≤ 0x3fff#16) :
    ∃ d', run (nvm m) (ixmapReadEerd eeprom offset) d = ((s.read offset.toNat,eeprom),d') ∧
      Stores d' s ∧ eeprom.Fits d' ∧ Unchanged d d' := by
  have hsize : eeprom.wordSize ≤ offset ↔ ¬offset.toNat < s.size := by
    rw [BitVec.le_def,hf.wordSize,h.size,not_lt]
  have hinit : run (nvm m) (ixmapInitEepromParams eeprom) d = (eeprom,d) := by
    rw [ixmapInitEepromParams,if_neg (by rw [hf.type]; exact EepromType.noConfusion)]
    rfl
  have hone : ¬1 = 0 := one_ne_zero
  rw [ixmapReadEerd,ixmapReadEerdBuffer]
  by_cases hlt : offset.toNat < s.size
  · have ho' : offset.toNat+0+1 ≤ 2^14 := by
      have : offset.toNat ≤ 0x3fff := ho
      omega
    obtain ⟨a,l,hrun⟩ := run_eerdLoop (m := m) offset 1 0 [] d h.eerdWait ho'
    refine ⟨{ d with eerdAddr := a, eerdLeft := l },?_,h.eerd a l,⟨hf.type,hf.wordSize,hf.addressBits⟩,rfl,rfl,rfl⟩
    simp only [run_bind,hinit,hone,if_false,hsize,hlt,not_true_eq_false,hrun,run_pure]
    simp [WordStore.read,hlt,h.word]
  · refine ⟨d,?_,h,hf,rfl,rfl,rfl⟩
    simp only [run_bind,hinit,hone,if_false,hsize,hlt,not_false_eq_true,if_true,run_pure]
    rw [WordStore.read,if_neg hlt]

theorem run_readBitBang (h : Stores d s) (hi : eeprom.Agrees d) (offset : BitVec 16) :
    ∃ eeprom' d', run (nvm m) (ixmapReadEepromBitBang eeprom offset) d = ((s.read offset.toNat,eeprom'),d') ∧
      Stores d' s ∧ eeprom'.Fits d' ∧ Unchanged d d' := by
  obtain ⟨eeprom',hinit,hf⟩ := run_initParams (m := m) h hi
  have hsize : eeprom'.wordSize ≤ offset ↔ ¬offset.toNat < s.size := by
    rw [BitVec.le_def,hf.wordSize,h.size,not_lt]
  rw [ixmapReadEepromBitBang]
  by_cases hlt : offset.toNat < s.size
  · have hrun := run_readBufferBitBang (m := m) 1 h.toIdle h.grantWait h.busy hf.addressBits
      (hlt.trans_le h.size_le)
    refine ⟨eeprom',d.atRest,?_,h.atRest,⟨hf.type,hf.wordSize,hf.addressBits⟩,rfl,rfl,rfl⟩
    simp only [run_bind,hinit,hsize,hlt,not_true_eq_false,if_false,hrun,run_pure]
    simp [WordStore.read,hlt,h.word]
  · refine ⟨eeprom',d,?_,h,hf,rfl,rfl,rfl⟩
    simp only [run_bind,hinit,hsize,hlt,not_false_eq_true,if_true,run_pure]
    rw [WordStore.read,if_neg hlt]

/-- A read returns the word of the store, through the read engine and over the serial interface, and refuses
the offsets behind the end. -/
theorem run_readEeprom (h : Stores d s) (hi : eeprom.Agrees d) (offset : BitVec 16) :
    ∃ eeprom' d', run (nvm m) (ixmapReadEeprom82599 eeprom offset) d = ((s.read offset.toNat,eeprom'),d') ∧
      Stores d' s ∧ eeprom'.Fits d' ∧ Unchanged d d' := by
  rw [ixmapReadEeprom82599]
  split_ifs with hpath
  · have hf : eeprom.Fits d := by
      rcases hi with hi | hi
      · rw [hi] at hpath
        exact EepromType.noConfusion hpath.1
      · exact hi
    obtain ⟨d',hrun⟩ := run_readEerd (m := m) h hf hpath.2
    exact ⟨eeprom,d',hrun⟩
  · exact run_readBitBang h hi offset

end

/-- 64 words in a small chip that answers at once, as a reset leaves the device. -/
def ofWords (words : ℕ → BitVec 16) (t : τ) : Nvm τ where
  inner := t
  status := 0#32
  swsm := 0#32
  gssr := 0#32
  chip := { bytes := fun i => if i%2 = 0 then (words (i/2)).setWidth 8 else (words (i/2) >>> 8).setWidth 8
            large := false, busy := 0, sk := false, cs := true, di := false, out := false, received := [] }
  sizeCode := 0#4
  req := false
  granted := false
  grantWait := 0
  grantLeft := 0
  eerdAddr := 0
  eerdWait := 0
  eerdLeft := 0

theorem word_of_halves (w : BitVec 16) : (w >>> 8).setWidth 8 ++ w.setWidth 8 = w := by
  apply BitVec.eq_of_getLsbD_eq
  intro i hi
  rw [BitVec.getLsbD_append]
  by_cases h8 : i < 8
  · simp [h8]
  · have hi' : i-8 < 8 := by omega
    have hback : 8+(i-8) = i := by omega
    simp [h8,hi',hback]

theorem stores_ofWords (words : ℕ → BitVec 16) (t : τ) : (ofWords words t).Stores ⟨64,words⟩ := by
  have hfree : 0#32 &&& busyMask gssrEepSm = 0#32 := by decide
  refine ⟨⟨⟨BitVec.getLsbD_zero,BitVec.getLsbD_zero⟩,hfree,rfl,rfl,rfl,rfl,rfl⟩,rfl,fun n => ?_,Nat.zero_lt_succ _,Nat.zero_lt_succ _,
    Nat.zero_lt_succ _,Nat.zero_le _⟩
  have hodd : (2*n+1)%2 = 1 ∧ (2*n+1)/2 = n ∧ 2*n/2 = n := by omega
  simp only [Chip.word,ofWords,hodd,Nat.mul_mod_right,one_ne_zero,if_false,if_true]
  exact word_of_halves (words n)

end Nvm

end

end Hw
end Ixmap
