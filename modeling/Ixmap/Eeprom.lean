import Ixmap.SwfwSync

/-! The EEPROM accesses of `kmod/ixmap_eeprom.c`: words are read through the EERD register, or bit by bit over
the pins of the serial EEPROM in the EEC register. -/
namespace Ixmap
namespace Hw
open RegProgram

inductive EepromType where
  | uninitialized
  | spi
  | flash
  | none
deriving DecidableEq, Repr

structure EepromInfo where
  type : EepromType
  semaphoreDelay : ℕ
  wordSize : BitVec 16
  addressBits : ℕ
  wordPageSize : ℕ
deriving DecidableEq, Repr

def eerdReg : Reg := .bar 0x10014
def eewrReg : Reg := .bar 0x10018

def eecSk : BitVec 32 := 0x1#32
def eecCs : BitVec 32 := 0x2#32
def eecDi : BitVec 32 := 0x4#32
def eecDo : BitVec 32 := 0x8#32
def eecReq : BitVec 32 := 0x40#32
def eecGnt : BitVec 32 := 0x80#32
def eecPres : BitVec 32 := 0x100#32
def eecAddrSize : BitVec 32 := 0x400#32
def eecSize : BitVec 32 := 0x7800#32

def errInvalidArgument : ℤ := -32

/-- The size is given in powers of two, from 64 words on; 16 bits of it are stored. -/
def ixmapInitEepromParams (eeprom : EepromInfo) : RegProg EepromInfo :=
  if eeprom.type = .uninitialized then do
    let eec ← readReg eecReg
    let eepromSize := (eec &&& eecSize) >>> 11
    pure { type := if eec &&& eecPres ≠ 0#32 then .spi else .none
           semaphoreDelay := 10
           wordSize := if eec &&& eecPres ≠ 0#32 then (1#32 <<< (eepromSize.toNat+6)).setWidth 16 else eeprom.wordSize
           addressBits := if eec &&& eecAddrSize ≠ 0#32 then 16 else 8
           wordPageSize := 0 }
  else pure eeprom

inductive NvmPoll where
  | read
  | write
deriving DecidableEq, Repr

def pollDone (r : Reg) : ℕ → RegProg ℤ
  | 0 => pure errEeprom
  | left+1 => do
    let reg ← readReg r
    if reg &&& 0x2#32 ≠ 0#32 then pure 0 else pollDone r left

def ixmapPollEerdEewrDone (eeReg : NvmPoll) : RegProg ℤ :=
  pollDone (if eeReg = .read then eerdReg else eewrReg) 100000

/-- The loop of `ixmap_read_eerd_buffer`; the words read so far are kept when a read fails. -/
def eerdLoop (offset : BitVec 16) : ℕ → ℕ → List (BitVec 16) → RegProg (ℤ × List (BitVec 16))
  | 0, _, data => pure (0,data)
  | left+1, i, data => do
    writeReg eerdReg ((offset.setWidth 32+BitVec.ofNat 32 i) <<< 2 ||| 0x1#32)
    let status ← ixmapPollEerdEewrDone .read
    if status = 0 then
      let eerd ← readReg eerdReg
      eerdLoop offset left (i+1) (data++[(eerd >>> 16).setWidth 16])
    else pure (status,data)

def ixmapReadEerdBuffer (eeprom : EepromInfo) (offset : BitVec 16) (words : ℕ) :
    RegProg ((ℤ × List (BitVec 16)) × EepromInfo) := do
  let eeprom ← ixmapInitEepromParams eeprom
  if words = 0 then pure ((errInvalidArgument,[]),eeprom)
  else if eeprom.wordSize ≤ offset then pure ((errEeprom,[]),eeprom)
  else
    let r ← eerdLoop offset words 0 []
    pure (r,eeprom)

def ixmapReadEerd (eeprom : EepromInfo) (offset : BitVec 16) :
    RegProg ((ℤ × List (BitVec 16)) × EepromInfo) := ixmapReadEerdBuffer eeprom offset 1

def ixmapRaiseEepromClk (eec : BitVec 32) : RegProg (BitVec 32) := do
  writeReg eecReg (eec ||| eecSk)
  writeFlush
  pure (eec ||| eecSk)

def ixmapLowerEepromClk (eec : BitVec 32) : RegProg (BitVec 32) := do
  writeReg eecReg (eec &&& ~~~eecSk)
  writeFlush
  pure (eec &&& ~~~eecSk)

def shiftOutLoop (data : BitVec 16) : ℕ → BitVec 32 → BitVec 32 → RegProg (BitVec 32)
  | 0, eec, _ => pure eec
  | left+1, eec, mask => do
    let eec := if data.setWidth 32 &&& mask ≠ 0#32 then eec ||| eecDi else eec &&& ~~~eecDi
    writeReg eecReg eec
    writeFlush
    let eec ← ixmapRaiseEepromClk eec
    let eec ← ixmapLowerEepromClk eec
    shiftOutLoop data left eec (mask >>> 1)

/-- The most significant of the `count` bits goes first. -/
def ixmapShiftOutEepromBits (data : BitVec 16) (count : ℕ) : RegProg Unit := do
  let eec ← readReg eecReg
  let eec ← shiftOutLoop data count eec (0x1#32 <<< (count-1))
  writeReg eecReg (eec &&& ~~~eecDi)
  writeFlush

def shiftInLoop : ℕ → BitVec 32 → BitVec 16 → RegProg (BitVec 16)
  | 0, _, data => pure data
  | left+1, eec, data => do
    let data := data <<< 1
    let _ ← ixmapRaiseEepromClk eec
    let eec ← readReg eecReg
    let eec := eec &&& ~~~eecDi
    let data := if eec &&& eecDo ≠ 0#32 then data ||| 1#16 else data
    let eec ← ixmapLowerEepromClk eec
    shiftInLoop left eec data

def ixmapShiftInEepromBits (count : ℕ) : RegProg (BitVec 16) := do
  let eec ← readReg eecReg
  shiftInLoop count (eec &&& ~~~(eecDo ||| eecDi)) 0#16

def ixmapStandbyEeprom : RegProg Unit := do
  let eec ← readReg eecReg
  writeReg eecReg (eec ||| eecCs)
  writeFlush
  writeReg eecReg ((eec ||| eecCs) &&& ~~~eecCs)
  writeFlush

def pollGrant : ℕ → BitVec 32 → RegProg (BitVec 32)
  | 0, eec => pure eec
  | left+1, _ => do
    let eec ← readReg eecReg
    if eec &&& eecGnt ≠ 0#32 then pure eec else pollGrant left eec

def grantAttempts : ℕ := 1000

def ixmapAcquireEeprom : RegProg ℤ := do
  let status ← ixmapAcquireSwfwSync gssrEepSm
  if status ≠ 0 then pure errSwfwSync
  else
    let eec ← readReg eecReg
    writeReg eecReg (eec ||| eecReq)
    let eec ← pollGrant grantAttempts (eec ||| eecReq)
    if eec &&& eecGnt = 0#32 then
      writeReg eecReg (eec &&& ~~~eecReq)
      ixmapReleaseSwfwSync gssrEepSm
      pure errEeprom
    else
      writeReg eecReg (eec &&& ~~~(eecCs ||| eecSk))
      writeFlush
      pure 0

/-- The status register is read until its bit 0 is clear; the counter goes up to
`IXGBE_EEPROM_MAX_RETRY_SPI` in steps of 5. -/
def readyLoop : ℕ → RegProg Bool
  | 0 => pure false
  | left+1 => do
    ixmapShiftOutEepromBits 0x05#16 8
    let stat ← ixmapShiftInEepromBits 8
    if stat.setWidth 8 &&& 0x01#8 = 0#8 then pure true
    else
      ixmapStandbyEeprom
      readyLoop left

def readyAttempts : ℕ := 1000

def ixmapReadyEeprom : RegProg ℤ := do
  let ready ← readyLoop readyAttempts
  pure (if ready then 0 else errEeprom)

def ixmapReleaseEeprom : RegProg Unit := do
  let eec ← readReg eecReg
  let eec := (eec ||| eecCs) &&& ~~~eecSk
  writeReg eecReg eec
  writeFlush
  writeReg eecReg (eec &&& ~~~eecReq)
  ixmapReleaseSwfwSync gssrEepSm

/-- Small EEPROMs take the ninth bit of the byte address in the opcode; once set it stays. -/
def readOpcode (addressBits : ℕ) (offset : BitVec 16) (i : ℕ) (opcode : BitVec 8) : BitVec 8 :=
  if addressBits = 8 ∧ 128 ≤ offset.toNat+i then opcode ||| 0x08#8 else opcode

def bitBangLoop (addressBits : ℕ) (offset : BitVec 16) :
    ℕ → ℕ → BitVec 8 → List (BitVec 16) → RegProg (List (BitVec 16))
  | 0, _, _, data => pure data
  | left+1, i, opcode, data => do
    ixmapStandbyEeprom
    let opcode := readOpcode addressBits offset i opcode
    ixmapShiftOutEepromBits (opcode.setWidth 16) 8
    ixmapShiftOutEepromBits (BitVec.ofNat 16 ((offset.toNat+i)*2)) addressBits
    let wordIn ← ixmapShiftInEepromBits 16
    bitBangLoop addressBits offset left (i+1) opcode (data++[wordIn >>> 8 ||| wordIn <<< 8])

def ixmapReadEepromBufferBitBang (eeprom : EepromInfo) (offset : BitVec 16) (words : ℕ) :
    RegProg (ℤ × List (BitVec 16)) := do
  let status ← ixmapAcquireEeprom
  if status ≠ 0 then pure (status,[])
  else
    let ready ← ixmapReadyEeprom
    if ready ≠ 0 then
      ixmapReleaseEeprom
      pure (errEeprom,[])
    else
      let data ← bitBangLoop eeprom.addressBits offset words 0 0x03#8 []
      ixmapReleaseEeprom
      pure (0,data)

def ixmapReadEepromBitBang (eeprom : EepromInfo) (offset : BitVec 16) :
    RegProg ((ℤ × List (BitVec 16)) × EepromInfo) := do
  let eeprom ← ixmapInitEepromParams eeprom
  if eeprom.wordSize ≤ offset then pure ((errEeprom,[]),eeprom)
  else
    let r ← ixmapReadEepromBufferBitBang eeprom offset 1
    pure (r,eeprom)

/-- EERD has 14 bits for the address, and is used once the EEPROM is known to be there. -/
def ixmapReadEeprom82599 (eeprom : EepromInfo) (offset : BitVec 16) :
    RegProg ((ℤ × List (BitVec 16)) × EepromInfo) :=
  if eeprom.type = .spi ∧ offset ≤ 0x3fff#16 then ixmapReadEerd eeprom offset
  else ixmapReadEepromBitBang eeprom offset

section
variable {g : Own}

theorem eep_swBits : bitsOf gssrEepSm ⊆ swBits := by
  intro n hn
  have hall : ∀ k < 16, gssrEepSm.getLsbD k = true → k < 5 ∨ k = 10 := by decide
  exact hall n (BitVec.lt_of_getLsbD hn) hn

theorem keeps_readEec : Keeps (readReg eecReg) g := keeps_readReg (by decide) (by decide)

theorem keeps_writeEec (h : 0 ∈ g.claimed) (v : BitVec 32) : Keeps (writeReg eecReg v) g := by
  apply keeps_writeReg (by decide) (by decide)
  intro n hn
  obtain rfl : 0 = n := Option.some_inj.mp hn
  exact h

theorem keeps_initParams (eeprom : EepromInfo) : Keeps (ixmapInitEepromParams eeprom) g :=
  Keeps.ite (keeps_readEec.bind fun _ => keeps_pure _) (keeps_pure _)

theorem keeps_pollDone {r : Reg} (hs : r ≠ swsmReg) (hg : r ≠ gssrReg) (n : ℕ) : Keeps (pollDone r n) g := by
  induction n with
  | zero => exact keeps_pure _
  | succ n ih => exact (keeps_readReg hs hg).bind fun _ => Keeps.ite (keeps_pure _) ih

theorem keeps_eerdLoop (offset : BitVec 16) (n i : ℕ) (data : List (BitVec 16)) :
    Keeps (eerdLoop offset n i data) g := by
  induction n generalizing i data with
  | zero => exact keeps_pure _
  | succ n ih =>
    refine (keeps_writeReg (by decide) (by decide) (fun n hn => ?_)).bind fun _ => ?_
    · exact absurd hn (by simp [guardOf,eerdReg])
    refine (keeps_pollDone (by decide) (by decide) _).bind fun _ => Keeps.ite ?_ (keeps_pure _)
    exact (keeps_readReg (by decide) (by decide)).bind fun _ => ih _ _

theorem keeps_readEerd (eeprom : EepromInfo) (offset : BitVec 16) : Keeps (ixmapReadEerd eeprom offset) g := by
  refine (keeps_initParams eeprom).bind fun eeprom => ?_
  refine Keeps.ite (keeps_pure _) (Keeps.ite (keeps_pure _) ?_)
  exact (keeps_eerdLoop _ _ _ _).bind fun _ => keeps_pure _

theorem keeps_raiseClk (h : 0 ∈ g.claimed) (eec : BitVec 32) : Keeps (ixmapRaiseEepromClk eec) g :=
  (keeps_writeEec h _).bind fun _ => keeps_writeFlush.bind fun _ => keeps_pure _

theorem keeps_lowerClk (h : 0 ∈ g.claimed) (eec : BitVec 32) : Keeps (ixmapLowerEepromClk eec) g :=
  (keeps_writeEec h _).bind fun _ => keeps_writeFlush.bind fun _ => keeps_pure _

theorem keeps_shiftOutLoop (h : 0 ∈ g.claimed) (data : BitVec 16) (n : ℕ) (eec mask : BitVec 32) :
    Keeps (shiftOutLoop data n eec mask) g := by
  induction n generalizing eec mask with
  | zero => exact keeps_pure _
  | succ n ih =>
    refine (keeps_writeEec h _).bind fun _ => keeps_writeFlush.bind fun _ => ?_
    exact (keeps_raiseClk h _).bind fun _ => (keeps_lowerClk h _).bind fun _ => ih _ _

theorem keeps_shiftOut (h : 0 ∈ g.claimed) (data : BitVec 16) (count : ℕ) :
    Keeps (ixmapShiftOutEepromBits data count) g :=
  keeps_readEec.bind fun _ => (keeps_shiftOutLoop h _ _ _ _).bind fun _ =>
    (keeps_writeEec h _).bind fun _ => keeps_writeFlush

theorem keeps_shiftInLoop (h : 0 ∈ g.claimed) (n : ℕ) (eec : BitVec 32) (data : BitVec 16) :
    Keeps (shiftInLoop n eec data) g := by
  induction n generalizing eec data with
  | zero => exact keeps_pure _
  | succ n ih =>
    refine (keeps_raiseClk h _).bind fun _ => keeps_readEec.bind fun _ => ?_
    exact (keeps_lowerClk h _).bind fun _ => ih _ _

theorem keeps_shiftIn (h : 0 ∈ g.claimed) (count : ℕ) : Keeps (ixmapShiftInEepromBits count) g :=
  keeps_readEec.bind fun _ => keeps_shiftInLoop h _ _ _

theorem keeps_standby (h : 0 ∈ g.claimed) : Keeps ixmapStandbyEeprom g :=
  keeps_readEec.bind fun _ => (keeps_writeEec h _).bind fun _ => keeps_writeFlush.bind fun _ =>
    (keeps_writeEec h _).bind fun _ => keeps_writeFlush

theorem keeps_readyLoop (h : 0 ∈ g.claimed) (n : ℕ) : Keeps (readyLoop n) g := by
  induction n with
  | zero => exact keeps_pure _
  | succ n ih =>
    refine (keeps_shiftOut h _ _).bind fun _ => (keeps_shiftIn h _).bind fun _ => ?_
    exact Keeps.ite (keeps_pure _) ((keeps_standby h).bind fun _ => ih)

theorem keeps_bitBangLoop (h : 0 ∈ g.claimed) (addressBits : ℕ) (offset : BitVec 16) (n i : ℕ)
    (opcode : BitVec 8) (data : List (BitVec 16)) :
    Keeps (bitBangLoop addressBits offset n i opcode data) g := by
  induction n generalizing i opcode data with
  | zero => exact keeps_pure _
  | succ n ih =>
    refine (keeps_standby h).bind fun _ => (keeps_shiftOut h _ _).bind fun _ => ?_
    exact (keeps_shiftOut h _ _).bind fun _ => (keeps_shiftIn h _).bind fun _ => ih _ _ _

theorem keeps_pollGrant (n : ℕ) (eec : BitVec 32) : Keeps (pollGrant n eec) g := by
  induction n generalizing eec with
  | zero => exact keeps_pure _
  | succ n ih => exact keeps_readEec.bind fun _ => Keeps.ite (keeps_pure _) (ih _)

theorem eep_claimed : 0 ∈ (g.taken gssrEepSm).claimed := Or.inr (by decide : gssrEepSm.getLsbD 0 = true)

theorem follows_acquireEeprom (hg : Settled g) :
    Follows syncProtocol ixmapAcquireEeprom g (g.Acquires gssrEepSm) := by
  refine hg.acquire eep_swBits ?_ ?_
  · intro status hst
    rw [if_pos hst]
    exact Or.inr ⟨by decide,rfl⟩
  intro hd
  rw [if_neg (not_not.mpr rfl)]
  refine keeps_readEec.then fun _ => (keeps_writeEec eep_claimed _).then fun _ => ?_
  refine (keeps_pollGrant _ _).then fun eec => ?_
  split_ifs
  · refine (keeps_writeEec eep_claimed _).then fun _ => hg.release hd ?_
    exact Or.inr ⟨by decide,rfl⟩
  · refine (keeps_writeEec eep_claimed _).then fun _ => keeps_writeFlush.then fun _ => ?_
    exact Or.inl ⟨rfl,rfl,hd⟩

theorem follows_releaseEeprom (hg : Settled g) (hd : Disjoint (bitsOf gssrEepSm) g.held) {β : Type}
    {f : Unit → RegProg β} {Q : β → Own → Prop} (hf : Follows syncProtocol (f ()) g Q) :
    Follows syncProtocol (ixmapReleaseEeprom >>= f) (g.taken gssrEepSm) Q := by
  have hrelease : Follows syncProtocol ixmapReleaseEeprom (g.taken gssrEepSm) fun _ g' => g' = g := by
    refine keeps_readEec.then fun _ => (keeps_writeEec eep_claimed _).then fun _ => ?_
    exact keeps_writeFlush.then fun _ => (keeps_writeEec eep_claimed _).then fun _ => hg.follows_release hd
  refine hrelease.bind ?_
  rintro _ g' rfl
  exact hf

theorem keeps_readBufferBitBang (hg : Settled g) (eeprom : EepromInfo) (offset : BitVec 16) (words : ℕ) :
    Keeps (ixmapReadEepromBufferBitBang eeprom offset words) g := by
  refine Follows.bind (follows_acquireEeprom hg) ?_
  rintro status g' (⟨rfl,rfl,hd⟩ | ⟨hst,rfl⟩)
  case inr => exact (if_pos hst).symm ▸ keeps_pure _
  rw [if_neg (not_not.mpr rfl)]
  have hready : Keeps ixmapReadyEeprom (g.taken gssrEepSm) :=
    (keeps_readyLoop eep_claimed _).bind fun _ => keeps_pure _
  refine hready.then fun _ => ?_
  split_ifs
  · exact follows_releaseEeprom hg hd rfl
  · exact (keeps_bitBangLoop eep_claimed _ _ _ _ _ _).then fun _ => follows_releaseEeprom hg hd rfl

/-- Whatever the registers answer, a read of the EEPROM gives back what it has taken. -/
theorem keeps_readEeprom (hg : Settled g) (eeprom : EepromInfo) (offset : BitVec 16) :
    Keeps (ixmapReadEeprom82599 eeprom offset) g := by
  refine Keeps.ite (keeps_readEerd _ _) ?_
  refine (keeps_initParams eeprom).bind fun eeprom => Keeps.ite (keeps_pure _) ?_
  exact (keeps_readBufferBitBang hg _ _ _).bind fun _ => keeps_pure _

end

end Hw
end Ixmap
