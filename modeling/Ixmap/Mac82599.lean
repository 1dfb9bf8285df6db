import Ixmap.MacCommon
import Ixmap.HostInterface
import Ixmap.EepromImage

/-! The functions of `kmod/ixmap_82599.c` and `kmod/ixmap_phy.c`: resetting and starting the MAC, the SFP+
module, and the link. -/
namespace Ixmap
namespace Hw
open RegProgram

def esdpReg : Reg := .bar 0x00020
def autocReg : Reg := .bar 0x042a0
def autoc2Reg : Reg := .bar 0x042a8
def anlp1Reg : Reg := .bar 0x042b0

def autocKx4Supp : BitVec 32 := 0x80000000#32
def autocKxSupp : BitVec 32 := 0x40000000#32
def autocKrSupp : BitVec 32 := 0x00010000#32
def autocAnRestart : BitVec 32 := 0x00001000#32
def autocLmsMask : BitVec 32 := 0x7#32 <<< 13
def autoc1GPmaPmdMask : BitVec 32 := 0x00000200#32
def autoc2UpperMask : BitVec 32 := 0xffff0000#32
def autoc2SerialMask : BitVec 32 := 0x00030000#32
def autoc2Sfi : BitVec 32 := 0x2#32 <<< 16
def autoc2LinkDisableMask : BitVec 32 := 0x70000000#32

/-- `IXGBE_AUTOC_LMS_*`, the link modes. -/
def lms1GLinkNoAn : BitVec 32 := 0x0#32 <<< 13
def lms10GLinkNoAn : BitVec 32 := 0x1#32 <<< 13
def lms1GAn : BitVec 32 := 0x2#32 <<< 13
def lms10GSerial : BitVec 32 := 0x3#32 <<< 13
def lmsKx4KxKr : BitVec 32 := 0x4#32 <<< 13
def lmsSgmii1G100M : BitVec 32 := 0x5#32 <<< 13
def lmsKx4KxKr1GAn : BitVec 32 := 0x6#32 <<< 13
def lmsKx4KxKrSgmii : BitVec 32 := 0x7#32 <<< 13

def errPhy : ℤ := -3
def errLinkSetup : ℤ := -8
def errAutonegNotComplete : ℤ := -14
def errResetFailed : ℤ := -15
def errSfpNotSupported : ℤ := -19
def errSfpNotPresent : ℤ := -20
def errSfpNoInitSeqPresent : ℤ := -21
def errEepromVersion : ℤ := -24
def errSfpSetupNotComplete : ℤ := -30

def ixmapInitMacLinkOps82599 : HwM Unit :=
  modify fun hw => { hw with mac := { hw.mac with laserOps := ixmapGetMediaType82599 hw = .fiber } }

def fiberModule (stored : SfpType) (hw : IxmapHw) : IxmapHw :=
  let sfpType := if hw.bus.lanId = 0#16 then SfpType.srlrCore0 else SfpType.srlrCore1
  { hw with phy := { hw.phy with sfpType := sfpType, type := .generic,
                                 sfpSetupNeeded := sfpType ≠ stored || hw.phy.sfpSetupNeeded } }

def ixmapIdentifyModule : HwM ℤ := do
  let hw ← get
  if ixmapGetMediaType82599 hw = .fiber then
    ixmapSetLanIdMultiPortPcie
    modify (fiberModule hw.phy.sfpType)
    pure 0
  else
    modify fun hw => { hw with phy := { hw.phy with sfpType := .notPresent } }
    pure errSfpNotPresent

def ixmapIdentifyPhy82599 : HwM ℤ := ixmapIdentifyModule

def ixmapInitPhyOps82599 : HwM ℤ := do
  let retVal ← ixmapIdentifyPhy82599
  ixmapInitMacLinkOps82599
  pure retVal

/-- The list of the modules, an identifier and the offset of its sequence at a time. The list ends before
the offsets do: a read behind the image fails. -/
def findSfp (sfpType : BitVec 16) : ℕ → BitVec 16 → HwM (ℤ × BitVec 16)
  | 0, _ => pure (errPhy,0#16)
  | left+1, listOffset => do
    let sfpId ← readEepromInto listOffset 0#16
    if sfpId.1 ≠ 0 then pure (errPhy,0#16)
    else if sfpId.2 = 0xffff#16 then pure (errSfpNotSupported,0#16)
    else if sfpId.2 = sfpType then
      let data ← readEepromInto (listOffset+1#16) 0#16
      if data.1 ≠ 0 then pure (errPhy,0#16)
      else if data.2 = 0#16 ∨ data.2 = 0xffff#16 then pure (errSfpNotSupported,data.2)
      else pure (0,data.2)
    else findSfp sfpType left (listOffset+2#16)

def lookupSfp (sfpType : BitVec 16) : HwM (ℤ × BitVec 16) := do
  let list ← readEepromInto 0x002b#16 0#16
  if list.1 ≠ 0 then pure (errSfpNoInitSeqPresent,0#16)
  else if list.2 = 0#16 ∨ list.2 = 0xffff#16 then pure (errSfpNoInitSeqPresent,0#16)
  else findSfp sfpType (2^16) (list.2+1#16)

def ixmapGetSfpInitSequenceOffsets : HwM (ℤ × BitVec 16) := do
  let hw ← get
  if hw.phy.sfpType = .notPresent then pure (errSfpNotPresent,0#16) else lookupSfp hw.phy.sfpType.code

/-- The words of a sequence go to CORECTL until the word `0xffff`; `false` when one cannot be read. -/
def writeSequence : ℕ → BitVec 16 → HwM Bool
  | 0, _ => pure false
  | left+1, dataOffset => do
    let value ← readEepromInto (dataOffset+1#16) 0#16
    if value.1 ≠ 0 then pure false
    else if value.2 = 0xffff#16 then pure true
    else
      writeHw corectlReg (value.2.setWidth 32)
      flushHw
      writeSequence left (dataOffset+1#16)

def pointsTo (r : ℤ × BitVec 16) : Bool := r.1 = 0 && r.2 ≠ 0#16 && r.2 ≠ 0xffff#16

def ixmapVerifyLesmFwEnabled82599 : HwM Bool := do
  let fwOffset ← readEepromInto 0x0f#16 0#16
  if pointsTo fwOffset then
    let paramOffset ← readEepromInto (fwOffset.2+0x2#16) 0#16
    if pointsTo paramOffset then
      let state ← readEepromInto (paramOffset.2+0x1#16) 0#16
      pure (state.1 = 0 && state.2 &&& 0x8000#16 ≠ 0#16)
    else pure false
  else pure false

def pollAnState : ℕ → HwM Bool
  | 0 => pure false
  | left+1 => do
    let anlp1 ← readHw anlp1Reg
    if anlp1 &&& 0x000f0000#32 ≠ 0#32 then pure true else pollAnState left

/-- Enable the link when the image has it disabled; what AUTOC2 holds then. -/
def enableLink : HwM (BitVec 32) := do
  let autoc2 ← readHw autoc2Reg
  if autoc2 &&& autoc2LinkDisableMask ≠ 0#32 then
    writeHw autoc2Reg (autoc2 &&& ~~~autoc2LinkDisableMask)
    flushHw
    pure (autoc2 &&& ~~~autoc2LinkDisableMask)
  else pure autoc2

def ixmapResetPipeline82599 : HwM ℤ := do
  let _ ← enableLink
  let autoc ← readHw autocReg
  writeHw autocReg ((autoc ||| autocAnRestart) ^^^ (0x4#32 <<< 13))
  let left ← pollAnState 10
  writeHw autocReg (autoc ||| autocAnRestart)
  flushHw
  pure (if left then 0 else errResetFailed)

/-- With the lock on success when the firmware manages the link. -/
def protAutocRead82599 : HwM (ℤ × Bool × BitVec 32) := do
  let lesm ← ixmapVerifyLesmFwEnabled82599
  if lesm then
    let status ← acquireSwfwSync gssrMacCsrSm
    if status ≠ 0 then pure (errSwfwSync,false,0#32)
    else
      let autoc ← readHw autocReg
      pure (0,true,autoc)
  else
    let autoc ← readHw autocReg
    pure (0,false,autoc)

/-- The write under the lock, which is given back in any case. -/
def writeAutocLocked (autoc : BitVec 32) : HwM ℤ := do
  writeHw autocReg autoc
  let retVal ← ixmapResetPipeline82599
  releaseSwfwSync gssrMacCsrSm
  pure retVal

def protAutocWrite82599 (autoc : BitVec 32) (locked : Bool) : HwM ℤ :=
  if locked then writeAutocLocked autoc
  else do
    let lesm ← ixmapVerifyLesmFwEnabled82599
    if lesm then
      let status ← acquireSwfwSync gssrMacCsrSm
      if status ≠ 0 then pure errSwfwSync else writeAutocLocked autoc
    else
      writeHw autocReg autoc
      ixmapResetPipeline82599

/-- The initialisation sequence, under the lock of the MAC's registers. -/
def writeSfp (dataOffset : BitVec 16) : HwM ℤ := do
  let status ← acquireSwfwSync gssrMacCsrSm
  if status ≠ 0 then pure errSwfwSync
  else
    let done ← writeSequence (2^16) dataOffset
    releaseSwfwSync gssrMacCsrSm
    pure (if done then 0 else errPhy)

def programSfp : HwM ℤ := do
  let r ← ixmapGetSfpInitSequenceOffsets
  if r.1 ≠ 0 then pure r.1 else writeSfp r.2

/-- Behind the sequence, the DSP is restarted in SFI mode. -/
def ixmapSetupSfpModules82599 : HwM ℤ := do
  ixmapInitMacLinkOps82599
  let status ← programSfp
  if status ≠ 0 then pure status
  else
    let hw ← get
    let status ← protAutocWrite82599 (hw.mac.origAutoc ||| lms10GSerial) false
    pure (if status ≠ 0 then errSfpSetupNotComplete else 0)

def pollReset : ℕ → BitVec 32 → HwM (BitVec 32)
  | 0, ctrl => pure ctrl
  | left+1, _ => do
    let ctrl ← readHw ctrlReg
    if ctrl &&& 0x04000008#32 = 0#32 then pure ctrl else pollReset left ctrl

/-- A link reset, or one by software when the link is up. -/
def resetBit : HwM (BitVec 32) := do
  let hw ← get
  if hw.forceFullReset then pure 0x00000008#32
  else
    let link ← ixmapCheckMacLink false
    pure (if link.2 then 0x04000000#32 else 0x00000008#32)

def resetMac : HwM Bool := do
  let bit ← resetBit
  let ctrl ← readHw ctrlReg
  writeHw ctrlReg (bit ||| ctrl)
  flushHw
  let ctrl ← pollReset 10 (bit ||| ctrl)
  pure (ctrl &&& 0x04000008#32 = 0#32)

/-- From `mac_reset_top` on. The flag for a second reset is cleared before it, so two rounds are enough. -/
def macResetTop : ℕ → ℤ → HwM ℤ
  | 0, status => pure status
  | left+1, status => do
    let done ← resetMac
    let status := if done then status else errResetFailed
    let hw ← get
    if hw.mac.doubleResetRequired then
      modify fun hw => { hw with mac := { hw.mac with doubleResetRequired := false } }
      macResetTop left status
    else pure status

/-- The upper half of AUTOC2 as it was stored. -/
def restoreAutoc2 (orig autoc2 : BitVec 32) : HwM Unit :=
  if autoc2 &&& autoc2UpperMask ≠ orig &&& autoc2UpperMask then
    writeHw autoc2Reg (autoc2 &&& ~~~autoc2UpperMask ||| orig &&& autoc2UpperMask)
  else pure ()

/-- Store the link settings at the first reset and restore them at the others; the status, and whether the
reset goes on. A restored AUTOC overwrites the status of the reset. -/
def linkSettings (status : ℤ) : HwM (ℤ × Bool) := do
  let autoc ← readHw autocReg
  let autoc2 ← enableLink
  let hw ← get
  if hw.mac.origLinkSettingsStored then
    if autoc ≠ hw.mac.origAutoc then
      let status ← protAutocWrite82599 hw.mac.origAutoc false
      if status ≠ 0 then pure (status,false)
      else
        restoreAutoc2 hw.mac.origAutoc2 autoc2
        pure (status,true)
    else
      restoreAutoc2 hw.mac.origAutoc2 autoc2
      pure (status,true)
  else
    modify fun hw => { hw with
      mac := { hw.mac with origAutoc := autoc, origAutoc2 := autoc2, origLinkSettingsStored := true } }
    pure (status,true)

/-- The permanent address, and all 128 receive addresses. -/
def storeAddresses : HwM Unit := do
  let addr ← ixmapGetMacAddr
  modify fun hw => { hw with mac := { hw.mac with
    permAddr := addr
    numRarEntries := 128
    tables := ⟨hw.mac.tables.1,hw.mac.tables.2.1,le_rfl,hw.mac.tables.2.2.2⟩ } }
  ixmapInitRxAddrs

/-- The module is set up once, whether that succeeds or not. -/
def setupSfp : HwM ℤ := do
  let hw ← get
  if hw.phy.sfpSetupNeeded then
    let status ← ixmapSetupSfpModules82599
    modify fun hw => { hw with phy := { hw.phy with sfpSetupNeeded := false } }
    pure status
  else pure 0

def ixmapResetHw82599 : HwM ℤ := do
  let status ← ixmapStopAdapter
  if status ≠ 0 then pure status
  else
    ixmapClearTxPending
    let status ← ixmapInitPhyOps82599
    if status ≠ 0 then pure status
    else
      let status ← setupSfp
      if status ≠ 0 then pure status
      else
        let status ← macResetTop 2 0
        let r ← linkSettings status
        if r.2 then
          storeAddresses
          pure r.1
        else pure r.1

def ixmapVerifyFwVersion82599 : HwM ℤ := do
  let hw ← get
  if hw.phy.mediaType ≠ .fiber then pure 0
  else
    let fwOffset ← readEepromInto 0x0f#16 0#16
    if pointsTo fwOffset then
      let ptpOffset ← readEepromInto (fwOffset.2+0x4#16) 0#16
      if pointsTo ptpOffset then
        let version ← readEepromInto (ptpOffset.2+0x7#16) 0#16
        pure (if version.1 = 0 ∧ 0x5#16 < version.2 then 0 else errEepromVersion)
      else pure errEepromVersion
    else pure errEepromVersion

def ixmapStartHw82599 : HwM ℤ := do
  ixmapStartHw
  ixmapStartHwGen2
  modify fun hw => { hw with mac := { hw.mac with autotryRestart := true } }
  ixmapVerifyFwVersion82599

def ixmapInitHw : HwM ℤ := do
  let status ← ixmapResetHw82599
  if status = 0 then ixmapStartHw82599 else pure status

def ixmapInitOps82599 : HwM ℤ := do
  let count ← ixmapGetPcieMsixCount
  let fwsm ← readHw fwsmReg
  modify fun hw => { hw with mac := { hw.mac with
    mcftSize := 128
    vftSize := 128
    numRarEntries := 128
    maxRxQueues := 128
    maxTxQueues := 128
    maxMsixVectors := count
    arcSubsystemValid := fwsm &&& 0xe#32 ≠ 0#32
    tables := by decide } }
  pure 0

def ixmapDisableTxLaserMultispeedFiber : HwM Unit := do
  let esdp ← readHw esdpReg
  writeHw esdpReg (esdp ||| 0x00000008#32)
  flushHw

def ixmapEnableTxLaserMultispeedFiber : HwM Unit := do
  let esdp ← readHw esdpReg
  writeHw esdpReg (esdp &&& ~~~0x00000008#32)
  flushHw

def ixmapFlapTxLaserMultispeedFiber : HwM Unit := do
  let hw ← get
  if hw.mac.autotryRestart then
    ixmapDisableTxLaserMultispeedFiber
    ixmapEnableTxLaserMultispeedFiber
    modify fun hw => { hw with mac := { hw.mac with autotryRestart := false } }

def Backplane (linkMode : BitVec 32) : Prop :=
  linkMode = lmsKx4KxKr ∨ linkMode = lmsKx4KxKr1GAn ∨ linkMode = lmsKx4KxKrSgmii

instance (linkMode : BitVec 32) : Decidable (Backplane linkMode) := inferInstanceAs (Decidable (_ ∨ _ ∨ _))

def backplaneSpeed (autoc base : BitVec 32) : BitVec 32 :=
  let speed := if autoc &&& autocKrSupp ≠ 0#32 then base ||| linkSpeed10GbFull else base
  let speed := if autoc &&& autocKx4Supp ≠ 0#32 then speed ||| linkSpeed10GbFull else speed
  if autoc &&& autocKxSupp ≠ 0#32 then speed ||| linkSpeed1GbFull else speed

/-- The status, the speeds and whether they are negotiated, by the link mode. -/
def capabilitiesOf (autoc : BitVec 32) : ℤ × BitVec 32 × Bool :=
  let linkMode := autoc &&& autocLmsMask
  if linkMode = lms1GLinkNoAn then (0,linkSpeed1GbFull,false)
  else if linkMode = lms10GLinkNoAn then (0,linkSpeed10GbFull,false)
  else if linkMode = lms1GAn then (0,linkSpeed1GbFull,true)
  else if linkMode = lms10GSerial then (0,linkSpeed10GbFull,false)
  else if linkMode = lmsKx4KxKr ∨ linkMode = lmsKx4KxKr1GAn then (0,backplaneSpeed autoc linkSpeedUnknown,true)
  else if linkMode = lmsKx4KxKrSgmii then (0,backplaneSpeed autoc linkSpeed100Full,true)
  else if linkMode = lmsSgmii1G100M then (0,linkSpeed1GbFull ||| linkSpeed100Full,false)
  else (errLinkSetup,linkSpeedUnknown,false)

def ixmapGetLinkCapabilities82599 : HwM (ℤ × BitVec 32 × Bool) := do
  let hw ← get
  if hw.mac.origLinkSettingsStored then pure (capabilitiesOf hw.mac.origAutoc)
  else
    let autoc ← readHw autocReg
    pure (capabilitiesOf autoc)

/-- AUTOC for the speed that is asked for, from its value now and the stored one. -/
def linkAutoc (orig autoc autoc2 speed : BitVec 32) (autoneg : Bool) : BitVec 32 :=
  let linkMode := autoc &&& autocLmsMask
  let sfi1G := autoc &&& autoc1GPmaPmdMask = 0#32
  let sfi10G := autoc2 &&& autoc2SerialMask = autoc2Sfi
  if Backplane linkMode then
    let base := autoc &&& ~~~(autocKx4Supp ||| autocKxSupp ||| autocKrSupp)
    let tenG := speed &&& linkSpeed10GbFull ≠ 0#32
    let base := if tenG ∧ orig &&& autocKx4Supp ≠ 0#32 then base ||| autocKx4Supp else base
    let base := if tenG ∧ orig &&& autocKrSupp ≠ 0#32 then base ||| autocKrSupp else base
    if speed &&& linkSpeed1GbFull ≠ 0#32 then base ||| autocKxSupp else base
  else if sfi1G ∧ (linkMode = lms1GLinkNoAn ∨ linkMode = lms1GAn) then
    if speed = linkSpeed10GbFull ∧ sfi10G then autoc &&& ~~~autocLmsMask ||| lms10GSerial else autoc
  else if sfi10G ∧ linkMode = lms10GSerial then
    if speed = linkSpeed1GbFull ∧ sfi1G then
      autoc &&& ~~~autocLmsMask ||| (if autoneg then lms1GAn else lms1GLinkNoAn)
    else autoc
  else autoc

def pollAutoneg : ℕ → HwM Bool
  | 0 => pure false
  | left+1 => do
    let links ← readHw linksReg
    if links &&& 0x80000000#32 ≠ 0#32 then pure true else pollAutoneg left

/-- Restart the link with a new AUTOC, and on a backplane wait for the negotiation when that is asked for. -/
def restartLink (linkMode autoc : BitVec 32) (wait : Bool) : HwM ℤ := do
  let status ← protAutocWrite82599 autoc false
  if status ≠ 0 then pure status
  else if wait = true ∧ Backplane linkMode then
    let done ← pollAutoneg 45
    pure (if done then 0 else errAutonegNotComplete)
  else pure 0

def ixmapSetupMacLink82599 (speed : BitVec 32) (wait : Bool) : HwM ℤ := do
  let current ← readHw autocReg
  let autoc2 ← readHw autoc2Reg
  let r ← ixmapGetLinkCapabilities82599
  if r.1 ≠ 0 then pure r.1
  else if speed &&& r.2.1 = linkSpeedUnknown then pure errLinkSetup
  else
    let hw ← get
    let orig := if hw.mac.origLinkSettingsStored then hw.mac.origAutoc else current
    let autoc := linkAutoc orig current autoc2 (speed &&& r.2.1) r.2.2
    if autoc ≠ current then restartLink (current &&& autocLmsMask) autoc wait else pure 0

section
variable {g : Own}

theorem mac_swBits : bitsOf gssrMacCsrSm ⊆ swBits := by
  intro n hn
  have hall : ∀ k < 16, gssrMacCsrSm.getLsbD k = true → k < 5 ∨ k = 10 := by decide
  exact hall n (BitVec.lt_of_getLsbD hn) hn

theorem mac_claimed : 3 ∈ (g.taken gssrMacCsrSm).claimed := Or.inr (by decide : gssrMacCsrSm.getLsbD 3 = true)

theorem keepsHw_identifyModule : KeepsHw ixmapIdentifyModule g := by
  refine keepsHw_state fun hw => KeepsHw.ite (keepsHw_setLanId.bind fun _ => ?_) ?_
  · exact (keepsHw_modify _).bind fun _ => keepsHw_pure _
  · exact (keepsHw_modify _).bind fun _ => keepsHw_pure _

theorem keepsHw_initPhyOps : KeepsHw ixmapInitPhyOps82599 g :=
  keepsHw_identifyModule.bind fun _ => (keepsHw_modify _).bind fun _ => keepsHw_pure _

theorem keepsHw_findSfp (hg : Settled g) (sfpType : BitVec 16) (n : ℕ) (offset : BitVec 16) :
    KeepsHw (findSfp sfpType n offset) g := by
  induction n generalizing offset with
  | zero => exact keepsHw_pure _
  | succ n ih =>
    refine (keepsHw_readEepromInto hg _ _).bind fun _ => KeepsHw.ite (keepsHw_pure _) ?_
    refine KeepsHw.ite (keepsHw_pure _) (KeepsHw.ite ?_ (ih _))
    refine (keepsHw_readEepromInto hg _ _).bind fun _ => KeepsHw.ite (keepsHw_pure _) ?_
    exact KeepsHw.ite (keepsHw_pure _) (keepsHw_pure _)

theorem keepsHw_getSfpOffsets (hg : Settled g) : KeepsHw ixmapGetSfpInitSequenceOffsets g := by
  refine keepsHw_state fun hw => KeepsHw.ite (keepsHw_pure _) ?_
  refine (keepsHw_readEepromInto hg _ _).bind fun _ => KeepsHw.ite (keepsHw_pure _) ?_
  exact KeepsHw.ite (keepsHw_pure _) (keepsHw_findSfp hg _ _ _)

/-- CORECTL is written under the lock of the MAC's registers; the EEPROM is taken and given back meanwhile. -/
theorem keepsHw_writeSequence (hg : Settled g) (h : 3 ∈ g.claimed) (n : ℕ) (offset : BitVec 16) :
    KeepsHw (writeSequence n offset) g := by
  have hwrite : ∀ v, KeepsHw (writeHw corectlReg v) g := by
    intro v
    refine keepsHw_lift (keeps_writeReg (by decide) (by decide) fun k hk => ?_)
    rw [← Option.some_inj.mp (hk : some 3 = some k)]
    exact h
  induction n generalizing offset with
  | zero => exact keepsHw_pure _
  | succ n ih =>
    refine (keepsHw_readEepromInto hg _ _).bind fun _ => KeepsHw.ite (keepsHw_pure _) ?_
    refine KeepsHw.ite (keepsHw_pure _) ((hwrite _).bind fun _ => keepsHw_flushHw.bind fun _ => ih _)

theorem keepsHw_verifyLesm (hg : Settled g) : KeepsHw ixmapVerifyLesmFwEnabled82599 g := by
  refine (keepsHw_readEepromInto hg _ _).bind fun _ => KeepsHw.ite ?_ (keepsHw_pure _)
  refine (keepsHw_readEepromInto hg _ _).bind fun _ => KeepsHw.ite ?_ (keepsHw_pure _)
  exact (keepsHw_readEepromInto hg _ _).bind fun _ => keepsHw_pure _

theorem keepsHw_enableLink : KeepsHw enableLink g := by
  refine (keepsHw_readHw (by decide)).bind fun _ => KeepsHw.ite ?_ (keepsHw_pure _)
  exact (keepsHw_writeHw (by decide)).bind fun _ => keepsHw_flushHw.bind fun _ => keepsHw_pure _

theorem keepsHw_pollAnState (n : ℕ) : KeepsHw (pollAnState n) g := by
  induction n with
  | zero => exact keepsHw_pure _
  | succ n ih => exact (keepsHw_readHw (by decide)).bind fun _ => KeepsHw.ite (keepsHw_pure _) ih

theorem keepsHw_resetPipeline : KeepsHw ixmapResetPipeline82599 g := by
  refine keepsHw_enableLink.bind fun _ => (keepsHw_readHw (by decide)).bind fun _ => ?_
  refine (keepsHw_writeHw (by decide)).bind fun _ => (keepsHw_pollAnState _).bind fun _ => ?_
  exact (keepsHw_writeHw (by decide)).bind fun _ => keepsHw_flushHw.bind fun _ => keepsHw_pure _

theorem followsHw_writeAutocLocked (hg : Settled g) (hd : Disjoint (bitsOf gssrMacCsrSm) g.held) (autoc : BitVec 32) :
    FollowsHw (writeAutocLocked autoc) (g.taken gssrMacCsrSm) fun _ g' => g' = g := by
  refine (keepsHw_writeHw (by decide)).then fun _ => keepsHw_resetPipeline.then fun _ => ?_
  exact hg.leave hd (keepsHw_pure _)

theorem keepsHw_protAutocWrite (hg : Settled g) (autoc : BitVec 32) :
    KeepsHw (protAutocWrite82599 autoc false) g := by
  refine (keepsHw_verifyLesm hg).bind fun lesm => KeepsHw.ite ?_ ?_
  · refine hg.section mac_swBits (fun status hst => ?_) fun hd => ?_
    · rw [if_pos hst]
      exact keepsHw_pure _
    · rw [if_neg (not_not.mpr rfl)]
      exact followsHw_writeAutocLocked hg hd autoc
  · exact (keepsHw_writeHw (by decide)).bind fun _ => keepsHw_resetPipeline

/-- A read of AUTOC hands the lock over to the write that follows, which gives it back. -/
theorem keepsHw_readThenWrite (hg : Settled g) (f : BitVec 32 → BitVec 32) : KeepsHw (do
    let r ← protAutocRead82599
    if r.1 ≠ 0 then pure r.1 else protAutocWrite82599 (f r.2.2) r.2.1) g := by
  have hread : FollowsHw protAutocRead82599 g fun r g' => (r.1 ≠ 0 → g' = g) ∧ (r.2.1 = false → g' = g) ∧
      (r.2.1 = true → g' = g.taken gssrMacCsrSm ∧ Disjoint (bitsOf gssrMacCsrSm) g.held) := by
    refine (keepsHw_verifyLesm hg).then fun lesm => ?_
    cases lesm with
    | false =>
      refine (keepsHw_readHw (by decide)).then fun autoc => followsHw_pure ?_
      exact ⟨fun _ => rfl,fun _ => rfl,fun h => Bool.noConfusion h⟩
    | true =>
      refine hg.section mac_swBits (fun status hst => ?_) fun hd => ?_
      · rw [if_pos hst]
        exact followsHw_pure ⟨fun _ => rfl,fun _ => rfl,fun h => Bool.noConfusion h⟩
      · refine (keepsHw_readHw (by decide)).then fun autoc => followsHw_pure ?_
        exact ⟨fun h => absurd rfl h,fun h => Bool.noConfusion h,fun _ => ⟨rfl,hd⟩⟩
  refine FollowsHw.bind hread ?_
  rintro ⟨status,locked,autoc⟩ g' ⟨herr,hfree,hlocked⟩
  by_cases hst : status = 0
  · rw [if_neg (not_not.mpr hst)]
    cases locked with
    | false =>
      rw [hfree rfl]
      exact keepsHw_protAutocWrite hg _
    | true =>
      obtain ⟨rfl,hd⟩ := hlocked rfl
      exact followsHw_writeAutocLocked hg hd _
  · rw [if_pos hst,herr hst]
    exact keepsHw_pure _

theorem keepsHw_writeSfp (hg : Settled g) (dataOffset : BitVec 16) : KeepsHw (writeSfp dataOffset) g := by
  refine hg.section mac_swBits (fun status hst => ?_) fun hd => ?_
  · rw [if_pos hst]
    exact keepsHw_pure _
  rw [if_neg (not_not.mpr rfl)]
  exact (keepsHw_writeSequence (hg.taken _) mac_claimed _ _).then fun done => hg.leave hd (keepsHw_pure _)

theorem keepsHw_setupSfpModules (hg : Settled g) : KeepsHw ixmapSetupSfpModules82599 g := by
  have hprogram : KeepsHw programSfp g :=
    (keepsHw_getSfpOffsets hg).bind fun _ => KeepsHw.ite (keepsHw_pure _) (keepsHw_writeSfp hg _)
  refine (keepsHw_modify _).bind fun _ => hprogram.bind fun _ => KeepsHw.ite (keepsHw_pure _) ?_
  exact keepsHw_state fun hw => (keepsHw_protAutocWrite hg _).bind fun _ => keepsHw_pure _

theorem keepsHw_pollReset (n : ℕ) (ctrl : BitVec 32) : KeepsHw (pollReset n ctrl) g := by
  induction n generalizing ctrl with
  | zero => exact keepsHw_pure _
  | succ n ih => exact (keepsHw_readHw (by decide)).bind fun _ => KeepsHw.ite (keepsHw_pure _) (ih _)

theorem keepsHw_resetMac : KeepsHw resetMac g := by
  have hbit : KeepsHw resetBit g :=
    keepsHw_state fun hw => KeepsHw.ite (keepsHw_pure _) ((keepsHw_checkMacLink _).bind fun _ => keepsHw_pure _)
  refine hbit.bind fun _ => (keepsHw_readHw (by decide)).bind fun _ => (keepsHw_writeHw (by decide)).bind fun _ => ?_
  exact keepsHw_flushHw.bind fun _ => (keepsHw_pollReset _ _).bind fun _ => keepsHw_pure _

theorem keepsHw_macResetTop (n : ℕ) (status : ℤ) : KeepsHw (macResetTop n status) g := by
  induction n generalizing status with
  | zero => exact keepsHw_pure _
  | succ n ih =>
    refine keepsHw_resetMac.bind fun _ => keepsHw_state fun hw => KeepsHw.ite ?_ (keepsHw_pure _)
    exact (keepsHw_modify _).bind fun _ => ih _

theorem keepsHw_linkSettings (hg : Settled g) (status : ℤ) : KeepsHw (linkSettings status) g := by
  have hrestore : ∀ orig autoc2, KeepsHw (restoreAutoc2 orig autoc2) g := fun _ _ =>
    KeepsHw.ite (keepsHw_writeHw (by decide)) (keepsHw_pure _)
  refine (keepsHw_readHw (by decide)).bind fun _ => keepsHw_enableLink.bind fun _ => keepsHw_state fun hw => ?_
  refine KeepsHw.ite (KeepsHw.ite ?_ ?_) ((keepsHw_modify _).bind fun _ => keepsHw_pure _)
  · refine (keepsHw_protAutocWrite hg _).bind fun _ => KeepsHw.ite (keepsHw_pure _) ?_
    exact (hrestore _ _).bind fun _ => keepsHw_pure _
  · exact (hrestore _ _).bind fun _ => keepsHw_pure _

theorem keepsHw_setupSfp (hg : Settled g) : KeepsHw setupSfp g := by
  refine keepsHw_state fun hw => KeepsHw.ite ?_ (keepsHw_pure _)
  exact (keepsHw_setupSfpModules hg).bind fun _ => (keepsHw_modify _).bind fun _ => keepsHw_pure _

theorem keepsHw_resetHw (hg : Settled g) : KeepsHw ixmapResetHw82599 g := by
  refine keepsHw_stopAdapter.bind fun _ => KeepsHw.ite (keepsHw_pure _) ?_
  refine keepsHw_clearTxPending.bind fun _ => keepsHw_initPhyOps.bind fun _ => KeepsHw.ite (keepsHw_pure _) ?_
  refine (keepsHw_setupSfp hg).bind fun _ => KeepsHw.ite (keepsHw_pure _) ?_
  refine (keepsHw_macResetTop _ _).bind fun _ => (keepsHw_linkSettings hg _).bind fun _ => KeepsHw.ite ?_ (keepsHw_pure _)
  have hstore : KeepsHw storeAddresses g :=
    keepsHw_getMacAddr.bind fun _ => (keepsHw_modify _).bind fun _ => keepsHw_initRxAddrs
  exact hstore.bind fun _ => keepsHw_pure _

theorem keepsHw_verifyFwVersion (hg : Settled g) : KeepsHw ixmapVerifyFwVersion82599 g := by
  refine keepsHw_state fun hw => KeepsHw.ite (keepsHw_pure _) ?_
  refine (keepsHw_readEepromInto hg _ _).bind fun _ => KeepsHw.ite ?_ (keepsHw_pure _)
  refine (keepsHw_readEepromInto hg _ _).bind fun _ => KeepsHw.ite ?_ (keepsHw_pure _)
  exact (keepsHw_readEepromInto hg _ _).bind fun _ => keepsHw_pure _

theorem keepsHw_startHw82599 (hg : Settled g) : KeepsHw ixmapStartHw82599 g :=
  keepsHw_startHw.bind fun _ => keepsHw_startHwGen2.bind fun _ => (keepsHw_modify _).bind fun _ =>
    keepsHw_verifyFwVersion hg

theorem keepsHw_initHw (hg : Settled g) : KeepsHw ixmapInitHw g :=
  (keepsHw_resetHw hg).bind fun _ => KeepsHw.ite (keepsHw_startHw82599 hg) (keepsHw_pure _)

theorem keepsHw_initOps : KeepsHw ixmapInitOps82599 g := by
  have hcount : KeepsHw ixmapGetPcieMsixCount g := by
    refine keepsHw_state fun hw => KeepsHw.ite ?_ (keepsHw_pure _)
    exact (keepsHw_readPciCfgWord _).bind fun _ => keepsHw_pure _
  refine hcount.bind fun _ => (keepsHw_readHw (by decide)).bind fun _ => (keepsHw_modify _).bind fun _ => ?_
  exact keepsHw_pure _

theorem keepsHw_laser (f : BitVec 32 → BitVec 32) : KeepsHw (do
    let esdp ← readHw esdpReg
    writeHw esdpReg (f esdp)
    flushHw) g :=
  (keepsHw_readHw (by decide)).bind fun _ => (keepsHw_writeHw (by decide)).bind fun _ => keepsHw_flushHw

theorem keepsHw_flapTxLaser : KeepsHw ixmapFlapTxLaserMultispeedFiber g := by
  refine keepsHw_state fun hw => KeepsHw.ite ?_ (keepsHw_pure _)
  exact (keepsHw_laser _).bind fun _ => (keepsHw_laser _).bind fun _ => keepsHw_modify _

theorem keepsHw_restartLink (hg : Settled g) (linkMode autoc : BitVec 32) (wait : Bool) :
    KeepsHw (restartLink linkMode autoc wait) g := by
  have hpoll : ∀ n, KeepsHw (pollAutoneg n) g := by
    intro n
    induction n with
    | zero => exact keepsHw_pure _
    | succ n ih => exact (keepsHw_readHw (by decide)).bind fun _ => KeepsHw.ite (keepsHw_pure _) ih
  refine (keepsHw_protAutocWrite hg _).bind fun _ => KeepsHw.ite (keepsHw_pure _) ?_
  exact KeepsHw.ite ((hpoll _).bind fun _ => keepsHw_pure _) (keepsHw_pure _)

theorem keepsHw_setupMacLink (hg : Settled g) (speed : BitVec 32) (wait : Bool) :
    KeepsHw (ixmapSetupMacLink82599 speed wait) g := by
  have hcap : KeepsHw ixmapGetLinkCapabilities82599 g :=
    keepsHw_state fun hw => KeepsHw.ite (keepsHw_pure _) ((keepsHw_readHw (by decide)).bind fun _ => keepsHw_pure _)
  refine (keepsHw_readHw (by decide)).bind fun _ => (keepsHw_readHw (by decide)).bind fun _ => hcap.bind fun _ => ?_
  refine KeepsHw.ite (keepsHw_pure _) (KeepsHw.ite (keepsHw_pure _) (keepsHw_state fun hw => ?_))
  exact KeepsHw.ite (keepsHw_restartLink hg _ _ _) (keepsHw_pure _)

end

end Hw
end Ixmap
