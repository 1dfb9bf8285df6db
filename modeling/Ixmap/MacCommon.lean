import Ixmap.HwState

/-! The functions of `kmod/ixmap_common.c` that set the port up and stop it. -/
namespace Ixmap
namespace Hw
open RegProgram

def ctrlReg : Reg := .bar 0x00000
def ctrlExtReg : Reg := .bar 0x00018
def eicrReg : Reg := .bar 0x00800
def eimcReg : Reg := .bar 0x00888
def rxctrlReg : Reg := .bar 0x03000
def fccfgReg : Reg := .bar 0x03d00
def hlreg0Reg : Reg := .bar 0x04240
def mflcnReg : Reg := .bar 0x04294
def linksReg : Reg := .bar 0x042a4
def rttdqselReg : Reg := .bar 0x04904
def rttbcnrcReg : Reg := .bar 0x04984
def mcstctrlReg : Reg := .bar 0x05090
def factpsReg : Reg := .bar 0x10150
def fwsmReg : Reg := .bar 0x10148
def gcrExtReg : Reg := .bar 0x11050

def mtaReg (i : ℕ) : Reg := .bar (0x05200+i*4)
def ralReg (i : ℕ) : Reg := .bar (if i ≤ 15 then 0x05400+i*8 else 0x0a200+i*8)
def rahReg (i : ℕ) : Reg := .bar (if i ≤ 15 then 0x05404+i*8 else 0x0a204+i*8)
def txdctlReg (i : ℕ) : Reg := .bar (0x06028+i*0x40)
def rxdctlReg (i : ℕ) : Reg := .bar (if i < 64 then 0x01028+i*0x40 else 0x0d028+(i-64)*0x40)
def dcaTxctrlReg (i : ℕ) : Reg := .bar (0x0600c+i*0x40)
def dcaRxctrlReg (i : ℕ) : Reg :=
  .bar (if i ≤ 15 then 0x02200+i*4 else if i < 64 then 0x0100c+i*0x40 else 0x0d00c+(i-64)*0x40)
def vftaReg (i : ℕ) : Reg := .bar (0x0a000+i*4)
def vlvfReg (i : ℕ) : Reg := .bar (0x0f100+i*4)
def vlvfbReg (i : ℕ) : Reg := .bar (0x0f200+i*4)
def utaReg (i : ℕ) : Reg := .bar (0x0f400+i*4)

def errInvalidMacAddr : ℤ := -10
def errMasterRequestsPending : ℤ := -12

def linkSpeedUnknown : BitVec 32 := 0#32
def linkSpeed100Full : BitVec 32 := 0x0008#32
def linkSpeed1GbFull : BitVec 32 := 0x0020#32
def linkSpeed10GbFull : BitVec 32 := 0x0080#32

def linksUp : BitVec 32 := 0x40000000#32
def rahAv : BitVec 32 := 0x80000000#32
def statusGio : BitVec 32 := 0x00080000#32

def ixmapValidateMacAddr (addr : MacAddr) : ℤ :=
  if addr 0 &&& 0x01#8 ≠ 0#8 then errInvalidMacAddr
  else if addr 0 = 0xff#8 ∧ addr 1 = 0xff#8 then errInvalidMacAddr
  else if ∀ i, addr i = 0#8 then errInvalidMacAddr
  else 0

def ixmapGetMacAddr : HwM MacAddr := do
  let rarHigh ← readHw (rahReg 0)
  let rarLow ← readHw (ralReg 0)
  pure fun i => if i.val < 4 then (rarLow >>> (i.val*8)).setWidth 8 else (rarHigh >>> ((i.val-4)*8)).setWidth 8

/-- The VMDq argument of the source is not used. -/
def ixmapSetRar (index : ℕ) (addr : MacAddr) (enableAddr : BitVec 32) : HwM ℤ := do
  let hw ← get
  if hw.mac.numRarEntries ≤ index then pure errInvalidArgument
  else
    let rarLow := (addr 0).setWidth 32 ||| (addr 1).setWidth 32 <<< 8 ||| (addr 2).setWidth 32 <<< 16 |||
      (addr 3).setWidth 32 <<< 24
    let rarHigh ← readHw (rahReg index)
    let rarHigh := rarHigh &&& ~~~(0x0000ffff#32 ||| rahAv)
    let rarHigh := rarHigh ||| ((addr 4).setWidth 32 ||| (addr 5).setWidth 32 <<< 8)
    let rarHigh := if enableAddr ≠ 0#32 then rarHigh ||| rahAv else rarHigh
    writeHw (ralReg index) rarLow
    writeHw (rahReg index) rarHigh
    pure 0

def ixmapInitUtaTables : HwM Unit := loopFrom (fun i => writeHw (utaReg i) 0#32) 128 0

/-- The first address: one set by software, or what RAR 0 holds. -/
def initRar0 : HwM Unit := do
  let hw ← get
  if ixmapValidateMacAddr hw.mac.addr = errInvalidMacAddr then
    let addr ← ixmapGetMacAddr
    modify fun hw => { hw with mac := { hw.mac with addr := addr } }
  else
    let _ ← ixmapSetRar 0 hw.mac.addr rahAv

def ixmapInitRxAddrs : HwM Unit := do
  let hw ← get
  initRar0
  loopFrom (fun i => do
    writeHw (ralReg i) 0#32
    writeHw (rahReg i) 0#32) (hw.mac.numRarEntries-1) 1
  writeHw mcstctrlReg hw.mac.mcFilterType
  loopFrom (fun i => writeHw (mtaReg i) 0#32) hw.mac.mcftSize 0
  ixmapInitUtaTables

def ixmapClearVfta : HwM Unit := do
  let hw ← get
  loopFrom (fun i => writeHw (vftaReg i) 0#32) hw.mac.vftSize 0
  loopFrom (fun i => do
    writeHw (vlvfReg i) 0#32
    writeHw (vlvfbReg (i*2)) 0#32
    writeHw (vlvfbReg (i*2+1)) 0#32) 64 0

/-- A poll count by the completion time-out of the bus, with 10% added. -/
def ixmapPcieTimeoutPoll : HwM ℕ := do
  let devctl2 ← ixmapReadPciCfgWord 0xc8
  let devctl2 := devctl2 &&& 0xf#16
  let pollcnt := if devctl2 = 0x6#16 then 1300 else if devctl2 = 0x9#16 then 5200
    else if devctl2 = 0xa#16 then 20000 else if devctl2 = 0xd#16 then 80000
    else if devctl2 = 0xe#16 then 34000 else 800
  pure (pollcnt*11/10)

def pollGio : ℕ → HwM Bool
  | 0 => pure false
  | left+1 => do
    let status ← readHw statusReg
    if status &&& statusGio = 0#32 then pure true else pollGio left

def pollTransactions : ℕ → HwM Bool
  | 0 => pure false
  | left+1 => do
    let value ← ixmapReadPciCfgWord 0xaa
    if value &&& 0x0020#16 = 0#16 then pure true else pollTransactions left

/-- Block the requests of the device; when it keeps sending them, the next reset has to be made twice. -/
def ixmapDisablePcieMaster : HwM ℤ := do
  writeHw ctrlReg 0x4#32
  let status ← readHw statusReg
  if status &&& statusGio = 0#32 then pure 0
  else
    let quiet ← pollGio 800
    if quiet then pure 0
    else
      modify fun hw => { hw with mac := { hw.mac with doubleResetRequired := true } }
      let poll ← ixmapPcieTimeoutPoll
      let done ← pollTransactions poll
      if done then pure 0 else pure errMasterRequestsPending

def ixmapStopAdapter : HwM ℤ := do
  modify fun hw => { hw with adapterStopped := true }
  let hw ← get
  writeHw rxctrlReg 0#32
  writeHw eimcReg 0xffffffff#32
  let _ ← readHw eicrReg
  loopFrom (fun i => writeHw (txdctlReg i) 0x04000000#32) hw.mac.maxTxQueues 0
  loopFrom (fun i => do
    let regVal ← readHw (rxdctlReg i)
    writeHw (rxdctlReg i) (regVal &&& ~~~0x02000000#32 ||| 0x04000000#32)) hw.mac.maxRxQueues 0
  flushHw
  ixmapDisablePcieMaster

def ixmapClearTxPending : HwM Unit := do
  let hw ← get
  if hw.mac.doubleResetRequired then
    let hlreg0 ← readHw hlreg0Reg
    writeHw hlreg0Reg (hlreg0 ||| 0x00008000#32)
    let gcrExt ← readHw gcrExtReg
    writeHw gcrExtReg (gcrExt ||| 0x40000000#32)
    flushHw
    writeHw gcrExtReg gcrExt
    writeHw hlreg0Reg hlreg0

def ixmapGetPcieMsixCount : HwM (BitVec 16) := do
  let hw ← get
  if hw.mac.type = .mac82599EB then
    let msixCount ← ixmapReadPciCfgWord 0x72
    let msixCount := (msixCount &&& 0x7ff#16)+1#16
    pure (if 0x40#16 < msixCount then 0x40#16 else msixCount)
  else pure 1#16

def ixmapSetLanIdMultiPortPcie : HwM Unit := do
  let reg ← readHw statusReg
  let func := ((reg &&& 0x0000000c#32) >>> 2).setWidth 16
  modify fun hw => { hw with bus := { hw.bus with func := func, lanId := func } }
  let reg ← readHw factpsReg
  if reg &&& 0x40000000#32 ≠ 0#32 then
    modify fun hw => { hw with bus := { hw.bus with func := hw.bus.func ^^^ 0x1#16 } }

def linkSpeedOf (links : BitVec 32) : BitVec 32 :=
  if links &&& 0x30000000#32 = 0x30000000#32 then linkSpeed10GbFull
  else if links &&& 0x30000000#32 = 0x20000000#32 then linkSpeed1GbFull
  else if links &&& 0x30000000#32 = 0x10000000#32 then linkSpeed100Full
  else linkSpeedUnknown

def waitLink : ℕ → BitVec 32 → HwM (Bool × BitVec 32)
  | 0, links => pure (false,links)
  | left+1, links =>
    if links &&& linksUp ≠ 0#32 then pure (true,links)
    else do
      let links ← readHw linksReg
      waitLink left links

/-- The speed and whether the link is up; the first read of LINKS clears what was latched. -/
def ixmapCheckMacLink (wait : Bool) : HwM (BitVec 32 × Bool) := do
  let _ ← readHw linksReg
  let links ← readHw linksReg
  if wait then
    let r ← waitLink 90 links
    pure (linkSpeedOf r.2,r.1)
  else pure (linkSpeedOf links,links &&& linksUp ≠ 0#32)

def ixmapSetupFc : HwM Unit := do
  let mflcn ← readHw mflcnReg
  let fccfg ← readHw fccfgReg
  writeHw mflcnReg (mflcn &&& ~~~(0x00000ff4#32 ||| 0x00000008#32) ||| 0x00000002#32)
  writeHw fccfgReg (fccfg &&& ~~~(0x00000008#32 ||| 0x00000010#32))

/-- The statistics registers, in the order in which they are read. -/
def hwCounters : List ℕ :=
  [0x04000,0x04004,0x04008,0x04010]++(List.range 8).map (0x03fa0+·*4)++
  [0x04034,0x04038,0x04040,0x03f60,0x03f68,0x041a4,0x041a8]++
  (List.range 8).flatMap (fun i => [0x03f00+i*4,0x03f20+i*4,0x04140+i*4,0x04160+i*4])++
  (List.range 8).map (0x03240+·*4)++
  [0x0405c,0x04060,0x04064,0x04068,0x0406c,0x04070,0x04074,0x04078,0x0407c,0x04080,0x04088,0x0408c,0x04090,
    0x04094,0x040a4,0x040a8,0x040ac,0x040b0,0x040b4,0x040b8,0x0cf90,0x040c0,0x040c4,0x040d0,0x040d4,0x040d8,
    0x040dc,0x040e0,0x040e4,0x040e8,0x040ec,0x040f0,0x040f4]++
  (List.range 16).flatMap (fun i => [0x01030+i*0x40,0x06030+i*0x40,0x01034+i*0x40,0x01038+i*0x40,0x08700+i*0x8,
    0x08704+i*0x8,0x01430+i*0x40])

def readOffsets : List ℕ → HwM Unit
  | [] => pure ()
  | r::rs => do
    let _ ← readHw (.bar r)
    readOffsets rs

def ixmapClearHwCntrs : HwM Unit := readOffsets hwCounters

def ixmapGetMediaType82599 (hw : IxmapHw) : MediaType :=
  if hw.deviceId ∈ [0x10fb#16,0x1529#16,0x1507#16,0x154d#16,0x154a#16,0x1557#16] then .fiber else .unknown

def ixmapStartHw : HwM Unit := do
  modify fun hw => { hw with phy := { hw.phy with mediaType := ixmapGetMediaType82599 hw } }
  ixmapClearVfta
  ixmapClearHwCntrs
  let ctrlExt ← readHw ctrlExtReg
  writeHw ctrlExtReg (ctrlExt ||| 0x00010000#32)
  flushHw
  modify fun hw => { hw with adapterStopped := false }

def ixmapStartHwGen2 : HwM Unit := do
  let hw ← get
  loopFrom (fun i => do
    writeHw rttdqselReg (BitVec.ofNat 32 i)
    writeHw rttbcnrcReg 0#32) hw.mac.maxTxQueues 0
  flushHw
  loopFrom (fun i => do
    let regval ← readHw (dcaTxctrlReg i)
    writeHw (dcaTxctrlReg i) (regval &&& ~~~(1#32 <<< 11))) hw.mac.maxTxQueues 0
  loopFrom (fun i => do
    let regval ← readHw (dcaRxctrlReg i)
    writeHw (dcaRxctrlReg i) (regval &&& ~~~(1#32 <<< 13 ||| 1#32 <<< 15))) hw.mac.maxRxQueues 0

theorem plain_tables {i : ℕ} (h : i < 128) : Plain (mtaReg i) ∧ Plain (ralReg i) ∧ Plain (rahReg i) ∧
    Plain (txdctlReg i) ∧ Plain (rxdctlReg i) ∧ Plain (dcaTxctrlReg i) ∧ Plain (dcaRxctrlReg i) ∧
    Plain (vftaReg i) ∧ Plain (vlvfbReg i) ∧ Plain (utaReg i) := by
  refine ⟨?_,?_,?_,?_,?_,?_,?_,?_,?_,?_⟩
  all_goals
    apply plain_of_lt
    first | omega | (split_ifs <;> omega)

theorem plain_vlvf {i : ℕ} (h : i < 64) : Plain (vlvfReg i) := plain_of_lt (by omega)

theorem Plain.unshared {r : Reg} (h : Plain r) : r ≠ swsmReg ∧ r ≠ gssrReg := ⟨h.1,h.2.1⟩

section
variable {g : Own}

theorem keepsHw_state {α : Type} {f : IxmapHw → HwM α} (h : ∀ hw, KeepsHw (f hw) g) : KeepsHw (get >>= f) g :=
  keepsHw_get.bind h

theorem keepsHw_update {r : Reg} (h : Plain r) (f : BitVec 32 → BitVec 32) : KeepsHw (do
    let v ← readHw r
    writeHw r (f v)) g :=
  (keepsHw_readHw h.unshared).bind fun _ => keepsHw_writeHw h

theorem keepsHw_getMacAddr : KeepsHw ixmapGetMacAddr g :=
  (keepsHw_readHw (by decide)).bind fun _ => (keepsHw_readHw (by decide)).bind fun _ => keepsHw_pure _

theorem keepsHw_setRar (index : ℕ) (addr : MacAddr) (enableAddr : BitVec 32) :
    KeepsHw (ixmapSetRar index addr enableAddr) g := by
  refine keepsHw_state fun hw => ?_
  by_cases hi : hw.mac.numRarEntries ≤ index
  · rw [if_pos hi]
    exact keepsHw_pure _
  rw [if_neg hi]
  have hp := plain_tables (lt_of_lt_of_le (not_le.mp hi) hw.mac.tables.2.2.1)
  refine (keepsHw_readHw hp.2.2.1.unshared).bind fun _ => ?_
  refine (keepsHw_writeHw hp.2.1).bind fun _ => (keepsHw_writeHw hp.2.2.1).bind fun _ => keepsHw_pure _

theorem keepsHw_initUtaTables : KeepsHw ixmapInitUtaTables g :=
  keepsHw_loopFrom fun i _ hi => keepsHw_writeHw (plain_tables (by omega)).2.2.2.2.2.2.2.2.2

theorem keepsHw_initRar0 : KeepsHw initRar0 g := by
  refine keepsHw_state fun hw => KeepsHw.ite ?_ ?_
  · exact keepsHw_getMacAddr.bind fun _ => keepsHw_modify _
  · exact (keepsHw_setRar _ _ _).bind fun _ => keepsHw_pure _

theorem keepsHw_initRxAddrs : KeepsHw ixmapInitRxAddrs g := by
  refine keepsHw_state fun hw => keepsHw_initRar0.bind fun _ => ?_
  have htables := hw.mac.tables
  refine (keepsHw_loopFrom fun i _ hi => ?_).bind fun _ => (keepsHw_writeHw (by decide)).bind fun _ => ?_
  · have hp := plain_tables (i := i) (by omega)
    exact (keepsHw_writeHw hp.2.1).bind fun _ => keepsHw_writeHw hp.2.2.1
  refine (keepsHw_loopFrom fun i _ hi => ?_).bind fun _ => keepsHw_initUtaTables
  exact keepsHw_writeHw (plain_tables (by omega)).1

theorem keepsHw_clearVfta : KeepsHw ixmapClearVfta g := by
  refine keepsHw_state fun hw => ?_
  have htables := hw.mac.tables
  refine (keepsHw_loopFrom fun i _ hi => ?_).bind fun _ => keepsHw_loopFrom fun i _ hi => ?_
  · exact keepsHw_writeHw (plain_tables (by omega)).2.2.2.2.2.2.2.1
  · refine (keepsHw_writeHw (plain_vlvf (by omega))).bind fun _ => ?_
    refine (keepsHw_writeHw (plain_tables (by omega)).2.2.2.2.2.2.2.2.1).bind fun _ => ?_
    exact keepsHw_writeHw (plain_tables (by omega)).2.2.2.2.2.2.2.2.1

theorem keepsHw_pollGio (n : ℕ) : KeepsHw (pollGio n) g := by
  induction n with
  | zero => exact keepsHw_pure _
  | succ n ih => exact (keepsHw_readHw (by decide)).bind fun _ => KeepsHw.ite (keepsHw_pure _) ih

theorem keepsHw_pollTransactions (n : ℕ) : KeepsHw (pollTransactions n) g := by
  induction n with
  | zero => exact keepsHw_pure _
  | succ n ih => exact (keepsHw_readPciCfgWord _).bind fun _ => KeepsHw.ite (keepsHw_pure _) ih

theorem keepsHw_disablePcieMaster : KeepsHw ixmapDisablePcieMaster g := by
  refine (keepsHw_writeHw (by decide)).bind fun _ => (keepsHw_readHw (by decide)).bind fun _ => ?_
  refine KeepsHw.ite (keepsHw_pure _) ((keepsHw_pollGio _).bind fun _ => KeepsHw.ite (keepsHw_pure _) ?_)
  refine (keepsHw_modify _).bind fun _ => ?_
  refine ((keepsHw_readPciCfgWord _).bind fun _ => keepsHw_pure _).bind fun _ => ?_
  exact (keepsHw_pollTransactions _).bind fun _ => KeepsHw.ite (keepsHw_pure _) (keepsHw_pure _)

theorem keepsHw_stopAdapter : KeepsHw ixmapStopAdapter g := by
  refine (keepsHw_modify _).bind fun _ => keepsHw_state fun hw => ?_
  have htables := hw.mac.tables
  refine (keepsHw_writeHw (by decide)).bind fun _ => (keepsHw_writeHw (by decide)).bind fun _ => ?_
  refine (keepsHw_readHw (by decide)).bind fun _ => ?_
  refine (keepsHw_loopFrom fun i _ hi => ?_).bind fun _ => (keepsHw_loopFrom fun i _ hi => ?_).bind fun _ => ?_
  · exact keepsHw_writeHw (plain_tables (by omega)).2.2.2.1
  · exact keepsHw_update (plain_tables (by omega)).2.2.2.2.1 _
  · exact keepsHw_flushHw.bind fun _ => keepsHw_disablePcieMaster

theorem keepsHw_clearTxPending : KeepsHw ixmapClearTxPending g := by
  refine keepsHw_state fun hw => KeepsHw.ite ?_ (keepsHw_pure _)
  refine (keepsHw_readHw (by decide)).bind fun _ => (keepsHw_writeHw (by decide)).bind fun _ => ?_
  refine (keepsHw_readHw (by decide)).bind fun _ => (keepsHw_writeHw (by decide)).bind fun _ => ?_
  refine keepsHw_flushHw.bind fun _ => (keepsHw_writeHw (by decide)).bind fun _ => ?_
  exact keepsHw_writeHw (by decide)

theorem keepsHw_setLanId : KeepsHw ixmapSetLanIdMultiPortPcie g := by
  refine (keepsHw_readHw (by decide)).bind fun _ => (keepsHw_modify _).bind fun _ => ?_
  exact (keepsHw_readHw (by decide)).bind fun _ => KeepsHw.ite (keepsHw_modify _) (keepsHw_pure _)

theorem keepsHw_waitLink (n : ℕ) (links : BitVec 32) : KeepsHw (waitLink n links) g := by
  induction n generalizing links with
  | zero => exact keepsHw_pure _
  | succ n ih => exact KeepsHw.ite (keepsHw_pure _) ((keepsHw_readHw (by decide)).bind fun _ => ih _)

theorem keepsHw_checkMacLink (wait : Bool) : KeepsHw (ixmapCheckMacLink wait) g := by
  refine (keepsHw_readHw (by decide)).bind fun _ => (keepsHw_readHw (by decide)).bind fun _ => ?_
  exact KeepsHw.ite ((keepsHw_waitLink _ _).bind fun _ => keepsHw_pure _) (keepsHw_pure _)

theorem keepsHw_setupFc : KeepsHw ixmapSetupFc g :=
  (keepsHw_readHw (by decide)).bind fun _ => (keepsHw_readHw (by decide)).bind fun _ =>
    (keepsHw_writeHw (by decide)).bind fun _ => keepsHw_writeHw (by decide)

theorem keepsHw_readOffsets {rs : List ℕ} (h : ∀ r ∈ rs, r < 0x10010) : KeepsHw (readOffsets rs) g := by
  induction rs with
  | nil => exact keepsHw_pure _
  | cons r rs ih =>
    refine (keepsHw_readHw (plain_of_lt (h r (by simp))).unshared).bind fun _ => ih fun r' hr' => ?_
    exact h r' (List.mem_cons_of_mem r hr')

theorem keepsHw_clearHwCntrs : KeepsHw ixmapClearHwCntrs g := keepsHw_readOffsets (by decide +kernel)

theorem keepsHw_startHw : KeepsHw ixmapStartHw g := by
  refine (keepsHw_modify _).bind fun _ => keepsHw_clearVfta.bind fun _ => keepsHw_clearHwCntrs.bind fun _ => ?_
  refine (keepsHw_readHw (by decide)).bind fun _ => (keepsHw_writeHw (by decide)).bind fun _ => ?_
  exact keepsHw_flushHw.bind fun _ => keepsHw_modify _

theorem keepsHw_startHwGen2 : KeepsHw ixmapStartHwGen2 g := by
  refine keepsHw_state fun hw => ?_
  have htables := hw.mac.tables
  refine (keepsHw_loopFrom fun i _ _ => ?_).bind fun _ => keepsHw_flushHw.bind fun _ => ?_
  · exact (keepsHw_writeHw (by decide)).bind fun _ => keepsHw_writeHw (by decide)
  refine (keepsHw_loopFrom fun i _ hi => ?_).bind fun _ => keepsHw_loopFrom fun i _ hi => ?_
  · exact keepsHw_update (plain_tables (by omega)).2.2.2.2.2.1 _
  · exact keepsHw_update (plain_tables (by omega)).2.2.2.2.2.2.1 _

end

end Hw
end Ixmap
