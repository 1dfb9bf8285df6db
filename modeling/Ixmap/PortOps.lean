import Ixmap.Mac82599
import Ixmap.Ivar

/-! What `kmod/ixmap_main.c` does to the registers of a port when the device is probed, brought up, taken down
or reset. -/
namespace Ixmap
namespace Hw
open RegProgram

def eiacReg : Reg := .bar 0x00810
def gpieReg : Reg := .bar 0x00898
def eimcExReg (i : ℕ) : Reg := .bar (0x00ab0+i*4)
def eiamExReg (i : ℕ) : Reg := .bar (0x00ad0+i*4)
def dmatxctlReg : Reg := .bar 0x04a80

def eio : ℤ := 5

def ixmapTakeHwControl : HwM Unit := do
  let ctrlExt ← readHw ctrlExtReg
  writeHw ctrlExtReg (ctrlExt ||| 0x10000000#32)

def ixmapReleaseHwControl : HwM Unit := do
  let ctrlExt ← readHw ctrlExtReg
  writeHw ctrlExtReg (ctrlExt &&& ~~~0x10000000#32)

def ixmapSetupGpie : HwM Unit := do
  writeHw (eiamExReg 0) 0xffffffff#32
  writeHw (eiamExReg 1) 0xffffffff#32
  writeHw eiacReg 0x0000ffff#32
  writeHw gpieReg (0x00000010#32 ||| 0x80000000#32 ||| 0x00000020#32 ||| 0x40000000#32)

def ixmapSwInit (deviceId : BitVec 16) : HwM ℤ := do
  modify fun hw => { hw with deviceId := deviceId, mac := { hw.mac with type := .mac82599EB } }
  ixmapInitOps82599

/-- A queue whose interrupt has been requested, with its vector. -/
structure Route where
  direction : ℕ
  queue : BitVec 8
  vector : Fin 64
  rate : ℕ

/-- `ixmap_set_ivar` and `ixmap_write_eitr` for one queue. -/
def routeQueue (r : Route) : HwM Unit := do
  let index := 16*(r.queue &&& 1#8).toNat+8*r.direction
  let ivarReg := Reg.bar (Kmod.ivarReg (r.queue >>> 1).toNat)
  let ivar ← readHw ivarReg
  writeHw ivarReg (ivar &&& ~~~(0xff#32 <<< index) |||
    (BitVec.ofNat 8 r.vector ||| 0x80#8).setWidth 32 <<< index)
  writeHw (.bar (Kmod.eitrReg r.vector)) (BitVec.ofNat 32 r.rate &&& 0xff8#32 ||| 0x80000000#32)

/-- The accesses have the effect that the request loops of `configureMsix` have on the registers. -/
theorem run_routeQueue (r : Route) (hw : IxmapHw) (regs : Reg → BitVec 32) : (run memory (routeQueue r hw) regs).2 ∘ Reg.bar =
    Kmod.routeQueue r.rate r.direction (regs ∘ Reg.bar) r.vector r.queue.toNat := by
  have hbar : Function.Injective Reg.bar := fun _ _ h => Reg.bar.inj h
  have hqueue : BitVec.ofNat 8 r.queue.toNat = r.queue := BitVec.eq_of_toNat_eq (by simp)
  rw [Kmod.routeQueue,Kmod.ixmapSetIvar,Kmod.ixmapWriteEitr,hqueue]
  simp only [← Function.update_comp_eq_of_injective _ hbar]
  rfl

def routeQueues : List Route → HwM Unit
  | [] => pure ()
  | r::rs => do
    routeQueue r
    routeQueues rs

/-- The words from which the identifier of the image is made. -/
def readEepromId : HwM Unit := do
  let _ ← readEepromInto 0x2e#16 0#16
  let _ ← readEepromInto 0x2d#16 0#16
  let offset ← readEepromInto 0x17#16 0#16
  if ¬offset.2 = 0#16 ∧ ¬offset.2 = 0xffff#16 then
    let _ ← readEepromInto (offset.2+0x84#16) 0#16
    let _ ← readEepromInto (offset.2+0x83#16) 0#16

def disableTxLaser : HwM Unit := do
  let hw ← get
  if hw.mac.laserOps then ixmapDisableTxLaserMultispeedFiber

def enableTxLaser : HwM Unit := do
  let hw ← get
  if hw.mac.laserOps then ixmapEnableTxLaserMultispeedFiber

/-- The rest of `ixmap_probe` behind the checksum. -/
def probeStart : HwM ℤ := do
  let hw ← get
  if ixmapValidateMacAddr hw.mac.permAddr ≠ 0 then pure (-eio)
  else
    readEepromId
    let _ ← ixmapStartHw82599
    disableTxLaser
    let _ ← ixmapReadPbaString 11
    let _ ← ixmapSetFwDrvVer 0xff#8 0xff#8 0xff#8 0xff#8
    pure 0

/-- The status of `ixmap_probe` as far as the hardware decides it; `none` when the checksum goes on for ever. -/
def probePort (deviceId : BitVec 16) (fuel : ℕ) : HwM (Option ℤ) := do
  let _ ← ixmapSwInit deviceId
  let err ← ixmapResetHw82599
  if err ≠ 0 then pure (some err)
  else
    match ← ixmapValidateEepromChecksum fuel with
    | none => pure none
    | some r => if r.1 < 0 then pure (some (-eio)) else some <$> probeStart

/-- `ixmap_up`, with the queues whose interrupts could be requested. -/
def upPort (routes : List Route) : HwM Unit := do
  ixmapTakeHwControl
  ixmapSetupGpie
  routeQueues routes
  enableTxLaser
  let _ ← ixmapSetupMacLink82599 linkSpeed10GbFull true
  ixmapSetupFc
  let _ ← readHw eicrReg

/-- `ixmap_reset`; the status is only logged. -/
def resetPort : HwM Unit := do
  let _ ← ixmapInitHw

/-- A device that has gone off the bus is not reset. -/
def resetOnline (offline : Bool) : HwM Unit := if offline then pure () else resetPort

def downPort (offline : Bool) : HwM Unit := do
  writeHw eimcReg 0xffff0000#32
  writeHw (eimcExReg 0) 0xffffffff#32
  writeHw (eimcExReg 1) 0xffffffff#32
  flushHw
  writeHw (txdctlReg 0) 0x04000000#32
  let dmatxctl ← readHw dmatxctlReg
  writeHw dmatxctlReg (dmatxctl &&& ~~~0x1#32)
  resetOnline offline
  disableTxLaser
  ixmapReleaseHwControl

/-- What the kernel and the user land make a driver do. -/
inductive DriverOp where
  | probe (deviceId : BitVec 16) (fuel : ℕ)
  | up (routes : List Route)
  | down (offline : Bool)
  | reset
  | checkLink

/-- `none` when the operation does not come to an end. -/
def driverOp : DriverOp → HwM (Option ℤ)
  | .probe deviceId fuel => probePort deviceId fuel
  | .up routes => do
    upPort routes
    pure (some 0)
  | .down offline => do
    downPort offline
    pure (some 0)
  | .reset => do
    resetPort
    pure (some 0)
  | .checkLink => do
    let _ ← ixmapCheckMacLink false
    pure (some 0)

def driverOps : List DriverOp → HwM Bool
  | [] => pure true
  | op::ops => do
    match ← driverOp op with
    | none => pure false
    | some _ => driverOps ops

section
variable {g : Own}

theorem keepsHw_swInit (deviceId : BitVec 16) : KeepsHw (ixmapSwInit deviceId) g :=
  (keepsHw_modify _).bind fun _ => keepsHw_initOps

theorem plain_route (r : Route) :
    Plain (.bar (Kmod.ivarReg (r.queue >>> 1).toNat)) ∧ Plain (.bar (Kmod.eitrReg r.vector)) := by
  have hq := (r.queue >>> 1).isLt
  have hv := r.vector.isLt
  refine ⟨plain_of_lt ?_,?_⟩
  · simp only [Kmod.ivarReg]
    omega
  · rw [Kmod.eitrReg]
    split_ifs with h
    · exact plain_of_lt (by omega)
    · refine ⟨?_,?_,?_⟩
      · intro hr
        have := Reg.bar.inj hr
        omega
      · intro hr
        have := Reg.bar.inj hr
        omega
      · simp only [guardOf]
        rw [if_neg (by omega),if_neg (by omega),if_neg (by omega)]

theorem keepsHw_routeQueues (routes : List Route) : KeepsHw (routeQueues routes) g := by
  induction routes with
  | nil => exact keepsHw_pure _
  | cons r rs ih =>
    have hp := plain_route r
    have hroute : KeepsHw (routeQueue r) g := (keepsHw_readHw hp.1.unshared).bind fun _ =>
      (keepsHw_writeHw hp.1).bind fun _ => keepsHw_writeHw hp.2
    exact hroute.bind fun _ => ih

theorem keepsHw_readEepromId (hg : Settled g) : KeepsHw readEepromId g := by
  refine (keepsHw_readEepromInto hg _ _).bind fun _ => (keepsHw_readEepromInto hg _ _).bind fun _ => ?_
  refine (keepsHw_readEepromInto hg _ _).bind fun _ => KeepsHw.ite ?_ (keepsHw_pure _)
  refine (keepsHw_readEepromInto hg _ _).bind fun _ => (keepsHw_readEepromInto hg _ _).bind fun _ => ?_
  exact keepsHw_pure _

theorem keepsHw_disableTxLaser : KeepsHw disableTxLaser g :=
  keepsHw_state fun _ => KeepsHw.ite (keepsHw_laser _) (keepsHw_pure _)

theorem keepsHw_enableTxLaser : KeepsHw enableTxLaser g :=
  keepsHw_state fun _ => KeepsHw.ite (keepsHw_laser _) (keepsHw_pure _)

theorem keepsHw_probeStart (hg : Settled g) : KeepsHw probeStart g := by
  refine keepsHw_state fun hw => KeepsHw.ite (keepsHw_pure _) ((keepsHw_readEepromId hg).bind fun _ => ?_)
  refine (keepsHw_startHw82599 hg).bind fun _ => keepsHw_disableTxLaser.bind fun _ => ?_
  refine (keepsHw_readPbaString hg _).bind fun _ => (keepsHw_setFwDrvVer hg _ _ _ _).bind fun _ => ?_
  exact keepsHw_pure _

theorem keepsHw_probePort (hg : Settled g) (deviceId : BitVec 16) (fuel : ℕ) :
    KeepsHw (probePort deviceId fuel) g := by
  refine (keepsHw_swInit _).bind fun _ => (keepsHw_resetHw hg).bind fun _ => KeepsHw.ite (keepsHw_pure _) ?_
  refine (keepsHw_validateChecksum hg fuel).bind fun r => ?_
  cases r with
  | none => exact keepsHw_pure _
  | some r => exact KeepsHw.ite (keepsHw_pure _) ((keepsHw_probeStart hg).bind fun _ => keepsHw_pure _)

theorem keepsHw_upPort (hg : Settled g) (routes : List Route) : KeepsHw (upPort routes) g := by
  refine (keepsHw_update (by decide) _).bind fun _ => ?_
  have hgpie : KeepsHw ixmapSetupGpie g := (keepsHw_writeHw (by decide)).bind fun _ =>
    (keepsHw_writeHw (by decide)).bind fun _ => (keepsHw_writeHw (by decide)).bind fun _ => keepsHw_writeHw (by decide)
  refine hgpie.bind fun _ => (keepsHw_routeQueues routes).bind fun _ => keepsHw_enableTxLaser.bind fun _ => ?_
  refine (keepsHw_setupMacLink hg _ _).bind fun _ => keepsHw_setupFc.bind fun _ => ?_
  exact (keepsHw_readHw (by decide)).bind fun _ => keepsHw_pure _

theorem keepsHw_resetPort (hg : Settled g) : KeepsHw resetPort g :=
  (keepsHw_initHw hg).bind fun _ => keepsHw_pure _

theorem keepsHw_downPort (hg : Settled g) (offline : Bool) : KeepsHw (downPort offline) g := by
  refine (keepsHw_writeHw (by decide)).bind fun _ => (keepsHw_writeHw (by decide)).bind fun _ => ?_
  refine (keepsHw_writeHw (by decide)).bind fun _ => keepsHw_flushHw.bind fun _ => ?_
  refine (keepsHw_writeHw (by decide)).bind fun _ => (keepsHw_readHw (by decide)).bind fun _ => ?_
  refine (keepsHw_writeHw (by decide)).bind fun _ => ?_
  have hreset : KeepsHw (resetOnline offline) g := KeepsHw.ite (keepsHw_pure _) (keepsHw_resetPort hg)
  exact hreset.bind fun _ => keepsHw_disableTxLaser.bind fun _ => keepsHw_update (by decide) _

theorem keepsHw_driverOp (hg : Settled g) (op : DriverOp) : KeepsHw (driverOp op) g := by
  cases op with
  | probe deviceId fuel => exact keepsHw_probePort hg deviceId fuel
  | up routes => exact (keepsHw_upPort hg routes).bind fun _ => keepsHw_pure _
  | down offline => exact (keepsHw_downPort hg offline).bind fun _ => keepsHw_pure _
  | reset => exact (keepsHw_resetPort hg).bind fun _ => keepsHw_pure _
  | checkLink => exact (keepsHw_checkMacLink _).bind fun _ => keepsHw_pure _

/-- A driver that has run any list of operations owns what it owned before. -/
theorem keepsHw_driverOps (hg : Settled g) (ops : List DriverOp) : KeepsHw (driverOps ops) g := by
  induction ops with
  | nil => exact keepsHw_pure _
  | cons op ops ih =>
    refine (keepsHw_driverOp hg op).bind fun r => ?_
    cases r with
    | none => exact keepsHw_pure _
    | some status => exact ih

end

end Hw
end Ixmap
