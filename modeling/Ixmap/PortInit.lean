import Ixmap.Adapter
import Ixmap.RegShadow

/-! How the library brings up a port: `ixmap_configure_rx` of `lib/rxinit.c`, `ixmap_configure_tx` of
`lib/txinit.c` and `ixmap_irq_enable` of `lib/ixmap.c`, in the order in which `main` calls them. Registers and
bits have their names from the headers of these files, without `IXGBE_`. -/
namespace Ixmap
namespace PortInit
open RegProgram

/-- A register of a queue: `_i * 0x40` behind that of queue 0. `RDBAL` and `TDBAL`, and so on to `RXDCTL` and
`TXDCTL`, lie at the same offsets from two bases. -/
def queueReg (base offset i : ℕ) : ℕ := base+offset+i*0x40

def rxBase : ℕ := 0x01000
def txBase : ℕ := 0x06000

def balReg (base i : ℕ) : ℕ := queueReg base 0x00 i
def bahReg (base i : ℕ) : ℕ := queueReg base 0x04 i
def lenReg (base i : ℕ) : ℕ := queueReg base 0x08 i
def headReg (base i : ℕ) : ℕ := queueReg base 0x10 i
def tailReg (base i : ℕ) : ℕ := queueReg base 0x18 i
def dctlReg (base i : ℕ) : ℕ := queueReg base 0x28 i
def tdwbalReg (i : ℕ) : ℕ := queueReg txBase 0x38 i
def tdwbahReg (i : ℕ) : ℕ := queueReg txBase 0x3c i
def srrctlReg (i : ℕ) : ℕ := 0x02100+i*4

def statusReg : ℕ := 0x00008
def eimsReg : ℕ := 0x00880
def eimsExReg (i : ℕ) : ℕ := 0x00AA0+i*4
def rdrxctlReg : ℕ := 0x02F00
def rxctrlReg : ℕ := 0x03000
def rscdbuReg : ℕ := 0x03028
def hlreg0Reg : ℕ := 0x04240
def mhaddReg : ℕ := 0x04268
def rttdcsReg : ℕ := 0x04900
def dmatxctlReg : ℕ := 0x04A80
def rxcsumReg : ℕ := 0x05000
def rfctlReg : ℕ := 0x05008
def fctrlReg : ℕ := 0x05080
def vlnctrlReg : ℕ := 0x05088
def psrtypeReg : ℕ := 0x05480
def mrqcReg : ℕ := 0x05818
def retaReg (i : ℕ) : ℕ := 0x05C00+i*4
def rssrkReg (i : ℕ) : ℕ := 0x05C80+i*4
def mtqcReg : ℕ := 0x08120
def pfdtxgswcReg : ℕ := 0x08220
def vmolrReg : ℕ := 0x0F000

def rxctrlRxen : BitVec 32 := 0x00000001#32
def dctlEnable : BitVec 32 := 0x02000000#32
def dmatxctlTe : BitVec 32 := 0x1#32
def rttdcsArbdis : BitVec 32 := 0x00000040#32

/-- What is printed when a poll has used up its attempts. The two polls of a receive queue have one text. -/
inductive Note where
  | rxQueue (regIdx : ℕ)
  | txQueue (regIdx : ℕ)
deriving DecidableEq, Repr

abbrev PortProg := Prog ℕ (BitVec 32) Note

/-- What `ixmap_open` and `ixmap_desc_alloc` have left in `struct ixmap_handle`. -/
structure Layout where
  numQueues : ℕ
  numRxDesc : BitVec 32
  numTxDesc : BitVec 32
  numInterruptRate : BitVec 16
  promisc : Bool
  /-- `rx_ring[i].addr_dma`. -/
  rxDma : ℕ → BitVec 64
  /-- `tx_ring[i].addr_dma`. -/
  txDma : ℕ → BitVec 64
  /-- `IXMAP_INFO` reports no more queues than this, and `ixmap_open` takes the minimum. -/
  queues : numQueues ≤ Kmod.maxRssIndices

structure Handle extends Layout where
  mtuFrame : BitVec 32
  bufSize : BitVec 32
  /-- `rx_ring[i].tail`, as an offset into the BAR. -/
  rxTail : ℕ → Option ℕ
  txTail : ℕ → Option ℕ

def ixmapWriteFlush : PortProg Unit := do
  let _ ← readReg statusReg
  pure ()

def ixmapSetRxMode (ih : Layout) : PortProg Unit := do
  let fctrl ← readReg fctrlReg
  let vlnctrl ← readReg vlnctrlReg
  -- BAM, DPF and PMCF on, UPE and MPE off
  let fctrl := (fctrl ||| 0x400#32 ||| 0x2000#32 ||| 0x1000#32) &&& ~~~(0x200#32 ||| 0x100#32)
  let vlnctrl := vlnctrl &&& ~~~(0x40000000#32 ||| 0x20000000#32)
  -- MPE comes back in either mode
  let fctrl := if ih.promisc then fctrl ||| (0x200#32 ||| 0x100#32) else fctrl ||| 0x100#32
  let vmolr := 0x08000000#32 ||| 0x01000000#32 ||| 0x10000000#32
  let old ← readReg vmolrReg
  writeReg vmolrReg (vmolr ||| old &&& ~~~(0x10000000#32 ||| 0x02000000#32 ||| 0x04000000#32))
  writeReg vlnctrlReg vlnctrl
  writeReg fctrlReg fctrl

def ixmapDisableRx : PortProg Unit := do
  let rxctrl ← readReg rxctrlReg
  if rxctrl &&& rxctrlRxen ≠ 0#32 then do
    let _ ← readReg pfdtxgswcReg
    writeReg rxctrlReg (rxctrl &&& ~~~rxctrlRxen)
  else pure ()

def ixmapEnableRx : PortProg Unit := do
  let rxctrl ← readReg rxctrlReg
  writeReg rxctrlReg (rxctrl ||| rxctrlRxen)

def ixmapSetupPsrtype (ih : Layout) : PortProg Unit :=
  let psrtype := 0x10#32 ||| 0x20#32 ||| 0x100#32 ||| 0x1000#32 ||| 0x200#32
  writeReg psrtypeReg (if 3 < ih.numQueues then psrtype ||| 2#32 <<< 29
    else if 1 < ih.numQueues then psrtype ||| 1#32 <<< 29 else psrtype)

def ixmapSetupRdrxctl : PortProg Unit := do
  let rdrxctl ← readReg rdrxctlReg
  let rscdbu ← readReg rscdbuReg
  writeReg rscdbuReg (0x80#32 ||| rscdbu)
  writeReg rdrxctlReg (rdrxctl &&& ~~~0x003E0000#32 ||| 0x2#32)

def ixmapSetupRfctl : PortProg Unit := do
  let rfctl ← readReg rfctlReg
  writeReg rfctlReg (rfctl ||| 0x20#32)

def seeds : List (BitVec 32) :=
  [0xE291D73D#32,0x1805EC6C#32,0x2A94B30D#32,0xA54F2BEC#32,0xEA49AF7C#32,0xE214AD3D#32,0xB855AABE#32,0x6A3E67EA#32,
    0x14364D17#32,0x3BED200D#32]

def writeSeeds : ℕ → List (BitVec 32) → PortProg Unit
  | _, [] => pure ()
  | i, seed::rest => do
    writeReg (rssrkReg i) seed
    writeSeeds (i+1) rest

/-- Every fourth entry completes a register. -/
def storeReta (i : ℕ) (reta : BitVec 32) : PortProg Unit :=
  if i &&& 3 = 3 then if i < 128 then writeReg (retaReg (i >>> 2)) reta else pure () else pure ()

/-- The loop over the redirection table from entry `i` on, with `j` for the queue. -/
def fillReta (numQueues : ℕ) : ℕ → ℕ → ℕ → BitVec 32 → PortProg Unit
  | 0, _, _, _ => pure ()
  | left+1, i, j, reta => do
    let j := if j = numQueues then 0 else j
    let reta := reta <<< 8 ||| BitVec.ofNat 32 j
    storeReta i reta
    fillReta numQueues left (i+1) (j+1) reta

def ixmapSetupMrqc (ih : Layout) : PortProg Unit := do
  writeSeeds 0 seeds
  fillReta ih.numQueues 128 0 0 0#32
  let rxcsum ← readReg rxcsumReg
  writeReg rxcsumReg (rxcsum ||| 0x2000#32)
  writeReg mrqcReg (0x1#32 ||| (0x00020000#32 ||| 0x00010000#32 ||| 0x00400000#32 ||| 0x00100000#32 ||| 0x00200000#32 |||
    0x00800000#32))

def align1k (x : BitVec 32) : BitVec 32 := (x+1023#32) &&& ~~~1023#32

/-- The frame size goes to MHADD when it is another one. -/
def setMfs (mhadd mtu : BitVec 32) : PortProg Unit :=
  if mtu ≠ mhadd >>> 16 then writeReg mhaddReg (mhadd &&& ~~~0xFFFF0000#32 ||| mtu <<< 16) else pure ()

def ixmapSetRxBufferLen (ih : Handle) : PortProg Handle := do
  let mtu := if ih.mtuFrame < 1518#32 then 1518#32 else ih.mtuFrame
  let mhadd ← readReg mhaddReg
  setMfs mhadd mtu
  let mtu := mtu+4#32
  let size := align1k mtu
  let size := if 16384#32 < size then 16384#32 else size
  let hlreg0 ← readReg hlreg0Reg
  writeReg hlreg0Reg (hlreg0 ||| 0x4#32)
  pure { ih with mtuFrame := mtu, bufSize := size }

/-- `do … while (--wait_loop && again)`: whether the attempts are used up. -/
def poll (reg : ℕ) (again : BitVec 32 → Bool) : ℕ → PortProg Bool
  | 0 => pure true
  | left+1 => do
    let v ← readReg reg
    if left ≠ 0 ∧ again v then poll reg again left else pure (decide (left = 0))

/-- The message is printed even when the last attempt was the good one. -/
def pollOrNote (reg : ℕ) (again : BitVec 32 → Bool) (note : Note) : PortProg Unit := do
  let expired ← poll reg again 10
  if expired then point note else pure ()

def ixmapDisableRxQueue (regIdx : ℕ) : PortProg Unit := do
  let rxdctl ← readReg (dctlReg rxBase regIdx)
  writeReg (dctlReg rxBase regIdx) (rxdctl &&& ~~~dctlEnable)
  pollOrNote (dctlReg rxBase regIdx) (fun v => v &&& dctlEnable ≠ 0#32) (.rxQueue regIdx)

def ixmapConfigureSrrctl (ih : Handle) (regIdx : ℕ) : PortProg Unit :=
  let srrctl := align1k ih.bufSize >>> 10 ||| 0x02000000#32
  writeReg (srrctlReg regIdx) (if 1 < ih.numQueues then srrctl ||| 0x10000000#32 else srrctl)

def ixmapRxDescQueueEnable (regIdx : ℕ) : PortProg Unit :=
  pollOrNote (dctlReg rxBase regIdx) (fun v => v &&& dctlEnable = 0#32) (.rxQueue regIdx)

/-- The address of the ring goes to two registers. -/
def ixmapConfigureRxRing (ih : Handle) (regIdx ring : ℕ) : PortProg Handle := do
  let rxdctl ← readReg (dctlReg rxBase regIdx)
  ixmapDisableRxQueue regIdx
  writeReg (balReg rxBase regIdx) ((ih.rxDma ring).setWidth 32)
  writeReg (bahReg rxBase regIdx) ((ih.rxDma ring >>> 32).setWidth 32)
  writeReg (lenReg rxBase regIdx) (ih.numRxDesc*16#32)
  writeReg (headReg rxBase regIdx) 0#32
  writeReg (tailReg rxBase regIdx) 0#32
  ixmapConfigureSrrctl ih regIdx
  writeReg (dctlReg rxBase regIdx) (rxdctl ||| dctlEnable)
  ixmapRxDescQueueEnable regIdx
  pure { ih with rxTail := Function.update ih.rxTail ring (some (tailReg rxBase regIdx)) }

/-- The loop over the receive queues; `reg_idx` is a `uint8_t`. -/
def configureRxRings : ℕ → ℕ → Handle → PortProg Handle
  | 0, _, ih => pure ih
  | left+1, i, ih => do
    let ih ← ixmapConfigureRxRing ih (i%2^8) i
    configureRxRings left (i+1) ih

def ixmapConfigureRx (ih : Handle) : PortProg Handle := do
  ixmapSetRxMode ih.toLayout
  ixmapDisableRx
  ixmapSetupPsrtype ih.toLayout
  ixmapSetupRdrxctl
  ixmapSetupRfctl
  ixmapSetupMrqc ih.toLayout
  let ih ← ixmapSetRxBufferLen ih
  let ih ← configureRxRings ih.numQueues 0 ih
  ixmapEnableRx
  pure ih

def ixmapSetupMtqc : PortProg Unit := do
  let rttdcs ← readReg rttdcsReg
  writeReg rttdcsReg (rttdcs ||| rttdcsArbdis)
  writeReg mtqcReg 0#32
  writeReg rttdcsReg ((rttdcs ||| rttdcsArbdis) &&& ~~~rttdcsArbdis)

/-- WTHRESH, HTHRESH and PTHRESH beside the enable bit. -/
def txdctlValue (numInterruptRate : BitVec 16) : BitVec 32 :=
  let txdctl := if numInterruptRate < 8#16 then dctlEnable ||| 1#32 <<< 16 else dctlEnable ||| 8#32 <<< 16
  txdctl ||| (1#32 <<< 8 ||| 32#32)

def ixmapConfigureTxRing (ih : Handle) (regIdx ring : ℕ) : PortProg Handle := do
  -- SWFLSH
  writeReg (dctlReg txBase regIdx) 0x04000000#32
  ixmapWriteFlush
  writeReg (balReg txBase regIdx) ((ih.txDma ring).setWidth 32)
  writeReg (bahReg txBase regIdx) ((ih.txDma ring >>> 32).setWidth 32)
  writeReg (lenReg txBase regIdx) (ih.numTxDesc*16#32)
  writeReg (tdwbahReg regIdx) 0#32
  writeReg (tdwbalReg regIdx) 0#32
  writeReg (headReg txBase regIdx) 0#32
  writeReg (tailReg txBase regIdx) 0#32
  writeReg (dctlReg txBase regIdx) (txdctlValue ih.numInterruptRate)
  pollOrNote (dctlReg txBase regIdx) (fun v => v &&& dctlEnable = 0#32) (.txQueue regIdx)
  pure { ih with txTail := Function.update ih.txTail ring (some (tailReg txBase regIdx)) }

def configureTxRings : ℕ → ℕ → Handle → PortProg Handle
  | 0, _, ih => pure ih
  | left+1, i, ih => do
    let ih ← ixmapConfigureTxRing ih (i%2^8) i
    configureTxRings left (i+1) ih

def ixmapConfigureTx (ih : Handle) : PortProg Handle := do
  ixmapSetupMtqc
  let dmatxctl ← readReg dmatxctlReg
  writeReg dmatxctlReg (dmatxctl ||| dmatxctlTe)
  configureTxRings ih.numQueues 0 ih

/-- A half of the mask without a bit is not written. -/
def enableHalf (i : ℕ) (mask : BitVec 32) : PortProg Unit :=
  if mask ≠ 0#32 then writeReg (eimsExReg i) mask else pure ()

def ixmapIrqEnableQueues (qmask : BitVec 64) : PortProg Unit := do
  enableHalf 0 (qmask.setWidth 32)
  enableHalf 1 ((qmask >>> 32).setWidth 32)

/-- All causes other than those of the queues are taken out of the mask of `EIMS`. -/
def ixmapIrqEnable : PortProg Unit := do
  let mask := (0x0000FFFF#32 ||| 0x00100000#32 ||| 0x40000000#32 ||| 0x80000000#32) &&& ~~~0x0000FFFF#32
  writeReg eimsReg (mask &&& ~~~0x00100000#32 &&& ~~~0x40000000#32 &&& ~~~0x80000000#32)
  ixmapIrqEnableQueues (~~~0#64)
  ixmapWriteFlush

/-- What `main` does for each port. -/
def bringUp (ih : Handle) : PortProg Handle := do
  let ih ← ixmapConfigureRx ih
  let ih ← ixmapConfigureTx ih
  ixmapIrqEnable
  pure ih

end PortInit
end Ixmap
