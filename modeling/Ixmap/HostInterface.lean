import Ixmap.EepromRead
import Ixmap.HwState

/-! The host interface of `kmod/ixmap_common.c`: command blocks for the firmware, and the one that tells it the
driver's version. -/
namespace Ixmap
namespace Hw
open RegProgram

def errHostInterfaceCommand : ℤ := -33

def flexMngReg (i : ℕ) : Reg := .bar (0x15800+i*4)

def hicrEn : BitVec 32 := 0x01#32
def hicrC : BitVec 32 := 0x02#32
def hicrSv : BitVec 32 := 0x04#32

def ixmapCalculateChecksum (buffer : List (BitVec 8)) : BitVec 8 := 0#8-buffer.foldl (·+·) 0#8

/-- Until the command bit goes away; `false` after `IXGBE_HI_COMMAND_TIMEOUT` reads. -/
def pollCommand : ℕ → HwM Bool
  | 0 => pure false
  | left+1 => do
    let hicr ← readHw hicrReg
    if hicr &&& hicrC = 0#32 then pure true else pollCommand left

/-- The answer of the firmware, double words `bi` and up, with the indices of the buffer they go to. -/
def pullBuffer : ℕ → ℕ → List (ℕ × BitVec 32) → HwM (List (ℕ × BitVec 32))
  | 0, _, writes => pure writes
  | left+1, bi, writes => do
    let v ← readHw (flexMngReg bi)
    pullBuffer left (bi+1) (writes++[(bi,v)])

def hdrBufLen (v : BitVec 32) : BitVec 8 := (v >>> 8).setWidth 8

def hdrRetStatus (v : BitVec 32) : BitVec 8 := (v >>> 16).setWidth 8

/-- The answer: its header first, and what the header announces. The counters have 8 bits. -/
def readAnswer (length : BitVec 32) : HwM (ℤ × List (ℕ × BitVec 32)) := do
  let hdr ← readHw (flexMngReg 0)
  let bufLen := (hdrBufLen hdr).toNat
  if bufLen = 0 then pure (0,[(0,hdr)])
  else if length.toNat < bufLen+4 then pure (errHostInterfaceCommand,[(0,hdr)])
  else
    let writes ← pullBuffer (((bufLen+3) >>> 2)%2^8) 1 [(0,hdr)]
    pure (0,writes)

/-- The status and the writes to the buffer. The number of double words is kept in 8 bits. -/
def ixmapHostInterfaceCommand (buffer : List (BitVec 32)) (length : BitVec 32) : HwM (ℤ × List (ℕ × BitVec 32)) :=
  if length = 0#32 ∨ length &&& 0x3#32 ≠ 0#32 ∨ 1792#32 < length then pure (errHostInterfaceCommand,[])
  else do
    let hicr ← readHw hicrReg
    if hicr &&& hicrEn = 0#32 then pure (errHostInterfaceCommand,[])
    else
      let dwordLen := ((length >>> 2).setWidth 8).toNat
      loopFrom (fun i => writeHw (flexMngReg i) (buffer.getD i 0#32)) dwordLen 0
      writeHw hicrReg (hicr ||| hicrC)
      let done ← pollCommand 500
      if done then
        let hicr ← readHw hicrReg
        if hicr &&& hicrSv = 0#32 then pure (errHostInterfaceCommand,[]) else readAnswer length
      else pure (errHostInterfaceCommand,[])

structure DrvInfo where
  cmd : BitVec 8
  bufLen : BitVec 8
  cmdResv : BitVec 8
  checksum : BitVec 8
  portNum : BitVec 8
  verSub : BitVec 8
  verBuild : BitVec 8
  verMin : BitVec 8
  verMaj : BitVec 8
  pad : BitVec 8
  pad2 : BitVec 16
deriving DecidableEq, Repr

/-- The bytes that the checksum covers. -/
def DrvInfo.bytes (c : DrvInfo) : List (BitVec 8) :=
  [c.cmd,c.bufLen,c.cmdResv,c.checksum,c.portNum,c.verSub,c.verBuild,c.verMin,c.verMaj]

def dwordOf (b0 b1 b2 b3 : BitVec 8) : BitVec 32 := b3 ++ b2 ++ b1 ++ b0

def DrvInfo.dwords (c : DrvInfo) : List (BitVec 32) :=
  [dwordOf c.cmd c.bufLen c.cmdResv c.checksum,dwordOf c.portNum c.verSub c.verBuild c.verMin,
    dwordOf c.verMaj c.pad (c.pad2.setWidth 8) ((c.pad2 >>> 8).setWidth 8)]

def drvInfo (func : BitVec 16) (maj min build sub : BitVec 8) : DrvInfo :=
  let c : DrvInfo := ⟨0xdd#8,0x5#8,0x0#8,0#8,func.setWidth 8,sub,build,min,maj,0#8,0#16⟩
  { c with checksum := ixmapCalculateChecksum c.bytes }

def applyWrites (buffer : List (BitVec 32)) (writes : List (ℕ × BitVec 32)) : List (BitVec 32) :=
  writes.foldl (fun b w => b.set w.1 w.2) buffer

/-- A retry sends what the last answer has left in the buffer. -/
def sendDrvInfo : ℕ → ℤ → List (BitVec 32) → HwM ℤ
  | 0, retVal, _ => pure retVal
  | left+1, _, buffer => do
    let r ← ixmapHostInterfaceCommand buffer 12#32
    let buffer := applyWrites buffer r.2
    if r.1 ≠ 0 then sendDrvInfo left r.1 buffer
    else pure (if hdrRetStatus (buffer.getD 0 0#32) = 0x1#8 then 0 else errHostInterfaceCommand)

def ixmapSetFwDrvVer (maj min build sub : BitVec 8) : HwM ℤ := do
  let status ← acquireSwfwSync gssrSwMngSm
  if status ≠ 0 then pure errSwfwSync
  else
    let hw ← get
    let retVal ← sendDrvInfo 4 0 (drvInfo hw.bus.func maj min build sub).dwords
    releaseSwfwSync gssrSwMngSm
    pure retVal

section
variable {g : Own}

theorem mng_swBits : bitsOf gssrSwMngSm ⊆ swBits := by
  intro n hn
  have hall : ∀ k < 16, gssrSwMngSm.getLsbD k = true → k < 5 ∨ k = 10 := by decide
  exact hall n (BitVec.lt_of_getLsbD hn) hn

theorem mng_claimed : 10 ∈ (g.taken gssrSwMngSm).claimed := Or.inr (by decide : gssrSwMngSm.getLsbD 10 = true)

theorem keepsHw_writeMng {offset : ℕ} (h : 10 ∈ g.claimed) (h0 : 0x15800 ≤ offset) (h1 : offset ≤ 0x15f00)
    (v : BitVec 32) : KeepsHw (writeHw (.bar offset) v) g := by
  refine keepsHw_lift (keeps_writeReg ?_ ?_ fun n hn => ?_)
  · intro hr
    have := Reg.bar.inj hr
    omega
  · intro hr
    have := Reg.bar.inj hr
    omega
  · simp only [guardOf] at hn
    rw [if_neg (by omega),if_neg (by omega),if_pos ⟨h0,h1⟩] at hn
    rw [← Option.some_inj.mp hn]
    exact h

theorem keepsHw_readMng {offset : ℕ} (h0 : 0x15800 ≤ offset) : KeepsHw (readHw (.bar offset)) g := by
  refine keepsHw_readHw ⟨?_,?_⟩
  · intro hr
    have := Reg.bar.inj hr
    omega
  · intro hr
    have := Reg.bar.inj hr
    omega

theorem keepsHw_pollCommand (n : ℕ) : KeepsHw (pollCommand n) g := by
  induction n with
  | zero => exact keepsHw_pure _
  | succ n ih => exact (keepsHw_readHw (by decide)).bind fun _ => KeepsHw.ite (keepsHw_pure _) ih

theorem keepsHw_pullBuffer (n bi : ℕ) (writes : List (ℕ × BitVec 32)) : KeepsHw (pullBuffer n bi writes) g := by
  induction n generalizing bi writes with
  | zero => exact keepsHw_pure _
  | succ n ih => exact (keepsHw_readMng (by omega)).bind fun _ => ih _ _

theorem keepsHw_readAnswer (length : BitVec 32) : KeepsHw (readAnswer length) g := by
  refine (keepsHw_readMng (by omega)).bind fun _ => KeepsHw.ite (keepsHw_pure _) (KeepsHw.ite (keepsHw_pure _) ?_)
  exact (keepsHw_pullBuffer _ _ _).bind fun _ => keepsHw_pure _

theorem keepsHw_hostInterfaceCommand (h : 10 ∈ g.claimed) (buffer : List (BitVec 32)) (length : BitVec 32) :
    KeepsHw (ixmapHostInterfaceCommand buffer length) g := by
  refine KeepsHw.ite (keepsHw_pure _) ((keepsHw_readHw (by decide)).bind fun hicr => KeepsHw.ite (keepsHw_pure _) ?_)
  refine (keepsHw_loopFrom fun i _ hi => ?_).bind fun _ => ?_
  · have := ((length >>> 2).setWidth 8).isLt
    exact keepsHw_writeMng h (by omega) (by omega) _
  refine (keepsHw_writeMng h (by decide) (by decide) _).bind fun _ => (keepsHw_pollCommand _).bind fun _ => ?_
  refine KeepsHw.ite ((keepsHw_readHw (by decide)).bind fun _ => ?_) (keepsHw_pure _)
  exact KeepsHw.ite (keepsHw_pure _) (keepsHw_readAnswer _)

theorem keepsHw_sendDrvInfo (h : 10 ∈ g.claimed) (n : ℕ) (retVal : ℤ) (buffer : List (BitVec 32)) :
    KeepsHw (sendDrvInfo n retVal buffer) g := by
  induction n generalizing retVal buffer with
  | zero => exact keepsHw_pure _
  | succ n ih =>
    exact (keepsHw_hostInterfaceCommand h _ _).bind fun _ => KeepsHw.ite (ih _ _) (keepsHw_pure _)

theorem keepsHw_setFwDrvVer (hg : Settled g) (maj min build sub : BitVec 8) :
    KeepsHw (ixmapSetFwDrvVer maj min build sub) g := by
  refine hg.section mng_swBits (fun status hst => ?_) fun hd => ?_
  · rw [if_pos hst]
    exact keepsHw_pure _
  rw [if_neg (not_not.mpr rfl)]
  refine keepsHw_get.then fun hw => (keepsHw_sendDrvInfo mng_claimed _ _ _).then fun retVal => ?_
  exact hg.leave hd (keepsHw_pure _)

end

/-- All writes go to the first `size` double words. -/
def Inside (size : ℕ) (writes : List (ℕ × BitVec 32)) : Prop := ∀ w ∈ writes, w.1 < size

theorem inside_header {size : ℕ} {v : BitVec 32} (h : 0 < size) : Inside size [(0,v)] := by
  intro w hw
  rw [List.mem_singleton.mp hw]
  exact h

theorem alwaysHw_pullBuffer {size : ℕ} (n bi : ℕ) (writes : List (ℕ × BitVec 32)) (h : bi+n ≤ size)
    (hw : Inside size writes) : AlwaysHw (Inside size) (pullBuffer n bi writes) := by
  induction n generalizing bi writes with
  | zero => exact alwaysHw_pure hw
  | succ n ih =>
    refine alwaysHw_bind fun v => ih (bi+1) _ (by omega) fun w hmem => ?_
    rcases List.mem_append.mp hmem with hmem | hmem
    · exact hw w hmem
    · rw [List.mem_singleton.mp hmem]
      change bi < size
      omega

/-- An answer that fails has changed the header at most. -/
def AnswerFits (length : BitVec 32) (r : ℤ × List (ℕ × BitVec 32)) : Prop :=
  Inside (length.toNat/4) r.2 ∧ (r.1 ≠ 0 → Inside 1 r.2)

theorem alwaysHw_readAnswer {length : BitVec 32} (h0 : length ≠ 0#32) (h3 : length &&& 0x3#32 = 0#32) :
    AlwaysHw (AnswerFits length) (readAnswer length) := by
  have hmod : length.toNat%4 = 0 := by
    have h := congrArg BitVec.toNat h3
    rwa [BitVec.toNat_and,show (0x3#32).toNat = 2^2-1 from rfl,Nat.and_two_pow_sub_one_eq_mod] at h
  have hpos : length.toNat ≠ 0 := fun h => h0 (BitVec.eq_of_toNat_eq h)
  refine alwaysHw_bind fun hdr => ?_
  have hhdr : AnswerFits length (errHostInterfaceCommand,[(0,hdr)]) :=
    ⟨inside_header (by omega),fun _ => inside_header Nat.one_pos⟩
  refine AlwaysHw.ite (fun _ => alwaysHw_pure ⟨hhdr.1,fun h => absurd rfl h⟩) fun _ => ?_
  refine AlwaysHw.ite (fun _ => alwaysHw_pure hhdr) fun hlen => ?_
  have hcount : ((hdrBufLen hdr).toNat+3) >>> 2%2^8 ≤ ((hdrBufLen hdr).toNat+3)/4 := by
    rw [Nat.shiftRight_eq_div_pow]
    exact Nat.mod_le _ _
  refine (alwaysHw_pullBuffer _ 1 _ (by omega) hhdr.1).bind fun writes hw => ?_
  exact alwaysHw_pure ⟨hw,fun h => absurd rfl h⟩

theorem alwaysHw_hostInterfaceCommand (buffer : List (BitVec 32)) (length : BitVec 32) :
    AlwaysHw (AnswerFits length) (ixmapHostInterfaceCommand buffer length) := by
  have hnil : AlwaysHw (AnswerFits length) (pure (errHostInterfaceCommand,[])) :=
    alwaysHw_pure ⟨fun w hw => absurd hw List.not_mem_nil,fun _ w hw => absurd hw List.not_mem_nil⟩
  refine AlwaysHw.ite (fun _ => hnil) fun hlen => alwaysHw_bind fun _ => AlwaysHw.ite (fun _ => hnil) fun _ => ?_
  rw [not_or,not_or,not_not] at hlen
  refine alwaysHw_bind fun _ => alwaysHw_bind fun _ => alwaysHw_bind fun done => ?_
  refine AlwaysHw.ite (fun _ => alwaysHw_bind fun _ => ?_) fun _ => hnil
  exact AlwaysHw.ite (fun _ => hnil) fun _ => alwaysHw_readAnswer hlen.1 hlen.2.1

/-- Whatever the firmware answers, a command's answer stays inside of the buffer of the command, and one that
fails has changed the header at most: a retry sends the same payload. -/
theorem hostInterfaceCommand_inside {σ : Type} (dev : Device Reg (BitVec 32) σ) (st : σ) (hw : IxmapHw)
    (buffer : List (BitVec 32)) (length : BitVec 32) :
    AnswerFits length (run dev (ixmapHostInterfaceCommand buffer length hw) st).1.1 :=
  (alwaysHw_hostInterfaceCommand buffer length hw).run dev st

/-- The command block, the control register, and what the firmware has been told. -/
structure HostFw where
  block : ℕ → BitVec 32
  hicr : BitVec 32
  told : Option DrvInfo

def byteOf (v : BitVec 32) (k : ℕ) : BitVec 8 := (v >>> (8*k)).setWidth 8

/-- The block as the firmware reads it. -/
def HostFw.command (f : HostFw) : DrvInfo where
  cmd := byteOf (f.block 0) 0
  bufLen := byteOf (f.block 0) 1
  cmdResv := byteOf (f.block 0) 2
  checksum := byteOf (f.block 0) 3
  portNum := byteOf (f.block 1) 0
  verSub := byteOf (f.block 1) 1
  verBuild := byteOf (f.block 1) 2
  verMin := byteOf (f.block 1) 3
  verMaj := byteOf (f.block 2) 0
  pad := byteOf (f.block 2) 1
  pad2 := byteOf (f.block 2) 3 ++ byteOf (f.block 2) 2

def answerHeader (status : BitVec 8) : BitVec 32 := dwordOf 0xdd#8 0#8 status 0#8

/-- A block whose bytes do not add up to zero is refused. -/
def HostFw.serve (f : HostFw) : HostFw :=
  if f.command.bytes.sum = 0#8 then
    { f with block := Function.update f.block 0 (answerHeader 0x1#8), hicr := hicrEn ||| hicrSv, told := some f.command }
  else { f with block := Function.update f.block 0 (answerHeader 0x0#8), hicr := hicrEn ||| hicrSv }

def hostFw : Device Reg (BitVec 32) HostFw where
  read f r := match r with
    | .bar offset => if offset = 0x15f00 then (f.hicr,f) else (f.block ((offset-0x15800)/4),f)
    | .cfg _ => (0#32,f)
  write f r v := match r with
    | .bar offset =>
      if offset = 0x15f00 then if v &&& hicrC ≠ 0#32 then f.serve else { f with hicr := v }
      else { f with block := Function.update f.block ((offset-0x15800)/4) v }
    | .cfg _ => f

theorem byteOf_dwordOf (b0 b1 b2 b3 : BitVec 8) : byteOf (dwordOf b0 b1 b2 b3) 0 = b0 ∧
    byteOf (dwordOf b0 b1 b2 b3) 1 = b1 ∧ byteOf (dwordOf b0 b1 b2 b3) 2 = b2 ∧ byteOf (dwordOf b0 b1 b2 b3) 3 = b3 := by
  refine ⟨?_,?_,?_,?_⟩
  all_goals
    apply BitVec.eq_of_getLsbD_eq
    intro i hi
    rw [byteOf,dwordOf,BitVec.getLsbD_setWidth,BitVec.getLsbD_ushiftRight]
    simp only [BitVec.getLsbD_append,hi,decide_true,Bool.true_and]
    interval_cases i <;> simp

theorem sum_checksum (l : List (BitVec 8)) : l.sum+ixmapCalculateChecksum l = 0#8 := by
  have hfold : l.foldl (·+·) 0#8 = l.sum := List.sum_eq_foldl.symm
  rw [ixmapCalculateChecksum,hfold,add_comm,BitVec.zero_sub]
  exact neg_add_cancel _

/-- The command that is built adds up to zero. -/
theorem drvInfo_sum (func : BitVec 16) (maj min build sub : BitVec 8) :
    (drvInfo func maj min build sub).bytes.sum = 0#8 := by
  have hsum := sum_checksum (DrvInfo.bytes ⟨0xdd#8,0x5#8,0x0#8,0#8,func.setWidth 8,sub,build,min,maj,0#8,0#16⟩)
  rw [← hsum]
  simp only [drvInfo,DrvInfo.bytes,List.sum_cons,List.sum_nil,BitVec.zero_add]
  ring

theorem command_of_dwords {f : HostFw} {c : DrvInfo} (h : ∀ i < 3, f.block i = c.dwords.getD i 0#32) : f.command = c := by
  have h0 : f.block 0 = dwordOf c.cmd c.bufLen c.cmdResv c.checksum := h 0 (by decide)
  have h1 : f.block 1 = dwordOf c.portNum c.verSub c.verBuild c.verMin := h 1 (by decide)
  have h2 : f.block 2 = dwordOf c.verMaj c.pad (c.pad2.setWidth 8) ((c.pad2 >>> 8).setWidth 8) := h 2 (by decide)
  obtain ⟨b00,b01,b02,b03⟩ := byteOf_dwordOf c.cmd c.bufLen c.cmdResv c.checksum
  obtain ⟨b10,b11,b12,b13⟩ := byteOf_dwordOf c.portNum c.verSub c.verBuild c.verMin
  obtain ⟨b20,b21,b22,b23⟩ := byteOf_dwordOf c.verMaj c.pad (c.pad2.setWidth 8) ((c.pad2 >>> 8).setWidth 8)
  rw [HostFw.command,h0,h1,h2,b00,b01,b02,b03,b10,b11,b12,b13,b20,b21,b22,b23,Nvm.word_of_halves]

section
variable {τ : Type} {m : Device Reg (BitVec 32) τ}

theorem nvm_mng {offset : ℕ} (h : 0x15800 ≤ offset) (d : Nvm τ) (v : BitVec 32) :
    (nvm m).read d (.bar offset) =
        ((m.read d.inner (.bar offset)).1,{ d with inner := (m.read d.inner (.bar offset)).2 }) ∧
      (nvm m).write d (.bar offset) v = { d with inner := m.write d.inner (.bar offset) v } := by
  have hne : ∀ k < 0x15800, Reg.bar offset ≠ .bar k := by
    intro k hk hr
    have := Reg.bar.inj hr
    omega
  have hregs : Reg.bar offset ≠ swsmReg ∧ Reg.bar offset ≠ gssrReg ∧ Reg.bar offset ≠ eecReg ∧
      Reg.bar offset ≠ eerdReg ∧ Reg.bar offset ≠ statusReg :=
    ⟨hne _ (by decide),hne _ (by decide),hne _ (by decide),hne _ (by decide),hne _ (by decide)⟩
  simp only [nvm,Nvm.read,Nvm.write,hregs,if_false,and_self]

end

/-- The block with double words `k` to `k+n` of the buffer in place. -/
def HostFw.loaded (f : HostFw) (buffer : List (BitVec 32)) (n k : ℕ) : HostFw :=
  { f with block := fun j => if k ≤ j ∧ j < k+n then buffer.getD j 0#32 else f.block j }

theorem run_loadBlock (buffer : List (BitVec 32)) (hw : IxmapHw) (n k : ℕ) (d : Nvm HostFw) (h : k+n ≤ 448) :
    run (nvm hostFw) (loopFrom (fun i => writeHw (flexMngReg i) (buffer.getD i 0#32)) n k hw) d =
      (((),hw),{ d with inner := d.inner.loaded buffer n k }) := by
  induction n generalizing k d with
  | zero =>
    have hsame : d.inner.loaded buffer 0 k = d.inner := by
      have hno : ∀ j, ¬(k ≤ j ∧ j < k+0) := fun j => by omega
      simp only [HostFw.loaded,hno,if_false]
    rw [hsame]
    rfl
  | succ n ih =>
    have hwrite : hostFw.write d.inner (flexMngReg k) (buffer.getD k 0#32) =
        { d.inner with block := Function.update d.inner.block k (buffer.getD k 0#32) } := by
      have hindex : (0x15800+k*4-0x15800)/4 = k := by omega
      simp only [hostFw,flexMngReg,show 0x15800+k*4 ≠ 0x15f00 by omega,if_false,hindex]
    have hload : HostFw.loaded { d.inner with block := Function.update d.inner.block k (buffer.getD k 0#32) } buffer n (k+1) =
        d.inner.loaded buffer (n+1) k := by
      simp only [HostFw.loaded,HostFw.mk.injEq,and_true]
      funext j
      by_cases hj : j = k
      · subst hj
        rw [if_neg (by omega),if_pos (by omega),Function.update_self]
      · rw [Function.update_of_ne hj]
        exact if_congr (by omega) rfl rfl
    have hd : (nvm hostFw).write d (flexMngReg k) (buffer.getD k 0#32) =
        { d with inner := hostFw.write d.inner (flexMngReg k) (buffer.getD k 0#32) } := (nvm_mng (Nat.le_add_right _ _) d _).2
    rw [loopFrom,run_hwBind,run_hwWrite,hd,hwrite,ih _ _ (by omega),hload]

theorem run_hostInterfaceCommand {d : Nvm HostFw} (hw : IxmapHw) {c : DrvInfo}
    (hen : d.inner.hicr &&& hicrEn ≠ 0#32) (hsum : c.bytes.sum = 0#8) : ∃ block,
      run (nvm hostFw) (ixmapHostInterfaceCommand c.dwords 12#32 hw) d =
        (((0,[(0,answerHeader 0x1#8)]),hw),{ d with inner := ⟨block,hicrEn ||| hicrSv,some c⟩ }) := by
  have hc : (d.inner.loaded c.dwords 3 0).command = c := by
    refine command_of_dwords fun i hi => ?_
    exact if_pos ⟨Nat.zero_le i,by omega⟩
  have hcmd : (d.inner.hicr ||| hicrC) &&& hicrC ≠ 0#32 := by
    rw [ne_eq]
    refine (and_twoPow_eq_zero _ (n := 1) (by decide)).not.mpr ?_
    rw [BitVec.getLsbD_or]
    simp [hicrC]
  refine ⟨Function.update (d.inner.loaded c.dwords 3 0).block 0 (answerHeader 0x1#8),?_⟩
  obtain ⟨f,hf⟩ : ∃ f : HostFw, f = ⟨Function.update (d.inner.loaded c.dwords 3 0).block 0 (answerHeader 0x1#8),
    hicrEn ||| hicrSv,some c⟩ := ⟨_,rfl⟩
  have hserve : hostFw.write (d.inner.loaded c.dwords 3 0) hicrReg (d.inner.hicr ||| hicrC) = f := by
    simp only [hostFw,hicrReg,if_true,hcmd,ne_eq,not_false_eq_true,HostFw.serve,hc,hsum]
    rw [hf]
  have hicr : ∀ e : Nvm HostFw, (nvm hostFw).read e hicrReg = (e.inner.hicr,e) := fun e => (nvm_mng (by decide) e 0#32).1
  have hwrite : (nvm hostFw).write { d with inner := d.inner.loaded c.dwords 3 0 } hicrReg (d.inner.hicr ||| hicrC) =
      { d with inner := f } := by
    rw [← hserve]
    exact (nvm_mng (by decide) _ _).2
  have hpoll : run (nvm hostFw) (pollCommand (499+1) hw) { d with inner := f } = ((true,hw),{ d with inner := f }) := by
    have hidle : f.hicr &&& hicrC = 0#32 := by
      rw [hf]
      exact (by decide : (hicrEn ||| hicrSv) &&& hicrC = 0#32)
    rw [pollCommand,run_hwBind,run_hwRead,hicr,if_pos hidle]
    rfl
  have hanswer : run (nvm hostFw) (readAnswer 12#32 hw) { d with inner := f } =
      ((((0 : ℤ),[(0,answerHeader 0x1#8)]),hw),{ d with inner := f }) := by
    have hread : (nvm hostFw).read { d with inner := f } (flexMngReg 0) = (answerHeader 0x1#8,{ d with inner := f }) := by
      refine (nvm_mng (Nat.le_add_right _ _) _ 0#32).1.trans ?_
      rw [hf]
      rfl
    have hempty : (hdrBufLen (answerHeader 0x1#8)).toNat = 0 := by decide
    rw [readAnswer,run_hwBind,run_hwRead,hread]
    simp only [hempty,if_true]
    rfl
  have hok : f.hicr &&& hicrSv ≠ 0#32 := by
    rw [hf]
    exact (by decide : (hicrEn ||| hicrSv) &&& hicrSv ≠ 0#32)
  rw [ixmapHostInterfaceCommand,if_neg (by decide),run_hwBind,run_hwRead,hicr,if_neg hen]
  rw [run_hwBind,show ((12#32 >>> 2).setWidth 8).toNat = 3 from rfl,run_loadBlock _ _ _ _ _ (by decide),run_hwBind,
    run_hwWrite,hwrite,run_hwBind,hpoll,if_pos rfl,run_hwBind,run_hwRead,hicr,if_neg hok,hanswer,hf]

end Hw
end Ixmap
