import Ixmap.Eeprom

/-! `struct ixmap_hw` and the functions that work on it: they access the registers and keep what they learn in
the structure. Every access that is not to one of the shared registers leaves the protocol of the semaphores
alone. -/
namespace Ixmap
namespace Hw
open RegProgram

inductive MacType where
  | unknown
  | mac82598EB
  | mac82599EB
  | macX540
deriving DecidableEq, Repr

inductive PhyType where
  | unknown
  | none
  | generic
deriving DecidableEq, Repr

/-- `enum ixmap_sfp_type`; `unset` is the zero of a fresh structure. -/
inductive SfpType where
  | unset
  | srlrCore0
  | srlrCore1
  | notPresent
  | unknown
deriving DecidableEq, Repr

def SfpType.code : SfpType → BitVec 16
  | .unset => 0#16
  | .srlrCore0 => 5#16
  | .srlrCore1 => 6#16
  | .notPresent => 0xfffe#16
  | .unknown => 0xffff#16

inductive MediaType where
  | unknown
  | fiber
deriving DecidableEq, Repr

abbrev MacAddr := Fin 6 → BitVec 8

/-- `struct ixmap_mac_info`, with the sizes of the device's tables. -/
structure MacInfo where
  type : MacType
  addr : MacAddr
  permAddr : MacAddr
  mcFilterType : BitVec 32
  mcftSize : ℕ
  vftSize : ℕ
  numRarEntries : ℕ
  maxRxQueues : ℕ
  maxTxQueues : ℕ
  origAutoc : BitVec 32
  origAutoc2 : BitVec 32
  maxMsixVectors : BitVec 16
  arcSubsystemValid : Bool
  origLinkSettingsStored : Bool
  autotryRestart : Bool
  doubleResetRequired : Bool
  /-- The laser functions are there. -/
  laserOps : Bool
  tables : mcftSize ≤ 128 ∧ vftSize ≤ 128 ∧ numRarEntries ≤ 128 ∧ maxRxQueues ≤ 128 ∧ maxTxQueues ≤ 128

structure PhyInfo where
  type : PhyType
  sfpType : SfpType
  mediaType : MediaType
  sfpSetupNeeded : Bool
deriving DecidableEq, Repr

structure BusInfo where
  func : BitVec 16
  lanId : BitVec 16
deriving DecidableEq, Repr

structure IxmapHw where
  mac : MacInfo
  phy : PhyInfo
  eeprom : EepromInfo
  bus : BusInfo
  deviceId : BitVec 16
  adapterStopped : Bool
  forceFullReset : Bool

def kzallocHw : IxmapHw where
  mac := { type := .unknown, addr := fun _ => 0#8, permAddr := fun _ => 0#8, mcFilterType := 0#32, mcftSize := 0,
           vftSize := 0, numRarEntries := 0, maxRxQueues := 0, maxTxQueues := 0, origAutoc := 0#32,
           origAutoc2 := 0#32, maxMsixVectors := 0#16, arcSubsystemValid := false, origLinkSettingsStored := false,
           autotryRestart := false, doubleResetRequired := false, laserOps := false, tables := by decide }
  phy := ⟨.unknown,.unset,.unknown,false⟩
  eeprom := ⟨.uninitialized,0,0#16,0,0⟩
  bus := ⟨0#16,0#16⟩
  deviceId := 0#16
  adapterStopped := false
  forceFullReset := false

abbrev HwM := StateT IxmapHw RegProg

def readHw (r : Reg) : HwM (BitVec 32) := StateT.lift (readReg r)

def writeHw (r : Reg) (v : BitVec 32) : HwM Unit := StateT.lift (writeReg r v)

def flushHw : HwM Unit := StateT.lift writeFlush

def ixmapReadPciCfgWord (offset : ℕ) : HwM (BitVec 16) := do
  let value ← readHw (.cfg offset)
  pure (value.setWidth 16)

/-- `hw->eeprom.ops.read`: the status, and the word when there is one. -/
def readEeprom (offset : BitVec 16) : HwM (ℤ × List (BitVec 16)) := fun hw => do
  let r ← ixmapReadEeprom82599 hw.eeprom offset
  pure (r.1,{ hw with eeprom := r.2 })

/-- `hw->eeprom.ops.read` into a variable, which a failed read leaves as it is. -/
def readEepromInto (offset old : BitVec 16) : HwM (ℤ × BitVec 16) := do
  let r ← readEeprom offset
  pure (r.1,r.2.headD old)

def acquireSwfwSync (mask : BitVec 16) : HwM ℤ := StateT.lift (ixmapAcquireSwfwSync mask)

def releaseSwfwSync (mask : BitVec 16) : HwM Unit := StateT.lift (ixmapReleaseSwfwSync mask)

def loopFrom (body : ℕ → HwM Unit) : ℕ → ℕ → HwM Unit
  | 0, _ => pure ()
  | left+1, i => do
    body i
    loopFrom body left (i+1)

theorem run_hwBind {σ α β : Type} (dev : Device Reg (BitVec 32) σ) (p : HwM α) (f : α → HwM β) (hw : IxmapHw) (st : σ) :
    run dev ((p >>= f) hw) st =
      run dev (f (run dev (p hw) st).1.1 (run dev (p hw) st).1.2) (run dev (p hw) st).2 := run_bind dev st (p hw) _

theorem run_hwLift {σ α : Type} (dev : Device Reg (BitVec 32) σ) (p : RegProg α) (hw : IxmapHw) (st : σ) :
    run dev ((StateT.lift p : HwM α) hw) st = (((run dev p st).1,hw),(run dev p st).2) := run_bind dev st p _

theorem run_hwRead {σ : Type} (dev : Device Reg (BitVec 32) σ) (r : Reg) (hw : IxmapHw) (st : σ) :
    run dev (readHw r hw) st = (((dev.read st r).1,hw),(dev.read st r).2) := rfl

theorem run_hwWrite {σ : Type} (dev : Device Reg (BitVec 32) σ) (r : Reg) (v : BitVec 32) (hw : IxmapHw) (st : σ) :
    run dev (writeHw r v hw) st = (((),hw),dev.write st r v) := rfl

/-- The result satisfies `Q`, whatever the structure holds and the registers answer. -/
def AlwaysHw {α : Type} (Q : α → Prop) (p : HwM α) : Prop := ∀ hw, Always (fun r => Q r.1) (p hw)

section
variable {α β : Type} {Q : α → Prop} {p : HwM α}

theorem alwaysHw_pure {a : α} (h : Q a) : AlwaysHw Q (pure a) := fun _ => h

theorem AlwaysHw.bind {Q' : β → Prop} {f : α → HwM β} (h : AlwaysHw Q p) (hf : ∀ a, Q a → AlwaysHw Q' (f a)) :
    AlwaysHw Q' (p >>= f) := fun hw => Always.bind (h hw) fun r hr => hf r.1 hr r.2

theorem alwaysHw_bind {Q' : β → Prop} {f : α → HwM β} (hf : ∀ a, AlwaysHw Q' (f a)) : AlwaysHw Q' (p >>= f) :=
  fun hw => (always_true (p hw)).bind fun r _ => hf r.1 r.2

theorem AlwaysHw.ite {c : Prop} [Decidable c] {q : HwM α} (h : c → AlwaysHw Q p) (h' : ¬c → AlwaysHw Q q) :
    AlwaysHw Q (if c then p else q) := by
  split
  · exact h ‹_›
  · exact h' ‹_›

end

/-- Whatever the structure holds, the function keeps the protocol from `g` on and ends with `Q`. -/
def FollowsHw {α : Type} (p : HwM α) (g : Own) (Q : α → Own → Prop) : Prop :=
  ∀ hw, Follows syncProtocol (p hw) g fun r g' => Q r.1 g'

/-- The function leaves the resources of the driver as they are. -/
def KeepsHw {α : Type} (p : HwM α) (g : Own) : Prop := FollowsHw p g fun _ g' => g' = g

section
variable {α β : Type} {p : HwM α} {g : Own}

theorem FollowsHw.bind {f : α → HwM β} {Q : α → Own → Prop} {Q' : β → Own → Prop} (h : FollowsHw p g Q)
    (hf : ∀ a g', Q a g' → FollowsHw (f a) g' Q') : FollowsHw (p >>= f) g Q' :=
  fun hw => Follows.bind (h hw) fun r g' hq => hf r.1 g' hq r.2

theorem followsHw_pure {a : α} {Q : α → Own → Prop} (h : Q a g) : FollowsHw (pure a) g Q := fun _ => h

theorem followsHw_lift {q : RegProg α} {Q : α → Own → Prop} (h : Follows syncProtocol q g Q) :
    FollowsHw (StateT.lift q) g Q := fun _ => Follows.bind h fun _ _ hq => hq

theorem KeepsHw.then {f : α → HwM β} {Q : β → Own → Prop} (h : KeepsHw p g)
    (hf : ∀ a, FollowsHw (f a) g Q) : FollowsHw (p >>= f) g Q := by
  refine FollowsHw.bind h ?_
  rintro a g' rfl
  exact hf a

theorem KeepsHw.bind {f : α → HwM β} (h : KeepsHw p g) (hf : ∀ a, KeepsHw (f a) g) : KeepsHw (p >>= f) g :=
  h.then hf

theorem keepsHw_pure (a : α) : KeepsHw (pure a) g := fun _ => rfl

theorem keepsHw_get : KeepsHw get g := fun _ => rfl

theorem keepsHw_modify (f : IxmapHw → IxmapHw) : KeepsHw (modify f) g := fun _ => rfl

theorem KeepsHw.ite {c : Prop} [Decidable c] {q : HwM α} (h : KeepsHw p g) (h' : KeepsHw q g) :
    KeepsHw (if c then p else q) g := by
  split
  · exact h
  · exact h'

theorem keepsHw_lift {q : RegProg α} (h : Keeps q g) : KeepsHw (StateT.lift q) g := followsHw_lift h

theorem keepsHw_loopFrom {body : ℕ → HwM Unit} {n i : ℕ} (h : ∀ k, i ≤ k → k < i+n → KeepsHw (body k) g) :
    KeepsHw (loopFrom body n i) g := by
  induction n generalizing i with
  | zero => exact keepsHw_pure ()
  | succ n ih =>
    refine (h i le_rfl (by omega)).bind fun _ => ih fun k hk hlt => ?_
    exact h k (by omega) (by omega)

/-- A register that no resource guards. -/
def Plain (r : Reg) : Prop := r ≠ swsmReg ∧ r ≠ gssrReg ∧ guardOf r = none

instance (r : Reg) : Decidable (Plain r) := inferInstanceAs (Decidable (_ ∧ _ ∧ _))

theorem plain_of_lt {offset : ℕ} (h : offset < 0x10010) : Plain (.bar offset) := by
  refine ⟨?_,?_,?_⟩
  · intro hr
    have := Reg.bar.inj hr
    omega
  · intro hr
    have := Reg.bar.inj hr
    omega
  · simp only [guardOf]
    rw [if_neg (by omega),if_neg (by omega),if_neg (by omega)]

theorem keepsHw_readHw {r : Reg} (h : r ≠ swsmReg ∧ r ≠ gssrReg) : KeepsHw (readHw r) g :=
  keepsHw_lift (keeps_readReg h.1 h.2)

theorem keepsHw_writeHw {r : Reg} {v : BitVec 32} (h : Plain r) : KeepsHw (writeHw r v) g :=
  keepsHw_lift (keeps_writeReg h.1 h.2.1 fun n hn => (Option.some_ne_none n (hn.symm.trans h.2.2)).elim)

theorem keepsHw_flushHw : KeepsHw flushHw g := keepsHw_lift keeps_writeFlush

theorem keepsHw_readPciCfgWord (offset : ℕ) : KeepsHw (ixmapReadPciCfgWord offset) g :=
  (keepsHw_readHw ⟨Reg.noConfusion,Reg.noConfusion⟩).bind fun _ => keepsHw_pure _

theorem keepsHw_readEeprom (hg : Settled g) (offset : BitVec 16) : KeepsHw (readEeprom offset) g :=
  fun hw => Keeps.then (keeps_readEeprom hg hw.eeprom offset) fun _ => rfl

theorem keepsHw_readEepromInto (hg : Settled g) (offset old : BitVec 16) : KeepsHw (readEepromInto offset old) g :=
  (keepsHw_readEeprom hg offset).bind fun _ => keepsHw_pure _

/-- A section under a resource: the status tells whether it has been taken. -/
theorem Settled.section {mask : BitVec 16} {f : ℤ → HwM α} {Q : α → Own → Prop} (h : Settled g)
    (hm : bitsOf mask ⊆ swBits) (hfail : ∀ status ≠ 0, FollowsHw (f status) g Q)
    (hgot : Disjoint (bitsOf mask) g.held → FollowsHw (f 0) (g.taken mask) Q) :
    FollowsHw (acquireSwfwSync mask >>= f) g Q := by
  refine FollowsHw.bind (followsHw_lift (follows_acquireSync h.outside hm)) ?_
  rintro status g' (⟨rfl,rfl,hd⟩ | ⟨hst,rfl⟩)
  · exact hgot hd
  · exact hfail status hst

theorem Settled.leave {mask : BitVec 16} {f : Unit → HwM α} {Q : α → Own → Prop} (h : Settled g)
    (hd : Disjoint (bitsOf mask) g.held) (hf : FollowsHw (f ()) g Q) :
    FollowsHw (releaseSwfwSync mask >>= f) (g.taken mask) Q := by
  refine FollowsHw.bind (followsHw_lift (h.follows_release hd)) ?_
  rintro _ g' rfl
  exact hf

end

end Hw
end Ixmap
