import Ixmap.RegProgram

/-! The SW/FW semaphores of `kmod/ixmap_eeprom.c`. The drivers of the ports of one device and its firmware
share the EEPROM, the PHYs and the management interface; a driver takes a resource by setting its bit in
GSSR, under the two semaphore bits of SWSM. Here and in the modules that build on this one, registers, bits and
error codes have their names from `kmod/ixmap_type.h`, without `IXGBE_`. -/
namespace Ixmap
namespace Hw
open RegProgram

/-- What a driver accesses: the registers of the BAR by their offset, and words of the configuration space. -/
inductive Reg where
  | bar (offset : ℕ)
  | cfg (offset : ℕ)
deriving DecidableEq, Repr

/-- Trace points of the semaphore code: a resource has been taken, is about to be given back, or a time-out
has expired behind which the code goes on without a semaphore of its own. -/
inductive SyncEvent where
  | acquired (mask : BitVec 16)
  | releasing (mask : BitVec 16)
  | expired
deriving DecidableEq, Repr

abbrev RegProg := Prog Reg (BitVec 32) SyncEvent

def statusReg : Reg := .bar 0x00008
def swsmReg : Reg := .bar 0x10140
def gssrReg : Reg := .bar 0x10160
def eecReg : Reg := .bar 0x10010
def corectlReg : Reg := .bar 0x14f00
def hicrReg : Reg := .bar 0x15f00

def swsmSmbi : BitVec 32 := 0x1#32
def swsmSwesmbi : BitVec 32 := 0x2#32

def gssrEepSm : BitVec 16 := 0x0001#16
def gssrMacCsrSm : BitVec 16 := 0x0008#16
def gssrSwMngSm : BitVec 16 := 0x0400#16

def errEeprom : ℤ := -1
def errSwfwSync : ℤ := -16

def writeFlush : RegProg Unit := do
  let _ ← readReg statusReg
  pure ()

def ixmapReleaseEepromSemaphore : RegProg Unit := do
  let swsm ← readReg swsmReg
  writeReg swsmReg (swsm &&& ~~~(swsmSwesmbi ||| swsmSmbi))
  writeFlush

/-- The first loop of `ixmap_get_eeprom_semaphore`: reading `SMBI` as 0 sets it. -/
def pollSmbi : ℕ → RegProg Bool
  | 0 => pure false
  | left+1 => do
    let swsm ← readReg swsmReg
    if swsm &&& swsmSmbi = 0#32 then pure true else pollSmbi left

/-- The second loop: set `SWESMBI` and see whether it stays. -/
def requestSwesmbi : ℕ → RegProg Bool
  | 0 => pure false
  | left+1 => do
    let swsm ← readReg swsmReg
    writeReg swsmReg (swsm ||| swsmSwesmbi)
    let swsm ← readReg swsmReg
    if swsm &&& swsmSwesmbi ≠ 0#32 then pure true else requestSwesmbi left

/-- When `SMBI` was never free, both bits are cleared whoever holds them. -/
def forceSmbi : RegProg Bool := do
  point .expired
  ixmapReleaseEepromSemaphore
  let swsm ← readReg swsmReg
  pure (swsm &&& swsmSmbi = 0#32)

def semaphoreTimeout : ℕ := 2000

def takeSmbi : RegProg Bool := do
  let polled ← pollSmbi semaphoreTimeout
  if polled then pure true else forceSmbi

def ixmapGetEepromSemaphore : RegProg ℤ := do
  let got ← takeSmbi
  if got then
    let granted ← requestSwesmbi semaphoreTimeout
    if granted then pure 0
    else
      ixmapReleaseEepromSemaphore
      pure errEeprom
  else pure errEeprom

/-- The status of `ixmap_get_eeprom_semaphore` is not looked at. -/
def ixmapReleaseSwfwSync (mask : BitVec 16) : RegProg Unit := do
  point (.releasing mask)
  let status ← ixmapGetEepromSemaphore
  if status ≠ 0 then point .expired
  let gssr ← readReg gssrReg
  writeReg gssrReg (gssr &&& ~~~mask.setWidth 32)
  ixmapReleaseEepromSemaphore

/-- The bits that keep a resource busy: the software's and, five places up, the firmware's. -/
def busyMask (mask : BitVec 16) : BitVec 32 := mask.setWidth 32 <<< 5 ||| mask.setWidth 32

/-- The loop of `ixmap_acquire_swfw_sync`, with the last value read from GSSR. -/
def acquireLoop (mask : BitVec 16) : ℕ → BitVec 32 → RegProg ℤ
  | 0, gssr => do
    if gssr &&& busyMask mask ≠ 0#32 then
      point .expired
      ixmapReleaseSwfwSync ((gssr &&& busyMask mask).setWidth 16)
    pure errSwfwSync
  | left+1, _ => do
    let status ← ixmapGetEepromSemaphore
    if status ≠ 0 then pure errSwfwSync
    else
      let gssr ← readReg gssrReg
      if gssr &&& busyMask mask = 0#32 then
        writeReg gssrReg (gssr ||| mask.setWidth 32)
        ixmapReleaseEepromSemaphore
        point (.acquired mask)
        pure 0
      else
        ixmapReleaseEepromSemaphore
        acquireLoop mask left gssr

def ixmapAcquireSwfwSync (mask : BitVec 16) : RegProg ℤ := acquireLoop mask 200 0#32

/-- The shared registers and the firmware: whether it is inside its own semaphore, and the bits it has set. -/
structure Shared where
  swsm : BitVec 32
  gssr : BitVec 32
  fwSem : Bool
  fwHeld : BitVec 32

/-- Reading SWSM sets `SMBI`. The other registers answer anything. -/
def Shared.reads (s : Shared) (r : Reg) (v : BitVec 32) (s' : Shared) : Prop :=
  if r = swsmReg then v = s.swsm ∧ s' = { s with swsm := s.swsm ||| swsmSmbi }
  else if r = gssrReg then v = s.gssr ∧ s' = s
  else s' = s

/-- `SWESMBI` cannot be set while the firmware is inside. -/
def Shared.writes (s : Shared) (r : Reg) (v : BitVec 32) (s' : Shared) : Prop :=
  if r = swsmReg then s' = { s with swsm := if s.fwSem then v &&& ~~~swsmSwesmbi else v }
  else if r = gssrReg then s' = { s with gssr := v }
  else s' = s

/-- The firmware enters when `SWESMBI` is clear; inside it takes resources that nobody uses and gives back
its own. -/
inductive Firmware : Shared → Shared → Prop
  | enter {s : Shared} (h : s.swsm.getLsbD 1 = false) : Firmware s { s with fwSem := true }
  | leave {s : Shared} : Firmware s { s with fwSem := false }
  | take {s : Shared} {mask : BitVec 16} (hin : s.fwSem = true) (hfree : s.gssr &&& busyMask mask = 0#32)
    (hsw : mask &&& 0xfbe0#16 = 0#16) : Firmware s
      { s with gssr := s.gssr ||| mask.setWidth 32 <<< 5, fwHeld := s.fwHeld ||| mask.setWidth 32 <<< 5 }
  | give {s : Shared} {bits : BitVec 32} (hin : s.fwSem = true) (hown : bits &&& ~~~s.fwHeld = 0#32) :
    Firmware s { s with gssr := s.gssr &&& ~~~bits, fwHeld := s.fwHeld &&& ~~~bits }

def syncBus : Bus Reg (BitVec 32) Shared := ⟨Shared.reads,Shared.writes,Firmware⟩

/-- Where a driver stands between the two semaphore bits; inside, with what it last saw or left in GSSR. -/
inductive Phase where
  | outside
  | smbi
  | inside (gssr : Option (BitVec 32))

/-- The bits of GSSR a driver has set, and those between its trace points `acquired` and `releasing`. -/
structure Own where
  phase : Phase
  held : Set ℕ
  claimed : Set ℕ

def bitsOf {w : ℕ} (v : BitVec w) : Set ℕ := {n | v.getLsbD n = true}

def Own.taken (g : Own) (mask : BitVec 16) : Own :=
  { g with held := g.held ∪ bitsOf mask, claimed := g.claimed ∪ bitsOf mask }

def Own.given (g : Own) (mask : BitVec 16) : Own :=
  { g with held := g.held \ bitsOf mask, claimed := g.claimed \ bitsOf mask }

/-- A status of 0 means that the driver has the resource, and did not have it before; with any other it has
what it had. -/
def Own.Acquires (g : Own) (mask : BitVec 16) (status : ℤ) (g' : Own) : Prop :=
  (status = 0 ∧ g' = g.taken mask ∧ Disjoint (bitsOf mask) g.held) ∨ (status ≠ 0 ∧ g' = g)

def swBits : Set ℕ := {n | n < 5 ∨ n = 10}

def Phase.afterSwsm (v : BitVec 32) : Phase → Phase
  | .outside => if v.getLsbD 0 then .outside else .smbi
  | .smbi => if v.getLsbD 1 then .inside none else .smbi
  | .inside gssr => .inside gssr

def Phase.afterGssr (v : BitVec 32) : Phase → Phase
  | .inside _ => .inside (some v)
  | ph => ph

/-- The bits a write sets become the driver's, those it clears are no longer. -/
def Own.afterGssr (g : Own) (w : BitVec 32) : Own :=
  match g.phase with
  | .inside (some v) =>
    { g with phase := .inside (some w), held := (g.held ∪ (bitsOf w \ bitsOf v)) \ (bitsOf v \ bitsOf w) }
  | _ => g

def Own.next (g : Own) : Act Reg (BitVec 32) SyncEvent → Own
  | .read r v =>
    if r = swsmReg then { g with phase := g.phase.afterSwsm v }
    else if r = gssrReg then { g with phase := g.phase.afterGssr v }
    else g
  | .write r w =>
    if r = swsmReg then { g with phase := if w.getLsbD 0 then g.phase else .outside }
    else if r = gssrReg then g.afterGssr w
    else g
  | .mark (.acquired mask) => { g with claimed := g.claimed ∪ bitsOf mask }
  | .mark (.releasing mask) => { g with claimed := g.claimed \ bitsOf mask }
  | .mark .expired => g

/-- Behind `SMBI` the bit reads as set, inside `SWESMBI` does too and GSSR has the driver's bits. -/
def Own.sees (g : Own) (r : Reg) (v : BitVec 32) : Prop :=
  (r = swsmReg → (g.phase ≠ .outside → v.getLsbD 0 = true) ∧
    ∀ gssr, g.phase = .inside gssr → v.getLsbD 1 = true) ∧
  (r = gssrReg → ∀ gssr, g.phase = .inside gssr → g.held ⊆ bitsOf v)

/-- A write of GSSR from inside: it sets software bits whose resource the firmware does not use, and clears
bits the driver has set and no longer counts on. -/
def Own.mayGssr (g : Own) (w : BitVec 32) : Prop :=
  ∃ v, g.phase = .inside (some v) ∧ bitsOf w \ bitsOf v ⊆ swBits ∧
    (∀ n ∈ bitsOf w \ bitsOf v, v.getLsbD (n+5) = false) ∧
    bitsOf v \ bitsOf w ⊆ g.held ∧ Disjoint (bitsOf v \ bitsOf w) g.claimed

/-- The resource that a register belongs to: EEC, CORECTL, and the host interface with its command block. -/
def guardOf : Reg → Option ℕ
  | .bar offset =>
    if offset = 0x10010 then some 0
    else if offset = 0x14f00 then some 3
    else if 0x15800 ≤ offset ∧ offset ≤ 0x15f00 then some 10
    else none
  | .cfg _ => none

def Own.may (g : Own) : Act Reg (BitVec 32) SyncEvent → Prop
  | .read _ _ => True
  | .write r w =>
    if r = swsmReg then g.phase ≠ .outside ∧ w.getLsbD 0 = w.getLsbD 1
    else if r = gssrReg then g.mayGssr w
    else ∀ n, guardOf r = some n → n ∈ g.claimed
  | .mark (.acquired mask) => bitsOf mask ⊆ g.held
  | .mark _ => True

def syncProtocol : Protocol Reg (BitVec 32) SyncEvent Own where
  next := Own.next
  sees := Own.sees
  may := Own.may
  timely e := e ≠ .expired

section
variable {g : Own} {mask : BitVec 16}

theorem gssrReg_ne_swsmReg : gssrReg ≠ swsmReg := by decide

theorem next_readSwsm (g : Own) (v : BitVec 32) :
    syncProtocol.next g (.read swsmReg v) = { g with phase := g.phase.afterSwsm v } := by
  simp only [syncProtocol,Own.next,if_true]

theorem next_readGssr (g : Own) (v : BitVec 32) :
    syncProtocol.next g (.read gssrReg v) = { g with phase := g.phase.afterGssr v } := by
  simp only [syncProtocol,Own.next,gssrReg_ne_swsmReg,if_false,if_true]

theorem next_writeSwsm (g : Own) (w : BitVec 32) : syncProtocol.next g (.write swsmReg w) =
    { g with phase := if w.getLsbD 0 then g.phase else .outside } := by
  simp only [syncProtocol,Own.next,if_true]

theorem next_writeGssr (g : Own) (w : BitVec 32) : syncProtocol.next g (.write gssrReg w) = g.afterGssr w := by
  simp only [syncProtocol,Own.next,gssrReg_ne_swsmReg,if_false,if_true]

theorem may_writeSwsm {w : BitVec 32} : syncProtocol.may g (.write swsmReg w) ↔
    g.phase ≠ .outside ∧ w.getLsbD 0 = w.getLsbD 1 := by
  simp only [syncProtocol,Own.may,if_true]

theorem may_writeGssr {w : BitVec 32} : syncProtocol.may g (.write gssrReg w) ↔ g.mayGssr w := by
  simp only [syncProtocol,Own.may,gssrReg_ne_swsmReg,if_false,if_true]

theorem next_other {r : Reg} (hs : r ≠ swsmReg) (hg : r ≠ gssrReg) (v : BitVec 32) :
    syncProtocol.next g (.read r v) = g ∧ syncProtocol.next g (.write r v) = g := by
  simp only [syncProtocol,Own.next,hs,hg,if_false,and_self]

theorem follows_readOther {r : Reg} {β : Type} {f : BitVec 32 → RegProg β} {Q : β → Own → Prop}
    (hs : r ≠ swsmReg) (hg : r ≠ gssrReg) (h : ∀ v, Follows syncProtocol (f v) g Q) :
    Follows syncProtocol (readReg r >>= f) g Q := by
  rw [follows_read]
  intro v _
  rw [(next_other hs hg v).1]
  exact h v

theorem follows_writeOther {r : Reg} {v : BitVec 32} {β : Type} {f : Unit → RegProg β} {Q : β → Own → Prop}
    (hs : r ≠ swsmReg) (hg : r ≠ gssrReg) (hguard : ∀ n, guardOf r = some n → n ∈ g.claimed)
    (h : Follows syncProtocol (f ()) g Q) : Follows syncProtocol (writeReg r v >>= f) g Q := by
  rw [follows_write,(next_other hs hg v).2]
  refine ⟨?_,h⟩
  simpa only [syncProtocol,Own.may,hs,hg,if_false] using hguard

theorem follows_expired {β : Type} {f : Unit → RegProg β} {Q : β → Own → Prop} :
    Follows syncProtocol (point .expired >>= f) g Q := fun ht => absurd rfl ht

theorem follows_writeFlush {Q : Unit → Own → Prop} (h : Q () g) : Follows syncProtocol writeFlush g Q :=
  follows_readOther (by decide) (by decide) fun _ => h

theorem and_twoPow_eq_zero {w : ℕ} (v : BitVec w) {n : ℕ} (hn : n < w) :
    v &&& BitVec.twoPow w n = 0#w ↔ v.getLsbD n = false := by
  rw [BitVec.and_twoPow]
  cases v.getLsbD n with
  | false => simp
  | true =>
    simp only [if_true,Bool.true_eq_false,iff_false]
    intro h
    have hbit := congrArg (fun x => x.getLsbD n) h
    simp [hn] at hbit

theorem smbi_clear (v : BitVec 32) : v &&& swsmSmbi = 0#32 ↔ v.getLsbD 0 = false :=
  and_twoPow_eq_zero v (n := 0) (by decide)

theorem swesmbi_clear (v : BitVec 32) : v &&& swsmSwesmbi = 0#32 ↔ v.getLsbD 1 = false :=
  and_twoPow_eq_zero v (n := 1) (by decide)

theorem afterSwsm_ne_outside {ph : Phase} (v : BitVec 32) (h : ph ≠ .outside) : ph.afterSwsm v ≠ .outside := by
  cases ph with
  | outside => exact absurd rfl h
  | smbi =>
    rw [Phase.afterSwsm]
    split <;> exact Phase.noConfusion
  | inside gssr => exact Phase.noConfusion

theorem follows_releaseSemaphore (hg : g.phase ≠ .outside) :
    Follows syncProtocol ixmapReleaseEepromSemaphore g fun _ g' => g' = { g with phase := .outside } := by
  rw [ixmapReleaseEepromSemaphore,follows_read]
  intro v _
  have hclear : ∀ n < 2, (v &&& ~~~(swsmSwesmbi ||| swsmSmbi)).getLsbD n = false := by
    intro n hn
    obtain rfl | rfl : n = 0 ∨ n = 1 := by omega
    · simp [swsmSmbi,swsmSwesmbi]
    · simp [swsmSmbi,swsmSwesmbi]
  rw [follows_write,next_readSwsm,may_writeSwsm,next_writeSwsm,hclear 0 (by decide)]
  refine ⟨⟨afterSwsm_ne_outside v hg,(hclear 1 (by decide)).symm⟩,?_⟩
  exact follows_writeFlush rfl

theorem follows_pollSmbi (n : ℕ) (hg : g.phase = .outside) :
    Follows syncProtocol (pollSmbi n) g fun got g' => g' = if got then { g with phase := .smbi } else g := by
  induction n with
  | zero => rw [pollSmbi,follows_pure,if_neg Bool.false_ne_true]
  | succ n ih =>
    rw [pollSmbi,follows_read]
    intro v _
    rw [next_readSwsm,hg,Phase.afterSwsm]
    cases hv : v.getLsbD 0 with
    | false =>
      rw [if_pos ((smbi_clear v).mpr hv)]
      rfl
    | true =>
      rw [if_neg (fun h => by rw [smbi_clear,hv] at h; exact Bool.noConfusion h),if_pos rfl,← hg]
      exact ih

/-- Between the bits, the second one is asked for until it stays set. -/
theorem follows_requestSwesmbi (n : ℕ) (hg : g.phase = .smbi) :
    Follows syncProtocol (requestSwesmbi n) g fun got g' =>
      g' = if got then { g with phase := .inside none } else g := by
  induction n with
  | zero => rw [requestSwesmbi,follows_pure,if_neg Bool.false_ne_true]
  | succ n ih =>
    rw [requestSwesmbi,follows_read]
    intro v hv
    have hset : v.getLsbD 0 = true := (hv.1 rfl).1 (by simp [hg])
    have hbits : (v ||| swsmSwesmbi).getLsbD 0 = true ∧ (v ||| swsmSwesmbi).getLsbD 1 = true := by
      simp [hset,swsmSwesmbi]
    rw [follows_write,next_readSwsm,may_writeSwsm,next_writeSwsm,hbits.1,if_pos rfl,follows_read]
    refine ⟨⟨afterSwsm_ne_outside v (by simp [hg]),hbits.2.symm⟩,?_⟩
    intro v' hv'
    have hinside : v.getLsbD 1 = true → v'.getLsbD 1 = true := by
      intro h
      exact (hv'.1 rfl).2 none (by simp [hg,Phase.afterSwsm,h])
    rw [next_readSwsm,hg]
    cases hv1 : v'.getLsbD 1 with
    | true =>
      rw [if_pos (fun h => by rw [swesmbi_clear,hv1] at h; exact Bool.noConfusion h),follows_pure,if_pos rfl]
      -- the bit may have been seen before it was asked for
      cases hv0 : v.getLsbD 1 <;> simp only [Phase.afterSwsm,hv0,hv1,Bool.false_eq_true,if_false,if_true]
    | false =>
      have hv0 : v.getLsbD 1 = false := by
        rw [← Bool.not_eq_true]
        intro h
        rw [hinside h] at hv1
        exact Bool.noConfusion hv1
      rw [if_neg (not_not.mpr ((swesmbi_clear v').mpr hv1))]
      simp only [Phase.afterSwsm,hv0,hv1,Bool.false_eq_true,if_false]
      rw [← hg]
      exact ih

theorem follows_takeSmbi (hg : g.phase = .outside) :
    Follows syncProtocol takeSmbi g fun got g' => g' = if got then { g with phase := .smbi } else g := by
  rw [takeSmbi]
  apply (follows_pollSmbi _ hg).bind
  rintro (_ | _) g' rfl
  · exact follows_expired
  · rfl

/-- A status of 0 means that the driver is inside. -/
theorem follows_getSemaphore (hg : g.phase = .outside) :
    Follows syncProtocol ixmapGetEepromSemaphore g fun status g' =>
      g' = if status = 0 then { g with phase := .inside none } else g := by
  rw [ixmapGetEepromSemaphore]
  apply (follows_takeSmbi hg).bind
  rintro (_ | _) g' rfl
  · exact (if_neg (show errEeprom ≠ 0 by decide)).symm
  simp only [if_true]
  apply (follows_requestSwesmbi _ rfl).bind
  rintro (_ | _) g' rfl
  · apply (follows_releaseSemaphore (by simp)).bind
    rintro _ g' rfl
    rw [follows_pure,if_neg (show errEeprom ≠ 0 by decide),← hg]
    rfl
  · rfl

theorem mem_bitsOf {w n : ℕ} {v : BitVec w} : n ∈ bitsOf v ↔ v.getLsbD n = true := Iff.rfl

theorem bitsOf_mask (mask : BitVec 16) : bitsOf (mask.setWidth 32) = bitsOf mask := by
  ext n
  simp only [mem_bitsOf,BitVec.getLsbD_setWidth,Bool.and_eq_true,decide_eq_true_eq,and_iff_right_iff_imp]
  intro h
  have := BitVec.lt_of_getLsbD h
  omega

theorem bitsOf_or {w : ℕ} (v v' : BitVec w) : bitsOf (v ||| v') = bitsOf v ∪ bitsOf v' := by
  ext n
  simp [mem_bitsOf]

theorem bitsOf_and_not {w : ℕ} (v v' : BitVec w) : bitsOf (v &&& ~~~v') = bitsOf v \ bitsOf v' := by
  ext n
  have : v.getLsbD n = true → n < w := BitVec.lt_of_getLsbD
  simp only [mem_bitsOf,BitVec.getLsbD_and,BitVec.getLsbD_not,Bool.and_eq_true,decide_eq_true_eq,
    Bool.not_eq_true',Set.mem_sdiff,Bool.not_eq_true]
  tauto

theorem disjoint_of_and_eq_zero {w : ℕ} {v v' : BitVec w} (h : v &&& v' = 0#w) :
    Disjoint (bitsOf v) (bitsOf v') := by
  rw [Set.disjoint_left]
  intro n hn hn'
  have hbit := congrArg (fun x => x.getLsbD n) h
  rw [mem_bitsOf] at hn hn'
  simp [hn,hn'] at hbit

theorem bitsOf_busyMask (mask : BitVec 16) : bitsOf (busyMask mask) = {n | 5 ≤ n ∧ n-5 ∈ bitsOf mask} ∪ bitsOf mask := by
  rw [busyMask,bitsOf_or,bitsOf_mask]
  congr 1
  ext n
  have hlt : mask.getLsbD (n-5) = true → n-5 < 16 := BitVec.lt_of_getLsbD
  simp only [mem_bitsOf,BitVec.getLsbD_shiftLeft,BitVec.getLsbD_setWidth,Bool.and_eq_true,decide_eq_true_eq,
    Bool.not_eq_true',decide_eq_false_iff_not,Set.mem_ofPred_eq]
  constructor
  · rintro ⟨⟨-,h⟩,-,hm⟩
    exact ⟨by omega,hm⟩
  · rintro ⟨h,hm⟩
    have := hlt hm
    exact ⟨⟨by omega,by omega⟩,by omega,hm⟩

/-- A free resource has neither the software's bits nor the firmware's. -/
theorem free_bits {v : BitVec 32} (h : v &&& busyMask mask = 0#32) {n : ℕ} (hn : n ∈ bitsOf mask) :
    v.getLsbD n = false ∧ v.getLsbD (n+5) = false := by
  have hd := disjoint_of_and_eq_zero h
  rw [bitsOf_busyMask,Set.disjoint_right] at hd
  constructor
  · exact Bool.not_eq_true _ ▸ hd (Or.inr hn)
  · exact Bool.not_eq_true _ ▸ hd (Or.inl ⟨by omega,by simpa using hn⟩)

theorem follows_releaseSync (hg : g.phase = .outside) (hown : bitsOf mask ⊆ g.held) :
    Follows syncProtocol (ixmapReleaseSwfwSync mask) g fun _ g' => g' = g.given mask := by
  rw [ixmapReleaseSwfwSync,follows_point]
  intro _
  refine ⟨trivial,?_⟩
  apply (follows_getSemaphore (g := { g with claimed := g.claimed \ bitsOf mask }) hg).bind
  rintro status g' rfl
  by_cases hst : status = 0
  case neg =>
    rw [if_pos hst]
    exact follows_expired
  rw [if_neg (not_not.mpr hst),if_pos hst]
  change Follows syncProtocol (readReg gssrReg >>= _) _ _
  rw [follows_read]
  intro v hv
  have hseen : g.held ⊆ bitsOf v := hv.2 rfl none rfl
  have hcleared : bitsOf v \ bitsOf (v &&& ~~~mask.setWidth 32) = bitsOf mask := by
    rw [bitsOf_and_not,bitsOf_mask,Set.sdiff_sdiff_right_self]
    exact Set.inter_eq_right.mpr (hown.trans hseen)
  have hset : bitsOf (v &&& ~~~mask.setWidth 32) \ bitsOf v = ∅ := by
    rw [bitsOf_and_not,Set.sdiff_eq_empty]
    exact Set.sdiff_subset
  rw [follows_write,next_readGssr,may_writeGssr,next_writeGssr]
  refine ⟨⟨v,rfl,?_,?_,?_,?_⟩,?_⟩
  · simp [hset]
  · simp [hset]
  · rw [hcleared]
    exact hown
  · rw [hcleared]
    exact Set.disjoint_sdiff_right
  simp only [Phase.afterGssr,Own.afterGssr,hset,hcleared,Set.union_empty]
  refine (follows_releaseSemaphore (by simp)).mono ?_
  rintro _ g' rfl
  rw [Own.given,hg]

theorem follows_acquireLoop (n : ℕ) (gssr : BitVec 32) (hg : g.phase = .outside)
    (hsw : bitsOf mask ⊆ swBits) : Follows syncProtocol (acquireLoop mask n gssr) g (g.Acquires mask) := by
  induction n generalizing gssr with
  | zero =>
    rw [acquireLoop]
    split_ifs with hbusy
    · exact follows_expired
    · exact Or.inr ⟨by decide,rfl⟩
  | succ n ih =>
    rw [acquireLoop]
    apply (follows_getSemaphore hg).bind
    rintro status g' rfl
    by_cases hst : status = 0
    case neg =>
      rw [if_pos hst,if_neg hst]
      exact Or.inr ⟨by decide,rfl⟩
    rw [if_neg (not_not.mpr hst),if_pos hst,follows_read]
    intro v hv
    have hseen : g.held ⊆ bitsOf v := hv.2 rfl none rfl
    rw [next_readGssr]
    split_ifs with hfree
    · have hdisj : Disjoint (bitsOf mask) (bitsOf v) := by
        rw [Set.disjoint_left]
        intro n hn hn'
        rw [mem_bitsOf,(free_bits hfree hn).1] at hn'
        exact Bool.noConfusion hn'
      have hset : bitsOf (v ||| mask.setWidth 32) \ bitsOf v = bitsOf mask := by
        rw [bitsOf_or,bitsOf_mask,Set.union_sdiff_left,sdiff_eq_left]
        exact hdisj
      have hcleared : bitsOf v \ bitsOf (v ||| mask.setWidth 32) = ∅ := by
        rw [bitsOf_or,Set.sdiff_eq_empty]
        exact Set.subset_union_left
      rw [follows_write,may_writeGssr,next_writeGssr]
      refine ⟨⟨v,rfl,?_,?_,?_,?_⟩,?_⟩
      · rw [hset]
        exact hsw
      · rw [hset]
        exact fun n hn => (free_bits hfree hn).2
      · simp [hcleared]
      · simp [hcleared]
      simp only [Phase.afterGssr,Own.afterGssr,hset,hcleared,Set.sdiff_empty]
      apply (follows_releaseSemaphore (by simp)).bind
      rintro _ g' rfl
      rw [follows_point]
      intro _
      refine ⟨Set.subset_union_right,?_⟩
      refine Or.inl ⟨rfl,?_,hdisj.mono_right hseen⟩
      rw [Own.taken,hg]
      rfl
    · apply (follows_releaseSemaphore (by simp [Phase.afterGssr])).bind
      rintro _ g' rfl
      rw [← hg]
      exact ih v

theorem follows_acquireSync (hg : g.phase = .outside) (hsw : bitsOf mask ⊆ swBits) :
    Follows syncProtocol (ixmapAcquireSwfwSync mask) g (g.Acquires mask) := follows_acquireLoop _ _ hg hsw

/-- Between calls a driver is outside the semaphores and counts on nothing but its own bits. -/
structure Settled (g : Own) : Prop where
  outside : g.phase = .outside
  sub : g.claimed ⊆ g.held

/-- The program keeps the protocol, and in the end the driver owns what it owned. -/
def Keeps {α : Type} (p : RegProg α) (g : Own) : Prop := Follows syncProtocol p g fun _ g' => g' = g

variable {α β : Type} {p : RegProg α}

theorem keeps_pure (a : α) : Keeps (pure a) g := rfl

theorem Keeps.then {f : α → RegProg β} {Q : β → Own → Prop} (h : Keeps p g)
    (hf : ∀ a, Follows syncProtocol (f a) g Q) : Follows syncProtocol (p >>= f) g Q := by
  refine Follows.bind h ?_
  rintro a g' rfl
  exact hf a

theorem Keeps.bind {f : α → RegProg β} (h : Keeps p g) (hf : ∀ a, Keeps (f a) g) : Keeps (p >>= f) g :=
  h.then hf

theorem Keeps.ite {c : Prop} [Decidable c] {q : RegProg α} (h : Keeps p g) (h' : Keeps q g) :
    Keeps (if c then p else q) g := by
  split
  · exact h
  · exact h'

theorem keeps_readReg {r : Reg} (hs : r ≠ swsmReg) (hg : r ≠ gssrReg) : Keeps (readReg r) g :=
  follows_readOther (f := pure) hs hg fun _ => rfl

theorem keeps_writeReg {r : Reg} {v : BitVec 32} (hs : r ≠ swsmReg) (hg : r ≠ gssrReg)
    (hguard : ∀ n, guardOf r = some n → n ∈ g.claimed) : Keeps (writeReg r v) g :=
  follows_writeOther (f := pure) hs hg hguard rfl

theorem keeps_writeFlush : Keeps writeFlush g := follows_writeFlush rfl

theorem Settled.taken (h : Settled g) (mask : BitVec 16) : Settled (g.taken mask) :=
  ⟨h.outside,Set.union_subset_union_left _ h.sub⟩

theorem Settled.given_taken (h : Settled g) (hd : Disjoint (bitsOf mask) g.held) :
    (g.taken mask).given mask = g := by
  have hheld : (g.held ∪ bitsOf mask) \ bitsOf mask = g.held := by
    rw [Set.union_sdiff_right,sdiff_eq_left]
    exact hd.symm
  have hclaimed : (g.claimed ∪ bitsOf mask) \ bitsOf mask = g.claimed := by
    rw [Set.union_sdiff_right,sdiff_eq_left]
    exact (hd.mono_right h.sub).symm
  simp only [Own.taken,Own.given,hheld,hclaimed]

theorem Settled.follows_release (h : Settled g) (hd : Disjoint (bitsOf mask) g.held) :
    Follows syncProtocol (ixmapReleaseSwfwSync mask) (g.taken mask) fun _ g' => g' = g := by
  refine (follows_releaseSync (h.taken mask).outside Set.subset_union_right).mono ?_
  rintro _ g' rfl
  exact h.given_taken hd

theorem Settled.release (h : Settled g) (hd : Disjoint (bitsOf mask) g.held) {f : Unit → RegProg β}
    {Q : β → Own → Prop} (hf : Follows syncProtocol (f ()) g Q) :
    Follows syncProtocol (ixmapReleaseSwfwSync mask >>= f) (g.taken mask) Q := by
  refine Follows.bind (h.follows_release hd) ?_
  rintro _ g' rfl
  exact hf

theorem Settled.acquire (h : Settled g) (hsw : bitsOf mask ⊆ swBits) {f : ℤ → RegProg β} {Q : β → Own → Prop}
    (hfail : ∀ status, status ≠ 0 → Follows syncProtocol (f status) g Q)
    (hok : Disjoint (bitsOf mask) g.held → Follows syncProtocol (f 0) (g.taken mask) Q) :
    Follows syncProtocol (ixmapAcquireSwfwSync mask >>= f) g Q := by
  refine Follows.bind (follows_acquireSync h.outside hsw) ?_
  rintro status g' (⟨rfl,rfl,hd⟩ | ⟨hne,rfl⟩)
  · exact hok hd
  · exact hfail status hne

end

end Hw
end Ixmap
