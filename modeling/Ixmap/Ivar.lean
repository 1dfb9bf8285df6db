import Ixmap.AdapterIrq
import Ixmap.AdapterWindow
import Ixmap.Plane

/-! Interrupt routing: the vectors that `ixmap_configure_msix` writes to the IVAR registers, and those that
the masks of `ixmap_irq_open` name. -/
namespace Ixmap
namespace Kmod

abbrev Regs := ℕ → BitVec 32

def ivarReg (i : ℕ) : ℕ := 0x900+i*4

def eitrReg (i : ℕ) : ℕ := if i ≤ 23 then 0x820+i*4 else 0x12300+(i-24)*4

def ixmapWriteEitr (regs : Regs) (numInterruptRate vector : ℕ) : Regs :=
  let itrReg := BitVec.ofNat 32 numInterruptRate &&& 0xff8#32
  Function.update regs (eitrReg vector) (itrReg ||| 0x80000000#32)

def ixmapSetIvar (regs : Regs) (direction : ℕ) (queue msixVector : BitVec 8) : Regs :=
  let msixVector := msixVector ||| 0x80#8
  let index := 16*(queue &&& 1#8).toNat+8*direction
  let ivar := regs (ivarReg (queue >>> 1).toNat)
  let ivar := ivar &&& ~~~(0xff#32 <<< index)
  let ivar := ivar ||| msixVector.setWidth 32 <<< index
  Function.update regs (ivarReg (queue >>> 1).toNat) ivar

/-- The register accesses of one round of the request loops. -/
def routeQueue (rate direction : ℕ) (regs : Regs) (vector queueIdx : ℕ) : Regs :=
  ixmapWriteEitr (ixmapSetIvar regs direction (BitVec.ofNat 8 queueIdx) (BitVec.ofNat 8 vector)) rate vector

def requestLoopRegs (rate direction entries array : ℕ) :
    ℕ → Kernel → Regs → ℕ → ℕ → Except Fault (Option ℕ × Kernel × Regs)
  | 0, k, regs, _, _ => .ok (none,k,regs)
  | left+1, k, regs, vector, queueIdx =>
    match ixmapIrqAlloc k entries vector with
    | (none,k) => .ok (some queueIdx,k,regs)
    | (some irq,k) => do
      let k := k.setIrq array queueIdx irq
      let entry ← k.entryAt (some entries) vector
      match k.requestIrq entry.vector irq with
      | (false,k) => return (some queueIdx,← k.kfree (some irq),regs)
      | (true,k) =>
        requestLoopRegs rate direction entries array left k (routeQueue rate direction regs vector queueIdx)
          (vector+1) (queueIdx+1)

/-- The cleanup labels access no register. -/
def withRegs (regs : Regs) (x : Except Fault (Bool × Machine)) : Except Fault (Bool × Machine × Regs) :=
  x.map fun r => (r.1,r.2,regs)

def requestIrqsRegs (k : Kernel) (a : Adapter) (entries rx tx : ℕ) (regs : Regs) :
    Except Fault (Bool × Machine × Regs) := do
  let (stopped,k,regs) ← requestLoopRegs a.numInterruptRate 0 entries rx a.numRxQueues k regs 0 0
  match stopped with
  | some requested => withRegs regs (errAllocIrqRx k a entries rx tx requested)
  | none =>
    let (stopped,k,regs) ← requestLoopRegs a.numInterruptRate 1 entries tx a.numTxQueues k regs a.numRxQueues 0
    match stopped with
    | some requested => withRegs regs (errAllocIrqTx k a entries rx tx a.numRxQueues requested)
    | none => return (true,⟨k,a⟩,regs)

def ixmapConfigureMsixRegs (m : Machine) (regs : Regs) : Except Fault (Bool × Machine × Regs) :=
  let a := m.adapter
  let vectorNum := a.numRxQueues+a.numTxQueues
  if a.maxMsixVectors < vectorNum then .ok (false,m,regs)
  else
    match m.kernel.alloc (.msixEntries ((List.range vectorNum).map fun i => ⟨0,i⟩)) with
    | (none,k) => .ok (false,⟨k,{ a with msixEntries := none }⟩,regs)
    | (some entries,k) =>
      match enableLoop entries vectorNum k vectorNum with
      | (false,k) => withRegs regs (errPciEnableMsix k a entries)
      | (true,k) =>
        let a := { a with msixEntries := some entries, numQVectors := vectorNum }
        match k.alloc (.irqArray (List.replicate a.numRxQueues none)) with
        | (none,k) => withRegs regs (errPciEnableMsix k { a with rxIrq := none } entries)
        | (some rx,k) =>
          match k.alloc (.irqArray (List.replicate a.numTxQueues none)) with
          | (none,k) => withRegs regs (errAllocIrqArrayTx k { a with rxIrq := some rx, txIrq := none } entries rx)
          | (some tx,k) => requestIrqsRegs k { a with rxIrq := some rx, txIrq := some tx } entries rx tx regs

def routeQueues (rate direction : ℕ) : ℕ → Regs → ℕ → ℕ → Regs
  | 0, regs, _, _ => regs
  | left+1, regs, vector, queueIdx =>
    routeQueues rate direction left (routeQueue rate direction regs vector queueIdx) (vector+1) (queueIdx+1)

/-- The byte of a queue, receive for direction 0 and transmit for 1. -/
def ivarByte (regs : Regs) (direction queue : ℕ) : BitVec 8 :=
  (regs (ivarReg (queue/2))).extractLsb' (16*(queue%2)+8*direction) 8

/-- The device: bit 7 says that the entry is valid, the low bits are the vector. -/
def decodeIvar (b : BitVec 8) : Option ℕ := if b.getLsbD 7 then some (b &&& 0x3f#8).toNat else none

section Erase
variable {rate direction entries array : ℕ} {k : Kernel} {regs regs' : Regs}

theorem requestLoopRegs_eq (rate direction left vector queueIdx : ℕ) (regs : Regs) :
    (requestLoopRegs rate direction entries array left k regs vector queueIdx).map (fun r => (r.1,r.2.1)) =
      requestLoop entries array left k vector queueIdx := by
  induction left generalizing k regs vector queueIdx with
  | zero => rfl
  | succ left ih =>
    unfold requestLoopRegs requestLoop
    rcases ixmapIrqAlloc k entries vector with ⟨_ | irq,k₁⟩
    · rfl
    simp only
    rcases (k₁.setIrq array queueIdx irq).entryAt (some entries) vector with e | entry
    · rfl
    simp only [bind,Except.bind]
    rcases (k₁.setIrq array queueIdx irq).requestIrq entry.vector irq with ⟨_ | _,k₂⟩
    · simp only
      rcases k₂.kfree (some irq) with e | k₃ <;> rfl
    · exact ih (vector+1) (queueIdx+1) _

theorem requestLoopRegs_done {left vector queueIdx : ℕ} {k' : Kernel}
    (h : requestLoopRegs rate direction entries array left k regs vector queueIdx = .ok (none,k',regs')) :
    regs' = routeQueues rate direction left regs vector queueIdx := by
  induction left generalizing k regs vector queueIdx with
  | zero => simpa [requestLoopRegs,routeQueues] using (congrArg (fun x => x.2.2) (Except.ok.inj h)).symm
  | succ left ih =>
    unfold requestLoopRegs at h
    rcases halloc : ixmapIrqAlloc k entries vector with ⟨_ | irq,k₁⟩ <;> simp only [halloc] at h
    · simp at h
    rcases hentry : (k₁.setIrq array queueIdx irq).entryAt (some entries) vector with e | entry
    · simp [hentry,bind,Except.bind] at h
    simp only [hentry,bind,Except.bind] at h
    rcases hreq : (k₁.setIrq array queueIdx irq).requestIrq entry.vector irq with ⟨_ | _,k₂⟩ <;>
      simp only [hreq] at h
    · rcases hfree : k₂.kfree (some irq) with e | k₃ <;> simp [hfree,pure,Except.pure] at h
    · exact ih h

/-- A failure that the cleanup labels report. -/
def Reported (x : Except Fault (Bool × Machine)) : Prop := ∀ r, x = .ok r → r.1 = false

theorem Reported.bind {α : Type} (x : Except Fault α) {f : α → Except Fault (Bool × Machine)}
    (h : ∀ a, Reported (f a)) : Reported (x >>= f) := by
  intro r hr
  rcases x with e | a
  · simp [Bind.bind,Except.bind] at hr
  · exact h a r hr

theorem reported_errPciEnableMsix (k : Kernel) (a : Adapter) (entries : ℕ) :
    Reported (errPciEnableMsix k a entries) :=
  .bind _ fun _ r hr => by rw [← Except.ok.inj hr]

theorem reported_errAllocIrqArrayTx (k : Kernel) (a : Adapter) (entries rx : ℕ) :
    Reported (errAllocIrqArrayTx k a entries rx) :=
  .bind _ fun k => reported_errPciEnableMsix k a entries

theorem reported_errAllocIrqRx (k : Kernel) (a : Adapter) (entries rx tx n : ℕ) :
    Reported (errAllocIrqRx k a entries rx tx n) :=
  .bind _ fun _ => .bind _ fun k => reported_errAllocIrqArrayTx k a entries rx

theorem reported_errAllocIrqTx (k : Kernel) (a : Adapter) (entries rx tx n n' : ℕ) :
    Reported (errAllocIrqTx k a entries rx tx n n') :=
  .bind _ fun k => reported_errAllocIrqRx k a entries rx tx n

theorem Reported.withRegs_ne {x : Except Fault (Bool × Machine)} (h : Reported x) {m : Machine} :
    withRegs regs x ≠ .ok (true,m,regs') := by
  rcases x with e | r
  · simp [withRegs,Except.map]
  · simp [withRegs,Except.map,h r rfl]

theorem withRegs_map (x : Except Fault (Bool × Machine)) :
    (withRegs regs x).map (fun r => (r.1,r.2.1)) = x := by
  rcases x with e | r <;> rfl

end Erase

section Configure
variable {m m' : Machine} {regs regs' : Regs}

theorem requestIrqsRegs_eq (k : Kernel) (a : Adapter) (entries rx tx : ℕ) :
    (requestIrqsRegs k a entries rx tx regs).map (fun r => (r.1,r.2.1)) = requestIrqs k a entries rx tx := by
  unfold requestIrqsRegs requestIrqs
  rw [← requestLoopRegs_eq a.numInterruptRate 0 _ _ _ regs]
  rcases requestLoopRegs a.numInterruptRate 0 entries rx a.numRxQueues k regs 0 0 with e | ⟨_ | n,k₁,regs₁⟩
  · rfl
  · simp only [bind,Except.bind,Except.map]
    rw [← requestLoopRegs_eq a.numInterruptRate 1 _ _ _ regs₁]
    rcases requestLoopRegs a.numInterruptRate 1 entries tx a.numTxQueues k₁ regs₁ a.numRxQueues 0 with
      e | ⟨_ | n,k₂,regs₂⟩
    · rfl
    · rfl
    · exact withRegs_map _
  · exact withRegs_map _

/-- The registers do not steer the bring-up. -/
theorem configureMsixRegs_eq (m : Machine) (regs : Regs) :
    (ixmapConfigureMsixRegs m regs).map (fun r => (r.1,r.2.1)) = ixmapConfigureMsix m := by
  unfold ixmapConfigureMsixRegs ixmapConfigureMsix
  simp only
  split_ifs with hvec
  · rfl
  rcases m.kernel.alloc (.msixEntries ((List.range (m.adapter.numRxQueues+m.adapter.numTxQueues)).map
    fun i => ⟨0,i⟩)) with ⟨_ | entries,k⟩
  · rfl
  simp only
  rcases enableLoop entries (m.adapter.numRxQueues+m.adapter.numTxQueues) k
    (m.adapter.numRxQueues+m.adapter.numTxQueues) with ⟨_ | _,k⟩
  · exact withRegs_map _
  simp only
  rcases k.alloc (.irqArray (List.replicate m.adapter.numRxQueues none)) with ⟨_ | rx,k⟩
  · exact withRegs_map _
  simp only
  rcases k.alloc (.irqArray (List.replicate m.adapter.numTxQueues none)) with ⟨_ | tx,k⟩
  · exact withRegs_map _
  · exact requestIrqsRegs_eq _ _ _ _ _

theorem requestIrqsRegs_done {k : Kernel} {a : Adapter} {entries rx tx : ℕ}
    (h : requestIrqsRegs k a entries rx tx regs = .ok (true,m',regs')) :
    regs' = routeQueues a.numInterruptRate 1 a.numTxQueues
      (routeQueues a.numInterruptRate 0 a.numRxQueues regs 0 0) a.numRxQueues 0 := by
  unfold requestIrqsRegs at h
  rcases hrx : requestLoopRegs a.numInterruptRate 0 entries rx a.numRxQueues k regs 0 0 with
    e | ⟨_ | n,k₁,regs₁⟩ <;> simp only [hrx,bind,Except.bind] at h
  · simp at h
  · obtain rfl := requestLoopRegs_done hrx
    rcases htx : requestLoopRegs a.numInterruptRate 1 entries tx a.numTxQueues k₁
      (routeQueues a.numInterruptRate 0 a.numRxQueues regs 0 0) a.numRxQueues 0 with
      e | ⟨_ | n,k₂,regs₂⟩ <;> simp only [htx] at h
    · simp at h
    · obtain rfl := requestLoopRegs_done htx
      simpa [pure,Except.pure] using (congrArg (fun x => x.2.2) (Except.ok.inj h)).symm
    · exact absurd h (reported_errAllocIrqTx _ _ _ _ _ _ _).withRegs_ne
  · exact absurd h (reported_errAllocIrqRx _ _ _ _ _ _).withRegs_ne

theorem configureMsixRegs_done (h : ixmapConfigureMsixRegs m regs = .ok (true,m',regs')) :
    regs' = routeQueues m.adapter.numInterruptRate 1 m.adapter.numTxQueues
      (routeQueues m.adapter.numInterruptRate 0 m.adapter.numRxQueues regs 0 0) m.adapter.numRxQueues 0 := by
  unfold ixmapConfigureMsixRegs at h
  simp only at h
  split_ifs at h with hvec
  · simp at h
  split at h
  · simp at h
  split at h
  · exact ((reported_errPciEnableMsix _ _ _).withRegs_ne h).elim
  split at h
  · exact ((reported_errPciEnableMsix _ _ _).withRegs_ne h).elim
  split at h
  · exact ((reported_errAllocIrqArrayTx _ _ _ _).withRegs_ne h).elim
  · rw [requestIrqsRegs_done h]

end Configure

section Bytes
variable {rate direction direction' queue queue' vector : ℕ} {regs : Regs}

theorem getLsbD_255 (i : ℕ) : (0xff#32).getLsbD i = decide (i < 8) := by
  rw [show 0xff#32 = (BitVec.allOnes 8).setWidth 32 by decide,BitVec.getLsbD_setWidth,BitVec.getLsbD_allOnes]
  by_cases hi : i < 8
  · simp [hi,show i < 32 by omega]
  · simp [hi]

theorem extract_replaced (ivar : BitVec 32) (v : BitVec 8) {a b : ℕ} (ha : a < 4) (hb : b < 4) :
    ((ivar &&& ~~~(0xff#32 <<< (8*a))) ||| v.setWidth 32 <<< (8*a)).extractLsb' (8*b) 8 =
      if b = a then v else ivar.extractLsb' (8*b) 8 := by
  apply BitVec.eq_of_getLsbD_eq
  intro i hi
  have hbit : 8*b+i < 32 := by omega
  have hval : (v.setWidth 32).getLsbD (8*b+i-8*a) = v.getLsbD (8*b+i-8*a) := by
    rw [BitVec.getLsbD_setWidth]
    simp [show 8*b+i-8*a < 32 by omega]
  simp only [BitVec.getLsbD_extractLsb',BitVec.getLsbD_or,BitVec.getLsbD_and,BitVec.getLsbD_not,
    BitVec.getLsbD_shiftLeft,getLsbD_255,hval,hi,hbit,decide_true,Bool.true_and]
  split_ifs with hab
  · subst hab
    simp [hi]
  · rw [BitVec.getLsbD_extractLsb']
    rcases Nat.lt_or_gt_of_ne hab with hlt | hgt
    · simp [hi,show 8*b+i < 8*a by omega]
    · have hge : ¬ 8*b+i < 8*a := by omega
      have hfar : ¬ 8*b+i-8*a < 8 := by omega
      simp [hi,hge,hfar,BitVec.getLsbD_of_ge v (8*b+i-8*a) (by omega)]

theorem queue_and_one (hq : queue < 256) : (BitVec.ofNat 8 queue &&& 1#8).toNat = queue%2 := by
  rw [BitVec.toNat_and,BitVec.toNat_ofNat,Nat.mod_eq_of_lt hq]
  exact Nat.and_one_is_mod _

theorem queue_shift (hq : queue < 256) : (BitVec.ofNat 8 queue >>> 1).toNat = queue/2 := by
  rw [BitVec.toNat_ushiftRight,BitVec.toNat_ofNat,Nat.mod_eq_of_lt hq,Nat.shiftRight_one]

theorem ivarReg_inj {i j : ℕ} : ivarReg i = ivarReg j ↔ i = j := by
  unfold ivarReg
  omega

theorem eitrReg_ne_ivarReg {v i : ℕ} (hi : i < 64) : ivarReg i ≠ eitrReg v := by
  unfold eitrReg ivarReg
  split_ifs <;> omega

theorem ivarByte_routeQueue (hd : direction < 2) (hd' : direction' < 2) (hq : queue < 128) (hq' : queue' < 128) :
    ivarByte (routeQueue rate direction regs vector queue) direction' queue' =
      if direction' = direction ∧ queue' = queue then BitVec.ofNat 8 vector ||| 0x80#8
      else ivarByte regs direction' queue' := by
  have hreg : (routeQueue rate direction regs vector queue) (ivarReg (queue'/2)) =
      ixmapSetIvar regs direction (BitVec.ofNat 8 queue) (BitVec.ofNat 8 vector) (ivarReg (queue'/2)) :=
    Function.update_of_ne (eitrReg_ne_ivarReg (by omega)) _ _
  have hbyte : 16*(queue'%2)+8*direction' = 8*(2*(queue'%2)+direction') := by ring
  have hbyte' : 16*(queue%2)+8*direction = 8*(2*(queue%2)+direction) := by ring
  rw [ivarByte,ivarByte,hreg,ixmapSetIvar]
  simp only [queue_and_one (show queue < 256 by omega),queue_shift (show queue < 256 by omega)]
  by_cases hsame : queue'/2 = queue/2
  · rw [hsame,Function.update_self,hbyte,hbyte',extract_replaced _ _ (by omega) (by omega)]
    have hiff : 2*(queue'%2)+direction' = 2*(queue%2)+direction ↔ direction' = direction ∧ queue' = queue := by
      omega
    simp only [hiff]
  · rw [Function.update_of_ne (mt ivarReg_inj.mp hsame),if_neg (by rintro ⟨-,rfl⟩; exact hsame rfl)]

theorem ivarByte_routeQueues {left : ℕ} (hd : direction < 2) (hd' : direction' < 2) (hq' : queue' < 128)
    (hleft : queue+left ≤ 128) :
    ivarByte (routeQueues rate direction left regs vector queue) direction' queue' =
      if direction' = direction ∧ queue ≤ queue' ∧ queue' < queue+left then
        BitVec.ofNat 8 (vector+(queue'-queue)) ||| 0x80#8
      else ivarByte regs direction' queue' := by
  induction left generalizing regs vector queue with
  | zero => simp [routeQueues,show ¬ (queue ≤ queue' ∧ queue' < queue) by omega]
  | succ left ih =>
    rw [routeQueues,ih (by omega),ivarByte_routeQueue hd hd' (by omega) hq']
    by_cases hdir : direction' = direction
    · simp only [hdir,true_and]
      rcases Nat.lt_trichotomy queue' queue with hlt | rfl | hgt
      · rw [if_neg (by omega),if_neg hlt.ne,if_neg (by omega)]
      · simp
      · have hoff : vector+1+(queue'-(queue+1)) = vector+(queue'-queue) := by omega
        have hiff : (queue+1 ≤ queue' ∧ queue' < queue+1+left) ↔ (queue ≤ queue' ∧ queue' < queue+(left+1)) := by
          omega
        rw [hoff,if_neg hgt.ne']
        simp only [hiff]
    · simp [hdir]

theorem decodeIvar_vector {v : ℕ} (hv : v < 64) : decodeIvar (BitVec.ofNat 8 v ||| 0x80#8) = some v := by
  interval_cases v <;> rfl

end Bytes

open Construct ResourceLedger

/-- The writes of `ixmap_irq_unmask_queues` to `irqreg[0]` and `irqreg[1]`, which are `EIMS_EX(0)` and
`EIMS_EX(1)`. -/
def ixmapIrqUnmaskQueues (irqh : IrqHandle) : List (ℕ × BitVec 32) :=
  let low := (irqh.qmask &&& 0xffffffff#64).setWidth 32
  let high := (irqh.qmask >>> 32).setWidth 32
  (if low ≠ 0 then [(0,low)] else [])++(if high ≠ 0 then [(1,high)] else [])

/-- A one written to `EIMS_EX(i)` unmasks the vector of its bit. -/
def Unmasks (writes : List (ℕ × BitVec 32)) (vector : ℕ) : Prop :=
  ∃ w ∈ writes, w.1 = vector/32 ∧ w.2.getLsbD (vector%32) = true

/-- The handle stands for one vector. -/
structure IrqExact (irqh : IrqHandle) (vector : ℕ) : Prop where
  qmask : ∀ b, irqh.qmask.getLsbD b = decide (b = vector)
  unmask : ∀ v, Unmasks (ixmapIrqUnmaskQueues irqh) v ↔ v = vector

def IrqType.direction : IrqType → ℕ
  | .rx => 0
  | .tx => 1
  | .other => 2

section Masks
variable {irqh : IrqHandle}

theorem getLsbD_low_mask (i : ℕ) : (0xffffffff#64).getLsbD i = decide (i < 32) := by
  rw [show 0xffffffff#64 = (BitVec.allOnes 32).setWidth 64 by decide,BitVec.getLsbD_setWidth,
    BitVec.getLsbD_allOnes]
  by_cases hi : i < 32
  · simp [hi,show i < 64 by omega]
  · simp [hi]

theorem mem_nonzero {i j : ℕ} {mask : BitVec 32} {b : ℕ} :
    (∃ w ∈ if mask ≠ 0 then [(i,mask)] else [], w.1 = j ∧ w.2.getLsbD b = true) ↔
      i = j ∧ mask.getLsbD b = true := by
  split_ifs with hmask
  · simp
  · simp [not_not.mp hmask]

theorem unmasks_iff (v : ℕ) : Unmasks (ixmapIrqUnmaskQueues irqh) v ↔ irqh.qmask.getLsbD v = true := by
  unfold Unmasks ixmapIrqUnmaskQueues
  simp only [List.mem_append,or_and_right,exists_or,mem_nonzero]
  have hmod := Nat.mod_lt v (show 0 < 32 by decide)
  rcases Nat.lt_or_ge v 32 with hlow | hhigh
  · rw [Nat.div_eq_of_lt hlow,Nat.mod_eq_of_lt hlow]
    rw [BitVec.getLsbD_setWidth,BitVec.getLsbD_and,getLsbD_low_mask]
    simp [hlow]
  · rcases Nat.lt_or_ge v 64 with hv | hv
    · obtain ⟨hdiv,hsum⟩ : v/32 = 1 ∧ 32+v%32 = v := by omega
      simp [hdiv,hmod,hsum]
    · have hdiv : 2 ≤ v/32 := by omega
      simp [BitVec.getLsbD_of_ge _ v hv,show 0 ≠ v/32 by omega,show 1 ≠ v/32 by omega]

theorem getLsbD_widenedBit {n : ℕ} (hn : n < 32) (b : ℕ) :
    (widenedBit n).getLsbD b = (decide (b = n) || (decide (n = 31) && decide (32 ≤ b ∧ b < 64))) := by
  have hone : ∀ i, (1#32 <<< n).getLsbD i = decide (i = n) := by
    intro i
    rw [BitVec.getLsbD_shiftLeft,BitVec.getLsbD_one]
    rcases Nat.lt_trichotomy i n with hlt | rfl | hgt
    · simp [hlt,hlt.ne]
    · simp [hn]
    · simp [hgt.ne',show i-n ≠ 0 by omega]
  rw [widenedBit,BitVec.getLsbD_signExtend,BitVec.msb_eq_getLsbD_last,hone,hone]
  split_ifs with hb
  · simp [show b < 64 by omega,show ¬ 32 ≤ b by omega]
  · simp only [show b ≠ n by omega,decide_false,Bool.false_or,show 32-1 = n ↔ n = 31 by omega,
      show 32 ≤ b by omega,true_and]
    rw [Bool.and_comm]

/-- Shifting an `int` reaches all vectors but the last of the first register, whose sign is extended. -/
theorem irqExact_iff {vector : ℕ} (hv : vector < 32) (hmask : irqh.qmask = widenedBit vector) :
    IrqExact irqh vector ↔ vector ≠ 31 := by
  constructor
  · rintro ⟨hq,-⟩ rfl
    have hbit := hq 32
    rw [hmask,getLsbD_widenedBit (by decide)] at hbit
    simp at hbit
  · intro hne
    have hbits : ∀ b, irqh.qmask.getLsbD b = decide (b = vector) := by
      intro b
      rw [hmask,getLsbD_widenedBit hv]
      simp [hne]
    exact ⟨hbits,fun v => by rw [unmasks_iff,hbits,decide_eq_true_eq]⟩

theorem irqOpen_some {s s' : Sys Res} {ih : PortHandle} {coreId : ℕ} {type : IrqType}
    (h : ixmapIrqOpen s ih coreId type = (some irqh,s')) :
    coreId < ih.numQueues ∧ qmaskOf ih.numQueues coreId type = some irqh.qmask := by
  unfold ixmapIrqOpen at h
  split_ifs at h with hcore
  · simp at h
  rcases hefd : openFd s with ⟨_ | efd,s₁⟩ <;> simp only [hefd] at h
  · simp at h
  rcases hirq : s₁.attempt with ⟨_ | vector,s₂⟩ <;> simp only [hirq] at h
  · simp at h
  rcases haff : ixmapIrqSetaffinity s₂ with ⟨_ | _,s₃⟩ <;> simp only [haff] at h
  · simp at h
  rcases hmask : qmaskOf ih.numQueues coreId type with _ | qmask <;> simp only [hmask] at h
  · simp at h
  rcases halloc : numaAlloc s₃ sizeofIxmapIrqHandle with ⟨_ | self,s₄⟩ <;> simp only [halloc] at h
  · simp at h
  · obtain ⟨rfl⟩ := Option.some.inj (Prod.mk.inj h).1
    exact ⟨by omega,rfl⟩

end Masks

/-- Bring-up routes receive queue `q` to vector `q` and transmit queue `q` to `num_queues+q` and leaves the
other queues alone; the mask of a queue stands for its vector alone iff that is not vector 31. -/
theorem irq_routing_iff (m m' : Machine) (req : UpReq) (regs regs' : Regs) (hacc : req.accepted = true)
    (hsame : req.numTxQueues = req.numRxQueues)
    (hok : ixmapConfigureMsixRegs (req.store m) regs = .ok (true,m',regs')) :
    let n := req.numRxQueues
    (∀ q < n, decodeIvar (ivarByte regs' 0 q) = some q ∧ decodeIvar (ivarByte regs' 1 q) = some (n+q)) ∧
    (∀ d < 2, ∀ d' < 2, ∀ q < n, ∀ q' < n,
      decodeIvar (ivarByte regs' d q) = decodeIvar (ivarByte regs' d' q') → d = d' ∧ q = q') ∧
    (∀ d < 2, ∀ q < 128, n ≤ q → ivarByte regs' d q = ivarByte regs d q) ∧
    ∀ (s s' : Sys Res) (ih : PortHandle) (coreId : ℕ) (type : IrqType) (irqh : IrqHandle), ih.numQueues = n →
      ixmapIrqOpen s ih coreId type = (some irqh,s') →
      ∃ vector, decodeIvar (ivarByte regs' type.direction coreId) = some vector ∧
        (IrqExact irqh vector ↔ vector ≠ 31) := by
  intro n
  have hn : n ≤ 16 := by
    by_contra hlt
    have hmax : maxRssIndices < req.numRxQueues := not_le.mp hlt
    simp [UpReq.accepted,hmax] at hacc
  have hregs := configureMsixRegs_done hok
  simp only [UpReq.store,hsame] at hregs
  change regs' = routeQueues req.numInterruptRate 1 n (routeQueues req.numInterruptRate 0 n regs 0 0) n 0 at hregs
  have hbyte : ∀ d < 2, ∀ q < 128, ivarByte regs' d q =
      if q < n then BitVec.ofNat 8 (d*n+q) ||| 0x80#8 else ivarByte regs d q := by
    intro d hd q hq
    rw [hregs,ivarByte_routeQueues (by decide) hd hq (by omega),
      ivarByte_routeQueues (by decide) hd hq (by omega)]
    interval_cases d <;> simp
  have hvector : ∀ d < 2, ∀ q < n, decodeIvar (ivarByte regs' d q) = some (d*n+q) := by
    intro d hd q hq
    have hlt : d*n+q < 64 := by
      interval_cases d <;> omega
    rw [hbyte d hd q (by omega),if_pos hq,decodeIvar_vector hlt]
  refine ⟨fun q hq => ⟨?_,?_⟩,?_,?_,?_⟩
  · simpa using hvector 0 (by decide) q hq
  · simpa using hvector 1 (by decide) q hq
  · intro d hd d' hd' q hq q' hq' heq
    rw [hvector d hd q hq,hvector d' hd' q' hq',Option.some.injEq] at heq
    interval_cases d <;> interval_cases d' <;> omega
  · intro d hd q hq hle
    rw [hbyte d hd q hq,if_neg (by omega)]
  · intro s s' ih coreId type irqh hqueues hopen
    obtain ⟨hcore,hmask⟩ := irqOpen_some hopen
    rw [hqueues] at hcore hmask
    cases type with
    | rx =>
      exact ⟨coreId,by simpa [IrqType.direction] using hvector 0 (by decide) coreId hcore,
        irqExact_iff (by omega) (Option.some.inj hmask).symm⟩
    | tx =>
      have hmask' := (Option.some.inj hmask).symm
      rw [Nat.add_comm] at hmask'
      exact ⟨n+coreId,by simpa [IrqType.direction] using hvector 1 (by decide) coreId hcore,
        irqExact_iff (by omega) hmask'⟩
    | other => simp [qmaskOf] at hmask

theorem routed_sixteen (regs : Regs) : ∃ m' regs',
    ixmapConfigureMsixRegs ((⟨8,16,16⟩ : UpReq).store (probed granting).machine) regs = .ok (true,m',regs') := by
  have hready : Ready ((⟨8,16,16⟩ : UpReq).store (probed granting).machine) :=
    ⟨by decide,fun _ _ => rfl,.inr ⟨64,rfl,by decide⟩,fun _ _ => rfl⟩
  obtain ⟨m',hm',-⟩ := configureMsix_granted ⟨fun _ => rfl,rfl,rfl⟩ hready
  rw [← configureMsixRegs_eq _ regs] at hm'
  rcases hrun : ixmapConfigureMsixRegs ((⟨8,16,16⟩ : UpReq).store (probed granting).machine) regs with
    e | ⟨ok,m'',regs'⟩ <;> rw [hrun] at hm'
  · simp [Except.map] at hm'
  · obtain ⟨rfl,rfl⟩ := Prod.mk.inj (Except.ok.inj hm')
    exact ⟨m'',regs',rfl⟩

/-- The first transmit queue of 16. -/
theorem irq_routing_first_tx : ∃ irqh s', ixmapIrqOpen (Sys.init fun _ => some 1) ⟨⟨3,512,512⟩,16⟩ 0 .tx =
    (some irqh,s') ∧ IrqExact irqh 16 := by
  obtain ⟨m',regs',hok⟩ := routed_sixteen fun _ => 0
  have hopen : ∃ irqh s', ixmapIrqOpen (Sys.init fun _ => some 1) ⟨⟨3,512,512⟩,16⟩ 0 .tx = (some irqh,s') :=
    ⟨_,_,rfl⟩
  obtain ⟨irqh,s',hopen⟩ := hopen
  obtain ⟨hroute,-,-,hmask⟩ := irq_routing_iff _ m' ⟨8,16,16⟩ _ regs' (by decide) rfl hok
  obtain ⟨vector,hvector,hiff⟩ := hmask _ s' _ 0 .tx irqh rfl hopen
  obtain rfl : 16 = vector := Option.some.inj ((hroute 0 (by decide)).2.symm.trans hvector)
  exact ⟨irqh,s',hopen,hiff.mpr (by decide)⟩

/-- The last transmit queue of 16: all vectors from 31 on are unmasked. -/
theorem last_tx_unmasks_all : ∃ irqh s', ixmapIrqOpen (Sys.init fun _ => some 1) ⟨⟨3,512,512⟩,16⟩ 15 .tx =
    (some irqh,s') ∧ irqh.qmask = 0xffffffff80000000#64 ∧
      ixmapIrqUnmaskQueues irqh = [(0,0x80000000#32),(1,0xffffffff#32)] := by
  refine ⟨_,_,rfl,?_,?_⟩
  · decide
  · decide

end Kmod
end Ixmap
