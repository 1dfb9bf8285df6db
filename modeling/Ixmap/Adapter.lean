import Ixmap.BlockHeap
import Ixmap.DmaArea

/-! An adapter of the kernel module, `kmod/ixmap_main.c` and `kmod/ixmap_fops.c`: the interrupt objects
that bring-up acquires from the kernel, and the file operations of its device node. -/
namespace Ixmap
namespace Kmod
open BlockHeap GuardedRun

/-- What the kernel does not survive. -/
inductive Fault where
  | nullPointer
  | freed
  | outOfBounds
  | notRequested
  /-- A register access after the window was unmapped. -/
  | unmapped
deriving DecidableEq, Repr

structure MsixEntry where
  vector : ℕ
  entry : ℕ
deriving DecidableEq, Repr

/-- What the module allocates for interrupts. A `struct ixmap_irq` points to an entry of an array. -/
inductive Object where
  | unused
  | msixEntries (entries : List MsixEntry)
  | irqArray (irqs : List (Option ℕ))
  | irq (efdCtx : Option ℕ) (msixEntry : ℕ × ℕ)
deriving DecidableEq, Repr

/-- The services of the kernel for one device, with the outcomes of the calls still to come. -/
structure Kernel where
  heap : Heap Object
  /-- Outcome of each `request_irq`. -/
  requestOk : ℕ → Bool
  requests : ℕ
  /-- Handlers by interrupt number and `dev_id`. -/
  actions : List (ℕ × ℕ)
  /-- Vectors available at each `pci_enable_msix`, none for an error. -/
  available : ℕ → Option ℕ
  enables : ℕ
  /-- Vectors enabled now. -/
  enabled : ℕ
  /-- Interrupt number that the platform gives each vector. -/
  irqNumber : ℕ → ℕ
  /-- References that the module has taken to each eventfd context and not given back. -/
  efdRefs : ℕ → ℤ

namespace Kernel

def alloc (k : Kernel) (o : Object) : Option ℕ × Kernel :=
  match k.heap.alloc with
  | (none,heap) => (none,{ k with heap := heap })
  | (some b,heap) => (some b,{ k with heap := heap.write b o })

def kfree (k : Kernel) : Option ℕ → Except Fault Kernel
  | none => .ok k
  | some b => if k.heap.live b then .ok { k with heap := k.heap.free b } else .error .freed

def load (k : Kernel) : Option ℕ → Except Fault Object
  | none => .error .nullPointer
  | some b => if k.heap.live b then .ok (k.heap.val b) else .error .freed

def entryAt (k : Kernel) (entries : Option ℕ) (i : ℕ) : Except Fault MsixEntry := do
  match ← k.load entries with
  | .msixEntries l =>
    match l[i]? with
    | some e => return e
    | none => throw .outOfBounds
  | _ => throw .freed

def irqAt (k : Kernel) (array : Option ℕ) (i : ℕ) : Except Fault (Option ℕ) := do
  match ← k.load array with
  | .irqArray l =>
    match l[i]? with
    | some irq => return irq
    | none => throw .outOfBounds
  | _ => throw .freed

def irqFields (k : Kernel) (irq : Option ℕ) : Except Fault (Option ℕ × ℕ × ℕ) := do
  match ← k.load irq with
  | .irq efdCtx msixEntry => return (efdCtx,msixEntry)
  | _ => throw .freed

def setIrq (k : Kernel) (array i irq : ℕ) : Kernel :=
  match k.heap.val array with
  | .irqArray l => { k with heap := k.heap.write array (.irqArray (l.set i (some irq))) }
  | _ => k

def requestIrq (k : Kernel) (vector irq : ℕ) : Bool × Kernel :=
  if k.requestOk k.requests then
    (true,{ k with requests := k.requests+1, actions := k.actions++[(vector,irq)] })
  else (false,{ k with requests := k.requests+1 })

def freeIrq (k : Kernel) (vector irq : ℕ) : Except Fault Kernel :=
  if (vector,irq) ∈ k.actions then .ok { k with actions := k.actions.erase (vector,irq) }
  else .error .notRequested

def fillVectors (k : Kernel) (entries nvec : ℕ) : Kernel :=
  match k.heap.val entries with
  | .msixEntries l =>
    let filled := l.mapIdx fun i e => if i < nvec then { e with vector := k.irqNumber i } else e
    { k with heap := k.heap.write entries (.msixEntries filled) }
  | _ => k

/-- 0 for success, the number of vectors that can be had when they are too few, or an error. -/
def pciEnableMsix (k : Kernel) (entries nvec : ℕ) : ℤ × Kernel :=
  match k.available k.enables with
  | none => (-1,{ k with enables := k.enables+1 })
  | some n =>
    if nvec ≤ n then (0,{ k.fillVectors entries nvec with enables := k.enables+1, enabled := nvec })
    else if n = 0 then (-1,{ k with enables := k.enables+1 })
    else (n,{ k with enables := k.enables+1 })

def pciDisableMsix (k : Kernel) : Kernel := { k with enabled := 0 }

def eventfdCtxPut (k : Kernel) (ctx : ℕ) : Kernel := { k with efdRefs := k.efdRefs-Pi.single ctx 1 }

end Kernel

/-- `struct ixmap_adapter` and the limit its hardware sets. -/
structure Adapter where
  up : Bool
  refcount : ℕ
  dma : Dma
  msixEntries : Option ℕ
  numQVectors : ℕ
  rxIrq : Option ℕ
  txIrq : Option ℕ
  linkSpeed : ℕ
  linkDuplex : ℕ
  numRxQueues : ℕ
  numTxQueues : ℕ
  numInterruptRate : ℕ
  maxMsixVectors : ℕ
deriving DecidableEq, Repr

structure Machine where
  kernel : Kernel
  adapter : Adapter

/-- Every access to a register goes through `hw->hw_addr`. -/
def accessRegs (m : Machine) : Except Fault Unit := if m.adapter.dma.hwMapped then .ok () else .error .unmapped

def ixmapIrqAlloc (k : Kernel) (entries vector : ℕ) : Option ℕ × Kernel := k.alloc (.irq none (entries,vector))

def ixmapIrqFree (k : Kernel) (irq : Option ℕ) : Except Fault Kernel := do
  match ← k.irqFields irq with
  | (some ctx,_) => (k.eventfdCtxPut ctx).kfree irq
  | (none,_) => k.kfree irq

/-- The retry loop around `pci_enable_msix`; every return is less than the number asked for, so that
`vector_num` rounds are enough. -/
def enableLoop (entries : ℕ) : ℕ → Kernel → ℕ → Bool × Kernel
  | _, k, 0 => (true,k)
  | 0, k, _+1 => (false,k)
  | rounds+1, k, err+1 =>
    match k.pciEnableMsix entries (err+1) with
    | (ret,k) => if ret < 0 then (false,k) else enableLoop entries rounds k ret.toNat

/-- The loops that set up the interrupts of the receive and of the transmit queues, with the queues left
to do; on a failure, the number of interrupts that were requested before it. -/
def requestLoop (entries array : ℕ) : ℕ → Kernel → ℕ → ℕ → Except Fault (Option ℕ × Kernel)
  | 0, k, _, _ => .ok (none,k)
  | left+1, k, vector, queueIdx =>
    match ixmapIrqAlloc k entries vector with
    | (none,k) => .ok (some queueIdx,k)
    | (some irq,k) => do
      let k := k.setIrq array queueIdx irq
      let entry ← k.entryAt (some entries) vector
      match k.requestIrq entry.vector irq with
      | (false,k) => return (some queueIdx,← k.kfree (some irq))
      | (true,k) => requestLoop entries array left k (vector+1) (queueIdx+1)

/-- The loops that give interrupts back, from index `i` on; `release` disposes of the object. -/
def freeLoop (release : Kernel → Option ℕ → Except Fault Kernel) (array : Option ℕ) :
    ℕ → Kernel → ℕ → Except Fault Kernel
  | 0, k, _ => .ok k
  | left+1, k, i => do
    let irq ← k.irqAt array i
    let fields ← k.irqFields irq
    let entry ← k.entryAt (some fields.2.1) fields.2.2
    let k ← k.freeIrq entry.vector (irq.getD 0)
    let k ← release k irq
    freeLoop release array left k (i+1)

def errPciEnableMsix (k : Kernel) (a : Adapter) (entries : ℕ) : Except Fault (Bool × Machine) := do
  let k ← k.pciDisableMsix.kfree (some entries)
  return (false,⟨k,{ a with msixEntries := none }⟩)

def errAllocIrqArrayTx (k : Kernel) (a : Adapter) (entries rx : ℕ) : Except Fault (Bool × Machine) := do
  let k ← k.kfree (some rx)
  errPciEnableMsix k a entries

def errAllocIrqRx (k : Kernel) (a : Adapter) (entries rx tx numRxRequested : ℕ) :
    Except Fault (Bool × Machine) := do
  let k ← freeLoop Kernel.kfree (some rx) numRxRequested k 0
  let k ← k.kfree (some tx)
  errAllocIrqArrayTx k a entries rx

def errAllocIrqTx (k : Kernel) (a : Adapter) (entries rx tx numRxRequested numTxRequested : ℕ) :
    Except Fault (Bool × Machine) := do
  let k ← freeLoop Kernel.kfree (some tx) numTxRequested k 0
  errAllocIrqRx k a entries rx tx numRxRequested

def requestIrqs (k : Kernel) (a : Adapter) (entries rx tx : ℕ) : Except Fault (Bool × Machine) := do
  let (stopped,k) ← requestLoop entries rx a.numRxQueues k 0 0
  match stopped with
  | some requested => errAllocIrqRx k a entries rx tx requested
  | none =>
    let (stopped,k) ← requestLoop entries tx a.numTxQueues k a.numRxQueues 0
    match stopped with
    | some requested => errAllocIrqTx k a entries rx tx a.numRxQueues requested
    | none => return (true,⟨k,a⟩)

/-- Whether 0 is returned. -/
def ixmapConfigureMsix (m : Machine) : Except Fault (Bool × Machine) :=
  let a := m.adapter
  let vectorNum := a.numRxQueues+a.numTxQueues
  if a.maxMsixVectors < vectorNum then .ok (false,m)
  else
    match m.kernel.alloc (.msixEntries ((List.range vectorNum).map fun i => ⟨0,i⟩)) with
    | (none,k) => .ok (false,⟨k,{ a with msixEntries := none }⟩)
    | (some entries,k) =>
      match enableLoop entries vectorNum k vectorNum with
      | (false,k) => errPciEnableMsix k a entries
      | (true,k) =>
        let a := { a with msixEntries := some entries, numQVectors := vectorNum }
        match k.alloc (.irqArray (List.replicate a.numRxQueues none)) with
        | (none,k) => errPciEnableMsix k { a with rxIrq := none } entries
        | (some rx,k) =>
          match k.alloc (.irqArray (List.replicate a.numTxQueues none)) with
          | (none,k) => errAllocIrqArrayTx k { a with rxIrq := some rx, txIrq := none } entries rx
          | (some tx,k) => requestIrqs k { a with rxIrq := some rx, txIrq := some tx } entries rx tx

/-- A failure to set up the interrupts is logged and the adapter is up all the same. -/
def ixmapUp (m : Machine) : Except Fault Machine := do
  accessRegs m
  let (_,m) ← ixmapConfigureMsix m
  return { m with adapter := { m.adapter with up := true } }

def ixmapFreeMsix (m : Machine) : Except Fault Machine := do
  let a := m.adapter
  let k ← freeLoop ixmapIrqFree a.rxIrq a.numRxQueues m.kernel 0
  let k ← freeLoop ixmapIrqFree a.txIrq a.numTxQueues k 0
  let k ← k.kfree a.txIrq
  let k ← k.kfree a.rxIrq
  let k ← k.pciDisableMsix.kfree a.msixEntries
  return ⟨k,{ a with msixEntries := none, numQVectors := 0 }⟩

def synchronizeIrqs (k : Kernel) (entries : Option ℕ) : ℕ → Except Fault Unit
  | 0 => .ok ()
  | n+1 => do
    synchronizeIrqs k entries n
    let _ ← k.entryAt entries n

def ixmapReset (m : Machine) : Except Fault Machine := do
  accessRegs m
  return m

def ixmapDown (m : Machine) : Except Fault Machine := do
  accessRegs m
  synchronizeIrqs m.kernel m.adapter.msixEntries m.adapter.numQVectors
  let m ← ixmapReset m
  let m ← ixmapFreeMsix m
  return { m with adapter := { m.adapter with
    numInterruptRate := 0
    numRxQueues := 0
    numTxQueues := 0
    up := false } }

/-- `enum ixmap_irq_type`, and any other value. -/
inductive IrqType where
  | rx
  | tx
  | other
deriving DecidableEq, Repr

/-- Binds the context `ctx` that `eventfd_ctx_fdget` has found, if any. The vector and entry of the
interrupt are returned, nothing for `-EINVAL`. -/
def assignIrq (m : Machine) (array : Option ℕ) (queueIdx : ℕ) (ctx : Option ℕ) :
    Except Fault (Option MsixEntry × Machine) := do
  let k := m.kernel
  let irq ← k.irqAt array queueIdx
  match ctx with
  | none => return (none,m)
  | some ctx =>
    let (efdCtx,msixEntry) ← k.irqFields irq
    let k := { k with efdRefs := k.efdRefs+Pi.single ctx 1 }
    let k := match efdCtx with
      | some old => k.eventfdCtxPut old
      | none => k
    let k := { k with heap := k.heap.write (irq.getD 0) (.irq (some ctx) msixEntry) }
    let entry ← k.entryAt (some msixEntry.1) msixEntry.2
    return (some entry,{ m with kernel := k })

def ixmapIrqAssign (m : Machine) (type : IrqType) (queueIdx : ℕ) (ctx : Option ℕ) :
    Except Fault (Option MsixEntry × Machine) :=
  match type with
  | .rx =>
    if m.adapter.numRxQueues < queueIdx then .ok (none,m) else assignIrq m m.adapter.rxIrq queueIdx ctx
  | .tx =>
    if m.adapter.numTxQueues < queueIdx then .ok (none,m) else assignIrq m m.adapter.txIrq queueIdx ctx
  | .other => .ok (none,m)

/-- Return values of the file operations. -/
inductive Ret where
  | ok
  | ealready
  | efault
  | einval
  | enoent
  | ebusy
  | eagain
  | eoverflow
  | ebadfd
deriving DecidableEq, Repr

structure UpReq where
  numInterruptRate : ℕ
  numRxQueues : ℕ
  numTxQueues : ℕ
deriving DecidableEq, Repr

def maxEitr : ℕ := 0xff8
def maxRssIndices : ℕ := 16

/-- The request passes the checks of `ixmap_cmd_up`. -/
def UpReq.accepted (req : UpReq) : Bool :=
  !(decide (maxEitr < req.numInterruptRate) || decide (maxRssIndices < req.numRxQueues) ||
    decide (maxRssIndices < req.numTxQueues))

def UpReq.store (req : UpReq) (m : Machine) : Machine :=
  { m with adapter := { m.adapter with
      numInterruptRate := req.numInterruptRate
      numRxQueues := req.numRxQueues
      numTxQueues := req.numTxQueues } }

/-- `ixmap_up` never fails, so the branch that takes the adapter down again is not taken. -/
def ixmapCmdUp (m : Machine) (req : Option UpReq) : Except Fault (Ret × Machine) :=
  if m.adapter.up then .ok (.ealready,m)
  else
    match req with
    | none => .ok (.efault,m)
    | some req =>
      if !req.accepted then .ok (.einval,m)
      else do return (.ok,← ixmapUp (req.store m))

def ixmapCmdDown (m : Machine) : Except Fault (Ret × Machine) :=
  if !m.adapter.up then .ok (.ealready,m)
  else do return (.ok,← ixmapDown m)

def ixmapCmdReset (m : Machine) : Except Fault (Ret × Machine) :=
  if !m.adapter.up then .ok (.ok,m)
  else do return (.ok,← ixmapReset m)

def copyRet (copied : Bool) : Ret := if copied then .ok else .efault

/-- The link as the registers show it. -/
def ixmapCmdCheckLink (m : Machine) (linkUp : Bool) (linkSpeed : ℕ) (copied : Bool) :
    Except Fault (Ret × Machine) :=
  if !m.adapter.up then .ok (.eagain,m)
  else do
    accessRegs m
    let a := m.adapter
    let a := if linkUp then
        if a.linkSpeed = 0 then { a with linkSpeed := linkSpeed%2^16, linkDuplex := 2 } else a
      else if a.linkSpeed = 0 then a else { a with linkSpeed := 0, linkDuplex := 0 }
    return (copyRet copied,{ m with adapter := a })

def Machine.setDma (m : Machine) (d : Dma) : Machine := { m with adapter := { m.adapter with dma := d } }

/-- The request holds the virtual address and the size. -/
def ixmapCmdMap (m : Machine) (req : Option (ℕ × ℕ)) (o : MapOutcome) (copied : Bool) : Ret × Machine :=
  match req with
  | none => (.efault,m)
  | some (addrVirtual,size) =>
    if size = 0 then (.einval,m)
    else
      match ixmapDmaMap o m.adapter.dma addrVirtual size with
      | (0,d) => (.efault,m.setDma d)
      | (addrDma,d) =>
        if copied then (.ok,m.setDma d) else (.efault,m.setDma (ixmapDmaUnmap d addrDma).2)

def ixmapCmdUnmap (m : Machine) : Option ℕ → Ret × Machine
  | none => (.efault,m)
  | some addrDma =>
    match ixmapDmaUnmap m.adapter.dma addrDma with
    | (found,d) => (if found then .ok else .enoent,m.setDma d)

/-- The request holds the type and the queue; `ctx` is what its descriptor stands for. -/
def ixmapCmdIrq (m : Machine) (req : Option (IrqType × ℕ)) (ctx : Option ℕ) (copied : Bool) :
    Except Fault (Ret × Machine) :=
  match req with
  | none => .ok (.efault,m)
  | some (type,queueIdx) => do
    match ← ixmapIrqAssign m type queueIdx ctx with
    | (none,m) => return (.einval,m)
    | (some _,m) => return (copyRet copied,m)

/-- A command of `ixmap_ioctl` with its argument as `copy_from_user` delivers it, the outcomes of the
calls it makes, and whether the result can be copied back. -/
inductive Cmd where
  | info (copied : Bool)
  | up (req : Option UpReq)
  | map (req : Option (ℕ × ℕ)) (o : MapOutcome) (copied : Bool)
  | unmap (req : Option ℕ)
  | down
  | reset
  | checkLink (linkUp : Bool) (linkSpeed : ℕ) (copied : Bool)
  | irq (req : Option (IrqType × ℕ)) (ctx : Option ℕ) (copied : Bool)
  | other

def ixmapIoctl (m : Machine) : Cmd → Except Fault (Ret × Machine)
  | .info copied => .ok (copyRet copied,m)
  | .up req => ixmapCmdUp m req
  | .map req o copied => .ok (ixmapCmdMap m req o copied)
  | .unmap req => .ok (ixmapCmdUnmap m req)
  | .down => ixmapCmdDown m
  | .reset => ixmapCmdReset m
  | .checkLink linkUp linkSpeed copied => ixmapCmdCheckLink m linkUp linkSpeed copied
  | .irq req ctx copied => ixmapCmdIrq m req ctx copied
  | .other => .ok (.einval,m)

/-- The offset and size of the wanted mapping, and whether `remap_pfn_range` succeeds. -/
def ixmapMmap (m : Machine) (offset size : ℕ) (remapped : Bool) : Ret :=
  if offset ≠ 0 then .einval
  else
    match ixmapDmaAreaLookup m.adapter.dma.areas m.adapter.dma.iobase with
    | none => .enoent
    | some area => if area.size ≠ size then .eoverflow else if remapped then .ok else .eagain

/-- A file of the device node. Its last reference is dropped before `ixmap_close` runs, which gives up
the semaphore between taking the adapter down and dropping its reference. -/
inductive FileState where
  | closed
  | opened
  | closing
deriving DecidableEq, Repr

structure System where
  machine : Machine
  files : ℕ → FileState

def System.setFile (s : System) (file : ℕ) (f : FileState) : System :=
  { s with files := Function.update s.files file f }

def ixmapAdapterInuse (a : Adapter) : Bool := a.refcount != 1

def Machine.setRefcount (m : Machine) (refcount : ℕ) : Machine :=
  { m with adapter := { m.adapter with refcount := refcount } }

def ixmapOpen (s : System) (file : ℕ) : Ret × System :=
  let m := s.machine
  if ixmapAdapterInuse m.adapter then (.ebusy,s)
  else (.ok,{ s with machine := m.setRefcount (m.adapter.refcount+1) }.setFile file .opened)

inductive FileOp where
  | open (file : ℕ)
  | ioctl (file : ℕ) (cmd : Cmd)
  | mmap (file offset size : ℕ) (remapped : Bool)
  | closeDown (file : ℕ)
  | closePut (file : ℕ)

/-- One operation; those that the state of the file rules out do nothing. -/
def fileOp (s : System) : FileOp → Except Fault (Ret × System)
  | .open file => if s.files file = .closed then .ok (ixmapOpen s file) else .ok (.ebadfd,s)
  | .ioctl file cmd =>
    if s.files file = .opened then do
      let (ret,m) ← ixmapIoctl s.machine cmd
      return (ret,{ s with machine := m })
    else .ok (.ebadfd,s)
  | .mmap file offset size remapped =>
    if s.files file = .opened then .ok (ixmapMmap s.machine offset size remapped,s) else .ok (.ebadfd,s)
  | .closeDown file =>
    if s.files file = .opened then do
      let (_,m) ← ixmapCmdDown s.machine
      return (.ok,{ s with machine := m }.setFile file .closing)
    else .ok (.ebadfd,s)
  | .closePut file =>
    if s.files file = .closing then
      .ok (.ok,{ s with machine := s.machine.setRefcount (s.machine.adapter.refcount-1) }.setFile file .closed)
    else .ok (.ebadfd,s)

/-- The system after one operation more, unless the kernel has faulted. -/
def fileStep (s : Except Fault System) (op : FileOp) : Except Fault System := do
  let s ← s
  let (_,s) ← fileOp s op
  return s

/-- A kernel that has done nothing for the device yet. -/
structure Kernel.Fresh (k : Kernel) : Prop where
  dead : ∀ b, k.heap.live b = false
  actions : k.actions = []
  enabled : k.enabled = 0

/-- `ixmap_probe`, as far as its result depends on it: `ixmap_adapter_alloc` and the register window. -/
def ixmapProbe (k : Kernel) (iobase iolen maxMsixVectors : ℕ) (o : IobaseOutcome) : Option System :=
  match ixmapDmaMapIobase o ⟨[],iobase,iolen,false⟩ with
  | (false,_) => none
  | (true,d) => some ⟨⟨k,⟨false,1,d,none,0,none,none,0,0,0,0,0,maxMsixVectors⟩⟩,fun _ => .closed⟩

/-- A condition on the operations of a run, as long as the kernel has not faulted. -/
def Admits (C : System → FileOp → Prop) (s : Except Fault System) (op : FileOp) : Prop := ∀ t, s = .ok t → C t op

section
variable {s s' : System} {op : FileOp} {ops : List FileOp} {ret : Ret} {C : System → FileOp → Prop}
  {I : System → Prop}

theorem run_returns (hrun : Meets fileStep (Admits C) (.ok s) ops) (hI : I s)
    (hstep : ∀ s op ret s', op ∈ ops → I s → C s op → fileOp s op = .ok (ret,s') → I s') :
    ∀ s', ops.foldl fileStep (.ok s) = .ok s' → I s' := by
  apply hrun.invariant (I := fun x => ∀ t, x = .ok t → I t)
  · rintro t ⟨⟩
    exact hI
  · intro x op hop hx hC t ht
    cases x with
    | error e => cases ht
    | ok y =>
      rcases hy : fileOp y op with e | ⟨ret,z⟩
      · simp [fileStep,hy,bind,Except.bind] at ht
      · simp only [fileStep,hy,bind,Except.bind,pure,Except.pure] at ht
        cases ht
        exact hstep y op ret t hop (hx y rfl) (hC y rfl) hy

theorem run_ok (hrun : Meets fileStep (Admits C) (.ok s) ops) (hI : I s)
    (hstep : ∀ s op, op ∈ ops → I s → C s op → ∃ ret s', fileOp s op = .ok (ret,s') ∧ I s') :
    ∃ s', ops.foldl fileStep (.ok s) = .ok s' ∧ I s' := by
  apply hrun.invariant (I := fun x => ∃ t, x = .ok t ∧ I t)
  · exact ⟨s,rfl,hI⟩
  · rintro x op hop ⟨t,rfl,ht⟩ hC
    obtain ⟨ret,t',heq,ht'⟩ := hstep t op hop ht (hC t rfl)
    exact ⟨t',by simp [fileStep,heq,bind,Except.bind,pure,Except.pure],ht'⟩

theorem fileOp_cases (hop : fileOp s op = .ok (ret,s')) :
    s'.machine = s.machine ∨ (∃ refcount, s'.machine = s.machine.setRefcount refcount) ∨
    (∃ file cmd ret', op = .ioctl file cmd ∧ s.files file = .opened ∧
      ixmapIoctl s.machine cmd = .ok (ret',s'.machine)) ∨
    ∃ file ret', op = .closeDown file ∧ s.files file = .opened ∧
      ixmapCmdDown s.machine = .ok (ret',s'.machine) := by
  cases op with
  | «open» file =>
    simp only [fileOp,ixmapOpen] at hop
    split_ifs at hop
    · cases hop
      exact Or.inl rfl
    · cases hop
      exact Or.inr (Or.inl ⟨_,rfl⟩)
    · cases hop
      exact Or.inl rfl
  | ioctl file cmd =>
    simp only [fileOp] at hop
    split_ifs at hop with hfile
    · rcases hcmd : ixmapIoctl s.machine cmd with e | ⟨ret',m'⟩
      · simp [hcmd,bind,Except.bind] at hop
      · simp only [hcmd,bind,Except.bind,pure,Except.pure] at hop
        cases hop
        exact Or.inr (Or.inr (Or.inl ⟨file,cmd,_,rfl,hfile,hcmd⟩))
    · cases hop
      exact Or.inl rfl
  | mmap file offset size remapped =>
    simp only [fileOp] at hop
    split_ifs at hop
    · cases hop
      exact Or.inl rfl
    · cases hop
      exact Or.inl rfl
  | closeDown file =>
    simp only [fileOp] at hop
    split_ifs at hop with hfile
    · rcases hcmd : ixmapCmdDown s.machine with e | ⟨ret',m'⟩
      · simp [hcmd,bind,Except.bind] at hop
      · simp only [hcmd,bind,Except.bind,pure,Except.pure] at hop
        cases hop
        exact Or.inr (Or.inr (Or.inr ⟨file,ret',rfl,hfile,rfl⟩))
    · cases hop
      exact Or.inl rfl
  | closePut file =>
    simp only [fileOp] at hop
    split_ifs at hop
    · cases hop
      exact Or.inr (Or.inl ⟨_,rfl⟩)
    · cases hop
      exact Or.inl rfl

end

/-- What `IXMAP_MAP` leaves: nothing changed, the areas after the mapping, or, when the address cannot be
copied back, the areas after it is undone. -/
theorem cmdMap_cases (m : Machine) (req : Option (ℕ × ℕ)) (o : MapOutcome) (copied : Bool) :
    (ixmapCmdMap m req o copied).2 = m ∨ ∃ addrVirtual size d, req = some (addrVirtual,size) ∧
      (ixmapCmdMap m req o copied).2 = m.setDma d ∧
      (d = (ixmapDmaMap o m.adapter.dma addrVirtual size).2 ∨
        copied = false ∧ (ixmapDmaMap o m.adapter.dma addrVirtual size).1 ≠ 0 ∧
          d = (ixmapDmaUnmap (ixmapDmaMap o m.adapter.dma addrVirtual size).2
            (ixmapDmaMap o m.adapter.dma addrVirtual size).1).2) := by
  obtain _ | ⟨addrVirtual,size⟩ := req
  · exact Or.inl rfl
  · by_cases hsize : size = 0
    · exact Or.inl (by simp [ixmapCmdMap,hsize])
    · right
      refine ⟨addrVirtual,size,?_⟩
      rcases hmap : ixmapDmaMap o m.adapter.dma addrVirtual size with ⟨addrDma,d⟩
      cases addrDma with
      | zero => exact ⟨d,rfl,by simp [ixmapCmdMap,hsize,hmap],Or.inl rfl⟩
      | succ addrDma =>
        cases copied with
        | true => exact ⟨d,rfl,by simp [ixmapCmdMap,hsize,hmap],Or.inl rfl⟩
        | false =>
          exact ⟨(ixmapDmaUnmap d (addrDma+1)).2,rfl,by simp [ixmapCmdMap,hsize,hmap],
            Or.inr ⟨rfl,by simp,rfl⟩⟩

end Kmod
end Ixmap
