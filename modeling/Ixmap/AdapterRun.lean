import Ixmap.AdapterIrq
import Ixmap.AdapterWindow

/-! Runs of file operations on a probed adapter: the interrupts match the state of the adapter, and
which calls to assign one go wrong. -/
namespace Ixmap
namespace Kmod
open BlockHeap GuardedRun

/-- A request to bring the adapter up that is accepted gets all it asks the kernel for. -/
def UpReady (m : Machine) : Cmd → Prop
  | .up (some req) => m.adapter.up = false → req.accepted = true → Ready (req.store m)
  | _ => True

/-- A request for an interrupt does not name the queue just past the last one. -/
def IrqInRange (m : Machine) : Cmd → Prop
  | .irq (some (type,queueIdx)) _ _ => ¬ PastEnd m.adapter type queueIdx
  | _ => True

section
variable {m m' : Machine} {cmd : Cmd} {ret : Ret}

theorem IrqInv.of_eq (h : IrqInv m) (hk : m'.kernel = m.kernel) (ha : ∃ d speed duplex refcount,
    m'.adapter = { m.adapter with dma := d, linkSpeed := speed, linkDuplex := duplex, refcount := refcount }) :
    IrqInv m' := by
  obtain ⟨k',a'⟩ := m'
  obtain ⟨d,speed,duplex,refcount,rfl⟩ := ha
  obtain rfl : k' = m.kernel := hk
  refine ⟨fun hup => h.up hup,fun hdown => ?_⟩
  obtain ⟨hfresh,h1,h2,h3,h4⟩ := h.down hdown
  exact ⟨hfresh,h1,h2,h3,h4⟩

theorem IrqInv.setDma (h : IrqInv m) (d : Dma) : IrqInv (m.setDma d) := h.of_eq rfl ⟨_,_,_,_,rfl⟩

theorem IrqInv.setRefcount (h : IrqInv m) (refcount : ℕ) : IrqInv (m.setRefcount refcount) :=
  h.of_eq rfl ⟨_,_,_,_,rfl⟩

theorem IrqInv.cmdUp {req : Option UpReq} (h : IrqInv m) (hready : UpReady m (.up req))
    (hmapped : m.adapter.dma.hwMapped = true) :
    ∃ ret m', ixmapCmdUp m req = .ok (ret,m') ∧ IrqInv m' ∧ m'.adapter.dma = m.adapter.dma ∧
      m'.adapter.refcount = m.adapter.refcount := by
  unfold ixmapCmdUp
  cases hup : m.adapter.up with
  | true => exact ⟨_,m,rfl,h,rfl,rfl⟩
  | false =>
    cases req with
    | none => exact ⟨_,m,rfl,h,rfl,rfl⟩
    | some req =>
      cases hacc : req.accepted with
      | false => exact ⟨.einval,m,by simp [hacc],h,rfl,rfl⟩
      | true =>
        have hfresh : (req.store m).kernel.Fresh := (h.down hup).kernel
        obtain ⟨m',hrun,hconf,hdma,href⟩ := configureMsix_granted hfresh (hready hup hacc)
        have hregs : accessRegs (req.store m) = .ok () := by simp [accessRegs,UpReq.store,hmapped]
        refine ⟨.ok,{ m' with adapter := { m'.adapter with up := true } },?_,⟨fun _ => hconf,?_⟩,hdma,href⟩
        · simp [hacc,ixmapUp,hregs,hrun,bind,Except.bind,pure,Except.pure]
        · intro hno
          cases hno

theorem IrqInv.cmdDown (h : IrqInv m) (hmapped : m.adapter.dma.hwMapped = true) :
    ∃ ret m', ixmapCmdDown m = .ok (ret,m') ∧ Down m' ∧ m'.adapter.up = false ∧
      m'.adapter.dma = m.adapter.dma ∧ m'.adapter.refcount = m.adapter.refcount := by
  unfold ixmapCmdDown
  cases hup : m.adapter.up with
  | false => exact ⟨_,m,rfl,h.down hup,hup,rfl,rfl⟩
  | true =>
    obtain ⟨m',hrun,hdown,hup',hdma,href⟩ := ixmapDown_configured hmapped (h.up hup)
    exact ⟨.ok,m',by simp [hrun,bind,Except.bind,pure,Except.pure],hdown,hup',hdma,href⟩

theorem Down.irqInv (h : Down m) (hup : m.adapter.up = false) : IrqInv m :=
  ⟨fun hno => by simp [hup] at hno,fun _ => h⟩

theorem IrqInv.cmdCheckLink (h : IrqInv m) (hmapped : m.adapter.dma.hwMapped = true) (linkUp : Bool)
    (linkSpeed : ℕ) (copied : Bool) :
    ∃ ret m', ixmapCmdCheckLink m linkUp linkSpeed copied = .ok (ret,m') ∧ IrqInv m' ∧
      m'.adapter.dma = m.adapter.dma ∧ m'.adapter.refcount = m.adapter.refcount := by
  unfold ixmapCmdCheckLink
  cases hup : m.adapter.up with
  | false => exact ⟨_,m,rfl,h,rfl,rfl⟩
  | true =>
    have hregs : accessRegs m = .ok () := by simp [accessRegs,hmapped]
    simp only [hregs,bind,Except.bind,pure,Except.pure]
    refine ⟨_,_,rfl,h.of_eq rfl ?_,?_,?_⟩
    · split_ifs <;> exact ⟨_,_,_,_,rfl⟩
    · split_ifs <;> rfl
    · split_ifs <;> rfl

theorem IrqInv.cmdIrq (h : IrqInv m) {req : Option (IrqType × ℕ)} {ctx : Option ℕ} {copied : Bool}
    (hrange : IrqInRange m (.irq req ctx copied)) :
    ∃ ret m', ixmapCmdIrq m req ctx copied = .ok (ret,m') ∧ IrqInv m' ∧ m'.adapter = m.adapter := by
  obtain _ | ⟨type,queueIdx⟩ := req
  · exact ⟨_,m,rfl,h,rfl⟩
  · by_cases hlt : queueIdx < m.adapter.queues type
    · have htype : type ≠ .other := by
        rintro rfl
        simp [Adapter.queues] at hlt
      have hnot : ¬ Down m := fun hm => by simp [hm.queues] at hlt
      have hm := h.cases.resolve_right hnot
      have hup : m.adapter.up = true := by
        by_contra hup
        exact hnot (h.down (by simpa using hup))
      obtain ⟨entries,p,-,-,-,hassign,hconf⟩ := hm.assign_lt htype hlt
      cases ctx with
      | none =>
        exact ⟨.einval,m,by simp [ixmapCmdIrq,hassign,bind,Except.bind,pure,Except.pure],h,rfl⟩
      | some c =>
        refine ⟨copyRet copied,rebound m entries p c,by simp [ixmapCmdIrq,hassign,bind,Except.bind,pure,Except.pure],
          ⟨fun _ => hconf c,?_⟩,rfl⟩
        intro hno
        rw [rebound] at hno
        simp [hup] at hno
    · have hgt : type = .other ∨ m.adapter.queues type < queueIdx := by
        by_cases htype : type = .other
        · exact Or.inl htype
        · exact Or.inr (lt_of_le_of_ne (not_lt.mp hlt) fun he => hrange ⟨htype,he.symm⟩)
      exact ⟨.einval,m,by simp [ixmapCmdIrq,assign_gt hgt,bind,Except.bind,pure,Except.pure],h,rfl⟩

theorem IrqInv.ioctl (h : IrqInv m) (hready : UpReady m cmd) (hrange : IrqInRange m cmd)
    (hmapped : m.adapter.dma.hwMapped = true) :
    ∃ ret m', ixmapIoctl m cmd = .ok (ret,m') ∧ IrqInv m' ∧ m'.adapter.refcount = m.adapter.refcount := by
  cases cmd with
  | info copied => exact ⟨_,m,rfl,h,rfl⟩
  | up req =>
    obtain ⟨ret,m',hrun,hinv,-,href⟩ := h.cmdUp hready hmapped
    exact ⟨ret,m',hrun,hinv,href⟩
  | map req o copied =>
    refine ⟨_,(ixmapCmdMap m req o copied).2,rfl,?_⟩
    obtain hm | ⟨addrVirtual,size,d,-,hm,-⟩ := cmdMap_cases m req o copied
    · rw [hm]
      exact ⟨h,rfl⟩
    · rw [hm]
      exact ⟨h.setDma d,rfl⟩
  | unmap req =>
    cases req with
    | none => exact ⟨_,m,rfl,h,rfl⟩
    | some addrDma => exact ⟨_,_,rfl,h.setDma _,rfl⟩
  | down =>
    obtain ⟨ret,m',hrun,hdown,hup,-,href⟩ := h.cmdDown hmapped
    exact ⟨ret,m',hrun,hdown.irqInv hup,href⟩
  | reset =>
    refine ⟨.ok,m,?_,h,rfl⟩
    simp [ixmapIoctl,ixmapCmdReset,ixmapReset,accessRegs,hmapped,bind,Except.bind,pure,Except.pure]
  | checkLink linkUp linkSpeed copied =>
    obtain ⟨ret,m',hrun,hinv,-,href⟩ := h.cmdCheckLink hmapped linkUp linkSpeed copied
    exact ⟨ret,m',hrun,hinv,href⟩
  | irq req ctx copied =>
    obtain ⟨ret,m',hrun,hinv,ha⟩ := h.cmdIrq hrange
    exact ⟨ret,m',hrun,hinv,by rw [ha]⟩
  | other => exact ⟨_,m,rfl,h,rfl⟩

/-- With the registers unmapped, the commands that touch them fault or do nothing. -/
theorem unmapped_ioctl (hun : m.adapter.dma.hwMapped = false) (hrun : ixmapIoctl m cmd = .ok (ret,m')) :
    m' = m ∨ (∃ d, m' = m.setDma d) ∨ ∃ req ctx copied, cmd = .irq req ctx copied := by
  have hregs : accessRegs m = .error .unmapped := by simp [accessRegs,hun]
  cases cmd with
  | info copied =>
    cases hrun
    exact Or.inl rfl
  | up req =>
    left
    simp only [ixmapIoctl,ixmapCmdUp] at hrun
    split_ifs at hrun
    · cases hrun
      rfl
    · obtain _ | req := req
      · cases hrun
        rfl
      · have hregs' : accessRegs (req.store m) = .error .unmapped := hregs
        simp only [ixmapUp,hregs',bind,Except.bind] at hrun
        split_ifs at hrun
        cases hrun
        rfl
  | map req o copied =>
    have hm' : m' = (ixmapCmdMap m req o copied).2 := (congrArg Prod.snd (Except.ok.inj hrun)).symm
    obtain hm | ⟨addrVirtual,size,d,-,hm,-⟩ := cmdMap_cases m req o copied
    · exact Or.inl (hm'.trans hm)
    · exact Or.inr (Or.inl ⟨d,hm'.trans hm⟩)
  | unmap req =>
    obtain _ | addrDma := req
    · cases hrun
      exact Or.inl rfl
    · cases hrun
      exact Or.inr (Or.inl ⟨_,rfl⟩)
  | down =>
    left
    simp only [ixmapIoctl,ixmapCmdDown,ixmapDown,hregs,bind,Except.bind] at hrun
    split_ifs at hrun
    cases hrun
    rfl
  | reset =>
    left
    simp only [ixmapIoctl,ixmapCmdReset,ixmapReset,hregs,bind,Except.bind] at hrun
    split_ifs at hrun
    cases hrun
    rfl
  | checkLink linkUp linkSpeed copied =>
    left
    simp only [ixmapIoctl,ixmapCmdCheckLink,hregs,bind,Except.bind] at hrun
    split_ifs at hrun
    cases hrun
    rfl
  | irq req ctx copied => exact Or.inr (Or.inr ⟨req,ctx,copied,rfl⟩)
  | other =>
    cases hrun
    exact Or.inl rfl

/-- A command that returns keeps the interrupts in order, whatever its other arguments. -/
theorem IrqInv.ioctl_returns (h : IrqInv m) (cmd : Cmd) (hready : UpReady m cmd)
    (hrun : ixmapIoctl m cmd = .ok (ret,m')) : IrqInv m' := by
  by_cases hrange : IrqInRange m cmd
  · cases hmapped : m.adapter.dma.hwMapped with
    | true =>
      obtain ⟨ret',m'',hrun',hinv,-⟩ := h.ioctl hready hrange hmapped
      rw [hrun] at hrun'
      cases hrun'
      exact hinv
    | false =>
      obtain rfl | ⟨d,rfl⟩ | ⟨req,ctx,copied,rfl⟩ := unmapped_ioctl hmapped hrun
      · exact h
      · exact h.setDma d
      · obtain ⟨ret',m'',hrun',hinv,-⟩ := h.cmdIrq hrange
        rw [ixmapIoctl,hrun'] at hrun
        cases hrun
        exact hinv
  · -- only the assignment of an interrupt can be out of range, and then it faults
    cases cmd with
    | irq req ctx copied =>
      obtain _ | ⟨type,queueIdx⟩ := req
      · exact absurd trivial hrange
      · obtain ⟨htype,rfl⟩ := not_not.mp hrange
        obtain ⟨e,he⟩ := h.assign_end htype ctx
        simp [ixmapIoctl,ixmapCmdIrq,he,bind,Except.bind] at hrun
    | _ => exact absurd trivial hrange

end

def UpsReady (s : System) : FileOp → Prop
  | .ioctl file cmd => s.files file = .opened → UpReady s.machine cmd
  | _ => True

section
variable {s s' : System} {op : FileOp} {ret : Ret}

theorem IrqInv.fileOp_returns (h : IrqInv s.machine) (hready : UpsReady s op) (hop : fileOp s op = .ok (ret,s')) :
    IrqInv s'.machine := by
  obtain hm | ⟨refcount,hm⟩ | ⟨file,cmd,ret',rfl,hfile,hcmd⟩ | ⟨file,ret',rfl,-,hcmd⟩ := fileOp_cases hop
  · rw [hm]
    exact h
  · rw [hm]
    exact h.setRefcount refcount
  · exact h.ioctl_returns cmd (hready hfile) hcmd
  · exact h.ioctl_returns .down trivial hcmd

theorem probe_irqInv {k : Kernel} {iobase iolen maxMsixVectors : ℕ} {o : IobaseOutcome} (hk : k.Fresh)
    (hprobe : ixmapProbe k iobase iolen maxMsixVectors o = some s) : IrqInv s.machine := by
  unfold ixmapProbe at hprobe
  split at hprobe
  · cases hprobe
  · cases hprobe
    exact Down.irqInv ⟨hk,rfl,rfl,rfl,rfl⟩ rfl

end

def IrqsInRange (s : System) : FileOp → Prop
  | .ioctl file cmd => s.files file = .opened → IrqInRange s.machine cmd
  | _ => True

section
variable {s s' : System} {op : FileOp} {iobase : ℕ}

/-- The interrupts are in order and the registers are mapped. -/
structure MachineInv (iobase : ℕ) (m : Machine) : Prop where
  irq : IrqInv m
  window : WindowInv iobase m.adapter.dma

theorem MachineInv.fileOp (h : MachineInv iobase s.machine) (hready : UpsReady s op) (hrange : IrqsInRange s op)
    (hkeep : WindowKept s op) :
    ∃ ret s', Kmod.fileOp s op = .ok (ret,s') ∧ MachineInv iobase s'.machine := by
  have hok : ∃ r, Kmod.fileOp s op = .ok r := by
    cases op with
    | «open» file =>
      simp only [Kmod.fileOp]
      split_ifs <;> exact ⟨_,rfl⟩
    | ioctl file cmd =>
      simp only [Kmod.fileOp]
      split_ifs with hfile
      · obtain ⟨ret,m',hrun,-⟩ := h.irq.ioctl (hready hfile) (hrange hfile) h.window.mapped
        exact ⟨(ret,{ s with machine := m' }),by simp [hrun,bind,Except.bind,pure,Except.pure]⟩
      · exact ⟨_,rfl⟩
    | mmap file offset size remapped =>
      simp only [Kmod.fileOp]
      split_ifs <;> exact ⟨_,rfl⟩
    | closeDown file =>
      simp only [Kmod.fileOp]
      split_ifs with hfile
      · obtain ⟨ret,m',hrun,-⟩ := h.irq.cmdDown h.window.mapped
        exact ⟨(.ok,{ s with machine := m' }.setFile file .closing),
          by simp [hrun,bind,Except.bind,pure,Except.pure]⟩
      · exact ⟨_,rfl⟩
    | closePut file =>
      simp only [Kmod.fileOp]
      split_ifs <;> exact ⟨_,rfl⟩
  obtain ⟨⟨ret,s'⟩,heq⟩ := hok
  have hwindow := h.window.fileOp hkeep
  rw [heq] at hwindow
  exact ⟨ret,s',heq,h.irq.fileOp_returns hready heq,hwindow⟩

end

/-- The object `irq` is live, bound to the entry `i` of the adapter, which is enabled, and its handler is
installed for the vector of this entry. -/
structure BoundIrq (m : Machine) (irq i : ℕ) : Prop where
  live : m.kernel.heap.live irq = true
  entry : ∃ efdCtx entries, m.adapter.msixEntries = some entries ∧ m.kernel.heap.val irq = .irq efdCtx (entries,i)
  enabled : i < m.kernel.enabled
  requested : ∃ e, m.kernel.entryAt m.adapter.msixEntries i = .ok e ∧ (e.vector,irq) ∈ m.kernel.actions

/-- Interrupt resources match the state of the adapter. The lists give each object with its entry. -/
structure IrqsMatch (m : Machine) : Prop where
  up : m.adapter.up = true → ∃ rxs txs : List (ℕ × ℕ),
    m.kernel.load m.adapter.rxIrq = .ok (.irqArray (rxs.map fun p => some p.1)) ∧
    m.kernel.load m.adapter.txIrq = .ok (.irqArray (txs.map fun p => some p.1)) ∧
    rxs.length = m.adapter.numRxQueues ∧ txs.length = m.adapter.numTxQueues ∧
    ((rxs++txs).map Prod.fst).Nodup ∧ ((rxs++txs).map Prod.snd).Nodup ∧ (∀ p ∈ rxs++txs, BoundIrq m p.1 p.2) ∧
    m.adapter.numQVectors = m.adapter.numRxQueues+m.adapter.numTxQueues ∧
    m.adapter.numQVectors ≤ m.kernel.enabled
  down : m.adapter.up = false → (∀ b, m.kernel.heap.live b = false) ∧ m.kernel.actions = [] ∧ m.kernel.enabled = 0

theorem Configured.match {m : Machine} (hm : Configured m) : ∃ rxs txs : List (ℕ × ℕ),
    m.kernel.load m.adapter.rxIrq = .ok (.irqArray (rxs.map fun p => some p.1)) ∧
    m.kernel.load m.adapter.txIrq = .ok (.irqArray (txs.map fun p => some p.1)) ∧
    rxs.length = m.adapter.numRxQueues ∧ txs.length = m.adapter.numTxQueues ∧
    ((rxs++txs).map Prod.fst).Nodup ∧ ((rxs++txs).map Prod.snd).Nodup ∧ (∀ p ∈ rxs++txs, BoundIrq m p.1 p.2) ∧
    m.adapter.numQVectors = m.adapter.numRxQueues+m.adapter.numTxQueues ∧
    m.adapter.numQVectors ≤ m.kernel.enabled := by
  obtain ⟨entries,rx,tx,rxs,txs,hentries,hrx,htx,hlen1,hlen2,hnum,hvec,hbooks⟩ := hm
  refine ⟨rxs.map fun p => (p.block,p.vector),txs.map fun p => (p.block,p.vector),?_,?_,
    by simpa using hlen1,by simpa using hlen2,?_,?_,?_,hnum,by rw [hnum,hbooks.enabled]⟩
  · rw [hrx,hbooks.load (c := rx) (o := .irqArray (slots rxs)) (by simp)]
    simp [slots,Function.comp_def]
  · rw [htx,hbooks.load (c := tx) (o := .irqArray (slots txs)) (by simp)]
    simp [slots,Function.comp_def]
  · have hnodup := hbooks.holds.nodup
    rw [List.map_append] at hnodup
    simpa [Irq.object,Function.comp_def] using hnodup.of_append_right
  · have hrange : ((rxs++txs).map Irq.vector).Nodup := by
      rw [hvec]
      exact List.nodup_range
    simpa [Function.comp_def] using hrange
  · intro p hp
    rw [← List.map_append] at hp
    obtain ⟨q,hq,rfl⟩ := List.mem_map.mp hp
    obtain ⟨hlive,hval⟩ := hbooks.object hq
    have hlt := hbooks.bound q hq
    refine ⟨hlive,⟨q.efdCtx,entries,hentries,hval⟩,by rw [hbooks.enabled]; exact hlt,?_⟩
    refine ⟨_,by rw [hentries]; exact hbooks.entryAt hlt,?_⟩
    rw [hbooks.actions]
    exact List.mem_map_of_mem (f := fun p : Irq => (m.kernel.irqNumber p.vector,p.block)) hq

theorem IrqInv.match {m : Machine} (h : IrqInv m) : IrqsMatch m :=
  ⟨fun hup => (h.up hup).match,fun hdown => ⟨(h.down hdown).kernel.dead,(h.down hdown).kernel.actions,
    (h.down hdown).kernel.enabled⟩⟩

/-- Opens, closes and the commands that bring the adapter up and down or reset it. -/
def FileOp.lifecycle : FileOp → Bool
  | .ioctl _ (.up _) => true
  | .ioctl _ .down => true
  | .ioctl _ .reset => true
  | .ioctl _ _ => false
  | .mmap .. => false
  | _ => true

/-- Bring-up and tear-down in any order, each bring-up getting what it asks the kernel for: nothing is
freed twice or used after it, and the interrupts match the state of the adapter throughout. -/
theorem irqs_match (k : Kernel) (iobase iolen maxMsixVectors : ℕ) (o : IobaseOutcome) (s : System)
    (ops : List FileOp) (hk : k.Fresh) (hprobe : ixmapProbe k iobase iolen maxMsixVectors o = some s)
    (hops : ∀ op ∈ ops, op.lifecycle = true) (hready : Meets fileStep (Admits UpsReady) (.ok s) ops) :
    ∃ s', ops.foldl fileStep (.ok s) = .ok s' ∧ IrqsMatch s'.machine := by
  have hstart : MachineInv iobase s.machine := ⟨probe_irqInv hk hprobe,probe_window hprobe⟩
  obtain ⟨s',hrun,hinv⟩ := run_ok (I := fun s => MachineInv iobase s.machine) hready hstart (by
    intro s op hop hs hC
    have hlife := hops op hop
    have htrivial : IrqsInRange s op ∧ WindowKept s op := by
      cases op with
      | ioctl file cmd =>
        cases cmd with
        | up req => exact ⟨fun _ => trivial,fun _ => trivial⟩
        | down => exact ⟨fun _ => trivial,fun _ => trivial⟩
        | reset => exact ⟨fun _ => trivial,fun _ => trivial⟩
        | _ => cases hlife
      | _ => exact ⟨trivial,trivial⟩
    exact hs.fileOp hC htrivial.1 htrivial.2)
  exact ⟨s',hrun,hinv.irq.match⟩

theorem granting_fresh : granting.Fresh := ⟨fun _ => rfl,rfl,rfl⟩

def bringUp : List FileOp := [.open 0,.ioctl 0 (.up (some ⟨0,1,1⟩))]

theorem bringUp_ready : Meets fileStep (Admits UpsReady) (.ok (probed granting)) bringUp := by
  refine ⟨fun t _ => trivial,?_,trivial⟩
  rintro t ⟨⟩ - - -
  exact ⟨by decide,fun _ _ => rfl,Or.inr ⟨64,rfl,by decide⟩,fun _ _ => rfl⟩

theorem irqs_match_bringUp : ∃ s', bringUp.foldl fileStep (.ok (probed granting)) = .ok s' ∧ IrqsMatch s'.machine :=
  irqs_match granting 0xf0000000 0x80000 64 ⟨true,true⟩ (probed granting) bringUp granting_fresh
    (probe_eq granting) (by decide) bringUp_ready

/-- Without vectors the adapter comes up with two queues and no interrupts, and taking it down follows a
null pointer; with one vector only, two objects are bound to it and to an entry that is not enabled. -/
theorem up_without_irqs :
    let none := bringUp.foldl fileStep (.ok (probed { granting with available := fun _ => none }))
    let one := bringUp.foldl fileStep (.ok (probed { granting with available := fun _ => some 1 }))
    (none.map fun s => (s.machine.adapter.up,s.machine.adapter.numRxQueues,s.machine.adapter.rxIrq)) =
      .ok (true,1,Option.none) ∧
    fileStep none (.ioctl 0 .down) = .error .nullPointer ∧
    (one.map fun s => (s.machine.adapter.up,s.machine.adapter.numQVectors,s.machine.kernel.enabled)) =
      .ok (true,2,1) :=
  ⟨rfl,rfl,rfl⟩

/-- In every state that operations can reach, each request to bring the adapter up having got what it
asked for, an interrupt is assigned as it should be exactly when the index is not the number of queues. -/
theorem irq_assign_exact (k : Kernel) (iobase iolen maxMsixVectors : ℕ) (o : IobaseOutcome) (s s' : System)
    (ops : List FileOp) (hk : k.Fresh) (hprobe : ixmapProbe k iobase iolen maxMsixVectors o = some s)
    (hready : Meets fileStep (Admits UpsReady) (.ok s) ops) (hrun : ops.foldl fileStep (.ok s) = .ok s')
    (type : IrqType) (queueIdx : ℕ) (ctx : Option ℕ) :
    AssignExact s'.machine type queueIdx ctx ↔ ¬ PastEnd s'.machine.adapter type queueIdx := by
  have hinv : IrqInv s'.machine := by
    apply run_returns (I := fun s => IrqInv s.machine) hready (probe_irqInv hk hprobe) _ s' hrun
    intro s op ret s' _ hs hC hop
    exact hs.fileOp_returns hC hop
  exact hinv.assignExact_iff type queueIdx ctx

theorem irq_assign_exact_bringUp :
    ∃ s', bringUp.foldl fileStep (.ok (probed granting)) = .ok s' ∧ AssignExact s'.machine .tx 0 (some 7) :=
  ⟨_,rfl,(irq_assign_exact granting 0xf0000000 0x80000 64 ⟨true,true⟩ (probed granting) _ bringUp granting_fresh
    (probe_eq granting) bringUp_ready rfl .tx 0 (some 7)).mpr fun h => absurd h.2 (by decide)⟩

/-- Before the adapter is up the index 0 is let through to a null pointer; with one queue the index 1 is
let through to the end of the array. -/
theorem irq_past_end :
    [.open 0,.ioctl 0 (.irq (some (.rx,0)) (some 7) true)].foldl fileStep (.ok (probed granting)) =
      .error .nullPointer ∧
    fileStep (bringUp.foldl fileStep (.ok (probed granting))) (.ioctl 0 (.irq (some (.rx,1)) (some 7) true)) =
      .error .outOfBounds :=
  ⟨rfl,rfl⟩

end Kmod
end Ixmap
