import Ixmap.Adapter

/-! The register window of an adapter: the one area that the module maps for itself, in the list that
the commands of user space work on. -/
namespace Ixmap
namespace Kmod
open GuardedRun

/-- A computation whose results satisfy `Q` and that does not fault on an unmapped register. -/
def Spares {α : Type} (Q : α → Prop) : Except Fault α → Prop
  | .ok a => Q a
  | .error e => e ≠ .unmapped

section
variable {α β : Type} {Q : α → Prop} {R : β → Prop} {k : Kernel} {m : Machine} {a : Adapter} {entries rx tx : ℕ}

theorem Spares.bind {x : Except Fault α} {f : α → Except Fault β} (hx : Spares Q x)
    (hf : ∀ a, Q a → Spares R (f a)) : Spares R (x >>= f) := by
  cases x with
  | error e => exact hx
  | ok a => exact hf a hx

theorem spares_load (p : Option ℕ) : Spares (fun _ => True) (k.load p) := by
  cases p with
  | none => simp [Kernel.load,Spares]
  | some b =>
    simp only [Kernel.load]
    split_ifs <;> simp [Spares]

theorem spares_kfree (p : Option ℕ) : Spares (fun _ => True) (k.kfree p) := by
  cases p with
  | none => trivial
  | some b =>
    simp only [Kernel.kfree]
    split_ifs <;> simp [Spares]

theorem spares_entryAt (p : Option ℕ) (i : ℕ) : Spares (fun _ => True) (k.entryAt p i) := by
  refine (spares_load p).bind fun o _ => ?_
  split
  · split
    · trivial
    · exact Fault.noConfusion
  · exact Fault.noConfusion

theorem spares_irqAt (p : Option ℕ) (i : ℕ) : Spares (fun _ => True) (k.irqAt p i) := by
  refine (spares_load p).bind fun o _ => ?_
  split
  · split
    · trivial
    · exact Fault.noConfusion
  · exact Fault.noConfusion

theorem spares_irqFields (p : Option ℕ) : Spares (fun _ => True) (k.irqFields p) := by
  refine (spares_load p).bind fun o _ => ?_
  split
  · trivial
  · exact Fault.noConfusion

theorem spares_freeIrq (vector irq : ℕ) : Spares (fun _ => True) (k.freeIrq vector irq) := by
  unfold Kernel.freeIrq
  split_ifs <;> simp [Spares]

theorem spares_irqFree (p : Option ℕ) : Spares (fun _ => True) (ixmapIrqFree k p) := by
  refine (spares_irqFields p).bind fun fields _ => ?_
  obtain ⟨efdCtx,msixEntry⟩ := fields
  cases efdCtx <;> exact spares_kfree p

theorem spares_requestLoop (array left : ℕ) (k : Kernel) (vector queueIdx : ℕ) :
    Spares (fun _ => True) (requestLoop entries array left k vector queueIdx) := by
  induction left generalizing k vector queueIdx with
  | zero => trivial
  | succ left ih =>
    unfold requestLoop
    split
    · trivial
    · refine (spares_entryAt _ _).bind fun entry _ => ?_
      split
      · exact (spares_kfree _).bind fun _ _ => trivial
      · exact ih _ _ _

theorem spares_freeLoop {release : Kernel → Option ℕ → Except Fault Kernel}
    (hrelease : ∀ k p, Spares (fun _ => True) (release k p)) (array : Option ℕ) (left : ℕ) (k : Kernel) (i : ℕ) :
    Spares (fun _ => True) (freeLoop release array left k i) := by
  induction left generalizing k i with
  | zero => trivial
  | succ left ih =>
    refine (spares_irqAt _ _).bind fun irq _ => ?_
    refine (spares_irqFields _).bind fun fields _ => ?_
    refine (spares_entryAt _ _).bind fun entry _ => ?_
    refine (spares_freeIrq _ _).bind fun k _ => ?_
    exact (hrelease _ _).bind fun k _ => ih k _

theorem spares_errPciEnableMsix : Spares (fun r => r.2.adapter.dma = a.dma) (errPciEnableMsix k a entries) :=
  (spares_kfree _).bind fun _ _ => rfl

theorem spares_errAllocIrqArrayTx :
    Spares (fun r => r.2.adapter.dma = a.dma) (errAllocIrqArrayTx k a entries rx) :=
  (spares_kfree _).bind fun _ _ => spares_errPciEnableMsix

theorem spares_errAllocIrqRx (requested : ℕ) :
    Spares (fun r => r.2.adapter.dma = a.dma) (errAllocIrqRx k a entries rx tx requested) :=
  (spares_freeLoop (fun k => spares_kfree (k := k)) _ _ _ _).bind fun _ _ =>
    (spares_kfree _).bind fun _ _ => spares_errAllocIrqArrayTx

theorem spares_requestIrqs : Spares (fun r => r.2.adapter.dma = a.dma) (requestIrqs k a entries rx tx) := by
  refine (spares_requestLoop _ _ _ _ _).bind fun r _ => ?_
  obtain ⟨stopped,k⟩ := r
  cases stopped with
  | some requested => exact spares_errAllocIrqRx requested
  | none =>
    refine (spares_requestLoop _ _ _ _ _).bind fun r _ => ?_
    obtain ⟨stopped,k⟩ := r
    cases stopped with
    | some requested =>
      exact (spares_freeLoop (fun k => spares_kfree (k := k)) _ _ _ _).bind fun _ _ =>
        spares_errAllocIrqRx a.numRxQueues
    | none => exact (rfl : a.dma = a.dma)

theorem spares_configureMsix : Spares (fun r => r.2.adapter.dma = m.adapter.dma) (ixmapConfigureMsix m) := by
  unfold ixmapConfigureMsix
  simp only
  split_ifs
  · exact (rfl : m.adapter.dma = m.adapter.dma)
  · split
    · exact (rfl : m.adapter.dma = m.adapter.dma)
    · split
      · exact spares_errPciEnableMsix
      · split
        · exact spares_errPciEnableMsix
        · split
          · exact spares_errAllocIrqArrayTx
          · exact spares_requestIrqs

theorem spares_accessRegs (hmapped : m.adapter.dma.hwMapped = true) : Spares (fun _ => True) (accessRegs m) := by
  simp [accessRegs,hmapped,Spares]

theorem spares_up (hmapped : m.adapter.dma.hwMapped = true) :
    Spares (fun m' => m'.adapter.dma = m.adapter.dma) (ixmapUp m) :=
  (spares_accessRegs hmapped).bind fun _ _ => spares_configureMsix.bind fun _ hr => hr

theorem spares_synchronizeIrqs (p : Option ℕ) (n : ℕ) : Spares (fun _ => True) (synchronizeIrqs k p n) := by
  induction n with
  | zero => trivial
  | succ n ih => exact ih.bind fun _ _ => (spares_entryAt _ _).bind fun _ _ => trivial

theorem spares_reset (hmapped : m.adapter.dma.hwMapped = true) : Spares (fun m' => m' = m) (ixmapReset m) :=
  (spares_accessRegs hmapped).bind fun _ _ => rfl

theorem spares_freeMsix : Spares (fun m' => m'.adapter.dma = m.adapter.dma) (ixmapFreeMsix m) := by
  refine (spares_freeLoop (fun k => spares_irqFree (k := k)) _ _ _ _).bind fun _ _ => ?_
  refine (spares_freeLoop (fun k => spares_irqFree (k := k)) _ _ _ _).bind fun _ _ => ?_
  refine (spares_kfree _).bind fun _ _ => ?_
  refine (spares_kfree _).bind fun _ _ => ?_
  exact (spares_kfree _).bind fun _ _ => rfl

theorem spares_down (hmapped : m.adapter.dma.hwMapped = true) :
    Spares (fun m' => m'.adapter.dma = m.adapter.dma) (ixmapDown m) := by
  refine (spares_accessRegs hmapped).bind fun _ _ => ?_
  refine (spares_synchronizeIrqs _ _).bind fun _ _ => ?_
  refine (spares_reset hmapped).bind fun m' hm' => ?_
  subst hm'
  exact spares_freeMsix.bind fun _ hr => hr

theorem spares_irqAssign (type : IrqType) (queueIdx : ℕ) (ctx : Option ℕ) :
    Spares (fun r => r.2.adapter = m.adapter) (ixmapIrqAssign m type queueIdx ctx) := by
  have hassign : ∀ array, Spares (fun r => r.2.adapter = m.adapter) (assignIrq m array queueIdx ctx) := by
    intro array
    refine (spares_irqAt _ _).bind fun irq _ => ?_
    cases ctx with
    | none => exact (rfl : m.adapter = m.adapter)
    | some ctx =>
      exact (spares_irqFields _).bind fun _ _ => (spares_entryAt _ _).bind fun _ _ => (rfl : m.adapter = m.adapter)
  cases type with
  | rx =>
    simp only [ixmapIrqAssign]
    split_ifs
    · exact (rfl : m.adapter = m.adapter)
    · exact hassign _
  | tx =>
    simp only [ixmapIrqAssign]
    split_ifs
    · exact (rfl : m.adapter = m.adapter)
    · exact hassign _
  | other => exact (rfl : m.adapter = m.adapter)

end

/-- The window is in the list and its mapping is live. -/
structure WindowInv (iobase : ℕ) (d : Dma) : Prop where
  base : d.iobase = iobase
  area : ∃ area ∈ d.areas, area.addrDma = iobase
  mapped : d.hwMapped = true

/-- Commands that leave the window alone: no unmapping of its address, also not when the address of a
mapping at the same place cannot be copied back. -/
def KeepsWindow (m : Machine) : Cmd → Prop
  | .unmap (some addrDma) => addrDma ≠ m.adapter.dma.iobase
  | .map (some (_,size)) o false => o.addrDma = m.adapter.dma.iobase →
      ixmapDmaAreaWhereto m.adapter.dma.areas o.addrDma size = none
  | _ => True

section
variable {m : Machine} {d : Dma} {iobase addrDma : ℕ}

theorem WindowInv.unmap (h : WindowInv iobase d) (hne : addrDma ≠ iobase) :
    WindowInv iobase (ixmapDmaUnmap d addrDma).2 := by
  obtain ⟨heq,-⟩ | ⟨area,-,haddr,heq⟩ := unmap_cases d addrDma
  · rw [heq]
    exact h
  · have hother : area.addrDma ≠ d.iobase := by rwa [haddr,h.base]
    have hfree : ixmapDmaAreaFree { d with areas := d.areas.erase area } area =
        { d with areas := d.areas.erase area } := by simp [ixmapDmaAreaFree,hother]
    rw [heq,hfree]
    obtain ⟨window,hmem,hbase⟩ := h.area
    refine ⟨h.base,⟨window,(List.mem_erase_of_ne ?_).mpr hmem,hbase⟩,h.mapped⟩
    rintro rfl
    exact hne (haddr.symm.trans hbase)

theorem mem_listAdd {areas : List DmaArea} {a area : DmaArea} (place : ℕ) (ha : a ∈ areas) :
    a ∈ listAdd areas place area := by
  unfold listAdd
  rw [← List.take_append_drop place areas] at ha
  rcases List.mem_append.mp ha with h | h
  · exact List.mem_append_left _ h
  · exact List.mem_append_right _ (List.mem_cons_of_mem _ h)

theorem WindowInv.map (h : WindowInv iobase d) (o : MapOutcome) (addrVirtual size : ℕ) :
    WindowInv iobase (ixmapDmaMap o d addrVirtual size).2 := by
  obtain heq | ⟨place,-,heq⟩ := map_cases o d addrVirtual size
  · rw [heq]
    exact h
  · rw [heq]
    obtain ⟨window,hmem,hbase⟩ := h.area
    exact ⟨h.base,⟨window,mem_listAdd place hmem,hbase⟩,h.mapped⟩

theorem WindowInv.cmdMap {req : Option (ℕ × ℕ)} {o : MapOutcome} {copied : Bool}
    (h : WindowInv iobase m.adapter.dma) (hkeep : KeepsWindow m (.map req o copied)) :
    WindowInv iobase (ixmapCmdMap m req o copied).2.adapter.dma := by
  obtain hm | ⟨addrVirtual,size,d,rfl,hm,hd⟩ := cmdMap_cases m req o copied
  · rw [hm]
    exact h
  · rw [hm]
    obtain rfl | ⟨rfl,hnonzero,rfl⟩ := hd
    · exact h.map o addrVirtual size
    · obtain heq | ⟨place,hplace,heq⟩ := map_cases o m.adapter.dma addrVirtual size
      · exact absurd (by rw [heq]) hnonzero
      · apply (h.map o addrVirtual size).unmap
        rw [heq]
        intro haddr
        have hnone := hkeep (haddr.trans h.base.symm)
        rw [hplace] at hnone
        cases hnone

/-- No command faults on a register, and those that leave the window alone keep it. -/
theorem WindowInv.ioctl (h : WindowInv iobase m.adapter.dma) (cmd : Cmd) (hkeep : KeepsWindow m cmd) :
    Spares (fun r => WindowInv iobase r.2.adapter.dma) (ixmapIoctl m cmd) := by
  have hsame : ∀ {m' : Machine}, m'.adapter.dma = m.adapter.dma → WindowInv iobase m'.adapter.dma :=
    fun he => he ▸ h
  cases cmd with
  | info copied => exact h
  | up req =>
    simp only [ixmapIoctl,ixmapCmdUp]
    split_ifs
    · exact h
    · cases req with
      | none => exact h
      | some req =>
        simp only
        split_ifs
        · exact h
        · exact (spares_up (m := req.store m) h.mapped).bind fun m' hm' => hsame hm'
  | map req o copied => exact h.cmdMap hkeep
  | unmap req =>
    cases req with
    | none => exact h
    | some addrDma => exact h.unmap (by rw [← h.base]; exact hkeep)
  | down =>
    simp only [ixmapIoctl,ixmapCmdDown]
    split_ifs
    · exact h
    · exact (spares_down h.mapped).bind fun m' hm' => hsame hm'
  | reset =>
    simp only [ixmapIoctl,ixmapCmdReset]
    split_ifs
    · exact h
    · exact (spares_reset h.mapped).bind fun m' hm' => hsame (by rw [hm'])
  | checkLink linkUp linkSpeed copied =>
    simp only [ixmapIoctl,ixmapCmdCheckLink]
    split_ifs
    all_goals first
      | exact h
      | exact (spares_accessRegs h.mapped).bind fun _ _ => h
  | irq req ctx copied =>
    cases req with
    | none => exact h
    | some req =>
      refine (spares_irqAssign _ _ _).bind fun r hr => ?_
      obtain ⟨entry,m'⟩ := r
      cases entry <;> exact hsame (congrArg Adapter.dma hr)
  | other => exact h

theorem WindowInv.mmap (h : WindowInv iobase m.adapter.dma) (size : ℕ) (remapped : Bool) :
    ixmapMmap m 0 size remapped ≠ .enoent := by
  obtain ⟨window,hmem,hbase⟩ := h.area
  have hfound : (ixmapDmaAreaLookup m.adapter.dma.areas m.adapter.dma.iobase).isSome := by
    rw [ixmapDmaAreaLookup,List.find?_isSome]
    exact ⟨window,hmem,by simp [hbase,h.base]⟩
  obtain ⟨area,harea⟩ := Option.isSome_iff_exists.mp hfound
  simp only [ixmapMmap,harea]
  split_ifs <;> simp_all

end

def WindowKept (s : System) : FileOp → Prop
  | .ioctl file cmd => s.files file = .opened → KeepsWindow s.machine cmd
  | _ => True

section
variable {s : System} {iobase : ℕ} {op : FileOp}

theorem WindowInv.fileOp (h : WindowInv iobase s.machine.adapter.dma) (hkeep : WindowKept s op) :
    Spares (fun r => WindowInv iobase r.2.machine.adapter.dma) (fileOp s op) := by
  cases op with
  | «open» file =>
    simp only [Kmod.fileOp,ixmapOpen]
    split_ifs <;> exact h
  | ioctl file cmd =>
    simp only [Kmod.fileOp]
    split_ifs with hfile
    · exact (h.ioctl cmd (hkeep hfile)).bind fun _ hr => hr
    · exact h
  | mmap file offset size remapped =>
    simp only [Kmod.fileOp]
    split_ifs <;> exact h
  | closeDown file =>
    simp only [Kmod.fileOp]
    split_ifs
    · exact (h.ioctl .down trivial).bind fun _ hr => hr
    · exact h
  | closePut file =>
    simp only [Kmod.fileOp]
    split_ifs <;> exact h

theorem probe_window {k : Kernel} {iolen maxMsixVectors : ℕ} {o : IobaseOutcome}
    (hprobe : ixmapProbe k iobase iolen maxMsixVectors o = some s) : WindowInv iobase s.machine.adapter.dma := by
  unfold ixmapProbe at hprobe
  obtain heq | ⟨place,-,heq⟩ := mapIobase_cases o ⟨[],iobase,iolen,false⟩
  · rw [heq] at hprobe
    cases hprobe
  · rw [heq] at hprobe
    cases hprobe
    exact ⟨rfl,⟨⟨1,iolen,.disable,iobase,0⟩,by simp [listAdd],rfl⟩,rfl⟩

theorem run_window {ops : List FileOp} (h : WindowInv iobase s.machine.adapter.dma)
    (hkeep : Meets fileStep (Admits WindowKept) (.ok s) ops) :
    Spares (fun s' => WindowInv iobase s'.machine.adapter.dma) (ops.foldl fileStep (.ok s)) := by
  apply hkeep.invariant (I := Spares fun t : System => WindowInv iobase t.machine.adapter.dma) h
  intro x op _ hx hC
  cases x with
  | error e => exact hx
  | ok t => exact (WindowInv.fileOp hx (hC t rfl)).bind fun _ hr => hr

end

/-- From a successful probe on, as long as no command asks to unmap the window, it stays in the list and
mapped, no register access goes astray, and the registers can be mapped by user space. -/
theorem window_stays_mapped (k : Kernel) (iobase iolen maxMsixVectors : ℕ) (o : IobaseOutcome) (s : System)
    (ops : List FileOp) (hprobe : ixmapProbe k iobase iolen maxMsixVectors o = some s)
    (hkeep : Meets fileStep (Admits WindowKept) (.ok s) ops) :
    ops.foldl fileStep (.ok s) ≠ .error .unmapped ∧
      ∀ s', ops.foldl fileStep (.ok s) = .ok s' → WindowInv iobase s'.machine.adapter.dma ∧
        ∀ size remapped, ixmapMmap s'.machine 0 size remapped ≠ .enoent := by
  have hrun := run_window (probe_window hprobe) hkeep
  constructor
  · intro herr
    rw [herr] at hrun
    exact hrun rfl
  · intro s' hs'
    rw [hs'] at hrun
    exact ⟨hrun,hrun.mmap⟩

def granting : Kernel where
  heap := BlockHeap.Heap.init (fun _ => true) fun _ => .unused
  requestOk := fun _ => true
  requests := 0
  actions := []
  available := fun _ => some 64
  enables := 0
  enabled := 0
  irqNumber := fun i => 100+i
  efdRefs := 0

def probed (k : Kernel) : System :=
  ⟨⟨k,⟨false,1,⟨[⟨1,0x80000,.disable,0xf0000000,0⟩],0xf0000000,0x80000,true⟩,none,0,none,none,0,0,0,0,0,64⟩⟩,
    fun _ => .closed⟩

theorem probe_eq (k : Kernel) : ixmapProbe k 0xf0000000 0x80000 64 ⟨true,true⟩ = some (probed k) := rfl

theorem window_stays_mapped_map :
    [.open 0,.ioctl 0 (.map (some (0x10000,0x1000)) (.at 0x2000 0x1000) true),
      .ioctl 0 (.unmap (some 0x2000))].foldl fileStep (.ok (probed granting)) ≠ .error .unmapped :=
  (window_stays_mapped granting 0xf0000000 0x80000 64 ⟨true,true⟩ (probed granting) _ (probe_eq granting)
    (by
      refine ⟨?_,?_,?_,trivial⟩
      · rintro t -
        trivial
      · rintro t - -
        trivial
      · rintro t ⟨⟩ -
        show 0x2000 ≠ 0xf0000000
        decide)).1

/-- The window can be unmapped like any other area; the next bring-up accesses registers through it. -/
theorem window_unmapped :
    let s := [.open 0,.ioctl 0 (.unmap (some 0xf0000000))].foldl fileStep (.ok (probed granting))
    (s.map fun s => (s.machine.adapter.dma.areas,s.machine.adapter.dma.hwMapped,
      ixmapMmap s.machine 0 0x80000 true)) = .ok ([],false,.enoent) ∧
    fileStep s (.ioctl 0 (.up (some ⟨0,1,1⟩))) = .error .unmapped :=
  ⟨rfl,rfl⟩

end Kmod
end Ixmap
