import Ixmap.AdapterRun

/-! Sessions: the file that has the adapter open, and what is left of a session when it is closed. -/
namespace Ixmap
namespace Kmod
open GuardedRun

/-- The adapter as a successful probe leaves it: down, no interrupt object that could be bound to an
eventfd, and no area but the register window. -/
structure PostProbe (iobase : ℕ) (m : Machine) : Prop where
  up : m.adapter.up = false
  numRxQueues : m.adapter.numRxQueues = 0
  numTxQueues : m.adapter.numTxQueues = 0
  irqs : ∀ b, m.kernel.heap.live b = false
  areas : ∀ a ∈ m.adapter.dma.areas, a.addrDma = iobase

/-- At most one file holds the adapter, the reference count says whether one does, a second open is
refused without effect, and an adapter that no file holds is as after the probe. -/
structure Isolated (iobase : ℕ) (s : System) : Prop where
  exclusive : ∀ f g, s.files f ≠ .closed → s.files g ≠ .closed → f = g
  free : (∀ f, s.files f = .closed) → s.machine.adapter.refcount = 1
  taken : ∀ f, s.files f ≠ .closed → s.machine.adapter.refcount = 2
  busy : ∀ f g, s.files f ≠ .closed → s.files g = .closed → fileOp s (.open g) = .ok (.ebusy,s)
  clean : (∀ f, s.files f = .closed) → PostProbe iobase s.machine

/-- A session that ends has unmapped the memory it had mapped. -/
def ClosesClean (s : System) : FileOp → Prop
  | .closeDown file => s.files file = .opened →
      ∀ a ∈ s.machine.adapter.dma.areas, a.addrDma = s.machine.adapter.dma.iobase
  | _ => True

/-- Operations that stay clear of what the module does not check or undo. -/
structure SessionOk (s : System) (op : FileOp) : Prop where
  ready : UpsReady s op
  inRange : IrqsInRange s op
  kept : WindowKept s op
  clean : ClosesClean s op

/-- Nobody holds the adapter, or one file does, and one that has been taken down is clean. -/
structure SessionInv (iobase : ℕ) (s : System) : Prop where
  machine : MachineInv iobase s.machine
  holder : ((∀ f, s.files f = .closed) ∧ s.machine.adapter.refcount = 1 ∧ PostProbe iobase s.machine) ∨
    ∃ f, s.files f ≠ .closed ∧ (∀ g, g ≠ f → s.files g = .closed) ∧ s.machine.adapter.refcount = 2 ∧
      (s.files f = .closing → PostProbe iobase s.machine)

section
variable {s s' : System} {op : FileOp} {iobase file : ℕ} {ret : Ret}

theorem SessionInv.isolated (h : SessionInv iobase s) : Isolated iobase s := by
  obtain ⟨hclosed,href,hpost⟩ | ⟨f,hf,hothers,href,-⟩ := h.holder
  · exact ⟨fun f _ hf => absurd (hclosed f) hf,fun _ => href,fun f hf => absurd (hclosed f) hf,
      fun f _ hf => absurd (hclosed f) hf,fun _ => hpost⟩
  · have honly : ∀ g, s.files g ≠ .closed → g = f := fun g hg => by
      by_contra hne
      exact hg (hothers g hne)
    refine ⟨fun a b ha hb => (honly a ha).trans (honly b hb).symm,fun hall => absurd (hall f) hf,
      fun _ _ => href,?_,fun hall => absurd (hall f) hf⟩
    intro a b _ hb
    simp [fileOp,ixmapOpen,hb,ixmapAdapterInuse,href]

theorem SessionInv.holds (h : SessionInv iobase s) (hfile : s.files file ≠ .closed) :
    (∀ g, g ≠ file → s.files g = .closed) ∧ s.machine.adapter.refcount = 2 ∧
      (s.files file = .closing → PostProbe iobase s.machine) := by
  obtain ⟨hclosed,-⟩ | ⟨f,-,hothers,href,hclosing⟩ := h.holder
  · exact absurd (hclosed file) hfile
  · obtain rfl : file = f := by
      by_contra hne
      exact hfile (hothers file hne)
    exact ⟨hothers,href,hclosing⟩

theorem SessionInv.open (h : SessionInv iobase s) (hop : fileOp s (.open file) = .ok (ret,s'))
    (hmachine : MachineInv iobase s'.machine) : SessionInv iobase s' := by
  simp only [fileOp,ixmapOpen] at hop
  split_ifs at hop with hfile huse
  · cases hop
    exact h
  · cases hop
    refine ⟨hmachine,Or.inr ⟨file,by simp [System.setFile],?_,?_,by simp [System.setFile]⟩⟩
    · intro g hg
      obtain ⟨hclosed,-⟩ | ⟨f,-,-,href,-⟩ := h.holder
      · simpa [System.setFile,hg] using hclosed g
      · simp [ixmapAdapterInuse,href] at huse
    · simp only [ixmapAdapterInuse,bne_iff_ne,ne_eq,not_not] at huse
      simp [System.setFile,Machine.setRefcount,huse]
  · cases hop
    exact h

theorem SessionInv.ioctl {cmd : Cmd} (h : SessionInv iobase s) (hready : UpsReady s (.ioctl file cmd))
    (hrange : IrqsInRange s (.ioctl file cmd)) (hop : fileOp s (.ioctl file cmd) = .ok (ret,s'))
    (hmachine : MachineInv iobase s'.machine) : SessionInv iobase s' := by
  simp only [fileOp] at hop
  split_ifs at hop with hfile
  · obtain ⟨ret',m',hrun,-,href⟩ := h.machine.irq.ioctl (hready hfile) (hrange hfile) h.machine.window.mapped
    simp only [hrun,bind,Except.bind,pure,Except.pure] at hop
    cases hop
    obtain ⟨hothers,href',-⟩ := h.holds (show s.files file ≠ .closed by simp [hfile])
    exact ⟨hmachine,Or.inr ⟨file,by simp [hfile],hothers,href.trans href',by simp [hfile]⟩⟩
  · cases hop
    exact h

theorem SessionInv.closeDown (h : SessionInv iobase s) (hclean : ClosesClean s (.closeDown file))
    (hop : fileOp s (.closeDown file) = .ok (ret,s')) (hmachine : MachineInv iobase s'.machine) :
    SessionInv iobase s' := by
  simp only [fileOp] at hop
  split_ifs at hop with hfile
  · obtain ⟨ret',m',hrun,hdown,hup,hdma,href⟩ := h.machine.irq.cmdDown h.machine.window.mapped
    simp only [hrun,bind,Except.bind,pure,Except.pure] at hop
    cases hop
    obtain ⟨hothers,href',-⟩ := h.holds (show s.files file ≠ .closed by simp [hfile])
    refine ⟨hmachine,Or.inr ⟨file,by simp [System.setFile],?_,href.trans href',fun _ => ?_⟩⟩
    · intro g hg
      simpa [System.setFile,hg] using hothers g hg
    · refine ⟨hup,hdown.numRxQueues,hdown.numTxQueues,hdown.kernel.dead,?_⟩
      intro a ha
      have ha' : a ∈ s.machine.adapter.dma.areas := by
        rw [← hdma]
        exact ha
      rw [hclean hfile a ha',h.machine.window.base]
  · cases hop
    exact h

theorem SessionInv.closePut (h : SessionInv iobase s) (hop : fileOp s (.closePut file) = .ok (ret,s'))
    (hmachine : MachineInv iobase s'.machine) : SessionInv iobase s' := by
  simp only [fileOp] at hop
  split_ifs at hop with hfile
  · cases hop
    obtain ⟨hothers,href,hpost⟩ := h.holds (show s.files file ≠ .closed by simp [hfile])
    obtain ⟨hup,hrx,htx,hirqs,hareas⟩ := hpost hfile
    refine ⟨hmachine,Or.inl ⟨?_,by simp [System.setFile,Machine.setRefcount,href],hup,hrx,htx,hirqs,hareas⟩⟩
    intro f
    by_cases hf : f = file
    · simp [System.setFile,hf]
    · simpa [System.setFile,hf] using hothers f hf
  · cases hop
    exact h

theorem SessionInv.step (h : SessionInv iobase s) (hC : SessionOk s op) :
    ∃ ret s', fileOp s op = .ok (ret,s') ∧ SessionInv iobase s' := by
  obtain ⟨ret,s',hop,hmachine⟩ := h.machine.fileOp hC.ready hC.inRange hC.kept
  refine ⟨ret,s',hop,?_⟩
  cases op with
  | «open» file => exact h.open hop hmachine
  | ioctl file cmd => exact h.ioctl hC.ready hC.inRange hop hmachine
  | mmap file offset size remapped =>
    simp only [fileOp] at hop
    split_ifs at hop <;>
    · cases hop
      exact h
  | closeDown file => exact h.closeDown hC.clean hop hmachine
  | closePut file => exact h.closePut hop hmachine

theorem probe_session {k : Kernel} {iolen maxMsixVectors : ℕ} {o : IobaseOutcome} (hk : k.Fresh)
    (hprobe : ixmapProbe k iobase iolen maxMsixVectors o = some s) : SessionInv iobase s := by
  refine ⟨⟨probe_irqInv hk hprobe,probe_window hprobe⟩,Or.inl ?_⟩
  unfold ixmapProbe at hprobe
  obtain heq | ⟨place,-,heq⟩ := mapIobase_cases o ⟨[],iobase,iolen,false⟩
  · rw [heq] at hprobe
    cases hprobe
  · rw [heq] at hprobe
    cases hprobe
    refine ⟨fun _ => rfl,rfl,rfl,rfl,rfl,hk.dead,?_⟩
    intro a ha
    obtain rfl : a = ⟨1,iolen,.disable,iobase,0⟩ := by simpa [listAdd] using ha
    rfl

end

/-- Any interleaving of operations on a probed adapter: sessions exclude each other, and one that stays
clear of what the module does not check, and unmaps what it has mapped, leaves the adapter as probed. -/
theorem session_isolated (k : Kernel) (iobase iolen maxMsixVectors : ℕ) (o : IobaseOutcome) (s : System)
    (ops : List FileOp) (hk : k.Fresh) (hprobe : ixmapProbe k iobase iolen maxMsixVectors o = some s)
    (hops : Meets fileStep (Admits SessionOk) (.ok s) ops) :
    ∃ s', ops.foldl fileStep (.ok s) = .ok s' ∧ Isolated iobase s' := by
  obtain ⟨s',hrun,hinv⟩ := run_ok (I := SessionInv iobase) hops (probe_session hk hprobe)
    fun s op _ hs hC => hs.step hC
  exact ⟨s',hrun,hinv.isolated⟩

def crashed : List FileOp := bringUp++[.closeDown 0,.closePut 0]

theorem bringUp_dma : (bringUp.foldl fileStep (.ok (probed granting))).map (fun s => s.machine.adapter.dma) =
    .ok ⟨[⟨1,0x80000,.disable,0xf0000000,0⟩],0xf0000000,0x80000,true⟩ :=
  rfl

theorem session_isolated_crashed :
    ∃ s', crashed.foldl fileStep (.ok (probed granting)) = .ok s' ∧ Isolated 0xf0000000 s' :=
  session_isolated granting 0xf0000000 0x80000 64 ⟨true,true⟩ (probed granting) crashed granting_fresh
    (probe_eq granting) (by
      obtain ⟨h1,h2,-⟩ := bringUp_ready
      refine ⟨fun t ht => ⟨h1 t ht,trivial,trivial,trivial⟩,
        fun t ht => ⟨h2 t ht,fun _ => trivial,fun _ => trivial,trivial⟩,?_,
        fun t _ => ⟨trivial,trivial,trivial,trivial⟩,trivial⟩
      intro t ht
      refine ⟨trivial,trivial,trivial,fun _ a ha => ?_⟩
      have hdma := bringUp_dma
      rw [show bringUp.foldl fileStep (.ok (probed granting)) = .ok t from ht] at hdma
      have hdma' : t.machine.adapter.dma = _ := Except.ok.inj hdma
      rw [hdma'] at ha ⊢
      obtain rfl := List.mem_singleton.mp ha
      rfl)

/-- What a session has mapped and not unmapped stays in the list of the next one. -/
theorem mapping_outlives_session :
    ([.open 0,.ioctl 0 (.map (some (0x10000,0x1000)) (.at 0x2000 0x1000) true),.closeDown 0,.closePut 0,
      .open 1].foldl fileStep (.ok (probed granting))).map
        (fun s => (s.files 0,s.files 1,s.machine.adapter.dma.areas.map DmaArea.addrDma)) =
      .ok (.closed,.opened,[0x2000,0xf0000000]) :=
  rfl

end Kmod
end Ixmap
