import Ixmap.Construct
import Ixmap.Adapter

/-! `ixmap_irq_open`, `ixmap_plane_alloc` and their counterparts of `lib/ixmap.c`, with what they acquire
and give back. What the loop over the ports copies from the handles is `initPlane`. -/
namespace Ixmap
namespace Construct

open ResourceLedger Sys
open Kmod (IrqType)

def openFd (s : Sys Res) : Option Grant × Sys Res := s.acquire .fd

def closeFd (s : Sys Res) (g : Grant) : Sys Res := s.release g.id (· = .fd)

def fopen (s : Sys Res) : Option Grant × Sys Res := s.acquire .file

def fclose (s : Sys Res) (g : Grant) : Sys Res := s.release g.id (· = .file)

def sizeofIxmapIrqHandle : ℕ := 24

def sizeofIxmapPlane : ℕ := 8

def sizeofIxmapPort : ℕ := 136

/-- `struct ixmap_handle` with the number of its queues. -/
structure PortHandle extends Handle where
  numQueues : ℕ

structure IrqHandle where
  self : Grant
  fd : Grant
  qmask : BitVec 64
  vector : ℕ

/-- `1 << n` is an `int`, which `qmask` widens. -/
def widenedBit (n : ℕ) : BitVec 64 := (1#32 <<< n).signExtend 64

def qmaskOf (numQueues coreId : ℕ) : IrqType → Option (BitVec 64)
  | .rx => some (widenedBit coreId)
  | .tx => some (widenedBit (coreId+numQueues))
  | .other => none

/-- Whether 0 is returned. -/
def ixmapIrqSetaffinity (s : Sys Res) : Bool × Sys Res :=
  match fopen s with
  | (none,s₁) => (false,s₁)
  | (some file,s₁) =>
    match s₁.attempt with
    | (ret,s₂) => (ret.isSome,fclose s₂ file)

def ixmapIrqOpen (s : Sys Res) (ih : PortHandle) (coreId : ℕ) (type : IrqType) :
    Option IrqHandle × Sys Res :=
  if ih.numQueues ≤ coreId then (none,s)
  else
    match openFd s with
    | (none,s₁) => (none,s₁)
    | (some efd,s₁) =>
      match s₁.attempt with
      | (none,s₂) => (none,closeFd s₂ efd)
      | (some vector,s₂) =>
        match ixmapIrqSetaffinity s₂ with
        | (false,s₃) => (none,closeFd s₃ efd)
        | (true,s₃) =>
          match qmaskOf ih.numQueues coreId type with
          | none => (none,closeFd s₃ efd)
          | some qmask =>
            match numaAlloc s₃ sizeofIxmapIrqHandle with
            | (none,s₄) => (none,closeFd s₄ efd)
            | (some irqh,s₄) => (some ⟨irqh,efd,qmask,vector⟩,s₄)

def ixmapIrqClose (s : Sys Res) (irqh : IrqHandle) : Sys Res :=
  numaFree (closeFd s irqh.fd) irqh.self sizeofIxmapIrqHandle

structure PortIrqs where
  irqs : List (IrqHandle × IrqHandle)
  done : Bool
  sys : Sys Res

/-- The loop over the ports, with the cleanup labels inside it. -/
def openIrqs (s : Sys Res) (coreId : ℕ) : List PortHandle → PortIrqs
  | [] => ⟨[],true,s⟩
  | ih::rest =>
    match ixmapIrqOpen s ih coreId .rx with
    | (none,s₁) => ⟨[],false,s₁⟩
    | (some rxIrq,s₁) =>
      match ixmapIrqOpen s₁ ih coreId .tx with
      | (none,s₂) => ⟨[],false,ixmapIrqClose s₂ rxIrq⟩
      | (some txIrq,s₂) =>
        let t := openIrqs s₂ coreId rest
        ⟨(rxIrq,txIrq)::t.irqs,t.done,t.sys⟩

/-- The loop behind `err_alloc_plane` and of `ixmap_plane_release`. -/
def closeIrqs (s : Sys Res) : List (IrqHandle × IrqHandle) → Sys Res
  | [] => s
  | (rxIrq,txIrq)::rest => closeIrqs (ixmapIrqClose (ixmapIrqClose s rxIrq) txIrq) rest

/-- `struct ixmap_plane` and the interrupts of its ports. -/
structure PlaneMem where
  self : Grant
  ports : Grant
  irqs : List (IrqHandle × IrqHandle)

def ixmapPlaneRelease (s : Sys Res) (plane : PlaneMem) (ihNum : ℕ) : Sys Res :=
  numaFree (numaFree (closeIrqs s (plane.irqs.take ihNum)) plane.ports (sizeofIxmapPort*ihNum))
    plane.self sizeofIxmapPlane

def ixmapPlaneAlloc (s : Sys Res) (ihList : List PortHandle) (coreId : ℕ) : Option PlaneMem × Sys Res :=
  match numaAlloc s sizeofIxmapPlane with
  | (none,s₁) => (none,s₁)
  | (some plane,s₁) =>
    match numaAlloc s₁ (sizeofIxmapPort*ihList.length) with
    | (none,s₂) => (none,numaFree s₂ plane sizeofIxmapPlane)
    | (some ports,s₂) =>
      match openIrqs s₂ coreId ihList with
      | ⟨irqs,true,s₃⟩ => (some ⟨plane,ports,irqs⟩,s₃)
      | ⟨irqs,false,s₃⟩ =>
        (none,numaFree (numaFree (closeIrqs s₃ irqs) ports (sizeofIxmapPort*ihList.length)) plane
          sizeofIxmapPlane)

def IrqHandle.own (irqh : IrqHandle) : Multiset (ℕ × Res) :=
  {(irqh.fd.id,.fd)}+{(irqh.self.id,.numa sizeofIxmapIrqHandle)}

def irqsOwn (irqs : List (IrqHandle × IrqHandle)) : Multiset (ℕ × Res) :=
  (irqs.map fun p => p.1.own+p.2.own).sum

def PlaneMem.own (plane : PlaneMem) (ihNum : ℕ) : Multiset (ℕ × Res) :=
  irqsOwn (plane.irqs.take ihNum)+({(plane.ports.id,.numa (sizeofIxmapPort*ihNum))}+
    {(plane.self.id,.numa sizeofIxmapPlane)})

section
variable {s₀ s s' : Sys Res} {own : Multiset (ℕ × Res)}

theorem since_numaFree {g : Grant} {size : ℕ} (h : Since s₀ s ({(g.id,.numa size)}+own)) :
    Since s₀ (numaFree s g size) own := h.release (by simp)

theorem since_closeFd {g : Grant} (h : Since s₀ s ({(g.id,.fd)}+own)) : Since s₀ (closeFd s g) own :=
  h.release (by simp)

theorem since_setaffinity {ok : Bool} (h : Since s₀ s own) (hs : ixmapIrqSetaffinity s = (ok,s')) :
    Since s₀ s' own := by
  unfold ixmapIrqSetaffinity at hs
  rcases hopen : fopen s with ⟨_ | file,s₁⟩ <;> simp only [hopen] at hs
  · exact (Prod.mk.inj hs).2 ▸ h.refused hopen
  · rcases hprint : s₁.attempt with ⟨ret,s₂⟩
    simp only [hprint] at hs
    have hclose : Since s₀ (fclose s₂ file) own := ((h.granted hopen).attempt hprint).release (by simp)
    exact (Prod.mk.inj hs).2 ▸ hclose

theorem yields_irqOpen (ih : PortHandle) (coreId : ℕ) (type : IrqType) (h : Since s₀ s own) :
    Yields s₀ own IrqHandle.own (ixmapIrqOpen s ih coreId type) := by
  unfold ixmapIrqOpen
  split_ifs with hcore
  · simpa using h
  rcases hefd : openFd s with ⟨_ | efd,s₁⟩ <;> simp only
  · exact yields_none.mpr (h.refused hefd)
  rcases hirq : s₁.attempt with ⟨_ | vector,s₂⟩ <;> simp only
  · exact yields_none.mpr (since_closeFd ((h.granted hefd).attempt hirq))
  have h₂ := (h.granted hefd).attempt hirq
  rcases haff : ixmapIrqSetaffinity s₂ with ⟨_ | _,s₃⟩ <;> simp only
  · exact yields_none.mpr (since_closeFd (since_setaffinity h₂ haff))
  have h₃ := since_setaffinity h₂ haff
  rcases hmask : qmaskOf ih.numQueues coreId type with _ | qmask <;> simp only
  · exact yields_none.mpr (since_closeFd h₃)
  rcases halloc : numaAlloc s₃ sizeofIxmapIrqHandle with ⟨_ | irqh,s₄⟩ <;> simp only
  · exact yields_none.mpr (since_closeFd (h₃.refused halloc))
  · rw [yields_some,IrqHandle.own,add_comm {(efd.id,Res.fd)},add_assoc]
    exact h₃.granted halloc

theorem since_irqClose {irqh : IrqHandle} (h : Since s₀ s (irqh.own+own)) :
    Since s₀ (ixmapIrqClose s irqh) own := by
  rw [IrqHandle.own,add_assoc] at h
  exact since_numaFree (since_closeFd h)

theorem since_openIrqs (ihList : List PortHandle) (coreId : ℕ) (h : Since s₀ s own) :
    Since s₀ (openIrqs s coreId ihList).sys (irqsOwn (openIrqs s coreId ihList).irqs+own) := by
  induction ihList generalizing s own with
  | nil => simpa [openIrqs,irqsOwn] using h
  | cons ih rest hrest =>
    have hrx := yields_irqOpen ih coreId .rx h
    unfold openIrqs
    rcases hopen : ixmapIrqOpen s ih coreId .rx with ⟨_ | rxIrq,s₁⟩ <;> rw [hopen] at hrx <;> simp only
    · simpa [irqsOwn] using hrx
    have htx := yields_irqOpen ih coreId .tx (yields_some.mp hrx)
    rcases hopen' : ixmapIrqOpen s₁ ih coreId .tx with ⟨_ | txIrq,s₂⟩ <;> rw [hopen'] at htx <;> simp only
    · simpa [irqsOwn] using since_irqClose (yields_none.mp htx)
    · have hall := hrest (yields_some.mp htx)
      have hsum : irqsOwn ((rxIrq,txIrq)::(openIrqs s₂ coreId rest).irqs)+own =
          irqsOwn (openIrqs s₂ coreId rest).irqs+(txIrq.own+(rxIrq.own+own)) := by
        simp only [irqsOwn,List.map_cons,List.sum_cons]
        abel
      rwa [hsum]

theorem openIrqs_length {ihList : List PortHandle} {coreId : ℕ}
    (h : (openIrqs s coreId ihList).done = true) : (openIrqs s coreId ihList).irqs.length = ihList.length := by
  induction ihList generalizing s with
  | nil => rfl
  | cons ih rest hrest =>
    unfold openIrqs at h ⊢
    rcases hopen : ixmapIrqOpen s ih coreId .rx with ⟨_ | rxIrq,s₁⟩
    · simp [hopen] at h
    rcases hopen' : ixmapIrqOpen s₁ ih coreId .tx with ⟨_ | txIrq,s₂⟩
    · simp [hopen,hopen'] at h
    · simp only [hopen,hopen'] at h ⊢
      rw [List.length_cons,List.length_cons,hrest h]

theorem since_closeIrqs {irqs : List (IrqHandle × IrqHandle)} (h : Since s₀ s (irqsOwn irqs+own)) :
    Since s₀ (closeIrqs s irqs) own := by
  induction irqs generalizing s with
  | nil => simpa [closeIrqs,irqsOwn] using h
  | cons p rest hrest =>
    refine hrest (since_irqClose (since_irqClose ?_))
    have hsum : p.1.own+(p.2.own+(irqsOwn rest+own)) = irqsOwn (p::rest)+own := by
      simp only [irqsOwn,List.map_cons,List.sum_cons]
      abel
    rwa [hsum]

theorem since_planeRelease {plane : PlaneMem} {ihNum : ℕ} (h : Since s₀ s (plane.own ihNum+own)) :
    Since s₀ (ixmapPlaneRelease s plane ihNum) own := by
  rw [PlaneMem.own,add_assoc,add_assoc] at h
  exact since_numaFree (since_numaFree (since_closeIrqs h))

theorem yields_planeAlloc (ihList : List PortHandle) (coreId : ℕ) (h : Since s₀ s own) :
    Yields s₀ own (PlaneMem.own · ihList.length) (ixmapPlaneAlloc s ihList coreId) := by
  unfold ixmapPlaneAlloc
  rcases hplane : numaAlloc s sizeofIxmapPlane with ⟨_ | plane,s₁⟩ <;> simp only
  · exact yields_none.mpr (h.refused hplane)
  have h₁ := h.granted hplane
  rcases hports : numaAlloc s₁ (sizeofIxmapPort*ihList.length) with ⟨_ | ports,s₂⟩ <;> simp only
  · exact yields_none.mpr (since_numaFree (h₁.refused hports))
  have h₃ := since_openIrqs ihList coreId (h₁.granted hports)
  have hlen := @openIrqs_length s₂ ihList coreId
  rcases hirqs : openIrqs s₂ coreId ihList with ⟨irqs,_ | _,s₃⟩ <;> rw [hirqs] at h₃ hlen <;> simp only
  · exact yields_none.mpr (since_numaFree (since_numaFree (since_closeIrqs h₃)))
  · rw [yields_some,PlaneMem.own,add_assoc,add_assoc,List.take_of_length_le (hlen rfl).le]
    exact h₃

end

end Construct
end Ixmap
