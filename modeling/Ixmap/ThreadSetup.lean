import Ixmap.Fib
import Ixmap.Plane

/-! What a thread of `thread.c` acquires before it waits and gives back afterwards, with the descriptors
of `epoll.c`. The interrupts and the TAP interfaces belong to others; what is put into the tables while
the thread waits is accounted for where the tables are. -/
namespace Ixmap
namespace Construct

open ResourceLedger Sys
open Kmod (IrqType)
open FibTable (afInet afInet6)

def ixmapMemAlloc (s : Sys Res) (size : ℕ) : Option Grant × Sys Res := s.acquire (.mem size)

/-- `ixmap_mem_free` is given no size. -/
def ixmapMemFree (s : Sys Res) (g : Grant) : Sys Res :=
  s.release g.id fun
    | .mem _ => true
    | _ => false

def sizeofFib : ℕ := 16*2^16+40

def sizeofNeighTable : ℕ := 8*2^16+24

def sizeofEpollDesc : ℕ := 40

def fibAlloc (s : Sys Res) : Option Grant × Sys Res := ixmapMemAlloc s sizeofFib

def fibRelease (s : Sys Res) (fib : Grant) : Sys Res := ixmapMemFree s fib

def neighAlloc (s : Sys Res) (family : ℕ) : Option Grant × Sys Res :=
  match ixmapMemAlloc s sizeofNeighTable with
  | (none,s₁) => (none,s₁)
  | (some neigh,s₁) =>
    if family = afInet ∨ family = afInet6 then (some neigh,s₁) else (none,ixmapMemFree s₁ neigh)

def neighRelease (s : Sys Res) (neigh : Grant) : Sys Res := ixmapMemFree s neigh

/-- What `thread->plane` and `thread->tun_plane` hold for a port. -/
structure ThreadPort where
  rxIrq : IrqHandle
  txIrq : IrqHandle
  tunFd : Grant
  mtuFrame : ℕ

inductive EpollType where
  | irqRx
  | irqTx
  | tun
  | signal
  | netlink
  deriving DecidableEq, Repr

/-- `struct epoll_desc`; the last two fields are not set for all types. -/
structure EpollDesc where
  self : Grant
  fd : Grant
  type : EpollType
  portIndex : Option ℕ
  data : Option IrqHandle

def irqEntry (port : ThreadPort) : IrqType → Option (EpollType × IrqHandle)
  | .rx => some (.irqRx,port.rxIrq)
  | .tx => some (.irqTx,port.txIrq)
  | .other => none

def epollDescAllocIrq (s : Sys Res) (port : ThreadPort) (portIndex : ℕ) (type : IrqType) :
    Option EpollDesc × Sys Res :=
  match numaAlloc s sizeofEpollDesc with
  | (none,s₁) => (none,s₁)
  | (some epDesc,s₁) =>
    match irqEntry port type with
    | none => (none,numaFree s₁ epDesc sizeofEpollDesc)
    | some (epType,irqh) => (some ⟨epDesc,irqh.fd,epType,some portIndex,some irqh⟩,s₁)

def epollDescReleaseIrq (s : Sys Res) (epDesc : EpollDesc) : Sys Res :=
  numaFree s epDesc.self sizeofEpollDesc

def epollDescAllocSignalfd (s : Sys Res) : Option EpollDesc × Sys Res :=
  match numaAlloc s sizeofEpollDesc with
  | (none,s₁) => (none,s₁)
  | (some epDesc,s₁) =>
    match openFd s₁ with
    | (none,s₂) => (none,numaFree s₂ epDesc sizeofEpollDesc)
    | (some fd,s₂) => (some ⟨epDesc,fd,.signal,none,none⟩,s₂)

def epollDescReleaseSignalfd (s : Sys Res) (epDesc : EpollDesc) : Sys Res :=
  numaFree (closeFd s epDesc.fd) epDesc.self sizeofEpollDesc

def epollDescAllocTun (s : Sys Res) (port : ThreadPort) (portIndex : ℕ) : Option EpollDesc × Sys Res :=
  match numaAlloc s sizeofEpollDesc with
  | (none,s₁) => (none,s₁)
  | (some epDesc,s₁) => (some ⟨epDesc,port.tunFd,.tun,some portIndex,none⟩,s₁)

def epollDescReleaseTun (s : Sys Res) (epDesc : EpollDesc) : Sys Res :=
  numaFree s epDesc.self sizeofEpollDesc

def epollDescAllocNetlink (s : Sys Res) : Option EpollDesc × Sys Res :=
  match numaAlloc s sizeofEpollDesc with
  | (none,s₁) => (none,s₁)
  | (some epDesc,s₁) =>
    match openFd s₁ with
    | (none,s₂) => (none,numaFree s₂ epDesc sizeofEpollDesc)
    | (some fd,s₂) =>
      match s₂.attempt with
      | (none,s₃) => (none,numaFree (closeFd s₃ fd) epDesc sizeofEpollDesc)
      | (some _,s₃) => (some ⟨epDesc,fd,.netlink,none,none⟩,s₃)

/-- The `switch` of `thread_fd_destroy`, which has no case for `EPOLL_NETLINK`. -/
def releaseByType (s : Sys Res) (epDesc : EpollDesc) : Sys Res :=
  match epDesc.type with
  | .irqRx => epollDescReleaseIrq s epDesc
  | .irqTx => epollDescReleaseIrq s epDesc
  | .signal => epollDescReleaseSignalfd s epDesc
  | .tun => epollDescReleaseTun s epDesc
  | .netlink => s

/-- The list that is left and the system; the result of `epoll_del` is not looked at. -/
def threadFdDestroy (s : Sys Res) (fdEp : Grant) : List EpollDesc → List EpollDesc × Sys Res
  | [] => ([],closeFd s fdEp)
  | epDesc::rest => threadFdDestroy (releaseByType s.attempt.2 epDesc) fdEp rest

/-- The list, and whether all was registered so far. -/
structure Registered where
  epDescHead : List EpollDesc
  done : Bool
  sys : Sys Res

/-- `list_add` and `epoll_add` for a descriptor that was allocated. -/
def register (epDescHead : List EpollDesc) : Option EpollDesc × Sys Res → Registered
  | (none,s) => ⟨epDescHead,false,s⟩
  | (some epDesc,s) => ⟨epDesc::epDescHead,s.attempt.1.isSome,s.attempt.2⟩

/-- What follows is left out after a `goto`. -/
def Registered.andThen (r : Registered) (next : Sys Res → List EpollDesc → Registered) : Registered :=
  if r.done then next r.sys r.epDescHead else r

def registerPort (s : Sys Res) (epDescHead : List EpollDesc) (i : ℕ) (port : ThreadPort) : Registered :=
  ((register epDescHead (epollDescAllocIrq s port i .rx)).andThen fun s epDescHead =>
    register epDescHead (epollDescAllocIrq s port i .tx)).andThen fun s epDescHead =>
      register epDescHead (epollDescAllocTun s port i)

def registerPorts (s : Sys Res) (epDescHead : List EpollDesc) (i : ℕ) : List ThreadPort → Registered
  | [] => ⟨epDescHead,true,s⟩
  | port::rest => (registerPort s epDescHead i port).andThen fun s epDescHead =>
      registerPorts s epDescHead (i+1) rest

/-- The descriptor of the epoll instance, the list and the system. -/
def threadFdPrepare (s : Sys Res) (epDescHead : List EpollDesc) (ports : List ThreadPort) :
    Option Grant × List EpollDesc × Sys Res :=
  match openFd s with
  | (none,s₁) => (none,epDescHead,s₁)
  | (some fdEp,s₁) =>
    let r := ((registerPorts s₁ epDescHead 0 ports).andThen fun s epDescHead =>
      register epDescHead (epollDescAllocSignalfd s)).andThen fun s epDescHead =>
        register epDescHead (epollDescAllocNetlink s)
    if r.done then (some fdEp,r.epDescHead,r.sys) else (none,threadFdDestroy r.sys fdEp r.epDescHead)

/-- The neighbour tables of the ports that were assigned. -/
structure NeighPorts where
  neighs : List (Grant × Grant)
  readSize : ℕ
  done : Bool
  sys : Sys Res

/-- The first loop over the ports, with the cleanup labels inside it. -/
def allocNeighs (s : Sys Res) (readSize : ℕ) : List ThreadPort → NeighPorts
  | [] => ⟨[],readSize,true,s⟩
  | port::rest =>
    match neighAlloc s afInet with
    | (none,s₁) => ⟨[],readSize,false,s₁⟩
    | (some inet,s₁) =>
      match neighAlloc s₁ afInet6 with
      | (none,s₂) => ⟨[],readSize,false,neighRelease s₂ inet⟩
      | (some inet6,s₂) =>
        let t := allocNeighs s₂ (if readSize < port.mtuFrame then port.mtuFrame else readSize) rest
        ⟨(inet,inet6)::t.neighs,t.readSize,t.done,t.sys⟩

def releaseNeighs (s : Sys Res) : List (Grant × Grant) → Sys Res
  | [] => s
  | (inet,inet6)::rest => releaseNeighs (neighRelease (neighRelease s inet6) inet) rest

def errNeighTableInet (s : Sys Res) (fibInet fibInet6 : Grant) : Sys Res :=
  fibRelease (fibRelease s fibInet6) fibInet

def errAssignPorts (s : Sys Res) (fibInet fibInet6 neighInet neighInet6 : Grant)
    (neighs : List (Grant × Grant)) : Sys Res :=
  errNeighTableInet (ixmapMemFree (ixmapMemFree (releaseNeighs s neighs) neighInet6) neighInet)
    fibInet fibInet6

/-- The list of descriptors and the system when the thread returns. `thread_wait` returns 0 or -1, and
both go on in the same way. -/
def threadProcessInterrupt (s : Sys Res) (pagesize : ℕ) (ports : List ThreadPort) :
    List EpollDesc × Sys Res :=
  match fibAlloc s with
  | (none,s₁) => ([],s₁)
  | (some fibInet,s₁) =>
    match fibAlloc s₁ with
    | (none,s₂) => ([],fibRelease s₂ fibInet)
    | (some fibInet6,s₂) =>
      match ixmapMemAlloc s₂ (8*ports.length) with
      | (none,s₃) => ([],errNeighTableInet s₃ fibInet fibInet6)
      | (some neighInet,s₃) =>
        match ixmapMemAlloc s₃ (8*ports.length) with
        | (none,s₄) => ([],errNeighTableInet (ixmapMemFree s₄ neighInet) fibInet fibInet6)
        | (some neighInet6,s₄) =>
          let t := allocNeighs s₄ pagesize ports
          let errPorts := fun s => errAssignPorts s fibInet fibInet6 neighInet neighInet6 t.neighs
          if t.done then
            match numaAlloc t.sys t.readSize with
            | (none,s₅) => ([],errPorts s₅)
            | (some readBuf,s₅) =>
              match threadFdPrepare s₅ [] ports with
              | (none,epDescHead,s₆) => (epDescHead,errPorts (numaFree s₆ readBuf t.readSize))
              | (some fdEp,epDescHead,s₆) =>
                let r := threadFdDestroy s₆.attempt.2 fdEp epDescHead
                (r.1,errPorts (numaFree r.2 readBuf t.readSize))
          else ([],errPorts t.sys)

/-- What a descriptor holds: its block, and what was opened for it. -/
def EpollDesc.own (epDesc : EpollDesc) : Multiset (ℕ × Res) :=
  match epDesc.type with
  | .signal => {(epDesc.fd.id,.fd)}+{(epDesc.self.id,.numa sizeofEpollDesc)}
  | .netlink => {(epDesc.fd.id,.fd)}+{(epDesc.self.id,.numa sizeofEpollDesc)}
  | _ => {(epDesc.self.id,.numa sizeofEpollDesc)}

def descsOwn (l : List EpollDesc) : Multiset (ℕ × Res) := (l.map EpollDesc.own).sum

def neighsOwn (l : List (Grant × Grant)) : Multiset (ℕ × Res) :=
  (l.map fun p => {(p.2.id,Res.mem sizeofNeighTable)}+{(p.1.id,Res.mem sizeofNeighTable)}).sum

section
variable {s₀ s s' : Sys Res} {own : Multiset (ℕ × Res)} {n m : ℕ}

@[simp] theorem descsOwn_nil : descsOwn [] = 0 := rfl

@[simp] theorem descsOwn_cons (epDesc : EpollDesc) (l : List EpollDesc) :
    descsOwn (epDesc::l) = epDesc.own+descsOwn l := by simp [descsOwn]

theorem since_memFree {g : Grant} {size : ℕ} (h : Since s₀ s ({(g.id,.mem size)}+own)) :
    Since s₀ (ixmapMemFree s g) own := h.release rfl

theorem passes_allocIrq (port : ThreadPort) (i : ℕ) {type : IrqType} (htype : type ≠ .other)
    (h : Passed s₀ s own n) : Passes s₀ own (n+1) EpollDesc.own (epollDescAllocIrq s port i type) := by
  unfold epollDescAllocIrq
  rcases halloc : numaAlloc s sizeofEpollDesc with ⟨_ | epDesc,s₁⟩ <;> simp only
  · exact h.refuse halloc
  · cases type with
    | rx => exact h.acquire halloc
    | tx => exact h.acquire halloc
    | other => exact absurd rfl htype

theorem passes_allocTun (port : ThreadPort) (i : ℕ) (h : Passed s₀ s own n) :
    Passes s₀ own (n+1) EpollDesc.own (epollDescAllocTun s port i) := by
  unfold epollDescAllocTun
  rcases halloc : numaAlloc s sizeofEpollDesc with ⟨_ | epDesc,s₁⟩ <;> simp only
  · exact h.refuse halloc
  · exact h.acquire halloc

theorem passes_allocSignalfd (h : Passed s₀ s own n) :
    Passes s₀ own (n+2) EpollDesc.own (epollDescAllocSignalfd s) := by
  unfold epollDescAllocSignalfd
  rcases halloc : numaAlloc s sizeofEpollDesc with ⟨_ | epDesc,s₁⟩ <;> simp only
  · exact (h.refuse halloc).mono (by omega)
  have h₁ := h.acquire halloc
  rcases hfd : openFd s₁ with ⟨_ | fd,s₂⟩ <;> simp only
  · exact (h₁.refuse hfd).give since_numaFree
  · simp only [Passes,EpollDesc.own,add_assoc]
    exact h₁.acquire hfd

theorem passes_allocNetlink (h : Passed s₀ s own n) :
    Passes s₀ own (n+3) EpollDesc.own (epollDescAllocNetlink s) := by
  unfold epollDescAllocNetlink
  rcases halloc : numaAlloc s sizeofEpollDesc with ⟨_ | epDesc,s₁⟩ <;> simp only
  · exact (h.refuse halloc).mono (by omega)
  have h₁ := h.acquire halloc
  rcases hfd : openFd s₁ with ⟨_ | fd,s₂⟩ <;> simp only
  · exact ((h₁.refuse hfd).give since_numaFree).mono (by omega)
  have h₂ := h₁.acquire hfd
  rcases hbind : s₂.attempt with ⟨_ | v,s₃⟩ <;> simp only
  · exact (h₂.attempt_refuse hbind).give fun hs => since_numaFree (since_closeFd hs)
  · simp only [Passes,EpollDesc.own,add_assoc]
    exact h₂.attempt hbind

theorem since_releaseByType {epDesc : EpollDesc} (htype : epDesc.type ≠ .netlink)
    (h : Since s₀ s (epDesc.own+own)) : Since s₀ (releaseByType s epDesc) own := by
  unfold EpollDesc.own at h
  unfold releaseByType
  cases hty : epDesc.type with
  | irqRx => simp only [hty] at h; exact since_numaFree h
  | irqTx => simp only [hty] at h; exact since_numaFree h
  | tun => simp only [hty] at h; exact since_numaFree h
  | signal =>
    simp only [hty,add_assoc] at h
    exact since_numaFree (since_closeFd h)
  | netlink => exact absurd hty htype

theorem fdDestroy_head (s : Sys Res) (fdEp : Grant) (l : List EpollDesc) :
    (threadFdDestroy s fdEp l).1 = [] := by
  induction l generalizing s with
  | nil => rfl
  | cons epDesc rest ih => exact ih _

/-- What is left are the descriptors the `switch` passes over. -/
theorem since_fdDestroy {fdEp : Grant} {l : List EpollDesc}
    (h : Since s₀ s (descsOwn l+({(fdEp.id,.fd)}+own))) :
    Since s₀ (threadFdDestroy s fdEp l).2 (descsOwn (l.filter (·.type = .netlink))+own) := by
  induction l generalizing s own with
  | nil => simpa [threadFdDestroy] using since_closeFd (by simpa using h)
  | cons epDesc rest ih =>
    have hdel : Since s₀ s.attempt.2 (epDesc.own+(descsOwn rest+({(fdEp.id,.fd)}+own))) := by
      rw [← add_assoc,← descsOwn_cons]
      exact h.attempt rfl
    rw [threadFdDestroy]
    by_cases htype : epDesc.type = .netlink
    · have hsame : releaseByType s.attempt.2 epDesc = s.attempt.2 := by simp [releaseByType,htype]
      rw [hsame,List.filter_cons_of_pos (by simpa using htype),descsOwn_cons,add_assoc,add_left_comm]
      apply ih
      rwa [add_left_comm {(fdEp.id,Res.fd)},add_left_comm (descsOwn rest)]
    · rw [List.filter_cons_of_neg (by simpa using htype)]
      exact ih (since_releaseByType htype hdel)

/-- All types but the one the `switch` passes over. -/
def NoNetlink (l : List EpollDesc) : Prop := ∀ epDesc ∈ l, epDesc.type ≠ .netlink

structure Registered.Sound (s₀ : Sys Res) (own : Multiset (ℕ × Res)) (n : ℕ) (r : Registered) : Prop where
  types : NoNetlink r.epDescHead
  passed : r.done = true → Passed s₀ r.sys (descsOwn r.epDescHead+own) n
  stopped : r.done = false → Stopped s₀ r.sys (descsOwn r.epDescHead+own) n

variable {epDescHead : List EpollDesc} {r : Registered}

theorem sound_register {x : Option EpollDesc × Sys Res} (hhead : NoNetlink epDescHead)
    (htype : ∀ epDesc ∈ x.1, epDesc.type ≠ .netlink)
    (h : Passes s₀ (descsOwn epDescHead+own) n EpollDesc.own x) :
    (register epDescHead x).Sound s₀ own (n+1) := by
  obtain ⟨_ | epDesc,s⟩ := x
  · exact ⟨hhead,by simp [register],fun _ => Stopped.mono h (Nat.le_succ n)⟩
  · have h : Passed s₀ s (descsOwn (epDesc::epDescHead)+own) n := by
      rw [descsOwn_cons,add_assoc]
      exact h
    refine ⟨?_,fun hdone => ?_,fun hdone => ?_⟩
    · intro e he
      rcases List.mem_cons.mp he with rfl | he
      · exact htype e rfl
      · exact hhead e he
    · obtain ⟨v,hv⟩ := Option.isSome_iff_exists.mp hdone
      exact h.attempt (Prod.ext hv rfl)
    · exact h.attempt_refuse (Prod.ext (Option.isSome_eq_false_iff.mp hdone |> Option.isNone_iff_eq_none.mp) rfl)

theorem Registered.Sound.andThen {next : Sys Res → List EpollDesc → Registered} (h : r.Sound s₀ own n)
    (hle : n ≤ m) (hnext : ∀ s epDescHead, NoNetlink epDescHead →
      Passed s₀ s (descsOwn epDescHead+own) n → (next s epDescHead).Sound s₀ own m) :
    (r.andThen next).Sound s₀ own m := by
  unfold Registered.andThen
  split_ifs with hdone
  · exact hnext _ _ h.types (h.passed hdone)
  · have hdone := Bool.eq_false_iff.mpr hdone
    exact ⟨h.types,by simp [hdone],fun _ => (h.stopped hdone).mono hle⟩

theorem allocIrq_type (port : ThreadPort) (i : ℕ) (type : IrqType) :
    ∀ epDesc ∈ (epollDescAllocIrq s port i type).1, epDesc.type ≠ .netlink := by
  unfold epollDescAllocIrq
  rcases numaAlloc s sizeofEpollDesc with ⟨_ | epDesc,s₁⟩
  · simp
  · cases type <;> simp [irqEntry]

theorem allocTun_type (port : ThreadPort) (i : ℕ) :
    ∀ epDesc ∈ (epollDescAllocTun s port i).1, epDesc.type ≠ .netlink := by
  unfold epollDescAllocTun
  rcases numaAlloc s sizeofEpollDesc with ⟨_ | epDesc,s₁⟩ <;> simp

theorem allocSignalfd_type : ∀ epDesc ∈ (epollDescAllocSignalfd s).1, epDesc.type ≠ .netlink := by
  unfold epollDescAllocSignalfd
  rcases numaAlloc s sizeofEpollDesc with ⟨_ | epDesc,s₁⟩
  · simp
  · rcases hfd : openFd s₁ with ⟨_ | fd,s₂⟩ <;> simp [hfd]

theorem sound_registerPort (i : ℕ) (port : ThreadPort) (hhead : NoNetlink epDescHead)
    (h : Passed s₀ s (descsOwn epDescHead+own) n) :
    (registerPort s epDescHead i port).Sound s₀ own (n+6) := by
  refine Registered.Sound.andThen (n := n+4) (Registered.Sound.andThen (n := n+2) ?_ (by omega) ?_) (by omega) ?_
  · exact sound_register hhead (allocIrq_type port i .rx) (passes_allocIrq port i (by simp) h)
  · intro s epDescHead hhead h
    exact sound_register hhead (allocIrq_type port i .tx) (passes_allocIrq port i (by simp) h)
  · intro s epDescHead hhead h
    exact sound_register hhead (allocTun_type port i) (passes_allocTun port i h)

theorem sound_registerPorts (ports : List ThreadPort) (i : ℕ) (hhead : NoNetlink epDescHead)
    (h : Passed s₀ s (descsOwn epDescHead+own) n) :
    (registerPorts s epDescHead i ports).Sound s₀ own (n+6*ports.length) := by
  induction ports generalizing s epDescHead i n with
  | nil => exact ⟨hhead,fun _ => h,by simp [registerPorts]⟩
  | cons port rest ih =>
    have hlength : n+6*(port::rest).length = n+6+6*rest.length := by
      rw [List.length_cons]
      omega
    rw [hlength]
    exact (sound_registerPort i port hhead h).andThen (Nat.le_add_right _ _) fun _ _ hhead h => ih (i+1) hhead h

/-- The list may hold a descriptor for netlink, unless one of the `n` requests was refused. -/
structure Registered.Ended (s₀ : Sys Res) (own : Multiset (ℕ × Res)) (n : ℕ) (r : Registered) : Prop where
  since : Since s₀ r.sys (descsOwn r.epDescHead+own)
  length : (r.epDescHead.filter (·.type = .netlink)).length ≤ 1
  empty_iff : r.epDescHead.filter (·.type = .netlink) = [] ↔ Refused s₀ n

theorem NoNetlink.filter {l : List EpollDesc} (h : NoNetlink l) : l.filter (·.type = .netlink) = [] :=
  List.filter_eq_nil_iff.mpr fun epDesc he => by simpa using h epDesc he

theorem ended_of_stopped (hhead : NoNetlink r.epDescHead)
    (h : Stopped s₀ r.sys (descsOwn r.epDescHead+own) n) : r.Ended s₀ own n :=
  ⟨h.since,by simp [hhead.filter],by simp [hhead.filter,h.refused]⟩

theorem allocNetlink_type : ∀ epDesc ∈ (epollDescAllocNetlink s).1, epDesc.type = .netlink := by
  unfold epollDescAllocNetlink
  rcases numaAlloc s sizeofEpollDesc with ⟨_ | epDesc,s₁⟩
  · simp
  rcases hfd : openFd s₁ with ⟨_ | fd,s₂⟩
  · simp [hfd]
  rcases hbind : s₂.attempt with ⟨_ | v,s₃⟩ <;> simp [hfd,hbind]

theorem Registered.Sound.netlink (h : r.Sound s₀ own n) :
    (r.andThen fun s epDescHead => register epDescHead (epollDescAllocNetlink s)).Ended s₀ own (n+3) := by
  unfold Registered.andThen
  split_ifs with hdone
  · change (register r.epDescHead (epollDescAllocNetlink r.sys)).Ended s₀ own (n+3)
    have hpass := passes_allocNetlink (h.passed hdone)
    have htype := allocNetlink_type (s := r.sys)
    rcases halloc : epollDescAllocNetlink r.sys with ⟨_ | epDesc,s⟩ <;> rw [halloc] at hpass htype
    · exact ended_of_stopped h.types hpass
    · have hfilter : (epDesc::r.epDescHead).filter (·.type = .netlink) = [epDesc] := by
        rw [List.filter_cons_of_pos (by simpa using htype epDesc rfl),h.types.filter]
      have hsince : Since s₀ s (descsOwn (epDesc::r.epDescHead)+own) := by
        rw [descsOwn_cons,add_assoc]
        exact hpass.since
      refine ⟨hsince.attempt rfl,?_,?_⟩
      · exact le_of_eq (congrArg List.length hfilter)
      · simp only [register,hfilter,List.cons_ne_nil,false_iff]
        exact hpass.granted.not_refused
  · have hstop := h.stopped (Bool.eq_false_iff.mpr hdone)
    exact ended_of_stopped h.types (hstop.mono (Nat.le_add_right _ _))

/-- All but at most one netlink descriptor has been given back, and all if one of the `n` requests was
refused. -/
def Leaves (s₀ : Sys Res) (own : Multiset (ℕ × Res)) (n : ℕ) (s : Sys Res) : Prop :=
  ∃ left : List EpollDesc, left.length ≤ 1 ∧ (∀ epDesc ∈ left, epDesc.type = .netlink) ∧
    (left = [] ↔ Refused s₀ n) ∧ Since s₀ s (descsOwn left+own)

theorem leaves_of_stopped (h : Stopped s₀ s own n) (hle : n ≤ m) : Leaves s₀ own m s :=
  ⟨[],by simp,by simp,by simp [(h.mono hle).refused],by simpa using h.since⟩

theorem Registered.Ended.destroy {fdEp : Grant} (h : r.Ended s₀ ({(fdEp.id,.fd)}+own) n)
    (hs : Since s₀ r.sys (descsOwn r.epDescHead+({(fdEp.id,.fd)}+own)) →
      Since s₀ s (descsOwn r.epDescHead+({(fdEp.id,.fd)}+own))) :
    Leaves s₀ own n (threadFdDestroy s fdEp r.epDescHead).2 :=
  ⟨_,h.length,by simp,h.empty_iff,since_fdDestroy (hs h.since)⟩

/-- Set up or not, the descriptors are given back in the end. -/
def Prepares (s₀ : Sys Res) (own : Multiset (ℕ × Res)) (n : ℕ) : Option Grant × List EpollDesc × Sys Res → Prop
  | (none,epDescHead,s) => epDescHead = [] ∧ Leaves s₀ own n s
  | (some fdEp,epDescHead,s) => Leaves s₀ own n (threadFdDestroy s.attempt.2 fdEp epDescHead).2

theorem prepares_fdPrepare (ports : List ThreadPort) (h : Passed s₀ s own n) :
    Prepares s₀ own (n+7+6*ports.length) (threadFdPrepare s [] ports) := by
  unfold threadFdPrepare
  rcases hopen : openFd s with ⟨_ | fdEp,s₁⟩ <;> simp only
  · exact ⟨rfl,leaves_of_stopped (h.refuse hopen) (by omega)⟩
  have hnil : NoNetlink [] := by simp [NoNetlink]
  have hstart : Passed s₀ s₁ (descsOwn []+({(fdEp.id,.fd)}+own)) (n+1) := by simpa using h.acquire hopen
  have hsignal := (sound_registerPorts ports 0 hnil hstart).andThen (m := n+1+6*ports.length+3) (by omega)
    fun _ _ hhead h => sound_register hhead allocSignalfd_type (passes_allocSignalfd h)
  have hended := hsignal.netlink
  generalize Registered.andThen _ _ = r at hended ⊢
  have hn : n+1+6*ports.length+3+3 = n+7+6*ports.length := by omega
  rw [hn] at hended
  split_ifs
  · exact hended.destroy fun hs => hs.attempt rfl
  · exact ⟨fdDestroy_head _ _ _,hended.destroy id⟩

theorem passes_neighAlloc {family : ℕ} (hfamily : family = afInet ∨ family = afInet6) (h : Passed s₀ s own n) :
    Passes s₀ own (n+1) (fun g : Grant => {(g.id,.mem sizeofNeighTable)}) (neighAlloc s family) := by
  unfold neighAlloc
  rcases halloc : ixmapMemAlloc s sizeofNeighTable with ⟨_ | neigh,s₁⟩ <;> simp only
  · exact h.refuse halloc
  · rw [if_pos hfamily]
    exact h.acquire halloc

@[simp] theorem neighsOwn_nil : neighsOwn [] = 0 := rfl

@[simp] theorem neighsOwn_cons (inet inet6 : Grant) (l : List (Grant × Grant)) : neighsOwn ((inet,inet6)::l) =
    {(inet6.id,.mem sizeofNeighTable)}+{(inet.id,.mem sizeofNeighTable)}+neighsOwn l := by simp [neighsOwn]

structure NeighPorts.Sound (s₀ : Sys Res) (own : Multiset (ℕ × Res)) (n : ℕ) (t : NeighPorts) : Prop where
  passed : t.done = true → Passed s₀ t.sys (neighsOwn t.neighs+own) n
  stopped : t.done = false → Stopped s₀ t.sys (neighsOwn t.neighs+own) n

theorem sound_allocNeighs (ports : List ThreadPort) (readSize : ℕ) (h : Passed s₀ s own n) :
    (allocNeighs s readSize ports).Sound s₀ own (n+2*ports.length) := by
  induction ports generalizing s own readSize n with
  | nil => exact ⟨fun _ => by simpa [allocNeighs] using h,by simp [allocNeighs]⟩
  | cons port rest ih =>
    have hlength : n+2*(port::rest).length = n+1+1+2*rest.length := by
      rw [List.length_cons]
      omega
    have hinet := passes_neighAlloc (Or.inl rfl) h
    rw [hlength]
    unfold allocNeighs
    rcases halloc : neighAlloc s afInet with ⟨_ | inet,s₁⟩ <;> rw [halloc] at hinet <;> simp only
    · exact ⟨by simp,fun _ => by simpa using Stopped.mono hinet (by omega)⟩
    have hinet6 := passes_neighAlloc (Or.inr rfl) hinet
    rcases halloc' : neighAlloc s₁ afInet6 with ⟨_ | inet6,s₂⟩ <;> rw [halloc'] at hinet6 <;> simp only
    · have hback : Stopped s₀ (neighRelease s₂ inet) own (n+1+1) := Stopped.give hinet6 since_memFree
      exact ⟨by simp,fun _ => by simpa using hback.mono (Nat.le_add_right _ _)⟩
    · have hrest := ih (if readSize < port.mtuFrame then port.mtuFrame else readSize) hinet6
      have hsum : ∀ l, neighsOwn ((inet,inet6)::l)+own = neighsOwn l+
          ({(inet6.id,.mem sizeofNeighTable)}+({(inet.id,.mem sizeofNeighTable)}+own)) := by
        intro l
        rw [neighsOwn_cons]
        abel
      refine ⟨fun hdone => ?_,fun hdone => ?_⟩
      · rw [hsum]
        exact hrest.passed hdone
      · rw [hsum]
        exact hrest.stopped hdone

theorem since_releaseNeighs {l : List (Grant × Grant)} (h : Since s₀ s (neighsOwn l+own)) :
    Since s₀ (releaseNeighs s l) own := by
  induction l generalizing s with
  | nil => simpa [releaseNeighs] using h
  | cons p rest ih =>
    obtain ⟨inet,inet6⟩ := p
    rw [neighsOwn_cons,add_assoc,add_assoc] at h
    exact ih (since_memFree (since_memFree h))

def fibsOwn (fibInet fibInet6 : Grant) : Multiset (ℕ × Res) :=
  {(fibInet6.id,.mem sizeofFib)}+{(fibInet.id,.mem sizeofFib)}

theorem since_errNeighTableInet {fibInet fibInet6 : Grant} (h : Since s₀ s (fibsOwn fibInet fibInet6+own)) :
    Since s₀ (errNeighTableInet s fibInet fibInet6) own := by
  rw [fibsOwn,add_assoc] at h
  exact since_memFree (since_memFree h)

theorem since_errAssignPorts {fibInet fibInet6 neighInet neighInet6 : Grant} {neighs : List (Grant × Grant)}
    {size : ℕ} (h : Since s₀ s (neighsOwn neighs+({(neighInet6.id,.mem size)}+({(neighInet.id,.mem size)}+
      (fibsOwn fibInet fibInet6+own))))) :
    Since s₀ (errAssignPorts s fibInet fibInet6 neighInet neighInet6 neighs) own :=
  since_errNeighTableInet (since_memFree (since_memFree (since_releaseNeighs h)))

theorem Leaves.unwind {readBuf fibInet fibInet6 neighInet neighInet6 : Grant} {neighs : List (Grant × Grant)}
    {readSize size : ℕ} (h : Leaves s₀ ({(readBuf.id,.numa readSize)}+(neighsOwn neighs+
      ({(neighInet6.id,.mem size)}+({(neighInet.id,.mem size)}+(fibsOwn fibInet fibInet6+own))))) n s) :
    Leaves s₀ own n
      (errAssignPorts (numaFree s readBuf readSize) fibInet fibInet6 neighInet neighInet6 neighs) := by
  obtain ⟨left,hlength,htypes,hiff,hsince⟩ := h
  simp only [add_left_comm (descsOwn left)] at hsince
  exact ⟨left,hlength,htypes,hiff,since_errAssignPorts (since_numaFree hsince)⟩

/-- How the thread returns. -/
structure Closes (s₀ : Sys Res) (n : ℕ) (x : List EpollDesc × Sys Res) : Prop where
  head : x.1 = []
  leaves : Leaves s₀ 0 n x.2

theorem closes_of_stopped (h : Stopped s₀ s 0 n) (hle : n ≤ m) : Closes s₀ m ([],s) :=
  ⟨rfl,leaves_of_stopped h hle⟩

theorem closes_threadProcessInterrupt (s : Sys Res) (pagesize : ℕ) (ports : List ThreadPort) :
    Closes s (12+8*ports.length) (threadProcessInterrupt s pagesize ports) := by
  unfold threadProcessInterrupt
  rcases hfib : fibAlloc s with ⟨_ | fibInet,s₁⟩ <;> simp only
  · exact closes_of_stopped ((Passed.refl s).refuse hfib) (by omega)
  have h₁ := (Passed.refl s).acquire hfib
  rcases hfib6 : fibAlloc s₁ with ⟨_ | fibInet6,s₂⟩ <;> simp only
  · exact closes_of_stopped ((h₁.refuse hfib6).give since_memFree) (by omega)
  have h₂ := h₁.acquire hfib6
  rw [← add_assoc] at h₂
  rcases hn : ixmapMemAlloc s₂ (8*ports.length) with ⟨_ | neighInet,s₃⟩ <;> simp only
  · exact closes_of_stopped ((h₂.refuse hn).give since_errNeighTableInet) (by omega)
  have h₃ := h₂.acquire hn
  rcases hn6 : ixmapMemAlloc s₃ (8*ports.length) with ⟨_ | neighInet6,s₄⟩ <;> simp only
  · exact closes_of_stopped
      ((h₃.refuse hn6).give fun hs => since_errNeighTableInet (since_memFree hs)) (by omega)
  have hneighs := sound_allocNeighs ports pagesize (h₃.acquire hn6)
  generalize allocNeighs s₄ pagesize ports = t at hneighs ⊢
  split_ifs with hdone
  · have h₄ := hneighs.passed hdone
    rcases hbuf : numaAlloc t.sys t.readSize with ⟨_ | readBuf,s₅⟩ <;> simp only
    · exact closes_of_stopped ((h₄.refuse hbuf).give since_errAssignPorts) (by omega)
    have hprep := prepares_fdPrepare ports (h₄.acquire hbuf)
    have hcount : 0+1+1+1+1+2*ports.length+1+7+6*ports.length = 12+8*ports.length := by omega
    rw [hcount] at hprep
    rcases hfd : threadFdPrepare s₅ [] ports with ⟨_ | fdEp,epDescHead,s₆⟩ <;> rw [hfd] at hprep <;> simp only
    · exact ⟨hprep.1,hprep.2.unwind⟩
    · exact ⟨fdDestroy_head _ _ _,Leaves.unwind hprep⟩
  · have hstop := hneighs.stopped (Bool.eq_false_iff.mpr hdone)
    exact closes_of_stopped (hstop.give since_errAssignPorts) (by omega)

end

/-- Whatever is refused, when the thread returns its list is empty and all it acquired has been given back
once, apart from at most one netlink descriptor with its socket. That is left unless a request up to the
`bind` of the socket is refused. -/
theorem thread_balance_iff (s : Sys Res) (pagesize : ℕ) (ports : List ThreadPort) :
    (threadProcessInterrupt s pagesize ports).1 = [] ∧
      (∃ left : List EpollDesc, left.length ≤ 1 ∧ (∀ epDesc ∈ left, epDesc.type = .netlink) ∧
        Since s (threadProcessInterrupt s pagesize ports).2 (descsOwn left)) ∧
      (Restored s (threadProcessInterrupt s pagesize ports).2 ↔ Refused s (12+8*ports.length)) := by
  obtain ⟨hhead,left,hlength,htypes,hiff,hsince⟩ := closes_threadProcessInterrupt s pagesize ports
  rw [add_zero] at hsince
  refine ⟨hhead,⟨left,hlength,htypes,hsince⟩,?_⟩
  rw [← hiff]
  constructor
  · intro hrestored
    rcases left with _ | ⟨epDesc,rest⟩
    · rfl
    · refine absurd hrestored (hsince.not_restored ?_)
      simp [EpollDesc.own,htypes epDesc (by simp)]
  · rintro rfl
    exact hsince.restored

def onePort : ThreadPort := ⟨⟨⟨0,0⟩,⟨1,0⟩,1,0⟩,⟨⟨2,0⟩,⟨3,0⟩,2,1⟩,⟨4,0⟩,1518⟩

/-- Nothing is refused, and the descriptor and the socket for netlink stay. -/
theorem netlink_socket_leaks :
    (threadProcessInterrupt ⟨fun _ => some 0,5,[(4,.fd),(3,.fd),(1,.fd)],0⟩ 4096 [onePort]).2.held =
      [(23,.fd),(22,.numa 40),(4,.fd),(3,.fd),(1,.fd)] := by
  decide +kernel

end Construct
end Ixmap
