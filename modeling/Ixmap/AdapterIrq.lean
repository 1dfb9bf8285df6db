import Ixmap.Adapter

/-! The interrupt objects of an adapter that is up: what bring-up has acquired, object by object, and
that tear-down gives back exactly this. -/
namespace Ixmap
namespace Kmod
open BlockHeap GuardedRun

/-- An interrupt object, with the block it lies in and the vector it stands for. -/
structure Irq where
  vector : ℕ
  block : ℕ
  efdCtx : Option ℕ

def Irq.object (entries : ℕ) (p : Irq) : ℕ × Object := (p.block,.irq p.efdCtx (entries,p.vector))

def fullTable (k : Kernel) (n : ℕ) : Object := .msixEntries ((List.range n).map fun i => ⟨k.irqNumber i,i⟩)

def slots (irqs : List Irq) : List (Option ℕ) := irqs.map fun p => some p.block

/-- The blocks and the handlers held: the entries, two arrays of pointers, and the interrupt objects. -/
structure Books (k : Kernel) (entries a b : ℕ) (as bs : List (Option ℕ)) (irqs : List Irq) (n : ℕ) : Prop where
  holds : k.heap.Holds ([(entries,fullTable k n),(a,.irqArray as),(b,.irqArray bs)]++irqs.map (Irq.object entries))
  bound : ∀ p ∈ irqs, p.vector < n
  actions : k.actions = irqs.map fun p => (k.irqNumber p.vector,p.block)
  enabled : k.enabled = n

namespace Books
variable {k : Kernel} {entries a b n : ℕ} {as bs : List (Option ℕ)} {irqs first rest : List Irq} {p : Irq}

theorem swap (h : Books k entries a b as bs irqs n) : Books k entries b a bs as irqs n :=
  ⟨h.holds.perm ((List.Perm.swap _ _ _).cons _),h.bound,h.actions,h.enabled⟩

theorem load {c : ℕ} {o : Object} (h : Books k entries a b as bs irqs n)
    (hc : (c,o) ∈ [(entries,fullTable k n),(a,.irqArray as),(b,.irqArray bs)]++irqs.map (Irq.object entries)) :
    k.load (some c) = .ok o := by
  obtain ⟨hlive,hval⟩ := h.holds.mem hc
  simp [Kernel.load,hlive,hval]

theorem irqAt {i : ℕ} {irq : Option ℕ} (h : Books k entries a b as bs irqs n) (hi : as[i]? = some irq) :
    k.irqAt (some a) i = .ok irq := by
  have hload := h.load (c := a) (o := .irqArray as) (by simp)
  simp [Kernel.irqAt,hload,hi,bind,Except.bind,pure,Except.pure]

theorem irqAt_end (h : Books k entries a b as bs irqs n) :
    k.irqAt (some a) as.length = .error .outOfBounds := by
  have hload := h.load (c := a) (o := .irqArray as) (by simp)
  simp [Kernel.irqAt,hload,bind,Except.bind,throw,throwThe,MonadExceptOf.throw]

theorem object (h : Books k entries a b as bs irqs n) (hp : p ∈ irqs) :
    k.heap.live p.block = true ∧ k.heap.val p.block = .irq p.efdCtx (entries,p.vector) := by
  have hmem : (p.block,Object.irq p.efdCtx (entries,p.vector)) ∈ irqs.map (Irq.object entries) :=
    List.mem_map_of_mem hp
  exact h.holds.mem (List.mem_append_right _ hmem)

theorem irqFields (h : Books k entries a b as bs irqs n) (hp : p ∈ irqs) :
    k.irqFields (some p.block) = .ok (p.efdCtx,entries,p.vector) := by
  obtain ⟨hlive,hval⟩ := h.object hp
  simp [Kernel.irqFields,Kernel.load,hlive,hval,bind,Except.bind,pure,Except.pure]

theorem entryAt {i : ℕ} (h : Books k entries a b as bs irqs n) (hi : i < n) :
    k.entryAt (some entries) i = .ok ⟨k.irqNumber i,i⟩ := by
  have hload := h.load (c := entries) (o := fullTable k n) (by simp)
  simp [Kernel.entryAt,hload,fullTable,hi,bind,Except.bind,pure,Except.pure]

theorem freed (h : Books k entries a b as bs (p::rest) n) (refs : ℕ → ℤ) :
    Books { k with
        heap := k.heap.free p.block
        actions := rest.map fun p => (k.irqNumber p.vector,p.block)
        efdRefs := refs } entries a b as bs rest n :=
  ⟨Heap.Holds.free [_,_,_] h.holds,fun q hq => h.bound q (by simp [hq]),rfl,h.enabled⟩

theorem ixmapIrqFree (h : Books k entries a b as bs (p::rest) n) (actions : List (ℕ × ℕ)) :
    ∃ refs, Kmod.ixmapIrqFree { k with actions := actions } (some p.block) =
      .ok { k with heap := k.heap.free p.block, actions := actions, efdRefs := refs } := by
  have hfields : Kernel.irqFields { k with actions := actions } (some p.block) = .ok (p.efdCtx,entries,p.vector) :=
    h.irqFields (by simp)
  have hlive := (h.object (p := p) (by simp)).1
  cases hctx : p.efdCtx with
  | none => exact ⟨k.efdRefs,by simp [Kmod.ixmapIrqFree,hfields,hctx,bind,Except.bind,Kernel.kfree,hlive]⟩
  | some ctx =>
    exact ⟨k.efdRefs-Pi.single ctx 1,
      by simp [Kmod.ixmapIrqFree,hfields,hctx,bind,Except.bind,Kernel.kfree,Kernel.eventfdCtxPut,hlive]⟩

theorem freeLoop {before : List (Option ℕ)} (h : Books k entries a b (before++slots first) bs (first++rest) n) :
    ∃ k', Kmod.freeLoop Kmod.ixmapIrqFree (some a) first.length k before.length = .ok k' ∧
      Books k' entries a b (before++slots first) bs rest n := by
  induction first generalizing k before with
  | nil => exact ⟨k,rfl,h⟩
  | cons p first ih =>
    have hat : k.irqAt (some a) before.length = .ok (some p.block) := h.irqAt (by simp [slots])
    have hfields := h.irqFields (p := p) (by simp)
    have hentry := h.entryAt (h.bound p (by simp))
    have hfree : k.freeIrq (k.irqNumber p.vector) p.block =
        .ok { k with actions := (first++rest).map fun p => (k.irqNumber p.vector,p.block) } := by
      simp [Kernel.freeIrq,h.actions]
    obtain ⟨refs,hrelease⟩ := h.ixmapIrqFree ((first++rest).map fun p => (k.irqNumber p.vector,p.block))
    have hsplit : before++slots (p::first) = (before++[some p.block])++slots first := by simp [slots]
    have hnext := h.freed refs
    rw [hsplit] at hnext ⊢
    obtain ⟨k',hrun,hbooks⟩ := ih hnext
    refine ⟨k',?_,hbooks⟩
    rw [List.length_append,List.length_singleton] at hrun
    rw [List.length_cons,Kmod.freeLoop]
    simp only [hat,hfields,hentry,hfree,hrelease,bind,Except.bind,Option.getD_some]
    exact hrun

def installed (k : Kernel) (entries a vector : ℕ) (as : List (Option ℕ)) (queueIdx : ℕ) : Kernel :=
  { k with
    heap := (k.heap.alloc.2.write k.heap.calls (.irq none (entries,vector))).write a
      (.irqArray (as.set queueIdx (some k.heap.calls)))
    requests := k.requests+1
    actions := k.actions++[(k.irqNumber vector,k.heap.calls)] }

theorem install {vector : ℕ} (h : Books k entries a b as bs irqs n) (queueIdx : ℕ) (hv : vector < n)
    (hok : k.heap.ok k.heap.calls = true) :
    Books (installed k entries a vector as queueIdx) entries a b (as.set queueIdx (some k.heap.calls)) bs
      (irqs++[⟨vector,k.heap.calls,none⟩]) n := by
  have halloc := h.holds.alloc hok (.irq none (entries,vector))
  have hwrite := Heap.Holds.write [(entries,fullTable k n)] halloc
    (.irqArray (as.set queueIdx (some k.heap.calls)))
  refine ⟨by simpa [Irq.object,fullTable,installed] using hwrite,?_,by simp [installed,h.actions],h.enabled⟩
  intro q hq
  rcases List.mem_append.mp hq with hq | hq
  · exact h.bound q hq
  · obtain rfl := List.mem_singleton.mp hq
    exact hv

theorem requestLoop_succ {left vector queueIdx : ℕ} (h : Books k entries a b as bs irqs n) (hv : vector < n)
    (hok : k.heap.ok k.heap.calls = true) (hreq : k.requestOk k.requests = true) :
    Kmod.requestLoop entries a (left+1) k vector queueIdx =
      Kmod.requestLoop entries a left (installed k entries a vector as queueIdx) (vector+1) (queueIdx+1) := by
  have hmem : (a,Object.irqArray as) ∈
      [(entries,fullTable k n),(a,.irqArray as),(b,.irqArray bs)]++irqs.map (Irq.object entries) := by simp
  have hval := (h.holds.mem hmem).2
  have hne := (h.holds.lt hmem).ne
  have halloc : ixmapIrqAlloc k entries vector = (some k.heap.calls,
      { k with heap := k.heap.alloc.2.write k.heap.calls (.irq none (entries,vector)) }) := by
    simp [ixmapIrqAlloc,Kernel.alloc,Heap.alloc,hok]
  have hset : Kernel.setIrq { k with heap := k.heap.alloc.2.write k.heap.calls (.irq none (entries,vector)) }
      a queueIdx k.heap.calls = { installed k entries a vector as queueIdx with
        requests := k.requests, actions := k.actions } := by
    simp [Kernel.setIrq,Heap.write,hne,hval,installed]
  have hentry : Kernel.entryAt { installed k entries a vector as queueIdx with
      requests := k.requests, actions := k.actions } (some entries) vector = .ok ⟨k.irqNumber vector,vector⟩ :=
    (h.install queueIdx hv hok).entryAt hv
  rw [Kmod.requestLoop,halloc]
  simp only [hset,hentry,bind,Except.bind]
  simp [Kernel.requestIrq,installed,hreq]

/-- The next calls all succeed: `n` allocations and requests of interrupts. -/
structure Granted (k : Kernel) (n : ℕ) : Prop where
  alloc : ∀ j < n, k.heap.ok (k.heap.calls+j) = true
  request : ∀ j < n, k.requestOk (k.requests+j) = true

theorem Granted.next {m : ℕ} (hg : Granted k (m+1)) (vector queueIdx : ℕ) :
    Granted (installed k entries a vector as queueIdx) m := by
  refine ⟨fun j hj => ?_,fun j hj => ?_⟩
  · have := hg.alloc (j+1) (by omega)
    simpa [installed,Nat.add_comm,Nat.add_left_comm] using this
  · have := hg.request (j+1) (by omega)
    simpa [installed,Nat.add_comm,Nat.add_left_comm] using this

/-- An array is filled from the queues in `done` on; `m` calls are left for what follows. -/
theorem requestLoop {left m : ℕ} {done : List Irq} (vector : ℕ)
    (h : Books k entries a b (slots done++List.replicate left none) bs irqs n) (hv : vector+left ≤ n)
    (hg : Granted k (left+m)) :
    ∃ k' new, Kmod.requestLoop entries a left k vector done.length = .ok (none,k') ∧
      new.map Irq.vector = List.range' vector left ∧
      Books k' entries a b (slots (done++new)) bs (irqs++new) n ∧ Granted k' m := by
  induction left generalizing k done irqs vector with
  | zero => exact ⟨k,[],rfl,rfl,by simpa using h,by simpa using hg⟩
  | succ left ih =>
    have hok := hg.alloc 0 (by omega)
    have hreq := hg.request 0 (by omega)
    rw [Nat.add_zero] at hok hreq
    have hslots : (slots done++List.replicate (left+1) none).set done.length (some k.heap.calls) =
        slots (done++[⟨vector,k.heap.calls,none⟩])++List.replicate left none := by
      have hlen : done.length = (slots done).length := by simp [slots]
      rw [hlen,List.set_append_right _ _ le_rfl]
      simp [slots,List.replicate_succ]
    have hgranted : Granted k (left+m+1) := by rwa [Nat.add_right_comm] at hg
    have hlt : vector < n := by omega
    have hnext := h.install done.length hlt hok
    rw [hslots] at hnext
    obtain ⟨k',new,hrun,hfst,hbooks,hmore⟩ := ih (vector+1) hnext (by omega)
      (hgranted.next vector done.length)
    refine ⟨k',⟨vector,k.heap.calls,none⟩::new,?_,?_,by simpa using hbooks,hmore⟩
    · rw [h.requestLoop_succ hlt hok hreq]
      simpa using hrun
    · simp [hfst,List.range'_succ]

end Books

def Kernel.allocated (k : Kernel) (o : Object) : Kernel :=
  { k with heap := k.heap.alloc.2.write k.heap.calls o }

def Kernel.vectored (k : Kernel) (entries n enables : ℕ) : Kernel :=
  { k with heap := k.heap.write entries (fullTable k n), enables := enables, enabled := n }

/-- The kernel grants all that `ixmap_configure_msix` is about to ask for, the vectors at once. -/
structure Ready (m : Machine) : Prop where
  vectors : m.adapter.numRxQueues+m.adapter.numTxQueues ≤ m.adapter.maxMsixVectors
  alloc : ∀ j < m.adapter.numRxQueues+m.adapter.numTxQueues+3, m.kernel.heap.ok (m.kernel.heap.calls+j) = true
  enable : m.adapter.numRxQueues+m.adapter.numTxQueues = 0 ∨
    ∃ v, m.kernel.available m.kernel.enables = some v ∧ m.adapter.numRxQueues+m.adapter.numTxQueues ≤ v
  request : ∀ j < m.adapter.numRxQueues+m.adapter.numTxQueues,
    m.kernel.requestOk (m.kernel.requests+j) = true

/-- What an adapter that is up should hold. -/
def Configured (m : Machine) : Prop :=
  ∃ entries rx tx rxs txs, m.adapter.msixEntries = some entries ∧ m.adapter.rxIrq = some rx ∧
    m.adapter.txIrq = some tx ∧ rxs.length = m.adapter.numRxQueues ∧ txs.length = m.adapter.numTxQueues ∧
    m.adapter.numQVectors = m.adapter.numRxQueues+m.adapter.numTxQueues ∧
    (rxs++txs).map Irq.vector = List.range (m.adapter.numRxQueues+m.adapter.numTxQueues) ∧
    Books m.kernel entries rx tx (slots rxs) (slots txs) (rxs++txs) (m.adapter.numRxQueues+m.adapter.numTxQueues)

section
variable {k : Kernel} {m : Machine} {a : Adapter} {entries rx tx n : ℕ}

theorem alloc_granted (o : Object) (hok : k.heap.ok k.heap.calls = true) :
    k.alloc o = (some k.heap.calls,k.allocated o) := by
  simp [Kernel.alloc,Heap.alloc,hok,Kernel.allocated]

theorem fillVectors_all (hval : k.heap.val entries = .msixEntries ((List.range n).map fun i => ⟨0,i⟩)) :
    k.fillVectors entries n = { k with heap := k.heap.write entries (fullTable k n) } := by
  have hfill : ((List.range n).map fun i => (⟨0,i⟩ : MsixEntry)).mapIdx
      (fun i e => if i < n then { e with vector := k.irqNumber i } else e) =
      (List.range n).map fun i => ⟨k.irqNumber i,i⟩ := by
    apply List.ext_getElem
    · simp
    · intro i h1 h2
      have hi : i < n := by simpa using h2
      simp [hi]
  simp only [Kernel.fillVectors,hval,hfill,fullTable]

theorem enableLoop_granted (hval : k.heap.val entries = .msixEntries ((List.range n).map fun i => ⟨0,i⟩))
    (hdown : k.enabled = 0) (hready : n = 0 ∨ ∃ v, k.available k.enables = some v ∧ n ≤ v) :
    ∃ enables, enableLoop entries n k n = (true,k.vectored entries n enables) := by
  cases n with
  | zero =>
    refine ⟨k.enables,?_⟩
    have hsame : k.heap.write entries (fullTable k 0) = k.heap := by
      rw [fullTable,List.range_zero,List.map_nil,Heap.write]
      rw [List.range_zero,List.map_nil] at hval
      rw [← hval,Function.update_eq_self]
    rw [Kernel.vectored,hsame,enableLoop]
    obtain ⟨heap,requestOk,requests,actions,available,enables,enabled,irqNumber,efdRefs⟩ := k
    simp only at hdown ⊢
    rw [hdown]
  | succ n =>
    obtain hzero | ⟨v,hv,hle⟩ := hready
    · cases hzero
    · exact ⟨k.enables+1,
        by simp [enableLoop,Kernel.pciEnableMsix,hv,hle,fillVectors_all hval,Kernel.vectored]⟩

theorem configureMsix_eq (hfresh : m.kernel.Fresh) (hready : Ready m) :
    ∃ k entries rx tx, ixmapConfigureMsix m = requestIrqs k { m.adapter with
        msixEntries := some entries
        numQVectors := m.adapter.numRxQueues+m.adapter.numTxQueues
        rxIrq := some rx
        txIrq := some tx } entries rx tx ∧
      Books k entries rx tx (List.replicate m.adapter.numRxQueues none) (List.replicate m.adapter.numTxQueues none) []
        (m.adapter.numRxQueues+m.adapter.numTxQueues) ∧
      Books.Granted k (m.adapter.numRxQueues+m.adapter.numTxQueues) := by
  obtain ⟨k,a⟩ := m
  obtain ⟨hvec,halloc,henable,hreq⟩ := hready
  obtain ⟨hdead,hactions,henabled⟩ := hfresh
  dsimp only at hvec halloc henable hreq hdead hactions henabled ⊢
  obtain ⟨n,hn⟩ : ∃ n, n = a.numRxQueues+a.numTxQueues := ⟨_,rfl⟩
  obtain ⟨table,htable⟩ : ∃ o, o = Object.msixEntries ((List.range n).map fun i => ⟨0,i⟩) := ⟨_,rfl⟩
  rw [← hn] at hvec halloc henable hreq ⊢
  -- the three blocks get consecutive numbers
  have hok0 : k.heap.ok k.heap.calls = true := halloc 0 (by omega)
  have h1 := (Heap.Holds.nil hdead).alloc hok0 table
  have hval := (h1.mem (b := k.heap.calls) (v := table) (by simp)).2
  rw [htable] at hval
  obtain ⟨enables,hloop⟩ := enableLoop_granted (k := k.allocated table) (by rw [htable]; exact hval) henabled henable
  have hfull := Heap.Holds.write [] h1 (fullTable k n)
  obtain ⟨k1,hk1⟩ : ∃ k1, k1 = (k.allocated table).vectored k.heap.calls n enables := ⟨_,rfl⟩
  have hc1 : k1.heap.calls = k.heap.calls+1 := by simp [hk1,Kernel.vectored,Kernel.allocated]
  have ho1 : k1.heap.ok = k.heap.ok := by simp [hk1,Kernel.vectored,Kernel.allocated]
  have hok1 : k1.heap.ok k1.heap.calls = true := by rw [ho1,hc1]; exact halloc 1 (by omega)
  replace hfull : k1.heap.Holds [(k.heap.calls,fullTable k n)] := by rw [hk1]; exact hfull
  have h2 := hfull.alloc hok1 (.irqArray (List.replicate a.numRxQueues none))
  obtain ⟨k2,hk2⟩ : ∃ k2, k2 = k1.allocated (.irqArray (List.replicate a.numRxQueues none)) := ⟨_,rfl⟩
  have hc2 : k2.heap.calls = k.heap.calls+2 := by simp [hk2,Kernel.allocated,hc1]
  have ho2 : k2.heap.ok = k.heap.ok := by simp [hk2,Kernel.allocated,ho1]
  have hok2 : k2.heap.ok k2.heap.calls = true := by rw [ho2,hc2]; exact halloc 2 (by omega)
  have h3 : (k2.allocated (.irqArray (List.replicate a.numTxQueues none))).heap.Holds _ :=
    Heap.Holds.alloc (by rw [hk2]; exact h2) hok2 _
  refine ⟨k2.allocated (.irqArray (List.replicate a.numTxQueues none)),k.heap.calls,k1.heap.calls,k2.heap.calls,
    ?_,⟨?_,by simp,?_,?_⟩,?_,?_⟩
  · simp only [ixmapConfigureMsix,← hn,not_lt.mpr hvec,if_false,← htable,alloc_granted _ hok0,hloop,← hk1,
      alloc_granted _ hok1,← hk2,alloc_granted _ hok2]
  · simpa [hk2,hk1,Kernel.allocated,Kernel.vectored,fullTable] using h3
  · simpa [hk2,hk1,Kernel.allocated,Kernel.vectored] using hactions
  · simp [hk2,hk1,Kernel.allocated,Kernel.vectored]
  · intro j hj
    have := halloc (j+3) (by omega)
    simpa [Kernel.allocated,ho2,hc2,Nat.add_comm,Nat.add_left_comm] using this
  · simpa [hk2,hk1,Kernel.allocated,Kernel.vectored] using hreq

theorem configureMsix_granted (hfresh : m.kernel.Fresh) (hready : Ready m) :
    ∃ m', ixmapConfigureMsix m = .ok (true,m') ∧ Configured m' ∧ m'.adapter.dma = m.adapter.dma ∧
      m'.adapter.refcount = m.adapter.refcount := by
  obtain ⟨k,entries,rx,tx,heq,hbooks,hg⟩ := configureMsix_eq hfresh hready
  have hrx : Books k entries rx tx (slots []++List.replicate m.adapter.numRxQueues none) _ [] _ := hbooks
  obtain ⟨k1,rxs,hrun1,hvec1,hbooks1,hg1⟩ := hrx.requestLoop 0 (by omega) hg
  have htx : Books k1 entries tx rx (slots []++List.replicate m.adapter.numTxQueues none) _ _ _ := hbooks1.swap
  obtain ⟨k2,txs,hrun2,hvec2,hbooks2,-⟩ := htx.requestLoop m.adapter.numRxQueues le_rfl (m := 0) hg1
  refine ⟨⟨k2,{ m.adapter with
    msixEntries := some entries
    numQVectors := m.adapter.numRxQueues+m.adapter.numTxQueues
    rxIrq := some rx
    txIrq := some tx }⟩,?_,?_,rfl,rfl⟩
  · rw [heq,requestIrqs]
    simp only [List.length_nil] at hrun1 hrun2
    simp only [hrun1,hrun2,bind,Except.bind,pure,Except.pure]
  · have hlen1 := congrArg List.length hvec1
    have hlen2 := congrArg List.length hvec2
    simp only [List.length_map,List.length_range'] at hlen1 hlen2
    refine ⟨entries,rx,tx,rxs,txs,rfl,rfl,rfl,hlen1,hlen2,rfl,?_,hbooks2.swap⟩
    have hrange : List.range' 0 m.adapter.numRxQueues++List.range' m.adapter.numRxQueues m.adapter.numTxQueues =
        List.range (m.adapter.numRxQueues+m.adapter.numTxQueues) := by
      rw [List.range_eq_range',← List.range'_append_1,Nat.zero_add]
    rw [List.map_append,hvec1,hvec2,hrange]

def released : Option ℕ → ℕ → ℤ
  | none => 0
  | some ctx => Pi.single ctx 1

/-- What an adapter that is down should hold: nothing. -/
structure Down (m : Machine) : Prop where
  kernel : m.kernel.Fresh
  numRxQueues : m.adapter.numRxQueues = 0
  numTxQueues : m.adapter.numTxQueues = 0
  numQVectors : m.adapter.numQVectors = 0
  msixEntries : m.adapter.msixEntries = none

theorem synchronizeIrqs_ok {b : ℕ} {as bs : List (Option ℕ)} {irqs : List Irq} {c : ℕ}
    (h : Books k entries b c as bs irqs n) (i : ℕ) (hi : i ≤ n) : synchronizeIrqs k (some entries) i = .ok () := by
  induction i with
  | zero => rfl
  | succ i ih => simp [synchronizeIrqs,ih (by omega),h.entryAt (i := i) (by omega),bind,Except.bind,pure,Except.pure]

theorem kfree_held {l₂ : List (ℕ × Object)} {c : ℕ} {o : Object} (l₁ : List (ℕ × Object)) (h : k.heap.Holds (l₁++(c,o)::l₂)) :
    k.kfree (some c) = .ok { k with heap := k.heap.free c } := by
  simp [Kernel.kfree,(h.mem (b := c) (v := o) (by simp)).1]

/-- Tear-down gives back what a configured adapter holds, each piece once. -/
theorem freeMsix_configured (hm : Configured m) : ∃ k, ixmapFreeMsix m = .ok ⟨k,{ m.adapter with
    msixEntries := none
    numQVectors := 0 }⟩ ∧ k.Fresh := by
  obtain ⟨entries,rx,tx,rxs,txs,hentries,hrx,htx,hlen1,hlen2,-,-,hbooks⟩ := hm
  have hfirst : Books m.kernel entries rx tx ([]++slots rxs) (slots txs) (rxs++txs) _ := hbooks
  obtain ⟨k1,hrun1,hbooks1⟩ := hfirst.freeLoop
  have hsecond : Books k1 entries tx rx ([]++slots txs) ([]++slots rxs) (txs++[])
      (m.adapter.numRxQueues+m.adapter.numTxQueues) := by
    rw [List.append_nil]
    exact hbooks1.swap
  obtain ⟨k2,hrun2,hbooks2⟩ := hsecond.freeLoop
  have hholds := hbooks2.swap.holds
  rw [List.map_nil,List.append_nil] at hholds
  -- the arrays and the entries, in the order in which they are freed
  have h3 := Heap.Holds.free [_,_] hholds
  have h4 := Heap.Holds.free [_] h3
  have h5 := Heap.Holds.free [] h4
  refine ⟨{ k2 with heap := ((k2.heap.free tx).free rx).free entries, enabled := 0 },?_,h5.dead,?_,rfl⟩
  · rw [hlen1,List.length_nil] at hrun1
    rw [hlen2,List.length_nil] at hrun2
    have hfree3 := kfree_held [_,_] (k := k2) hholds
    have hfree4 := kfree_held [_] (k := { k2 with heap := k2.heap.free tx }) h3
    have hfree5 := kfree_held [] (k := { k2 with heap := (k2.heap.free tx).free rx, enabled := 0 }) h4
    simp only [ixmapFreeMsix,hrx,htx,hentries,hrun1,hrun2,hfree3,hfree4,Kernel.pciDisableMsix,hfree5,bind,
      Except.bind,pure,Except.pure]
  · simpa using hbooks2.actions

theorem ixmapDown_configured (hmapped : m.adapter.dma.hwMapped = true) (hm : Configured m) :
    ∃ m', ixmapDown m = .ok m' ∧ Down m' ∧ m'.adapter.up = false ∧ m'.adapter.dma = m.adapter.dma ∧
      m'.adapter.refcount = m.adapter.refcount := by
  obtain ⟨k,hfree,hfresh⟩ := freeMsix_configured hm
  obtain ⟨entries,rx,tx,rxs,txs,hentries,-,-,-,-,hnum,-,hbooks⟩ := hm
  have hsync := synchronizeIrqs_ok hbooks _ le_rfl
  refine ⟨⟨k,{ m.adapter with
    msixEntries := none
    numQVectors := 0
    numInterruptRate := 0
    numRxQueues := 0
    numTxQueues := 0
    up := false }⟩,?_,⟨hfresh,rfl,rfl,rfl,rfl⟩,rfl,rfl,rfl⟩
  simp [ixmapDown,ixmapReset,accessRegs,hmapped,hentries,hnum,hsync,hfree,bind,Except.bind,pure,Except.pure]

def rebound (m : Machine) (entries : ℕ) (p : Irq) (ctx : ℕ) : Machine :=
  { m with kernel := { m.kernel with
      heap := m.kernel.heap.write p.block (.irq (some ctx) (entries,p.vector))
      efdRefs := m.kernel.efdRefs+Pi.single ctx 1-released p.efdCtx } }

theorem Books.rebind {a b : ℕ} {as bs : List (Option ℕ)} {p : Irq} {l₂ : List Irq} (l₁ : List Irq)
    (h : Books m.kernel entries a b as bs (l₁++p::l₂) n) (ctx : ℕ) :
    Books (rebound m entries p ctx).kernel entries a b as bs (l₁++{ p with efdCtx := some ctx }::l₂) n := by
  have hholds := h.holds
  rw [List.map_append,List.map_cons,← List.append_assoc] at hholds
  refine ⟨?_,?_,?_,h.enabled⟩
  · rw [List.map_append,List.map_cons,← List.append_assoc]
    exact Heap.Holds.write _ hholds _
  · intro q hq
    rcases List.mem_append.mp hq with hq | hq
    · exact h.bound q (by simp [hq])
    rcases List.mem_cons.mp hq with rfl | hq
    · exact h.bound p (by simp)
    · exact h.bound q (by simp [hq])
  · simpa [rebound] using h.actions

theorem Books.assignIrq {a b : ℕ} {bs : List (Option ℕ)} {p : Irq} {before behind l₁ l₂ : List Irq}
    (h : Books m.kernel entries a b (slots (l₁++p::l₂)) bs (before++(l₁++p::l₂)++behind) n) (ctx : Option ℕ) :
    Kmod.assignIrq m (some a) l₁.length ctx = .ok (match ctx with
      | none => (none,m)
      | some ctx => (some ⟨m.kernel.irqNumber p.vector,p.vector⟩,rebound m entries p ctx)) := by
  have hat : m.kernel.irqAt (some a) l₁.length = .ok (some p.block) := h.irqAt (by simp [slots])
  cases ctx with
  | none => simp [Kmod.assignIrq,hat,bind,Except.bind,pure,Except.pure]
  | some ctx =>
    have hfields := h.irqFields (p := p) (by simp)
    have hsplit : before++(l₁++p::l₂)++behind = (before++l₁)++p::(l₂++behind) := by simp
    have hv : p.vector < n := h.bound p (by simp)
    rw [hsplit] at h
    have hentry : ∀ refs, Kernel.entryAt { m.kernel with
        heap := m.kernel.heap.write p.block (.irq (some ctx) (entries,p.vector))
        efdRefs := refs } (some entries) p.vector = .ok ⟨m.kernel.irqNumber p.vector,p.vector⟩ :=
      fun refs => (h.rebind (before++l₁) ctx).entryAt hv
    cases hctx : p.efdCtx with
    | none =>
      simp [Kmod.assignIrq,hat,hfields,hctx,bind,Except.bind,pure,Except.pure,rebound,released,hentry]
    | some old =>
      simp [Kmod.assignIrq,hat,hfields,hctx,bind,Except.bind,pure,Except.pure,rebound,released,hentry,
        Kernel.eventfdCtxPut]

/-- The interrupt object that an array of pointers holds at an index, when both are live. -/
def liveIrq (k : Kernel) (array : Option ℕ) (i : ℕ) : Option ℕ :=
  match k.irqAt array i with
  | .ok (some irq) => if k.heap.live irq then some irq else none
  | _ => none

def Adapter.irqs (a : Adapter) : IrqType → Option ℕ
  | .rx => a.rxIrq
  | .tx => a.txIrq
  | .other => none

def Adapter.queues (a : Adapter) : IrqType → ℕ
  | .rx => a.numRxQueues
  | .tx => a.numTxQueues
  | .other => 0

/-- `-EINVAL` and nothing changed unless the queue has a live interrupt object and the descriptor stands
for a context; then this object is bound to it, and the one before is released once. -/
def AssignExact (m : Machine) (type : IrqType) (queueIdx : ℕ) (ctx : Option ℕ) : Prop :=
  match liveIrq m.kernel (m.adapter.irqs type) queueIdx, ctx with
  | some irq, some c => ∃ efdCtx msixEntry entry, m.kernel.heap.val irq = .irq efdCtx msixEntry ∧
      m.kernel.entryAt (some msixEntry.1) msixEntry.2 = .ok entry ∧
      ixmapIrqAssign m type queueIdx ctx = .ok (some entry,{ m with kernel := { m.kernel with
        heap := m.kernel.heap.write irq (.irq (some c) msixEntry)
        efdRefs := m.kernel.efdRefs+Pi.single c 1-released efdCtx } })
  | _, _ => ixmapIrqAssign m type queueIdx ctx = .ok (none,m)

/-- The index just past the queues of its type, which the check lets through. -/
def PastEnd (a : Adapter) (type : IrqType) (queueIdx : ℕ) : Prop := type ≠ .other ∧ queueIdx = a.queues type

theorem irqAssign_eq {type : IrqType} (htype : type ≠ .other) (queueIdx : ℕ) (ctx : Option ℕ) :
    ixmapIrqAssign m type queueIdx ctx = if m.adapter.queues type < queueIdx then .ok (none,m)
      else assignIrq m (m.adapter.irqs type) queueIdx ctx := by
  cases type with
  | rx => rfl
  | tx => rfl
  | other => exact absurd rfl htype

theorem Configured.side {type : IrqType} (hm : Configured m) (htype : type ≠ .other) :
    ∃ n entries a b bs before mine behind, m.adapter.irqs type = some a ∧ mine.length = m.adapter.queues type ∧
      Books m.kernel entries a b (slots mine) bs (before++mine++behind) n ∧
      ∀ m' mine', m'.adapter = m.adapter → slots mine' = slots mine →
        mine'.map Irq.vector = mine.map Irq.vector →
        Books m'.kernel entries a b (slots mine) bs (before++mine'++behind) n → Configured m' := by
  obtain ⟨entries,rx,tx,rxs,txs,hentries,hrx,htx,hlen1,hlen2,hnum,hvec,hbooks⟩ := hm
  have hlength : ∀ l l' : List Irq, slots l = slots l' → l.length = l'.length := by
    intro l l' heq
    simpa [slots] using congrArg List.length heq
  cases type with
  | rx =>
    refine ⟨_,entries,rx,tx,slots txs,[],rxs,txs,hrx,hlen1,hbooks,?_⟩
    intro m' mine' ha hslots hvector hb
    refine ⟨entries,rx,tx,mine',txs,?_⟩
    rw [ha,hlength _ _ hslots,List.map_append,hvector,← List.map_append,hslots]
    exact ⟨hentries,hrx,htx,hlen1,hlen2,hnum,hvec,hb⟩
  | tx =>
    refine ⟨_,entries,tx,rx,slots rxs,rxs,txs,[],htx,hlen2,by simpa using hbooks.swap,?_⟩
    intro m' mine' ha hslots hvector hb
    refine ⟨entries,rx,tx,rxs,mine',?_⟩
    rw [ha,hlength _ _ hslots,List.map_append,hvector,← List.map_append,hslots]
    exact ⟨hentries,hrx,htx,hlen1,hlen2,hnum,hvec,by simpa using hb.swap⟩
  | other => exact absurd rfl htype

theorem exists_split {α : Type} {l : List α} {i : ℕ} (hi : i < l.length) :
    ∃ l₁ x l₂, l = l₁++x::l₂ ∧ l₁.length = i :=
  ⟨l.take i,l[i],l.drop (i+1),by simp,by simp; omega⟩

theorem Configured.assign_lt {type : IrqType} {queueIdx : ℕ} (hm : Configured m) (htype : type ≠ .other)
    (hi : queueIdx < m.adapter.queues type) :
    ∃ entries p, liveIrq m.kernel (m.adapter.irqs type) queueIdx = some p.block ∧
      m.kernel.heap.val p.block = .irq p.efdCtx (entries,p.vector) ∧
      m.kernel.entryAt (some entries) p.vector = .ok ⟨m.kernel.irqNumber p.vector,p.vector⟩ ∧
      (∀ ctx, ixmapIrqAssign m type queueIdx ctx = .ok (match ctx with
        | none => (none,m)
        | some ctx => (some ⟨m.kernel.irqNumber p.vector,p.vector⟩,rebound m entries p ctx))) ∧
      ∀ ctx, Configured (rebound m entries p ctx) := by
  obtain ⟨n,entries,a,b,bs,before,mine,behind,harray,hlen,hbooks,hrest⟩ := hm.side htype
  rw [← hlen] at hi
  obtain ⟨l₁,p,l₂,rfl,rfl⟩ := exists_split hi
  have hat : m.kernel.irqAt (some a) l₁.length = .ok (some p.block) := hbooks.irqAt (by simp [slots])
  obtain ⟨hlive,hval⟩ := hbooks.object (p := p) (by simp)
  refine ⟨entries,p,by simp [liveIrq,harray,hat,hlive],hval,hbooks.entryAt (hbooks.bound p (by simp)),?_,?_⟩
  · intro ctx
    rw [irqAssign_eq htype,if_neg (by omega),harray]
    exact hbooks.assignIrq ctx
  · intro ctx
    have hsplit : before++(l₁++p::l₂)++behind = (before++l₁)++p::(l₂++behind) := by simp
    have hbooks' := hbooks
    rw [hsplit] at hbooks'
    apply hrest (rebound m entries p ctx) (l₁++{ p with efdCtx := some ctx }::l₂) rfl (by simp [slots]) (by simp)
    simpa using hbooks'.rebind (before++l₁) ctx

theorem Configured.liveIrq_ge {type : IrqType} {queueIdx : ℕ} (hm : Configured m)
    (hi : m.adapter.queues type ≤ queueIdx) : liveIrq m.kernel (m.adapter.irqs type) queueIdx = none := by
  by_cases htype : type = .other
  · subst htype
    rfl
  · obtain ⟨n,entries,a,b,bs,before,mine,behind,harray,hlen,hbooks,-⟩ := hm.side htype
    have hload := hbooks.load (c := a) (o := .irqArray (slots mine)) (by simp)
    have hnone : (slots mine)[queueIdx]? = none := by
      rw [List.getElem?_eq_none_iff,slots,List.length_map]
      omega
    simp [liveIrq,harray,Kernel.irqAt,hload,hnone,bind,Except.bind,throw,throwThe,MonadExceptOf.throw]

/-- The index at the count: the array is read past its end. -/
theorem Configured.assign_end {type : IrqType} (hm : Configured m) (htype : type ≠ .other) (ctx : Option ℕ) :
    ixmapIrqAssign m type (m.adapter.queues type) ctx = .error .outOfBounds := by
  obtain ⟨n,entries,a,b,bs,before,mine,behind,harray,hlen,hbooks,-⟩ := hm.side htype
  have hend := hbooks.irqAt_end
  have hslots : (slots mine).length = m.adapter.queues type := by rw [← hlen,slots,List.length_map]
  rw [hslots] at hend
  rw [irqAssign_eq htype,if_neg (lt_irrefl _),harray,assignIrq]
  simp only [hend,bind,Except.bind]

theorem Kernel.Fresh.irqAt (hk : k.Fresh) (array : Option ℕ) (i : ℕ) : ∃ e, k.irqAt array i = .error e := by
  cases array with
  | none => exact ⟨.nullPointer,by simp [Kernel.irqAt,Kernel.load,bind,Except.bind]⟩
  | some b => exact ⟨.freed,by simp [Kernel.irqAt,Kernel.load,hk.dead,bind,Except.bind]⟩

theorem Down.queues (hm : Down m) (type : IrqType) : m.adapter.queues type = 0 := by
  cases type with
  | rx => exact hm.numRxQueues
  | tx => exact hm.numTxQueues
  | other => rfl

theorem Down.assign_end {type : IrqType} (hm : Down m) (htype : type ≠ .other) (ctx : Option ℕ) :
    ∃ e, ixmapIrqAssign m type 0 ctx = .error e := by
  obtain ⟨e,he⟩ := hm.kernel.irqAt (m.adapter.irqs type) 0
  refine ⟨e,?_⟩
  rw [irqAssign_eq htype,hm.queues,if_neg (lt_irrefl _),assignIrq]
  simp only [he,bind,Except.bind]

theorem Down.liveIrq_none (hm : Down m) (type : IrqType) (i : ℕ) :
    liveIrq m.kernel (m.adapter.irqs type) i = none := by
  obtain ⟨e,he⟩ := hm.kernel.irqAt (m.adapter.irqs type) i
  simp [liveIrq,he]

/-- The interrupts match the state of the adapter. -/
structure IrqInv (m : Machine) : Prop where
  up : m.adapter.up = true → Configured m
  down : m.adapter.up = false → Down m

theorem IrqInv.cases (h : IrqInv m) : Configured m ∨ Down m := by
  cases hup : m.adapter.up with
  | true => exact Or.inl (h.up hup)
  | false => exact Or.inr (h.down hup)

theorem assign_gt {type : IrqType} {queueIdx : ℕ} (hi : type = .other ∨ m.adapter.queues type < queueIdx)
    (ctx : Option ℕ) : ixmapIrqAssign m type queueIdx ctx = .ok (none,m) := by
  by_cases htype : type = .other
  · subst htype
    rfl
  · rw [irqAssign_eq htype,if_pos (hi.resolve_left htype)]

theorem IrqInv.liveIrq_ge {type : IrqType} {queueIdx : ℕ} (h : IrqInv m)
    (hi : m.adapter.queues type ≤ queueIdx) : liveIrq m.kernel (m.adapter.irqs type) queueIdx = none := by
  obtain hm | hm := h.cases
  · exact hm.liveIrq_ge hi
  · exact hm.liveIrq_none type queueIdx

theorem IrqInv.assign_end {type : IrqType} (h : IrqInv m) (htype : type ≠ .other) (ctx : Option ℕ) :
    ∃ e, ixmapIrqAssign m type (m.adapter.queues type) ctx = .error e := by
  obtain hm | hm := h.cases
  · exact ⟨_,hm.assign_end htype ctx⟩
  · rw [hm.queues]
    exact hm.assign_end htype ctx

/-- The call does what it should exactly when the index is not the count. -/
theorem IrqInv.assignExact_iff (h : IrqInv m) (type : IrqType) (queueIdx : ℕ) (ctx : Option ℕ) :
    AssignExact m type queueIdx ctx ↔ ¬ PastEnd m.adapter type queueIdx := by
  by_cases hlt : queueIdx < m.adapter.queues type
  · have htype : type ≠ .other := by
      rintro rfl
      simp [Adapter.queues] at hlt
    have hm : Configured m := h.cases.resolve_right fun hm => by simp [hm.queues] at hlt
    obtain ⟨entries,p,hlive,hval,hentry,hassign,-⟩ := hm.assign_lt htype hlt
    refine iff_of_true ?_ fun hpast => hlt.ne hpast.2
    unfold AssignExact
    rw [hlive]
    cases ctx with
    | none => exact hassign none
    | some c => exact ⟨p.efdCtx,(entries,p.vector),_,hval,hentry,hassign (some c)⟩
  · have hnone := h.liveIrq_ge (not_lt.mp hlt)
    have hexact : AssignExact m type queueIdx ctx ↔ ixmapIrqAssign m type queueIdx ctx = .ok (none,m) := by
      unfold AssignExact
      rw [hnone]
    rw [hexact]
    by_cases hpast : PastEnd m.adapter type queueIdx
    · refine iff_of_false ?_ (not_not.mpr hpast)
      obtain ⟨htype,rfl⟩ := hpast
      obtain ⟨e,he⟩ := h.assign_end htype ctx
      rw [he]
      simp
    · refine iff_of_true (assign_gt ?_ ctx) hpast
      by_cases htype : type = .other
      · exact Or.inl htype
      · exact Or.inr (lt_of_le_of_ne (not_lt.mp hlt) fun he => hpast ⟨htype,he.symm⟩)

end

end Kmod
end Ixmap
