import Ixmap.Forward
import Ixmap.RouteSync

/-! The event loop of `thread.c`: the handlers of `thread_wait` and the loop over the events of one
`epoll_wait`. The handlers' loops over the ports use the variable of the loop over the events. -/
namespace Ixmap
namespace Forwarder
open Driver

/-- An event by the type of its `struct epoll_desc`, with the port it names and what `read` fills the
buffer with. -/
inductive EventKind where
  | irqRx (portIndex : ℕ)
  | irqTx (portIndex : ℕ)
  | tun (portIndex : ℕ) (readBuf : List UInt8)
  | signal
  | netlink (msgs : List NlMsg)

structure Event where
  kind : EventKind
  /-- `read` returns no error. -/
  readOk : Bool

/-- How the body of the loop is left. -/
inductive Flow where
  | continues
  | out
  | errRead
deriving DecidableEq, Repr

/-- `for(i = 0; i < thread->num_ports; i++)`, with the final value of `i`. -/
def portLoop (body : Plane → ℕ → Plane) : ℕ → ℕ → Plane → ℕ × Plane
  | 0, i, d => (i,d)
  | k+1, i, d => portLoop body k (i+1) (body d i)

def Thread.forPorts (t : Thread) (body : Plane → ℕ → Plane) : ℕ × Thread :=
  let r := portLoop body t.numPorts 0 t.plane
  (r.1,{ t with plane := r.2 })

def readCheck (ok : Bool) (r : ℕ × Thread) : Flow × ℕ × Thread :=
  if ok then (.continues,r) else (.errRead,r)

def handleRx (host : Endian) (t : Thread) (portIndex : ℕ) : ℕ × Thread :=
  let r := ixmapRxClean t.plane portIndex
  (forwardProcess host portIndex { t with plane := r.2 } r.1).forPorts ixmapTxXmit

def handleTx (t : Thread) (portIndex : ℕ) : ℕ × Thread :=
  Thread.forPorts { t with plane := ixmapTxClean t.plane portIndex } ixmapRxAssign

def handleTun (t : Thread) (portIndex : ℕ) (readBuf : List UInt8) : ℕ × Thread :=
  (forwardProcessTun t portIndex readBuf).forPorts ixmapTxXmit

/-- `switch(ep_desc->type)`: how the body is left, the loop variable and the thread. -/
def handle (host : Endian) (t : Thread) (i : ℕ) (ev : Event) : Flow × ℕ × Thread :=
  match ev.kind with
  | .irqRx portIndex => readCheck ev.readOk (handleRx host t portIndex)
  | .irqTx portIndex => readCheck ev.readOk (handleTx t portIndex)
  | .tun portIndex readBuf =>
    if ev.readOk then (.continues,handleTun t portIndex readBuf) else (.errRead,i,t)
  | .netlink msgs => if ev.readOk then (.continues,i,netlinkProcess t msgs) else (.errRead,i,t)
  | .signal => if ev.readOk then (.out,i,t) else (.errRead,i,t)

/-- `for(i = 0; i < num_fd; i++)`; the list collects the indices of the events handled. -/
def waitLoop (host : Endian) (events : List Event) :
    ℕ → ℕ → List ℕ → Thread → Option (Flow × List ℕ × Thread)
  | 0, _, _, _ => none
  | fuel+1, i, handled, t =>
    match events[i]? with
    | none => some (.continues,handled,t)
    | some ev =>
      match handle host t i ev with
      | (.continues,i',t) => waitLoop host events fuel (i'+1) (handled++[i]) t
      | (flow,_,t) => some (flow,handled++[i],t)

def EventKind.isSignal : EventKind → Bool
  | .signal => true
  | _ => false

/-- The handler runs a loop over the ports. -/
def EventKind.usesPorts : EventKind → Bool
  | .irqRx _ | .irqTx _ | .tun _ _ => true
  | _ => false

/-- The events up to and including the first signal. -/
def due (events : List Event) : ℕ := min events.length (events.findIdx (·.kind.isSignal)+1)

/-- The loop ends, having handled the events that are due once each, in order. -/
def DispatchExact (host : Endian) (t : Thread) (events : List Event) : Prop :=
  ∃ fuel flow t', waitLoop host events fuel 0 [] t = some (flow,List.range (due events),t')

/-- A handler with a loop over the ports stands where the number of ports makes up for its use of the
loop variable: at that position, or last and not beyond it. -/
def PortsFit (numPorts : ℕ) (events : List Event) : Prop :=
  ∀ k ev, k < due events → events[k]? = some ev → ev.kind.usesPorts = true →
    numPorts = k ∨ (k+1 = events.length ∧ k ≤ numPorts)

section
variable {host : Endian} {t t' : Thread} {events : List Event} {ev : Event} {i k fuel : ℕ}
variable {handled handled' : List ℕ}
variable {flow : Flow}

theorem portLoop_fst (body : Plane → ℕ → Plane) (k i : ℕ) (d : Plane) :
    (portLoop body k i d).1 = i+k := by
  induction k generalizing i d with
  | zero => rfl
  | succ k ih =>
    rw [portLoop,ih]
    omega

@[simp] theorem forPorts_fst (t : Thread) (body : Plane → ℕ → Plane) : (t.forPorts body).1 = t.numPorts := by
  simp [Thread.forPorts,portLoop_fst]

@[simp] theorem forPorts_numPorts (t : Thread) (body : Plane → ℕ → Plane) :
    (t.forPorts body).2.numPorts = t.numPorts := rfl

theorem forwardPacket_frame (host : Endian) (t : Thread) (portIndex : ℕ) (packet : Packet) :
    ∃ mem tap, (forwardPacket host t portIndex packet).2 = { t with mem, tap } := by
  unfold forwardPacket
  dsimp only
  split
  · exact ⟨_,_,rfl⟩
  split
  · unfold forwardIpProcess
    dsimp only
    split <;> exact ⟨_,_,rfl⟩
  split
  · unfold forwardIp6Process
    dsimp only
    split
    · exact ⟨_,_,rfl⟩
    split <;> exact ⟨_,_,rfl⟩
  · exact ⟨_,_,rfl⟩

theorem forwardProcess_numPorts (host : Endian) (portIndex : ℕ) (t : Thread) (packets : List Packet) :
    (forwardProcess host portIndex t packets).numPorts = t.numPorts := by
  induction packets generalizing t with
  | nil => rfl
  | cons packet rest ih =>
    obtain ⟨mem,tap,hframe⟩ := forwardPacket_frame host t portIndex packet
    rw [forwardProcess,ih]
    simp only [disposePacket,hframe]

theorem forwardProcessTun_numPorts (t : Thread) (portIndex : ℕ) (readBuf : List UInt8) :
    (forwardProcessTun t portIndex readBuf).numPorts = t.numPorts := by
  unfold forwardProcessTun
  dsimp only
  split
  · rfl
  split <;> rfl

/-- A handler whose `read` succeeds: only a signal ends the loop, and the handlers with a loop over
the ports leave the loop variable at the number of ports. -/
theorem handle_ok (host : Endian) (t : Thread) (i : ℕ) (hok : ev.readOk = true) :
    ∃ t', t'.numPorts = t.numPorts ∧ handle host t i ev =
      (if ev.kind.isSignal then .out else .continues,if ev.kind.usesPorts then t.numPorts else i,t') := by
  rcases ev with ⟨kind,readOk⟩
  simp only at hok
  subst hok
  cases kind with
  | irqRx portIndex =>
    refine ⟨(handleRx host t portIndex).2,?_,?_⟩
    · simp [handleRx,forwardProcess_numPorts]
    · simp [handle,readCheck,EventKind.isSignal,EventKind.usesPorts,handleRx,forwardProcess_numPorts,Prod.ext_iff]
  | irqTx portIndex =>
    refine ⟨(handleTx t portIndex).2,rfl,?_⟩
    simp [handle,readCheck,EventKind.isSignal,EventKind.usesPorts,handleTx,Prod.ext_iff]
  | tun portIndex readBuf =>
    refine ⟨(handleTun t portIndex readBuf).2,?_,?_⟩
    · simp [handleTun,forwardProcessTun_numPorts]
    · simp [handle,EventKind.isSignal,EventKind.usesPorts,handleTun,forwardProcessTun_numPorts,Prod.ext_iff]
  | signal => exact ⟨t,rfl,by simp [handle,EventKind.isSignal,EventKind.usesPorts]⟩
  | netlink msgs =>
    exact ⟨netlinkProcess t msgs,(samePorts_process t msgs).num,
      by simp [handle,EventKind.isSignal,EventKind.usesPorts]⟩

theorem waitLoop_extends (h : waitLoop host events fuel i handled t = some (flow,handled',t')) :
    handled <+: handled' ∧ (i < events.length → handled++[i] <+: handled') := by
  induction fuel generalizing i handled t with
  | zero => simp [waitLoop] at h
  | succ fuel ih =>
    rw [waitLoop] at h
    cases he : events[i]? with
    | none =>
      simp only [he,Option.some_inj,Prod.mk.injEq] at h
      rw [← h.2.1]
      exact ⟨List.prefix_refl _,fun hi => absurd (List.getElem?_eq_none_iff.mp he) (by omega)⟩
    | some ev =>
      have hgrow : handled++[i] <+: handled' := by
        rcases hh : handle host t i ev with ⟨_ | _ | _,i',t₁⟩
        · simp only [he,hh] at h
          exact (ih h).1
        · simp only [he,hh,Option.some_inj,Prod.mk.injEq] at h
          rw [← h.2.1]
        · simp only [he,hh,Option.some_inj,Prod.mk.injEq] at h
          rw [← h.2.1]
      exact ⟨(List.prefix_append _ _).trans hgrow,fun _ => hgrow⟩

theorem waitLoop_step (host : Endian) (t : Thread) (he : events[i]? = some ev) (hok : ev.readOk = true)
    (hs : ev.kind.isSignal = false) : ∃ t₁, t₁.numPorts = t.numPorts ∧ ∀ fuel handled,
      waitLoop host events (fuel+1) i handled t =
        waitLoop host events fuel ((if ev.kind.usesPorts then t.numPorts else i)+1) (handled++[i]) t₁ := by
  obtain ⟨t₁,hn,hh⟩ := handle_ok host t i hok
  refine ⟨t₁,hn,?_⟩
  intro fuel handled
  rw [waitLoop]
  simp only [he,hh,hs,Bool.false_eq_true,if_false]

theorem waitLoop_signal (host : Endian) (t : Thread) (he : events[i]? = some ev) (hok : ev.readOk = true)
    (hs : ev.kind.isSignal = true) : ∃ t₁, ∀ fuel handled,
      waitLoop host events (fuel+1) i handled t = some (.out,handled++[i],t₁) := by
  obtain ⟨t₁,-,hh⟩ := handle_ok host t i hok
  refine ⟨t₁,?_⟩
  intro fuel handled
  rw [waitLoop]
  simp only [he,hh,hs,if_true]

theorem waitLoop_end (hi : events.length ≤ i) (fuel : ℕ) (handled : List ℕ) (t : Thread) :
    waitLoop host events (fuel+1) i handled t = some (.continues,handled,t) := by
  rw [waitLoop,List.getElem?_eq_none_iff.mpr hi]

theorem due_le (events : List Event) : due events ≤ events.length := min_le_left _ _

theorem due_next (hk : k < due events) (he : events[k]? = some ev) (hs : ev.kind.isSignal = false) :
    k+1 < due events ∨ (k+1 = due events ∧ due events = events.length) := by
  have hne : k ≠ events.findIdx (·.kind.isSignal) := by
    rintro rfl
    obtain ⟨hlt,hget⟩ := List.getElem?_eq_some_iff.mp he
    have := List.findIdx_getElem (w := hlt)
    rw [hget,hs] at this
    exact Bool.noConfusion this
  unfold due at hk ⊢
  omega

theorem due_signal (hk : k < due events) (he : events[k]? = some ev) (hs : ev.kind.isSignal = true) :
    k+1 = due events := by
  obtain ⟨hlt,hget⟩ := List.getElem?_eq_some_iff.mp he
  have hle : events.findIdx (·.kind.isSignal) ≤ k := by
    by_contra hgt
    have hlt' : k < events.findIdx (·.kind.isSignal) := by omega
    have hno : events[k].kind.isSignal = false := List.not_of_lt_findIdx hlt'
    rw [hget,hs] at hno
    exact Bool.noConfusion hno
  unfold due at hk ⊢
  omega

/-- The loop variable survives a handler that leaves it alone or happens to restore it. -/
theorem index_kept {numPorts : ℕ} {kind : EventKind} (h : ¬ (kind.usesPorts = true ∧ numPorts ≠ i)) :
    (if kind.usesPorts then numPorts else i) = i := by
  by_cases hu : kind.usesPorts = true
  · rw [if_pos hu]
    by_contra hne
    exact h ⟨hu,hne⟩
  · rw [if_neg hu]

theorem range_append (i : ℕ) : List.range i ++ [i] = List.range (i+1) := List.range_succ.symm

/-- From event `i` on, with the ones before it handled in order, the rest is handled in order. -/
theorem waitLoop_exact {numPorts j : ℕ} (hok : ∀ ev ∈ events, ev.readOk = true)
    (hfit : PortsFit numPorts events) (hj : due events-i = j) (hi : i ≤ due events)
    (hend : i < due events ∨ due events = events.length) (ht : t.numPorts = numPorts) :
    ∃ fuel flow t', waitLoop host events fuel i (List.range i) t =
      some (flow,List.range (due events),t') := by
  induction j generalizing i t with
  | zero =>
    have hdue : i = due events := by omega
    have hlen := due_le events
    refine ⟨1,.continues,t,?_⟩
    rw [waitLoop_end (by omega),hdue]
  | succ j ih =>
    have hlen := due_le events
    have hlt : i < events.length := by omega
    have he : events[i]? = some events[i] := List.getElem?_eq_getElem hlt
    have hread := hok events[i] (List.getElem_mem hlt)
    cases hs : events[i].kind.isSignal with
    | true =>
      obtain ⟨t₁,h1⟩ := waitLoop_signal host t he hread hs
      exact ⟨1,.out,t₁,by rw [h1,range_append,due_signal (by omega) he hs]⟩
    | false =>
      have hnext := due_next (by omega) he hs
      obtain ⟨t₁,hn,h1⟩ := waitLoop_step host t he hread hs
      by_cases hback : events[i].kind.usesPorts = true ∧ numPorts ≠ i
      · -- the last event, behind which the loop variable is out of range
        obtain ⟨hu,hne⟩ := hback
        obtain hk | ⟨hlast,hle⟩ := hfit i _ (by omega) he hu
        · exact absurd hk hne
        refine ⟨2,.continues,t₁,?_⟩
        rw [h1,hu,if_pos rfl,ht,waitLoop_end (by omega),range_append,show i+1 = due events by omega]
      · obtain ⟨fuel,flow,t',h2⟩ := ih (t := t₁) (i := i+1) (by omega) (by omega) (by omega) (hn.trans ht)
        refine ⟨fuel+1,flow,t',?_⟩
        rw [h1,ht,index_kept hback,range_append,h2]

theorem portsFit_of_exact {numPorts j : ℕ} (hok : ∀ ev ∈ events, ev.readOk = true)
    (hj : due events-i = j) (ht : t.numPorts = numPorts)
    (h : waitLoop host events fuel i (List.range i) t = some (flow,List.range (due events),t'))
    {ev : Event} (hik : i ≤ k) (hk : k < due events) (he : events[k]? = some ev)
    (hu : ev.kind.usesPorts = true) : numPorts = k ∨ (k+1 = events.length ∧ k ≤ numPorts) := by
  induction j generalizing i t fuel with
  | zero => omega
  | succ j ih =>
    have hlen := due_le events
    have hlt : i < events.length := by omega
    have hi : events[i]? = some events[i] := List.getElem?_eq_getElem hlt
    have hread := hok events[i] (List.getElem_mem hlt)
    cases fuel with
    | zero => simp [waitLoop] at h
    | succ fuel =>
      cases hs : events[i].kind.isSignal with
      | true =>
        -- nothing behind a signal is due
        have hdue := due_signal (by omega) hi hs
        obtain rfl : i = k := by omega
        rw [hi,Option.some_inj] at he
        rw [← he] at hu
        cases hkind : events[i].kind <;> simp [hkind,EventKind.isSignal,EventKind.usesPorts] at hs hu
      | false =>
        have hnext := due_next (by omega) hi hs
        obtain ⟨t₁,hn,h1⟩ := waitLoop_step host t hi hread hs
        rw [h1,range_append] at h
        by_cases hback : events[i].kind.usesPorts = true ∧ numPorts ≠ i
        · obtain ⟨hui,hne⟩ := hback
          rw [hui,if_pos rfl,ht] at h
          by_cases hout : numPorts+1 < events.length
          · -- the next event handled is not the next one in order
            have hpre := (waitLoop_extends h).2 hout
            have hget := hpre.getElem (i := i+1) (by simp)
            simp at hget
            omega
          · cases fuel with
            | zero => simp [waitLoop] at h
            | succ fuel =>
              rw [waitLoop_end (by omega),Option.some_inj,Prod.mk.injEq,Prod.mk.injEq] at h
              have hsame := congrArg List.length h.2.1
              simp only [List.length_range] at hsame
              obtain rfl : i = k := by omega
              exact Or.inr ⟨by omega,by omega⟩
        · rw [ht,index_kept hback] at h
          by_cases hik' : i = k
          · subst hik'
            rw [hi,Option.some_inj] at he
            left
            by_contra hne
            exact hback ⟨he ▸ hu,hne⟩
          · exact ih (by omega) (hn.trans ht) h (by omega)

end

/-- The loop dispatches a batch exactly when every handler with a loop over the ports stands where the
number of ports makes up for its use of the loop variable. -/
theorem dispatch_exact_iff (host : Endian) (t : Thread) (events : List Event)
    (hok : ∀ ev ∈ events, ev.readOk = true) :
    DispatchExact host t events ↔ PortsFit t.numPorts events := by
  constructor
  · rintro ⟨fuel,flow,t',h⟩ k ev hk he hu
    exact portsFit_of_exact hok rfl rfl h (Nat.zero_le k) hk he hu
  · intro hfit
    have hend : 0 < due events ∨ due events = events.length := by
      unfold due
      omega
    exact waitLoop_exact hok hfit rfl (Nat.zero_le _) hend rfl

/-- With one port, a transmit interrupt at position 1 between a netlink message and a signal. -/
theorem dispatch_exact_batch :
    let events := [Event.mk (.netlink [.unknown]) true,Event.mk (.irqTx 0) true,Event.mk .signal true]
    (∀ ev ∈ events, ev.readOk = true) ∧ due events = 3 ∧ DispatchExact .little onePort events := by
  intro events
  have hok : ∀ ev ∈ events, ev.readOk = true := by simp [events]
  refine ⟨hok,rfl,(dispatch_exact_iff .little onePort events hok).mpr ?_⟩
  intro k ev hk he hu
  have hdue : due events = 3 := rfl
  rw [hdue] at hk
  interval_cases k
  · rw [← Option.some_inj.mp he] at hu
    exact absurd hu (by decide)
  · exact Or.inl rfl
  · rw [← Option.some_inj.mp he] at hu
    exact absurd hu (by decide)

/-- With one port, the event behind a transmit interrupt is skipped. -/
theorem dispatch_skips_event :
    let events := [Event.mk (.irqTx 0) true,Event.mk (.netlink []) true]
    (waitLoop .little events 3 0 [] onePort).map (fun r => (r.1,r.2.1)) = some (.continues,[0]) ∧
      due events = 2 := by
  refine ⟨?_,?_⟩
  · decide
  · decide

end Forwarder
end Ixmap
