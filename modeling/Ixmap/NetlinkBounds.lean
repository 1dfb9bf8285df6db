import Ixmap.RouteReads
import Ixmap.RouteSync

/-! Which buffers `netlink_process` handles without leaving the buffer, the message or an array, whatever the
allocator answers. -/
namespace Ixmap
namespace Forwarder
open PrefixBits FibTable Neighbour RecordWalk

namespace NlBuf
variable {b : NlBuf} {stop rta nlh fuel a n size : ℕ} {t t' : Thread}

/-- The loop over the attributes of a message reaches the one at `rta`. -/
def HasAttr (b : NlBuf) (nlh rta : ℕ) : Prop :=
  Visits rtaHdrlen b.rtaLen (rtmRta nlh) (b.rtmPayload nlh) rta

/-- A route attribute fits the array it is copied to, and an interface index lies in the message. -/
def RouteAttrOk (b : NlBuf) (stop rta : ℕ) : Prop :=
  (b.rtaType rta = rtaDst ∨ b.rtaType rta = rtaGateway → b.rtaPayload rta ≤ 16) ∧
    (b.rtaType rta = rtaOif → rta+rtaHdrlen+4 ≤ stop)

/-- A neighbour attribute fits the array it is copied to. -/
def NeighAttrOk (b : NlBuf) (rta : ℕ) : Prop :=
  (b.rtaType rta = ndaDst → b.rtaPayload rta ≤ 16) ∧ (b.rtaType rta = ndaLladdr → b.rtaPayload rta ≤ 6)

/-- The message has room for its fixed part. -/
def FixedOk (b : NlBuf) (nlh : ℕ) : Prop := nlmsgHdrlen+rtmLen ≤ b.nlmsgLen nlh

/-- The walk that the message starts reads no more than the array that its destination is copied to. -/
def RouteLenOk (b : NlBuf) (nlh : ℕ) : Prop := LenOk (b.nlmsgType nlh == rtmNewroute) (b.rtmsg nlh)

def RouteOk (b : NlBuf) (nlh : ℕ) : Prop :=
  b.FixedOk nlh ∧ (∀ rta, b.HasAttr nlh rta → b.RouteAttrOk (b.nlmsgEnd nlh) rta) ∧ b.RouteLenOk nlh

/-- The attributes of a neighbour on an interface that is not the thread's are not read. -/
def NeighOk (b : NlBuf) (t : Thread) (nlh : ℕ) : Prop :=
  b.FixedOk nlh ∧ (findPort t (b.ndmsg nlh).ifindex ≠ none → ∀ rta, b.HasAttr nlh rta → b.NeighAttrOk rta)

def MsgOk (b : NlBuf) (t : Thread) (nlh : ℕ) : Prop :=
  (b.nlmsgType nlh = rtmNewroute ∨ b.nlmsgType nlh = rtmDelroute → b.RouteOk nlh) ∧
    (b.nlmsgType nlh = rtmNewneigh ∨ b.nlmsgType nlh = rtmDelneigh → b.NeighOk t nlh)

theorem check_ends (hstop : (stop : ℤ) ≤ b.readSize) :
    Ends .fuel (fun _ => True) (a+n ≤ stop) (b.check stop a n) := by
  unfold check
  by_cases hle : a+n ≤ stop
  · exact Or.inl ⟨hle,(),by rw [if_pos ⟨by omega,hle⟩],trivial⟩
  · exact Or.inr ⟨hle,.read,by rw [if_neg fun h => hle h.2],by decide⟩

theorem fixed_ends (hend : (b.nlmsgEnd nlh : ℤ) ≤ b.readSize) :
    Ends .fuel (fun _ => True) (b.FixedOk nlh) (b.check (b.nlmsgEnd nlh) (nlmsgData nlh) rtmLen) := by
  refine (check_ends hend).congr ?_
  unfold FixedOk nlmsgEnd nlmsgData
  omega

section Attributes
variable (hstop : (stop : ℤ) ≤ b.readSize) (hlen : rtaHdrlen ≤ b.rtaLen rta)
  (hin : rta+b.rtaLen rta ≤ stop)
include hstop hlen hin

theorem copyAttr_ends (dst : Bytes) :
    Ends .fuel (fun _ => True) (b.rtaPayload rta ≤ size) (b.copyAttr stop rta size dst) := by
  have hfits : rta+rtaHdrlen+b.rtaPayload rta ≤ stop := by
    unfold rtaPayload
    omega
  have hread := check_ends (a := rta+rtaHdrlen) (n := b.rtaPayload rta) hstop
  unfold copyAttr
  refine (hread.bind (Q := b.rtaPayload rta ≤ size) fun _ _ _ => ?_).congr (and_iff_right hfits)
  by_cases hle : b.rtaPayload rta ≤ size
  · exact Or.inl ⟨hle,_,if_pos hle,trivial⟩
  · exact Or.inr ⟨hle,.copy,if_neg hle,by decide⟩

theorem routeAttr_ends (d : RouteLocals) :
    Ends .fuel (fun _ => True) (b.RouteAttrOk stop rta) (b.routeAttr stop d rta) := by
  have hcopy : ∀ dst, Ends .fuel (fun _ => True) (b.rtaPayload rta ≤ 16) (b.copyAttr stop rta 16 dst) :=
    copyAttr_ends hstop hlen hin
  unfold routeAttr RouteAttrOk
  by_cases hdst : b.rtaType rta = rtaDst
  · rw [if_pos hdst]
    refine ((hcopy d.pfx).map fun _ _ => trivial).congr ?_
    simp [hdst,rtaDst,rtaOif]
  rw [if_neg hdst]
  by_cases hgw : b.rtaType rta = rtaGateway
  · rw [if_pos hgw]
    refine ((hcopy d.nexthop).map fun _ _ => trivial).congr ?_
    simp [hgw,rtaGateway,rtaOif]
  rw [if_neg hgw]
  by_cases hoif : b.rtaType rta = rtaOif
  · rw [if_pos hoif]
    refine ((check_ends hstop).map fun _ _ => trivial).congr ?_
    simp [hoif,rtaOif,rtaDst,rtaGateway]
  · rw [if_neg hoif]
    refine (Ends.ok trivial).congr ?_
    simp [hdst,hgw,hoif]

theorem neighAttr_ends (d : NeighLocals) :
    Ends .fuel (fun _ => True) (b.NeighAttrOk rta) (b.neighAttr stop d rta) := by
  unfold neighAttr NeighAttrOk
  by_cases hdst : b.rtaType rta = ndaDst
  · rw [if_pos hdst]
    refine ((copyAttr_ends hstop hlen hin d.dstAddr).map fun _ _ => trivial).congr ?_
    simp [hdst,ndaDst,ndaLladdr]
  rw [if_neg hdst]
  by_cases hll : b.rtaType rta = ndaLladdr
  · rw [if_pos hll]
    refine ((copyAttr_ends hstop hlen hin d.dstMac).map fun _ _ => trivial).congr ?_
    simp [hll,ndaLladdr,ndaDst]
  · rw [if_neg hll]
    refine (Ends.ok trivial).congr ?_
    simp [hdst,hll]

end Attributes

section Messages
variable (hsize : b.readSize < 2^31) (hend : (b.nlmsgEnd nlh : ℤ) ≤ b.readSize) (hfuel : b.readSize.toNat < fuel)
include hsize hend hfuel

theorem attrLoop_ends {σ : Type} {C : ℕ → Prop} {body : σ → ℕ → Except Fault σ} (s : σ)
    (hfixed : b.FixedOk nlh)
    (hbody : ∀ s rta, rtaHdrlen ≤ b.rtaLen rta → rta+b.rtaLen rta ≤ b.nlmsgEnd nlh →
      Ends .fuel (fun _ => True) (C rta) (body s rta)) :
    Ends .fuel (fun _ => True) (∀ rta, b.HasAttr nlh rta → C rta)
      (loop .fuel rtaHdrlen (b.rtaHead (b.nlmsgEnd nlh)) body fuel s (rtmRta nlh) (b.rtmPayload nlh)) := by
  unfold FixedOk at hfixed
  have hpay : b.rtmPayload nlh = (b.nlmsgLen nlh : ℤ)-(nlmsgHdrlen+rtmLen : ℕ) := by
    unfold rtmPayload nlmsgEnd at *
    rw [Int.bmod_eq_of_le_mul_two] <;> omega
  have hstop : (rtmRta nlh : ℤ)+b.rtmPayload nlh = b.nlmsgEnd nlh := by
    rw [hpay,rtmRta,nlmsgData,nlmsgEnd]
    push_cast
    ring
  have hlt : b.rtmPayload nlh < 2^31 := by
    unfold nlmsgEnd at hend
    omega
  refine loop_ends (by decide) hlt (by unfold nlmsgEnd at hend; omega) ?_ ?_ trivial
  · intro p _ hle
    rw [hstop] at hle
    rw [rtaHead,check,if_pos ⟨by omega,by omega⟩]
    rfl
  · intro s rta _ hv
    obtain ⟨-,hlen,hin⟩ := hv.bounds hlt
    rw [hstop] at hin
    exact hbody s rta hlen (by omega)

theorem routeLoop_ends (hfixed : b.FixedOk nlh) :
    Ends .fuel (fun _ => True) (∀ rta, b.HasAttr nlh rta → b.RouteAttrOk (b.nlmsgEnd nlh) rta)
      (loop .fuel rtaHdrlen (b.rtaHead (b.nlmsgEnd nlh)) (b.routeAttr (b.nlmsgEnd nlh)) fuel
        ⟨fun _ => 0,fun _ => 0,-1,.link⟩ (rtmRta nlh) (b.rtmPayload nlh)) :=
  attrLoop_ends hsize hend hfuel _ hfixed fun d _ hlen hin => routeAttr_ends hend hlen hin d

theorem netlinkRoute_ends (ht : TriesInside t) (hlen : b.RouteLenOk nlh ∨ Plenty t) :
    Ends .fuel (Kept t) (b.RouteOk nlh) (b.netlinkRoute routeStepIn fuel t nlh) := by
  refine (fixed_ends hend).bind fun hfixed _ _ => ?_
  refine (routeLoop_ends hsize hend hfuel hfixed).bind fun _ d _ => ?_
  by_cases hok : b.RouteLenOk nlh
  · obtain ⟨hcall,htries⟩ := routeStepIn_ok (d := d) ht hok
    exact Or.inl ⟨hok,_,hcall,samePorts_routeCall t _ _ d,htries,plenty_routeCall⟩
  · exact Or.inr ⟨hok,.read,routeStepIn_read (hlen.resolve_left hok) hok,by decide⟩

theorem netlinkNeigh_ends (t : Thread) :
    Ends .fuel (fun t' => SamePorts t t' ∧ t'.fib = t.fib) (b.NeighOk t nlh) (b.netlinkNeigh fuel t nlh) := by
  refine (fixed_ends hend).bind fun hfixed _ _ => ?_
  cases findPort t (b.ndmsg nlh).ifindex with
  | none => exact (Ends.ok ⟨⟨rfl,rfl,rfl⟩,rfl⟩).congr (by simp)
  | some port =>
    have hloop := attrLoop_ends hsize hend hfuel ⟨fun _ => 0,fun _ => 0⟩ hfixed
      fun d rta hlen hin => neighAttr_ends hend hlen hin d
    exact (hloop.map fun d _ => ⟨samePorts_neighCall t _ _ port d,fib_neighCall⟩).congr (by simp)

theorem netlinkMsg_ends (ht : TriesInside t) (hlen : b.MsgOk t nlh ∨ Plenty t) :
    Ends .fuel (Kept t) (b.MsgOk t nlh) (b.netlinkMsg routeStepIn fuel t nlh) := by
  by_cases hroute : b.nlmsgType nlh = rtmNewroute ∨ b.nlmsgType nlh = rtmDelroute
  · have hneigh : ¬ (b.nlmsgType nlh = rtmNewneigh ∨ b.nlmsgType nlh = rtmDelneigh) := by
      simp only [rtmNewroute,rtmDelroute,rtmNewneigh,rtmDelneigh] at *
      omega
    rw [netlinkMsg,if_pos hroute]
    have hroute_len : b.RouteLenOk nlh ∨ Plenty t := hlen.imp_left fun hmsg => (hmsg.1 hroute).2.2
    exact (netlinkRoute_ends hsize hend hfuel ht hroute_len).congr (by simp [MsgOk,hroute,hneigh])
  rw [netlinkMsg,if_neg hroute]
  by_cases hneigh : b.nlmsgType nlh = rtmNewneigh ∨ b.nlmsgType nlh = rtmDelneigh
  · rw [if_pos hneigh]
    have hcall := (netlinkNeigh_ends hsize hend hfuel t).mono fun t' h => Kept.of_fib ht h.1 h.2
    exact hcall.congr (by simp [MsgOk,hroute,hneigh])
  · rw [if_neg hneigh]
    exact (Ends.ok (Kept.of_fib ht ⟨rfl,rfl,rfl⟩ rfl)).congr (by simp [MsgOk,hroute,hneigh])

theorem netlinkMsg_ne_fuel (t : Thread) : b.netlinkMsg routeStepIn fuel t nlh ≠ .error .fuel := by
  unfold netlinkMsg
  split_ifs
  · refine (fixed_ends hend).bind_ne_stuck fun hfixed _ => ?_
    exact (routeLoop_ends hsize hend hfuel hfixed).bind_ne_stuck fun _ d => routeStepIn_ne_fuel
  · exact (netlinkNeigh_ends hsize hend hfuel t).ne_stuck
  · simp

end Messages

theorem MsgOk.congr (h : SamePorts t t') : b.MsgOk t' nlh ↔ b.MsgOk t nlh := by
  unfold MsgOk NeighOk
  rw [h.findPort_eq]

/-- The loop over the messages of the buffer reaches the one at `nlh`. -/
def HasMsg (b : NlBuf) (nlh : ℕ) : Prop := Visits nlmsgHdrlen b.nlmsgLen 0 b.readSize nlh

theorem HasMsg.end_le (hv : b.HasMsg nlh) (hsize : b.readSize < 2^31) : (b.nlmsgEnd nlh : ℤ) ≤ b.readSize := by
  obtain ⟨-,-,hin⟩ := Visits.bounds hv hsize
  unfold nlmsgEnd
  omega

theorem nlmsgHead_eq (hle : ((nlh+nlmsgHdrlen : ℕ) : ℤ) ≤ (0 : ℕ)+b.readSize) :
    b.nlmsgHead nlh = .ok (b.nlmsgLen nlh) := by
  rw [nlmsgHead,check,if_pos ⟨by omega,le_rfl⟩]
  rfl

/-- Processing is decided by the buffer as long as lengths fit or memory does not run out. -/
theorem processIn_ends (hsize : b.readSize < 2^31) (hfuel : b.readSize.toNat < fuel) (ht : TriesInside t)
    (hmem : (∀ nlh, b.HasMsg nlh → b.MsgOk t nlh) ∨ Plenty t) :
    Ends .fuel (Kept t) (∀ nlh, b.HasMsg nlh → b.MsgOk t nlh) (b.netlinkProcessIn fuel t) := by
  refine loop_ends (by decide) hsize hfuel (fun p _ hle => nlmsgHead_eq hle) ?_ (Kept.refl ht)
  intro t' nlh hkept hv
  have hlen : b.MsgOk t' nlh ∨ Plenty t' :=
    hmem.imp (fun hall => (MsgOk.congr hkept.ports).mpr (hall nlh hv)) hkept.plenty
  have hmsg := netlinkMsg_ends hsize (HasMsg.end_le hv hsize) hfuel hkept.tries hlen
  exact (hmsg.congr (MsgOk.congr hkept.ports)).mono fun _ => hkept.trans

def ofList (bytes : List UInt8) : NlBuf := ⟨.little,fun k => bytes.getD k 0,bytes.length⟩

/-- A new route with one attribute; `room` is what its length says about the part behind the fixed one. -/
def newRoute (family dstLen room attrLen attrType : UInt8) (payload : List UInt8) : NlBuf :=
  ofList ([28+room,0,0,0,24,0,0,0,0,0,0,0,0,0,0,0,family,dstLen,0,0,254,0,0,1,0,0,0,0,attrLen,0,attrType,0]++payload)

theorem onePort_inside : TriesInside onePort := by
  intro f i
  cases f <;> trivial

def tenNet : NlBuf := newRoute 2 8 8 8 1 [10,0,0,0]

theorem tenNet_ok : ∀ nlh, tenNet.HasMsg nlh → tenNet.MsgOk onePort nlh := by
  intro nlh hv
  -- one message with one attribute, both to the end of the buffer
  have hmsg : nlh = 0 := by
    cases hv with
    | here => rfl
    | next _ _ hrest =>
      obtain ⟨h1,h2,h3⟩ := hrest.bounds (by decide)
      rw [show advance tenNet.readSize (tenNet.nlmsgLen 0) = 0 by decide,
        show 0+align4 (tenNet.nlmsgLen 0) = 36 by decide] at *
      simp only [nlmsgHdrlen] at h2
      omega
  subst hmsg
  refine ⟨fun _ => ⟨by unfold FixedOk; decide,?_,fun _ _ => by decide⟩,fun hneigh => absurd hneigh (by decide)⟩
  intro rta hattr
  have hrta : rta = 28 := by
    cases hattr with
    | here => rfl
    | next _ _ hrest =>
      obtain ⟨h1,h2,h3⟩ := hrest.bounds (by decide)
      rw [show advance (tenNet.rtmPayload 0) (tenNet.rtaLen (rtmRta 0)) = 0 by decide,
        show rtmRta 0+align4 (tenNet.rtaLen (rtmRta 0)) = 36 by decide] at *
      simp only [rtaHdrlen] at h2
      omega
  subst hrta
  unfold RouteAttrOk
  decide

end NlBuf
end Forwarder
end Ixmap
