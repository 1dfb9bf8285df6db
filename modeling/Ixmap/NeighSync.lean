import Ixmap.RouteSync

/-! Neighbour messages: what the neighbour tables hold after any sequence of netlink messages, against
the latest message about each address. -/
namespace Ixmap
namespace Forwarder
open BlockHeap PrefixBits FibTable Neighbour GuardedRun

/-- The address that a neighbour message is about, and the link-layer address it carries. -/
def NdMsg.addr (m : NdMsg) : Bytes := zeroExtend ((lastOf NeighAttr.dst? m.attrs).getD [])

def NdMsg.mac? (m : NdMsg) : Option Mac :=
  (lastOf NeighAttr.lladdr? m.attrs).map fun data => macOf (zeroExtend data)

def NdMsg.About (t : Thread) (f : Family) (port : ℕ) (a : Bytes) (m : NdMsg) : Prop :=
  familyOf m.family = some f ∧ findPort t m.ifindex = some port ∧ EqBytes f.size a m.addr

instance (t : Thread) (f : Family) (port : ℕ) (a : Bytes) (m : NdMsg) :
    Decidable (m.About t f port a) := by
  unfold NdMsg.About
  infer_instance

def NlMsg.about (t : Thread) (f : Family) (port : ℕ) (a : Bytes) : NlMsg → Bool
  | .newNeigh m => decide (m.About t f port a)
  | .delNeigh m => decide (m.About t f port a)
  | _ => false

def latest (t : Thread) (f : Family) (port : ℕ) (a : Bytes) (msgs : List NlMsg) : Option NlMsg :=
  msgs.reverse.find? (NlMsg.about t f port a)

/-- What the table of a port may say about an address after the messages. -/
structure Follows (t : Thread) (f : Family) (port : ℕ) (msgs : List NlMsg) (a : Bytes)
    (found : Option Mac) : Prop where
  announced : ∀ m mac, latest t f port a msgs = some (.newNeigh m) → m.mac? = some mac → found = some mac
  withdrawn : ∀ m, latest t f port a msgs = some (.delNeigh m) → found = none
  carried : ∀ mac, found = some mac → ∃ m, NlMsg.newNeigh m ∈ msgs ∧ m.About t f port a ∧ m.mac? = some mac

/-- A new neighbour is unbound or bound to the address it carries, and one without a link-layer
address is bound. -/
def NeighUnchanged (t : Thread) : NlMsg → Prop
  | .newNeigh m => ∀ f port, familyOf m.family = some f → findPort t m.ifindex = some port →
      match m.mac? with
      | some mac => neighMac (t.neigh f port) m.addr = none ∨ neighMac (t.neigh f port) m.addr = some mac
      | none => neighMac (t.neigh f port) m.addr ≠ none
  | _ => True

variable {t t₀ : Thread} {f : Family} {port : ℕ} {a : Bytes} {m : NdMsg} {past : List NlMsg} {msg : NlMsg}
variable {found : Option Mac}

theorem latest_append : latest t f port a (past++[msg]) =
    if msg.about t f port a then some msg else latest t f port a past := by
  rw [latest,List.reverse_append,List.reverse_singleton,List.singleton_append,List.find?_cons]
  cases msg.about t f port a <;> rfl

theorem SamePorts.about_iff (h : SamePorts t₀ t) : m.About t f port a ↔ m.About t₀ f port a := by
  simp only [NdMsg.About,h.findPort_eq]

theorem Follows.other (h : Follows t f port past a found) (hno : msg.about t f port a = false) :
    Follows t f port (past++[msg]) a found := by
  have hlatest : latest t f port a (past++[msg]) = latest t f port a past := by
    rw [latest_append,hno]
    simp
  refine ⟨?_,?_,?_⟩
  · rw [hlatest]
    exact h.announced
  · rw [hlatest]
    exact h.withdrawn
  · intro mac hf
    obtain ⟨m,hm,hrest⟩ := h.carried mac hf
    exact ⟨m,by simp [hm],hrest⟩

theorem Follows.announce {mac : Mac} (hm : m.About t f port a) (hmac : m.mac? = some mac) :
    Follows t f port (past++[.newNeigh m]) a (some mac) := by
  have hlatest : latest t f port a (past++[.newNeigh m]) = some (.newNeigh m) := by
    simp [latest_append,NlMsg.about,hm]
  refine ⟨?_,?_,?_⟩
  · intro m' mac' hl hmac'
    rw [hlatest,Option.some_inj,NlMsg.newNeigh.injEq] at hl
    subst hl
    rw [← hmac,← hmac']
  · intro m' hl
    simp [hlatest] at hl
  · intro mac' hf
    rw [Option.some_inj] at hf
    exact ⟨m,by simp,hm,hf ▸ hmac⟩

/-- An announcement without a link-layer address leaves a bound address as it is. -/
theorem Follows.refresh (h : Follows t f port past a found) (hm : m.About t f port a)
    (hmac : m.mac? = none) : Follows t f port (past++[.newNeigh m]) a found := by
  have hlatest : latest t f port a (past++[.newNeigh m]) = some (.newNeigh m) := by
    simp [latest_append,NlMsg.about,hm]
  refine ⟨?_,?_,?_⟩
  · intro m' mac' hl hmac'
    rw [hlatest,Option.some_inj,NlMsg.newNeigh.injEq] at hl
    subst hl
    simp [hmac] at hmac'
  · intro m' hl
    simp [hlatest] at hl
  · intro mac' hf
    obtain ⟨m',hm',hrest⟩ := h.carried mac' hf
    exact ⟨m',by simp [hm'],hrest⟩

theorem Follows.withdraw (hm : m.About t f port a) : Follows t f port (past++[.delNeigh m]) a none := by
  have hlatest : latest t f port a (past++[.delNeigh m]) = some (.delNeigh m) := by
    simp [latest_append,NlMsg.about,hm]
  refine ⟨?_,fun _ _ => rfl,by simp⟩
  intro m' mac' hl
  simp [hlatest] at hl

theorem neighLocals_eq (hm : m.Valid f) : (neighLocals m).dstAddr = m.addr ∧
    ∀ mac, m.mac? = some mac → macOf (neighLocals m).dstMac = mac := by
  rw [neighLocals,foldl_neighAttr m.attrs hm.sized]
  refine ⟨rfl,?_⟩
  intro mac hmac
  obtain ⟨data,hd,rfl⟩ := Option.map_eq_some_iff.mp hmac
  simp [hd]

theorem neigh_netlinkNeigh (t : Thread) (isNew : Bool) (m : NdMsg) (f : Family) (port : ℕ) :
    (netlinkNeigh t isNew m).neigh f port =
      if familyOf m.family = some f ∧ findPort t m.ifindex = some port then
        if isNew then (neighAdd (t.neigh f port) m.family (neighLocals m).dstAddr (neighLocals m).dstMac).2
        else (neighDelete (t.neigh f port) (neighLocals m).dstAddr).2
      else t.neigh f port := by
  unfold netlinkNeigh
  cases hp : findPort t m.ifindex with
  | none => simp
  | some port' =>
    cases hf : familyOf m.family with
    | none => simp
    | some f' =>
      by_cases heq : f = f' ∧ port = port'
      · obtain ⟨rfl,rfl⟩ := heq
        cases isNew <;> simp [neigh_setNeigh]
      · have hne : ¬ (f' = f ∧ port' = port) := fun h => heq ⟨h.1.symm,h.2.symm⟩
        cases isNew <;> simp [neigh_setNeigh,heq,hne]

/-- The neighbour table of a port follows the messages so far, with memory for every request. -/
structure Tracks (t₀ : Thread) (f : Family) (port : ℕ) (past : List NlMsg) (t : Thread) : Prop where
  ports : SamePorts t₀ t
  inv : NeighInv f.size (t.neigh f port)
  ok : ∀ j, (t.neigh f port).desc.ok j = true
  follows : ∀ a, Follows t₀ f port past a (neighMac (t.neigh f port) a)

theorem Tracks.newNeigh (h : Tracks t₀ f port past t) (hm : m.Valid f)
    (hport : findPort t m.ifindex = some port) (hsame : NeighUnchanged t (.newNeigh m)) :
    Tracks t₀ f port (past++[.newNeigh m]) (netlinkNeigh t true m) := by
  have hfam := familyOf_eq.mpr hm.family
  have hsize : addrSize m.family = some f.size := by rw [hm.family,addrSize_af]
  have hneigh := neigh_netlinkNeigh t true m f port
  obtain ⟨haddr,hmacs⟩ := neighLocals_eq hm
  simp only [hfam,hport,and_self,if_true,haddr] at hneigh
  obtain ⟨hinv,hret,hbind⟩ := h.inv.add hsize m.addr (neighLocals m).dstMac
  have habout : ∀ a, m.About t₀ f port a ↔ EqBytes f.size a m.addr := by
    intro a
    rw [← h.ports.about_iff]
    simp only [NdMsg.About,hfam,hport,true_and]
  refine ⟨h.ports.trans (samePorts_neigh t true m),hneigh ▸ hinv,?_,?_⟩
  · rw [hneigh,neighAdd_ok hsize]
    exact h.ok
  intro a
  rw [hneigh,hbind a]
  have hold := h.follows a
  by_cases hab : EqBytes f.size a m.addr
  · have hcond := hsame f port hfam hport
    rw [← h.inv.mac_congr hab] at hcond hret
    cases hmac : m.mac? with
    | some mac =>
      -- unbound and granted, or refused with the same binding
      have hfinal : (if (neighAdd (t.neigh f port) m.family m.addr (neighLocals m).dstMac).1 = true ∧
          EqBytes f.size a m.addr then some (macOf (neighLocals m).dstMac)
          else neighMac (t.neigh f port) a) = some mac := by
        simp only [hmac] at hcond
        rcases hcond with hnone | hbound
        · rw [if_pos ⟨hret.mpr ⟨h.ok _,hnone⟩,hab⟩,hmacs mac hmac]
        · have hrefused : ¬ (neighAdd (t.neigh f port) m.family m.addr (neighLocals m).dstMac).1 = true := by
            intro hc
            simp [(hret.mp hc).2] at hbound
          rw [if_neg fun hc => hrefused hc.1,hbound]
      rw [hfinal]
      exact Follows.announce ((habout a).mpr hab) hmac
    | none =>
      simp only [hmac] at hcond
      rw [if_neg fun hc => hcond (hret.mp hc.1).2]
      exact hold.refresh ((habout a).mpr hab) hmac
  · rw [if_neg fun hc => hab hc.2]
    apply hold.other
    simp [NlMsg.about,habout,hab]

theorem Tracks.delNeigh (h : Tracks t₀ f port past t) (hm : m.Valid f)
    (hport : findPort t m.ifindex = some port) :
    Tracks t₀ f port (past++[.delNeigh m]) (netlinkNeigh t false m) := by
  have hfam := familyOf_eq.mpr hm.family
  have hneigh := neigh_netlinkNeigh t false m f port
  simp only [hfam,hport,and_self,if_true,(neighLocals_eq hm).1,Bool.false_eq_true,if_false] at hneigh
  obtain ⟨hinv,hbind⟩ := h.inv.remove m.addr
  have habout : ∀ a, m.About t₀ f port a ↔ EqBytes f.size a m.addr := by
    intro a
    rw [← h.ports.about_iff]
    simp only [NdMsg.About,hfam,hport,true_and]
  refine ⟨h.ports.trans (samePorts_neigh t false m),hneigh ▸ hinv,?_,?_⟩
  · rw [hneigh,h.inv.remove_ok]
    exact h.ok
  intro a
  rw [hneigh,hbind a]
  by_cases hab : EqBytes f.size a m.addr
  · rw [if_pos hab]
    exact Follows.withdraw ((habout a).mpr hab)
  · rw [if_neg hab]
    apply (h.follows a).other
    simp [NlMsg.about,habout,hab]

theorem Tracks.other {t' : Thread} (h : Tracks t₀ f port past t) (hports : SamePorts t t')
    (hneigh : t'.neigh f port = t.neigh f port) (hno : ∀ a, msg.about t₀ f port a = false) :
    Tracks t₀ f port (past++[msg]) t' := by
  refine ⟨h.ports.trans hports,hneigh ▸ h.inv,hneigh ▸ h.ok,?_⟩
  intro a
  rw [hneigh]
  exact (h.follows a).other (hno a)

theorem Tracks.step (h : Tracks t₀ f port past t) (hv : msg.Valid) (hsame : NeighUnchanged t msg) :
    Tracks t₀ f port (past++[msg]) (netlinkMsg t msg) := by
  cases msg with
  | newRoute m =>
    exact h.other (samePorts_route t true m) (by rw [netlinkMsg,neigh_netlinkRoute]) fun _ => rfl
  | delRoute m =>
    exact h.other (samePorts_route t false m) (by rw [netlinkMsg,neigh_netlinkRoute]) fun _ => rfl
  | newNeigh m =>
    by_cases hc : familyOf m.family = some f ∧ findPort t m.ifindex = some port
    · exact h.newNeigh (hv f hc.1) hc.2 hsame
    · refine h.other (samePorts_neigh t true m) ?_ ?_
      · rw [netlinkMsg,neigh_netlinkNeigh,if_neg hc]
      · intro a
        simp only [NlMsg.about,decide_eq_false_iff_not,← h.ports.about_iff]
        exact fun ha => hc ⟨ha.1,ha.2.1⟩
  | delNeigh m =>
    by_cases hc : familyOf m.family = some f ∧ findPort t m.ifindex = some port
    · exact h.delNeigh (hv f hc.1) hc.2
    · refine h.other (samePorts_neigh t false m) ?_ ?_
      · rw [netlinkMsg,neigh_netlinkNeigh,if_neg hc]
      · intro a
        simp only [NlMsg.about,decide_eq_false_iff_not,← h.ports.about_iff]
        exact fun ha => hc ⟨ha.1,ha.2.1⟩
  | unknown => exact h.other ⟨rfl,rfl,rfl⟩ rfl fun _ => rfl

/-- The neighbour table of a port before any message, with memory for every request. -/
def EmptyNeigh (t : Thread) (f : Family) (port : ℕ) : Prop :=
  ∃ v, neighAlloc (Heap.init (fun _ => true) v) f.af = some (t.neigh f port)

theorem EmptyNeigh.tracks (h : EmptyNeigh t f port) : Tracks t f port [] t := by
  obtain ⟨v,hv⟩ := h
  obtain ⟨hinv,hnone,hok⟩ := neighAlloc_inv (addrSize_af f) hv
  refine ⟨⟨rfl,rfl,rfl⟩,hinv,fun j => by rw [hok]; rfl,?_⟩
  intro a
  rw [hnone a]
  exact ⟨by simp [latest],by simp [latest],by simp⟩

/-- Lookups follow the neighbour messages as long as none changes the binding of an address or
announces an unbound one without a link-layer address. -/
theorem neigh_sync (t : Thread) (msgs : List NlMsg) (f : Family) (port : ℕ) (hempty : EmptyNeigh t f port)
    (hvalid : ∀ msg ∈ msgs, msg.Valid) (hrun : Meets netlinkMsg NeighUnchanged t msgs) (a : Bytes) :
    Follows t f port msgs a (neighMac ((netlinkProcess t msgs).neigh f port) a) := by
  have h := hrun.history (I := fun past t' => Tracks t f port past t') [] hempty.tracks
    fun past t' msg hmsg hs hC => hs.step (hvalid msg hmsg) hC
  exact h.follows a

def neighbour (last : UInt8) : NdMsg := ⟨afInet,2,[.dst [10,0,0,9],.lladdr [2,0,0,0,0,last]]⟩

theorem neighbour_valid (last : UInt8) : NlMsg.Valid (.newNeigh (neighbour last)) := by
  intro f hf
  have h : familyOf afInet = some f := hf
  rw [show familyOf afInet = some .inet from rfl,Option.some_inj] at h
  subst h
  refine ⟨rfl,?_⟩
  simp [neighbour,NeighAttr.Sized,Family.size]

theorem neighbour_unchanged {t : Thread} {last : UInt8} (hport : findPort t 2 = some 0)
    (h : neighMac (t.neigh .inet 0) (neighbour last).addr = none ∨
      neighMac (t.neigh .inet 0) (neighbour last).addr = (neighbour last).mac?) :
    NeighUnchanged t (.newNeigh (neighbour last)) := by
  intro f port hf hp
  have hf' : familyOf afInet = some f := hf
  rw [show familyOf afInet = some .inet from rfl,Option.some_inj] at hf'
  have hp' : findPort t 2 = some port := hp
  rw [hport,Option.some_inj] at hp'
  subst hf' hp'
  exact h

/-- Over an empty table: the neighbour is announced twice, deleted and announced with another
link-layer address. -/
theorem neigh_sync_rebound :
    let msgs := [NlMsg.newNeigh (neighbour 1),.newNeigh (neighbour 1),.delNeigh (neighbour 1),
      .newNeigh (neighbour 2)]
    EmptyNeigh onePort .inet 0 ∧ (∀ msg ∈ msgs, msg.Valid) ∧ Meets netlinkMsg NeighUnchanged onePort msgs ∧
      neighMac ((netlinkProcess onePort msgs).neigh .inet 0) (zeroExtend [10,0,0,9]) =
        some (macOf (zeroExtend [2,0,0,0,0,2])) ∧
      ∀ a, Follows onePort .inet 0 msgs a (neighMac ((netlinkProcess onePort msgs).neigh .inet 0) a) := by
  intro msgs
  have hempty : EmptyNeigh onePort .inet 0 := ⟨_,rfl⟩
  have hvalid : ∀ msg ∈ msgs, msg.Valid := by
    simp only [msgs,List.forall_mem_cons]
    exact ⟨neighbour_valid 1,neighbour_valid 1,neighbour_valid 1,neighbour_valid 2,by simp⟩
  have hrun : Meets netlinkMsg NeighUnchanged onePort msgs :=
    ⟨neighbour_unchanged rfl (by decide),neighbour_unchanged rfl (by decide),trivial,
      neighbour_unchanged rfl (by decide),trivial⟩
  exact ⟨hempty,hvalid,hrun,by decide,neigh_sync onePort msgs .inet 0 hempty hvalid hrun⟩

/-- A new link-layer address is ignored, and an announcement without one binds the zero address. -/
theorem neighbour_change_ignored :
    neighMac ((netlinkProcess onePort [.newNeigh (neighbour 1),.newNeigh (neighbour 2)]).neigh .inet 0)
        (zeroExtend [10,0,0,9]) = some (macOf (zeroExtend [2,0,0,0,0,1])) ∧
      latest onePort .inet 0 (zeroExtend [10,0,0,9])
        [.newNeigh (neighbour 1),.newNeigh (neighbour 2)] = some (.newNeigh (neighbour 2)) ∧
      (neighbour 2).mac? = some (macOf (zeroExtend [2,0,0,0,0,2])) ∧
      neighMac ((netlinkProcess onePort [.newNeigh ⟨afInet,2,[.dst [10,0,0,9]]⟩]).neigh .inet 0)
        (zeroExtend [10,0,0,9]) = some (macOf (zeroExtend [])) := by
  refine ⟨?_,rfl,rfl,?_⟩
  · decide
  · decide

end Forwarder
end Ixmap
