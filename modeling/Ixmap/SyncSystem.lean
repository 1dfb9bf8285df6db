import Ixmap.SyncExclusion
import Ixmap.PortOps

/-! The ports of one device together: their drivers run any operations at once, and the firmware beside them.
As long as no time-out expires, a resource has one user at a time, and nothing is left taken in the end. -/
namespace Ixmap
namespace Hw
open RegProgram

variable {ι : Type} [DecidableEq ι]

abbrev SyncTrace (ι : Type) := List (Option (ι × Act Reg (BitVec 32) SyncEvent))

def ports (s : Shared) (ops : ι → List DriverOp) (hw : ι → IxmapHw) :
    World Reg (BitVec 32) SyncEvent (Bool × IxmapHw) Shared ι := ⟨s,fun i => driverOps (ops i) (hw i)⟩

/-- The resources a driver uses after a turn. -/
def usesAfter (i : ι) (x : Set ℕ) : Option (ι × Act Reg (BitVec 32) SyncEvent) → Set ℕ
  | some (j,.mark (.acquired mask)) => if j = i then x ∪ bitsOf mask else x
  | some (j,.mark (.releasing mask)) => if j = i then x \ bitsOf mask else x
  | _ => x

/-- The resources a driver uses after a trace: those it has acquired and not begun to release. -/
def uses (tr : SyncTrace ι) (i : ι) : Set ℕ := tr.foldl (usesAfter i) ∅

def NoExpiry (tr : SyncTrace ι) : Prop := ∀ i, some (i,.mark .expired) ∉ tr

/-- No driver has been at the semaphores yet, and the firmware's bits are its own. -/
structure Fresh (s : Shared) : Prop where
  smbi : s.swsm.getLsbD 0 = false
  swesmbi : s.swsm.getLsbD 1 = false
  fwSet : bitsOf s.fwHeld ⊆ bitsOf s.gssr
  fwBits : Disjoint (bitsOf s.fwHeld) swBits

def Own.idle : Own := ⟨.outside,∅,∅⟩

theorem settled_idle : Settled Own.idle := ⟨rfl,Set.Subset.rfl⟩

/-- Every bit of GSSR belongs to somebody or was there before; the semaphore bits are set for somebody. -/
structure Accounted (old : Set ℕ) (s : Shared) (G : ι → Own) : Prop where
  gssr : ∀ n ∈ bitsOf s.gssr, n ∈ old ∨ n ∈ bitsOf s.fwHeld ∨ ∃ i, n ∈ (G i).held
  smbi : s.swsm.getLsbD 0 = true → ∃ i, (G i).phase ≠ .outside
  swesmbi : s.swsm.getLsbD 1 = true → s.swsm.getLsbD 0 = true

section
variable {old : Set ℕ} {s s' : Shared} {G : ι → Own} {i : ι}

theorem Accounted.sameHeld {g : Own} (h : Accounted old s G) (hg : g.held = (G i).held) :
    ∀ n ∈ bitsOf s.gssr, n ∈ old ∨ n ∈ bitsOf s.fwHeld ∨ ∃ j, n ∈ (Function.update G i g j).held := by
  intro n hn
  refine (h.gssr n hn).imp_right (Or.imp_right ?_)
  rintro ⟨j,hj⟩
  refine ⟨j,?_⟩
  by_cases hji : j = i
  · subst hji
    rwa [Function.update_self,hg]
  · rwa [Function.update_of_ne hji]

theorem Accounted.readSwsm (h : Accounted old s G) (i : ι) : Accounted old { s with swsm := s.swsm ||| swsmSmbi }
    (Function.update G i { G i with phase := (G i).phase.afterSwsm s.swsm }) := by
  refine ⟨h.sameHeld rfl,fun _ => ?_,fun _ => by simp [swsmSmbi]⟩
  by_cases hout : (G i).phase = .outside ∧ s.swsm.getLsbD 0 = true
  · -- the bit is another driver's
    obtain ⟨j,hj⟩ := h.smbi hout.2
    have hji : j ≠ i := fun hji => hj (hji ▸ hout.1)
    exact ⟨j,by rwa [Function.update_of_ne hji]⟩
  refine ⟨i,?_⟩
  rw [Function.update_self]
  by_cases hp : (G i).phase = .outside
  · simp only [hp,Phase.afterSwsm]
    rw [if_neg fun hs => hout ⟨hp,hs⟩]
    exact Phase.noConfusion
  · exact afterSwsm_ne_outside _ hp

theorem Accounted.readGssr (h : Accounted old s G) (i : ι) :
    Accounted old s (Function.update G i { G i with phase := (G i).phase.afterGssr s.gssr }) := by
  refine ⟨h.sameHeld rfl,fun hs => ?_,h.swesmbi⟩
  obtain ⟨j,hj⟩ := h.smbi hs
  refine ⟨j,?_⟩
  by_cases hji : j = i
  · subst hji
    rw [Function.update_self]
    cases hp : (G j).phase with
    | outside => exact absurd hp hj
    | smbi => exact Phase.noConfusion
    | inside v => exact Phase.noConfusion
  · rwa [Function.update_of_ne hji]

theorem Accounted.writeSwsm {w : BitVec 32} (h : Accounted old s G) (hi : (G i).phase ≠ .outside)
    (hw : w.getLsbD 0 = w.getLsbD 1) :
    Accounted old { s with swsm := if s.fwSem then w &&& ~~~swsmSwesmbi else w }
      (Function.update G i { G i with phase := if w.getLsbD 0 then (G i).phase else .outside }) := by
  have hbit0 : (if s.fwSem then w &&& ~~~swsmSwesmbi else w).getLsbD 0 = w.getLsbD 0 := by
    split <;> simp [swsmSwesmbi]
  have hbit1 : (if s.fwSem then w &&& ~~~swsmSwesmbi else w).getLsbD 1 = (w.getLsbD 1 && !s.fwSem) := by
    cases s.fwSem <;> simp [swsmSwesmbi]
  refine ⟨h.sameHeld rfl,fun hs => ⟨i,?_⟩,fun hb => ?_⟩
  · rw [hbit0] at hs
    rw [Function.update_self]
    simpa only [hs,if_true] using hi
  · rw [hbit1,Bool.and_eq_true] at hb
    rw [hbit0,hw]
    exact hb.1

theorem Accounted.writeGssr {v w : BitVec 32} (h : Accounted old s G) (hv : (G i).phase = .inside (some v))
    (hs : s.gssr = v) : Accounted old { s with gssr := w } (Function.update G i ((G i).afterGssr w)) := by
  have hafter : (G i).afterGssr w = { G i with
      phase := .inside (some w)
      held := ((G i).held ∪ (bitsOf w \ bitsOf v)) \ (bitsOf v \ bitsOf w) } := by
    rw [Own.afterGssr]
    simp only [hv]
  refine ⟨fun n hn => ?_,fun _ => ⟨i,?_⟩,h.swesmbi⟩
  · have hkept : n ∈ (G i).held ∪ (bitsOf w \ bitsOf v) →
        ∃ j, n ∈ (Function.update G i ((G i).afterGssr w) j).held := by
      intro hmem
      refine ⟨i,?_⟩
      rw [Function.update_self,hafter]
      exact ⟨hmem,fun hc => hc.2 hn⟩
    by_cases hold : n ∈ bitsOf v
    · refine (h.gssr n (hs ▸ hold)).imp_right (Or.imp_right ?_)
      rintro ⟨j,hj⟩
      by_cases hji : j = i
      · exact hkept (Or.inl (hji ▸ hj))
      · exact ⟨j,by rwa [Function.update_of_ne hji]⟩
    · exact Or.inr (Or.inr (hkept (Or.inr ⟨hn,hold⟩)))
  · rw [Function.update_self,hafter]
    exact Phase.noConfusion

theorem Accounted.mark (h : Accounted old s G) (e : SyncEvent) :
    Accounted old s (Function.update G i (syncProtocol.next (G i) (.mark e))) := by
  have hsame : (syncProtocol.next (G i) (.mark e)).held = (G i).held ∧
      (syncProtocol.next (G i) (.mark e)).phase = (G i).phase := by
    cases e <;> exact ⟨rfl,rfl⟩
  refine ⟨h.sameHeld hsame.1,fun hs => ?_,h.swesmbi⟩
  obtain ⟨j,hj⟩ := h.smbi hs
  refine ⟨j,?_⟩
  by_cases hji : j = i
  · subst hji
    rwa [Function.update_self,hsame.2]
  · rwa [Function.update_of_ne hji]

omit [DecidableEq ι] in
theorem Accounted.firmware (h : Accounted old s G) (hfw : Firmware s s') : Accounted old s' G := by
  cases hfw with
  | enter => exact ⟨h.gssr,h.smbi,h.swesmbi⟩
  | leave => exact ⟨h.gssr,h.smbi,h.swesmbi⟩
  | take =>
    refine ⟨fun n hn => ?_,h.smbi,h.swesmbi⟩
    rw [bitsOf_or] at hn ⊢
    rcases hn with hn | hn
    · exact (h.gssr n hn).imp_right (Or.imp_left Or.inl)
    · exact Or.inr (Or.inl (Or.inr hn))
  | give =>
    refine ⟨fun n hn => ?_,h.smbi,h.swesmbi⟩
    rw [bitsOf_and_not] at hn ⊢
    exact (h.gssr n hn.1).imp_right (Or.imp_left fun hf => ⟨hf,hn.2⟩)

theorem Accounted.read (h : Accounted old s G) {r : Reg} {v : BitVec 32} (hr : s.reads r v s') :
    Accounted old s' (Function.update G i (syncProtocol.next (G i) (.read r v))) := by
  by_cases hs : r = swsmReg
  · subst hs
    simp only [Shared.reads,if_true] at hr
    obtain ⟨rfl,rfl⟩ := hr
    rw [next_readSwsm]
    exact h.readSwsm i
  by_cases hg : r = gssrReg
  · subst hg
    simp only [Shared.reads,gssrReg_ne_swsmReg,if_false,if_true] at hr
    obtain ⟨rfl,rfl⟩ := hr
    rw [next_readGssr]
    exact h.readGssr i
  · simp only [Shared.reads,hs,hg,if_false] at hr
    rw [hr,(next_other hs hg v).1,Function.update_eq_self]
    exact h

theorem Accounted.write (h : Accounted old s G) (hinv : SyncInv s G) {r : Reg} {w : BitVec 32}
    (hm : syncProtocol.may (G i) (.write r w)) (hw : s.writes r w s') :
    Accounted old s' (Function.update G i (syncProtocol.next (G i) (.write r w))) := by
  by_cases hs : r = swsmReg
  · subst hs
    simp only [Shared.writes,if_true] at hw
    subst hw
    rw [may_writeSwsm] at hm
    rw [next_writeSwsm]
    exact h.writeSwsm hm.1 hm.2
  by_cases hg : r = gssrReg
  · subst hg
    simp only [Shared.writes,gssrReg_ne_swsmReg,if_false,if_true] at hw
    subst hw
    rw [may_writeGssr] at hm
    obtain ⟨v,hv,-⟩ := hm
    rw [next_writeGssr]
    exact h.writeGssr hv (hinv.phase.seen i v hv)
  · simp only [Shared.writes,hs,hg,if_false] at hw
    rw [hw,(next_other hs hg w).2,Function.update_eq_self]
    exact h

end

/-- The invariant of the ports: exclusion, and nothing set for nobody. -/
def PortsInv (old : Set ℕ) (s : Shared) (G : ι → Own) : Prop := SyncInv s G ∧ Accounted old s G

theorem portsInv_sound (old : Set ℕ) : Sound syncBus syncProtocol (PortsInv (ι := ι) old) where
  read _ _ _ _ _ _ h hr := ⟨h.1.sees hr,h.1.read hr,h.2.read hr⟩
  write _ _ _ _ _ _ h hm hw := ⟨h.1.write hm hw,h.2.write h.1 hm hw⟩
  mark _ _ _ e h hm := ⟨h.1.mark hm,h.2.mark e⟩
  env _ _ _ h he := ⟨h.1.firmware he,h.2.firmware he⟩

section
variable {s : Shared} {ops : ι → List DriverOp} {hw : ι → IxmapHw} {tr : SyncTrace ι}
variable {w w' : World Reg (BitVec 32) SyncEvent (Bool × IxmapHw) Shared ι}

omit [DecidableEq ι] in
theorem Fresh.portsInv (h : Fresh s) : PortsInv (ι := ι) (bitsOf s.gssr) s fun _ => Own.idle := by
  refine ⟨⟨?_,?_⟩,fun n hn => Or.inl hn,fun hs => ?_,fun hs => ?_⟩
  · refine ⟨fun _ hne => absurd rfl hne,fun _ hne => absurd rfl hne,fun _ _ => Phase.noConfusion,
      fun _ _ => Phase.noConfusion,fun hs => ?_⟩
    rw [h.swesmbi] at hs
    exact Bool.noConfusion hs
  · exact ⟨fun _ => Set.empty_subset _,fun _ => Set.empty_subset _,fun _ => Set.Subset.rfl,
      fun _ _ _ => Set.disjoint_empty _,h.fwSet,h.fwBits,fun _ _ hn => hn.elim⟩
  · rw [h.smbi] at hs
    exact Bool.noConfusion hs
  · rw [h.swesmbi] at hs
    exact Bool.noConfusion hs

/-- Throughout a run the drivers keep the protocol. -/
theorem ports_conform (hs : Fresh s) (hrun : Run syncBus (ports s ops hw) tr w) (ht : NoExpiry tr) :
    Conforms syncProtocol (PortsInv (bitsOf s.gssr)) (fun _ _ g => g = Own.idle) w
      (ghost syncProtocol (fun _ => Own.idle) tr) := by
  refine Run.conforms (portsInv_sound _) ⟨hs.portsInv,fun i => ?_⟩ hrun ?_
  · exact keepsHw_driverOps settled_idle (ops i) (hw i)
  · rintro l hl i e rfl rfl
    exact ht i hl

omit [DecidableEq ι] in
theorem Own.afterGssr_claimed (g : Own) (w : BitVec 32) : (g.afterGssr w).claimed = g.claimed := by
  rw [Own.afterGssr]
  split <;> rfl

theorem advance_claimed (G : ι → Own) (l : Option (ι × Act Reg (BitVec 32) SyncEvent)) (i : ι) :
    (advance syncProtocol G l i).claimed = usesAfter i (G i).claimed l := by
  rcases l with _ | ⟨j,a⟩
  · rfl
  by_cases hj : i = j
  case neg =>
    have hji : ¬j = i := fun h => hj h.symm
    rw [advance,Function.update_of_ne hj]
    cases a with
    | read r v => rfl
    | write r v => rfl
    | mark e => cases e <;> simp [usesAfter,hji]
  subst hj
  rw [advance,Function.update_self]
  cases a with
  | read r v =>
    simp only [syncProtocol,Own.next,usesAfter]
    split_ifs <;> rfl
  | write r v =>
    simp only [syncProtocol,Own.next,usesAfter]
    split_ifs <;> first | rfl | exact Own.afterGssr_claimed _ _
  | mark e => cases e <;> simp [usesAfter,syncProtocol,Own.next]

theorem ghost_claimed (tr : SyncTrace ι) (i : ι) :
    (ghost syncProtocol (fun _ => Own.idle) tr i).claimed = uses tr i := by
  induction tr using List.reverseRecOn with
  | nil => rfl
  | append_singleton tr l ih =>
    rw [ghost,List.foldl_concat,uses,List.foldl_concat,advance_claimed]
    exact congrArg (usesAfter i · l) ih

theorem uses_sub_held (hs : Fresh s) (hrun : Run syncBus (ports s ops hw) tr w) (ht : NoExpiry tr) (i : ι) :
    uses tr i ⊆ (ghost syncProtocol (fun _ => Own.idle) tr i).held := by
  rw [← ghost_claimed]
  exact (ports_conform hs hrun ht).shared.1.held.claimed i

end

/-- A device whose EEPROM is granted at once and holds zeros, with a backplane. -/
def quietPort : Device Reg (BitVec 32) Shared where
  read s r :=
    if r = swsmReg then (s.swsm,{ s with swsm := s.swsm ||| swsmSmbi })
    else if r = gssrReg then (s.gssr,s)
    else if r = autocReg then (lmsKx4KxKr ||| autocKrSupp ||| autocKxSupp,s)
    else if r = eecReg then (eecPres ||| eecGnt,s)
    else (0#32,s)
  write s r v :=
    if r = swsmReg then { s with swsm := if s.fwSem then v &&& ~~~swsmSwesmbi else v }
    else if r = gssrReg then { s with gssr := v }
    else s

theorem quietPort_serves : quietPort.Serves syncBus where
  read s r := by
    simp only [quietPort,syncBus,Shared.reads]
    split_ifs <;> simp
  write s r v := by
    simp only [quietPort,syncBus,Shared.writes]
    split_ifs <;> rfl

def freshShared : Shared := ⟨0#32,0#32,false,0#32⟩

theorem fresh_freshShared : Fresh freshShared := by
  refine ⟨rfl,rfl,?_,?_⟩
  · exact fun n hn => hn
  · rw [Set.disjoint_left]
    intro n hn
    simp [freshShared,mem_bitsOf] at hn

def upOps (i : Fin 2) : List DriverOp := if i = 0 then [.up []] else []

def upAccesses (n : ℕ) := accesses quietPort n (driverOps [.up []] kzallocHw) freshShared

def upTrace (n : ℕ) : SyncTrace (Fin 2) := (upAccesses n).2.2.map fun a => some (0,a)

def upWorld (n : ℕ) : World Reg (BitVec 32) SyncEvent (Bool × IxmapHw) Shared (Fin 2) :=
  ⟨(upAccesses n).2.1,Function.update (ports freshShared upOps fun _ => kzallocHw).prog 0 (upAccesses n).1⟩

theorem upRun (n : ℕ) : Run syncBus (ports freshShared upOps fun _ => kzallocHw) (upTrace n) (upWorld n) :=
  Run.alone quietPort_serves (i := (0 : Fin 2)) Run.nil n

theorem upTrace_noExpiry {n : ℕ} (h : ∀ a ∈ (upAccesses n).2.2, a ≠ .mark .expired) : NoExpiry (upTrace n) := by
  intro i hi
  obtain ⟨a,ha,heq⟩ := List.mem_map.mp hi
  exact h a ha (Prod.ext_iff.mp (Option.some_inj.mp heq)).2

/-- The register that a program is about to write. -/
def nextWrite {α : Type} : RegProg α → Option (Reg × BitVec 32)
  | .write r v _ => some (r,v)
  | _ => none

theorem exists_of_nextWrite {α : Type} {p : RegProg α} {r : Reg} {v : BitVec 32} (h : nextWrite p = some (r,v)) :
    ∃ k, p = .write r v k := by
  cases p with
  | write r' v' k =>
    obtain ⟨rfl,rfl⟩ := Prod.ext_iff.mp (Option.some_inj.mp h)
    exact ⟨k,rfl⟩
  | ret a => exact absurd h.symm (Option.some_ne_none _)
  | read r' k => exact absurd h.symm (Option.some_ne_none _)
  | mark e k => exact absurd h.symm (Option.some_ne_none _)

def ended {α : Type} : RegProg α → Bool
  | .ret _ => true
  | _ => false

theorem exists_of_ended {α : Type} {p : RegProg α} (h : ended p = true) : ∃ r, p = .ret r := by
  cases p with
  | ret a => exact ⟨a,rfl⟩
  | read r k => exact Bool.noConfusion h
  | write r v k => exact Bool.noConfusion h
  | mark e k => exact Bool.noConfusion h

section
variable {s : Shared} {ops : ι → List DriverOp} {hw : ι → IxmapHw} {tr : SyncTrace ι}
variable {w w' : World Reg (BitVec 32) SyncEvent (Bool × IxmapHw) Shared ι}

/-- No two drivers use a resource at once, and none that the firmware has taken. -/
theorem ports_exclusive (hs : Fresh s) (hrun : Run syncBus (ports s ops hw) tr w) (ht : NoExpiry tr) :
    (∀ i j, i ≠ j → Disjoint (uses tr i) (uses tr j)) ∧
      ∀ i, ∀ n ∈ uses tr i, n ∈ bitsOf w.shared.gssr ∧ n+5 ∉ bitsOf w.shared.fwHeld := by
  have hheld := (ports_conform hs hrun ht).shared.1.held
  have hsub := uses_sub_held hs hrun ht
  refine ⟨fun i j hij => (hheld.apart i j hij).mono (hsub i) (hsub j),fun i n hn => ?_⟩
  exact ⟨hheld.set i (hsub i hn),hheld.conflict i n (hsub i hn)⟩

/-- After 20 accesses the first port uses the EEPROM. -/
theorem ports_exclusive_up : uses (upTrace 20) 0 = ∅ ∪ bitsOf gssrEepSm ∧
    Disjoint (uses (upTrace 20) 0) (uses (upTrace 20) 1) :=
  ⟨rfl,(ports_exclusive fresh_freshShared (upRun 20) (upTrace_noExpiry (by decide +kernel))).1 0 1 (by decide)⟩

/-- A driver that writes to EEC, to CORECTL or to the host interface is the only one to use the resource. -/
theorem guarded_write_alone (hs : Fresh s) (hrun : Run syncBus (ports s ops hw) tr w) (ht : NoExpiry tr) {i : ι}
    {r : Reg} {v : BitVec 32} {n : ℕ} (hstep : Step syncBus w (some (i,.write r v)) w') (hn : guardOf r = some n) :
    n ∈ uses tr i ∧ (∀ j, j ≠ i → n ∉ uses tr j) ∧ n+5 ∉ bitsOf w.shared.fwHeld := by
  have hconf := ports_conform hs hrun ht
  have hmay : syncProtocol.may (ghost syncProtocol (fun _ => Own.idle) tr i) (.write r v) := by
    rcases hconf.permitted hstep (fun j e he => by simp at he) with ⟨r',v',hread⟩ | hmay
    · cases hread
    · exact hmay
  have hne : r ≠ swsmReg ∧ r ≠ gssrReg := by
    constructor
    · rintro rfl
      exact Option.some_ne_none n hn.symm
    · rintro rfl
      exact Option.some_ne_none n hn.symm
  have huse : n ∈ uses tr i := by
    rw [← ghost_claimed]
    simp only [syncProtocol,Own.may,hne.1,hne.2,if_false] at hmay
    exact hmay n hn
  have hheld := hconf.shared.1.held
  have hsub := uses_sub_held hs hrun ht
  refine ⟨huse,fun j hj hnj => ?_,hheld.conflict i n (hsub i huse)⟩
  exact Set.disjoint_left.mp (hheld.apart j i hj) (hsub j hnj) (hsub i huse)

/-- The port that is brought up asks for the EEPROM through EEC. -/
theorem guarded_write_alone_up : 0 ∈ uses (upTrace 21) 0 ∧ 0 ∉ uses (upTrace 21) 1 := by
  obtain ⟨k,hk⟩ := exists_of_nextWrite (show nextWrite (upAccesses 21).1 = some (eecReg,0x1c0#32) by decide +kernel)
  have hturn : Advances syncBus (upWorld 21).shared ((upWorld 21).prog 0) (.write eecReg 0x1c0#32)
      (upWorld 21).shared k := by
    change Advances syncBus _ (upAccesses 21).1 _ _ _
    rw [hk]
    exact Advances.write rfl
  have h := guarded_write_alone (n := 0) fresh_freshShared (upRun 21) (upTrace_noExpiry (by decide +kernel))
    (Step.party hturn) rfl
  exact ⟨h.1,h.2.1 1 (by decide)⟩

/-- When all drivers have come to an end, on whatever path, GSSR has no bit that they have set and both
semaphore bits of SWSM are clear. -/
theorem ports_release (hs : Fresh s) (hrun : Run syncBus (ports s ops hw) tr w) (ht : NoExpiry tr)
    (hend : ∀ i, ∃ r, w.prog i = .ret r) :
    bitsOf w.shared.gssr ⊆ bitsOf s.gssr ∪ bitsOf w.shared.fwHeld ∧
      w.shared.swsm.getLsbD 0 = false ∧ w.shared.swsm.getLsbD 1 = false := by
  have hconf := ports_conform hs hrun ht
  have hidle : ∀ i, ghost syncProtocol (fun _ => Own.idle) tr i = Own.idle := by
    intro i
    obtain ⟨r,hr⟩ := hend i
    have hi := hconf.prog i
    rwa [hr] at hi
  have hbooks := hconf.shared.2
  have hsmbi : w.shared.swsm.getLsbD 0 = false := by
    rw [← Bool.not_eq_true]
    intro hset
    obtain ⟨i,hi⟩ := hbooks.smbi hset
    rw [hidle i] at hi
    exact hi rfl
  refine ⟨fun n hn => ?_,hsmbi,?_⟩
  · rcases hbooks.gssr n hn with ho | hf | ⟨i,hi⟩
    · exact Or.inl ho
    · exact Or.inr hf
    · rw [hidle i] at hi
      exact hi.elim
  · rw [← Bool.not_eq_true]
    intro hset
    rw [hbooks.swesmbi hset] at hsmbi
    exact Bool.noConfusion hsmbi

/-- The port that is brought up ends after 340 accesses. -/
theorem ports_release_up : (upWorld 340).shared.swsm.getLsbD 0 = false := by
  refine (ports_release fresh_freshShared (upRun 340) (upTrace_noExpiry (by decide +kernel)) fun i => ?_).2.1
  have hall : ∀ i, ended ((upWorld 340).prog i) = true := by decide +kernel
  exact exists_of_ended (hall i)

end

section
variable {τ : Type} {m : Device Reg (BitVec 32) τ} {d : Nvm τ} {mask : BitVec 16}

/-- The bits that are cleared when a resource stays busy. -/
def expiredMask (gssr : BitVec 32) (mask : BitVec 16) : BitVec 16 := (gssr &&& busyMask mask).setWidth 16

/-- Each attempt finds the resource busy and leaves the device as it was; then the bits are cleared. -/
theorem run_acquireLoop_busy (h : d.SemFree) (hbusy : d.gssr &&& busyMask mask ≠ 0#32) (n : ℕ) :
    run (nvm m) (acquireLoop mask n d.gssr) d =
      (errSwfwSync,{ d with gssr := d.gssr &&& ~~~(expiredMask d.gssr mask).setWidth 32 }) := by
  induction n with
  | zero =>
    rw [acquireLoop,if_pos hbusy]
    simp only [run_bind,run_point,run_pure]
    rw [← expiredMask,Nvm.run_releaseSync _ h]
  | succ n ih =>
    rw [acquireLoop]
    simp only [run_bind,Nvm.run_getSemaphore h]
    rw [if_neg (not_not.mpr rfl)]
    simp only [run_bind,run_readReg,Nvm.read_gssr,hbusy,if_false,Nvm.run_releaseSemaphore,Nvm.swsm_restored h]
    exact ih

theorem bitsOf_expiredMask (gssr : BitVec 32) (hmask : bitsOf mask ⊆ swBits) :
    bitsOf (expiredMask gssr mask) = bitsOf gssr ∩ bitsOf (busyMask mask) := by
  ext n
  rw [expiredMask,mem_bitsOf,BitVec.getLsbD_setWidth,BitVec.getLsbD_and]
  simp only [Bool.and_eq_true,decide_eq_true_eq,Set.mem_inter_iff,mem_bitsOf,and_iff_right_iff_imp]
  rintro ⟨-,hn⟩
  rw [← mem_bitsOf,bitsOf_busyMask] at hn
  rcases hn with ⟨h5,hn⟩ | hn
  · have hsw : n-5 < 5 ∨ n-5 = 10 := hmask hn
    omega
  · have hsw : n < 5 ∨ n = 10 := hmask hn
    omega

end

end Hw
end Ixmap
