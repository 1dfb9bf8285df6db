import Ixmap.SwfwSync

/-! What the shared registers say about the drivers and the firmware, whatever the order of their accesses:
one driver at most is behind `SMBI`, none is inside together with the firmware, and the bits of GSSR that the
parties have set are kept apart. -/
namespace Ixmap
namespace Hw
open RegProgram

variable {ι : Type}

/-- SWSM against the places of the drivers. -/
structure PhaseInv (s : Shared) (ph : ι → Phase) : Prop where
  smbi : ∀ i, ph i ≠ .outside → s.swsm.getLsbD 0 = true
  single : ∀ i, ph i ≠ .outside → ∀ j, j ≠ i → ph j = .outside
  inside : ∀ i v, ph i = .inside v → s.swsm.getLsbD 1 = true
  seen : ∀ i v, ph i = .inside (some v) → s.gssr = v
  fw : s.swsm.getLsbD 1 = true → s.fwSem = false

/-- GSSR against what the drivers and the firmware own. -/
structure HeldInv (gssr fwHeld : BitVec 32) (held claimed : ι → Set ℕ) : Prop where
  set : ∀ i, held i ⊆ bitsOf gssr
  sw : ∀ i, held i ⊆ swBits
  claimed : ∀ i, claimed i ⊆ held i
  apart : ∀ i j, i ≠ j → Disjoint (held i) (held j)
  fwSet : bitsOf fwHeld ⊆ bitsOf gssr
  fwBits : Disjoint (bitsOf fwHeld) swBits
  conflict : ∀ i, ∀ n ∈ held i, n+5 ∉ bitsOf fwHeld

structure SyncInv (s : Shared) (G : ι → Own) : Prop where
  phase : PhaseInv s fun i => (G i).phase
  held : HeldInv s.gssr s.fwHeld (fun i => (G i).held) fun i => (G i).claimed

section Phases
variable {s s' : Shared} {ph : ι → Phase} {i : ι} {v w : BitVec 32} [DecidableEq ι]

theorem PhaseInv.of_alone {x : Phase} (halone : ∀ j, j ≠ i → ph j = .outside)
    (hsmbi : x ≠ .outside → s.swsm.getLsbD 0 = true) (hinside : ∀ v, x = .inside v → s.swsm.getLsbD 1 = true)
    (hseen : ∀ v, x = .inside (some v) → s.gssr = v) (hfw : s.swsm.getLsbD 1 = true → s.fwSem = false) :
    PhaseInv s (Function.update ph i x) := by
  constructor
  · rw [Function.forall_update_iff ph (p := fun _ y => y ≠ .outside → s.swsm.getLsbD 0 = true)]
    exact ⟨hsmbi,fun j hj h => absurd (halone j hj) h⟩
  · intro j hj k hk
    by_cases hji : j = i
    · rw [Function.update_of_ne (hji ▸ hk)]
      exact halone k (hji ▸ hk)
    · rw [Function.update_of_ne hji] at hj
      exact absurd (halone j hji) hj
  · rw [Function.forall_update_iff ph (p := fun _ y => ∀ v, y = .inside v → s.swsm.getLsbD 1 = true)]
    exact ⟨hinside,fun j hj v h => Phase.noConfusion ((halone j hj).symm.trans h)⟩
  · rw [Function.forall_update_iff ph (p := fun _ y => ∀ v, y = .inside (some v) → s.gssr = v)]
    exact ⟨hseen,fun j hj v h => Phase.noConfusion ((halone j hj).symm.trans h)⟩
  · exact hfw

/-- A driver that reads SWSM takes `SMBI` only when nobody has it. -/
theorem PhaseInv.readSwsm (h : PhaseInv s ph) (i : ι) : PhaseInv { s with swsm := s.swsm ||| swsmSmbi }
    (Function.update ph i ((ph i).afterSwsm s.swsm)) := by
  have hbit0 : (s.swsm ||| swsmSmbi).getLsbD 0 = true := by simp [swsmSmbi]
  have hbit1 : (s.swsm ||| swsmSmbi).getLsbD 1 = s.swsm.getLsbD 1 := by simp [swsmSmbi]
  by_cases hbusy : ph i = .outside ∧ s.swsm.getLsbD 0 = true
  · have hsame : (ph i).afterSwsm s.swsm = ph i := by
      rw [hbusy.1,Phase.afterSwsm,if_pos hbusy.2]
    rw [hsame,Function.update_eq_self]
    refine ⟨fun _ _ => hbit0,h.single,?_,h.seen,?_⟩
    · rw [hbit1]
      exact h.inside
    · rw [hbit1]
      exact h.fw
  have halone : ∀ j, j ≠ i → ph j = .outside := by
    intro j hj
    by_contra hne
    apply hbusy
    exact ⟨h.single j hne i hj.symm,h.smbi j hne⟩
  refine PhaseInv.of_alone halone (fun _ => hbit0) ?_ ?_ ?_
  · intro x hx
    rw [hbit1]
    cases hp : ph i with
    | outside =>
      rw [hp,Phase.afterSwsm] at hx
      split at hx <;> exact Phase.noConfusion hx
    | smbi =>
      rw [hp,Phase.afterSwsm] at hx
      split at hx
      · assumption
      · exact Phase.noConfusion hx
    | inside y => exact h.inside i y hp
  · intro x hx
    cases hp : ph i with
    | outside =>
      rw [hp,Phase.afterSwsm] at hx
      split at hx <;> exact Phase.noConfusion hx
    | smbi =>
      rw [hp,Phase.afterSwsm] at hx
      split at hx <;> simp at hx
    | inside y =>
      rw [hp,Phase.afterSwsm] at hx
      exact h.seen i x (hp.trans hx)
  · rw [hbit1]
    exact h.fw

theorem PhaseInv.readGssr (h : PhaseInv s ph) (i : ι) :
    PhaseInv s (Function.update ph i ((ph i).afterGssr s.gssr)) := by
  cases hp : ph i with
  | outside =>
    rw [Phase.afterGssr,← hp,Function.update_eq_self]
    · exact h
    · exact fun v => Phase.noConfusion
  | smbi =>
    rw [Phase.afterGssr,← hp,Function.update_eq_self]
    · exact h
    · exact fun v => Phase.noConfusion
  | inside x =>
    have hne : ph i ≠ .outside := by
      rw [hp]
      exact Phase.noConfusion
    refine PhaseInv.of_alone (h.single i hne) (fun _ => h.smbi i hne) (fun _ _ => h.inside i x hp) ?_ h.fw
    intro v hv
    rw [Phase.afterGssr,Phase.inside.injEq,Option.some_inj] at hv
    exact hv

/-- The driver behind `SMBI` keeps both bits or clears both. -/
theorem PhaseInv.writeSwsm (h : PhaseInv s ph) (hi : ph i ≠ .outside) (hw : w.getLsbD 0 = w.getLsbD 1) :
    PhaseInv { s with swsm := if s.fwSem then w &&& ~~~swsmSwesmbi else w }
      (Function.update ph i (if w.getLsbD 0 then ph i else .outside)) := by
  have hbit0 : (if s.fwSem then w &&& ~~~swsmSwesmbi else w).getLsbD 0 = w.getLsbD 0 := by
    split <;> simp [swsmSwesmbi]
  have hbit1 : (if s.fwSem then w &&& ~~~swsmSwesmbi else w).getLsbD 1 = (w.getLsbD 1 && !s.fwSem) := by
    cases s.fwSem <;> simp [swsmSwesmbi]
  have hset : ∀ v, (if w.getLsbD 0 then ph i else .outside) = .inside v →
      w.getLsbD 0 = true ∧ ph i = .inside v := by
    intro v hv
    split at hv
    · exact ⟨‹_›,hv⟩
    · exact Phase.noConfusion hv
  refine PhaseInv.of_alone (h.single i hi) ?_ ?_ ?_ ?_
  · intro hne
    rw [hbit0]
    by_contra hclear
    exact hne (if_neg hclear)
  · intro x hx
    obtain ⟨hw0,hp⟩ := hset x hx
    rw [hbit1,← hw,hw0,h.fw (h.inside i x hp)]
    rfl
  · intro x hx
    exact h.seen i x (hset _ hx).2
  · intro hb
    rw [hbit1,Bool.and_eq_true,Bool.not_eq_true'] at hb
    exact hb.2

theorem PhaseInv.writeGssr (h : PhaseInv s ph) (hi : ph i = .inside (some v)) :
    PhaseInv { s with gssr := w } (Function.update ph i (.inside (some w))) := by
  have hne : ph i ≠ .outside := by
    rw [hi]
    exact Phase.noConfusion
  refine PhaseInv.of_alone (h.single i hne) (fun _ => h.smbi i hne) (fun _ _ => h.inside i _ hi) ?_ h.fw
  intro x hx
  exact Option.some_inj.mp (Phase.inside.inj hx)

omit [DecidableEq ι] in
theorem PhaseInv.not_inside (h : PhaseInv s ph) (hfw : s.fwSem = true) (i : ι) (x : Option (BitVec 32)) :
    ph i ≠ .inside x := by
  intro hi
  rw [h.fw (h.inside i x hi)] at hfw
  exact Bool.noConfusion hfw

end Phases

section Held
variable {held claimed : ι → Set ℕ} {gssr fwHeld w : BitVec 32} {i : ι} [DecidableEq ι]

theorem HeldInv.write (h : HeldInv gssr fwHeld held claimed) (hnew : bitsOf w \ bitsOf gssr ⊆ swBits)
    (hfree : ∀ n ∈ bitsOf w \ bitsOf gssr, gssr.getLsbD (n+5) = false)
    (hown : bitsOf gssr \ bitsOf w ⊆ held i) (hclaim : Disjoint (bitsOf gssr \ bitsOf w) (claimed i)) :
    HeldInv w fwHeld
      (Function.update held i ((held i ∪ (bitsOf w \ bitsOf gssr)) \ (bitsOf gssr \ bitsOf w))) claimed := by
  -- a bit of another party that was set stays set
  have hkeep : ∀ n ∈ bitsOf gssr, n ∉ held i → n ∈ bitsOf w := by
    intro n hn hni
    by_contra hw
    exact hni (hown ⟨hn,hw⟩)
  constructor
  · rw [Function.forall_update_iff held (p := fun _ x => x ⊆ bitsOf w)]
    refine ⟨?_,?_⟩
    · rintro n ⟨hn | hn,hc⟩
      · by_contra hw
        exact hc ⟨h.set i hn,hw⟩
      · exact hn.1
    · intro j hj n hn
      exact hkeep n (h.set j hn) fun hni => Set.disjoint_left.mp (h.apart j i hj) hn hni
  · rw [Function.forall_update_iff held (p := fun _ x => x ⊆ swBits)]
    refine ⟨?_,fun j _ => h.sw j⟩
    rintro n ⟨hn | hn,-⟩
    · exact h.sw i hn
    · exact hnew hn
  · rw [Function.forall_update_iff held (p := fun j x => claimed j ⊆ x)]
    refine ⟨?_,fun j _ => h.claimed j⟩
    intro n hn
    exact ⟨Or.inl (h.claimed i hn),fun hc => Set.disjoint_left.mp hclaim hc hn⟩
  · have hother : ∀ j, j ≠ i →
        Disjoint ((held i ∪ (bitsOf w \ bitsOf gssr)) \ (bitsOf gssr \ bitsOf w)) (held j) := by
      intro j hj
      rw [Set.disjoint_left]
      rintro n ⟨hn | hn,-⟩ hnj
      · exact Set.disjoint_left.mp (h.apart j i hj) hnj hn
      · exact hn.2 (h.set j hnj)
    intro j k hjk
    by_cases hj : j = i <;> by_cases hk : k = i
    · exact absurd (hj.trans hk.symm) hjk
    · subst hj
      rw [Function.update_self,Function.update_of_ne hk]
      exact hother k hk
    · subst hk
      rw [Function.update_self,Function.update_of_ne hj]
      exact (hother j hj).symm
    · rw [Function.update_of_ne hj,Function.update_of_ne hk]
      exact h.apart j k hjk
  · intro n hn
    exact hkeep n (h.fwSet hn) fun hni => Set.disjoint_left.mp h.fwBits hn (h.sw i hni)
  · exact h.fwBits
  · rw [Function.forall_update_iff held (p := fun _ x => ∀ n ∈ x, n+5 ∉ bitsOf fwHeld)]
    refine ⟨?_,fun j _ => h.conflict j⟩
    rintro n ⟨hn | hn,-⟩ hfw
    · exact h.conflict i n hn hfw
    · have hset := h.fwSet hfw
      rw [mem_bitsOf,hfree n hn] at hset
      exact Bool.noConfusion hset

/-- The places of the software's bits are those of the mask `0x041f`. -/
theorem mem_swBits {mask : BitVec 16} (h : mask &&& 0xfbe0#16 = 0#16) : bitsOf mask ⊆ swBits := by
  intro n hn
  have hlt := BitVec.lt_of_getLsbD hn
  have hd := Set.disjoint_left.mp (disjoint_of_and_eq_zero h) hn
  have hall : ∀ k < 16, (0xfbe0#16).getLsbD k = false → k < 5 ∨ k = 10 := by decide
  exact hall n hlt (by simpa [mem_bitsOf] using hd)

omit [DecidableEq ι] in
theorem HeldInv.take (h : HeldInv gssr fwHeld held claimed) {mask : BitVec 16}
    (hfree : gssr &&& busyMask mask = 0#32) (hsw : mask &&& 0xfbe0#16 = 0#16) :
    HeldInv (gssr ||| mask.setWidth 32 <<< 5) (fwHeld ||| mask.setWidth 32 <<< 5) held claimed := by
  have hshift : ∀ n, n ∈ bitsOf (mask.setWidth 32 <<< 5) → 5 ≤ n ∧ n-5 ∈ bitsOf mask := by
    intro n hn
    simp only [mem_bitsOf,BitVec.getLsbD_shiftLeft,BitVec.getLsbD_setWidth,Bool.and_eq_true,decide_eq_true_eq,
      Bool.not_eq_true',decide_eq_false_iff_not] at hn
    exact ⟨by omega,hn.2.2⟩
  constructor
  · intro j
    rw [bitsOf_or]
    exact (h.set j).trans Set.subset_union_left
  · exact h.sw
  · exact h.claimed
  · exact h.apart
  · rw [bitsOf_or,bitsOf_or]
    exact Set.union_subset_union_left _ h.fwSet
  · rw [bitsOf_or,Set.disjoint_union_left]
    refine ⟨h.fwBits,Set.disjoint_left.mpr ?_⟩
    intro n hn hn'
    obtain ⟨hle,hm⟩ := hshift n hn
    have hm' : n-5 < 5 ∨ n-5 = 10 := mem_swBits hsw hm
    have hn'' : n < 5 ∨ n = 10 := hn'
    omega
  · intro j n hn hfw
    rw [bitsOf_or] at hfw
    rcases hfw with hfw | hfw
    · exact h.conflict j n hn hfw
    · obtain ⟨-,hm⟩ := hshift (n+5) hfw
      rw [Nat.add_sub_cancel] at hm
      have hset := h.set j hn
      rw [mem_bitsOf,(free_bits hfree hm).1] at hset
      exact Bool.noConfusion hset

omit [DecidableEq ι] in
theorem HeldInv.give (h : HeldInv gssr fwHeld held claimed) {bits : BitVec 32}
    (hown : bits &&& ~~~fwHeld = 0#32) :
    HeldInv (gssr &&& ~~~bits) (fwHeld &&& ~~~bits) held claimed := by
  have hsub : bitsOf bits ⊆ bitsOf fwHeld := by
    have hempty : bitsOf bits \ bitsOf fwHeld = ∅ := by
      rw [← bitsOf_and_not,hown]
      ext n
      simp [mem_bitsOf]
    exact Set.sdiff_eq_empty.mp hempty
  constructor
  · intro j n hn
    rw [bitsOf_and_not]
    exact ⟨h.set j hn,fun hb => Set.disjoint_left.mp h.fwBits (hsub hb) (h.sw j hn)⟩
  · exact h.sw
  · exact h.claimed
  · exact h.apart
  · rw [bitsOf_and_not,bitsOf_and_not]
    exact Set.sdiff_subset_sdiff_left h.fwSet
  · rw [bitsOf_and_not]
    exact h.fwBits.mono_left Set.sdiff_subset
  · intro j n hn hfw
    rw [bitsOf_and_not] at hfw
    exact h.conflict j n hn hfw.1

theorem HeldInv.claim (h : HeldInv gssr fwHeld held claimed) {x : Set ℕ} (hx : x ⊆ held i) :
    HeldInv gssr fwHeld held (Function.update claimed i x) := by
  refine ⟨h.set,h.sw,?_,h.apart,h.fwSet,h.fwBits,h.conflict⟩
  rw [Function.forall_update_iff claimed (p := fun j y => y ⊆ held j)]
  exact ⟨hx,fun j _ => h.claimed j⟩

end Held

section
variable {s s' : Shared} {G : ι → Own} {i : ι} [DecidableEq ι]

theorem update_field {α : Type} (f : Own → α) (G : ι → Own) (i : ι) (g : Own) :
    (fun j => f (Function.update G i g j)) = Function.update (fun j => f (G j)) i (f g) := by
  funext j
  by_cases hj : j = i
  · subst hj
    simp
  · simp [hj]

theorem SyncInv.update {g : Own} (hp : PhaseInv s (Function.update (fun j => (G j).phase) i g.phase))
    (hh : HeldInv s.gssr s.fwHeld (Function.update (fun j => (G j).held) i g.held)
      (Function.update (fun j => (G j).claimed) i g.claimed)) : SyncInv s (Function.update G i g) := by
  constructor
  · rw [update_field Own.phase]
    exact hp
  · rw [update_field Own.held,update_field Own.claimed]
    exact hh

omit [DecidableEq ι] in
theorem SyncInv.sees (h : SyncInv s G) {r : Reg} {v : BitVec 32} (hr : s.reads r v s') :
    syncProtocol.sees (G i) r v := by
  constructor
  · rintro rfl
    simp only [Shared.reads,if_true] at hr
    rw [hr.1]
    exact ⟨h.phase.smbi i,h.phase.inside i⟩
  · rintro rfl x hx
    simp only [Shared.reads,gssrReg_ne_swsmReg,if_false,if_true] at hr
    rw [hr.1]
    exact h.held.set i

theorem SyncInv.read (h : SyncInv s G) {r : Reg} {v : BitVec 32} (hr : s.reads r v s') :
    SyncInv s' (Function.update G i (syncProtocol.next (G i) (.read r v))) := by
  by_cases hs : r = swsmReg
  · subst hs
    simp only [Shared.reads,if_true] at hr
    obtain ⟨rfl,rfl⟩ := hr
    rw [next_readSwsm]
    refine SyncInv.update (h.phase.readSwsm i) ?_
    simpa using h.held
  by_cases hg : r = gssrReg
  · subst hg
    simp only [Shared.reads,gssrReg_ne_swsmReg,if_false,if_true] at hr
    obtain ⟨rfl,rfl⟩ := hr
    rw [next_readGssr]
    refine SyncInv.update (h.phase.readGssr i) ?_
    simpa using h.held
  · simp only [Shared.reads,hs,hg,if_false] at hr
    rw [hr,(next_other hs hg v).1,Function.update_eq_self]
    exact h

theorem SyncInv.write (h : SyncInv s G) {r : Reg} {w : BitVec 32} (hm : syncProtocol.may (G i) (.write r w))
    (hw : s.writes r w s') : SyncInv s' (Function.update G i (syncProtocol.next (G i) (.write r w))) := by
  by_cases hs : r = swsmReg
  · subst hs
    simp only [Shared.writes,if_true] at hw
    subst hw
    rw [may_writeSwsm] at hm
    rw [next_writeSwsm]
    refine SyncInv.update (h.phase.writeSwsm hm.1 hm.2) ?_
    simpa using h.held
  by_cases hg : r = gssrReg
  · subst hg
    simp only [Shared.writes,gssrReg_ne_swsmReg,if_false,if_true] at hw
    subst hw
    rw [may_writeGssr] at hm
    obtain ⟨v,hv,hnew,hfree,hown,hclaim⟩ := hm
    have hseen : s.gssr = v := h.phase.seen i v hv
    subst hseen
    rw [next_writeGssr,Own.afterGssr]
    simp only [hv]
    refine SyncInv.update (h.phase.writeGssr hv) ?_
    simp only [Function.update_eq_self]
    exact h.held.write hnew hfree hown hclaim
  · simp only [Shared.writes,hs,hg,if_false] at hw
    rw [hw,(next_other hs hg w).2,Function.update_eq_self]
    exact h

theorem SyncInv.mark (h : SyncInv s G) {e : SyncEvent} (hm : syncProtocol.may (G i) (.mark e)) :
    SyncInv s (Function.update G i (syncProtocol.next (G i) (.mark e))) := by
  have hphase : PhaseInv s (Function.update (fun j => (G j).phase) i (G i).phase) := by
    simpa using h.phase
  cases e with
  | acquired mask =>
    refine SyncInv.update hphase ?_
    simpa [syncProtocol,Own.next] using h.held.claim (i := i) (Set.union_subset (h.held.claimed i) hm)
  | releasing mask =>
    refine SyncInv.update hphase ?_
    have hsub : (G i).claimed \ bitsOf mask ⊆ (G i).held := Set.sdiff_subset.trans (h.held.claimed i)
    simpa [syncProtocol,Own.next] using h.held.claim (i := i) hsub
  | expired =>
    change SyncInv s (Function.update G i (G i))
    rwa [Function.update_eq_self]

omit [DecidableEq ι] in
theorem SyncInv.firmware (h : SyncInv s G) (hfw : Firmware s s') : SyncInv s' G := by
  cases hfw with
  | enter hclear =>
    refine ⟨⟨h.phase.smbi,h.phase.single,h.phase.inside,h.phase.seen,?_⟩,h.held⟩
    intro hset
    rw [hclear] at hset
    exact Bool.noConfusion hset
  | leave => exact ⟨⟨h.phase.smbi,h.phase.single,h.phase.inside,h.phase.seen,fun _ => rfl⟩,h.held⟩
  | take hin hfree hsw =>
    refine ⟨⟨h.phase.smbi,h.phase.single,h.phase.inside,?_,h.phase.fw⟩,h.held.take hfree hsw⟩
    exact fun i v hi => absurd hi (h.phase.not_inside hin i _)
  | give hin hown =>
    refine ⟨⟨h.phase.smbi,h.phase.single,h.phase.inside,?_,h.phase.fw⟩,h.held.give hown⟩
    exact fun i v hi => absurd hi (h.phase.not_inside hin i _)

end

end Hw
end Ixmap
