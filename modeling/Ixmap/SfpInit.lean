import Ixmap.Mac82599

/-! The initialisation of an SFP+ module from the EEPROM. The image has a list of modules, each with the offset
of a sequence of words, and the words of the sequence go to CORECTL one after the other. -/
namespace Ixmap
namespace Hw
open RegProgram

/-- From `offset` on, the list has the module `type` with the sequence at `data`. -/
inductive WordStore.Lists (s : WordStore) (type : BitVec 16) : ℕ → BitVec 16 → Prop
  | here {offset : ℕ} (hsize : offset+1 < s.size) (htype : s.word offset = type) (hend : type ≠ 0xffff#16)
    (hdata : s.word (offset+1) ≠ 0#16) (hdata' : s.word (offset+1) ≠ 0xffff#16) :
    Lists s type offset (s.word (offset+1))
  | next {offset : ℕ} {data : BitVec 16} (hsize : offset < s.size) (hend : s.word offset ≠ 0xffff#16)
    (htype : s.word offset ≠ type) (h : Lists s type (offset+2) data) : Lists s type offset data

/-- Behind `offset` there are the words `ws`, and a word `0xffff`. -/
inductive WordStore.Sequence (s : WordStore) : ℕ → List (BitVec 16) → Prop
  | stop {offset : ℕ} (hsize : offset+1 < s.size) (hend : s.word (offset+1) = 0xffff#16) : Sequence s offset []
  | word {offset : ℕ} {ws : List (BitVec 16)} (hsize : offset+1 < s.size) (hend : s.word (offset+1) ≠ 0xffff#16)
    (h : Sequence s (offset+1) ws) : Sequence s offset (s.word (offset+1)::ws)

section
variable {τ α β : Type} {m : Device Reg (BitVec 32) τ} {s : WordStore} {t t' t'' : τ} {v v' v'' : BitVec 32}

/-- On a device that keeps the store, with the rest of it in state `t` and the value `v` in GSSR, the program
returns `a` and leaves `t'` and `v'`. -/
def Does (m : Device Reg (BitVec 32) τ) (s : WordStore) (t : τ) (v : BitVec 32) (p : HwM α) (a : α) (t' : τ)
    (v' : BitVec 32) : Prop :=
  ∀ (hw : IxmapHw) (d : Nvm τ), d.Stores s → hw.eeprom.Agrees d → d.inner = t → d.gssr = v →
    ∃ eeprom d', run (nvm m) (p hw) d = ((a,{ hw with eeprom := eeprom }),d') ∧ d'.Stores s ∧ eeprom.Agrees d' ∧
      d'.inner = t' ∧ d'.gssr = v'

theorem Reads.does {p : HwM α} {a : α} (h : Reads s p a) : Does m s t v p a t v := by
  intro hw d hd hi ht hv
  obtain ⟨e,d',hrun,hd',hi',hu⟩ := h τ m hw d hd hi
  exact ⟨e,d',hrun,hd',hi',hu.inner.trans ht,hu.gssr.trans hv⟩

theorem Does.bind {p : HwM α} {f : α → HwM β} {a : α} {b : β} (h : Does m s t v p a t' v')
    (hf : Does m s t' v' (f a) b t'' v'') : Does m s t v (p >>= f) b t'' v'' := by
  intro hw d hd hi ht hv
  obtain ⟨e,d',hrun,hd',hi',ht',hv'⟩ := h hw d hd hi ht hv
  obtain ⟨e',d'',hrun',hrest⟩ := hf { hw with eeprom := e } d' hd' hi' ht' hv'
  refine ⟨e',d'',?_,hrest⟩
  refine (run_bind _ _ _ _).trans ?_
  rw [hrun]
  exact hrun'

theorem Nvm.Stores.beside {d : Nvm τ} (h : d.Stores s) (t : τ) (hv : v &&& busyMask gssrEepSm = 0#32) :
    Nvm.Stores { d with inner := t, gssr := v } s :=
  ⟨⟨⟨h.smbi,h.swesmbi⟩,hv,h.req,h.granted,h.sk,h.di,h.received⟩,h.size,h.word,h.grantWait,h.busy,h.eerdWait,
    h.sizeCode⟩

theorem EepromInfo.Agrees.beside {e : EepromInfo} {d : Nvm τ} (h : e.Agrees d) (t : τ) (v : BitVec 32) :
    e.Agrees { d with inner := t, gssr := v } := h.imp_right fun hf => ⟨hf.type,hf.wordSize,hf.addressBits⟩

theorem does_writeCorectl (x : BitVec 32) :
    Does m s t v (writeHw corectlReg x) () (m.write t corectlReg x) v := by
  rintro hw d hd hi rfl rfl
  exact ⟨hw.eeprom,{ d with inner := m.write d.inner corectlReg x },rfl,hd.beside _ hd.free,hi.beside _ _,rfl,rfl⟩

theorem does_flush : Does m s t v flushHw () t v := by
  intro hw d hd hi ht hv
  exact ⟨hw.eeprom,d,rfl,hd,hi,ht,hv⟩

theorem does_acquire {mask : BitVec 16} (hfree : v &&& busyMask mask = 0#32)
    (heep : (v ||| mask.setWidth 32) &&& busyMask gssrEepSm = 0#32) :
    Does m s t v (acquireSwfwSync mask) 0 t (v ||| mask.setWidth 32) := by
  rintro hw d hd hi rfl rfl
  have hrun := Nvm.run_acquireSync (m := m) hd.toSemFree hfree
  refine ⟨hw.eeprom,{ d with gssr := d.gssr ||| mask.setWidth 32 },?_,hd.beside _ heep,hi.beside _ _,rfl,rfl⟩
  refine (run_bind _ _ _ _).trans ?_
  rw [hrun]
  rfl

theorem does_release {mask : BitVec 16} (heep : (v &&& ~~~mask.setWidth 32) &&& busyMask gssrEepSm = 0#32) :
    Does m s t v (releaseSwfwSync mask) () t (v &&& ~~~mask.setWidth 32) := by
  rintro hw d hd hi rfl rfl
  have hrun := Nvm.run_releaseSync (m := m) mask hd.toSemFree
  refine ⟨hw.eeprom,{ d with gssr := d.gssr &&& ~~~mask.setWidth 32 },?_,hd.beside _ heep,hi.beside _ _,rfl,rfl⟩
  refine (run_bind _ _ _ _).trans ?_
  rw [hrun]
  rfl

end

section
variable {τ : Type} {m : Device Reg (BitVec 32) τ} {s : WordStore} {t : τ} {v : BitVec 32}

def corectlWrites (m : Device Reg (BitVec 32) τ) (t : τ) (ws : List (BitVec 16)) : τ :=
  ws.foldl (fun t w => m.write t corectlReg (w.setWidth 32)) t

theorem toNat_add_lt {x : BitVec 16} {n k : ℕ} (hx : x.toNat = n) (h : n+k < 2^16) :
    (x+BitVec.ofNat 16 k).toNat = n+k := by
  rw [BitVec.toNat_add,BitVec.toNat_ofNat,hx,Nat.add_mod_mod,Nat.mod_eq_of_lt h]

theorem reads_stored {offset : BitVec 16} {n : ℕ} (hn : offset.toNat = n) (h : n < s.size) (old : BitVec 16) :
    Reads s (readEepromInto offset old) (0,s.word n) := by
  have hread := reads_readEepromInto (s := s) offset old
  rwa [hn,readInto_of_lt h] at hread

theorem reads_findSfp {type data : BitVec 16} {n : ℕ} (hsize : s.size ≤ 2^15) (h : s.Lists type n data) :
    ∀ (fuel : ℕ) (offset : BitVec 16), offset.toNat = n → s.size ≤ n+fuel →
      Reads s (findSfp type fuel offset) (0,data) := by
  induction h with
  | @here n hlt htype hend hdata hdata' =>
    intro fuel offset hn hfuel
    obtain ⟨fuel,rfl⟩ : ∃ k, fuel = k+1 := ⟨fuel-1,by omega⟩
    have hnext : (offset+1#16).toNat = n+1 := toNat_add_lt hn (by omega)
    refine (reads_stored hn (by omega) _).bind ?_
    rw [if_neg (not_not.mpr rfl),htype,if_neg hend,if_pos rfl]
    refine (reads_stored hnext hlt _).bind ?_
    rw [if_neg (not_not.mpr rfl),if_neg (not_or.mpr ⟨hdata,hdata'⟩)]
    exact reads_pure _
  | @next n data hlt hend htype hrest ih =>
    intro fuel offset hn hfuel
    obtain ⟨fuel,rfl⟩ : ∃ k, fuel = k+1 := ⟨fuel-1,by omega⟩
    have hnext : (offset+2#16).toNat = n+2 := toNat_add_lt hn (by omega)
    refine (reads_stored hn hlt _).bind ?_
    rw [if_neg (not_not.mpr rfl),if_neg hend,if_neg htype]
    exact ih fuel _ hnext (by omega)

theorem does_writeSequence {n : ℕ} {ws : List (BitVec 16)} (hsize : s.size ≤ 2^15) (h : s.Sequence n ws) :
    ∀ (t : τ) (fuel : ℕ) (offset : BitVec 16), offset.toNat = n → s.size ≤ n+fuel →
      Does m s t v (writeSequence fuel offset) true (corectlWrites m t ws) v := by
  induction h with
  | @stop n hlt hend =>
    intro t fuel offset hn hfuel
    obtain ⟨fuel,rfl⟩ : ∃ k, fuel = k+1 := ⟨fuel-1,by omega⟩
    have hnext : (offset+1#16).toNat = n+1 := toNat_add_lt hn (by omega)
    refine (reads_stored hnext hlt _).does.bind ?_
    rw [if_neg (not_not.mpr rfl),hend,if_pos rfl]
    exact (reads_pure _).does
  | @word n ws hlt hend hrest ih =>
    intro t fuel offset hn hfuel
    obtain ⟨fuel,rfl⟩ : ∃ k, fuel = k+1 := ⟨fuel-1,by omega⟩
    have hnext : (offset+1#16).toNat = n+1 := toNat_add_lt hn (by omega)
    refine (reads_stored hnext hlt _).does.bind ?_
    rw [if_neg (not_not.mpr rfl),if_neg hend]
    refine (does_writeCorectl _).bind (does_flush.bind ?_)
    exact ih _ fuel _ hnext (by omega)

/-- The lock of the MAC's registers leaves the EEPROM free. -/
theorem macCsr_beside (h : v &&& busyMask gssrEepSm = 0#32) :
    (v ||| gssrMacCsrSm.setWidth 32) &&& busyMask gssrEepSm = 0#32 := by
  apply BitVec.eq_of_getLsbD_eq
  intro i hi
  have hv := congrArg (fun x => x.getLsbD i) h
  have hmask : ∀ i < 32, ((gssrMacCsrSm.setWidth 32).getLsbD i && (busyMask gssrEepSm).getLsbD i) = false := by decide
  simp only [BitVec.getLsbD_and,BitVec.getLsbD_zero] at hv
  rw [BitVec.getLsbD_and,BitVec.getLsbD_or,Bool.and_or_distrib_right,hv,hmask i hi,BitVec.getLsbD_zero]
  rfl

theorem does_writeSfp {data : BitVec 16} {ws : List (BitVec 16)} (hsize : s.size ≤ 2^15)
    (h : s.Sequence data.toNat ws) (heep : v &&& busyMask gssrEepSm = 0#32)
    (hfree : v &&& busyMask gssrMacCsrSm = 0#32) :
    Does m s t v (writeSfp data) 0 (corectlWrites m t ws) v := by
  have hback := Nvm.gssr_restored hfree
  refine (does_acquire hfree (macCsr_beside heep)).bind ?_
  rw [if_neg (not_not.mpr rfl)]
  refine (does_writeSequence hsize h t _ _ rfl (by omega)).bind ?_
  have hrelease : Does m s (corectlWrites m t ws) (v ||| gssrMacCsrSm.setWidth 32) (releaseSwfwSync gssrMacCsrSm) ()
      (corectlWrites m t ws) ((v ||| gssrMacCsrSm.setWidth 32) &&& ~~~gssrMacCsrSm.setWidth 32) :=
    does_release (by rwa [hback])
  rw [hback] at hrelease
  exact hrelease.bind (reads_pure _).does

theorem reads_lookupSfp {type data : BitVec 16} (hs : 64 ≤ s.size) (hsize : s.size ≤ 2^15)
    (h0 : s.word 0x2b ≠ 0#16) (hf : s.word 0x2b ≠ 0xffff#16)
    (hfind : s.Lists type ((s.word 0x2b).toNat+1) data) : Reads s (lookupSfp type) (0,data) := by
  have hlist : (s.word 0x2b+1#16).toNat = (s.word 0x2b).toNat+1 := by
    refine toNat_add_lt rfl ?_
    have hlt := (s.word 0x2b).isLt
    have hne : (s.word 0x2b).toNat ≠ 0xffff := fun h => hf (BitVec.eq_of_toNat_eq h)
    omega
  refine (reads_stored (n := 0x2b) rfl (by omega) _).bind ?_
  rw [if_neg (not_not.mpr rfl),if_neg (not_or.mpr ⟨h0,hf⟩)]
  exact reads_findSfp hsize hfind _ _ hlist (by omega)

/-- When the image has a sequence for the module, exactly its words are written to CORECTL, in their order, and
the lock is given back. -/
theorem programSfp_writes {τ : Type} {m : Device Reg (BitVec 32) τ} {d : Nvm τ} {s : WordStore} {hw : IxmapHw}
    {data : BitVec 16} {ws : List (BitVec 16)} (hd : d.Stores s) (hi : hw.eeprom.Agrees d)
    (hfree : d.gssr &&& busyMask gssrMacCsrSm = 0#32) (hpresent : hw.phy.sfpType ≠ .notPresent)
    (h0 : s.word 0x2b ≠ 0#16) (hf : s.word 0x2b ≠ 0xffff#16)
    (hfind : s.Lists hw.phy.sfpType.code ((s.word 0x2b).toNat+1) data) (hseq : s.Sequence data.toNat ws) : ∃ hw' d',
      run (nvm m) (programSfp hw) d = ((0,hw'),d') ∧ d'.inner = corectlWrites m d.inner ws ∧ d'.gssr = d.gssr ∧
      d'.Stores s := by
  obtain ⟨hs,hsize⟩ := hd.size_bounds
  have hdoes : Does m s d.inner d.gssr (lookupSfp hw.phy.sfpType.code >>= fun r =>
      if r.1 ≠ 0 then pure r.1 else writeSfp r.2) 0 (corectlWrites m d.inner ws) d.gssr := by
    refine (reads_lookupSfp hs hsize h0 hf hfind).does.bind ?_
    rw [if_neg (not_not.mpr rfl)]
    exact does_writeSfp hsize hseq hd.free hfree
  obtain ⟨e,d',hrun,hd',-,ht,hv⟩ := hdoes hw d hd hi rfl rfl
  refine ⟨{ hw with eeprom := e },d',?_,ht,hv,hd'⟩
  have hoffsets : ixmapGetSfpInitSequenceOffsets hw = lookupSfp hw.phy.sfpType.code hw := by
    change (if hw.phy.sfpType = .notPresent then pure (errSfpNotPresent,0#16) else lookupSfp _ : HwM _) hw = _
    rw [if_neg hpresent]
  have hprogram : programSfp hw = (lookupSfp hw.phy.sfpType.code >>= fun r =>
      if r.1 ≠ 0 then pure r.1 else writeSfp r.2) hw := by
    change ixmapGetSfpInitSequenceOffsets hw >>= _ = lookupSfp hw.phy.sfpType.code hw >>= _
    rw [hoffsets]
  rw [hprogram]
  exact hrun

/-- A list at word 1 with the two modules, and a sequence of two words for the first. -/
def sfpImage (i : ℕ) : BitVec 16 :=
  if i = 0x2b then 0x01#16 else if i = 2 then 0x06#16 else if i = 3 then 0x20#16 else if i = 4 then 0x05#16
  else if i = 5 then 0x10#16 else if i = 17 then 0x1111#16 else if i = 18 then 0x2222#16
  else if i = 19 then 0xffff#16 else 0#16

def corectlLog : Device Reg (BitVec 32) (List (BitVec 32)) where
  read log _ := (0#32,log)
  write log r v := if r = corectlReg then log++[v] else log

def fiberHw : IxmapHw := { kzallocHw with phy := ⟨.generic,.srlrCore0,.fiber,true⟩ }

theorem programSfp_writes_two : ∃ hw' d',
    run (nvm corectlLog) (programSfp fiberHw) (Nvm.ofWords sfpImage []) = ((0,hw'),d') ∧
      d'.inner = [0x1111#32,0x2222#32] := by
  have hi : fiberHw.eeprom.Agrees (Nvm.ofWords sfpImage ([] : List (BitVec 32))) := Or.inl rfl
  have hfree : 0#32 &&& busyMask gssrMacCsrSm = 0#32 := by decide
  have hfind : WordStore.Lists ⟨64,sfpImage⟩ 0x05#16 2 0x10#16 :=
    .next (by decide) (by decide) (by decide) (.here (by decide) rfl (by decide) (by decide) (by decide))
  have hseq : WordStore.Sequence ⟨64,sfpImage⟩ 16 [0x1111#16,0x2222#16] :=
    .word (by decide) (by decide) (.word (by decide) (by decide) (.stop (by decide) rfl))
  obtain ⟨hw',d',hrun,hlog,-⟩ := programSfp_writes (m := corectlLog) (Nvm.stores_ofWords sfpImage []) hi hfree
    (by decide) (by decide) (by decide) hfind hseq
  exact ⟨hw',d',hrun,hlog⟩

end

/-- No offset behind the first half of the address space can be read. -/
def EepromInfo.Sized (e : EepromInfo) : Prop := e.wordSize.toNat ≤ 2^15

theorem cutPow_le (k : ℕ) : ((1#32 <<< k).setWidth 16).toNat ≤ 2^15 := by
  rw [BitVec.toNat_setWidth,BitVec.toNat_shiftLeft,BitVec.toNat_ofNat,Nat.shiftLeft_eq,
    Nat.mod_mod_of_dvd _ (by decide : 2^16 ∣ 2^32)]
  rcases Nat.lt_or_ge k 16 with hk | hk
  · have hpow := Nat.pow_le_pow_right two_pos (by omega : k ≤ 15)
    exact (Nat.mod_le _ _).trans (by simpa using hpow)
  · have hdvd : 2^16 ∣ 1%2^32*2^k := (Nat.pow_dvd_pow 2 hk).mul_left _
    rw [Nat.mod_eq_zero_of_dvd hdvd]
    exact Nat.zero_le _

theorem always_initParams {e : EepromInfo} (h : e.Sized) : Always EepromInfo.Sized (ixmapInitEepromParams e) := by
  rw [ixmapInitEepromParams]
  split_ifs
  · intro eec
    change BitVec.toNat (if eec &&& eecPres ≠ 0#32 then _ else e.wordSize) ≤ 2^15
    by_cases hpres : eec &&& eecPres ≠ 0#32
    · rw [if_pos hpres]
      exact cutPow_le _
    · rw [if_neg hpres]
      exact h
  · exact h

/-- A read that succeeds is in the first half, and keeps the size. -/
def ReadBelow (offset : BitVec 16) (r : (ℤ × List (BitVec 16)) × EepromInfo) : Prop :=
  r.2.Sized ∧ (r.1.1 = 0 → offset.toNat < 2^15)

theorem always_readBelow {e : EepromInfo} (h : e.Sized) (offset : BitVec 16) :
    Always (ReadBelow offset) (ixmapReadEeprom82599 e offset) := by
  have herr : ∀ e : EepromInfo, e.Sized → ReadBelow offset ((errEeprom,[]),e) :=
    fun e he => ⟨he,fun h0 => absurd h0 (show errEeprom ≠ 0 by decide)⟩
  have hbelow : ∀ e : EepromInfo, e.Sized → ¬e.wordSize ≤ offset → ∀ r, ReadBelow offset (r,e) := by
    intro e he hlt r
    refine ⟨he,fun _ => ?_⟩
    have hsize : e.wordSize.toNat ≤ 2^15 := he
    rw [BitVec.le_def] at hlt
    omega
  rw [ixmapReadEeprom82599]
  split_ifs
  · refine (always_initParams h).bind fun e he => ?_
    rw [if_neg one_ne_zero]
    split_ifs with hle
    · exact herr e he
    · exact (always_true _).bind fun r _ => hbelow e he hle r
  · refine (always_initParams h).bind fun e he => ?_
    split_ifs with hle
    · exact herr e he
    · exact (always_true _).bind fun r _ => hbelow e he hle r

section
variable {σ : Type} (dev : Device Reg (BitVec 32) σ)

theorem run_readBelow {hw : IxmapHw} (h : hw.eeprom.Sized) (offset old : BitVec 16) (st : σ) :
    (run dev (readEepromInto offset old hw) st).1.2.eeprom.Sized ∧
      ((run dev (readEepromInto offset old hw) st).1.1.1 = 0 → offset.toNat < 2^15) := by
  have hbelow : Always (fun r : (ℤ × BitVec 16) × IxmapHw => r.2.eeprom.Sized ∧ (r.1.1 = 0 → offset.toNat < 2^15))
      (readEepromInto offset old hw) := by
    refine ((always_readBelow h offset).bind ?_ : Always (fun r : (ℤ × List (BitVec 16)) × IxmapHw =>
      r.2.eeprom.Sized ∧ (r.1.1 = 0 → offset.toNat < 2^15)) (readEeprom offset hw)).bind ?_
    · exact fun r hr => hr
    · exact fun r hr => hr
  exact hbelow.run dev st

theorem run_writeSequence_fuel (n k : ℕ) {hw : IxmapHw} (h : hw.eeprom.Sized) {offset : BitVec 16}
    (ho : offset.toNat+1 < 2^16) (hn : 2^15 ≤ offset.toNat+1+n) (st : σ) :
    run dev (writeSequence (n+1+k) offset hw) st = run dev (writeSequence (n+1) offset hw) st := by
  induction n generalizing hw offset st with
  | zero =>
    obtain ⟨-,hlt⟩ := run_readBelow dev h (offset+1#16) 0#16 st
    rw [toNat_add_lt rfl ho] at hlt
    rw [show 0+1+k = k+1 by omega,writeSequence,writeSequence,run_hwBind,run_hwBind,if_pos fun h0 => absurd (hlt h0) (by omega),
      if_pos fun h0 => absurd (hlt h0) (by omega)]
  | succ n ih =>
    obtain ⟨hsized,hlt⟩ := run_readBelow dev h (offset+1#16) 0#16 st
    rw [show n+1+1+k = (n+1+k)+1 by omega,writeSequence,writeSequence,run_hwBind,run_hwBind]
    split_ifs with h0 hend
    · rfl
    · rfl
    · have hnext : (offset+1#16).toNat = offset.toNat+1 := toNat_add_lt rfl ho
      have hoff := hlt (not_not.mp h0)
      rw [hnext] at hoff
      simp only [run_hwBind]
      exact ih hsized (by omega) (by omega) _

theorem run_findSfp_fuel (type : BitVec 16) (n k : ℕ) {hw : IxmapHw} (h : hw.eeprom.Sized) {offset : BitVec 16}
    (hn : 2^15 ≤ offset.toNat+n) (st : σ) :
    run dev (findSfp type (n+1+k) offset hw) st = run dev (findSfp type (n+1) offset hw) st := by
  induction n generalizing hw offset st with
  | zero =>
    obtain ⟨-,hlt⟩ := run_readBelow dev h offset 0#16 st
    rw [show 0+1+k = k+1 by omega,findSfp,findSfp,run_hwBind,run_hwBind,if_pos fun h0 => absurd (hlt h0) (by omega),
      if_pos fun h0 => absurd (hlt h0) (by omega)]
  | succ n ih =>
    obtain ⟨hsized,hlt⟩ := run_readBelow dev h offset 0#16 st
    rw [show n+1+1+k = (n+1+k)+1 by omega,findSfp,findSfp,run_hwBind,run_hwBind]
    split_ifs with h0 hend htype
    · rfl
    · rfl
    · rfl
    · have hoff := hlt (not_not.mp h0)
      have hnext : (offset+2#16).toNat = offset.toNat+2 := toNat_add_lt rfl (by omega)
      exact ih hsized (by omega) _

end

end Hw
end Ixmap
