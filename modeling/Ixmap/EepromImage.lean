import Ixmap.EepromRead
import Ixmap.HwState

/-! What the driver reads out of the EEPROM's image: the checksum over its sections and the part number. -/
namespace Ixmap
namespace Hw
open RegProgram

def errEepromChecksum : ℤ := -2
def errNoSpace : ℤ := -25
def errPbaSection : ℤ := -31

/-- The first loop of `ixmap_calc_eeprom_checksum`: the sum and the last word read. -/
def sumWords : ℕ → ℕ → BitVec 16 → BitVec 16 → HwM (BitVec 16 × BitVec 16)
  | 0, _, checksum, word => pure (checksum,word)
  | left+1, i, checksum, word => do
    let r ← readEepromInto (BitVec.ofNat 16 i) word
    if r.1 ≠ 0 then pure (checksum,r.2) else sumWords left (i+1) (checksum+r.2) r.2

/-- `for (j = pointer+1; j <= pointer+length; j++)`. The counter has 16 bits and the bound has more, so the
loop may not end; `none` when the fuel has run out. -/
def sumSection (last : ℕ) : ℕ → BitVec 16 → BitVec 16 → BitVec 16 → HwM (Option (BitVec 16 × BitVec 16))
  | 0, _, _, _ => pure none
  | fuel+1, j, checksum, word =>
    if last < j.toNat then pure (some (checksum,word))
    else do
      let r ← readEepromInto j word
      sumSection last fuel (j+1#16) (checksum+r.2) r.2

/-- The variables of the second loop. -/
structure SumState where
  checksum : BitVec 16
  length : BitVec 16
  pointer : BitVec 16
  word : BitVec 16

def sumPointer (fuel i : ℕ) (st : SumState) : HwM (Option SumState) := do
  let r ← readEepromInto (BitVec.ofNat 16 i) st.pointer
  let st := { st with pointer := r.2 }
  if st.pointer ≠ 0xffff#16 ∧ st.pointer ≠ 0#16 then
    let r ← readEepromInto st.pointer st.length
    let st := { st with length := r.2 }
    if st.length ≠ 0xffff#16 ∧ st.length ≠ 0#16 then
      let r ← sumSection (st.pointer.toNat+st.length.toNat) fuel (st.pointer+1#16) st.checksum st.word
      pure (r.map fun r => { st with checksum := r.1, word := r.2 })
    else pure (some st)
  else pure (some st)

def sumPointers (fuel : ℕ) : ℕ → ℕ → SumState → HwM (Option SumState)
  | 0, _, st => pure (some st)
  | left+1, i, st => do
    match ← sumPointer fuel i st with
    | none => pure none
    | some st => sumPointers fuel left (i+1) st

/-- The words before the checksum, and all sections but the firmware's. -/
def ixmapCalcEepromChecksum (fuel : ℕ) : HwM (Option (BitVec 16)) := do
  let r ← sumWords 0x3f 0 0#16 0#16
  let st ← sumPointers fuel (0x0f-0x03) 0x03 ⟨r.1,0#16,0#16,r.2⟩
  pure (st.map fun st => 0xbaba#16-st.checksum)

/-- The status, and the checksum when it has been calculated. -/
def ixmapValidateEepromChecksum (fuel : ℕ) : HwM (Option (ℤ × Option (BitVec 16))) := do
  let r ← readEepromInto 0#16 0#16
  if r.1 = 0 then
    match ← ixmapCalcEepromChecksum fuel with
    | none => pure none
    | some checksum =>
      let r ← readEepromInto 0x3f#16 0#16
      pure (some (if r.2 ≠ checksum then errEepromChecksum else 0,some checksum))
  else pure (some (r.1,none))

/-- The writes to the caller's buffer, in their order. -/
abbrev BufWrites := List (ℕ × BitVec 8)

def BufWrites.at (buf : BufWrites) (i : ℕ) : Option (BitVec 8) := (buf.reverse.find? (·.1 = i)).map (·.2)

/-- The bytes of the legacy format before they become characters, with the dash and the final zero. -/
def legacyDigits (data pbaPtr : BitVec 16) : List (BitVec 8) :=
  [(data >>> 12 &&& 0xf#16).setWidth 8,(data >>> 8 &&& 0xf#16).setWidth 8,(data >>> 4 &&& 0xf#16).setWidth 8,
    (data &&& 0xf#16).setWidth 8,(pbaPtr >>> 12 &&& 0xf#16).setWidth 8,(pbaPtr >>> 8 &&& 0xf#16).setWidth 8,
    0x2d#8,0#8,(pbaPtr >>> 4 &&& 0xf#16).setWidth 8,(pbaPtr &&& 0xf#16).setWidth 8,0#8]

/-- The last loop of the legacy format at one byte. -/
def hexWrite (i : ℕ) (b : BitVec 8) : BufWrites :=
  if b < 0x0a#8 then [(i,b+0x30#8)] else if b < 0x10#8 then [(i,b+(0x41#8-0x0a#8))] else []

def legacyPba (data pbaPtr : BitVec 16) : BufWrites :=
  ((legacyDigits data pbaPtr).zipIdx.map fun x => (x.2,x.1))++
    ((legacyDigits data pbaPtr).take 10).zipIdx.flatMap fun x => hexWrite x.2 x.1

def copyPba (pbaPtr : BitVec 16) : ℕ → ℕ → BufWrites → HwM (ℤ × BufWrites)
  | 0, offset, buf => pure (0,buf++[(offset*2,0#8)])
  | left+1, offset, buf => do
    let r ← readEepromInto (pbaPtr+BitVec.ofNat 16 offset) 0#16
    if r.1 ≠ 0 then pure (r.1,buf)
    else copyPba pbaPtr left (offset+1) (buf++[(offset*2,(r.2 >>> 8).setWidth 8),(offset*2+1,(r.2 &&& 0xff#16).setWidth 8)])

/-- The status and the writes to the buffer of `pba_num_size` bytes. -/
def ixmapReadPbaString (pbaNumSize : ℕ) : HwM (ℤ × BufWrites) := do
  let data ← readEepromInto 0x15#16 0#16
  if data.1 ≠ 0 then pure (data.1,[])
  else
    let pbaPtr ← readEepromInto 0x16#16 0#16
    if pbaPtr.1 ≠ 0 then pure (pbaPtr.1,[])
    else if data.2 ≠ 0xfafa#16 then
      if pbaNumSize < 11 then pure (errNoSpace,[]) else pure (0,legacyPba data.2 pbaPtr.2)
    else
      let length ← readEepromInto pbaPtr.2 0#16
      if length.1 ≠ 0 then pure (length.1,[])
      else if length.2 = 0xffff#16 ∨ length.2 = 0#16 then pure (errPbaSection,[])
      else if pbaNumSize < length.2.toNat*2-1 then pure (errNoSpace,[])
      else copyPba (pbaPtr.2+1#16) (length.2.toNat-1) 0 []

/-- On every device that keeps the store, whatever its parameters are known to be, the program returns `a` and
leaves the device as it was. -/
def Reads {α : Type} (s : WordStore) (p : HwM α) (a : α) : Prop :=
  ∀ (τ : Type) (m : Device Reg (BitVec 32) τ) (hw : IxmapHw) (d : Nvm τ), d.Stores s → hw.eeprom.Agrees d →
    ∃ eeprom d', run (nvm m) (p hw) d = ((a,{ hw with eeprom := eeprom }),d') ∧ d'.Stores s ∧ eeprom.Agrees d' ∧ d.Unchanged d'

def WordStore.readInto (s : WordStore) (offset : ℕ) (old : BitVec 16) : ℤ × BitVec 16 :=
  if offset < s.size then (0,s.word offset) else (errEeprom,old)

section
variable {s : WordStore} {α β : Type}

theorem reads_pure (a : α) : Reads s (pure a) a :=
  fun _ _ hw d hd hi => ⟨hw.eeprom,d,rfl,hd,hi,rfl,rfl,rfl⟩

theorem Reads.bind {p : HwM α} {f : α → HwM β} {a : α} {b : β} (h : Reads s p a) (hf : Reads s (f a) b) :
    Reads s (p >>= f) b := by
  intro τ m hw d hd hi
  obtain ⟨e,d₁,hrun,hd₁,hi₁,hu₁⟩ := h τ m hw d hd hi
  obtain ⟨e',d₂,hrun',hd₂,hi₂,hu₂⟩ := hf τ m { hw with eeprom := e } d₁ hd₁ hi₁
  refine ⟨e',d₂,?_,hd₂,hi₂,hu₁.trans hu₂⟩
  change run (nvm m) (p hw >>= fun r => f r.1 r.2) d = _
  rw [run_bind,hrun]
  exact hrun'

theorem reads_readEeprom (offset : BitVec 16) : Reads s (readEeprom offset) (s.read offset.toNat) := by
  intro τ m hw d hd hi
  obtain ⟨e,d',hrun,hd',hf,hu⟩ := Nvm.run_readEeprom (m := m) hd hi offset
  refine ⟨e,d',?_,hd',Or.inr hf,hu⟩
  rw [readEeprom,run_bind,hrun]
  rfl

theorem reads_readEepromInto (offset old : BitVec 16) :
    Reads s (readEepromInto offset old) (s.readInto offset.toNat old) := by
  refine (reads_readEeprom offset).bind ?_
  rw [WordStore.read,WordStore.readInto]
  split <;> exact reads_pure _

end

theorem readInto_of_lt {s : WordStore} {n : ℕ} (h : n < s.size) (old : BitVec 16) :
    s.readInto n old = (0,s.word n) := if_pos h

def WordStore.sum (s : WordStore) (start n : ℕ) : BitVec 16 := ∑ k ∈ Finset.range n, s.word (start+k)

theorem WordStore.sum_succ (s : WordStore) (start n : ℕ) : s.sum start (n+1) = s.word start+s.sum (start+1) n := by
  rw [sum,Finset.sum_range_succ',add_zero,add_comm,sum]
  congr 1
  exact Finset.sum_congr rfl fun k _ => congrArg s.word (by omega)

/-- The words of the section that a pointer of the header leads to. -/
def WordStore.sectionSum (s : WordStore) (i : ℕ) : BitVec 16 :=
  let pointer := s.word i
  let length := s.word pointer.toNat
  if (pointer ≠ 0xffff#16 ∧ pointer ≠ 0#16) ∧ (length ≠ 0xffff#16 ∧ length ≠ 0#16) then
    s.sum (pointer.toNat+1) length.toNat
  else 0#16

/-- The value that the word behind the header should have. -/
def WordStore.checksum (s : WordStore) : BitVec 16 :=
  0xbaba#16-(s.sum 0 0x3f+∑ i ∈ Finset.range 12, s.sectionSum (3+i))

/-- The sections lie inside of the image. -/
def WordStore.Closed (s : WordStore) : Prop :=
  ∀ i, 3 ≤ i → i < 15 → s.word i ≠ 0xffff#16 → s.word i ≠ 0#16 → (s.word i).toNat < s.size ∧
    (s.word (s.word i).toNat ≠ 0xffff#16 → s.word (s.word i).toNat ≠ 0#16 →
      (s.word i).toNat+(s.word (s.word i).toNat).toNat < s.size)

section
variable {s : WordStore}

theorem reads_sumWords (n i : ℕ) (c w : BitVec 16) (hs : i+n ≤ s.size) (h16 : i+n ≤ 2^16) :
    ∃ w', Reads s (sumWords n i c w) (c+s.sum i n,w') := by
  induction n generalizing i c w with
  | zero =>
    refine ⟨w,?_⟩
    rw [WordStore.sum,Finset.sum_range_zero,add_zero]
    exact reads_pure _
  | succ n ih =>
    have hread := reads_readEepromInto (s := s) (BitVec.ofNat 16 i) w
    rw [BitVec.toNat_ofNat,Nat.mod_eq_of_lt (by omega),readInto_of_lt (by omega)] at hread
    obtain ⟨w',hrest⟩ := ih (i+1) (c+s.word i) (s.word i) (by omega) (by omega)
    refine ⟨w',hread.bind ?_⟩
    rw [if_neg (not_not.mpr rfl),WordStore.sum_succ,← add_assoc]
    exact hrest

theorem reads_sumSection (last fuel : ℕ) (j c w : BitVec 16) (hs : last < s.size) (h16 : last < 0xffff)
    (hj : j.toNat ≤ last+1) (hfuel : last+1-j.toNat < fuel) :
    ∃ w', Reads s (sumSection last fuel j c w) (some (c+s.sum j.toNat (last+1-j.toNat),w')) := by
  induction fuel generalizing j c w with
  | zero => omega
  | succ fuel ih =>
    by_cases hlast : last < j.toNat
    · refine ⟨w,?_⟩
      rw [sumSection,if_pos hlast,show last+1-j.toNat = 0 by omega,WordStore.sum,Finset.sum_range_zero,add_zero]
      exact reads_pure _
    · have hread := reads_readEepromInto (s := s) j w
      rw [readInto_of_lt (by omega)] at hread
      have hnext : (j+1#16).toNat = j.toNat+1 := by
        rw [BitVec.toNat_add,BitVec.toNat_ofNat]
        omega
      obtain ⟨w',hrest⟩ := ih (j+1#16) (c+s.word j.toNat) (s.word j.toNat) (by omega) (by omega)
      refine ⟨w',?_⟩
      rw [sumSection,if_neg hlast,show last+1-j.toNat = last+1-(j+1#16).toNat+1 by omega,WordStore.sum_succ,
        ← add_assoc,← hnext]
      exact hread.bind hrest

/-- With a bound that the counter cannot pass the loop does not end. -/
theorem reads_sumSection_endless {last : ℕ} (h : 0xffff ≤ last) (fuel : ℕ) (j c w : BitVec 16) :
    Reads s (sumSection last fuel j c w) none := by
  induction fuel generalizing j c w with
  | zero => exact reads_pure _
  | succ fuel ih =>
    have hj := j.isLt
    rw [sumSection,if_neg (by omega)]
    exact (reads_readEepromInto j w).bind (ih _ _ _)

theorem header_readInto {i : ℕ} (hs : 64 ≤ s.size) (hi : i < 64) (old : BitVec 16) :
    Reads s (readEepromInto (BitVec.ofNat 16 i) old) (0,s.word i) := by
  have hread := reads_readEepromInto (s := s) (BitVec.ofNat 16 i) old
  rwa [BitVec.toNat_ofNat,Nat.mod_eq_of_lt (by omega),readInto_of_lt (by omega)] at hread

theorem reads_sumPointer {i fuel : ℕ} (hc : s.Closed) (hs : 64 ≤ s.size) (hsize : s.size ≤ 2^15) (h3 : 3 ≤ i)
    (h15 : i < 15) (hfuel : 2^16 ≤ fuel) (st : SumState) :
    ∃ st', Reads s (sumPointer fuel i st) (some st') ∧ st'.checksum = st.checksum+s.sectionSum i := by
  by_cases hp : s.word i ≠ 0xffff#16 ∧ s.word i ≠ 0#16
  case neg =>
    refine ⟨{ st with pointer := s.word i },(header_readInto hs (by omega) _).bind ?_,?_⟩
    · rw [if_neg hp]
      exact reads_pure _
    · rw [WordStore.sectionSum,if_neg fun h => hp h.1,BitVec.add_zero]
  obtain ⟨hlt,hend⟩ := hc i h3 h15 hp.1 hp.2
  have hlength := reads_readEepromInto (s := s) (s.word i) st.length
  rw [readInto_of_lt hlt] at hlength
  by_cases hl : s.word (s.word i).toNat ≠ 0xffff#16 ∧ s.word (s.word i).toNat ≠ 0#16
  case neg =>
    refine ⟨{ st with pointer := s.word i, length := s.word (s.word i).toNat },
      (header_readInto hs (by omega) _).bind ?_,?_⟩
    · rw [if_pos hp]
      refine hlength.bind ?_
      rw [if_neg hl]
      exact reads_pure _
    · rw [WordStore.sectionSum,if_neg fun h => hl h.2,BitVec.add_zero]
  have hend := hend hl.1 hl.2
  have hnext : (s.word i+1#16).toNat = (s.word i).toNat+1 := by
    rw [BitVec.toNat_add,BitVec.toNat_ofNat]
    omega
  obtain ⟨w',hsection⟩ := reads_sumSection ((s.word i).toNat+(s.word (s.word i).toNat).toNat) fuel (s.word i+1#16)
    st.checksum st.word hend (by omega) (by omega) (by omega)
  rw [hnext,show (s.word i).toNat+(s.word (s.word i).toNat).toNat+1-((s.word i).toNat+1) =
    (s.word (s.word i).toNat).toNat by omega] at hsection
  refine ⟨⟨st.checksum+s.sectionSum i,s.word (s.word i).toNat,s.word i,w'⟩,
    (header_readInto hs (by omega) _).bind ?_,rfl⟩
  rw [if_pos hp]
  refine hlength.bind ?_
  rw [if_pos hl,WordStore.sectionSum,if_pos ⟨hp,hl⟩]
  exact hsection.bind (reads_pure _)

theorem reads_sumPointers {fuel : ℕ} (hc : s.Closed) (hs : 64 ≤ s.size) (hsize : s.size ≤ 2^15)
    (hfuel : 2^16 ≤ fuel) (n i : ℕ) (st : SumState) (h3 : 3 ≤ i) (h15 : i+n ≤ 15) :
    ∃ st', Reads s (sumPointers fuel n i st) (some st') ∧
      st'.checksum = st.checksum+∑ k ∈ Finset.range n, s.sectionSum (i+k) := by
  induction n generalizing i st with
  | zero => exact ⟨st,reads_pure _,by simp⟩
  | succ n ih =>
    obtain ⟨st₁,hst₁,hsum₁⟩ := reads_sumPointer hc hs hsize h3 (by omega) hfuel st
    obtain ⟨st₂,hst₂,hsum₂⟩ := ih (i+1) st₁ (by omega) (by omega)
    refine ⟨st₂,hst₁.bind hst₂,?_⟩
    rw [hsum₂,hsum₁,Finset.sum_range_succ',add_zero,add_assoc,add_comm (s.sectionSum i)]
    congr 2
    exact Finset.sum_congr rfl fun k _ => congrArg s.sectionSum (by omega)

theorem reads_calcChecksum {fuel : ℕ} (hc : s.Closed) (hs : 64 ≤ s.size) (hsize : s.size ≤ 2^15)
    (hfuel : 2^16 ≤ fuel) : Reads s (ixmapCalcEepromChecksum fuel) (some s.checksum) := by
  obtain ⟨w,hwords⟩ := reads_sumWords 0x3f 0 0#16 0#16 (by omega : 0+0x3f ≤ s.size) (by decide)
  obtain ⟨st,hst,hsum⟩ := reads_sumPointers hc hs hsize hfuel 12 3 ⟨0#16+s.sum 0 0x3f,0#16,0#16,w⟩ le_rfl (by decide)
  refine hwords.bind (hst.bind ?_)
  have hvalue : 0xbaba#16-st.checksum = s.checksum := by
    rw [hsum,WordStore.checksum,BitVec.zero_add]
  rw [Option.map_some,hvalue]
  exact reads_pure _

theorem reads_validateChecksum {fuel : ℕ} (hc : s.Closed) (hs : 64 ≤ s.size) (hsize : s.size ≤ 2^15)
    (hfuel : 2^16 ≤ fuel) : Reads s (ixmapValidateEepromChecksum fuel)
      (some (if s.word 0x3f ≠ s.checksum then errEepromChecksum else 0,some s.checksum)) := by
  have hfirst : Reads s (readEepromInto 0#16 0#16) (0,s.word 0) := header_readInto (i := 0) hs (by decide) _
  have hlast : Reads s (readEepromInto 0x3f#16 0#16) (0,s.word 0x3f) := header_readInto (i := 0x3f) hs (by decide) _
  refine hfirst.bind ?_
  rw [if_pos rfl]
  exact (reads_calcChecksum hc hs hsize hfuel).bind (hlast.bind (reads_pure _))

/-- A section whose end the counter cannot reach. -/
def WordStore.Endless (s : WordStore) (i : ℕ) : Prop :=
  s.word i ≠ 0xffff#16 ∧ s.word i ≠ 0#16 ∧ (s.word i).toNat < s.size ∧
    s.word (s.word i).toNat ≠ 0xffff#16 ∧ 0xffff ≤ (s.word i).toNat+(s.word (s.word i).toNat).toNat

instance (s : WordStore) (i : ℕ) : Decidable (s.Endless i) := inferInstanceAs (Decidable (_ ∧ _ ∧ _ ∧ _ ∧ _))

def Settles {α : Type} (s : WordStore) (p : HwM α) : Prop := ∃ a, Reads s p a

theorem Settles.bind {α β : Type} {p : HwM α} {f : α → HwM β} (h : Settles s p) (hf : ∀ a, Settles s (f a)) :
    Settles s (p >>= f) := by
  obtain ⟨a,ha⟩ := h
  obtain ⟨b,hb⟩ := hf a
  exact ⟨b,ha.bind hb⟩

theorem Settles.ite {α : Type} {c : Prop} [Decidable c] {p q : HwM α} (h : Settles s p) (h' : Settles s q) :
    Settles s (if c then p else q) := by
  split
  · exact h
  · exact h'

theorem settles_pure {α : Type} (a : α) : Settles s (pure a) := ⟨a,reads_pure a⟩

theorem settles_readEepromInto (offset old : BitVec 16) : Settles s (readEepromInto offset old) :=
  ⟨_,reads_readEepromInto offset old⟩

theorem settles_sumWords (n i : ℕ) (c w : BitVec 16) : Settles s (sumWords n i c w) := by
  induction n generalizing i c w with
  | zero => exact settles_pure _
  | succ n ih => exact (settles_readEepromInto _ _).bind fun _ => Settles.ite (settles_pure _) (ih _ _ _)

theorem settles_sumSection (last fuel : ℕ) (j c w : BitVec 16) : Settles s (sumSection last fuel j c w) := by
  induction fuel generalizing j c w with
  | zero => exact settles_pure _
  | succ fuel ih =>
    exact Settles.ite (settles_pure _) ((settles_readEepromInto _ _).bind fun _ => ih _ _ _)

theorem settles_sumPointer (fuel i : ℕ) (st : SumState) : Settles s (sumPointer fuel i st) := by
  refine (settles_readEepromInto _ _).bind fun _ => Settles.ite ?_ (settles_pure _)
  refine (settles_readEepromInto _ _).bind fun _ => Settles.ite ?_ (settles_pure _)
  exact (settles_sumSection _ _ _ _ _).bind fun _ => settles_pure _

theorem reads_sumPointer_endless {i : ℕ} (hs : 64 ≤ s.size) (hi : i < 64) (he : s.Endless i) (fuel : ℕ)
    (st : SumState) : Reads s (sumPointer fuel i st) none := by
  obtain ⟨hp,hp0,hlt,hl,hend⟩ := he
  have hl0 : s.word (s.word i).toNat ≠ 0#16 := by
    intro h
    have hlt := (s.word i).isLt
    rw [h] at hend
    simp only [BitVec.toNat_ofNat] at hend
    exact hp (BitVec.eq_of_toNat_eq (by simp only [BitVec.toNat_ofNat]; omega))
  have hlength := reads_readEepromInto (s := s) (s.word i) st.length
  rw [readInto_of_lt hlt] at hlength
  refine (header_readInto hs hi _).bind ?_
  rw [if_pos ⟨hp,hp0⟩]
  refine hlength.bind ?_
  rw [if_pos ⟨hl,hl0⟩]
  exact (reads_sumSection_endless hend _ _ _ _).bind (reads_pure _)

theorem reads_sumPointers_endless {i : ℕ} (hs : 64 ≤ s.size) (hi : i < 64) (he : s.Endless i) (fuel n k : ℕ)
    (st : SumState) (hk : k ≤ i) (hn : i < k+n) : Reads s (sumPointers fuel n k st) none := by
  induction n generalizing k st with
  | zero => omega
  | succ n ih =>
    by_cases hki : k = i
    · subst hki
      exact (reads_sumPointer_endless hs hi he fuel st).bind (reads_pure _)
    · obtain ⟨r,hr⟩ := settles_sumPointer (s := s) fuel k st
      refine hr.bind ?_
      cases r with
      | none => exact reads_pure _
      | some st' => exact ih (k+1) st' (by omega) (by omega)

theorem reads_calcChecksum_endless {i : ℕ} (hs : 64 ≤ s.size) (h3 : 3 ≤ i) (h15 : i < 15) (he : s.Endless i)
    (fuel : ℕ) : Reads s (ixmapCalcEepromChecksum fuel) none := by
  obtain ⟨r,hr⟩ := settles_sumWords (s := s) 0x3f 0 0#16 0#16
  refine hr.bind ?_
  exact (reads_sumPointers_endless hs (by omega) he fuel 12 3 _ h3 (by omega)).bind (reads_pure _)

end

theorem Nvm.Stores.size_bounds {τ : Type} {d : Nvm τ} {s : WordStore} (h : d.Stores s) : 64 ≤ s.size ∧ s.size ≤ 2^15 := by
  have hcode : d.sizeCode.toNat ≤ 9 := by
    have := h.sizeCode
    split at this <;> omega
  rw [h.size]
  exact ⟨Nat.pow_le_pow_right two_pos (by omega : 6 ≤ _),Nat.pow_le_pow_right two_pos (by omega)⟩

/-- The first read goes over the serial interface, the next ones through the read engine where they can; all
of them return what is stored, and refuse the offsets behind the end. -/
theorem readEeprom_list {τ : Type} {m : Device Reg (BitVec 32) τ} {d : Nvm τ} {s : WordStore} {hw : IxmapHw}
    (hd : d.Stores s) (hi : hw.eeprom.Agrees d) (offsets : List (BitVec 16)) : ∃ hw' d',
      run (nvm m) (offsets.mapM readEeprom hw) d = ((offsets.map fun o => s.read o.toNat,hw'),d') ∧
      d'.Stores s ∧ d.Unchanged d' := by
  have hreads : Reads s (offsets.mapM readEeprom) (offsets.map fun o => s.read o.toNat) := by
    induction offsets with
    | nil => exact reads_pure _
    | cons o offsets ih =>
      rw [List.mapM_cons]
      exact (reads_readEeprom o).bind (ih.bind (reads_pure _))
  obtain ⟨e,d',hrun,hd',-,hu⟩ := hreads τ m hw d hd hi
  exact ⟨_,d',hrun,hd',hu⟩

/-- A word is read before and behind the end of 64 words. -/
theorem readEeprom_list_small : ∃ hw' d',
    run (nvm memory) ([0x3f#16,0x40#16].mapM readEeprom kzallocHw) (Nvm.ofWords (BitVec.ofNat 16) fun _ => 0#32) =
      (([(0,[0x3f#16]),(errEeprom,[])],hw'),d') := by
  have hi : kzallocHw.eeprom.Agrees (Nvm.ofWords (BitVec.ofNat 16) fun _ : Reg => 0#32) := Or.inl rfl
  obtain ⟨hw',d',hrun,-⟩ := readEeprom_list (m := memory) (Nvm.stores_ofWords _ _) hi [0x3f#16,0x40#16]
  exact ⟨hw',d',hrun⟩

/-- An image whose sections lie inside of it is accepted when all its words and sections add up to `0xbaba`,
and the device is left as it was. -/
theorem validateChecksum_iff_sum {τ : Type} {m : Device Reg (BitVec 32) τ} {d : Nvm τ} {s : WordStore} {hw : IxmapHw} {fuel : ℕ} (hd : d.Stores s)
    (hi : hw.eeprom.Agrees d) (hc : s.Closed) (hfuel : 2^16 ≤ fuel) : ∃ status hw' d',
      run (nvm m) (ixmapValidateEepromChecksum fuel hw) d = ((some (status,some s.checksum),hw'),d') ∧
      (status = 0 ↔ s.sum 0 0x40+∑ i ∈ Finset.range 12, s.sectionSum (3+i) = 0xbaba#16) ∧ d.Unchanged d' := by
  obtain ⟨hs,hsize⟩ := hd.size_bounds
  obtain ⟨e,d',hrun,-,-,hu⟩ := reads_validateChecksum hc hs hsize hfuel τ m hw d hd hi
  refine ⟨_,_,d',hrun,?_,hu⟩
  have hsum : s.sum 0 0x40 = s.sum 0 0x3f+s.word 0x3f := by
    rw [WordStore.sum,Finset.sum_range_succ,WordStore.sum,Nat.zero_add]
  rw [hsum,WordStore.checksum,add_right_comm]
  generalize s.sum 0 0x3f+∑ i ∈ Finset.range 12, s.sectionSum (3+i) = x
  by_cases h : s.word 0x3f = 0xbaba#16-x
  · rw [if_neg (not_not.mpr h),h,add_sub_cancel]
    simp
  · rw [if_pos h]
    refine iff_of_false (by decide) fun hx => h ?_
    rw [← hx,add_sub_cancel_left]

def blankImage (i : ℕ) : BitVec 16 := if i = 0x3f then 0xbaba#16 else 0#16

theorem validateChecksum_blank : ∃ hw' d',
    run (nvm memory) (ixmapValidateEepromChecksum (2^16) kzallocHw) (Nvm.ofWords blankImage fun _ => 0#32) =
      ((some (0,some 0xbaba#16),hw'),d') := by
  have hi : kzallocHw.eeprom.Agrees (Nvm.ofWords blankImage fun _ : Reg => 0#32) := Or.inl rfl
  have hclosed : WordStore.Closed ⟨64,blankImage⟩ := by
    intro i _ h15 _ h0
    exact absurd (if_neg (by omega)) h0
  obtain ⟨status,hw',d',hrun,hstatus,-⟩ := validateChecksum_iff_sum (m := memory)
    (Nvm.stores_ofWords blankImage _) hi hclosed le_rfl
  rw [hstatus.mpr (by decide +kernel)] at hrun
  refine ⟨hw',d',hrun.trans ?_⟩
  have hsum : WordStore.checksum ⟨64,blankImage⟩ = 0xbaba#16 := by decide +kernel
  rw [hsum]

/-- One section that reaches behind the last offset is enough for the validation never to return. -/
theorem validateChecksum_endless {τ : Type} {m : Device Reg (BitVec 32) τ} {d : Nvm τ} {s : WordStore} {hw : IxmapHw} {i : ℕ} (hd : d.Stores s)
    (hi : hw.eeprom.Agrees d) (h3 : 3 ≤ i) (h15 : i < 15) (he : s.Endless i) (fuel : ℕ) :
    ∃ hw' d', run (nvm m) (ixmapValidateEepromChecksum fuel hw) d = ((none,hw'),d') := by
  have hs := hd.size_bounds.1
  have hfirst : Reads s (readEepromInto 0#16 0#16) (0,s.word 0) := header_readInto (i := 0) hs (by decide) _
  have hnone : Reads s (ixmapValidateEepromChecksum fuel) none := by
    refine hfirst.bind ?_
    rw [if_pos rfl]
    exact (reads_calcChecksum_endless hs h3 h15 he fuel).bind (reads_pure _)
  obtain ⟨e,d',hrun,-⟩ := hnone τ m hw d hd hi
  exact ⟨_,d',hrun⟩

/-- A section at word 16 that says it has `0xffef` words. -/
def endlessImage (i : ℕ) : BitVec 16 := if i = 3 then 0x10#16 else if i = 16 then 0xffef#16 else 0#16

theorem validateChecksum_endless_section : ∃ hw' d',
    run (nvm memory) (ixmapValidateEepromChecksum (2^20) kzallocHw) (Nvm.ofWords endlessImage fun _ => 0#32) =
      ((none,hw'),d') := by
  have hi : kzallocHw.eeprom.Agrees (Nvm.ofWords endlessImage fun _ : Reg => 0#32) := Or.inl rfl
  have he : WordStore.Endless ⟨64,endlessImage⟩ 3 := by decide
  exact validateChecksum_endless (m := memory) (Nvm.stores_ofWords endlessImage _) hi le_rfl (by decide) he _

theorem BufWrites.at_append (buf : BufWrites) (i k : ℕ) (b : BitVec 8) :
    BufWrites.at (buf++[(i,b)]) k = if i = k then some b else buf.at k := by
  rw [BufWrites.at,List.reverse_append,List.reverse_singleton,List.singleton_append,List.find?_cons]
  by_cases h : i = k <;> simp [h,BufWrites.at]

theorem BufWrites.at_of_mem {buf : BufWrites} {i : ℕ} (h : ∃ w ∈ buf, w.1 = i) :
    ∃ b, buf.at i = some b ∧ (i,b) ∈ buf := by
  obtain ⟨w,hw⟩ : ∃ w, buf.reverse.find? (·.1 = i) = some w := by
    rw [← Option.isSome_iff_exists,List.find?_isSome]
    obtain ⟨w,hw,hi⟩ := h
    exact ⟨w,List.mem_reverse.mpr hw,decide_eq_true hi⟩
  have hi : w.1 = i := by simpa using List.find?_some hw
  refine ⟨w.2,by rw [BufWrites.at,hw]; rfl,?_⟩
  rw [← hi]
  exact List.mem_reverse.mp (List.mem_of_find?_eq_some hw)

/-- The buffer holds a string that ends inside of it. -/
def BufWrites.Terminated (buf : BufWrites) (size : ℕ) : Prop :=
  ∃ n < size, buf.at n = some 0#8 ∧ ∀ i < n, ∃ b, buf.at i = some b

/-- No write goes behind the end, and a success leaves a terminated string. -/
def PbaSafe (size : ℕ) (r : ℤ × BufWrites) : Prop :=
  (∀ w ∈ r.2, w.1 < size) ∧ (r.1 = 0 → r.2.Terminated size)

theorem pbaSafe_error {size : ℕ} {status : ℤ} (h : status ≠ 0) : PbaSafe size (status,[]) :=
  ⟨fun _ hw => absurd hw List.not_mem_nil,fun h0 => absurd h0 h⟩

theorem legacyPba_index {data pbaPtr : BitVec 16} {w : ℕ × BitVec 8} (h : w ∈ legacyPba data pbaPtr) :
    w.1 < 11 ∧ (w.1 = 10 → w.2 = 0#8) := by
  rw [legacyPba,List.mem_append,List.mem_map,List.mem_flatMap] at h
  rcases h with ⟨⟨b,i⟩,hx,rfl⟩ | ⟨⟨b,i⟩,hx,hw⟩
  · rw [List.mk_mem_zipIdx_iff_getElem?] at hx
    refine ⟨(List.getElem?_eq_some_iff.mp hx).1,?_⟩
    rintro rfl
    exact (Option.some_inj.mp hx).symm
  · rw [List.mk_mem_zipIdx_iff_getElem?] at hx
    have hi : i < 10 := (List.getElem?_eq_some_iff.mp hx).1
    have hw1 : w.1 = i := by
      simp only [hexWrite] at hw
      split_ifs at hw with h1 h2
      · exact congrArg Prod.fst (List.mem_singleton.mp hw)
      · exact congrArg Prod.fst (List.mem_singleton.mp hw)
      · exact absurd hw List.not_mem_nil
    exact ⟨by omega,by omega⟩

theorem legacyPba_safe {size : ℕ} (h : 11 ≤ size) (data pbaPtr : BitVec 16) :
    PbaSafe size (0,legacyPba data pbaPtr) := by
  have hat : ∀ i < 11, ∃ b, (legacyPba data pbaPtr).at i = some b ∧ (i,b) ∈ legacyPba data pbaPtr := by
    intro i hi
    have hget : ((legacyDigits data pbaPtr).get ⟨i,hi⟩,i) ∈ (legacyDigits data pbaPtr).zipIdx :=
      List.mk_mem_zipIdx_iff_getElem?.mpr (List.getElem?_eq_getElem hi)
    exact BufWrites.at_of_mem ⟨_,List.mem_append_left _ (List.mem_map_of_mem hget),rfl⟩
  refine ⟨fun w hw => (legacyPba_index hw).1.trans_le h,fun _ => ⟨10,by omega,?_,?_⟩⟩
  · obtain ⟨b,hb,hmem⟩ := hat 10 (by decide)
    rw [hb]
    exact congrArg some ((legacyPba_index hmem).2 rfl)
  · intro i hi
    obtain ⟨b,hb,-⟩ := hat i (by omega)
    exact ⟨b,hb⟩

theorem always_copyPba {size : ℕ} (pbaPtr : BitVec 16) (left offset : ℕ) (buf : BufWrites)
    (hsize : (offset+left)*2 < size) (hidx : ∀ w ∈ buf, w.1 < offset*2)
    (hat : ∀ i < offset*2, ∃ b, buf.at i = some b) : AlwaysHw (PbaSafe size) (copyPba pbaPtr left offset buf) := by
  induction left generalizing offset buf with
  | zero =>
    refine alwaysHw_pure ⟨fun w hw => ?_,fun _ => ⟨offset*2,by omega,?_,fun i hi => ?_⟩⟩
    · rcases List.mem_append.mp hw with hw | hw
      · exact (hidx w hw).trans (by omega)
      · rw [List.mem_singleton.mp hw]
        show offset*2 < size
        omega
    · rw [BufWrites.at_append,if_pos rfl]
    · obtain ⟨b,hb⟩ := hat i hi
      exact ⟨b,by rw [BufWrites.at_append,if_neg (by omega),hb]⟩
  | succ left ih =>
    refine alwaysHw_bind fun r => AlwaysHw.ite (fun hst => alwaysHw_pure ?_) fun _ => ih (offset+1) _ (by omega) ?_ ?_
    · exact ⟨fun w hw => (hidx w hw).trans (by omega),fun h0 => absurd h0 hst⟩
    · intro w hw
      simp only [List.mem_append,List.mem_cons,List.not_mem_nil,or_false] at hw
      rcases hw with hw | rfl | rfl
      · exact (hidx w hw).trans (by omega)
      · show offset*2 < (offset+1)*2
        omega
      · show offset*2+1 < (offset+1)*2
        omega
    · intro i hi
      rw [List.append_cons,BufWrites.at_append,BufWrites.at_append]
      split_ifs with h1 h0
      · exact ⟨_,rfl⟩
      · exact ⟨_,rfl⟩
      · exact hat i (by omega)

theorem always_readPbaString (size : ℕ) : AlwaysHw (PbaSafe size) (ixmapReadPbaString size) := by
  refine alwaysHw_bind fun data => AlwaysHw.ite (fun h => alwaysHw_pure (pbaSafe_error h)) fun _ => ?_
  refine alwaysHw_bind fun pbaPtr => AlwaysHw.ite (fun h => alwaysHw_pure (pbaSafe_error h)) fun _ => ?_
  refine AlwaysHw.ite (fun _ => AlwaysHw.ite (fun _ => ?_) fun h => ?_) fun _ => ?_
  · exact alwaysHw_pure (pbaSafe_error (by decide))
  · exact alwaysHw_pure (legacyPba_safe (not_lt.mp h) _ _)
  refine alwaysHw_bind fun length => AlwaysHw.ite (fun h => alwaysHw_pure (pbaSafe_error h)) fun _ => ?_
  refine AlwaysHw.ite (fun _ => alwaysHw_pure (pbaSafe_error (by decide))) fun hlen => ?_
  refine AlwaysHw.ite (fun _ => alwaysHw_pure (pbaSafe_error (by decide))) fun hsize => ?_
  have hpos : length.2.toNat ≠ 0 := fun h => hlen (Or.inr (BitVec.eq_of_toNat_eq h))
  refine always_copyPba _ _ 0 [] (by omega) (fun _ hw => absurd hw List.not_mem_nil) fun i hi => ?_
  omega

/-- Whatever the device answers, the part number is written inside of the caller's buffer, and a success leaves
a string that ends there. -/
theorem readPbaString_inside {σ : Type} (dev : Device Reg (BitVec 32) σ) (st : σ) (hw : IxmapHw) (size : ℕ) :
    PbaSafe size (run dev (ixmapReadPbaString size hw) st).1.1 := (always_readPbaString size hw).run dev st

section
variable {g : Own}

theorem keepsHw_sumWords (hg : Settled g) (n i : ℕ) (c w : BitVec 16) : KeepsHw (sumWords n i c w) g := by
  induction n generalizing i c w with
  | zero => exact keepsHw_pure _
  | succ n ih => exact (keepsHw_readEepromInto hg _ _).bind fun _ => KeepsHw.ite (keepsHw_pure _) (ih _ _ _)

theorem keepsHw_sumSection (hg : Settled g) (last fuel : ℕ) (j c w : BitVec 16) :
    KeepsHw (sumSection last fuel j c w) g := by
  induction fuel generalizing j c w with
  | zero => exact keepsHw_pure _
  | succ fuel ih =>
    exact KeepsHw.ite (keepsHw_pure _) ((keepsHw_readEepromInto hg _ _).bind fun _ => ih _ _ _)

theorem keepsHw_sumPointer (hg : Settled g) (fuel i : ℕ) (st : SumState) : KeepsHw (sumPointer fuel i st) g := by
  refine (keepsHw_readEepromInto hg _ _).bind fun _ => KeepsHw.ite ?_ (keepsHw_pure _)
  refine (keepsHw_readEepromInto hg _ _).bind fun _ => KeepsHw.ite ?_ (keepsHw_pure _)
  exact (keepsHw_sumSection hg _ _ _ _ _).bind fun _ => keepsHw_pure _

theorem keepsHw_sumPointers (hg : Settled g) (fuel n i : ℕ) (st : SumState) :
    KeepsHw (sumPointers fuel n i st) g := by
  induction n generalizing i st with
  | zero => exact keepsHw_pure _
  | succ n ih =>
    refine (keepsHw_sumPointer hg fuel i st).bind fun r => ?_
    cases r with
    | none => exact keepsHw_pure _
    | some st => exact ih _ _

theorem keepsHw_validateChecksum (hg : Settled g) (fuel : ℕ) : KeepsHw (ixmapValidateEepromChecksum fuel) g := by
  refine (keepsHw_readEepromInto hg _ _).bind fun _ => KeepsHw.ite ?_ (keepsHw_pure _)
  have hcalc : KeepsHw (ixmapCalcEepromChecksum fuel) g :=
    (keepsHw_sumWords hg _ _ _ _).bind fun _ => (keepsHw_sumPointers hg _ _ _ _).bind fun _ => keepsHw_pure _
  refine hcalc.bind fun r => ?_
  cases r with
  | none => exact keepsHw_pure _
  | some checksum => exact (keepsHw_readEepromInto hg _ _).bind fun _ => keepsHw_pure _

theorem keepsHw_copyPba (hg : Settled g) (pbaPtr : BitVec 16) (n offset : ℕ) (buf : BufWrites) :
    KeepsHw (copyPba pbaPtr n offset buf) g := by
  induction n generalizing offset buf with
  | zero => exact keepsHw_pure _
  | succ n ih => exact (keepsHw_readEepromInto hg _ _).bind fun _ => KeepsHw.ite (keepsHw_pure _) (ih _ _)

theorem keepsHw_readPbaString (hg : Settled g) (size : ℕ) : KeepsHw (ixmapReadPbaString size) g := by
  refine (keepsHw_readEepromInto hg _ _).bind fun _ => KeepsHw.ite (keepsHw_pure _) ?_
  refine (keepsHw_readEepromInto hg _ _).bind fun _ => KeepsHw.ite (keepsHw_pure _) (KeepsHw.ite ?_ ?_)
  · exact KeepsHw.ite (keepsHw_pure _) (keepsHw_pure _)
  refine (keepsHw_readEepromInto hg _ _).bind fun _ => KeepsHw.ite (keepsHw_pure _) ?_
  refine KeepsHw.ite (keepsHw_pure _) (KeepsHw.ite (keepsHw_pure _) ?_)
  exact keepsHw_copyPba hg _ _ _ _

end

end Hw
end Ixmap
