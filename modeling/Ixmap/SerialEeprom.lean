import Ixmap.Eeprom

/-! The device behind the EEPROM accesses: a serial EEPROM at the pins of EEC, a read engine behind EERD, and
the semaphore registers. What the driver shifts out reaches the EEPROM bit by bit, and the words that it
shifts in are the stored ones. -/
namespace Ixmap
namespace Hw
open RegProgram

/-- The number that a list of bits denotes, the most significant first. -/
def msbValue : List Bool → ℕ
  | [] => 0
  | b::bs => b.toNat*2^bs.length+msbValue bs

/-- The bits of a value, the most significant of `n` first. -/
def msbBits {w : ℕ} (v : BitVec w) : ℕ → List Bool
  | 0 => []
  | n+1 => v.getLsbD n::msbBits v n

@[simp] theorem length_msbBits {w : ℕ} (v : BitVec w) (n : ℕ) : (msbBits v n).length = n := by
  induction n with
  | zero => rfl
  | succ n ih => rw [msbBits,List.length_cons,ih]

theorem msbValue_msbBits {w : ℕ} (v : BitVec w) (n : ℕ) : msbValue (msbBits v n) = v.toNat%2^n := by
  induction n with
  | zero => simp [msbBits,msbValue,Nat.mod_one]
  | succ n ih =>
    rw [msbBits,msbValue,ih,length_msbBits,Nat.mod_pow_succ,← BitVec.testBit_toNat,Nat.toNat_testBit]
    ring

structure Chip where
  bytes : ℕ → BitVec 8
  /-- Addresses have 16 bits, not 8. -/
  large : Bool
  /-- Status reads that still find the chip busy. -/
  busy : ℕ
  /-- Clock, chip select (active low) and data in, and the data line that the chip drives. -/
  sk : Bool
  cs : Bool
  di : Bool
  out : Bool
  /-- The bits clocked in since the chip was selected. -/
  received : List Bool

namespace Chip

def addressBits (c : Chip) : ℕ := if c.large then 16 else 8

def word (c : Chip) (n : ℕ) : BitVec 16 := c.bytes (2*n+1) ++ c.bytes (2*n)

/-- The bit that the chip drives: behind `RDSR` of its status, behind `READ` and an address of the byte there
and those that follow. Small chips have two `READ` commands, one for each half. -/
def serialOut (c : Chip) (received : List Bool) : Bool :=
  let opcode := msbValue (received.take 8)
  let address := msbValue ((received.drop 8).take c.addressBits)
  let k := received.length-8-c.addressBits
  if opcode = 0x05 then decide ((received.length-8)%8 = 7 ∧ c.busy ≠ 0)
  else if opcode = 0x03 then (c.bytes (address+k/8)).getLsbD (7-k%8)
  else if opcode = 0x0b ∧ c.large = false then (c.bytes (256+address+k/8)).getLsbD (7-k%8)
  else false

/-- New levels of the pins: the chip is reset while it is not selected, takes a bit when the clock rises and
drives the next one when it falls. -/
def pins (c : Chip) (sk cs di : Bool) : Chip :=
  let c' := { c with sk, cs, di }
  if cs then { c' with received := [], out := false, busy := if c.cs then c.busy else c.busy-1 }
  else if c.sk = false ∧ sk = true then { c' with received := c.received++[di] }
  else if c.sk = true ∧ sk = false then { c' with out := c.serialOut c.received }
  else c'

def shift (c : Chip) (bits : List Bool) : Chip :=
  { c with sk := false, cs := false, di := false, received := c.received++bits,
           out := c.serialOut (c.received++bits) }

theorem shift_shift (c : Chip) (bits bits' : List Bool) : (c.shift bits).shift bits' = c.shift (bits++bits') := by
  simp only [shift,← List.append_assoc]
  rfl

/-- What the chip drives depends on its contents only. -/
theorem serialOut_shift (c : Chip) (bits : List Bool) : (c.shift bits).serialOut = c.serialOut := rfl

/-- The lines of the driver are low, so the chip is selected. -/
structure Low (c : Chip) : Prop where
  sk : c.sk = false
  cs : c.cs = false
  di : c.di = false

/-- The chip at another point of its dialogue with the driver. -/
def amid (c : Chip) (busy : ℕ) (received : List Bool) (out : Bool) : Chip := { c with busy, received, out }

theorem Low.amid {c : Chip} (h : Low c) (busy : ℕ) (received : List Bool) (out : Bool) :
    Low (c.amid busy received out) := ⟨h.sk,h.cs,h.di⟩

theorem Low.shift {c : Chip} (h : Low c) (bits : List Bool) :
    c.shift bits = c.amid c.busy (c.received++bits) (c.serialOut (c.received++bits)) := by
  simp only [Chip.shift,Chip.amid,h.sk,h.cs,h.di]

def clockBit (c : Chip) (b : Bool) : Chip := { c.shift [b] with di := b }

theorem pins_rise {c : Chip} (h : c.sk = false) (b : Bool) :
    c.pins true false b = { c with sk := true, cs := false, di := b, received := c.received++[b] } := by
  simp [pins,h]

theorem pins_fall {c : Chip} (h : c.sk = true) (b : Bool) :
    c.pins false false b = { c with sk := false, cs := false, di := b, out := c.serialOut c.received } := by
  simp [pins,h]

theorem pins_level {c : Chip} (h : c.sk = false) (b : Bool) :
    c.pins false false b = { c with sk := false, cs := false, di := b } := by
  simp [pins,h]

theorem pins_cycle {c : Chip} (h : c.sk = false) (b : Bool) :
    (c.pins true false b).pins false false b = c.clockBit b := by
  rw [pins_rise h,pins_fall rfl]
  rfl

theorem clockBits_eq (c : Chip) (b : Bool) (bits : List Bool) :
    ∃ x, (b::bits).foldl clockBit c = { c.shift (b::bits) with di := x } := by
  induction bits generalizing c b with
  | nil => exact ⟨b,rfl⟩
  | cons x bits ih =>
    obtain ⟨y,hy⟩ := ih (clockBit c b) x
    refine ⟨y,?_⟩
    rw [List.foldl_cons,hy]
    simp only [shift,clockBit,List.append_assoc,List.singleton_append]
    rfl

theorem serialOut_status (c : Chip) :
    c.serialOut (msbBits 0x05#16 8++List.replicate 7 false) = decide (c.busy ≠ 0) := by
  have hopcode : msbValue ((msbBits 0x05#16 8++List.replicate 7 false).take 8) = 0x05 := by decide
  have hlength : (msbBits 0x05#16 8++List.replicate 7 false).length = 15 := by decide
  simp only [serialOut,hopcode,hlength,if_true]
  simp

theorem serialOut_read (c : Chip) (opcode address : BitVec 16) (k : ℕ)
    (h : opcode = 0x03#16 ∨ opcode = 0x0b#16 ∧ c.large = false) :
    c.serialOut (msbBits opcode 8++msbBits address c.addressBits++List.replicate k false) =
      (c.bytes (256*(opcode.toNat/8)+address.toNat%2^c.addressBits+k/8)).getLsbD (7-k%8) := by
  have hopcode : msbValue ((msbBits opcode 8++(msbBits address c.addressBits++List.replicate k false)).take 8) =
      opcode.toNat%2^8 := by
    rw [List.take_left' (length_msbBits _ _),msbValue_msbBits]
  have haddress : msbValue (((msbBits opcode 8++(msbBits address c.addressBits++List.replicate k false)).drop 8).take
      c.addressBits) = address.toNat%2^c.addressBits := by
    rw [List.drop_left' (length_msbBits _ _),List.take_left' (length_msbBits _ _),msbValue_msbBits]
  have hlength : (msbBits opcode 8++(msbBits address c.addressBits++List.replicate k false)).length-8-
      c.addressBits = k := by
    simp only [List.length_append,length_msbBits,List.length_replicate]
    omega
  rw [List.append_assoc]
  simp only [serialOut,hopcode,haddress,hlength]
  rcases h with rfl | ⟨rfl,hl⟩
  · simp
  · simp [hl]

/-- The two bytes come high bits first, the low byte before the high one. -/
theorem word_of_bits {c : Chip} {w : ℕ} {v : BitVec 16}
    (h : ∀ j < 16, v.getLsbD j = (c.bytes (2*w+(15-j)/8)).getLsbD (7-(15-j)%8)) :
    v >>> 8 ||| v <<< 8 = c.word w := by
  apply BitVec.eq_of_getLsbD_eq
  intro j hj
  rw [BitVec.getLsbD_or,BitVec.getLsbD_ushiftRight,BitVec.getLsbD_shiftLeft,word,BitVec.getLsbD_append]
  by_cases hlt : j < 8
  · rw [h (8+j) (by omega),show (15-(8+j))/8 = 0 by omega,show 7-(15-(8+j))%8 = j by omega]
    simp [hlt]
  · rw [BitVec.getLsbD_of_ge v (8+j) (by omega),h (j-8) (by omega),show (15-(j-8))/8 = 1 by omega,
      show 7-(15-(j-8))%8 = j-8 by omega]
    simp [hlt,hj]

end Chip

/-- The device as one driver sees it while the others are idle, around the part with all other registers. -/
structure Nvm (τ : Type) where
  inner : τ
  status : BitVec 32
  swsm : BitVec 32
  gssr : BitVec 32
  chip : Chip
  /-- The field of EEC that tells the size of the EEPROM. -/
  sizeCode : BitVec 4
  req : Bool
  granted : Bool
  /-- Reads of EEC from a request to the grant, and those still to come. -/
  grantWait : ℕ
  grantLeft : ℕ
  /-- The word that EERD has been asked for, and the reads of EERD until it is there. -/
  eerdAddr : ℕ
  eerdWait : ℕ
  eerdLeft : ℕ

namespace Nvm
variable {τ : Type} {m : Device Reg (BitVec 32) τ}

def flag (b : Bool) (n : ℕ) : BitVec 32 := (BitVec.ofBool b).setWidth 32 <<< n

def eecValue (d : Nvm τ) : BitVec 32 :=
  flag d.chip.sk 0 ||| flag d.chip.cs 1 ||| flag d.chip.di 2 ||| flag d.chip.out 3 ||| flag d.req 6 |||
    flag d.granted 7 ||| flag true 8 ||| flag d.chip.large 10 ||| d.sizeCode.setWidth 32 <<< 11

/-- A pending request is granted after a number of reads. -/
def pollEec (d : Nvm τ) : Nvm τ :=
  if d.req ∧ d.granted = false then
    if d.grantLeft = 0 then { d with granted := true } else { d with grantLeft := d.grantLeft-1 }
  else d

/-- The pins reach the chip while access is granted; a new request waits, and without one the grant goes. -/
def writeEec (d : Nvm τ) (v : BitVec 32) : Nvm τ :=
  { d with
    chip := if d.granted then d.chip.pins (v.getLsbD 0) (v.getLsbD 1) (v.getLsbD 2) else d.chip
    req := v.getLsbD 6
    granted := d.granted && v.getLsbD 6
    grantLeft := if v.getLsbD 6 && !d.req then d.grantWait else d.grantLeft }

def readEerd (d : Nvm τ) : BitVec 32 × Nvm τ :=
  if d.eerdLeft = 0 then ((d.chip.word d.eerdAddr).setWidth 32 <<< 16 ||| 0x2#32,d)
  else (0#32,{ d with eerdLeft := d.eerdLeft-1 })

def writeEerd (d : Nvm τ) (v : BitVec 32) : Nvm τ :=
  if v.getLsbD 0 then { d with eerdAddr := (v >>> 2).toNat%2^14, eerdLeft := d.eerdWait } else d

def read (m : Device Reg (BitVec 32) τ) (d : Nvm τ) (r : Reg) : BitVec 32 × Nvm τ :=
  if r = swsmReg then (d.swsm,{ d with swsm := d.swsm ||| swsmSmbi })
  else if r = gssrReg then (d.gssr,d)
  else if r = eecReg then (d.pollEec.eecValue,d.pollEec)
  else if r = eerdReg then d.readEerd
  else if r = statusReg then (d.status,d)
  else ((m.read d.inner r).1,{ d with inner := (m.read d.inner r).2 })

def write (m : Device Reg (BitVec 32) τ) (d : Nvm τ) (r : Reg) (v : BitVec 32) : Nvm τ :=
  if r = swsmReg then { d with swsm := v }
  else if r = gssrReg then { d with gssr := v }
  else if r = eecReg then d.writeEec v
  else if r = eerdReg then d.writeEerd v
  else { d with inner := m.write d.inner r v }

end Nvm

def nvm {τ : Type} (m : Device Reg (BitVec 32) τ) : Device Reg (BitVec 32) (Nvm τ) := ⟨Nvm.read m,Nvm.write m⟩

namespace Nvm
variable {τ : Type} {m : Device Reg (BitVec 32) τ}

theorem read_swsm (d : Nvm τ) : (nvm m).read d swsmReg = (d.swsm,{ d with swsm := d.swsm ||| swsmSmbi }) := rfl
theorem read_gssr (d : Nvm τ) : (nvm m).read d gssrReg = (d.gssr,d) := rfl
theorem read_eec (d : Nvm τ) : (nvm m).read d eecReg = (d.pollEec.eecValue,d.pollEec) := rfl
theorem read_eerd (d : Nvm τ) : (nvm m).read d eerdReg = d.readEerd := rfl
theorem write_swsm (d : Nvm τ) (v : BitVec 32) : (nvm m).write d swsmReg v = { d with swsm := v } := rfl
theorem write_gssr (d : Nvm τ) (v : BitVec 32) : (nvm m).write d gssrReg v = { d with gssr := v } := rfl
theorem write_eec (d : Nvm τ) (v : BitVec 32) : (nvm m).write d eecReg v = d.writeEec v := rfl
theorem write_eerd (d : Nvm τ) (v : BitVec 32) : (nvm m).write d eerdReg v = d.writeEerd v := rfl
theorem run_flush (d : Nvm τ) : run (nvm m) writeFlush d = ((),d) := rfl

theorem getLsbD_flag (b : Bool) (n i : ℕ) : (flag b n).getLsbD i = (decide (i < 32) && decide (i = n) && b) := by
  rw [flag,BitVec.getLsbD_shiftLeft,BitVec.getLsbD_setWidth,BitVec.getLsbD_ofBool,Bool.eq_iff_iff]
  simp only [Bool.and_eq_true,decide_eq_true_eq,Bool.not_eq_true',decide_eq_false_iff_not]
  constructor
  · rintro ⟨⟨hi,hn⟩,-,h,hb⟩
    exact ⟨⟨hi,by omega⟩,hb⟩
  · rintro ⟨⟨hi,rfl⟩,hb⟩
    exact ⟨⟨hi,by omega⟩,by omega,by omega,hb⟩

theorem eecValue_bits (d : Nvm τ) : d.eecValue.getLsbD 0 = d.chip.sk ∧ d.eecValue.getLsbD 1 = d.chip.cs ∧
    d.eecValue.getLsbD 2 = d.chip.di ∧ d.eecValue.getLsbD 3 = d.chip.out ∧ d.eecValue.getLsbD 6 = d.req ∧
    d.eecValue.getLsbD 7 = d.granted ∧ d.eecValue.getLsbD 8 = true ∧ d.eecValue.getLsbD 10 = d.chip.large := by
  simp only [eecValue,BitVec.getLsbD_or,getLsbD_flag,BitVec.getLsbD_shiftLeft]
  simp

/-- The driver has asked for the EEPROM and has it. -/
structure Granted (d : Nvm τ) : Prop where
  req : d.req = true
  granted : d.granted = true

def setChip (d : Nvm τ) (c : Chip) : Nvm τ := { d with chip := c }

theorem Granted.setChip {d : Nvm τ} (h : Granted d) (c : Chip) : Granted (d.setChip c) := ⟨h.req,h.granted⟩

theorem Granted.pollEec {d : Nvm τ} (h : Granted d) : d.pollEec = d := by
  simp [Nvm.pollEec,h.granted]

theorem Granted.writeEec {d : Nvm τ} (h : Granted d) {v : BitVec 32} (hv : v.getLsbD 6 = true) :
    d.writeEec v = d.setChip (d.chip.pins (v.getLsbD 0) (v.getLsbD 1) (v.getLsbD 2)) := by
  have hreq := h.req
  have hgranted := h.granted
  simp only [Nvm.writeEec,Nvm.setChip,hv,hreq,hgranted,if_true,Bool.and_true,Bool.not_true,Bool.and_false,
    Bool.false_eq_true,if_false]

/-- A value of EEC for the selected chip with the clock low. -/
structure Selects (v : BitVec 32) : Prop where
  sk : v.getLsbD 0 = false
  cs : v.getLsbD 1 = false
  req : v.getLsbD 6 = true

theorem Selects.or_di {v : BitVec 32} (h : Selects v) : Selects (v ||| eecDi) :=
  ⟨by simpa [eecDi] using h.sk,by simpa [eecDi] using h.cs,by simpa [eecDi] using h.req⟩

theorem Selects.and_not_di {v : BitVec 32} (h : Selects v) : Selects (v &&& ~~~eecDi) :=
  ⟨by simpa [eecDi] using h.sk,by simpa [eecDi] using h.cs,by simpa [eecDi] using h.req⟩

theorem selects_lowered {v : BitVec 32} (hcs : v.getLsbD 1 = false) (hreq : v.getLsbD 6 = true) :
    Selects (v &&& ~~~eecSk) :=
  ⟨by simp [eecSk],by simpa [eecSk] using hcs,by simpa [eecSk] using hreq⟩

theorem run_raiseClk {d : Nvm τ} (h : Granted d) {v : BitVec 32} (hv : Selects v) :
    run (nvm m) (ixmapRaiseEepromClk v) d = (v ||| eecSk,d.setChip (d.chip.pins true false (v.getLsbD 2))) := by
  have hreq : (v ||| eecSk).getLsbD 6 = true := by simpa [eecSk] using hv.req
  have hcs : (v ||| eecSk).getLsbD 1 = false := by simpa [eecSk] using hv.cs
  simp only [ixmapRaiseEepromClk,run_bind,run_writeReg,run_flush,run_pure,write_eec,h.writeEec hreq,hcs]
  simp [eecSk]

theorem run_lowerClk {d : Nvm τ} (h : Granted d) {v : BitVec 32} (hcs : v.getLsbD 1 = false)
    (hreq : v.getLsbD 6 = true) : run (nvm m) (ixmapLowerEepromClk v) d =
      (v &&& ~~~eecSk,d.setChip (d.chip.pins false false (v.getLsbD 2))) := by
  have hv := selects_lowered hcs hreq
  simp only [ixmapLowerEepromClk,run_bind,run_writeReg,run_flush,run_pure,write_eec,h.writeEec hv.req,hv.sk,hv.cs]
  simp [eecSk]

theorem Selects.raised {v : BitVec 32} (h : Selects v) : (v ||| eecSk).getLsbD 1 = false ∧
    (v ||| eecSk).getLsbD 2 = v.getLsbD 2 ∧ (v ||| eecSk).getLsbD 6 = true :=
  ⟨by simpa [eecSk] using h.cs,by simp [eecSk],by simpa [eecSk] using h.req⟩

theorem Selects.data {eec : BitVec 32} (h : Selects eec) (data : BitVec 16) {n : ℕ} (hn : n < 16) :
    ∃ v, (if data.setWidth 32 &&& BitVec.twoPow 32 n ≠ 0#32 then eec ||| eecDi else eec &&& ~~~eecDi) = v ∧
      Selects v ∧ v.getLsbD 2 = data.getLsbD n := by
  have hbit : data.setWidth 32 &&& BitVec.twoPow 32 n = 0#32 ↔ data.getLsbD n = false := by
    rw [and_twoPow_eq_zero _ (by omega),BitVec.getLsbD_setWidth,decide_eq_true (by omega : n < 32),Bool.true_and]
  refine ⟨_,rfl,?_⟩
  cases hb : data.getLsbD n with
  | true =>
    rw [if_pos (by rw [ne_eq,hbit,hb]; exact Bool.noConfusion)]
    exact ⟨h.or_di,by simp [eecDi]⟩
  | false =>
    rw [if_neg (not_not.mpr (hbit.mpr hb))]
    exact ⟨h.and_not_di,by simp [eecDi]⟩

theorem run_shiftOutLoop (data : BitVec 16) (n : ℕ) (eec mask : BitVec 32) (d : Nvm τ) (hd : Granted d)
    (hsk : d.chip.sk = false) (he : Selects eec) (hn : n ≤ 16) (hm : ∀ k, n = k+1 → mask = BitVec.twoPow 32 k) :
    (run (nvm m) (shiftOutLoop data n eec mask) d).2 = d.setChip ((msbBits data n).foldl Chip.clockBit d.chip) ∧
      Selects (run (nvm m) (shiftOutLoop data n eec mask) d).1 := by
  induction n generalizing eec mask d with
  | zero => exact ⟨rfl,he⟩
  | succ n ih =>
    obtain rfl := hm n rfl
    obtain ⟨v,hv,hsel,hbit⟩ := he.data data hn
    obtain ⟨h1,h2,h6⟩ := hsel.raised
    have hstep : run (nvm m) (shiftOutLoop data (n+1) eec (BitVec.twoPow 32 n)) d =
        run (nvm m) (shiftOutLoop data n ((v ||| eecSk) &&& ~~~eecSk) (BitVec.twoPow 32 n >>> 1))
          (d.setChip (d.chip.clockBit (data.getLsbD n))) := by
      rw [shiftOutLoop]
      simp only [hv,run_bind,run_writeReg,run_flush,write_eec,hd.writeEec hsel.req,hsel.sk,hsel.cs,
        Chip.pins_level hsk]
      rw [run_raiseClk (hd.setChip _) hsel,run_lowerClk ((hd.setChip _).setChip _) h1 h6,h2,hbit]
      simp only [setChip]
      rw [Chip.pins_cycle rfl]
      rfl
    rw [hstep,msbBits,List.foldl_cons]
    refine ih _ _ _ (hd.setChip _) rfl (selects_lowered h1 h6) (by omega) ?_
    rintro k rfl
    apply BitVec.eq_of_getLsbD_eq
    intro i hi
    rw [BitVec.getLsbD_ushiftRight,BitVec.getLsbD_twoPow,BitVec.getLsbD_twoPow,Bool.eq_iff_iff]
    simp only [Bool.and_eq_true,decide_eq_true_eq]
    omega

structure Ready (d : Nvm τ) : Prop extends Granted d where
  low : d.chip.Low

theorem Ready.selects {d : Nvm τ} (h : Ready d) : Selects d.eecValue := by
  obtain ⟨h0,h1,-,-,h6,-⟩ := d.eecValue_bits
  exact ⟨h0.trans h.low.sk,h1.trans h.low.cs,h6.trans h.req⟩

theorem Ready.setChip {d : Nvm τ} (h : Ready d) {c : Chip} (hc : c.Low) : Ready (d.setChip c) :=
  ⟨h.toGranted.setChip c,hc⟩

theorem run_shiftOut {d : Nvm τ} (hd : Ready d) (data : BitVec 16) {n : ℕ} (hn : n+1 ≤ 16) :
    run (nvm m) (ixmapShiftOutEepromBits data (n+1)) d = ((),d.setChip (d.chip.shift (msbBits data (n+1)))) := by
  obtain ⟨hrun,he⟩ := run_shiftOutLoop (m := m) data (n+1) d.eecValue (1#32 <<< n) d hd.toGranted hd.low.sk hd.selects hn
    (fun k hk => congrArg (1#32 <<< ·) (Nat.succ_inj.mp hk))
  obtain ⟨x,hx⟩ := d.chip.clockBits_eq (data.getLsbD n) (msbBits data n)
  rw [← msbBits] at hx
  rw [ixmapShiftOutEepromBits]
  simp only [run_bind,run_readReg,run_writeReg,run_flush,read_eec,write_eec,hd.pollEec,Nat.add_sub_cancel,hrun,hx]
  generalize (run (nvm m) (shiftOutLoop data (n+1) d.eecValue (1#32 <<< n)) d).1 = eec at he
  have hlow : (eec &&& ~~~eecDi).getLsbD 2 = false := by simp [eecDi]
  rw [(hd.toGranted.setChip _).writeEec he.and_not_di.req,he.and_not_di.sk,he.and_not_di.cs,hlow,
    Chip.pins_level rfl]
  rfl

theorem getLsbD_pushBit (data : BitVec 16) (b : Bool) {j : ℕ} (hj : j < 16) :
    (if b then data <<< 1 ||| 1#16 else data <<< 1).getLsbD j = if j = 0 then b else data.getLsbD (j-1) := by
  have h1 : (data <<< 1).getLsbD j = (!decide (j < 1) && data.getLsbD (j-1)) := by
    rw [BitVec.getLsbD_shiftLeft,decide_eq_true hj,Bool.true_and]
  cases b with
  | true =>
    rw [if_pos rfl,BitVec.getLsbD_or,h1,BitVec.getLsbD_one]
    by_cases h : j = 0 <;> simp [h]
  | false =>
    rw [if_neg Bool.false_ne_true,h1]
    by_cases h : j = 0 <;> simp [h]

/-- Shifting in reads what the EEPROM drives while zeros are clocked into it. -/
theorem run_shiftInLoop (n : ℕ) (eec : BitVec 32) (data : BitVec 16) (d : Nvm τ) (c : Chip) (hd : Granted d)
    (hc : d.chip = c.shift []) (he : Selects eec) (hdi : eec.getLsbD 2 = false) :
    (run (nvm m) (shiftInLoop n eec data) d).2 = d.setChip (c.shift (List.replicate n false)) ∧
      ∀ j < 16, (run (nvm m) (shiftInLoop n eec data) d).1.getLsbD j =
        if j < n then c.serialOut (c.received++List.replicate (n-1-j) false) else data.getLsbD (j-n) := by
  induction n generalizing eec data d c with
  | zero =>
    refine ⟨?_,fun j _ => rfl⟩
    rw [List.replicate_zero,← hc]
    rfl
  | succ n ih =>
    obtain ⟨h1,h2,h6⟩ := he.raised
    have hsk : d.chip.sk = false := by rw [hc]; rfl
    obtain ⟨d',hd'⟩ : ∃ d', d' = d.setChip (d.chip.pins true false false) := ⟨_,rfl⟩
    have hg : Granted d' := hd' ▸ hd.setChip _
    -- between the edges of the clock the driver reads the bit
    obtain ⟨e0,e1,e2,e3,e6,-⟩ := d'.eecValue_bits
    have hout : d'.chip.out = c.serialOut c.received := by
      rw [hd',setChip,Chip.pins_rise hsk,hc]
      simp [Chip.shift]
    have hlow : (d'.eecValue &&& ~~~eecDi).getLsbD 1 = false := by
      rw [BitVec.getLsbD_and,e1,hd',setChip,Chip.pins_rise hsk,Bool.false_and]
    have hreq : (d'.eecValue &&& ~~~eecDi).getLsbD 6 = true := by
      rw [BitVec.getLsbD_and,e6,hg.req]
      simp [eecDi]
    have hbit : (d'.eecValue &&& ~~~eecDi) &&& eecDo = 0#32 ↔ c.serialOut c.received = false := by
      rw [← hout,← e3]
      refine (and_twoPow_eq_zero _ (n := 3) (by decide)).trans ?_
      simp [eecDi]
    have hfall : d'.setChip (d'.chip.pins false false false) = d.setChip (c.shift [false]) := by
      rw [hd']
      simp only [setChip]
      rw [Chip.pins_cycle hsk,hc,Chip.clockBit,Chip.shift_shift,List.nil_append]
      rfl
    have hstep : run (nvm m) (shiftInLoop (n+1) eec data) d = run (nvm m) (shiftInLoop n
        ((d'.eecValue &&& ~~~eecDi) &&& ~~~eecSk)
        (if c.serialOut c.received then data <<< 1 ||| 1#16 else data <<< 1)) (d.setChip (c.shift [false])) := by
      rw [shiftInLoop]
      simp only [run_bind,run_readReg,read_eec,run_raiseClk hd he,hdi,← hd',hg.pollEec,run_lowerClk hg hlow hreq]
      have hdi' : (d'.eecValue &&& ~~~eecDi).getLsbD 2 = false := by simp [eecDi]
      rw [hdi',hfall]
      cases hb : c.serialOut c.received with
      | true => rw [if_pos (by rw [ne_eq,hbit,hb]; exact Bool.noConfusion),if_pos rfl]
      | false => rw [if_neg (not_not.mpr (hbit.mpr hb)),if_neg Bool.false_ne_true]
    have hdi' : (d'.eecValue &&& ~~~eecDi &&& ~~~eecSk).getLsbD 2 = false := by simp [eecDi]
    obtain ⟨hstate,hval⟩ := ih (d'.eecValue &&& ~~~eecDi &&& ~~~eecSk)
      (if c.serialOut c.received then data <<< 1 ||| 1#16 else data <<< 1) (d.setChip (c.shift [false]))
      (c.shift [false]) (hd.setChip _) (c.shift_shift [false] []).symm (selects_lowered hlow hreq) hdi'
    rw [hstep]
    refine ⟨?_,fun j hj => ?_⟩
    · rw [hstate,Chip.shift_shift]
      rfl
    · rw [hval j hj,Chip.serialOut_shift]
      rcases lt_trichotomy j n with h | rfl | h
      · obtain ⟨k,hk⟩ : ∃ k, n-j = k+1 := ⟨n-j-1,by omega⟩
        rw [if_pos h,if_pos (by omega),show n-1-j = k by omega,show n+1-1-j = k+1 by omega]
        simp [Chip.shift,List.replicate_succ]
      · rw [if_neg (lt_irrefl j),if_pos (Nat.lt_succ_self j)]
        rw [getLsbD_pushBit _ _ (by omega),Nat.sub_self,if_pos rfl]
        simp
      · rw [if_neg (show ¬j < n by omega),if_neg (show ¬j < n+1 by omega),getLsbD_pushBit _ _ (by omega),
          if_neg (by omega),Nat.sub_sub]

theorem run_shiftIn {d : Nvm τ} {c : Chip} (hd : Granted d) (hc : d.chip = c.shift []) (n : ℕ) :
    (run (nvm m) (ixmapShiftInEepromBits n) d).2 = d.setChip (c.shift (List.replicate n false)) ∧
      ∀ j < 16, (run (nvm m) (ixmapShiftInEepromBits n) d).1.getLsbD j =
        (decide (j < n) && c.serialOut (c.received++List.replicate (n-1-j) false)) := by
  obtain ⟨h0,h1,-,-,h6,-⟩ := d.eecValue_bits
  have hsel : Selects (d.eecValue &&& ~~~(eecDo ||| eecDi)) := by
    refine ⟨?_,?_,?_⟩
    · rw [BitVec.getLsbD_and,h0,hc]
      rfl
    · rw [BitVec.getLsbD_and,h1,hc]
      rfl
    · rw [BitVec.getLsbD_and,h6,hd.req]
      simp [eecDi,eecDo]
  have hdi : (d.eecValue &&& ~~~(eecDo ||| eecDi)).getLsbD 2 = false := by simp [eecDi,eecDo]
  obtain ⟨hstate,hval⟩ := run_shiftInLoop (m := m) n _ 0#16 d c hd hc hsel hdi
  simp only [ixmapShiftInEepromBits,run_bind,run_readReg,read_eec,hd.pollEec]
  refine ⟨hstate,fun j hj => (hval j hj).trans ?_⟩
  by_cases h : j < n <;> simp [h]

theorem run_standby {d : Nvm τ} (hd : Ready d) :
    run (nvm m) ixmapStandbyEeprom d = ((),d.setChip (d.chip.amid (d.chip.busy-1) [] false)) := by
  obtain ⟨h0,h1,h2,-,h6,-⟩ := d.eecValue_bits
  have hup : (d.eecValue ||| eecCs).getLsbD 0 = false ∧ (d.eecValue ||| eecCs).getLsbD 1 = true ∧
      (d.eecValue ||| eecCs).getLsbD 2 = false ∧ (d.eecValue ||| eecCs).getLsbD 6 = true := by
    simp only [BitVec.getLsbD_or,h0,h2,h6,hd.low.sk,hd.low.di,hd.req]
    simp [eecCs]
  obtain ⟨v,hv⟩ : ∃ v, v = d.eecValue ||| eecCs := ⟨_,rfl⟩
  rw [← hv] at hup
  have hdown : (v &&& ~~~eecCs).getLsbD 0 = false ∧ (v &&& ~~~eecCs).getLsbD 1 = false ∧
      (v &&& ~~~eecCs).getLsbD 2 = false ∧ (v &&& ~~~eecCs).getLsbD 6 = true := by
    simp only [BitVec.getLsbD_and,hup]
    simp [eecCs]
  simp only [ixmapStandbyEeprom,run_bind,run_readReg,run_writeReg,run_flush,read_eec,write_eec,hd.pollEec,← hv]
  rw [hd.toGranted.writeEec hup.2.2.2,(hd.toGranted.setChip _).writeEec hdown.2.2.2,hup.1,hup.2.1,hup.2.2.1,
    hdown.1,hdown.2.1,hdown.2.2.1]
  simp [Chip.pins,Chip.amid,setChip,hd.low.sk,hd.low.cs,hd.low.di]

theorem run_readyLoop (n : ℕ) (d : Nvm τ) (hd : Ready d) (hr : d.chip.received = []) (hn : d.chip.busy < n) :
    ∃ r o, run (nvm m) (readyLoop n) d = (true,d.setChip (d.chip.amid 0 r o)) := by
  induction n generalizing d with
  | zero => omega
  | succ n ih =>
    obtain ⟨c,hc⟩ : ∃ c, c = d.chip.shift (msbBits 0x05#16 8) := ⟨_,rfl⟩
    have hrc : c.received = msbBits 0x05#16 8 := by
      rw [hc,Chip.shift,hr]
      rfl
    have hcc : c = c.shift [] := by rw [hc,Chip.shift_shift,List.append_nil]
    obtain ⟨hstate,hval⟩ := run_shiftIn (m := m) (hd.toGranted.setChip c) hcc 8
    have htest : (run (nvm m) (ixmapShiftInEepromBits 8) (d.setChip c)).1.setWidth 8 &&& 0x01#8 = 0#8 ↔
        d.chip.busy = 0 := by
      refine (and_twoPow_eq_zero _ (n := 0) (by decide)).trans ?_
      rw [BitVec.getLsbD_setWidth,hval 0 (by decide),hrc,Chip.serialOut_status,hc]
      exact decide_eq_false_iff_not.trans not_not
    -- the chip in the state in which the status has been read
    obtain ⟨r,o,hro⟩ : ∃ r o, c.shift (List.replicate 8 false) = d.chip.amid d.chip.busy r o := by
      rw [hc,Chip.shift_shift]
      exact ⟨_,_,hd.low.shift _⟩
    rw [readyLoop]
    simp only [run_bind,run_shiftOut hd 0x05#16 (n := 7) (by decide),← hc]
    rw [hstate,hro]
    by_cases hb : d.chip.busy = 0
    · rw [if_pos (htest.mpr hb),hb]
      exact ⟨r,o,rfl⟩
    · rw [if_neg (fun h => hb (htest.mp h))]
      have hd' : Ready ((d.setChip c).setChip (d.chip.amid d.chip.busy r o)) := ⟨⟨hd.req,hd.granted⟩,hd.low.amid _ _ _⟩
      obtain ⟨r',o',h⟩ := ih (d.setChip (d.chip.amid (d.chip.busy-1) [] false)) (hd.setChip (hd.low.amid _ _ _)) rfl
        (by simp only [setChip,Chip.amid]; omega)
      refine ⟨r',o',?_⟩
      simp only [run_bind,run_standby hd']
      exact h

theorem run_readWord {d : Nvm τ} {opcode address : BitVec 16} {ab w : ℕ} (hd : Ready d) (hab : ab = d.chip.addressBits)
    (hop : opcode = 0x03#16 ∨ opcode = 0x0b#16 ∧ d.chip.large = false)
    (haddr : 256*(opcode.toNat/8)+address.toNat%2^ab = 2*w) : ∃ wordIn r o,
      run (nvm m) (do
        ixmapStandbyEeprom
        ixmapShiftOutEepromBits opcode 8
        ixmapShiftOutEepromBits address ab
        ixmapShiftInEepromBits 16) d = (wordIn,d.setChip (d.chip.amid (d.chip.busy-1) r o)) ∧
      wordIn >>> 8 ||| wordIn <<< 8 = d.chip.word w := by
  subst hab
  obtain ⟨c,hc⟩ : ∃ c, c = d.chip.amid (d.chip.busy-1) [] false := ⟨_,rfl⟩
  have hlow : c.Low := hc ▸ hd.low.amid _ _ _
  have hab : c.addressBits = d.chip.addressBits := by rw [hc]; rfl
  obtain ⟨n,hn,hle⟩ : ∃ n, c.addressBits = n+1 ∧ n+1 ≤ 16 := by
    rw [Chip.addressBits]
    cases c.large with
    | true => exact ⟨15,rfl,le_rfl⟩
    | false => exact ⟨7,rfl,by decide⟩
  obtain ⟨c',hc'⟩ : ∃ c', c' = (c.shift (msbBits opcode 8)).shift (msbBits address c.addressBits) := ⟨_,rfl⟩
  have hr : c'.received = msbBits opcode 8++msbBits address c.addressBits := by
    rw [hc',hc]
    rfl
  have hcc : c' = c'.shift [] := by rw [hc',Chip.shift_shift,Chip.shift_shift,List.append_nil]
  obtain ⟨hstate,hval⟩ := run_shiftIn (m := m) (hd.toGranted.setChip c') hcc 16
  obtain ⟨r,o,hshift⟩ : ∃ r o, c'.shift (List.replicate 16 false) = d.chip.amid (d.chip.busy-1) r o := by
    rw [hc',Chip.shift_shift,Chip.shift_shift,hlow.shift,hc]
    exact ⟨_,_,rfl⟩
  refine ⟨(run (nvm m) (ixmapShiftInEepromBits 16) (d.setChip c')).1,r,o,?_,Chip.word_of_bits ?_⟩
  · have hready : Ready (d.setChip c) := hd.setChip hlow
    have hready' : Ready (d.setChip (c.shift (msbBits opcode 8))) := ⟨⟨hd.req,hd.granted⟩,rfl,rfl,rfl⟩
    have hopcode : run (nvm m) (ixmapShiftOutEepromBits opcode 8) (d.setChip c) =
        ((),d.setChip (c.shift (msbBits opcode 8))) := run_shiftOut hready opcode (n := 7) (by decide)
    have haddress : run (nvm m) (ixmapShiftOutEepromBits address c.addressBits) (d.setChip (c.shift (msbBits opcode 8))) =
        ((),d.setChip c') := by
      rw [hc',hn]
      exact run_shiftOut hready' address hle
    rw [← hab,← hshift]
    simp only [run_bind,run_standby hd,← hc,hopcode,haddress]
    exact Prod.ext rfl hstate
  · intro j hj
    have hread := c.serialOut_read opcode address (15-j) (hop.imp_right fun h => ⟨h.1,hc ▸ h.2⟩)
    rw [hval j hj,hr,decide_eq_true hj,Bool.true_and,hc',Chip.serialOut_shift,Chip.serialOut_shift,hread,hab,haddr,hc]
    rfl

/-- Opcode and address together name the first byte of the word. -/
theorem readOpcode_address {large : Bool} {offset : BitVec 16} {i : ℕ} {opcode : BitVec 8}
    (hop : opcode = 0x03#8 ∨ opcode = 0x0b#8 ∧ large = false ∧ 128 ≤ offset.toNat+i)
    (hlt : offset.toNat+i < if large then 2^15 else 2^8) : ∃ op,
      readOpcode (if large then 16 else 8) offset i opcode = op ∧
      (op = 0x03#8 ∨ op = 0x0b#8 ∧ large = false ∧ 128 ≤ offset.toNat+i) ∧
      256*((op.setWidth 16).toNat/8)+
        (BitVec.ofNat 16 ((offset.toNat+i)*2)).toNat%2^(if large then 16 else 8) = 2*(offset.toNat+i) := by
  refine ⟨_,rfl,?_⟩
  rw [BitVec.toNat_ofNat]
  cases large with
  | true =>
    obtain rfl : opcode = 0x03#8 := hop.resolve_right fun h => Bool.noConfusion h.2.1
    simp only [if_true] at hlt ⊢
    rw [readOpcode,if_neg (by omega)]
    refine ⟨Or.inl rfl,?_⟩
    simp
    omega
  | false =>
    simp only [Bool.false_eq_true,if_false] at hlt ⊢
    by_cases hw : 128 ≤ offset.toNat+i
    · have hop' : opcode ||| 0x08#8 = 0x0b#8 := by
        rcases hop with rfl | ⟨rfl,-⟩ <;> decide
      rw [readOpcode,if_pos ⟨rfl,hw⟩,hop']
      refine ⟨Or.inr ⟨rfl,trivial,hw⟩,?_⟩
      simp
      omega
    · obtain rfl : opcode = 0x03#8 := hop.resolve_right fun h => hw h.2.2
      rw [readOpcode,if_neg (fun h => hw h.2)]
      refine ⟨Or.inl rfl,?_⟩
      simp
      omega

theorem run_bitBangLoop (offset : BitVec 16) (n i : ℕ) (opcode : BitVec 8) (data : List (BitVec 16)) (d : Nvm τ)
    (hd : Ready d) (hb : d.chip.busy = 0)
    (hop : opcode = 0x03#8 ∨ opcode = 0x0b#8 ∧ d.chip.large = false ∧ 128 ≤ offset.toNat+i)
    (hsize : offset.toNat+i+n ≤ if d.chip.large then 2^15 else 2^8) : ∃ r o,
      run (nvm m) (bitBangLoop d.chip.addressBits offset n i opcode data) d =
        (data++(List.range n).map (fun k => d.chip.word (offset.toNat+i+k)),d.setChip (d.chip.amid 0 r o)) := by
  induction n generalizing i opcode data d with
  | zero =>
    refine ⟨d.chip.received,d.chip.out,?_⟩
    rw [bitBangLoop,List.range_zero,List.map_nil,List.append_nil,← hb]
    rfl
  | succ n ih =>
    have hlt : offset.toNat+i < if d.chip.large then 2^15 else 2^8 := by omega
    obtain ⟨op,hrd,hop',haddr⟩ := readOpcode_address hop hlt
    rw [← Chip.addressBits] at hrd haddr
    have hop16 : op.setWidth 16 = 0x03#16 ∨ op.setWidth 16 = 0x0b#16 ∧ d.chip.large = false := by
      rcases hop' with rfl | ⟨rfl,hl,-⟩
      · exact Or.inl rfl
      · exact Or.inr ⟨rfl,hl⟩
    obtain ⟨wordIn,r,o,hread,hword⟩ := run_readWord (m := m) hd rfl hop16 haddr
    rw [hb] at hread
    obtain ⟨r',o',hrest⟩ := ih (i+1) op (data++[d.chip.word (offset.toNat+i)]) (d.setChip (d.chip.amid 0 r o))
      (hd.setChip (hd.low.amid _ _ _)) rfl (hop'.imp_right fun h => ⟨h.1,h.2.1,by omega⟩)
      (hsize.trans' (by omega))
    refine ⟨r',o',?_⟩
    rw [bitBangLoop]
    simp only [run_bind,hrd] at hread ⊢
    rw [hread,hword]
    refine hrest.trans ?_
    rw [List.append_assoc,List.range_succ_eq_map,List.map_cons,List.map_map]
    refine Prod.ext (congrArg (data++·) ?_) rfl
    refine congrArg₂ List.cons rfl (List.map_congr_left fun k _ => ?_)
    exact congrArg d.chip.word (by simp only [Nat.succ_eq_add_one]; omega)

end Nvm
end Hw
end Ixmap
