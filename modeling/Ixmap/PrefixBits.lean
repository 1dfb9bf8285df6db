import Mathlib

/-! Byte strings read as bit strings, most significant bit first: agreement on the first
bits, the number held in a field of bits, and aligned blocks of such numbers. -/
namespace PrefixBits

/-- The bytes found at increasing offsets from an address. -/
abbrev Bytes := ℕ → UInt8

def memcpy (dst src : Bytes) (n : ℕ) : Bytes := fun k => if k < n then src k else dst k

def EqBytes (n : ℕ) (a b : Bytes) : Prop := ∀ k < n, a k = b k

instance (n : ℕ) (a b : Bytes) : Decidable (EqBytes n a b) := by
  unfold EqBytes
  infer_instance

/-- The little-endian number in the `n` bytes from byte `o` on. -/
def littleEndian (a : Bytes) (o : ℕ) : ℕ → ℕ
  | 0 => 0
  | n+1 => littleEndian a o n + (a (o+n)).toNat*256^n

def bit (a : Bytes) (i : ℕ) : Bool := (a (i/8)).toNat.testBit (7-i%8)

def Agree (a b : Bytes) (n : ℕ) : Prop := ∀ i < n, bit a i = bit b i

instance (a b : Bytes) (n : ℕ) : Decidable (Agree a b n) := by
  unfold Agree
  infer_instance

/-- The number in the `w` bits from bit `o` on. -/
def field (a : Bytes) (o : ℕ) : ℕ → ℕ
  | 0 => 0
  | w+1 => 2*field a o w + (bit a (o+w)).toNat

/-- The big-endian 32-bit word with number `k`. -/
def word (a : Bytes) (k : ℕ) : ℕ :=
  (((a (4*k)).toNat*2^8+(a (4*k+1)).toNat)*2^8+(a (4*k+2)).toNat)*2^8+(a (4*k+3)).toNat

namespace EqBytes
variable {a b c : Bytes} {n : ℕ}

theorem refl (n : ℕ) (a : Bytes) : EqBytes n a a := fun _ _ => rfl

theorem symm (h : EqBytes n a b) : EqBytes n b a := fun k hk => (h k hk).symm

theorem trans (h : EqBytes n a b) (h' : EqBytes n b c) : EqBytes n a c :=
  fun k hk => (h k hk).trans (h' k hk)

end EqBytes

theorem eqBytes_memcpy (dst src : Bytes) (n : ℕ) : EqBytes n (memcpy dst src n) src :=
  fun _ hk => if_pos hk

theorem littleEndian_lt (a : Bytes) (o n : ℕ) : littleEndian a o n < 256^n := by
  induction n with
  | zero => simp [littleEndian]
  | succ n ih =>
    have hlt := (a (o+n)).toNat_lt
    have hle : (a (o+n)).toNat*256^n ≤ 255*256^n := Nat.mul_le_mul_right _ (by omega)
    rw [littleEndian,pow_succ]
    omega

theorem littleEndian_inj {a b : Bytes} {o n : ℕ} :
    littleEndian a o n = littleEndian b o n ↔ ∀ k < n, a (o+k) = b (o+k) := by
  induction n with
  | zero => simp [littleEndian]
  | succ n ih =>
    constructor
    · intro h
      have hlow := congrArg (· % 256^n) h
      have hhigh := congrArg (· / 256^n) h
      have ha := littleEndian_lt a o n
      have hb := littleEndian_lt b o n
      simp only [littleEndian,Nat.add_mul_mod_self_right,Nat.mod_eq_of_lt ha,Nat.mod_eq_of_lt hb,
        Nat.add_mul_div_right _ _ (Nat.pow_pos (show 0 < 256 by omega)),Nat.div_eq_of_lt ha,
        Nat.div_eq_of_lt hb,zero_add] at hlow hhigh
      intro k hk
      rcases Nat.lt_succ_iff_lt_or_eq.mp hk with hk | rfl
      · exact ih.mp hlow k hk
      · exact UInt8.toNat_inj.mp hhigh
    · intro h
      rw [littleEndian,littleEndian,ih.mpr fun k hk => h k (by omega),h n (by omega)]

namespace Agree
variable {a b c : Bytes} {m n : ℕ}

@[simp] theorem refl (a : Bytes) (n : ℕ) : Agree a a n := fun _ _ => rfl

theorem symm (h : Agree a b n) : Agree b a n := fun i hi => (h i hi).symm

theorem trans (h : Agree a b n) (h' : Agree b c n) : Agree a c n :=
  fun i hi => (h i hi).trans (h' i hi)

theorem mono (h : Agree a b n) (hm : m ≤ n) : Agree a b m := fun i hi => h i (by omega)

theorem congr_right (h : Agree b c n) (hm : m ≤ n) : Agree a b m ↔ Agree a c m :=
  ⟨fun hab => hab.trans (h.mono hm),fun hac => hac.trans (h.mono hm).symm⟩

end Agree

theorem agree_succ {a b : Bytes} {n : ℕ} : Agree a b (n+1) ↔ Agree a b n ∧ bit a n = bit b n := by
  constructor
  · intro h
    exact ⟨h.mono (by omega),h n (by omega)⟩
  · rintro ⟨h,hn⟩ i hi
    rcases Nat.lt_succ_iff_lt_or_eq.mp hi with hi | rfl
    · exact h i hi
    · exact hn

theorem field_lt (a : Bytes) (o w : ℕ) : field a o w < 2^w := by
  induction w with
  | zero => simp [field]
  | succ w ih =>
    have := (bit a (o+w)).toNat_le
    rw [field,pow_succ]
    omega

theorem field_succ_inj {a b : Bytes} {o w : ℕ} :
    field a o (w+1) = field b o (w+1) ↔ field a o w = field b o w ∧ bit a (o+w) = bit b (o+w) := by
  simp only [field]
  cases bit a (o+w) <;> cases bit b (o+w) <;> simp <;> omega

/-- Agreement up to the end of a field is agreement up to its start and equal fields. -/
theorem agree_field {a b : Bytes} {o w : ℕ} :
    Agree a b (o+w) ↔ Agree a b o ∧ field a o w = field b o w := by
  induction w with
  | zero => simp [field]
  | succ w ih =>
    rw [← Nat.add_assoc,agree_succ,ih,field_succ_inj,and_assoc]

theorem field_div (a : Bytes) (o w k : ℕ) : field a o (w+k) / 2^k = field a o w := by
  induction k with
  | zero => simp
  | succ k ih =>
    have hb := (bit a (o+(w+k))).toNat_le
    rw [← Nat.add_assoc,field,pow_succ,Nat.mul_comm (2^k) 2,← Nat.div_div_eq_div_mul]
    have h2 : (2*field a o (w+k)+(bit a (o+(w+k))).toNat)/2 = field a o (w+k) := by omega
    rw [h2,ih]

theorem agree_field_div {a b : Bytes} {o m w : ℕ} (hm : m ≤ w) :
    Agree a b (o+m) ↔
      Agree a b o ∧ field a o w / 2^(w-m) = field b o w / 2^(w-m) := by
  have h := fun c : Bytes => field_div c o m (w-m)
  simp only [Nat.add_sub_cancel' hm] at h
  rw [h,h,agree_field]

theorem testBit_field (a : Bytes) (o w j : ℕ) :
    (field a o w).testBit j = (decide (j < w) && bit a (o+w-1-j)) := by
  induction w generalizing j with
  | zero => simp [field]
  | succ w ih =>
    have hb : (bit a (o+w)).toNat < 2^1 := (bit a (o+w)).toNat_lt
    rw [field,show 2*field a o w = 2^1*field a o w by simp,
      Nat.testBit_two_pow_mul_add _ hb]
    by_cases hj : j < 1
    · have : j = 0 := by omega
      subst this
      cases h : bit a (o+w) <;> simp [h]
    · rw [if_neg hj,ih]
      have hlt : (j-1 < w) = (j < w+1) := by
        apply propext
        omega
      have hidx : o+w-1-(j-1) = o+(w+1)-1-j := by omega
      simp only [hlt,hidx]

theorem testBit_word (a : Bytes) (k : ℕ) {j : ℕ} (hj : j < 32) :
    (word a k).testBit j = bit a (32*k+(31-j)) := by
  have hlt : ∀ i, (a i).toNat < 2^8 := fun i => (a i).toNat_lt
  have hin : ∀ x i, x*2^8+(a i).toNat = 2^8*x+(a i).toNat := fun x i => by rw [Nat.mul_comm]
  have hbit : ∀ i r, r < 8 → bit a (8*i+r) = (a i).toNat.testBit (7-r) := by
    intro i r hr
    rw [bit,show (8*i+r)/8 = i by omega,show (8*i+r)%8 = r by omega]
  unfold word
  rw [hin,Nat.testBit_two_pow_mul_add _ (hlt _),hin,Nat.testBit_two_pow_mul_add _ (hlt _),
    hin,Nat.testBit_two_pow_mul_add _ (hlt _)]
  by_cases h3 : j < 8
  · rw [if_pos h3,show 32*k+(31-j) = 8*(4*k+3)+(7-j) by omega,hbit _ _ (by omega)]
    congr 1
    omega
  · rw [if_neg h3]
    by_cases h2 : j-8 < 8
    · rw [if_pos h2,show 32*k+(31-j) = 8*(4*k+2)+(15-j) by omega,hbit _ _ (by omega)]
      congr 1
      omega
    · rw [if_neg h2]
      by_cases h1 : j-8-8 < 8
      · rw [if_pos h1,show 32*k+(31-j) = 8*(4*k+1)+(23-j) by omega,hbit _ _ (by omega)]
        congr 1
        omega
      · rw [if_neg h1,show 32*k+(31-j) = 8*(4*k)+(31-j) by omega,hbit _ _ (by omega)]
        congr 1
        omega

theorem word_field (a : Bytes) {o w : ℕ} (h : o%32+w ≤ 32) :
    (word a (o/32) >>> (32-(o%32+w))) &&& (2^w-1) = field a o w := by
  apply Nat.eq_of_testBit_eq
  intro j
  rw [Nat.testBit_and,Nat.testBit_two_pow_sub_one,Nat.testBit_shiftRight,testBit_field,Bool.and_comm]
  by_cases hj : j < w
  · have hidx : 32*(o/32)+(31-(32-(o%32+w)+j)) = o+w-1-j := by omega
    rw [testBit_word a _ (by omega),hidx]
  · simp [hj]

def flip (a : Bytes) (i : ℕ) : Bytes :=
  Function.update a (i/8) (UInt8.ofNat ((a (i/8)).toNat ^^^ 2^(7-i%8)))

theorem bit_flip (a : Bytes) (i j : ℕ) : bit (flip a i) j = if j = i then !bit a i else bit a j := by
  by_cases hb : j/8 = i/8
  · have hlt : (a (i/8)).toNat ^^^ 2^(7-i%8) < 2^8 :=
      Nat.xor_lt_two_pow (a (i/8)).toNat_lt (Nat.pow_lt_pow_right (by omega) (by omega))
    have hval : (flip a i (j/8)).toNat = (a (i/8)).toNat ^^^ 2^(7-i%8) := by
      rw [flip,hb,Function.update_self,UInt8.toNat_ofNat']
      exact Nat.mod_eq_of_lt hlt
    rw [bit,hval,Nat.testBit_xor,Nat.testBit_two_pow]
    by_cases hji : j = i
    · subst hji
      simp [bit]
    · have hne : ¬ 7-i%8 = 7-j%8 := by omega
      simp [bit,hb,hji,hne]
  · have hne : j ≠ i := fun h => hb (by rw [h])
    simp [bit,flip,hb,hne]

/-- Every value occurs in a field behind any given path. -/
theorem exists_field (a : Bytes) (o w : ℕ) {y : ℕ} (hy : y < 2^w) :
    ∃ b, Agree a b o ∧ field b o w = y := by
  induction w generalizing y with
  | zero => exact ⟨a,Agree.refl a o,by simp [field]; omega⟩
  | succ w ih =>
    rw [pow_succ] at hy
    obtain ⟨b,hab,hf⟩ := ih (y:=y/2) (by omega)
    by_cases hbit : (bit b (o+w)).toNat = y%2
    · exact ⟨b,hab,by rw [field,hf,hbit]; omega⟩
    · have hkeep : Agree b (flip b (o+w)) (o+w) := by
        intro i hi
        rw [bit_flip,if_neg (by omega)]
      refine ⟨flip b (o+w),hab.trans (hkeep.mono (by omega)),?_⟩
      rw [field,← (agree_field.mp hkeep).2,hf,bit_flip,if_pos rfl]
      cases hb : bit b (o+w) <;> simp [hb] at hbit ⊢ <;> omega

theorem and_mask {x k : ℕ} (hx : x < 2^32) (hk : k ≤ 32) :
    x &&& (2^32-1-(2^k-1)) = x/2^k*2^k := by
  have hpos : 0 < 2^k := Nat.two_pow_pos k
  have hle : 2^k ≤ 2^32 := Nat.pow_le_pow_right (by omega) hk
  have hmask : 2^32-1-(2^k-1) = 2^32-((2^k-1)+1) := by omega
  apply Nat.eq_of_testBit_eq
  intro j
  rw [hmask,Nat.testBit_and,Nat.testBit_two_pow_sub_succ (by omega),Nat.testBit_two_pow_sub_one,
    Nat.testBit_mul_two_pow,Nat.testBit_div_two_pow]
  by_cases hj : j < 32
  · by_cases hjk : j < k
    · simp [hj,hjk]
    · have : j-k+k = j := by omega
      simp [hj,hjk,this,show k ≤ j by omega]
  · have hxj : x < 2^j := lt_of_lt_of_le hx (Nat.pow_le_pow_right (by omega) (by omega))
    have hz : x.testBit j = false := Nat.testBit_lt_two_pow hxj
    have : j-k+k = j := by omega
    simp [hj,hz,this]

theorem block_or {q k i : ℕ} (hi : i < 2^k) : (q*2^k) ||| i = q*2^k+i := by
  rw [Nat.mul_comm,Nat.two_pow_add_eq_or_of_lt hi]

end PrefixBits
