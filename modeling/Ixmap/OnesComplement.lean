import Mathlib

/-! One's complement sums of 16-bit words. There are two zeros, `0` and `0xFFFF`; the second is the sum
of every list with a word other than zero that is a multiple of `0xFFFF`. -/
namespace OnesComplement

/-- Addition with the carry brought around. -/
def add (a b : ℕ) : ℕ := if 65536 ≤ a+b then a+b-65535 else a+b

def sum (words : List ℕ) : ℕ := words.foldl add 0

def checksum (words : List ℕ) : ℕ := 65535-sum words

/-- The word that stands for a number: its residue, with `0xFFFF` for the multiples behind zero. -/
def reduce (n : ℕ) : ℕ := if n = 0 then 0 else (n-1)%65535+1

theorem add_reduce {w : ℕ} (hw : w < 65536) (n : ℕ) : add (reduce n) w = reduce (n+w) := by
  unfold add reduce
  split_ifs <;> omega

theorem foldl_add {words : List ℕ} (hw : ∀ w ∈ words, w < 65536) (n : ℕ) :
    words.foldl add (reduce n) = reduce (n+words.sum) := by
  induction words generalizing n with
  | nil => rfl
  | cons w words ih =>
    rw [List.foldl_cons,add_reduce (hw w (by simp)),ih fun v hv => hw v (by simp [hv]),List.sum_cons,
      Nat.add_assoc]

theorem sum_eq {words : List ℕ} (hw : ∀ w ∈ words, w < 65536) : sum words = reduce words.sum := by
  have h := foldl_add hw 0
  rwa [Nat.zero_add] at h

theorem checksum_eq {words : List ℕ} (hw : ∀ w ∈ words, w < 65536) (hpos : 0 < words.sum) :
    checksum words = 65534-(words.sum-1)%65535 := by
  rw [checksum,sum_eq hw,reduce,if_neg (by omega)]
  omega

end OnesComplement
