import Mathlib

/-! Circular buffers through absolute counters. A producer and a consumer index into
`n` cells are the residues of the numbers of items ever produced and consumed; the
lemmas translate index tests into counter arithmetic. -/
namespace CircularIndex

def next (n i : ℕ) : ℕ := if i+1 < n then i+1 else 0

/-- Cells left between the producer and the consumer, one cell always staying empty. -/
def unused (n use clean : ℕ) : ℕ :=
  if use < clean then clean-use-1 else n-use+clean-1

theorem next_mod {n : ℕ} (hn : 0 < n) (a : ℕ) : next n (a%n) = (a+1)%n := by
  have hlt := Nat.mod_lt a hn
  unfold next
  split
  · rename_i h
    rw [Nat.add_mod,Nat.mod_eq_of_lt (show 1 < n by omega)]
    exact (Nat.mod_eq_of_lt h).symm
  · rename_i h
    have he : a%n+1 = n := by omega
    rw [← Nat.mod_add_mod,he,Nat.mod_self]

theorem eq_of_mod_eq {n a b : ℕ} (h : a%n = b%n) (hab : a < b+n) (hba : b < a+n) : a = b := by
  have ha := Nat.div_add_mod a n
  have hb := Nat.div_add_mod b n
  rw [h] at ha
  rcases Nat.lt_trichotomy (a/n) (b/n) with hlt | heq | hgt
  · have := Nat.mul_le_mul_left n (show a/n+1 ≤ b/n by omega)
    rw [Nat.mul_add] at this
    omega
  · rw [heq] at ha
    omega
  · have := Nat.mul_le_mul_left n (show b/n+1 ≤ a/n by omega)
    rw [Nat.mul_add] at this
    omega

theorem mod_eq_iff {n a b : ℕ} (hab : a ≤ b) (hba : b < a+n) : a%n = b%n ↔ a = b :=
  ⟨fun h => eq_of_mod_eq h (by omega) hba,fun h => h ▸ rfl⟩

/-- The index formula counts the cells that are not between the two counters. -/
theorem unused_mod {n a b : ℕ} (hab : a ≤ b) (hba : b < a+n) :
    unused n (b%n) (a%n) = n-1-(b-a) := by
  have hn : 0 < n := by omega
  have hla := Nat.mod_lt a hn
  have hlb := Nat.mod_lt b hn
  have ha := Nat.div_add_mod a n
  have hb := Nat.div_add_mod b n
  have hle : a/n ≤ b/n := Nat.div_le_div_right hab
  unfold unused
  rcases Nat.eq_or_lt_of_le hle with heq | hlt
  · rw [← heq] at hb
    split <;> omega
  · have h1 : b/n ≤ a/n+1 := by
      by_contra hc
      have := Nat.mul_le_mul_left n (show a/n+2 ≤ b/n by omega)
      rw [Nat.mul_add] at this
      omega
    have he : b/n = a/n+1 := by omega
    rw [he,Nat.mul_add,Nat.mul_one] at hb
    split <;> omega

end CircularIndex
