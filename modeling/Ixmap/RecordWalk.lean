import Mathlib

/-! Loops over a buffer of records that state their own length and are padded to multiples of four
bytes. What is left of the buffer is a signed 32-bit number, which the padding of the last record may
take below zero; the lengths of the records are unsigned. -/
namespace RecordWalk

/-- The length of a record with its padding, computed in 32 bits. -/
def align4 (n : ℕ) : ℕ := (n+3) % 2^32/4*4

def advance (len : ℤ) (n : ℕ) : ℤ := (len-align4 n).bmod (2^32)

theorem le_align4 {n : ℕ} (hn : n < 2^31) : n ≤ align4 n ∧ align4 n ≤ n+3 := by
  unfold align4
  omega

theorem advance_eq {len : ℤ} {n : ℕ} (hlen : len < 2^31) (hn : (n : ℤ) ≤ len) :
    advance len n = len-align4 n := by
  obtain ⟨h1,h2⟩ := le_align4 (n := n) (by omega)
  unfold advance
  rw [Int.bmod_eq_of_le_mul_two] <;> omega

variable {ε σ : Type}

/-- The computation ends in a state that meets `I` if `P`, and in an error other than `stuck` if not. -/
def Ends (stuck : ε) (I : σ → Prop) (P : Prop) (x : Except ε σ) : Prop :=
  (P ∧ ∃ s, x = .ok s ∧ I s) ∨ (¬ P ∧ ∃ e, x = .error e ∧ e ≠ stuck)

namespace Ends
variable {τ : Type} {stuck : ε} {I : σ → Prop} {J : τ → Prop} {P Q : Prop} {x : Except ε σ}

theorem ok {s : σ} (hs : I s) : Ends stuck I True (.ok s) := Or.inl ⟨trivial,s,rfl,hs⟩

theorem congr (h : Ends stuck I P x) (hPQ : P ↔ Q) : Ends stuck I Q x :=
  h.imp (fun ⟨hP,hx⟩ => ⟨hPQ.mp hP,hx⟩) fun ⟨hP,hx⟩ => ⟨fun hQ => hP (hPQ.mpr hQ),hx⟩

theorem mono {K : σ → Prop} (h : Ends stuck I P x) (hIK : ∀ s, I s → K s) : Ends stuck K P x :=
  h.imp_left fun ⟨hP,s,hx,hs⟩ => ⟨hP,s,hx,hIK s hs⟩

theorem bind {f : σ → Except ε τ} (h : Ends stuck I P x)
    (hf : P → ∀ s, I s → Ends stuck J Q (f s)) : Ends stuck J (P ∧ Q) (x >>= f) := by
  rcases h with ⟨hP,s,rfl,hs⟩ | ⟨hP,e,rfl,he⟩
  · exact (hf hP s hs).congr ⟨fun hQ => ⟨hP,hQ⟩,fun hQ => hQ.2⟩
  · exact Or.inr ⟨fun hPQ => hP hPQ.1,e,rfl,he⟩

theorem bind_ne_stuck {f : σ → Except ε τ} (h : Ends stuck I P x) (hf : P → ∀ s, f s ≠ .error stuck) :
    x >>= f ≠ .error stuck := by
  rcases h with ⟨hP,s,rfl,-⟩ | ⟨-,e,rfl,he⟩
  · exact hf hP s
  · exact fun hx => he (Except.error.inj hx)

theorem map {f : σ → τ} (h : Ends stuck I P x) (hf : ∀ s, I s → J (f s)) : Ends stuck J P (x.map f) := by
  rcases h with ⟨hP,s,rfl,hs⟩ | ⟨hP,e,rfl,he⟩
  · exact Or.inl ⟨hP,f s,rfl,hf s hs⟩
  · exact Or.inr ⟨hP,e,rfl,he⟩

theorem ok_iff (h : Ends stuck I P x) : (∃ s, x = .ok s) ↔ P := by
  rcases h with ⟨hP,s,rfl,-⟩ | ⟨hP,e,rfl,-⟩
  · exact iff_of_true ⟨s,rfl⟩ hP
  · exact iff_of_false (by simp) hP

theorem ne_stuck (h : Ends stuck I P x) : x ≠ .error stuck := by
  rcases h with ⟨-,s,rfl,-⟩ | ⟨-,e,rfl,he⟩
  · simp
  · exact fun hx => he (Except.error.inj hx)

end Ends

/-- The loop: `head` reads the length of the record at a position, `body` processes the record. -/
def loop (stuck : ε) (hdr : ℕ) (head : ℕ → Except ε ℕ) (body : σ → ℕ → Except ε σ) :
    ℕ → σ → ℕ → ℤ → Except ε σ
  | 0, _, _, _ => .error stuck
  | fuel+1, s, pos, len =>
    if (hdr : ℤ) ≤ len then
      match head pos with
      | .error e => .error e
      | .ok n =>
        if hdr ≤ n ∧ (n : ℤ) ≤ len then
          match body s pos with
          | .error e => .error e
          | .ok s => loop stuck hdr head body fuel s (pos+align4 n) (advance len n)
        else .ok s
    else .ok s

/-- The loop from a position reaches the record at `p`, where `size` gives the lengths. -/
inductive Visits (hdr : ℕ) (size : ℕ → ℕ) : ℕ → ℤ → ℕ → Prop where
  | here {pos : ℕ} {len : ℤ} : hdr ≤ size pos → (size pos : ℤ) ≤ len → Visits hdr size pos len pos
  | next {pos p : ℕ} {len : ℤ} : hdr ≤ size pos → (size pos : ℤ) ≤ len →
      Visits hdr size (pos+align4 (size pos)) (advance len (size pos)) p → Visits hdr size pos len p

section
variable {stuck : ε} {hdr fuel pos p n : ℕ} {head : ℕ → Except ε ℕ} {body : σ → ℕ → Except ε σ}
variable {len : ℤ} {s s' : σ} {size : ℕ → ℕ}

theorem Visits.bounds (h : Visits hdr size pos len p) (hlen : len < 2^31) :
    pos ≤ p ∧ hdr ≤ size p ∧ ((p+size p : ℕ) : ℤ) ≤ pos+len := by
  induction h with
  | here h1 h2 => exact ⟨le_rfl,h1,by push_cast; omega⟩
  | next h1 h2 _ ih =>
    rename_i pos p len _
    rw [advance_eq hlen h2] at ih
    obtain ⟨h3,h4,h5⟩ := ih (by omega)
    refine ⟨by omega,h4,?_⟩
    push_cast at h5 ⊢
    omega

theorem loop_done (hlen : len < hdr) : loop stuck hdr head body (fuel+1) s pos len = .ok s := by
  rw [loop,if_neg (by omega)]

theorem loop_step (hhead : head pos = .ok n) (h1 : hdr ≤ n) (h2 : (n : ℤ) ≤ len)
    (hbody : body s pos = .ok s') : loop stuck hdr head body (fuel+1) s pos len =
      loop stuck hdr head body fuel s' (pos+align4 n) (advance len n) := by
  have hle : (hdr : ℤ) ≤ len := (Int.ofNat_le.mpr h1).trans h2
  rw [loop,if_pos hle,hhead]
  simp only [if_pos (And.intro h1 h2),hbody]

theorem loop_error {e : ε} (hhead : head pos = .ok n) (h1 : hdr ≤ n) (h2 : (n : ℤ) ≤ len)
    (hbody : body s pos = .error e) : loop stuck hdr head body (fuel+1) s pos len = .error e := by
  have hle : (hdr : ℤ) ≤ len := (Int.ofNat_le.mpr h1).trans h2
  rw [loop,if_pos hle,hhead]
  simp only [if_pos (And.intro h1 h2),hbody]

/-- The loop ends in good time if the header of every record in the buffer can be read and the
processing of every record it visits does; it succeeds iff that of all of them does. -/
theorem loop_ends {I : σ → Prop} {C : ℕ → Prop} (hhdr : 0 < hdr) (hlen : len < 2^31)
    (hfuel : len.toNat < fuel)
    (hhead : ∀ p : ℕ, pos ≤ p → ((p+hdr : ℕ) : ℤ) ≤ pos+len → head p = .ok (size p))
    (hbody : ∀ s p, I s → Visits hdr size pos len p → Ends stuck I (C p) (body s p)) (hs : I s) :
    Ends stuck I (∀ p, Visits hdr size pos len p → C p) (loop stuck hdr head body fuel s pos len) := by
  induction fuel generalizing s pos len with
  | zero => omega
  | succ fuel ih =>
    by_cases hroom : (hdr : ℤ) ≤ len ∧ hdr ≤ size pos ∧ (size pos : ℤ) ≤ len
    · obtain ⟨h1,h2,h3⟩ := hroom
      have hread := hhead pos le_rfl (by push_cast; omega)
      have hhere : Visits hdr size pos len pos := .here h2 h3
      rcases hbody s pos hs hhere with ⟨hC,s₁,hs₁,hI⟩ | ⟨hC,e,he,hne⟩
      · have hstep : ∀ p, Visits hdr size (pos+align4 (size pos)) (advance len (size pos)) p →
            Visits hdr size pos len p := fun _ => .next h2 h3
        obtain ⟨h4,-⟩ := le_align4 (n := size pos) (by omega)
        have hnext := advance_eq hlen h3
        rw [loop_step hread h2 h3 hs₁]
        refine (ih (by omega) (by omega) (fun p hp hle => hhead p (by omega) (by push_cast at hle ⊢; omega))
          (fun s p hs hp => hbody s p hs (hstep p hp)) hI).congr ⟨fun hall p hp => ?_,fun hall p hp => ?_⟩
        · cases hp with
          | here => exact hC
          | next _ _ hp => exact hall p hp
        · exact hall p (hstep p hp)
      · exact Or.inr ⟨fun hall => hC (hall pos hhere),e,loop_error hread h2 h3 he,hne⟩
    · -- No header, or a record that is malformed or truncated.
      have hnone : ∀ p, ¬ Visits hdr size pos len p := by
        intro p hp
        cases hp with
        | here h2 h3 => exact hroom ⟨by omega,h2,h3⟩
        | next h2 h3 _ => exact hroom ⟨by omega,h2,h3⟩
      refine Or.inl ⟨fun p hp => absurd hp (hnone p),s,?_,hs⟩
      rw [loop]
      split
      · rename_i h1
        rw [hhead pos le_rfl (by push_cast; omega)]
        simp only
        rw [if_neg fun h => hroom ⟨h1,h⟩]
      · rfl

theorem loop_ne_stuck (hhdr : 0 < hdr) (hlen : len < 2^31) (hfuel : len.toNat < fuel)
    (hhead : ∀ p : ℕ, pos ≤ p → ((p+hdr : ℕ) : ℤ) ≤ pos+len → head p = .ok (size p))
    (hbody : ∀ s p, Visits hdr size pos len p → body s p ≠ .error stuck) :
    loop stuck hdr head body fuel s pos len ≠ .error stuck := by
  induction fuel generalizing s pos len with
  | zero => omega
  | succ fuel ih =>
    rw [loop]
    split_ifs with h1
    · rw [hhead pos le_rfl (by push_cast; omega)]
      simp only
      split_ifs with h2
      · obtain ⟨h3,-⟩ := le_align4 (n := size pos) (by omega)
        have hnext := advance_eq hlen h2.2
        have hhere := hbody s pos (.here h2.1 h2.2)
        cases hb : body s pos with
        | error e =>
          rw [hb] at hhere
          exact hhere
        | ok s₁ =>
          exact ih (by omega) (by omega) (fun p hp hle => hhead p (by omega) (by push_cast at hle ⊢; omega))
            fun s p hp => hbody s p (.next h2.1 h2.2 hp)
      · simp
    · simp

def Held (buf : ℕ → UInt8) (pos : ℕ) (l : List UInt8) : Prop := ∀ k (hk : k < l.length), buf (pos+k) = l[k]

section Encoded
variable {buf : ℕ → UInt8} {l₁ l₂ : List UInt8}

theorem held_append : Held buf pos (l₁++l₂) ↔ Held buf pos l₁ ∧ Held buf (pos+l₁.length) l₂ := by
  constructor
  · intro h
    refine ⟨fun k hk => ?_,fun k hk => ?_⟩
    · rw [h k (by simp; omega),List.getElem_append_left hk]
    · rw [Nat.add_assoc,h (l₁.length+k) (by simp; omega),List.getElem_append_right (by omega)]
      simp
  · rintro ⟨h1,h2⟩ k hk
    by_cases hlt : k < l₁.length
    · rw [List.getElem_append_left hlt,h1 k hlt]
    · rw [List.getElem_append_right (by omega),← h2 (k-l₁.length) (by simp at hk; omega)]
      congr 1
      omega

variable {ρ : Type} {bytes : ρ → List UInt8} {length : ρ → ℕ} {step : σ → ρ → σ}

/-- The loop over a sequence of encoded records, each of which `body` processes as `step` says. -/
theorem loop_encoded {rs : List ρ} (hhdr : 0 < hdr)
    (hsize : ∀ r ∈ rs, hdr ≤ length r ∧ length r ≤ (bytes r).length ∧ (bytes r).length = align4 (length r))
    (hbuf : Held buf pos (rs.flatMap bytes)) (hlen : len = (rs.flatMap bytes).length) (hlt : len < 2^31)
    (hrec : ∀ s p, ∀ r ∈ rs, Held buf p (bytes r) → pos ≤ p → ((p+(bytes r).length : ℕ) : ℤ) ≤ pos+len →
      head p = .ok (length r) ∧ body s p = .ok (step s r)) (hfuel : len < fuel) :
    loop stuck hdr head body fuel s pos len = .ok (rs.foldl step s) := by
  induction rs generalizing s pos len fuel with
  | nil =>
    obtain ⟨fuel,rfl⟩ : ∃ k, fuel = k+1 := ⟨fuel-1,by simp at hlen; omega⟩
    exact loop_done (by simp at hlen; omega)
  | cons r rs ih =>
    obtain ⟨fuel,rfl⟩ : ∃ k, fuel = k+1 := ⟨fuel-1,by omega⟩
    rw [List.flatMap_cons,held_append] at hbuf
    rw [List.flatMap_cons,List.length_append] at hlen
    obtain ⟨hn,hle,hbytes⟩ := hsize r (by simp)
    obtain ⟨hhead,hbody⟩ := hrec s pos r (by simp) hbuf.1 le_rfl (by push_cast; omega)
    have hnext : advance len (length r) = (rs.flatMap bytes).length := by
      rw [advance_eq hlt (by omega),← hbytes]
      omega
    rw [loop_step hhead hn (by omega) hbody,← hbytes,List.foldl_cons]
    refine ih (fun r hr => hsize r (by simp [hr])) hbuf.2 hnext (by omega) ?_ (by push_cast at hfuel; omega)
    intro s p r hr hheld hp hend
    refine hrec s p r (by simp [hr]) hheld (by omega) ?_
    push_cast at hend ⊢
    omega

end Encoded

end
end RecordWalk
