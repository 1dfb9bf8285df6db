import Ixmap.OnesComplement
import Ixmap.Router

/-! What forwarding does to the IP header: the incremental update of the IPv4 checksum against the
checksum of the whole header, and the TTL along a chain of routers. -/
namespace Ixmap
namespace Forwarder
open PrefixBits FibTable Neighbour Driver

def word (mem : Bytes) (ip i : ℕ) : ℕ := 256*(mem (ip+2*i)).toNat+(mem (ip+2*i+1)).toNat

/-- A header of `n` 32-bit words with the checksum field taken for zero. -/
def headerWords (mem : Bytes) (ip n : ℕ) : List ℕ :=
  (List.range (2*n)).map fun i => if i = 5 then 0 else word mem ip i

/-- The checksum field holds the checksum of the header. -/
def ChecksumValid (mem : Bytes) (ip n : ℕ) : Prop :=
  word mem ip 5 = OnesComplement.checksum (headerWords mem ip n)

section
variable {mem mem' : Bytes} {ip n : ℕ}

theorem word_lt (mem : Bytes) (ip i : ℕ) : word mem ip i < 65536 := by
  have h0 := (mem (ip+2*i)).toNat_lt
  have h1 := (mem (ip+2*i+1)).toNat_lt
  unfold word
  omega

theorem headerWords_lt (mem : Bytes) (ip n : ℕ) : ∀ w ∈ headerWords mem ip n, w < 65536 := by
  intro w hw
  obtain ⟨i,-,rfl⟩ := List.mem_map.mp hw
  split
  · omega
  · exact word_lt mem ip i

theorem sum_range_differ {f g : ℕ → ℕ} {j d : ℕ} (hj : f j = g j+d) (ho : ∀ i, i ≠ j → f i = g i) (m : ℕ)
    (hm : j < m) : ((List.range m).map f).sum = ((List.range m).map g).sum+d := by
  induction m with
  | zero => omega
  | succ m ih =>
    simp only [List.range_succ,List.map_append,List.map_cons,List.map_nil,List.sum_append,List.sum_cons,
      List.sum_nil]
    by_cases hjm : j = m
    · subst hjm
      have hsame : (List.range j).map f = (List.range j).map g := by
        apply List.map_congr_left
        intro i hi
        exact ho i (List.mem_range.mp hi).ne
      rw [hsame,hj]
      omega
    · rw [ih (by omega),ho m (Ne.symm hjm)]
      omega

/-- One less in the TTL, the first byte of word 4, is 256 less in the sum. -/
theorem headerWords_sum (hn : 5 ≤ n) (httl : (mem (ip+8)).toNat = (mem' (ip+8)).toNat+1)
    (hsame : ∀ k, k ≠ ip+8 → ¬ (k = ip+10 ∨ k = ip+11) → mem' k = mem k) :
    (headerWords mem ip n).sum = (headerWords mem' ip n).sum+256 := by
  apply sum_range_differ (j := 4) _ _ _ (by omega)
  · simp only [word,show ip+2*4 = ip+8 by omega,httl,hsame (ip+8+1) (by omega) (by omega)]
    simp only [show ¬ (4 = 5) by omega,if_false]
    omega
  · intro i hi
    by_cases h5 : i = 5
    · rw [if_pos h5,if_pos h5]
    · rw [if_neg h5,if_neg h5,word,word,hsame _ (by omega) (by omega),hsame _ (by omega) (by omega)]

theorem headerWords_pos (hn : 5 ≤ n) (httl : 0 < (mem (ip+8)).toNat) : 0 < (headerWords mem ip n).sum := by
  have hmem : word mem ip 4 ∈ headerWords mem ip n :=
    List.mem_map.mpr ⟨4,List.mem_range.mpr (by omega),by simp⟩
  have hle := List.single_le_sum (fun _ _ => Nat.zero_le _) _ hmem
  have hword : 256*(mem (ip+8)).toNat ≤ word mem ip 4 := Nat.le_add_right _ _
  omega

theorem swapped_carry {a b v : ℕ} (ha : a < 256) (hb : b < 256) (hlt : 256*a+b < 65535)
    (hv : v = a+256*b+1+if 65535 ≤ a+256*b+1 then 1 else 0) :
    256*(v%256)+v/256%256 = if 256*a+b+256 < 65535 then 256*a+b+256 else 256*a+b+256-65535 := by
  by_cases hcarry : a = 255
  · -- the carry out of the first byte goes into the second
    have hval : v = 256*(b+1) := by
      rw [hv,if_neg (by omega)]
      omega
    rw [if_neg (by omega)]
    omega
  by_cases hwrap : a+256*b+1 = 65535
  · have hval : v = 65536 := by
      rw [hv,if_pos (by omega)]
      omega
    rw [if_neg (by omega)]
    omega
  · have hval : v = (a+1)+256*b := by
      rw [hv,if_neg (by omega)]
      omega
    rw [if_pos (by omega)]
    omega

theorem patchIp_check (host : Endian) (hlt : word mem ip 5 < 65535) :
    word (patchIp host mem ip) ip 5 =
      if word mem ip 5+256 < 65535 then word mem ip 5+256 else word mem ip 5+256-65535 := by
  have h0 := (mem (ip+10)).toNat_lt
  have h1 := (mem (ip+10+1)).toNat_lt
  simp only [word,show ip+2*5 = ip+10 by omega] at hlt ⊢
  have e8 : ip+10 ≠ ip+8 := by omega
  have e8' : ip+10+1 ≠ ip+8 := by omega
  have e1 : ip+10 ≠ ip+10+1 := by omega
  cases host with
  | little =>
    simp only [patchIp,Endian.load16,Endian.store16,Endian.htons,Function.update_of_ne e8,
      Function.update_of_ne e8',Function.update_self,Function.update_of_ne e1,UInt8.toNat_ofNat',
      Nat.mod_mod]
    exact swapped_carry h0 h1 hlt rfl
  | big =>
    simp only [patchIp,Endian.load16,Endian.store16,Endian.htons,Function.update_of_ne e8,
      Function.update_of_ne e8',Function.update_self,Function.update_of_ne e1,UInt8.toNat_ofNat']
    split_ifs <;> omega

/-- Decrementing the TTL and patching the field is recomputing the checksum. -/
theorem patchIp_checksum (host : Endian) (hn : 5 ≤ n) (httl : 2 ≤ (mem (ip+8)).toNat)
    (hsum : ChecksumValid mem ip n) : ChecksumValid (patchIp host mem ip) ip n := by
  have hpred : (mem (ip+8)).toNat = (patchIp host mem ip (ip+8)).toNat+1 := by
    rw [patchIp_ttl]
    refine (pred_toNat ?_).symm
    intro hz
    rw [hz] at httl
    exact absurd httl (by decide)
  have hless := headerWords_sum hn hpred (patchIp_outside host mem ip)
  have hpos : 0 < (headerWords (patchIp host mem ip) ip n).sum := headerWords_pos hn (by omega)
  have hold := OnesComplement.checksum_eq (headerWords_lt mem ip n) (by omega)
  have hnew := OnesComplement.checksum_eq (headerWords_lt (patchIp host mem ip) ip n) hpos
  unfold ChecksumValid at hsum ⊢
  rw [patchIp_check host (by omega),hnew,hsum,hold,hless]
  split_ifs <;> omega

theorem ChecksumValid.congr (hsame : ∀ k, ip ≤ k → mem' k = mem k) (h : ChecksumValid mem ip n) :
    ChecksumValid mem' ip n := by
  have hword : word mem' ip = word mem ip := by
    funext i
    rw [word,word,hsame _ (by omega),hsame _ (by omega)]
  unfold ChecksumValid headerWords at h ⊢
  rwa [hword]

end

section
variable {host : Endian} {t : Thread} {f : Family} {ingress : ℕ} {packet : Packet}

/-- A route with a port and a neighbour behind it is found for the destination. -/
def Resolves (t : Thread) (f : Family) (dst : Bytes) : Prop :=
  ∃ p e, fibLookup (t.fib f) dst = some p ∧ 0 ≤ ((t.fib f).desc.val p).portIndex ∧
    selectNeigh (t.neigh f ((t.fib f).desc.val p).portIndex.toNat) ((t.fib f).desc.val p) dst = some e

theorem forwardLookup_via_iff (t : Thread) (f : Family) (dst : Bytes) (ttl : UInt8) :
    (∃ port mac, forwardLookup t f dst ttl = .via port mac) ↔ Resolves t f dst ∧ ttl ≠ 1 := by
  unfold forwardLookup Resolves
  cases hl : fibLookup (t.fib f) dst with
  | none => simp
  | some p =>
    by_cases hneg : ((t.fib f).desc.val p).portIndex < 0
    · simp [hneg]
    · cases hs : selectNeigh (t.neigh f ((t.fib f).desc.val p).portIndex.toNat)
          ((t.fib f).desc.val p) dst with
      | none => simp [hneg,hs]
      | some e =>
        by_cases hone : ttl = 1
        · simp [hneg,hs,hone]
        · simp [hneg,hs,hone]
          omega

/-- The headers of both families as one: where the TTL is, and the function that forwards. -/
def ttlAt (f : Family) (packet : Packet) : ℕ :=
  match f with
  | .inet => packet.slotBuf+22
  | .inet6 => packet.slotBuf+21

def destination (t : Thread) (f : Family) (packet : Packet) : Bytes :=
  match f with
  | .inet => fun k => t.mem (packet.slotBuf+30+k)
  | .inet6 => fun k => t.mem (packet.slotBuf+38+k)

def ipProcess (host : Endian) (t : Thread) (f : Family) (ingress : ℕ) (packet : Packet) : ℤ × Thread :=
  match f with
  | .inet => forwardIpProcess host t ingress packet
  | .inet6 => forwardIp6Process t ingress packet

/-- The way out does not depend on the TTL. -/
def Forwardable (t : Thread) (f : Family) (packet : Packet) : Prop :=
  (f = .inet6 → isLinkLocal (destination t f packet) = false) ∧ Resolves t f (destination t f packet)

/-- What the two functions have in common: a verdict, and a frame whose TTL is decremented when it is
to leave by a port. -/
theorem ipProcess_verdict (host : Endian) (t : Thread) (f : Family) (ingress : ℕ) (packet : Packet) :
    (f = .inet6 ∧ isLinkLocal (destination t f packet) = true ∧
      (ipProcess host t f ingress packet).1 = -1) ∨
    match forwardLookup t f (destination t f packet) (t.mem (ttlAt f packet)) with
    | .via port mac => (f = .inet6 → isLinkLocal (destination t f packet) = false) ∧
        ∃ mem, mem (ttlAt f packet) = t.mem (ttlAt f packet)-1 ∧ ipProcess host t f ingress packet =
          ((port : ℤ),{ t with mem := writeMacs t mem packet.slotBuf port mac })
    | _ => (ipProcess host t f ingress packet).1 = -1 := by
  cases f with
  | inet =>
    right
    simp only [ipProcess,forwardIpProcess,destination,ttlAt]
    cases hv : forwardLookup t .inet (fun k => t.mem (packet.slotBuf+30+k)) (t.mem (packet.slotBuf+22)) with
    | drop => rfl
    | toTap => rfl
    | via port mac => exact ⟨by simp,_,patchIp_ttl host t.mem _,rfl⟩
  | inet6 =>
    by_cases hll : isLinkLocal (fun k => t.mem (packet.slotBuf+38+k)) = true
    · left
      refine ⟨rfl,hll,?_⟩
      simp only [ipProcess,forwardIp6Process]
      rw [if_pos hll]
    · right
      simp only [ipProcess,forwardIp6Process,destination,ttlAt]
      rw [if_neg hll]
      cases hv : forwardLookup t .inet6 (fun k => t.mem (packet.slotBuf+38+k))
          (t.mem (packet.slotBuf+21)) with
      | drop => rfl
      | toTap => rfl
      | via port mac => exact ⟨fun _ => by simpa using hll,_,Function.update_self _ _ _,rfl⟩

theorem writeMacs_ttl (t : Thread) (mem : Bytes) (f : Family) (packet : Packet) (port : ℕ) (mac : Mac) :
    writeMacs t mem packet.slotBuf port mac (ttlAt f packet) = mem (ttlAt f packet) := by
  apply (writeMacs_spec t mem packet.slotBuf port mac).2.2
  cases f <;> simp only [ttlAt] <;> omega

theorem ipProcess_forwards_iff (host : Endian) (t : Thread) (f : Family) (ingress : ℕ) (packet : Packet) :
    0 ≤ (ipProcess host t f ingress packet).1 ↔ Forwardable t f packet ∧ t.mem (ttlAt f packet) ≠ 1 := by
  have hvia := forwardLookup_via_iff t f (destination t f packet) (t.mem (ttlAt f packet))
  rcases ipProcess_verdict host t f ingress packet with ⟨rfl,hll,hret⟩ | h
  · refine iff_of_false (by omega) ?_
    rintro ⟨⟨hno,-⟩,-⟩
    rw [hno rfl] at hll
    exact Bool.noConfusion hll
  · cases hv : forwardLookup t f (destination t f packet) (t.mem (ttlAt f packet)) with
    | via port mac =>
      rw [hv] at h hvia
      obtain ⟨hll,mem,-,hres⟩ := h
      obtain ⟨hres',hne⟩ := hvia.mp ⟨port,mac,rfl⟩
      exact iff_of_true (by rw [hres]; exact Int.natCast_nonneg port) ⟨⟨hll,hres'⟩,hne⟩
    | drop =>
      simp only [hv] at h hvia
      refine iff_of_false (by omega) fun hf => ?_
      simpa using hvia.mpr ⟨hf.1.2,hf.2⟩
    | toTap =>
      simp only [hv] at h hvia
      refine iff_of_false (by omega) fun hf => ?_
      simpa using hvia.mpr ⟨hf.1.2,hf.2⟩

theorem ipProcess_ttl (h : 0 ≤ (ipProcess host t f ingress packet).1) :
    (ipProcess host t f ingress packet).2.mem (ttlAt f packet) = t.mem (ttlAt f packet)-1 := by
  rcases ipProcess_verdict host t f ingress packet with ⟨-,-,hret⟩ | hv
  · omega
  · cases hl : forwardLookup t f (destination t f packet) (t.mem (ttlAt f packet)) with
    | via port mac =>
      rw [hl] at hv
      obtain ⟨-,mem,hmem,hres⟩ := hv
      rw [hres]
      exact (writeMacs_ttl t mem f packet port mac).trans hmem
    | drop =>
      simp only [hl] at hv
      omega
    | toTap =>
      simp only [hl] at hv
      omega

end

/-- A forwarded frame leaves with a TTL of one less, the checksum of the header it leaves with, and all other
bytes of the header and behind it as they came. -/
theorem forward_checksum_valid (host : Endian) (t : Thread) (ingress n : ℕ) (packet : Packet) (hn : 5 ≤ n)
    (httl : 2 ≤ (t.mem (packet.slotBuf+22)).toNat) (hsum : ChecksumValid t.mem (packet.slotBuf+14) n)
    (hfwd : 0 ≤ (forwardIpProcess host t ingress packet).1) :
    let ip := packet.slotBuf+14
    let mem' := (forwardIpProcess host t ingress packet).2.mem
    mem' (ip+8) = t.mem (ip+8)-1 ∧
      (∀ k, ip ≤ k → k ≠ ip+8 → ¬ (k = ip+10 ∨ k = ip+11) → mem' k = t.mem k) ∧ ChecksumValid mem' ip n := by
  intro ip mem'
  -- past the Ethernet header the memory is what the patch has made of it
  have hpatch : ∀ k, ip ≤ k → mem' k = patchIp host t.mem ip k := by
    simp only [mem',forwardIpProcess] at hfwd ⊢
    cases hv : forwardLookup t .inet (fun k => t.mem (packet.slotBuf+14+16+k)) (t.mem (packet.slotBuf+14+8)) with
    | drop => simp [hv] at hfwd
    | toTap => simp [hv] at hfwd
    | via port mac =>
      intro k hk
      exact (writeMacs_spec t _ packet.slotBuf port mac).2.2 k (by omega)
  refine ⟨?_,?_,?_⟩
  · rw [hpatch _ (by omega),patchIp_ttl]
  · intro k hk httl hcheck
    rw [hpatch k hk,patchIp_outside host t.mem ip k httl hcheck]
  · exact (patchIp_checksum host hn httl hsum).congr hpatch

def summed (ttl : UInt8) (check : List UInt8) : Thread := { netlinkProcess onePort onePortMsgs with
  mem := fun k => if k = 22 then ttl else if k = 24 then check.getD 0 0 else if k = 25 then check.getD 1 0
    else if k = 30 then 10 else if k = 33 then 5 else 0 }

/-- A header of five words with TTL 64 and checksum 0xB5FA leaves with 63 and 0xB6FA. -/
theorem forward_checksum_valid_summed :
    ChecksumValid (summed 64 [0xb5,0xfa]).mem 14 5 ∧
      (forwardIpProcess .little (summed 64 [0xb5,0xfa]) 0 ⟨0,64,0⟩).2.mem 22 = 63 ∧
      ChecksumValid (forwardIpProcess .little (summed 64 [0xb5,0xfa]) 0 ⟨0,64,0⟩).2.mem 14 5 := by
  have hsum : ChecksumValid (summed 64 [0xb5,0xfa]).mem 14 5 := by
    unfold ChecksumValid
    decide
  obtain ⟨httl,-,hvalid⟩ := forward_checksum_valid .little (summed 64 [0xb5,0xfa]) 0 5 ⟨0,64,0⟩ le_rfl (by decide)
    hsum (by decide)
  exact ⟨hsum,httl,hvalid⟩

/-- A router that a frame passes. -/
structure Hop where
  host : Endian
  thread : Thread
  family : Family
  ingress : ℕ
  packet : Packet

namespace Hop

def result (hop : Hop) : ℤ × Thread := ipProcess hop.host hop.thread hop.family hop.ingress hop.packet

def received (hop : Hop) : UInt8 := hop.thread.mem (ttlAt hop.family hop.packet)

def sent (hop : Hop) : UInt8 := hop.result.2.mem (ttlAt hop.family hop.packet)

def Forwards (hop : Hop) : Prop := 0 ≤ hop.result.1

end Hop

/-- Routers that all forward a frame, each with the TTL the one before has sent. -/
inductive Chain : UInt8 → List Hop → Prop where
  | nil (ttl : UInt8) : Chain ttl []
  | cons {hop : Hop} {rest : List Hop} : hop.Forwards → Chain hop.sent rest → Chain hop.received (hop::rest)

theorem Hop.sent_toNat {hop : Hop} (hf : hop.Forwards) (hne : hop.received ≠ 0) :
    2 ≤ hop.received.toNat ∧ hop.sent.toNat+1 = hop.received.toNat := by
  have hsent : hop.sent = hop.received-1 := ipProcess_ttl hf
  have hone : hop.received ≠ 1 := ((ipProcess_forwards_iff _ _ _ _ _).mp hf).2
  have h0 : hop.received.toNat ≠ 0 := fun h => hne (UInt8.toNat_inj.mp h)
  have h1 : hop.received.toNat ≠ 1 := fun h => hone (UInt8.toNat_inj.mp h)
  rw [hsent]
  exact ⟨by omega,pred_toNat hne⟩

/-- Every router takes one off the TTL and leaves one. -/
theorem Chain.length_lt {ttl : UInt8} {hops : List Hop} (h : Chain ttl hops) (hne : ttl ≠ 0) :
    hops.length < ttl.toNat := by
  induction h with
  | nil ttl =>
    have h0 : ttl.toNat ≠ 0 := fun h => hne (UInt8.toNat_inj.mp h)
    simp only [List.length_nil]
    omega
  | @cons hop rest hf hrest ih =>
    obtain ⟨htwo,hsent⟩ := Hop.sent_toNat hf hne
    have hlt := ih (by
      intro hz
      rw [hz] at hsent
      simp only [UInt8.toNat_zero] at hsent
      omega)
    simp only [List.length_cons]
    omega

/-- Forwarding is TTL-safe exactly on frames that have a TTL other than 0 or no way out, and a frame
injected with such a TTL is forwarded at most 254 times. -/
theorem ttl_safe_iff (hop : Hop) (ttl : UInt8) (hops : List Hop) :
    ((hop.Forwards → 2 ≤ hop.received.toNat ∧ hop.sent.toNat+1 = hop.received.toNat) ↔
      hop.received ≠ 0 ∨ ¬ Forwardable hop.thread hop.family hop.packet) ∧
    (ttl ≠ 0 → Chain ttl hops → hops.length ≤ 254) := by
  refine ⟨⟨?_,?_⟩,?_⟩
  · intro hsafe
    by_contra hno
    obtain ⟨hz,hway⟩ := not_or.mp hno
    have hzero : hop.received = 0 := not_not.mp hz
    have hne : hop.received ≠ 1 := by
      rw [hzero]
      decide
    have h2 := (hsafe ((ipProcess_forwards_iff _ _ _ _ _).mpr ⟨not_not.mp hway,hne⟩)).1
    rw [hzero] at h2
    exact absurd h2 (by decide)
  · rintro (hne | hno) hf
    · exact Hop.sent_toNat hf hne
    · exact absurd ((ipProcess_forwards_iff _ _ _ _ _).mp hf).1 hno
  · intro hne hchain
    have hlt := hchain.length_lt hne
    have hmax := ttl.toNat_lt
    omega

/-- A frame with TTL 0 is forwarded with TTL 255. -/
theorem zero_ttl_forwarded :
    let hop : Hop := ⟨.little,summed 0 [],.inet,0,⟨0,64,0⟩⟩
    hop.Forwards ∧ hop.received = 0 ∧ hop.sent = 255 := by
  refine ⟨?_,rfl,?_⟩
  · unfold Hop.Forwards
    decide
  · decide

end Forwarder
end Ixmap
