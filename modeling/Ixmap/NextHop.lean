import Ixmap.RadixTable

/-! Recursive next hops. An address is matched by its longest prefix in a set of routes; the route ends
the search or names the address to go on with. The lemmas say what becomes of the searches, and of the number
of matches they take, while routes are added to the set and taken from it. -/
namespace NextHop
open RadixTable

variable {R : Type} (hop : R → Option Bits)

/-- The search from an address ends within `n` matches: with `true` at a final route, with `false` where
nothing matches. -/
inductive Leads (S : Set (Bits × R)) : ℕ → Bits → Bool → Prop
  | missing {n : ℕ} {a : Bits} (h : ∀ e ∈ S, ¬ e.1 <+: a) : Leads S n a false
  | final {n : ℕ} {a : Bits} {e : Bits × R} (h : IsLongest S a e) (hf : hop e.2 = none) : Leads S (n+1) a true
  | via {n : ℕ} {a b : Bits} {e : Bits × R} {v : Bool} (h : IsLongest S a e) (hv : hop e.2 = some b)
      (hb : Leads S n b v) : Leads S (n+1) a v

def Resolves (S : Set (Bits × R)) (a : Bits) : Prop := ∃ n, Leads hop S n a true

/-- A search that ends takes `c` matches at most. -/
def Shallow (c : ℕ) (S : Set (Bits × R)) : Prop := ∀ n a v, Leads hop S n a v → Leads hop S c a v

/-- The search from an address ends at a final route, which matches the address `d`. -/
inductive LastHop (S : Set (Bits × R)) : Bits → Bits → Prop
  | final {a : Bits} {e : Bits × R} (h : IsLongest S a e) (hf : hop e.2 = none) : LastHop S a a
  | via {a b d : Bits} {e : Bits × R} (h : IsLongest S a e) (hv : hop e.2 = some b) (hb : LastHop S b d) :
      LastHop S a d

/-- The address that one route of the set names is matched by another. -/
def Matches (S : Set (Bits × R)) (e f : Bits × R) : Prop := e ∈ S ∧ ∃ b, hop e.2 = some b ∧ IsLongest S b f

def AllResolve (S : Set (Bits × R)) : Prop := ∀ e ∈ S, ∀ b, hop e.2 = some b → Resolves hop S b

def Stranded (S : Set (Bits × R)) (e : Bits × R) : Prop := ∃ b, hop e.2 = some b ∧ ¬ Resolves hop S b

def OnePer (S : Set (Bits × R)) : Prop := ∀ e ∈ S, ∀ f ∈ S, e.1 = f.1 → e = f

/-- The routes of `S`, and those of `A` that come to be matched when such routes are added to `S` one after
the other. -/
inductive Reached (S A : Set (Bits × R)) : Bits × R → Prop
  | base {e : Bits × R} (h : e ∈ S) : Reached S A e
  | step {e f : Bits × R} {b : Bits} (he : e ∈ A) (hb : hop e.2 = some b) (hf : Reached S A f) (hp : f.1 <+: b) :
      Reached S A e

/-- With routes added to `S`, the address may come to be matched by `f`. -/
def MayMatch (S : Set (Bits × R)) (b : Bits) (f : Bits × R) : Prop :=
  f.1 <+: b ∧ ∀ g ∈ S, g.1 <+: b → g.1.length ≤ f.1.length

/-- However `S` grows within `A`, searches descend. -/
def Ranked (S A : Set (Bits × R)) (rank : Bits × R → ℕ) : Prop :=
  ∀ e ∈ A, ∀ b, hop e.2 = some b → ∀ f ∈ A, MayMatch S b f → rank f < rank e

/-- What matches a route that does not resolve, does not resolve either, and searches among such routes
descend. -/
def Sheds (S : Set (Bits × R)) (rank : Bits × R → ℕ) : Prop :=
  ∀ e ∈ S, Stranded hop S e → ∀ b, hop e.2 = some b → ∀ f ∈ S, f.1 <+: b →
    Stranded hop S f ∧ rank f < rank e

variable {hop} {S W A : Set (Bits × R)} {a b : Bits} {e f : Bits × R} {v v' : Bool} {rank : Bits × R → ℕ}
variable {n m c : ℕ}

theorem exists_longest (h : ∃ e ∈ S, e.1 <+: a) : ∃ e, IsLongest S a e := by
  obtain ⟨e,⟨he,hea⟩,hmin⟩ := (measure fun e : Bits × R => a.length-e.1.length).wf.has_min
    {e | e ∈ S ∧ e.1 <+: a} h
  refine ⟨e,he,hea,?_⟩
  intro f hf hfa
  have hlt : ¬ a.length-f.1.length < a.length-e.1.length := hmin f ⟨hf,hfa⟩
  have hle := hfa.length_le
  omega

theorem longest_unique (hS : OnePer S) (he : IsLongest S a e) (hf : IsLongest S a f) : e = f := by
  apply hS e he.1 f hf.1
  have hlen : e.1.length = f.1.length := le_antisymm (hf.2.2 e he.1 he.2.1) (he.2.2 f hf.1 hf.2.1)
  exact (List.prefix_of_prefix_length_le he.2.1 hf.2.1 hlen.le).eq_of_length hlen

theorem resolves_of_not_stranded (h : ¬ Stranded hop S e) (hb : hop e.2 = some b) : Resolves hop S b := by
  by_contra hno
  exact h ⟨b,hb,hno⟩

theorem Leads.mono (h : Leads hop S n a v) (hnm : n ≤ m) : Leads hop S m a v := by
  induction h generalizing m with
  | missing hm => exact .missing hm
  | final he hf =>
    obtain ⟨k,rfl⟩ := Nat.exists_eq_add_of_le' hnm
    exact .final he hf
  | via he hv _ ih =>
    obtain ⟨k,rfl⟩ := Nat.exists_eq_add_of_le' (Nat.le_trans (Nat.le_add_left 1 _) hnm)
    exact .via he hv (ih (by omega))

theorem Leads.unique (hS : OnePer S) (h : Leads hop S n a v) (h' : Leads hop S m a v') : v = v' := by
  induction h generalizing m with
  | missing hm =>
    cases h' with
    | missing _ => rfl
    | final he _ => exact absurd he.2.1 (hm _ he.1)
    | via he _ _ => exact absurd he.2.1 (hm _ he.1)
  | final he hf =>
    cases h' with
    | missing hm => exact absurd he.2.1 (hm _ he.1)
    | final _ _ => rfl
    | via he' hv _ =>
      rw [← longest_unique hS he he',hf] at hv
      cases hv
  | via he hv _ ih =>
    cases h' with
    | missing hm => exact absurd he.2.1 (hm _ he.1)
    | final he' hf =>
      rw [← longest_unique hS he he',hv] at hf
      cases hf
    | via he' hv' hb' =>
      rw [← longest_unique hS he he',hv,Option.some_inj] at hv'
      subst hv'
      exact ih hb'

theorem Resolves.covered (h : Resolves hop S a) : ∃ e ∈ S, e.1 <+: a := by
  obtain ⟨n,hn⟩ := h
  cases hn with
  | final he _ => exact ⟨_,he.1,he.2.1⟩
  | via he _ _ => exact ⟨_,he.1,he.2.1⟩

theorem Leads.resolves (hcover : ∀ e ∈ S, ∀ b, hop e.2 = some b → ∃ f ∈ S, f.1 <+: b) (h : Leads hop S n a v)
    (ha : ∃ f ∈ S, f.1 <+: a) : v = true := by
  induction h with
  | missing hm =>
    obtain ⟨f,hf,hfa⟩ := ha
    exact absurd hfa (hm f hf)
  | final _ _ => rfl
  | via he hv _ ih => exact ih (hcover _ he.1 _ hv)

theorem AllResolve.of_covered (hS : AllResolve hop S) (h : ∃ e ∈ S, e.1 <+: a) : Resolves hop S a := by
  obtain ⟨e,he⟩ := exists_longest h
  cases hf : hop e.2 with
  | none => exact ⟨1,.final he hf⟩
  | some b =>
    obtain ⟨n,hn⟩ := hS e he.1 b hf
    exact ⟨n+1,.via he hf hn⟩

theorem AllResolve.leads (hS : AllResolve hop S) (hc : Shallow hop c S) (a : Bits) :
    ∃ v, Leads hop S c a v := by
  by_cases hcov : ∃ e ∈ S, e.1 <+: a
  · obtain ⟨n,hn⟩ := hS.of_covered hcov
    exact ⟨true,hc n a true hn⟩
  · push Not at hcov
    exact ⟨false,.missing hcov⟩

/-- From what matches an address whose search ends, matches lead on finitely often. -/
theorem Leads.acc (hS : OnePer S) (h : Leads hop S n a v) (he : IsLongest S a e) :
    Acc (fun f e => Matches hop S e f) e := by
  induction h generalizing e with
  | missing hm => exact absurd he.2.1 (hm e he.1)
  | final hf hfinal =>
    obtain rfl := longest_unique hS he hf
    refine ⟨_,?_⟩
    rintro f ⟨-,b,hb,-⟩
    simp [hfinal] at hb
  | via hf hb _ ih =>
    obtain rfl := longest_unique hS he hf
    refine ⟨_,?_⟩
    rintro g ⟨-,c,hc,hg⟩
    rw [hb,Option.some_inj] at hc
    exact ih (hc ▸ hg)

/-- Where all searches end, no chain of matches comes back to a route. -/
theorem no_loop (hS : OnePer S) (h : ∀ a, ∃ v, Leads hop S n a v) (e : Bits × R) :
    ¬ Relation.TransGen (Matches hop S) e e := by
  intro hloop
  obtain ⟨-,-,-,b,-,he⟩ := Relation.TransGen.tail'_iff.mp hloop
  obtain ⟨v,hv⟩ := h b
  have hacc := (hv.acc hS he).transGen
  have hback : Relation.TransGen (fun f e => Matches hop S e f) e e := Relation.transGen_swap.mp hloop
  exact not_acc_iff_exists_descending_chain.mpr ⟨fun _ => e,rfl,fun _ => hback⟩ hacc

theorem Ranked.between (h : Ranked hop S A rank) (hSW : S ⊆ W) (hWA : W ⊆ A) : Ranked hop W W rank :=
  fun e he b hb f hf hmay => h e (hWA he) b hb f (hWA hf) ⟨hmay.1,fun g hg => hmay.2 g (hSW hg)⟩

theorem Ranked.leads_hop (h : Ranked hop W W rank) (he : e ∈ W) (hb : hop e.2 = some b) :
    ∃ v, Leads hop W (rank e) b v := by
  induction hn : rank e using Nat.strong_induction_on generalizing e b with
  | _ n ih =>
    by_cases hcover : ∃ f ∈ W, f.1 <+: b
    · obtain ⟨f,hf⟩ := exists_longest hcover
      have hlt : rank f < n := hn ▸ h e he b hb f hf.1 hf.2
      cases hfinal : hop f.2 with
      | none => exact ⟨true,(Leads.final hf hfinal).mono (Nat.succ_le_of_lt (Nat.zero_lt_of_lt hlt))⟩
      | some c =>
        obtain ⟨v,hv⟩ := ih (rank f) hlt hf.1 hfinal rfl
        exact ⟨v,(Leads.via hf hfinal hv).mono hlt⟩
    · push Not at hcover
      exact ⟨false,.missing hcover⟩

theorem Ranked.leads (h : Ranked hop W W rank) (hc : ∀ e ∈ W, rank e < c) (a : Bits) :
    ∃ v, Leads hop W c a v := by
  by_cases hcover : ∃ f ∈ W, f.1 <+: a
  · obtain ⟨f,hf⟩ := exists_longest hcover
    have hlt := hc f hf.1
    cases hfinal : hop f.2 with
    | none => exact ⟨true,(Leads.final hf hfinal).mono (Nat.succ_le_of_lt (Nat.zero_lt_of_lt hlt))⟩
    | some b =>
      obtain ⟨v,hv⟩ := h.leads_hop hf.1 hfinal
      exact ⟨v,(Leads.via hf hfinal hv).mono hlt⟩
  · push Not at hcover
    exact ⟨false,.missing hcover⟩

theorem Ranked.shallow (hS : OnePer W) (h : Ranked hop W W rank) (hc : ∀ e ∈ W, rank e < c) :
    Shallow hop c W := by
  intro n a v hv
  obtain ⟨v',hv'⟩ := h.leads hc a
  rwa [hv.unique hS hv']

theorem Ranked.allResolve (h : Ranked hop W W rank)
    (hcover : ∀ e ∈ W, ∀ b, hop e.2 = some b → ∃ f ∈ W, f.1 <+: b) : AllResolve hop W := by
  intro e he b hb
  obtain ⟨v,hv⟩ := h.leads_hop he hb
  rw [hv.resolves hcover (hcover e he b hb)] at hv
  exact ⟨rank e,hv⟩

section
variable (hWS : W ⊆ S) (hkeep : ∀ e ∈ S, ¬ Stranded hop S e → e ∈ W)
include hWS hkeep

/-- Searches that resolve do not notice that routes that do not are taken out. -/
theorem Leads.shrink (h : Leads hop S n a true) : Leads hop W n a true := by
  have hlongest : ∀ {a : Bits} {e : Bits × R}, IsLongest S a e → ¬ Stranded hop S e → IsLongest W a e :=
    fun he hs => ⟨hkeep _ he.1 hs,he.2.1,fun f hf => he.2.2 f (hWS hf)⟩
  generalize hv : true = v at h ⊢
  induction h with
  | missing _ => cases hv
  | final he hf =>
    refine .final (hlongest he ?_) hf
    rintro ⟨b,hb,-⟩
    rw [hf] at hb
    cases hb
  | @via n _ b _ _ he hb hlead ih =>
    refine .via (hlongest he ?_) hb (ih hv)
    rintro ⟨c,hc,hno⟩
    rw [hb,Option.some_inj] at hc
    subst hv hc
    exact hno ⟨n,hlead⟩

end

theorem Sheds.fails (h : Sheds hop S rank) (hWS : W ⊆ S) (he : e ∈ W) (hs : Stranded hop S e)
    (hb : hop e.2 = some b) : Leads hop W (rank e) b false := by
  induction hn : rank e using Nat.strong_induction_on generalizing e b with
  | _ n ih =>
    by_cases hcover : ∃ f ∈ W, f.1 <+: b
    · obtain ⟨f,hf⟩ := exists_longest hcover
      obtain ⟨hsf,hlt⟩ := h e (hWS he) hs b hb f (hWS hf.1) hf.2.1
      obtain ⟨c,hc,-⟩ := id hsf
      exact (Leads.via hf hc (ih (rank f) (hn ▸ hlt) hf.1 hsf hc rfl)).mono (hn ▸ hlt)
    · exact .missing fun f hf hfb => hcover ⟨f,hf,hfb⟩

/-- While routes that do not resolve are taken out, all searches end. -/
theorem Sheds.leads (h : Sheds hop S rank) (hc : ∀ e ∈ S, Stranded hop S e → rank e < c) (hS : Shallow hop c S)
    (hWS : W ⊆ S) (hkeep : ∀ e ∈ S, ¬ Stranded hop S e → e ∈ W) (a : Bits) : ∃ v, Leads hop W (c+1) a v := by
  by_cases hcover : ∃ f ∈ W, f.1 <+: a
  · obtain ⟨f,hf⟩ := exists_longest hcover
    cases hfinal : hop f.2 with
    | none => exact ⟨true,.final hf hfinal⟩
    | some b =>
      by_cases hs : Stranded hop S f
      · exact ⟨false,.via hf hfinal ((h.fails hWS hf.1 hs hfinal).mono (hc f (hWS hf.1) hs).le)⟩
      · obtain ⟨n,hn⟩ := resolves_of_not_stranded hs hfinal
        exact ⟨true,.via hf hfinal ((hS n b true hn).shrink hWS hkeep)⟩
  · push Not at hcover
    exact ⟨false,.missing hcover⟩

end NextHop
