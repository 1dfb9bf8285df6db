import Ixmap.RibCascade

/-! Conditions on the lists of routes under which `update` and `remove` can be called; on given tables they
are checked by evaluation. -/
namespace Ixmap
namespace Exabgp
open RadixTable RadixOps NextHop

/-- Searches in the routes `S` descend, also with some of `A` added. -/
def Descends (rank : Bits × Route → ℕ) (S A : List (Bits × Route)) : Prop :=
  ∀ e ∈ A, ∀ b ∈ e.2.nexthop, ∀ f ∈ A, f.1 <+: b →
    (∀ g ∈ S, g.1 <+: b → g.1.length ≤ f.1.length) → rank f < rank e

instance (rank : Bits × Route → ℕ) (S A : List (Bits × Route)) : Decidable (Descends rank S A) :=
  inferInstanceAs (Decidable (∀ e ∈ A, ∀ b ∈ e.2.nexthop, ∀ f ∈ A, f.1 <+: b →
    (∀ g ∈ S, g.1 <+: b → g.1.length ≤ f.1.length) → rank f < rank e))

/-- No next hop of the routes is covered by a connected one. -/
def Lost (l : List (Bits × Route)) : Prop :=
  ∀ e ∈ l, ∀ b ∈ e.2.nexthop, ∀ f ∈ l, f.1 <+: b → f.2.nexthop ≠ none

instance (l : List (Bits × Route)) : Decidable (Lost l) :=
  inferInstanceAs (Decidable (∀ e ∈ l, ∀ b ∈ e.2.nexthop, ∀ f ∈ l, f.1 <+: b → f.2.nexthop ≠ none))

/-- A route with a prefix of its own joins the routes `V` and `I` of the two tables, and searches keep
descending from ranks below `c`. -/
abbrev JoinCheck (rank : Bits × Route → ℕ) (c limit : ℕ) (V I : List (Bits × Route)) (e : Bits × Route) : Prop :=
  (∀ f ∈ V ++ I, f.1 ≠ e.1) ∧ (∀ f ∈ I, ∀ g ∈ V, g.1 ≠ f.1) ∧ Descends rank V V ∧
    Descends rank (e::V) (e::(V ++ I)) ∧ (∀ f ∈ e::(V ++ I), rank f < c) ∧ 2*I.length+c+3 ≤ limit

/-- A route leaves, and of the others of `V` only connected ones resolve. -/
abbrev LeaveCheck (rank : Bits × Route → ℕ) (c limit : ℕ) (V I : List (Bits × Route)) (e : Bits × Route) : Prop :=
  (∀ f ∈ V ++ I, f.1 = e.1 → f.2.id = e.2.id → f.2 = e.2) ∧ (∀ f ∈ V, ∀ g ∈ I, g.1 ≠ f.1) ∧
    Descends rank V V ∧ Lost (V.filter fun f => f.1 ≠ e.1) ∧ Descends rank [] (V.filter fun f => f.1 ≠ e.1) ∧
    (∀ f ∈ V, rank f < c) ∧ 2*V.length+c+3 ≤ limit

theorem ncard_le_length {S : Set (Bits × Route)} {l : List (Bits × Route)} (h : ∀ e ∈ S, e ∈ l) :
    S.ncard ≤ l.length := by
  classical
  calc S.ncard ≤ (l.toFinset : Set (Bits × Route)).ncard :=
        Set.ncard_le_ncard (fun e he => by simpa using h e he) (Finset.finite_toSet _)
    _ = l.toFinset.card := Set.ncard_coe_finset _
    _ ≤ l.length := l.toFinset_card_le

section
variable {rank : Bits × Route → ℕ} {S A : Set (Bits × Route)} {l l' : List (Bits × Route)} {e : Bits × Route}

theorem Descends.ranked (h : Descends rank l l') (hS : ∀ e ∈ l, e ∈ S) (hA : ∀ e ∈ A, e ∈ l') :
    Ranked Route.nexthop S A rank :=
  fun e he b hb f hf hmay => h e (hA e he) b hb f (hA f hf) hmay.1 fun g hg => hmay.2 g (hS g hg)

theorem reached_mem (h : Reached Route.nexthop S A e) : e ∈ S ∨ e ∈ A := by
  cases h with
  | base he => exact Or.inl he
  | step he _ _ _ => exact Or.inr he

theorem Lost.not_resolves (h : Lost l) (hS : ∀ e ∈ S, e ∈ l) (he : e ∈ S) {b : Bits}
    (hb : e.2.nexthop = some b) : ¬ Resolves Route.nexthop S b := by
  rintro ⟨n,hn⟩
  generalize hv : true = v at hn
  induction hn generalizing e with
  | missing _ => cases hv
  | final hf hfinal => exact h e (hS e he) _ hb _ (hS _ hf.1) hf.2.1 hfinal
  | via hf hc _ ih => exact ih hf.1 hc hv

end

section
variable {T : Type} [RadixOps T (List Route)] [LawfulRadix T (List Route)] {rib : Rib T} {limit c : ℕ}
variable {p : Bits} {route : Route} {rank : Bits × Route → ℕ}

theorem shallow_of_descends {t : T} (ht : Single t) (h : Descends rank (routes t) (routes t))
    (hc : ∀ e ∈ routes t, rank e < c) : Shallow Route.nexthop c (heads t) :=
  Ranked.shallow (onePer_heads t) (h.ranked (fun _ => (mem_routes ht).mp) fun _ => heads_routes)
    fun e he => hc e (heads_routes he)

theorem updateOk_of_check (rank : Bits × Route → ℕ) (c : ℕ) (hv : Single rib.valid)
    (h : JoinCheck rank c limit (routes rib.valid) (routes rib.invalid) (p,route)) : UpdateOk limit rib p route := by
  obtain ⟨hfree,hapart,hold,hnew,hc,hlimit⟩ := h
  have hreached : ∀ e, Reached Route.nexthop (insert (p,route) (heads rib.valid)) (heads rib.invalid) e →
      e ∈ (p,route)::(routes rib.valid ++ routes rib.invalid) := by
    intro e he
    rw [List.mem_cons,List.mem_append]
    rcases reached_mem he with (rfl | he) | he
    · exact Or.inl rfl
    · exact Or.inr (Or.inl (heads_routes he))
    · exact Or.inr (Or.inr (heads_routes he))
  have hfreeValid : ∀ e ∈ heads rib.valid, e.1 ≠ p :=
    fun e he => hfree e (List.mem_append_left _ (heads_routes he))
  have hfreeInvalid : ∀ e ∈ heads rib.invalid, e.1 ≠ p :=
    fun e he => hfree e (List.mem_append_right _ (heads_routes he))
  refine ⟨c,shallow_of_descends hv hold fun e he => hc e (by simp [he]),?_,fun _ => ⟨hfreeInvalid,by omega⟩⟩
  refine fun _ => ⟨hfreeValid,⟨⟨rank,hnew.ranked ?_ hreached,fun e he => hc e (hreached e he)⟩,?_⟩,?_⟩
  · intro e he
    rcases List.mem_cons.mp he with rfl | he
    · exact Set.mem_insert _ _
    · exact Set.mem_insert_of_mem _ ((mem_routes hv).mp he)
  · rintro e ⟨he,-⟩ g (rfl | hg)
    · exact (hfreeInvalid e he).symm
    · exact hapart e (heads_routes he) g (heads_routes hg)
  · have hcard := ncard_le_length fun e (he : e ∈ pending (insert (p,route) (heads rib.valid))
      (heads rib.invalid) rib) => heads_routes he.1
    omega

theorem removeOk_of_check (rank : Bits × Route → ℕ) (c : ℕ) (hv : Single rib.valid)
    (h : LeaveCheck rank c limit (routes rib.valid) (routes rib.invalid) (p,route)) : RemoveOk limit rib p route := by
  obtain ⟨hroute,hapart,hold,hlost,hrest,hc,hlimit⟩ := h
  have hmem : ∀ e ∈ {f ∈ heads rib.valid | f.1 ≠ p}, e ∈ (routes rib.valid).filter fun e => e.1 ≠ p :=
    fun e he => List.mem_filter.mpr ⟨heads_routes he.1,by simpa using he.2⟩
  have hstranded : ∀ e ∈ {f ∈ heads rib.valid | f.1 ≠ p}, e.2.nexthop ≠ none →
      Stranded Route.nexthop {f ∈ heads rib.valid | f.1 ≠ p} e := by
    intro e he hne
    obtain ⟨b,hb⟩ := Option.ne_none_iff_exists'.mp hne
    exact ⟨b,hb,hlost.not_resolves hmem he hb⟩
  have hranked : Ranked Route.nexthop ∅ {f ∈ heads rib.valid | f.1 ≠ p} rank := hrest.ranked (by simp) hmem
  refine ⟨?_,c,shallow_of_descends hv hold hc,by omega,fun _ _ _ _ => ⟨⟨?_,⟨rank,?_,?_⟩,?_⟩,?_⟩⟩
  · intro e he hp hid
    have hin : e ∈ routes rib.valid ++ routes rib.invalid := by
      rcases he with he | he
      · exact List.mem_append_left _ (heads_routes he)
      · exact List.mem_append_right _ (heads_routes he)
    rw [hroute e hin hp hid]
  · refine Ranked.shallow ?_ (hranked.between (Set.empty_subset _) subset_rfl)
      fun e he => hc e (heads_routes he.1)
    exact fun e he f hf => onePer_heads _ e he.1 f hf.1
  · intro e he _ b hb f hf hfb
    refine ⟨hstranded f hf (hlost e (hmem e he) b hb f (hmem f hf) hfb),?_⟩
    exact hranked e he b hb f hf ⟨hfb,by simp⟩
  · exact fun e he _ => hc e (heads_routes he.1)
  · exact fun f hf _ g hg => hapart f (heads_routes hf.1) g (heads_routes hg)
  · have hcard := ncard_le_length fun e (he : e ∈ {f ∈ {f ∈ heads rib.valid | f.1 ≠ p} |
      Stranded Route.nexthop {f ∈ heads rib.valid | f.1 ≠ p} f}) => heads_routes he.1.1
    omega

end

end Exabgp
end Ixmap
