import Ixmap.Rib

/-! What one change of the routing information base sets off. Adding a route to `unicast-valid` moves
routes there until no further one resolves; taking one out moves routes away until the others resolve. -/
namespace Ixmap
namespace Exabgp
open RadixTable RadixOps NextHop

section Rules
variable {T : Type} [RadixOps T (List Route)]

/-- The task returns, and what it sees of `unicast-valid` has property `P`. -/
structure Runs (P : T → Prop) (fuel : ℕ) (rib : Rib T) (task : Task) (rib' : Rib T) : Prop where
  returns : task.run fuel rib = some rib'
  sees : ∀ x, Sees fuel rib task x → P x.valid
  done : P rib'.valid

variable {P Q : T → Prop} {fuel : ℕ} {rib rib₁ rib₂ : Rib T} {task : Task} {k src dest : Kind} {p : Bits}
variable {route cur : Route} {info : List Route} {target : Target}

theorem Runs.imp (h : Runs P fuel rib task rib₁) (hPQ : ∀ t, P t → Q t) : Runs Q fuel rib task rib₁ :=
  ⟨h.returns,fun x hx => hPQ _ (h.sees x hx),hPQ _ h.done⟩

theorem Runs.find_none (h : firstUpdated rib.valid fuel k (routes (rib.table k)) = some none)
    (hP : P rib.valid) : Runs P (fuel+1) rib (.find k) rib := by
  refine ⟨by simp only [Task.run,Rib.routeFindUpdated,h],?_,hP⟩
  intro x hx
  cases hx with
  | find hf _ => simp [h] at hf

theorem Runs.find_some (h : firstUpdated rib.valid fuel k (routes (rib.table k)) = some (some (p,route)))
    (hm : Runs P fuel rib (.migrate p route k k.other) rib₁) : Runs P (fuel+1) rib (.find k) rib₁ := by
  refine ⟨?_,?_,hm.done⟩
  · simpa only [Task.run,Rib.routeFindUpdated,h] using hm.returns
  · intro x hx
    cases hx with
    | find hf hx =>
      simp only [h,Option.some_inj,Prod.mk.injEq] at hf
      obtain ⟨rfl,rfl⟩ := hf
      exact hm.sees x hx

theorem Runs.migrate (hx : searchExact (rib.table src) p = some info)
    (hout : Runs P fuel rib (.takeOut src p info route) rib₁) (hin : Runs P fuel rib₁ (.putIn dest p route) rib₂) :
    Runs P (fuel+1) rib (.migrate p route src dest) rib₂ := by
  have htake : rib.takeOut (Rib.routeFindUpdated fuel) fuel src p info route = some rib₁ := hout.returns
  refine ⟨?_,?_,hin.done⟩
  · simpa only [Task.run,Rib.migrate,hx,htake] using hin.returns
  · intro x hs
    cases hs with
    | out hx' hs =>
      rw [hx,Option.some_inj] at hx'
      subst hx'
      exact hout.sees x hs
    | into hx' hout' hs =>
      rw [hx,Option.some_inj] at hx'
      subst hx'
      rw [htake,Option.some_inj] at hout'
      subst hout'
      exact hin.sees x hs

theorem routeRemove_same (hid : cur.id = route.id) : routeRemove [cur] route = (0,[]) := by
  simp [routeRemove,hid]

theorem routeRemove_other (hid : cur.id ≠ route.id) : routeRemove [cur] route = (0,[cur]) := by
  simp [routeRemove,hid]

theorem Runs.takeOut_valid (hid : cur.id = route.id) (hfuel : 0 < fuel)
    (hP : P (delete (put rib.valid p []) p))
    (h : Runs P fuel (Rib.print { rib with valid := delete (put rib.valid p []) p } (.delete p))
      (.find .valid) rib₁) : Runs P fuel rib (.takeOut .valid p [cur] route) rib₁ := by
  refine ⟨?_,?_,h.done⟩
  · simpa [Task.run,Rib.takeOut,routeRemove_same hid,Rib.setTable,Rib.table,hfuel.ne'] using h.returns
  · intro x hx
    cases hx with
    | left hr => simp [routeRemove_same hid] at hr
    | deleted _ => exact hP
    | deletedFind _ hx => exact h.sees x hx

theorem Runs.takeOut_invalid (hid : cur.id = route.id) (hfuel : 0 < fuel) (hP : P rib.valid) :
    Runs P fuel rib (.takeOut .invalid p [cur] route)
      { rib with invalid := delete (put rib.invalid p []) p } := by
  refine ⟨?_,?_,hP⟩
  · simp [Task.run,Rib.takeOut,routeRemove_same hid,Rib.setTable,Rib.table,hfuel.ne']
  · intro x hx
    cases hx with
    | left hr => simp [routeRemove_same hid] at hr
    | deleted _ => exact hP

/-- Another route of the prefix stays, and is announced once more. -/
theorem Runs.takeOut_other_valid (hid : cur.id ≠ route.id) (hfuel : 0 < fuel) (hP : P (put rib.valid p [cur]))
    (ht : routeNexthop (put rib.valid p [cur]) fuel cur = some target) :
    Runs P fuel rib (.takeOut .valid p [cur] route)
      (Rib.print { rib with valid := put rib.valid p [cur] } (.update p target)) := by
  refine ⟨?_,?_,hP⟩
  · simp [Task.run,Rib.takeOut,routeRemove_other hid,Rib.setTable,Rib.table,Rib.printUpdate,ht,hfuel.ne']
  · intro x hx
    cases hx with
    | left _ => simpa only [routeRemove_other hid,Rib.setTable,Rib.table] using hP
    | deleted hr => simp [routeRemove_other hid] at hr
    | deletedFind hr _ => simp [routeRemove_other hid] at hr

theorem Runs.takeOut_other_invalid (hid : cur.id ≠ route.id) (hfuel : 0 < fuel) (hP : P rib.valid) :
    Runs P fuel rib (.takeOut .invalid p [cur] route) { rib with invalid := put rib.invalid p [cur] } := by
  refine ⟨?_,?_,hP⟩
  · simp [Task.run,Rib.takeOut,routeRemove_other hid,Rib.setTable,Rib.table,hfuel.ne']
  · intro x hx
    cases hx with
    | left _ => exact hP
    | deleted hr => simp [routeRemove_other hid] at hr

theorem routeInsert_nil (route : Route) : routeInsert [] route = some (0,[route]) := rfl

theorem Runs.putIn_valid (hx : searchExact rib.valid p = none) (hfuel : 0 < fuel)
    (hP : P (put rib.valid p [route])) (ht : routeNexthop (put rib.valid p [route]) fuel route = some target)
    (h : Runs P fuel (Rib.print { rib with valid := put rib.valid p [route] } (.update p target))
      (.find .invalid) rib₁) : Runs P fuel rib (.putIn .valid p route) rib₁ := by
  have hnil : routeInsert ((searchExact rib.valid p).getD []) route = some (0,[route]) := by
    rw [hx]
    exact routeInsert_nil route
  have hprint : (rib.setTable .valid (put rib.valid p [route])).printUpdate fuel p [route] =
      some (Rib.print { rib with valid := put rib.valid p [route] } (.update p target)) := by
    simp [Rib.setTable,Rib.printUpdate,ht]
  refine ⟨?_,?_,h.done⟩
  · have hput := h.returns
    simp only [Task.run] at hput
    simp only [Task.run,Rib.putIn,Rib.table,hnil,hfuel.ne',if_false,and_self,if_true,hprint,hput]
  · intro x hs
    cases hs with
    | stored hi =>
      simp only [Rib.table,hnil,Option.some_inj,Prod.mk.injEq] at hi
      obtain ⟨-,rfl⟩ := hi
      exact hP
    | storedFind hi hp hs =>
      simp only [hnil,Option.some_inj,Prod.mk.injEq,true_and] at hi
      subst hi
      rw [hprint,Option.some_inj] at hp
      subst hp
      exact h.sees x hs

theorem Runs.putIn_invalid (hx : searchExact rib.invalid p = none) (hfuel : 0 < fuel) (hP : P rib.valid) :
    Runs P fuel rib (.putIn .invalid p route) { rib with invalid := put rib.invalid p [route] } := by
  refine ⟨?_,?_,hP⟩
  · simp [Task.run,Rib.putIn,Rib.table,hx,routeInsert_nil,Rib.setTable,hfuel.ne']
  · intro x hs
    cases hs with
    | stored _ => exact hP

theorem Runs.update (hk : rib.tableFor fuel route = some k) (hin : Runs P fuel rib (.putIn k p route) rib₁) :
    Runs P (fuel+1) rib (.update p route) rib₁ := by
  refine ⟨?_,?_,hin.done⟩
  · simpa only [Task.run,Rib.update,hk,Option.bind_some] using hin.returns
  · intro x hs
    cases hs with
    | update hk' hs =>
      rw [hk,Option.some_inj] at hk'
      subst hk'
      exact hin.sees x hs

theorem Runs.remove_absent (hk : rib.tableFor fuel route = some k) (hx : searchExact (rib.table k) p = none)
    (hP : P rib.valid) : Runs P (fuel+1) rib (.remove p route) rib := by
  refine ⟨by simp only [Task.run,Rib.remove,hk,Option.bind_some,hx],?_,hP⟩
  intro x hs
  cases hs with
  | remove hk' hx' _ =>
    rw [hk,Option.some_inj] at hk'
    subst hk'
    simp [hx] at hx'

theorem Runs.remove (hk : rib.tableFor fuel route = some k) (hx : searchExact (rib.table k) p = some info)
    (hout : Runs P fuel rib (.takeOut k p info route) rib₁) : Runs P (fuel+1) rib (.remove p route) rib₁ := by
  refine ⟨?_,?_,hout.done⟩
  · simpa only [Task.run,Rib.remove,hk,Option.bind_some,hx] using hout.returns
  · intro x hs
    cases hs with
    | remove hk' hx' hs =>
      rw [hk,Option.some_inj] at hk'
      subst hk'
      rw [hx,Option.some_inj] at hx'
      subst hx'
      exact hout.sees x hs

end Rules

section Tables
variable {T : Type} [RadixOps T (List Route)]

/-- All routes, when every prefix has one. -/
def content (rib : Rib T) : Set (Bits × Route) := heads rib.valid ∪ heads rib.invalid

/-- Every prefix of a table has one route, and connected routes are valid. -/
structure Tidy (rib : Rib T) : Prop where
  valid : Single rib.valid
  invalid : Single rib.invalid
  remote : ∀ e ∈ heads rib.invalid, e.2.nexthop ≠ none

/-- Routes are valid exactly when their next hop resolves. -/
structure Consistent (rib : Rib T) : Prop extends Tidy rib where
  resolved : AllResolve Route.nexthop (heads rib.valid)
  unresolved : ∀ e ∈ heads rib.invalid, ∀ b, e.2.nexthop = some b → ∀ f ∈ heads rib.valid, ¬ f.1 <+: b

/-- The routes of `unicast-invalid` that can come to resolve while `S` grows. -/
def pending (S A : Set (Bits × Route)) (rib : Rib T) : Set (Bits × Route) :=
  {e ∈ heads rib.invalid | Reached Route.nexthop S A e}

/-- What holds while routes migrate to `unicast-valid`: it has grown from `S` by routes of `A` that are
reached, every route in it is matched, and no route that may still come meets another one at its prefix. -/
structure Growing (S A : Set (Bits × Route)) (rib : Rib T) : Prop where
  tidy : Tidy rib
  lower : S ⊆ heads rib.valid
  upper : heads rib.valid ⊆ {e | Reached Route.nexthop S A e}
  within : heads rib.invalid ⊆ A
  matched : ∀ e ∈ heads rib.valid, ∀ b, e.2.nexthop = some b → ∃ f ∈ heads rib.valid, f.1 <+: b
  apart : ∀ e ∈ pending S A rib, ∀ g ∈ heads rib.valid, g.1 ≠ e.1

/-- What holds while routes migrate to `unicast-invalid`: what is left of `S` has all of its routes that
resolve, and the others meet no route at their prefix. -/
structure Shrinking (S : Set (Bits × Route)) (rib : Rib T) : Prop where
  tidy : Tidy rib
  upper : heads rib.valid ⊆ S
  lower : ∀ e ∈ S, ¬ Stranded Route.nexthop S e → e ∈ heads rib.valid
  apart : ∀ e ∈ heads rib.valid, Stranded Route.nexthop S e → ∀ g ∈ heads rib.invalid, g.1 ≠ e.1

/-- The route belongs to `unicast-valid` as the tables are. -/
def Accepted (rib : Rib T) (route : Route) : Prop :=
  ∀ b, route.nexthop = some b → Resolves Route.nexthop (heads rib.valid) b

/-- A route can be added to `unicast-valid`: its prefix is free there; no next hop of a route that the
addition reaches can come to be matched by a route that depends on it, and chains of such matches stay below
`c`; no route it can move meets another one at its prefix. -/
structure GrowOk (c : ℕ) (S A : Set (Bits × Route)) (rib : Rib T) : Prop where
  ranked : ∃ rank, Ranked Route.nexthop S {e | Reached Route.nexthop S A e} rank ∧
    ∀ e, Reached Route.nexthop S A e → rank e < c
  apart : ∀ e ∈ pending S A rib, ∀ g ∈ S, g.1 ≠ e.1

/-- With the routes `S` left in `unicast-valid`, those that do not resolve are matched by one another only,
without a loop, and meet no route at their prefix in `unicast-invalid`; chains of matches stay below `c`. -/
structure ShrinkOk (c : ℕ) (S : Set (Bits × Route)) (rib : Rib T) : Prop where
  shallow : Shallow Route.nexthop c S
  sheds : ∃ rank, Sheds Route.nexthop S rank ∧ ∀ e ∈ S, Stranded Route.nexthop S e → rank e < c
  apart : ∀ f ∈ S, Stranded Route.nexthop S f → ∀ g ∈ heads rib.invalid, g.1 ≠ f.1

/-- An update within `limit` nested calls, two for every route it can move and one for every match. -/
def UpdateOk (limit : ℕ) (rib : Rib T) (p : Bits) (route : Route) : Prop :=
  ∃ c, Shallow Route.nexthop c (heads rib.valid) ∧
    (Accepted rib route →
      (∀ e ∈ heads rib.valid, e.1 ≠ p) ∧ GrowOk c (insert (p,route) (heads rib.valid)) (heads rib.invalid) rib ∧
      2*(pending (insert (p,route) (heads rib.valid)) (heads rib.invalid) rib).ncard+c+3 ≤ limit) ∧
    (¬ Accepted rib route → (∀ e ∈ heads rib.invalid, e.1 ≠ p) ∧ c+2 ≤ limit)

/-- A removal whose next hop chooses the table the route is in. When that is `unicast-valid`, the routes left
there can be sorted out within `limit` nested calls. -/
def RemoveOk (limit : ℕ) (rib : Rib T) (p : Bits) (route : Route) : Prop :=
  (∀ e ∈ content rib, e.1 = p → e.2.id = route.id → (Accepted rib e.2 ↔ Accepted rib route)) ∧
  ∃ c, Shallow Route.nexthop c (heads rib.valid) ∧ c+2 ≤ limit ∧
    ∀ e ∈ heads rib.valid, e.1 = p → e.2.id = route.id →
      ShrinkOk c {f ∈ heads rib.valid | f.1 ≠ p} rib ∧
      2*({f ∈ {f ∈ heads rib.valid | f.1 ≠ p} |
        Stranded Route.nexthop {f ∈ heads rib.valid | f.1 ≠ p} f}).ncard+c+3 ≤ limit

def Others (p : Bits) (route : Route) (S : Set (Bits × Route)) : Set (Bits × Route) :=
  {e ∈ S | ¬ (e.1 = p ∧ e.2.id = route.id)}

variable {rib : Rib T} {S A : Set (Bits × Route)} {rank : Bits × Route → ℕ} {e : Bits × Route} {c : ℕ}
variable {p : Bits} {route : Route}

theorem Consistent.searchable (h : Consistent rib) (hc : Shallow Route.nexthop c (heads rib.valid)) :
    Searchable c rib.valid := ⟨h.valid.filled,h.resolved.leads hc⟩

theorem Growing.allResolve (hrank : Ranked Route.nexthop S {e | Reached Route.nexthop S A e} rank)
    (h : Growing S A rib) : AllResolve Route.nexthop (heads rib.valid) :=
  (hrank.between h.lower h.upper).allResolve h.matched

theorem Growing.searchable (hrank : Ranked Route.nexthop S {e | Reached Route.nexthop S A e} rank)
    (hc : ∀ e, Reached Route.nexthop S A e → rank e < c) (h : Growing S A rib) :
    Searchable c rib.valid :=
  ⟨h.tidy.valid.filled,(hrank.between h.lower h.upper).leads fun e he => hc e (h.upper he)⟩

theorem Growing.reached (h : Growing S A rib) {b : Bits} (he : e ∈ heads rib.invalid) (hb : e.2.nexthop = some b)
    (hmatch : ∃ f ∈ heads rib.valid, f.1 <+: b) : e ∈ pending S A rib := by
  obtain ⟨f,hf,hfb⟩ := hmatch
  exact ⟨he,.step (h.within he) hb (h.upper hf) hfb⟩

theorem searchable_between {t : T} (hsheds : Sheds Route.nexthop S rank)
    (hc : ∀ e ∈ S, Stranded Route.nexthop S e → rank e < c) (hshallow : Shallow Route.nexthop c S) (ht : Single t) (hupper : heads t ⊆ S)
    (hlower : ∀ e ∈ S, ¬ Stranded Route.nexthop S e → e ∈ heads t) : Searchable (c+1) t :=
  ⟨ht.filled,hsheds.leads hc hshallow hupper hlower⟩

theorem Consistent.accepted_valid (h : Consistent rib) (he : e ∈ heads rib.valid) :
    Accepted rib e.2 := fun b hb => h.resolved e he b hb

theorem Consistent.not_accepted (h : Consistent rib) (he : e ∈ heads rib.invalid) : ¬ Accepted rib e.2 := by
  intro ha
  obtain ⟨b,hb⟩ := Option.ne_none_iff_exists'.mp (h.remote e he)
  obtain ⟨f,hf,hfb⟩ := (ha b hb).covered
  exact h.unresolved e he b hb f hf hfb

omit [RadixOps T (List Route)] in
theorem others_eq (h : ∀ e ∈ S, ¬ (e.1 = p ∧ e.2.id = route.id)) : Others p route S = S := by
  ext e
  exact ⟨fun he => he.1,fun he => ⟨he,h e he⟩⟩

theorem others_union (S S' : Set (Bits × Route)) :
    Others p route (S ∪ S') = Others p route S ∪ Others p route S' := by
  ext e
  exact or_and_right

theorem others_heads_absent {t : T} (h : ∀ e ∈ heads t, e.1 ≠ p) :
    Others p route (heads t) = heads t := others_eq fun e he hn => h e he hn.1

theorem Consistent.congr {rib' : Rib T} (h : Consistent rib) (hv : Single rib'.valid) (hi : Single rib'.invalid)
    (hvalid : heads rib'.valid = heads rib.valid) (hinvalid : heads rib'.invalid = heads rib.invalid) :
    Consistent rib' := by
  refine ⟨⟨hv,hi,?_⟩,?_,?_⟩
  · rw [hinvalid]
    exact h.remote
  · rw [hvalid]
    exact h.resolved
  · rw [hvalid,hinvalid]
    exact h.unresolved

end Tables

section Cascade
variable {T : Type} [RadixOps T (List Route)] [LawfulRadix T (List Route)]
variable {rib : Rib T} {S A : Set (Bits × Route)} {rank : Bits × Route → ℕ} {e : Bits × Route} {c fuel limit : ℕ}
variable {p : Bits} {route cur : Route}

theorem content_move (he : e ∈ heads rib.invalid) (hfree : ∀ g ∈ heads rib.valid, g.1 ≠ e.1) :
    heads (put rib.valid e.1 [e.2]) ∪ heads (delete (put rib.invalid e.1 []) e.1) = content rib := by
  rw [heads_put_new hfree,heads_delete]
  ext f
  simp only [content,Set.mem_union,Set.mem_insert_iff,Set.mem_sep_iff]
  constructor
  · rintro ((rfl | hf) | hf)
    · exact Or.inr he
    · exact Or.inl hf
    · exact Or.inr hf.1
  · rintro (hf | hf)
    · exact Or.inl (Or.inr hf)
    · by_cases hp : f.1 = e.1
      · exact Or.inl (Or.inl (onePer_heads _ f hf e he hp))
      · exact Or.inr ⟨hf,hp⟩

section Grow
theorem Growing.move (h : Growing S A rib) (he : e ∈ pending S A rib)
    (hmatch : ∀ b, e.2.nexthop = some b → ∃ f ∈ heads rib.valid, f.1 <+: b) (printed : List Line) :
    Growing S A ⟨put rib.valid e.1 [e.2],delete (put rib.invalid e.1 []) e.1,printed⟩ := by
  have hheads : heads (put rib.valid e.1 [e.2]) = insert e (heads rib.valid) := heads_put_new (h.apart e he)
  have hless : heads (delete (put rib.invalid e.1 []) e.1) ⊆ heads rib.invalid := by
    rw [heads_delete]
    exact fun f hf => hf.1
  constructor
  · exact ⟨h.tidy.valid.put _ _,h.tidy.invalid.delete _,fun f hf => h.tidy.remote f (hless hf)⟩
  · rw [hheads]
    exact h.lower.trans (Set.subset_insert _ _)
  · rw [hheads]
    exact Set.insert_subset he.2 h.upper
  · exact hless.trans h.within
  · rw [hheads]
    intro f hf b hb
    have hold : ∃ g ∈ heads rib.valid, g.1 <+: b := by
      rcases hf with rfl | hf
      · exact hmatch b hb
      · exact h.matched f hf b hb
    obtain ⟨g,hg,hgb⟩ := hold
    exact ⟨g,Set.mem_insert_of_mem _ hg,hgb⟩
  · rintro f ⟨hf,hfr⟩ g hg
    rw [hheads] at hg
    rcases hg with rfl | hg
    · rw [heads_delete] at hf
      exact Ne.symm hf.2
    · exact h.apart f ⟨hless hf,hfr⟩ g hg

/-- The invalid routes that come to resolve move over one by one, and in the end every route is in its
table. -/
theorem find_invalid (hrank : Ranked Route.nexthop S {e | Reached Route.nexthop S A e} rank)
    (hc : ∀ e, Reached Route.nexthop S A e → rank e < c) (h : Growing S A rib)
    (hfuel : 2*(pending S A rib).ncard+c+2 ≤ fuel) :
    ∃ rib', Runs (Searchable c) fuel rib (.find .invalid) rib' ∧ Consistent rib' ∧
      content rib' = content rib := by
  -- every migration leaves one route fewer that can still move
  induction hn : (pending S A rib).ncard using Nat.strong_induction_on generalizing rib fuel with
  | _ n ih =>
    obtain ⟨fuel,rfl⟩ : ∃ k, fuel = k+2 := ⟨fuel-2,by omega⟩
    have htidy := h.tidy
    have hsearch := h.searchable hrank hc
    have hfirst : Scans rib.valid (fuel+1) .invalid
        (fun e => ∃ b, e.2.nexthop = some b ∧ ∃ f ∈ heads rib.valid, f.1 <+: b) (routes rib.invalid) := by
      refine scans .invalid _ ?_ fun _ e he => htidy.remote e ((mem_routes htidy.invalid).mp he)
      intro e _ b hb
      simp only [hb,Option.some_inj,exists_eq_left']
      refine ⟨?_,fun hno => validate_eq hsearch.filled (n := c) (.missing fun f hf hfb => hno ⟨f,hf,hfb⟩) (by omega)⟩
      intro hmatch
      obtain ⟨v,hv⟩ := hsearch.leads b
      rw [hv.resolves h.matched hmatch] at hv
      exact validate_eq hsearch.filled hv (by omega)
    rcases hfirst with ⟨e,he,-,hwrong,hfirst⟩ | ⟨hall,hfirst⟩
    · rw [mem_routes htidy.invalid] at he
      obtain ⟨b,hb,hmatch⟩ := hwrong.mpr rfl
      have hpend := h.reached he hb hmatch
      have hfree := h.apart e hpend
      have hmove := h.move hpend fun b' hb' => by
        rw [hb,Option.some_inj] at hb'
        exact hb' ▸ hmatch
      have hmoved := fun printed => (hmove printed).searchable hrank hc
      have hcard : ∀ printed, (pending S A
          (Rib.mk (put rib.valid e.1 [e.2]) (delete (put rib.invalid e.1 []) e.1) printed)).ncard+1 = n :=
        fun _ => (ncard_delete he hpend.2).trans hn
      have hpos : c < fuel := by
        have hone := hcard []
        omega
      obtain ⟨target,htarget⟩ := nexthop_eq e.2 (hmoved []).filled hpos fun a _ => (hmoved []).leads a
      have hless := hcard (rib.printed ++ [.update e.1 target])
      obtain ⟨rib',hruns,hcons,hcontent⟩ := @ih _ (by omega) _ fuel
        (hmove (rib.printed ++ [.update e.1 target])) (by omega) rfl
      refine ⟨rib',?_,hcons,hcontent.trans (content_move he hfree)⟩
      refine .find_some hfirst (.migrate (searchExact_heads htidy.invalid he)
        (.takeOut_invalid rfl (by omega) hsearch) ?_)
      exact .putIn_valid (searchExact_absent htidy.valid hfree) (by omega) (hmoved []) htarget hruns
    · refine ⟨rib,.find_none hfirst hsearch,⟨htidy,h.allResolve hrank,?_⟩,rfl⟩
      intro e he b hb f hf hfb
      apply hall e ((mem_routes htidy.invalid).mpr he) (by simp [hb])
      exact ⟨fun _ => rfl,fun _ => ⟨b,hb,f,hf,hfb⟩⟩

end Grow

section Shrink

theorem Shrinking.drop (h : Shrinking S rib) (he : e ∈ heads rib.valid)
    (hs : Stranded Route.nexthop S e) (printed : List Line) :
    Shrinking S ⟨delete (put rib.valid e.1 []) e.1,rib.invalid,printed⟩ := by
  constructor
  · exact ⟨h.tidy.valid.delete _,h.tidy.invalid,h.tidy.remote⟩
  · intro f hf
    rw [heads_delete] at hf
    exact h.upper hf.1
  · intro f hf hfs
    rw [heads_delete]
    refine ⟨h.lower f hf hfs,?_⟩
    intro hp
    rw [onePer_heads _ f (h.lower f hf hfs) e he hp] at hfs
    exact hfs hs
  · intro f hf
    rw [heads_delete] at hf
    exact h.apart f hf.1

variable (hsheds : Sheds Route.nexthop S rank) (hc : ∀ e ∈ S, Stranded Route.nexthop S e → rank e < c)
variable (hshallow : Shallow Route.nexthop c S)
include hsheds hc hshallow

/-- The valid routes that no longer resolve move over, and the others stay. -/
theorem find_valid (h : Shrinking S rib)
    (hfuel : 2*({e ∈ heads rib.valid | Stranded Route.nexthop S e}).ncard+c+2 ≤ fuel) :
    ∃ rib', Runs (Searchable (c+1)) fuel rib (.find .valid) rib' ∧ Tidy rib' ∧
      heads rib'.valid = {e ∈ heads rib.valid | ¬ Stranded Route.nexthop S e} ∧
      heads rib'.invalid = heads rib.invalid ∪ {e ∈ heads rib.valid | Stranded Route.nexthop S e} := by
  -- every migration leaves one route fewer that does not resolve
  induction hn : ({e ∈ heads rib.valid | Stranded Route.nexthop S e}).ncard using Nat.strong_induction_on
    generalizing rib fuel with
  | _ n ih =>
    obtain ⟨fuel,rfl⟩ : ∃ k, fuel = k+2 := ⟨fuel-2,by omega⟩
    have htidy := h.tidy
    have hsearch := searchable_between hsheds hc hshallow htidy.valid h.upper h.lower
    have hfirst : Scans rib.valid (fuel+1) .valid (fun e => ¬ Stranded Route.nexthop S e) (routes rib.valid) := by
      refine scans .valid _ ?_ fun hk => by cases hk
      intro e he b hb
      rw [mem_routes htidy.valid] at he
      refine ⟨?_,?_⟩
      · intro hs
        obtain ⟨n,hn⟩ := resolves_of_not_stranded hs hb
        exact validate_eq hsearch.filled ((hshallow n b true hn).shrink h.upper h.lower) (by omega)
      · intro hs
        have hlt := hc e (h.upper he) (not_not.mp hs)
        exact validate_eq hsearch.filled (hsheds.fails h.upper he (not_not.mp hs) hb) (by omega)
    rcases hfirst with ⟨e,he,-,hwrong,hfirst⟩ | ⟨hall,hfirst⟩
    · rw [mem_routes htidy.valid] at he
      have hs : Stranded Route.nexthop S e := by simpa using hwrong
      have hcard : ({f ∈ heads (Rib.mk (delete (put rib.valid e.1 []) e.1) rib.invalid
          (rib.printed ++ [.delete e.1])).valid | Stranded Route.nexthop S f}).ncard+1 = n :=
        (ncard_delete he hs).trans hn
      have hdrop := h.drop he hs (rib.printed ++ [.delete e.1])
      obtain ⟨rib₁,hruns,htidy₁,hvalid₁,hinvalid₁⟩ := @ih _ (by omega) _ fuel hdrop (by omega) rfl
      dsimp only at hvalid₁ hinvalid₁
      have hfree : ∀ g ∈ heads rib₁.invalid, g.1 ≠ e.1 := by
        rw [hinvalid₁,heads_delete]
        rintro g (hg | hg)
        · exact h.apart e he hs g hg
        · exact hg.1.2
      have hdropped := searchable_between hsheds hc hshallow hdrop.tidy.valid hdrop.upper hdrop.lower
      refine ⟨{ rib₁ with invalid := put rib₁.invalid e.1 [e.2] },?_,?_,?_,?_⟩
      · exact .find_some hfirst (.migrate (searchExact_heads htidy.valid he)
          (.takeOut_valid rfl (by omega) hdropped hruns)
          (.putIn_invalid (searchExact_absent htidy₁.invalid hfree) (by omega) hruns.done))
      · refine ⟨htidy₁.valid,htidy₁.invalid.put _ _,?_⟩
        dsimp only
        rw [heads_put_new hfree]
        rintro f (rfl | hf)
        · obtain ⟨b,hb,-⟩ := hs
          simp [hb]
        · exact htidy₁.remote f hf
      · exact hvalid₁.trans (heads_delete_not he hs)
      · dsimp only
        rw [heads_put_new hfree,hinvalid₁,← Set.union_insert]
        exact congrArg _ (heads_delete_insert he hs)
    · have hstay : ∀ e ∈ heads rib.valid, ¬ Stranded Route.nexthop S e := by
        intro e he hs
        obtain ⟨b,hb,-⟩ := id hs
        exact hall e ((mem_routes htidy.valid).mpr he) (by simp [hb]) (by simp [hs])
      refine ⟨rib,.find_none hfirst hsearch,htidy,?_,?_⟩
      · ext e
        exact ⟨fun he => ⟨he,hstay e he⟩,fun he => he.1⟩
      · ext e
        refine ⟨Or.inl,?_⟩
        rintro (he | ⟨he,hs⟩)
        · exact he
        · exact absurd hs (hstay e he)

end Shrink

section Calls

theorem consistent_empty : Consistent (⟨empty,empty,[]⟩ : Rib T) := by
  refine ⟨⟨single_empty,single_empty,?_⟩,?_,?_⟩
  · simp [heads_empty]
  · simp [heads_empty,AllResolve]
  · simp [heads_empty]

theorem tableFor_valid (h : Consistent rib) (hc : Shallow Route.nexthop c (heads rib.valid)) (hfuel : c < fuel)
    (ha : Accepted rib route) : rib.tableFor fuel route = some .valid := by
  cases hr : route.nexthop with
  | none => simp only [Rib.tableFor,hr]
  | some b =>
    obtain ⟨n,hn⟩ := ha b hr
    simp [Rib.tableFor,hr,validate_eq h.valid.filled (hc n b true hn) hfuel]

theorem tableFor_invalid (h : Consistent rib) (hfuel : 0 < fuel) (ha : ¬ Accepted rib route) :
    rib.tableFor fuel route = some .invalid := by
  cases hr : route.nexthop with
  | none => exact absurd (fun b hb => by simp [hr] at hb) ha
  | some b =>
    have hmissing : ∀ f ∈ heads rib.valid, ¬ f.1 <+: b := by
      intro f hf hfb
      apply ha
      intro b' hb'
      rw [hr,Option.some_inj] at hb'
      exact hb' ▸ h.resolved.of_covered ⟨f,hf,hfb⟩
    simp [Rib.tableFor,hr,validate_eq h.valid.filled (.missing hmissing) hfuel]

theorem Consistent.growing (h : Consistent rib) (ha : Accepted rib route) (hfree : ∀ e ∈ heads rib.valid, e.1 ≠ p)
    (hapart : ∀ e ∈ pending (insert (p,route) (heads rib.valid)) (heads rib.invalid) rib,
      ∀ g ∈ insert (p,route) (heads rib.valid), g.1 ≠ e.1) (printed : List Line) :
    Growing (insert (p,route) (heads rib.valid)) (heads rib.invalid)
      ⟨put rib.valid p [route],rib.invalid,printed⟩ := by
  have hheads : heads (put rib.valid p [route]) = insert (p,route) (heads rib.valid) := heads_put_new hfree
  constructor
  · exact ⟨h.valid.put _ _,h.invalid,h.remote⟩
  · exact hheads.symm.subset
  · rw [hheads]
    exact fun e he => .base he
  · exact subset_rfl
  · rw [hheads]
    intro e he b hb
    have hres : Resolves Route.nexthop (heads rib.valid) b := by
      rcases he with rfl | he
      · exact ha b hb
      · exact h.resolved e he b hb
    obtain ⟨f,hf,hfb⟩ := hres.covered
    exact ⟨f,Set.mem_insert_of_mem _ hf,hfb⟩
  · rw [hheads]
    exact hapart

/-- `Rib.update` adds its route and puts all routes in their tables. -/
theorem update_spec (h : Consistent rib) (hok : UpdateOk limit rib p route) :
    ∃ rib', Runs (Searchable (limit-1)) limit rib (.update p route) rib' ∧ Consistent rib' ∧
      content rib' = insert (p,route) (content rib) := by
  obtain ⟨c,hc,hvalid,hinvalid⟩ := hok
  by_cases ha : Accepted rib route
  · obtain ⟨hfree,⟨⟨rank,hrank,hbound⟩,hapart⟩,hlimit⟩ := hvalid ha
    obtain ⟨fuel,rfl⟩ : ∃ k, limit = k+1 := ⟨limit-1,by omega⟩
    have hgrow := h.growing ha hfree hapart
    have hsearch := fun printed => (hgrow printed).searchable hrank hbound
    obtain ⟨target,htarget⟩ := nexthop_eq route (hsearch []).filled (show c < fuel by omega)
      fun a _ => (hsearch []).leads a
    have hdepth : 2*(pending (insert (p,route) (heads rib.valid)) (heads rib.invalid)
        (Rib.mk (put rib.valid p [route]) rib.invalid (rib.printed ++ [.update p target]))).ncard+c+2 ≤ fuel :=
      Nat.le_of_succ_le_succ hlimit
    obtain ⟨rib',hruns,hcons,hcontent⟩ := find_invalid hrank hbound (hgrow _) hdepth
    refine ⟨rib',?_,hcons,?_⟩
    · have hin := Runs.putIn_valid (searchExact_absent h.valid hfree) (by omega) (hsearch []) htarget hruns
      exact (Runs.update (tableFor_valid h hc (by omega) ha) hin).imp fun t ht => ht.mono (by omega)
    · rw [hcontent,content,heads_put_new hfree,Set.insert_union]
      rfl
  · obtain ⟨hfree,hlimit⟩ := hinvalid ha
    obtain ⟨fuel,rfl⟩ : ∃ k, limit = k+1 := ⟨limit-1,by omega⟩
    have hheads : heads (put rib.invalid p [route]) = insert (p,route) (heads rib.invalid) := heads_put_new hfree
    have hsearch : Searchable (fuel+1-1) rib.valid := (h.searchable hc).mono (by omega)
    refine ⟨_,.update (tableFor_invalid h (by omega) ha)
      (.putIn_invalid (searchExact_absent h.invalid hfree) (by omega) hsearch),
      ⟨⟨h.valid,h.invalid.put _ _,?_⟩,h.resolved,?_⟩,?_⟩
    · dsimp only
      rw [hheads]
      rintro e (rfl | he)
      · intro hr
        exact ha fun b hb => by simp [hr] at hb
      · exact h.remote e he
    · dsimp only
      rw [hheads]
      rintro e (rfl | he) b hb f hf hfb
      · apply ha
        intro c hc
        rw [hb,Option.some_inj] at hc
        exact hc ▸ h.resolved.of_covered ⟨f,hf,hfb⟩
      · exact h.unresolved e he b hb f hf hfb
    · rw [content,hheads,Set.union_insert]
      rfl

theorem takeOut_spec (h : Consistent rib) (hid : cur.id = route.id)
    (hok : ShrinkOk c {f ∈ heads rib.valid | f.1 ≠ p} rib)
    (hfuel : 2*({f ∈ {f ∈ heads rib.valid | f.1 ≠ p} |
      Stranded Route.nexthop {f ∈ heads rib.valid | f.1 ≠ p} f}).ncard+c+2 ≤ fuel) :
    ∃ rib', Runs (Searchable (c+1)) fuel rib (.takeOut .valid p [cur] route) rib' ∧ Consistent rib' ∧
      content rib' = {f ∈ heads rib.valid | f.1 ≠ p} ∪ heads rib.invalid := by
  obtain ⟨hshallow,⟨rank,hsheds,hc⟩,hclash⟩ := hok
  have hheads : heads (delete (put rib.valid p []) p) = {f ∈ heads rib.valid | f.1 ≠ p} := heads_delete
  rw [← hheads] at hshallow hsheds hc hclash hfuel ⊢
  generalize hrest : heads (delete (put rib.valid p []) p) = rest at *
  have hshrink : Shrinking rest (Rib.print { rib with valid := delete (put rib.valid p []) p } (.delete p)) :=
    ⟨⟨h.valid.delete p,h.invalid,h.remote⟩,hrest.subset,fun e he _ => hrest.symm.subset he,
      fun e he hs => hclash e (hrest.subset he) hs⟩
  have hsearch := searchable_between hsheds hc hshallow hshrink.tidy.valid hshrink.upper hshrink.lower
  have hv : heads (Rib.print { rib with valid := delete (put rib.valid p []) p } (.delete p)).valid = rest := hrest
  have hdepth : 2*({e ∈ heads (Rib.print { rib with valid := delete (put rib.valid p []) p } (.delete p)).valid |
      Stranded Route.nexthop rest e}).ncard+c+2 ≤ fuel := by
    rw [hv]
    exact hfuel
  obtain ⟨rib',hruns,htidy,hvalid,hinvalid⟩ := find_valid hsheds hc hshallow hshrink hdepth
  rw [hv] at hvalid hinvalid
  refine ⟨rib',.takeOut_valid hid (by omega) hsearch hruns,⟨htidy,?_,?_⟩,?_⟩
  · rw [hvalid]
    rintro e ⟨he,hs⟩ b hb
    obtain ⟨n,hn⟩ := resolves_of_not_stranded hs hb
    exact ⟨n,hn.shrink (fun f hf => hf.1) (fun f hf hfs => ⟨hf,hfs⟩)⟩
  · rw [hvalid,hinvalid]
    rintro e (he | ⟨he,hs⟩) b hb f ⟨hf,hfs⟩ hfb
    · rw [hheads] at hf
      exact h.unresolved e he b hb f hf.1 hfb
    · exact hfs (hsheds e he hs b hb f hf hfb).1
  · rw [content,hvalid,hinvalid]
    ext e
    by_cases hs : Stranded Route.nexthop rest e
    · simp only [Set.mem_union,Set.mem_sep_iff,hs,not_true,and_false,false_or,and_true]
      exact or_comm
    · simp only [Set.mem_union,Set.mem_sep_iff,hs,not_false_eq_true,and_true,and_false,or_false]
      rfl

theorem others_heads {t : T} (hcur : (p,cur) ∈ heads t) (hid : cur.id = route.id) :
    Others p route (heads t) = {f ∈ heads t | f.1 ≠ p} := by
  ext e
  refine ⟨?_,fun he => ⟨he.1,fun hn => he.2 hn.1⟩⟩
  rintro ⟨he,hn⟩
  refine ⟨he,fun hp => hn ⟨hp,?_⟩⟩
  rw [onePer_heads t e he _ hcur hp]
  exact hid

theorem others_heads_other {t : T} (hcur : (p,cur) ∈ heads t) (hid : cur.id ≠ route.id) :
    Others p route (heads t) = heads t := by
  apply others_eq
  rintro e he ⟨hp,he'⟩
  apply hid
  rw [← he',onePer_heads t e he _ hcur hp]

/-- `Rib.remove` takes the route with its identifier out and puts all others in their tables. -/
theorem remove_spec (h : Consistent rib) (hok : RemoveOk limit rib p route) :
    ∃ rib', Runs (Searchable (limit-1)) limit rib (.remove p route) rib' ∧ Consistent rib' ∧
      content rib' = Others p route (content rib) := by
  obtain ⟨htable,c,hc,hlimit,hshed⟩ := hok
  obtain ⟨fuel,rfl⟩ : ∃ k, limit = k+1 := ⟨limit-1,by omega⟩
  have hsearch : Searchable (fuel+1-1) rib.valid := (h.searchable hc).mono (by omega)
  rw [content,others_union]
  by_cases ha : Accepted rib route
  · -- the route is not in the other table
    have hother : Others p route (heads rib.invalid) = heads rib.invalid := by
      apply others_eq
      rintro e he ⟨hp,hid⟩
      exact h.not_accepted he ((htable e (Or.inr he) hp hid).mpr ha)
    have hkind := tableFor_valid h hc (show c < fuel by omega) ha
    rw [hother]
    by_cases hx : ∀ e ∈ heads rib.valid, e.1 ≠ p
    · rw [others_heads_absent hx]
      exact ⟨rib,.remove_absent hkind (searchExact_absent h.valid hx) hsearch,h,rfl⟩
    push Not at hx
    obtain ⟨⟨q,cur⟩,hcur,rfl⟩ := hx
    have hexact : searchExact (rib.table .valid) q = some [cur] := searchExact_heads h.valid hcur
    by_cases hid : cur.id = route.id
    · rw [others_heads hcur hid]
      obtain ⟨hshrink,hdepth⟩ := hshed _ hcur rfl hid
      obtain ⟨rib',hruns,hcons,hcontent⟩ := takeOut_spec h hid hshrink (Nat.le_of_succ_le_succ hdepth)
      exact ⟨rib',.remove hkind hexact (hruns.imp fun t ht => ht.mono (by omega)),hcons,hcontent⟩
    · have hsame : heads (put rib.valid q [cur]) = heads rib.valid := heads_put_same hcur
      have hput : Searchable (fuel+1-1) (put rib.valid q [cur]) := by
        refine ⟨(h.valid.put q cur).filled,?_⟩
        rw [hsame]
        exact hsearch.leads
      rw [others_heads_other hcur hid]
      obtain ⟨target,htarget⟩ := nexthop_eq cur hput.filled (show c < fuel by omega) fun a _ => by
        rw [hsame]
        exact h.resolved.leads hc a
      refine ⟨_,.remove hkind hexact (.takeOut_other_valid hid (by omega) hput htarget),
        h.congr (h.valid.put q cur) h.invalid hsame rfl,?_⟩
      exact congrArg (· ∪ heads rib.invalid) hsame
  · have hother : Others p route (heads rib.valid) = heads rib.valid := by
      apply others_eq
      rintro e he ⟨hp,hid⟩
      exact ha ((htable e (Or.inl he) hp hid).mp (h.accepted_valid he))
    have hkind := tableFor_invalid h (show 0 < fuel by omega) ha
    rw [hother]
    by_cases hx : ∀ e ∈ heads rib.invalid, e.1 ≠ p
    · rw [others_heads_absent hx]
      exact ⟨rib,.remove_absent hkind (searchExact_absent h.invalid hx) hsearch,h,rfl⟩
    push Not at hx
    obtain ⟨⟨q,cur⟩,hcur,rfl⟩ := hx
    have hexact : searchExact (rib.table .invalid) q = some [cur] := searchExact_heads h.invalid hcur
    by_cases hid : cur.id = route.id
    · rw [others_heads hcur hid,← heads_delete]
      refine ⟨_,.remove hkind hexact (.takeOut_invalid hid (by omega) hsearch),
        ⟨⟨h.valid,h.invalid.delete q,?_⟩,h.resolved,?_⟩,rfl⟩
      · intro e he
        rw [heads_delete] at he
        exact h.remote e he.1
      · intro e he
        rw [heads_delete] at he
        exact h.unresolved e he.1
    · rw [others_heads_other hcur hid]
      have hsame : heads (put rib.invalid q [cur]) = heads rib.invalid := heads_put_same hcur
      refine ⟨_,.remove hkind hexact (.takeOut_other_invalid hid (by omega) hsearch),
        h.congr h.valid (h.invalid.put q cur) rfl hsame,?_⟩
      exact congrArg (heads rib.valid ∪ ·) hsame

end Calls

end Cascade

end Exabgp
end Ixmap
