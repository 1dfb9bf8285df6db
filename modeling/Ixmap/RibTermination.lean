import Ixmap.GuardedRun
import Ixmap.RibCheck

/-! When the recursions of `route_validate` and `route_nexthop` end. Neither looks at the routes it has
been through, and neither `update` nor `remove` asks whether a route leads back to itself. -/
namespace Ixmap
namespace Exabgp
open RadixTable RadixOps NextHop GuardedRun

section
variable {T : Type} [RadixOps T (List Route)]

/-- A call of the methods that change the routing information base. -/
inductive Call where
  | update (p : Bits) (route : Route)
  | remove (p : Bits) (route : Route)

def Call.task : Call → Task
  | .update p route => .update p route
  | .remove p route => .remove p route

def ribStart : Rib T := ⟨empty,empty,[]⟩

def ribStep (limit : ℕ) (rib : Rib T) (c : Call) : Option (Rib T) := c.task.run limit rib

/-- The states the calls bring about and search: between the calls, and while one is at work. -/
def Visits (limit : ℕ) : Rib T → List Call → Rib T → Prop
  | rib, [], x => x = rib
  | rib, c::calls, x => x = rib ∨ Sees limit rib c.task x ∨
      ∃ rib', ribStep limit rib c = some rib' ∧ Visits limit rib' calls x

/-- `route_nexthop` finds the last address before a connected route. -/
def FindsLast (limit : ℕ) (rib : Rib T) (e : Bits × Route) (b : Bits) : Prop :=
  ∃ d, LastHop Route.nexthop (heads rib.valid) b d ∧ routeNexthop rib.valid limit e.2 = some (.address d)

/-- The recursions end within the limit for every address and every stored route, valid routes do not lead
back to themselves, and `route_nexthop` is right about those that resolve. -/
structure Resolution (limit : ℕ) (rib : Rib T) : Prop where
  validate : ∀ a, ∃ v, routeValidate rib.valid limit a = some v
  nexthop : ∀ k, ∀ e ∈ routes (rib.table k), ∃ target, routeNexthop rib.valid limit e.2 = some target
  noLoop : ∀ e, ¬ Relation.TransGen (Matches Route.nexthop (heads rib.valid)) e e
  last : ∀ e ∈ routes rib.valid, ∀ b, e.2.nexthop = some b → Resolves Route.nexthop (heads rib.valid) b →
    FindsLast limit rib e b

/-- The call meets the condition its method was shown right under. -/
def CallOk (limit : ℕ) (rib : Rib T) : Call → Prop
  | .update p route => UpdateOk limit rib p route
  | .remove p route => RemoveOk limit rib p route

end

section
variable {T : Type} [RadixOps T (List Route)] [LawfulRadix T (List Route)] {rib : Rib T} {limit : ℕ}

theorem Searchable.resolution (hlimit : 0 < limit) (h : Searchable (limit-1) rib.valid) :
    Resolution limit rib := by
  have hless : limit-1 < limit := by omega
  constructor
  · intro a
    obtain ⟨v,hv⟩ := h.leads a
    exact ⟨v,validate_eq h.filled hv hless⟩
  · intro k e _
    exact nexthop_eq e.2 h.filled hless fun a _ => h.leads a
  · exact no_loop (onePer_heads _) h.leads
  · rintro e - b hb ⟨n,hn⟩
    obtain ⟨v,hv⟩ := h.leads b
    obtain rfl := hn.unique (onePer_heads _) hv
    obtain ⟨target,htarget,htells⟩ := nexthop_via h.filled hv hb hless
    cases target with
    | connected => exact htells.elim
    | notFound => cases htells
    | address d => exact ⟨d,htells.2,htarget⟩

theorem Consistent.step {c : Call} (h : Consistent rib) (hok : CallOk limit rib c) :
    ∃ rib', Runs (Searchable (limit-1)) limit rib c.task rib' ∧ Consistent rib' := by
  cases c with
  | update p route =>
    obtain ⟨rib',hruns,hcons,-⟩ := update_spec h hok
    exact ⟨rib',hruns,hcons⟩
  | remove p route =>
    obtain ⟨rib',hruns,hcons,-⟩ := remove_spec h hok
    exact ⟨rib',hruns,hcons⟩

theorem Consistent.run {calls : List Call} (h : Consistent rib) (hs : Searchable (limit-1) rib.valid)
    (hrun : Admits (ribStep limit) (CallOk limit) rib calls) :
    (∃ rib', calls.foldlM (ribStep limit) rib = some rib' ∧ Consistent rib' ∧ Searchable (limit-1) rib'.valid) ∧
      ∀ x, Visits limit rib calls x → Searchable (limit-1) x.valid := by
  induction calls generalizing rib with
  | nil =>
    refine ⟨⟨rib,rfl,h,hs⟩,?_⟩
    rintro x rfl
    exact hs
  | cons c calls ih =>
    obtain ⟨rib₁,hruns,hcons⟩ := h.step hrun.1
    have hstep : ribStep limit rib c = some rib₁ := hruns.returns
    obtain ⟨⟨rib',hrib',hend⟩,hvisits⟩ := ih hcons hruns.done (hrun.2 rib₁ hstep)
    refine ⟨⟨rib',?_,hend⟩,?_⟩
    · rw [List.foldlM_cons,hstep]
      exact hrib'
    · rintro x (rfl | hx | ⟨rib₂,hrib₂,hx⟩)
      · exact hs
      · exact hruns.sees x hx
      · rw [hstep,Option.some_inj] at hrib₂
        subst hrib₂
        exact hvisits x hx

/-- When every call meets its condition all calls return, `route_nexthop` then finds the last address of
every valid route, and the recursions end in every state on the way. -/
theorem next_hop_resolution (limit : ℕ) (hlimit : 0 < limit) (calls : List Call)
    (hrun : Admits (ribStep limit) (CallOk limit) (ribStart : Rib T) calls) :
    (∃ rib, calls.foldlM (ribStep limit) (ribStart : Rib T) = some rib ∧
      ∀ e ∈ routes rib.valid, ∀ b, e.2.nexthop = some b → FindsLast limit rib e b) ∧
    ∀ x, Visits limit (ribStart : Rib T) calls x → Resolution limit x := by
  have hempty : Searchable (limit-1) (ribStart : Rib T).valid :=
    ⟨single_empty.filled,fun a => ⟨false,.missing (by simp [ribStart,heads_empty])⟩⟩
  obtain ⟨⟨rib,hrib,hcons,hsearch⟩,hvisits⟩ := consistent_empty.run hempty hrun
  refine ⟨⟨rib,hrib,?_⟩,fun x hx => (hvisits x hx).resolution hlimit⟩
  intro e he b hb
  exact (hsearch.resolution hlimit).last e he b hb (hcons.resolved e ((mem_routes hcons.valid).mp he) b hb)

end

abbrev RadixRib := Rib (Radix (List Route))

/-- A connected network, a route over it and a route over that one; then the network goes. -/
def chainCalls : List Call :=
  [.update [true] (.connected "connected-1"),.update [false,true] (.static "static-1" [true,true]),
    .update [false,false] (.static "static-2" [false,true,true]),.remove [true] (.connected "connected-1")]

def chainRank (e : Bits × Route) : ℕ := if e.1 = [true] then 0 else if e.1 = [false,true] then 1 else 2

theorem chain_admitted : Admits (ribStep 1000) (CallOk 1000) (ribStart : RadixRib) chainCalls := by
  have h1 : Single (put empty [true] [Route.connected "connected-1"] : Radix (List Route)) :=
    single_empty.put _ _
  have h2 := h1.put [false,true] (.static "static-1" [true,true])
  refine ⟨updateOk_of_check chainRank 3 single_empty (by decide),?_⟩
  intro rib₁ hrib₁
  obtain rfl := Option.some_inj.mp hrib₁
  refine ⟨updateOk_of_check chainRank 3 h1 (by decide),?_⟩
  intro rib₂ hrib₂
  obtain rfl := Option.some_inj.mp hrib₂
  refine ⟨updateOk_of_check chainRank 3 h2 (by decide),?_⟩
  intro rib₃ hrib₃
  obtain rfl := Option.some_inj.mp hrib₃
  exact ⟨removeOk_of_check chainRank 3 (h2.put _ _) (by decide),fun _ _ => trivial⟩

/-- The chain of two routes is moved to `unicast-invalid`, and searches end all the way. -/
theorem next_hop_resolution_chain :
    Admits (ribStep 1000) (CallOk 1000) (ribStart : RadixRib) chainCalls ∧
      ((chainCalls.take 3).foldlM (ribStep 1000) (ribStart : RadixRib)).map Rib.printed =
        some [.update [true] .connected,.update [false,true] (.address [true,true]),
          .update [false,false] (.address [true,true])] ∧
      (chainCalls.foldlM (ribStep 1000) (ribStart : RadixRib)).map
          (fun rib => (routes rib.valid,(routes rib.invalid).map Prod.fst)) =
        some ([],[[false,false],[false,true]]) ∧
      ∀ x, Visits 1000 (ribStart : RadixRib) chainCalls x → Resolution 1000 x :=
  ⟨chain_admitted,by decide +kernel,by decide +kernel,
    (next_hop_resolution 1000 (by decide) chainCalls chain_admitted).2⟩

section Never
variable {T : Type} [RadixOps T (List Route)] {t : T} {route : Route} {rest : List Route} {p a : Bits}

theorem validate_never (hb : searchBest t a = some (p,route::rest)) (hr : route.nexthop = some a) (fuel : ℕ) :
    routeValidate t fuel a = none := by
  induction fuel with
  | zero => rfl
  | succ fuel ih => simp only [routeValidate,hb,hr,ih]

theorem nexthop_never (hb : searchBest t a = some (p,route::rest)) (hr : route.nexthop = some a) (fuel : ℕ) :
    routeNexthop t fuel route = none := by
  induction fuel with
  | zero => rfl
  | succ fuel ih => simp only [routeNexthop,hr,hb,ih,Option.map_none]

end Never

def inward (nexthop : Bits) : Route := .static "static-1" nexthop

/-- Two routes of the first prefix lose their next hop with `connected-1`, and only one of them migrates.
The other one is what the search that follows the removal of `connected-2` stops at. -/
def staleCalls : List Call :=
  [.update [true,false] (.connected "connected-1"),.update [true,true,true] (.connected "connected-2"),
    .update [false] (.bgp [false] [true] [true,false,false] 0),
    .update [false] (.static "static-2" [true,false,false]),.update [false] (.connected "connected-3"),
    .remove [true,false] (.connected "connected-1"),.update [true,true] (inward [true,true,true,false]),
    .remove [true,true,true] (.connected "connected-2")]

/-- `update` stores a route that matches its own next hop, and its `route_nexthop` does not end. `remove`
deletes the prefix between such a route and its next hop, and the search that follows does not end. A route of
this kind is also left when all calls return. -/
theorem inward_never_resolves :
    (∃ rib : RadixRib, Visits 1000 ribStart
        [.update [true] (.connected "connected-1"),.update [true,true] (inward [true,true,false])] rib ∧
      ([true,true],inward [true,true,false]) ∈ routes rib.valid ∧
      ∀ fuel, routeNexthop rib.valid fuel (inward [true,true,false]) = none) ∧
    (∃ rib : RadixRib, Visits 1000 ribStart
        [.update [true] (.connected "connected-1"),.update [true,true,true] (.connected "connected-2"),
          .update [true,true] (inward [true,true,true,false]),.remove [true,true,true] (.connected "connected-2")] rib ∧
      ∀ fuel, routeValidate rib.valid fuel [true,true,true,false] = none) ∧
    ∃ rib : RadixRib, staleCalls.foldlM (ribStep 1000) ribStart = some rib ∧
      ∀ fuel, routeValidate rib.valid fuel [true,true,true,false] = none := by
  refine ⟨?_,?_,?_⟩
  · refine ⟨_,Or.inr (Or.inr ⟨_,rfl,Or.inr (Or.inl (.update (k := .valid) rfl (.stored rfl)))⟩),?_,?_⟩
    · exact heads_routes ⟨[],LawfulRadix.mem_put.mpr (Or.inl rfl)⟩
    · exact nexthop_never rfl rfl
  · exact ⟨_,Or.inr (Or.inr ⟨_,rfl,Or.inr (Or.inr ⟨_,rfl,Or.inr (Or.inr ⟨_,rfl,Or.inr (Or.inl
      (.remove (k := .valid) rfl rfl (.deleted rfl)))⟩)⟩)⟩),validate_never rfl rfl⟩
  · have hrun : (staleCalls.foldlM (ribStep 1000) (ribStart : RadixRib)).map (fun rib =>
          searchBest rib.valid [true,true,true,false]) =
        some (some ([true,true],[inward [true,true,true,false]])) := by decide +kernel
    obtain ⟨rib,hrib,hb⟩ := Option.map_eq_some_iff.mp hrun
    exact ⟨rib,hrib,validate_never hb rfl⟩

end Exabgp
end Ixmap
