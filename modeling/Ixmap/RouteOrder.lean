import Ixmap.GuardedRun
import Ixmap.Rib

/-! The order of the routes of a node, `node.data["info"]`, as `route_insert` and `route_remove` of `rib.py`
leave it. -/
namespace Ixmap
namespace Exabgp
open GuardedRun

/-- A call on the routes of a node. -/
inductive InfoOp where
  | insert (route : Route)
  | remove (route : Route)

/-- An exception leaves the list as it is. -/
def infoStep (info : List Route) : InfoOp → List Route
  | .insert route => ((routeInsert info route).map Prod.snd).getD info
  | .remove route => (routeRemove info route).2

def Route.originId : Route → ℕ
  | .bgp _ _ _ originId => originId
  | _ => 0

/-- `route_compare_bgp` as it is meant; `localPref` is the attribute `local-preference` of a route that has
one. -/
def compareBgp (localPref : Route → Option ℕ) (routeNew routeCur : Route) : Prop :=
  (localPref routeCur).getD 100 < (localPref routeNew).getD 100 ∨
    ((localPref routeNew).getD 100 = (localPref routeCur).getD 100 ∧ routeNew.originId < routeCur.originId)

/-- One route is preferred to another. -/
def Preferred (localPref : Route → Option ℕ) (r s : Route) : Prop :=
  r.protocolId < s.protocolId ∨ (r.protocolId = 2 ∧ s.protocolId = 2 ∧ compareBgp localPref r s)

/-- The route has been added at the index, and the list is in the order of preference. -/
structure Placed (localPref : Route → Option ℕ) (info : List Route) (route : Route) (i : ℕ) (info' : List Route) :
    Prop where
  perm : info'.Perm (route::info)
  sorted : info'.Pairwise fun r s => ¬ Preferred localPref s r
  index : info'[i]? = some route
  best : ∀ r, info'.head? = some r → ∀ s ∈ info', ¬ Preferred localPref s r

/-- A call does what it is for. -/
def WellDone (localPref : Route → Option ℕ) (info : List Route) : InfoOp → Prop
  | .insert route => ∃ i info', routeInsert info route = some (i,info') ∧ Placed localPref info route i info'
  | .remove _ => True

/-- A route is added to an empty list, or to one without a route of its protocol and with a route of a
protocol behind it. -/
def InsertOk (info : List Route) : InfoOp → Prop
  | .insert route => info = [] ∨
      ((∃ cur ∈ info, route.protocolId < cur.protocolId) ∧ ∀ cur ∈ info, cur.protocolId ≠ route.protocolId)
  | .remove _ => True

section
variable {localPref : Route → Option ℕ} {info before : List Route} {route cur : Route}

theorem insertIndex_append (h : ∀ r ∈ before, r.protocolId < route.protocolId) (i : ℕ) (rest : List Route) :
    insertIndex route i (before++rest) = insertIndex route (i+before.length) rest := by
  induction before generalizing i with
  | nil => rfl
  | cons r before ih =>
    have hr := h r List.mem_cons_self
    rw [List.cons_append,insertIndex,if_neg hr.not_gt,if_neg hr.ne',
      ih fun s hs => h s (List.mem_cons_of_mem _ hs),List.length_cons]
    congr 1
    omega

theorem insertIdx_length (before rest : List Route) (route : Route) :
    (before++rest).insertIdx before.length route = before++route::rest := by
  induction before with
  | nil => rfl
  | cons r before ih => simp [ih]

theorem routeInsert_before (after : List Route) (h : ∀ r ∈ before, r.protocolId < route.protocolId)
    (hcur : route.protocolId < cur.protocolId) :
    routeInsert (before++cur::after) route = some (before.length,before++route::cur::after) := by
  rw [routeInsert,insertIndex_append h,insertIndex,if_pos hcur,Nat.zero_add,Option.map_some,insertIdx_length]

theorem routeInsert_same (after : List Route) (h : ∀ r ∈ before, r.protocolId < route.protocolId)
    (hcur : route.protocolId = cur.protocolId) : routeInsert (before++cur::after) route = none := by
  rw [routeInsert,insertIndex_append h,insertIndex,if_neg hcur.not_lt,if_pos hcur,Option.map_none]

/-- Behind all others the route is put in front of the last one. -/
theorem routeInsert_last (h : ∀ r ∈ before++[cur], r.protocolId < route.protocolId) :
    routeInsert (before++[cur]) route = some (before.length,before++[route,cur]) := by
  have hlast := insertIndex_append h 0 []
  rw [List.append_nil,insertIndex,Nat.zero_add,List.length_append,List.length_singleton,Nat.add_sub_cancel] at hlast
  rw [routeInsert,hlast,Option.map_some,insertIdx_length]

theorem scan_cases (info : List Route) (route : Route) :
    (∀ r ∈ info, r.protocolId < route.protocolId) ∨
      ∃ before cur after, info = before++cur::after ∧ (∀ r ∈ before, r.protocolId < route.protocolId) ∧
        route.protocolId ≤ cur.protocolId := by
  induction info with
  | nil => simp
  | cons r info ih =>
    by_cases hr : r.protocolId < route.protocolId
    · rcases ih with hall | ⟨before,cur,after,rfl,hbefore,hcur⟩
      · exact .inl (List.forall_mem_cons.mpr ⟨hr,hall⟩)
      · exact .inr ⟨r::before,cur,after,rfl,List.forall_mem_cons.mpr ⟨hr,hbefore⟩,hcur⟩
    · exact .inr ⟨[],r,info,rfl,by simp,not_lt.mp hr⟩

/-- One route per protocol, in the order of the protocols. -/
def ByProtocol (info : List Route) : Prop := info.Pairwise fun r s => r.protocolId < s.protocolId

theorem ByProtocol.sorted (h : ByProtocol info) : info.Pairwise fun r s => ¬ Preferred localPref s r := by
  refine h.imp ?_
  rintro r s hlt (hgt | ⟨hs,hr,-⟩)
  · omega
  · omega

theorem ByProtocol.best (h : ByProtocol info) {r : Route} (hr : info.head? = some r) :
    ∀ s ∈ info, ¬ Preferred localPref s r := by
  obtain ⟨rest,rfl⟩ := List.head?_eq_some_iff.mp hr
  intro s hs
  rcases List.mem_cons.mp hs with rfl | hs
  · rintro (hlt | ⟨-,-,hlt | ⟨-,hlt⟩⟩)
    · exact lt_irrefl _ hlt
    · exact lt_irrefl _ hlt
    · exact lt_irrefl _ hlt
  · exact (List.pairwise_cons.mp h.sorted).1 s hs

theorem ByProtocol.insert_before {after : List Route} (h : ByProtocol (before++cur::after))
    (hbefore : ∀ r ∈ before, r.protocolId < route.protocolId) (hcur : route.protocolId < cur.protocolId) :
    ByProtocol (before++route::cur::after) := by
  have hparts := List.pairwise_append.mp h
  refine List.pairwise_append.mpr ⟨hparts.1,List.pairwise_cons.mpr ⟨?_,hparts.2.1⟩,?_⟩
  · intro r hr
    rcases List.mem_cons.mp hr with rfl | hr
    · exact hcur
    · exact hcur.trans ((List.pairwise_cons.mp hparts.2.1).1 r hr)
  · intro r hr s hs
    rcases List.mem_cons.mp hs with rfl | hs
    · exact hbefore r hr
    · exact hparts.2.2 r hr s hs

/-- On a list with one route per protocol, an insertion does what it is for iff the scan ends at a route of
a later protocol or the list is empty. -/
theorem ByProtocol.insert (localPref : Route → Option ℕ) (h : ByProtocol info) (route : Route) :
    (WellDone localPref info (.insert route) → InsertOk info (.insert route)) ∧
      (InsertOk info (.insert route) →
        WellDone localPref info (.insert route) ∧ ByProtocol (infoStep info (.insert route))) := by
  rcases scan_cases info route with hall | ⟨before,cur,after,rfl,hbefore,hle⟩
  · rcases List.eq_nil_or_concat info with rfl | ⟨before,cur,rfl⟩
    · refine ⟨fun _ => .inl rfl,fun _ => ⟨⟨0,[route],rfl,.refl _,by simp,rfl,?_⟩,List.pairwise_singleton _ _⟩⟩
      exact fun r => ByProtocol.best (List.pairwise_singleton _ _)
    · rw [List.concat_eq_append] at *
      have hcur := hall cur (by simp)
      constructor
      · -- The last route is preferred to the new one in front of it.
        rintro ⟨i,info',hinsert,hplaced⟩
        rw [routeInsert_last hall,Option.some.injEq,Prod.mk.injEq] at hinsert
        have hsorted := hplaced.sorted
        rw [← hinsert.2,List.pairwise_append] at hsorted
        exact absurd (.inl hcur) ((List.pairwise_cons.mp hsorted.2.1).1 cur (by simp))
      · rintro (hnil | ⟨⟨r,hr,hlt⟩,-⟩)
        · simp at hnil
        · exact absurd hlt (hall r hr).not_gt
  · rcases hle.lt_or_eq with hcur | hcur
    · have hinsert := routeInsert_before after hbefore hcur
      have hby := h.insert_before hbefore hcur
      have hafter := (List.pairwise_cons.mp (List.pairwise_append.mp hby).2.1).1
      refine ⟨fun _ => .inr ⟨⟨cur,by simp,hcur⟩,?_⟩,fun _ => ⟨⟨_,_,hinsert,?_⟩,?_⟩⟩
      · intro r hr
        rcases List.mem_append.mp hr with hr | hr
        · exact (hbefore r hr).ne
        · exact (hafter r hr).ne'
      · exact ⟨List.perm_middle,hby.sorted,by simp,fun r => hby.best⟩
      · simpa [infoStep,hinsert] using hby
    · have hraise := routeInsert_same after hbefore hcur
      constructor
      · rintro ⟨i,info',hinsert,-⟩
        simp [hraise] at hinsert
      · rintro (hnil | ⟨-,hne⟩)
        · simp at hnil
        · exact absurd hcur.symm (hne cur (by simp))

theorem ByProtocol.remove (h : ByProtocol info) (route : Route) : ByProtocol (infoStep info (.remove route)) := by
  simp only [infoStep,routeRemove]
  split
  · exact List.Pairwise.sublist (List.eraseIdx_sublist _ _) h
  · exact h

theorem ByProtocol.run (h : ByProtocol info) (ops : List InfoOp) :
    Meets infoStep (WellDone localPref) info ops ↔ Meets infoStep InsertOk info ops := by
  induction ops generalizing info with
  | nil => rfl
  | cons op ops ih =>
    have hop : (WellDone localPref info op ↔ InsertOk info op) ∧
        (InsertOk info op → ByProtocol (infoStep info op)) := by
      cases op with
      | insert route =>
        obtain ⟨hnec,hsuf⟩ := h.insert localPref route
        exact ⟨⟨hnec,fun hok => (hsuf hok).1⟩,fun hok => (hsuf hok).2⟩
      | remove route => exact ⟨Iff.rfl,fun _ => h.remove route⟩
    constructor
    · rintro ⟨hdone,hrest⟩
      have hok := hop.1.mp hdone
      exact ⟨hok,(ih (hop.2 hok)).mp hrest⟩
    · rintro ⟨hok,hrest⟩
      exact ⟨hop.1.mpr hok,(ih (hop.2 hok)).mpr hrest⟩

end

/-- Over every sequence of calls on a node, all insertions keep the best route in front iff none meets a
route of its own protocol or finds only routes of earlier ones. -/
theorem route_order_iff (localPref : Route → Option ℕ) (ops : List InfoOp) :
    Meets infoStep (WellDone localPref) [] ops ↔ Meets infoStep InsertOk [] ops :=
  ByProtocol.run List.Pairwise.nil ops

/-- A static route is put in front of a connected one, and a second neighbour's route raises an exception. -/
theorem route_order_broken :
    [InfoOp.insert (.connected "eth0"),.insert (.static "s" [true])].foldl infoStep [] =
        [.static "s" [true],.connected "eth0"] ∧
      routeInsert ([InfoOp.insert (.bgp [true] [false] [true] 0)].foldl infoStep [])
        (.bgp [true] [true] [true] 0) = none := by
  decide

end Exabgp
end Ixmap
