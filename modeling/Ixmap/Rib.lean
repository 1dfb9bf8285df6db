import Ixmap.NextHop

/-! The routing information base of `rib.py`: routes whose next hop resolves are in `unicast-valid`, the
others in `unicast-invalid`, and a change of the first makes routes migrate. An exception that nobody
catches is `none`; fuel is the number of frames that are left when a method is called, its own included. -/
namespace Ixmap
namespace Exabgp
open RadixTable RadixOps NextHop

inductive RouteId where
  | connected (name : String)
  | static (name : String)
  | bgp (p nbraddr : Bits)
  deriving DecidableEq, Repr

/-- A route with the fields its protocol has. -/
inductive Route where
  | connected (name : String)
  | static (name : String) (nexthop : Bits)
  | bgp (p nbraddr nexthop : Bits) (originId : ℕ)
  deriving DecidableEq, Repr

def Route.protocolId : Route → ℕ
  | .connected _ => 0
  | .static _ _ => 1
  | .bgp _ _ _ _ => 2

def Route.id : Route → RouteId
  | .connected name => .connected name
  | .static name _ => .static name
  | .bgp p nbraddr _ _ => .bgp p nbraddr

/-- `route["nexthop"]`, which a connected route does not have. -/
def Route.nexthop : Route → Option Bits
  | .connected _ => none
  | .static _ nexthop => some nexthop
  | .bgp _ _ nexthop _ => some nexthop

/-- The two tables of unicast routes. -/
inductive Kind where
  | valid
  | invalid
  deriving DecidableEq, Repr

/-- A return value of `route_nexthop`. -/
inductive Target where
  | connected
  | notFound
  | address (nexthop : Bits)
  deriving DecidableEq, Repr

/-- A line the program prints. -/
inductive Line where
  | update (p : Bits) (target : Target)
  | delete (p : Bits)
  deriving DecidableEq, Repr

/-- The tables `T` are those of the radix package; the routes of a prefix are `node.data["info"]`. -/
structure Rib (T : Type) where
  valid : T
  invalid : T
  printed : List Line

section Model
variable {T : Type} [RadixOps T (List Route)]

def Rib.table (rib : Rib T) : Kind → T
  | .valid => rib.valid
  | .invalid => rib.invalid

def Rib.setTable (rib : Rib T) (k : Kind) (t : T) : Rib T :=
  match k with
  | .valid => { rib with valid := t }
  | .invalid => { rib with invalid := t }

def Rib.print (rib : Rib T) (line : Line) : Rib T := { rib with printed := rib.printed ++ [line] }

def routes (t : T) : List (Bits × Route) := (nodes t).flatMap fun e => e.2.map fun route => (e.1,route)

/-- The index returned and what is left: a route that is not there counts as the last one. -/
def routeRemove (info : List Route) (route : Route) : ℕ × List Route :=
  match info.findIdx? (fun cur => cur.id = route.id) with
  | some i => (i,info.eraseIdx i)
  | none => (info.length-1,info)

/-- The loop of `route_insert`. The three comparisons of routes of one protocol are called by names that
are not defined. -/
def insertIndex (route : Route) : ℕ → List Route → Option ℕ
  | i, [] => some (i-1)
  | i, cur::rest =>
    if route.protocolId < cur.protocolId then some i
    else if route.protocolId = cur.protocolId then none
    else insertIndex route (i+1) rest

def routeInsert (info : List Route) (route : Route) : Option (ℕ × List Route) :=
  (insertIndex route 0 info).map fun i => (i,info.insertIdx i route)

def routeValidate (valid : T) : ℕ → Bits → Option Bool
  | 0, _ => none
  | fuel+1, nexthop =>
    match searchBest valid nexthop with
    | none => some false
    | some (_,[]) => none
    | some (_,route::_) =>
      match route.nexthop with
      | none => some true
      | some nexthop => routeValidate valid fuel nexthop

def routeNexthop (valid : T) : ℕ → Route → Option Target
  | 0, _ => none
  | fuel+1, route =>
    match route.nexthop with
    | none => some .connected
    | some nexthop =>
      match searchBest valid nexthop with
      | none => some .notFound
      | some (_,[]) => none
      | some (_,first::_) =>
        (routeNexthop valid fuel first).map fun target =>
          if target = .connected then .address nexthop else target

def Rib.printUpdate (rib : Rib T) (fuel : ℕ) (p : Bits) : List Route → Option (Rib T)
  | [] => none
  | route::_ => (routeNexthop rib.valid fuel route).map fun target => rib.print (.update p target)

/-- The first route `route_find_updated` finds in the wrong table. -/
def firstUpdated (valid : T) (fuel : ℕ) (k : Kind) :
    List (Bits × Route) → Option (Option (Bits × Route))
  | [] => some none
  | (p,route)::rest =>
    match route.nexthop with
    | none => if k = .valid then firstUpdated valid fuel k rest else none
    | some nexthop =>
      match routeValidate valid fuel nexthop with
      | none => none
      | some resolved =>
        if resolved = decide (k = .invalid) then some (some (p,route)) else firstUpdated valid fuel k rest

def Kind.other : Kind → Kind
  | .valid => .invalid
  | .invalid => .valid

/-- What `remove` and `migrate` do with the node of a prefix; `find` is `route_find_updated`. -/
def Rib.takeOut (rib : Rib T) (find : Rib T → Kind → Option (Rib T)) (fuel : ℕ) (k : Kind) (p : Bits)
    (info : List Route) (route : Route) : Option (Rib T) :=
  -- `route_remove` is a call as well
  if fuel = 0 then none
  else
    let r := routeRemove info route
    let rib := rib.setTable k (put (rib.table k) p r.2)
    if r.1 = 0 then
      if r.2 = [] then
        let rib := rib.setTable k (delete (rib.table k) p)
        match k with
        | .valid => find (rib.print (.delete p)) .valid
        | .invalid => some rib
      else
        match k with
        | .valid => rib.printUpdate fuel p r.2
        | .invalid => some rib
    else some rib

/-- What `update` and `migrate` do with the table they add the route to. -/
def Rib.putIn (rib : Rib T) (find : Rib T → Kind → Option (Rib T)) (fuel : ℕ) (k : Kind) (p : Bits)
    (route : Route) : Option (Rib T) :=
  if fuel = 0 then none
  else
    match routeInsert ((searchExact (rib.table k) p).getD []) route with
    | none => none
    | some (i,info) =>
      let rib := rib.setTable k (put (rib.table k) p info)
      if i = 0 ∧ k = .valid then
        match rib.printUpdate fuel p info with
        | none => none
        | some rib => find rib .invalid
      else some rib

mutual

def Rib.migrate : ℕ → Rib T → Bits → Route → Kind → Kind → Option (Rib T)
  | 0, _, _, _, _, _ => none
  | fuel+1, rib, p, route, src, dest =>
    match searchExact (rib.table src) p with
    | none => some rib
    | some info =>
      match rib.takeOut (Rib.routeFindUpdated fuel) fuel src p info route with
      | none => none
      | some rib => rib.putIn (Rib.routeFindUpdated fuel) fuel dest p route

def Rib.routeFindUpdated : ℕ → Rib T → Kind → Option (Rib T)
  | 0, _, _ => none
  | fuel+1, rib, k =>
    match firstUpdated rib.valid fuel k (routes (rib.table k)) with
    | none => none
    | some none => some rib
    | some (some (p,route)) => Rib.migrate fuel rib p route k k.other

end

/-- The table `update` and `remove` choose. -/
def Rib.tableFor (rib : Rib T) (fuel : ℕ) (route : Route) : Option Kind :=
  match route.nexthop with
  | none => some .valid
  | some nexthop => (routeValidate rib.valid fuel nexthop).map fun resolved =>
      if resolved then .valid else .invalid

def Rib.update (rib : Rib T) : ℕ → Bits → Route → Option (Rib T)
  | 0, _, _ => none
  | fuel+1, p, route =>
    (rib.tableFor fuel route).bind fun k => rib.putIn (Rib.routeFindUpdated fuel) fuel k p route

def Rib.remove (rib : Rib T) : ℕ → Bits → Route → Option (Rib T)
  | 0, _, _ => none
  | fuel+1, p, route =>
    (rib.tableFor fuel route).bind fun k =>
      match searchExact (rib.table k) p with
      | none => some rib
      | some info => rib.takeOut (Rib.routeFindUpdated fuel) fuel k p info route

/-- A method at work, or the part two methods share. -/
inductive Task where
  | update (p : Bits) (route : Route)
  | remove (p : Bits) (route : Route)
  | putIn (k : Kind) (p : Bits) (route : Route)
  | takeOut (k : Kind) (p : Bits) (info : List Route) (route : Route)
  | migrate (p : Bits) (route : Route) (src dest : Kind)
  | find (k : Kind)

def Task.run (fuel : ℕ) (rib : Rib T) : Task → Option (Rib T)
  | .update p route => rib.update fuel p route
  | .remove p route => rib.remove fuel p route
  | .putIn k p route => rib.putIn (Rib.routeFindUpdated fuel) fuel k p route
  | .takeOut k p info route => rib.takeOut (Rib.routeFindUpdated fuel) fuel k p info route
  | .migrate p route src dest => Rib.migrate fuel rib p route src dest
  | .find k => Rib.routeFindUpdated fuel rib k

/-- The states a task brings about and searches or leaves, those of the tasks it calls included. -/
inductive Sees : ℕ → Rib T → Task → Rib T → Prop
  | update {fuel : ℕ} {rib x : Rib T} {p : Bits} {route : Route} {k : Kind}
      (hk : rib.tableFor fuel route = some k) (h : Sees fuel rib (.putIn k p route) x) :
      Sees (fuel+1) rib (.update p route) x
  | remove {fuel : ℕ} {rib x : Rib T} {p : Bits} {route : Route} {k : Kind} {info : List Route}
      (hk : rib.tableFor fuel route = some k) (hx : searchExact (rib.table k) p = some info)
      (h : Sees fuel rib (.takeOut k p info route) x) : Sees (fuel+1) rib (.remove p route) x
  | stored {fuel i : ℕ} {rib : Rib T} {p : Bits} {route : Route} {k : Kind} {info : List Route}
      (hi : routeInsert ((searchExact (rib.table k) p).getD []) route = some (i,info)) :
      Sees fuel rib (.putIn k p route) (rib.setTable k (put (rib.table k) p info))
  | storedFind {fuel : ℕ} {rib rib₁ x : Rib T} {p : Bits} {route : Route} {info : List Route}
      (hi : routeInsert ((searchExact rib.valid p).getD []) route = some (0,info))
      (hp : (rib.setTable .valid (put rib.valid p info)).printUpdate fuel p info = some rib₁)
      (h : Sees fuel rib₁ (.find .invalid) x) : Sees fuel rib (.putIn .valid p route) x
  | left {fuel : ℕ} {rib : Rib T} {p : Bits} {route : Route} {k : Kind} {info : List Route}
      (hr : (routeRemove info route).2 ≠ []) :
      Sees fuel rib (.takeOut k p info route) (rib.setTable k (put (rib.table k) p (routeRemove info route).2))
  | deleted {fuel : ℕ} {rib : Rib T} {p : Bits} {route : Route} {k : Kind} {info : List Route}
      (hr : routeRemove info route = (0,[])) :
      Sees fuel rib (.takeOut k p info route) (rib.setTable k (delete (put (rib.table k) p []) p))
  | deletedFind {fuel : ℕ} {rib x : Rib T} {p : Bits} {route : Route} {info : List Route}
      (hr : routeRemove info route = (0,[]))
      (h : Sees fuel ((rib.setTable .valid (delete (put rib.valid p []) p)).print (.delete p)) (.find .valid) x) :
      Sees fuel rib (.takeOut .valid p info route) x
  | out {fuel : ℕ} {rib x : Rib T} {p : Bits} {route : Route} {src dest : Kind} {info : List Route}
      (hx : searchExact (rib.table src) p = some info) (h : Sees fuel rib (.takeOut src p info route) x) :
      Sees (fuel+1) rib (.migrate p route src dest) x
  | into {fuel : ℕ} {rib rib₁ x : Rib T} {p : Bits} {route : Route} {src dest : Kind} {info : List Route}
      (hx : searchExact (rib.table src) p = some info)
      (hout : rib.takeOut (Rib.routeFindUpdated fuel) fuel src p info route = some rib₁)
      (h : Sees fuel rib₁ (.putIn dest p route) x) : Sees (fuel+1) rib (.migrate p route src dest) x
  | find {fuel : ℕ} {rib x : Rib T} {p : Bits} {route : Route} {k : Kind}
      (hf : firstUpdated rib.valid fuel k (routes (rib.table k)) = some (some (p,route)))
      (h : Sees fuel rib (.migrate p route k k.other) x) : Sees (fuel+1) rib (.find k) x

/-- The best route of every prefix, which is what a search finds. -/
def heads (t : T) : Set (Bits × Route) := {e | ∃ rest, (e.1,e.2::rest) ∈ nodes t}

def Single (t : T) : Prop := ∀ e ∈ nodes t, ∃ route, e.2 = [route]

def Filled (t : T) : Prop := ∀ e ∈ nodes t, e.2 ≠ []

/-- Every search of the table ends within `n` matches. -/
structure Searchable (n : ℕ) (t : T) : Prop where
  filled : Filled t
  leads : ∀ a, ∃ v, Leads Route.nexthop (heads t) n a v

end Model

section
variable {T : Type} [RadixOps T (List Route)]
variable {t : T} {p a : Bits} {route : Route} {e : Bits × Route} {v : Bool} {n m fuel : ℕ}

theorem Single.filled (hs : Single t) : Filled t := by
  intro e he
  obtain ⟨route,hroute⟩ := hs e he
  simp [hroute]

theorem Searchable.mono (h : Searchable n t) (hnm : n ≤ m) : Searchable m t := by
  refine ⟨h.filled,?_⟩
  intro a
  obtain ⟨v,hv⟩ := h.leads a
  exact ⟨v,hv.mono hnm⟩

theorem mem_heads (hs : Single t) : e ∈ heads t ↔ (e.1,[e.2]) ∈ nodes t := by
  constructor
  · rintro ⟨rest,hmem⟩
    obtain ⟨route,hroute⟩ := hs _ hmem
    simp only [List.cons.injEq] at hroute
    rwa [hroute.2] at hmem
  · exact fun hmem => ⟨[],hmem⟩

theorem mem_routes (hs : Single t) : e ∈ routes t ↔ e ∈ heads t := by
  rw [mem_heads hs,routes,List.mem_flatMap]
  constructor
  · rintro ⟨f,hf,hmem⟩
    obtain ⟨route,hroute⟩ := hs f hf
    rw [hroute,List.map_singleton,List.mem_singleton] at hmem
    rw [hmem]
    exact hroute ▸ hf
  · exact fun hmem => ⟨_,hmem,by simp⟩

theorem heads_routes (h : e ∈ heads t) : e ∈ routes t := by
  obtain ⟨rest,hmem⟩ := h
  exact List.mem_flatMap.mpr ⟨_,hmem,by simp⟩

theorem heads_finite (t : T) : (heads t).Finite :=
  (routes t).finite_toSet.subset fun _ => heads_routes

theorem Filled.exists_head (hs : Filled t) {f : Bits × List Route} (hf : f ∈ nodes t) :
    ∃ route rest, f.2 = route::rest ∧ (f.1,route) ∈ heads t := by
  obtain ⟨route,rest,hroute⟩ := List.exists_cons_of_ne_nil (hs f hf)
  exact ⟨route,rest,hroute,rest,hroute ▸ hf⟩

/-- The loop of `route_find_updated` over `l` stops at a route that is in the wrong table, or there is
none. -/
def Scans (t : T) (fuel : ℕ) (k : Kind) (good : Bits × Route → Prop) (l : List (Bits × Route)) : Prop :=
  (∃ e ∈ l, e.2.nexthop ≠ none ∧ (good e ↔ k = .invalid) ∧ firstUpdated t fuel k l = some (some e)) ∨
    ((∀ e ∈ l, e.2.nexthop ≠ none → ¬ (good e ↔ k = .invalid)) ∧ firstUpdated t fuel k l = some none)

theorem Scans.pass {k : Kind} {good : Bits × Route → Prop} {l : List (Bits × Route)} (h : Scans t fuel k good l)
    (hin : e.2.nexthop ≠ none → ¬ (good e ↔ k = .invalid))
    (hstep : firstUpdated t fuel k (e::l) = firstUpdated t fuel k l) : Scans t fuel k good (e::l) := by
  rcases h with ⟨f,hf,hne,hwrong,hfirst⟩ | ⟨hall,hfirst⟩
  · exact Or.inl ⟨f,List.mem_cons_of_mem _ hf,hne,hwrong,hstep.trans hfirst⟩
  · refine Or.inr ⟨?_,hstep.trans hfirst⟩
    intro f hf
    rcases List.mem_cons.mp hf with rfl | hf
    · exact hin
    · exact hall f hf

theorem scans (k : Kind) {l : List (Bits × Route)} (good : Bits × Route → Prop)
    (hlead : ∀ e ∈ l, ∀ b, e.2.nexthop = some b →
      (good e → routeValidate t fuel b = some true) ∧ (¬ good e → routeValidate t fuel b = some false))
    (hconn : k = .invalid → ∀ e ∈ l, e.2.nexthop ≠ none) : Scans t fuel k good l := by
  classical
  induction l with
  | nil => exact Or.inr ⟨by simp,rfl⟩
  | cons e rest ih =>
    obtain ⟨p,route⟩ := e
    have hrest := ih (fun e he => hlead e (by simp [he])) (fun hk e he => hconn hk e (by simp [he]))
    cases hr : route.nexthop with
    | none =>
      have hk : k = .valid := by
        cases k with
        | valid => rfl
        | invalid => exact absurd hr (hconn rfl (p,route) (by simp))
      exact hrest.pass (fun hne => absurd hr hne) (by simp only [firstUpdated,hr,hk,if_true])
    | some b =>
      have hv : routeValidate t fuel b = some (decide (good (p,route))) := by
        obtain ⟨hyes,hno⟩ := hlead (p,route) (by simp) b hr
        by_cases hgood : good (p,route)
        · simp only [hgood,decide_true,hyes hgood]
        · simp only [hgood,decide_false,hno hgood]
      by_cases hwrong : good (p,route) ↔ k = .invalid
      · exact Or.inl ⟨(p,route),by simp,by simp [hr],hwrong,by simp [firstUpdated,hr,hv,hwrong]⟩
      · exact hrest.pass (fun _ => hwrong) (by simp [firstUpdated,hr,hv,decide_eq_decide,hwrong])

/-- What `route_nexthop` returns for a route whose next hop is `a`, after the outcome of the search. -/
def Target.Tells (S : Set (Bits × Route)) (a : Bits) (v : Bool) : Target → Prop
  | .connected => False
  | .notFound => v = false
  | .address d => v = true ∧ LastHop Route.nexthop S a d

variable [LawfulRadix T (List Route)]

theorem heads_empty : heads (empty : T) = ∅ := by
  ext e
  simp [heads,LawfulRadix.nodes_empty]

theorem single_empty : Single (empty : T) := by simp [Single,LawfulRadix.nodes_empty]

theorem routes_nodup (hs : Single t) : (routes t).Nodup := by
  have hkeys : (routes t).map Prod.fst = (nodes t).map Prod.fst := by
    rw [routes,List.map_flatMap,List.map_eq_flatMap]
    apply List.flatMap_congr
    intro f hf
    obtain ⟨route,hroute⟩ := hs f hf
    simp [hroute]
  apply List.Nodup.of_map Prod.fst
  rw [hkeys]
  exact LawfulRadix.nodup t

theorem onePer_heads (t : T) : OnePer (heads t) := by
  rintro ⟨p,r⟩ ⟨rest,hr⟩ ⟨q,r'⟩ ⟨rest',hr'⟩ hpq
  simp only at hpq hr hr'
  subst hpq
  have he := node_unique hr hr'
  rw [(List.cons.inj he).1]

theorem searchExact_heads (hs : Single t) (he : e ∈ heads t) : searchExact t e.1 = some [e.2] :=
  LawfulRadix.searchExact_some.mpr ((mem_heads hs).mp he)

theorem searchExact_absent (hs : Single t) (h : ∀ e ∈ heads t, e.1 ≠ p) : searchExact t p = none := by
  rw [searchExact_none]
  intro f hf
  obtain ⟨route,hroute⟩ := hs f hf
  exact h (f.1,route) ((mem_heads hs).mpr (hroute ▸ hf))

theorem Single.put (hs : Single t) (p : Bits) (route : Route) : Single (put t p [route]) := by
  intro f hf
  rcases LawfulRadix.mem_put.mp hf with rfl | ⟨hf,-⟩
  · exact ⟨route,rfl⟩
  · exact hs f hf

theorem Single.delete (hs : Single t) (p : Bits) : Single (delete (RadixOps.put t p []) p) := by
  intro f hf
  obtain ⟨hf,hp⟩ := LawfulRadix.mem_delete.mp hf
  rcases LawfulRadix.mem_put.mp hf with rfl | ⟨hf,-⟩
  · exact absurd rfl hp
  · exact hs f hf

theorem heads_put : heads (put t p [route]) = insert (p,route) {e ∈ heads t | e.1 ≠ p} := by
  ext e
  simp only [heads,Set.mem_ofPred_eq,LawfulRadix.mem_put,Set.mem_insert_iff,Prod.mk.injEq,List.cons.injEq]
  constructor
  · rintro ⟨rest,⟨hp,hr,-⟩ | ⟨hmem,hp⟩⟩
    · exact Or.inl (Prod.ext hp hr)
    · exact Or.inr ⟨⟨rest,hmem⟩,hp⟩
  · rintro (rfl | ⟨⟨rest,hmem⟩,hp⟩)
    · exact ⟨[],Or.inl ⟨rfl,rfl,rfl⟩⟩
    · exact ⟨rest,Or.inr ⟨hmem,hp⟩⟩

theorem heads_put_new (h : ∀ e ∈ heads t, e.1 ≠ p) : heads (put t p [route]) = insert (p,route) (heads t) := by
  rw [heads_put,Set.sep_eq_self_iff_mem_true.mpr h]

theorem heads_put_same (h : (p,route) ∈ heads t) : heads (put t p [route]) = heads t := by
  rw [heads_put]
  ext e
  constructor
  · rintro (rfl | he)
    · exact h
    · exact he.1
  · intro he
    by_cases hp : e.1 = p
    · exact Or.inl (onePer_heads t e he _ h hp)
    · exact Or.inr ⟨he,hp⟩

theorem heads_delete : heads (delete (put t p []) p) = {e ∈ heads t | e.1 ≠ p} := by
  ext e
  simp only [heads,Set.mem_ofPred_eq,LawfulRadix.mem_delete,LawfulRadix.mem_put]
  constructor
  · rintro ⟨rest,⟨heq | hmem,hp⟩⟩
    · exact absurd (congrArg Prod.fst heq) hp
    · exact ⟨⟨rest,hmem.1⟩,hp⟩
  · rintro ⟨⟨rest,hmem⟩,hp⟩
    exact ⟨rest,Or.inr ⟨hmem,hp⟩,hp⟩

theorem heads_delete_not {P : Bits × Route → Prop} (he : e ∈ heads t) (hP : P e) :
    {f ∈ heads (delete (put t e.1 []) e.1) | ¬ P f} = {f ∈ heads t | ¬ P f} := by
  rw [heads_delete]
  ext f
  refine ⟨fun hf => ⟨hf.1.1,hf.2⟩,fun hf => ⟨⟨hf.1,fun hp => hf.2 ?_⟩,hf.2⟩⟩
  rwa [onePer_heads t f hf.1 e he hp]

theorem heads_delete_insert {P : Bits × Route → Prop} (he : e ∈ heads t) (hP : P e) :
    insert e {f ∈ heads (delete (put t e.1 []) e.1) | P f} = {f ∈ heads t | P f} := by
  rw [heads_delete]
  ext f
  constructor
  · rintro (rfl | hf)
    · exact ⟨he,hP⟩
    · exact ⟨hf.1.1,hf.2⟩
  · intro hf
    by_cases hp : f.1 = e.1
    · exact Or.inl (onePer_heads t f hf.1 e he hp)
    · exact Or.inr ⟨⟨hf.1,hp⟩,hf.2⟩

theorem ncard_delete {P : Bits × Route → Prop} (he : e ∈ heads t) (hP : P e) :
    ({f ∈ heads (delete (put t e.1 []) e.1) | P f}).ncard+1 = ({f ∈ heads t | P f}).ncard := by
  rw [← heads_delete_insert he hP,Set.ncard_insert_of_notMem ?_ ((heads_finite _).subset fun f hf => hf.1)]
  rw [heads_delete]
  exact fun hf => hf.1.2 rfl

theorem searchBest_heads (hs : Filled t) (h : IsLongest (heads t) a e) :
    ∃ rest, searchBest t a = some (e.1,e.2::rest) := by
  obtain ⟨rest,hmem⟩ := h.1
  cases hb : searchBest t a with
  | none => exact absurd h.2.1 (LawfulRadix.searchBest_none hb _ hmem)
  | some f =>
    obtain ⟨hfmem,hfa,hmax⟩ := LawfulRadix.searchBest_some hb
    obtain ⟨route,rest',hroute,hhead⟩ := hs.exists_head hfmem
    have hf : IsLongest (heads t) a (f.1,route) := ⟨hhead,hfa,fun g ⟨_,hg⟩ => hmax _ hg⟩
    obtain rfl := longest_unique (onePer_heads t) h hf
    exact ⟨rest',congrArg some (Prod.ext rfl hroute)⟩

theorem searchBest_missing (hs : Filled t) (h : ∀ e ∈ heads t, ¬ e.1 <+: a) : searchBest t a = none := by
  cases hb : searchBest t a with
  | none => rfl
  | some f =>
    obtain ⟨hmem,hfa,-⟩ := LawfulRadix.searchBest_some hb
    obtain ⟨route,rest,-,hhead⟩ := hs.exists_head hmem
    exact absurd hfa (h _ hhead)

/-- A search that ends is what `route_validate` returns. -/
theorem validate_eq (hs : Filled t) (h : Leads Route.nexthop (heads t) n a v) (hfuel : n < fuel) :
    routeValidate t fuel a = some v := by
  obtain ⟨fuel,rfl⟩ := Nat.exists_eq_succ_of_ne_zero (Nat.ne_zero_of_lt hfuel)
  induction h generalizing fuel with
  | missing hm => rw [routeValidate,searchBest_missing hs hm]
  | final he hf =>
    obtain ⟨rest,hb⟩ := searchBest_heads hs he
    simp only [routeValidate,hb,hf]
  | via he hv _ ih =>
    obtain ⟨rest,hb⟩ := searchBest_heads hs he
    obtain ⟨fuel,rfl⟩ := Nat.exists_eq_succ_of_ne_zero (Nat.ne_zero_of_lt (Nat.lt_of_succ_lt_succ hfuel))
    rw [routeValidate,hb]
    simp only [hv]
    exact ih fuel (Nat.lt_of_succ_lt_succ hfuel)

theorem nexthop_via (hs : Filled t) (h : Leads Route.nexthop (heads t) n a v) (hr : route.nexthop = some a)
    (hfuel : n < fuel) : ∃ target, routeNexthop t fuel route = some target ∧ target.Tells (heads t) a v := by
  obtain ⟨fuel,rfl⟩ := Nat.exists_eq_succ_of_ne_zero (Nat.ne_zero_of_lt hfuel)
  induction h generalizing route fuel with
  | missing hm => exact ⟨.notFound,by simp only [routeNexthop,hr,searchBest_missing hs hm],rfl⟩
  | @final n a e he hf =>
    obtain ⟨rest,hb⟩ := searchBest_heads hs he
    obtain ⟨fuel,rfl⟩ := Nat.exists_eq_succ_of_ne_zero (Nat.ne_zero_of_lt (Nat.lt_of_succ_lt_succ hfuel))
    refine ⟨.address a,?_,rfl,.final he hf⟩
    simp only [routeNexthop,hr,hb,hf]
    rfl
  | @via n a b e v he hv _ ih =>
    obtain ⟨rest,hb⟩ := searchBest_heads hs he
    obtain ⟨fuel,rfl⟩ := Nat.exists_eq_succ_of_ne_zero (Nat.ne_zero_of_lt (Nat.lt_of_succ_lt_succ hfuel))
    obtain ⟨target,htarget,htells⟩ := ih hv fuel (Nat.lt_of_succ_lt_succ hfuel)
    refine ⟨if target = .connected then .address a else target,?_,?_⟩
    · rw [routeNexthop]
      simp only [hr,hb,htarget,Option.map_some]
    · cases target with
      | connected => exact htells.elim
      | notFound => exact htells
      | address d => exact ⟨htells.1,.via he hv htells.2⟩

/-- `route_nexthop` returns when the search for the next hop ends. -/
theorem nexthop_eq (route : Route) (hs : Filled t) (hfuel : n < fuel)
    (h : ∀ a, route.nexthop = some a → ∃ v, Leads Route.nexthop (heads t) n a v) :
    ∃ target, routeNexthop t fuel route = some target := by
  cases hr : route.nexthop with
  | none =>
    obtain ⟨fuel,rfl⟩ := Nat.exists_eq_succ_of_ne_zero (Nat.ne_zero_of_lt hfuel)
    exact ⟨.connected,by simp only [routeNexthop,hr]⟩
  | some a =>
    obtain ⟨v,hv⟩ := h a hr
    obtain ⟨target,htarget,-⟩ := nexthop_via hs hv hr hfuel
    exact ⟨target,htarget⟩
end

end Exabgp
end Ixmap
