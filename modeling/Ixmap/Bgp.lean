import Ixmap.GuardedRun
import Ixmap.RibCheck

/-! The neighbours of `bgp.py`, the events of a BGP speaker, and what is announced after them. As long as
no event runs into one of the gaps of the program, the routing information base holds exactly what is
announced, every route in the table its next hop calls for. -/
namespace Ixmap
namespace Exabgp
open RadixTable RadixOps NextHop GuardedRun

section Model
variable {T : Type} [RadixOps T (List Route)]

/-- `Neighbor.update` on `database["unicast"]`. -/
def neighborUpdate (db : T) (p : Bits) (route : Route) : T :=
  put db p ((searchExact db p).getD [] ++ [route])

def neighborWithdraw (db : T) (p : Bits) (route : Route) : T :=
  match searchExact db p with
  | none => db
  | some info =>
    let info := (routeRemove info route).2
    let db := put db p info
    if info = [] then delete db p else db

/-- The objects `bgp` and `rib` of `main.py`. -/
structure State (T : Type) where
  neighbors : Bits → Option T
  rib : Rib T

def start : State T := ⟨fun _ => none,⟨empty,empty,[]⟩⟩

inductive MessageType where
  | update
  | withdraw
  | other
  deriving DecidableEq, Repr

inductive Family where
  | ipv4Unicast
  | other
  deriving DecidableEq, Repr

inductive Origin where
  | igp
  | egp
  | incomplete
  | other
  deriving DecidableEq, Repr

def Origin.id : Origin → ℕ
  | .igp => 0
  | .egp => 1
  | .incomplete => 2
  | .other => 255

/-- What stands below the type of a message; dictionaries are lists in the order of `keys()`. -/
structure Body where
  announce : List (Family × List (Bits × List Bits))
  origin : Option Origin

abbrev Message := List (MessageType × Body)

/-- A prefix with its next hop and origin. -/
structure Change where
  type : MessageType
  p : Bits
  nexthop : Bits
  originId : ℕ

def Change.route (c : Change) (nbraddr : Bits) : Route := .bgp c.p nbraddr c.nexthop c.originId

/-- What `route_change` looks at: the first key of every dictionary. -/
def readChanges : Message → Option (List Change)
  | [] => none
  | (type,body)::_ =>
    match body.announce with
    | [] => none
    | (.other,_)::_ => some []
    | (.ipv4Unicast,[])::_ => none
    | (.ipv4Unicast,(nexthop,prefixes)::_)::_ =>
      prefixes.mapM fun p => body.origin.map fun origin => ⟨type,p,nexthop,origin.id⟩

/-- The body of the loop of `route_change`; `limit` is the number of frames left to the methods of `Rib`. -/
def applyChange (nbraddr : Bits) (limit : ℕ) (s : State T) (c : Change) : Option (State T) :=
  match c.type with
  | .other => some s
  | .update => (s.neighbors nbraddr).bind fun db =>
      (s.rib.update limit c.p (c.route nbraddr)).map fun rib =>
        ⟨Function.update s.neighbors nbraddr (some (neighborUpdate db c.p (c.route nbraddr))),rib⟩
  | .withdraw => (s.neighbors nbraddr).bind fun db =>
      (s.rib.remove limit c.p (c.route nbraddr)).map fun rib =>
        ⟨Function.update s.neighbors nbraddr (some (neighborWithdraw db c.p (c.route nbraddr))),rib⟩

def routeChange (limit : ℕ) (s : State T) (nbraddr : Bits) (message : Message) : Option (State T) :=
  (readChanges message).bind fun changes => changes.foldlM (applyChange nbraddr limit) s

inductive NbrState where
  | up
  | down
  | other
  deriving DecidableEq, Repr

def removeEntry (limit : ℕ) (rib : Rib T) (e : Bits × Route) : Option (Rib T) := rib.remove limit e.1 e.2

def nbrChange (limit : ℕ) (s : State T) (nbraddr : Bits) : NbrState → Option (State T)
  | .up => some { s with neighbors := Function.update s.neighbors nbraddr (some empty) }
  | .down => (s.neighbors nbraddr).bind fun db =>
      ((routes db).foldlM (removeEntry limit) s.rib).map fun rib =>
        ⟨Function.update s.neighbors nbraddr none,rib⟩
  | .other => some s

inductive Event where
  /-- `rib.update` with a connected route. -/
  | connected (p : Bits) (name : String)
  | nbrChange (nbraddr : Bits) (state : NbrState)
  | routeChange (nbraddr : Bits) (message : Message)

def step (limit : ℕ) (s : State T) : Event → Option (State T)
  | .connected p name => (s.rib.update limit p (.connected name)).map fun rib => { s with rib := rib }
  | .nbrChange nbraddr state => nbrChange limit s nbraddr state
  | .routeChange nbraddr message => routeChange limit s nbraddr message

def RouteId.isFrom (nbraddr : Bits) : RouteId → Bool
  | .bgp _ n => n = nbraddr
  | _ => false

/-- The neighbours that are up, and the latest announcement of each for every prefix beside the connected
routes. -/
structure Announced where
  up : List Bits
  held : List (Bits × Route)

def allChanges (message : Message) : List Change :=
  message.flatMap fun m => m.2.announce.flatMap fun f =>
    if f.1 = .ipv4Unicast then
      f.2.flatMap fun h => h.2.map fun p => ⟨m.1,p,h.1,((m.2.origin.map Origin.id).getD 255)⟩
    else []

def Announced.change (nbraddr : Bits) (a : Announced) (c : Change) : Announced :=
  match c.type with
  | .other => a
  | .update =>
    if nbraddr ∈ a.up then
      { a with held := a.held.filter (fun e => e.2.id ≠ .bgp c.p nbraddr) ++ [(c.p,c.route nbraddr)] }
    else a
  | .withdraw => { a with held := a.held.filter (fun e => e.2.id ≠ .bgp c.p nbraddr) }

def Announced.step (a : Announced) : Event → Announced
  | .connected p name => { a with held := a.held ++ [(p,.connected name)] }
  | .nbrChange nbraddr .up => ⟨nbraddr::a.up,a.held.filter (fun e => !e.2.id.isFrom nbraddr)⟩
  | .nbrChange nbraddr .down =>
    ⟨a.up.filter (fun n => n ≠ nbraddr),a.held.filter (fun e => !e.2.id.isFrom nbraddr)⟩
  | .nbrChange _ .other => a
  | .routeChange nbraddr message => (allChanges message).foldl (Announced.change nbraddr) a

/-- The tables hold what is announced, each route where its next hop calls for. -/
structure Exact (a : Announced) (rib : Rib T) : Prop where
  content : (routes rib.valid ++ routes rib.invalid).Perm a.held
  /-- One route at most for a prefix and a neighbour, and only for neighbours that are up. -/
  one : ∀ e ∈ a.held, ∀ p n, e.2.id = .bgp p n → e.1 = p ∧ n ∈ a.up ∧ ∀ f ∈ a.held, f.2.id = .bgp p n → f = e
  valid : ∀ e ∈ a.held, e ∈ routes rib.valid ↔
    ∀ b, e.2.nexthop = some b → Resolves Route.nexthop (heads rib.valid) b
  invalid : ∀ e ∈ a.held, e ∈ routes rib.invalid ↔
    ∃ b, e.2.nexthop = some b ∧ ¬ Resolves Route.nexthop (heads rib.valid) b

/-- A change from a neighbour that is up: an announcement is not a second one for its prefix. -/
def ChangeOk (nbraddr : Bits) (limit : ℕ) (s : State T) (c : Change) : Prop :=
  match c.type with
  | .other => True
  | .update => ∃ db, s.neighbors nbraddr = some db ∧ (∀ e ∈ heads db, e.1 ≠ c.p) ∧
      UpdateOk limit s.rib c.p (c.route nbraddr)
  | .withdraw => ∃ db, s.neighbors nbraddr = some db ∧ RemoveOk limit s.rib c.p (c.route nbraddr)

/-- An event that runs into no gap of the program. -/
def EventOk (limit : ℕ) (s : State T) : Event → Prop
  | .connected p name => UpdateOk limit s.rib p (.connected name)
  | .nbrChange nbraddr .up => s.neighbors nbraddr = none
  | .nbrChange nbraddr .down => ∃ db, s.neighbors nbraddr = some db ∧
      Admits (removeEntry limit) (fun rib e => RemoveOk limit rib e.1 e.2) s.rib (routes db)
  | .nbrChange _ .other => True
  | .routeChange nbraddr message => readChanges message = some (allChanges message) ∧
      Admits (applyChange nbraddr limit) (ChangeOk nbraddr limit) s (allChanges message)

/-- The database of a neighbour holds what it announces, one route to a prefix. -/
structure DatabaseOf (held : List (Bits × Route)) (n : Bits) (db : T) : Prop where
  single : Single db
  mem : ∀ e, e ∈ heads db ↔ e ∈ held ∧ e.2.id.isFrom n = true

/-- The relation between the program's state and what is announced. -/
structure Sound (a : Announced) (s : State T) : Prop where
  consistent : Consistent s.rib
  content : ∀ e, e ∈ content s.rib ↔ e ∈ a.held
  nodup : a.held.Nodup
  up : ∀ n, n ∈ a.up ↔ s.neighbors n ≠ none
  owner : ∀ e ∈ a.held, ∀ q n, e.2.id = .bgp q n → e.1 = q ∧ n ∈ a.up
  database : ∀ n db, s.neighbors n = some db → DatabaseOf a.held n db

end Model

section
variable {T : Type} [RadixOps T (List Route)] {limit : ℕ}
variable {a : Announced} {s : State T} {p q n nbraddr : Bits} {c : Change} {id : RouteId} {e f : Bits × Route}

theorem databases_update {neighbors : Bits → Option T} {held held' : List (Bits × Route)}
    {x : Option T} (h : ∀ m db, neighbors m = some db → DatabaseOf held m db)
    (hnew : ∀ db, x = some db → DatabaseOf held' n db)
    (hkeep : ∀ m, m ≠ n → ∀ e, e.2.id.isFrom m = true → (e ∈ held ↔ e ∈ held')) :
    ∀ m db, Function.update neighbors n x m = some db → DatabaseOf held' m db := by
  intro m db hdb
  by_cases hm : m = n
  · subst hm
    rw [Function.update_self] at hdb
    exact hnew db hdb
  · rw [Function.update_of_ne hm] at hdb
    obtain ⟨hsingle,hmem⟩ := h m db hdb
    refine ⟨hsingle,?_⟩
    intro e
    rw [hmem e]
    exact and_congr_left fun hfrom => hkeep m hm e hfrom

theorem isFrom_iff : id.isFrom n = true ↔ ∃ q, id = .bgp q n := by
  cases id <;> simp [RouteId.isFrom]

theorem Sound.id_eq (h : Sound a s) (he : e ∈ a.held) : e.2.id = .bgp p n ↔ e.1 = p ∧ e.2.id.isFrom n = true := by
  rw [isFrom_iff]
  constructor
  · intro hid
    exact ⟨(h.owner e he p n hid).1,p,hid⟩
  · rintro ⟨rfl,q,hid⟩
    rw [(h.owner e he q n hid).1]
    exact hid

theorem Sound.not_from (h : Sound a s) (hn : s.neighbors n = none) (he : e ∈ a.held) :
    e.2.id.isFrom n = false := by
  cases hfrom : e.2.id.isFrom n with
  | false => rfl
  | true =>
    obtain ⟨q,hid⟩ := isFrom_iff.mp hfrom
    exact absurd hn ((h.up n).mp (h.owner e he q n hid).2)

variable [LawfulRadix T (List Route)]

theorem Sound.one (h : Sound a s) (he : e ∈ a.held) (hf : f ∈ a.held) (hid : e.2.id = .bgp p n)
    (hid' : f.2.id = .bgp p n) : f = e := by
  have hup := (h.owner e he p n hid).2
  obtain ⟨db,hdb⟩ := Option.ne_none_iff_exists'.mp ((h.up n).mp hup)
  have hmem := (h.database n db hdb).mem
  obtain ⟨he₁,he₂⟩ := (h.id_eq he).mp hid
  obtain ⟨hf₁,hf₂⟩ := (h.id_eq hf).mp hid'
  exact onePer_heads db f ((hmem f).mpr ⟨hf,hf₂⟩) e ((hmem e).mpr ⟨he,he₂⟩) (hf₁.trans he₁.symm)

theorem Sound.exact (h : Sound a s) : Exact a s.rib := by
  have hc := h.consistent
  have hv : ∀ e, e ∈ routes s.rib.valid ↔ e ∈ heads s.rib.valid := fun e => mem_routes hc.valid
  have hi : ∀ e, e ∈ routes s.rib.invalid ↔ e ∈ heads s.rib.invalid := fun e => mem_routes hc.invalid
  have hsplit : ∀ e ∈ a.held, e ∈ heads s.rib.valid ∨ e ∈ heads s.rib.invalid :=
    fun e he => (h.content e).mpr he
  constructor
  · have hdisj : (routes s.rib.valid).Disjoint (routes s.rib.invalid) := by
      intro e hev hei
      exact hc.not_accepted ((hi e).mp hei) (hc.accepted_valid ((hv e).mp hev))
    apply (List.perm_ext_iff_of_nodup
      ((routes_nodup hc.valid).append (routes_nodup hc.invalid) hdisj) h.nodup).mpr
    intro e
    rw [List.mem_append,hv,hi]
    exact h.content e
  · intro e he p n hid
    exact ⟨(h.owner e he p n hid).1,(h.owner e he p n hid).2,fun f hf hid' => h.one he hf hid hid'⟩
  · intro e he
    rw [hv]
    refine ⟨hc.accepted_valid,fun ha => (hsplit e he).resolve_right fun hei => hc.not_accepted hei ha⟩
  · intro e he
    rw [hi]
    constructor
    · intro hei
      have hno := hc.not_accepted hei
      unfold Accepted at hno
      push Not at hno
      exact hno
    · rintro ⟨b,hb,hno⟩
      exact (hsplit e he).resolve_left fun hev => hno (hc.accepted_valid hev b hb)

theorem sound_start : Sound ⟨[],[]⟩ (start : State T) := by
  constructor
  · exact consistent_empty
  · intro e
    simp [content,start,heads_empty]
  · exact List.nodup_nil
  · simp [start]
  · simp
  · simp [start]

theorem sound_connected {name : String} (h : Sound a s) (hok : UpdateOk limit s.rib p (.connected name)) :
    ∃ s', step limit s (.connected p name) = some s' ∧
      Sound (a.step (.connected p name)) s' := by
  obtain ⟨rib,hrib,hcons,hcontent⟩ := update_spec h.consistent hok
  obtain ⟨c,-,hvalid,-⟩ := hok
  have hfree := (hvalid fun b hb => by simp [Route.nexthop] at hb).1
  have hnew : (p,Route.connected name) ∉ a.held := by
    rw [← h.content]
    rintro (he | he)
    · exact hfree _ he rfl
    · exact h.consistent.remote _ he rfl
  refine ⟨{ s with rib := rib },?_,?_⟩
  · have hupdate : s.rib.update limit p (.connected name) = some rib := hrib.returns
    simp only [step,hupdate,Option.map_some]
  · constructor
    · exact hcons
    · intro e
      rw [hcontent,Set.mem_insert_iff,h.content]
      simp [Announced.step,or_comm]
    · simp only [Announced.step]
      exact h.nodup.append (List.nodup_singleton _) (by simpa using hnew)
    · exact h.up
    · intro e he q n hid
      rcases List.mem_append.mp he with he | he
      · exact h.owner e he q n hid
      · rw [List.mem_singleton.mp he] at hid
        cases hid
    · intro n db hdb
      refine ⟨(h.database n db hdb).single,?_⟩
      intro e
      rw [(h.database n db hdb).mem e]
      simp only [Announced.step,List.mem_append,List.mem_singleton]
      refine and_congr_left fun hfrom => ⟨Or.inl,fun he => he.resolve_right ?_⟩
      rintro rfl
      simp [Route.id,RouteId.isFrom] at hfrom

theorem sound_up (h : Sound a s) (hn : s.neighbors n = none) :
    ∃ s', step limit s (.nbrChange n .up) = some s' ∧
      Sound (a.step (.nbrChange n .up)) s' := by
  have hheld : a.held.filter (fun e => !e.2.id.isFrom n) = a.held := by
    apply List.filter_eq_self.mpr
    intro e he
    simp [h.not_from hn he]
  refine ⟨_,rfl,?_⟩
  constructor
  · exact h.consistent
  · simpa only [Announced.step,hheld] using h.content
  · simpa only [Announced.step,hheld] using h.nodup
  · intro m
    by_cases hm : m = n
    · simp [Announced.step,hm]
    · simpa [Announced.step,hm] using h.up m
  · intro e he q m hid
    simp only [Announced.step,hheld] at he ⊢
    exact ⟨(h.owner e he q m hid).1,List.mem_cons_of_mem _ (h.owner e he q m hid).2⟩
  · simp only [Announced.step,hheld]
    refine databases_update h.database ?_ (fun _ _ _ _ => Iff.rfl)
    rintro db ⟨⟩
    refine ⟨single_empty,?_⟩
    intro e
    rw [heads_empty]
    constructor
    · exact fun he => he.elim
    · rintro ⟨he,hfrom⟩
      rw [h.not_from hn he] at hfrom
      cases hfrom

/-- The loop over the routes of a neighbour that goes down removes them one by one. -/
theorem removeEntries (h : Sound a s) {l : List (Bits × Route)}
    (hrun : Admits (removeEntry limit) (fun rib e => RemoveOk limit rib e.1 e.2) s.rib l) :
    ∃ rib, l.foldlM (removeEntry limit) s.rib = some rib ∧ Consistent rib ∧
      ∀ e, e ∈ content rib ↔ e ∈ a.held ∧ ∀ x ∈ l, ¬ (e.1 = x.1 ∧ e.2.id = x.2.id) := by
  refine hrun.history (I := fun past rib => Consistent rib ∧
    ∀ e, e ∈ content rib ↔ e ∈ a.held ∧ ∀ x ∈ past, ¬ (e.1 = x.1 ∧ e.2.id = x.2.id)) []
    ⟨h.consistent,by simpa using h.content⟩ ?_
  rintro past rib x ⟨hcons,hcontent⟩ hok
  obtain ⟨rib',hrib',hcons',hcontent'⟩ := remove_spec hcons hok
  refine ⟨rib',hrib'.returns,hcons',?_⟩
  intro e
  rw [hcontent']
  simp only [Others,hcontent,List.mem_append,List.mem_singleton,and_assoc]
  refine and_congr_right fun _ => ⟨?_,?_⟩
  · rintro ⟨hpast,hx⟩ y (hy | rfl)
    · exact hpast y hy
    · exact hx
  · intro hall
    exact ⟨fun y hy => hall y (Or.inl hy),hall x (Or.inr rfl)⟩

theorem sound_down {db : T} (h : Sound a s) (hdb : s.neighbors n = some db)
    (hrun : Admits (removeEntry limit) (fun rib e => RemoveOk limit rib e.1 e.2) s.rib (routes db)) :
    ∃ s', step limit s (.nbrChange n .down) = some s' ∧
      Sound (a.step (.nbrChange n .down)) s' := by
  obtain ⟨rib,hrib,hcons,hcontent⟩ := removeEntries h hrun
  obtain ⟨hsingle,hmem⟩ := h.database n db hdb
  -- what matches an entry of the database is what comes from the neighbour
  have hgone : ∀ e ∈ a.held, (∀ x ∈ routes db, ¬ (e.1 = x.1 ∧ e.2.id = x.2.id)) ↔
      e.2.id.isFrom n = false := by
    intro e he
    constructor
    · intro hall
      cases hfrom : e.2.id.isFrom n with
      | false => rfl
      | true => exact absurd ⟨rfl,rfl⟩ (hall e ((mem_routes hsingle).mpr ((hmem e).mpr ⟨he,hfrom⟩)))
    · rintro hfrom x hx ⟨-,hid⟩
      have hx := ((hmem x).mp ((mem_routes hsingle).mp hx)).2
      rw [← hid,hfrom] at hx
      cases hx
  refine ⟨⟨Function.update s.neighbors n none,rib⟩,?_,?_⟩
  · simp only [step,nbrChange,hdb,Option.bind_some,hrib,Option.map_some]
  · constructor
    · exact hcons
    · intro e
      simp only [Announced.step,List.mem_filter,Bool.not_eq_true',hcontent]
      exact and_congr_right fun he => hgone e he
    · exact h.nodup.filter _
    · intro m
      by_cases hm : m = n
      · simp [Announced.step,hm]
      · simpa [Announced.step,hm] using h.up m
    · intro e he q m hid
      simp only [Announced.step,List.mem_filter,Bool.not_eq_true'] at he ⊢
      refine ⟨(h.owner e he.1 q m hid).1,(h.owner e he.1 q m hid).2,?_⟩
      have hne : m ≠ n := by
        rintro rfl
        rw [isFrom_iff.mpr ⟨q,hid⟩] at he
        exact Bool.noConfusion he.2
      simpa using hne
    · refine databases_update h.database (fun db hnone => by cases hnone) ?_
      intro m hm e hfrom
      obtain ⟨q,hid⟩ := isFrom_iff.mp hfrom
      simpa [Announced.step,hid,RouteId.isFrom] using fun _ => hm

theorem isFrom_route (c : Change) (n m : Bits) : (c.route n).id.isFrom m = true ↔ n = m := by
  simp [Change.route,Route.id,RouteId.isFrom]

theorem sound_update {db : T} (h : Sound a s) (hdb : s.neighbors n = some db)
    (hfirst : ∀ e ∈ heads db, e.1 ≠ c.p) (hok : UpdateOk limit s.rib c.p (c.route n)) (htype : c.type = .update) :
    ∃ s', applyChange n limit s c = some s' ∧ Sound (a.change n c) s' := by
  obtain ⟨rib,hrib,hcons,hcontent⟩ := update_spec h.consistent hok
  obtain ⟨hsingle,hmem⟩ := h.database n db hdb
  have hup : n ∈ a.up := (h.up n).mpr (by simp [hdb])
  have hfresh : ∀ e ∈ a.held, e.2.id ≠ .bgp c.p n := by
    intro e he hid
    obtain ⟨hp,hfrom⟩ := (h.id_eq he).mp hid
    exact hfirst e ((hmem e).mpr ⟨he,hfrom⟩) hp
  have hchange : a.change n c = { a with held := a.held ++ [(c.p,c.route n)] } := by
    rw [Announced.change,htype]
    simp only [hup,if_true]
    rw [List.filter_eq_self.mpr fun e he => by simpa using hfresh e he]
  have hdb' : neighborUpdate db c.p (c.route n) = put db c.p [c.route n] := by
    rw [neighborUpdate,searchExact_absent hsingle hfirst]
    rfl
  refine ⟨⟨Function.update s.neighbors n (some (put db c.p [c.route n])),rib⟩,?_,?_⟩
  · have hupdate : s.rib.update limit c.p (c.route n) = some rib := hrib.returns
    simp only [applyChange,htype,hdb,Option.bind_some,hupdate,Option.map_some,hdb']
  rw [hchange]
  constructor
  · exact hcons
  · intro e
    rw [hcontent,Set.mem_insert_iff,h.content]
    simp [or_comm]
  · refine h.nodup.append (List.nodup_singleton _) ?_
    rw [List.disjoint_singleton]
    exact fun he => hfresh _ he rfl
  · intro m
    by_cases hm : m = n
    · simp [hm,hup]
    · simpa [hm] using h.up m
  · intro e he q m hid
    rcases List.mem_append.mp he with he | he
    · exact h.owner e he q m hid
    · rw [List.mem_singleton.mp he] at hid ⊢
      simp only [Change.route,Route.id,RouteId.bgp.injEq] at hid
      exact ⟨hid.1,hid.2 ▸ hup⟩
  · refine databases_update h.database ?_ ?_
    · rintro _ ⟨⟩
      refine ⟨hsingle.put _ _,?_⟩
      intro e
      rw [heads_put_new hfirst,Set.mem_insert_iff,hmem e,List.mem_append,List.mem_singleton]
      constructor
      · rintro (rfl | he)
        · exact ⟨Or.inr rfl,(isFrom_route c n n).mpr rfl⟩
        · exact ⟨Or.inl he.1,he.2⟩
      · rintro ⟨he | rfl,hfrom⟩
        · exact Or.inr ⟨he,hfrom⟩
        · exact Or.inl rfl
    · intro m hm e hfrom
      rw [List.mem_append,List.mem_singleton]
      refine ⟨Or.inl,fun he => he.resolve_right ?_⟩
      rintro rfl
      exact hm ((isFrom_route c n m).mp hfrom).symm

theorem withdraw_heads {db : T} (h : Sound a s) (hdb : s.neighbors n = some db) :
    Single (neighborWithdraw db c.p (c.route n)) ∧
      heads (neighborWithdraw db c.p (c.route n)) = {e ∈ heads db | e.1 ≠ c.p} := by
  obtain ⟨hs,hmem⟩ := h.database n db hdb
  by_cases hx : ∀ e ∈ heads db, e.1 ≠ c.p
  · rw [neighborWithdraw,searchExact_absent hs hx]
    refine ⟨hs,?_⟩
    ext e
    exact ⟨fun he => ⟨he,hx e he⟩,fun he => he.1⟩
  · push Not at hx
    obtain ⟨e,he,hp⟩ := hx
    obtain ⟨hheld,hfrom⟩ := (hmem e).mp he
    have hid : e.2.id = (c.route n).id := (h.id_eq hheld).mpr ⟨hp,hfrom⟩
    have hwithdraw : neighborWithdraw db c.p (c.route n) = delete (put db c.p []) c.p := by
      rw [neighborWithdraw,← hp,searchExact_heads hs he]
      simp [routeRemove_same hid]
    rw [hwithdraw]
    exact ⟨hs.delete c.p,heads_delete⟩

theorem sound_withdraw {db : T} (h : Sound a s) (hdb : s.neighbors n = some db)
    (hok : RemoveOk limit s.rib c.p (c.route n)) (htype : c.type = .withdraw) :
    ∃ s', applyChange n limit s c = some s' ∧ Sound (a.change n c) s' := by
  obtain ⟨rib,hrib,hcons,hcontent⟩ := remove_spec h.consistent hok
  obtain ⟨hsingle,hheads⟩ := withdraw_heads (c := c) h hdb
  have hmem := (h.database n db hdb).mem
  have hchange : a.change n c = { a with held := a.held.filter (fun e => e.2.id ≠ .bgp c.p n) } := by
    rw [Announced.change,htype]
  refine ⟨⟨Function.update s.neighbors n (some (neighborWithdraw db c.p (c.route n))),rib⟩,?_,?_⟩
  · have hremove : s.rib.remove limit c.p (c.route n) = some rib := hrib.returns
    simp only [applyChange,htype,hdb,Option.bind_some,hremove,Option.map_some]
  rw [hchange]
  constructor
  · exact hcons
  · intro e
    rw [hcontent]
    simp only [Others,List.mem_filter,decide_eq_true_eq]
    rw [← h.content]
    refine and_congr_right fun he => not_congr ⟨fun hn => hn.2,fun hid => ⟨?_,hid⟩⟩
    exact (h.owner e ((h.content e).mp he) _ _ hid).1
  · exact h.nodup.filter _
  · intro m
    by_cases hm : m = n
    · simpa [hm,hdb] using h.up n
    · simpa [hm] using h.up m
  · intro e he
    exact h.owner e (List.mem_filter.mp he).1
  · refine databases_update h.database ?_ ?_
    · rintro _ ⟨⟩
      refine ⟨hsingle,?_⟩
      intro e
      rw [hheads,List.mem_filter,decide_eq_true_eq]
      constructor
      · rintro ⟨he,hp⟩
        obtain ⟨hheld,hfrom⟩ := (hmem e).mp he
        exact ⟨⟨hheld,fun hid => hp ((h.id_eq hheld).mp hid).1⟩,hfrom⟩
      · rintro ⟨⟨hheld,hid⟩,hfrom⟩
        exact ⟨(hmem e).mpr ⟨hheld,hfrom⟩,fun hp => hid ((h.id_eq hheld).mpr ⟨hp,hfrom⟩)⟩
    · intro m hm e hfrom
      rw [List.mem_filter,decide_eq_true_eq]
      refine ⟨fun he => ⟨he,?_⟩,fun he => he.1⟩
      intro hid
      rw [hid] at hfrom
      have hnm : n = m := by simpa [RouteId.isFrom] using hfrom
      exact hm hnm.symm

theorem sound_change (h : Sound a s) (hok : ChangeOk n limit s c) :
    ∃ s', applyChange n limit s c = some s' ∧ Sound (a.change n c) s' := by
  unfold ChangeOk at hok
  cases htype : c.type with
  | other =>
    refine ⟨s,by simp [applyChange,htype],?_⟩
    rw [Announced.change,htype]
    exact h
  | update =>
    rw [htype] at hok
    obtain ⟨db,hdb,hfirst,hupdate⟩ := hok
    exact sound_update h hdb hfirst hupdate htype
  | withdraw =>
    rw [htype] at hok
    obtain ⟨db,hdb,hremove⟩ := hok
    exact sound_withdraw h hdb hremove htype

theorem sound_step {ev : Event} (h : Sound a s) (hok : EventOk limit s ev) :
    ∃ s', step limit s ev = some s' ∧ Sound (a.step ev) s' := by
  cases ev with
  | connected p name => exact sound_connected h hok
  | nbrChange n state =>
    cases state with
    | up => exact sound_up h hok
    | down =>
      obtain ⟨db,hdb,hrun⟩ := hok
      exact sound_down h hdb hrun
    | other => exact ⟨s,rfl,h⟩
  | routeChange n message =>
    obtain ⟨hread,hrun⟩ := hok
    have hall := hrun.history (I := fun past s => Sound (past.foldl (Announced.change n) a) s) [] h
      fun past s c h hok => by
        rw [List.foldl_append]
        exact sound_change h hok
    obtain ⟨s',hs',hsound⟩ := hall
    exact ⟨s',by simp only [step,routeChange,hread,Option.bind_some,hs'],hsound⟩

end

/-- In every run whose events all meet the condition the program returns from each of them, and behind the
last one the tables hold exactly what is announced, with the routes that resolve in `unicast-valid`. -/
theorem rib_exact {T : Type} [RadixOps T (List Route)] [LawfulRadix T (List Route)] (limit : ℕ)
    (events : List Event) (hrun : Admits (step limit) (EventOk limit) (start : State T) events) :
    ∃ s, events.foldlM (step limit) (start : State T) = some s ∧
      Exact (events.foldl Announced.step ⟨[],[]⟩) s.rib := by
  obtain ⟨s,hs,hsound⟩ := hrun.history (I := fun past s => Sound (past.foldl Announced.step ⟨[],[]⟩) s) []
    sound_start fun past s ev h hok => by
      rw [List.foldl_append]
      exact sound_step h hok
  exact ⟨s,hs,hsound.exact⟩

abbrev RadixState := State (Radix (List Route))

def announceOne (nexthop p : Bits) : Message := [(.update,⟨[(.ipv4Unicast,[(nexthop,[p])])],some .igp⟩)]

def network : Route := .connected "connected-1"

def overNetwork : Route := .bgp [false] [false] [true,true] 0

/-- A neighbour comes up and announces a prefix; the network of its next hop is connected later, which makes
the route migrate; the neighbour goes down. -/
def sessionEvents : List Event :=
  [.nbrChange [false] .up,.routeChange [false] (announceOne [true,true] [false]),
    .connected [true] "connected-1",.nbrChange [false] .down]

theorem session_admitted : Admits (step 1000) (EventOk 1000) (start : RadixState) sessionEvents := by
  refine ⟨rfl,?_⟩
  intro s₁ hs₁
  obtain rfl := Option.some_inj.mp hs₁
  refine ⟨⟨rfl,⟨_,rfl,by simp [heads_empty],?_⟩,fun _ _ => trivial⟩,?_⟩
  · exact updateOk_of_check (fun e => e.2.protocolId) 3 single_empty (by decide)
  intro s₂ hs₂
  obtain rfl := Option.some_inj.mp hs₂
  refine ⟨updateOk_of_check (fun e => e.2.protocolId) 3 single_empty (by decide),?_⟩
  intro s₃ hs₃
  obtain rfl := Option.some_inj.mp hs₃
  exact ⟨⟨_,rfl,removeOk_of_check (fun e => e.2.protocolId) 3 ((single_empty.put _ _).put _ _) (by decide),
    fun _ _ => trivial⟩,fun _ _ => trivial⟩

/-- The route is announced once its network is there, and behind the session the network is left. -/
theorem rib_exact_session : Admits (step 1000) (EventOk 1000) (start : RadixState) sessionEvents ∧
    ((sessionEvents.take 3).foldlM (step 1000) (start : RadixState)).map (fun s => routes s.rib.valid) =
      some [([false],overNetwork),([true],network)] ∧
    sessionEvents.foldl Announced.step ⟨[],[]⟩ = ⟨[],[([true],network)]⟩ ∧
    ∃ s, sessionEvents.foldlM (step 1000) (start : RadixState) = some s ∧
      Exact (sessionEvents.foldl Announced.step ⟨[],[]⟩) s.rib :=
  ⟨session_admitted,by decide +kernel,rfl,rib_exact 1000 sessionEvents session_admitted⟩

/-- A prefix is announced with a next hop that does not resolve, and again with one that does: both
routes stay. -/
theorem second_announcement_kept :
    let events := [Event.connected [true,true] "connected-1",.nbrChange [false] .up,
      .routeChange [false] (announceOne [true,false] [false]),
      .routeChange [false] (announceOne [true,true] [false])]
    ((events.foldlM (step 1000) (start : RadixState)).map fun s => (routes s.rib.valid,routes s.rib.invalid)) =
        some ([([false],overNetwork),([true,true],network)],[([false],.bgp [false] [false] [true,false] 0)]) ∧
      (events.foldl Announced.step ⟨[],[]⟩).held = [([true,true],network),([false],overNetwork)] := by
  refine ⟨?_,?_⟩
  · decide +kernel
  · decide +kernel

end Exabgp
end Ixmap
