import Ixmap.FibRun

/-! The forwarding table refines a list of routes keyed by the bits of the prefix and the id, of
which a lookup selects the longest that covers the destination, the newest among equals. -/
namespace Ixmap
namespace FibTable
open BlockHeap PrefixBits Lpm StableOrder

def prefixBits (a : Bytes) (n : ℕ) : List Bool := (List.range n).map (bit a)

@[simp] theorem prefixBits_length (a : Bytes) (n : ℕ) : (prefixBits a n).length = n := by
  simp [prefixBits]

theorem prefixBits_inj {a b : Bytes} {n : ℕ} : prefixBits a n = prefixBits b n ↔ Agree a b n := by
  simp only [prefixBits,List.map_inj_left,List.mem_range]
  rfl

/-- A route of the abstract table. -/
structure AbsRoute where
  bits : List Bool
  id : ℤ
  type : FibType
  portIndex : ℤ
  nexthop : List UInt8
deriving DecidableEq

def AbsRoute.len (s : AbsRoute) : ℕ := s.bits.length

def AbsRoute.covers (s : AbsRoute) (dst : Bytes) : Bool := prefixBits dst s.len == s.bits

def AbsRoute.hasKey (s : AbsRoute) (bits : List Bool) (id : ℤ) : Bool := s.bits == bits && s.id == id

/-- A call, as the abstract table sees it. -/
inductive AbsOp where
  | update (s : AbsRoute)
  | delete (bits : List Bool) (id : ℤ)

/-- A route is added if its key is new and removed if its key is there. -/
def AbsOp.step (routes : List AbsRoute) : AbsOp → Bool × List AbsRoute
  | .update s => if routes.any (·.hasKey s.bits s.id) then (false,routes) else (true,s::routes)
  | .delete bits id =>
    if routes.any (·.hasKey bits id) then (true,routes.filter fun s => !s.hasKey bits id)
    else (false,routes)

def absRun (routes : List AbsRoute) : List AbsOp → List Bool × List AbsRoute
  | [] => ([],routes)
  | op::ops =>
    let (ret,routes) := op.step routes
    let (rets,routes) := absRun routes ops
    (ret::rets,routes)

/-- `fib_lookup` may return `s` on the abstract table. -/
def IsBest (routes : List AbsRoute) (dst : Bytes) (s : AbsRoute) : Prop :=
  IsNewestLargest AbsRoute.len (routes.filter (·.covers dst)) s

/-- What an entry says, with as many bytes of its next hop as its family has. -/
def FibEntry.abs (e : FibEntry) (size : ℕ) : AbsRoute :=
  ⟨prefixBits e.pfx e.prefixLen,e.id,e.type,e.portIndex,(List.range size).map e.nexthop⟩

def Route.abs (r : Route) : AbsRoute :=
  ⟨prefixBits r.pfx r.prefixLen,r.id,r.type,r.portIndex,
    (List.range ((addrSize r.family).getD 0)).map r.nexthop⟩

def FibOp.abs : FibOp → AbsOp
  | .update r => .update r.abs
  | .delete pfx prefixLen id => .delete (prefixBits pfx prefixLen) id

def FibOp.Valid : FibOp → Prop
  | .update r => r.Valid
  | .delete _ _ _ => True

/-- An entry holds a route of the abstract table. -/
def Says (s : AbsRoute) (e : FibEntry) : Prop := e.abs s.nexthop.length = s

/-- The table holds the routes of the list, in its order of age. -/
def Rep (fib : Fib) (routes : List AbsRoute) : Prop :=
  (∀ j, fib.desc.ok j = true) ∧ ∃ R, FibInv Set.univ fib R ∧
    List.Forall₂ (fun p s => Says s ((keysOf fib.desc).entry p)) R routes

variable {fib fib' : Fib} {routes : List AbsRoute} {R : List ℕ} {s : AbsRoute} {r : Route}
variable {K : Keys} {pfx dst : Bytes} {n p size : ℕ} {id : ℤ}

theorem Says.bits_eq (h : Says s (K.entry p)) : s.bits = prefixBits (K.pfx p) (K.len p) := by
  rw [← h]
  rfl

theorem Says.id_eq (h : Says s (K.entry p)) : s.id = K.id p := by
  rw [← h]
  rfl

theorem Says.len_eq (h : Says s (K.entry p)) : K.len p = s.len := by
  rw [AbsRoute.len,h.bits_eq,prefixBits_length]

theorem Says.covers_iff (h : Says s (K.entry p)) : Covers K dst p ↔ s.covers dst = true := by
  rw [AbsRoute.covers,beq_iff_eq,← h.len_eq,h.bits_eq,eq_comm,prefixBits_inj]
  rfl

theorem Says.hasKey_iff (h : Says s (K.entry p)) :
    HasKey K id n pfx p ↔ s.hasKey (prefixBits pfx n) id = true := by
  rw [AbsRoute.hasKey,Bool.and_eq_true,beq_iff_eq,beq_iff_eq,h.bits_eq,h.id_eq]
  constructor
  · rintro ⟨⟨hid,hlen⟩,hag⟩
    rw [hlen]
    exact ⟨prefixBits_inj.mpr hag,hid⟩
  · rintro ⟨hb,hid⟩
    have hlen : K.len p = n := by simpa using congrArg List.length hb
    rw [hlen] at hb
    exact ⟨⟨hid,hlen⟩,prefixBits_inj.mp hb⟩

theorem says_initEntry (old : FibEntry) (hsize : addrSize r.family = some size)
    (hlen : r.prefixLen ≤ 8*size) : Says r.abs (initEntry old r size) := by
  have hbits : prefixBits (memcpy old.pfx r.pfx size) r.prefixLen = prefixBits r.pfx r.prefixLen := by
    apply prefixBits_inj.mpr
    intro i hi
    have hlt : i/8 < size := by omega
    simp [bit,memcpy,hlt]
  have hhop : (List.range size).map (memcpy old.nexthop r.nexthop size) =
      (List.range size).map r.nexthop := by
    apply List.map_congr_left
    intro i hi
    simp [memcpy,List.mem_range.mp hi]
  simp [Says,FibEntry.abs,Route.abs,initEntry,hsize,hbits,hhop]

theorem forall₂_exists {rel : ℕ → AbsRoute → Prop} {f : ℕ → Prop} {g : AbsRoute → Bool}
    (hfg : ∀ p s, rel p s → (f p ↔ g s = true)) (h : List.Forall₂ rel R routes) :
    (∃ p ∈ R, f p) ↔ routes.any g = true := by
  induction h with
  | nil => simp
  | cons hps _ ih =>
    simp only [List.mem_cons,exists_eq_or_imp,List.any_cons,Bool.or_eq_true,hfg _ _ hps,ih]

theorem forall₂_says_congr (hsame : SameRoutes fib fib' R)
    (h : List.Forall₂ (fun p s => Says s ((keysOf fib.desc).entry p)) R routes) :
    List.Forall₂ (fun p s => Says s ((keysOf fib'.desc).entry p)) R routes := by
  induction h with
  | nil => exact List.Forall₂.nil
  | cons hps _ ih =>
    refine List.Forall₂.cons ?_ (ih fun p hp => hsame p (by simp [hp]))
    rwa [hsame _ (by simp)]

theorem taken_iff_any (hI : FibInv Set.univ fib R)
    (hf : List.Forall₂ (fun p s => Says s ((keysOf fib.desc).entry p)) R routes)
    (pfx : Bytes) (n : ℕ) (id : ℤ) :
    Taken fib pfx n id ↔ routes.any (·.hasKey (prefixBits pfx n) id) = true := by
  rw [hI.taken_iff]
  exact forall₂_exists (fun p s h => h.hasKey_iff) hf

/-- An update of the table is the update of the list. -/
theorem Rep.update (h : Rep fib routes) (hr : r.Valid) :
    (fibRouteUpdate fib r).1 = ((AbsOp.update r.abs).step routes).1 ∧
      Rep (fibRouteUpdate fib r).2 ((AbsOp.update r.abs).step routes).2 ∧
      ((fibRouteUpdate fib r).1 = false → (fibRouteUpdate fib r).2.table = fib.table) := by
  obtain ⟨hok,R,hI,hf⟩ := h
  obtain ⟨size,hsize,hlen⟩ := hr.exists_size
  have htaken : Taken fib r.pfx r.prefixLen r.id ↔ routes.any (·.hasKey r.abs.bits r.abs.id) = true :=
    taken_iff_any hI hf r.pfx r.prefixLen r.id
  have hgood : ∀ j, ¬ fib.desc.ok j = false := fun j hj => by simp [hok j] at hj
  have hnomid : ¬ MidFailure fib r := by
    rintro ⟨-,-,k,-,-,-,hj⟩
    rw [Heap.alloc_ok] at hj
    exact hgood _ hj
  rcases hI.update hsize hlen with ⟨h1,h2,h3,h4⟩ | ⟨h1,h2,h3,h4,h5,h6⟩ | ⟨-,-,h3,-,-,-⟩ | ⟨-,-,h3⟩
  · have hany : ¬ routes.any (·.hasKey r.abs.bits r.abs.id) = true := fun ha => h2 (htaken.mpr ha)
    rw [AbsOp.step,if_neg hany,h1]
    refine ⟨rfl,⟨?_,fib.desc.calls::R,h3,List.Forall₂.cons ?_ ?_⟩,by simp⟩
    · intro j
      have hoks : (keysOf (fibRouteUpdate fib r).2.desc).ok = (keysOf (prepared fib r size)).ok := by
        rw [h4]
      have hprep : (keysOf (prepared fib r size)).ok = fib.desc.ok := by simp [keysOf,prepared]
      rw [hprep] at hoks
      rw [show (fibRouteUpdate fib r).2.desc.ok = fib.desc.ok from hoks]
      exact hok j
    · rw [h4]
      have hself : (keysOf (prepared fib r size)).entry fib.desc.calls =
          initEntry (fib.desc.alloc.2.val fib.desc.calls) r size := by
        simp only [keysOf,prepared_self]
        rfl
      rw [hself]
      exact says_initEntry _ hsize hlen
    · apply forall₂_says_congr _ hf
      intro p hp
      rw [h4]
      exact hI.prepared_same hp
  · have ht : Taken fib r.pfx r.prefixLen r.id := by
      rcases h2 with ht | ⟨j,hj⟩
      · exact ht
      · exact absurd hj (hgood j)
    rw [AbsOp.step,if_pos (htaken.mp ht),h1]
    refine ⟨rfl,⟨fun j => by rw [h6]; exact hok j,R,h4,forall₂_says_congr h5 hf⟩,fun _ => h3⟩
  · exact absurd h3 hnomid
  · exact absurd h3 hnomid

theorem Rep.delete (h : Rep fib routes) (pfx : Bytes) (n : ℕ) (id : ℤ) :
    (fibRouteDelete fib pfx n id).1 = ((AbsOp.delete (prefixBits pfx n) id).step routes).1 ∧
      Rep (fibRouteDelete fib pfx n id).2 ((AbsOp.delete (prefixBits pfx n) id).step routes).2 ∧
      ((fibRouteDelete fib pfx n id).1 = false → (fibRouteDelete fib pfx n id).2.table = fib.table) := by
  obtain ⟨hok,R,hI,hf⟩ := h
  have htaken := taken_iff_any hI hf pfx n id
  by_cases ht : Taken fib pfx n id
  · obtain ⟨p,hp,hkey⟩ := hI.taken_iff.mp ht
    obtain ⟨h1,h2,h3⟩ := hI.delete_present hp hkey
    rw [AbsOp.step,if_pos (htaken.mp ht),h1]
    refine ⟨rfl,⟨?_,R.filter (· ≠ p),h2,?_⟩,by simp⟩
    · intro j
      have hoks : (keysOf (fibRouteDelete fib pfx n id).2.desc).ok = (keysOf fib.desc).ok := by rw [h3]
      rw [show (fibRouteDelete fib pfx n id).2.desc.ok = fib.desc.ok from hoks]
      exact hok j
    · rw [h3]
      have hmem : List.Forall₂ (fun q s => q ∈ R ∧ Says s ((keysOf fib.desc).entry q)) R routes :=
        (List.forall₂_and_left _ _).mpr ⟨fun _ hq => hq,hf⟩
      have hsame : ∀ ⦃q s⦄, q ∈ R ∧ Says s ((keysOf fib.desc).entry q) →
          (decide (q ≠ p) = true ↔ (!s.hasKey (prefixBits pfx n) id) = true) := by
        rintro q s ⟨hq,hs⟩
        rw [decide_eq_true_iff,Bool.not_eq_true',← Bool.not_eq_true,← hs.hasKey_iff]
        apply not_congr
        exact ⟨fun he => he ▸ hkey,hI.same_key hp hkey hq⟩
      exact (List.rel_filter hsame hmem).imp fun _ _ h => h.2
  · rw [AbsOp.step,if_neg (fun ha => ht (htaken.mpr ha)),hI.delete_absent ht]
    exact ⟨rfl,⟨hok,R,hI,hf⟩,fun _ => rfl⟩

theorem forall₂_mem_right {rel : ℕ → AbsRoute → Prop} {R : List ℕ} (h : List.Forall₂ rel R routes)
    (hs : s ∈ routes) : ∃ p ∈ R, rel p s := by
  induction h with
  | nil => simp at hs
  | cons hps _ ih =>
    rcases List.mem_cons.mp hs with rfl | hs
    · exact ⟨_,by simp,hps⟩
    · obtain ⟨p,hp,hrel⟩ := ih hs
      exact ⟨p,by simp [hp],hrel⟩

theorem forall₂_mem_left {rel : ℕ → AbsRoute → Prop} {R : List ℕ} (h : List.Forall₂ rel R routes)
    (hp : p ∈ R) : ∃ s ∈ routes, rel p s := by
  induction h with
  | nil => simp at hp
  | cons hps _ ih =>
    rcases List.mem_cons.mp hp with rfl | hp
    · exact ⟨_,by simp,hps⟩
    · obtain ⟨s,hs,hrel⟩ := ih hp
      exact ⟨s,by simp [hs],hrel⟩

theorem Rep.exists_entry (h : Rep fib routes) (hs : s ∈ routes) :
    ∃ x ∈ entriesIn tableSize16 fib.table, Says s ((keysOf fib.desc).entry x.ptr) := by
  obtain ⟨-,R,hI,hf⟩ := h
  obtain ⟨p,hp,hsaid⟩ := forall₂_mem_right hf hs
  obtain ⟨x,hx,rfl⟩ := hI.exists_entry hp
  exact ⟨x,hx,hsaid⟩

theorem Rep.lookup (h : Rep fib routes) (dst : Bytes) :
    match fibLookup fib dst with
    | none => ∀ s ∈ routes, s.covers dst = false
    | some p => ∃ s, Says s (fib.desc.val p) ∧ IsBest routes dst s := by
  obtain ⟨hok,R,hI,hf⟩ := h
  have hl : fibLookup fib dst =
      (sortDesc (keysOf fib.desc).len (R.filter fun p => Covers (keysOf fib.desc) dst p)).head? :=
    lookup_spec (hI.root dst)
  have hcov : ∀ ⦃p s⦄, Says s ((keysOf fib.desc).entry p) →
      (decide (Covers (keysOf fib.desc) dst p) = true ↔ s.covers dst = true) := by
    intro p s h
    rw [decide_eq_true_iff]
    exact h.covers_iff
  have hsort := sortDesc_rel (keysOf fib.desc).len (fun p s h => Says.len_eq h)
    (List.rel_filter hcov hf)
  rw [hl]
  cases hR : sortDesc (keysOf fib.desc).len (R.filter fun p => Covers (keysOf fib.desc) dst p) with
  | nil =>
    rw [hR,List.forall₂_nil_left_iff,sortDesc_eq_nil] at hsort
    intro s hs
    simpa using List.filter_eq_nil_iff.mp hsort s hs
  | cons p ps =>
    rw [hR] at hsort
    obtain ⟨s,ss,hs,-,heq⟩ := List.forall₂_cons_left_iff.mp hsort
    exact ⟨s,hs,head?_sortDesc AbsRoute.len (by rw [heq]; rfl)⟩

theorem Rep.step (h : Rep fib routes) {op : FibOp} (hop : op.Valid) :
    (op.step fib).1 = (op.abs.step routes).1 ∧ Rep (op.step fib).2 (op.abs.step routes).2 ∧
      ((op.step fib).1 = false → (op.step fib).2.table = fib.table) := by
  cases op with
  | update r => exact h.update hop
  | delete pfx prefixLen id => exact h.delete pfx prefixLen id

theorem Rep.run (h : Rep fib routes) {ops : List FibOp} (hops : ∀ op ∈ ops, op.Valid) :
    (fibRun fib ops).1 = (absRun routes (ops.map FibOp.abs)).1 ∧
      Rep (fibRun fib ops).2 (absRun routes (ops.map FibOp.abs)).2 := by
  induction ops generalizing fib routes with
  | nil => exact ⟨rfl,h⟩
  | cons op ops ih =>
    obtain ⟨hret,hrep,-⟩ := h.step (hops op (by simp))
    obtain ⟨hrets,hrep'⟩ := ih hrep fun op hop => hops op (by simp [hop])
    refine ⟨?_,hrep'⟩
    change (op.step fib).1::(fibRun (op.step fib).2 ops).1 = _
    rw [hret,hrets]
    rfl

theorem rep_init (v : ℕ → FibEntry) :
    ∃ fib, fibAlloc (Heap.init (fun _ => true) v) = some fib ∧ Rep fib [] := by
  obtain ⟨fib,hfib,hI,hok⟩ := fibAlloc_inv Set.univ (fun _ => true) v rfl
  exact ⟨fib,hfib,fun j => by rw [hok],[],hI,List.Forall₂.nil⟩

/-- The trie refines the abstract route set: over every sequence of updates and deletions, with
allocation succeeding, the calls return what the abstract calls return, a lookup finds the newest of
the longest routes that cover the destination, and a call that fails leaves every lookup alone. -/
theorem fib_refines (v : ℕ → FibEntry) (ops : List FibOp) (hops : ∀ op ∈ ops, op.Valid) :
    ∃ fib, fibAlloc (Heap.init (fun _ => true) v) = some fib ∧
      (fibRun fib ops).1 = (absRun [] (ops.map FibOp.abs)).1 ∧
      (∀ dst, match fibLookup (fibRun fib ops).2 dst with
        | none => ∀ s ∈ (absRun [] (ops.map FibOp.abs)).2, s.covers dst = false
        | some p => ∃ s, Says s ((fibRun fib ops).2.desc.val p) ∧
            IsBest (absRun [] (ops.map FibOp.abs)).2 dst s) ∧
      ∀ op : FibOp, op.Valid → (op.step (fibRun fib ops).2).1 = false →
        ∀ dst, fibLookup (op.step (fibRun fib ops).2).2 dst = fibLookup (fibRun fib ops).2 dst := by
  obtain ⟨fib,hfib,hinit⟩ := rep_init v
  obtain ⟨hrets,hrep⟩ := hinit.run hops
  refine ⟨fib,hfib,hrets,hrep.lookup,?_⟩
  intro op hop hfail dst
  rw [fibLookup,fibLookup,(hrep.step hop).2.2 hfail]

def tenNet : Route := ⟨afInet,.link,fun _ => 10,8,fun _ => 0,0,1⟩

def tenOps : List FibOp := [.update tenNet,.update tenNet,.delete tenNet.pfx 8 1]

theorem fib_refines_tenNet : (∀ op ∈ tenOps, op.Valid) ∧
    ∃ fib, fibAlloc (Heap.init (fun _ => true) fun _ => initEntry default tenNet 4) = some fib ∧
      (fibRun fib tenOps).1 = [true,false,true] ∧ ∀ dst, fibLookup (fibRun fib tenOps).2 dst = none := by
  have hops : ∀ op ∈ tenOps, op.Valid := by
    simp [tenOps,FibOp.Valid,Route.Valid,tenNet]
  obtain ⟨fib,hfib,hrets,hlook,-⟩ := fib_refines _ tenOps hops
  refine ⟨hops,fib,hfib,hrets.trans (by decide),?_⟩
  intro dst
  have h := hlook dst
  cases hl : fibLookup (fibRun fib tenOps).2 dst with
  | none => rfl
  | some p =>
    rw [hl] at h
    obtain ⟨s,-,newer,older,he,-,-⟩ := h
    have hnil : (absRun [] (tenOps.map FibOp.abs)).2 = [] := by decide
    rw [hnil] at he
    simp at he

end FibTable
end Ixmap
