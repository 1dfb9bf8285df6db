import Ixmap.DriverRun

/-! The search of `ixmap_slot_assign` for a free slot, and what runs of it and `ixmap_slot_release` hand
out. A port's cursor goes round the slots of its own region. -/
namespace Ixmap
namespace Driver
open CircularIndex

def Inflight (d : Plane) (x : ℤ) : Prop := d.buf.slots x &&& slotInflight ≠ 0

instance (d : Plane) (x : ℤ) : Decidable (Inflight d x) := by
  unfold Inflight; infer_instance

def regionSlot (count p i : ℕ) : ℤ := (p*count+i : ℕ)

/-- The slot at a distance from a port's cursor, going round its region. -/
def cursorSlot (d : Plane) (p i : ℕ) : ℤ :=
  regionSlot d.buf.count p (((d.ports p).rxSlotNext+i)%d.buf.count)

/-- What `ixmap_slot_assign` does when it takes the slot at distance `i`: the first free one. -/
structure Takes (d : Plane) (p i : ℕ) (d' : Plane) : Prop where
  lt : i < d.buf.count
  free : ¬ Inflight d (cursorSlot d p i)
  first : ∀ j < i, Inflight d (cursorSlot d p j)
  mark : Inflight d' (cursorSlot d p i)
  count : d'.buf.count = d.buf.count
  slots : ∀ y ≠ cursorSlot d p i, d'.buf.slots y = d.buf.slots y
  port : d'.ports p = { d.ports p with rxSlotNext := ((d.ports p).rxSlotNext+i+1)%d.buf.count }
  other : ∀ q ≠ p, d'.ports q = d.ports q

/-- The first `n` ports have the regions of `ixmap_plane_alloc`, and cursors inside them. -/
structure Laid (n : ℕ) (d : Plane) : Prop where
  fit : n*d.buf.count < 2^31
  offset : ∀ p < n, (d.ports p).rxSlotOffset = p*d.buf.count % 2^32
  next : ∀ p < n, 0 < d.buf.count → (d.ports p).rxSlotNext < d.buf.count

section Scan
variable {slots : ℤ → ℕ} {offset count k next r : ℕ}

theorem wrapNext_lt (h : next < count) : wrapNext count next < count := by
  unfold wrapNext
  split <;> omega

theorem wrapNext_mod (count next i : ℕ) : (wrapNext count next+i)%count = (next+(i+1))%count := by
  unfold wrapNext
  split
  · rename_i he
    rw [Nat.zero_add,show next+(i+1) = i+count by omega,Nat.add_mod_right]
  · rw [show next+1+i = next+(i+1) by omega]

/-- A scan that finds nothing has seen the slots in flight, each position as often as it came by. -/
theorem slotScan_none (hn : next < count) (h : slotScan slots offset count k next = none) :
    ∀ i < k, slots (slotAt offset ((next+i)%count)) &&& slotInflight ≠ 0 := by
  induction k generalizing next with
  | zero => intro i hi; omega
  | succ k ih =>
    rw [slotScan] at h
    split at h
    · simp at h
    · rename_i hbusy
      intro i hi
      cases i with
      | zero => rwa [Nat.add_zero,Nat.mod_eq_of_lt hn]
      | succ i =>
        have hseen := ih (wrapNext_lt hn) h i (by omega)
        rwa [wrapNext_mod] at hseen

theorem slotScan_all (hn : next < count) (h : slotScan slots offset count count next = none) :
    ∀ j < count, slots (slotAt offset j) &&& slotInflight ≠ 0 := by
  intro j hj
  have hseen := slotScan_none hn h ((j+count-next)%count) (Nat.mod_lt _ (by omega))
  rwa [Nat.add_mod_mod,show next+(j+count-next) = j+count by omega,Nat.add_mod_right,
    Nat.mod_eq_of_lt hj] at hseen

theorem slotScan_some (hn : next < count) (h : slotScan slots offset count k next = some r) :
    ∃ i < k, r = (next+i)%count ∧ slots (slotAt offset r) &&& slotInflight = 0 ∧
      ∀ j < i, slots (slotAt offset ((next+j)%count)) &&& slotInflight ≠ 0 := by
  induction k generalizing next with
  | zero => simp [slotScan] at h
  | succ k ih =>
    rw [slotScan] at h
    split at h
    · rename_i hfree
      obtain rfl : next = r := by simpa using h
      exact ⟨0,by omega,by rw [Nat.add_zero,Nat.mod_eq_of_lt hn],hfree,by omega⟩
    · rename_i hbusy
      obtain ⟨i,hi,hr,hfree,hseen⟩ := ih (wrapNext_lt hn) h
      rw [wrapNext_mod] at hr
      refine ⟨i+1,by omega,hr,hfree,?_⟩
      intro j hj
      cases j with
      | zero => rwa [Nat.add_zero,Nat.mod_eq_of_lt hn]
      | succ j =>
        have hj' := hseen j (by omega)
        rwa [wrapNext_mod] at hj'

/-- The scan reads the flags of its own region only. -/
theorem slotScan_congr {slots' : ℤ → ℕ} (hn : next < count)
    (h : ∀ i < count, slots' (slotAt offset i) = slots (slotAt offset i)) :
    slotScan slots' offset count k next = slotScan slots offset count k next := by
  induction k generalizing next with
  | zero => rfl
  | succ k ih => rw [slotScan,slotScan,h next hn,ih (wrapNext_lt hn)]

end Scan

section
variable {n p q : ℕ} {d : Plane} {x : ℤ}

theorem Laid.slotAt_eq (h : Laid n d) (hp : p < n) {i : ℕ} (hi : i < d.buf.count) :
    slotAt (d.ports p).rxSlotOffset i = regionSlot d.buf.count p i := by
  have hfit := h.fit
  have hle : (p+1)*d.buf.count ≤ n*d.buf.count := Nat.mul_le_mul_right _ hp
  rw [Nat.succ_mul] at hle
  have hmod : p*d.buf.count % 2^32 = p*d.buf.count := Nat.mod_eq_of_lt (by omega)
  rw [h.offset p hp,hmod]
  unfold slotAt regionSlot
  apply Int.bmod_eq_of_le
  · omega
  · omega

theorem inflight_or (flags : ℕ) : (flags ||| slotInflight) &&& slotInflight ≠ 0 := by
  simp [slotInflight,Nat.and_one_is_mod]

theorem Laid.assign (h : Laid n d) (hp : p < n) :
    (ixmapSlotAssign d p = (-1,d) ∧ ∀ i < d.buf.count, Inflight d (regionSlot d.buf.count p i)) ∨
    ∃ i d', ixmapSlotAssign d p = (cursorSlot d p i,d') ∧ Takes d p i d' := by
  have hnext := h.next p hp
  cases hscan : slotScan d.buf.slots (d.ports p).rxSlotOffset d.buf.count d.buf.count
      (d.ports p).rxSlotNext with
  | none =>
    refine Or.inl ⟨by simp [ixmapSlotAssign,hscan],?_⟩
    intro i hi
    have hbusy := slotScan_all (hnext (by omega)) hscan i hi
    rwa [h.slotAt_eq hp hi] at hbusy
  | some r =>
    have hpos : 0 < d.buf.count := by
      by_contra hz
      rw [Nat.eq_zero_of_not_pos hz] at hscan
      simp [slotScan] at hscan
    have hslot : ∀ i, slotAt (d.ports p).rxSlotOffset (((d.ports p).rxSlotNext+i)%d.buf.count) =
        cursorSlot d p i := fun i => h.slotAt_eq hp (Nat.mod_lt _ hpos)
    obtain ⟨i,hi,rfl,hfree,hseen⟩ := slotScan_some (hnext hpos) hscan
    have hwrap : wrapNext d.buf.count (((d.ports p).rxSlotNext+i)%d.buf.count) =
        ((d.ports p).rxSlotNext+i+1)%d.buf.count := by
      have hw := wrapNext_mod d.buf.count (((d.ports p).rxSlotNext+i)%d.buf.count) 0
      rwa [Nat.add_zero,Nat.mod_eq_of_lt (wrapNext_lt (Nat.mod_lt _ hpos)),Nat.zero_add,Nat.mod_add_mod] at hw
    have hr : ixmapSlotAssign d p = (cursorSlot d p i,(d.setPort p { d.ports p with
        rxSlotNext := ((d.ports p).rxSlotNext+i+1)%d.buf.count }).setSlot (cursorSlot d p i)
          (d.buf.slots (cursorSlot d p i) ||| slotInflight)) := by
      simp only [ixmapSlotAssign,hscan,hslot,hwrap]
    rw [hslot] at hfree
    refine Or.inr ⟨i,_,hr,hi,not_not_intro hfree,fun j hj => ?_,?_,rfl,?_,by simp,?_⟩
    · have hbusy := hseen j hj
      rwa [hslot] at hbusy
    · simpa [Inflight] using inflight_or (d.buf.slots (cursorSlot d p i))
    · intro y hy
      simp [Function.update_of_ne hy]
    · intro q hq
      simp [setPort_other _ _ hq]

theorem Takes.cursor {i k : ℕ} {d' : Plane} (h : Takes d p i d') : cursorSlot d' p k = cursorSlot d p (i+1+k) := by
  unfold cursorSlot
  rw [h.count,h.port]
  simp only [Nat.mod_add_mod]
  congr 2
  omega

theorem Takes.cursor_other {i k : ℕ} {d' : Plane} (h : Takes d p i d') (hq : q ≠ p) :
    cursorSlot d' q k = cursorSlot d q k := by
  unfold cursorSlot
  rw [h.count,h.other q hq]

theorem Takes.inflight_iff {i : ℕ} {d' : Plane} (h : Takes d p i d') (hx : x ≠ cursorSlot d p i) :
    Inflight d' x ↔ Inflight d x := by
  unfold Inflight
  rw [h.slots x hx]

theorem regionSlot_inj {c i j : ℕ} (hi : i < c) (hj : j < c) (he : regionSlot c p i = regionSlot c q j) :
    p = q ∧ i = j := by
  have he : p*c+i = q*c+j := by
    unfold regionSlot at he
    exact_mod_cast he
  have hpos : 0 < c := by omega
  have hdiv := congrArg (·/c) he
  have hpq : p = q := by
    simpa [Nat.mul_comm _ c,Nat.mul_add_div hpos,Nat.div_eq_of_lt hi,Nat.div_eq_of_lt hj] using hdiv
  subst hpq
  exact ⟨rfl,by omega⟩

theorem regionSlot_ne (c p i : ℕ) : regionSlot c p i ≠ -1 := by
  unfold regionSlot
  omega

theorem Laid.frame {d' : Plane} (h : Laid n d) (hcount : d'.buf.count = d.buf.count)
    (hoffset : ∀ p, (d'.ports p).rxSlotOffset = (d.ports p).rxSlotOffset)
    (hnext : ∀ p < n, 0 < d.buf.count → (d'.ports p).rxSlotNext < d.buf.count) : Laid n d' :=
  ⟨hcount ▸ h.fit,fun p hp => by rw [hcount,hoffset,h.offset p hp],by rwa [hcount]⟩

end

/-- The calls that take and give back slots. -/
inductive SlotOp where
  | assign (p : ℕ)
  | release (slot : ℤ)

/-- The port of a call is one of the first `n`. -/
def SlotOp.PortLt (n : ℕ) : SlotOp → Prop
  | .assign p => p < n
  | .release _ => True

def slotStep (d : Plane) : SlotOp → Plane
  | .assign p => (ixmapSlotAssign d p).2
  | .release slot => ixmapSlotRelease d slot

def handed (p : ℕ) : Plane → List SlotOp → List ℤ
  | _, [] => []
  | d, .release slot::ops => handed p (ixmapSlotRelease d slot) ops
  | d, .assign q::ops =>
    if q = p ∧ (ixmapSlotAssign d q).1 ≠ -1 then
      (ixmapSlotAssign d q).1::handed p (ixmapSlotAssign d q).2 ops
    else handed p (ixmapSlotAssign d q).2 ops

section
variable {n p : ℕ} {d : Plane} {x : ℤ}

theorem Laid.step (h : Laid n d) {op : SlotOp} (hop : op.PortLt n) :
    Laid n (slotStep d op) ∧ (slotStep d op).buf.count = d.buf.count := by
  cases op with
  | release slot => exact ⟨h.frame rfl (fun _ => rfl) h.next,rfl⟩
  | assign p =>
    rcases h.assign hop with ⟨hr,-⟩ | ⟨i,d',hr,htake⟩
    · rw [slotStep,hr]
      exact ⟨h,rfl⟩
    · rw [slotStep,hr]
      refine ⟨h.frame htake.count ?_ ?_,htake.count⟩
      · intro q
        by_cases hq : q = p
        · rw [hq,htake.port]
        · rw [htake.other q hq]
      · intro q hq hpos
        by_cases he : q = p
        · rw [he,htake.port]
          exact Nat.mod_lt _ hpos
        · rw [htake.other q he]
          exact h.next q hq hpos

theorem Laid.run (h : Laid n d) {ops : List SlotOp} (hops : ∀ op ∈ ops, op.PortLt n) :
    Laid n (ops.foldl slotStep d) ∧ (ops.foldl slotStep d).buf.count = d.buf.count := by
  induction ops generalizing d with
  | nil => exact ⟨h,rfl⟩
  | cons op ops ih =>
    obtain ⟨h1,h2⟩ := h.step (hops op (by simp))
    obtain ⟨h3,h4⟩ := ih h1 fun op hop => hops op (by simp [hop])
    exact ⟨h3,h4.trans h2⟩

theorem Takes.between {i m : ℕ} {d' : Plane} {l : List ℤ} (h : Takes d p i d') (hlt : i < m)
    (hm : m < d.buf.count) (hnodup : l.Nodup) (hl : ∀ y ∈ l, ∃ k < m-(i+1), y = cursorSlot d' p k) :
    (cursorSlot d p i::l).Nodup ∧ ∀ y ∈ cursorSlot d p i::l, ∃ k < m, y = cursorSlot d p k := by
  have hpos : 0 < d.buf.count := by omega
  have hbehind : ∀ y ∈ l, ∃ k < m, i < k ∧ y = cursorSlot d p k := by
    intro y hy
    obtain ⟨k,hk,rfl⟩ := hl y hy
    exact ⟨i+1+k,by omega,by omega,h.cursor⟩
  refine ⟨List.nodup_cons.mpr ⟨?_,hnodup⟩,?_⟩
  · intro hmem
    obtain ⟨k,hk,hik,he⟩ := hbehind _ hmem
    have hmod := (regionSlot_inj (Nat.mod_lt _ hpos) (Nat.mod_lt _ hpos) he).2
    have := eq_of_mod_eq hmod (by omega) (by omega)
    omega
  · intro y hy
    rcases List.mem_cons.mp hy with rfl | hy
    · exact ⟨i,hlt,rfl⟩
    · obtain ⟨k,hk,-,rfl⟩ := hbehind y hy
      exact ⟨k,hk,rfl⟩

/-- As long as a free slot at distance `m` from the cursor is not handed out, what is handed out for its
port lies between the cursor and it, each slot once. -/
theorem Laid.handed_between (h : Laid n d) (hp : p < n) {ops : List SlotOp}
    (hops : ∀ op ∈ ops, op.PortLt n) {m : ℕ} (hm : m < d.buf.count) (hx : x = cursorSlot d p m)
    (hfree : ¬ Inflight d x) (hnot : x ∉ handed p d ops) :
    (handed p d ops).Nodup ∧ ∀ y ∈ handed p d ops, ∃ i < m, y = cursorSlot d p i := by
  induction ops generalizing d m with
  | nil => simp [handed]
  | cons op ops ih =>
    have h' := (h.step (hops op (by simp))).1
    have hrest : ∀ op ∈ ops, op.PortLt n := fun op hop => hops op (by simp [hop])
    have hpos : 0 < d.buf.count := by omega
    cases op with
    | release slot =>
      have hfree' : ¬ Inflight (ixmapSlotRelease d slot) x := by
        by_cases he : x = slot
        · simp [Inflight,ixmapSlotRelease,he]
        · simpa [Inflight,ixmapSlotRelease,Function.update_of_ne he] using hfree
      exact ih h' hrest hm hx hfree' hnot
    | assign q =>
      have hq : q < n := hops _ List.mem_cons_self
      rcases h.assign hq with ⟨hr,-⟩ | ⟨i,d',hr,htake⟩
      · rw [handed,hr] at hnot ⊢
        simp only [ne_eq,not_true_eq_false,and_false,if_false] at hnot ⊢
        exact ih h hrest hm hx hfree hnot
      rw [slotStep,hr] at h'
      have hm' : m < d'.buf.count := htake.count ▸ hm
      by_cases hqp : q = p
      · -- The slot taken lies in front of `x`, and the cursor moves behind it.
        subst hqp
        rw [handed,hr,if_pos ⟨rfl,regionSlot_ne _ _ _⟩,List.mem_cons,not_or] at hnot
        have hlt : i < m := by
          by_contra hge
          rcases Nat.lt_or_eq_of_le (not_lt.mp hge) with hlt | rfl
          · exact hfree (hx ▸ htake.first m hlt)
          · exact hnot.1 hx
        have hx' : x = cursorSlot d' q (m-(i+1)) := by
          rw [htake.cursor,hx]
          congr 1
          omega
        obtain ⟨hnodup,hbetween⟩ := ih h' hrest (show m-(i+1) < d'.buf.count by omega) hx'
          (fun hc => hfree ((htake.inflight_iff hnot.1).mp hc)) hnot.2
        rw [handed,hr,if_pos ⟨rfl,regionSlot_ne _ _ _⟩]
        exact htake.between hlt hm hnodup hbetween
      · rw [handed,hr,if_neg fun hc => hqp hc.1] at hnot ⊢
        have hxy : x ≠ cursorSlot d q i := by
          rw [hx]
          exact fun he => hqp (regionSlot_inj (Nat.mod_lt _ hpos) (Nat.mod_lt _ hpos) he).1.symm
        obtain ⟨hnodup,hbetween⟩ := ih h' hrest hm' (by rw [htake.cursor_other (Ne.symm hqp),hx])
          (fun hc => hfree ((htake.inflight_iff hxy).mp hc)) hnot
        refine ⟨hnodup,fun y hy => ?_⟩
        obtain ⟨k,hk,rfl⟩ := hbetween y hy
        exact ⟨k,hk,htake.cursor_other (Ne.symm hqp)⟩

theorem Laid.distance (h : Laid n d) (hp : p < n) {i : ℕ} (hi : i < d.buf.count) :
    ∃ m < d.buf.count, regionSlot d.buf.count p i = cursorSlot d p m := by
  have hnext := h.next p hp (by omega)
  refine ⟨(i+d.buf.count-(d.ports p).rxSlotNext)%d.buf.count,Nat.mod_lt _ (by omega),?_⟩
  unfold cursorSlot
  have hround : (d.ports p).rxSlotNext+(i+d.buf.count-(d.ports p).rxSlotNext) = i+d.buf.count := by omega
  rw [Nat.add_mod_mod,hround,Nat.add_mod_right,Nat.mod_eq_of_lt hi]

theorem Laid.assign_congr (h : Laid n d) (hp : p < n) {slots' : ℤ → ℕ}
    (hslots : ∀ i < d.buf.count, slots' (regionSlot d.buf.count p i) = d.buf.slots (regionSlot d.buf.count p i)) :
    (ixmapSlotAssign { d with buf := { d.buf with slots := slots' } } p).1 = (ixmapSlotAssign d p).1 := by
  rcases Nat.eq_zero_or_pos d.buf.count with hz | hpos
  · simp [ixmapSlotAssign,hz,slotScan]
  have hscan : slotScan slots' (d.ports p).rxSlotOffset d.buf.count d.buf.count (d.ports p).rxSlotNext =
      slotScan d.buf.slots (d.ports p).rxSlotOffset d.buf.count d.buf.count (d.ports p).rxSlotNext := by
    refine slotScan_congr (h.next p hp hpos) fun i hi => ?_
    rw [h.slotAt_eq hp hi]
    exact hslots i hi
  simp only [ixmapSlotAssign,hscan]
  split <;> rfl

end

/-- The search for a free slot is complete and fair: in every state that calls reach from a fresh plane
it fails iff the region of the port is full, and else takes the first free slot behind the cursor; it
reads and writes no other region. A slot that is released is handed out again before any slot of the
region is handed out twice. -/
theorem slot_search_fair (n : ℕ) (d₀ : Plane) (hcount : 1 ≤ d₀.buf.count) (hfit : n*d₀.buf.count < 2^31)
    (hinit : ∀ p < n, (d₀.ports p).rxSlotNext = 0 ∧ (d₀.ports p).rxSlotOffset = p*d₀.buf.count % 2^32)
    (ops : List SlotOp) (hops : ∀ op ∈ ops, op.PortLt n) (p : ℕ) (hp : p < n) :
    let c := d₀.buf.count
    let d := ops.foldl slotStep d₀
    let r := ixmapSlotAssign d p
    (d.ports p).rxSlotOffset = p*c ∧ (∀ q < n, (d.ports q).rxSlotNext < c) ∧
    (r.1 = -1 ↔ ∀ i < c, Inflight d (regionSlot c p i)) ∧ (r.1 = -1 → r.2 = d) ∧
    (r.1 ≠ -1 → ∃ i < c, r.1 = regionSlot c p (((d.ports p).rxSlotNext+i)%c) ∧ ¬ Inflight d r.1 ∧
      (∀ j < i, Inflight d (regionSlot c p (((d.ports p).rxSlotNext+j)%c))) ∧ Inflight r.2 r.1 ∧
      (∀ y ≠ r.1, r.2.buf.slots y = d.buf.slots y) ∧ (r.2.ports p).rxSlotNext < c ∧
      ∀ q ≠ p, r.2.ports q = d.ports q) ∧
    (∀ slots' : ℤ → ℕ, (∀ i < c, slots' (regionSlot c p i) = d.buf.slots (regionSlot c p i)) →
      (ixmapSlotAssign { d with buf := { d.buf with slots := slots' } } p).1 = r.1) ∧
    ∀ i < c, ∀ ops' : List SlotOp, (∀ op ∈ ops', op.PortLt n) →
      regionSlot c p i ∉ handed p (ixmapSlotRelease d (regionSlot c p i)) ops' →
      (handed p (ixmapSlotRelease d (regionSlot c p i)) ops').Nodup := by
  intro c d r
  have hlaid₀ : Laid n d₀ := ⟨hfit,fun p hp => (hinit p hp).2,fun p hp h0 => (hinit p hp).1 ▸ h0⟩
  obtain ⟨hlaid,hc⟩ : Laid n d ∧ d.buf.count = c := hlaid₀.run hops
  have hpos : 0 < d.buf.count := hc ▸ hcount
  rw [← hc]
  refine ⟨?_,fun q hq => hlaid.next q hq hpos,?_,?_,?_,fun slots' => hlaid.assign_congr hp,?_⟩
  · have hle : (p+1)*d.buf.count ≤ n*d.buf.count := Nat.mul_le_mul_right _ hp
    have hfit' := hlaid.fit
    rw [Nat.succ_mul] at hle
    rw [hlaid.offset p hp]
    exact Nat.mod_eq_of_lt (by omega)
  · rcases hlaid.assign hp with ⟨hr,hall⟩ | ⟨i,d',hr,htake⟩
    · exact iff_of_true (congrArg Prod.fst hr) hall
    · refine iff_of_false ?_ fun hall => htake.free (hall _ (Nat.mod_lt _ hpos))
      change (ixmapSlotAssign d p).1 ≠ -1
      rw [hr]
      exact regionSlot_ne _ _ _
  · rcases hlaid.assign hp with ⟨hr,-⟩ | ⟨i,d',hr,-⟩
    · exact fun _ => congrArg Prod.snd hr
    · intro hneg
      change (ixmapSlotAssign d p).1 = -1 at hneg
      rw [hr] at hneg
      exact absurd hneg (regionSlot_ne _ _ _)
  · intro hne
    rcases hlaid.assign hp with ⟨hr,-⟩ | ⟨i,d',hr,htake⟩
    · exact absurd (congrArg Prod.fst hr) hne
    · have hr1 : r.1 = cursorSlot d p i := congrArg Prod.fst hr
      have hr2 : r.2 = d' := congrArg Prod.snd hr
      rw [hr1,hr2]
      refine ⟨i,htake.lt,rfl,htake.free,htake.first,htake.mark,htake.slots,?_,htake.other⟩
      rw [htake.port]
      exact Nat.mod_lt _ hpos
  · intro i hi ops' hops' hnot
    have hreleased : Laid n (ixmapSlotRelease d (regionSlot d.buf.count p i)) :=
      hlaid.frame rfl (fun _ => rfl) hlaid.next
    obtain ⟨m,hm,hx⟩ := hlaid.distance hp hi
    refine (hreleased.handed_between hp hops' (m := m) hm hx ?_ hnot).1
    simp [Inflight,ixmapSlotRelease]

def twoPorts : Config := { smallConfig with numPorts := 2 }

/-- The first port has used up its two slots, the second still has both. -/
theorem slot_search_fair_twoPorts :
    let d := [SlotOp.assign 0,.assign 0].foldl slotStep (initPlane twoPorts)
    (ixmapSlotAssign d 0).1 = -1 ∧ (ixmapSlotAssign d 1).1 ≠ -1 := by
  have hfit : 2*2 < 2^31 := by norm_num
  have hsearch := slot_search_fair 2 (initPlane twoPorts) (by decide) hfit (by decide)
    [.assign 0,.assign 0] (by simp [SlotOp.PortLt])
  exact ⟨(hsearch 0 (by decide)).2.2.1.mpr (by decide +kernel),
    fun hfull => absurd ((hsearch 1 (by decide)).2.2.1.mp hfull 0 (by decide)) (by decide +kernel)⟩

end Driver
end Ixmap
