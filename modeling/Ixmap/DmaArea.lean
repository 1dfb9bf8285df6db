import Ixmap.GuardedRun
import Ixmap.RangeList

/-! The DMA areas of an adapter, `kmod/ixmap_dma.c`: one list for the register window and for the memory
that user space has mapped. Addresses and sizes are `unsigned long`. -/
namespace Ixmap
namespace Kmod
open GuardedRun RangeList

inductive DmaCache where
  | default
  | disable
  | writecombine
deriving DecidableEq, Repr

/-- `struct ixmap_dma_area`, less the page and scatter tables. -/
structure DmaArea where
  refcount : ℕ
  size : ℕ
  cache : DmaCache
  addrDma : ℕ
  npages : ℕ
deriving DecidableEq, Repr

/-- What `ixmap_dma.c` reads and writes of an adapter and its hardware. -/
structure Dma where
  areas : List DmaArea
  iobase : ℕ
  iolen : ℕ
  /-- `hw->hw_addr` is a mapping that has not been `iounmap`-ed. -/
  hwMapped : Bool
deriving DecidableEq, Repr

/-- The loop of `ixmap_dma_area_whereto`; `last` counts the areas in front of the place found so far. -/
def areaWhereto (startNew endNew : ℕ) : List DmaArea → ℕ → Option ℕ
  | [], last => some last
  | area::rest, last =>
    let startArea := area.addrDma
    let endArea := (startArea+area.size)%2^64
    if endNew ≤ startArea then some last
    else if (startArea ≤ startNew ∧ startNew < endArea) ∨ (startArea < endNew ∧ endNew ≤ endArea) then none
    else areaWhereto startNew endNew rest (last+1)

/-- The place for a new area, as the number of areas in front of it. -/
def ixmapDmaAreaWhereto (areas : List DmaArea) (addrDma size : ℕ) : Option ℕ :=
  areaWhereto addrDma ((addrDma+size)%2^64) areas 0

def listAdd (areas : List DmaArea) (place : ℕ) (area : DmaArea) : List DmaArea :=
  areas.take place ++ area::areas.drop place

/-- Outcomes of the calls that `ixmap_dma_map_iobase` makes. -/
structure IobaseOutcome where
  ioremap : Bool
  kzalloc : Bool

/-- The return value is whether a mapping is returned; a failure unmaps it again. -/
def ixmapDmaMapIobase (o : IobaseOutcome) (d : Dma) : Bool × Dma :=
  if !o.ioremap then (false,d)
  else
    match ixmapDmaAreaWhereto d.areas d.iobase d.iolen with
    | none => (false,d)
    | some place =>
      if !o.kzalloc then (false,d)
      else (true,{ d with areas := listAdd d.areas place ⟨1,d.iolen,.disable,d.iobase,0⟩, hwMapped := true })

def pageShift : ℕ := 12

/-- Outcomes of the calls that `ixmap_dma_map` makes: the scatter list with its DMA addresses and
lengths, and how many of its entries `dma_map_sg` has mapped. -/
structure MapOutcome where
  allocPages : Bool
  getUserPages : Bool
  allocSgt : Bool
  allocTable : Bool
  sgl : List (ℕ × ℕ)
  mapped : ℕ
  allocArea : Bool

def MapOutcome.addrDma (o : MapOutcome) : ℕ := (o.sgl.head?.map Prod.fst).getD 0

/-- `for_each_sg`: each of the mapped entries ends where the next entry of the list starts. -/
def contiguous : ℕ → List (ℕ × ℕ) → Bool
  | 0, _ => true
  | _, [] => true
  | _, [_] => true
  | k+1, sg::next::rest => ((sg.1+sg.2)%2^64 == next.1) && contiguous k (next::rest)

/-- Pages from the one `addrVirtual` lies in to the end of the range. -/
def npagesOf (addrVirtual size : ℕ) : ℕ :=
  let userStart := addrVirtual/2^pageShift*2^pageShift
  let userEnd := ((addrVirtual+size)%2^64+(2^pageShift-1))%2^64/2^pageShift*2^pageShift
  (userEnd+2^64-userStart)%2^64/2^pageShift%2^32

/-- The DMA address, 0 for a failure, and the adapter. -/
def ixmapDmaMap (o : MapOutcome) (d : Dma) (addrVirtual size : ℕ) : ℕ × Dma :=
  if !(o.allocPages && o.getUserPages && o.allocSgt && o.allocTable) then (0,d)
  else if o.mapped = 0 then (0,d)
  else if !contiguous o.mapped o.sgl then (0,d)
  else
    match ixmapDmaAreaWhereto d.areas o.addrDma size with
    | none => (0,d)
    | some place =>
      if !o.allocArea then (0,d)
      else (o.addrDma,{ d with
        areas := listAdd d.areas place ⟨1,size,.disable,o.addrDma,npagesOf addrVirtual size⟩ })

def ixmapDmaAreaLookup (areas : List DmaArea) (addrDma : ℕ) : Option DmaArea :=
  areas.find? fun area => area.addrDma == addrDma

/-- The register window is unmapped with its area. -/
def ixmapDmaAreaFree (d : Dma) (area : DmaArea) : Dma :=
  if area.refcount = 1 then
    if area.addrDma = d.iobase then { d with hwMapped := false } else d
  else d

/-- Whether an area was found. -/
def ixmapDmaUnmap (d : Dma) (addrDma : ℕ) : Bool × Dma :=
  match ixmapDmaAreaLookup d.areas addrDma with
  | none => (false,d)
  | some area => (true,ixmapDmaAreaFree { d with areas := d.areas.erase area } area)

def ixmapDmaUnmapAll (d : Dma) : Dma :=
  d.areas.foldl (fun d area => ixmapDmaAreaFree { d with areas := d.areas.erase area } area) d

def DmaArea.stop (area : DmaArea) : ℕ := area.addrDma+area.size

/-- Sorted by start, with pairwise disjoint ranges. -/
structure AreasOk (areas : List DmaArea) : Prop where
  sorted : areas.Pairwise fun a b => a.addrDma ≤ b.addrDma
  disjoint : areas.Pairwise fun a b => Disjoint (Set.Ico a.addrDma a.stop) (Set.Ico b.addrDma b.stop)

/-- A range that is not empty and does not wrap. -/
def Fits (start size : ℕ) : Prop := 0 < size ∧ start+size < 2^64

instance (start size : ℕ) : Decidable (Fits start size) := inferInstanceAs (Decidable (_ ∧ _))

/-- The range overlaps areas, all of which lie strictly inside it. -/
def Encloses (areas : List DmaArea) (start size : ℕ) : Prop :=
  (∃ a ∈ areas, Overlaps DmaArea.addrDma DmaArea.stop start (start+size) a) ∧
    ∀ a ∈ areas, Overlaps DmaArea.addrDma DmaArea.stop start (start+size) a →
      start < a.addrDma ∧ a.stop < start+size

/-- `ixmap_dma_area_whereto` refuses exactly the ranges that overlap and keeps the list in order. -/
structure WheretoExact (areas : List DmaArea) (start size : ℕ) : Prop where
  refused : ixmapDmaAreaWhereto areas start size = none ↔
    ∃ a ∈ areas, Overlaps DmaArea.addrDma DmaArea.stop start (start+size) a
  placed : ∀ place area, ixmapDmaAreaWhereto areas start size = some place → area.addrDma = start →
    area.size = size → AreasOk (listAdd areas place area)

inductive DmaOp where
  | mapIobase (o : IobaseOutcome)
  | map (o : MapOutcome) (addrVirtual size : ℕ)
  | unmap (addrDma : ℕ)

def dmaStep (d : Dma) : DmaOp → Dma
  | .mapIobase o => (ixmapDmaMapIobase o d).2
  | .map o addrVirtual size => (ixmapDmaMap o d addrVirtual size).2
  | .unmap addrDma => (ixmapDmaUnmap d addrDma).2

def DmaOp.range (iobase iolen : ℕ) : DmaOp → Option (ℕ × ℕ)
  | .mapIobase _ => some (iobase,iolen)
  | .map o _ size => some (o.addrDma,size)
  | .unmap _ => none

def NotEnclosing (d : Dma) (op : DmaOp) : Prop :=
  ∀ start size, op.range d.iobase d.iolen = some (start,size) → ¬ Encloses d.areas start size

/-- The invariant of the list. -/
structure AreasInv (areas : List DmaArea) : Prop where
  separated : Separated DmaArea.addrDma DmaArea.stop areas
  fits : ∀ a ∈ areas, Fits a.addrDma a.size

section
variable {areas : List DmaArea} {start size : ℕ} {d : Dma}

theorem AreasInv.ok (h : AreasInv areas) : AreasOk areas := by
  have hne : ∀ a ∈ areas, a.addrDma < a.stop := by
    intro a ha
    have hpos := (h.fits a ha).1
    unfold DmaArea.stop
    omega
  obtain ⟨hsort,hdis⟩ := (separated_iff hne).mp h.separated
  exact ⟨hsort,hdis⟩

theorem AreasInv.sublist {areas' : List DmaArea} (h : AreasInv areas) (hsub : areas'.Sublist areas) :
    AreasInv areas' :=
  ⟨h.separated.sublist hsub,fun a ha => h.fits a (hsub.subset ha)⟩

/-- An area of a sorted list stops the loop exactly when it overlaps and is not strictly inside. -/
theorem areaWhereto_spec (h : AreasInv areas) (hfit : Fits start size) (last : ℕ) :
    ((∃ a ∈ areas, Overlaps DmaArea.addrDma DmaArea.stop start (start+size) a ∧
        ¬ (start < a.addrDma ∧ a.stop < start+size)) ∧
      areaWhereto start (start+size) areas last = none) ∨
    ((∀ a ∈ areas, Overlaps DmaArea.addrDma DmaArea.stop start (start+size) a →
        start < a.addrDma ∧ a.stop < start+size) ∧
      ∃ before behind, areas = before++behind ∧
        areaWhereto start (start+size) areas last = some (last+before.length) ∧
        (∀ a ∈ before, a.addrDma < start+size) ∧ ∀ a ∈ behind, start+size ≤ a.addrDma) := by
  induction areas generalizing last with
  | nil => exact Or.inr ⟨by simp,[],[],rfl,rfl,by simp,by simp⟩
  | cons area rest ih =>
    obtain ⟨hpos,hwrap⟩ := h.fits area (by simp)
    have hrest : AreasInv rest := h.sublist (List.sublist_cons_self area rest)
    have hbehind : ∀ a ∈ rest, area.stop ≤ a.addrDma := (List.pairwise_cons.mp h.separated).1
    have hmod : (area.addrDma+area.size)%2^64 = area.stop := Nat.mod_eq_of_lt hwrap
    simp only [areaWhereto,hmod]
    by_cases hbreak : start+size ≤ area.addrDma
    · -- every area from here on starts behind the new range
      right
      have hall : ∀ a ∈ area::rest, start+size ≤ a.addrDma := by
        intro a ha
        rcases List.mem_cons.mp ha with rfl | ha
        · exact hbreak
        · have := hbehind a ha
          unfold DmaArea.stop at this
          omega
      refine ⟨?_,[],area::rest,rfl,by simp [hbreak],by simp,hall⟩
      intro a ha hov
      exact absurd hov.2 (not_lt.mpr (hall a ha))
    rw [if_neg hbreak]
    have hstop : area.stop = area.addrDma+area.size := rfl
    obtain ⟨hsize,-⟩ := hfit
    by_cases hhit : (area.addrDma ≤ start ∧ start < area.stop) ∨
        (area.addrDma < start+size ∧ start+size ≤ area.stop)
    · left
      rw [if_pos hhit]
      refine ⟨⟨area,by simp,⟨by omega,by omega⟩,by omega⟩,rfl⟩
    · rw [if_neg hhit]
      have hinside : Overlaps DmaArea.addrDma DmaArea.stop start (start+size) area →
          start < area.addrDma ∧ area.stop < start+size := by
        rintro ⟨h1,h2⟩
        omega
      rcases ih hrest (last+1) with ⟨⟨a,ha,hov⟩,hnone⟩ | ⟨hall,before,behind,hsplit,hsome,hb,hB⟩
      · exact Or.inl ⟨⟨a,by simp [ha],hov⟩,hnone⟩
      · refine Or.inr ⟨?_,area::before,behind,by rw [hsplit,List.cons_append],?_,?_,hB⟩
        · intro a ha
          rcases List.mem_cons.mp ha with rfl | ha
          · exact hinside
          · exact hall a ha
        · rw [hsome,List.length_cons]
          congr 1
          omega
        · intro a ha
          rcases List.mem_cons.mp ha with rfl | ha
          · exact not_le.mp hbreak
          · exact hb a ha

theorem whereto_eq (areas : List DmaArea) (hfit : Fits start size) :
    ixmapDmaAreaWhereto areas start size = areaWhereto start (start+size) areas 0 := by
  rw [ixmapDmaAreaWhereto,Nat.mod_eq_of_lt hfit.2]

theorem AreasInv.listAdd {place : ℕ} {area : DmaArea} (h : AreasInv areas) (hfit : Fits area.addrDma area.size)
    (hplace : ixmapDmaAreaWhereto areas area.addrDma area.size = some place)
    (hno : ∀ a ∈ areas, ¬ Overlaps DmaArea.addrDma DmaArea.stop area.addrDma area.stop a) :
    AreasInv (listAdd areas place area) := by
  rw [whereto_eq _ hfit] at hplace
  obtain ⟨-,hnone⟩ | ⟨-,before,behind,rfl,hsome,hbefore,hbehind⟩ := areaWhereto_spec h hfit 0
  · rw [hnone] at hplace
    cases hplace
  · obtain rfl : before.length = place := by
      rw [hsome] at hplace
      simpa using hplace
    have hlist : Kmod.listAdd (before++behind) before.length area = before++area::behind := by
      simp [Kmod.listAdd]
    rw [hlist]
    refine ⟨h.separated.insert ?_ hbehind,?_⟩
    · intro a ha
      by_contra hlt
      exact hno a (by simp [ha]) ⟨not_le.mp hlt,hbefore a ha⟩
    · intro a ha
      rcases List.mem_append.mp ha with ha | ha
      · exact h.fits a (by simp [ha])
      rcases List.mem_cons.mp ha with rfl | ha
      · exact hfit
      · exact h.fits a (by simp [ha])

/-- On a list in order the search is wrong about the ranges that enclose areas, and about no others. -/
theorem AreasInv.wheretoExact_iff (h : AreasInv areas) (hfit : Fits start size) :
    WheretoExact areas start size ↔ ¬ Encloses areas start size := by
  have heq := whereto_eq areas hfit
  obtain ⟨⟨a,ha,hov,hout⟩,hnone⟩ | ⟨hinside,before,behind,-,hsome,-,-⟩ := areaWhereto_spec h hfit 0
  · refine iff_of_true ⟨iff_of_true (heq.trans hnone) ⟨a,ha,hov⟩,?_⟩ fun henc => hout (henc.2 a ha hov)
    intro place area hplace
    rw [heq,hnone] at hplace
    cases hplace
  · constructor
    · rintro hexact ⟨hov,-⟩
      have := hexact.refused.mpr hov
      rw [heq,hsome] at this
      cases this
    · intro henc
      have hno : ∀ a ∈ areas, ¬ Overlaps DmaArea.addrDma DmaArea.stop start (start+size) a :=
        fun a ha hov => henc ⟨⟨a,ha,hov⟩,hinside⟩
      refine ⟨iff_of_false ?_ ?_,?_⟩
      · rw [heq,hsome]
        simp
      · rintro ⟨a,ha,hov⟩
        exact hno a ha hov
      · rintro place area hplace rfl rfl
        exact (h.listAdd hfit hplace hno).ok

theorem AreasInv.added {place : ℕ} (area : DmaArea) (h : AreasInv areas) (hfit : Fits area.addrDma area.size)
    (hplace : ixmapDmaAreaWhereto areas area.addrDma area.size = some place)
    (henc : ¬ Encloses areas area.addrDma area.size) : AreasInv (Kmod.listAdd areas place area) := by
  apply h.listAdd hfit hplace
  intro a ha hov
  have hnone := ((h.wheretoExact_iff hfit).mpr henc).refused.mpr ⟨a,ha,hov⟩
  rw [hplace] at hnone
  cases hnone

@[simp] theorem ixmapDmaAreaFree_areas (area : DmaArea) : (ixmapDmaAreaFree d area).areas = d.areas := by
  unfold ixmapDmaAreaFree
  split_ifs <;> rfl

theorem mapIobase_cases (o : IobaseOutcome) (d : Dma) : ixmapDmaMapIobase o d = (false,d) ∨
    ∃ place, ixmapDmaAreaWhereto d.areas d.iobase d.iolen = some place ∧ ixmapDmaMapIobase o d =
      (true,{ d with areas := listAdd d.areas place ⟨1,d.iolen,.disable,d.iobase,0⟩, hwMapped := true }) := by
  unfold ixmapDmaMapIobase
  rcases ixmapDmaAreaWhereto d.areas d.iobase d.iolen with _ | place
  · exact Or.inl (by split_ifs <;> rfl)
  · split_ifs
    · exact Or.inl rfl
    · exact Or.inl rfl
    · exact Or.inr ⟨place,rfl,rfl⟩

theorem map_cases (o : MapOutcome) (d : Dma) (addrVirtual size : ℕ) : ixmapDmaMap o d addrVirtual size = (0,d) ∨
    ∃ place, ixmapDmaAreaWhereto d.areas o.addrDma size = some place ∧ ixmapDmaMap o d addrVirtual size =
      (o.addrDma,{ d with
        areas := listAdd d.areas place ⟨1,size,.disable,o.addrDma,npagesOf addrVirtual size⟩ }) := by
  unfold ixmapDmaMap
  rcases ixmapDmaAreaWhereto d.areas o.addrDma size with _ | place
  · exact Or.inl (by split_ifs <;> rfl)
  · split_ifs
    · exact Or.inl rfl
    · exact Or.inl rfl
    · exact Or.inl rfl
    · exact Or.inl rfl
    · exact Or.inr ⟨place,rfl,rfl⟩

theorem unmap_cases (d : Dma) (addrDma : ℕ) :
    (ixmapDmaUnmap d addrDma = (false,d) ∧ ∀ a ∈ d.areas, a.addrDma ≠ addrDma) ∨
    ∃ area ∈ d.areas, area.addrDma = addrDma ∧
      ixmapDmaUnmap d addrDma = (true,ixmapDmaAreaFree { d with areas := d.areas.erase area } area) := by
  unfold ixmapDmaUnmap ixmapDmaAreaLookup
  rcases hfind : d.areas.find? (fun area => area.addrDma == addrDma) with _ | area
  · refine Or.inl ⟨by rw [hfind],?_⟩
    intro a ha
    simpa using List.find?_eq_none.mp hfind a ha
  · refine Or.inr ⟨area,List.mem_of_find?_eq_some hfind,?_,by rw [hfind]⟩
    simpa using List.find?_some hfind

theorem dmaStep_window (op : DmaOp) :
    (dmaStep d op).iobase = d.iobase ∧ (dmaStep d op).iolen = d.iolen := by
  cases op with
  | mapIobase o => obtain h | ⟨place,-,h⟩ := mapIobase_cases o d <;> simp [dmaStep,h]
  | map o addrVirtual size => obtain h | ⟨place,-,h⟩ := map_cases o d addrVirtual size <;> simp [dmaStep,h]
  | unmap addrDma =>
    obtain ⟨h,-⟩ | ⟨area,-,-,h⟩ := unmap_cases d addrDma
    · simp [dmaStep,h]
    · simp only [dmaStep,h,ixmapDmaAreaFree]
      split_ifs <;> exact ⟨rfl,rfl⟩

theorem AreasInv.step {op : DmaOp} (h : AreasInv d.areas)
    (hfit : ∀ start size, op.range d.iobase d.iolen = some (start,size) → Fits start size)
    (henc : NotEnclosing d op) : AreasInv (dmaStep d op).areas := by
  cases op with
  | mapIobase o =>
    obtain heq | ⟨place,hplace,heq⟩ := mapIobase_cases o d
    · simpa [dmaStep,heq] using h
    · simpa [dmaStep,heq] using AreasInv.added ⟨1,d.iolen,.disable,d.iobase,0⟩ h
        (hfit _ _ rfl) hplace (henc _ _ rfl)
  | map o addrVirtual size =>
    obtain heq | ⟨place,hplace,heq⟩ := map_cases o d addrVirtual size
    · simpa [dmaStep,heq] using h
    · simpa [dmaStep,heq] using AreasInv.added ⟨1,size,.disable,o.addrDma,npagesOf addrVirtual size⟩ h
        (hfit _ _ rfl) hplace (henc _ _ rfl)
  | unmap addrDma =>
    obtain ⟨heq,-⟩ | ⟨area,-,-,heq⟩ := unmap_cases d addrDma
    · simpa [dmaStep,heq] using h
    · simpa [dmaStep,heq] using h.sublist List.erase_sublist

end

/-- After any calls none of which asks for a range that encloses areas, the list is in order, and the
search for the next call is wrong about exactly the enclosing ranges. -/
theorem dma_areas_ok (d : Dma) (ops : List DmaOp) (hempty : d.areas = [])
    (hfit : ∀ op ∈ ops, ∀ start size, op.range d.iobase d.iolen = some (start,size) → Fits start size)
    (hrun : Meets dmaStep NotEnclosing d ops) :
    AreasOk (ops.foldl dmaStep d).areas ∧ ∀ start size, Fits start size →
      (WheretoExact (ops.foldl dmaStep d).areas start size ↔
        ¬ Encloses (ops.foldl dmaStep d).areas start size) := by
  let inv (e : Dma) := AreasInv e.areas ∧ e.iobase = d.iobase ∧ e.iolen = d.iolen
  have hinv : inv (ops.foldl dmaStep d) := by
    apply hrun.invariant
    · exact ⟨by rw [hempty]; exact ⟨List.Pairwise.nil,by simp⟩,rfl,rfl⟩
    · rintro e op hop ⟨hareas,hbase,hlen⟩ henc
      obtain ⟨hbase',hlen'⟩ := dmaStep_window (d := e) op
      refine ⟨hareas.step ?_ henc,hbase'.trans hbase,hlen'.trans hlen⟩
      rw [hbase,hlen]
      exact hfit op hop
  exact ⟨hinv.1.ok,fun start size => hinv.1.wheretoExact_iff⟩

/-- A mapping whose calls all succeed, contiguous from `addrDma` on. -/
def MapOutcome.at (addrDma size : ℕ) : MapOutcome := ⟨true,true,true,true,[(addrDma,size)],1,true⟩

def unmapped : Dma := ⟨[],0xf0000000,0x80000,false⟩

theorem dma_areas_ok_two :
    AreasOk ([.mapIobase ⟨true,true⟩,.map (.at 0x2000 0x1000) 0x10000 0x1000].foldl dmaStep unmapped).areas :=
  (dma_areas_ok unmapped _ rfl
    (by
      intro op hop
      rcases List.mem_cons.mp hop with rfl | hop
      · rintro start size ⟨⟩
        decide
      · obtain rfl := List.mem_singleton.mp hop
        rintro start size ⟨⟩
        decide)
    (by
      refine ⟨?_,?_,trivial⟩
      · rintro start size ⟨⟩ ⟨⟨a,ha,-⟩,-⟩
        simp [unmapped] at ha
      · rintro start size ⟨⟩ ⟨⟨a,ha,h1,h2⟩,-⟩
        simp [dmaStep,ixmapDmaMapIobase,unmapped,ixmapDmaAreaWhereto,areaWhereto,listAdd] at ha
        subst ha
        revert h1 h2
        decide)).1

/-- A range around an existing area is accepted, out of order and overlapping. -/
theorem enclosing_range_accepted :
    let d := [.map (.at 0x2000 0x1000) 0x10000 0x1000,.map (.at 0x1000 0x3000) 0x20000 0x3000].foldl
      dmaStep unmapped
    (d.areas.map fun a => (a.addrDma,a.size)) = [(0x2000,0x1000),(0x1000,0x3000)] ∧ ¬ AreasOk d.areas := by
  refine ⟨by decide,fun h => ?_⟩
  have hsort := h.sorted
  revert hsort
  decide

end Kmod
end Ixmap
