import Mathlib

/-! Linked lists that are edited in place. A node holds the next node and the address of the cell that
points to the node itself, which is the `first` of a list head or the `next` of another node. -/
namespace HList

/-- A cell that holds a pointer to a node. -/
inductive Cell (H N : Type) where
  | first (h : H)
  | next (n : N)
deriving DecidableEq

structure Links (H N : Type) where
  cell : Cell H N → Option N
  pprev : N → Option (Cell H N)

variable {H N : Type}

/-- The cell starts the list `l`. -/
def Chain (m : Links H N) : Cell H N → List N → Prop
  | c, [] => m.cell c = none
  | c, n::l => m.cell c = some n ∧ m.pprev n = some c ∧ Chain m (.next n) l

variable {m m' : Links H N} {c : Cell H N} {n x : N} {h : H} {l : List N}

theorem Chain.cell (hc : Chain m c l) : m.cell c = l.head? := by
  cases l with
  | nil => exact hc
  | cons n l => exact hc.1

theorem Chain.congr (hc : Chain m c l) (hcell : m'.cell c = m.cell c)
    (hsame : ∀ n ∈ l, m'.cell (.next n) = m.cell (.next n) ∧ m'.pprev n = m.pprev n) :
    Chain m' c l := by
  induction l generalizing c with
  | nil => exact hcell.trans hc
  | cons n l ih =>
    obtain ⟨hn,hp,hrest⟩ := hc
    have hself := hsame n (by simp)
    exact ⟨hcell.trans hn,hself.2.trans hp,
      ih hrest hself.1 fun n' hn' => hsame n' (by simp [hn'])⟩

theorem Chain.pprev (hc : Chain m c l) (hn : n ∈ l) :
    ∃ p, m.pprev n = some p ∧ (p = c ∨ ∃ y ∈ l, p = .next y) := by
  induction l generalizing c with
  | nil => simp at hn
  | cons x l ih =>
    obtain ⟨-,hp,hrest⟩ := hc
    rcases List.mem_cons.mp hn with rfl | hn
    · exact ⟨c,hp,Or.inl rfl⟩
    · obtain ⟨p,hpn,he | ⟨y,hy,he⟩⟩ := ih hrest hn
      · exact ⟨p,hpn,Or.inr ⟨x,by simp,he⟩⟩
      · exact ⟨p,hpn,Or.inr ⟨y,by simp [hy],he⟩⟩

theorem Chain.next_mem (hc : Chain m c l) (hn : n ∈ l) (hx : m.cell (.next n) = some x) : x ∈ l.tail := by
  induction l generalizing c with
  | nil => simp at hn
  | cons y l ih =>
    obtain ⟨-,-,hrest⟩ := hc
    rcases List.mem_cons.mp hn with rfl | hn
    · rw [hrest.cell] at hx
      exact List.mem_of_mem_head? hx
    · exact List.mem_of_mem_tail (ih hrest hn)

namespace Links
variable [DecidableEq N]

def setPprev (m : Links H N) (n : N) (c : Option (Cell H N)) : Links H N :=
  { m with pprev := Function.update m.pprev n c }

/-- Makes `c` the cell that points to the node, if there is one. -/
def setBack (m : Links H N) (n : Option N) (c : Cell H N) : Links H N :=
  match n with
  | none => m
  | some n => m.setPprev n (some c)

@[simp] theorem setPprev_cell (m : Links H N) (n : N) (c : Option (Cell H N)) :
    (m.setPprev n c).cell = m.cell := rfl

@[simp] theorem setBack_cell (m : Links H N) (n : Option N) (c : Cell H N) :
    (m.setBack n c).cell = m.cell := by
  cases n <;> rfl

theorem setPprev_of_ne {m : Links H N} {n n' : N} {c : Option (Cell H N)} (hne : n' ≠ n) :
    (m.setPprev n c).pprev n' = m.pprev n' := Function.update_of_ne hne _ _

theorem setBack_of_ne {m : Links H N} {n : Option N} {n' : N} {c : Cell H N} (hne : n ≠ some n') :
    (m.setBack n c).pprev n' = m.pprev n' := by
  cases n with
  | none => rfl
  | some n => exact setPprev_of_ne fun he => hne (congrArg some he.symm)

variable [DecidableEq H]

def setCell (m : Links H N) (c : Cell H N) (n : Option N) : Links H N :=
  { m with cell := Function.update m.cell c n }

@[simp] theorem setCell_pprev (m : Links H N) (c : Cell H N) (n : Option N) :
    (m.setCell c n).pprev = m.pprev := rfl

theorem setCell_of_ne {m : Links H N} {c c' : Cell H N} {n : Option N} (hne : c' ≠ c) :
    (m.setCell c n).cell c' = m.cell c' := Function.update_of_ne hne _ _

def initHead (m : Links H N) (h : H) : Links H N := m.setCell (.first h) none

def initNode (m : Links H N) (n : N) : Links H N := (m.setCell (.next n) none).setPprev n none

def addHead (m : Links H N) (n : N) (h : H) : Links H N :=
  let first := m.cell (.first h)
  let m := (m.setCell (.next n) first).setBack first (.next n)
  (m.setCell (.first h) (some n)).setPprev n (some (.first h))

def unlink (m : Links H N) (n : N) (pprev : Cell H N) : Links H N :=
  let next := m.cell (.next n)
  (m.setCell pprev next).setBack next pprev

/-- `hlist_del_init`: a node that no cell points to is left alone. -/
def delInit (m : Links H N) (n : N) : Links H N :=
  match m.pprev n with
  | none => m
  | some pprev => (m.unlink n pprev).initNode n

end Links

variable [DecidableEq H] [DecidableEq N]

section Delete
variable {pprev : Cell H N}

theorem delInit_cell (hp : m.pprev n = some pprev) (hne : c ≠ .next n) :
    (m.delInit n).cell c = if c = pprev then m.cell (.next n) else m.cell c := by
  unfold Links.delInit
  rw [hp]
  simp only [Links.initNode,Links.unlink,Links.setPprev_cell]
  rw [Links.setCell_of_ne hne,Links.setBack_cell]
  by_cases hcp : c = pprev
  · simp [hcp,Links.setCell]
  · rw [if_neg hcp,Links.setCell_of_ne hcp]

theorem delInit_pprev (hp : m.pprev n = some pprev) (hne : x ≠ n) :
    (m.delInit n).pprev x = if m.cell (.next n) = some x then some pprev else m.pprev x := by
  unfold Links.delInit
  rw [hp]
  simp only [Links.initNode,Links.unlink]
  rw [Links.setPprev_of_ne hne,Links.setCell_pprev]
  by_cases hx : m.cell (.next n) = some x
  · rw [if_pos hx,hx]
    simp [Links.setBack,Links.setPprev]
  · rw [if_neg hx,Links.setBack_of_ne hx,Links.setCell_pprev]

/-- `hlist_del_init` of a node takes it out of its list. -/
theorem Chain.delInit (hc : Chain m c l) (hn : n ∈ l) (hnodup : l.Nodup) (hcl : ∀ y ∈ l, c ≠ .next y) :
    Chain (m.delInit n) c (l.erase n) := by
  induction l generalizing c with
  | nil => simp at hn
  | cons y l ih =>
    obtain ⟨p,hp,hpc⟩ := hc.pprev hn
    obtain ⟨hy,hl⟩ := List.nodup_cons.mp hnodup
    obtain ⟨hcy,hpy,hrest⟩ := id hc
    by_cases hyn : y = n
    · -- The cell now points to the rest of the list, of which only the first node changes.
      subst hyn
      obtain rfl : c = p := Option.some.inj (hpy.symm.trans hp)
      rw [List.erase_cons_head]
      have hself : (m.delInit y).cell c = m.cell (.next y) := by
        rw [delInit_cell hp (hcl y (by simp)),if_pos rfl]
      cases l with
      | nil => exact hself.trans hrest
      | cons x l =>
        obtain ⟨hx,-,htail⟩ := hrest
        have hxy : x ≠ y := fun he => hy (by simp [he])
        refine ⟨hself.trans hx,by rw [delInit_pprev hp hxy,if_pos hx],?_⟩
        obtain ⟨hxl,-⟩ := List.nodup_cons.mp hl
        have hcell : ∀ z ∈ x::l, (m.delInit y).cell (.next z) = m.cell (.next z) := by
          intro z hz
          have hzy : (Cell.next z : Cell H N) ≠ .next y := fun he => hy (Cell.next.inj he ▸ hz)
          rw [delInit_cell hp hzy,if_neg (hcl z (by simp at hz ⊢; tauto)).symm]
        refine htail.congr (hcell x (by simp)) fun z hz => ⟨hcell z (by simp [hz]),?_⟩
        have hzx : m.cell (.next y) ≠ some z := by
          rw [hx]
          exact fun he => hxl (Option.some.inj he ▸ hz)
        rw [delInit_pprev hp (fun he => hy (by simp [← he,hz])),if_neg hzx]
    · -- Neither the cell nor the first node changes.
      have hnl : n ∈ l := (List.mem_cons.mp hn).resolve_left (Ne.symm hyn)
      rw [List.erase_cons_tail (by simpa using hyn)]
      have hcp : c ≠ p := by
        rintro rfl
        obtain ⟨p',hp',hcase⟩ := hrest.pprev hnl
        obtain rfl : c = p' := Option.some.inj (hp.symm.trans hp')
        rcases hcase with he | ⟨z,hz,he⟩
        · exact hcl y (by simp) he
        · exact hcl z (by simp [hz]) he
      have hny : m.cell (.next n) ≠ some y := fun he => hy (List.mem_of_mem_tail (hrest.next_mem hnl he))
      refine ⟨?_,?_,ih hrest hnl hl fun z hz he => hy (Cell.next.inj he ▸ hz)⟩
      · rw [delInit_cell hp (hcl n hn),if_neg hcp,hcy]
      · rw [delInit_pprev hp hyn,if_neg hny,hpy]

end Delete

theorem addHead_cell (h1 : c ≠ .first h) (h2 : c ≠ .next n) : (m.addHead n h).cell c = m.cell c := by
  simp only [Links.addHead,Links.setPprev_cell]
  rw [Links.setCell_of_ne h1,Links.setBack_cell,Links.setCell_of_ne h2]

theorem addHead_pprev (h1 : x ≠ n) (h2 : m.cell (.first h) ≠ some x) :
    (m.addHead n h).pprev x = m.pprev x := by
  simp only [Links.addHead]
  rw [Links.setPprev_of_ne h1,Links.setCell_pprev,Links.setBack_of_ne h2,Links.setCell_pprev]

theorem Chain.addHead (hc : Chain m (.first h) l) (hnodup : l.Nodup) (hn : n ∉ l) :
    Chain (m.addHead n h) (.first h) (n::l) := by
  have hnext : (m.addHead n h).cell (.next n) = m.cell (.first h) := by
    simp [Links.addHead,Links.setCell]
  refine ⟨by simp [Links.addHead,Links.setCell],by simp [Links.addHead,Links.setPprev],?_⟩
  cases l with
  | nil => exact hnext.trans hc
  | cons x l =>
    obtain ⟨hx,-,htail⟩ := hc
    have hxn : x ≠ n := fun he => hn (by simp [he])
    refine ⟨hnext.trans hx,?_,?_⟩
    · simp only [Links.addHead]
      rw [Links.setPprev_of_ne hxn,Links.setCell_pprev,hx]
      simp [Links.setBack,Links.setPprev]
    · have hne : ∀ z ∈ x::l, (Cell.next z : Cell H N) ≠ .next n := fun z hz he => hn (Cell.next.inj he ▸ hz)
      refine htail.congr (addHead_cell nofun (hne x (by simp))) fun z hz => ⟨?_,?_⟩
      · exact addHead_cell nofun (hne z (by simp [hz]))
      · apply addHead_pprev fun he => hn (by simp [← he,hz])
        rw [hx]
        exact fun he => (List.nodup_cons.mp hnodup).1 (Option.some.inj he ▸ hz)

/-- The heads of `S` start these lists, and no node is in two places. -/
structure Holds (S : Set H) (m : Links H N) (chains : H → List N) : Prop where
  chain : ∀ h ∈ S, Chain m (.first h) (chains h)
  nodup : ∀ h, (chains h).Nodup
  apart : ∀ h h' n, n ∈ chains h → n ∈ chains h' → h = h'

namespace Holds
variable {S : Set H} {chains : H → List N}

theorem delInit (hm : Holds S m chains) (hh : h ∈ S) (hn : n ∈ chains h) :
    Holds S (m.delInit n) (Function.update chains h ((chains h).erase n)) := by
  have hsub : ∀ h' x, x ∈ Function.update chains h ((chains h).erase n) h' → x ∈ chains h' := by
    intro h' x hx
    by_cases he : h' = h
    · subst he
      rw [Function.update_self] at hx
      exact List.mem_of_mem_erase hx
    · rwa [Function.update_of_ne he] at hx
  refine ⟨?_,?_,fun h₁ h₂ x h1 h2 => hm.apart h₁ h₂ x (hsub h₁ x h1) (hsub h₂ x h2)⟩
  · intro h' hS
    by_cases he : h' = h
    · subst he
      rw [Function.update_self]
      exact (hm.chain h' hS).delInit hn (hm.nodup h') fun y _ => nofun
    · -- The other lists share no cell with this one.
      rw [Function.update_of_ne he]
      obtain ⟨p,hp,hcase⟩ := (hm.chain h hh).pprev hn
      have hout : ∀ x ∈ chains h', x ∉ chains h := fun x hx hx' => he (hm.apart h' h x hx hx')
      have hpx : ∀ x ∈ chains h', (Cell.next x : Cell H N) ≠ p := by
        rintro x hx rfl
        rcases hcase with hc | ⟨y,hy,hc⟩
        · cases hc
        · exact hout x hx (Cell.next.inj hc ▸ hy)
      refine (hm.chain h' hS).congr ?_ fun x hx => ⟨?_,?_⟩
      · have hfirst : (Cell.first h' : Cell H N) ≠ .next n := nofun
        rw [delInit_cell hp hfirst,if_neg]
        rintro rfl
        rcases hcase with hc | ⟨y,hy,hc⟩
        · exact he (Cell.first.inj hc)
        · cases hc
      · have hne : (Cell.next x : Cell H N) ≠ .next n := fun hc => hout x hx (Cell.next.inj hc ▸ hn)
        rw [delInit_cell hp hne,if_neg (hpx x hx)]
      · have hne : x ≠ n := fun hc => hout x hx (hc ▸ hn)
        rw [delInit_pprev hp hne,if_neg]
        exact fun hc => hout x hx (List.mem_of_mem_tail ((hm.chain h hh).next_mem hn hc))
  · intro h'
    by_cases he : h' = h
    · subst he
      rw [Function.update_self]
      exact (hm.nodup h').erase n
    · rw [Function.update_of_ne he]
      exact hm.nodup h'

theorem addHead (hm : Holds S m chains) (hh : h ∈ S) (hn : ∀ h', n ∉ chains h') :
    Holds S (m.addHead n h) (Function.update chains h (n::chains h)) := by
  have hfirst := (hm.chain h hh).cell
  refine ⟨?_,?_,?_⟩
  · intro h' hS
    by_cases he : h' = h
    · subst he
      rw [Function.update_self]
      exact (hm.chain h' hS).addHead (hm.nodup h') (hn h')
    · rw [Function.update_of_ne he]
      refine (hm.chain h' hS).congr (addHead_cell (fun hc => he (Cell.first.inj hc)) nofun)
        fun x hx => ⟨?_,?_⟩
      · exact addHead_cell nofun fun hc => hn h' (Cell.next.inj hc ▸ hx)
      · have hxn : x ≠ n := fun hc => hn h' (hc ▸ hx)
        rw [addHead_pprev hxn]
        rw [hfirst]
        exact fun hc => he (hm.apart h' h x hx (List.mem_of_mem_head? hc))
  · intro h'
    by_cases he : h' = h
    · subst he
      rw [Function.update_self]
      exact List.nodup_cons.mpr ⟨hn h',hm.nodup h'⟩
    · rw [Function.update_of_ne he]
      exact hm.nodup h'
  · intro h₁ h₂ x h1 h2
    have hsub : ∀ h', x ∈ Function.update chains h (n::chains h) h' → (h' = h ∧ x = n) ∨ x ∈ chains h' := by
      intro h' hx
      by_cases he : h' = h
      · subst he
        rw [Function.update_self] at hx
        exact (List.mem_cons.mp hx).imp_left fun hx => ⟨rfl,hx⟩
      · rw [Function.update_of_ne he] at hx
        exact Or.inr hx
    rcases hsub h₁ h1 with ⟨he₁,hx⟩ | hx₁ <;> rcases hsub h₂ h2 with ⟨he₂,hx'⟩ | hx₂
    · exact he₁.trans he₂.symm
    · exact absurd (hx ▸ hx₂) (hn h₂)
    · exact absurd (hx' ▸ hx₁) (hn h₁)
    · exact hm.apart h₁ h₂ x hx₁ hx₂

end Holds

end HList
