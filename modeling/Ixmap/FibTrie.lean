import Ixmap.Fib
import Ixmap.StableOrder

/-! The invariant that ties the trie to a list of routes. Every node reached over a path holds,
longest first and newest first among equals, the routes that end in the bits its level adds and
cover the path; it has a table iff some route passes through it. -/
namespace Ixmap
namespace FibTable
open BlockHeap PrefixBits Lpm StableOrder

/-- What no operation on the table changes: the entries, reference counts aside, and the
outcomes of allocations. -/
structure Keys where
  entry : ℕ → FibEntry
  ok : ℕ → Bool

namespace Keys

def len (K : Keys) (p : ℕ) : ℕ := (K.entry p).prefixLen
def pfx (K : Keys) (p : ℕ) : Bytes := (K.entry p).pfx
def id (K : Keys) (p : ℕ) : ℤ := (K.entry p).id

end Keys

def keysOf (h : Heap FibEntry) : Keys := ⟨fun p => { h.val p with refcount := 0 },h.ok⟩

theorem keysOf_write {h : Heap FibEntry} {p : ℕ} {e : FibEntry}
    (he : { e with refcount := 0 } = { h.val p with refcount := 0 }) :
    keysOf (h.write p e) = keysOf h := by
  unfold keysOf
  congr 1
  funext q
  by_cases hq : q = p
  · subst hq
    simp only [Heap.write,Function.update_self,he]
  · simp [Heap.write,hq]

@[simp] theorem keysOf_alloc (h : Heap FibEntry) : keysOf h.alloc.2 = keysOf h := by
  simp [keysOf]

@[simp] theorem keysOf_free (h : Heap FibEntry) (b : ℕ) : keysOf (h.free b) = keysOf h := rfl

@[simp] theorem keysOf_pull (h : Heap FibEntry) (p : ℕ) : keysOf (fibEntryPull h p) = keysOf h :=
  keysOf_write rfl

@[simp] theorem keysOf_put (h : Heap FibEntry) (p : ℕ) : keysOf (fibEntryPut h p) = keysOf h := by
  unfold fibEntryPut
  dsimp only
  split
  · rw [keysOf_free]
    exact keysOf_write rfl
  · exact keysOf_write rfl

variable (K : Keys)

/-- Nodes reached with `o` bits hold the routes of length `n`. -/
def InLevel (o n : ℕ) : Prop := n ≤ o ∧ (o ≤ 16 ∨ o < n+8)

instance (o n : ℕ) : Decidable (InLevel o n) := by
  unfold InLevel
  infer_instance

/-- The node at path `a` holds route `p`. -/
def Stored (a : Bytes) (o p : ℕ) : Prop := InLevel o (K.len p) ∧ Agree (K.pfx p) a (K.len p)

/-- Route `p` passes through the node at path `a`. -/
def Passes (a : Bytes) (o p : ℕ) : Prop := o < K.len p ∧ Agree (K.pfx p) a o

/-- Route `p` matters to the node at path `a` or to a node below it. -/
def Touches (a : Bytes) (o p : ℕ) : Prop :=
  (o ≤ 16 ∨ o < K.len p+8) ∧ Agree (K.pfx p) a (min (K.len p) o)

def Covers (dst : Bytes) (p : ℕ) : Prop := Agree (K.pfx p) dst (K.len p)

instance (a : Bytes) (o p : ℕ) : Decidable (Stored K a o p) := by
  unfold Stored
  infer_instance

instance (a : Bytes) (o p : ℕ) : Decidable (Passes K a o p) := by
  unfold Passes
  infer_instance

instance (a : Bytes) (o p : ℕ) : Decidable (Touches K a o p) := by
  unfold Touches
  infer_instance

instance (dst : Bytes) (p : ℕ) : Decidable (Covers K dst p) := by
  unfold Covers
  infer_instance

/-- The node at path `a` represents the routes `R`. -/
def At (R : List ℕ) : Bytes → ℕ → LpmNode → Prop
  | a, o, .leaf head =>
    head.map LpmEntry.ptr = sortDesc K.len (R.filter fun p => Stored K a o p) ∧
      ∀ p ∈ R, ¬ Passes K a o p
  | a, o, .branch head _ next =>
    head.map LpmEntry.ptr = sortDesc K.len (R.filter fun p => Stored K a o p) ∧
      (∃ p ∈ R, Passes K a o p) ∧
      ∀ b, Agree a b o → At R b (o+8) (next (field b o 8))

/-- The `2^w` nodes below path `a` represent the routes `R`. -/
def Below (R : List ℕ) (a : Bytes) (o w : ℕ) (nodes : ℕ → LpmNode) : Prop :=
  ∀ b, Agree a b o → At K R b (o+w) (nodes (field b o w))

variable {K}
variable {R R' : List ℕ} {a b dst : Bytes} {o p : ℕ} {node : LpmNode}

theorem Stored.touches (h : Stored K a o p) : Touches K a o p := by
  obtain ⟨⟨hle,hlev⟩,ha⟩ := h
  exact ⟨hlev,ha.mono (by omega)⟩

theorem Passes.touches (h : Passes K a o p) : Touches K a o p := by
  obtain ⟨hlt,ha⟩ := h
  exact ⟨by omega,ha.mono (by omega)⟩

theorem Touches.parent (hab : Agree a b o) (h : Touches K b (o+8) p) : Touches K a o p := by
  obtain ⟨hlev,hb⟩ := h
  refine ⟨by omega,?_⟩
  exact (Agree.congr_right hab (by omega)).mpr (hb.mono (by omega))

theorem At.head (h : At K R a o node) :
    node.head.map LpmEntry.ptr = sortDesc K.len (R.filter fun p => Stored K a o p) := by
  cases node with
  | leaf head => exact h.1
  | branch head table next => exact h.1

theorem at_branch {head : List LpmEntry} {table : ℕ} {next : ℕ → LpmNode} :
    At K R a o (.branch head table next) ↔
      head.map LpmEntry.ptr = sortDesc K.len (R.filter fun p => Stored K a o p) ∧
      (∃ p ∈ R, Passes K a o p) ∧ Below K R a o 8 next := Iff.rfl

theorem filter_eq_of_imp {f g : ℕ → Prop} [DecidablePred f] [DecidablePred g]
    (hfg : ∀ p, f p → g p) (h : (R.filter fun p => g p) = R'.filter fun p => g p) :
    (R.filter fun p => f p) = R'.filter fun p => f p := by
  have hsub : ∀ S : List ℕ, (S.filter fun p => f p) = (S.filter fun p => g p).filter fun p => f p := by
    intro S
    rw [List.filter_filter]
    apply List.filter_congr
    intro p _
    by_cases hf : f p
    · simp [hf,hfg p hf]
    · simp [hf]
  rw [hsub R,h,← hsub R']

theorem mem_of_filter_eq {f : ℕ → Prop} [DecidablePred f]
    (h : (R.filter fun p => f p) = R'.filter fun p => f p) {p : ℕ} (hp : p ∈ R) (hf : f p) :
    p ∈ R' := by
  have hm : p ∈ R.filter fun p => f p := by simp [hp,hf]
  rw [h] at hm
  exact (List.mem_filter.mp hm).1

/-- The invariant only sees the routes that matter. -/
theorem At.congr_routes (h : At K R a o node)
    (hR : (R.filter fun p => Touches K a o p) = R'.filter fun p => Touches K a o p) :
    At K R' a o node := by
  induction node generalizing a o with
  | leaf head =>
    obtain ⟨hh,hn⟩ := h
    have hst := filter_eq_of_imp (f:=Stored K a o) (fun p => Stored.touches) hR
    have hps := filter_eq_of_imp (f:=Passes K a o) (fun p => Passes.touches) hR
    refine ⟨by rw [hh,hst],?_⟩
    intro p hp hpass
    exact hn p (mem_of_filter_eq hps.symm hp hpass) hpass
  | branch head table next ih =>
    obtain ⟨hh,⟨p,hp,hpass⟩,hc⟩ := h
    have hst := filter_eq_of_imp (f:=Stored K a o) (fun p => Stored.touches) hR
    have hps := filter_eq_of_imp (f:=Passes K a o) (fun p => Passes.touches) hR
    refine ⟨by rw [hh,hst],⟨p,mem_of_filter_eq hps hp hpass,hpass⟩,?_⟩
    intro b hb
    apply ih (field b o 8) (hc b hb)
    exact filter_eq_of_imp (f:=Touches K b (o+8)) (fun p => Touches.parent hb) hR

theorem At.congr_path (h : At K R a o node) (hab : Agree a b o) : At K R b o node := by
  have hst : (R.filter fun p => Stored K a o p) = R.filter fun p => Stored K b o p := by
    apply List.filter_congr
    intro p _
    apply decide_eq_decide.mpr
    unfold Stored
    constructor
    · rintro ⟨hl,ha⟩
      exact ⟨hl,(Agree.congr_right hab hl.1).mp ha⟩
    · rintro ⟨hl,hb⟩
      exact ⟨hl,(Agree.congr_right hab hl.1).mpr hb⟩
  have hps : ∀ p, Passes K a o p ↔ Passes K b o p := by
    intro p
    unfold Passes
    rw [Agree.congr_right hab le_rfl]
  cases node with
  | leaf head =>
    obtain ⟨hh,hn⟩ := h
    refine ⟨by rw [hh,hst],?_⟩
    intro p hp hpass
    exact hn p hp ((hps p).mpr hpass)
  | branch head table next =>
    obtain ⟨hh,⟨p,hp,hpass⟩,hc⟩ := h
    refine ⟨by rw [hh,hst],⟨p,hp,(hps p).mp hpass⟩,?_⟩
    intro c hc'
    exact hc c (hab.trans hc')

theorem Below.congr_path {w : ℕ} {nodes : ℕ → LpmNode} (h : Below K R a o w nodes)
    (hab : Agree a b o) : Below K R b o w nodes := fun c hc => h c (hab.trans hc)

theorem sortDesc_congr {len len' : ℕ → ℕ} {l : List ℕ} (h : ∀ p ∈ l, len p = len' p) :
    sortDesc len l = sortDesc len' l := by
  have hins : ∀ x l, len x = len' x → (∀ p ∈ l, len p = len' p) →
      insertDesc len x l = insertDesc len' x l := by
    intro x l hx
    induction l with
    | nil => intro _; rfl
    | cons y l ih =>
      intro hl
      simp only [insertDesc,hx,hl y (by simp),ih (fun p hp => hl p (by simp [hp]))]
  induction l with
  | nil => rfl
  | cons x l ih =>
    rw [sortDesc_cons,sortDesc_cons,ih (fun p hp => h p (by simp [hp]))]
    apply hins x _ (h x (by simp))
    intro p hp
    exact h p (by simp [(mem_sortDesc len').mp hp])

theorem sorted_stored_congr {K' : Keys} (hK : ∀ p ∈ R, K.len p = K'.len p ∧ K.pfx p = K'.pfx p) :
    sortDesc K.len (R.filter fun p => Stored K a o p) =
      sortDesc K'.len (R.filter fun p => Stored K' a o p) := by
  have hf : (R.filter fun p => Stored K a o p) = R.filter fun p => Stored K' a o p := by
    apply List.filter_congr
    intro p hp
    simp only [Stored,(hK p hp).1,(hK p hp).2]
  rw [hf]
  apply sortDesc_congr
  intro p hp
  exact (hK p (List.mem_filter.mp hp).1).1

theorem At.congr_keys {K' : Keys} (h : At K R a o node)
    (hK : ∀ p ∈ R, K.len p = K'.len p ∧ K.pfx p = K'.pfx p) : At K' R a o node := by
  have hps : ∀ a o, ∀ p ∈ R, (Passes K a o p ↔ Passes K' a o p) := by
    intro a o p hp
    simp only [Passes,(hK p hp).1,(hK p hp).2]
  induction node generalizing a o with
  | leaf head =>
    obtain ⟨hh,hn⟩ := h
    refine ⟨hh.trans (sorted_stored_congr hK),?_⟩
    intro p hp hpass
    exact hn p hp ((hps a o p hp).mpr hpass)
  | branch head table next ih =>
    obtain ⟨hh,⟨p,hp,hpass⟩,hc⟩ := h
    refine ⟨hh.trans (sorted_stored_congr hK),⟨p,hp,(hps a o p hp).mp hpass⟩,?_⟩
    intro b hb
    exact ih (field b o 8) (hc b hb)

theorem lpmIndex_eq {w : ℕ} (h : o%32+w ≤ 32) : lpmIndex a o w = field a o w := word_field a h

theorem lpmIndex_octet (ho : o%8 = 0) : lpmIndex a o 8 = field a o 8 := lpmIndex_eq (by omega)

theorem lpmIndex_root : lpmIndex a 0 16 = field a 0 16 := lpmIndex_eq (by omega)

/-- Routes longer than `o` bits that cover the destination. -/
def Longer (K : Keys) (dst : Bytes) (o p : ℕ) : Prop := o < K.len p ∧ Covers K dst p

instance (dst : Bytes) (o p : ℕ) : Decidable (Longer K dst o p) := by
  unfold Longer
  infer_instance

/-- The routes found below a node, in the order in which the levels are consulted. -/
theorem sortDesc_longer (K : Keys) (dst : Bytes) (ho : 16 ≤ o) (R : List ℕ) :
    sortDesc K.len (R.filter fun p => Longer K dst o p) =
      sortDesc K.len (R.filter fun p => Longer K dst (o+8) p) ++
      sortDesc K.len (R.filter fun p => Stored K dst (o+8) p) := by
  rw [sortDesc_split K.len (o+8),List.filter_filter,List.filter_filter]
  congr 2
  · apply List.filter_congr
    intro p _
    rw [← Bool.decide_and]
    apply decide_eq_decide.mpr
    unfold Longer
    constructor
    · rintro ⟨h,_,hc⟩
      exact ⟨h,hc⟩
    · rintro ⟨h,hc⟩
      exact ⟨h,by omega,hc⟩
  · apply List.filter_congr
    intro p _
    rw [← Bool.decide_and]
    apply decide_eq_decide.mpr
    unfold Longer Stored InLevel Covers
    constructor
    · rintro ⟨h,hlt,hc⟩
      exact ⟨⟨h,by omega⟩,hc⟩
    · rintro ⟨⟨h,hlev⟩,hc⟩
      exact ⟨h,by omega,hc⟩

theorem head_of_deeper {found : List LpmEntry} {deep rest : List ℕ}
    (hf : found.head?.map LpmEntry.ptr = deep.head?) (hne : found ≠ []) :
    found.head?.map LpmEntry.ptr = (deep ++ rest).head? := by
  cases deep with
  | nil =>
    cases found with
    | nil => exact absurd rfl hne
    | cons e found => simp at hf
  | cons x deep => simpa using hf

/-- What `_lpm_lookup` finds below a node: the head of the routes longer than its path. -/
theorem lookupRec_spec (h : At K R dst o node) (ho : 16 ≤ o) (h8 : o%8 = 0) :
    match lpmLookupRec dst node o with
    | none => (R.filter fun p => Longer K dst o p) = []
    | some head => head.head?.map LpmEntry.ptr =
        (sortDesc K.len (R.filter fun p => Longer K dst o p)).head? ∧ head ≠ [] := by
  induction node generalizing o with
  | leaf head =>
    rw [lpmLookupRec]
    apply List.filter_eq_nil_iff.mpr
    intro p hp hl
    obtain ⟨hlt,hc⟩ := of_decide_eq_true hl
    exact h.2 p hp ⟨hlt,hc.mono (by omega)⟩
  | branch head table next ih =>
    have hchild := h.2.2 dst (Agree.refl dst o)
    have hrec := ih (field dst o 8) hchild (by omega) (by omega)
    have hhead := hchild.head
    have hsplit := sortDesc_longer K dst ho R
    rw [lpmLookupRec,lpmIndex_octet h8]
    cases hl : lpmLookupRec dst (next (field dst o 8)) (o+8) with
    | some found =>
      rw [hl] at hrec
      obtain ⟨hf,hne⟩ := hrec
      rw [hsplit]
      exact ⟨head_of_deeper hf hne,hne⟩
    | none =>
      rw [hl] at hrec
      rw [hrec,sortDesc_nil,List.nil_append,← hhead] at hsplit
      dsimp only
      cases hn : (next (field dst o 8)).head with
      | nil =>
        rw [hn,List.map_nil] at hsplit
        exact (sortDesc_eq_nil K.len).mp hsplit
      | cons e es =>
        rw [hn] at hsplit
        refine ⟨?_,by simp⟩
        rw [hsplit]
        rfl

/-- `lpm_lookup` returns the newest of the longest routes that cover the destination. -/
theorem lookup_spec {table : ℕ → LpmNode} (h : Below K R a 0 16 table) :
    (lpmLookup table dst).map LpmEntry.ptr =
      (sortDesc K.len (R.filter fun p => Covers K dst p)).head? := by
  have hnode : At K R dst 16 (table (field dst 0 16)) := h dst (fun _ hi => absurd hi (by omega))
  have hrec := lookupRec_spec hnode le_rfl rfl
  have hsplit : sortDesc K.len (R.filter fun p => Covers K dst p) =
      sortDesc K.len (R.filter fun p => Longer K dst 16 p) ++
      sortDesc K.len (R.filter fun p => Stored K dst 16 p) := by
    rw [sortDesc_split K.len 16,List.filter_filter,List.filter_filter]
    congr 2
    · apply List.filter_congr
      intro p _
      rw [← Bool.decide_and]
      rfl
    · apply List.filter_congr
      intro p _
      rw [← Bool.decide_and]
      apply decide_eq_decide.mpr
      simp [Stored,InLevel,Covers]
  cases hl : lpmLookupRec dst (table (field dst 0 16)) 16 with
  | some head =>
    rw [hl] at hrec
    simp only [lpmLookup,lpmIndex_root,hl]
    rw [hsplit]
    exact head_of_deeper hrec.1 hrec.2
  | none =>
    rw [hl] at hrec
    simp only [lpmLookup,lpmIndex_root,hl]
    rw [hsplit,hrec,sortDesc_nil,List.nil_append,← hnode.head,List.head?_map]

end FibTable
end Ixmap
