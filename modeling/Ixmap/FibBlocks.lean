import Ixmap.Fib

/-! Accounting for the blocks and references of a table: every block is owned once, by an entry
list, as a table or outside the trie, and reference counts count list entries. -/
namespace Ixmap
namespace FibTable
open BlockHeap Lpm

def entriesOf : LpmNode → Multiset LpmEntry
  | .leaf head => head
  | .branch head _ next => head + ∑ i ∈ Finset.range tableSize8, entriesOf (next i)

def tablesOf : LpmNode → Multiset ℕ
  | .leaf _ => 0
  | .branch _ table next => {table} + ∑ i ∈ Finset.range tableSize8, tablesOf (next i)

def entriesIn (size : ℕ) (nodes : ℕ → LpmNode) : Multiset LpmEntry :=
  ∑ y ∈ Finset.range size, entriesOf (nodes y)

def tablesIn (size : ℕ) (nodes : ℕ → LpmNode) : Multiset ℕ :=
  ∑ y ∈ Finset.range size, tablesOf (nodes y)

variable {size y : ℕ} {nodes : ℕ → LpmNode} {node : LpmNode} {e : LpmEntry}

theorem sum_update {M : Type} [AddCommMonoid M] (f : LpmNode → M) (hy : y < size)
    (nodes : ℕ → LpmNode) (node : LpmNode) :
    ∑ x ∈ Finset.range size, f (Function.update nodes y node x) + f (nodes y) =
      ∑ x ∈ Finset.range size, f (nodes x) + f node := by
  have hmem : y ∈ Finset.range size := Finset.mem_range.mpr hy
  have hrest : ∑ x ∈ (Finset.range size).erase y, f (Function.update nodes y node x) =
      ∑ x ∈ (Finset.range size).erase y, f (nodes x) := by
    apply Finset.sum_congr rfl
    intro x hx
    rw [Function.update_of_ne (Finset.ne_of_mem_erase hx)]
  rw [← Finset.add_sum_erase _ _ hmem,← Finset.add_sum_erase _ (fun x => f (nodes x)) hmem,hrest,
    Function.update_self]
  abel

theorem entriesOf_setHead (node : LpmNode) (head : List LpmEntry) :
    entriesOf (node.setHead head) + node.head = entriesOf node + (head : Multiset LpmEntry) := by
  cases node with
  | leaf old => simp only [LpmNode.setHead,LpmNode.head,entriesOf,add_comm]
  | branch old table next =>
    simp only [LpmNode.setHead,LpmNode.head,entriesOf]
    abel

@[simp] theorem tablesOf_setHead (node : LpmNode) (head : List LpmEntry) :
    tablesOf (node.setHead head) = tablesOf node := by
  cases node <;> rfl

theorem entriesIn_setHead (hy : y < size) (nodes : ℕ → LpmNode) (head : List LpmEntry) :
    entriesIn size (Function.update nodes y ((nodes y).setHead head)) + (nodes y).head =
      entriesIn size nodes + (head : Multiset LpmEntry) := by
  have h1 := sum_update entriesOf hy nodes ((nodes y).setHead head)
  have h2 := entriesOf_setHead (nodes y) head
  have h3 : entriesIn size (Function.update nodes y ((nodes y).setHead head)) + (nodes y).head +
      entriesOf (nodes y) = entriesIn size nodes + head + entriesOf (nodes y) := by
    calc _ = entriesIn size (Function.update nodes y ((nodes y).setHead head)) +
          entriesOf (nodes y) + (nodes y).head := by abel
      _ = entriesIn size nodes + (entriesOf ((nodes y).setHead head) + (nodes y).head) := by
          rw [← add_assoc]
          exact congrArg (· + _) h1
      _ = _ := by rw [h2]; abel
  exact add_right_cancel h3

theorem mem_entriesIn {x : LpmEntry} :
    x ∈ entriesIn size nodes ↔ ∃ y, y < size ∧ x ∈ entriesOf (nodes y) := by
  simp [entriesIn,Multiset.mem_sum]

theorem head_le_entriesOf (node : LpmNode) {x : LpmEntry} (hx : x ∈ node.head) : x ∈ entriesOf node := by
  cases node with
  | leaf head => exact hx
  | branch head table next => exact Multiset.mem_add.mpr (Or.inl hx)

theorem entriesIn_insert (hy : y < size) {head : List LpmEntry}
    (hp : head.Perm (e::(nodes y).head)) :
    entriesIn size (Function.update nodes y ((nodes y).setHead head)) = e ::ₘ entriesIn size nodes := by
  have h := entriesIn_setHead hy nodes head
  rw [Multiset.coe_eq_coe.mpr hp,← Multiset.cons_coe,Multiset.add_cons,← Multiset.cons_add] at h
  exact add_right_cancel h

theorem entriesIn_delete (hy : y < size) {head : List LpmEntry}
    (hp : (nodes y).head.Perm (e::head)) :
    entriesIn size nodes = e ::ₘ entriesIn size (Function.update nodes y ((nodes y).setHead head)) := by
  have h := entriesIn_setHead hy nodes head
  rw [Multiset.coe_eq_coe.mpr hp,← Multiset.cons_coe,Multiset.add_cons,← Multiset.cons_add] at h
  exact (add_right_cancel h).symm

theorem tablesIn_setHead (hy : y < size) (nodes : ℕ → LpmNode) (head : List LpmEntry) :
    tablesIn size (Function.update nodes y ((nodes y).setHead head)) = tablesIn size nodes := by
  have h := sum_update tablesOf hy nodes ((nodes y).setHead head)
  rw [tablesOf_setHead] at h
  exact add_right_cancel h

/-- The blocks that a set of entries and tables occupies. -/
def blocks (E : Multiset LpmEntry) (T : Multiset ℕ) (b : ℕ) : ℕ := (E.map LpmEntry.addr).count b + T.count b

def refs (E : Multiset LpmEntry) (p : ℕ) : ℕ := (E.map LpmEntry.ptr).count p

@[simp] theorem blocks_cons (e : LpmEntry) (E : Multiset LpmEntry) (T : Multiset ℕ) :
    blocks (e ::ₘ E) T = blocks E T + Pi.single e.addr 1 := by
  funext b
  simp only [blocks,Multiset.map_cons,Multiset.count_cons,Pi.add_apply,Pi.single_apply]
  omega

@[simp] theorem blocks_cons_table (E : Multiset LpmEntry) (t : ℕ) (T : Multiset ℕ) :
    blocks E (t ::ₘ T) = blocks E T + Pi.single t 1 := by
  funext b
  simp only [blocks,Multiset.count_cons,Pi.add_apply,Pi.single_apply]
  omega

@[simp] theorem refs_cons (e : LpmEntry) (E : Multiset LpmEntry) :
    refs (e ::ₘ E) = refs E + Pi.single e.ptr 1 := by
  funext b
  simp only [refs,Multiset.map_cons,Multiset.count_cons,Pi.add_apply,Pi.single_apply]

theorem refs_of_ne {E : Multiset LpmEntry} {p : ℕ} (h : ∀ x ∈ E, x.ptr ≠ p) : refs E p = 0 := by
  apply Multiset.count_eq_zero.mpr
  intro hmem
  obtain ⟨x,hx,hxp⟩ := Multiset.mem_map.mp hmem
  exact h x hx hxp

theorem refs_add (E E' : Multiset LpmEntry) (p : ℕ) : refs (E+E') p = refs E p + refs E' p := by
  simp only [refs,Multiset.map_add,Multiset.count_add]

/-- The books of a table with entries `E` and tables `T`: `rest` owns the remaining blocks, `c` is
the part of the reference counts that is not accounted for, `S` the blocks whose releases are counted. -/
structure Books (S : Set ℕ) (rest c : ℕ → ℕ) (E : Multiset LpmEntry) (T : Multiset ℕ)
    (h : Heap FibEntry) : Prop where
  owns : h.Owns (rest + blocks E T)
  count : ∀ p, (h.val p).refcount = c p + refs E p
  ledger : h.Ledger S

namespace Books
variable {S : Set ℕ} {rest c : ℕ → ℕ} {E : Multiset LpmEntry} {T : Multiset ℕ} {h : Heap FibEntry}
variable {t p : ℕ}

theorem fresh (hb : Books S rest c E T h) : h.live h.calls = false := hb.owns.fresh _ le_rfl

theorem alloc_none (hb : Books S rest c E T h) (hok : h.ok h.calls = false) :
    Books S rest c E T h.alloc.2 :=
  ⟨hb.owns.alloc_none hok,fun p => by rw [Heap.alloc_val]; exact hb.count p,hb.ledger.alloc hb.fresh⟩

theorem alloc_table (hb : Books S rest c E T h) (hok : h.ok h.calls = true) :
    Books S rest c E (h.calls ::ₘ T) h.alloc.2 := by
  refine ⟨?_,fun p => by rw [Heap.alloc_val]; exact hb.count p,hb.ledger.alloc hb.fresh⟩
  rw [blocks_cons_table,← add_assoc]
  exact hb.owns.alloc_some hok

theorem free_table (hb : Books S rest c E (t ::ₘ T) h) : Books S rest c E T (h.free t) := by
  have ho := hb.owns
  rw [blocks_cons_table,← add_assoc] at ho
  refine ⟨ho.free,hb.count,hb.ledger.free (ho.live ?_)⟩
  simp

theorem pull (ptr : ℕ) (hb : Books S rest c E T h) (hok : h.ok h.calls = true)
    (hlt : (h.val ptr).refcount+1 < 2^32) :
    Books S rest c (⟨h.calls,ptr⟩ ::ₘ E) T (fibEntryPull h.alloc.2 ptr) := by
  refine ⟨?_,?_,?_⟩
  · rw [blocks_cons,← add_assoc]
    exact (hb.owns.alloc_some hok).write _
  · intro p
    have hp := hb.count p
    rw [refs_cons]
    by_cases hpp : p = ptr
    · subst hpp
      simp only [fibEntryPull,Heap.write,Function.update_self,Heap.alloc_val,Pi.add_apply,
        Pi.single_eq_same,Nat.mod_eq_of_lt hlt]
      omega
    · simp only [fibEntryPull,Heap.write,Function.update_of_ne hpp,Heap.alloc_val,Pi.add_apply,
        Pi.single_eq_of_ne hpp]
      omega
  · exact (hb.ledger.alloc hb.fresh).write _

theorem alloc_free (hb : Books S rest c E T h) (hok : h.ok h.calls = true) :
    Books S rest c E T (h.alloc.2.free h.calls) := (hb.alloc_table hok).free_table

theorem put_count (hb : Books S rest c (e ::ₘ E) T h) (p : ℕ) :
    ((fibEntryPut h e.ptr).val p).refcount = c p + refs E p := by
  have hval : (fibEntryPut h e.ptr).val =
      Function.update h.val e.ptr { h.val e.ptr with refcount := decrement (h.val e.ptr).refcount } := by
    unfold fibEntryPut
    dsimp only
    split <;> rfl
  have hp := hb.count p
  rw [hval,refs_cons] at *
  by_cases hpe : p = e.ptr
  · subst hpe
    simp only [Pi.add_apply,Pi.single_eq_same] at hp
    simp only [Function.update_self,decrement]
    rw [if_neg (by omega)]
    omega
  · simp only [Pi.add_apply,Pi.single_eq_of_ne hpe,add_zero] at hp
    rw [Function.update_of_ne hpe,hp]

theorem put_kept (hb : Books S rest c (e ::ₘ E) T h) (hne : c e.ptr+refs E e.ptr ≠ 0) :
    Books S rest c E T ((fibEntryPut h e.ptr).free e.addr) := by
  have hcount := hb.put_count
  have hkeep : fibEntryPut h e.ptr =
      h.write e.ptr { h.val e.ptr with refcount := decrement (h.val e.ptr).refcount } := by
    have hr := hcount e.ptr
    unfold fibEntryPut at hr ⊢
    dsimp only at hr ⊢
    split
    · rename_i hz
      rw [if_pos hz] at hr
      simp only [Heap.free_val,Heap.write,Function.update_self,hz] at hr
      omega
    · rfl
  have ho := hb.owns
  rw [blocks_cons,← add_assoc] at ho
  refine ⟨?_,hcount,?_⟩
  · rw [hkeep]
    exact (ho.write _).free
  · rw [hkeep]
    apply (hb.ledger.write _).free
    exact ho.live (by simp)

/-- Deleting the last entry of a route gives the route back as well. -/
theorem put_last (hb : Books S (rest + Pi.single e.ptr 1) c (e ::ₘ E) T h)
    (hz : c e.ptr+refs E e.ptr = 0) : Books S rest c E T ((fibEntryPut h e.ptr).free e.addr) := by
  have hcount := hb.put_count
  have hdrop : fibEntryPut h e.ptr =
      (h.write e.ptr { h.val e.ptr with refcount := decrement (h.val e.ptr).refcount }).free e.ptr := by
    have hr := hcount e.ptr
    unfold fibEntryPut at hr ⊢
    dsimp only at hr ⊢
    split
    · rfl
    · rename_i hnz
      rw [if_neg hnz] at hr
      simp only [Heap.write,Function.update_self] at hr
      omega
  have ho := hb.owns
  rw [blocks_cons] at ho
  have ho' : h.Owns (rest + blocks E T + Pi.single e.addr 1 + Pi.single e.ptr 1) := by
    apply ho.congr
    intro b
    simp only [Pi.add_apply]
    omega
  have hw : Heap.Owns (rest + blocks E T + Pi.single e.addr 1) (fibEntryPut h e.ptr) := by
    rw [hdrop]
    exact (ho'.write _).free
  refine ⟨hw.free,hcount,?_⟩
  have hl : (fibEntryPut h e.ptr).Ledger S := by
    rw [hdrop]
    apply (hb.ledger.write _).free
    exact ho'.live (by simp)
  exact hl.free (hw.live (by simp))

theorem alloc_rest (hb : Books S rest c E T h) (hok : h.ok h.calls = true) :
    Books S (rest + Pi.single h.calls 1) c E T h.alloc.2 := by
  refine ⟨?_,fun p => by rw [Heap.alloc_val]; exact hb.count p,hb.ledger.alloc hb.fresh⟩
  rw [add_right_comm]
  exact hb.owns.alloc_some hok

theorem free_rest (hb : Books S (rest + Pi.single p 1) c E T h) : Books S rest c E T (h.free p) := by
  have ho := hb.owns
  rw [add_right_comm] at ho
  refine ⟨ho.free,hb.count,hb.ledger.free (ho.live ?_)⟩
  simp

/-- Giving back a block that is no longer live goes unnoticed except in the ledger. -/
theorem free_dead (hb : Books S rest c E T h) (hdead : h.live p = false) (hS : p ∉ S) :
    Books S rest c E T (h.free p) := by
  have hlive : (h.free p).live = h.live := by
    simp only [Heap.free]
    rw [← hdead,Function.update_eq_self]
  refine ⟨⟨?_,?_⟩,hb.count,?_⟩
  · intro b
    rw [hlive]
    exact hb.owns.count b
  · intro b hlt
    rw [hlive]
    exact hb.owns.fresh b hlt
  · intro b hbS
    have hne : b ≠ p := fun he => hS (he ▸ hbS)
    have hfrees : (h.free p).frees b = h.frees b := by simp [Heap.free,hne]
    rw [hlive,hfrees]
    exact hb.ledger b hbS

theorem write_fresh (hb : Books S rest c E T h) (v : FibEntry) (hz : refs E p = 0) :
    Books S rest (Function.update c p v.refcount) E T (h.write p v) := by
  refine ⟨hb.owns.write _,?_,hb.ledger.write _⟩
  intro q
  have hq := hb.count q
  by_cases hqp : q = p
  · subst hqp
    simp [Heap.write,hz]
  · simpa [Heap.write,hqp] using hq

theorem frame {E₀ : Multiset LpmEntry} {T₀ : Multiset ℕ} :
    Books S rest c (E₀+E) (T₀+T) h ↔ Books S (rest + blocks E₀ T₀) (c + refs E₀) E T h := by
  have hblocks : rest + blocks (E₀+E) (T₀+T) = rest + blocks E₀ T₀ + blocks E T := by
    funext b
    simp only [blocks,Pi.add_apply,Multiset.map_add,Multiset.count_add]
    omega
  have hrefs : ∀ p, c p + refs (E₀+E) p = (c + refs E₀) p + refs E p := by
    intro p
    rw [refs_add,Pi.add_apply,add_assoc]
  constructor
  · rintro ⟨ho,hc,hl⟩
    exact ⟨hblocks ▸ ho,fun p => (hc p).trans (hrefs p),hl⟩
  · rintro ⟨ho,hc,hl⟩
    exact ⟨hblocks ▸ ho,fun p => (hc p).trans (hrefs p).symm,hl⟩

end Books

/-- The books of a node and of an array of nodes. -/
def NodeBooks (S : Set ℕ) (rest c : ℕ → ℕ) (node : LpmNode) (h : Heap FibEntry) : Prop :=
  Books S rest c (entriesOf node) (tablesOf node) h

def ArrayBooks (S : Set ℕ) (rest c : ℕ → ℕ) (size : ℕ) (nodes : ℕ → LpmNode) (h : Heap FibEntry) : Prop :=
  Books S rest c (entriesIn size nodes) (tablesIn size nodes) h

variable {S : Set ℕ} {rest c : ℕ → ℕ} {h h' : Heap FibEntry} {n ptr index i m o : ℕ} {id : ℤ}
variable {head : List LpmEntry} {table : ℕ} {next : ℕ → LpmNode}

theorem nodeBooks_branch : NodeBooks S rest c (.branch head table next) h ↔
    ArrayBooks S (rest + blocks head {table}) (c + refs head) tableSize8 next h := Books.frame

theorem sum_child_update {M : Type} [AddCommMonoid M] (f : LpmNode → M) (hy : y < size)
    (nodes : ℕ → LpmNode) (node : LpmNode) :
    ∑ x ∈ Finset.range size, f (Function.update nodes y node x) =
      ∑ x ∈ (Finset.range size).erase y, f (nodes x) + f node := by
  rw [← Finset.add_sum_erase _ _ (Finset.mem_range.mpr hy),Function.update_self,add_comm]
  congr 1
  apply Finset.sum_congr rfl
  intro x hx
  rw [Function.update_of_ne (Finset.ne_of_mem_erase hx)]

def siblingEntries (size : ℕ) (nodes : ℕ → LpmNode) (y : ℕ) : Multiset LpmEntry :=
  ∑ x ∈ (Finset.range size).erase y, entriesOf (nodes x)

def siblingTables (size : ℕ) (nodes : ℕ → LpmNode) (y : ℕ) : Multiset ℕ :=
  ∑ x ∈ (Finset.range size).erase y, tablesOf (nodes x)

theorem entriesIn_child (hy : y < size) (nodes : ℕ → LpmNode) (node : LpmNode) :
    entriesIn size (Function.update nodes y node) = siblingEntries size nodes y + entriesOf node :=
  sum_child_update entriesOf hy nodes node

theorem arrayBooks_child (hy : y < size) :
    ArrayBooks S rest c size (Function.update nodes y node) h ↔
      NodeBooks S (rest + blocks (siblingEntries size nodes y) (siblingTables size nodes y))
        (c + refs (siblingEntries size nodes y)) node h := by
  unfold ArrayBooks
  rw [entriesIn_child hy,show tablesIn size (Function.update nodes y node) = _ from
    sum_child_update tablesOf hy nodes node]
  exact Books.frame

theorem entryInsert_perm {cb : Callbacks FibEntry} {head' : List LpmEntry}
    (hi : lpmEntryInsert cb id n h head e = some (head',h')) :
    head'.Perm (e::head) ∧ h' = cb.entryPull h e.ptr := by
  unfold lpmEntryInsert at hi
  split at hi
  · cases hi
  · rename_i prior _
    cases hi
    refine ⟨?_,rfl⟩
    have hperm : (head.take prior ++ e::head.drop prior).Perm (e::(head.take prior ++ head.drop prior)) :=
      List.perm_middle
    rwa [List.take_append_drop] at hperm

/-- The insertion loop keeps the books, wherever it stops. -/
theorem addLoop_books (id : ℤ) (n ptr : ℕ) (hidx : ∀ j, j < i+m → index ||| j < size)
    (hlt : (h.val ptr).refcount+m < 2^32) (hb : ArrayBooks S rest c size nodes h) :
    ArrayBooks S rest c size (lpmAddLoop fibCallbacks id n ptr index m i nodes h).nodes
      (lpmAddLoop fibCallbacks id n ptr index m i nodes h).heap := by
  induction m generalizing i nodes h with
  | zero => exact hb
  | succ m ih =>
    rw [lpmAddLoop]
    cases hok : h.ok h.calls with
    | false =>
      have ha : h.alloc = (none,h.alloc.2) := Prod.ext (Heap.alloc_none hok) rfl
      rw [ha]
      exact hb.alloc_none hok
    | true =>
      have ha : h.alloc = (some h.calls,h.alloc.2) := Prod.ext (Heap.alloc_some hok) rfl
      rw [ha]
      dsimp only
      cases hins : lpmEntryInsert fibCallbacks id n h.alloc.2 (nodes (index ||| i)).head ⟨h.calls,ptr⟩ with
      | none => exact hb.alloc_free hok
      | some r =>
        obtain ⟨head,h₁⟩ := r
        obtain ⟨hperm,rfl⟩ := entryInsert_perm hins
        have hy : index ||| i < size := hidx i (by omega)
        have hpull := hb.pull ptr hok (by omega)
        rw [← entriesIn_insert hy hperm,← tablesIn_setHead hy nodes head] at hpull
        apply ih (fun j hj => hidx j (by omega)) _ hpull
        have hle := Nat.mod_le ((h.val ptr).refcount+1) (2^32)
        simp only [fibEntryPull,Heap.write,Function.update_self,Heap.alloc_val]
        omega

theorem unused_blocks (hu : unused next = true) :
    entriesIn tableSize8 next = 0 ∧ tablesIn tableSize8 next = 0 := by
  have hempty : ∀ x ∈ Finset.range tableSize8, next x = .leaf [] := by
    intro x hx
    have := unused_iff.mp hu x (Finset.mem_range.mp hx)
    cases hn : next x with
    | leaf head =>
      rw [hn] at this
      rw [List.isEmpty_iff.mp this]
    | branch head table next =>
      rw [hn] at this
      exact Bool.noConfusion this
  refine ⟨Finset.sum_eq_zero ?_,Finset.sum_eq_zero ?_⟩
  · intro x hx
    rw [hempty x hx]
    rfl
  · intro x hx
    rw [hempty x hx]
    rfl

theorem branch_unused (head : List LpmEntry) (table : ℕ) (hu : unused next = true) :
    entriesOf (.branch head table next) = entriesOf (.leaf head) ∧
      tablesOf (.branch head table next) = table ::ₘ tablesOf (.leaf head) := by
  obtain ⟨hE,hT⟩ := unused_blocks hu
  constructor
  · change (head : Multiset LpmEntry) + entriesIn tableSize8 next = _
    rw [hE,add_zero]
    rfl
  · change {table} + tablesIn tableSize8 next = _
    rw [hT,add_zero]
    rfl

@[simp] theorem entriesOf_release (head : List LpmEntry) (table : ℕ) (next : ℕ → LpmNode)
    (h : Heap FibEntry) :
    entriesOf (releaseEmpty head table next h).1 = entriesOf (.branch head table next) := by
  unfold releaseEmpty
  split
  · rename_i hu
    exact (branch_unused head table hu).1.symm
  · rfl

theorem releaseEmpty_books (hb : NodeBooks S rest c (.branch head table next) h) :
    NodeBooks S rest c (releaseEmpty head table next h).1 (releaseEmpty head table next h).2 := by
  unfold releaseEmpty
  by_cases hu : unused next = true
  · rw [if_pos hu]
    unfold NodeBooks at hb
    rw [(branch_unused head table hu).1,(branch_unused head table hu).2] at hb
    exact hb.free_table
  · rw [if_neg hu]
    exact hb

theorem nodeBooks_fresh (hb : NodeBooks S rest c (.leaf head) h) (hok : h.ok h.calls = true) :
    NodeBooks S rest c (.branch head h.calls fun _ => lpmInitNode) h.alloc.2 := by
  have hu : unused (fun _ => lpmInitNode) = true := unused_iff.mpr fun _ _ => rfl
  unfold NodeBooks
  rw [(branch_unused head h.calls hu).1,(branch_unused head h.calls hu).2]
  exact hb.alloc_table hok

theorem lpmIndex_lt (a : PrefixBits.Bytes) (o w : ℕ) : lpmIndex a o w < 2^w := by
  have hle : lpmIndex a o w ≤ 2^w-1 := Nat.and_le_right
  have := Nat.two_pow_pos w
  omega

theorem alignIndex_or_lt {x range j w : ℕ} (hx : x < 2^w) (hj : j < 2^w) :
    alignIndex x range ||| j < 2^w :=
  Nat.or_lt_two_pow (lt_of_le_of_lt Nat.and_le_left hx) hj

theorem pow_sub_le (w k : ℕ) : 2^(w-k) ≤ 2^w := Nat.pow_le_pow_right (by omega) (by omega)

section add
variable {pfx : PrefixBits.Bytes}

theorem addTable_books {deeper : LpmNode → Heap FibEntry → Bool × LpmNode × Heap FibEntry}
    (hdeep : ∀ rest c node, NodeBooks S rest c node h →
      NodeBooks S rest c (deeper node h).2.1 (deeper node h).2.2)
    (hlt : (h.val ptr).refcount+2^8 < 2^32)
    (hb : NodeBooks S rest c (.branch head table next) h) :
    NodeBooks S rest c (lpmAddTable fibCallbacks id n deeper pfx ptr o head table next h).2.1
      (lpmAddTable fibCallbacks id n deeper pfx ptr o head table next h).2.2 := by
  have harr := nodeBooks_branch.mp hb
  unfold lpmAddTable
  dsimp only
  split
  · have hy : lpmIndex pfx o 8 < tableSize8 := lpmIndex_lt pfx o 8
    have hchild : ∀ node h', NodeBooks S rest c
        (.branch head table (Function.update next (lpmIndex pfx o 8) node)) h' ↔
        NodeBooks S _ _ node h' :=
      fun node h' => nodeBooks_branch.trans (arrayBooks_child hy)
    have hself := hb
    rw [← Function.update_eq_self (lpmIndex pfx o 8) next] at hself
    have hnew := hdeep _ _ _ ((hchild _ _).mp hself)
    rcases hr : deeper (next (lpmIndex pfx o 8)) h with ⟨ret,node,h'⟩
    rw [hr] at hnew
    have hback := (hchild node h').mpr hnew
    cases ret with
    | true => exact hback
    | false => exact releaseEmpty_books hback
  · have hidx : ∀ j, j < 0+2^(8-(n-o)) →
        alignIndex (lpmIndex pfx o 8) (2^(8-(n-o))) ||| j < tableSize8 := by
      intro j hj
      have := pow_sub_le 8 (n-o)
      exact alignIndex_or_lt (lpmIndex_lt pfx o 8) (by omega)
    have hloop := addLoop_books id n ptr hidx (by have := pow_sub_le 8 (n-o); omega) harr
    split
    · exact nodeBooks_branch.mpr hloop
    · exact releaseEmpty_books (nodeBooks_branch.mpr hloop)

theorem addRec_books {depth : ℕ} (hlt : (h.val ptr).refcount+2^8 < 2^32)
    (hb : NodeBooks S rest c node h) :
    NodeBooks S rest c (lpmAddRec fibCallbacks id n pfx ptr depth node o h).2.1
      (lpmAddRec fibCallbacks id n pfx ptr depth node o h).2.2 := by
  induction depth generalizing rest c node o h with
  | zero => exact hb
  | succ depth ih =>
    cases node with
    | leaf head =>
      rw [lpmAddRec]
      cases hok : h.ok h.calls with
      | false =>
        have ha : h.alloc = (none,h.alloc.2) := Prod.ext (Heap.alloc_none hok) rfl
        rw [ha]
        exact hb.alloc_none hok
      | true =>
        have ha : h.alloc = (some h.calls,h.alloc.2) := Prod.ext (Heap.alloc_some hok) rfl
        rw [ha]
        have hlt' : (h.alloc.2.val ptr).refcount+2^8 < 2^32 := by rwa [Heap.alloc_val]
        exact addTable_books (fun rest c node hn => ih hlt' hn) hlt' (nodeBooks_fresh hb hok)
    | branch head table next =>
      rw [lpmAddRec]
      exact addTable_books (fun rest c node hn => ih hlt hn) hlt hb

theorem lpmAdd_books_long {root : ℕ → LpmNode} (hn : 16 < n)
    (hlt : (h.val ptr).refcount+2^8 < 2^32) (hb : ArrayBooks S rest c tableSize16 root h) :
    ArrayBooks S rest c tableSize16 (lpmAdd fibCallbacks id n root pfx ptr h).2.1
      (lpmAdd fibCallbacks id n root pfx ptr h).2.2 := by
  have hy : lpmIndex pfx 0 16 < tableSize16 := tableSize16_eq ▸ lpmIndex_lt pfx 0 16
  unfold lpmAdd
  simp only [if_pos hn]
  apply (arrayBooks_child hy).mpr
  apply addRec_books hlt
  apply (arrayBooks_child hy).mp
  rwa [Function.update_eq_self]

theorem rootLoop_books {root : ℕ → LpmNode} (id : ℤ) (n ptr : ℕ) (pfx : PrefixBits.Bytes)
    (hlt : (h.val ptr).refcount+2^16 < 2^32)
    (hb : ArrayBooks S rest c tableSize16 root h) :
    ArrayBooks S rest c tableSize16
      (lpmAddLoop fibCallbacks id n ptr (alignIndex (lpmIndex pfx 0 16) (2^(16-n))) (2^(16-n)) 0 root h).nodes
      (lpmAddLoop fibCallbacks id n ptr (alignIndex (lpmIndex pfx 0 16) (2^(16-n))) (2^(16-n)) 0 root h).heap := by
  have hle := pow_sub_le 16 n
  apply addLoop_books id n ptr _ (by omega) hb
  intro j hj
  rw [tableSize16_eq]
  exact alignIndex_or_lt (lpmIndex_lt pfx 0 16) (by omega)

end add

end FibTable
end Ixmap
