import Ixmap.BlockHeap
import Ixmap.PrefixBits

/-! The multibit trie of `lpm.c`. A node holds its entry list and, once a longer prefix passes
through it, a table of 256 further nodes; the root is a table of 65536 nodes. Entries and
tables are heap blocks and carry their block number. -/
namespace Ixmap
namespace Lpm
open BlockHeap PrefixBits

variable {α : Type}

@[irreducible] def tableSize16 : ℕ := 2^16
def tableSize8 : ℕ := 2^8

theorem tableSize16_eq : tableSize16 = 2^16 := by
  unfold tableSize16
  rfl

/-- `struct lpm_entry`: its own block and the block its `ptr` names. -/
structure LpmEntry where
  addr : ℕ
  ptr : ℕ
deriving DecidableEq, Repr

/-- `struct lpm_node`, without or with a `next_table`. -/
inductive LpmNode where
  | leaf (head : List LpmEntry)
  | branch (head : List LpmEntry) (table : ℕ) (next : ℕ → LpmNode)

/-- The callbacks a table is set up with. As in C, `entryIdentify` is false on a match. -/
structure Callbacks (α : Type) where
  entryIdentify : α → ℤ → ℕ → Bool
  entryCompare : α → ℕ → Bool
  entryPull : Heap α → ℕ → Heap α
  entryPut : Heap α → ℕ → Heap α

namespace LpmNode

def head : LpmNode → List LpmEntry
  | .leaf head => head
  | .branch head _ _ => head

def setHead : LpmNode → List LpmEntry → LpmNode
  | .leaf _, head => .leaf head
  | .branch _ table next, head => .branch head table next

def isEmpty : LpmNode → Bool
  | .leaf head => head.isEmpty
  | .branch _ _ _ => false

@[simp] theorem head_setHead (n : LpmNode) (l : List LpmEntry) : (n.setHead l).head = l := by
  cases n <;> rfl

@[simp] theorem setHead_head (n : LpmNode) : n.setHead n.head = n := by
  cases n <;> rfl

@[simp] theorem setHead_setHead (n : LpmNode) (l l' : List LpmEntry) :
    (n.setHead l).setHead l' = n.setHead l' := by
  cases n <;> rfl

end LpmNode

def lpmInitNode : LpmNode := .leaf []

/-- `lpm_init`: the nodes of the root table. -/
def lpmInit : ℕ → LpmNode := fun _ => lpmInitNode

def lpmIndex (pfx : Bytes) (offset range : ℕ) : ℕ :=
  let shift := 32-(offset%32+range)
  let mask := 2^range-1
  (word pfx (offset/32) >>> shift) &&& mask

def alignIndex (index range : ℕ) : ℕ := index &&& (2^32-1-(range-1))

/-- `_lpm_lookup`: the entry list found below `parent`, if any. -/
def lpmLookupRec (dst : Bytes) : LpmNode → ℕ → Option (List LpmEntry)
  | .leaf _, _ => none
  | .branch _ _ next, offset =>
    match lpmLookupRec dst (next (lpmIndex dst offset 8)) (offset+8) with
    | some head => some head
    | none =>
      let head := (next (lpmIndex dst offset 8)).head
      if head.isEmpty then none else some head

def lpmLookup (table : ℕ → LpmNode) (dst : Bytes) : Option LpmEntry :=
  let node := table (lpmIndex dst 0 16)
  match lpmLookupRec dst node 16 with
  | some head => head.head?
  | none => node.head.head?

section
variable (cb : Callbacks α) (id : ℤ) (prefixLen : ℕ)

/-- The scan of `lpm_entry_insert`: the number of entries up to `prior`, unless the entry exists. -/
def insertScan (h : Heap α) : List LpmEntry → ℕ → ℕ → Option ℕ
  | [], _, prior => some prior
  | entry::rest, i, prior =>
    if !cb.entryIdentify (h.val entry.ptr) id prefixLen then none
    else insertScan h rest (i+1) (if cb.entryCompare (h.val entry.ptr) prefixLen then i+1 else prior)

def lpmEntryInsert (h : Heap α) (head : List LpmEntry) (list : LpmEntry) :
    Option (List LpmEntry × Heap α) :=
  match insertScan cb id prefixLen h head 0 0 with
  | none => none
  | some prior => some (head.take prior ++ list::head.drop prior,cb.entryPull h list.ptr)

def lpmEntryDelete (h : Heap α) : List LpmEntry → Option (List LpmEntry × Heap α)
  | [] => none
  | entry::rest =>
    if !cb.entryIdentify (h.val entry.ptr) id prefixLen then
      some (rest,(cb.entryPut h entry.ptr).free entry.addr)
    else
      match lpmEntryDelete h rest with
      | none => none
      | some (rest,h) => some (entry::rest,h)

/-- Outcome of a loop over a range of nodes: success, iterations completed, nodes and heap. -/
structure LoopRes (α : Type) where
  ok : Bool
  count : ℕ
  nodes : ℕ → LpmNode
  heap : Heap α

/-- The loop of `lpm_add` and `_lpm_add` over the nodes a prefix covers. -/
def lpmAddLoop (ptr index : ℕ) : ℕ → ℕ → (ℕ → LpmNode) → Heap α → LoopRes α
  | 0, i, nodes, h => ⟨true,i,nodes,h⟩
  | n+1, i, nodes, h =>
    match h.alloc with
    | (none,h) => ⟨false,i,nodes,h⟩
    | (some entry,h) =>
      match lpmEntryInsert cb id prefixLen h (nodes (index ||| i)).head ⟨entry,ptr⟩ with
      | none => ⟨false,i,nodes,h.free entry⟩
      | some (head,h) =>
        lpmAddLoop ptr index n (i+1)
          (Function.update nodes (index ||| i) ((nodes (index ||| i)).setHead head)) h

def lpmRollback (index : ℕ) : ℕ → ℕ → (ℕ → LpmNode) → Heap α → (ℕ → LpmNode) × Heap α
  | 0, _, nodes, h => (nodes,h)
  | n+1, i, nodes, h =>
    match lpmEntryDelete cb id prefixLen h (nodes (index ||| i)).head with
    | none => lpmRollback index n (i+1) nodes h
    | some (head,h) =>
      lpmRollback index n (i+1)
        (Function.update nodes (index ||| i) ((nodes (index ||| i)).setHead head)) h

def lpmDeleteLoop (index : ℕ) : ℕ → ℕ → (ℕ → LpmNode) → Heap α → LoopRes α
  | 0, i, nodes, h => ⟨true,i,nodes,h⟩
  | n+1, i, nodes, h =>
    match lpmEntryDelete cb id prefixLen h (nodes (index ||| i)).head with
    | none => ⟨false,i,nodes,h⟩
    | some (head,h) =>
      lpmDeleteLoop index n (i+1)
        (Function.update nodes (index ||| i) ((nodes (index ||| i)).setHead head)) h

def unused (next : ℕ → LpmNode) : Bool := (List.range tableSize8).all fun i => (next i).isEmpty

def releaseEmpty (head : List LpmEntry) (table : ℕ) (next : ℕ → LpmNode) (h : Heap α) :
    LpmNode × Heap α :=
  if unused next then (.leaf head,h.free table)
  else (.branch head table next,h)

/-- `_lpm_add` once `parent->next_table` exists. `deeper` is the recursive call. The count of
allocated entries that the rollback of this function uses stays zero. -/
def lpmAddTable (deeper : LpmNode → Heap α → Bool × LpmNode × Heap α) (pfx : Bytes)
    (ptr offset : ℕ) (head : List LpmEntry) (table : ℕ) (next : ℕ → LpmNode) (h : Heap α) :
    Bool × LpmNode × Heap α :=
  let index := lpmIndex pfx offset 8
  if 8 < prefixLen-offset then
    match deeper (next index) h with
    | (true,node,h) => (true,.branch head table (Function.update next index node),h)
    | (false,node,h) => (false,releaseEmpty head table (Function.update next index node) h)
  else
    let range := 2^(8-(prefixLen-offset))
    let index := alignIndex index range
    let r := lpmAddLoop cb id prefixLen ptr index range 0 next h
    let entryAllocated := 0
    if r.ok then (true,.branch head table r.nodes,r.heap)
    else
      let r := lpmRollback cb id prefixLen index entryAllocated 0 r.nodes r.heap
      (false,releaseEmpty head table r.1 r.2)

/-- `_lpm_add`; the first argument bounds the recursion by the tables still to pass. -/
def lpmAddRec (pfx : Bytes) (ptr : ℕ) : ℕ → LpmNode → ℕ → Heap α → Bool × LpmNode × Heap α
  | 0, parent, _, h => (false,parent,h)
  | depth+1, .leaf head, offset, h =>
    match h.alloc with
    | (none,h) => (false,.leaf head,h)
    | (some table,h) =>
      lpmAddTable cb id prefixLen (fun node h => lpmAddRec pfx ptr depth node (offset+8) h)
        pfx ptr offset head table (fun _ => lpmInitNode) h
  | depth+1, .branch head table next, offset, h =>
    lpmAddTable cb id prefixLen (fun node h => lpmAddRec pfx ptr depth node (offset+8) h)
      pfx ptr offset head table next h

/-- Tables between offset 16 and the end of the prefix. -/
def depthOf (prefixLen : ℕ) : ℕ := (prefixLen-16+7)/8

def lpmAdd (table : ℕ → LpmNode) (pfx : Bytes) (ptr : ℕ) (h : Heap α) :
    Bool × (ℕ → LpmNode) × Heap α :=
  let index := lpmIndex pfx 0 16
  if 16 < prefixLen then
    match lpmAddRec cb id prefixLen pfx ptr (depthOf prefixLen) (table index) 16 h with
    | (ret,node,h) => (ret,Function.update table index node,h)
  else
    let range := 2^(16-prefixLen)
    let index := alignIndex index range
    let r := lpmAddLoop cb id prefixLen ptr index range 0 table h
    if r.ok then (true,r.nodes,r.heap)
    else (false,lpmRollback cb id prefixLen index r.count 0 r.nodes r.heap)

def lpmDeleteRec (pfx : Bytes) : LpmNode → ℕ → Heap α → Bool × LpmNode × Heap α
  | .leaf head, _, h => (false,.leaf head,h)
  | .branch head table next, offset, h =>
    let index := lpmIndex pfx offset 8
    if 8 < prefixLen-offset then
      match lpmDeleteRec pfx (next index) (offset+8) h with
      | (true,node,h) => (true,releaseEmpty head table (Function.update next index node) h)
      | (false,node,h) => (false,.branch head table (Function.update next index node),h)
    else
      let range := 2^(8-(prefixLen-offset))
      let index := alignIndex index range
      let r := lpmDeleteLoop cb id prefixLen index range 0 next h
      if r.ok then (true,releaseEmpty head table r.nodes r.heap)
      else (false,.branch head table r.nodes,r.heap)

def lpmDelete (table : ℕ → LpmNode) (pfx : Bytes) (h : Heap α) : Bool × (ℕ → LpmNode) × Heap α :=
  let index := lpmIndex pfx 0 16
  if 16 < prefixLen then
    match lpmDeleteRec cb id prefixLen pfx (table index) 16 h with
    | (ret,node,h) => (ret,Function.update table index node,h)
  else
    let range := 2^(16-prefixLen)
    let index := alignIndex index range
    let r := lpmDeleteLoop cb id prefixLen index range 0 table h
    (r.ok,r.nodes,r.heap)

end

theorem unused_iff {next : ℕ → LpmNode} :
    unused next = true ↔ ∀ i < tableSize8, (next i).isEmpty = true := by
  simp [unused]

section
variable (cb : Callbacks α)

def lpmEntryDeleteAll (h : Heap α) : List LpmEntry → Heap α
  | [] => h
  | entry::rest => lpmEntryDeleteAll ((cb.entryPut h entry.ptr).free entry.addr) rest

/-- `_lpm_delete_all`; it leaves the node without a table. -/
def lpmDeleteAllRec : LpmNode → Heap α → Heap α
  | .leaf _, h => h
  | .branch _ table next, h =>
    ((List.range tableSize8).foldl
      (fun h i => lpmEntryDeleteAll cb (lpmDeleteAllRec (next i) h) (next i).head) h).free table

/-- `lpm_delete_all`; it leaves every node of the table empty. -/
def lpmDeleteAll (table : ℕ → LpmNode) (h : Heap α) : (ℕ → LpmNode) × Heap α :=
  (lpmInit,(List.range tableSize16).foldl
    (fun h i => lpmEntryDeleteAll cb (lpmDeleteAllRec cb (table i) h) (table i).head) h)

end
end Lpm
end Ixmap
