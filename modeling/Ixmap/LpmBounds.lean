import Ixmap.FibRun

/-! The walks of `lpm.c` with every access checked. A walk fails here where the code would read outside the
address, shift by a negative amount or by 32 or more, let an unsigned difference wrap, or leave a table;
in every trie that the routing table builds, none of this happens. -/
namespace Ixmap
namespace Lpm
open BlockHeap PrefixBits

variable {α : Type}

/-- `lpm_index` on an address of `width` bits. -/
def lpmIndexIn (width : ℕ) (pfx : Bytes) (offset range : ℕ) : Option ℕ :=
  if offset+range ≤ width ∧ offset/32 < width/32 ∧ 0 < offset%32+range ∧ offset%32+range ≤ 32 ∧ range < 32 then
    some (lpmIndex pfx offset range)
  else none

def lpmLookupRecIn (width : ℕ) (dst : Bytes) : LpmNode → ℕ → Option (Option (List LpmEntry))
  | .leaf _, _ => some none
  | .branch _ _ next, offset =>
    match lpmIndexIn width dst offset 8 with
    | none => none
    | some index =>
      if index < tableSize8 then
        match lpmLookupRecIn width dst (next index) (offset+8) with
        | none => none
        | some (some head) => some (some head)
        | some none => some (if (next index).head.isEmpty then none else some (next index).head)
      else none

def lpmLookupIn (width : ℕ) (table : ℕ → LpmNode) (dst : Bytes) : Option (Option LpmEntry) :=
  match lpmIndexIn width dst 0 16 with
  | none => none
  | some index =>
    if index < tableSize16 then
      match lpmLookupRecIn width dst (table index) 16 with
      | none => none
      | some (some head) => some head.head?
      | some none => some (table index).head.head?
    else none

section
variable (cb : Callbacks α) (id : ℤ) (prefixLen size width : ℕ)

def lpmAddLoopIn (ptr index : ℕ) : ℕ → ℕ → (ℕ → LpmNode) → Heap α → Option (LoopRes α)
  | 0, i, nodes, h => some ⟨true,i,nodes,h⟩
  | n+1, i, nodes, h =>
    if index ||| i < size then
      match h.alloc with
      | (none,h) => some ⟨false,i,nodes,h⟩
      | (some entry,h) =>
        match lpmEntryInsert cb id prefixLen h (nodes (index ||| i)).head ⟨entry,ptr⟩ with
        | none => some ⟨false,i,nodes,h.free entry⟩
        | some (head,h) =>
          lpmAddLoopIn ptr index n (i+1)
            (Function.update nodes (index ||| i) ((nodes (index ||| i)).setHead head)) h
    else none

def lpmRollbackIn (index : ℕ) : ℕ → ℕ → (ℕ → LpmNode) → Heap α → Option ((ℕ → LpmNode) × Heap α)
  | 0, _, nodes, h => some (nodes,h)
  | n+1, i, nodes, h =>
    if index ||| i < size then
      match lpmEntryDelete cb id prefixLen h (nodes (index ||| i)).head with
      | none => lpmRollbackIn index n (i+1) nodes h
      | some (head,h) =>
        lpmRollbackIn index n (i+1)
          (Function.update nodes (index ||| i) ((nodes (index ||| i)).setHead head)) h
    else none

def lpmDeleteLoopIn (index : ℕ) : ℕ → ℕ → (ℕ → LpmNode) → Heap α → Option (LoopRes α)
  | 0, i, nodes, h => some ⟨true,i,nodes,h⟩
  | n+1, i, nodes, h =>
    if index ||| i < size then
      match lpmEntryDelete cb id prefixLen h (nodes (index ||| i)).head with
      | none => some ⟨false,i,nodes,h⟩
      | some (head,h) =>
        lpmDeleteLoopIn index n (i+1)
          (Function.update nodes (index ||| i) ((nodes (index ||| i)).setHead head)) h
    else none

def lpmAddTableIn (deeper : LpmNode → Heap α → Option (Bool × LpmNode × Heap α)) (pfx : Bytes)
    (ptr offset : ℕ) (head : List LpmEntry) (table : ℕ) (next : ℕ → LpmNode) (h : Heap α) :
    Option (Bool × LpmNode × Heap α) :=
  match lpmIndexIn width pfx offset 8 with
  | none => none
  | some index =>
    if prefixLen < offset then none
    else if 8 < prefixLen-offset then
      if index < tableSize8 then
        match deeper (next index) h with
        | none => none
        | some (true,node,h) => some (true,.branch head table (Function.update next index node),h)
        | some (false,node,h) => some (false,releaseEmpty head table (Function.update next index node) h)
      else none
    else
      let range := 2^(8-(prefixLen-offset))
      let index := alignIndex index range
      match lpmAddLoopIn cb id prefixLen tableSize8 ptr index range 0 next h with
      | none => none
      | some r =>
        let entryAllocated := 0
        if r.ok then some (true,.branch head table r.nodes,r.heap)
        else
          (lpmRollbackIn cb id prefixLen tableSize8 index entryAllocated 0 r.nodes r.heap).map fun r =>
            (false,releaseEmpty head table r.1 r.2)

/-- The code has no bound on the recursion: to reach the bound of the model is a failure too. -/
def lpmAddRecIn (pfx : Bytes) (ptr : ℕ) : ℕ → LpmNode → ℕ → Heap α → Option (Bool × LpmNode × Heap α)
  | 0, _, _, _ => none
  | depth+1, .leaf head, offset, h =>
    match h.alloc with
    | (none,h) => some (false,.leaf head,h)
    | (some table,h) =>
      lpmAddTableIn cb id prefixLen width (fun node h => lpmAddRecIn pfx ptr depth node (offset+8) h)
        pfx ptr offset head table (fun _ => lpmInitNode) h
  | depth+1, .branch head table next, offset, h =>
    lpmAddTableIn cb id prefixLen width (fun node h => lpmAddRecIn pfx ptr depth node (offset+8) h)
      pfx ptr offset head table next h

def lpmAddIn (table : ℕ → LpmNode) (pfx : Bytes) (ptr : ℕ) (h : Heap α) :
    Option (Bool × (ℕ → LpmNode) × Heap α) :=
  match lpmIndexIn width pfx 0 16 with
  | none => none
  | some index =>
    if 16 < prefixLen then
      if index < tableSize16 then
        (lpmAddRecIn cb id prefixLen width pfx ptr (depthOf prefixLen) (table index) 16 h).map fun r =>
          (r.1,Function.update table index r.2.1,r.2.2)
      else none
    else
      let range := 2^(16-prefixLen)
      let index := alignIndex index range
      match lpmAddLoopIn cb id prefixLen tableSize16 ptr index range 0 table h with
      | none => none
      | some r =>
        if r.ok then some (true,r.nodes,r.heap)
        else (lpmRollbackIn cb id prefixLen tableSize16 index r.count 0 r.nodes r.heap).map fun r => (false,r)

def lpmDeleteRecIn (pfx : Bytes) : LpmNode → ℕ → Heap α → Option (Bool × LpmNode × Heap α)
  | .leaf head, _, h => some (false,.leaf head,h)
  | .branch head table next, offset, h =>
    match lpmIndexIn width pfx offset 8 with
    | none => none
    | some index =>
      if prefixLen < offset then none
      else if 8 < prefixLen-offset then
        if index < tableSize8 then
          match lpmDeleteRecIn pfx (next index) (offset+8) h with
          | none => none
          | some (true,node,h) => some (true,releaseEmpty head table (Function.update next index node) h)
          | some (false,node,h) => some (false,.branch head table (Function.update next index node),h)
        else none
      else
        let range := 2^(8-(prefixLen-offset))
        let index := alignIndex index range
        match lpmDeleteLoopIn cb id prefixLen tableSize8 index range 0 next h with
        | none => none
        | some r =>
          some (if r.ok then (true,releaseEmpty head table r.nodes r.heap)
            else (false,.branch head table r.nodes,r.heap))

def lpmDeleteIn (table : ℕ → LpmNode) (pfx : Bytes) (h : Heap α) :
    Option (Bool × (ℕ → LpmNode) × Heap α) :=
  match lpmIndexIn width pfx 0 16 with
  | none => none
  | some index =>
    if 16 < prefixLen then
      if index < tableSize16 then
        (lpmDeleteRecIn cb id prefixLen width pfx (table index) 16 h).map fun r =>
          (r.1,Function.update table index r.2.1,r.2.2)
      else none
    else
      let range := 2^(16-prefixLen)
      let index := alignIndex index range
      (lpmDeleteLoopIn cb id prefixLen tableSize16 index range 0 table h).map fun r => (r.ok,r.nodes,r.heap)

end

section Checks
variable {width o : ℕ} {pfx dst : Bytes}

theorem lpmIndex_lt (pfx : Bytes) (o w : ℕ) : lpmIndex pfx o w < 2^w := by
  unfold lpmIndex
  rw [Nat.and_two_pow_sub_one_eq_mod]
  exact Nat.mod_lt _ (Nat.two_pow_pos _)

theorem lpmIndexIn_octet (hw : 32 ∣ width) (ho : o%8 = 0) (hle : o+8 ≤ width) :
    lpmIndexIn width pfx o 8 = some (lpmIndex pfx o 8) := if_pos (by omega)

theorem lpmIndexIn_root (hw : 32 ∣ width) (hpos : 0 < width) :
    lpmIndexIn width pfx 0 16 = some (lpmIndex pfx 0 16) := if_pos (by omega)

theorem octet_lt (pfx : Bytes) (o : ℕ) : lpmIndex pfx o 8 < tableSize8 := lpmIndex_lt pfx o 8

theorem root_lt (pfx : Bytes) : lpmIndex pfx 0 16 < tableSize16 := tableSize16_eq ▸ lpmIndex_lt pfx 0 16

theorem covered_lt {w m index i : ℕ} (hindex : index < 2^w) (hi : i < 2^(w-m)) :
    alignIndex index (2^(w-m)) ||| i < 2^w := by
  refine Nat.or_lt_two_pow (lt_of_le_of_lt Nat.and_le_left hindex) ?_
  exact lt_of_lt_of_le hi (Nat.pow_le_pow_right (by decide) (Nat.sub_le _ _))

theorem covered_octet {m j : ℕ} (pfx : Bytes) (o : ℕ) (hj : j < 2^(8-m)) :
    alignIndex (lpmIndex pfx o 8) (2^(8-m)) ||| j < tableSize8 := covered_lt (lpmIndex_lt pfx o 8) hj

theorem covered_root {m j : ℕ} (pfx : Bytes) (hj : j < 2^(16-m)) :
    alignIndex (lpmIndex pfx 0 16) (2^(16-m)) ||| j < tableSize16 :=
  tableSize16_eq ▸ covered_lt (lpmIndex_lt pfx 0 16) hj

end Checks

/-- Tables are only where the address has bits left to index them. -/
def Shape (width : ℕ) : ℕ → LpmNode → Prop
  | _, .leaf _ => True
  | o, .branch _ _ next => o+8 ≤ width ∧ ∀ i, Shape width (o+8) (next i)

section Lookup
variable {width o : ℕ} {dst : Bytes} {node : LpmNode}

theorem lookupRecIn_eq (hw : 32 ∣ width) (ho : o%8 = 0) (hshape : Shape width o node) :
    lpmLookupRecIn width dst node o = some (lpmLookupRec dst node o) := by
  induction node generalizing o with
  | leaf head => rfl
  | branch head table next ih =>
    obtain ⟨hle,hnext⟩ := hshape
    rw [lpmLookupRecIn,lpmIndexIn_octet hw ho hle]
    simp only [if_pos (octet_lt dst o)]
    rw [ih _ (by omega) (hnext _),lpmLookupRec]
    rcases lpmLookupRec dst (next (lpmIndex dst o 8)) (o+8) with _ | head <;> rfl

theorem lookupIn_eq {table : ℕ → LpmNode} (hw : 32 ∣ width) (hpos : 0 < width)
    (hshape : ∀ i, Shape width 16 (table i)) : lpmLookupIn width table dst = some (lpmLookup table dst) := by
  rw [lpmLookupIn,lpmIndexIn_root hw hpos]
  simp only [if_pos (root_lt dst)]
  rw [lookupRecIn_eq hw (by decide) (hshape _),lpmLookup]
  rcases lpmLookupRec dst (table (lpmIndex dst 0 16)) 16 with _ | head <;> rfl

end Lookup

section Loops
variable {cb : Callbacks α} {id : ℤ} {n size ptr index m i : ℕ} {nodes : ℕ → LpmNode} {h : Heap α}

theorem addLoopIn_eq (hidx : ∀ j < i+m, index ||| j < size) :
    lpmAddLoopIn cb id n size ptr index m i nodes h = some (lpmAddLoop cb id n ptr index m i nodes h) := by
  induction m generalizing i nodes h with
  | zero => rfl
  | succ m ih =>
    rw [lpmAddLoopIn,lpmAddLoop,if_pos (hidx i (by omega))]
    rcases h.alloc with ⟨_ | entry,h⟩
    · rfl
    simp only
    rcases lpmEntryInsert cb id n h (nodes (index ||| i)).head ⟨entry,ptr⟩ with _ | ⟨head,h⟩
    · rfl
    · exact ih fun j hj => hidx j (by omega)

theorem rollbackIn_eq (hidx : ∀ j < i+m, index ||| j < size) :
    lpmRollbackIn cb id n size index m i nodes h = some (lpmRollback cb id n index m i nodes h) := by
  induction m generalizing i nodes h with
  | zero => rfl
  | succ m ih =>
    rw [lpmRollbackIn,lpmRollback,if_pos (hidx i (by omega))]
    rcases lpmEntryDelete cb id n h (nodes (index ||| i)).head with _ | ⟨head,h⟩
    · exact ih fun j hj => hidx j (by omega)
    · exact ih fun j hj => hidx j (by omega)

theorem deleteLoopIn_eq (hidx : ∀ j < i+m, index ||| j < size) :
    lpmDeleteLoopIn cb id n size index m i nodes h = some (lpmDeleteLoop cb id n index m i nodes h) := by
  induction m generalizing i nodes h with
  | zero => rfl
  | succ m ih =>
    rw [lpmDeleteLoopIn,lpmDeleteLoop,if_pos (hidx i (by omega))]
    rcases lpmEntryDelete cb id n h (nodes (index ||| i)).head with _ | ⟨head,h⟩
    · rfl
    · exact ih fun j hj => hidx j (by omega)

theorem addLoop_count_le : (lpmAddLoop cb id n ptr index m i nodes h).count ≤ i+m := by
  induction m generalizing i nodes h with
  | zero => exact le_rfl
  | succ m ih =>
    rw [lpmAddLoop]
    rcases h.alloc with ⟨_ | entry,h⟩
    · simp
    simp only
    rcases lpmEntryInsert cb id n h (nodes (index ||| i)).head ⟨entry,ptr⟩ with _ | ⟨head,h⟩
    · simp
    · exact ih.trans (by omega)

end Loops

section Walks
variable {cb : Callbacks α} {id : ℤ} {n width o ptr : ℕ} {pfx : Bytes} {h : Heap α}

theorem addTableIn_eq {deeperIn : LpmNode → Heap α → Option (Bool × LpmNode × Heap α)}
    {deeper : LpmNode → Heap α → Bool × LpmNode × Heap α} (head : List LpmEntry) (table : ℕ) (next : ℕ → LpmNode)
    (hw : 32 ∣ width) (ho : o%8 = 0) (hon : o < n) (hn : n ≤ width)
    (hdeeper : 8 < n-o → ∀ node h, deeperIn node h = some (deeper node h)) :
    lpmAddTableIn cb id n width deeperIn pfx ptr o head table next h =
      some (lpmAddTable cb id n deeper pfx ptr o head table next h) := by
  rw [lpmAddTableIn,lpmAddTable,lpmIndexIn_octet hw ho (by omega)]
  simp only [if_neg (show ¬ n < o by omega)]
  by_cases hlong : 8 < n-o
  · simp only [if_pos hlong,if_pos (octet_lt pfx o)]
    rw [hdeeper hlong]
    rcases deeper (next (lpmIndex pfx o 8)) h with ⟨_ | _,node,h⟩ <;> rfl
  · simp only [if_neg hlong]
    rw [addLoopIn_eq fun j hj => covered_octet pfx o (by simpa using hj)]
    simp only
    split_ifs <;> rfl

theorem addRecIn_eq {depth : ℕ} {node : LpmNode} (hw : 32 ∣ width) (ho : o%8 = 0) (hon : o < n) (hn : n ≤ width)
    (hdepth : n ≤ o+8*depth) :
    lpmAddRecIn cb id n width pfx ptr depth node o h = some (lpmAddRec cb id n pfx ptr depth node o h) := by
  induction depth generalizing o node h with
  | zero => omega
  | succ depth ih =>
    have hdeeper : 8 < n-o → ∀ node h, lpmAddRecIn cb id n width pfx ptr depth node (o+8) h =
        some (lpmAddRec cb id n pfx ptr depth node (o+8) h) :=
      fun hlong node h => ih (by omega) (by omega) (by omega)
    cases node with
    | leaf head =>
      rw [lpmAddRecIn,lpmAddRec]
      rcases h.alloc with ⟨_ | table,h⟩
      · rfl
      · exact addTableIn_eq _ _ _ hw ho hon hn hdeeper
    | branch head table next => exact addTableIn_eq _ _ _ hw ho hon hn hdeeper

theorem addIn_eq (table : ℕ → LpmNode) (hw : 32 ∣ width) (hpos : 0 < width) (hn : n ≤ width) :
    lpmAddIn cb id n width table pfx ptr h = some (lpmAdd cb id n table pfx ptr h) := by
  rw [lpmAddIn,lpmAdd,lpmIndexIn_root hw hpos]
  by_cases hlong : 16 < n
  · simp only [if_pos hlong,if_pos (root_lt pfx)]
    rw [addRecIn_eq hw (by decide) hlong hn (by unfold depthOf; omega)]
    rfl
  · simp only [if_neg hlong]
    rw [addLoopIn_eq fun j hj => covered_root pfx (by simpa using hj)]
    simp only
    split_ifs
    · rfl
    · rw [rollbackIn_eq fun j hj => covered_root pfx
        (lt_of_lt_of_le (by simpa using hj) (addLoop_count_le.trans (Nat.zero_add _).le))]
      rfl

theorem deleteRecIn_eq {node : LpmNode} (hw : 32 ∣ width) (ho : o%8 = 0) (hon : o < n) (hn : n ≤ width) :
    lpmDeleteRecIn cb id n width pfx node o h = some (lpmDeleteRec cb id n pfx node o h) := by
  induction node generalizing o h with
  | leaf head => rfl
  | branch head table next ih =>
    rw [lpmDeleteRecIn,lpmDeleteRec,lpmIndexIn_octet hw ho (by omega)]
    simp only [if_neg (show ¬ n < o by omega)]
    by_cases hlong : 8 < n-o
    · simp only [if_pos hlong,if_pos (octet_lt pfx o)]
      rw [ih _ (by omega) (by omega)]
      rcases lpmDeleteRec cb id n pfx (next (lpmIndex pfx o 8)) (o+8) h with ⟨_ | _,node,h⟩ <;> rfl
    · simp only [if_neg hlong]
      rw [deleteLoopIn_eq fun j hj => covered_octet pfx o (by simpa using hj)]

theorem deleteIn_eq (table : ℕ → LpmNode) (hw : 32 ∣ width) (hpos : 0 < width) (hn : n ≤ width) :
    lpmDeleteIn cb id n width table pfx h = some (lpmDelete cb id n table pfx h) := by
  rw [lpmDeleteIn,lpmDelete,lpmIndexIn_root hw hpos]
  by_cases hlong : 16 < n
  · simp only [if_pos hlong,if_pos (root_lt pfx)]
    rw [deleteRecIn_eq hw (by decide) hlong hn]
    rfl
  · simp only [if_neg hlong]
    rw [deleteLoopIn_eq fun j hj => covered_root pfx (by simpa using hj)]
    rfl

end Walks

section Shape
variable {cb : Callbacks α} {id : ℤ} {n width o ptr index m i : ℕ} {pfx : Bytes} {node : LpmNode}
  {nodes : ℕ → LpmNode} {h : Heap α}

theorem shape_setHead (head : List LpmEntry) (hs : Shape width o node) : Shape width o (node.setHead head) := by
  cases node with
  | leaf => trivial
  | branch => exact hs

theorem shape_update (hs : ∀ y, Shape width o (nodes y)) (hnode : Shape width o node) (y : ℕ) :
    Shape width o (Function.update nodes index node y) := by
  by_cases hy : y = index
  · rwa [hy,Function.update_self]
  · rw [Function.update_of_ne hy]
    exact hs y

theorem shape_newHead (hs : ∀ y, Shape width o (nodes y)) (index : ℕ) (head : List LpmEntry) (y : ℕ) :
    Shape width o (Function.update nodes index ((nodes index).setHead head) y) :=
  shape_update hs (shape_setHead head (hs index)) y

theorem shape_addLoop (hs : ∀ y, Shape width o (nodes y)) (y : ℕ) :
    Shape width o ((lpmAddLoop cb id n ptr index m i nodes h).nodes y) := by
  induction m generalizing i nodes h with
  | zero => exact hs y
  | succ m ih =>
    rw [lpmAddLoop]
    rcases h.alloc with ⟨_ | entry,h⟩
    · exact hs y
    simp only
    rcases lpmEntryInsert cb id n h (nodes (index ||| i)).head ⟨entry,ptr⟩ with _ | ⟨head,h⟩
    · exact hs y
    · exact ih (shape_newHead hs _ head)

theorem shape_rollback (hs : ∀ y, Shape width o (nodes y)) (y : ℕ) :
    Shape width o ((lpmRollback cb id n index m i nodes h).1 y) := by
  induction m generalizing i nodes h with
  | zero => exact hs y
  | succ m ih =>
    rw [lpmRollback]
    rcases lpmEntryDelete cb id n h (nodes (index ||| i)).head with _ | ⟨head,h⟩
    · exact ih hs
    · exact ih (shape_newHead hs _ head)

theorem shape_deleteLoop (hs : ∀ y, Shape width o (nodes y)) (y : ℕ) :
    Shape width o ((lpmDeleteLoop cb id n index m i nodes h).nodes y) := by
  induction m generalizing i nodes h with
  | zero => exact hs y
  | succ m ih =>
    rw [lpmDeleteLoop]
    rcases lpmEntryDelete cb id n h (nodes (index ||| i)).head with _ | ⟨head,h⟩
    · exact hs y
    · exact ih (shape_newHead hs _ head)

theorem shape_releaseEmpty (head : List LpmEntry) (table : ℕ) (hle : o+8 ≤ width)
    (hs : ∀ y, Shape width (o+8) (nodes y)) : Shape width o (releaseEmpty head table nodes h).1 := by
  unfold releaseEmpty
  split_ifs
  · trivial
  · exact ⟨hle,hs⟩

theorem shape_addTable {deeper : LpmNode → Heap α → Bool × LpmNode × Heap α} (head : List LpmEntry) (table : ℕ)
    (hle : o+8 ≤ width) (hs : ∀ y, Shape width (o+8) (nodes y))
    (hdeeper : 8 < n-o → ∀ node h, Shape width (o+8) node → Shape width (o+8) (deeper node h).2.1) :
    Shape width o (lpmAddTable cb id n deeper pfx ptr o head table nodes h).2.1 := by
  rw [lpmAddTable]
  by_cases hlong : 8 < n-o
  · simp only [if_pos hlong]
    have hchild := hdeeper hlong (nodes (lpmIndex pfx o 8)) h (hs _)
    rcases hr : deeper (nodes (lpmIndex pfx o 8)) h with ⟨_ | _,node,h'⟩ <;> rw [hr] at hchild
    · exact shape_releaseEmpty head table hle (shape_update hs hchild)
    · exact ⟨hle,shape_update hs hchild⟩
  · simp only [if_neg hlong]
    split_ifs
    · exact ⟨hle,shape_addLoop hs⟩
    · exact shape_releaseEmpty head table hle (shape_addLoop hs)

theorem shape_addRec {depth : ℕ} (hw : 8 ∣ width) (ho : o%8 = 0) (hon : o < n) (hn : n ≤ width)
    (hs : Shape width o node) : Shape width o (lpmAddRec cb id n pfx ptr depth node o h).2.1 := by
  induction depth generalizing o node h with
  | zero => exact hs
  | succ depth ih =>
    have hle : o+8 ≤ width := by omega
    have hdeeper : 8 < n-o → ∀ node h, Shape width (o+8) node →
        Shape width (o+8) (lpmAddRec cb id n pfx ptr depth node (o+8) h).2.1 :=
      fun hlong node h => ih (by omega) (by omega)
    cases node with
    | leaf head =>
      rw [lpmAddRec]
      rcases h.alloc with ⟨_ | table,h⟩
      · trivial
      · exact shape_addTable head table hle (fun _ => trivial) hdeeper
    | branch head table next => exact shape_addTable head table hle hs.2 hdeeper

theorem shape_add (hw : 8 ∣ width) (hn : n ≤ width) (hs : ∀ y, Shape width 16 (nodes y)) (y : ℕ) :
    Shape width 16 ((lpmAdd cb id n nodes pfx ptr h).2.1 y) := by
  rw [lpmAdd]
  by_cases hlong : 16 < n
  · simp only [if_pos hlong]
    exact shape_update hs (shape_addRec hw (by decide) hlong hn (hs _)) y
  · simp only [if_neg hlong]
    split_ifs
    · exact shape_addLoop hs y
    · exact shape_rollback (shape_addLoop hs) y

theorem shape_deleteRec (hs : Shape width o node) :
    Shape width o (lpmDeleteRec cb id n pfx node o h).2.1 := by
  induction node generalizing o h with
  | leaf head => trivial
  | branch head table next ih =>
    obtain ⟨hle,hnext⟩ := hs
    rw [lpmDeleteRec]
    by_cases hlong : 8 < n-o
    · simp only [if_pos hlong]
      have hchild := ih (lpmIndex pfx o 8) (h := h) (hnext _)
      rcases hr : lpmDeleteRec cb id n pfx (next (lpmIndex pfx o 8)) (o+8) h with ⟨_ | _,node,h'⟩ <;>
        rw [hr] at hchild
      · exact ⟨hle,shape_update hnext hchild⟩
      · exact shape_releaseEmpty head table hle (shape_update hnext hchild)
    · simp only [if_neg hlong]
      split_ifs
      · exact shape_releaseEmpty head table hle (shape_deleteLoop hnext)
      · exact ⟨hle,shape_deleteLoop hnext⟩

theorem shape_delete (hs : ∀ y, Shape width 16 (nodes y)) (y : ℕ) :
    Shape width 16 ((lpmDelete cb id n nodes pfx h).2.1 y) := by
  rw [lpmDelete]
  by_cases hlong : 16 < n
  · simp only [if_pos hlong]
    exact shape_update hs (shape_deleteRec (hs _)) y
  · simp only [if_neg hlong]
    exact shape_deleteLoop hs y

end Shape

end Lpm

namespace FibTable
open BlockHeap PrefixBits Lpm

/-- The prefix is no longer than the addresses of the table. -/
def FibOp.InWidth (width : ℕ) : FibOp → Prop
  | .update r => r.prefixLen ≤ width
  | .delete _ prefixLen _ => prefixLen ≤ width

/-- The nodes of a prefix of `n` bits are in a table that the `w` bits from `o` on index. -/
def EndsAt (o w n : ℕ) : Prop :=
  (o = 0 ∧ w = 16 ∧ n ≤ 16) ∨ (w = 8 ∧ 16 ≤ o ∧ o%8 = 0 ∧ o < n ∧ n ≤ o+8)

section
variable {width : ℕ} {fib : Fib}

theorem shape_step (hw : 8 ∣ width) {op : FibOp} (hop : op.InWidth width) (hs : ∀ y, Shape width 16 (fib.table y)) (y : ℕ) :
    Shape width 16 ((op.step fib).2.table y) := by
  cases op with
  | update r =>
    have hadd : ∀ ptr h, Shape width 16 ((lpmAdd fibCallbacks r.id r.prefixLen fib.table r.pfx ptr h).2.1 y) :=
      fun ptr h => shape_add hw hop hs y
    unfold FibOp.step fibRouteUpdate
    rcases fib.desc.alloc with ⟨_ | entry,desc⟩
    · exact hs y
    simp only
    rcases addrSize r.family with _ | size
    · exact hs y
    simp only
    have hadd := hadd entry (desc.write entry (initEntry (desc.val entry) r size))
    rcases hr : lpmAdd fibCallbacks r.id r.prefixLen fib.table r.pfx entry
      (desc.write entry (initEntry (desc.val entry) r size)) with ⟨_ | _,table,desc'⟩ <;>
      rw [hr] at hadd <;> exact hadd
  | delete pfx n id => exact shape_delete hs y

theorem shape_run (hw : 8 ∣ width) {ops : List FibOp} (hops : ∀ op ∈ ops, op.InWidth width)
    (hs : ∀ y, Shape width 16 (fib.table y)) (y : ℕ) : Shape width 16 ((fibRun fib ops).2.table y) := by
  induction ops generalizing fib with
  | nil => exact hs y
  | cons op ops ih =>
    exact ih (fun op' hop' => hops op' (List.mem_cons_of_mem _ hop')) (shape_step hw (hops op List.mem_cons_self) hs)

/-- `(index & mask) | i` runs through the nodes that the prefix covers. -/
theorem covered_nodes {o w n : ℕ} (hend : EndsAt o w n) (pfx : Bytes) :
    (∀ i < 2^(w-(n-o)), ∀ j < 2^(w-(n-o)), alignIndex (lpmIndex pfx o w) (2^(w-(n-o))) ||| i =
      alignIndex (lpmIndex pfx o w) (2^(w-(n-o))) ||| j → i = j) ∧
    ∀ b, Agree pfx b o → ((∃ i < 2^(w-(n-o)), alignIndex (lpmIndex pfx o w) (2^(w-(n-o))) ||| i = lpmIndex b o w) ↔
      Agree pfx b n) := by
  obtain ⟨hspan,hw,hle⟩ : o%32+w ≤ 32 ∧ w ≤ 32 ∧ o ≤ n ∧ n ≤ o+w := by
    unfold EndsAt at hend
    omega
  have hbase : alignIndex (lpmIndex pfx o w) (2^(w-(n-o))) = blockBase pfx o w (n-o) := by
    rw [lpmIndex_eq hspan,alignIndex_field hw]
  rw [hbase]
  refine ⟨?_,?_⟩
  · intro i hi j hj hij
    rw [block_index hi,block_index hj] at hij
    omega
  · intro b hab
    have hmem := mem_block hab (show n-o ≤ w by omega)
    rw [Nat.add_sub_cancel' hle.1] at hmem
    rw [lpmIndex_eq hspan,hmem]
    constructor
    · rintro ⟨i,hi,he⟩
      rw [block_index hi] at he
      omega
    · rintro ⟨hlo,hhi⟩
      refine ⟨field b o w-blockBase pfx o w (n-o),by omega,?_⟩
      rw [block_index (by omega)]
      omega

end

/-- In every trie that a table of 32 or 128 bit addresses can have, no walk of a lookup, an insertion or a
deletion leaves the address or a table, and the loops visit exactly the nodes a prefix covers. -/
theorem walks_inside (width : ℕ) (hwidth : width = 32 ∨ width = 128) (ok : ℕ → Bool) (v : ℕ → FibEntry) (fib : Fib)
    (hfib : fibAlloc (Heap.init ok v) = some fib) (ops : List FibOp) (hops : ∀ op ∈ ops, op.InWidth width) :
    let table := (fibRun fib ops).2.table
    (∀ dst, lpmLookupIn width table dst = some (lpmLookup table dst)) ∧
    (∀ pfx n id, n ≤ width →
      (∀ ptr h, lpmAddIn fibCallbacks id n width table pfx ptr h = some (lpmAdd fibCallbacks id n table pfx ptr h)) ∧
      (∀ h, lpmDeleteIn fibCallbacks id n width table pfx h = some (lpmDelete fibCallbacks id n table pfx h)) ∧
      ∀ o w, EndsAt o w n →
        (∀ i < 2^(w-(n-o)), ∀ j < 2^(w-(n-o)), alignIndex (lpmIndex pfx o w) (2^(w-(n-o))) ||| i =
          alignIndex (lpmIndex pfx o w) (2^(w-(n-o))) ||| j → i = j) ∧
        ∀ b, Agree pfx b o → ((∃ i < 2^(w-(n-o)), alignIndex (lpmIndex pfx o w) (2^(w-(n-o))) ||| i =
          lpmIndex b o w) ↔ Agree pfx b n)) := by
  intro table
  have hw : 32 ∣ width := by omega
  have hpos : 0 < width := by omega
  have hinit : fib.table = lpmInit := by
    unfold fibAlloc at hfib
    rcases hr : (Heap.init ok v).alloc with ⟨_ | block,desc⟩ <;> rw [hr] at hfib
    · simp at hfib
    · rw [← Option.some.inj hfib]
  have hshape : ∀ y, Shape width 16 (table y) :=
    shape_run (by omega) hops fun y => by rw [hinit]; trivial
  refine ⟨fun dst => lookupIn_eq hw hpos hshape,fun pfx n id hn => ⟨?_,?_,?_⟩⟩
  · exact fun ptr h => addIn_eq table hw hpos hn
  · exact fun h => deleteIn_eq table hw hpos hn
  · exact fun o w hend => covered_nodes hend pfx

def hostRoute : Route := ⟨afInet,.link,fun _ => 10,32,fun _ => 0,0,1⟩

theorem walks_inside_host : ∃ fib, fibAlloc (Heap.init (fun _ => true) fun _ => default) = some fib ∧
    lpmLookupIn 32 (fibRun fib [.update hostRoute]).2.table (fun _ => 10) =
      some (lpmLookup (fibRun fib [.update hostRoute]).2.table fun _ => 10) := by
  obtain ⟨fib,hfib,-⟩ := fibAlloc_inv Set.univ (fun _ => true) (fun _ => default) rfl
  have hops : ∀ op ∈ [FibOp.update hostRoute], op.InWidth 32 := by simp [FibOp.InWidth,hostRoute]
  exact ⟨fib,hfib,(walks_inside 32 (.inl rfl) _ _ fib hfib _ hops).1 _⟩

end FibTable
end Ixmap
