import Ixmap.Lpm

/-! The forwarding table of `fib.c`: reference-counted route entries in a multibit trie. -/
namespace Ixmap
namespace FibTable
open BlockHeap PrefixBits Lpm

inductive FibType where
  | forward
  | link
  | local
deriving DecidableEq, Repr, Inhabited

structure FibEntry where
  pfx : Bytes
  prefixLen : ℕ
  nexthop : Bytes
  portIndex : ℤ
  type : FibType
  id : ℤ
  refcount : ℕ
deriving Inhabited

def afInet : ℕ := 2
def afInet6 : ℕ := 10

/-- `struct fib`: its block, its table and the part of the memory pool that serves it. -/
structure Fib where
  block : ℕ
  table : ℕ → LpmNode
  desc : Heap FibEntry

def fibEntryIdentify (entry : FibEntry) (id : ℤ) (prefixLen : ℕ) : Bool :=
  !(entry.id == id && entry.prefixLen == prefixLen)

def fibEntryCompare (entry : FibEntry) (prefixLen : ℕ) : Bool := decide (prefixLen < entry.prefixLen)

def fibEntryPull (h : Heap FibEntry) (ptr : ℕ) : Heap FibEntry :=
  h.write ptr { h.val ptr with refcount := ((h.val ptr).refcount+1)%2^32 }

/-- `refcount--` on an `unsigned int`. -/
def decrement (refcount : ℕ) : ℕ := if refcount = 0 then 2^32-1 else refcount-1

def fibEntryPut (h : Heap FibEntry) (ptr : ℕ) : Heap FibEntry :=
  let refcount := decrement (h.val ptr).refcount
  let h := h.write ptr { h.val ptr with refcount }
  if refcount = 0 then h.free ptr else h

def fibCallbacks : Callbacks FibEntry := ⟨fibEntryIdentify,fibEntryCompare,fibEntryPull,fibEntryPut⟩

def fibAlloc (desc : Heap FibEntry) : Option Fib :=
  match desc.alloc with
  | (none,_) => none
  | (some block,desc) => some ⟨block,lpmInit,desc⟩

def fibRelease (fib : Fib) : Heap FibEntry :=
  (lpmDeleteAll fibCallbacks fib.table fib.desc).2.free fib.block

def addrSize (family : ℕ) : Option ℕ :=
  if family = afInet then some 4 else if family = afInet6 then some 16 else none

/-- The arguments of `fib_route_update`. -/
structure Route where
  family : ℕ
  type : FibType
  pfx : Bytes
  prefixLen : ℕ
  nexthop : Bytes
  portIndex : ℤ
  id : ℤ

/-- The fields written into a fresh `struct fib_entry`. -/
def initEntry (old : FibEntry) (r : Route) (size : ℕ) : FibEntry where
  nexthop := memcpy old.nexthop r.nexthop size
  pfx := memcpy old.pfx r.pfx size
  prefixLen := r.prefixLen
  portIndex := r.portIndex
  type := r.type
  id := r.id
  refcount := 0

def fibRouteUpdate (fib : Fib) (r : Route) : Bool × Fib :=
  match fib.desc.alloc with
  | (none,desc) => (false,{ fib with desc })
  | (some entry,desc) =>
    match addrSize r.family with
    | none => (false,{ fib with desc := desc.free entry })
    | some size =>
      let desc := desc.write entry (initEntry (desc.val entry) r size)
      match lpmAdd fibCallbacks r.id r.prefixLen fib.table r.pfx entry desc with
      | (true,table,desc) => (true,{ fib with table, desc })
      | (false,table,desc) => (false,{ fib with table, desc := desc.free entry })

def fibRouteDelete (fib : Fib) (pfx : Bytes) (prefixLen : ℕ) (id : ℤ) : Bool × Fib :=
  match lpmDelete fibCallbacks id prefixLen fib.table pfx fib.desc with
  | (ret,table,desc) => (ret,{ fib with table, desc })

def fibLookup (fib : Fib) (destination : Bytes) : Option ℕ :=
  (lpmLookup fib.table destination).map LpmEntry.ptr

end FibTable
end Ixmap
