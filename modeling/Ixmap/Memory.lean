import Mathlib

/-! The buddy allocator behind `ixmap_mem_alloc`. A metadata node is a node of a
binary tree; a C pointer to it is its path from the root, and a NULL child pointer is
the constructor `null`. Every `numa_alloc_onnode` call asks an outcome stream. -/
namespace Ixmap
namespace Memory

/-- A pointer to a metadata node: the child indices on the way down from the root. -/
abbrev Path := List Bool

/-- `struct ixmap_mnode`; `parent` and `index` are the node's position in the tree. -/
inductive Mnode
  | null
  | node (allocated : Bool) (size ptr : ℕ) (child0 child1 : Mnode)
  deriving DecidableEq, Repr

/-- Calls made to `numa_alloc_onnode` so far and metadata nodes now held. -/
structure Numa where
  calls : ℕ
  live : ℕ
  deriving DecidableEq, Repr

/-- Bytes reserved in front of a block, `ALIGN(sizeof(unsigned long), L1_CACHE_BYTES)`. -/
def headerBytes : ℕ := 64

/-- `ALIGN(x, L1_CACHE_BYTES)` on an `unsigned int`, with its wrap-around. -/
def align (x : ℕ) : ℕ := (x+63) % 2^32 / 64 * 64

/-- The node size asked for: the sum is widened to 64 bits, then narrowed at the call. -/
def request (size : ℕ) : ℕ := (align size + headerBytes) % 2^32

def ixmapMnodeAlloc (ok : ℕ → Bool) (m : Numa) (ptr size : ℕ) : Mnode × Numa :=
  if ok m.calls then (.node false size ptr .null .null,⟨m.calls+1,m.live+1⟩)
  else (.null,⟨m.calls+1,m.live⟩)

def Numa.release (m : Numa) : Numa := ⟨m.calls,m.live-1⟩

structure Split where
  child0 : Mnode
  child1 : Mnode
  numa : Numa
  failed : Bool

/-- The two-iteration loop that creates both halves, with its `err_alloc_child` unwinding. -/
def split (ok : ℕ → Bool) (m : Numa) (ptr half : ℕ) (old1 : Mnode) : Split :=
  match ixmapMnodeAlloc ok m ptr half with
  | (.null,m₁) => ⟨.null,old1,m₁,true⟩
  | (n₀,m₁) =>
    match ixmapMnodeAlloc ok m₁ (ptr+half) half with
    | (.null,m₂) => ⟨.null,.null,m₂.release,true⟩
    | (n₁,m₂) => ⟨n₀,n₁,m₂,false⟩

structure AllocRes where
  ret : Option Path
  node : Mnode
  numa : Numa

/-- `_ixmap_mem_alloc`. The outer `none` is a recursion deeper than `fuel` calls. -/
def ixmapMemAllocRec (ok : ℕ → Bool) : ℕ → Numa → Mnode → ℕ → Option AllocRes
  | 0, _, _, _ => none
  | _+1, m, .null, _ => some ⟨none,.null,m⟩
  | fuel+1, m, .node allocated nsize ptr c₀ c₁, size =>
    if nsize/2 < size then
      if allocated = false ∧ size ≤ nsize then some ⟨some [],.node true nsize ptr c₀ c₁,m⟩
      else some ⟨none,.node allocated nsize ptr c₀ c₁,m⟩
    else
      let s := if allocated then ⟨c₀,c₁,m,false⟩ else split ok m ptr (nsize/2) c₁
      if s.failed then some ⟨none,.node allocated nsize ptr s.child0 s.child1,s.numa⟩
      else
        (ixmapMemAllocRec ok fuel s.numa s.child0 size).bind fun r₀ =>
        match r₀.ret with
        | some p => some ⟨some (false::p),.node true nsize ptr r₀.node s.child1,r₀.numa⟩
        | none =>
          (ixmapMemAllocRec ok fuel r₀.numa s.child1 size).bind fun r₁ =>
          match r₁.ret with
          | some p => some ⟨some (true::p),.node true nsize ptr r₀.node r₁.node,r₁.numa⟩
          | none => some ⟨none,.node allocated nsize ptr r₀.node r₁.node,r₁.numa⟩

structure FreeRes where
  node : Mnode
  /-- `_ixmap_mem_free` was called on this very node, so its parent looks at the buddy. -/
  up : Bool
  numa : Numa

/-- The end of `_ixmap_mem_free` seen from the parent: keep the halves, or merge them.
A NULL buddy is dereferenced by the code, hence `none`. -/
def mergeUp (size ptr : ℕ) (keep buddy : Mnode) (m : Numa) : Option FreeRes :=
  match buddy with
  | .null => none
  | .node true _ _ _ _ => some ⟨keep,false,m⟩
  | .node false _ _ _ _ => some ⟨.node false size ptr .null .null,true,m.release.release⟩

/-- `_ixmap_mem_free` on the node at a path; `none` is an access through a NULL pointer. -/
def ixmapMemFreeRec (m : Numa) : Mnode → Path → Option FreeRes
  | .null, _ => none
  | .node _ size ptr c₀ c₁, [] => some ⟨.node false size ptr c₀ c₁,true,m⟩
  | .node allocated size ptr c₀ c₁, false::p =>
    (ixmapMemFreeRec m c₀ p).bind fun r =>
    if r.up then mergeUp size ptr (.node allocated size ptr r.node c₁) c₁ r.numa
    else some ⟨.node allocated size ptr r.node c₁,false,r.numa⟩
  | .node allocated size ptr c₀ c₁, true::p =>
    (ixmapMemFreeRec m c₁ p).bind fun r =>
    if r.up then mergeUp size ptr (.node allocated size ptr c₀ r.node) c₀ r.numa
    else some ⟨.node allocated size ptr c₀ r.node,false,r.numa⟩

def Mnode.get : Mnode → Path → Mnode
  | t, [] => t
  | .null, _::_ => .null
  | .node _ _ _ c₀ _, false::p => c₀.get p
  | .node _ _ _ _ c₁, true::p => c₁.get p

def Mnode.ptr : Mnode → ℕ
  | .null => 0
  | .node _ _ ptr _ _ => ptr

def Mnode.size : Mnode → ℕ
  | .null => 0
  | .node _ size _ _ _ => size

def Mnode.allocated : Mnode → Bool
  | .null => false
  | .node a _ _ _ _ => a

/-- `struct ixmap_desc` with the header words that `ixmap_mem_alloc` stores in the pool. -/
structure IxmapDesc where
  node : Mnode
  header : ℕ → Path
  numa : Numa

def ixmapMemInit (ok : ℕ → Bool) (ptr size : ℕ) : IxmapDesc :=
  let r := ixmapMnodeAlloc ok ⟨0,0⟩ ptr size
  ⟨r.1,fun _ => [],r.2⟩

def ixmapMemAlloc (ok : ℕ → Bool) (fuel : ℕ) (d : IxmapDesc) (size : ℕ) :
    Option (Option ℕ × IxmapDesc) :=
  (ixmapMemAllocRec ok fuel d.numa d.node (request size)).map fun r =>
    match r.ret with
    | none => (none,⟨r.node,d.header,r.numa⟩)
    | some p =>
      let ptr := (r.node.get p).ptr
      (some (ptr+headerBytes),⟨r.node,Function.update d.header ptr p,r.numa⟩)

def ixmapMemFree (d : IxmapDesc) (addrFree : ℕ) : Option IxmapDesc :=
  (ixmapMemFreeRec d.numa d.node (d.header (addrFree-headerBytes))).map fun r =>
    ⟨r.node,d.header,r.numa⟩

/-- The tree shapes the allocator keeps: a leaf in either state, or a split node whose
flag is set because one of its halves is in use. -/
inductive Buddy : ℕ → ℕ → Mnode → Prop
  | leaf (a : Bool) (p s : ℕ) : Buddy p s (.node a s p .null .null)
  | split {p s : ℕ} {c₀ c₁ : Mnode} : Buddy p (s/2) c₀ → Buddy (p+s/2) (s/2) c₁ →
      (c₀.allocated = true ∨ c₁.allocated = true) → Buddy p s (.node true s p c₀ c₁)

def Mnode.Live (t : Mnode) (q : Path) : Prop :=
  ∃ s p, t.get q = .node true s p .null .null

/-- Address and size of the node at a path, as halving determines them. -/
def blockRange : ℕ → ℕ → Path → ℕ × ℕ
  | p, s, [] => (p,s)
  | p, s, false::q => blockRange p (s/2) q
  | p, s, true::q => blockRange (p+s/2) (s/2) q

@[simp] theorem get_null (q : Path) : Mnode.null.get q = .null := by
  cases q <;> rfl

@[simp] theorem not_live_null (q : Path) : ¬ Mnode.null.Live q := by
  simp [Mnode.Live]

@[simp] theorem live_nil (a : Bool) (s p : ℕ) (c₀ c₁ : Mnode) :
    (Mnode.node a s p c₀ c₁).Live [] ↔ a = true ∧ c₀ = .null ∧ c₁ = .null := by
  simp [Mnode.Live,Mnode.get]

@[simp] theorem live_false (a : Bool) (s p : ℕ) (c₀ c₁ : Mnode) (q : Path) :
    (Mnode.node a s p c₀ c₁).Live (false::q) ↔ c₀.Live q := by
  simp [Mnode.Live,Mnode.get]

@[simp] theorem live_true (a : Bool) (s p : ℕ) (c₀ c₁ : Mnode) (q : Path) :
    (Mnode.node a s p c₀ c₁).Live (true::q) ↔ c₁.Live q := by
  simp [Mnode.Live,Mnode.get]

theorem blockRange_within (p s : ℕ) (q : Path) :
    p ≤ (blockRange p s q).1 ∧ (blockRange p s q).1 + (blockRange p s q).2 ≤ p+s := by
  induction q generalizing p s with
  | nil => simp [blockRange]
  | cons b q ih =>
    cases b with
    | false =>
      have h := ih p (s/2)
      simp only [blockRange]
      omega
    | true =>
      have h := ih (p+s/2) (s/2)
      simp only [blockRange]
      omega

theorem Buddy.ne_null {p s : ℕ} {t : Mnode} (h : Buddy p s t) : t ≠ .null := by
  cases h <;> simp

/-- Halving determines where every node of a well-formed tree lies. -/
theorem Buddy.get_range {p s : ℕ} {t : Mnode} (h : Buddy p s t) (q : Path) {a : Bool}
    {sz pt : ℕ} {c₀ c₁ : Mnode} (hq : t.get q = .node a sz pt c₀ c₁) :
    (pt,sz) = blockRange p s q := by
  induction h generalizing q with
  | leaf a' p s =>
    cases q with
    | nil => simp_all [Mnode.get,blockRange]
    | cons b q => cases b <;> simp [Mnode.get] at hq
  | split h₀ h₁ hor ih₀ ih₁ =>
    cases q with
    | nil => simp_all [Mnode.get,blockRange]
    | cons b q =>
      cases b with
      | false => exact ih₀ q (by simpa [Mnode.get] using hq)
      | true => exact ih₁ q (by simpa [Mnode.get] using hq)

theorem Buddy.get_buddy {p s : ℕ} {t : Mnode} (h : Buddy p s t) (q : Path)
    (hq : t.get q ≠ .null) : Buddy (blockRange p s q).1 (blockRange p s q).2 (t.get q) := by
  induction h generalizing q with
  | leaf a' p s =>
    cases q with
    | nil => exact Buddy.leaf a' p s
    | cons b q => cases b <;> simp [Mnode.get] at hq
  | split h₀ h₁ hor ih₀ ih₁ =>
    cases q with
    | nil => exact Buddy.split h₀ h₁ hor
    | cons b q =>
      cases b with
      | false => exact ih₀ q (by simpa [Mnode.get] using hq)
      | true => exact ih₁ q (by simpa [Mnode.get] using hq)

/-- Distinct leaves in use never share a byte. -/
theorem Buddy.live_disjoint {p s : ℕ} {t : Mnode} (h : Buddy p s t) {q r : Path}
    (hq : t.Live q) (hr : t.Live r) (hne : q ≠ r) :
    (blockRange p s q).1 + (blockRange p s q).2 ≤ (blockRange p s r).1 ∨
      (blockRange p s r).1 + (blockRange p s r).2 ≤ (blockRange p s q).1 := by
  induction h generalizing q r with
  | leaf a p s =>
    cases q with
    | nil =>
      cases r with
      | nil => exact absurd rfl hne
      | cons b r => cases b <;> simp at hr
    | cons b q => cases b <;> simp at hq
  | @split p s c₀ c₁ h₀ h₁ hor ih₀ ih₁ =>
    have hnil : ∀ x : Path, (Mnode.node true s p c₀ c₁).Live x → x ≠ [] := by
      intro x hx he
      subst he
      exact h₀.ne_null ((live_nil _ _ _ _ _).mp hx).2.1
    cases q with
    | nil => exact absurd rfl (hnil [] hq)
    | cons b q =>
      cases r with
      | nil => exact absurd rfl (hnil [] hr)
      | cons b' r =>
        have lo := fun x => blockRange_within p (s/2) x
        have hi := fun x => blockRange_within (p+s/2) (s/2) x
        cases b <;> cases b' <;> simp only [blockRange,live_false,live_true] at hq hr ⊢
        · exact ih₀ hq hr (by simpa using hne)
        · have h1 := lo q; have h2 := hi r; omega
        · have h1 := hi q; have h2 := lo r; omega
        · exact ih₁ hq hr (by simpa using hne)

theorem Buddy.eq_leaf {p s : ℕ} {t : Mnode} (h : Buddy p s t) (ha : t.allocated = false) :
    t = .node false s p .null .null := by
  cases h with
  | leaf a => simp_all [Mnode.allocated]
  | split => simp [Mnode.allocated] at ha

/-- A set flag is always accounted for by some leaf in use. -/
theorem Buddy.exists_live {p s : ℕ} {t : Mnode} (h : Buddy p s t) (ha : t.allocated = true) :
    ∃ q, t.Live q := by
  induction h with
  | leaf a p s => exact ⟨[],by simpa [Mnode.allocated] using ha⟩
  | split h₀ h₁ hor ih₀ ih₁ =>
    rcases hor with h | h
    · obtain ⟨q,hq⟩ := ih₀ h
      exact ⟨false::q,by simpa using hq⟩
    · obtain ⟨q,hq⟩ := ih₁ h
      exact ⟨true::q,by simpa using hq⟩

theorem split_ok {ok : ℕ → Bool} (hok : ∀ k, ok k = true) (m : Numa) (p half : ℕ) (c : Mnode) :
    split ok m p half c = ⟨.node false half p .null .null,.node false half (p+half) .null .null,
      ⟨m.calls+2,m.live+2⟩,false⟩ := by
  simp [split,ixmapMnodeAlloc,hok]

def Mnode.Free (t : Mnode) (q : Path) : Prop :=
  ∃ s p, t.get q = .node false s p .null .null

@[simp] theorem not_free_null (q : Path) : ¬ Mnode.null.Free q := by
  simp [Mnode.Free]

@[simp] theorem free_nil (a : Bool) (s p : ℕ) (c₀ c₁ : Mnode) :
    (Mnode.node a s p c₀ c₁).Free [] ↔ a = false ∧ c₀ = .null ∧ c₁ = .null := by
  simp [Mnode.Free,Mnode.get]

@[simp] theorem free_false (a : Bool) (s p : ℕ) (c₀ c₁ : Mnode) (q : Path) :
    (Mnode.node a s p c₀ c₁).Free (false::q) ↔ c₀.Free q := by
  simp [Mnode.Free,Mnode.get]

@[simp] theorem free_true (a : Bool) (s p : ℕ) (c₀ c₁ : Mnode) (q : Path) :
    (Mnode.node a s p c₀ c₁).Free (true::q) ↔ c₁.Free q := by
  simp [Mnode.Free,Mnode.get]

/-- One request was served: the tree `t` became `t'`, whose only new leaf in use is `q`. -/
structure Fresh (p s : ℕ) (t t' : Mnode) (size : ℕ) (q : Path) : Prop where
  buddy : Buddy p s t'
  new : ¬ t.Live q
  fits : size ≤ (blockRange p s q).2
  used : t'.allocated = true
  live : ∀ x, t'.Live x ↔ t.Live x ∨ x = q

theorem Fresh.first {p s size : ℕ} {a : Bool} {c₀ c₁ d : Mnode} {q : Path}
    (h : Fresh p (s/2) c₀ d size q) (h₁ : Buddy (p+s/2) (s/2) c₁) (h₀ : c₀ ≠ .null) :
    Fresh p s (.node a s p c₀ c₁) (.node true s p d c₁) size (false::q) := by
  refine ⟨Buddy.split h.buddy h₁ (Or.inl h.used),by simpa using h.new,
    by simpa [blockRange] using h.fits,rfl,?_⟩
  rintro (_ | ⟨_ | _,x⟩)
  · simp [h.buddy.ne_null,h₀]
  · simp [h.live]
  · simp

theorem Fresh.second {p s size : ℕ} {a : Bool} {c₀ c₁ d : Mnode} {q : Path}
    (h : Fresh (p+s/2) (s/2) c₁ d size q) (h₀ : Buddy p (s/2) c₀) :
    Fresh p s (.node a s p c₀ c₁) (.node true s p c₀ d) size (true::q) := by
  refine ⟨Buddy.split h₀ h.buddy (Or.inr h.used),by simpa using h.new,
    by simpa [blockRange] using h.fits,rfl,?_⟩
  rintro (_ | ⟨_ | _,x⟩)
  · simp [h₀.ne_null]
  · simp
  · simp [h.live]

theorem Fresh.ptr {p s size : ℕ} {t t' : Mnode} {q : Path} (h : Fresh p s t t' size q) :
    (t'.get q).ptr = (blockRange p s q).1 := by
  obtain ⟨sz,pt,hg⟩ := (h.live q).mpr (Or.inr rfl)
  have hr := h.buddy.get_range q hg
  rw [hg]
  simpa [Mnode.ptr] using congrArg Prod.fst hr

/-- What `_ixmap_mem_alloc` does to a well-formed tree: nothing when it returns NULL,
and then no free leaf was large enough; else exactly one new leaf in use. -/
structure AllocSpec (p s : ℕ) (t : Mnode) (size : ℕ) (r : AllocRes) : Prop where
  buddy : Buddy p s r.node
  failed : r.ret = none → r.node = t ∧ ∀ q, t.Free q → (blockRange p s q).2 < size
  fresh : ∀ q, r.ret = some q → ¬ t.Live q ∧ size ≤ (blockRange p s q).2 ∧
    r.node.allocated = true ∧ ∀ x, r.node.Live x ↔ t.Live x ∨ x = q

theorem AllocSpec.served {p s size : ℕ} {t : Mnode} {r : AllocRes} {q : Path}
    (h : AllocSpec p s t size r) (hq : r.ret = some q) : Fresh p s t r.node size q := by
  obtain ⟨hn,hs,ha,hl⟩ := h.fresh q hq
  exact ⟨h.buddy,hn,hs,ha,hl⟩

theorem Fresh.spec {p s size : ℕ} {t t' : Mnode} {q : Path} (h : Fresh p s t t' size q) (m : Numa) :
    AllocSpec p s t size ⟨some q,t',m⟩ := by
  refine ⟨h.buddy,by simp,?_⟩
  rintro q' hq'
  obtain rfl : q = q' := by simpa using hq'
  exact ⟨h.new,h.fits,h.used,h.live⟩

theorem AllocSpec.first {p s size : ℕ} {a : Bool} {c₀ c₁ : Mnode} {r : AllocRes} {q : Path}
    (h : AllocSpec p (s/2) c₀ size r) (h₁ : Buddy (p+s/2) (s/2) c₁) (hq : r.ret = some q)
    (h₀ : c₀ ≠ .null) :
    AllocSpec p s (.node a s p c₀ c₁) size ⟨some (false::q),.node true s p r.node c₁,r.numa⟩ :=
  ((h.served hq).first h₁ h₀).spec r.numa

theorem AllocSpec.second {p s size : ℕ} {a : Bool} {c₀ c₁ : Mnode} {r₀ r : AllocRes} {q : Path}
    (h : AllocSpec (p+s/2) (s/2) c₁ size r) (h₀ : Buddy p (s/2) c₀) (hr₀ : r₀.node = c₀)
    (hq : r.ret = some q) :
    AllocSpec p s (.node a s p c₀ c₁) size ⟨some (true::q),.node true s p r₀.node r.node,r.numa⟩ := by
  subst hr₀
  exact ((h.served hq).second h₀).spec r.numa

theorem allocRec_small {ok : ℕ → Bool} {size : ℕ} (fuel : ℕ) {p s : ℕ} {t : Mnode} (m : Numa)
    (h : Buddy p s t) (hlt : s/2 < size) :
    ∃ r, ixmapMemAllocRec ok (fuel+1) m t size = some r ∧ AllocSpec p s t size r := by
  cases h with
  | leaf a =>
    by_cases hfit : a = false ∧ size ≤ s
    · obtain ⟨rfl,hle⟩ := hfit
      refine ⟨⟨some [],.node true s p .null .null,m⟩,?_,Buddy.leaf true p s,by simp,?_⟩
      · simp [ixmapMemAllocRec,hlt,hle]
      · rintro q hq
        obtain rfl : [] = q := by simpa using hq
        refine ⟨by simp,hle,rfl,?_⟩
        intro x
        rcases x with _ | ⟨_ | _,x⟩ <;> simp
    · refine ⟨⟨none,.node a s p .null .null,m⟩,?_,Buddy.leaf a p s,?_,by simp⟩
      · simp only [ixmapMemAllocRec,hlt,hfit,if_true,if_false]
      · intro _
        refine ⟨rfl,?_⟩
        intro q hq
        rcases q with _ | ⟨_ | _,q⟩
        · simp only [free_nil,and_true] at hq
          simp only [blockRange]
          by_contra hc
          exact hfit ⟨hq,by omega⟩
        · simp at hq
        · simp at hq
  | @split _ _ c₀ c₁ h₀ h₁ hor =>
    refine ⟨⟨none,.node true s p c₀ c₁,m⟩,?_,Buddy.split h₀ h₁ hor,?_,by simp⟩
    · simp [ixmapMemAllocRec,hlt]
    · intro _
      refine ⟨rfl,?_⟩
      intro q hq
      rcases q with _ | ⟨_ | _,q⟩
      · simp at hq
      · have := blockRange_within p (s/2) q
        simp only [blockRange]
        omega
      · have := blockRange_within (p+s/2) (s/2) q
        simp only [blockRange]
        omega

theorem not_live_leaf (s p : ℕ) (q : Path) : ¬ (Mnode.node false s p .null .null).Live q := by
  rcases q with _ | ⟨_ | _,q⟩ <;> simp

theorem not_live_halves (a : Bool) (s p s' p' s'' p'' : ℕ) (q : Path) :
    ¬ (Mnode.node a s p (.node false s' p' .null .null) (.node false s'' p'' .null .null)).Live q := by
  rcases q with _ | ⟨_ | _,q⟩
  · simp
  · simpa using not_live_leaf s' p' q
  · simpa using not_live_leaf s'' p'' q

theorem AllocSpec.neither {p s size : ℕ} {c₀ c₁ : Mnode} {r₀ r₁ : AllocRes}
    (spec₀ : AllocSpec p (s/2) c₀ size r₀) (spec₁ : AllocSpec (p+s/2) (s/2) c₁ size r₁)
    (h : Buddy p s (.node true s p c₀ c₁)) (hq₀ : r₀.ret = none) (hq₁ : r₁.ret = none) :
    AllocSpec p s (.node true s p c₀ c₁) size ⟨none,.node true s p r₀.node r₁.node,r₁.numa⟩ := by
  obtain ⟨he₀,hf₀⟩ := spec₀.failed hq₀
  obtain ⟨he₁,hf₁⟩ := spec₁.failed hq₁
  rw [he₀,he₁]
  refine ⟨h,fun _ => ⟨rfl,?_⟩,by simp⟩
  rintro (_ | ⟨_ | _,q⟩) hq
  · simp at hq
  · exact hf₀ q (by simpa using hq)
  · exact hf₁ q (by simpa using hq)

/-- Success in a half of a free leaf, which has no leaf in use, split or not. -/
theorem AllocSpec.of_cut {p s size : ℕ} {r : AllocRes} {q : Path} {a : Bool}
    (h : AllocSpec p s (.node a s p (.node false (s/2) p .null .null) (.node false (s/2) (p+s/2) .null .null))
      size r) (hq : r.ret = some q) : AllocSpec p s (.node false s p .null .null) size r := by
  refine ⟨h.buddy,by simp [hq],?_⟩
  intro x hx
  obtain ⟨-,hle,hal,hl⟩ := h.fresh x hx
  refine ⟨not_live_leaf s p x,hle,hal,?_⟩
  intro y
  rw [hl y]
  simp [not_live_halves,not_live_leaf]

/-- Every call on a well-formed tree returns within as many levels as the size has bits. -/
theorem allocRec_spec {ok : ℕ → Bool} (hok : ∀ k, ok k = true) {size : ℕ} (hsize : 0 < size)
    (fuel : ℕ) (p s : ℕ) (t : Mnode) (m : Numa) (h : Buddy p s t) (hs : s < 2^fuel) :
    ∃ r, ixmapMemAllocRec ok (fuel+1) m t size = some r ∧ AllocSpec p s t size r := by
  induction fuel generalizing p s t m with
  | zero =>
    have hs0 : s = 0 := by simpa using hs
    exact allocRec_small 0 m h (by omega)
  | succ fuel ih =>
    by_cases hlt : s/2 < size
    · exact allocRec_small (fuel+1) m h hlt
    have hhalf : s/2 < 2^fuel := by
      have : 2^(fuel+1) = 2^fuel*2 := pow_succ 2 fuel
      omega
    cases h with
    | leaf a =>
      cases a with
      | true =>
        have hnull : ∀ m, ixmapMemAllocRec ok (fuel+1) m .null size = some ⟨none,.null,m⟩ :=
          fun m => rfl
        refine ⟨⟨none,.node true s p .null .null,m⟩,?_,Buddy.leaf true p s,?_,by simp⟩
        · rw [ixmapMemAllocRec]
          simp [hlt,hnull]
        · intro _
          refine ⟨rfl,?_⟩
          rintro (_ | ⟨_ | _,q⟩) hq <;> simp at hq
      | false =>
        obtain ⟨r₀,hr₀,spec₀⟩ := ih p (s/2) _ ⟨m.calls+2,m.live+2⟩
          (Buddy.leaf false p (s/2)) hhalf
        have hret : r₀.ret ≠ none := by
          intro hn
          have := (spec₀.failed hn).2 [] (by simp)
          simp only [blockRange] at this
          omega
        obtain ⟨q,hq⟩ := Option.ne_none_iff_exists'.mp hret
        refine ⟨⟨some (false::q),.node true s p r₀.node (.node false (s/2) (p+s/2) .null .null),
          r₀.numa⟩,?_,?_⟩
        · rw [ixmapMemAllocRec]
          simp [hlt,split_ok hok,hr₀,hq]
        · have hsp := spec₀.first (a:=false) (Buddy.leaf false (p+s/2) (s/2)) hq (by simp)
          exact hsp.of_cut rfl
    | @split _ _ c₀ c₁ h₀ h₁ hor =>
      obtain ⟨r₀,hr₀,spec₀⟩ := ih p (s/2) c₀ m h₀ hhalf
      cases hq₀ : r₀.ret with
      | some q =>
        refine ⟨⟨some (false::q),.node true s p r₀.node c₁,r₀.numa⟩,?_,?_⟩
        · rw [ixmapMemAllocRec]
          simp [hlt,hr₀,hq₀]
        · exact spec₀.first h₁ hq₀ h₀.ne_null
      | none =>
        obtain ⟨r₁,hr₁,spec₁⟩ := ih (p+s/2) (s/2) c₁ r₀.numa h₁ hhalf
        cases hq₁ : r₁.ret with
        | some q =>
          refine ⟨⟨some (true::q),.node true s p r₀.node r₁.node,r₁.numa⟩,?_,?_⟩
          · rw [ixmapMemAllocRec]
            simp [hlt,hr₀,hq₀,hr₁,hq₁]
          · exact spec₁.second h₀ (spec₀.failed hq₀).1 hq₁
        | none =>
          refine ⟨⟨none,.node true s p r₀.node r₁.node,r₁.numa⟩,?_,?_⟩
          · rw [ixmapMemAllocRec]
            simp [hlt,hr₀,hq₀,hr₁,hq₁]
          · exact spec₀.neither spec₁ (Buddy.split h₀ h₁ hor) hq₀ hq₁

/-- What `_ixmap_mem_free` of a leaf in use does to a well-formed tree: that leaf is no
longer in use, nothing else changes hands, and a call that reached the top of the subtree
has merged all of it. -/
structure FreeSpec (p s : ℕ) (t : Mnode) (q : Path) (r : FreeRes) : Prop where
  buddy : Buddy p s r.node
  merged : r.up = true → r.node = .node false s p .null .null
  kept : r.up = false → r.node.allocated = true
  live : ∀ x, r.node.Live x ↔ t.Live x ∧ x ≠ q

/-- One level of the upward merge, for either half: `keep` is the parent with the freed
child put back and `b` the buddy the code looks at. -/
theorem mergeUp_spec {p s pb : ℕ} {t keep b : Mnode} {q : Path} {m : Numa} (hb : Buddy pb (s/2) b)
    (hlive : ∀ x, keep.Live x ↔ t.Live x ∧ x ≠ q) (hka : keep.allocated = true)
    (hkb : b.allocated = true → Buddy p s keep) (hno : b.allocated = false → ∀ x, ¬ keep.Live x) :
    ∃ r, mergeUp s p keep b m = some r ∧ FreeSpec p s t q r := by
  cases ha : b.allocated with
  | true =>
    refine ⟨⟨keep,false,m⟩,?_,hkb ha,by simp,fun _ => hka,hlive⟩
    cases hb <;> simp_all [Mnode.allocated,mergeUp]
  | false =>
    rw [hb.eq_leaf ha]
    refine ⟨_,rfl,Buddy.leaf false p s,fun _ => rfl,by simp,?_⟩
    intro x
    rw [← hlive x]
    exact ⟨fun hx => absurd hx (not_live_leaf s p x),fun hx => absurd hx (hno ha x)⟩

/-- Freeing a leaf in use never follows a NULL pointer. -/
theorem freeRec_spec {p s : ℕ} {t : Mnode} (h : Buddy p s t) (m : Numa) (q : Path)
    (hq : t.Live q) : ∃ r, ixmapMemFreeRec m t q = some r ∧ FreeSpec p s t q r := by
  induction h generalizing q with
  | leaf a p s =>
    rcases q with _ | ⟨_ | _,q⟩
    · refine ⟨_,rfl,Buddy.leaf false p s,fun _ => rfl,by simp,?_⟩
      rintro (_ | ⟨_ | _,x⟩) <;> simp
    · simp at hq
    · simp at hq
  | @split p s c₀ c₁ h₀ h₁ hor ih₀ ih₁ =>
    rcases q with _ | ⟨_ | _,q⟩
    · exact absurd ((live_nil _ _ _ _ _).mp hq).2.1 h₀.ne_null
    · obtain ⟨r,hr,hs⟩ := ih₀ q (by simpa using hq)
      have hlive : ∀ x, (Mnode.node true s p r.node c₁).Live x ↔
          (Mnode.node true s p c₀ c₁).Live x ∧ x ≠ false::q := by
        rintro (_ | ⟨_ | _,x⟩)
        · simp [h₁.ne_null]
        · simp [hs.live]
        · simp
      cases hup : r.up with
      | false =>
        exact ⟨⟨.node true s p r.node c₁,false,r.numa⟩,by simp [ixmapMemFreeRec,hr,hup],
          Buddy.split hs.buddy h₁ (Or.inl (hs.kept hup)),by simp,fun _ => rfl,hlive⟩
      | true =>
        obtain ⟨r',hr',hs'⟩ := mergeUp_spec (p:=p) (m:=r.numa) h₁ hlive rfl
          (fun ha => Buddy.split hs.buddy h₁ (Or.inr ha))
          (fun ha x => by
            rw [hs.merged hup,h₁.eq_leaf ha]
            exact not_live_halves _ _ _ _ _ _ _ x)
        exact ⟨r',by simp [ixmapMemFreeRec,hr,hup,hr'],hs'⟩
    · obtain ⟨r,hr,hs⟩ := ih₁ q (by simpa using hq)
      have hlive : ∀ x, (Mnode.node true s p c₀ r.node).Live x ↔
          (Mnode.node true s p c₀ c₁).Live x ∧ x ≠ true::q := by
        rintro (_ | ⟨_ | _,x⟩)
        · simp [h₀.ne_null]
        · simp
        · simp [hs.live]
      cases hup : r.up with
      | false =>
        exact ⟨⟨.node true s p c₀ r.node,false,r.numa⟩,by simp [ixmapMemFreeRec,hr,hup],
          Buddy.split h₀ hs.buddy (Or.inr (hs.kept hup)),by simp,fun _ => rfl,hlive⟩
      | true =>
        obtain ⟨r',hr',hs'⟩ := mergeUp_spec (p:=p) (m:=r.numa) h₀ hlive rfl
          (fun ha => Buddy.split h₀ hs.buddy (Or.inl ha))
          (fun ha x => by
            rw [hs.merged hup,h₀.eq_leaf ha]
            exact not_live_halves _ _ _ _ _ _ _ x)
        exact ⟨r',by simp [ixmapMemFreeRec,hr,hup,hr'],hs'⟩

/-- The allocator together with the blocks its clients hold: returned address and the size
that was asked for. -/
structure MemState where
  desc : IxmapDesc
  live : List (ℕ × ℕ)

/-- The node that the header word in front of a block points to. -/
def IxmapDesc.nodeOf (d : IxmapDesc) (addr : ℕ) : Mnode :=
  d.node.get (d.header (addr-headerBytes))

/-- Sizes whose padded request still fits an `unsigned int`. -/
def SizeOk (size : ℕ) : Prop := (size+63)/64*64+headerBytes ≤ 2^32-1

/-- States reached by any interleaving of allocations and of frees of live blocks. -/
inductive MemReach (ok : ℕ → Bool) (fuel ptr size : ℕ) : MemState → Prop
  | init : MemReach ok fuel ptr size ⟨ixmapMemInit ok ptr size,[]⟩
  | null {s : MemState} {n : ℕ} {d : IxmapDesc} : MemReach ok fuel ptr size s → SizeOk n →
      ixmapMemAlloc ok fuel s.desc n = some (none,d) → MemReach ok fuel ptr size ⟨d,s.live⟩
  | alloc {s : MemState} {n a : ℕ} {d : IxmapDesc} : MemReach ok fuel ptr size s → SizeOk n →
      ixmapMemAlloc ok fuel s.desc n = some (some a,d) →
      MemReach ok fuel ptr size ⟨d,(a,n)::s.live⟩
  | free {s : MemState} {b : ℕ × ℕ} {d : IxmapDesc} : MemReach ok fuel ptr size s → b ∈ s.live →
      ixmapMemFree s.desc b.1 = some d → MemReach ok fuel ptr size ⟨d,s.live.erase b⟩

theorem request_eq {n : ℕ} (h : SizeOk n) : request n = (n+63)/64*64+headerBytes := by
  unfold SizeOk headerBytes at *
  unfold request align headerBytes
  omega

/-- The state invariant: the tree is well formed and its leaves in use are exactly the
nodes that the headers of the live blocks point to. -/
structure MemInv (ptr size : ℕ) (s : MemState) : Prop where
  buddy : Buddy ptr size s.desc.node
  nodup : (s.live.map Prod.fst).Nodup
  block : ∀ b ∈ s.live, s.desc.node.Live (s.desc.header (b.1-headerBytes)) ∧
    b.1 = (blockRange ptr size (s.desc.header (b.1-headerBytes))).1+headerBytes ∧
    headerBytes+b.2 ≤ (blockRange ptr size (s.desc.header (b.1-headerBytes))).2
  owned : ∀ q, s.desc.node.Live q → ∃ b ∈ s.live, s.desc.header (b.1-headerBytes) = q

theorem memInit_inv {ok : ℕ → Bool} (hok : ∀ k, ok k = true) (ptr size : ℕ) :
    MemInv ptr size ⟨ixmapMemInit ok ptr size,[]⟩ := by
  have hn : (ixmapMemInit ok ptr size).node = .node false size ptr .null .null := by
    simp [ixmapMemInit,ixmapMnodeAlloc,hok]
  refine ⟨?_,by simp,by simp,?_⟩
  · rw [hn]
    exact Buddy.leaf false ptr size
  · intro q hq
    rw [hn] at hq
    exact absurd hq (not_live_leaf _ _ _)

theorem memAlloc_spec {ok : ℕ → Bool} (hok : ∀ k, ok k = true) {fuel ptr size : ℕ}
    (hsize : size < 2^32) (hfuel : 33 ≤ fuel) {d : IxmapDesc} (hd : Buddy ptr size d.node)
    {n : ℕ} (hn : SizeOk n) :
    ∃ r, ixmapMemAllocRec ok fuel d.numa d.node (request n) = some r ∧
      AllocSpec ptr size d.node (request n) r := by
  obtain ⟨f,rfl⟩ : ∃ f, fuel = f+1 := ⟨fuel-1,by omega⟩
  have hpow : 2^32 ≤ 2^f := Nat.pow_le_pow_right (by omega) (by omega)
  have hpos : 0 < request n := by
    rw [request_eq hn]
    unfold headerBytes
    omega
  exact allocRec_spec hok hpos f ptr size d.node d.numa hd (by omega)

theorem MemInv.grow {ptr size : ℕ} {s : MemState} (hs : MemInv ptr size s) {t : Mnode} {q : Path}
    {k n : ℕ} (h : Fresh ptr size s.desc.node t k q) (hfit : headerBytes+n ≤ (blockRange ptr size q).2)
    (m : Numa) : MemInv ptr size ⟨⟨t,Function.update s.desc.header (blockRange ptr size q).1 q,m⟩,
      ((blockRange ptr size q).1+headerBytes,n)::s.live⟩ := by
  -- the fresh block starts where no live block starts, since both are non-empty
  have hne : ∀ b ∈ s.live, b.1-headerBytes ≠ (blockRange ptr size q).1 := by
    intro b hb he
    obtain ⟨hbl,hba,hbs⟩ := hs.block b hb
    have hneq : s.desc.header (b.1-headerBytes) ≠ q := fun hx => h.new (hx ▸ hbl)
    have hdis := h.buddy.live_disjoint ((h.live _).mpr (Or.inl hbl)) ((h.live q).mpr (Or.inr rfl)) hneq
    unfold headerBytes at *
    omega
  refine ⟨h.buddy,?_,?_,?_⟩
  · simp only [List.map_cons,List.nodup_cons]
    refine ⟨?_,hs.nodup⟩
    intro hmem
    obtain ⟨b,hb,hba⟩ := List.mem_map.mp hmem
    exact hne b hb (by omega)
  · intro b hb
    rcases List.mem_cons.mp hb with rfl | hb
    · simp only [Nat.add_sub_cancel,Function.update_self]
      exact ⟨(h.live q).mpr (Or.inr rfl),trivial,hfit⟩
    · have hup := Function.update_of_ne (hne b hb) q s.desc.header
      simp only [hup]
      obtain ⟨hbl,hba,hbs⟩ := hs.block b hb
      exact ⟨(h.live _).mpr (Or.inl hbl),hba,hbs⟩
  · intro x hx
    rcases (h.live x).mp hx with hx | rfl
    · obtain ⟨b,hb,hbx⟩ := hs.owned x hx
      refine ⟨b,List.mem_cons_of_mem _ hb,?_⟩
      simpa only [Function.update_of_ne (hne b hb)] using hbx
    · exact ⟨((blockRange ptr size x).1+headerBytes,n),by simp,by simp⟩

theorem memAlloc_inv {ok : ℕ → Bool} (hok : ∀ k, ok k = true) {fuel ptr size : ℕ}
    (hsize : size < 2^32) (hfuel : 33 ≤ fuel) {s : MemState} (hs : MemInv ptr size s) {n : ℕ}
    (hn : SizeOk n) {a : ℕ} {d : IxmapDesc}
    (h : ixmapMemAlloc ok fuel s.desc n = some (some a,d)) :
    MemInv ptr size ⟨d,(a,n)::s.live⟩ := by
  obtain ⟨r,hr,spec⟩ := memAlloc_spec hok hsize hfuel hs.buddy hn
  cases hq : r.ret with
  | none => simp [ixmapMemAlloc,hr,hq] at h
  | some q =>
    have hserved := spec.served hq
    simp only [ixmapMemAlloc,hr,Option.map_some,hq,Option.some.injEq,Prod.mk.injEq,hserved.ptr] at h
    obtain ⟨rfl,rfl⟩ := h
    have hfit := hserved.fits
    rw [request_eq hn] at hfit
    exact hs.grow hserved (by unfold headerBytes at *; omega) r.numa

theorem memNull_inv {ok : ℕ → Bool} (hok : ∀ k, ok k = true) {fuel ptr size : ℕ}
    (hsize : size < 2^32) (hfuel : 33 ≤ fuel) {s : MemState} (hs : MemInv ptr size s) {n : ℕ}
    (hn : SizeOk n) {d : IxmapDesc} (h : ixmapMemAlloc ok fuel s.desc n = some (none,d)) :
    MemInv ptr size ⟨d,s.live⟩ := by
  obtain ⟨r,hr,spec⟩ := memAlloc_spec hok hsize hfuel hs.buddy hn
  cases hq : r.ret with
  | none =>
    simp only [ixmapMemAlloc,hr,Option.map_some,hq,Option.some.injEq,Prod.mk.injEq,true_and] at h
    subst h
    have he := (spec.failed hq).1
    exact ⟨by simpa [he] using hs.buddy,hs.nodup,by simpa [he] using hs.block,
      by simpa [he] using hs.owned⟩
  | some q => simp [ixmapMemAlloc,hr,hq] at h

theorem memFree_inv {ptr size : ℕ} {s : MemState} (hs : MemInv ptr size s) {b : ℕ × ℕ}
    (hb : b ∈ s.live) {d : IxmapDesc} (h : ixmapMemFree s.desc b.1 = some d) :
    MemInv ptr size ⟨d,s.live.erase b⟩ := by
  obtain ⟨hbl,hba,-⟩ := hs.block b hb
  obtain ⟨r,hr,spec⟩ := freeRec_spec hs.buddy s.desc.numa _ hbl
  simp only [ixmapMemFree,hr,Option.map_some,Option.some.injEq] at h
  subst h
  have hnd : s.live.Nodup := hs.nodup.of_map
  refine ⟨spec.buddy,?_,?_,?_⟩
  · exact hs.nodup.sublist ((List.erase_sublist).map _)
  · intro c hc
    obtain ⟨hcb,hc⟩ := (List.Nodup.mem_erase_iff hnd).mp hc
    obtain ⟨hcl,hca,hcs⟩ := hs.block c hc
    refine ⟨(spec.live _).mpr ⟨hcl,?_⟩,hca,hcs⟩
    intro he
    have hfst : c.1 = b.1 := by rw [hca,hba,he]
    exact hcb (List.inj_on_of_nodup_map hs.nodup hc hb hfst)
  · intro q hq
    obtain ⟨hq,hne⟩ := (spec.live q).mp hq
    obtain ⟨c,hc,hcq⟩ := hs.owned q hq
    refine ⟨c,(List.Nodup.mem_erase_iff hnd).mpr ⟨?_,hc⟩,hcq⟩
    rintro rfl
    exact hne hcq.symm

theorem memReach_inv {ok : ℕ → Bool} (hok : ∀ k, ok k = true) {fuel ptr size : ℕ}
    (hsize : size < 2^32) (hfuel : 33 ≤ fuel) {s : MemState} (h : MemReach ok fuel ptr size s) :
    MemInv ptr size s := by
  induction h with
  | init => exact memInit_inv hok ptr size
  | null _ hn h ih => exact memNull_inv hok hsize hfuel ih hn h
  | alloc _ hn h ih => exact memAlloc_inv hok hsize hfuel ih hn h
  | free _ hb h ih => exact memFree_inv ih hb h

/-- Both children are there and are the halves of the node. -/
def Halved (size ptr : ℕ) (c₀ c₁ : Mnode) : Prop :=
  c₀ ≠ .null ∧ c₁ ≠ .null ∧ c₀.size = size/2 ∧ c₁.size = size/2 ∧
    c₀.ptr = ptr ∧ c₁.ptr = ptr+size/2

theorem Buddy.size_ptr {p s : ℕ} {t : Mnode} (h : Buddy p s t) : t.size = s ∧ t.ptr = p := by
  cases h <;> exact ⟨rfl,rfl⟩

theorem get_append (t : Mnode) (q x : Path) : t.get (q++x) = (t.get q).get x := by
  induction q generalizing t with
  | nil => simp [Mnode.get]
  | cons b q ih => cases t <;> cases b <;> simp [Mnode.get,ih]

theorem Buddy.node_flags {p s : ℕ} {t : Mnode} (h : Buddy p s t) (q : Path) {a : Bool}
    {sz pt : ℕ} {c₀ c₁ : Mnode} (hq : t.get q = .node a sz pt c₀ c₁) :
    ((c₀ ≠ .null ∨ c₁ ≠ .null) ↔ Halved sz pt c₀ c₁) ∧
    (a = false → c₀ = .null ∧ c₁ = .null) ∧
    ((c₀ ≠ .null ∨ c₁ ≠ .null) → a = true ∧ ∃ x, x ≠ [] ∧ t.Live (q++x)) := by
  have hb := h.get_buddy q (by simp [hq])
  rw [hq] at hb
  cases hb with
  | leaf a' => simp [Halved]
  | split h₀ h₁ hor =>
    refine ⟨⟨fun _ => ?_,fun hh => Or.inl hh.1⟩,by simp,fun _ => ⟨rfl,?_⟩⟩
    · exact ⟨h₀.ne_null,h₁.ne_null,h₀.size_ptr.1,h₁.size_ptr.1,h₀.size_ptr.2,h₁.size_ptr.2⟩
    · rcases hor with ha | ha
      · obtain ⟨x,hx⟩ := h₀.exists_live ha
        refine ⟨false::x,by simp,?_⟩
        simpa [Mnode.Live,get_append,hq,Mnode.get] using hx
      · obtain ⟨x,hx⟩ := h₁.exists_live ha
        refine ⟨true::x,by simp,?_⟩
        simpa [Mnode.Live,get_append,hq,Mnode.get] using hx

theorem MemInv.nodeOf_range {ptr size : ℕ} {s : MemState} (hs : MemInv ptr size s) {b : ℕ × ℕ}
    (hb : b ∈ s.live) :
    (s.desc.nodeOf b.1).ptr = (blockRange ptr size (s.desc.header (b.1-headerBytes))).1 ∧
      (s.desc.nodeOf b.1).size = (blockRange ptr size (s.desc.header (b.1-headerBytes))).2 := by
  obtain ⟨sz,pt,hg⟩ := (hs.block b hb).1
  have h := hs.buddy.get_range _ hg
  rw [IxmapDesc.nodeOf,hg,← h]
  exact ⟨rfl,rfl⟩

theorem MemInv.disjoint {ptr size : ℕ} {s : MemState} (hs : MemInv ptr size s) :
    s.live.Pairwise fun a b =>
      (s.desc.nodeOf a.1).ptr + (s.desc.nodeOf a.1).size ≤ (s.desc.nodeOf b.1).ptr ∨
      (s.desc.nodeOf b.1).ptr + (s.desc.nodeOf b.1).size ≤ (s.desc.nodeOf a.1).ptr := by
  have hp : s.live.Pairwise (fun a b => a.1 ≠ b.1) := List.pairwise_map.mp hs.nodup
  refine hp.imp_of_mem ?_
  intro a b ha hb hne
  obtain ⟨hal,haa,-⟩ := hs.block a ha
  obtain ⟨hbl,hba,-⟩ := hs.block b hb
  have hpath : s.desc.header (a.1-headerBytes) ≠ s.desc.header (b.1-headerBytes) := by
    intro he
    exact hne (by rw [haa,hba,he])
  have hd := hs.buddy.live_disjoint hal hbl hpath
  rw [(hs.nodeOf_range ha).1,(hs.nodeOf_range ha).2,(hs.nodeOf_range hb).1,(hs.nodeOf_range hb).2]
  exact hd

/-- Buddy allocator safety over every run: live blocks are disjoint, inside the region and
large enough, flags and children agree at every node, and no later call gets stuck. -/
theorem mem_run_safe {ok : ℕ → Bool} (hok : ∀ k, ok k = true) {fuel ptr size : ℕ}
    (hsize : size < 2^32) (hfuel : 33 ≤ fuel) {s : MemState} (h : MemReach ok fuel ptr size s) :
    (s.live.Pairwise fun a b =>
      (s.desc.nodeOf a.1).ptr + (s.desc.nodeOf a.1).size ≤ (s.desc.nodeOf b.1).ptr ∨
      (s.desc.nodeOf b.1).ptr + (s.desc.nodeOf b.1).size ≤ (s.desc.nodeOf a.1).ptr) ∧
    (∀ b ∈ s.live, ptr ≤ (s.desc.nodeOf b.1).ptr ∧
      (s.desc.nodeOf b.1).ptr + (s.desc.nodeOf b.1).size ≤ ptr+size ∧
      b.1 = (s.desc.nodeOf b.1).ptr + headerBytes ∧
      b.1 + b.2 ≤ (s.desc.nodeOf b.1).ptr + (s.desc.nodeOf b.1).size) ∧
    (∀ q a sz pt c₀ c₁, s.desc.node.get q = .node a sz pt c₀ c₁ →
      ((c₀ ≠ .null ∨ c₁ ≠ .null) ↔ Halved sz pt c₀ c₁) ∧
      (a = false → c₀ = .null ∧ c₁ = .null) ∧
      ((c₀ ≠ .null ∨ c₁ ≠ .null) → a = true ∧ ∃ x, x ≠ [] ∧ s.desc.node.Live (q++x))) ∧
    (∀ n, SizeOk n → (ixmapMemAlloc ok fuel s.desc n).isSome) ∧
    (∀ b ∈ s.live, (ixmapMemFree s.desc b.1).isSome) := by
  have hs := memReach_inv hok hsize hfuel h
  refine ⟨hs.disjoint,?_,fun q a sz pt c₀ c₁ hq => hs.buddy.node_flags q hq,?_,?_⟩
  · intro b hb
    obtain ⟨-,hba,hbs⟩ := hs.block b hb
    have hw := blockRange_within ptr size (s.desc.header (b.1-headerBytes))
    rw [(hs.nodeOf_range hb).1,(hs.nodeOf_range hb).2]
    omega
  · intro n hn
    obtain ⟨r,hr,-⟩ := memAlloc_spec hok hsize hfuel hs.buddy hn
    simp [ixmapMemAlloc,hr]
  · intro b hb
    obtain ⟨r,hr,-⟩ := freeRec_spec hs.buddy s.desc.numa _ (hs.block b hb).1
    simp [ixmapMemFree,hr]

/-- Two single bytes out of a 1000-byte region at 4096, of which the first is given back. -/
theorem mem_run_safe_two : ∃ d₁ d₂ d₃,
    ixmapMemAlloc (fun _ => true) 33 (ixmapMemInit (fun _ => true) 4096 1000) 1 = some (some 4160,d₁) ∧
      ixmapMemAlloc (fun _ => true) 33 d₁ 1 = some (some 4410,d₂) ∧ ixmapMemFree d₂ 4160 = some d₃ ∧
      ((d₂.nodeOf 4410).ptr + (d₂.nodeOf 4410).size ≤ (d₂.nodeOf 4160).ptr ∨
        (d₂.nodeOf 4160).ptr + (d₂.nodeOf 4160).size ≤ (d₂.nodeOf 4410).ptr) ∧
      4410+1 ≤ (d₃.nodeOf 4410).ptr + (d₃.nodeOf 4410).size ∧ (ixmapMemFree d₃ 4410).isSome := by
  refine ⟨_,_,_,rfl,rfl,rfl,?_⟩
  have hone : SizeOk 1 := (by decide : (1+63)/64*64+headerBytes ≤ 2^32-1)
  have hinit : MemReach (fun _ => true) 33 4096 1000 ⟨ixmapMemInit (fun _ => true) 4096 1000,[]⟩ := .init
  have htwo := (hinit.alloc hone rfl).alloc hone rfl
  have h₂ := mem_run_safe (fun _ => rfl) (by decide) (le_refl 33) htwo
  have h₃ := mem_run_safe (fun _ => rfl) (by decide) (le_refl 33) (htwo.free (b := (4160,1)) (by decide) rfl)
  refine ⟨?_,(h₃.2.1 (4410,1) (by decide)).2.2.2,h₃.2.2.2.2 (4410,1) (by decide)⟩
  exact (List.pairwise_cons.mp h₂.1).1 (4160,1) (by decide)

end Memory
end Ixmap
