import Ixmap.Memory

/-! Completeness of the buddy allocator: a request fails only when no free leaf is large enough, and
freeing everything gives the single root back. -/
namespace Ixmap
namespace Memory

theorem blockRange_size_le (p s : ℕ) (q x : Path) :
    (blockRange p s (q++x)).2 ≤ (blockRange p s q).2 := by
  induction q generalizing p s with
  | nil =>
    have h := blockRange_within p s x
    simp only [List.nil_append,blockRange]
    omega
  | cons b q ih => cases b <;> exact ih _ _

/-- A path that meets no leaf in use, above or below, ends in a free leaf. -/
theorem Buddy.free_above {p s : ℕ} {t : Mnode} (h : Buddy p s t) (q : Path)
    (hup : ∀ x, t.Live x → ¬ x <+: q) (hdown : ∀ x, t.Live x → ¬ q <+: x) :
    ∃ x, t.Free x ∧ x <+: q := by
  induction h generalizing q with
  | leaf a p s =>
    refine ⟨[],?_,List.nil_prefix⟩
    cases a with
    | false => simp
    | true => exact absurd List.nil_prefix (hup [] (by simp))
  | split h₀ h₁ hor ih₀ ih₁ =>
    rcases q with _ | ⟨_ | _,q⟩
    · -- a split node has a leaf in use below it
      obtain ⟨x,hx⟩ := (Buddy.split h₀ h₁ hor).exists_live rfl
      exact absurd List.nil_prefix (hdown x hx)
    · obtain ⟨x,hx,hxq⟩ := ih₀ q
        (fun x hx hp => hup (false::x) (by simpa using hx) (by simpa using hp))
        (fun x hx hp => hdown (false::x) (by simpa using hx) (by simpa using hp))
      exact ⟨false::x,by simpa using hx,by simpa using hxq⟩
    · obtain ⟨x,hx,hxq⟩ := ih₁ q
        (fun x hx hp => hup (true::x) (by simpa using hx) (by simpa using hp))
        (fun x hx hp => hdown (true::x) (by simpa using hx) (by simpa using hp))
      exact ⟨true::x,by simpa using hx,by simpa using hxq⟩

theorem Mnode.Live.eq_of_below {t : Mnode} {q x : Path} (hq : t.Live q) (hx : t.Live x) (hp : q <+: x) :
    q = x := by
  obtain ⟨y,rfl⟩ := hp
  obtain ⟨s,p,hg⟩ := hq
  obtain ⟨s',p',hg'⟩ := hx
  rw [get_append,hg] at hg'
  rcases y with _ | ⟨_ | _,y⟩
  · simp
  · simp [Mnode.get] at hg'
  · simp [Mnode.get] at hg'

theorem AllocSpec.free_leaf {p s size : ℕ} {t : Mnode} {r : AllocRes} {q : Path} (ht : Buddy p s t)
    (h : AllocSpec p s t size r) (hq : r.ret = some q) : ∃ x, t.Free x ∧ size ≤ (blockRange p s x).2 := by
  obtain ⟨hnew,hfit,-,hl⟩ := h.fresh q hq
  have hlive : r.node.Live q := (hl q).mpr (Or.inr rfl)
  have hold : ∀ x, t.Live x → r.node.Live x := fun x hx => (hl x).mpr (Or.inl hx)
  obtain ⟨x,hx,y,rfl⟩ := ht.free_above q
    (fun x hx hp => hnew ((hold x hx).eq_of_below hlive hp ▸ hx))
    (fun x hx hp => hnew ((hlive.eq_of_below (hold x hx) hp).symm ▸ hx))
  exact ⟨x,hx,hfit.trans (blockRange_size_le p s x y)⟩

theorem Buddy.eq_root {p s : ℕ} {t : Mnode} (h : Buddy p s t) (hno : ∀ q, ¬ t.Live q) :
    t = .node false s p .null .null := by
  apply h.eq_leaf
  by_contra ha
  obtain ⟨q,hq⟩ := h.exists_live (by simpa using ha)
  exact hno q hq

theorem Buddy.not_both_free {p s : ℕ} {t : Mnode} (h : Buddy p s t) (q : Path) {a : Bool} {sz pt : ℕ}
    {c₀ c₁ : Mnode} (hq : t.get q = .node a sz pt c₀ c₁) (h₀ : c₀ ≠ .null) (h₁ : c₁ ≠ .null) :
    c₀.allocated = true ∨ c₁.allocated = true := by
  have hb := h.get_buddy q (by simp [hq])
  rw [hq] at hb
  cases hb with
  | leaf => exact absurd rfl h₀
  | split _ _ hor => exact hor

/-- A request of `n` bytes finds no free leaf of the tree. -/
def NoRoom (t : Mnode) (n : ℕ) : Prop :=
  ∀ q sz pt, t.get q = .node false sz pt .null .null → sz < (n+63)/64*64+headerBytes

theorem memAlloc_null_iff {ok : ℕ → Bool} (hok : ∀ k, ok k = true) {fuel ptr size : ℕ}
    (hsize : size < 2^32) (hfuel : 33 ≤ fuel) {d : IxmapDesc} (hd : Buddy ptr size d.node) {n : ℕ}
    (hn : SizeOk n) : ∃ ret d', ixmapMemAlloc ok fuel d n = some (ret,d') ∧
      (ret = none ↔ NoRoom d.node n) ∧ (ret = none → d'.node = d.node) := by
  obtain ⟨r,hr,spec⟩ := memAlloc_spec hok hsize hfuel hd hn
  have hreq := request_eq hn
  cases hq : r.ret with
  | none =>
    obtain ⟨hsame,hfull⟩ := spec.failed hq
    refine ⟨none,⟨r.node,d.header,r.numa⟩,by simp [ixmapMemAlloc,hr,hq],?_,fun _ => hsame⟩
    refine iff_of_true rfl ?_
    intro q sz pt hg
    have hlt := hfull q ⟨sz,pt,hg⟩
    rwa [← hd.get_range q hg,hreq] at hlt
  | some q =>
    refine ⟨some ((r.node.get q).ptr+headerBytes),
      ⟨r.node,Function.update d.header (r.node.get q).ptr q,r.numa⟩,
      by simp only [ixmapMemAlloc,hr,hq,Option.map_some],iff_of_false (by simp) ?_,by simp⟩
    intro hno
    obtain ⟨x,⟨sz,pt,hg⟩,hfit⟩ := spec.free_leaf hd hq
    have hlt := hno x sz pt hg
    rw [← hd.get_range x hg,hreq] at hfit
    exact absurd hlt (not_lt.mpr hfit)

/-- Completeness over every run: a request fails exactly when no free leaf is large enough, siblings
are never both free, and once every block is freed the tree is the one `ixmap_mem_init` made. -/
theorem mem_run_complete {ok : ℕ → Bool} (hok : ∀ k, ok k = true) {fuel ptr size : ℕ}
    (hsize : size < 2^32) (hfuel : 33 ≤ fuel) {s : MemState} (h : MemReach ok fuel ptr size s) :
    (∀ n, SizeOk n → ∃ ret d, ixmapMemAlloc ok fuel s.desc n = some (ret,d) ∧
      (ret = none ↔ NoRoom s.desc.node n) ∧ (ret = none → d.node = s.desc.node)) ∧
    (∀ q a sz pt c₀ c₁, s.desc.node.get q = .node a sz pt c₀ c₁ → c₀ ≠ .null → c₁ ≠ .null →
      c₀.allocated = true ∨ c₁.allocated = true) ∧
    (s.live = [] → s.desc.node = (ixmapMemInit ok ptr size).node ∧
      ∀ n a d, SizeOk n → ixmapMemAlloc ok fuel (ixmapMemInit ok ptr size) n = some (some a,d) →
        ∃ a' d', ixmapMemAlloc ok fuel s.desc n = some (some a',d')) := by
  have hs := memReach_inv hok hsize hfuel h
  have hinit := memInit_inv hok ptr size
  refine ⟨fun n hn => memAlloc_null_iff hok hsize hfuel hs.buddy hn,
    fun q a sz pt c₀ c₁ hq => hs.buddy.not_both_free q hq,?_⟩
  intro hnone
  have hroot : ∀ {s' : MemState}, MemInv ptr size s' → s'.live = [] →
      s'.desc.node = .node false size ptr .null .null := by
    intro s' hs' hl
    apply hs'.buddy.eq_root
    intro q hq
    obtain ⟨b,hb,-⟩ := hs'.owned q hq
    simp [hl] at hb
  have hsame : s.desc.node = (ixmapMemInit ok ptr size).node :=
    (hroot hs hnone).trans (hroot hinit rfl).symm
  refine ⟨hsame,?_⟩
  intro n a d hn hstart
  obtain ⟨ret₀,d₀,h₀,hiff₀,-⟩ := memAlloc_null_iff hok hsize hfuel hinit.buddy hn
  obtain ⟨ret,d',h',hiff,-⟩ := memAlloc_null_iff hok hsize hfuel hs.buddy hn
  rw [hstart,Option.some_inj,Prod.mk.injEq] at h₀
  cases ret with
  | some a' => exact ⟨a',d',h'⟩
  | none =>
    have hfull := hiff.mp rfl
    rw [hsame] at hfull
    exact absurd (h₀.1.trans (hiff₀.mpr hfull)) (by simp)

def quarterDesc : IxmapDesc where
  node := .node true 1000 4096
    (.node true 500 4096 (.node true 250 4096 .null .null) (.node false 250 4346 .null .null))
    (.node false 500 4596 .null .null)
  header := Function.update (fun _ => []) 4096 [false,false]
  numa := ⟨5,5⟩

/-- A 1000-byte region at 4096 with one single-byte block has room for 384 bytes and no more. -/
theorem mem_run_complete_quarter : NoRoom quarterDesc.node 385 ∧ ¬ NoRoom quarterDesc.node 384 := by
  have hrun : ixmapMemAlloc (fun _ => true) 33 (ixmapMemInit (fun _ => true) 4096 1000) 1 =
      some (some 4160,quarterDesc) := rfl
  have h := (mem_run_complete (fun _ => rfl) (by decide) (le_refl 33)
    (MemReach.alloc MemReach.init (by decide : (1+63)/64*64+headerBytes ≤ 2^32-1) hrun)).1
  have hnull : (ixmapMemAlloc (fun _ => true) 33 quarterDesc 385).map Prod.fst = some none := rfl
  have hsome : (ixmapMemAlloc (fun _ => true) 33 quarterDesc 384).map Prod.fst = some (some 4660) := rfl
  refine ⟨?_,?_⟩
  · obtain ⟨ret,d,hr,hiff,-⟩ := h 385 (by decide : (385+63)/64*64+headerBytes ≤ 2^32-1)
    rw [show ixmapMemAlloc (fun _ => true) 33 quarterDesc 385 = _ from hr] at hnull
    exact hiff.mp (by simpa using hnull)
  · obtain ⟨ret,d,hr,hiff,-⟩ := h 384 (by decide : (384+63)/64*64+headerBytes ≤ 2^32-1)
    rw [show ixmapMemAlloc (fun _ => true) 33 quarterDesc 384 = _ from hr] at hsome
    intro hno
    simp [hiff.mpr hno] at hsome

/-- A request that wraps to no bytes at all splits for ever. -/
theorem allocRec_zero {ok : ℕ → Bool} (hok : ∀ k, ok k = true) (fuel : ℕ) (m : Numa) (s p : ℕ) :
    ixmapMemAllocRec ok fuel m (.node false s p .null .null) 0 = none := by
  induction fuel generalizing m s p with
  | zero => rfl
  | succ fuel ih =>
    rw [ixmapMemAllocRec]
    simp [split_ok hok,ih]

/-- Requests behind 2^32-128 bytes wrap: the last size gets a node of 125 bytes, and 2^32-64 never
returns. -/
theorem mem_alloc_wraps :
    let d := ixmapMemInit (fun _ => true) 4096 1000
    NoRoom d.node (2^32-1) ∧
      (ixmapMemAlloc (fun _ => true) 33 d (2^32-1)).map Prod.fst = some (some 4160) ∧
      ¬ ∃ fuel r, ixmapMemAlloc (fun _ => true) fuel d (2^32-64) = some r := by
  refine ⟨?_,rfl,?_⟩
  · rintro (_ | ⟨_ | _,q⟩) sz pt hg
    · simp only [ixmapMemInit,ixmapMnodeAlloc,Mnode.get,if_true,Mnode.node.injEq] at hg
      omega
    · simp [ixmapMemInit,ixmapMnodeAlloc,Mnode.get] at hg
    · simp [ixmapMemInit,ixmapMnodeAlloc,Mnode.get] at hg
  · rintro ⟨fuel,r,hr⟩
    rw [ixmapMemAlloc,show request (2^32-64) = 0 from rfl] at hr
    simp [ixmapMemInit,ixmapMnodeAlloc,allocRec_zero] at hr

end Memory
end Ixmap
