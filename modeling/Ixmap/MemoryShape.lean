import Ixmap.MemoryFailure

/-! Sizes and addresses in any tree the allocator can build, torn ones included: every node is a half
of its parent. Termination of `_ixmap_mem_alloc` and the sizes it serves rest on this alone. -/
namespace Ixmap
namespace Memory

/-- Every node is a half of its parent; any child may be missing and flags are arbitrary. -/
inductive Shaped : ℕ → ℕ → Mnode → Prop
  | null (p s : ℕ) : Shaped p s .null
  | node (a : Bool) {p s : ℕ} {c₀ c₁ : Mnode} : Shaped p (s/2) c₀ → Shaped (p+s/2) (s/2) c₁ →
      Shaped p s (.node a s p c₀ c₁)

theorem Shaped.leaf (a : Bool) (p s : ℕ) : Shaped p s (.node a s p .null .null) :=
  .node a (.null _ _) (.null _ _)

theorem Shaped.get_range {p s : ℕ} {t : Mnode} (h : Shaped p s t) (q : Path) {a : Bool} {sz pt : ℕ}
    {c₀ c₁ : Mnode} (hq : t.get q = .node a sz pt c₀ c₁) : (pt,sz) = blockRange p s q := by
  induction h generalizing q with
  | null => simp at hq
  | node a' h₀ h₁ ih₀ ih₁ =>
    rcases q with _ | ⟨_ | _,q⟩
    · simp_all [Mnode.get,blockRange]
    · exact ih₀ q (by simpa [Mnode.get] using hq)
    · exact ih₁ q (by simpa [Mnode.get] using hq)

theorem Opened.shaped {ok : ℕ → Bool} {m m' : Numa} {p s : ℕ} {t d₀ d₁ : Mnode} (ht : Shaped p s t)
    (h : Opened ok m t d₀ d₁ m') : Shaped p (s/2) d₀ ∧ Shaped (p+s/2) (s/2) d₁ := by
  cases h with
  | kept =>
    cases ht with
    | node _ h₀ h₁ => exact ⟨h₀,h₁⟩
  | cut =>
    cases ht
    exact ⟨.leaf _ _ _,.leaf _ _ _⟩

theorem Allocates.shaped {ok : ℕ → Bool} {size p s : ℕ} {m : Numa} {t : Mnode} {r : AllocRes}
    (h : Allocates ok size m t r) (ht : Shaped p s t) : Shaped p s r.node := by
  induction h generalizing p s with
  | null | refuse => exact ht
  | take =>
    cases ht with
    | node _ h₀ h₁ => exact .node true h₀ h₁
  | noFirst =>
    cases ht with
    | node _ _ h₁ => exact .node false (.null _ _) h₁
  | noSecond =>
    cases ht
    exact .leaf _ _ _
  | first _ ho _ _ ih =>
    have hd := ho.shaped ht
    cases ht
    exact .node true (ih hd.1) hd.2
  | second _ ho _ _ _ _ ih₀ ih₁ =>
    have hd := ho.shaped ht
    cases ht
    exact .node true (ih₀ hd.1) (ih₁ hd.2)
  | neither _ ho _ _ _ _ ih₀ ih₁ =>
    have hd := ho.shaped ht
    cases ht
    exact .node _ (ih₀ hd.1) (ih₁ hd.2)

theorem Frees.shaped {m : Numa} {t : Mnode} {q : Path} {r : FreeRes} (hr : Frees m t q r) {p s : ℕ}
    (ht : Shaped p s t) : Shaped p s r.node := by
  induction hr generalizing p s with
  | here =>
    cases ht with
    | node _ h₀ h₁ => exact .node false h₀ h₁
  | keepFirst _ ih =>
    cases ht with
    | node _ h₀ h₁ => exact .node _ (ih h₀) h₁
  | keepSecond _ ih =>
    cases ht with
    | node _ h₀ h₁ => exact .node _ h₀ (ih h₁)
  | mergeFirst | mergeSecond =>
    cases ht
    exact .leaf _ _ _

theorem memRun_shaped {C : IxmapDesc → ℕ → Prop} {ok : ℕ → Bool} {ptr size : ℕ} {s : MemState}
    (h : MemRun C ok ptr size s) : Shaped ptr size s.desc.node := by
  induction h with
  | init h₀ =>
    simp only [ixmapMemInit,ixmapMnodeAlloc,h₀,if_true]
    exact .leaf _ _ _
  | null _ _ h ih => exact (memAlloc_none h).2.shaped ih
  | alloc _ _ h ih =>
    obtain ⟨q,-,-,ha⟩ := memAlloc_some h
    exact ha.shaped ih
  | free _ _ h ih =>
    obtain ⟨r,hr,rfl⟩ := Option.map_eq_some_iff.mp h
    exact (frees_of_freeRec hr).shaped ih

theorem allocRec_stops {ok : ℕ → Bool} {size : ℕ} (fuel : ℕ) {p s : ℕ} {t : Mnode} (ht : Shaped p s t)
    (hlt : s/2 < size) (m : Numa) : ∃ r, ixmapMemAllocRec ok (fuel+1) m t size = some r := by
  cases ht with
  | null => exact ⟨_,rfl⟩
  | node a =>
    rw [ixmapMemAllocRec,if_pos hlt]
    split_ifs <;> exact ⟨_,rfl⟩

/-- A positive request returns within as many levels as the size has bits. -/
theorem allocRec_returns {ok : ℕ → Bool} {size : ℕ} (hsize : 0 < size) (fuel : ℕ) {p s : ℕ} {t : Mnode}
    (ht : Shaped p s t) (hs : s < 2^fuel) (m : Numa) :
    ∃ r, ixmapMemAllocRec ok (fuel+1) m t size = some r := by
  induction fuel generalizing p s t m with
  | zero =>
    obtain rfl : s = 0 := by simpa using hs
    exact allocRec_stops 0 ht hsize m
  | succ fuel ih =>
    by_cases hlt : s/2 < size
    · exact allocRec_stops (fuel+1) ht hlt m
    have hhalf : s/2 < 2^fuel := by
      have : 2^(fuel+1) = 2^fuel*2 := pow_succ 2 fuel
      omega
    cases ht with
    | null => exact ⟨_,rfl⟩
    | @node a _ _ c₀ c₁ h₀ h₁ =>
      -- both recursive calls return, whatever children they are made on
      have hhalves : ∀ m' d₀ d₁, Shaped p (s/2) d₀ → Shaped (p+s/2) (s/2) d₁ →
          (∃ r₀, ixmapMemAllocRec ok (fuel+1) m' d₀ size = some r₀) ∧
          ∀ m'', ∃ r₁, ixmapMemAllocRec ok (fuel+1) m'' d₁ size = some r₁ :=
        fun m' d₀ d₁ hd₀ hd₁ => ⟨ih hd₀ hhalf m',ih hd₁ hhalf⟩
      rw [ixmapMemAllocRec,if_neg hlt]
      cases a with
      | true =>
        obtain ⟨⟨r₀,hr₀⟩,hr₁⟩ := hhalves m c₀ c₁ h₀ h₁
        obtain ⟨r₁,hr₁⟩ := hr₁ r₀.numa
        simp only [if_true,Bool.false_eq_true,if_false,hr₀,hr₁,Option.bind_some]
        cases r₀.ret <;> cases r₁.ret <;> exact ⟨_,rfl⟩
      | false =>
        rcases split_cases ok m p (s/2) c₁ with ⟨-,hsp⟩ | ⟨-,-,hsp⟩ | ⟨-,-,hsp⟩
        · simp [hsp]
        · simp [hsp]
        · obtain ⟨⟨r₀,hr₀⟩,hr₁⟩ := hhalves ⟨m.calls+2,m.live+2⟩ _ _ (Shaped.leaf false p (s/2))
            (Shaped.leaf false (p+s/2) (s/2))
          obtain ⟨r₁,hr₁⟩ := hr₁ r₀.numa
          simp only [hsp,Bool.false_eq_true,if_false,hr₀,hr₁,Option.bind_some]
          cases r₀.ret <;> cases r₁.ret <;> exact ⟨_,rfl⟩

/-- An unallocated node has room for `size` bytes. -/
def Mnode.Room (t : Mnode) (size : ℕ) : Prop :=
  ∃ q sz pt c₀ c₁, t.get q = .node false sz pt c₀ c₁ ∧ size ≤ sz

theorem Opened.room {ok : ℕ → Bool} {size : ℕ} {m m' : Numa} {a : Bool} {s p : ℕ} {c₀ c₁ d₀ d₁ : Mnode}
    (h : Opened ok m (.node a s p c₀ c₁) d₀ d₁ m') (hs : size ≤ s/2) (hd : d₀.Room size ∨ d₁.Room size) :
    (Mnode.node a s p c₀ c₁).Room size := by
  cases h with
  | kept =>
    rcases hd with ⟨q,hq⟩ | ⟨q,hq⟩
    · exact ⟨false::q,hq⟩
    · exact ⟨true::q,hq⟩
  | cut => exact ⟨[],s,p,c₀,c₁,rfl,by omega⟩

theorem Allocates.taken {ok : ℕ → Bool} {size : ℕ} {m : Numa} {t : Mnode} {r : AllocRes} {q : Path}
    (h : Allocates ok size m t r) (hq : r.ret = some q) :
    size ≤ (r.node.get q).size ∧ t.Room size := by
  induction h generalizing q with
  | null | refuse | noFirst | noSecond | neither => simp at hq
  | take _ p c₀ c₁ _ hle =>
    obtain rfl : [] = q := by simpa using hq
    exact ⟨hle,[],_,p,c₀,c₁,rfl,hle⟩
  | first hs ho _ hr ih =>
    obtain rfl := Option.some.inj hq
    exact ⟨(ih hr).1,ho.room hs (Or.inl (ih hr).2)⟩
  | second hs ho _ _ _ hr _ ih =>
    obtain rfl := Option.some.inj hq
    exact ⟨(ih hr).1,ho.room hs (Or.inr (ih hr).2)⟩

/-- A request of `n` bytes returns after at most as many nested calls below the first as the size of
the region has bits, gets no less than `n` bytes behind the header, and gets NULL when no unallocated
node could hold both. -/
def AllocSound (ok : ℕ → Bool) (size : ℕ) (d : IxmapDesc) (n : ℕ) : Prop :=
  ∃ ret d', ixmapMemAlloc ok (Nat.size size+1) d n = some (ret,d') ∧
    (∀ a, ret = some a → a = (d'.nodeOf a).ptr+headerBytes ∧
      a+n ≤ (d'.nodeOf a).ptr+(d'.nodeOf a).size) ∧
    (¬ d.node.Room (headerBytes+n) → ret = none)

theorem allocSound_of_sizeOk {ok : ℕ → Bool} {ptr size n : ℕ} {d : IxmapDesc}
    (hd : Shaped ptr size d.node) (hn : SizeOk n) : AllocSound ok size d n := by
  have hreq : headerBytes+n ≤ request n := by
    rw [request_eq hn]
    omega
  have hpos : 0 < request n := by
    unfold headerBytes at hreq
    omega
  obtain ⟨r,hr⟩ : ∃ r, ixmapMemAllocRec ok (Nat.size size+1) d.numa d.node (request n) = some r :=
    allocRec_returns hpos (Nat.size size) hd (Nat.lt_size_self size) d.numa
  cases hq : r.ret with
  | none => exact ⟨none,⟨r.node,d.header,r.numa⟩,by simp [ixmapMemAlloc,hr,hq],by simp,fun _ => rfl⟩
  | some q =>
    obtain ⟨hfit,x,sz,pt,c₀,c₁,hx,hle⟩ := (allocRec_allocates _ hr).taken hq
    refine ⟨some ((r.node.get q).ptr+headerBytes),
      ⟨r.node,Function.update d.header (r.node.get q).ptr q,r.numa⟩,
      by simp only [ixmapMemAlloc,hr,hq,Option.map_some],?_,fun hno => ?_⟩
    · rintro a ha
      obtain rfl := Option.some.inj ha
      simp only [IxmapDesc.nodeOf,Nat.add_sub_cancel,Function.update_self,true_and]
      omega
    · exact absurd ⟨x,sz,pt,c₀,c₁,hx,hreq.trans hle⟩ hno

/-- Sizes that do not fit wrap to a request for nothing or for the header alone. -/
theorem request_wraps {n : ℕ} (hlt : n < 2^32) (hn : ¬ SizeOk n) :
    request n = 0 ∨ (request n = 64 ∧ 100 < n) := by
  unfold SizeOk headerBytes at hn
  unfold request align headerBytes
  omega

/-- Every tree a run can reach has only halves of halves as nodes, and on such trees the allocator
serves a size soundly exactly when the size and its header still fit an `unsigned int`. -/
theorem mem_alloc_sound_iff {n : ℕ} (hlt : n < 2^32) :
    (∀ ok ptr size s, MemRun (fun _ _ => True) ok ptr size s → Shaped ptr size s.desc.node) ∧
    ((∀ ok ptr size d, size < 2^32 → Shaped ptr size d.node → AllocSound ok size d n) ↔ SizeOk n) := by
  refine ⟨fun _ _ _ _ => memRun_shaped,fun h => ?_,fun hn _ _ _ _ _ hd => allocSound_of_sizeOk hd hn⟩
  by_contra hn
  obtain ⟨ret,d',hr,hsize,-⟩ := h (fun _ => true) 0 100 (ixmapMemInit (fun _ => true) 0 100)
    (by decide) (Shaped.leaf false 0 100)
  rcases request_wraps hlt hn with h0 | ⟨h64,hbig⟩
  · rw [ixmapMemAlloc,h0,ixmapMemInit,ixmapMnodeAlloc,if_pos rfl,allocRec_zero (fun _ => rfl)] at hr
    simp at hr
  · have hrun : ixmapMemAlloc (fun _ => true) (Nat.size 100+1) (ixmapMemInit (fun _ => true) 0 100) n =
        some (some 64,⟨.node true 100 0 .null .null,Function.update (fun _ => []) 0 [],⟨1,1⟩⟩) := by
      rw [ixmapMemAlloc,h64]
      rfl
    rw [hrun] at hr
    obtain ⟨rfl,rfl⟩ := Prod.mk.inj (Option.some.inj hr)
    have hle : 64+n ≤ 0+100 := (hsize 64 rfl).2
    omega

/-- The largest size served soundly. -/
theorem mem_alloc_sound_max : SizeOk (2^32-128) ∧
    AllocSound (fun _ => true) 1000 (ixmapMemInit (fun _ => true) 4096 1000) (2^32-128) := by
  have hn : SizeOk (2^32-128) := by
    unfold SizeOk headerBytes
    decide
  exact ⟨hn,((mem_alloc_sound_iff (by decide)).2.mpr hn) _ 4096 1000 _ (by decide) (Shaped.leaf _ _ _)⟩

/-- One byte more: the request wraps to nothing and the recursion never ends; 2^32-63 bytes are
"found" in a 1000-byte region. -/
theorem mem_alloc_unsound :
    let d := ixmapMemInit (fun _ => true) 4096 1000
    (¬ ∃ fuel r, ixmapMemAlloc (fun _ => true) fuel d (2^32-127) = some r) ∧
      ∃ d', ixmapMemAlloc (fun _ => true) 11 d (2^32-63) = some (some 4160,d') ∧
        (d'.nodeOf 4160).ptr = 4096 ∧ (d'.nodeOf 4160).size = 125 := by
  refine ⟨?_,_,rfl,rfl,rfl⟩
  rintro ⟨fuel,r,hr⟩
  rw [ixmapMemAlloc,show request (2^32-127) = 0 from rfl] at hr
  simp [ixmapMemInit,ixmapMnodeAlloc,allocRec_zero] at hr

end Memory
end Ixmap
