import Ixmap.MemoryShape
import Ixmap.Construct

/-! Cache-line alignment of the blocks cut out of the region that `ixmap_desc_alloc` leaves to the
allocator. Addresses come from halving the size of the region, so alignment is a question of how often
that size can be halved. -/
namespace Ixmap
namespace Memory

/-- As deep as a request of `r` bytes can go, halving the region gives multiples of a cache line. -/
def Halves (size r : ℕ) : Prop := 0 < r → ∀ k, 2^k*r ≤ size → 64*2^k ∣ size

theorem half_div (s k : ℕ) : s/2/2^k = s/2^(k+1) := by rw [Nat.div_div_eq_div_mul,pow_succ']

theorem blockRange_size (p s : ℕ) (q : Path) : (blockRange p s q).2 = s/2^q.length := by
  induction q generalizing p s with
  | nil => simp [blockRange]
  | cons b q ih => cases b <;> simpa [blockRange,ih] using half_div s q.length

theorem blockRange_aligned {p s : ℕ} {q : Path} (hp : 64 ∣ p) (hs : 64*2^q.length ∣ s) :
    64 ∣ (blockRange p s q).1 ∧ 64 ∣ (blockRange p s q).2 := by
  induction q generalizing p s with
  | nil => exact ⟨hp,by simpa [blockRange] using hs⟩
  | cons b q ih =>
    have hhalf : 64*2^q.length ∣ s/2 := by
      refine Nat.dvd_div_of_mul_dvd ?_
      rwa [show 2*(64*2^q.length) = 64*2^(q.length+1) by ring]
    cases b with
    | false => exact ih hp hhalf
    | true => exact ih (hp.add ((Nat.dvd_mul_right 64 _).trans hhalf)) hhalf

theorem Shaped.aligned {p s r : ℕ} {t : Mnode} (ht : Shaped p s t) (hp : 64 ∣ p) (hh : Halves s r)
    (hr : 0 < r) {q : Path} (hfit : r ≤ (t.get q).size) : 64 ∣ (t.get q).ptr ∧ 64 ∣ (t.get q).size := by
  cases hg : t.get q with
  | null => simp [hg,Mnode.size] at hfit; omega
  | node a sz pt c₀ c₁ =>
    have hrange := ht.get_range q hg
    rw [hg] at hfit
    simp only [Mnode.size,Mnode.ptr] at hfit ⊢
    have hsz : sz = s/2^q.length := by rw [← blockRange_size p,← hrange]
    have hdvd := hh hr q.length (by
      rw [hsz,Nat.le_div_iff_mul_le (by positivity)] at hfit
      rwa [Nat.mul_comm])
    have hal := blockRange_aligned hp hdvd
    rwa [← hrange] at hal

theorem memAlloc_aligned {ok : ℕ → Bool} {fuel ptr size n a : ℕ} {d d' : IxmapDesc}
    (hd : Shaped ptr size d.node) (hptr : 64 ∣ ptr) (hh : Halves size (request n))
    (h : ixmapMemAlloc ok fuel d n = some (some a,d')) :
    64 ∣ a ∧ 64 ∣ (d'.nodeOf a).ptr ∧ 64 ∣ (d'.nodeOf a).size := by
  obtain ⟨q,rfl,hheader,ha⟩ := memAlloc_some h
  have hpos : 0 < request n := by
    by_contra h0
    rw [Nat.eq_zero_of_not_pos h0] at ha
    simpa using ha.of_zero
  have hnode : d'.nodeOf ((d'.node.get q).ptr+headerBytes) = d'.node.get q := by
    rw [IxmapDesc.nodeOf,Nat.add_sub_cancel,hheader,Function.update_self]
  rw [hnode]
  have hal := (ha.shaped hd).aligned hptr hh hpos (ha.taken rfl).1
  exact ⟨hal.1.add ⟨1,rfl⟩,hal⟩

/-- The tree after the leftmost block of depth `k` was cut out of a free region. -/
def leftSpine : ℕ → ℕ → ℕ → Mnode
  | 0, p, s => .node true s p .null .null
  | k+1, p, s => .node true s p (leftSpine k p (s/2)) (.node false (s/2) (p+s/2) .null .null)

section AllGranted
variable {ok : ℕ → Bool} (hok : ∀ k, ok k = true) {r : ℕ}
include hok

theorem allocRec_leaf (k fuel : ℕ) (m : Numa) (p s : ℕ) (hlo : s/2^(k+1) < r) (hhi : r ≤ s/2^k) :
    ∃ m', ixmapMemAllocRec ok (fuel+k+1) m (.node false s p .null .null) r =
      some ⟨some (List.replicate k false),leftSpine k p s,m'⟩ := by
  induction k generalizing m s with
  | zero =>
    refine ⟨m,?_⟩
    rw [ixmapMemAllocRec,if_pos (by simpa using hlo),if_pos ⟨rfl,by simpa using hhi⟩]
    rfl
  | succ k ih =>
    rw [← half_div] at hlo hhi
    obtain ⟨m',hrec⟩ := ih ⟨m.calls+2,m.live+2⟩ (s/2) hlo hhi
    have hle : r ≤ s/2 := hhi.trans (Nat.div_le_self _ _)
    refine ⟨m',?_⟩
    rw [ixmapMemAllocRec,if_neg (by omega),← Nat.add_assoc]
    simp only [Bool.false_eq_true,if_false,split_ok hok,hrec,Option.bind_some]
    rfl

omit hok in
theorem exists_depth {s : ℕ} (hr : 0 < r) (hle : r ≤ s) : ∃ k, s/2^(k+1) < r ∧ r ≤ s/2^k := by
  induction s using Nat.strong_induction_on with
  | _ s ih =>
    by_cases hlt : s/2 < r
    · exact ⟨0,by simpa using hlt,by simpa using hle⟩
    · obtain ⟨k,hlo,hhi⟩ := ih (s/2) (by omega) (by omega)
      exact ⟨k+1,by rwa [← half_div],by rwa [← half_div]⟩

omit hok in
theorem leftSpine_ptr (k p s : ℕ) : ((leftSpine k p s).get (List.replicate k false)).ptr = p := by
  induction k generalizing s with
  | zero => rfl
  | succ k ih => exact ih (s/2)

theorem allocRec_leaf_ptr (hr : 0 < r) {p s fuel : ℕ} (hle : r ≤ s) (hs : s < 2^fuel) (m : Numa) :
    ∃ q t m', ixmapMemAllocRec ok (fuel+1) m (.node false s p .null .null) r = some ⟨some q,t,m'⟩ ∧
      (t.get q).ptr = p := by
  obtain ⟨k,hlo,hhi⟩ := exists_depth hr hle
  have hk : 2^k ≤ s := by
    have hone : 1 ≤ s/2^k := by omega
    simpa using (Nat.le_div_iff_mul_le (by positivity)).mp hone
  have hlt : k < fuel := (Nat.pow_lt_pow_iff_right (by decide)).mp (hk.trans_lt hs)
  obtain ⟨m',h⟩ := allocRec_leaf hok (r := r) k (fuel-k) m p s hlo hhi
  rw [Nat.sub_add_cancel hlt.le] at h
  exact ⟨_,_,m',h,leftSpine_ptr k p s⟩

theorem allocRec_used (hr : 0 < r) {p s fuel : ℕ} (hs : s < 2^fuel) (m : Numa) :
    ∃ m', ixmapMemAllocRec ok (fuel+1) m (.node true s p .null .null) r =
      some ⟨none,.node true s p .null .null,m'⟩ := by
  have hb := Buddy.leaf true p s
  obtain ⟨⟨ret,t,m'⟩,h,spec⟩ := allocRec_spec hok hr fuel p s _ m hb hs
  cases ret with
  | none =>
    obtain rfl : t = _ := (spec.failed rfl).1
    exact ⟨m',h⟩
  | some q =>
    obtain ⟨x,hx,-⟩ := spec.free_leaf hb rfl
    rcases x with _ | ⟨_ | _,x⟩ <;> simp at hx

omit hok in
theorem half_fuel (hr : 0 < r) {s fuel : ℕ} (hle : r ≤ s/2) (hs : s < 2^fuel) :
    ∃ f, fuel = f+1 ∧ s/2 < 2^f := by
  cases fuel with
  | zero => simp at hs; omega
  | succ f =>
    refine ⟨f,rfl,?_⟩
    rw [pow_succ] at hs
    omega

/-- The next request is served beside the leftmost block, if it is no larger. -/
theorem allocRec_leftSpine (hr : 0 < r) (k : ℕ) {p s fuel : ℕ} (hle : r ≤ s/2^(k+1)) (hs : s < 2^fuel)
    (m : Numa) : ∃ q t m', ixmapMemAllocRec ok (fuel+1) m (leftSpine (k+1) p s) r = some ⟨some q,t,m'⟩ ∧
      (t.get q).ptr = p+s/2^(k+1) := by
  induction k generalizing s fuel m with
  | zero =>
    have hhalf : r ≤ s/2 := by simpa using hle
    obtain ⟨f,rfl,hf⟩ := half_fuel hr hhalf hs
    obtain ⟨m₁,h₁⟩ := allocRec_used hok hr (p := p) hf m
    obtain ⟨q,t,m₂,h₂,hptr⟩ := allocRec_leaf_ptr hok hr (p := p+s/2) hhalf hf m₁
    refine ⟨true::q,.node true s p (.node true (s/2) p .null .null) t,m₂,?_,by simpa [Mnode.get] using hptr⟩
    rw [leftSpine,leftSpine,ixmapMemAllocRec,if_neg (by omega)]
    simp only [if_true,Bool.false_eq_true,if_false,h₁,h₂,Option.bind_some]
  | succ k ih =>
    rw [← half_div] at hle ⊢
    have hhalf : r ≤ s/2 := hle.trans (Nat.div_le_self _ _)
    obtain ⟨f,rfl,hf⟩ := half_fuel hr hhalf hs
    obtain ⟨q,t,m',h,hptr⟩ := ih hle hf m
    refine ⟨false::q,.node true s p t (.node false (s/2) (p+s/2) .null .null),m',?_,hptr⟩
    rw [leftSpine,ixmapMemAllocRec,if_neg (by omega)]
    simp only [if_true,Bool.false_eq_true,if_false,h,Option.bind_some]

end AllGranted

theorem memAlloc_of_rec {ok : ℕ → Bool} {fuel n : ℕ} {d : IxmapDesc} {q : Path} {t : Mnode} {m : Numa}
    (h : ixmapMemAllocRec ok fuel d.numa d.node (request n) = some ⟨some q,t,m⟩) :
    ixmapMemAlloc ok fuel d n =
      some (some ((t.get q).ptr+headerBytes),⟨t,Function.update d.header (t.get q).ptr q,m⟩) := by
  simp only [ixmapMemAlloc,h,Option.map_some]

/-- The run that shows a misaligned block: fill the leftmost node of depth `k`, then ask again. -/
theorem exists_second {ptr size n : ℕ} (hsize : size < 2^32) (hr : 0 < request n) {k : ℕ}
    (hk : 2^(k+1)*request n ≤ size) :
    ∃ st d', MemRun (fun _ _ => True) (fun _ => true) ptr size st ∧
      ixmapMemAlloc (fun _ => true) 33 st.desc n = some (some (ptr+size/2^(k+1)+headerBytes),d') := by
  have hle : request n ≤ size/2^(k+1) := by
    rwa [Nat.le_div_iff_mul_le (by positivity),Nat.mul_comm]
  have hreq := headerBytes_le_request hr
  obtain ⟨n₁,hlo,hhi⟩ : ∃ n₁, size/2^(k+2) < request n₁ ∧ request n₁ ≤ size/2^(k+1) := by
    have hx : size/2^(k+1) < 2^32 := (Nat.div_le_self _ _).trans_lt hsize
    refine ⟨size/2^(k+1)/64*64-64,?_⟩
    rw [pow_succ,← Nat.div_div_eq_div_mul]
    unfold headerBytes at hreq
    generalize size/2^(k+1) = x at *
    unfold request align headerBytes
    omega
  have hpow : 2^(k+1) < 2^32 := by
    have hone : 2^(k+1)*1 ≤ 2^(k+1)*request n := Nat.mul_le_mul_left _ hr
    omega
  have hdepth : k+1 < 32 := (Nat.pow_lt_pow_iff_right (by decide)).mp hpow
  obtain ⟨m₁,h₁⟩ := allocRec_leaf (fun _ => rfl) (k+1) (32-(k+1)) ⟨1,1⟩ ptr size hlo hhi
  rw [Nat.sub_add_cancel hdepth.le] at h₁
  obtain ⟨q,t,m₂,h₂,hptr⟩ := allocRec_leftSpine (fun _ => rfl) hr k (p := ptr) hle hsize m₁
  have hfirst := memAlloc_of_rec (d := ixmapMemInit (fun _ => true) ptr size) h₁
  have hsecond : ∀ header, ∃ d', ixmapMemAlloc (fun _ => true) 33 ⟨leftSpine (k+1) ptr size,header,m₁⟩ n =
      some (some (ptr+size/2^(k+1)+headerBytes),d') := by
    intro header
    rw [← hptr]
    exact ⟨_,memAlloc_of_rec h₂⟩
  obtain ⟨d',h⟩ := hsecond _
  exact ⟨_,d',MemRun.alloc (MemRun.init rfl) trivial hfirst,h⟩

/-- Over every run, a size is served at multiples of a cache line exactly when the region halves into
such multiples as deep as the size goes. -/
theorem mem_aligned_region {ptr size : ℕ} (hptr : 64 ∣ ptr) (hline : 64 ∣ size) (hsize : size < 2^32) (n : ℕ) :
    (∀ ok st fuel a d', MemRun (fun _ _ => True) ok ptr size st →
      ixmapMemAlloc ok fuel st.desc n = some (some a,d') → 64 ∣ a) ↔ Halves size (request n) := by
  constructor
  · intro h hr k hk
    induction k with
    | zero => simpa using hline
    | succ k ih =>
      have hprev : 64*2^k ∣ size := ih ((Nat.mul_le_mul_right _ (Nat.pow_le_pow_right (by decide)
        (Nat.le_succ k))).trans hk)
      obtain ⟨st,d',hrun,halloc⟩ := exists_second hsize hr hk
      have ha : 64 ∣ ptr+size/2^(k+1)+64 := h _ st 33 _ d' hrun halloc
      obtain ⟨u,rfl⟩ := hprev
      have hnode : 64*2^k*u/2^(k+1) = 32*u := by
        rw [show 64*2^k*u = 32*u*2^(k+1) by ring,Nat.mul_div_cancel _ (by positivity)]
      rw [hnode] at ha
      obtain ⟨v,rfl⟩ : 2 ∣ u := by omega
      exact ⟨v,by ring⟩
  · intro hh ok st fuel a d' hrun halloc
    exact (memAlloc_aligned (memRun_shaped hrun) hptr hh halloc).1

/-- Blocks whose nodes are at a depth that halving reaches in whole cache lines. -/
structure LineInv (ptr size : ℕ) (st : MemState) : Prop where
  inv : FailInv ptr size st
  depth : ∀ b ∈ st.live, 64*2^(st.desc.header (b.1-headerBytes)).length ∣ size

theorem LineInv.alloc {ok : ℕ → Bool} {fuel ptr size n a : ℕ} {st : MemState} {d : IxmapDesc}
    (hs : LineInv ptr size st) (h : ixmapMemAlloc ok fuel st.desc n = some (some a,d))
    (hw : d.node.Whole) (hh : Halves size (request n)) : LineInv ptr size ⟨d,(a,n)::st.live⟩ := by
  have hinv := hs.inv.alloc h hw
  refine ⟨hinv,?_⟩
  obtain ⟨q,rfl,hheader,ha⟩ := memAlloc_some h
  obtain ⟨hpos,hf⟩ := (ha.spec (Or.inr hs.inv.inv.buddy)).fresh q rfl hw
  intro b hb
  rcases List.mem_cons.mp hb with rfl | hb
  · simp only [Nat.add_sub_cancel,hheader,Function.update_self]
    refine hh hpos _ ?_
    have hfit := hf.fits
    rw [blockRange_size,Nat.le_div_iff_mul_le (by positivity)] at hfit
    rwa [Nat.mul_comm]
  · -- an old block starts elsewhere, so its header was not overwritten
    have hnd := hinv.inv.nodup
    simp only [MemState.starts,List.map_cons,List.map_map,List.nodup_cons] at hnd
    have hne : b.1 ≠ (d.node.get q).ptr+headerBytes := fun he =>
      hnd.1 (List.mem_map.mpr ⟨b,hb,he⟩)
    have hstart := (hs.inv.inv.block (b.1,0) (List.mem_map.mpr ⟨b,hb,rfl⟩)).2.1
    simp only [hheader]
    rw [Function.update_of_ne (by omega)]
    exact hs.depth b hb

theorem memRun_lineInv {ok : ℕ → Bool} {ptr size : ℕ} {st : MemState}
    (h : MemRun (fun d n => Settled ok d n ∧ Halves size (request n)) ok ptr size st) :
    LineInv ptr size st := by
  induction h with
  | init h₀ =>
    exact ⟨memRun_failInv (fun _ _ hw => hw) (.init (C := Settled ok) h₀),by simp⟩
  | null _ hc h ih =>
    refine ⟨ih.inv.null h ((whole_iff_settled ih.inv.inv.buddy h).mpr hc.1),?_⟩
    rw [(memAlloc_none h).1]
    exact ih.depth
  | alloc _ hc h ih => exact ih.alloc h ((whole_iff_settled ih.inv.inv.buddy h).mpr hc.1) hc.2
  | free _ hb h ih =>
    refine ⟨ih.inv.free hb h,fun b hb' => ?_⟩
    obtain ⟨r,-,rfl⟩ := Option.map_eq_some_iff.mp h
    exact ih.depth b (List.mem_of_mem_erase hb')

theorem LineInv.aligned {ptr size : ℕ} {st : MemState} (hs : LineInv ptr size st) (hptr : 64 ∣ ptr) :
    ∀ b ∈ st.live, 64 ∣ (st.desc.nodeOf b.1).ptr ∧ 64 ∣ (st.desc.nodeOf b.1).size := by
  intro b hb
  have hrange := hs.inv.inv.nodeOf_range (List.mem_map.mpr ⟨b,hb,rfl⟩ : (b.1,0) ∈ st.starts.live)
  have hal := blockRange_aligned hptr (hs.depth b hb)
  exact ⟨hrange.1 ▸ hal.1,hrange.2 ▸ hal.2⟩

theorem LineInv.lines {ptr size : ℕ} {st : MemState} (hs : LineInv ptr size st) (hptr : 64 ∣ ptr) :
    st.live.Pairwise fun a b => ∀ x ∈ Set.Ico (st.desc.nodeOf a.1).ptr
        ((st.desc.nodeOf a.1).ptr+(st.desc.nodeOf a.1).size),
      ∀ y ∈ Set.Ico (st.desc.nodeOf b.1).ptr ((st.desc.nodeOf b.1).ptr+(st.desc.nodeOf b.1).size),
      x/64 ≠ y/64 := by
  refine (List.pairwise_map.mp hs.inv.inv.disjoint).imp_of_mem ?_
  intro a b ha hb hdis x hx y hy
  obtain ⟨⟨i,hi⟩,⟨j,hj⟩⟩ := hs.aligned hptr a ha
  obtain ⟨⟨k,hk⟩,⟨l,hl⟩⟩ := hs.aligned hptr b hb
  rw [Set.mem_Ico] at hx hy
  simp only [MemState.starts] at hdis
  omega

theorem descAlloc_lines {hugePage : ℕ} {s s' : ResourceLedger.Sys Construct.Res}
    {ihList : List Construct.Handle} {d : Construct.Desc} (h : Construct.ixmapDescAlloc hugePage s ihList = (some d,s'))
    (hbase : 64 ∣ d.addrVirt.value) : 64 ∣ d.addrMem ∧ 64 ∣ d.sizeMem ∧ d.sizeMem < 2^32 := by
  have hmem := Construct.descAlloc_addrMem h hbase
  have hsize := (Construct.descAlloc_some h).2.1
  obtain ⟨u,hu⟩ := Construct.strides_dvd ihList
  obtain ⟨v,hv⟩ := hbase
  rw [Construct.sizeMem,hmem,hu] at hsize
  unfold Construct.size1gb at hsize
  refine ⟨?_,?_,?_⟩
  · rw [hmem,hu,hv]
    omega
  · omega
  · omega

/-- In the region that `ixmap_desc_alloc` sets up, a size is served at cache-line boundaries over every
run exactly when the region halves that far; where all sizes of a run are such, and every request is settled by
the tree and the outcomes it finds, no two blocks share a line. -/
theorem mem_aligned_iff {hugePage : ℕ} {s s' : ResourceLedger.Sys Construct.Res}
    {ihList : List Construct.Handle} {d : Construct.Desc} (h : Construct.ixmapDescAlloc hugePage s ihList = (some d,s'))
    (hbase : 2^30 ∣ d.addrVirt.value) :
    (∀ n, (∀ ok st fuel a d', MemRun (fun _ _ => True) ok d.addrMem d.sizeMem st →
      ixmapMemAlloc ok fuel st.desc n = some (some a,d') → 64 ∣ a) ↔ Halves d.sizeMem (request n)) ∧
    ∀ ok st, MemRun (fun d' n => Settled ok d' n ∧ Halves d.sizeMem (request n)) ok d.addrMem d.sizeMem st →
      st.live.Pairwise fun a b => ∀ x ∈ Set.Ico (st.desc.nodeOf a.1).ptr
          ((st.desc.nodeOf a.1).ptr+(st.desc.nodeOf a.1).size),
        ∀ y ∈ Set.Ico (st.desc.nodeOf b.1).ptr ((st.desc.nodeOf b.1).ptr+(st.desc.nodeOf b.1).size),
        x/64 ≠ y/64 := by
  obtain ⟨hptr,hline,hsize⟩ := descAlloc_lines h ((by decide : 64 ∣ 2^30).trans hbase)
  exact ⟨mem_aligned_region hptr hline hsize,fun ok st hrun => (memRun_lineInv hrun).lines hptr⟩

theorem halves_megabyte : Halves (2^30-2^18) (request (2^20)) := by
  intro _ k hk
  have hlt : k < 10 := by
    by_contra hge
    have hpow : 2^10 ≤ 2^k := Nat.pow_le_pow_right (by decide) (by omega)
    have hreq : request (2^20) = 2^20+64 := by decide
    rw [hreq] at hk
    omega
  interval_cases k <;> decide

/-- There a request for 1 MB is always aligned, and two such blocks share no line. -/
theorem mem_aligned_megabyte : ∃ d s', ∃ st : MemState,
    Construct.ixmapDescAlloc (2^30) (ResourceLedger.Sys.init fun _ => some (2^30))
      [⟨3,4096,4096⟩,⟨4,4096,4096⟩] = (some d,s') ∧
      (∀ ok st fuel a d', MemRun (fun _ _ => True) ok d.addrMem d.sizeMem st →
        ixmapMemAlloc ok fuel st.desc (2^20) = some (some a,d') → 64 ∣ a) ∧
      st.live.map Prod.fst = [d.addrMem+64+2096640,d.addrMem+64] ∧
      st.live.Pairwise fun a b => ∀ x ∈ Set.Ico (st.desc.nodeOf a.1).ptr
          ((st.desc.nodeOf a.1).ptr+(st.desc.nodeOf a.1).size),
        ∀ y ∈ Set.Ico (st.desc.nodeOf b.1).ptr ((st.desc.nodeOf b.1).ptr+(st.desc.nodeOf b.1).size),
        x/64 ≠ y/64 := by
  have hrun : ∃ d s', Construct.ixmapDescAlloc (2^30) (ResourceLedger.Sys.init fun _ => some (2^30))
      [⟨3,4096,4096⟩,⟨4,4096,4096⟩] = (some d,s') ∧ 2^30 ∣ d.addrVirt.value ∧ d.addrMem = 2^30+2^18 ∧
      d.sizeMem = 2^30-2^18 := ⟨_,_,rfl,by decide,rfl,rfl⟩
  obtain ⟨d,s',h,hbase,hmem,hsize⟩ := hrun
  have htwo : ∃ st : MemState, MemRun (fun d' n => Settled (fun _ => true) d' n ∧ Halves (2^30-2^18) (request n))
      (fun _ => true) (2^30+2^18) (2^30-2^18) st ∧
      st.live.map Prod.fst = [2^30+2^18+64+2096640,2^30+2^18+64] := by
    have h₁ := MemRun.alloc (C := fun d' n => Settled (fun _ => true) d' n ∧ Halves (2^30-2^18) (request n))
      (.init rfl) ⟨by decide,halves_megabyte⟩
      (show ixmapMemAlloc (fun _ => true) 33 (ixmapMemInit _ (2^30+2^18) (2^30-2^18)) (2^20) = _ from rfl)
    have h₂ := h₁.alloc ⟨by decide,halves_megabyte⟩ (show ixmapMemAlloc (fun _ => true) 33 _ (2^20) = _ from rfl)
    exact ⟨_,h₂,rfl⟩
  obtain ⟨st,hst,hlive⟩ := htwo
  obtain ⟨haligned,hlines⟩ := mem_aligned_iff h hbase
  refine ⟨d,s',st,h,(haligned (2^20)).mpr ?_,?_,hlines (fun _ => true) st ?_⟩
  · rw [hsize]
    exact halves_megabyte
  · rw [hmem]
    exact hlive
  · rw [hmem,hsize]
    exact hst

/-- With one default port the region is 8191 times 128 KB: the second single byte ever asked for is
served 255 bytes behind the first. -/
theorem mem_aligned_default_port : ∃ d s' d₁ d₂,
    Construct.ixmapDescAlloc (2^30) (ResourceLedger.Sys.init fun _ => some (2^30)) [⟨3,4096,4096⟩] = (some d,s') ∧
      ixmapMemAlloc (fun _ => true) 33 (ixmapMemInit (fun _ => true) d.addrMem d.sizeMem) 1 =
        some (some (d.addrMem+64),d₁) ∧
      ixmapMemAlloc (fun _ => true) 33 d₁ 1 = some (some (d.addrMem+64+255),d₂) ∧
      ¬ 64 ∣ d.addrMem+64+255 := by
  have hrun : ∃ d s', Construct.ixmapDescAlloc (2^30) (ResourceLedger.Sys.init fun _ => some (2^30))
      [⟨3,4096,4096⟩] = (some d,s') ∧ d.addrMem = 2^30+2^17 ∧ d.sizeMem = 2^30-2^17 := ⟨_,_,rfl,rfl,rfl⟩
  obtain ⟨d,s',h,hmem,hsize⟩ := hrun
  have hmems : ∃ d₁ d₂,
      ixmapMemAlloc (fun _ => true) 33 (ixmapMemInit (fun _ => true) (2^30+2^17) (2^30-2^17)) 1 =
        some (some (2^30+2^17+64),d₁) ∧
      ixmapMemAlloc (fun _ => true) 33 d₁ 1 = some (some (2^30+2^17+64+255),d₂) := ⟨_,_,rfl,rfl⟩
  obtain ⟨d₁,d₂,h₁,h₂⟩ := hmems
  refine ⟨d,s',d₁,d₂,h,?_⟩
  rw [hmem,hsize]
  exact ⟨h₁,h₂,by decide⟩

end Memory
end Ixmap
