import Ixmap.MemoryCoalesce

/-! The buddy allocator when `numa_alloc_onnode` may fail at any split and requests may be of any
size. Every returning call is described once, as a relation; what a call does to a tree, to the
metadata nodes it holds and to the calls it makes follows by induction on it. -/
namespace Ixmap
namespace Memory

/-- The children `_ixmap_mem_alloc` goes on with: those of an allocated node, else two new halves. -/
inductive Opened (ok : ℕ → Bool) (m : Numa) : Mnode → Mnode → Mnode → Numa → Prop
  | kept (s p : ℕ) (c₀ c₁ : Mnode) : Opened ok m (.node true s p c₀ c₁) c₀ c₁ m
  | cut (s p : ℕ) (c₀ c₁ : Mnode) : ok m.calls = true → ok (m.calls+1) = true →
      Opened ok m (.node false s p c₀ c₁) (.node false (s/2) p .null .null)
        (.node false (s/2) (p+s/2) .null .null) ⟨m.calls+2,m.live+2⟩

/-- The calls of `_ixmap_mem_alloc` that return. -/
inductive Allocates (ok : ℕ → Bool) (size : ℕ) : Numa → Mnode → AllocRes → Prop
  | null (m : Numa) : Allocates ok size m .null ⟨none,.null,m⟩
  | take (m : Numa) {s : ℕ} (p : ℕ) (c₀ c₁ : Mnode) : s/2 < size → size ≤ s →
      Allocates ok size m (.node false s p c₀ c₁) ⟨some [],.node true s p c₀ c₁,m⟩
  | refuse (m : Numa) {a : Bool} {s : ℕ} (p : ℕ) (c₀ c₁ : Mnode) : s/2 < size →
      ¬ (a = false ∧ size ≤ s) → Allocates ok size m (.node a s p c₀ c₁) ⟨none,.node a s p c₀ c₁,m⟩
  | noFirst {m : Numa} {s : ℕ} (p : ℕ) (c₀ c₁ : Mnode) : size ≤ s/2 → ok m.calls = false →
      Allocates ok size m (.node false s p c₀ c₁) ⟨none,.node false s p .null c₁,⟨m.calls+1,m.live⟩⟩
  | noSecond {m : Numa} {s : ℕ} (p : ℕ) (c₀ c₁ : Mnode) : size ≤ s/2 → ok m.calls = true →
      ok (m.calls+1) = false →
      Allocates ok size m (.node false s p c₀ c₁) ⟨none,.node false s p .null .null,⟨m.calls+2,m.live⟩⟩
  | first {m m' : Numa} {a : Bool} {s p : ℕ} {c₀ c₁ d₀ d₁ : Mnode} {r : AllocRes} {q : Path} :
      size ≤ s/2 → Opened ok m (.node a s p c₀ c₁) d₀ d₁ m' → Allocates ok size m' d₀ r →
      r.ret = some q → Allocates ok size m (.node a s p c₀ c₁)
        ⟨some (false::q),.node true s p r.node d₁,r.numa⟩
  | second {m m' : Numa} {a : Bool} {s p : ℕ} {c₀ c₁ d₀ d₁ : Mnode} {r₀ r₁ : AllocRes} {q : Path} :
      size ≤ s/2 → Opened ok m (.node a s p c₀ c₁) d₀ d₁ m' → Allocates ok size m' d₀ r₀ →
      r₀.ret = none → Allocates ok size r₀.numa d₁ r₁ → r₁.ret = some q →
      Allocates ok size m (.node a s p c₀ c₁)
        ⟨some (true::q),.node true s p r₀.node r₁.node,r₁.numa⟩
  | neither {m m' : Numa} {a : Bool} {s p : ℕ} {c₀ c₁ d₀ d₁ : Mnode} {r₀ r₁ : AllocRes} :
      size ≤ s/2 → Opened ok m (.node a s p c₀ c₁) d₀ d₁ m' → Allocates ok size m' d₀ r₀ →
      r₀.ret = none → Allocates ok size r₀.numa d₁ r₁ → r₁.ret = none →
      Allocates ok size m (.node a s p c₀ c₁) ⟨none,.node a s p r₀.node r₁.node,r₁.numa⟩

theorem split_cases (ok : ℕ → Bool) (m : Numa) (p half : ℕ) (c : Mnode) :
    (ok m.calls = false ∧ split ok m p half c = ⟨.null,c,⟨m.calls+1,m.live⟩,true⟩) ∨
    (ok m.calls = true ∧ ok (m.calls+1) = false ∧
      split ok m p half c = ⟨.null,.null,⟨m.calls+2,m.live⟩,true⟩) ∨
    (ok m.calls = true ∧ ok (m.calls+1) = true ∧
      split ok m p half c = ⟨.node false half p .null .null,.node false half (p+half) .null .null,
        ⟨m.calls+2,m.live+2⟩,false⟩) := by
  cases h₀ : ok m.calls with
  | false => simp [split,ixmapMnodeAlloc,h₀]
  | true =>
    cases h₁ : ok (m.calls+1) with
    | false => simp [split,ixmapMnodeAlloc,h₀,h₁,Numa.release]
    | true => simp [split,ixmapMnodeAlloc,h₀,h₁]

theorem Opened.allocates {ok : ℕ → Bool} {size fuel : ℕ} {m m' : Numa} {a : Bool} {s p : ℕ}
    {c₀ c₁ d₀ d₁ : Mnode} (ho : Opened ok m (.node a s p c₀ c₁) d₀ d₁ m') (hs : size ≤ s/2)
    (ih : ∀ m t r, ixmapMemAllocRec ok fuel m t size = some r → Allocates ok size m t r)
    {r : AllocRes}
    (h : ((ixmapMemAllocRec ok fuel m' d₀ size).bind fun r₀ =>
      match r₀.ret with
      | some q => some ⟨some (false::q),.node true s p r₀.node d₁,r₀.numa⟩
      | none =>
        (ixmapMemAllocRec ok fuel r₀.numa d₁ size).bind fun r₁ =>
        match r₁.ret with
        | some q => some ⟨some (true::q),.node true s p r₀.node r₁.node,r₁.numa⟩
        | none => some ⟨none,.node a s p r₀.node r₁.node,r₁.numa⟩) = some r) :
    Allocates ok size m (.node a s p c₀ c₁) r := by
  obtain ⟨r₀,hr₀,h⟩ := Option.bind_eq_some_iff.mp h
  cases hq₀ : r₀.ret with
  | some q =>
    simp only [hq₀,Option.some.injEq] at h
    subst h
    exact .first hs ho (ih _ _ _ hr₀) hq₀
  | none =>
    simp only [hq₀] at h
    obtain ⟨r₁,hr₁,h⟩ := Option.bind_eq_some_iff.mp h
    cases hq₁ : r₁.ret with
    | some q =>
      simp only [hq₁,Option.some.injEq] at h
      subst h
      exact .second hs ho (ih _ _ _ hr₀) hq₀ (ih _ _ _ hr₁) hq₁
    | none =>
      simp only [hq₁,Option.some.injEq] at h
      subst h
      exact .neither hs ho (ih _ _ _ hr₀) hq₀ (ih _ _ _ hr₁) hq₁

theorem allocRec_allocates {ok : ℕ → Bool} {size : ℕ} (fuel : ℕ) {m : Numa} {t : Mnode} {r : AllocRes}
    (h : ixmapMemAllocRec ok fuel m t size = some r) : Allocates ok size m t r := by
  induction fuel generalizing m t r with
  | zero => simp [ixmapMemAllocRec] at h
  | succ fuel ih =>
    cases t with
    | null =>
      obtain rfl : ⟨none,.null,m⟩ = r := by simpa [ixmapMemAllocRec] using h
      exact .null m
    | node a s p c₀ c₁ =>
      rw [ixmapMemAllocRec] at h
      by_cases hlt : s/2 < size
      · rw [if_pos hlt] at h
        split_ifs at h with hfit
        · obtain ⟨rfl,hle⟩ := hfit
          obtain rfl := Option.some.inj h
          exact .take m p c₀ c₁ hlt hle
        · obtain rfl := Option.some.inj h
          exact .refuse m p c₀ c₁ hlt hfit
      have hs : size ≤ s/2 := not_lt.mp hlt
      rw [if_neg hlt] at h
      cases a with
      | true =>
        simp only [if_true,Bool.false_eq_true,if_false] at h
        exact (Opened.kept s p c₀ c₁).allocates hs (fun _ _ _ => ih) h
      | false =>
        simp only [Bool.false_eq_true,if_false] at h
        rcases split_cases ok m p (s/2) c₁ with ⟨h₀,hsp⟩ | ⟨h₀,h₁,hsp⟩ | ⟨h₀,h₁,hsp⟩
        · simp only [hsp,if_true,Option.some.injEq] at h
          subst h
          exact .noFirst p c₀ c₁ hs h₀
        · simp only [hsp,if_true,Option.some.injEq] at h
          subst h
          exact .noSecond p c₀ c₁ hs h₀ h₁
        · simp only [hsp,Bool.false_eq_true,if_false] at h
          exact (Opened.cut s p c₀ c₁ h₀ h₁).allocates hs (fun _ _ _ => ih) h

theorem Allocates.of_null {ok : ℕ → Bool} {size : ℕ} {m : Numa} {r : AllocRes}
    (h : Allocates ok size m .null r) : r = ⟨none,.null,m⟩ := by
  cases h
  rfl

theorem Allocates.ne_null {ok : ℕ → Bool} {size : ℕ} {m : Numa} {t : Mnode} {r : AllocRes}
    (h : Allocates ok size m t r) (ht : t ≠ .null) : r.node ≠ .null := by
  cases h <;> simp_all

def Mnode.count : Mnode → ℕ
  | .null => 0
  | .node _ _ _ c₀ c₁ => c₀.count+c₁.count+1

/-- No node has children without being marked as allocated. -/
def Mnode.Whole (t : Mnode) : Prop :=
  ∀ q sz pt c₀ c₁, t.get q = .node false sz pt c₀ c₁ → c₀ = .null ∧ c₁ = .null

theorem whole_node_iff {a : Bool} {s p : ℕ} {c₀ c₁ : Mnode} : (Mnode.node a s p c₀ c₁).Whole ↔
    (a = false → c₀ = .null ∧ c₁ = .null) ∧ c₀.Whole ∧ c₁.Whole := by
  constructor
  · intro h
    exact ⟨fun ha => h [] s p c₀ c₁ (by simp [Mnode.get,ha]),fun q => h (false::q),fun q => h (true::q)⟩
  · rintro ⟨ha,h₀,h₁⟩ (_ | ⟨_ | _,q⟩) sz pt d₀ d₁ hq
    · simp only [Mnode.get,Mnode.node.injEq] at hq
      obtain ⟨rfl,-,-,rfl,rfl⟩ := hq
      exact ha rfl
    · exact h₀ q sz pt d₀ d₁ hq
    · exact h₁ q sz pt d₀ d₁ hq

theorem Buddy.whole {p s : ℕ} {t : Mnode} (h : Buddy p s t) : t.Whole :=
  fun q _ _ _ _ hq => (h.node_flags q hq).2.1 rfl

/-- What the outcomes say about a request from some call on: whether it is served and the call that comes
next, or `none` if a node that it splits then serves nothing. -/
abbrev Forecast := Option (Bool × ℕ)

/-- The second half is tried where the first served nothing. -/
def Forecast.thenTry (x : Forecast) (y : ℕ → Forecast) : Forecast :=
  match x with
  | some (false,j) => y j
  | x => x

/-- A split that serves nothing stays behind. -/
def Forecast.served : Forecast → Forecast
  | some (true,j) => some (true,j)
  | _ => none

/-- A free node of `s` bytes at call `j`; `halves` goes on from the call behind its split. -/
def serveNode (ok : ℕ → Bool) (size s j : ℕ) (halves : ℕ → Forecast) : Forecast :=
  if s/2 < size then some (decide (size ≤ s),j)
  else if ok j = false then some (false,j+1)
  else if ok (j+1) = false then some (false,j+2)
  else halves (j+2)

/-- A free node with all that can be cut out of it. -/
def serveFree (ok : ℕ → Bool) (size : ℕ) : ℕ → ℕ → ℕ → Forecast
  | 0, s, j => serveNode ok size s j fun _ => none
  | depth+1, s, j => serveNode ok size s j fun j =>
      ((serveFree ok size depth (s/2) j).thenTry (serveFree ok size depth (s/2))).served

/-- The free nodes of a tree are tried from left to right. -/
def serve (ok : ℕ → Bool) (size : ℕ) : Mnode → ℕ → Forecast
  | .null, j => some (false,j)
  | .node false s _ _ _, j => serveFree ok size s s j
  | .node true s _ c₀ c₁, j =>
    if s/2 < size then some (false,j) else (serve ok size c₀ j).thenTry (serve ok size c₁)

/-- With the tree and the outcomes as they are, the request leaves no split behind that serves nothing. -/
def Settled (ok : ℕ → Bool) (d : IxmapDesc) (n : ℕ) : Prop := serve ok (request n) d.node d.numa.calls ≠ none

instance (ok : ℕ → Bool) (d : IxmapDesc) (n : ℕ) : Decidable (Settled ok d n) :=
  inferInstanceAs (Decidable (_ ≠ none))

/-- What was read off the outcomes is what the call did. -/
def Foretold (r : AllocRes) : Forecast → Prop
  | none => ¬ r.node.Whole
  | some (served,j) => r.node.Whole ∧ r.ret.isSome = served ∧ r.numa.calls = j

/-- Of the calls `l ≤ j < h`, no two successive ones succeed. -/
def NoPair (ok : ℕ → Bool) (l h : ℕ) : Prop :=
  ∀ j, l ≤ j → j+1 < h → ok j = true → ok (j+1) = false

theorem noPair_append {ok : ℕ → Bool} {l k h : ℕ} (hl : l ≤ k) (hk : k ≤ h)
    (hlast : l < k → ok (k-1) = false) : NoPair ok l h ↔ NoPair ok l k ∧ NoPair ok k h := by
  refine ⟨fun hp => ⟨fun j hj hj' => hp j hj (by omega),fun j hj => hp j (by omega)⟩,?_⟩
  rintro ⟨h₀,h₁⟩ j hj hj' hok
  rcases lt_trichotomy (j+1) k with hlt | heq | hgt
  · exact h₀ j hj hlt hok
  · have hfalse := hlast (by omega)
    rw [show k-1 = j by omega] at hfalse
    exact absurd hok (by simp [hfalse])
  · exact h₁ j (by omega) hj' hok

theorem Opened.halves {ok : ℕ → Bool} {m m' : Numa} {p s : ℕ} {t d₀ d₁ : Mnode} (ht : Buddy p s t)
    (h : Opened ok m t d₀ d₁ m') :
    (d₀ = .null ∧ d₁ = .null) ∨ (Buddy p (s/2) d₀ ∧ Buddy (p+s/2) (s/2) d₁) := by
  cases h with
  | kept =>
    cases ht with
    | leaf => exact Or.inl ⟨rfl,rfl⟩
    | split h₀ h₁ => exact Or.inr ⟨h₀,h₁⟩
  | cut =>
    cases ht
    exact Or.inr ⟨Buddy.leaf _ _ _,Buddy.leaf _ _ _⟩

theorem Buddy.children {p s sz pt : ℕ} {a : Bool} {c₀ c₁ : Mnode} (h : Buddy p s (.node a sz pt c₀ c₁)) :
    (c₀ = .null ∧ c₁ = .null) ∨ (Buddy p (s/2) c₀ ∧ Buddy (p+s/2) (s/2) c₁) := by
  cases h with
  | leaf => exact Or.inl ⟨rfl,rfl⟩
  | split h₀ h₁ => exact Or.inr ⟨h₀,h₁⟩

theorem Opened.count {ok : ℕ → Bool} {m m' : Numa} {p s : ℕ} {t d₀ d₁ : Mnode} (ht : Buddy p s t)
    (h : Opened ok m t d₀ d₁ m') : d₀.count+d₁.count+1+m.live = t.count+m'.live := by
  cases h with
  | kept => simp [Mnode.count]
  | cut =>
    cases ht
    simp only [Mnode.count]
    omega

theorem Opened.calls_le {ok : ℕ → Bool} {m m' : Numa} {t d₀ d₁ : Mnode} (h : Opened ok m t d₀ d₁ m') :
    m.calls ≤ m'.calls := by
  cases h <;> simp

/-- Opening a node changes no leaf in use, as an unallocated node of a well-formed tree is a leaf. -/
theorem Opened.live_iff {ok : ℕ → Bool} {m m' : Numa} {p s : ℕ} {a : Bool} {c₀ c₁ d₀ d₁ : Mnode}
    (ht : Buddy p s (.node a s p c₀ c₁)) (h : Opened ok m (.node a s p c₀ c₁) d₀ d₁ m') (x : Path) :
    (Mnode.node a s p d₀ d₁).Live x ↔ (Mnode.node a s p c₀ c₁).Live x := by
  cases h with
  | kept => rfl
  | cut =>
    cases ht
    exact iff_of_false (not_live_halves _ _ _ _ _ _ _ x) (not_live_leaf s p x)

theorem Allocates.calls_le {ok : ℕ → Bool} {size : ℕ} {m : Numa} {t : Mnode} {r : AllocRes}
    (h : Allocates ok size m t r) : m.calls ≤ r.numa.calls := by
  induction h with
  | null | take | refuse => exact le_rfl
  | noFirst | noSecond => simp
  | first _ ho _ _ ih => exact ho.calls_le.trans ih
  | second _ ho _ _ _ _ ih₀ ih₁ => exact (ho.calls_le.trans ih₀).trans ih₁
  | neither _ ho _ _ _ _ ih₀ ih₁ => exact (ho.calls_le.trans ih₀).trans ih₁

/-- A free node that is large enough is refused only after a call to `numa_alloc_onnode`. -/
theorem Allocates.tries {ok : ℕ → Bool} {size : ℕ} {m : Numa} {s p : ℕ} {c₀ c₁ : Mnode} {r : AllocRes}
    (h : Allocates ok size m (.node false s p c₀ c₁) r) (hs : size ≤ s) (hr : r.ret = none) :
    m.calls < r.numa.calls := by
  cases h with
  | take | first | second => simp at hr
  | refuse _ _ _ _ _ hno => exact absurd ⟨rfl,hs⟩ hno
  | noFirst | noSecond => simp
  | neither _ ho h₀ _ h₁ _ =>
    have hle := h₀.calls_le.trans h₁.calls_le
    cases ho
    simp only at hle ⊢
    omega

theorem Allocates.last {ok : ℕ → Bool} {size : ℕ} {m : Numa} {t : Mnode} {r : AllocRes}
    (h : Allocates ok size m t r) (hr : r.ret = none) (hc : m.calls < r.numa.calls) :
    ok (r.numa.calls-1) = false := by
  induction h with
  | null | refuse => simp at hc
  | take | first | second => simp at hr
  | noFirst _ _ _ _ h₀ => simpa using h₀
  | noSecond _ _ _ _ _ h₁ => simpa using h₁
  | @neither m m' a s p c₀ c₁ d₀ d₁ r₀ r₁ hs ho h₀ hr₀ h₁ hr₁ ih₀ ih₁ =>
    rcases h₁.calls_le.eq_or_lt with heq | hlt
    · have hlt₀ : m'.calls < r₀.numa.calls := by
        cases ho with
        | kept => exact heq ▸ hc
        | cut => exact h₀.tries hs hr₀
      simp only [← heq]
      exact ih₀ hr₀ hlt₀
    · exact ih₁ hr₁ hlt

theorem Fresh.congr {p s size : ℕ} {t u t' : Mnode} {q : Path} (h : Fresh p s t t' size q)
    (he : ∀ x, t.Live x ↔ u.Live x) : Fresh p s u t' size q :=
  ⟨h.buddy,fun hq => h.new ((he q).mpr hq),h.fits,h.used,fun x => by rw [h.live,he]⟩

/-- What a returning call does to a well-formed tree, however many of its splits fail. -/
structure FailSpec (ok : ℕ → Bool) (p s : ℕ) (t : Mnode) (size : ℕ) (m : Numa) (r : AllocRes) :
    Prop where
  counted : r.node.count+m.live = t.count+r.numa.live
  pairs : r.ret = none → (r.node = t ↔ NoPair ok m.calls r.numa.calls)
  same : r.ret = none → r.node.Whole → r.node = t
  fresh : ∀ q, r.ret = some q → r.node.Whole → 0 < size ∧ Fresh p s t r.node size q

theorem noPair_of_le {ok : ℕ → Bool} {l h : ℕ} (hle : h ≤ l+1) : NoPair ok l h :=
  fun j hj hj' => by omega

theorem FailSpec.unchanged {ok : ℕ → Bool} {p s size : ℕ} {t : Mnode} {m m' : Numa}
    (hl : m'.live = m.live) (hp : NoPair ok m.calls m'.calls) :
    FailSpec ok p s t size m ⟨none,t,m'⟩ :=
  ⟨by simp [hl],fun _ => iff_of_true rfl hp,fun _ _ => rfl,by simp⟩

theorem FailSpec.first {ok : ℕ → Bool} {p s size : ℕ} {a : Bool} {c₀ c₁ d₀ d₁ : Mnode} {m m' : Numa}
    {r : AllocRes} {q : Path} (ht : Buddy p s (.node a s p c₀ c₁))
    (ho : Opened ok m (.node a s p c₀ c₁) d₀ d₁ m') (h₀ : Buddy p (s/2) d₀)
    (h₁ : Buddy (p+s/2) (s/2) d₁) (hr : r.ret = some q) (hs : FailSpec ok p (s/2) d₀ size m' r) :
    FailSpec ok p s (.node a s p c₀ c₁) size m ⟨some (false::q),.node true s p r.node d₁,r.numa⟩ := by
  refine ⟨?_,by simp,by simp,?_⟩
  · have hc := ho.count ht
    have hr := hs.counted
    simp only [Mnode.count] at hc ⊢
    omega
  · rintro q' hq' hw
    obtain rfl : false::q = q' := by simpa using hq'
    obtain ⟨hpos,hf⟩ := hs.fresh q hr (whole_node_iff.mp hw).2.1
    exact ⟨hpos,(hf.first h₁ h₀.ne_null).congr (ho.live_iff ht)⟩

theorem FailSpec.second {ok : ℕ → Bool} {p s size : ℕ} {a : Bool} {c₀ c₁ d₀ d₁ : Mnode} {m m' : Numa}
    {r₀ r₁ : AllocRes} {q : Path} (ht : Buddy p s (.node a s p c₀ c₁))
    (ho : Opened ok m (.node a s p c₀ c₁) d₀ d₁ m') (h₀ : Buddy p (s/2) d₀) (hr₀ : r₀.ret = none)
    (hr₁ : r₁.ret = some q) (hs₀ : FailSpec ok p (s/2) d₀ size m' r₀)
    (hs₁ : FailSpec ok (p+s/2) (s/2) d₁ size r₀.numa r₁) :
    FailSpec ok p s (.node a s p c₀ c₁) size m
      ⟨some (true::q),.node true s p r₀.node r₁.node,r₁.numa⟩ := by
  refine ⟨?_,by simp,by simp,?_⟩
  · have hc := ho.count ht
    have hc₀ := hs₀.counted
    have hc₁ := hs₁.counted
    simp only [Mnode.count] at hc ⊢
    omega
  · rintro q' hq' hw
    obtain rfl : true::q = q' := by simpa using hq'
    obtain ⟨-,hw₀,hw₁⟩ := whole_node_iff.mp hw
    obtain ⟨hpos,hf⟩ := hs₁.fresh q hr₁ hw₁
    simp only [hs₀.same hr₀ hw₀]
    exact ⟨hpos,(hf.second h₀).congr (ho.live_iff ht)⟩

/-- Both halves returned NULL: an allocated node keeps its children as they are, a new split stays
behind. -/
theorem FailSpec.neither {ok : ℕ → Bool} {p s size : ℕ} {a : Bool} {c₀ c₁ d₀ d₁ : Mnode} {m m' : Numa}
    {r₀ r₁ : AllocRes} (ht : Buddy p s (.node a s p c₀ c₁))
    (ho : Opened ok m (.node a s p c₀ c₁) d₀ d₁ m') (h₀ : Allocates ok size m' d₀ r₀)
    (hr₀ : r₀.ret = none) (h₁ : Allocates ok size r₀.numa d₁ r₁) (hr₁ : r₁.ret = none)
    (hs₀ : FailSpec ok p (s/2) d₀ size m' r₀)
    (hs₁ : FailSpec ok (p+s/2) (s/2) d₁ size r₀.numa r₁) :
    FailSpec ok p s (.node a s p c₀ c₁) size m ⟨none,.node a s p r₀.node r₁.node,r₁.numa⟩ := by
  have hcount : (Mnode.node a s p r₀.node r₁.node).count+m.live =
      (Mnode.node a s p c₀ c₁).count+r₁.numa.live := by
    have hc := ho.count ht
    have hc₀ := hs₀.counted
    have hc₁ := hs₁.counted
    simp only [Mnode.count] at hc ⊢
    omega
  have hle₀ := h₀.calls_le
  have hle₁ := h₁.calls_le
  cases ho with
  | kept =>
    refine ⟨hcount,fun _ => ?_,fun _ hw => ?_,by simp⟩
    · rw [noPair_append hle₀ hle₁ (h₀.last hr₀),← hs₀.pairs hr₀,← hs₁.pairs hr₁]
      simp
    · rw [hs₀.same hr₀ (whole_node_iff.mp hw).2.1,hs₁.same hr₁ (whole_node_iff.mp hw).2.2]
  | cut _ _ _ _ hok₀ hok₁ =>
    have hne : r₀.node ≠ .null := h₀.ne_null (by simp)
    have hc₀ : c₀ = .null := (ht.whole [] s p c₀ c₁ rfl).1
    refine ⟨hcount,fun _ => iff_of_false ?_ ?_,fun _ hw => ?_,by simp⟩
    · intro he
      simp only [Mnode.node.injEq] at he
      exact hne (he.2.2.2.1.trans hc₀)
    · intro hp
      simp only at hle₀
      simpa [hok₁] using hp m.calls le_rfl (by simp only; omega) hok₀
    · exact absurd ((whole_node_iff.mp hw).1 rfl).1 hne

theorem Allocates.spec {ok : ℕ → Bool} {size : ℕ} {p s : ℕ} {m : Numa} {t : Mnode} {r : AllocRes}
    (h : Allocates ok size m t r) (ht : t = .null ∨ Buddy p s t) : FailSpec ok p s t size m r := by
  induction h generalizing p s with
  | null => exact .unchanged rfl (noPair_of_le (by simp))
  | take m p' c₀ c₁ hlt hle =>
    cases ht.resolve_left (by simp) with
    | leaf =>
      refine ⟨by simp [Mnode.count],by simp,by simp,?_⟩
      rintro q hq -
      obtain rfl : [] = q := by simpa using hq
      refine ⟨by omega,Buddy.leaf _ _ _,by simp,hle,rfl,?_⟩
      rintro (_ | ⟨_ | _,x⟩) <;> simp
  | refuse => exact .unchanged rfl (noPair_of_le (by simp))
  | noFirst =>
    cases ht.resolve_left (by simp) with
    | leaf => exact .unchanged rfl (noPair_of_le (by simp))
  | noSecond _ _ _ _ hok₀ hok₁ =>
    cases ht.resolve_left (by simp) with
    | leaf =>
      refine .unchanged rfl ?_
      intro j hj hj' _
      obtain rfl : j = _ := le_antisymm (by simp only at hj'; omega) hj
      exact hok₁
  | first hs ho h₀ hr ih =>
    have hb := ht.resolve_left (by simp)
    obtain ⟨rfl,rfl⟩ := hb.size_ptr
    rcases ho.halves hb with ⟨rfl,-⟩ | ⟨hb₀,hb₁⟩
    · simp [h₀.of_null] at hr
    · exact .first hb ho hb₀ hb₁ hr (ih (Or.inr hb₀))
  | second hs ho h₀ hr₀ h₁ hr₁ ih₀ ih₁ =>
    have hb := ht.resolve_left (by simp)
    obtain ⟨rfl,rfl⟩ := hb.size_ptr
    rcases ho.halves hb with ⟨-,rfl⟩ | ⟨hb₀,hb₁⟩
    · simp [h₁.of_null] at hr₁
    · exact .second hb ho hb₀ hr₀ hr₁ (ih₀ (Or.inr hb₀)) (ih₁ (Or.inr hb₁))
  | neither hs ho h₀ hr₀ h₁ hr₁ ih₀ ih₁ =>
    have hb := ht.resolve_left (by simp)
    obtain ⟨rfl,rfl⟩ := hb.size_ptr
    have hh := ho.halves hb
    exact .neither hb ho h₀ hr₀ h₁ hr₁ (ih₀ (hh.imp And.left And.left)) (ih₁ (hh.imp And.right And.right))

theorem Allocates.of_zero {ok : ℕ → Bool} {m : Numa} {t : Mnode} {r : AllocRes} (h : Allocates ok 0 m t r) :
    r.ret = none := by
  induction h with
  | null | refuse | noFirst | noSecond | neither => rfl
  | take _ _ _ _ hlt => omega
  | first _ _ _ hr ih => simp [ih] at hr
  | second _ _ _ _ _ hr _ ih => simp [ih] at hr

section Foretold
variable {ok : ℕ → Bool} {size s p : ℕ} {d₁ : Mnode} {r r₀ r₁ : AllocRes} {q : Path} {x : Forecast} {y : ℕ → Forecast}

theorem Foretold.served (h : Foretold r x) (hr : r.ret.isSome = true) : Foretold r x.served := by
  rcases x with _ | ⟨_ | _,j⟩
  · exact h
  · exact absurd (hr.symm.trans h.2.1) (by simp)
  · exact h

theorem Foretold.first (h : Foretold r x) (hr : r.ret = some q) (hd : d₁.Whole) :
    Foretold ⟨some (false::q),.node true s p r.node d₁,r.numa⟩ (x.thenTry y) := by
  rcases x with _ | ⟨_ | _,j⟩
  · exact fun hw => h (whole_node_iff.mp hw).2.1
  · exact absurd h.2.1 (by simp [hr])
  · exact ⟨whole_node_iff.mpr ⟨by simp,h.1,hd⟩,rfl,h.2.2⟩

theorem Foretold.second {ret : Option Path} (h₀ : Foretold r₀ x) (hr₀ : r₀.ret = none)
    (h₁ : Foretold r₁ (y r₀.numa.calls)) (hret : ret.isSome = r₁.ret.isSome) :
    Foretold ⟨ret,.node true s p r₀.node r₁.node,r₁.numa⟩ (x.thenTry y) := by
  rcases x with _ | ⟨_ | _,j⟩
  · exact fun hw => h₀ (whole_node_iff.mp hw).2.1
  · obtain ⟨hw₀,-,rfl⟩ := h₀
    simp only [Forecast.thenTry]
    cases hy : y r₀.numa.calls with
    | none =>
      rw [hy] at h₁
      exact fun hw => h₁ (whole_node_iff.mp hw).2.2
    | some z =>
      rw [hy] at h₁
      exact ⟨whole_node_iff.mpr ⟨by simp,hw₀,h₁.1⟩,hret.trans h₁.2.1,h₁.2.2⟩
  · exact absurd h₀.2.1 (by simp [hr₀])

theorem Foretold.neither (h₀ : Foretold r₀ x) (hr₀ : r₀.ret = none) (h₁ : Foretold r₁ (y r₀.numa.calls))
    (hr₁ : r₁.ret = none) (hne : r₀.node ≠ .null) :
    Foretold ⟨none,.node false s p r₀.node r₁.node,r₁.numa⟩ (x.thenTry y).served := by
  have hnone : (x.thenTry y).served = none := by
    rcases x with _ | ⟨_ | _,j⟩
    · rfl
    · obtain ⟨-,-,rfl⟩ := h₀
      simp only [Forecast.thenTry]
      cases hy : y r₀.numa.calls with
      | none => rfl
      | some z =>
        rw [hy] at h₁
        obtain ⟨served,j⟩ := z
        obtain rfl : false = served := by simpa [hr₁] using h₁.2.1
        rfl
    · exact absurd h₀.2.1 (by simp [hr₀])
  rw [hnone]
  exact fun hw => hne ((whole_node_iff.mp hw).1 rfl).1

theorem serveFree_node (ok : ℕ → Bool) (size depth s j : ℕ) :
    ∃ halves, serveFree ok size depth s j = serveNode ok size s j halves := by
  cases depth <;> exact ⟨_,rfl⟩

theorem serveNode_split {j : ℕ} {halves : ℕ → Forecast} (hs : size ≤ s/2) (h₀ : ok j = true)
    (h₁ : ok (j+1) = true) : serveNode ok size s j halves = halves (j+2) := by
  rw [serveNode,if_neg (by omega),if_neg (by simp [h₀]),if_neg (by simp [h₁])]

theorem Allocates.foretold_free {m : Numa} {t : Mnode} {depth : ℕ} (h : Allocates ok size m t r)
    (ht : t = .node false s p .null .null) (hdepth : s ≤ depth) :
    Foretold r (serveFree ok size depth s m.calls) := by
  have hleaf : ∀ (a : Bool) (s p : ℕ), (Mnode.node a s p .null .null).Whole := fun a s p => (Buddy.leaf a p s).whole
  induction h generalizing s p depth with
  | null => simp at ht
  | take m p' c₀ c₁ hlt hle =>
    obtain ⟨-,rfl,rfl,rfl,rfl⟩ := Mnode.node.inj ht
    obtain ⟨halves,hnode⟩ := serveFree_node ok size depth _ m.calls
    rw [hnode,serveNode,if_pos hlt]
    exact ⟨hleaf _ _ _,by simp [hle],rfl⟩
  | refuse m p' c₀ c₁ hlt hno =>
    obtain ⟨rfl,rfl,rfl,rfl,rfl⟩ := Mnode.node.inj ht
    obtain ⟨halves,hnode⟩ := serveFree_node ok size depth _ m.calls
    rw [hnode,serveNode,if_pos hlt]
    exact ⟨hleaf _ _ _,by simpa using hno,rfl⟩
  | @noFirst m _ p' c₀ c₁ hs h₀ =>
    obtain ⟨-,rfl,rfl,rfl,rfl⟩ := Mnode.node.inj ht
    obtain ⟨halves,hnode⟩ := serveFree_node ok size depth _ m.calls
    rw [hnode,serveNode,if_neg (not_lt.mpr hs),if_pos h₀]
    exact ⟨hleaf _ _ _,rfl,rfl⟩
  | @noSecond m _ p' c₀ c₁ hs h₀ h₁ =>
    obtain ⟨-,rfl,rfl,rfl,rfl⟩ := Mnode.node.inj ht
    obtain ⟨halves,hnode⟩ := serveFree_node ok size depth _ m.calls
    rw [hnode,serveNode,if_neg (not_lt.mpr hs),if_neg (by simp [h₀]),if_pos h₁]
    exact ⟨hleaf _ _ _,rfl,rfl⟩
  | first hs ho h₀ hr ih =>
    obtain ⟨rfl,rfl,rfl,rfl,rfl⟩ := Mnode.node.inj ht
    cases ho with
    | cut _ _ _ _ hok₀ hok₁ =>
      cases depth with
      | zero =>
        obtain rfl : size = 0 := by omega
        simp [h₀.of_zero] at hr
      | succ depth =>
        rw [serveFree,serveNode_split hs hok₀ hok₁]
        exact ((ih rfl (by omega)).first hr (hleaf _ _ _)).served rfl
  | second hs ho h₀ hr₀ h₁ hr₁ ih₀ ih₁ =>
    obtain ⟨rfl,rfl,rfl,rfl,rfl⟩ := Mnode.node.inj ht
    cases ho with
    | cut _ _ _ _ hok₀ hok₁ =>
      cases depth with
      | zero =>
        obtain rfl : size = 0 := by omega
        simp [h₁.of_zero] at hr₁
      | succ depth =>
        rw [serveFree,serveNode_split hs hok₀ hok₁]
        exact ((ih₀ rfl (by omega)).second hr₀ (ih₁ rfl (by omega)) (by simp [hr₁])).served rfl
  | neither hs ho h₀ hr₀ h₁ hr₁ ih₀ ih₁ =>
    obtain ⟨rfl,rfl,rfl,rfl,rfl⟩ := Mnode.node.inj ht
    cases ho with
    | cut _ _ _ _ hok₀ hok₁ =>
      have hne : _ ≠ Mnode.null := h₀.ne_null (by simp)
      cases depth with
      | zero =>
        rw [serveFree,serveNode_split hs hok₀ hok₁]
        exact fun hw => hne ((whole_node_iff.mp hw).1 rfl).1
      | succ depth =>
        rw [serveFree,serveNode_split hs hok₀ hok₁]
        exact (ih₀ rfl (by omega)).neither hr₀ (ih₁ rfl (by omega)) hr₁ hne

theorem Allocates.foretold {m : Numa} {t : Mnode} (h : Allocates ok size m t r) (ht : t = .null ∨ Buddy p s t) :
    Foretold r (serve ok size t m.calls) := by
  induction h generalizing p s with
  | null => exact ⟨by simp [Mnode.Whole],rfl,rfl⟩
  | take m p' c₀ c₁ hlt hle =>
    cases ht.resolve_left (by simp) with
    | leaf => exact (Allocates.take m p' .null .null hlt hle).foretold_free rfl le_rfl
  | @refuse m a s' p' c₀ c₁ hlt hno =>
    have hb := ht.resolve_left (by simp)
    cases a with
    | false =>
      cases hb
      exact (Allocates.refuse m p' .null .null hlt hno).foretold_free rfl le_rfl
    | true =>
      rw [serve,if_pos hlt]
      exact ⟨hb.whole,rfl,rfl⟩
  | noFirst p' c₀ c₁ hs h₀ =>
    cases ht.resolve_left (by simp) with
    | leaf => exact (Allocates.noFirst p' .null .null hs h₀).foretold_free rfl le_rfl
  | noSecond p' c₀ c₁ hs h₀ h₁ =>
    cases ht.resolve_left (by simp) with
    | leaf => exact (Allocates.noSecond p' .null .null hs h₀ h₁).foretold_free rfl le_rfl
  | @first m m' a s' p' c₀ c₁ d₀ d₁ r q hs ho h₀ hr ih =>
    have hb := ht.resolve_left (by simp)
    cases a with
    | false =>
      cases hb
      exact (Allocates.first hs ho h₀ hr).foretold_free rfl le_rfl
    | true =>
      cases ho
      rw [serve,if_neg (by omega)]
      rcases hb.children with ⟨rfl,-⟩ | ⟨hb₀,hb₁⟩
      · simp [h₀.of_null] at hr
      · exact (ih (Or.inr hb₀)).first hr hb₁.whole
  | @second m m' a s' p' c₀ c₁ d₀ d₁ r₀ r₁ q hs ho h₀ hr₀ h₁ hr₁ ih₀ ih₁ =>
    have hb := ht.resolve_left (by simp)
    cases a with
    | false =>
      cases hb
      exact (Allocates.second hs ho h₀ hr₀ h₁ hr₁).foretold_free rfl le_rfl
    | true =>
      cases ho
      rw [serve,if_neg (by omega)]
      have hh := hb.children
      exact (ih₀ (hh.imp And.left And.left)).second hr₀ (ih₁ (hh.imp And.right And.right)) (by simp [hr₁])
  | @neither m m' a s' p' c₀ c₁ d₀ d₁ r₀ r₁ hs ho h₀ hr₀ h₁ hr₁ ih₀ ih₁ =>
    have hb := ht.resolve_left (by simp)
    cases a with
    | false =>
      cases hb
      exact (Allocates.neither hs ho h₀ hr₀ h₁ hr₁).foretold_free rfl le_rfl
    | true =>
      cases ho
      rw [serve,if_neg (by omega)]
      have hh := hb.children
      exact (ih₀ (hh.imp And.left And.left)).second hr₀ (ih₁ (hh.imp And.right And.right)) (by simp [hr₁])

end Foretold

/-- The calls of `_ixmap_mem_free` that return: a node keeps its halves unless the freed one reached
the top of its side and the other is not in use. -/
inductive Frees (m : Numa) : Mnode → Path → FreeRes → Prop
  | here (a : Bool) (s p : ℕ) (c₀ c₁ : Mnode) :
      Frees m (.node a s p c₀ c₁) [] ⟨.node false s p c₀ c₁,true,m⟩
  | keepFirst {a : Bool} {s p : ℕ} {c₀ c₁ : Mnode} {q : Path} {r : FreeRes} : Frees m c₀ q r →
      Frees m (.node a s p c₀ c₁) (false::q) ⟨.node a s p r.node c₁,false,r.numa⟩
  | keepSecond {a : Bool} {s p : ℕ} {c₀ c₁ : Mnode} {q : Path} {r : FreeRes} : Frees m c₁ q r →
      Frees m (.node a s p c₀ c₁) (true::q) ⟨.node a s p c₀ r.node,false,r.numa⟩
  | mergeFirst {a : Bool} {s p : ℕ} {c₀ c₁ : Mnode} {q : Path} {r : FreeRes} : Frees m c₀ q r →
      r.up = true → c₁.allocated = false →
      Frees m (.node a s p c₀ c₁) (false::q) ⟨.node false s p .null .null,true,r.numa.release.release⟩
  | mergeSecond {a : Bool} {s p : ℕ} {c₀ c₁ : Mnode} {q : Path} {r : FreeRes} : Frees m c₁ q r →
      r.up = true → c₀.allocated = false →
      Frees m (.node a s p c₀ c₁) (true::q) ⟨.node false s p .null .null,true,r.numa.release.release⟩

theorem mergeUp_cases {s p : ℕ} {keep b : Mnode} {m : Numa} {r : FreeRes}
    (hr : mergeUp s p keep b m = some r) : r = ⟨keep,false,m⟩ ∨
      (b.allocated = false ∧ r = ⟨.node false s p .null .null,true,m.release.release⟩) := by
  cases b with
  | null => simp [mergeUp] at hr
  | node a =>
    cases a with
    | true => exact Or.inl (Option.some.inj hr).symm
    | false => exact Or.inr ⟨rfl,(Option.some.inj hr).symm⟩

theorem frees_of_freeRec {m : Numa} {t : Mnode} {q : Path} {r : FreeRes}
    (hr : ixmapMemFreeRec m t q = some r) : Frees m t q r := by
  induction t generalizing q r with
  | null => simp [ixmapMemFreeRec] at hr
  | node a s p c₀ c₁ ih₀ ih₁ =>
    rcases q with _ | ⟨_ | _,q⟩
    · obtain rfl := Option.some.inj hr
      exact .here a s p c₀ c₁
    · obtain ⟨r₀,hr₀,hr⟩ := Option.bind_eq_some_iff.mp hr
      split_ifs at hr with hup
      · rcases mergeUp_cases hr with rfl | ⟨hb,rfl⟩
        · exact .keepFirst (ih₀ hr₀)
        · exact .mergeFirst (ih₀ hr₀) hup hb
      · obtain rfl := Option.some.inj hr
        exact .keepFirst (ih₀ hr₀)
    · obtain ⟨r₁,hr₁,hr⟩ := Option.bind_eq_some_iff.mp hr
      split_ifs at hr with hup
      · rcases mergeUp_cases hr with rfl | ⟨hb,rfl⟩
        · exact .keepSecond (ih₁ hr₁)
        · exact .mergeSecond (ih₁ hr₁) hup hb
      · obtain rfl := Option.some.inj hr
        exact .keepSecond (ih₁ hr₁)

theorem Buddy.live_child {p s : ℕ} {a b : Bool} {sz pt : ℕ} {c₀ c₁ : Mnode} {q : Path}
    (h : Buddy p s (.node a sz pt c₀ c₁)) (hq : (Mnode.node a sz pt c₀ c₁).Live (b::q)) :
    Buddy p (s/2) c₀ ∧ Buddy (p+s/2) (s/2) c₁ := by
  cases h with
  | leaf => cases b <;> simp at hq
  | split h₀ h₁ => exact ⟨h₀,h₁⟩

/-- `_ixmap_mem_free` returns as many metadata nodes as the tree loses. -/
theorem Frees.count {m : Numa} {t : Mnode} {q : Path} {r : FreeRes} (hr : Frees m t q r) {p s : ℕ}
    (h : Buddy p s t) (hq : t.Live q) (hm : t.count ≤ m.live) :
    r.node.count+m.live = t.count+r.numa.live ∧ (r.up = true → r.node.count = 1) := by
  induction hr generalizing p s with
  | here =>
    obtain ⟨-,rfl,rfl⟩ := (live_nil _ _ _ _ _).mp hq
    exact ⟨rfl,fun _ => rfl⟩
  | keepFirst _ ih =>
    simp only [Mnode.count] at hm ⊢
    obtain ⟨hc,-⟩ := ih (h.live_child hq).1 (by simpa using hq) (by omega)
    exact ⟨by omega,by simp⟩
  | keepSecond _ ih =>
    simp only [Mnode.count] at hm ⊢
    obtain ⟨hc,-⟩ := ih (h.live_child hq).2 (by simpa using hq) (by omega)
    exact ⟨by omega,by simp⟩
  | mergeFirst _ hup hb ih =>
    obtain ⟨h₀,h₁⟩ := h.live_child hq
    rw [h₁.eq_leaf hb] at hm ⊢
    simp only [Mnode.count,Numa.release] at hm ⊢
    obtain ⟨hc,hone⟩ := ih h₀ (by simpa using hq) (by omega)
    have := hone hup
    exact ⟨by omega,fun _ => trivial⟩
  | mergeSecond _ hup hb ih =>
    obtain ⟨h₀,h₁⟩ := h.live_child hq
    rw [h₀.eq_leaf hb] at hm ⊢
    simp only [Mnode.count,Numa.release] at hm ⊢
    obtain ⟨hc,hone⟩ := ih h₁ (by simpa using hq) (by omega)
    have := hone hup
    exact ⟨by omega,fun _ => trivial⟩

/-- Runs in which each call of `numa_alloc_onnode` succeeds or fails as `ok` says, over requests of
any size; `C` is a condition on every request and the descriptor in front of it. -/
inductive MemRun (C : IxmapDesc → ℕ → Prop) (ok : ℕ → Bool) (ptr size : ℕ) : MemState → Prop
  | init : ok 0 = true → MemRun C ok ptr size ⟨ixmapMemInit ok ptr size,[]⟩
  | null {s : MemState} {fuel n : ℕ} {d : IxmapDesc} : MemRun C ok ptr size s → C s.desc n →
      ixmapMemAlloc ok fuel s.desc n = some (none,d) → MemRun C ok ptr size ⟨d,s.live⟩
  | alloc {s : MemState} {fuel n a : ℕ} {d : IxmapDesc} : MemRun C ok ptr size s → C s.desc n →
      ixmapMemAlloc ok fuel s.desc n = some (some a,d) → MemRun C ok ptr size ⟨d,(a,n)::s.live⟩
  | free {s : MemState} {b : ℕ × ℕ} {d : IxmapDesc} : MemRun C ok ptr size s → b ∈ s.live →
      ixmapMemFree s.desc b.1 = some d → MemRun C ok ptr size ⟨d,s.live.erase b⟩

/-- The blocks as starting points only, whatever sizes were asked for. -/
def MemState.starts (s : MemState) : MemState := ⟨s.desc,s.live.map fun b => (b.1,0)⟩

theorem map_start_erase {l : List (ℕ × ℕ)} (hl : (l.map Prod.fst).Nodup) {b : ℕ × ℕ} (hb : b ∈ l) :
    (l.erase b).map (fun b => (b.1,0)) = (l.map fun b => (b.1,0)).erase (b.1,0) := by
  induction l with
  | nil => simp at hb
  | cons c l ih =>
    simp only [List.map_cons,List.nodup_cons] at hl
    rcases List.mem_cons.mp hb with rfl | hb
    · simp
    · have hne : c.1 ≠ b.1 := fun he => hl.1 (he ▸ List.mem_map_of_mem hb)
      have hne' : c ≠ b := fun he => hne (congrArg Prod.fst he)
      simp [List.erase_cons_tail,hne,hne',ih hl.2 hb]

/-- What holds along the runs whose calls leave every tree whole. -/
structure FailInv (ptr size : ℕ) (s : MemState) : Prop where
  inv : MemInv ptr size s.starts
  counted : s.desc.numa.live = s.desc.node.count

theorem memAlloc_none {ok : ℕ → Bool} {fuel n : ℕ} {d d' : IxmapDesc}
    (h : ixmapMemAlloc ok fuel d n = some (none,d')) :
    d'.header = d.header ∧ Allocates ok (request n) d.numa d.node ⟨none,d'.node,d'.numa⟩ := by
  obtain ⟨r,hr,h⟩ := Option.map_eq_some_iff.mp h
  have ha := allocRec_allocates fuel hr
  cases hq : r.ret with
  | none =>
    simp only [hq,Prod.mk.injEq,true_and] at h
    subst h
    exact ⟨rfl,by rwa [← hq]⟩
  | some q => simp [hq] at h

theorem memAlloc_some {ok : ℕ → Bool} {fuel n a : ℕ} {d d' : IxmapDesc}
    (h : ixmapMemAlloc ok fuel d n = some (some a,d')) :
    ∃ q, a = (d'.node.get q).ptr+headerBytes ∧
      d'.header = Function.update d.header (d'.node.get q).ptr q ∧
      Allocates ok (request n) d.numa d.node ⟨some q,d'.node,d'.numa⟩ := by
  obtain ⟨r,hr,h⟩ := Option.map_eq_some_iff.mp h
  have ha := allocRec_allocates fuel hr
  cases hq : r.ret with
  | none => simp [hq] at h
  | some q =>
    simp only [hq,Prod.mk.injEq,Option.some.injEq] at h
    obtain ⟨rfl,rfl⟩ := h
    exact ⟨q,rfl,rfl,by rwa [← hq]⟩

/-- A call leaves a node split but unallocated exactly when the tree and the outcomes in front of it say so. -/
theorem whole_iff_settled {ok : ℕ → Bool} {fuel n ptr size : ℕ} {d d' : IxmapDesc} {ret : Option ℕ}
    (hb : Buddy ptr size d.node) (h : ixmapMemAlloc ok fuel d n = some (ret,d')) :
    d'.node.Whole ↔ Settled ok d n := by
  have hcall : ∃ q, Allocates ok (request n) d.numa d.node ⟨q,d'.node,d'.numa⟩ := by
    cases ret with
    | none => exact ⟨none,(memAlloc_none h).2⟩
    | some a =>
      obtain ⟨q,-,-,ha⟩ := memAlloc_some h
      exact ⟨some q,ha⟩
  obtain ⟨q,ha⟩ := hcall
  have hsaid := ha.foretold (Or.inr hb)
  unfold Settled
  cases hserve : serve ok (request n) d.node d.numa.calls with
  | none =>
    rw [hserve] at hsaid
    exact iff_of_false hsaid (by simp)
  | some x =>
    rw [hserve] at hsaid
    exact iff_of_true hsaid.1 (by simp)

theorem headerBytes_le_request {n : ℕ} (h : 0 < request n) : headerBytes ≤ request n := by
  unfold request align headerBytes at *
  omega

theorem FailInv.null {ok : ℕ → Bool} {fuel ptr size n : ℕ} {s : MemState} {d : IxmapDesc}
    (hs : FailInv ptr size s) (h : ixmapMemAlloc ok fuel s.desc n = some (none,d)) (hw : d.node.Whole) :
    FailInv ptr size ⟨d,s.live⟩ := by
  obtain ⟨hheader,ha⟩ := memAlloc_none h
  have spec := ha.spec (Or.inr hs.inv.buddy)
  have hsame : d.node = s.desc.node := spec.same rfl hw
  have hcount := spec.counted
  have hlive := hs.counted
  obtain ⟨hb,hnd,hblock,howned⟩ := hs.inv
  refine ⟨⟨?_,hnd,?_,?_⟩,?_⟩
  · simpa [MemState.starts,hsame] using hb
  · simpa [MemState.starts,hsame,hheader] using hblock
  · simpa [MemState.starts,hsame,hheader] using howned
  · simp only at hcount ⊢
    omega

theorem FailInv.alloc {ok : ℕ → Bool} {fuel ptr size n a : ℕ} {s : MemState} {d : IxmapDesc}
    (hs : FailInv ptr size s) (h : ixmapMemAlloc ok fuel s.desc n = some (some a,d))
    (hw : d.node.Whole) : FailInv ptr size ⟨d,(a,n)::s.live⟩ := by
  obtain ⟨q,rfl,hheader,ha⟩ := memAlloc_some h
  have spec := ha.spec (Or.inr hs.inv.buddy)
  obtain ⟨hpos,hf⟩ := spec.fresh q rfl hw
  have hcount := spec.counted
  have hlive := hs.counted
  have hgrow := hs.inv.grow (n:=0) hf ((headerBytes_le_request hpos).trans hf.fits) d.numa
  refine ⟨?_,?_⟩
  · rw [← hf.ptr,show s.starts.desc = s.desc from rfl,← hheader] at hgrow
    exact hgrow
  · simp only at hcount ⊢
    omega

theorem FailInv.free {ptr size : ℕ} {s : MemState} {b : ℕ × ℕ} {d : IxmapDesc}
    (hs : FailInv ptr size s) (hb : b ∈ s.live) (h : ixmapMemFree s.desc b.1 = some d) :
    FailInv ptr size ⟨d,s.live.erase b⟩ := by
  have hmem : (b.1,0) ∈ s.starts.live := List.mem_map_of_mem (f := fun b : ℕ × ℕ => (b.1,0)) hb
  have hnd : (s.live.map Prod.fst).Nodup := by
    simpa [MemState.starts,Function.comp_def] using hs.inv.nodup
  refine ⟨?_,?_⟩
  · have hinv := memFree_inv hs.inv hmem h
    rwa [MemState.starts,← map_start_erase hnd hb] at hinv
  · obtain ⟨r,hr,rfl⟩ := Option.map_eq_some_iff.mp h
    have hcount := ((frees_of_freeRec hr).count hs.inv.buddy (hs.inv.block _ hmem).1 hs.counted.ge).1
    have hlive := hs.counted
    simp only at hcount ⊢
    omega

theorem memRun_failInv {C : IxmapDesc → ℕ → Prop} {ok : ℕ → Bool} (hC : ∀ d n, C d n → Settled ok d n)
    {ptr size : ℕ} {s : MemState} (h : MemRun C ok ptr size s) : FailInv ptr size s := by
  induction h with
  | init h₀ =>
    have hn : ixmapMemInit ok ptr size = ⟨.node false size ptr .null .null,fun _ => [],⟨1,1⟩⟩ := by
      simp [ixmapMemInit,ixmapMnodeAlloc,h₀]
    rw [hn]
    refine ⟨⟨Buddy.leaf false ptr size,List.nodup_nil,by simp [MemState.starts],?_⟩,rfl⟩
    intro q hq
    exact absurd hq (not_live_leaf size ptr q)
  | null _ hc h ih => exact ih.null h ((whole_iff_settled ih.inv.buddy h).mpr (hC _ _ hc))
  | alloc _ hc h ih => exact ih.alloc h ((whole_iff_settled ih.inv.buddy h).mpr (hC _ _ hc))
  | free _ hb h ih => exact ih.free hb h

/-- Failed splits are harmless as long as every request is settled by the tree and the outcomes it finds: a
NULL leaves the tree as it was, live blocks stay disjoint and every metadata node not yet freed is in the
tree. The first request that is not settled leaves a node split but unallocated, and if it returns NULL it has
changed the tree, which it does exactly when two successive calls in it succeeded. -/
theorem mem_failure_safe {ok : ℕ → Bool} {ptr size : ℕ} {s : MemState} (h : MemRun (Settled ok) ok ptr size s) :
    (∀ fuel n ret d, ixmapMemAlloc ok fuel s.desc n = some (ret,d) → (d.node.Whole ↔ Settled ok s.desc n)) ∧
    (∀ fuel n d, ixmapMemAlloc ok fuel s.desc n = some (none,d) →
      (d.node = s.desc.node ↔ Settled ok s.desc n) ∧
      (d.node = s.desc.node ↔ NoPair ok s.desc.numa.calls d.numa.calls)) ∧
    (s.live.Pairwise fun a b =>
      (s.desc.nodeOf a.1).ptr + (s.desc.nodeOf a.1).size ≤ (s.desc.nodeOf b.1).ptr ∨
      (s.desc.nodeOf b.1).ptr + (s.desc.nodeOf b.1).size ≤ (s.desc.nodeOf a.1).ptr) ∧
    s.desc.numa.live = s.desc.node.count := by
  have hs := memRun_failInv (fun _ _ hw => hw) h
  refine ⟨fun fuel n ret d hd => whole_iff_settled hs.inv.buddy hd,?_,?_,hs.counted⟩
  · intro fuel n d hd
    have spec := (memAlloc_none hd).2.spec (Or.inr hs.inv.buddy)
    have hwhole := whole_iff_settled hs.inv.buddy hd
    refine ⟨⟨fun he => hwhole.mp ?_,fun hc => spec.same rfl (hwhole.mpr hc)⟩,spec.pairs rfl⟩
    rw [he]
    exact hs.inv.buddy.whole
  · exact List.pairwise_map.mp hs.inv.disjoint

/-- The first request finds no memory for its split; the second is refused the split of the first half and is
served from the second one; the third finds no room. -/
theorem mem_failure_safe_half :
    let ok := fun k : ℕ => k != 1 && k != 4
    ∃ d₁ d₂ d₃, ixmapMemAlloc ok 11 (ixmapMemInit ok 4096 1024) 1 = some (none,d₁) ∧
      ixmapMemAlloc ok 11 d₁ 1 = some (some 4672,d₂) ∧ ixmapMemAlloc ok 11 d₂ 900 = some (none,d₃) ∧
      d₃.node = d₂.node ∧ d₂.numa.live = d₂.node.count := by
  refine ⟨_,_,_,rfl,rfl,rfl,?_⟩
  have h₁ := MemRun.null (C := Settled fun k => k != 1 && k != 4) (.init rfl) (by decide)
    (show ixmapMemAlloc (fun k => k != 1 && k != 4) 11 (ixmapMemInit _ 4096 1024) 1 = _ from rfl)
  have h₂ := mem_failure_safe (.alloc h₁ (by decide) (show ixmapMemAlloc _ 11 _ 1 = _ from rfl))
  exact ⟨(h₂.2.1 11 900 _ rfl).1.mpr (by decide),h₂.2.2.2⟩

/-- The split of a 1024-byte region succeeds, both halves then fail to split, and NULL leaves the two
halves behind: the next two requests get the same block, or another split loses both halves. -/
theorem mem_failure_torn :
    let ok := fun k : ℕ => k != 3 && k != 4
    let d := ixmapMemInit ok 4096 1024
    ∃ d₁ d₂ d₃ d₄, ixmapMemAlloc ok 11 d 1 = some (none,d₁) ∧ d₁.node ≠ d.node ∧
      ixmapMemAlloc ok 11 d₁ 900 = some (some 4160,d₂) ∧
      ixmapMemAlloc ok 11 d₂ 1 = some (some 4160,d₃) ∧
      ixmapMemAlloc ok 11 d₁ 1 = some (some 4160,d₄) ∧ d₄.node.count < d₄.numa.live ∧ ¬ Settled ok d 1 := by
  refine ⟨_,_,_,_,rfl,by decide,rfl,rfl,rfl,by decide,by decide⟩

end Memory
end Ixmap
