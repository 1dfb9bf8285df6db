import Ixmap.FibTrieDelete

/-! The outcomes of `lpm_add` on a whole table. -/
namespace Ixmap
namespace FibTable
open BlockHeap PrefixBits Lpm StableOrder

variable {R : List ℕ} {pfx : Bytes} {n m p ptr : ℕ} {id : ℤ}
variable {h : Heap FibEntry} {table : ℕ → LpmNode} {node node' : LpmNode}

def KeepsBooks (table : ℕ → LpmNode) (h : Heap FibEntry) (r : (ℕ → LpmNode) × Heap FibEntry) : Prop :=
  ∀ S rest c, ArrayBooks S rest c tableSize16 table h → ArrayBooks S rest c tableSize16 r.1 r.2

/-- Tables and entries that `lpm_add` allocates for a new route. -/
def tablesNeeded (table : ℕ → LpmNode) (pfx : Bytes) (n : ℕ) : ℕ :=
  if 16 < n then missingTables pfx n (table (lpmIndex pfx 0 16)) 16 else 0

def entriesNeeded (n : ℕ) : ℕ := if 16 < n then spread n else 2^(16-n)

/-- What `lpm_add` can do for a route whose key is new. A rollback gives the route back. -/
inductive LpmAddOutcome (R : List ℕ) (pfx : Bytes) (n ptr : ℕ) (table : ℕ → LpmNode)
    (h : Heap FibEntry) (r : Bool × (ℕ → LpmNode) × Heap FibEntry) : Prop where
  | added : r.1 = true → Below (keysOf h) (ptr::R) pfx 0 16 r.2.1 → keysOf r.2.2 = keysOf h →
      KeepsBooks table h r.2 → Granted h (tablesNeeded table pfx n+entriesNeeded n) →
      LpmAddOutcome R pfx n ptr table h r
  | refused : r.1 = false → r.2.1 = table → keysOf r.2.2 = keysOf h → KeepsBooks table h r.2 →
      FailsEarly h (tablesNeeded table pfx n) → LpmAddOutcome R pfx n ptr table h r
  | rolledBack : r.1 = false → n ≤ 16 → Stranded h (tablesNeeded table pfx n) (entriesNeeded n) →
      r.2.1 = table → keysOf r.2.2 = keysOf h →
      (∀ S rest c, ArrayBooks S (rest + Pi.single ptr 1) c tableSize16 table h → c ptr = 0 →
        ArrayBooks S rest c tableSize16 r.2.1 r.2.2) → LpmAddOutcome R pfx n ptr table h r
  | stranded : r.1 = false → 16 < n → Stranded h (tablesNeeded table pfx n) (entriesNeeded n) →
      keysOf r.2.2 = keysOf h → (∃ x ∈ entriesIn tableSize16 r.2.1, x.ptr = ptr) →
      LpmAddOutcome R pfx n ptr table h r

theorem lpmAdd_long (hB : Below (keysOf h) R pfx 0 16 table) (hkey : HasKey (keysOf h) id n pfx ptr)
    (habs : ∀ q ∈ R, ¬ HasKey (keysOf h) id n pfx q) (hcount : (h.val ptr).refcount = 0)
    (hlong : 16 < n) :
    LpmAddOutcome R pfx n ptr table h (lpmAdd fibCallbacks id n table pfx ptr h) := by
  obtain ⟨⟨hid,hlen⟩,hag⟩ := hkey
  have hbooks : KeepsBooks table h (lpmAdd fibCallbacks id n table pfx ptr h).2 :=
    fun S rest c hb => lpmAdd_books_long hlong (by omega) hb
  have htables : tablesNeeded table pfx n = missingTables pfx n (table (field pfx 0 16)) 16 := by
    unfold tablesNeeded
    rw [if_pos hlong,lpmIndex_root]
  have hentries : entriesNeeded n = spread n := if_pos hlong
  unfold lpmAdd at hbooks ⊢
  simp only [if_pos hlong,lpmIndex_root] at hbooks ⊢
  have hout := addRec_outcome (hB pfx (Agree.refl _ _)) le_rfl rfl hlong rfl hlen hag habs
  rw [Nat.zero_add,← depthOf] at hout
  rcases hr : lpmAddRec fibCallbacks id n pfx ptr (depthOf n) (table (field pfx 0 16)) 16 h
    with ⟨ret,child,h'⟩
  rw [hr] at hout hbooks
  rcases hout with ⟨h1,h2,h3,hok⟩ | ⟨h1,h2,h3,hfail⟩ | ⟨h1,h2,h3,x,hx,hxp⟩
  · exact .added h1 (hB.update (by omega) (by rwa [hlen]) h2) h3 hbooks (by rwa [htables,hentries])
  · simp only at h2
    refine .refused h1 ?_ h3 hbooks (by rwa [htables])
    simp only [h2,Function.update_eq_self]
  · refine .stranded h1 hlong (by rwa [htables,hentries]) h3 ⟨x,?_,hxp⟩
    refine mem_entriesIn.mpr ⟨field pfx 0 16,tableSize16_eq ▸ field_lt pfx 0 16,?_⟩
    dsimp only at hx ⊢
    rwa [Function.update_self]

theorem Grown.holds {e : LpmEntry} (hg : Grown (keysOf h) id n e node node')
    (hname : Named (keysOf h) id n e.ptr) : Holds (keysOf h) id n e.ptr node' := by
  obtain ⟨habs,big,small,hhead,rfl,-,-⟩ := hg
  refine ⟨⟨e,by simp,rfl⟩,hname,?_⟩
  intro x hx hn
  rw [LpmNode.head_setHead] at hx
  rcases List.mem_append.mp hx with hx | hx
  · exact absurd hn (habs x (by rw [hhead]; simp [hx]))
  · rcases List.mem_cons.mp hx with rfl | hx
    · rfl
    · exact absurd hn (habs x (by rw [hhead]; simp [hx]))

theorem lpmAdd_short (hB : Below (keysOf h) R pfx 0 16 table) (hkey : HasKey (keysOf h) id m pfx ptr)
    (habs : ∀ q ∈ R, ¬ HasKey (keysOf h) id m pfx q) (hcount : (h.val ptr).refcount = 0)
    (hm : m ≤ 16) :
    LpmAddOutcome R pfx m ptr table h (lpmAdd fibCallbacks id m table pfx ptr h) := by
  have hrefs := hB.refs_eq_zero fun hmem => habs ptr hmem hkey
  obtain ⟨hname,hag⟩ := hkey
  obtain ⟨m,rfl⟩ : ∃ k, m = 0+k := ⟨m,by omega⟩
  obtain ⟨k,hspec,hstop⟩ := addLoop_open ptr (blockBase pfx 0 16 m) 0
    (fun j hj => block_index (by simpa using hj)) (hB.isOpen (by omega) habs)
  simp only [Nat.add_zero,Nat.zero_add] at hspec hstop hm hname hag ⊢
  have hbooks : ∀ S rest c, ArrayBooks S rest c tableSize16 table h → _ :=
    fun S rest c hb => rootLoop_books id m ptr pfx (by omega) hb
  rw [lpmIndex_root,alignIndex_field (by omega)] at hbooks
  have htables : tablesNeeded table pfx m = 0 := if_neg (by omega)
  have hentries : entriesNeeded m = 2^(16-m) := if_neg (by omega)
  unfold lpmAdd
  dsimp only
  rw [if_neg (by omega),lpmIndex_root,alignIndex_field (by omega),hspec.ok]
  set r := lpmAddLoop fibCallbacks id m ptr (blockBase pfx 0 16 m) (2^(16-m)) 0 table h
  by_cases hall : k = 2^(16-m)
  · simp only [hall,decide_true,if_true]
    refine .added rfl ?_ hspec.keys hbooks (fun j hj => hspec.granted j (by omega))
    exact hB.insert (by omega) hm ⟨by omega,by omega⟩ (by simpa using hname.2) (by simpa using hag)
      (fun j hj => by simpa using hspec.grown j (by omega)) (fun y hy => hspec.same y (by omega))
  · have hlt : k < 2^(16-m) := lt_of_le_of_ne hspec.le hall
    simp only [hall,decide_false,Bool.false_eq_true,if_false,hstop]
    have hname' : Named (keysOf r.heap) id m ptr := by rwa [hspec.keys]
    have hgrown : ∀ j < k, Grown (keysOf r.heap) id m ⟨h.calls+j,ptr⟩
        (table (blockBase pfx 0 16 m+0+j)) (r.nodes (blockBase pfx 0 16 m+0+j)) := by
      rw [hspec.keys]
      exact hspec.grown
    have hidx : ∀ j, j < 0+k → blockBase pfx 0 16 m ||| j = blockBase pfx 0 16 m+j :=
      fun j hj => block_index (by omega)
    obtain ⟨hback,hkeys⟩ := rollback_grown hname' hidx hgrown hspec.same
    rcases Nat.eq_zero_or_pos k with rfl | hpos
    · exact .refused rfl hback (hkeys.trans hspec.keys) hbooks ⟨0,by omega,hspec.refused hlt⟩
    · refine .rolledBack rfl hm ⟨k,hpos,by omega,?_,?_⟩ hback (hkeys.trans hspec.keys) ?_
      · intro j hj
        exact hspec.granted j (by omega)
      · rw [htables,Nat.zero_add]
        exact hspec.refused hlt
      · intro S rest c hb hz
        obtain ⟨k,rfl⟩ : ∃ j, k = j+1 := ⟨k-1,by omega⟩
        have hholds : ∀ j < k+1, Holds (keysOf r.heap) id m ptr (r.nodes (blockBase pfx 0 16 m+0+j)) :=
          fun j hj => (hgrown j hj).holds hname'
        have hspec' := deleteLoop_holds _ 0 hidx hholds
        have heq := rollback_eq hspec'.ok
        rw [heq] at hback ⊢
        dsimp only at hback
        refine deleteLoop_books _ 0 hidx ?_ hholds (hbooks S _ c hb) ?_
        · intro j hj
          rw [tableSize16_eq]
          exact block_lt pfx 0 hm (by omega)
        · rw [hback,hz,hrefs]

theorem lpmAdd_outcome (hB : Below (keysOf h) R pfx 0 16 table) (hkey : HasKey (keysOf h) id n pfx ptr)
    (habs : ∀ q ∈ R, ¬ HasKey (keysOf h) id n pfx q) (hcount : (h.val ptr).refcount = 0) :
    LpmAddOutcome R pfx n ptr table h (lpmAdd fibCallbacks id n table pfx ptr h) := by
  by_cases hlong : 16 < n
  · exact lpmAdd_long hB hkey habs hcount hlong
  · exact lpmAdd_short hB hkey habs hcount (by omega)

theorem lpmAdd_present (ptr : ℕ) (hB : Below (keysOf h) R pfx 0 16 table) (hp : p ∈ R)
    (hkey : HasKey (keysOf h) id n pfx p) (hcount : (h.val ptr).refcount = 0) :
    ∃ h', lpmAdd fibCallbacks id n table pfx ptr h = (false,table,h') ∧ keysOf h' = keysOf h ∧
      KeepsBooks table h (table,h') := by
  by_cases hlong : 16 < n
  · have hbooks : KeepsBooks table h (lpmAdd fibCallbacks id n table pfx ptr h).2 :=
      fun S rest c hb => lpmAdd_books_long hlong (by omega) hb
    obtain ⟨h',hr,hk⟩ := addRec_present ptr (hB pfx (Agree.refl _ _)) le_rfl rfl hlong rfl hp hkey
    rw [Nat.zero_add] at hr
    have hadd : lpmAdd fibCallbacks id n table pfx ptr h = (false,table,h') := by
      unfold lpmAdd
      simp only [if_pos hlong,lpmIndex_root,depthOf,hr,Function.update_eq_self]
    rw [hadd] at hbooks
    exact ⟨h',hadd,hk,hbooks⟩
  · obtain ⟨m,rfl⟩ : ∃ m, n = 0+m := ⟨n,by omega⟩
    simp only [Nat.zero_add] at hlong ⊢
    have hm : m ≤ 16 := by omega
    obtain ⟨x,hx,hxp⟩ := hB.holds hm ⟨by omega,by omega⟩ hp hkey 0 (Nat.two_pow_pos _)
    have hnamed : ∃ x ∈ (table (blockBase pfx 0 16 m ||| 0)).head, Named (keysOf h) id m x.ptr :=
      ⟨x,by simpa using hx,hxp ▸ (Nat.zero_add m ▸ hkey.1)⟩
    obtain ⟨c,hc⟩ : ∃ c, 2^(16-m) = c+1 := ⟨2^(16-m)-1,by have := Nat.two_pow_pos (16-m); omega⟩
    have hbooks : ∀ S rest c, ArrayBooks S rest c tableSize16 table h → _ :=
      fun S rest c hb => rootLoop_books id m ptr pfx (by omega) hb
    rw [lpmIndex_root,alignIndex_field (by omega),hc,addLoop_named hnamed] at hbooks
    unfold lpmAdd
    dsimp only
    rw [if_neg hlong,lpmIndex_root,alignIndex_field (by omega),hc,addLoop_named hnamed]
    refine ⟨_,rfl,?_,hbooks⟩
    split <;> simp

end FibTable
end Ixmap
