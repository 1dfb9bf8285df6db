import Ixmap.GuardedRun

/-! The list of adapters of `ixmap_main.c` and the ids that name their device nodes. A probe of a device
takes two steps, between which others may run: the adapter enters the list, and its node is registered
or the adapter leaves again. -/
namespace Ixmap
namespace Kmod
open GuardedRun

/-- `struct ixmap_adapter` in `dev_list`, with the PCI device it drives. -/
structure DevAdapter where
  pdev : ℕ
  id : ℕ
  /-- Its misc device is registered. -/
  registered : Bool
deriving DecidableEq

def ixmapAllocEnid (devList : List DevAdapter) : ℕ := devList.foldl (fun id _ => (id+1) % 2^32) 0

def ixmapAdapterAlloc (devList : List DevAdapter) (pdev : ℕ) : List DevAdapter :=
  ⟨pdev,ixmapAllocEnid devList,false⟩::devList

def ixmapAdapterFree (devList : List DevAdapter) (pdev : ℕ) : List DevAdapter :=
  devList.eraseP fun a => a.pdev == pdev

def miscdevName (id : ℕ) : String := "ixgbe" ++ (Int.bmod id (2^32)).repr

def nameTaken (devList : List DevAdapter) (id : ℕ) : Bool :=
  devList.any fun a => a.registered && miscdevName a.id == miscdevName id

/-- The name may not be allocated, and `misc_register` may fail for other reasons. -/
def ixmapMiscdevRegister (devList : List DevAdapter) (adapter : DevAdapter) (allocated registers : Bool) :
    Option (List DevAdapter) :=
  if allocated && !nameTaken devList adapter.id && registers then
    some (devList.map fun a => if a.pdev = adapter.pdev then { a with registered := true } else a)
  else none

/-- The steps of `ixmap_probe` and `ixmap_remove` that concern the list. -/
inductive DevOp where
  | alloc (pdev : ℕ) (allocated : Bool)
  | initFailed (pdev : ℕ)
  | register (pdev : ℕ) (allocated registers : Bool)
  | remove (pdev : ℕ)

/-- A call that the PCI core does not make changes nothing: it probes devices without an adapter and
removes those whose probe returned 0. -/
def devStep (devList : List DevAdapter) (op : DevOp) : List DevAdapter :=
  match op with
  | .alloc pdev allocated =>
    if allocated ∧ devList.find? (·.pdev == pdev) = none then ixmapAdapterAlloc devList pdev else devList
  | .initFailed pdev =>
    match devList.find? fun a => a.pdev == pdev && !a.registered with
    | none => devList
    | some _ => ixmapAdapterFree devList pdev
  | .register pdev allocated registers =>
    match devList.find? fun a => a.pdev == pdev && !a.registered with
    | none => devList
    | some adapter =>
      (ixmapMiscdevRegister devList adapter allocated registers).getD (ixmapAdapterFree devList pdev)
  | .remove pdev =>
    match devList.find? fun a => a.pdev == pdev && a.registered with
    | none => devList
    | some _ => ixmapAdapterFree devList pdev

/-- The ids and names are distinct, and the next adapter gets a name that is free. -/
structure NamesOk (devList : List DevAdapter) : Prop where
  ids : (devList.map DevAdapter.id).Nodup
  names : (devList.map fun a => miscdevName a.id).Nodup
  free : ∀ a ∈ devList, miscdevName a.id ≠ miscdevName (ixmapAllocEnid devList)

/-- A device without an adapter is probed, and there is memory for one. -/
def DevOp.adds (devList : List DevAdapter) : DevOp → Bool
  | .alloc pdev allocated => allocated && (devList.find? (·.pdev == pdev)).isNone
  | _ => false

/-- The adapter that a removal or a probe that fails takes out: its device's, if the PCI core may make the
call, unless its node can be registered. -/
def DevOp.takesOut (devList : List DevAdapter) : DevOp → Option DevAdapter
  | .alloc _ _ => none
  | .initFailed pdev => devList.find? fun a => a.pdev == pdev && !a.registered
  | .register pdev allocated registers =>
    (devList.find? fun a => a.pdev == pdev && !a.registered).filter fun a =>
      !(allocated && !nameTaken devList a.id && registers)
  | .remove pdev => devList.find? fun a => a.pdev == pdev && a.registered

/-- The list stays short of `2^32` adapters, and an adapter that leaves it is the one with the highest id. -/
def LastOut (devList : List DevAdapter) (op : DevOp) : Prop :=
  (op.adds devList = true → devList.length+1 < 2^32) ∧ ∀ a ∈ op.takesOut devList, a.id+1 = devList.length

section
variable {s : List DevAdapter} {op : DevOp}

theorem ixmapAllocEnid_eq (s : List DevAdapter) : ixmapAllocEnid s = s.length % 2^32 := by
  unfold ixmapAllocEnid
  induction s using List.reverseRecOn with
  | nil => rfl
  | append_singleton s a ih => rw [List.foldl_append,List.foldl_cons,List.foldl_nil,ih]; simp

theorem miscdevName_inj {i j : ℕ} (hi : i < 2^32) (hj : j < 2^32) : miscdevName i = miscdevName j ↔ i = j := by
  constructor
  · intro h
    have h := Int.repr_inj.mp ((String.append_right_inj "ixgbe").mp h)
    rw [Int.bmod_def,Int.bmod_def] at h
    split at h <;> split at h <;> omega
  · rintro rfl
    rfl

/-- A step adds an adapter, takes one out, or leaves devices and ids as they are. -/
inductive Outcome (s : List DevAdapter) (op : DevOp) : List DevAdapter → Prop
  | same {t : List DevAdapter} : op.adds s = false → op.takesOut s = none →
      t.map (fun a => (a.pdev,a.id)) = s.map (fun a => (a.pdev,a.id)) → Outcome s op t
  | added {pdev : ℕ} : op.adds s = true → op.takesOut s = none → (∀ a ∈ s, a.pdev ≠ pdev) →
      Outcome s op (ixmapAdapterAlloc s pdev)
  | freed {a : DevAdapter} : op.adds s = false → op.takesOut s = some a → a ∈ s →
      Outcome s op (ixmapAdapterFree s a.pdev)

theorem outcome_free {p : DevAdapter → Bool} {pdev : ℕ} (hadds : op.adds s = false) (hout : op.takesOut s = s.find? p)
    (hp : ∀ a, p a = true → a.pdev = pdev) :
    Outcome s op (match s.find? p with | none => s | some _ => ixmapAdapterFree s pdev) := by
  cases hf : s.find? p with
  | none => exact .same hadds (hout.trans hf) rfl
  | some a =>
    obtain rfl := hp a (List.find?_some hf)
    exact .freed hadds (hout.trans hf) (List.mem_of_find?_eq_some hf)

theorem devStep_outcome (s : List DevAdapter) (op : DevOp) : Outcome s op (devStep s op) := by
  cases op with
  | alloc pdev allocated =>
    unfold devStep
    dsimp only
    split
    · rename_i h
      refine .added (by simp [DevOp.adds,h.1,h.2]) rfl fun a ha hp => ?_
      exact List.find?_eq_none.mp h.2 a ha (by simpa using hp)
    · rename_i h
      refine .same ?_ rfl rfl
      by_contra hadds
      rw [Bool.not_eq_false,DevOp.adds,Bool.and_eq_true,Option.isNone_iff_eq_none] at hadds
      exact h hadds
  | initFailed pdev => exact outcome_free rfl rfl fun a ha => by simp_all
  | remove pdev => exact outcome_free rfl rfl fun a ha => by simp_all
  | register pdev allocated registers =>
    unfold devStep
    dsimp only
    split
    · rename_i hf
      exact .same rfl (by rw [DevOp.takesOut,hf]; rfl) rfl
    · rename_i a hf
      have hpdev : a.pdev = pdev := by
        have := List.find?_some hf
        simp_all
      unfold ixmapMiscdevRegister
      split
      · rename_i hreg
        refine .same rfl (by simpa [DevOp.takesOut,hf] using hreg) ?_
        rw [Option.getD_some,List.map_map]
        apply List.map_congr_left
        intro b _
        simp only [Function.comp]
        split <;> rfl
      · rename_i hreg
        subst hpdev
        have hout : DevOp.takesOut s (.register a.pdev allocated registers) = some a := by
          rw [DevOp.takesOut,hf,Option.filter_some,Bool.eq_false_of_not_eq_true hreg]
          rfl
        exact .freed rfl hout (List.mem_of_find?_eq_some hf)

/-- The ids are those below the number of adapters. -/
structure Dense (s : List DevAdapter) : Prop where
  ids : (s.map DevAdapter.id).Perm (List.range s.length)
  pdevs : (s.map DevAdapter.pdev).Nodup
  lt : s.length < 2^32

theorem Dense.id_lt (h : Dense s) {a : DevAdapter} (ha : a ∈ s) : a.id < s.length :=
  List.mem_range.mp (h.ids.subset (List.mem_map_of_mem ha))

theorem Dense.namesOk (h : Dense s) : NamesOk s := by
  have hids : (s.map DevAdapter.id).Nodup := h.ids.nodup_iff.mpr List.nodup_range
  have hlt : ∀ a ∈ s, a.id < 2^32 := fun a ha => (h.id_lt ha).trans h.lt
  refine ⟨hids,?_,?_⟩
  · rw [show s.map (fun a => miscdevName a.id) = (s.map DevAdapter.id).map miscdevName by simp]
    refine hids.map_on ?_
    intro i hi j hj he
    obtain ⟨a,ha,rfl⟩ := List.mem_map.mp hi
    obtain ⟨b,hb,rfl⟩ := List.mem_map.mp hj
    exact (miscdevName_inj (hlt a ha) (hlt b hb)).mp he
  · intro a ha he
    rw [ixmapAllocEnid_eq,Nat.mod_eq_of_lt h.lt,miscdevName_inj (hlt a ha) h.lt] at he
    exact (h.id_lt ha).ne he

theorem Dense.free_split (h : Dense s) {a : DevAdapter} (ha : a ∈ s) :
    ∃ l₁ l₂, s = l₁++a::l₂ ∧ ixmapAdapterFree s a.pdev = l₁++l₂ := by
  obtain ⟨b,l₁,l₂,-,hb,hs,he⟩ := List.exists_of_eraseP (p := fun b => b.pdev == a.pdev) ha (by simp)
  obtain rfl : b = a := List.inj_on_of_nodup_map h.pdevs (by simp [hs]) ha (by simpa using hb)
  exact ⟨l₁,l₂,hs,he⟩

theorem Dense.free (h : Dense s) {a : DevAdapter} (ha : a ∈ s) :
    ((ixmapAdapterFree s a.pdev).map DevAdapter.pdev).Nodup ∧
    (ixmapAdapterFree s a.pdev).length+1 = s.length ∧
    (a.id::(ixmapAdapterFree s a.pdev).map DevAdapter.id).Perm (List.range s.length) := by
  obtain ⟨l₁,l₂,hs,he⟩ := h.free_split ha
  rw [he]
  have hpdevs := h.pdevs
  have hids := h.ids
  have hperm : s.Perm (a::(l₁++l₂)) := hs ▸ List.perm_middle
  have hnodup := (hperm.map DevAdapter.pdev).nodup_iff.mp hpdevs
  rw [List.map_cons,List.nodup_cons] at hnodup
  refine ⟨hnodup.2,?_,?_⟩
  · rw [hperm.length_eq,List.length_cons]
  · exact (hperm.map DevAdapter.id).symm.trans hids

/-- From ids without gaps, the new list keeps the names in order iff the last adapter goes or none. -/
def Decided (s : List DevAdapter) (op : DevOp) (t : List DevAdapter) : Prop :=
  (NamesOk t → LastOut s op) ∧ (LastOut s op → Dense t)

theorem Dense.same {t : List DevAdapter} (h : Dense s) (hadds : op.adds s = false) (hout : op.takesOut s = none)
    (hmap : t.map (fun a => (a.pdev,a.id)) = s.map fun a => (a.pdev,a.id)) : Decided s op t := by
  have hlen : t.length = s.length := by simpa using congrArg List.length hmap
  have hids : t.map DevAdapter.id = s.map DevAdapter.id := by
    simpa [List.map_map,Function.comp_def] using congrArg (List.map Prod.snd) hmap
  have hpdevs : t.map DevAdapter.pdev = s.map DevAdapter.pdev := by
    simpa [List.map_map,Function.comp_def] using congrArg (List.map Prod.fst) hmap
  refine ⟨fun _ => ⟨by simp [hadds],by simp [hout]⟩,fun _ => ⟨?_,hpdevs ▸ h.pdevs,hlen ▸ h.lt⟩⟩
  rw [hids,hlen]
  exact h.ids

theorem Dense.added {pdev : ℕ} (h : Dense s) (hadds : op.adds s = true) (hout : op.takesOut s = none)
    (hnew : ∀ a ∈ s, a.pdev ≠ pdev) : Decided s op (ixmapAdapterAlloc s pdev) := by
  have hlen : (ixmapAdapterAlloc s pdev).length = s.length+1 := rfl
  refine ⟨fun hok => ⟨fun _ => ?_,by simp [hout]⟩,fun hlast => ⟨?_,?_,hlast.1 hadds⟩⟩
  · -- With `2^32` adapters the counter wraps to the id of the first.
    by_contra hge
    have hwrap : s.length+1 = 2^32 := by
      have := h.lt
      omega
    have hzero : 0 ∈ s.map DevAdapter.id := h.ids.symm.subset (List.mem_range.mpr (by omega))
    obtain ⟨a,ha,hid⟩ := List.mem_map.mp hzero
    refine hok.free a (List.mem_cons_of_mem _ ha) ?_
    rw [ixmapAllocEnid_eq,hlen,hwrap,Nat.mod_self,hid]
  · rw [hlen,List.range_succ]
    have hid : ixmapAllocEnid s = s.length := by rw [ixmapAllocEnid_eq,Nat.mod_eq_of_lt h.lt]
    simp only [ixmapAdapterAlloc,List.map_cons,hid]
    exact (h.ids.cons _).trans (List.perm_append_singleton _ _).symm
  · simp only [ixmapAdapterAlloc,List.map_cons,List.nodup_cons]
    refine ⟨fun hmem => ?_,h.pdevs⟩
    obtain ⟨a,ha,hp⟩ := List.mem_map.mp hmem
    exact hnew a ha hp

theorem Dense.freed {a : DevAdapter} (h : Dense s) (hadds : op.adds s = false) (hout : op.takesOut s = some a)
    (ha : a ∈ s) : Decided s op (ixmapAdapterFree s a.pdev) := by
  obtain ⟨hpdevs,hlen,hids⟩ := h.free ha
  have hlt := h.lt
  refine ⟨fun hok => ⟨by simp [hadds],fun b hb => ?_⟩,fun hlast => ⟨?_,hpdevs,by omega⟩⟩
  · -- Otherwise the highest id is still there, and is the next one.
    obtain rfl : b = a := Option.some.inj (hb.symm.trans hout)
    by_contra hne
    have hmem : s.length-1 ∈ b.id::(ixmapAdapterFree s b.pdev).map DevAdapter.id :=
      hids.symm.subset (List.mem_range.mpr (by omega))
    rcases List.mem_cons.mp hmem with he | hmem
    · omega
    · obtain ⟨c,hc,hid⟩ := List.mem_map.mp hmem
      refine hok.free c hc ?_
      rw [ixmapAllocEnid_eq,Nat.mod_eq_of_lt (by omega),hid]
      congr 1
      omega
  · have hid : a.id+1 = s.length := hlast.2 a hout
    have hlength : (ixmapAdapterFree s a.pdev).length = a.id := by omega
    rw [← hid,List.range_succ] at hids
    rw [hlength]
    exact (hids.trans (List.perm_append_singleton _ _)).cons_inv

theorem Dense.step (h : Dense s) (op : DevOp) : Decided s op (devStep s op) := by
  have hout := devStep_outcome s op
  generalize devStep s op = t at hout ⊢
  cases hout with
  | same hadds hnone hmap => exact h.same hadds hnone hmap
  | added hadds hnone hnew => exact h.added hadds hnone hnew
  | freed hadds hsome ha => exact h.freed hadds hsome ha

theorem dense_nil : Dense [] := ⟨.refl _,List.nodup_nil,by decide⟩

theorem Dense.run (h : Dense s) (ops : List DevOp) :
    (∀ pre, pre <+: ops → NamesOk (pre.foldl devStep s)) ↔ Meets devStep LastOut s ops := by
  induction ops generalizing s with
  | nil => simpa [Meets] using h.namesOk
  | cons op ops ih =>
    obtain ⟨hnames,hdense⟩ := h.step op
    constructor
    · intro hall
      have hlast := hnames (hall [op] ⟨ops,rfl⟩)
      refine ⟨hlast,(ih (hdense hlast)).mp fun pre hpre => ?_⟩
      exact hall (op::pre) (List.cons_prefix_cons.mpr ⟨rfl,hpre⟩)
    · rintro ⟨hlast,hrest⟩ pre hpre
      cases pre with
      | nil => exact h.namesOk
      | cons op' pre =>
        obtain ⟨rfl,htail⟩ := List.cons_prefix_cons.mp hpre
        exact (ih (hdense hlast)).mpr hrest pre htail

end

/-- Over every sequence of probes and removals, the ids and names in `dev_list` stay distinct and a
device that is probed finds its name free iff no adapter but the last ever leaves the list. -/
theorem enid_unique_iff (ops : List DevOp) :
    (∀ pre, pre <+: ops → NamesOk (pre.foldl devStep [])) ↔ Meets devStep LastOut [] ops :=
  dense_nil.run ops

/-- Two devices are probed, the first is removed and probed again: it gets the id of the second, and its
node cannot be registered. -/
theorem enid_clash :
    let devList := [DevOp.alloc 7 true,.register 7 true true,.alloc 8 true,.register 8 true true,
      .remove 7,.alloc 7 true].foldl devStep []
    devList = [⟨7,1,false⟩,⟨8,1,true⟩] ∧ devStep devList (.register 7 true true) = [⟨8,1,true⟩] := by
  decide

end Kmod
end Ixmap
