import Mathlib

/-! Tables of bit prefixes, searched exactly or for the longest prefix of an address: the operations, what is
asked of them, and a table that keeps its nodes in lexicographic order. -/
namespace RadixTable

abbrev Bits := List Bool

/-- An element with the longest prefix of `a` among those of `S`. -/
def IsLongest {α : Type} (S : Set (Bits × α)) (a : Bits) (e : Bits × α) : Prop :=
  e ∈ S ∧ e.1 <+: a ∧ ∀ f ∈ S, f.1 <+: a → f.1.length ≤ e.1.length

class RadixOps (T : Type) (α : outParam Type) where
  empty : T
  nodes : T → List (Bits × α)
  /-- The node of the prefix, which is added if there is none, gets the data. -/
  put : T → Bits → α → T
  delete : T → Bits → T
  searchExact : T → Bits → Option α
  searchBest : T → Bits → Option (Bits × α)

open RadixOps

/-- Exact and longest-prefix search find what is asked for, and `nodes` lists every node once, in any
order. -/
class LawfulRadix (T : Type) (α : outParam Type) [RadixOps T α] : Prop where
  nodes_empty : nodes (empty : T) = []
  nodup : ∀ t : T, ((nodes t).map Prod.fst).Nodup
  mem_put : ∀ {t : T} {p : Bits} {x : α} {e : Bits × α},
    e ∈ nodes (put t p x) ↔ e = (p,x) ∨ (e ∈ nodes t ∧ e.1 ≠ p)
  mem_delete : ∀ {t : T} {p : Bits} {e : Bits × α}, e ∈ nodes (delete t p) ↔ e ∈ nodes t ∧ e.1 ≠ p
  searchExact_some : ∀ {t : T} {p : Bits} {x : α}, searchExact t p = some x ↔ (p,x) ∈ nodes t
  searchBest_some : ∀ {t : T} {a : Bits} {e : Bits × α},
    searchBest t a = some e → IsLongest {e | e ∈ nodes t} a e
  searchBest_none : ∀ {t : T} {a : Bits}, searchBest t a = none → ∀ e ∈ nodes t, ¬ e.1 <+: a

section Lawful
variable {T α : Type} [RadixOps T α] [LawfulRadix T α] {t : T} {p : Bits} {x y : α}

theorem node_unique (hx : (p,x) ∈ nodes t) (hy : (p,y) ∈ nodes t) : x = y :=
  congrArg Prod.snd (List.inj_on_of_nodup_map (LawfulRadix.nodup t) hx hy rfl)

theorem searchExact_none : searchExact t p = none ↔ ∀ e ∈ nodes t, e.1 ≠ p := by
  rw [Option.eq_none_iff_forall_ne_some]
  constructor
  · rintro h ⟨q,x⟩ he rfl
    exact h x (LawfulRadix.searchExact_some.mpr he)
  · intro h x hx
    exact h (p,x) (LawfulRadix.searchExact_some.mp hx) rfl

end Lawful

structure Radix (α : Type) where
  nodes : List (Bits × α)
  sorted : (nodes.map Prod.fst).Pairwise (· < ·)

variable {α : Type}

/-- Put a node in its place, or in the place of the node with its prefix. -/
def insertNode (p : Bits) (x : α) : List (Bits × α) → List (Bits × α)
  | [] => [(p,x)]
  | e::rest => if p < e.1 then (p,x)::e::rest else if p = e.1 then (p,x)::rest else e::insertNode p x rest

theorem mem_insertNode {p : Bits} {x : α} {l : List (Bits × α)} (h : (l.map Prod.fst).Pairwise (· < ·))
    {e : Bits × α} : e ∈ insertNode p x l ↔ e = (p,x) ∨ (e ∈ l ∧ e.1 ≠ p) := by
  induction l with
  | nil => simp [insertNode]
  | cons f rest ih =>
    rw [List.map_cons,List.pairwise_cons] at h
    have hrest : ∀ e ∈ rest, f.1 < e.1 := fun e he => h.1 e.1 (List.mem_map_of_mem he)
    rw [insertNode]
    split
    · rename_i hlt
      have hne : ∀ e ∈ f::rest, e.1 ≠ p := by
        intro e he hep
        rcases List.mem_cons.mp he with rfl | he
        · exact absurd hlt (by simp [hep])
        · exact lt_asymm hlt (hep ▸ hrest e he)
      rw [List.mem_cons]
      exact or_congr Iff.rfl ⟨fun he => ⟨he,hne e he⟩,fun he => he.1⟩
    split
    · rename_i heq
      rw [List.mem_cons,List.mem_cons]
      refine or_congr Iff.rfl ⟨fun he => ⟨Or.inr he,?_⟩,?_⟩
      · exact fun hep => absurd (hrest e he) (by simp [hep,heq])
      · rintro ⟨rfl | he,hne⟩
        · exact absurd heq.symm hne
        · exact he
    · rename_i heq
      rw [List.mem_cons,List.mem_cons,ih h.2]
      constructor
      · rintro (rfl | rfl | ⟨he,hne⟩)
        · exact Or.inr ⟨Or.inl rfl,fun hp => heq hp.symm⟩
        · exact Or.inl rfl
        · exact Or.inr ⟨Or.inr he,hne⟩
      · rintro (rfl | ⟨rfl | he,hne⟩)
        · exact Or.inr (Or.inl rfl)
        · exact Or.inl rfl
        · exact Or.inr (Or.inr ⟨he,hne⟩)

theorem insertNode_sorted (p : Bits) (x : α) {l : List (Bits × α)}
    (h : (l.map Prod.fst).Pairwise (· < ·)) : ((insertNode p x l).map Prod.fst).Pairwise (· < ·) := by
  induction l with
  | nil => simp [insertNode]
  | cons f rest ih =>
    have hcons := h
    rw [List.map_cons,List.pairwise_cons] at h
    rw [insertNode]
    split
    · rename_i hlt
      rw [List.map_cons,List.pairwise_cons]
      refine ⟨?_,hcons⟩
      intro q hq
      rw [List.map_cons,List.mem_cons] at hq
      rcases hq with rfl | hq
      · exact hlt
      · exact hlt.trans (h.1 q hq)
    split
    · rename_i heq
      rw [List.map_cons,heq]
      exact List.pairwise_cons.mpr h
    · rename_i hlt heq
      rw [List.map_cons,List.pairwise_cons]
      refine ⟨?_,ih h.2⟩
      intro q hq
      obtain ⟨e,he,rfl⟩ := List.mem_map.mp hq
      rcases (mem_insertNode h.2).mp he with rfl | ⟨he,-⟩
      · exact lt_of_le_of_ne (not_lt.mp hlt) (Ne.symm heq)
      · exact h.1 e.1 (List.mem_map_of_mem he)

theorem not_lt_of_prefix {p q : Bits} (h : p <+: q) : ¬ q < p := by
  induction p generalizing q with
  | nil => exact List.not_lt_nil q
  | cons b p ih =>
    obtain ⟨t,rfl⟩ := h
    intro hlt
    cases hlt with
    | rel hb => exact lt_irrefl b hb
    | cons hlt => exact ih (List.prefix_append p t) hlt

/-- Of two prefixes of one address the later one is longer. -/
theorem length_le_of_lt {p q a : Bits} (hp : p <+: a) (hq : q <+: a) (h : p < q) : p.length ≤ q.length := by
  by_contra hlt
  exact not_lt_of_prefix (List.prefix_of_prefix_length_le hq hp (by omega)) h

namespace Radix

def set (t : Radix α) (p : Bits) (x : α) : Radix α := ⟨insertNode p x t.nodes,insertNode_sorted p x t.sorted⟩

def remove (t : Radix α) (p : Bits) : Radix α :=
  ⟨t.nodes.filter (fun e => e.1 ≠ p),t.sorted.sublist (List.filter_sublist.map Prod.fst)⟩

def findExact (t : Radix α) (p : Bits) : Option α := (t.nodes.find? (fun e => e.1 = p)).map Prod.snd

/-- The prefixes of an address come in the order of their lengths. -/
def findBest (t : Radix α) (a : Bits) : Option (Bits × α) :=
  (t.nodes.filter (fun e => e.1 <+: a)).getLast?

instance : RadixOps (Radix α) α := ⟨⟨[],by simp⟩,Radix.nodes,set,remove,findExact,findBest⟩

variable {t : Radix α} {p a : Bits} {x : α} {e : Bits × α}

theorem keys_nodup (t : Radix α) : (t.nodes.map Prod.fst).Nodup := t.sorted.imp ne_of_lt

theorem mem_remove : e ∈ (t.remove p).nodes ↔ e ∈ t.nodes ∧ e.1 ≠ p := by simp [remove]

theorem findExact_some : t.findExact p = some x ↔ (p,x) ∈ t.nodes := by
  rw [findExact,Option.map_eq_some_iff]
  constructor
  · rintro ⟨⟨q,y⟩,hf,rfl⟩
    have hq : q = p := by simpa using List.find?_some hf
    exact hq ▸ List.mem_of_find?_eq_some hf
  · intro hmem
    obtain ⟨⟨q,y⟩,hf⟩ := Option.isSome_iff_exists.mp
      (List.find?_isSome.mpr ⟨(p,x),hmem,by simp⟩ : (t.nodes.find? (fun e => e.1 = p)).isSome = true)
    have hq : q = p := by simpa using List.find?_some hf
    subst hq
    exact ⟨(q,y),hf,congrArg Prod.snd
      (List.inj_on_of_nodup_map t.keys_nodup (List.mem_of_find?_eq_some hf) hmem rfl)⟩

theorem findBest_some (h : t.findBest a = some e) : IsLongest {e | e ∈ t.nodes} a e := by
  rw [findBest,List.getLast?_eq_some_iff] at h
  obtain ⟨front,hl⟩ := h
  have hmem : e ∈ t.nodes.filter (fun e => e.1 <+: a) := by
    rw [hl]
    simp
  have hsorted := t.sorted.sublist ((List.filter_sublist (p := fun e => decide (e.1 <+: a))).map Prod.fst)
  rw [List.mem_filter,decide_eq_true_iff] at hmem
  refine ⟨hmem.1,hmem.2,?_⟩
  intro f hf hfa
  have hin : f ∈ t.nodes.filter (fun e => e.1 <+: a) := List.mem_filter.mpr ⟨hf,by simpa using hfa⟩
  rw [hl,List.mem_append,List.mem_singleton] at hin
  rcases hin with hin | rfl
  · rw [hl,List.map_append,List.pairwise_append] at hsorted
    exact length_le_of_lt hfa hmem.2
      (hsorted.2.2 f.1 (List.mem_map_of_mem hin) e.1 (by simp))
  · exact le_refl _

theorem findBest_none (h : t.findBest a = none) : ∀ e ∈ t.nodes, ¬ e.1 <+: a := by
  simpa [findBest] using h

instance : LawfulRadix (Radix α) α where
  nodes_empty := rfl
  nodup := keys_nodup
  mem_put := mem_insertNode (sorted _)
  mem_delete := mem_remove
  searchExact_some := findExact_some
  searchBest_some := findBest_some
  searchBest_none := findBest_none

end Radix
end RadixTable
