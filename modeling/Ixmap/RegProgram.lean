import Mathlib

/-! Programs that reach a device through its registers. One program text is run in two ways: alone
against a device, or as one of several parties whose accesses interleave in any order. -/
namespace RegProgram

/-- A program ends with a value, reads a register, writes one, or passes a trace point. -/
inductive Prog (R V E α : Type) where
  | ret (a : α)
  | read (r : R) (k : V → Prog R V E α)
  | write (r : R) (v : V) (k : Prog R V E α)
  | mark (e : E) (k : Prog R V E α)

variable {R V E α β σ ι γ : Type}

namespace Prog

def bind : Prog R V E α → (α → Prog R V E β) → Prog R V E β
  | .ret a, f => f a
  | .read r k, f => .read r fun v => bind (k v) f
  | .write r v k, f => .write r v (bind k f)
  | .mark e k, f => .mark e (bind k f)

instance : Monad (Prog R V E) where
  pure := .ret
  bind := bind

theorem bind_ret (p : Prog R V E α) : bind p .ret = p := by
  induction p with
  | ret a => rfl
  | read r k ih => exact congrArg (Prog.read r) (funext ih)
  | write r v k ih => exact congrArg (Prog.write r v) ih
  | mark e k ih => exact congrArg (Prog.mark e) ih

theorem bind_bind {δ : Type} (p : Prog R V E α) (f : α → Prog R V E β) (g : β → Prog R V E δ) :
    bind (bind p f) g = bind p fun a => bind (f a) g := by
  induction p with
  | ret a => rfl
  | read r k ih => exact congrArg (Prog.read r) (funext ih)
  | write r v k ih => exact congrArg (Prog.write r v) ih
  | mark e k ih => exact congrArg (Prog.mark e) ih

instance : LawfulMonad (Prog R V E) := LawfulMonad.mk' _ bind_ret (fun _ _ => rfl) bind_bind

end Prog

def readReg (r : R) : Prog R V E V := .read r .ret

def writeReg (r : R) (v : V) : Prog R V E Unit := .write r v (.ret ())

def point (e : E) : Prog R V E Unit := .mark e (.ret ())

structure Device (R V σ : Type) where
  read : σ → R → V × σ
  write : σ → R → V → σ

/-- Registers that keep what is written to them. -/
def memory [DecidableEq R] : Device R V (R → V) := ⟨fun s r => (s r,s),Function.update⟩

/-- A trace point has no effect on the device. -/
def run (d : Device R V σ) : Prog R V E α → σ → α × σ
  | .ret a, s => (a,s)
  | .read r k, s => run d (k (d.read s r).1) (d.read s r).2
  | .write r v k, s => run d k (d.write s r v)
  | .mark _ k, s => run d k s

section
variable (d : Device R V σ) (s : σ)

@[simp] theorem run_pure (a : α) : run d (pure a : Prog R V E α) s = (a,s) := rfl

@[simp] theorem run_readReg (r : R) : run d (readReg r : Prog R V E V) s = d.read s r := rfl

@[simp] theorem run_writeReg (r : R) (v : V) :
    run d (writeReg r v : Prog R V E Unit) s = ((),d.write s r v) := rfl

@[simp] theorem run_point (e : E) : run d (point e : Prog R V E Unit) s = ((),s) := rfl

@[simp] theorem run_bind (p : Prog R V E α) (f : α → Prog R V E β) :
    run d (p >>= f) s = run d (f (run d p s).1) (run d p s).2 := by
  change run d (Prog.bind p f) s = _
  induction p generalizing s with
  | ret a => rfl
  | read r k ih => exact ih _ _
  | write r v k ih => exact ih _
  | mark e k ih => exact ih s

end

/-- The result satisfies `Q` whatever the registers answer. -/
def Always (Q : α → Prop) : Prog R V E α → Prop
  | .ret a => Q a
  | .read _ k => ∀ v, Always Q (k v)
  | .write _ _ k => Always Q k
  | .mark _ k => Always Q k

theorem Always.bind {Q : α → Prop} {Q' : β → Prop} {p : Prog R V E α} {f : α → Prog R V E β} (h : Always Q p)
    (hf : ∀ a, Q a → Always Q' (f a)) : Always Q' (p >>= f) := by
  change Always Q' (Prog.bind p f)
  induction p with
  | ret a => exact hf a h
  | read r k ih => exact fun v => ih v (h v)
  | write r v k ih => exact ih h
  | mark e k ih => exact ih h

theorem always_true (p : Prog R V E α) : Always (fun _ => True) p := by
  induction p with
  | ret a => trivial
  | read r k ih => exact ih
  | write r v k ih => exact ih
  | mark e k ih => exact ih

theorem Always.run {Q : α → Prop} {p : Prog R V E α} (h : Always Q p) (d : Device R V σ) (s : σ) :
    Q (run d p s).1 := by
  induction p generalizing s with
  | ret a => exact h
  | read r k ih => exact ih _ (h _) _
  | write r v k ih => exact ih h _
  | mark e k ih => exact ih h s

/-- What a party does at its turn. -/
inductive Act (R V E : Type) where
  | read (r : R) (v : V)
  | write (r : R) (v : V)
  | mark (e : E)
deriving DecidableEq

/-- The registers as the parties share them; `env` is what happens beside the parties. -/
structure Bus (R V σ : Type) where
  reads : σ → R → V → σ → Prop
  writes : σ → R → V → σ → Prop
  env : σ → σ → Prop

inductive Advances (b : Bus R V σ) : σ → Prog R V E α → Act R V E → σ → Prog R V E α → Prop
  | read {s s' : σ} {r : R} {v : V} {k : V → Prog R V E α} (h : b.reads s r v s') :
    Advances b s (.read r k) (.read r v) s' (k v)
  | write {s s' : σ} {r : R} {v : V} {k : Prog R V E α} (h : b.writes s r v s') :
    Advances b s (.write r v k) (.write r v) s' k
  | mark {s : σ} {e : E} {k : Prog R V E α} : Advances b s (.mark e k) (.mark e) s k

structure World (R V E α σ ι : Type) where
  shared : σ
  prog : ι → Prog R V E α

variable [DecidableEq ι]

/-- A turn of one party, or of the environment. -/
inductive Step (b : Bus R V σ) : World R V E α σ ι → Option (ι × Act R V E) → World R V E α σ ι → Prop
  | party {w : World R V E α σ ι} {i : ι} {a : Act R V E} {s' : σ} {p' : Prog R V E α}
    (h : Advances b w.shared (w.prog i) a s' p') : Step b w (some (i,a)) ⟨s',Function.update w.prog i p'⟩
  | env {w : World R V E α σ ι} {s' : σ} (h : b.env w.shared s') : Step b w none ⟨s',w.prog⟩

/-- An interleaving with its trace, oldest turn first. -/
inductive Run (b : Bus R V σ) (w₀ : World R V E α σ ι) :
    List (Option (ι × Act R V E)) → World R V E α σ ι → Prop
  | nil : Run b w₀ [] w₀
  | snoc {tr : List (Option (ι × Act R V E))} {w w' : World R V E α σ ι} {l : Option (ι × Act R V E)}
    (h : Run b w₀ tr w) (hs : Step b w l w') : Run b w₀ (tr++[l]) w'

/-- At most `n` accesses of a program alone on a device: what is left of it, the device, and the accesses. -/
def accesses (d : Device R V σ) : ℕ → Prog R V E α → σ → Prog R V E α × σ × List (Act R V E)
  | 0, p, s => (p,s,[])
  | _+1, .ret a, s => (.ret a,s,[])
  | n+1, .read r k, s =>
    let (p,s',acts) := accesses d n (k (d.read s r).1) (d.read s r).2
    (p,s',.read r (d.read s r).1::acts)
  | n+1, .write r v k, s =>
    let (p,s',acts) := accesses d n k (d.write s r v)
    (p,s',.write r v::acts)
  | n+1, .mark e k, s =>
    let (p,s',acts) := accesses d n k s
    (p,s',.mark e::acts)

/-- The device answers as the bus permits. -/
structure Device.Serves (d : Device R V σ) (b : Bus R V σ) : Prop where
  read : ∀ s r, b.reads s r (d.read s r).1 (d.read s r).2
  write : ∀ s r v, b.writes s r v (d.write s r v)

/-- While one party moves alone, the interleaving is the program's own run. -/
theorem Run.alone {d : Device R V σ} {b : Bus R V σ} (hd : d.Serves b) {w₀ w : World R V E α σ ι} {i : ι}
    {tr : List (Option (ι × Act R V E))} (h : Run b w₀ tr w) (n : ℕ) :
    Run b w₀ (tr++(accesses d n (w.prog i) w.shared).2.2.map fun a => some (i,a))
      ⟨(accesses d n (w.prog i) w.shared).2.1,Function.update w.prog i (accesses d n (w.prog i) w.shared).1⟩ := by
  induction n generalizing tr w with
  | zero => simpa [accesses] using h
  | succ n ih =>
    -- one turn of the party, then the rest from the world behind it
    have hturn : ∀ {a : Act R V E} {s' : σ} {p' : Prog R V E α}, Advances b w.shared (w.prog i) a s' p' →
        Run b w₀ (tr++some (i,a)::(accesses d n p' s').2.2.map fun a => some (i,a))
          ⟨(accesses d n p' s').2.1,Function.update w.prog i (accesses d n p' s').1⟩ := by
      intro a s' p' ha
      have hrest := ih (h.snoc (Step.party ha))
      simpa using hrest
    generalize hp : w.prog i = p at hturn
    cases p with
    | ret a =>
      have hsame : Function.update w.prog i (.ret a) = w.prog := by rw [← hp,Function.update_eq_self]
      simpa [accesses,hsame] using h
    | read r k => exact hturn (Advances.read (hd.read _ r))
    | write r v k => exact hturn (Advances.write (hd.write _ r v))
    | mark e k => exact hturn Advances.mark

/-- What a party knows and owns is a value of `γ`: the values it may see at a read, and the writes and
trace points it is permitted. Nothing is promised behind a trace point that is not `timely`. -/
structure Protocol (R V E γ : Type) where
  next : γ → Act R V E → γ
  sees : γ → R → V → Prop
  may : γ → Act R V E → Prop
  timely : E → Prop

variable {P : Protocol R V E γ}

/-- From `g` the program keeps the protocol, and ends with `Q`. -/
def Follows (P : Protocol R V E γ) : Prog R V E α → γ → (α → γ → Prop) → Prop
  | .ret a, g, Q => Q a g
  | .read r k, g, Q => ∀ v, P.sees g r v → Follows P (k v) (P.next g (.read r v)) Q
  | .write r v k, g, Q => P.may g (.write r v) ∧ Follows P k (P.next g (.write r v)) Q
  | .mark e k, g, Q => P.timely e → P.may g (.mark e) ∧ Follows P k (P.next g (.mark e)) Q

theorem follows_pure {a : α} {g : γ} {Q : α → γ → Prop} :
    Follows P (pure a : Prog R V E α) g Q ↔ Q a g := Iff.rfl

theorem follows_read {r : R} {f : V → Prog R V E β} {g : γ} {Q : β → γ → Prop} :
    Follows P (readReg r >>= f) g Q ↔ ∀ v, P.sees g r v → Follows P (f v) (P.next g (.read r v)) Q := Iff.rfl

theorem follows_write {r : R} {v : V} {f : Unit → Prog R V E β} {g : γ} {Q : β → γ → Prop} :
    Follows P (writeReg r v >>= f) g Q ↔
      P.may g (.write r v) ∧ Follows P (f ()) (P.next g (.write r v)) Q := Iff.rfl

theorem follows_point {e : E} {f : Unit → Prog R V E β} {g : γ} {Q : β → γ → Prop} :
    Follows P (point e >>= f) g Q ↔
      (P.timely e → P.may g (.mark e) ∧ Follows P (f ()) (P.next g (.mark e)) Q) := Iff.rfl

theorem Follows.mono {p : Prog R V E α} {g : γ} {Q Q' : α → γ → Prop} (h : Follows P p g Q)
    (hQ : ∀ a g, Q a g → Q' a g) : Follows P p g Q' := by
  induction p generalizing g with
  | ret a => exact hQ a g h
  | read r k ih => exact fun v hv => ih v (h v hv)
  | write r v k ih => exact ⟨h.1,ih h.2⟩
  | mark e k ih => exact fun ht => ⟨(h ht).1,ih (h ht).2⟩

theorem Follows.bind {p : Prog R V E α} {f : α → Prog R V E β} {g : γ} {Q : α → γ → Prop}
    {Q' : β → γ → Prop} (h : Follows P p g Q) (hf : ∀ a g, Q a g → Follows P (f a) g Q') :
    Follows P (p >>= f) g Q' := by
  change Follows P (Prog.bind p f) g Q'
  induction p generalizing g with
  | ret a => exact hf a g h
  | read r k ih => exact fun v hv => ih v (h v hv)
  | write r v k ih => exact ⟨h.1,ih h.2⟩
  | mark e k ih => exact fun ht => ⟨(h ht).1,ih (h ht).2⟩

/-- The registers keep `J`, a relation between what they hold and what the parties own. -/
structure Sound (b : Bus R V σ) (P : Protocol R V E γ) (J : σ → (ι → γ) → Prop) : Prop where
  read : ∀ s s' G i r v, J s G → b.reads s r v s' →
    P.sees (G i) r v ∧ J s' (Function.update G i (P.next (G i) (.read r v)))
  write : ∀ s s' G i r v, J s G → P.may (G i) (.write r v) → b.writes s r v s' →
    J s' (Function.update G i (P.next (G i) (.write r v)))
  mark : ∀ s G i e, J s G → P.may (G i) (.mark e) → J s (Function.update G i (P.next (G i) (.mark e)))
  env : ∀ s s' G, J s G → b.env s s' → J s' G

/-- What the parties own after a turn. -/
def advance (P : Protocol R V E γ) (G : ι → γ) : Option (ι × Act R V E) → ι → γ
  | none => G
  | some (i,a) => Function.update G i (P.next (G i) a)

def ghost (P : Protocol R V E γ) (G : ι → γ) (tr : List (Option (ι × Act R V E))) : ι → γ :=
  tr.foldl (advance P) G

/-- Every party keeps the protocol, from a state of the registers that fits what they own. -/
structure Conforms (P : Protocol R V E γ) (J : σ → (ι → γ) → Prop) (Q : ι → α → γ → Prop)
    (w : World R V E α σ ι) (G : ι → γ) : Prop where
  shared : J w.shared G
  prog : ∀ i, Follows P (w.prog i) (G i) (Q i)

/-- A turn passes no trace point behind which nothing is promised. -/
def Timely (P : Protocol R V E γ) (l : Option (ι × Act R V E)) : Prop :=
  ∀ i e, l = some (i,.mark e) → P.timely e

section
variable {b : Bus R V σ} {J : σ → (ι → γ) → Prop} {Q : ι → α → γ → Prop}
variable {w w' w₀ : World R V E α σ ι} {G : ι → γ} {tr : List (Option (ι × Act R V E))}
variable {l : Option (ι × Act R V E)}

theorem Conforms.step (hs : Sound b P J) (h : Conforms P J Q w G) (hstep : Step b w l w')
    (ht : Timely P l) : Conforms P J Q w' (advance P G l) := by
  cases hstep with
  | env he => exact ⟨hs.env _ _ _ h.shared he,h.prog⟩
  | @party i a s' p' ha =>
    -- the party that moves follows the protocol from its new value, the others are as before
    have hown : J s' (Function.update G i (P.next (G i) a)) ∧ Follows P p' (P.next (G i) a) (Q i) := by
      have hi := h.prog i
      generalize w.prog i = p at ha hi
      cases ha with
      | @read _ r v k hr =>
        obtain ⟨hsees,hJ⟩ := hs.read _ _ _ i r v h.shared hr
        exact ⟨hJ,hi v hsees⟩
      | write hw => exact ⟨hs.write _ _ _ i _ _ h.shared hi.1 hw,hi.2⟩
      | @mark e _ =>
        obtain ⟨hmay,hk⟩ := hi (ht i e rfl)
        exact ⟨hs.mark _ _ i e h.shared hmay,hk⟩
    refine ⟨hown.1,?_⟩
    intro j
    by_cases hj : j = i
    · subst hj
      simpa [advance] using hown.2
    · simpa [advance,hj] using h.prog j

theorem Conforms.permitted (h : Conforms P J Q w G) {i : ι} {a : Act R V E}
    (hstep : Step b w (some (i,a)) w') (ht : Timely P (some (i,a))) :
    (∃ r v, a = .read r v) ∨ P.may (G i) a := by
  cases hstep with
  | party ha =>
    have hi := h.prog i
    generalize w.prog i = p at ha hi
    cases ha with
    | read hr => exact Or.inl ⟨_,_,rfl⟩
    | write hw => exact Or.inr hi.1
    | mark => exact Or.inr (hi (ht i _ rfl)).1

/-- In every timely interleaving the parties keep the protocol throughout. -/
theorem Run.conforms (hs : Sound b P J) (h₀ : Conforms P J Q w₀ G) (hrun : Run b w₀ tr w)
    (ht : ∀ l ∈ tr, Timely P l) : Conforms P J Q w (ghost P G tr) := by
  induction hrun with
  | nil => exact h₀
  | @snoc tr w w' l hrun hstep ih =>
    rw [ghost,List.foldl_append]
    exact (ih fun l hl => ht l (by simp [hl])).step hs hstep (ht l (by simp))

end

end RegProgram
