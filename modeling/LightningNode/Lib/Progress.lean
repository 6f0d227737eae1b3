/-
# `LightningNode.Lib.Progress` — tasks that come to rest

A program is a tree all of whose branches end, so tasks under way cannot go on
for ever (`work_wf`); what is left to show of a system is where they can stop.

Tasks that take locks never all wait when the locks have ranks and nobody asks
for one below what he has: from a task that waits, whoever has the lock it waits
for holds a higher one than it does, and there is a highest (`exists_free`).
-/
import LightningNode.Lib.Tasks
import Mathlib.Data.DFinsupp.WellFounded

namespace Conc

/-! ## Locks in the order of their ranks -/

/-- Tasks `T` that hold locks `L` and wait for locks. -/
structure Waiting (T L : Type) where
  waits : T → L → Prop
  holds : T → L → Prop
  rank : L → Nat

namespace Waiting

variable {T L : Type} (W : Waiting T L)

structure Ordered : Prop where
  /-- somebody has a lock that is waited for -/
  held : ∀ {t l}, W.waits t l → ∃ u, W.holds u l
  above : ∀ {t l l'}, W.holds t l → W.waits t l' → W.rank l < W.rank l'

variable {W}

/-- Where a task waits, one that holds a lock waits for none. -/
theorem exists_free (h : W.Ordered) {n : Nat} (hn : ∀ l, W.rank l ≤ n) {t : T} {l : L}
    (ht : W.waits t l) : ∃ u, (∃ l, W.holds u l) ∧ ∀ l, ¬ W.waits u l := by
  -- by induction on how far the lock is from the highest
  induction hk : n - W.rank l using Nat.strong_induction_on generalizing t l with
  | _ k ih =>
      obtain ⟨u, hu⟩ := h.held ht
      by_cases hfree : ∃ l', W.waits u l'
      · obtain ⟨l', hl'⟩ := hfree
        have hlt := h.above hu hl'
        have hle := hn l'
        exact ih (n - W.rank l') (by omega) hl' rfl
      · exact ⟨u, ⟨l, hu⟩, fun l' hl' => hfree ⟨l', hl'⟩⟩

end Waiting

/-! ## Programs end -/

variable {A : Type} {R : A → Type} {α σ T : Type}

/-- What one step of its task leaves of a program. -/
inductive Left : Option (Prog A R α) → Option (Prog A R α) → Prop
  | act {a : A} {k : R a → Prog A R α} {r : R a} : Left (some (k r)) (some (.act a k))
  | ret {x : α} : Left none (some (.ret x))

theorem left_wf : WellFounded (Left (A := A) (R := R) (α := α)) := by
  have hnone : Acc (Left (A := A) (R := R) (α := α)) none := ⟨_, nofun⟩
  have hsome : ∀ p : Prog A R α, Acc Left (some p) := by
    intro p
    induction p with
    | ret x =>
        constructor
        intro q hq
        cases hq
        exact hnone
    | act a k ih =>
        constructor
        intro q hq
        cases hq with
        | act => exact ih _
  constructor
  intro p
  cases p with
  | none => exact hnone
  | some p => exact hsome p

/-- A descent in one component at a time, of finitely many. -/
theorem update_wf [Finite T] [DecidableEq T] {X : Type} {r : X → X → Prop} (hr : WellFounded r) :
    WellFounded fun f' f : T → X => ∃ t x, r x (f t) ∧ f' = Function.update f t x := by
  refine Subrelation.wf ?_ (Pi.Lex.wellFounded (WellOrderingRel (α := T)) fun _ => hr)
  rintro f' f ⟨t, x, hx, rfl⟩
  refine ⟨t, ?_, ?_⟩
  · intro u hu
    have hne : u ≠ t := by
      rintro rfl
      exact irrefl u hu
    exact Function.update_of_ne hne ..
  · simpa using hx

namespace System

variable [DecidableEq T] (S : System T A R α σ)

/-- A step of a task that is under way: not the start of one, nothing from outside. -/
inductive Work : Config T A R α σ → Config T A R α σ → Prop
  | act {c : Config T A R α σ} {t : T} {a : A} {k : R a → Prog A R α} {r : R a} {s' : σ} :
      c.task t = some (.act a k) → S.exec t a c.state r s' →
      Work c ⟨s', Function.update c.task t (some (k r))⟩
  | finish {c : Config T A R α σ} {t : T} {x : α} {s' : σ} :
      c.task t = some (.ret x) → S.finish t x c.state s' →
      Work c ⟨s', Function.update c.task t none⟩

variable {S} {c c' : Config T A R α σ}

theorem Work.step (h : S.Work c c') : S.Step c c' := by
  cases h with
  | act ht he => exact .act ht he
  | finish ht hf => exact .finish ht hf

theorem Work.reach (h : Relation.ReflTransGen S.Work c c') : S.Reach c c' :=
  Relation.ReflTransGen.mono (fun _ _ => Work.step) _ _ h

theorem CanGo.work {t : T} (h : S.CanGo c t) : ∃ c', S.Work c c' := by
  rcases h with ⟨x, s', ht, hf⟩ | ⟨a, k, r, s', ht, he⟩
  · exact ⟨_, .finish ht hf⟩
  · exact ⟨_, .act ht he⟩

/-- There is no end to no work. -/
theorem work_wf [Finite T] : WellFounded fun c' c => S.Work c c' := by
  refine Subrelation.wf ?_ (InvImage.wf Config.task (update_wf left_wf))
  intro c' c h
  cases h with
  | @act t a k r s' ht _ => exact ⟨t, _, ht ▸ .act, rfl⟩
  | @finish t x s' ht _ => exact ⟨t, _, ht ▸ .ret, rfl⟩

end System

end Conc
