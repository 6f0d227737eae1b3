/-
# `LightningNode.Lib.Tasks` — programs side by side, and what can be proved of them

A `System` lets any number of tasks perform the actions of their programs in
any order on one shared state, together with steps of the surroundings and
crashes that kill every task at once.

Proofs are by rely and guarantee.  A `Discipline` names an invariant and what
each task relies on; `Safe` says that a program keeps its side of it, and is
proved by the `Triple` rules, one per action; an `Outline` collects the
obligations, and `Outline.Inv.reach` is the one induction over runs.
-/
import LightningNode.Lib.Program
import Mathlib.Logic.Relation

namespace Conc

variable {A : Type} {R : A → Type} {α β σ : Type}

/-! ## Systems and their runs -/

/-- What the tasks `T` may do on a shared state: perform actions, start a
program when idle, finish one, plus steps of the surroundings and crashes that
kill every task at once. -/
structure System (T A : Type) (R : A → Type) (α σ : Type) where
  exec : T → (a : A) → σ → R a → σ → Prop
  start : T → σ → Prog A R α → σ → Prop
  finish : T → α → σ → σ → Prop
  env : σ → σ → Prop
  crash : σ → σ → Prop

/-- A shared state and, for each task, what is left of its program. -/
structure Config (T A : Type) (R : A → Type) (α σ : Type) where
  state : σ
  task : T → Option (Prog A R α)

variable {T : Type}

/-- Every task idle. -/
def Config.idle (s : σ) : Config T A R α σ := ⟨s, fun _ => none⟩

namespace System

variable [DecidableEq T]

inductive Step (S : System T A R α σ) : Config T A R α σ → Config T A R α σ → Prop
  | start {c : Config T A R α σ} {t : T} {p : Prog A R α} {s' : σ} :
      c.task t = none → S.start t c.state p s' →
      Step S c ⟨s', Function.update c.task t (some p)⟩
  | act {c : Config T A R α σ} {t : T} {a : A} {k : R a → Prog A R α} {r : R a} {s' : σ} :
      c.task t = some (.act a k) → S.exec t a c.state r s' →
      Step S c ⟨s', Function.update c.task t (some (k r))⟩
  | finish {c : Config T A R α σ} {t : T} {x : α} {s' : σ} :
      c.task t = some (.ret x) → S.finish t x c.state s' →
      Step S c ⟨s', Function.update c.task t none⟩
  | env {c : Config T A R α σ} {s' : σ} :
      S.env c.state s' → Step S c ⟨s', c.task⟩
  | crash {c : Config T A R α σ} {s' : σ} :
      S.crash c.state s' → Step S c (Config.idle s')

/-- Runs: any number of steps, in any order. -/
def Reach (S : System T A R α σ) : Config T A R α σ → Config T A R α σ → Prop :=
  Relation.ReflTransGen S.Step

/-- The task `t` can go on: it returns, or performs its next action. -/
def CanGo (S : System T A R α σ) (c : Config T A R α σ) (t : T) : Prop :=
  (∃ x s', c.task t = some (.ret x) ∧ S.finish t x c.state s') ∨
    ∃ a k r s', c.task t = some (.act a k) ∧ S.exec t a c.state r s'

/-- Some run from `c` ends where `Q` holds. -/
def Can (S : System T A R α σ) (c : Config T A R α σ) (Q : Config T A R α σ → Prop) : Prop :=
  ∃ c', S.Reach c c' ∧ Q c'

theorem Can.here {S : System T A R α σ} {c : Config T A R α σ} {Q : Config T A R α σ → Prop}
    (h : Q c) : S.Can c Q :=
  ⟨c, .refl, h⟩

theorem Can.step {S : System T A R α σ} {c c' : Config T A R α σ}
    {Q : Config T A R α σ → Prop} (hs : S.Step c c') (h : S.Can c' Q) : S.Can c Q := by
  obtain ⟨c'', hr, hq⟩ := h
  exact ⟨c'', .head hs hr, hq⟩

/-- Up to `n` actions of the task `t`, answered by an executable `step`. -/
def acts (t : T) (step : (a : A) → σ → Option (R a × σ)) :
    Nat → Config T A R α σ → Config T A R α σ
  | 0, c => c
  | n + 1, c =>
      match c.task t with
      | some (.act a k) =>
          match step a c.state with
          | some (r, s) => acts t step n ⟨s, Function.update c.task t (some (k r))⟩
          | none => c
      | _ => c

theorem Can.acts {S : System T A R α σ} {t : T} {step : (a : A) → σ → Option (R a × σ)}
    (hstep : ∀ a s r s', step a s = some (r, s') → S.exec t a s r s')
    {Q : Config T A R α σ → Prop} :
    ∀ (n : Nat) {c : Config T A R α σ}, S.Can (System.acts t step n c) Q → S.Can c Q
  | 0, _, h => h
  | n + 1, c, h => by
      simp only [System.acts] at h
      split at h
      · rename_i a k ht
        split at h
        · rename_i r s hs
          exact .step (.act ht (hstep a _ r s hs)) (Can.acts hstep n h)
        · exact h
      · exact h

/-- A program run to its end, the other tasks standing still. -/
theorem reach_run {S : System T A R α σ} {t : T} {step : (a : A) → σ → Option (R a × σ)}
    (hstep : ∀ a s r s', step a s = some (r, s') → S.exec t a s r s')
    {f : T → Option (Prog A R α)} {p : Prog A R α} : ∀ {s s' : σ} {x : α},
      run step p s = some (x, s') →
      S.Reach ⟨s, Function.update f t (some p)⟩ ⟨s', Function.update f t (some (.ret x))⟩ := by
  induction p with
  | ret y =>
      intro s s' x h
      cases h
      exact .refl
  | act a k ih =>
      intro s s' x h
      cases hs : step a s with
      | none => simp [run, hs] at h
      | some rs =>
          obtain ⟨r, s₁⟩ := rs
          rw [run_act hs] at h
          have hact : S.Step ⟨s, Function.update f t (some (.act a k))⟩
              ⟨s₁, Function.update f t (some (k r))⟩ := by
            have hstep := Step.act (S := S) (t := t) (a := a) (k := k)
              (c := ⟨s, Function.update f t (some (.act a k))⟩) (by simp) (hstep a s r s₁ hs)
            rwa [Function.update_idem] at hstep
          exact .head hact (ih r h)

/-- A call, from its start to its return, with nobody else about. -/
theorem reach_call {S : System T A R α σ} {t : T} {step : (a : A) → σ → Option (R a × σ)}
    (hstep : ∀ a s r s', step a s = some (r, s') → S.exec t a s r s')
    {p : Prog A R α} {s s₁ s₂ s₃ : σ} {x : α} (hs : S.start t s p s₁)
    (hr : run step p s₁ = some (x, s₂)) (hf : S.finish t x s₂ s₃) :
    S.Reach (.idle s) (.idle s₃) := by
  have hstart : S.Step (.idle s) ⟨s₁, Function.update (fun _ => none) t (some p)⟩ :=
    .start (c := .idle s) rfl hs
  have hfinish : S.Step ⟨s₂, Function.update (fun _ => none) t (some (.ret x))⟩ (.idle s₃) := by
    have hstep := Step.finish (S := S) (t := t) (x := x)
      (c := ⟨s₂, Function.update (fun _ => none) t (some (.ret x))⟩) (by simp) hf
    rw [Function.update_idem, Function.update_eq_self_iff.mpr rfl] at hstep
    exact hstep
  exact .head hstart (.tail (reach_run hstep hr) hfinish)

/-- `step`, where its answer meets `ok`. -/
def guarded (step : (a : A) → σ → Option (R a × σ)) (ok : (a : A) → σ → R a → Prop)
    [∀ a s r, Decidable (ok a s r)] (a : A) (s : σ) : Option (R a × σ) :=
  (step a s).filter fun p => ok a s p.1

/-- The same system, cut down to the runs all of whose actions meet `ok`. -/
def onlyIf (S : System T A R α σ) (ok : T → (a : A) → σ → R a → Prop) : System T A R α σ :=
  { S with exec := fun t a s r s' => S.exec t a s r s' ∧ ok t a s r }

omit [DecidableEq T] in
theorem exec_of_guarded {S : System T A R α σ} {ok : T → (a : A) → σ → R a → Prop} {t : T}
    [∀ a s r, Decidable (ok t a s r)] {step : (a : A) → σ → Option (R a × σ)}
    (hstep : ∀ a s r s', step a s = some (r, s') → S.exec t a s r s') (a : A) (s : σ) (r : R a)
    (s' : σ) (h : guarded step (ok t) a s = some (r, s')) : (S.onlyIf ok).exec t a s r s' := by
  obtain ⟨hs, hok⟩ := Option.filter_eq_some_iff.mp h
  exact ⟨hstep a s r s' hs, by simpa using hok⟩

end System

namespace System

variable [DecidableEq T]

/-- What can be reached with a condition on the steps can be reached without. -/
theorem Reach.of_onlyIf {S : System T A R α σ} {ok : T → (a : A) → σ → R a → Prop}
    {c c' : Config T A R α σ} (h : (S.onlyIf ok).Reach c c') : S.Reach c c' := by
  refine Relation.ReflTransGen.mono (fun c₁ c₂ hstep => ?_) c c' h
  cases hstep with
  | start hidle hs => exact .start hidle hs
  | act htask he => exact .act htask he.1
  | finish htask hf => exact .finish htask hf
  | env he => exact .env he
  | crash hc => exact .crash hc

/-- What every action of the programs that are started keeps, the run keeps. -/
theorem Reach.keeps {S : System T A R α σ} {P : A → Prop} {I : σ → Prop}
    (hstart : ∀ {t s p s'}, S.start t s p s' → I s → I s' ∧ p.Every P)
    (hexec : ∀ {t a s r s'}, S.exec t a s r s' → P a → I s → I s')
    (hfinish : ∀ {t x s s'}, S.finish t x s s' → I s → I s')
    (henv : ∀ {s s'}, S.env s s' → I s → I s') (hcrash : ∀ {s s'}, S.crash s s' → I s → I s')
    {s : σ} {c : Config T A R α σ} (hr : S.Reach (.idle s) c) (hs : I s) :
    I c.state ∧ ∀ t p, c.task t = some p → p.Every P := by
  induction hr with
  | refl => exact ⟨hs, nofun⟩
  | @tail c₁ c₂ _ hstep ih =>
      obtain ⟨hi, hp⟩ := ih
      -- the task that moved has the program `q`, the others what they had
      have moved : ∀ {t : T} {q : Option (Prog A R α)}, (∀ p, q = some p → p.Every P) →
          ∀ u p, Function.update c₁.task t q u = some p → p.Every P := by
        intro t q hq u p hu
        by_cases hut : u = t
        · subst hut
          rw [Function.update_self] at hu
          exact hq p hu
        · rw [Function.update_of_ne hut] at hu
          exact hp u p hu
      cases hstep with
      | start _ hst =>
          obtain ⟨hi', hp'⟩ := hstart hst hi
          exact ⟨hi', moved fun p h => Option.some.inj h ▸ hp'⟩
      | act ht he =>
          have hprog := hp _ _ ht
          exact ⟨hexec he hprog.1 hi, moved fun p h => Option.some.inj h ▸ hprog.2 _⟩
      | finish _ hf => exact ⟨hfinish hf hi, moved nofun⟩
      | env he => exact ⟨henv he hi, hp⟩
      | crash hc => exact ⟨hcrash hc hi, nofun⟩

end System

/-! ## Rely and guarantee -/

/-- An invariant of the shared state, the changes any step at all may make to
it, and for each task what it relies on: the changes the others may make while
it is not looking.  What a task must guarantee in return is what the others
rely on. -/
structure Discipline (S : System T A R α σ) where
  inv : σ → Prop
  change : σ → σ → Prop
  rely : T → σ → σ → Prop
  change_refl : ∀ s, change s s
  change_trans : ∀ {s₁ s₂ s₃}, change s₁ s₂ → change s₂ s₃ → change s₁ s₃
  rely_refl : ∀ t s, rely t s s
  rely_trans : ∀ {t s₁ s₂ s₃}, rely t s₁ s₂ → rely t s₂ s₃ → rely t s₁ s₃

namespace Discipline

variable {S : System T A R α σ} (D : Discipline S)

/-- The step `s → s'` of `t` is an allowed one, and one every other task relies on. -/
def Guar (t : T) (s s' : σ) : Prop := D.change s s' ∧ ∀ u, u ≠ t → D.rely u s s'

/-- `p`, from `s` on, keeps the invariant and the guarantee whatever the other
tasks do between its actions, and satisfies `Q` when it returns. -/
def Safe (t : T) (Q : β → σ → Prop) : Prog A R β → σ → Prop
  | .ret x, s => ∀ s', D.rely t s s' → D.inv s' → Q x s'
  | .act a k, s => ∀ s₁, D.rely t s s₁ → D.inv s₁ →
      ∀ r s₂, S.exec t a s₁ r s₂ → D.inv s₂ ∧ D.Guar t s₁ s₂ ∧ Safe t Q (k r) s₂

theorem Safe.rely {t : T} {Q : β → σ → Prop} : ∀ {p : Prog A R β} {s s' : σ},
    D.Safe t Q p s → D.rely t s s' → D.Safe t Q p s'
  | .ret _, _, _, h, hr => fun s₁ h₁ hi => h s₁ (D.rely_trans hr h₁) hi
  | .act _ _, _, _, h, hr => fun s₁ h₁ hi => h s₁ (D.rely_trans hr h₁) hi

theorem Safe.mono {t : T} {Q Q' : β → σ → Prop} (hQ : ∀ x s, D.inv s → Q x s → Q' x s) :
    ∀ {p : Prog A R β} {s : σ}, D.Safe t Q p s → D.Safe t Q' p s
  | .ret x, _, h => fun s' hr hi => hQ x s' hi (h s' hr hi)
  | .act _ _, _, h => by
      intro s₁ h₁ hi r s₂ he
      obtain ⟨hi₂, hg, hk⟩ := h s₁ h₁ hi r s₂ he
      exact ⟨hi₂, hg, Safe.mono hQ hk⟩

theorem Safe.bind {γ : Type} {t : T} {M : β → σ → Prop} {Q : γ → σ → Prop} {f : β → Prog A R γ}
    (hf : ∀ x s, D.inv s → M x s → D.Safe t Q (f x) s) :
    ∀ {p : Prog A R β} {s : σ}, D.inv s → D.Safe t M p s → D.Safe t Q (p >>= f) s
  | .ret x, s, hi, h => hf x s hi (h s (D.rely_refl t s) hi)
  | .act a k, s, _, h => by
      intro s₁ h₁ hi r s₂ he
      obtain ⟨hi₂, hg, hk⟩ := h s₁ h₁ hi r s₂ he
      exact ⟨hi₂, hg, Safe.bind hf hi₂ hk⟩

/-- `P` survives what the other tasks do. -/
def Stable (t : T) (P : σ → Prop) : Prop :=
  ∀ s s', D.inv s → D.inv s' → D.rely t s s' → P s → P s'

/-- From any state that satisfies the invariant and `P`, the program is safe
with postcondition `Q`. -/
def Triple (t : T) (P : σ → Prop) (p : Prog A R β) (Q : β → σ → Prop) : Prop :=
  ∀ s, D.inv s → P s → D.Safe t Q p s

/-- A program that is safe in one system is safe in another whose discipline adds
the invariant `J`, if there its actions `P`, while `G` holds, are those of the first. -/
theorem Safe.transfer {S' : System T A R α σ} {D' : Discipline S'} {t : T} {P : A → Prop}
    {J G : σ → Prop} (hinv : ∀ s, D'.inv s ↔ D.inv s ∧ J s)
    (hrely : ∀ {s s'}, D'.rely t s s' → D.rely t s s' ∧ (G s → G s'))
    (hguar : ∀ {s s'}, G s → D.Guar t s s' → D'.Guar t s s')
    (hexec : ∀ {a s r s'}, P a → G s → J s → S'.exec t a s r s' → S.exec t a s r s' ∧ G s' ∧ J s')
    {Q : β → σ → Prop} :
    ∀ {p : Prog A R β} {s : σ}, p.Every P → G s → D.Safe t Q p s → D'.Safe t Q p s
  | .ret x, s, _, _, h => fun s' hr hi => h s' (hrely hr).1 ((hinv s').mp hi).1
  | .act a k, s, hp, hG, h => by
      intro s₁ hr hi r s₂ he
      obtain ⟨hD, hJ⟩ := (hinv s₁).mp hi
      obtain ⟨hr', hG'⟩ := hrely hr
      have hG₁ := hG' hG
      obtain ⟨he', hG₂, hJ₂⟩ := hexec hp.1 hG₁ hJ he
      obtain ⟨hi₂, hg, hk⟩ := h s₁ hr' hD r s₂ he'
      exact ⟨(hinv s₂).mpr ⟨hi₂, hJ₂⟩, hguar hG₁ hg,
        Safe.transfer hinv hrely hguar hexec (hp.2 r) hG₂ hk⟩

variable {D}

theorem Triple.ret {t : T} {P : σ → Prop} {Q : β → σ → Prop} {x : β} (hP : D.Stable t P)
    (h : ∀ s, D.inv s → P s → Q x s) : D.Triple t P (.ret x) Q :=
  fun s hi hs s' hr hi' => h s' hi' (hP s s' hi hi' hr hs)

/-- One action: `M r` is what holds after the answer `r`. -/
theorem Triple.act {t : T} {P : σ → Prop} {a : A} {k : R a → Prog A R β} {Q : β → σ → Prop}
    (M : R a → σ → Prop) (hP : D.Stable t P)
    (hstep : ∀ s, D.inv s → P s → ∀ r s', S.exec t a s r s' →
      D.inv s' ∧ D.Guar t s s' ∧ M r s')
    (hk : ∀ r, D.Triple t (M r) (k r) Q) : D.Triple t P (.act a k) Q := by
  intro s hi hs s₁ hr hi₁ r s₂ he
  obtain ⟨hi₂, hg, hM⟩ := hstep s₁ hi₁ (hP s s₁ hi hi₁ hr hs) r s₂ he
  exact ⟨hi₂, hg, hk r s₂ hi₂ hM⟩

theorem Triple.perform {t : T} {P : σ → Prop} {a : A} {Q : R a → σ → Prop}
    (hP : D.Stable t P) (hQ : ∀ r, D.Stable t (Q r))
    (hstep : ∀ s, D.inv s → P s → ∀ r s', S.exec t a s r s' →
      D.inv s' ∧ D.Guar t s s' ∧ Q r s') : D.Triple t P (Prog.perform a) Q :=
  .act Q hP hstep fun r => .ret (hQ r) fun _ _ h => h

theorem Triple.bind {γ : Type} {t : T} {P : σ → Prop} {p : Prog A R β} {f : β → Prog A R γ}
    {Q : γ → σ → Prop} (M : β → σ → Prop) (hp : D.Triple t P p M)
    (hf : ∀ x, D.Triple t (M x) (f x) Q) : D.Triple t P (p >>= f) Q :=
  fun s hi hs => Safe.bind D (fun x s' hi' hM => hf x s' hi' hM) hi (hp s hi hs)

theorem Triple.andThen {ε γ : Type} {t : T} {P : σ → Prop} {p : Prog A R (Except ε β)}
    {f : β → Prog A R (Except ε γ)} {Q : Except ε γ → σ → Prop} (M : β → σ → Prop)
    (hp : D.Triple t P p fun r s => match r with | .ok x => M x s | .error e => Q (.error e) s)
    (hQ : ∀ e, D.Stable t (Q (.error e)))
    (hf : ∀ x, D.Triple t (M x) (f x) Q) : D.Triple t P (p.andThen f) Q := by
  refine .bind _ hp fun r => ?_
  cases r with
  | ok x => exact hf x
  | error e => exact .ret (hQ e) fun _ _ h => h

theorem Triple.weaken {t : T} {P P' : σ → Prop} {p : Prog A R β} {Q : β → σ → Prop}
    (h : D.Triple t P p Q) (hP : ∀ s, D.inv s → P' s → P s) : D.Triple t P' p Q :=
  fun s hi hs => h s hi (hP s hi hs)

end Discipline

/-! ## From the tasks to the runs -/

/-- A discipline with every task checked against it: what holds of a task while
it is idle, what its programs establish, and the obligations that make the two
fit. -/
structure Outline (S : System T A R α σ) extends Discipline S where
  idle : T → σ → Prop
  post : T → α → σ → Prop
  idle_stable : ∀ t, toDiscipline.Stable t (idle t)
  start_ok : ∀ {t s p s'}, S.start t s p s' → inv s → idle t s →
    inv s' ∧ toDiscipline.Guar t s s' ∧ toDiscipline.Safe t (post t) p s'
  finish_ok : ∀ {t x s s'}, S.finish t x s s' → inv s → post t x s →
    inv s' ∧ toDiscipline.Guar t s s' ∧ idle t s'
  env_ok : ∀ {s s'}, S.env s s' → inv s → inv s' ∧ change s s' ∧ ∀ t, rely t s s'
  crash_ok : ∀ {s s'}, S.crash s s' → inv s → inv s' ∧ change s s' ∧ ∀ t, idle t s'

namespace Outline

variable {S : System T A R α σ} (O : Outline S)

/-- What a task still has to satisfy, from the state `s` on. -/
def Holds (s : σ) (t : T) : Option (Prog A R α) → Prop
  | none => O.idle t s
  | some p => O.Safe t (O.post t) p s

theorem Holds.rely {s s' : σ} {t : T} (hi : O.inv s) (hi' : O.inv s') (hr : O.rely t s s') :
    ∀ {p : Option (Prog A R α)}, O.Holds s t p → O.Holds s' t p
  | none, h => O.idle_stable t s s' hi hi' hr h
  | some _, h => Discipline.Safe.rely O.toDiscipline h hr

/-- A task that has just returned satisfies its postcondition. -/
theorem Holds.returned {s : σ} {t : T} {x : α} (hi : O.inv s)
    (h : O.Holds s t (some (.ret x))) : O.post t x s :=
  h s (O.rely_refl t s) hi

/-- The invariant of configurations the outline proves. -/
structure Inv (c : Config T A R α σ) : Prop where
  state : O.inv c.state
  task : ∀ t, O.Holds c.state t (c.task t)

theorem Inv.init {s : σ} (hi : O.inv s) (hd : ∀ t, O.idle t s) :
    O.Inv (Config.idle s : Config T A R α σ) := ⟨hi, hd⟩

variable [DecidableEq T]

theorem Inv.update {c : Config T A R α σ} (h : O.Inv c) {t : T} {s' : σ}
    {p : Option (Prog A R α)} (hi : O.inv s') (hg : O.Guar t c.state s')
    (hp : O.Holds s' t p) : O.Inv ⟨s', Function.update c.task t p⟩ where
  state := hi
  task u := by
    by_cases hu : u = t
    · subst hu; simpa using hp
    · simpa [hu] using Holds.rely O h.state hi (hg.2 u hu) (h.task u)

theorem Inv.step {c c' : Config T A R α σ} (h : O.Inv c) (hs : S.Step c c') :
    O.Inv c' ∧ O.change c.state c'.state := by
  cases hs with
  | @start t p s' hn hst =>
      have hidle : O.idle t c.state := by simpa [hn, Holds] using h.task t
      obtain ⟨hi, hg, hp⟩ := O.start_ok hst h.state hidle
      exact ⟨h.update O hi hg hp, hg.1⟩
  | @act t a k r s' ht he =>
      have hsafe : O.Safe t (O.post t) (.act a k) c.state := by
        simpa [ht, Holds] using h.task t
      obtain ⟨hi, hg, hp⟩ := hsafe c.state (O.rely_refl t _) h.state r s' he
      exact ⟨h.update O hi hg hp, hg.1⟩
  | @finish t x s' ht hf =>
      have hpost : O.post t x c.state := Holds.returned O h.state (ht ▸ h.task t)
      obtain ⟨hi, hg, hp⟩ := O.finish_ok hf h.state hpost
      exact ⟨h.update O hi hg hp, hg.1⟩
  | @env s' he =>
      obtain ⟨hi, hc, hr⟩ := O.env_ok he h.state
      exact ⟨⟨hi, fun t => Holds.rely O h.state hi (hr t) (h.task t)⟩, hc⟩
  | @crash s' hcr =>
      obtain ⟨hi, hc, hd⟩ := O.crash_ok hcr h.state
      exact ⟨⟨hi, hd⟩, hc⟩

/-- Along a run, the outline goes on holding and every change is an allowed one. -/
theorem Inv.reach {c c' : Config T A R α σ} (h : O.Inv c) (hr : S.Reach c c') :
    O.Inv c' ∧ O.change c.state c'.state := by
  induction hr with
  | refl => exact ⟨h, O.change_refl _⟩
  | tail _ hs ih =>
      obtain ⟨hi, hc⟩ := ih.1.step O hs
      exact ⟨hi, O.change_trans ih.2 hc⟩

end Outline

end Conc
