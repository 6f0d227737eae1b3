/-
# `LightningNode.Lib.Program` — programs as trees of atomic actions

A program returns a value, or performs one atomic action and goes on with the
answer.  The tree fixes which actions are performed and in what order; what an
action does to the state is left to whoever runs the program, so that one
program text can be run alone, interleaved with others, with faults or with
crashes between any two of its actions.

Two ways to run a program alone are given here; programs side by side are in
`LightningNode.Lib.Tasks`.

    Runs exec p s x s'      from `s` to the end, returning `x` in `s'`
    Ends exec p s Q         however `p` ends, it ends in `Q`
    Passes exec p s p' s'   cut anywhere, with `p'` left to do
    run step p s            the same for a deterministic executable `step`
-/
import Mathlib.Logic.Function.Basic

namespace Conc

/-- A program over the actions `A`, where `a : A` is answered by an `R a`. -/
inductive Prog (A : Type) (R : A → Type) (α : Type) : Type where
  | ret (x : α)
  | act (a : A) (k : R a → Prog A R α)

variable {A : Type} {R : A → Type} {α β σ : Type}

namespace Prog

def bind : Prog A R α → (α → Prog A R β) → Prog A R β
  | .ret x, f => f x
  | .act a k, f => .act a fun r => (k r).bind f

instance : Monad (Prog A R) where
  pure := .ret
  bind := bind

/-- The program that performs one action and returns its answer. -/
def perform (a : A) : Prog A R (R a) := .act a .ret

/-- `p`, then `f` of its value; an error of `p` ends both. -/
def andThen {ε : Type} (p : Prog A R (Except ε α)) (f : α → Prog A R (Except ε β)) :
    Prog A R (Except ε β) :=
  p.bind fun
    | .ok x => f x
    | .error e => .ret (.error e)

/-- Every action of the program, whatever the answers, is one of `P`. -/
def Every (P : A → Prop) : Prog A R α → Prop
  | .ret _ => True
  | .act a k => P a ∧ ∀ r, (k r).Every P

theorem Every.of_all {P : A → Prop} (h : ∀ a, P a) : ∀ p : Prog A R α, p.Every P
  | .ret _ => trivial
  | .act a k => ⟨h a, fun r => Every.of_all h (k r)⟩

theorem Every.bind {P : A → Prop} {f : α → Prog A R β} (hf : ∀ x, (f x).Every P) :
    ∀ {p : Prog A R α}, p.Every P → (p.bind f).Every P
  | .ret x, _ => hf x
  | .act _ _, h => ⟨h.1, fun r => Every.bind hf (h.2 r)⟩

theorem Every.andThen {ε : Type} {P : A → Prop} {p : Prog A R (Except ε α)}
    {f : α → Prog A R (Except ε β)} (hp : p.Every P) (hf : ∀ x, (f x).Every P) :
    (p.andThen f).Every P := by
  refine Every.bind ?_ hp
  intro r
  cases r with
  | ok x => exact hf x
  | error e => exact trivial

variable {B : Type} {S : B → Type}

/-- On with `g` after an answer; an error ends the program. -/
def goOn {γ : Type} (g : γ → Prog B S α) : Except α γ → Prog B S α
  | .ok r => g r
  | .error x => .ret x

/-- Each action carried out by a program over other actions, and an error there ends
the whole. -/
def expand (f : (a : A) → Prog B S (Except α (R a))) : Prog A R α → Prog B S α
  | .ret x => .ret x
  | .act a k => (f a).bind (goOn fun r => (k r).expand f)

theorem expand_act (f : (a : A) → Prog B S (Except α (R a))) (a : A) (k : R a → Prog A R α) :
    (Prog.act a k).expand f = (f a >>= goOn fun r => (k r).expand f) := rfl

@[simp] theorem pure_eq (x : α) : (pure x : Prog A R α) = .ret x := rfl

@[simp] theorem ret_bind (x : α) (f : α → Prog A R β) : (Prog.ret x >>= f) = f x := rfl

@[simp] theorem act_bind (a : A) (k : R a → Prog A R α) (f : α → Prog A R β) :
    (Prog.act a k >>= f) = .act a fun r => k r >>= f := rfl

@[simp] theorem perform_bind (a : A) (f : R a → Prog A R β) :
    (perform a >>= f) = .act a f := rfl

end Prog

/-! ## A program alone -/

/-- `p`, run alone from `s`, can return `x` in the state `s'`. -/
def Runs (exec : (a : A) → σ → R a → σ → Prop) : Prog A R α → σ → α → σ → Prop
  | .ret x, s, y, s' => y = x ∧ s' = s
  | .act a k, s, y, s' => ∃ r s₁, exec a s r s₁ ∧ Runs exec (k r) s₁ y s'

theorem runs_bind {exec : (a : A) → σ → R a → σ → Prop} :
    ∀ {p : Prog A R α} {f : α → Prog A R β} {s s' : σ} {y : β},
      Runs exec (p >>= f) s y s' ↔ ∃ x s₁, Runs exec p s x s₁ ∧ Runs exec (f x) s₁ y s'
  | .ret x, f, s, s', y => by
      constructor
      · intro h; exact ⟨x, s, ⟨rfl, rfl⟩, h⟩
      · rintro ⟨_, _, ⟨rfl, rfl⟩, h⟩; exact h
  | .act a k, f, s, s', y => by
      constructor
      · rintro ⟨r, s₁, he, h⟩
        obtain ⟨x, s₂, hk, hf⟩ := runs_bind.mp h
        exact ⟨x, s₂, ⟨r, s₁, he, hk⟩, hf⟩
      · rintro ⟨x, s₂, ⟨r, s₁, he, hk⟩, hf⟩
        exact ⟨r, s₁, he, runs_bind.mpr ⟨x, s₂, hk, hf⟩⟩

/-- Both programs of a sequence that succeeds have succeeded. -/
theorem runs_andThen {exec : (a : A) → σ → R a → σ → Prop} {ε : Type}
    {p : Prog A R (Except ε α)} {f : α → Prog A R (Except ε β)} {s s' : σ} {y : β}
    (h : Runs exec (p.andThen f) s (.ok y) s') :
    ∃ x s₁, Runs exec p s (.ok x) s₁ ∧ Runs exec (f x) s₁ (.ok y) s' := by
  obtain ⟨x, s₁, hp, hf⟩ := runs_bind.mp h
  cases x with
  | ok x => exact ⟨x, s₁, hp, hf⟩
  | error e => exact nomatch hf.1

/-- `p`, run alone from `s`, comes to `s'`, with `p'` left of it. -/
inductive Passes (exec : (a : A) → σ → R a → σ → Prop) : Prog A R α → σ → Prog A R α → σ → Prop
  | here {p : Prog A R α} {s : σ} : Passes exec p s p s
  | act {a : A} {k : R a → Prog A R α} {r : R a} {p : Prog A R α} {s s₁ s' : σ} :
      exec a s r s₁ → Passes exec (k r) s₁ p s' → Passes exec (.act a k) s p s'

namespace Passes

variable {exec : (a : A) → σ → R a → σ → Prop} {p p' p'' : Prog A R α} {s s' s'' : σ}

theorem trans (h : Passes exec p s p' s') (h' : Passes exec p' s' p'' s'') :
    Passes exec p s p'' s'' := by
  induction h with
  | here => exact h'
  | act he _ ih => exact .act he (ih h')

/-- One action more. -/
theorem more {a : A} {k : R a → Prog A R α} {r : R a} (h : Passes exec p s (.act a k) s')
    (he : exec a s' r s'') : Passes exec p s (k r) s'' :=
  h.trans (.act he .here)

theorem runs {x : α} (h : Passes exec p s (.ret x) s') : Runs exec p s x s' := by
  generalize hp' : Prog.ret x = p' at h
  induction h with
  | here =>
      subst hp'
      exact ⟨rfl, rfl⟩
  | act he _ ih => exact ⟨_, _, he, ih hp'⟩

end Passes

/-- However `p` ends when run alone from `s`, what it returns and where satisfy `Q`. -/
def Ends (exec : (a : A) → σ → R a → σ → Prop) (p : Prog A R α) (s : σ) (Q : α → σ → Prop) :
    Prop :=
  ∀ x s', Runs exec p s x s' → Q x s'

namespace Ends

variable {exec : (a : A) → σ → R a → σ → Prop} {s : σ}

theorem ret {x : α} {Q : α → σ → Prop} (h : Q x s) : Ends exec (.ret x) s Q := by
  intro y s' hr
  obtain ⟨rfl, rfl⟩ := hr
  exact h

theorem act {a : A} {k : R a → Prog A R α} {Q : α → σ → Prop}
    (h : ∀ r s₁, exec a s r s₁ → Ends exec (k r) s₁ Q) : Ends exec (.act a k) s Q := by
  intro x s' hr
  obtain ⟨r, s₁, he, hk⟩ := hr
  exact h r s₁ he x s' hk

theorem perform {a : A} {Q : R a → σ → Prop} (h : ∀ r s', exec a s r s' → Q r s') :
    Ends exec (Prog.perform a) s Q :=
  act fun r s₁ he => ret (h r s₁ he)

theorem bind {p : Prog A R α} {f : α → Prog A R β} {Q : β → σ → Prop} (M : α → σ → Prop)
    (hp : Ends exec p s M) (hf : ∀ x s₁, M x s₁ → Ends exec (f x) s₁ Q) :
    Ends exec (p >>= f) s Q := by
  intro y s' hr
  obtain ⟨x, s₁, hx, hy⟩ := runs_bind.mp hr
  exact hf x s₁ (hp x s₁ hx) y s' hy

theorem andThen {ε : Type} {p : Prog A R (Except ε α)} {f : α → Prog A R (Except ε β)}
    {Q : Except ε β → σ → Prop} (M : Except ε α → σ → Prop) (hp : Ends exec p s M)
    (hf : ∀ x s₁, M (.ok x) s₁ → Ends exec (f x) s₁ Q)
    (he : ∀ e s₁, M (.error e) s₁ → Q (.error e) s₁) : Ends exec (p.andThen f) s Q := by
  refine bind M hp ?_
  intro r s₁ hr
  cases r with
  | ok x => exact hf x s₁ hr
  | error e => exact ret (he e s₁ hr)

/-- A first half that cannot fail. -/
theorem andThen_ok {ε : Type} {p : Prog A R (Except ε α)} {f : α → Prog A R (Except ε β)}
    {Q : Except ε β → σ → Prop} (x : α) (M : σ → Prop)
    (hp : Ends exec p s fun r s₁ => r = .ok x ∧ M s₁)
    (hf : ∀ s₁, M s₁ → Ends exec (f x) s₁ Q) : Ends exec (p.andThen f) s Q := by
  refine andThen _ hp ?_ ?_
  · intro y s₁ h
    obtain ⟨hy, hM⟩ := h
    obtain rfl := Except.ok.inj hy
    exact hf s₁ hM
  · intro e s₁ h
    cases h.1

theorem mono {p : Prog A R α} {Q Q' : α → σ → Prop} (h : Ends exec p s Q)
    (hQ : ∀ x s', Q x s' → Q' x s') : Ends exec p s Q' :=
  fun x s' hr => hQ x s' (h x s' hr)

end Ends

/-- Where every action can be performed, every program ends. -/
theorem runs_total {exec : (a : A) → σ → R a → σ → Prop}
    (hexec : ∀ a s, ∃ r s', exec a s r s') (p : Prog A R α) :
    ∀ s, ∃ x s', Runs exec p s x s' := by
  induction p with
  | ret x => exact fun s => ⟨x, s, rfl, rfl⟩
  | act a k ih =>
      intro s
      obtain ⟨r, s₁, he⟩ := hexec a s
      obtain ⟨x, s', hr⟩ := ih r s₁
      exact ⟨x, s', r, s₁, he, hr⟩

/-- Fewer ways to perform an action, fewer runs. -/
theorem Runs.mono {exec exec' : (a : A) → σ → R a → σ → Prop}
    (h : ∀ a s r s', exec a s r s' → exec' a s r s') :
    ∀ {p : Prog A R α} {s s' : σ} {x : α}, Runs exec p s x s' → Runs exec' p s x s'
  | .ret _, _, _, _, hr => hr
  | .act _ _, _, _, _, hr => by
      obtain ⟨r, s₁, he, hk⟩ := hr
      exact ⟨r, s₁, h _ _ _ _ he, hk.mono h⟩

/-- `p` run alone by an executable `step`; `none` where an action blocks. -/
def run (step : (a : A) → σ → Option (R a × σ)) : Prog A R α → σ → Option (α × σ)
  | .ret x, s => some (x, s)
  | .act a k, s =>
      match step a s with
      | none => none
      | some (r, s₁) => run step (k r) s₁

@[simp] theorem run_ret (step : (a : A) → σ → Option (R a × σ)) (x : α) (s : σ) :
    run step (.ret x) s = some (x, s) := rfl

theorem run_act {step : (a : A) → σ → Option (R a × σ)} {a : A} {k : R a → Prog A R α}
    {s s₁ : σ} {r : R a} (h : step a s = some (r, s₁)) :
    run step (.act a k) s = run step (k r) s₁ := by
  simp only [run, h]

theorem run_bind {step : (a : A) → σ → Option (R a × σ)} :
    ∀ {p : Prog A R α} {f : α → Prog A R β} {s s₁ : σ} {x : α},
      run step p s = some (x, s₁) → run step (p >>= f) s = run step (f x) s₁
  | .ret _, f, s, s₁, x, h => by
      simp only [run_ret, Option.some.injEq, Prod.mk.injEq] at h
      obtain ⟨rfl, rfl⟩ := h
      rfl
  | .act a k, f, s, s₁, x, h => by
      cases hs : step a s with
      | none => simp [run, hs] at h
      | some rs =>
          obtain ⟨r, s₂⟩ := rs
          rw [run_act hs] at h
          rw [Prog.act_bind, run_act hs]
          exact run_bind h

/-- A run that comes to its end, taken apart at its first action. -/
theorem run_act_some {step : (a : A) → σ → Option (R a × σ)} {a : A} {k : R a → Prog A R α}
    {s s' : σ} {x : α} (h : run step (.act a k) s = some (x, s')) :
    ∃ r s₁, step a s = some (r, s₁) ∧ run step (k r) s₁ = some (x, s') := by
  cases hs : step a s with
  | none => simp [run, hs] at h
  | some rs =>
      rw [run_act hs] at h
      exact ⟨rs.1, rs.2, rfl, h⟩

/-- The same, of one program after the other. -/
theorem run_bind_some {step : (a : A) → σ → Option (R a × σ)} :
    ∀ {p : Prog A R α} {f : α → Prog A R β} {s s' : σ} {y : β},
      run step (p >>= f) s = some (y, s') →
        ∃ x s₁, run step p s = some (x, s₁) ∧ run step (f x) s₁ = some (y, s')
  | .ret x, _, s, _, _, h => ⟨x, s, rfl, h⟩
  | .act _ _, _, _, _, _, h => by
      obtain ⟨r, s₁, hs, hk⟩ := run_act_some h
      obtain ⟨x, s₂, hp, hf⟩ := run_bind_some hk
      exact ⟨x, s₂, (run_act hs).trans hp, hf⟩

/-- An executable run is one of the runs of a relation that has all its steps. -/
theorem runs_of_run {exec : (a : A) → σ → R a → σ → Prop}
    {step : (a : A) → σ → Option (R a × σ)}
    (hstep : ∀ a s r s', step a s = some (r, s') → exec a s r s') :
    ∀ {p : Prog A R α} {s s' : σ} {x : α}, run step p s = some (x, s') → Runs exec p s x s'
  | .ret _, s, s', x, h => by
      simp only [run_ret, Option.some.injEq, Prod.mk.injEq] at h
      exact ⟨h.1.symm, h.2.symm⟩
  | .act a k, s, s', x, h => by
      cases hs : step a s with
      | none => simp [run, hs] at h
      | some rs =>
          obtain ⟨r, s₂⟩ := rs
          rw [run_act hs] at h
          exact ⟨r, s₂, hstep a s r s₂ hs, runs_of_run hstep h⟩

end Conc
