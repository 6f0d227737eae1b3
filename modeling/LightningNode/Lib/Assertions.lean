/-
# `LightningNode.Lib.Assertions` — what a task may say between its steps

The rules of `LightningNode.Lib.Tasks` ask of every assertion that it survives
what the other tasks do.  Here this is asked once, of a whole language of
assertions (`Assertions`), and `Meets` is the triple over such a language.

    ret       the value returned
    bind      one program after the other
    act       one action, with what is known after each answer
    look      one action that changes nothing the task knows
-/
import LightningNode.Lib.Tasks

namespace Conc

namespace Discipline

variable {T A : Type} {R : A → Type} {α β γ σ : Type} {S : System T A R α σ}

/-- The statements `L`, none of which the other tasks can make false. -/
structure Assertions (D : Discipline S) (t : T) (L : Type) where
  holds : L → σ → Prop
  stable : ∀ P, D.Stable t (holds P)

namespace Assertions

variable {D : Discipline S} {t : T} {L : Type} (K : D.Assertions t L)

/-- From `P` on, `p` ends in `Q`. -/
def Meets (P : L) (p : Prog A R β) (Q : β → L) : Prop :=
  D.Triple t (K.holds P) p fun x => K.holds (Q x)

variable {K} {P P' : L} {Q Q' : β → L}

theorem ret {x : β} (h : ∀ s, K.holds P s → K.holds (Q x) s) : K.Meets P (.ret x) Q :=
  .ret (K.stable P) fun s _ hs => h s hs

theorem bind {p : Prog A R γ} {f : γ → Prog A R β} (M : γ → L) (hp : K.Meets P p M)
    (hf : ∀ x, K.Meets (M x) (f x) Q) : K.Meets P (p >>= f) Q :=
  Triple.bind _ hp hf

theorem weaken {p : Prog A R β} (h : K.Meets P p Q) (hP : ∀ s, K.holds P' s → K.holds P s) :
    K.Meets P' p Q :=
  Triple.weaken h fun s _ hs => hP s hs

theorem mono {p : Prog A R β} (h : K.Meets P p Q) (hQ : ∀ x s, K.holds (Q x) s → K.holds (Q' x) s) :
    K.Meets P p Q' :=
  fun s hi hs => Safe.mono D (fun x s' _ hq => hQ x s' hq) (h s hi hs)

theorem act {a : A} {k : R a → Prog A R β} (M : R a → L)
    (hstep : ∀ s r s', D.inv s → K.holds P s → S.exec t a s r s' →
      D.inv s' ∧ D.Guar t s s' ∧ K.holds (M r) s')
    (hk : ∀ r, K.Meets (M r) (k r) Q) : K.Meets P (.act a k) Q :=
  .act _ (K.stable P) (fun s hi hs r s' he => hstep s r s' hi hs he) hk

/-- The answer is known to be one of `F`. -/
theorem look {a : A} {k : R a → Prog A R β} (F : R a → Prop)
    (hstep : ∀ s r s', D.inv s → K.holds P s → S.exec t a s r s' →
      (D.inv s' ∧ D.Guar t s s' ∧ K.holds P s') ∧ F r)
    (hk : ∀ r, F r → K.Meets P (k r) Q) : K.Meets P (.act a k) Q := by
  refine .act (fun r s => K.holds P s ∧ F r) (K.stable P) ?_ ?_
  · intro s hi hs r s' he
    obtain ⟨⟨hi', hg, hP⟩, hF⟩ := hstep s r s' hi hs he
    exact ⟨hi', hg, hP, hF⟩
  · intro r s hi hs
    exact hk r hs.2 s hi hs.1

end Assertions

end Discipline

end Conc
