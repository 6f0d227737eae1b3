/-
# `LightningNode.Lib.Solo` — one task

A system whose only task is `()`: between its actions nothing happens to the
state but crashes, so an invariant is all there is to rely on.

    Discipline.solo   the invariant, and nothing else
    Triple.solo       one action
    Outline.solo      what has to be checked
    System.alone      one program, with nothing else going on
-/
import LightningNode.Lib.Tasks

namespace Conc

variable {A : Type} {R : A → Type} {α β σ : Type}

namespace Discipline

/-- Nobody else changes the state. -/
def solo (S : System Unit A R α σ) (inv : σ → Prop) : Discipline S where
  inv := inv
  change _ _ := True
  rely _ s s' := s' = s
  change_refl _ := trivial
  change_trans _ _ := trivial
  rely_refl _ _ := rfl
  rely_trans h h' := h'.trans h

variable {S : System Unit A R α σ} {inv : σ → Prop}

theorem solo_stable (P : σ → Prop) : (solo S inv).Stable () P := by
  rintro s _ _ _ rfl h
  exact h

theorem solo_guar (s s' : σ) : (solo S inv).Guar () s s' := by
  refine ⟨trivial, ?_⟩
  intro u hu
  exact absurd (Subsingleton.elim u ()) hu

theorem Triple.solo {P : σ → Prop} {a : A} {k : R a → Prog A R β} {Q : β → σ → Prop}
    (M : R a → σ → Prop)
    (hstep : ∀ s, inv s → P s → ∀ r s', S.exec () a s r s' → inv s' ∧ M r s')
    (hk : ∀ r, (Discipline.solo S inv).Triple () (M r) (k r) Q) :
    (Discipline.solo S inv).Triple () P (.act a k) Q := by
  refine .act M (solo_stable P) ?_ hk
  intro s hi hs r s' he
  obtain ⟨hi', hM⟩ := hstep s hi hs r s' he
  exact ⟨hi', solo_guar s s', hM⟩

theorem Triple.solo_ret {P : σ → Prop} {x : β} {Q : β → σ → Prop} (h : ∀ s, inv s → P s → Q x s) :
    (Discipline.solo S inv).Triple () P (.ret x) Q :=
  .ret (solo_stable P) h

theorem Triple.solo_andThen {ε γ : Type} {P : σ → Prop} {p : Prog A R (Except ε β)}
    {f : β → Prog A R (Except ε γ)} {Q : Except ε γ → σ → Prop} (M : β → σ → Prop)
    (hp : (Discipline.solo S inv).Triple () P p fun r s =>
      match r with | .ok x => M x s | .error e => Q (.error e) s)
    (hf : ∀ x, (Discipline.solo S inv).Triple () (M x) (f x) Q) :
    (Discipline.solo S inv).Triple () P (p.andThen f) Q :=
  .andThen M hp (fun _ => solo_stable _) hf

/-- A program all of whose actions keep the invariant keeps it. -/
theorem Triple.of_every {P : A → Prop}
    (hstep : ∀ a, P a → ∀ s, inv s → ∀ r s', S.exec () a s r s' → inv s') :
    ∀ {p : Prog A R β}, p.Every P →
      (Discipline.solo S inv).Triple () (fun _ => True) p fun _ _ => True
  | .ret _, _ => .solo_ret fun _ _ _ => trivial
  | .act a _, h =>
      .solo (fun _ _ => True) (fun s hi _ r s' he => ⟨hstep a h.1 s hi r s' he, trivial⟩)
        fun r => Triple.of_every hstep (h.2 r)

/-- A safe program, run to its end. -/
theorem Safe.run {step : (a : A) → σ → Option (R a × σ)}
    (hstep : ∀ a s r s', step a s = some (r, s') → S.exec () a s r s') {Q : β → σ → Prop}
    {p : Prog A R β} :
    ∀ {s s' : σ} {x : β}, (Discipline.solo S inv).Safe () Q p s → inv s →
      run step p s = some (x, s') → inv s' ∧ Q x s' := by
  induction p with
  | ret y =>
      intro s s' x h hi hr
      rw [run_ret] at hr
      cases hr
      exact ⟨hi, h s rfl hi⟩
  | act a k ih =>
      intro s s' x h hi hr
      cases hs : step a s with
      | none => simp [Conc.run, hs] at hr
      | some rs =>
          obtain ⟨r, s₁⟩ := rs
          rw [run_act hs] at hr
          obtain ⟨hi₁, _, hk⟩ := h s rfl hi r s₁ (hstep a s r s₁ hs)
          exact ih r hk hi₁ hr

/-- A safe program, cut anywhere. -/
theorem Safe.passes {Q : β → σ → Prop} {p p' : Prog A R β} {s s' : σ}
    (h : (Discipline.solo S inv).Safe () Q p s) (hi : inv s) (hp : Passes (S.exec ()) p s p' s') :
    inv s' ∧ (Discipline.solo S inv).Safe () Q p' s' := by
  induction hp with
  | here => exact ⟨hi, h⟩
  | act he _ ih =>
      obtain ⟨hi₁, _, hk⟩ := h _ rfl hi _ _ he
      exact ih hk hi₁

end Discipline

/-- Nothing is started and nothing cut off. -/
def System.alone (exec : (a : A) → σ → R a → σ → Prop) : System Unit A R α σ where
  exec _ := exec
  start _ _ _ _ := False
  finish _ _ _ _ := False
  env _ _ := False
  crash _ _ := False

/-- The programs keep the invariant from any state where the task is idle, and
so do crashes. -/
def Outline.solo (S : System Unit A R α σ) (inv idle : σ → Prop) (post : α → σ → Prop)
    (hstart : ∀ {s p s'}, S.start () s p s' → inv s → idle s →
      inv s' ∧ (Discipline.solo S inv).Safe () post p s')
    (hfinish : ∀ {x s s'}, S.finish () x s s' → inv s → post x s → inv s' ∧ idle s')
    (henv : ∀ {s s'}, ¬ S.env s s')
    (hcrash : ∀ {s s'}, S.crash s s' → inv s → inv s' ∧ idle s') : Outline S where
  toDiscipline := Discipline.solo S inv
  idle _ := idle
  post _ := post
  idle_stable _ := Discipline.solo_stable idle
  start_ok h hi hd := by
    obtain ⟨hi', hs⟩ := hstart h hi hd
    exact ⟨hi', Discipline.solo_guar _ _, hs⟩
  finish_ok h hi hp := by
    obtain ⟨hi', hd⟩ := hfinish h hi hp
    exact ⟨hi', Discipline.solo_guar _ _, hd⟩
  env_ok h := absurd h henv
  crash_ok h hi := by
    obtain ⟨hi', hd⟩ := hcrash h hi
    exact ⟨hi', trivial, fun _ => hd⟩

end Conc
