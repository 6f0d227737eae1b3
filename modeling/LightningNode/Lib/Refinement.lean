/-
# `LightningNode.Lib.Refinement` — actions that take many steps

Two systems with the same tasks.  In the one above, each action is one step; in
the one below, it is carried out by a program, whose steps are interleaved with
those of the other tasks.  Whatever the one below does, the one above can do
(`Refinement.reach`), if every such program has one step at which its action
happens, with the answer it ends with.

`Carries` follows a program with a mark: `none` while its action has not
happened, the answer once it has.

    shows s x     the state `s` below stands for `x` above
    unseen        a step below that is none above
    Stands        what is left of a task below stands for what is left of it above
-/
import LightningNode.Lib.Tasks

namespace Conc

variable {T A B : Type} {R : A → Type} {P : B → Type} {α α' β γ σ τ : Type}

/-- What the tasks of the system below rely on, and what its states stand for. -/
structure Layers (S : System T A R α σ) (S' : System T B P α' τ) where
  inv : τ → Prop
  rely : T → τ → τ → Prop
  rely_refl : ∀ t s, rely t s s
  rely_trans : ∀ {t s₁ s₂ s₃}, rely t s₁ s₂ → rely t s₂ s₃ → rely t s₁ s₃
  shows : τ → σ → Prop

namespace Layers

variable {S : System T A R α σ} {S' : System T B P α' τ} (L : Layers S S')

/-- What a step of `t` owes to the others. -/
def Others (t : T) (s s' : τ) : Prop := ∀ u, u ≠ t → L.rely u s s'

/-- Nothing happens above. -/
def Unseen (s s' : τ) : Prop := ∀ x, L.shows s x → L.shows s' x

/-- The task `t` performs `a`, and is answered by `r`. -/
def Happens (t : T) (a : A) (r : R a) (s s' : τ) : Prop :=
  ∀ x, L.shows s x → ∃ x', S.exec t a x r x' ∧ L.shows s' x'

/-- What a step below is above, and how it moves the mark. -/
inductive Marks (t : T) (a : A) (s s' : τ) : Option (R a) → Option (R a) → Prop
  | unseen {i : Option (R a)} : L.Unseen s s' → Marks t a s s' i i
  | happens {r : R a} : L.Happens t a r s s' → Marks t a s s' none (some r)

/-- From the mark and the state on, the program carries out `a`, and ends in `Q`. -/
def Carries (t : T) (a : A) (Q : β → Option (R a) → τ → Prop) :
    Prog B P β → Option (R a) → τ → Prop
  | .ret x, i, s => ∀ s', L.rely t s s' → L.inv s' → Q x i s'
  | .act b k, i, s => ∀ s₁, L.rely t s s₁ → L.inv s₁ → ∀ r s₂, S'.exec t b s₁ r s₂ →
      L.inv s₂ ∧ L.Others t s₁ s₂ ∧ ∃ j, L.Marks t a s₁ s₂ i j ∧ Carries t a Q (k r) j s₂

/-- The steps at which nothing happens above. -/
def quietly : Discipline S' where
  inv := L.inv
  change := L.Unseen
  rely := L.rely
  change_refl _ _ h := h
  change_trans h h' x hx := h' x (h x hx)
  rely_refl := L.rely_refl
  rely_trans := L.rely_trans

variable {L} {t : T} {a : A} {i : Option (R a)} {s s' : τ}

theorem Carries.rely {Q : β → Option (R a) → τ → Prop} {p : Prog B P β}
    (h : L.Carries t a Q p i s) (hr : L.rely t s s') : L.Carries t a Q p i s' := by
  cases p with
  | ret x => exact fun s₁ h₁ hi => h s₁ (L.rely_trans hr h₁) hi
  | act b k => exact fun s₁ h₁ hi => h s₁ (L.rely_trans hr h₁) hi

theorem Carries.mono {Q Q' : β → Option (R a) → τ → Prop} {p : Prog B P β}
    (hQ : ∀ x j s, L.inv s → Q x j s → Q' x j s) (h : L.Carries t a Q p i s) :
    L.Carries t a Q' p i s := by
  induction p generalizing i s with
  | ret x => exact fun s' hr hi => hQ x i s' hi (h s' hr hi)
  | act b k ih =>
      intro s₁ h₁ hi₁ r s₂ he
      obtain ⟨hi₂, hg, j, hj, hk⟩ := h s₁ h₁ hi₁ r s₂ he
      exact ⟨hi₂, hg, j, hj, ih r hk⟩

theorem Carries.bind {Q : β → Option (R a) → τ → Prop} {M : γ → Option (R a) → τ → Prop}
    {p : Prog B P γ} {f : γ → Prog B P β}
    (hf : ∀ x i s, L.inv s → M x i s → L.Carries t a Q (f x) i s) (hi : L.inv s)
    (hp : L.Carries t a M p i s) : L.Carries t a Q (p >>= f) i s := by
  induction p generalizing i s with
  | ret x => exact hf x i s hi (hp s (L.rely_refl t s) hi)
  | act b k ih =>
      intro s₁ h₁ hi₁ r s₂ he
      obtain ⟨hi₂, hg, j, hj, hk⟩ := hp s₁ h₁ hi₁ r s₂ he
      exact ⟨hi₂, hg, j, hj, ih r hi₂ hk⟩

/-- A part of the program at which nothing happens. -/
theorem Carries.quiet {Q : β → τ → Prop} {p : Prog B P β} (hp : L.quietly.Safe t Q p s) :
    L.Carries t a (fun x j s => j = i ∧ Q x s) p i s := by
  induction p generalizing s with
  | ret x => exact fun s' hr hi => ⟨rfl, hp s' hr hi⟩
  | act b k ih =>
      intro s₁ h₁ hi₁ r s₂ he
      obtain ⟨hi₂, hg, hk⟩ := hp s₁ h₁ hi₁ r s₂ he
      exact ⟨hi₂, hg.2, i, .unseen hg.1, ih r hk⟩

/-- After a part of the program at which nothing happens. -/
theorem Carries.after {Q : β → Option (R a) → τ → Prop} {M : γ → τ → Prop} {p : Prog B P γ}
    {g : γ → Prog B P β} (hi : L.inv s) (hp : L.quietly.Safe t M p s)
    (hg : ∀ x s, L.inv s → M x s → L.Carries t a Q (g x) i s) :
    L.Carries t a Q (p >>= g) i s := by
  refine Carries.bind ?_ hi (Carries.quiet hp)
  rintro x _ s₁ hi₁ ⟨rfl, hM⟩
  exact hg x s₁ hi₁ hM

theorem Carries.act {Q : β → Option (R a) → τ → Prop} {b : B} {k : P b → Prog B P β}
    (M : P b → Option (R a) → τ → Prop)
    (hstep : ∀ s₁, L.rely t s s₁ → L.inv s₁ → ∀ r s₂, S'.exec t b s₁ r s₂ →
      L.inv s₂ ∧ L.Others t s₁ s₂ ∧ ∃ j, L.Marks t a s₁ s₂ i j ∧ M r j s₂)
    (hk : ∀ r j s, L.inv s → M r j s → L.Carries t a Q (k r) j s) :
    L.Carries t a Q (.act b k) i s := by
  intro s₁ hr hi r s₂ he
  obtain ⟨hi₂, hg, j, hj, hM⟩ := hstep s₁ hr hi r s₂ he
  exact ⟨hi₂, hg, j, hj, hk r j s₂ hi₂ hM⟩

end Layers

/-- The system below, whose tasks carry out the actions above by the programs `f`,
and the system above. -/
structure Refinement (S : System T A R α σ) (S' : System T B P α τ)
    (f : T → (a : A) → Prog B P (Except α (R a))) extends Layers S S' where
  /-- between two actions, and when no program is under way -/
  idle : T → τ → Prop
  /-- what ends the process when a task ends with it -/
  fatal : α → Prop
  idle_rely : ∀ {t s s'}, rely t s s' → inv s' → idle t s → idle t s'
  carries : ∀ {t a s}, inv s → idle t s →
    toLayers.Carries t a
      (fun r i s => (∀ x, r = .ok x → i = some x ∧ idle t s) ∧ ∀ o, r = .error o → fatal o)
      (f t a) none s
  start : ∀ {t s q s' x}, S'.start t s q s' → inv s → idle t s → shows s x →
    (∃ p x', q = p.expand (f t) ∧ S.start t x p x' ∧ shows s' x') ∧
      inv s' ∧ idle t s' ∧ toLayers.Others t s s'
  finish : ∀ {t o s s' x}, S'.finish t o s s' → inv s → idle t s → shows s x →
    (∃ x', S.finish t o x x' ∧ shows s' x') ∧ inv s' ∧ idle t s' ∧ toLayers.Others t s s'
  lasting : ∀ {t o s s'}, S'.finish t o s s' → ¬ fatal o
  env : ∀ {s s' x}, S'.env s s' → inv s → shows s x →
    (shows s' x ∨ ∃ x', S.env x x' ∧ shows s' x') ∧ inv s' ∧ ∀ t, rely t s s'
  crash : ∀ {s s' x}, S'.crash s s' → inv s → shows s x →
    (∃ x', S.crash x x' ∧ shows s' x') ∧ inv s' ∧ ∀ t, idle t s'

namespace Refinement

variable {S : System T A R α σ} {S' : System T B P α τ}
  {f : T → (a : A) → Prog B P (Except α (R a))} (F : Refinement S S' f)

/-- What carrying out an action ends in. -/
def Done (t : T) {a : A} (r : Except α (R a)) (i : Option (R a)) (s : τ) : Prop :=
  (∀ x, r = .ok x → i = some x ∧ F.idle t s) ∧ ∀ o, r = .error o → F.fatal o

/-- What is left above of `a` followed by `k`, by the mark. -/
def left (a : A) (k : R a → Prog A R α) : Option (R a) → Prog A R α
  | none => .act a k
  | some r => k r

inductive Stands (t : T) (s : τ) : Option (Prog B P α) → Option (Prog A R α) → Prop
  | off : F.idle t s → Stands t s none none
  | between {p : Prog A R α} : F.idle t s → Stands t s (some (p.expand (f t))) (some p)
  | within {a : A} {k : R a → Prog A R α} {i : Option (R a)} {q : Prog B P (Except α (R a))} :
      F.Carries t a (F.Done t) q i s →
      Stands t s (some (q >>= Prog.goOn fun r => (k r).expand (f t))) (some (left a k i))
  | ended {o : α} {p : Prog A R α} : F.fatal o → Stands t s (some (.ret o)) (some p)

structure Shown (c : Config T B P α τ) (x : Config T A R α σ) : Prop where
  inv : F.inv c.state
  state : F.shows c.state x.state
  task : ∀ t, F.Stands t c.state (c.task t) (x.task t)

variable {F} {t : T} {s s' : τ}

theorem Stands.rely {q : Option (Prog B P α)} {p : Option (Prog A R α)} (h : F.Stands t s q p)
    (hr : F.rely t s s') (hi : F.inv s') : F.Stands t s' q p := by
  cases h with
  | off h => exact .off (F.idle_rely hr hi h)
  | between h => exact .between (F.idle_rely hr hi h)
  | within h => exact .within (h.rely hr)
  | ended h => exact .ended h

/-- A task that is idle below is idle above. -/
theorem Stands.of_none {p : Option (Prog A R α)} (h : F.Stands t s none p) :
    p = none ∧ F.idle t s := by
  generalize hq : (none : Option (Prog B P α)) = q at h
  cases h with
  | off h => exact ⟨rfl, h⟩
  | between => cases hq
  | within => cases hq
  | ended => cases hq

/-- A task that returns below returns above, or ends the process. -/
theorem Stands.of_ret {o : α} {p : Option (Prog A R α)} (hi : F.inv s)
    (h : F.Stands t s (some (.ret o)) p) : F.fatal o ∨ (p = some (.ret o) ∧ F.idle t s) := by
  have hbetween : ∀ p : Prog A R α, F.idle t s → p.expand (f t) = .ret o →
      F.fatal o ∨ (p = .ret o ∧ F.idle t s) := by
    intro p hidle hret
    cases p with
    | ret o' =>
        cases hret
        exact .inr ⟨rfl, hidle⟩
    | act a k =>
        have hc := F.carries (a := a) hi hidle
        rw [Prog.expand_act] at hret
        cases hf : f t a with
        | act b k' =>
            rw [hf] at hret
            cases hret
        | ret r =>
            rw [hf] at hc hret
            have hdone := hc s (F.rely_refl t s) hi
            cases r with
            | ok r => exact absurd (hdone.1 r rfl).1 nofun
            | error o' =>
                cases hret
                exact .inl (hdone.2 _ rfl)
  generalize hq : some (Prog.ret o : Prog B P α) = q at h
  cases h with
  | off => cases hq
  | ended h =>
      cases hq
      exact .inl h
  | between h =>
      rcases hbetween _ h (Option.some.inj hq).symm with hfatal | ⟨rfl, hidle⟩
      · exact .inl hfatal
      · exact .inr ⟨rfl, hidle⟩
  | @within a k i q h =>
      cases q with
      | act b k' => cases hq
      | ret r =>
          have hdone := h s (F.rely_refl t s) hi
          cases r with
          | error o' =>
              cases hq
              exact .inl (hdone.2 _ rfl)
          | ok r =>
              obtain ⟨rfl, hidle⟩ := hdone.1 r rfl
              rcases hbetween (k r) hidle (Option.some.inj hq).symm with hfatal | ⟨hk, hidle⟩
              · exact .inl hfatal
              · exact .inr ⟨congrArg some hk, hidle⟩

/-- A task about to take a step is in the middle of carrying out an action. -/
theorem Stands.of_act {b : B} {k' : P b → Prog B P α} {p : Option (Prog A R α)} (hi : F.inv s)
    (h : F.Stands t s (some (.act b k')) p) :
    ∃ a k i kq, p = some (left a k i) ∧
      k' = (fun r => kq r >>= Prog.goOn fun r => (k r).expand (f t)) ∧
      F.Carries t a (F.Done t) (.act b kq) i s := by
  have hbetween : ∀ p : Prog A R α, F.idle t s → p.expand (f t) = .act b k' →
      ∃ a k kq, p = .act a k ∧ k' = (fun r => kq r >>= Prog.goOn fun r => (k r).expand (f t)) ∧
        F.Carries t a (F.Done t) (.act b kq) none s := by
    intro p hidle hact
    cases p with
    | ret o => cases hact
    | act a k =>
        have hc : F.Carries t a (F.Done t) (f t a) none s := F.carries hi hidle
        rw [Prog.expand_act] at hact
        cases hf : f t a with
        | act b' kq =>
            rw [hf] at hact hc
            cases hact
            exact ⟨a, k, kq, rfl, rfl, hc⟩
        | ret r =>
            rw [hf] at hc hact
            have hdone := hc s (F.rely_refl t s) hi
            cases r with
            | ok r => exact absurd (hdone.1 r rfl).1 nofun
            | error o' => cases hact
  generalize hq : some (Prog.act b k') = q at h
  cases h with
  | off => cases hq
  | ended h => cases hq
  | between h =>
      obtain ⟨a, k, kq, rfl, hk, hc⟩ := hbetween _ h (Option.some.inj hq).symm
      exact ⟨a, k, none, kq, rfl, hk, hc⟩
  | @within a k i q h =>
      cases q with
      | act b' kq =>
          cases hq
          exact ⟨a, k, i, kq, rfl, rfl, h⟩
      | ret r =>
          have hdone := h s (F.rely_refl t s) hi
          cases r with
          | error o' => cases hq
          | ok r =>
              obtain ⟨rfl, hidle⟩ := hdone.1 r rfl
              obtain ⟨a', k₁, kq, hk, hk', hc⟩ := hbetween (k r) hidle (Option.some.inj hq).symm
              exact ⟨a', k₁, none, kq, congrArg some hk, hk', hc⟩

/-! ## Runs -/

variable [DecidableEq T] {c c' : Config T B P α τ} {x : Config T A R α σ}

/-- A step of the task `t`, seen from above. -/
theorem Shown.update (h : F.Shown c x) {x' : σ} {q : Option (Prog B P α)}
    {p : Option (Prog A R α)} (hi : F.inv s') (hs : F.shows s' x') (ho : F.Others t c.state s')
    (ht : F.Stands t s' q p) :
    F.Shown ⟨s', Function.update c.task t q⟩ ⟨x', Function.update x.task t p⟩ where
  inv := hi
  state := hs
  task u := by
    by_cases hu : u = t
    · subst hu
      simpa using ht
    · simpa [hu] using (h.task u).rely (ho u hu) hi

theorem Shown.step (h : F.Shown c x) (hstep : S'.Step c c') :
    ∃ x', S.Reach x x' ∧ F.Shown c' x' := by
  cases hstep with
  | @start t q s' hn hst =>
      obtain ⟨hxn, hidle⟩ := (hn ▸ h.task t).of_none
      obtain ⟨⟨p, x', rfl, hxst, hs⟩, hi, hidle', ho⟩ := F.start hst h.inv hidle h.state
      exact ⟨_, .single (.start hxn hxst), h.update hi hs ho (.between hidle')⟩
  | @act t b k' r s' hact he =>
      obtain ⟨a, k, i, kq, hx, rfl, hc⟩ := (hact ▸ h.task t).of_act h.inv
      obtain ⟨hi, ho, j, hj, hk⟩ := hc c.state (F.rely_refl t _) h.inv r s' he
      cases hj with
      | unseen hu =>
          refine ⟨x, .refl, ?_⟩
          have hshown := h.update hi (hu _ h.state) ho (.within (k := k) hk)
          rwa [← hx, Function.update_eq_self] at hshown
      | @happens r' hh =>
          obtain ⟨x', hxe, hs⟩ := hh _ h.state
          exact ⟨_, .single (.act hx hxe), h.update hi hs ho (.within hk)⟩
  | @finish t o s' hret hf =>
      rcases (hret ▸ h.task t).of_ret h.inv with hfatal | ⟨hx, hidle⟩
      · exact absurd hfatal (F.lasting hf)
      · obtain ⟨⟨x', hxf, hs⟩, hi, hidle', ho⟩ := F.finish hf h.inv hidle h.state
        exact ⟨_, .single (.finish hx hxf), h.update hi hs ho (.off hidle')⟩
  | @env s' he =>
      obtain ⟨hs, hi, hr⟩ := F.env he h.inv h.state
      have htask : ∀ t, F.Stands t s' (c.task t) (x.task t) := fun t => (h.task t).rely (hr t) hi
      rcases hs with hs | ⟨x', hxe, hs⟩
      · exact ⟨x, .refl, hi, hs, htask⟩
      · exact ⟨⟨x', x.task⟩, .single (.env hxe), hi, hs, htask⟩
  | @crash s' hcr =>
      obtain ⟨⟨x', hxc, hs⟩, hi, hidle⟩ := F.crash hcr h.inv h.state
      exact ⟨.idle x', .single (.crash hxc), hi, hs, fun t => .off (hidle t)⟩

/-- Wherever the system below comes, the one above can come, too. -/
theorem reach {s₀ : τ} {x₀ : σ} (hi : F.inv s₀) (hidle : ∀ t, F.idle t s₀) (hs : F.shows s₀ x₀)
    (hr : S'.Reach (.idle s₀) c) : ∃ x, S.Reach (.idle x₀) x ∧ F.Shown c x := by
  induction hr with
  | refl => exact ⟨_, .refl, hi, hs, fun t => .off (hidle t)⟩
  | tail _ hstep ih =>
      obtain ⟨x, hx, hshown⟩ := ih
      obtain ⟨x', hx', hshown'⟩ := hshown.step hstep
      exact ⟨x', hx.trans hx', hshown'⟩

end Refinement

end Conc
