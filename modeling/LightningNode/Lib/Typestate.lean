/-
# `LightningNode.Lib.Typestate` — what a program may do next, given what it has done

A `Typestate` records, of the actions a program has performed and their answers,
what matters for the ones to come: which resources it holds, what it has found
out.  `Follows` checks a program against it, one rule per connective; `Kept`
asks that the permitted actions keep an invariant that ties the records to the
shared state, and get the answers they are said to get.  Then both hold in every
configuration of every run (`Kept.reach`).

    permits h a     `a` may be performed after `h`
    answers h a r   `a` may then be answered by `r`
    after h a r     the record once it was
    AtMost P n      no more than `n` tasks are at `P`
    AtLeast P n     no fewer are
-/
import LightningNode.Lib.Tasks
import Mathlib.Data.Finset.Card

namespace Conc

/-- Records `H` of what a program has done. -/
structure Typestate (A : Type) (R : A → Type) (H : Type) where
  permits : H → A → Prop
  answers : H → (a : A) → R a → Prop
  after : H → (a : A) → R a → H

namespace Typestate

variable {A : Type} {R : A → Type} {α β σ T H : Type} (Y : Typestate A R H)

/-- Whatever the answers, `p` performs permitted actions only, and ends in `Q`. -/
def Follows (Q : β → H → Prop) : Prog A R β → H → Prop
  | .ret x, h => Q x h
  | .act a k, h => Y.permits h a ∧ ∀ r, Y.answers h a r → Follows Q (k r) (Y.after h a r)

variable {Y} {Q Q' : β → H → Prop} {h : H}

theorem Follows.act {a : A} {k : R a → Prog A R β} (ha : Y.permits h a)
    (hk : ∀ r, Y.answers h a r → Y.Follows Q (k r) (Y.after h a r)) : Y.Follows Q (.act a k) h :=
  ⟨ha, hk⟩

theorem Follows.bind {f : α → Prog A R β} {M : α → H → Prop}
    (hf : ∀ x h, M x h → Y.Follows Q (f x) h) :
    ∀ {p : Prog A R α} {h : H}, Y.Follows M p h → Y.Follows Q (p >>= f) h
  | .ret x, h, hp => hf x h hp
  | .act _ _, _, hp => ⟨hp.1, fun r hr => Follows.bind hf (hp.2 r hr)⟩

/-- The second half runs from the record `h'` the first one leaves. -/
theorem Follows.andThen {ε : Type} {p : Prog A R (Except ε α)} {f : α → Prog A R (Except ε β)}
    {Q : Except ε β → H → Prop} (h' : H) (hp : Y.Follows (fun _ h₁ => h₁ = h') p h)
    (he : ∀ e, Q (.error e) h') (hf : ∀ x, Y.Follows Q (f x) h') :
    Y.Follows Q (p.andThen f) h := by
  refine Follows.bind ?_ hp
  rintro r _ rfl
  cases r with
  | ok x => exact hf x
  | error e => exact he e

/-- A first half that cannot fail. -/
theorem Follows.andThen_ok {ε : Type} {p : Prog A R (Except ε α)}
    {f : α → Prog A R (Except ε β)} {Q : Except ε β → H → Prop} {M : α → H → Prop}
    (hp : Y.Follows (fun r h => ∃ x, r = .ok x ∧ M x h) p h)
    (hf : ∀ x h, M x h → Y.Follows Q (f x) h) : Y.Follows Q (p.andThen f) h := by
  refine Follows.bind ?_ hp
  rintro _ h ⟨x, rfl, hx⟩
  exact hf x h hx

theorem Follows.mono (hQ : ∀ x h, Q x h → Q' x h) :
    ∀ {p : Prog A R β} {h : H}, Y.Follows Q p h → Y.Follows Q' p h
  | .ret x, h, hp => hQ x h hp
  | .act _ _, _, hp => ⟨hp.1, fun r hr => Follows.mono hQ (hp.2 r hr)⟩

/-! ## Actions carried out by programs -/

section

variable {B H' : Type} {S : B → Type} {Z : Typestate B S H'} {Q : α → H' → Prop}
  {E : H → H' → Prop}

/-- The program that carries out `a` ends with an answer and the record after it,
or ends the whole. -/
def Carried (Y : Typestate A R H) (E : H → H' → Prop) (Q : α → H' → Prop) (h : H) (a : A) :
    Except α (R a) → H' → Prop
  | .ok r, g => Y.answers h a r ∧ E (Y.after h a r) g
  | .error x, g => Q x g

/-- A program follows when its actions are carried out by programs that do. -/
theorem Follows.expand {f : (a : A) → Prog B S (Except α (R a))} {P : α → H → Prop}
    (hf : ∀ {h g a}, E h g → Y.permits h a → Z.Follows (Y.Carried E Q h a) (f a) g)
    (hQ : ∀ {x h g}, E h g → P x h → Q x g) {p : Prog A R α} {h : H} {g : H'}
    (hp : Y.Follows P p h) (hE : E h g) : Z.Follows Q (p.expand f) g := by
  induction p generalizing h g with
  | ret x => exact hQ hE hp
  | act a k ih =>
      rw [Prog.expand_act]
      refine Follows.bind ?_ (hf hE hp.1)
      intro r g' hr
      cases r with
      | ok r => exact ih r (hp.2 r hr.1) hr.2
      | error x => exact hr

end

/-! ## Runs -/

/-- What is left of a task's program, if anything is, follows from its record. -/
def Task (Y : Typestate A R H) (h₀ : H) (fin : α → H → Prop) (h : H) :
    Option (Prog A R α) → Prop
  | none => h = h₀
  | some p => Y.Follows fin p h

variable [DecidableEq T]

/-- What holds of the records after one of them changed. -/
theorem update_cases {hold : T → H} {t u : T} {h : H} {P : H → Prop}
    (hp : P (Function.update hold t h u)) : (u = t ∧ P h) ∨ (u ≠ t ∧ P (hold u)) := by
  rcases eq_or_ne u t with rfl | hu
  · rw [Function.update_self] at hp
    exact .inl ⟨rfl, hp⟩
  · rw [Function.update_of_ne hu] at hp
    exact .inr ⟨hu, hp⟩

/-- The permitted actions keep `I`, the programs started follow from their first
record, and end in `fin`. -/
structure Kept (Y : Typestate A R H) (S : System T A R α σ) (h₀ : H) (fin : α → H → Prop)
    (I : σ → (T → H) → Prop) : Prop where
  exec : ∀ {t a s r s' hold}, S.exec t a s r s' → I s hold → Y.permits (hold t) a →
    Y.answers (hold t) a r ∧ I s' (Function.update hold t (Y.after (hold t) a r))
  start : ∀ {t s p s' hold}, S.start t s p s' → I s hold → hold t = h₀ →
    ∃ h, I s' (Function.update hold t h) ∧ Y.Follows fin p h
  finish : ∀ {t x s s' hold}, S.finish t x s s' → I s hold → fin x (hold t) →
    I s' (Function.update hold t h₀)
  env : ∀ {s s' hold}, S.env s s' → I s hold → I s' hold
  crash : ∀ {s s' hold}, S.crash s s' → I s hold → I s' fun _ => h₀

/-- Every task follows from its record. -/
structure Fits (Y : Typestate A R H) (h₀ : H) (fin : α → H → Prop) (I : σ → (T → H) → Prop)
    (hold : T → H) (c : Config T A R α σ) : Prop where
  inv : I c.state hold
  task : ∀ t, Y.Task h₀ fin (hold t) (c.task t)

variable {S : System T A R α σ} {h₀ : H} {fin : α → H → Prop} {I : σ → (T → H) → Prop}
  {hold : T → H}

theorem Fits.update {c : Config T A R α σ} (hc : Y.Fits h₀ fin I hold c) {t : T} {s' : σ} {h : H}
    {p : Option (Prog A R α)} (hi : I s' (Function.update hold t h)) (hp : Y.Task h₀ fin h p) :
    Y.Fits h₀ fin I (Function.update hold t h) ⟨s', Function.update c.task t p⟩ where
  inv := hi
  task u := by
    by_cases hu : u = t
    · subst hu
      simpa using hp
    · simpa [hu] using hc.task u

theorem Kept.step (K : Y.Kept S h₀ fin I) {c c' : Config T A R α σ}
    (hc : Y.Fits h₀ fin I hold c) (hs : S.Step c c') : ∃ hold', Y.Fits h₀ fin I hold' c' := by
  cases hs with
  | @start t p s' ht hst =>
      have hidle : hold t = h₀ := by simpa [ht, Task] using hc.task t
      obtain ⟨h, hi, hp⟩ := K.start hst hc.inv hidle
      exact ⟨_, hc.update hi hp⟩
  | @act t a k r s' ht he =>
      have hf : Y.Follows fin (.act a k) (hold t) := by simpa [ht, Task] using hc.task t
      obtain ⟨hr, hi⟩ := K.exec he hc.inv hf.1
      exact ⟨_, hc.update hi (hf.2 r hr)⟩
  | @finish t x s' ht hst =>
      have hfin : fin x (hold t) := by simpa [ht, Task, Follows] using hc.task t
      exact ⟨_, hc.update (K.finish hst hc.inv hfin) (show h₀ = h₀ from rfl)⟩
  | @env s' hst => exact ⟨hold, K.env hst hc.inv, hc.task⟩
  | @crash s' hst => exact ⟨_, K.crash hst hc.inv, fun _ => rfl⟩

/-- A run leads from records that fit to records that fit. -/
theorem Kept.fits (K : Y.Kept S h₀ fin I) {c c' : Config T A R α σ} (hc : Y.Fits h₀ fin I hold c)
    (hr : S.Reach c c') : ∃ hold', Y.Fits h₀ fin I hold' c' := by
  induction hr with
  | refl => exact ⟨_, hc⟩
  | tail _ hs ih =>
      obtain ⟨hold', hc'⟩ := ih
      exact K.step hc' hs

/-- In every configuration of every run, every task follows from its record. -/
theorem Kept.reach (K : Y.Kept S h₀ fin I) {s : σ} (hi : I s fun _ => h₀)
    {c : Config T A R α σ} (hr : S.Reach (.idle s) c) : ∃ hold, Y.Fits h₀ fin I hold c := by
  have hc : Y.Fits h₀ fin I (fun _ => h₀) (.idle s) := ⟨hi, fun _ => rfl⟩
  exact K.fits hc hr

omit [DecidableEq T] in
/-- So what a task does next is permitted. -/
theorem Fits.permits {c : Config T A R α σ} (hc : Y.Fits h₀ fin I hold c) {t : T} {a : A}
    {k : R a → Prog A R α} (ht : c.task t = some (.act a k)) :
    Y.permits (hold t) a ∧ ∀ r, Y.answers (hold t) a r → Y.Follows fin (k r)
      (Y.after (hold t) a r) := by
  have hf : Y.Follows fin (.act a k) (hold t) := by simpa [ht, Task] using hc.task t
  exact hf

/-- What every permitted action meets need not be asked of the actions. -/
theorem Kept.reach_onlyIf (K : Y.Kept S h₀ fin I) {ok : T → (a : A) → σ → R a → Prop}
    (hok : ∀ {t a s r hold}, I s hold → Y.permits (hold t) a → ok t a s r) {s : σ}
    (hi : I s fun _ => h₀) {c : Config T A R α σ} (hr : S.Reach (.idle s) c) :
    (S.onlyIf ok).Reach (.idle s) c := by
  induction hr with
  | refl => exact .refl
  | tail hr hs ih =>
      obtain ⟨hold, hc⟩ := K.reach hi hr
      refine ih.tail ?_
      cases hs with
      | start ht hst => exact .start ht hst
      | act ht he => exact .act ht ⟨he, hok hc.inv (hc.permits ht).1⟩
      | finish ht hst => exact .finish ht hst
      | env he => exact .env he
      | crash hcr => exact .crash hcr

/-! ## How many tasks -/

/-- No more than `n` tasks satisfy `P`. -/
def AtMost (P : T → Prop) (n : Nat) : Prop := ∀ F : Finset T, (∀ t ∈ F, P t) → F.card ≤ n

namespace AtMost

variable {P P' : T → Prop} {n : Nat} {t : T}

omit [DecidableEq T] in
theorem mono (h : AtMost P n) (hP : ∀ u, P' u → P u) : AtMost P' n :=
  fun F hF => h F fun u hu => hP u (hF u hu)

omit [DecidableEq T] in
theorem pos (h : AtMost P n) (ht : P t) : 0 < n := by
  have hcard : ({t} : Finset T).card ≤ n := h {t} fun u hu => Finset.mem_singleton.mp hu ▸ ht
  rwa [Finset.card_singleton] at hcard

omit [DecidableEq T] in
theorem of_none (h : ∀ u, ¬ P u) : AtMost P n := by
  intro F hF
  rw [Finset.eq_empty_of_forall_notMem fun u hu => h u (hF u hu), Finset.card_empty]
  exact Nat.zero_le n

/-- One more task. -/
theorem add (h : AtMost P n) (hP : ∀ u, P' u → u ≠ t → P u) : AtMost P' (n + 1) := by
  intro F hF
  have hle : (F.erase t).card ≤ n := h _ fun u hu =>
    hP u (hF u (Finset.mem_of_mem_erase hu)) (Finset.ne_of_mem_erase hu)
  have hcard : F.card - 1 ≤ (F.erase t).card := Finset.pred_card_le_card_erase
  omega

/-- One task less. -/
theorem remove (h : AtMost P n) (ht : P t) (hP : ∀ u, P' u → P u ∧ u ≠ t) :
    AtMost P' (n - 1) := by
  intro F hF
  have hnot : t ∉ F := fun htF => (hP t (hF t htF)).2 rfl
  have hle : (insert t F).card ≤ n := by
    refine h _ fun u hu => ?_
    rcases Finset.mem_insert.mp hu with rfl | hu
    · exact ht
    · exact (hP u (hF u hu)).1
  rw [Finset.card_insert_of_notMem hnot] at hle
  omega

end AtMost

/-- At least `n` tasks satisfy `P`. -/
def AtLeast (P : T → Prop) (n : Nat) : Prop := ∃ F : Finset T, n ≤ F.card ∧ ∀ t ∈ F, P t

namespace AtLeast

variable {P P' : T → Prop} {n : Nat} {t : T}

omit [DecidableEq T] in
theorem zero : AtLeast P 0 := ⟨∅, Nat.zero_le _, fun t ht => absurd ht (Finset.notMem_empty t)⟩

omit [DecidableEq T] in
theorem mono (h : AtLeast P n) (hP : ∀ u, P u → P' u) : AtLeast P' n := by
  obtain ⟨F, hcard, hF⟩ := h
  exact ⟨F, hcard, fun u hu => hP u (hF u hu)⟩

omit [DecidableEq T] in
theorem exists_of_pos (h : AtLeast P n) (hn : 0 < n) : ∃ u, P u := by
  obtain ⟨F, hcard, hF⟩ := h
  obtain ⟨u, hu⟩ := Finset.card_pos.mp (Nat.lt_of_lt_of_le hn hcard)
  exact ⟨u, hF u hu⟩

/-- One more task. -/
theorem add (h : AtLeast P n) (ht : ¬ P t) (hnew : P' t) (hP : ∀ u, P u → P' u) :
    AtLeast P' (n + 1) := by
  obtain ⟨F, hcard, hF⟩ := h
  have hnot : t ∉ F := fun htF => ht (hF t htF)
  refine ⟨insert t F, ?_, ?_⟩
  · rw [Finset.card_insert_of_notMem hnot]
    omega
  · intro u hu
    rcases Finset.mem_insert.mp hu with rfl | hu
    · exact hnew
    · exact hP u (hF u hu)

/-- One task less. -/
theorem remove (h : AtLeast P n) (hP : ∀ u, P u → u ≠ t → P' u) : AtLeast P' (n - 1) := by
  obtain ⟨F, hcard, hF⟩ := h
  refine ⟨F.erase t, ?_, ?_⟩
  · have hle : F.card - 1 ≤ (F.erase t).card := Finset.pred_card_le_card_erase
    omega
  · intro u hu
    exact hP u (hF u (Finset.mem_of_mem_erase hu)) (Finset.ne_of_mem_erase hu)

end AtLeast

end Typestate

end Conc
