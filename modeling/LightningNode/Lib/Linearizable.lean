/-
# `LightningNode.Lib.Linearizable` — histories that a sequential object explains

A history is what the callers see, the newest event first: calls invoked and
calls replied to.  A linearization puts calls in one order, again the newest
first, so that

    legal       each answer is that of the sequential object
    realTime    no call comes after one that was invoked when it had returned
    complete    of the calls that have returned, those that went well are in it
                and the others are not
    replied     and returned what the order says

`Trace` builds history and order side by side, a call being put in the order at
its linearization point; `Trace.Consistent` is what then holds at any time,
`Trace.SameEntries` what one task may expect of the steps of the others.  A call
that only looks may be taken out of the order again (`retract`), when it goes
wrong after all.
-/
import Mathlib.Data.List.Basic
import Mathlib.Logic.Function.Basic

namespace Conc

/-! ## Histories -/

inductive Event (C R : Type) where
  | invoke (id : Nat) (c : C)
  | reply (id : Nat) (r : R)

variable {S C R A T : Type}

/-- In a history, newest event first: `x` had returned when `y` was invoked. -/
def Precedes (h : List (Event C R)) (x y : Nat) : Prop :=
  ∃ r c, [.invoke y c, .reply x r].Sublist h

theorem precedes_invoke {h : List (Event C R)} {n x y : Nat} {c : C}
    (hp : Precedes (.invoke n c :: h) x y) : Precedes h x y ∨ y = n := by
  obtain ⟨r, c', hs⟩ := hp
  cases hs with
  | cons _ hs => exact Or.inl ⟨r, c', hs⟩
  | cons_cons _ _ => exact Or.inr rfl

theorem precedes_reply {h : List (Event C R)} {n x y : Nat} {r : R}
    (hp : Precedes (.reply n r :: h) x y) : Precedes h x y := by
  obtain ⟨r', c', hs⟩ := hp
  cases hs with
  | cons _ hs => exact ⟨r', c', hs⟩

theorem Precedes.replied {h : List (Event C R)} {x y : Nat} (hp : Precedes h x y) :
    ∃ r, .reply x r ∈ h := by
  obtain ⟨r, c, hs⟩ := hp
  exact ⟨r, hs.subset (.tail _ (.head _))⟩

theorem reply_mem_invoke {h : List (Event C R)} {n id : Nat} {c : C} {r : R} :
    .reply id r ∈ .invoke n c :: h ↔ .reply id r ∈ h := by
  simp only [List.mem_cons, reduceCtorEq, false_or]

theorem invoke_mem_reply {h : List (Event C R)} {n id : Nat} {c : C} {r : R} :
    .invoke id c ∈ .reply n r :: h ↔ .invoke id c ∈ h := by
  simp only [List.mem_cons, reduceCtorEq, false_or]

/-- An object used by one caller at a time. -/
structure Object (S C A : Type) where
  init : S
  step : S → C → A × S

/-- A call in the order, with its answer. -/
structure Entry (C A : Type) where
  id : Nat
  call : C
  answer : A

namespace Object

variable (o : Object S C A)

/-- The state after the calls of the order. -/
def after : List (Entry C A) → S
  | [] => o.init
  | e :: order => (o.step (after order) e.call).2

/-- Each answer is the one the object gives. -/
def Legal : List (Entry C A) → Prop
  | [] => True
  | e :: order => e.answer = (o.step (o.after order) e.call).1 ∧ Legal order

variable {o}

/-- The answer of any one call. -/
theorem Legal.answer {e : Entry C A} {older : List (Entry C A)} :
    ∀ {newer : List (Entry C A)}, o.Legal (newer ++ e :: older) →
      e.answer = (o.step (o.after older) e.call).1
  | [], h => h.1
  | _ :: _, h => Legal.answer h.2

/-- The order without the calls `drop`. -/
def without (drop : Nat) (order : List (Entry C A)) : List (Entry C A) :=
  order.filter fun e => e.id ≠ drop

theorem mem_without {drop : Nat} {order : List (Entry C A)} {e : Entry C A} :
    e ∈ without drop order ↔ e ∈ order ∧ e.id ≠ drop := by
  simp only [without, List.mem_filter, decide_eq_true_eq]

theorem without_sublist (drop : Nat) (order : List (Entry C A)) :
    (without drop order).Sublist order := List.filter_sublist

/-- The entries of `drop` change nothing. -/
def OnlyLooks (o : Object S C A) (drop : Nat) (order : List (Entry C A)) : Prop :=
  ∀ e ∈ order, e.id = drop → ∀ s, (o.step s e.call).2 = s

theorem after_without {drop : Nat} {order : List (Entry C A)} (h : o.OnlyLooks drop order) :
    o.after (without drop order) = o.after order := by
  induction order with
  | nil => rfl
  | cons e order ih =>
      have hrest := ih fun e' he' => h e' (List.mem_cons_of_mem _ he')
      by_cases he : e.id = drop
      · rw [without, List.filter_cons_of_neg (by simpa using he)]
        exact hrest.trans (h e List.mem_cons_self he _).symm
      · rw [without, List.filter_cons_of_pos (by simpa using he)]
        exact congrArg (fun s => (o.step s e.call).2) hrest

/-- Without calls that change nothing, the others answer as before. -/
theorem Legal.without {drop : Nat} {order : List (Entry C A)} (hl : o.Legal order)
    (h : o.OnlyLooks drop order) : o.Legal (without drop order) := by
  induction order with
  | nil => trivial
  | cons e order ih =>
      have hlooks : o.OnlyLooks drop order := fun e' he' => h e' (List.mem_cons_of_mem _ he')
      have hrest := ih hl.2 hlooks
      by_cases he : e.id = drop
      · rw [Object.without, List.filter_cons_of_neg (by simpa using he)]
        exact hrest
      · rw [Object.without, List.filter_cons_of_pos (by simpa using he)]
        refine ⟨?_, hrest⟩
        rw [← Object.without, after_without hlooks]
        exact hl.1

end Object

/-- `Agrees r a`: the reply `r` says what the answer `a` is; `Good r`: the call
went well. -/
structure Linearizes (o : Object S C A) (Agrees : R → A → Prop) (Good : R → Prop)
    (h : List (Event C R)) (order : List (Entry C A)) : Prop where
  nodup : (order.map Entry.id).Nodup
  invoked : ∀ e ∈ order, .invoke e.id e.call ∈ h
  complete : ∀ id r, .reply id r ∈ h → (Good r ↔ ∃ e ∈ order, e.id = id)
  replied : ∀ e ∈ order, ∀ r, .reply e.id r ∈ h → Agrees r e.answer
  realTime : order.Pairwise fun y x => ¬ Precedes h y.id x.id
  legal : o.Legal order

namespace Linearizes

variable {o : Object S C A} {Agrees : R → A → Prop} {Good : R → Prop} {h : List (Event C R)}
  {order : List (Entry C A)} {id : Nat} {c : C} {r : R}

/-- A new call is not in the order. -/
theorem invoke (hl : Linearizes o Agrees Good h order) (hnew : ∀ e ∈ order, e.id ≠ id) :
    Linearizes o Agrees Good (.invoke id c :: h) order where
  nodup := hl.nodup
  invoked e he := List.mem_cons_of_mem _ (hl.invoked e he)
  complete id' r hr := hl.complete id' r (reply_mem_invoke.mp hr)
  replied e he r hr := hl.replied e he r (reply_mem_invoke.mp hr)
  realTime := by
    refine hl.realTime.imp_of_mem ?_
    intro y x _ hx hn hp
    rcases precedes_invoke hp with hp | hp
    · exact hn hp
    · exact hnew x hx hp
  legal := hl.legal

/-- A call under way is put in the order, with the answer the object gives now. -/
theorem point (hl : Linearizes o Agrees Good h order) (hi : .invoke id c ∈ h)
    (hr : ∀ r, .reply id r ∉ h) (hb : ∀ e ∈ order, e.id ≠ id) :
    Linearizes o Agrees Good h (⟨id, c, (o.step (o.after order) c).1⟩ :: order) where
  nodup := by
    rw [List.map_cons, List.nodup_cons]
    refine ⟨?_, hl.nodup⟩
    intro hmem
    obtain ⟨e, he, heq⟩ := List.mem_map.mp hmem
    exact hb e he heq
  invoked := by
    intro e he
    rcases List.mem_cons.mp he with rfl | he
    · exact hi
    · exact hl.invoked e he
  complete := by
    intro id' r hr'
    rw [hl.complete id' r hr']
    constructor
    · rintro ⟨e, he, heq⟩
      exact ⟨e, List.mem_cons_of_mem _ he, heq⟩
    · rintro ⟨e, he, rfl⟩
      rcases List.mem_cons.mp he with rfl | he
      · exact absurd hr' (hr r)
      · exact ⟨e, he, rfl⟩
  replied := by
    intro e he r hr'
    rcases List.mem_cons.mp he with rfl | he
    · exact absurd hr' (hr r)
    · exact hl.replied e he r hr'
  realTime := by
    refine List.pairwise_cons.mpr ⟨?_, hl.realTime⟩
    intro x _ hp
    obtain ⟨r, hr'⟩ := hp.replied
    exact hr r hr'
  legal := ⟨rfl, hl.legal⟩

/-- A call returns what the order says of it. -/
theorem reply (hl : Linearizes o Agrees Good h order)
    (hagrees : ∀ e ∈ order, e.id = id → Agrees r e.answer)
    (hgood : Good r ↔ ∃ e ∈ order, e.id = id) :
    Linearizes o Agrees Good (.reply id r :: h) order where
  nodup := hl.nodup
  invoked e he := List.mem_cons_of_mem _ (hl.invoked e he)
  complete := by
    intro id' r' hr'
    rcases List.mem_cons.mp hr' with hr' | hr'
    · cases hr'
      exact hgood
    · exact hl.complete id' r' hr'
  replied := by
    intro e he r' hr'
    rcases List.mem_cons.mp hr' with hr' | hr'
    · cases hr'
      exact hagrees e he rfl
    · exact hl.replied e he r' hr'
  realTime := hl.realTime.imp fun hn hp => hn (precedes_reply hp)
  legal := hl.legal

/-- A call under way that only looked is taken out of the order. -/
theorem retract (hl : Linearizes o Agrees Good h order) (hr : ∀ r, .reply id r ∉ h)
    (hlooks : o.OnlyLooks id order) : Linearizes o Agrees Good h (Object.without id order) where
  nodup := hl.nodup.sublist ((Object.without_sublist id order).map _)
  invoked e he := hl.invoked e (Object.mem_without.mp he).1
  complete := by
    intro id' r hr'
    have hne : id' ≠ id := by
      rintro rfl
      exact hr r hr'
    rw [hl.complete id' r hr']
    constructor
    · rintro ⟨e, he, rfl⟩
      exact ⟨e, Object.mem_without.mpr ⟨he, hne⟩, rfl⟩
    · rintro ⟨e, he, heq⟩
      exact ⟨e, (Object.mem_without.mp he).1, heq⟩
  replied e he := hl.replied e (Object.mem_without.mp he).1
  realTime := hl.realTime.sublist (Object.without_sublist id order)
  legal := hl.legal.without hlooks

end Linearizes

/-! ## Traces -/

/-- The events and the order so far, and for each task the call it is in. -/
structure Trace (T C R A : Type) where
  events : List (Event C R)
  order : List (Entry C A)
  running : T → Option (Nat × C)

namespace Trace

def empty : Trace T C R A := ⟨[], [], fun _ => none⟩

variable [DecidableEq T] (tr : Trace T C R A)

/-- The task `t` is in a call; its number is that of the event. -/
def invoke (t : T) (c : C) : Trace T C R A where
  events := .invoke tr.events.length c :: tr.events
  order := tr.order
  running := Function.update tr.running t (some (tr.events.length, c))

/-- The linearization point of the call of `t`. -/
def point (t : T) (a : A) : Trace T C R A :=
  match tr.running t with
  | none => tr
  | some (id, c) => { tr with order := ⟨id, c, a⟩ :: tr.order }

/-- The call of `t` is taken out of the order. -/
def retract (t : T) : Trace T C R A :=
  match tr.running t with
  | none => tr
  | some (id, _) => { tr with order := Object.without id tr.order }

def reply (t : T) (r : R) : Trace T C R A where
  events :=
    match tr.running t with
    | none => tr.events
    | some (id, _) => .reply id r :: tr.events
  order := tr.order
  running := Function.update tr.running t none

/-- The call `id` is not in the order yet. -/
def Before (id : Nat) : Prop := ∀ e ∈ tr.order, e.id ≠ id

/-- The call `id` is in the order, with the answer `a`. -/
def After (id : Nat) (a : A) : Prop :=
  (∃ e ∈ tr.order, e.id = id) ∧ ∀ e ∈ tr.order, e.id = id → e.answer = a

/-- The reply `r` says of the call `id` what the order says. -/
def Fits (Agrees : R → A → Prop) (Good : R → Prop) (id : Nat) (r : R) : Prop :=
  (∀ e ∈ tr.order, e.id = id → Agrees r e.answer) ∧ (Good r ↔ ∃ e ∈ tr.order, e.id = id)

variable (o : Object S C A) (Agrees : R → A → Prop) (Good : R → Prop)

structure Consistent : Prop where
  linearizes : Linearizes o Agrees Good tr.events tr.order
  running : ∀ t id c, tr.running t = some (id, c) →
    .invoke id c ∈ tr.events ∧ ∀ r, .reply id r ∉ tr.events
  apart : ∀ t u id c c', tr.running t = some (id, c) → tr.running u = some (id, c') → t = u
  invoked : ∀ id c, .invoke id c ∈ tr.events → id < tr.events.length
  replied : ∀ id r, .reply id r ∈ tr.events → ∃ c, .invoke id c ∈ tr.events

variable {tr o Agrees Good}

namespace Consistent

omit [DecidableEq T] in
theorem empty : (Trace.empty : Trace T C R A).Consistent o Agrees Good where
  linearizes := ⟨List.nodup_nil, nofun, nofun, nofun, .nil, trivial⟩
  running := nofun
  apart := nofun
  invoked := nofun
  replied := nofun

omit [DecidableEq T] in
/-- The number of a new call is nobody's. -/
theorem fresh (h : tr.Consistent o Agrees Good) {id : Nat} {c : C}
    (hi : .invoke id c ∈ tr.events) : id ≠ tr.events.length :=
  Nat.ne_of_lt (h.invoked id c hi)

theorem invoke (h : tr.Consistent o Agrees Good) (t : T) (c : C) :
    (tr.invoke t c).Consistent o Agrees Good := by
  have hnew : ∀ {u id c'}, tr.running u = some (id, c') → id ≠ tr.events.length :=
    fun hu => h.fresh (h.running _ _ _ hu).1
  refine ⟨h.linearizes.invoke fun e he => h.fresh (h.linearizes.invoked e he), ?_, ?_, ?_, ?_⟩
  · intro u id c' hu
    by_cases hut : u = t
    · subst hut
      simp only [Trace.invoke, Function.update_self, Option.some.injEq, Prod.mk.injEq] at hu
      obtain ⟨rfl, rfl⟩ := hu
      refine ⟨List.mem_cons_self, ?_⟩
      intro r hr
      obtain ⟨c', hc'⟩ := h.replied _ r (reply_mem_invoke.mp hr)
      exact h.fresh hc' rfl
    · simp only [Trace.invoke, Function.update_of_ne hut] at hu
      obtain ⟨hi, hr⟩ := h.running u id c' hu
      exact ⟨List.mem_cons_of_mem _ hi, fun r hr' => hr r (reply_mem_invoke.mp hr')⟩
  · intro u v id c₁ c₂ hu hv
    simp only [Trace.invoke] at hu hv
    by_cases hut : u = t
    · by_cases hvt : v = t
      · rw [hut, hvt]
      · rw [hut, Function.update_self] at hu
        rw [Function.update_of_ne hvt] at hv
        cases hu
        exact absurd rfl (hnew hv)
    · rw [Function.update_of_ne hut] at hu
      by_cases hvt : v = t
      · rw [hvt, Function.update_self] at hv
        cases hv
        exact absurd rfl (hnew hu)
      · rw [Function.update_of_ne hvt] at hv
        exact h.apart u v id c₁ c₂ hu hv
  · intro id c' hi
    rcases List.mem_cons.mp hi with hi | hi
    · cases hi
      exact Nat.lt_succ_self _
    · exact Nat.lt_succ_of_lt (h.invoked id c' hi)
  · intro id r hr
    obtain ⟨c', hc'⟩ := h.replied id r (reply_mem_invoke.mp hr)
    exact ⟨c', List.mem_cons_of_mem _ hc'⟩

omit [DecidableEq T] in
theorem point (h : tr.Consistent o Agrees Good) {t : T} {id : Nat} {c : C}
    (hrun : tr.running t = some (id, c)) (hb : tr.Before id) :
    (tr.point t (o.step (o.after tr.order) c).1).Consistent o Agrees Good := by
  obtain ⟨hi, hr⟩ := h.running t id c hrun
  simp only [Trace.point, hrun]
  exact ⟨h.linearizes.point hi hr hb, h.running, h.apart, h.invoked, h.replied⟩

omit [DecidableEq T] in
theorem retract (h : tr.Consistent o Agrees Good) {t : T} {id : Nat} {c : C}
    (hrun : tr.running t = some (id, c)) (hlooks : o.OnlyLooks id tr.order) :
    (tr.retract t).Consistent o Agrees Good := by
  obtain ⟨_, hr⟩ := h.running t id c hrun
  simp only [Trace.retract, hrun]
  exact ⟨h.linearizes.retract hr hlooks, h.running, h.apart, h.invoked, h.replied⟩

theorem reply (h : tr.Consistent o Agrees Good) {t : T} {id : Nat} {c : C} {r : R}
    (hrun : tr.running t = some (id, c)) (hfits : tr.Fits Agrees Good id r) :
    (tr.reply t r).Consistent o Agrees Good := by
  have hother : ∀ {u id' c'}, Function.update tr.running t none u = some (id', c') →
      u ≠ t ∧ tr.running u = some (id', c') := by
    intro u id' c' hu
    by_cases hut : u = t
    · rw [hut, Function.update_self] at hu
      cases hu
    · exact ⟨hut, by rwa [Function.update_of_ne hut] at hu⟩
  have hevents : (tr.reply t r).events = .reply id r :: tr.events := by
    simp only [Trace.reply, hrun]
  refine ⟨?_, ?_, ?_, ?_, ?_⟩
  · rw [hevents]
    exact h.linearizes.reply hfits.1 hfits.2
  · intro u id' c' hu
    obtain ⟨hut, hu'⟩ := hother hu
    obtain ⟨hi, hr'⟩ := h.running u id' c' hu'
    rw [hevents]
    refine ⟨List.mem_cons_of_mem _ hi, ?_⟩
    intro r' hmem
    rcases List.mem_cons.mp hmem with heq | hmem
    · cases heq
      exact hut (h.apart u t _ _ _ hu' hrun)
    · exact hr' r' hmem
  · intro u v id' c₁ c₂ hu hv
    exact h.apart u v id' c₁ c₂ (hother hu).2 (hother hv).2
  · intro id' c' hi
    rw [hevents] at hi ⊢
    exact Nat.lt_succ_of_lt (h.invoked id' c' (invoke_mem_reply.mp hi))
  · intro id' r' hr'
    rw [hevents] at hr' ⊢
    rcases List.mem_cons.mp hr' with hr' | hr'
    · cases hr'
      exact ⟨c, List.mem_cons_of_mem _ (h.running t id c hrun).1⟩
    · obtain ⟨c', hc'⟩ := h.replied id' r' hr'
      exact ⟨c', List.mem_cons_of_mem _ hc'⟩

end Consistent

/-! What one task does, the others do not see in the order. -/

/-- The order says of the call `id` what it said. -/
def SameEntries (id : Nat) (tr tr' : Trace T C R A) : Prop :=
  ∀ e, e.id = id → (e ∈ tr'.order ↔ e ∈ tr.order)

section

omit [DecidableEq T]

variable {id : Nat} {tr' tr'' : Trace T C R A} {t u : T} {a : A} {r : R}

theorem SameEntries.of_order (h : tr'.order = tr.order) : SameEntries id tr tr' := by
  intro e _
  rw [h]

theorem SameEntries.trans (h : SameEntries id tr tr') (h' : SameEntries id tr' tr'') :
    SameEntries id tr tr'' :=
  fun e he => (h' e he).trans (h e he)

theorem SameEntries.before (h : SameEntries id tr tr') (hb : tr.Before id) : tr'.Before id := by
  intro e he heq
  exact hb e ((h e heq).mp he) heq

theorem SameEntries.after (h : SameEntries id tr tr') (ha : tr.After id a) : tr'.After id a := by
  obtain ⟨⟨e, he, heq⟩, hall⟩ := ha
  refine ⟨⟨e, (h e heq).mpr he, heq⟩, ?_⟩
  intro e' he' heq'
  exact hall e' ((h e' heq').mp he') heq'

/-- A call that is in the order is replied to as its entry says. -/
theorem After.fits (h : tr.After id a) (hr : Agrees r a) (hg : Good r) :
    tr.Fits Agrees Good id r := by
  refine ⟨?_, fun _ => h.1, fun _ => hg⟩
  intro e he heq
  rw [h.2 e he heq]
  exact hr

/-- One that is not has not gone well. -/
theorem Before.fits (h : tr.Before id) (hr : ¬ Good r) : tr.Fits Agrees Good id r := by
  refine ⟨fun e he heq => absurd heq (h e he), fun hg => absurd hg hr, ?_⟩
  rintro ⟨e, he, heq⟩
  exact absurd heq (h e he)

theorem SameEntries.fits (h : SameEntries id tr tr') (hf : tr.Fits Agrees Good id r) :
    tr'.Fits Agrees Good id r := by
  refine ⟨fun e he heq => hf.1 e ((h e heq).mp he) heq, hf.2.trans ?_⟩
  exact exists_congr fun e => and_congr_left fun heq => (h e heq).symm

variable {c : C} (hrun : tr.running t = some (id, c))

include hrun

theorem order_point : (tr.point t a).order = ⟨id, c, a⟩ :: tr.order := by
  simp only [Trace.point, hrun]

theorem events_point : (tr.point t a).events = tr.events := by
  simp only [Trace.point, hrun]

theorem running_point : (tr.point t a).running = tr.running := by
  simp only [Trace.point, hrun]

theorem Before.point (hb : tr.Before id) : (tr.point t a).After id a := by
  rw [After, order_point hrun]
  refine ⟨⟨_, List.mem_cons_self, rfl⟩, ?_⟩
  intro e he heq
  rcases List.mem_cons.mp he with rfl | he
  · rfl
  · exact absurd heq (hb e he)

theorem order_retract : (tr.retract t).order = Object.without id tr.order := by
  simp only [Trace.retract, hrun]

theorem events_retract : (tr.retract t).events = tr.events := by
  simp only [Trace.retract, hrun]

theorem running_retract : (tr.retract t).running = tr.running := by
  simp only [Trace.retract, hrun]

theorem before_retract : (tr.retract t).Before id := by
  rw [Before, order_retract hrun]
  exact fun e he => (Object.mem_without.mp he).2

theorem SameEntries.retract (h : tr.Consistent o Agrees Good) (hut : u ≠ t) {id' : Nat} {c' : C}
    (hu : tr.running u = some (id', c')) : SameEntries id' tr (tr.retract t) := by
  intro e heq
  rw [order_retract hrun, Object.mem_without, and_iff_left_iff_imp]
  rintro _ rfl
  obtain rfl : e.id = id' := heq
  exact hut (h.apart u t _ _ _ hu hrun)

theorem SameEntries.point (h : tr.Consistent o Agrees Good) (hut : u ≠ t) {id' : Nat} {c' : C}
    (hu : tr.running u = some (id', c')) : SameEntries id' tr (tr.point t a) := by
  intro e heq
  rw [order_point hrun, List.mem_cons]
  constructor
  · intro he
    rcases he with rfl | he
    · obtain rfl : id = id' := heq
      exact absurd (h.apart u t _ _ _ hu hrun) hut
    · exact he
  · exact Or.inr

end

end Trace

end Conc
