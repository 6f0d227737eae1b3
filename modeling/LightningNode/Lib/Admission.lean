/-
# `LightningNode.Lib.Admission` — a pool whose entries need one another

An item is let into the pool if it is valid and everything it needs is given or
in the pool already; an item refused is not tried again.  So what gets in
depends on the order in which items are offered.

    Admissible        what could get in at all, by the items it needs
    Chain             a sequence in which each item comes after what it needs
    mem_offerAll      offered in any order: in, only if admissible
    Chain.admitted    in, if a chain is among what is offered
    admissible_in     offered with nothing before what it needs: all get in
-/
import Mathlib.Data.List.Basic
import Mathlib.Data.List.Infix

namespace Conc

/-- What items need, which ones are given without being in the pool, and which
ones are valid. -/
structure Admission (X : Type) where
  needs : X → List X
  given : X → Bool
  valid : X → Bool

namespace Admission

variable {X : Type} [DecidableEq X] (A : Admission X)

def Ready (pool : List X) (x : X) : Prop :=
  A.valid x = true ∧ ∀ p ∈ A.needs x, A.given p = true ∨ p ∈ pool

instance (pool : List X) (x : X) : Decidable (A.Ready pool x) :=
  inferInstanceAs (Decidable (_ ∧ _))

def offer (pool : List X) (x : X) : List X :=
  if A.Ready pool x then x :: pool else pool

def offerAll (pool : List X) (xs : List X) : List X := xs.foldl A.offer pool

/-- Each item of the list is valid and needs nothing that is not in the pool or
before it. -/
def Chain (pool : List X) : List X → Prop
  | [] => True
  | x :: xs => A.Ready pool x ∧ Chain (x :: pool) xs

/-- An item of `xs` that is valid and needs only what is given, what is in the
pool, and admissible items. -/
inductive Admissible (pool xs : List X) : X → Prop
  | mk {x : X} (hx : x ∈ xs) (hv : A.valid x = true)
      (hp : ∀ p ∈ A.needs x, A.given p = false → p ∉ pool → Admissible pool xs p) :
      Admissible pool xs x

/-- Nothing comes before what it needs. -/
def Sorted (xs : List X) : Prop :=
  ∀ before x after, xs = before ++ x :: after → ∀ p ∈ A.needs x, p ∈ xs → p ∈ before

variable {A}

omit [DecidableEq X] in
theorem Ready.mono {pool pool' : List X} {x : X} (h : A.Ready pool x) (hsub : pool ⊆ pool') :
    A.Ready pool' x :=
  ⟨h.1, fun p hp => (h.2 p hp).imp_right fun hin => hsub hin⟩

omit [DecidableEq X] in
theorem Chain.mono {pool pool' xs : List X} (hsub : pool ⊆ pool') (h : A.Chain pool xs) :
    A.Chain pool' xs := by
  induction xs generalizing pool pool' with
  | nil => trivial
  | cons x xs ih => exact ⟨h.1.mono hsub, ih (List.cons_subset_cons x hsub) h.2⟩

theorem subset_offer (pool : List X) (x : X) : pool ⊆ A.offer pool x := by
  unfold offer
  split_ifs
  · exact List.subset_cons_self x pool
  · exact List.Subset.refl pool

theorem subset_offerAll (pool xs : List X) : pool ⊆ A.offerAll pool xs := by
  induction xs generalizing pool with
  | nil => exact List.Subset.refl pool
  | cons x xs ih => exact List.Subset.trans (subset_offer pool x) (ih _)

theorem offerAll_append (pool xs ys : List X) :
    A.offerAll pool (xs ++ ys) = A.offerAll (A.offerAll pool xs) ys :=
  List.foldl_append

theorem mem_offer_of_ready {pool : List X} {x : X} (h : A.Ready pool x) : x ∈ A.offer pool x := by
  rw [offer, if_pos h]
  exact List.mem_cons_self

/-- What is in has been admissible. -/
theorem mem_offerAll {pool xs ys : List X} (hsub : ys ⊆ xs) {x : X}
    (hx : x ∈ A.offerAll pool ys) : x ∈ pool ∨ A.Admissible pool xs x := by
  -- the induction is on what is offered; `now` is the pool at each point
  have key : ∀ (ys now : List X), ys ⊆ xs → (∀ y ∈ now, y ∈ pool ∨ A.Admissible pool xs y) →
      ∀ y ∈ A.offerAll now ys, y ∈ pool ∨ A.Admissible pool xs y := by
    intro ys
    induction ys with
    | nil => exact fun now _ hnow => hnow
    | cons y ys ih =>
        intro now hsub hnow
        refine ih (A.offer now y) (fun z hz => hsub (List.mem_cons_of_mem y hz)) ?_
        unfold offer
        split_ifs with hr
        · intro z hz
          rcases List.mem_cons.mp hz with rfl | hz
          · refine Or.inr (.mk (hsub List.mem_cons_self) hr.1 ?_)
            intro p hp hgiven hpool
            rcases hr.2 p hp with h | h
            · rw [hgiven] at h
              cases h
            · exact (hnow p h).resolve_left hpool
          · exact hnow z hz
        · exact hnow
  exact key ys pool hsub (fun y hy => Or.inl hy) x hx

/-- All of a chain is let in, whatever else is offered in between. -/
theorem Chain.admitted {pool chain ys : List X} (hc : A.Chain pool chain)
    (hsub : chain.Sublist ys) : ∀ x ∈ chain, x ∈ A.offerAll pool ys := by
  induction hsub generalizing pool with
  | slnil => exact fun x hx => absurd hx List.not_mem_nil
  | cons y _ ih => exact ih (hc.mono (subset_offer pool y))
  | cons_cons y hsub ih =>
      intro x hx
      have hy : y ∈ A.offer pool y := mem_offer_of_ready hc.1
      rcases List.mem_cons.mp hx with rfl | hx
      · show x ∈ A.offerAll (A.offer pool x) _
        exact subset_offerAll _ _ hy
      · exact ih (hc.2.mono (List.cons_subset.mpr ⟨hy, subset_offer pool y⟩)) x hx

/-- What is let in forms a chain, in the order in which it is offered. -/
theorem chain_of_offerAll (pool ys : List X) :
    ∃ chain, chain.Sublist ys ∧ A.Chain pool chain ∧
      ∀ x ∈ A.offerAll pool ys, x ∈ pool ∨ x ∈ chain := by
  induction ys generalizing pool with
  | nil => exact ⟨[], .slnil, trivial, fun x hx => Or.inl hx⟩
  | cons y ys ih =>
      obtain ⟨chain, hsub, hc, hall⟩ := ih (A.offer pool y)
      by_cases hr : A.Ready pool y
      · rw [offer, if_pos hr] at hc hall
        refine ⟨y :: chain, hsub.cons_cons y, ⟨hr, hc⟩, ?_⟩
        intro x hx
        rw [offerAll, List.foldl_cons, offer, if_pos hr] at hx
        rcases hall x hx with h | h
        · rcases List.mem_cons.mp h with rfl | h
          · exact Or.inr List.mem_cons_self
          · exact Or.inl h
        · exact Or.inr (List.mem_cons_of_mem y h)
      · rw [offer, if_neg hr] at hc hall
        refine ⟨chain, hsub.cons y, hc, ?_⟩
        intro x hx
        rw [offerAll, List.foldl_cons, offer, if_neg hr] at hx
        exact hall x hx

/-- Offered with nothing before what it needs, all that is admissible is let in. -/
theorem admissible_in {pool xs : List X} (hs : A.Sorted xs) {x : X}
    (hx : A.Admissible pool xs x) : x ∈ A.offerAll pool xs := by
  -- by induction on why `x` is admissible: it is in as soon as it has been offered
  have key : ∀ before after, xs = before ++ x :: after → x ∈ A.offerAll pool (before ++ [x]) := by
    induction hx with
    | @mk x hx hv hp ih =>
        intro before after hxs
        rw [offerAll_append]
        refine mem_offer_of_ready ⟨hv, ?_⟩
        intro p hneed
        by_cases hgiven : A.given p = true
        · exact Or.inl hgiven
        by_cases hpool : p ∈ pool
        · exact Or.inr (subset_offerAll _ _ hpool)
        have hgiven' : A.given p = false := by simpa using hgiven
        have hadm := hp p hneed hgiven' hpool
        have hmem : p ∈ xs := by
          cases hadm with
          | mk hmem _ _ => exact hmem
        obtain ⟨before', after', rfl⟩ := List.append_of_mem (hs before x after hxs p hneed hmem)
        have hin := ih p hneed hgiven' hpool before' (after' ++ x :: after) (by simpa using hxs)
        have happ : before' ++ p :: after' = (before' ++ [p]) ++ after' := by simp
        rw [happ, offerAll_append]
        exact Or.inr (subset_offerAll _ _ hin)
  have hmem : x ∈ xs := by
    cases hx with
    | mk hmem _ _ => exact hmem
  obtain ⟨before, after, rfl⟩ := List.append_of_mem hmem
  have hin := key before after rfl
  have happ : before ++ x :: after = (before ++ [x]) ++ after := by simp
  rw [happ, offerAll_append]
  exact subset_offerAll _ _ hin

/-- Offered in another order, as much gets in as in a sorted one exactly if all
that is admissible can be found along a chain. -/
theorem same_admitted_iff {pool xs ys : List X} (hs : A.Sorted xs) (hsub : ys ⊆ xs) :
    (∀ x, x ∈ A.offerAll pool ys ↔ x ∈ A.offerAll pool xs) ↔
      ∃ chain, chain.Sublist ys ∧ A.Chain pool chain ∧
        ∀ x, A.Admissible pool xs x → x ∉ pool → x ∈ chain := by
  constructor
  · intro h
    obtain ⟨chain, hsub', hc, hall⟩ := A.chain_of_offerAll pool ys
    refine ⟨chain, hsub', hc, ?_⟩
    intro x hx hpool
    exact (hall x ((h x).mpr (admissible_in hs hx))).resolve_left hpool
  · rintro ⟨chain, hsub', hc, hall⟩ x
    constructor
    · intro hx
      rcases mem_offerAll hsub hx with hpool | hadm
      · exact subset_offerAll _ _ hpool
      · exact admissible_in hs hadm
    · intro hx
      by_cases hpool : x ∈ pool
      · exact subset_offerAll _ _ hpool
      · have hadm := (mem_offerAll (List.Subset.refl xs) hx).resolve_left hpool
        exact hc.admitted hsub' x (hall x hadm hpool)

end Admission

end Conc
