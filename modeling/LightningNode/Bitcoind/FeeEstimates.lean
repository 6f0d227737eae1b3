/-
# `LightningNode.Bitcoind.FeeEstimates` — the fee table and the task that fills it

`BitcoindClient::new` makes a table with an entry for each `ConfirmationTarget`
and spawns `poll_for_fee_estimates`, which asks `bitcoind` five questions,
stores eight values and sleeps, over and over.

    answer missing              the fallback of that question
    answer given                the answer, but at least `MIN_FEERATE`
    call failed, no entry,      a panic: the task ends
    or `- 250` underflows

A store is one atomic step, so what a reader can be given is what the table
holds in some state of a run.
-/
import LightningNode.Lib.AssocList
import LightningNode.Lib.Solo

namespace LightningNode

open Conc

/-! ## The table -/

inductive ConfirmationTarget where
  | maximumFeeEstimate
  | urgentOnChainSweep
  | minAllowedAnchorChannelRemoteFee
  | minAllowedNonAnchorChannelRemoteFee
  | anchorChannelFee
  | nonAnchorChannelFee
  | channelCloseMinimum
  | outputSpendingFee
  deriving DecidableEq

def MIN_FEERATE : UInt32 := 253

/-- The `HashMap` of `AtomicU32`s. -/
abbrev FeeTable := AList fun _ : ConfirmationTarget => UInt32

namespace FeeTable

/-- The table `BitcoindClient::new` makes. -/
def new : FeeTable :=
  AList.insert .outputSpendingFee MIN_FEERATE <|
  AList.insert .channelCloseMinimum MIN_FEERATE <|
  AList.insert .nonAnchorChannelFee 2000 <|
  AList.insert .anchorChannelFee MIN_FEERATE <|
  AList.insert .minAllowedNonAnchorChannelRemoteFee MIN_FEERATE <|
  AList.insert .minAllowedAnchorChannelRemoteFee MIN_FEERATE <|
  AList.insert .urgentOnChainSweep 5000 <|
  AList.insert .maximumFeeEstimate 50000 ∅

/-- `get_est_sat_per_1000_weight`; `none` is the panic of `unwrap`. -/
def getEstSatPer1000Weight (fees : FeeTable) (confirmationTarget : ConfirmationTarget) :
    Option UInt32 :=
  fees.lookup confirmationTarget

/-- The entries are those of `v`, and there is one for each target. -/
def Holds (fees : FeeTable) (v : ConfirmationTarget → UInt32) : Prop :=
  ∀ t, fees.getEstSatPer1000Weight t = some (v t)

theorem Holds.insert {fees : FeeTable} {v : ConfirmationTarget → UInt32} (h : fees.Holds v)
    (t : ConfirmationTarget) (x : UInt32) : Holds (fees.insert t x) (Function.update v t x) := by
  intro t'
  rw [getEstSatPer1000Weight, AList.lookup_insert_ite]
  by_cases ht : t' = t
  · subst ht
    simp
  · rw [if_neg ht, Function.update_of_ne ht]
    exact h t'

end FeeTable

/-! ## One round -/

/-- The two RPC methods asked. -/
inductive Rpc where
  | getmempoolinfo
  | estimatesmartfee (confTarget : Nat) (estimateMode : String)
  deriving DecidableEq

inductive FeeAct where
  | callMethod (call : Rpc)
  | store (t : ConfirmationTarget) (feerate : UInt32)

/-- A call is answered by an error or by `feerate_sat_per_kw`; a store finds the
entry or does not. -/
abbrev FeeAct.Answer : FeeAct → Type
  | .callMethod _ => Option (Option UInt32)
  | .store _ _ => Option Unit

/-- Why the task panicked. -/
inductive FeePanic where
  | rpcFailed (call : Rpc)
  | noEntry (t : ConfirmationTarget)
  | underflow
  deriving DecidableEq

abbrev FeeProg (α : Type) : Type := Prog FeeAct FeeAct.Answer (Except FeePanic α)

namespace FeeProg

/-- What is made of the answer to one question. -/
def estimateOf (feerateSatPerKw : Option UInt32) (fallback : UInt32) : UInt32 :=
  match feerateSatPerKw with
  | some feerate => max feerate MIN_FEERATE
  | none => fallback

def estimate (call : Rpc) (fallback : UInt32) : FeeProg UInt32 :=
  .act (.callMethod call) fun
    | some feerateSatPerKw => .ret (.ok (estimateOf feerateSatPerKw fallback))
    | none => .ret (.error (.rpcFailed call))

def store (t : ConfirmationTarget) (feerate : UInt32) : FeeProg Unit :=
  .act (.store t feerate) fun
    | some () => .ret (.ok ())
    | none => .ret (.error (.noEntry t))

/-- `a - b` on `u32`. -/
def subtract (a b : UInt32) : FeeProg UInt32 :=
  if b ≤ a then .ret (.ok (a - b)) else .ret (.error .underflow)

end FeeProg

namespace Rpc

def mempoolmin : Rpc := .getmempoolinfo
def background : Rpc := .estimatesmartfee 144 "ECONOMICAL"
def normal : Rpc := .estimatesmartfee 18 "ECONOMICAL"
def highPrio : Rpc := .estimatesmartfee 6 "CONSERVATIVE"
def veryHighPrio : Rpc := .estimatesmartfee 2 "CONSERVATIVE"

end Rpc

open Prog FeeProg in
/-- One turn of the loop of `poll_for_fee_estimates`. -/
def pollForFeeEstimates : FeeProg Unit :=
  andThen (estimate .mempoolmin MIN_FEERATE) fun mempoolminEstimate =>
  andThen (estimate .background MIN_FEERATE) fun backgroundEstimate =>
  andThen (estimate .normal 2000) fun normalEstimate =>
  andThen (estimate .highPrio 5000) fun highPrioEstimate =>
  andThen (estimate .veryHighPrio 50000) fun veryHighPrioEstimate =>
  andThen (store .maximumFeeEstimate veryHighPrioEstimate) fun _ =>
  andThen (store .urgentOnChainSweep highPrioEstimate) fun _ =>
  andThen (store .minAllowedAnchorChannelRemoteFee mempoolminEstimate) fun _ =>
  andThen (subtract backgroundEstimate 250) fun remoteFee =>
  andThen (store .minAllowedNonAnchorChannelRemoteFee remoteFee) fun _ =>
  andThen (store .anchorChannelFee backgroundEstimate) fun _ =>
  andThen (store .nonAnchorChannelFee normalEstimate) fun _ =>
  andThen (store .channelCloseMinimum backgroundEstimate) fun _ =>
  store .outputSpendingFee backgroundEstimate

/-! ## The task over its rounds -/

/-- The table, and what has happened in the round: the answers to the calls,
the table it found, the number of its stores; and how the last round ended. -/
structure FeePolling where
  fees : FeeTable
  answers : Rpc → Option UInt32
  before : FeeTable
  stored : Nat
  ended : Option (Except FeePanic Unit)

namespace FeePolling

def new : FeePolling := ⟨.new, fun _ => none, .new, 0, none⟩

/-- A call may fail or be answered in any way. -/
def Exec : (a : FeeAct) → FeePolling → a.Answer → FeePolling → Prop
  | .callMethod call, s, r, s' =>
      (r = none ∧ s' = s) ∨
      ∃ x, r = some x ∧ s' = { s with answers := Function.update s.answers call x }
  | .store t feerate, s, r, s' =>
      (t ∉ s.fees ∧ r = none ∧ s' = s) ∨
      (t ∈ s.fees ∧ r = some () ∧
        s' = { s with fees := s.fees.insert t feerate, stored := s.stored + 1 })

end FeePolling

/-- One task runs round after round until it panics, and the process may be
started again at any time. -/
def feePolling : System Unit FeeAct FeeAct.Answer (Except FeePanic Unit) FeePolling where
  exec _ := FeePolling.Exec
  start _ s p s' := (s.ended = none ∨ s.ended = some (.ok ())) ∧ p = pollForFeeEstimates ∧
    s' = { s with answers := fun _ => none, before := s.fees, stored := 0 }
  finish _ out s s' := s' = { s with ended := some out }
  env _ _ := False
  crash _ s' := s' = .new

/-! ## What a round does

Before its first store a round only asks; the entries it stores are the ones of
`estimated`, each at or above the floor of its target. -/

namespace FeePolling

open FeeProg

def floor : ConfirmationTarget → UInt32
  | .minAllowedNonAnchorChannelRemoteFee => 3
  | _ => MIN_FEERATE

/-- The entries after a round that was given the answers `f`. -/
def estimated (f : Rpc → Option UInt32) : ConfirmationTarget → UInt32
  | .maximumFeeEstimate => estimateOf (f .veryHighPrio) 50000
  | .urgentOnChainSweep => estimateOf (f .highPrio) 5000
  | .minAllowedAnchorChannelRemoteFee => estimateOf (f .mempoolmin) MIN_FEERATE
  | .minAllowedNonAnchorChannelRemoteFee => estimateOf (f .background) MIN_FEERATE - 250
  | .nonAnchorChannelFee => estimateOf (f .normal) 2000
  | .anchorChannelFee | .channelCloseMinimum | .outputSpendingFee =>
      estimateOf (f .background) MIN_FEERATE

structure Inv (s : FeePolling) : Prop where
  floors : ∃ v, s.fees.Holds v ∧ ∀ t, floor t ≤ v t
  before : s.stored = 0 → s.fees = s.before

/-- Within a round: the answers so far, the number of stores, the entries. -/
structure At (f : Rpc → Option UInt32) (n : Nat) (v : ConfirmationTarget → UInt32)
    (s : FeePolling) : Prop where
  answers : s.answers = f
  stored : s.stored = n
  fees : s.fees.Holds v

def Ended : Except FeePanic Unit → FeePolling → Prop
  | .ok (), s => s.fees.Holds (estimated s.answers)
  | .error e, s => (∃ call, e = .rpcFailed call) ∧ s.stored = 0

/-- From `P` on, `p` is the rest of a round. -/
def Round (P : FeePolling → Prop) (p : FeeProg Unit) : Prop :=
  (Discipline.solo feePolling Inv).Triple () P p Ended

theorem le_estimateOf (a : Option UInt32) {fallback : UInt32} (h : MIN_FEERATE ≤ fallback) :
    MIN_FEERATE ≤ estimateOf a fallback := by
  cases a with
  | none => exact h
  | some x =>
      show 253 ≤ if x ≤ 253 then 253 else x
      grind

theorem Inv.new : Inv .new where
  floors := by
    refine ⟨fun t => (FeeTable.new.lookup t).getD 0, ?_, ?_⟩
    · intro t
      cases t <;> rfl
    · intro t
      cases t <;> decide
  before := fun _ => rfl

variable {f : Rpc → Option UInt32} {n : Nat} {v : ConfirmationTarget → UInt32}

theorem estimate_rule {call : Rpc} {fallback : UInt32} {k : UInt32 → FeeProg Unit}
    (hk : ∀ a, Round (At (Function.update f call a) 0 v) (k (estimateOf a fallback))) :
    Round (At f 0 v) ((estimate call fallback).andThen k) := by
  refine .solo (fun r s => match r with
    | some a => At (Function.update f call a) 0 v s
    | none => s.stored = 0) ?_ ?_
  · rintro s hi ⟨rfl, hn, hv⟩ r s' (⟨rfl, rfl⟩ | ⟨a, rfl, rfl⟩)
    · exact ⟨hi, hn⟩
    · exact ⟨⟨hi.floors, hi.before⟩, rfl, hn, hv⟩
  · intro r
    cases r with
    | some a => exact hk a
    | none => exact .solo_ret fun s _ hn => ⟨⟨call, rfl⟩, hn⟩

theorem store_rule {t : ConfirmationTarget} {x : UInt32} (hx : floor t ≤ x) :
    (Discipline.solo feePolling Inv).Triple () (At f n v) (store t x)
      fun r s => r = .ok () ∧ At f (n + 1) (Function.update v t x) s := by
  refine .solo (fun r s => r = some () ∧ At f (n + 1) (Function.update v t x) s) ?_ ?_
  · rintro s hi ⟨rfl, rfl, hv⟩ r s' (⟨ht, _, _⟩ | ⟨_, rfl, rfl⟩)
    · -- there is an entry for every target
      have hmem : (s.fees.lookup t).isSome := by
        rw [show s.fees.lookup t = _ from hv t]
        rfl
      exact absurd (AList.lookup_isSome.mp hmem) ht
    · obtain ⟨w, hw, hfloor⟩ := hi.floors
      refine ⟨⟨⟨_, hw.insert t x, ?_⟩, nofun⟩, rfl, rfl, rfl, hv.insert t x⟩
      intro t'
      by_cases ht' : t' = t
      · subst ht'
        simpa using hx
      · simpa [ht'] using hfloor t'
  · intro r
    refine Discipline.Triple.weaken (P := fun s => r = some () ∧ _) ?_ fun _ _ h => h
    cases r with
    | some u => exact .solo_ret fun s _ h => ⟨rfl, h.2⟩
    | none => exact fun s _ h => nomatch h.1

theorem store_then {t : ConfirmationTarget} {x : UInt32} {k : Unit → FeeProg Unit}
    (hx : floor t ≤ x) (hk : Round (At f (n + 1) (Function.update v t x)) (k ())) :
    Round (At f n v) ((store t x).andThen k) := by
  refine .solo_andThen (fun _ => At f (n + 1) (Function.update v t x)) ?_ fun _ => hk
  intro s hi hs
  refine Discipline.Safe.mono _ ?_ (store_rule hx s hi hs)
  rintro r s' _ ⟨rfl, h⟩
  exact h

theorem subtract_rule {a : UInt32} {P : FeePolling → Prop} {k : UInt32 → FeeProg Unit}
    (ha : MIN_FEERATE ≤ a) (hk : Round P (k (a - 250))) :
    Round P ((subtract a 250).andThen k) := by
  have hle : (250 : UInt32) ≤ a := by
    have h : (253 : UInt32) ≤ a := ha
    grind
  rw [subtract, if_pos hle]
  exact hk

/-- The round as a whole. -/
theorem round_rule : Round (At f 0 v) pollForFeeEstimates := by
  refine estimate_rule fun mempoolmin => estimate_rule fun background => ?_
  refine estimate_rule fun normal => estimate_rule fun highPrio => ?_
  refine estimate_rule fun veryHighPrio => ?_
  have hbackground : MIN_FEERATE ≤ estimateOf background MIN_FEERATE := le_estimateOf _ (by decide)
  have hremote : (3 : UInt32) ≤ estimateOf background MIN_FEERATE - 250 := by
    have h : (253 : UInt32) ≤ estimateOf background MIN_FEERATE := hbackground
    grind
  refine store_then (le_estimateOf _ (by decide)) ?_
  refine store_then (le_estimateOf _ (by decide)) ?_
  refine store_then (le_estimateOf _ (by decide)) ?_
  refine subtract_rule hbackground ?_
  refine store_then hremote ?_
  refine store_then hbackground ?_
  refine store_then (le_estimateOf _ (by decide)) ?_
  refine store_then hbackground ?_
  intro s hi hs
  refine Discipline.Safe.mono _ ?_ (store_rule hbackground s hi hs)
  rintro r s' _ ⟨rfl, h⟩ t
  rw [h.fees t, h.answers]
  cases t <;> rfl

end FeePolling

/-! ## Every run -/

namespace FeePolling

/-- While the task sleeps, the last round has ended as rounds do. -/
def Asleep (s : FeePolling) : Prop := ∀ out, s.ended = some out → Ended out s

def outline : Outline feePolling :=
  .solo _ Inv Asleep Ended
    (by
      rintro s p s' ⟨_, rfl, rfl⟩ hi _
      obtain ⟨v, hv, hfloor⟩ := hi.floors
      have hi' : Inv { s with answers := fun _ => none, before := s.fees, stored := 0 } :=
        ⟨⟨v, hv, hfloor⟩, fun _ => rfl⟩
      exact ⟨hi', round_rule _ hi' ⟨rfl, rfl, hv⟩⟩)
    (by
      rintro out s s' rfl hi h
      refine ⟨⟨hi.floors, hi.before⟩, ?_⟩
      rintro _ ⟨⟩
      cases out <;> exact h)
    id
    (by
      rintro s s' rfl _
      exact ⟨.new, nofun⟩)

variable {cfg : Config Unit FeeAct FeeAct.Answer (Except FeePanic Unit) FeePolling}

theorem reach_inv (hr : feePolling.Reach (.idle .new) cfg) : outline.Inv cfg :=
  ((Outline.Inv.init outline Inv.new fun _ => nofun).reach outline hr).1

theorem asleep (hr : feePolling.Reach (.idle .new) cfg) (hidle : cfg.task () = none) :
    Asleep cfg.state := by
  have h := (reach_inv hr).task ()
  rw [hidle] at h
  exact h

end FeePolling

open FeePolling in
/-- In every state of every run each target has an entry, at or above the floor
of its target; a round only ever panics because a call failed, and then has
stored nothing; what it has not stored yet is what it found; and while the task
sleeps after a completed round the entries agree. -/
theorem fee_table_floor
    {cfg : Config Unit FeeAct FeeAct.Answer (Except FeePanic Unit) FeePolling}
    (hr : feePolling.Reach (.idle .new) cfg) :
    (∀ t, ∃ v, cfg.state.fees.getEstSatPer1000Weight t = some v ∧
      (t ≠ .minAllowedNonAnchorChannelRemoteFee → MIN_FEERATE ≤ v) ∧ 3 ≤ v) ∧
    (∀ e, cfg.task () = some (.ret (.error e)) →
      (∃ call, e = .rpcFailed call) ∧ cfg.state.fees = cfg.state.before) ∧
    (cfg.state.stored = 0 → cfg.state.fees = cfg.state.before) ∧
    (cfg.task () = none → cfg.state.ended = some (.ok ()) →
      ∃ v, cfg.state.fees.Holds v ∧
        v .minAllowedNonAnchorChannelRemoteFee = v .anchorChannelFee - 250 ∧
        250 ≤ v .anchorChannelFee ∧
        v .anchorChannelFee = v .channelCloseMinimum ∧
        v .channelCloseMinimum = v .outputSpendingFee) := by
  have hinv := reach_inv hr
  have hi : Inv cfg.state := hinv.state
  refine ⟨?_, ?_, hi.before, ?_⟩
  · intro t
    obtain ⟨v, hv, hfloor⟩ := hi.floors
    refine ⟨v t, hv t, ?_, ?_⟩
    · intro ht
      have h := hfloor t
      cases t <;> first | exact absurd rfl ht | exact h
    · have h := hfloor t
      have hthree : (3 : UInt32) ≤ floor t := by cases t <;> decide
      exact UInt32.le_trans hthree h
  · intro e he
    have htask := hinv.task ()
    rw [he] at htask
    have hpost : Ended (.error e) cfg.state := Outline.Holds.returned outline hi htask
    exact ⟨hpost.1, hi.before hpost.2⟩
  · intro hidle hend
    have hfees : cfg.state.fees.Holds (estimated cfg.state.answers) :=
      asleep hr hidle _ hend
    have hbackground : (253 : UInt32) ≤ estimated cfg.state.answers .anchorChannelFee :=
      le_estimateOf _ (by decide)
    exact ⟨_, hfees, rfl, by grind, rfl, rfl⟩

namespace FeePolling

/-- A `bitcoind` that answers as `script` says. -/
def answering (script : Rpc → Option (Option UInt32)) :
    (a : FeeAct) → FeePolling → Option (a.Answer × FeePolling)
  | .callMethod call, s =>
      match script call with
      | some x => some (some x, { s with answers := Function.update s.answers call x })
      | none => some (none, s)
  | .store t feerate, s =>
      if t ∈ s.fees then
        some (some (), { s with fees := s.fees.insert t feerate, stored := s.stored + 1 })
      else some (none, s)

theorem answering_exec {script : Rpc → Option (Option UInt32)} :
    ∀ a s r s', answering script a s = some (r, s') → feePolling.exec () a s r s' := by
  intro a s r s' h
  cases a with
  | callMethod call =>
      cases hc : script call with
      | none =>
          simp only [answering, hc] at h
          cases h
          exact Or.inl ⟨rfl, rfl⟩
      | some x =>
          simp only [answering, hc] at h
          cases h
          exact Or.inr ⟨x, rfl, rfl⟩
  | store t feerate =>
      simp only [answering] at h
      split_ifs at h with ht
      · cases h
        exact Or.inr ⟨ht, rfl, rfl⟩
      · cases h
        exact Or.inl ⟨ht, rfl, rfl⟩

/-- A whole round, from one sleep to the next. -/
theorem reach_round (script : Rpc → Option (Option UInt32)) {s s' : FeePolling}
    {out : Except FeePanic Unit} (hs : s.ended = none ∨ s.ended = some (.ok ()))
    (hrun : run (answering script) pollForFeeEstimates
      { s with answers := fun _ => none, before := s.fees, stored := 0 } = some (out, s')) :
    feePolling.Reach (.idle s) (.idle { s' with ended := some out }) :=
  System.reach_call (t := ()) answering_exec ⟨hs, rfl, rfl⟩ hrun rfl

end FeePolling

open FeePolling in
/-- A round in which `bitcoind` knows no feerate at all, and one whose second
call fails. -/
theorem fee_table_floor_rounds :
    ∃ cfg, feePolling.Reach (.idle .new) cfg ∧
      cfg.state.fees.getEstSatPer1000Weight .minAllowedNonAnchorChannelRemoteFee = some 3 ∧
      cfg.state.fees = cfg.state.before := by
  have hr : feePolling.Reach (.idle .new) (.idle _) :=
    (reach_round (fun _ => some none) (Or.inl rfl) rfl).trans
      (reach_round (fun call => if call = .background then none else some none) (Or.inr rfl) rfl)
  exact ⟨_, hr, rfl, (fee_table_floor hr).2.2.1 rfl⟩

/-! ## The highest estimate -/

namespace FeePolling

open FeeProg

/-- The feerates given do not increase with the confirmation target, and the
mempool minimum is no higher than any of them. -/
def Ordered (f : Rpc → Option UInt32) : Prop :=
  ([Rpc.veryHighPrio, .highPrio, .normal, .background, .mempoolmin].filterMap f).Pairwise (· ≥ ·)

instance (f : Rpc → Option UInt32) : Decidable (Ordered f) :=
  inferInstanceAs (Decidable (List.Pairwise _ _))

/-- No fallback gets in the way: where the 2-block estimate is given, a missing
one counts for no more; where it is missing, nothing given is above what stands
for it. -/
def Covered (f : Rpc → Option UInt32) : Prop :=
  (∀ x ∈ f .veryHighPrio, (f .highPrio = none → 5000 ≤ x) ∧ (f .normal = none → 2000 ≤ x)) ∧
    (f .veryHighPrio = none →
      ∀ call ∈ [Rpc.highPrio, .normal, .background, .mempoolmin], ∀ x ∈ f call, x ≤ 50000)

instance (f : Rpc → Option UInt32) : Decidable (Covered f) :=
  @instDecidableAnd _ _ (Option.decidableForallMem _) <|
    @instDecidableForall _ _ _ <|
      @List.decidableBAll _ _ (fun call => Option.decidableForallMem (f call)) _

theorem estimateOf_le {a : Option UInt32} {fallback m : UInt32} (hm : MIN_FEERATE ≤ m) :
    estimateOf a fallback ≤ m ↔ (a = none → fallback ≤ m) ∧ ∀ x, a = some x → x ≤ m := by
  cases a with
  | none =>
      constructor
      · intro h
        exact ⟨fun _ => h, nofun⟩
      · intro h
        exact h.1 rfl
  | some x =>
      have hmax : estimateOf (some x) fallback = if x ≤ 253 then 253 else x := rfl
      have hm' : (253 : UInt32) ≤ m := hm
      constructor
      · intro h
        refine ⟨nofun, ?_⟩
        rintro _ ⟨⟩
        grind
      · intro h
        have hx := h.2 x rfl
        grind

/-- The questions but for the 2-block one, with their fallbacks. -/
def otherCalls : List (Rpc × UInt32) :=
  [(.highPrio, 5000), (.normal, 2000), (.background, MIN_FEERATE), (.mempoolmin, MIN_FEERATE)]

/-- Eight targets, but only four questions to compare with the 2-block one. -/
theorem estimated_le_iff {f : Rpc → Option UInt32} :
    (∀ t, estimated f t ≤ estimated f .maximumFeeEstimate) ↔
      ∀ p ∈ otherCalls, estimateOf (f p.1) p.2 ≤ estimateOf (f .veryHighPrio) 50000 := by
  constructor
  · intro h p hp
    simp only [otherCalls, List.mem_cons, List.not_mem_nil, or_false] at hp
    rcases hp with rfl | rfl | rfl | rfl
    · exact h .urgentOnChainSweep
    · exact h .nonAnchorChannelFee
    · exact h .anchorChannelFee
    · exact h .minAllowedAnchorChannelRemoteFee
  · intro h t
    have hbackground := h (.background, MIN_FEERATE) (by simp [otherCalls])
    cases t with
    | maximumFeeEstimate => exact UInt32.le_refl _
    | urgentOnChainSweep => exact h (.highPrio, 5000) (by simp [otherCalls])
    | minAllowedAnchorChannelRemoteFee => exact h (.mempoolmin, MIN_FEERATE) (by simp [otherCalls])
    | minAllowedNonAnchorChannelRemoteFee =>
        have hle : (253 : UInt32) ≤ estimateOf (f .background) MIN_FEERATE :=
          le_estimateOf _ (by decide)
        show estimateOf (f .background) MIN_FEERATE - 250 ≤ estimateOf (f .veryHighPrio) 50000
        grind
    | nonAnchorChannelFee => exact h (.normal, 2000) (by simp [otherCalls])
    | anchorChannelFee => exact hbackground
    | channelCloseMinimum => exact hbackground
    | outputSpendingFee => exact hbackground

theorem Ordered.le {f : Rpc → Option UInt32} (h : Ordered f) {x : UInt32}
    (hx : f .veryHighPrio = some x) {p : Rpc × UInt32} (hp : p ∈ otherCalls) {y : UInt32}
    (hy : f p.1 = some y) : y ≤ x := by
  rw [Ordered, List.filterMap_cons_some hx, List.pairwise_cons] at h
  refine h.1 y (List.mem_filterMap.mpr ⟨p.1, ?_, hy⟩)
  simp only [otherCalls, List.mem_cons, List.not_mem_nil, or_false] at hp
  rcases hp with rfl | rfl | rfl | rfl <;> simp

theorem covered_iff {f : Rpc → Option UInt32} (hf : Ordered f) :
    (∀ t, estimated f t ≤ estimated f .maximumFeeEstimate) ↔ Covered f := by
  have hmax : MIN_FEERATE ≤ estimateOf (f .veryHighPrio) 50000 := le_estimateOf _ (by decide)
  rw [estimated_le_iff]
  simp only [estimateOf_le hmax, Covered]
  cases hx : f .veryHighPrio with
  | none =>
      have hmax' : estimateOf none 50000 = (50000 : UInt32) := rfl
      simp [hmax', otherCalls, MIN_FEERATE]
  | some x =>
      have hx' : estimateOf (some x) 50000 = if x ≤ 253 then 253 else x := rfl
      constructor
      · intro h
        have hhigh := (h (.highPrio, 5000) (by simp [otherCalls])).1
        have hnormal := (h (.normal, 2000) (by simp [otherCalls])).1
        refine ⟨?_, nofun⟩
        rintro _ ⟨⟩
        constructor
        · intro hnone
          have hle := hhigh hnone
          grind
        · intro hnone
          have hle := hnormal hnone
          grind
      · rintro ⟨hgiven, _⟩ p hp
        obtain ⟨hhigh, hnormal⟩ := hgiven x rfl
        have hself : x ≤ estimateOf (some x) 50000 := by grind
        refine ⟨?_, fun y hy => UInt32.le_trans (hf.le hx hp hy) hself⟩
        intro hnone
        simp only [otherCalls, List.mem_cons, List.not_mem_nil, or_false] at hp
        rcases hp with rfl | rfl | rfl | rfl
        · exact UInt32.le_trans (hhigh hnone) hself
        · exact UInt32.le_trans (hnormal hnone) hself
        · exact hx ▸ hmax
        · exact hx ▸ hmax

end FeePolling

open FeePolling in
/-- After a completed round with feerates in order, no entry is above that of
`MaximumFeeEstimate` exactly if no fallback gets in the way. -/
theorem maximum_fee_estimate_highest
    {cfg : Config Unit FeeAct FeeAct.Answer (Except FeePanic Unit) FeePolling}
    (hr : feePolling.Reach (.idle .new) cfg) (hidle : cfg.task () = none)
    (hend : cfg.state.ended = some (.ok ())) (hord : Ordered cfg.state.answers) :
    (∃ m, cfg.state.fees.getEstSatPer1000Weight .maximumFeeEstimate = some m ∧
      ∀ t, ∃ v, cfg.state.fees.getEstSatPer1000Weight t = some v ∧ v ≤ m) ↔
      Covered cfg.state.answers := by
  have hfees : cfg.state.fees.Holds (estimated cfg.state.answers) := asleep hr hidle _ hend
  rw [← covered_iff hord]
  constructor
  · rintro ⟨m, hm, h⟩ t
    obtain ⟨v, hv, hle⟩ := h t
    rw [hfees] at hm hv
    cases hm
    cases hv
    exact hle
  · intro h
    exact ⟨_, hfees _, fun t => ⟨_, hfees t, h t⟩⟩

open FeePolling in
/-- `bitcoind` knows the 2-block feerate, above the fallback of the 6-block one that
is missing, the 18-block one and the minimum of its mempool. -/
theorem maximum_fee_estimate_highest_fallbacks :
    ∃ cfg, feePolling.Reach (.idle .new) cfg ∧ cfg.state.answers .veryHighPrio = some 6000 ∧
      cfg.state.answers .highPrio = none ∧
      ∃ m, cfg.state.fees.getEstSatPer1000Weight .maximumFeeEstimate = some m ∧
        ∀ t, ∃ v, cfg.state.fees.getEstSatPer1000Weight t = some v ∧ v ≤ m := by
  have hr : feePolling.Reach (.idle .new) (.idle _) :=
    reach_round (fun
      | .veryHighPrio => some (some 6000)
      | .normal => some (some 3000)
      | .mempoolmin => some (some 1000)
      | _ => some none) (Or.inl rfl) rfl
  exact ⟨_, hr, rfl, rfl, (maximum_fee_estimate_highest hr rfl rfl (by decide)).mpr (by decide)⟩

open FeePolling in
/-- A quiet mempool: the 2-block estimate is 300, the 6-block one is missing and
counts for 5000. -/
theorem urgent_above_maximum :
    ∃ cfg, feePolling.Reach (.idle .new) cfg ∧ cfg.task () = none ∧
      cfg.state.ended = some (.ok ()) ∧ Ordered cfg.state.answers ∧
      cfg.state.fees.getEstSatPer1000Weight .maximumFeeEstimate = some 300 ∧
      cfg.state.fees.getEstSatPer1000Weight .urgentOnChainSweep = some 5000 := by
  have hr : feePolling.Reach (.idle .new) (.idle _) :=
    reach_round (fun call => if call = .veryHighPrio then some (some 300) else some none)
      (Or.inl rfl) rfl
  exact ⟨_, hr, rfl, rfl, by decide, rfl, rfl⟩

end LightningNode
