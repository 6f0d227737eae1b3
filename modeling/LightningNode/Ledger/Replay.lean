/-
# `LightningNode.Ledger.Replay` — events handled twice

After a crash LDK hands the events again that came since the `ChannelManager`
was last persisted.  Three of them change a ledger:

    PaymentClaimed    inserts a record, or overwrites three fields of it
    PaymentSent       overwrites two fields of the record, if there is one
    PaymentFailed     overwrites one

So what a run of events does to one record is again an overwrite, whatever the
events are, on a record that is either the one found or, for `PaymentClaimed`,
the first one inserted; and an overwrite done twice is an overwrite done once.
-/
import LightningNode.Ledger.Inbound

namespace LightningNode

open Conc Inbound

namespace Replay

/-! ## Overwriting fields of a record -/

/-- New values for fields of a record; a field at `none` is kept. -/
structure Overwrite where
  preimage : Option (Option PaymentPreimage)
  secret : Option (Option PaymentSecret)
  status : Option HTLCStatus

namespace Overwrite

def on (w : Overwrite) (p : PaymentInfo) : PaymentInfo where
  preimage := w.preimage.getD p.preimage
  secret := w.secret.getD p.secret
  status := w.status.getD p.status
  amtMsat := p.amtMsat

def nothing : Overwrite := ⟨none, none, none⟩

/-- First `w`, then `w'`. -/
def andThen (w w' : Overwrite) : Overwrite :=
  ⟨w'.preimage.or w.preimage, w'.secret.or w.secret, w'.status.or w.status⟩

@[simp] theorem nothing_on (p : PaymentInfo) : nothing.on p = p := rfl

theorem getD_or {α : Type} (o o' : Option α) (x : α) : (o.or o').getD x = o.getD (o'.getD x) := by
  cases o <;> rfl

theorem getD_getD {α : Type} (o : Option α) (x : α) : o.getD (o.getD x) = o.getD x := by
  cases o <;> rfl

theorem andThen_on (w w' : Overwrite) (p : PaymentInfo) : (w.andThen w').on p = w'.on (w.on p) := by
  simp only [andThen, on, getD_or]

/-- A second time changes nothing. -/
theorem on_on (w : Overwrite) (p : PaymentInfo) : w.on (w.on p) = w.on p := by
  simp only [on, getD_getD]

end Overwrite

/-! ## The events and the ledgers -/

/-- The events of `handle_ldk_events` that change a ledger. -/
inductive LedgerEvent where
  | paymentClaimed (hash : PaymentHash) (purpose : PaymentPurpose) (amountMsat : UInt64)
  | paymentSent (preimage : PaymentPreimage) (id : PaymentId)
  | paymentFailed (id : PaymentId)

namespace LedgerEvent

/-- What the event does to the inbound ledger. -/
def onInbound (l : InboundPaymentInfoStorage) : LedgerEvent → InboundPaymentInfoStorage
  | .paymentClaimed hash purpose amountMsat => l.claim (claimOf hash purpose amountMsat)
  | _ => l

/-- What the event does to the outbound ledger. -/
def onOutbound (l : OutboundPaymentInfoStorage) : LedgerEvent → OutboundPaymentInfoStorage
  | .paymentSent preimage id => (LedgerUpdate.succeed id preimage).on l
  | .paymentFailed id => (LedgerUpdate.fail id).on l
  | _ => l

/-- The event is about the inbound ledger; the others are about the outbound one. -/
def isInbound : LedgerEvent → Bool
  | .paymentClaimed .. => true
  | _ => false

/-- The inbound record the event names. -/
def hash : LedgerEvent → Option PaymentHash
  | .paymentClaimed hash _ _ => some hash
  | _ => none

/-- The outbound record the event names. -/
def paymentId : LedgerEvent → Option PaymentId
  | .paymentSent _ id | .paymentFailed id => some id
  | _ => none

end LedgerEvent

/-! ### One record, any events -/

/-- The claim of a hash, as it acts on the record of that hash. -/
theorem lookup_claim_self (l : InboundPaymentInfoStorage) (c : Claim) :
    (l.claim c).lookup c.hash =
      some ((Overwrite.mk (some c.preimage) (some c.secret) (some .succeeded)).on
        ((l.lookup c.hash).getD ⟨c.preimage, c.secret, .succeeded, ⟨some c.amountMsat⟩⟩)) := by
  unfold InboundPaymentInfoStorage.claim
  cases l.lookup c.hash with
  | some info => simp [Overwrite.on]
  | none => simp [Overwrite.on]

/-- The inbound record of a hash is left alone, or else overwritten, a missing one
after `first` is put in its place. -/
def Acts (hash : PaymentHash) (f : InboundPaymentInfoStorage → InboundPaymentInfoStorage) : Prop :=
  (∀ l, (f l).lookup hash = l.lookup hash) ∨
  ∃ w : Overwrite, ∃ first, ∀ l, (f l).lookup hash = some (w.on ((l.lookup hash).getD first))

theorem acts_event (hash : PaymentHash) (e : LedgerEvent) : Acts hash (e.onInbound ·) := by
  cases e with
  | paymentClaimed h purpose amountMsat =>
      by_cases hh : hash = h
      · subst hh
        exact .inr ⟨_, _, fun l => lookup_claim_self l _⟩
      · exact .inl fun l => (l.lookup_claim _).2 hash hh
  | paymentSent preimage id => exact .inl fun l => rfl
  | paymentFailed id => exact .inl fun l => rfl

/-- What is done after a record was inserted overwrites that one. -/
theorem Acts.andThen {hash : PaymentHash}
    {f g : InboundPaymentInfoStorage → InboundPaymentInfoStorage} (hf : Acts hash f)
    (hg : Acts hash g) : Acts hash (g ∘ f) := by
  obtain hf | ⟨w, first, hf⟩ := hf
  · obtain hg | ⟨w, first, hg⟩ := hg
    · exact .inl fun l => (hg (f l)).trans (hf l)
    · refine .inr ⟨w, first, fun l => ?_⟩
      rw [Function.comp_apply, hg, hf]
  · refine .inr ?_
    obtain hg | ⟨w', first', hg⟩ := hg
    · exact ⟨w, first, fun l => (hg (f l)).trans (hf l)⟩
    · refine ⟨w.andThen w', first, fun l => ?_⟩
      rw [Function.comp_apply, hg, hf, Option.getD_some, Overwrite.andThen_on]

theorem acts_events (hash : PaymentHash) (es : List LedgerEvent) :
    Acts hash (es.foldl LedgerEvent.onInbound ·) := by
  induction es with
  | nil => exact .inl fun l => rfl
  | cons e es ih => exact (acts_event hash e).andThen ih

/-- One event overwrites the outbound record of an id, if there is one. -/
theorem lookup_event (id : PaymentId) (e : LedgerEvent) :
    ∃ w : Overwrite, ∀ l, (e.onOutbound l).lookup id = (l.lookup id).map w.on := by
  have kept : ∀ o : Option PaymentInfo, o = o.map Overwrite.nothing.on := by
    intro o
    cases o <;> rfl
  cases e with
  | paymentClaimed hash purpose amountMsat => exact ⟨.nothing, fun l => kept _⟩
  | paymentSent preimage i =>
      by_cases hi : id = i
      · refine ⟨⟨some (some preimage), none, some .succeeded⟩, fun l => ?_⟩
        rw [LedgerEvent.onOutbound, LedgerUpdate.lookup_succeed]
        simp only [hi, if_true]
        rfl
      · refine ⟨.nothing, fun l => ?_⟩
        simp [LedgerEvent.onOutbound, hi, ← kept]
  | paymentFailed i =>
      by_cases hi : id = i
      · refine ⟨⟨none, none, some .failed⟩, fun l => ?_⟩
        rw [LedgerEvent.onOutbound, LedgerUpdate.lookup_fail]
        simp only [hi, if_true]
        rfl
      · refine ⟨.nothing, fun l => ?_⟩
        simp [LedgerEvent.onOutbound, hi, ← kept]

/-- So do any events. -/
theorem lookup_onOutbound (id : PaymentId) (es : List LedgerEvent) :
    ∃ w : Overwrite, ∀ l,
      (es.foldl LedgerEvent.onOutbound l).lookup id = (l.lookup id).map w.on := by
  induction es with
  | nil =>
      refine ⟨.nothing, fun l => ?_⟩
      show l.lookup id = _
      cases l.lookup id <;> rfl
  | cons e es ih =>
      obtain ⟨w, hs⟩ := lookup_event id e
      obtain ⟨w', h⟩ := ih
      refine ⟨w.andThen w', fun l => ?_⟩
      rw [List.foldl_cons, h, hs, Option.map_map]
      congr 1
      funext p
      exact (Overwrite.andThen_on w w' p).symm

/-- A second pass over the same events finds every inbound record as it leaves it. -/
theorem inbound_twice (es : List LedgerEvent) (l : InboundPaymentInfoStorage) :
    (es.foldl LedgerEvent.onInbound (es.foldl LedgerEvent.onInbound l)).payments.Same
      (es.foldl LedgerEvent.onInbound l).payments := by
  intro hash
  show (es.foldl LedgerEvent.onInbound _).lookup hash = (es.foldl LedgerEvent.onInbound l).lookup hash
  obtain h | ⟨w, first, h⟩ := acts_events hash es
  · exact h _
  · have h : ∀ l, (es.foldl LedgerEvent.onInbound l).lookup hash =
        some (w.on ((l.lookup hash).getD first)) := h
    rw [h, h, Option.getD_some, Overwrite.on_on]

/-- The same of the outbound records. -/
theorem outbound_twice (es : List LedgerEvent) (l : OutboundPaymentInfoStorage) :
    (es.foldl LedgerEvent.onOutbound (es.foldl LedgerEvent.onOutbound l)).payments.Same
      (es.foldl LedgerEvent.onOutbound l).payments := by
  intro id
  show (es.foldl LedgerEvent.onOutbound _).lookup id = (es.foldl LedgerEvent.onOutbound l).lookup id
  obtain ⟨w, h⟩ := lookup_onOutbound id es
  rw [h, h, Option.map_map]
  congr 1
  funext p
  exact w.on_on p

/-- A record that is not there cannot fail. -/
theorem fail_missing {l : OutboundPaymentInfoStorage} {id : PaymentId} (h : ¬ l.Has id) :
    (LedgerUpdate.fail id).on l = l := by
  have hval : l.payments.mapVal (fun i p => if i = id then { p with status := .failed } else p) =
      l.payments := by
    refine AList.ext ?_
    show l.payments.entries.map _ = _
    refine (List.map_congr_left fun x hx => ?_).trans (List.map_id _)
    have hne : x.1 ≠ id := by
      rintro rfl
      exact h (AList.mem_keys.mpr (List.mem_map_of_mem hx))
    simp [Sigma.map, hne]
  exact congrArg OutboundPaymentInfoStorage.mk hval

/-! ## The handlers

Each runs with the mutex of its ledger and ends with the ledger written. -/

/-- Both ledgers, each with its file. -/
structure Ledgers (χ : Type) where
  inbound : InboundState
  outbound : LedgerState χ

/-- No task holds a mutex. -/
def Ledgers.Free {χ : Type} (s : Ledgers χ) : Prop :=
  s.inbound.holder = none ∧ s.outbound.holder = none

variable {χ : Type} (ci : Codec InboundPaymentInfoStorage) (co : Codec OutboundPaymentInfoStorage)
variable (m : Manager χ)

/-- The event task handles `e`. -/
def Handle (e : LedgerEvent) (s s' : Ledgers χ) : Prop :=
  match e with
  | .paymentClaimed hash purpose amountMsat =>
      Runs (Exec ci .events) (handlePaymentClaimed hash purpose amountMsat) s.inbound () s'.inbound ∧
        s'.outbound = s.outbound
  | .paymentSent preimage id =>
      (∃ out, Runs (ledgerExec co m .events) (handlePaymentSent preimage (some id)) s.outbound out
        s'.outbound) ∧ s'.inbound = s.inbound
  | .paymentFailed id =>
      (∃ out, Runs (ledgerExec co m .events) (handlePaymentFailed id) s.outbound out s'.outbound) ∧
        s'.inbound = s.inbound

/-- The event task handles the events one after another. -/
def HandleAll : List LedgerEvent → Ledgers χ → Ledgers χ → Prop
  | [], s, s' => s' = s
  | e :: es, s, s' => ∃ s₁, Handle ci co m e s s₁ ∧ HandleAll es s₁ s'

/-- The two ledgers after the events `es`: what the events make of them, and in
the files what is in memory if there was anything to write. -/
structure After (es : List LedgerEvent) (s s' : Ledgers χ) : Prop where
  free : s'.Free
  inbound : s'.inbound.ledger = es.foldl LedgerEvent.onInbound s.inbound.ledger
  outbound : s'.outbound.ledger = es.foldl LedgerEvent.onOutbound s.outbound.ledger
  inboundFile : s'.inbound.file =
    if es.any (·.isInbound) then some (ci.write s'.inbound.ledger) else s.inbound.file
  outboundFile : s'.outbound.file =
    if es.any (!·.isInbound) then some (co.write s'.outbound.ledger) else s.outbound.file

variable {ci co m}

theorem claimed_runs {hash : PaymentHash} {purpose : PaymentPurpose} {amountMsat : UInt64}
    {s s' : InboundState} :
    Runs (Exec ci .events) (handlePaymentClaimed hash purpose amountMsat) s () s' ↔
      s.holder = none ∧ s' =
        { s with
          ledger := s.ledger.claim (claimOf hash purpose amountMsat)
          holder := none
          file := some (ci.write (s.ledger.claim (claimOf hash purpose amountMsat)))
          claimed := claimOf hash purpose amountMsat :: s.claimed
          unwritten := none } := by
  constructor
  · intro h
    obtain ⟨_, _, ⟨hfree, rfl⟩, _, _, ⟨_, rfl⟩, bytes, _, ⟨_, rfl, rfl⟩, _, _, rfl, _, _,
      ⟨_, rfl⟩, _, rfl⟩ := h
    exact ⟨hfree, rfl⟩
  · rintro ⟨hfree, rfl⟩
    exact ⟨(), _, ⟨hfree, rfl⟩, (), _, ⟨rfl, rfl⟩, _, _, ⟨rfl, rfl, rfl⟩, (), _, rfl, (), _,
      ⟨rfl, rfl⟩, rfl, rfl⟩

/-- The outbound ledger is now `l`, in memory and in the file, and nobody holds it. -/
structure Wrote (co : Codec OutboundPaymentInfoStorage) (l : OutboundPaymentInfoStorage)
    (s : LedgerState χ) : Prop where
  free : s.holder = none
  ledger : s.ledger = l
  file : s.file = some (co.write l)

theorem sent_ends {preimage : PaymentPreimage} {id : PaymentId} {s : LedgerState χ} :
    Ends (ledgerExec co m .events) (handlePaymentSent preimage (some id)) s fun _ s' =>
      Wrote co ((LedgerUpdate.succeed id preimage).on s.ledger) s' := by
  intro out s' h
  obtain ⟨_, _, ⟨_, rfl⟩, _, _, ⟨_, rfl⟩, bytes, _, ⟨_, rfl, rfl⟩, _, _, rfl, _, _,
    ⟨_, rfl⟩, _, rfl⟩ := h
  exact ⟨rfl, rfl, rfl⟩

theorem failed_ends {id : PaymentId} {s : LedgerState χ} :
    Ends (ledgerExec co m .events) (handlePaymentFailed id) s fun _ s' =>
      Wrote co ((LedgerUpdate.fail id).on s.ledger) s' := by
  intro out s' h
  obtain ⟨_, _, ⟨_, rfl⟩, found, _, ⟨_, hfound, rfl⟩, h⟩ := h
  cases found with
  | true =>
      obtain ⟨_, _, ⟨_, rfl⟩, bytes, _, ⟨_, rfl, rfl⟩, _, _, rfl, _, _, ⟨_, rfl⟩, _, rfl⟩ := h
      exact ⟨rfl, rfl, rfl⟩
  | false =>
      obtain ⟨bytes, _, ⟨_, rfl, rfl⟩, _, _, rfl, _, _, ⟨_, rfl⟩, _, rfl⟩ := h
      have hsame : (LedgerUpdate.fail id).on s.ledger = s.ledger :=
        fail_missing (of_decide_eq_false hfound.symm)
      exact ⟨rfl, hsame.symm, by rw [hsame]; rfl⟩

/-- Both handlers come to their end. -/
theorem sent_runs {preimage : PaymentPreimage} {id : PaymentId} {s : LedgerState χ}
    (hfree : s.holder = none) :
    ∃ out s', Runs (ledgerExec co m .events) (handlePaymentSent preimage (some id)) s out s' :=
  ⟨.done, _, (), _, ⟨hfree, rfl⟩, (), _, ⟨rfl, rfl⟩, _, _, ⟨rfl, rfl, rfl⟩, (), _, rfl, (), _,
    ⟨rfl, rfl⟩, rfl, rfl⟩

theorem failed_runs {id : PaymentId} {s : LedgerState χ} (hfree : s.holder = none) :
    ∃ out s', Runs (ledgerExec co m .events) (handlePaymentFailed id) s out s' := by
  by_cases hid : s.ledger.Has id
  · exact ⟨.done, _, (), _, ⟨hfree, rfl⟩, true, _, ⟨rfl, (decide_eq_true hid).symm, rfl⟩, (), _,
      ⟨rfl, rfl⟩, _, _, ⟨rfl, rfl, rfl⟩, (), _, rfl, (), _, ⟨rfl, rfl⟩, rfl, rfl⟩
  · exact ⟨.done, _, (), _, ⟨hfree, rfl⟩, false, _, ⟨rfl, (decide_eq_false hid).symm, rfl⟩, _, _,
      ⟨rfl, rfl, rfl⟩, (), _, rfl, (), _, ⟨rfl, rfl⟩, rfl, rfl⟩

/-- An event that can be handled has been, and to the effect of `After`. -/
theorem handle_after {e : LedgerEvent} {s s' : Ledgers χ} (hs : s.Free)
    (h : Handle ci co m e s s') : After ci co [e] s s' := by
  cases e with
  | paymentClaimed hash purpose amountMsat =>
      obtain ⟨hr, ho⟩ := h
      obtain ⟨_, hi⟩ := claimed_runs.mp hr
      exact ⟨⟨by rw [hi], by rw [ho]; exact hs.2⟩, by rw [hi]; rfl, by rw [ho]; rfl,
        by rw [hi]; rfl, by rw [ho]; rfl⟩
  | paymentSent preimage id =>
      obtain ⟨⟨out, hr⟩, hi⟩ := h
      have hw := sent_ends _ _ hr
      exact ⟨⟨by rw [hi]; exact hs.1, hw.free⟩, by rw [hi]; rfl, hw.ledger, by rw [hi]; rfl,
        by rw [hw.file, hw.ledger]; rfl⟩
  | paymentFailed id =>
      obtain ⟨⟨out, hr⟩, hi⟩ := h
      have hw := failed_ends _ _ hr
      exact ⟨⟨by rw [hi]; exact hs.1, hw.free⟩, by rw [hi]; rfl, hw.ledger, by rw [hi]; rfl,
        by rw [hw.file, hw.ledger]; rfl⟩

theorem handle_runs (e : LedgerEvent) {s : Ledgers χ} (hs : s.Free) :
    ∃ s', Handle ci co m e s s' := by
  cases e with
  | paymentClaimed hash purpose amountMsat =>
      exact ⟨⟨_, s.outbound⟩, claimed_runs.mpr ⟨hs.1, rfl⟩, rfl⟩
  | paymentSent preimage id =>
      obtain ⟨out, s', hr⟩ := sent_runs hs.2
      exact ⟨⟨s.inbound, s'⟩, ⟨out, hr⟩, rfl⟩
  | paymentFailed id =>
      obtain ⟨out, s', hr⟩ := failed_runs hs.2
      exact ⟨⟨s.inbound, s'⟩, ⟨out, hr⟩, rfl⟩

/-! ### Runs of events -/

theorem inbound_alone {es : List LedgerEvent} (h : es.any (·.isInbound) = false)
    (l : InboundPaymentInfoStorage) : es.foldl LedgerEvent.onInbound l = l := by
  induction es with
  | nil => rfl
  | cons e es ih =>
      rw [List.any_cons, Bool.or_eq_false_iff] at h
      have he : e.onInbound l = l := by
        cases e with
        | paymentClaimed hash purpose amountMsat => simp [LedgerEvent.isInbound] at h
        | paymentSent preimage id => rfl
        | paymentFailed id => rfl
      rw [List.foldl_cons, he, ih h.2]

theorem outbound_alone {es : List LedgerEvent} (h : es.any (!·.isInbound) = false)
    (l : OutboundPaymentInfoStorage) : es.foldl LedgerEvent.onOutbound l = l := by
  induction es with
  | nil => rfl
  | cons e es ih =>
      rw [List.any_cons, Bool.or_eq_false_iff] at h
      have he : e.onOutbound l = l := by
        cases e with
        | paymentClaimed hash purpose amountMsat => rfl
        | paymentSent preimage id => simp [LedgerEvent.isInbound] at h
        | paymentFailed id => simp [LedgerEvent.isInbound] at h
      rw [List.foldl_cons, he, ih h.2]

/-- Events after events. -/
theorem After.append {es es' : List LedgerEvent} {s s₁ s' : Ledgers χ} (h : After ci co es s s₁)
    (h' : After ci co es' s₁ s') : After ci co (es ++ es') s s' := by
  refine ⟨h'.free, ?_, ?_, ?_, ?_⟩
  · rw [h'.inbound, h.inbound, List.foldl_append]
  · rw [h'.outbound, h.outbound, List.foldl_append]
  · rw [h'.inboundFile, h.inboundFile, List.any_append]
    cases hes' : es'.any (·.isInbound) with
    | true => simp
    | false => rw [h'.inbound, inbound_alone hes']; simp
  · rw [h'.outboundFile, h.outboundFile, List.any_append]
    cases hes' : es'.any (!·.isInbound) with
    | true => simp
    | false => rw [h'.outbound, outbound_alone hes']; simp

theorem handleAll_after {es : List LedgerEvent} :
    ∀ {s s' : Ledgers χ}, s.Free → HandleAll ci co m es s s' → After ci co es s s' := by
  induction es with
  | nil =>
      rintro s _ hs rfl
      exact ⟨hs, rfl, rfl, rfl, rfl⟩
  | cons e es ih =>
      rintro s s' hs ⟨s₁, h₁, h⟩
      have ha := handle_after hs h₁
      exact ha.append (ih ha.free h)

theorem handleAll_runs (es : List LedgerEvent) :
    ∀ {s : Ledgers χ}, s.Free → ∃ s', HandleAll ci co m es s s' := by
  induction es with
  | nil => exact fun {s} _ => ⟨s, rfl⟩
  | cons e es ih =>
      intro s hs
      obtain ⟨s₁, h₁⟩ := handle_runs e hs
      obtain ⟨s', h⟩ := ih (handle_after hs h₁).free
      exact ⟨s', s₁, h₁, h⟩

/-! ## The result -/

/-- As maps, both ledgers and what both files decode to are the same. -/
structure SameMaps (ci : Codec InboundPaymentInfoStorage) (co : Codec OutboundPaymentInfoStorage)
    (s s' : Ledgers χ) : Prop where
  inbound : s'.inbound.ledger.payments.Same s.inbound.ledger.payments
  outbound : s'.outbound.ledger.payments.Same s.outbound.ledger.payments
  inboundFile : (readInboundPaymentInfo ci s'.inbound.file).payments.Same
    (readInboundPaymentInfo ci s.inbound.file).payments
  outboundFile : (readOutboundPaymentInfo co s'.outbound.file).payments.Same
    (readOutboundPaymentInfo co s.outbound.file).payments

/-- The files hold what is in memory. -/
def Follows (ci : Codec InboundPaymentInfoStorage) (co : Codec OutboundPaymentInfoStorage)
    (s : Ledgers χ) : Prop :=
  readInboundPaymentInfo ci s.inbound.file = s.inbound.ledger ∧
    readOutboundPaymentInfo co s.outbound.file = s.outbound.ledger

/-- In memory no record differs but the one the event names, and the files go
with the memory. -/
structure ChangesOnlyNamed (ci : Codec InboundPaymentInfoStorage)
    (co : Codec OutboundPaymentInfoStorage) (e : LedgerEvent) (s s' : Ledgers χ) : Prop where
  inbound : ∀ hash, e.hash ≠ some hash →
    s'.inbound.ledger.lookup hash = s.inbound.ledger.lookup hash
  outbound : ∀ id, e.paymentId ≠ some id →
    s'.outbound.ledger.lookup id = s.outbound.ledger.lookup id
  follows : Follows ci co s → Follows ci co s'

theorem lookup_onInbound_ne {e : LedgerEvent} {hash : PaymentHash} (h : e.hash ≠ some hash)
    (l : InboundPaymentInfoStorage) : (e.onInbound l).lookup hash = l.lookup hash := by
  cases e with
  | paymentClaimed i purpose amountMsat =>
      exact (l.lookup_claim _).2 hash fun hi => h (congrArg some hi.symm)
  | paymentSent preimage id => rfl
  | paymentFailed id => rfl

theorem lookup_onOutbound_ne {e : LedgerEvent} {id : PaymentId} (h : e.paymentId ≠ some id)
    (l : OutboundPaymentInfoStorage) : (e.onOutbound l).lookup id = l.lookup id := by
  cases e with
  | paymentClaimed hash purpose amountMsat => rfl
  | paymentSent preimage i =>
      have hi : id ≠ i := fun hi => h (congrArg some hi.symm)
      simp [LedgerEvent.onOutbound, hi]
  | paymentFailed i =>
      have hi : id ≠ i := fun hi => h (congrArg some hi.symm)
      simp [LedgerEvent.onOutbound, hi]

/-- Files that hold the memory still do after any events. -/
theorem After.follows {es : List LedgerEvent} {s s' : Ledgers χ} (h : After ci co es s s')
    (hs : Follows ci co s) : Follows ci co s' := by
  constructor
  · rw [h.inboundFile]
    cases hes : es.any (·.isInbound) with
    | true => simp [readInboundPaymentInfo]
    | false =>
        rw [h.inbound, inbound_alone hes]
        exact hs.1
  · rw [h.outboundFile]
    cases hes : es.any (!·.isInbound) with
    | true => simp [readOutboundPaymentInfo]
    | false =>
        rw [h.outbound, outbound_alone hes]
        exact hs.2

theorem After.changesOnlyNamed {e : LedgerEvent} {s s' : Ledgers χ} (h : After ci co [e] s s') :
    ChangesOnlyNamed ci co e s s' where
  inbound hash hne := by
    rw [h.inbound]
    exact lookup_onInbound_ne hne _
  outbound id hne := by
    rw [h.outbound]
    exact lookup_onOutbound_ne hne _
  follows := h.follows

/-- What the second pass over `ys` leaves is what the first left. -/
theorem After.twice {xs ys : List LedgerEvent} {s s₁ s₂ : Ledgers χ}
    (h₁ : After ci co (xs ++ ys) s s₁) (h₂ : After ci co ys s₁ s₂) : SameMaps ci co s₁ s₂ := by
  have hi : s₂.inbound.ledger.payments.Same s₁.inbound.ledger.payments := by
    rw [h₂.inbound, h₁.inbound, List.foldl_append]
    exact inbound_twice ys _
  have ho : s₂.outbound.ledger.payments.Same s₁.outbound.ledger.payments := by
    rw [h₂.outbound, h₁.outbound, List.foldl_append]
    exact outbound_twice ys _
  refine ⟨hi, ho, ?_, ?_⟩
  · rw [h₂.inboundFile]
    cases hys : ys.any (·.isInbound) with
    | false => exact fun hash => rfl
    | true =>
        rw [h₁.inboundFile, List.any_append, hys]
        simpa [readInboundPaymentInfo] using hi
  · rw [h₂.outboundFile]
    cases hys : ys.any (!·.isInbound) with
    | false => exact fun id => rfl
    | true =>
        rw [h₁.outboundFile, List.any_append, hys]
        simpa [readOutboundPaymentInfo] using ho

/-- Handling `xs ++ ys` and then `ys` again comes to an end, and leaves both
ledgers and both files as handling `xs ++ ys` did; and no event changes a record
it does not name. -/
theorem replay_harmless (ci : Codec InboundPaymentInfoStorage)
    (co : Codec OutboundPaymentInfoStorage) (m : Manager χ) (s : Ledgers χ) (hs : s.Free)
    (xs ys : List LedgerEvent) :
    (∃ s₁ s₂, HandleAll ci co m (xs ++ ys) s s₁ ∧ HandleAll ci co m ys s₁ s₂) ∧
    (∀ s₁ s₂, HandleAll ci co m (xs ++ ys) s s₁ → HandleAll ci co m ys s₁ s₂ →
      SameMaps ci co s₁ s₂) ∧
    ∀ e s', Handle ci co m e s s' → ChangesOnlyNamed ci co e s s' := by
  refine ⟨?_, ?_, ?_⟩
  · obtain ⟨s₁, h₁⟩ := handleAll_runs (m := m) (xs ++ ys) hs
    obtain ⟨s₂, h₂⟩ := handleAll_runs (m := m) ys (handleAll_after hs h₁).free
    exact ⟨s₁, s₂, h₁, h₂⟩
  · intro s₁ s₂ h₁ h₂
    have ha := handleAll_after hs h₁
    exact ha.twice (handleAll_after ha.free h₂)
  · intro e s' h
    exact (handle_after hs h).changesOnlyNamed

/-- A payment claimed twice with different amounts, then one that succeeds after
it was said to have failed. -/
def claimedAndSent : List LedgerEvent :=
  [.paymentClaimed ⟨Vector.replicate 32 1⟩ (.spontaneousPayment ⟨Vector.replicate 32 2⟩) 1000,
    .paymentClaimed ⟨Vector.replicate 32 1⟩ (.spontaneousPayment ⟨Vector.replicate 32 2⟩) 2000,
    .paymentFailed (.filled 3), .paymentSent ⟨Vector.replicate 32 4⟩ (.filled 3)]

/-- A node with one pending payment, its ledgers not yet written. -/
def onePending : Ledgers Unit :=
  ⟨.new, { LedgerState.settled OutboundPaymentInfoStorage.codec
    ⟨AList.singleton (.filled 3) (plainRecord 1000)⟩ () with file := none }⟩

/-- A `ChannelManager` that answers anything; no handler asks it. -/
def anything : Manager Unit := ⟨fun _ _ _ _ => True, fun _ _ _ => True⟩

theorem replay_harmless_twice :
    ∃ s₁ s₂ : Ledgers Unit,
      HandleAll InboundPaymentInfoStorage.codec OutboundPaymentInfoStorage.codec anything
        claimedAndSent onePending s₁ ∧
      SameMaps InboundPaymentInfoStorage.codec OutboundPaymentInfoStorage.codec s₁ s₂ := by
  have h := replay_harmless InboundPaymentInfoStorage.codec OutboundPaymentInfoStorage.codec
    anything onePending ⟨rfl, rfl⟩ [] claimedAndSent
  obtain ⟨s₁, s₂, h₁, h₂⟩ := h.1
  exact ⟨s₁, s₂, h₁, h.2.1 s₁ s₂ h₁ h₂⟩

end Replay

end LightningNode
