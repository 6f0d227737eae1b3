/-
# `LightningNode.Ledger.Types` — the outbound payment ledger and what is sent

The records of `main.rs` (`HTLCStatus` to `OutboundPaymentInfoStorage`), the
parts of an invoice, an offer and an event that the payment code reads, and the
requests it hands to the `ChannelManager`.
-/
import LightningNode.HexUtils
import LightningNode.Lib.AssocList

namespace LightningNode

/-! ## Identifiers: all are `[u8; 32]` in LDK, a public key is 33 bytes -/

structure PaymentHash where
  bytes : Vector UInt8 32
  deriving DecidableEq

structure PaymentId where
  bytes : Vector UInt8 32
  deriving DecidableEq

structure PaymentPreimage where
  bytes : Vector UInt8 32
  deriving DecidableEq

structure PaymentSecret where
  bytes : Vector UInt8 32
  deriving DecidableEq

structure PublicKey where
  bytes : Vector UInt8 33
  deriving DecidableEq

/-- `PaymentId((*invoice.payment_hash()).to_byte_array())`. -/
def PaymentHash.toId (h : PaymentHash) : PaymentId := ⟨h.bytes⟩

/-! ## Records -/

inductive HTLCStatus where
  | pending
  | succeeded
  | failed
  deriving DecidableEq

structure MillisatAmount where
  amt : Option UInt64
  deriving DecidableEq

/-- `impl fmt::Display for MillisatAmount`. -/
def MillisatAmount.display : MillisatAmount → String
  | ⟨some amt⟩ => toString amt
  | ⟨none⟩ => "unknown"

structure PaymentInfo where
  preimage : Option PaymentPreimage
  secret : Option PaymentSecret
  status : HTLCStatus
  amtMsat : MillisatAmount
  deriving DecidableEq

/-- `payments` is a `HashMap`: no id twice, in some iteration order. -/
structure OutboundPaymentInfoStorage where
  payments : AList fun _ : PaymentId => PaymentInfo
  deriving DecidableEq

namespace OutboundPaymentInfoStorage

def empty : OutboundPaymentInfoStorage := ⟨∅⟩

def lookup (l : OutboundPaymentInfoStorage) (id : PaymentId) : Option PaymentInfo :=
  l.payments.lookup id

/-- There is a record of `id`. -/
def Has (l : OutboundPaymentInfoStorage) (id : PaymentId) : Prop := id ∈ l.payments

instance (l : OutboundPaymentInfoStorage) (id : PaymentId) : Decidable (l.Has id) :=
  inferInstanceAs (Decidable (id ∈ l.payments))

theorem has_iff {l : OutboundPaymentInfoStorage} {id : PaymentId} :
    l.Has id ↔ ∃ p, l.lookup id = some p := by
  rw [Has, ← AList.lookup_isSome, Option.isSome_iff_exists]; rfl

@[simp] theorem not_has_empty (id : PaymentId) : ¬ empty.Has id :=
  AList.notMem_empty id

/-- The record of `id` says the payment succeeded and carries the preimage `p`. -/
def Final (l : OutboundPaymentInfoStorage) (id : PaymentId) (p : PaymentPreimage) : Prop :=
  ∃ info, l.lookup id = some info ∧ info.status = .succeeded ∧ info.preimage = some p

/-- The record of `id` has the status `st`. -/
def HasStatus (l : OutboundPaymentInfoStorage) (id : PaymentId) (st : HTLCStatus) : Prop :=
  ∃ info, l.lookup id = some info ∧ info.status = st

end OutboundPaymentInfoStorage

/-- `payments` is a `HashMap`: no hash twice, in some iteration order. -/
structure InboundPaymentInfoStorage where
  payments : AList fun _ : PaymentHash => PaymentInfo
  deriving DecidableEq

/-! ## Changes of the ledger

The four ways the program changes a ledger it holds the lock of. -/

inductive LedgerUpdate where
  /-- `payments.insert(id, info)` -/
  | insert (id : PaymentId) (info : PaymentInfo)
  /-- `payments.get_mut(&id).unwrap().status = HTLCStatus::Failed` -/
  | fail (id : PaymentId)
  /-- the loop of `Event::PaymentSent` over `payments.iter_mut()` -/
  | succeed (id : PaymentId) (preimage : PaymentPreimage)
  /-- the loop of `start_ldk` over the `Pending` records -/
  | reconcile (recent : List PaymentId)

namespace LedgerUpdate

def on : LedgerUpdate → OutboundPaymentInfoStorage → OutboundPaymentInfoStorage
  | .insert id info, l => ⟨l.payments.insert id info⟩
  | .fail id, l =>
      ⟨l.payments.mapVal fun i p => if i = id then { p with status := .failed } else p⟩
  | .succeed id preimage, l =>
      ⟨l.payments.mapVal fun i p =>
        if i = id then { p with preimage := some preimage, status := .succeeded } else p⟩
  | .reconcile recent, l =>
      ⟨l.payments.mapVal fun i p =>
        if p.status = .pending ∧ i ∉ recent then { p with status := .failed } else p⟩

variable (l : OutboundPaymentInfoStorage) (id i : PaymentId)

@[simp] theorem lookup_insert (info : PaymentInfo) :
    ((insert id info).on l).lookup i = if i = id then some info else l.lookup i :=
  AList.lookup_insert_ite _ _ _ _

@[simp] theorem lookup_fail :
    ((fail id).on l).lookup i
      = (l.lookup i).map fun p => if i = id then { p with status := .failed } else p :=
  AList.lookup_mapVal _ _ _

@[simp] theorem lookup_succeed (preimage : PaymentPreimage) :
    ((succeed id preimage).on l).lookup i = (l.lookup i).map fun p =>
      if i = id then { p with preimage := some preimage, status := .succeeded } else p :=
  AList.lookup_mapVal _ _ _

@[simp] theorem lookup_reconcile (recent : List PaymentId) :
    ((reconcile recent).on l).lookup i = (l.lookup i).map fun p =>
      if p.status = .pending ∧ i ∉ recent then { p with status := .failed } else p :=
  AList.lookup_mapVal _ _ _

/-- No update removes a record. -/
theorem has_on (u : LedgerUpdate) {l : OutboundPaymentInfoStorage} {id : PaymentId}
    (h : l.Has id) : (u.on l).Has id := by
  cases u with
  | insert id' info => exact (AList.mem_insert _).mpr (Or.inr h)
  | fail id' => exact AList.mem_mapVal.mpr h
  | succeed id' p => exact AList.mem_mapVal.mpr h
  | reconcile recent => exact AList.mem_mapVal.mpr h

/-- Only `insert` adds a record, and only its own. -/
theorem has_of_on {u : LedgerUpdate} {l : OutboundPaymentInfoStorage} {id : PaymentId}
    (h : (u.on l).Has id) : l.Has id ∨ ∃ info, u = .insert id info := by
  cases u with
  | insert id' info =>
      rcases (AList.mem_insert _).mp h with rfl | h
      · exact Or.inr ⟨info, rfl⟩
      · exact Or.inl h
  | fail id' => exact Or.inl (AList.mem_mapVal.mp h)
  | succeed id' p => exact Or.inl (AList.mem_mapVal.mp h)
  | reconcile recent => exact Or.inl (AList.mem_mapVal.mp h)

end LedgerUpdate

/-! ## Invoices, offers and requests -/

/-- The parts of a `Bolt11Invoice` that `cli::send_payment` reads. -/
structure Bolt11Invoice where
  paymentHash : PaymentHash
  paymentSecret : PaymentSecret
  amountMilliSatoshis : Option UInt64
  payeePubKey : PublicKey
  deriving DecidableEq

/-- `offer::Amount`. -/
inductive OfferAmount where
  | bitcoin (amountMsats : UInt64)
  | currency (iso4217Code : String) (amount : UInt64)
  deriving DecidableEq

/-- An `Offer`: its text and the amount it asks for. -/
structure Offer where
  text : String
  amount : Option OfferAmount
  deriving DecidableEq

/-- `Retry::Timeout`, in seconds. -/
inductive Retry where
  | timeout (secs : Nat)
  deriving DecidableEq

structure RecipientOnionFields where
  paymentSecret : Option PaymentSecret
  deriving DecidableEq

structure RouteParameters where
  payee : PublicKey
  finalValueMsat : UInt64
  deriving DecidableEq

/-- What is handed to the `ChannelManager`: `send_payment`,
`send_spontaneous_payment_with_retry` and `pay_for_offer`. -/
inductive PayRequest where
  | sendPayment (hash : PaymentHash) (onion : RecipientOnionFields) (id : PaymentId)
      (route : RouteParameters) (retry : Retry)
  | sendSpontaneousPayment (preimage : Option PaymentPreimage) (onion : RecipientOnionFields)
      (id : PaymentId) (route : RouteParameters) (retry : Retry)
  | payForOffer (offer : Offer) (amtMsats : Option UInt64) (id : PaymentId) (retry : Retry)
  deriving DecidableEq

def PayRequest.id : PayRequest → PaymentId
  | .sendPayment _ _ id _ _ => id
  | .sendSpontaneousPayment _ _ id _ _ => id
  | .payForOffer _ _ id _ => id

/-- `RetryableSendFailure`, and `Bolt12SemanticError` by name. -/
inductive SendError where
  | paymentExpired
  | routeNotFound
  | duplicatePayment
  | onionPacketSizeExceeded
  | bolt12 (name : String)
  deriving DecidableEq

/-- The two events that end an outbound payment. -/
inductive PaymentEvent where
  | sent (preimage : PaymentPreimage) (id : Option PaymentId)
  | failed (id : PaymentId)
  deriving DecidableEq

end LightningNode
