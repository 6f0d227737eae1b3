/-
# `LightningNode.Ledger.Commands` — the programs that touch the outbound ledger

The three ways to pay (`cli.rs`), the two event handlers and the startup pass
(`main.rs`), as programs over the actions below.  One action is one thing the
other thread can see: taking or dropping the mutex, one change of the map under
it, one `encode`, one completed `fs_store.write`, one call of the
`ChannelManager`.

    sendPayment, keysend    the caller holds the mutex from before to after
    payOffer                takes it to insert, again inside `encode`, writes without it
    handlePaymentSent/…     take it first and keep it across `encode` and `write`
-/
import LightningNode.Ledger.Types
import LightningNode.Lib.Program

namespace LightningNode

open Conc

inductive LedgerAct where
  /-- `outbound_payments.lock().unwrap()` -/
  | lock
  /-- the guard goes out of scope -/
  | unlock
  /-- `payments.contains_key(&id)` -/
  | contains (id : PaymentId)
  /-- whether `payments.iter_mut()` yields nothing -/
  | isEmpty
  | update (u : LedgerUpdate)
  /-- `outbound_payments.encode()` -/
  | encode
  /-- `fs_store.write("", "", OUTBOUND_PAYMENTS_FNAME, &bytes).unwrap()` -/
  | write (bytes : Bytes)
  /-- a call of the `ChannelManager` that starts a payment -/
  | send (req : PayRequest)
  /-- `disk::read_outbound_payment_info` into a new mutex -/
  | load
  /-- the ids in `channel_manager.list_recent_payments()` -/
  | listRecentPayments

namespace LedgerAct

/-- What each action answers. -/
abbrev Answer : LedgerAct → Type
  | lock | unlock | update _ | write _ | load => Unit
  | contains _ | isEmpty => Bool
  | encode => Bytes
  | send _ => Except SendError Unit
  | listRecentPayments => List PaymentId

end LedgerAct

/-- How a command or a handler ended: what it printed, or that it panicked
(`panic = "abort"`: the process ends there). -/
inductive Outcome where
  | done
  | needAmount
  | amountMismatch (msat : UInt64)
  | invoiceRejected
  | nonBitcoinOffer (amount : Option OfferAmount)
  | offerMismatch (msat : UInt64)
  | initiated (msat : UInt64) (payee : PublicKey)
  | sendFailed (e : SendError)
  | offerFailed (e : SendError)
  | panicked
  deriving DecidableEq

abbrev LedgerProg := Prog LedgerAct LedgerAct.Answer

namespace LedgerProg

def act (a : LedgerAct) : LedgerProg a.Answer := Prog.perform a

end LedgerProg

open LedgerProg LedgerAct

/-! ## Recording a payment and sending it -/

/-- `fs_store.write("", "", OUTBOUND_PAYMENTS_FNAME, &outbound_payments.encode()).unwrap()`. -/
def persist : LedgerProg Unit := do
  let bytes ← act .encode
  act (.write bytes)

/-- What `send_payment` and `keysend` do once they know what to send: insert
the record, write the ledger, send, and on an error mark the record failed and
write again.  `sent` is how the command ends when the send is accepted. -/
def recordAndSend (info : PaymentInfo) (req : PayRequest) (sent : Outcome) :
    LedgerProg Outcome := do
  act (.update (.insert req.id info))
  persist
  match ← act (.send req) with
  | .ok _ => return sent
  | .error e =>
      -- `get_mut(&payment_id).unwrap()`
      if ← act (.contains req.id) then
        act (.update (.fail req.id))
        persist
        return .sendFailed e
      else
        return .panicked

/-! ### `cli::send_payment` -/

/-- What a payment is made with. -/
abbrev PaymentParameters := PaymentHash × RecipientOnionFields × RouteParameters

/-- What the commands call outside this repository: `Sha256::hash`, and LDK's
`payment_parameters_from_invoice` and `payment_parameters_from_zero_amount_invoice`.
Of the two it is documented that they are for the invoice's own payment hash; that
the first uses the invoice's amount, and so fails without one; that the second uses
the amount given, and succeeds unless the invoice has one. -/
structure Ldk where
  sha256 : Vector UInt8 32 → Vector UInt8 32
  paymentParametersFromInvoice : Bolt11Invoice → Option PaymentParameters
  paymentParametersFromZeroAmountInvoice : Bolt11Invoice → UInt64 → Option PaymentParameters
  from_invoice : ∀ {invoice hash onion route},
    paymentParametersFromInvoice invoice = some (hash, onion, route) →
      hash = invoice.paymentHash ∧ invoice.amountMilliSatoshis = some route.finalValueMsat
  from_zero_amount_invoice : ∀ {invoice amt hash onion route},
    paymentParametersFromZeroAmountInvoice invoice amt = some (hash, onion, route) →
      hash = invoice.paymentHash ∧ invoice.amountMilliSatoshis = none ∧ route.finalValueMsat = amt
  zero_amount_accepted : ∀ {invoice}, invoice.amountMilliSatoshis = none → ∀ amt,
    (paymentParametersFromZeroAmountInvoice invoice amt).isSome

/-- One that does just this. -/
def Ldk.plain (sha256 : Vector UInt8 32 → Vector UInt8 32) : Ldk where
  sha256 := sha256
  paymentParametersFromInvoice invoice :=
    invoice.amountMilliSatoshis.map fun amt =>
      (invoice.paymentHash, ⟨some invoice.paymentSecret⟩, ⟨invoice.payeePubKey, amt⟩)
  paymentParametersFromZeroAmountInvoice invoice amt :=
    match invoice.amountMilliSatoshis with
    | some _ => none
    | none => some (invoice.paymentHash, ⟨some invoice.paymentSecret⟩, ⟨invoice.payeePubKey, amt⟩)
  from_invoice := by
    intro invoice hash onion route h
    obtain ⟨amt, hamt, heq⟩ := Option.map_eq_some_iff.mp h
    cases heq
    exact ⟨rfl, hamt⟩
  from_zero_amount_invoice := by
    intro invoice amt hash onion route h
    cases hamt : invoice.amountMilliSatoshis with
    | some a =>
        rw [hamt] at h
        cases h
    | none =>
        rw [hamt] at h
        cases h
        exact ⟨rfl, rfl, rfl⟩
  zero_amount_accepted := by
    intro invoice h amt
    rw [h]
    rfl

/-- Lines 759 to 788 of `send_payment`: what to send, or the early return. -/
def sendPaymentParams (ldk : Ldk) (invoice : Bolt11Invoice) (requiredAmountMsat : Option UInt64) :
    Except Outcome PaymentParameters :=
  let zeroAmtInvoice :=
    invoice.amountMilliSatoshis.isNone || invoice.amountMilliSatoshis == some 0
  if zeroAmtInvoice then
    match requiredAmountMsat with
    | some amt =>
        match ldk.paymentParametersFromZeroAmountInvoice invoice amt with
        | some res => .ok res
        | none => .error .invoiceRejected
    | none => .error .needAmount
  else if requiredAmountMsat.isSome ∧ invoice.amountMilliSatoshis ≠ requiredAmountMsat then
    .error (.amountMismatch (invoice.amountMilliSatoshis.getD 0))
  else
    match ldk.paymentParametersFromInvoice invoice with
    | some res => .ok res
    | none => .error .invoiceRejected

/-- Where the parameters come from: the amount the user gave, or the invoice's own,
which is not contradicted. -/
theorem sendPaymentParams_ok {ldk : Ldk} {invoice : Bolt11Invoice} {user : Option UInt64}
    {res : PaymentParameters} (h : sendPaymentParams ldk invoice user = .ok res) :
    (∃ amt, user = some amt ∧ ldk.paymentParametersFromZeroAmountInvoice invoice amt = some res) ∨
      (ldk.paymentParametersFromInvoice invoice = some res ∧
        invoice.amountMilliSatoshis ≠ some 0 ∧
        (user = none ∨ user = invoice.amountMilliSatoshis)) := by
  unfold sendPaymentParams at h
  simp only at h
  split at h
  · cases user with
    | none => cases h
    | some amt =>
        simp only at h
        cases hres : ldk.paymentParametersFromZeroAmountInvoice invoice amt with
        | none =>
            rw [hres] at h
            cases h
        | some res' =>
            rw [hres] at h
            cases h
            exact Or.inl ⟨amt, rfl, hres⟩
  · rename_i hzero
    split at h
    · cases h
    · rename_i huser
      cases hres : ldk.paymentParametersFromInvoice invoice with
      | none =>
          rw [hres] at h
          cases h
      | some res' =>
          rw [hres] at h
          cases h
          refine Or.inr ⟨rfl, fun h0 => hzero (by rw [h0]; rfl), ?_⟩
          cases user with
          | none => exact Or.inl rfl
          | some amt => exact Or.inr (by_contra fun hne => huser ⟨rfl, Ne.symm hne⟩)

/-- The record `send_payment` inserts. -/
def invoiceRecord (invoice : Bolt11Invoice) : PaymentInfo where
  preimage := none
  secret := some invoice.paymentSecret
  status := .pending
  amtMsat := ⟨invoice.amountMilliSatoshis⟩

/-- `cli::send_payment`.  The success message unwraps the invoice's amount
again, so an accepted payment of an invoice without one ends in a panic. -/
def sendPayment (ldk : Ldk) (invoice : Bolt11Invoice) (requiredAmountMsat : Option UInt64) :
    LedgerProg Outcome :=
  match sendPaymentParams ldk invoice requiredAmountMsat with
  | .error out => return out
  | .ok (hash, onion, route) =>
      recordAndSend (invoiceRecord invoice)
        (.sendPayment hash onion invoice.paymentHash.toId route (.timeout 10))
        (match invoice.amountMilliSatoshis with
          | some amt => .initiated amt invoice.payeePubKey
          | none => .panicked)

/-! ### `cli::keysend` -/

/-- The record `keysend` and the offer branch insert. -/
def plainRecord (amtMsat : UInt64) : PaymentInfo where
  preimage := none
  secret := none
  status := .pending
  amtMsat := ⟨some amtMsat⟩

/-- `cli::keysend`; `randomBytes` is the answer of `get_secure_random_bytes`. -/
def keysend (sha256 : Vector UInt8 32 → Vector UInt8 32) (payee : PublicKey) (amtMsat : UInt64)
    (randomBytes : Vector UInt8 32) : LedgerProg Outcome :=
  recordAndSend (plainRecord amtMsat)
    (.sendSpontaneousPayment (some ⟨randomBytes⟩) ⟨none⟩ ⟨sha256 randomBytes⟩ ⟨payee, amtMsat⟩
      (.timeout 10))
    (.initiated amtMsat payee)

/-! ### The offer branch of `sendpayment` -/

/-- Lines 174 to 185: the amount to pay for an offer, or the early `continue`. -/
def offerAmountMsat (offer : Offer) (userProvidedAmt : Option UInt64) : Except Outcome UInt64 :=
  let amtMsat : Except Outcome UInt64 :=
    match offer.amount, userProvidedAmt with
    | some (.bitcoin amountMsats), _ => .ok amountMsats
    | _, some amt => .ok amt
    | amt, _ => .error (.nonBitcoinOffer amt)
  match amtMsat with
  | .error out => .error out
  | .ok amt =>
      if userProvidedAmt.isSome ∧ userProvidedAmt ≠ some amt then .error (.offerMismatch amt)
      else .ok amt

/-- Lines 209 to 228: insert under the mutex, `encode` under the mutex again,
write and pay with no lock held.  A refused offer is only reported. -/
def payOffer (offer : Offer) (paymentId : PaymentId) (amtMsat : UInt64) : LedgerProg Outcome := do
  act .lock
  act (.update (.insert paymentId (plainRecord amtMsat)))
  act .unlock
  act .lock
  let bytes ← act .encode
  act .unlock
  act (.write bytes)
  match ← act (.send (.payForOffer offer (some amtMsat) paymentId (.timeout 10))) with
  | .ok _ => return .done
  | .error e => return .offerFailed e

/-! ## The commands of `poll_for_user_input` -/

/-- A payment command, with what the environment supplied to it. -/
inductive PayCommand where
  | invoice (invoice : Bolt11Invoice) (userProvidedAmt : Option UInt64)
  | offer (offer : Offer) (userProvidedAmt : Option UInt64) (randomBytes : Vector UInt8 32)
  | keysend (payee : PublicKey) (amtMsat : UInt64) (randomBytes : Vector UInt8 32)
  deriving DecidableEq

/-- `f(&mut outbound_payments.lock().unwrap())`: the guard lives to the end of
the statement.  A panic aborts the process with the mutex still taken. -/
def withOutbound (body : LedgerProg Outcome) : LedgerProg Outcome := do
  act .lock
  match ← body with
  | .panicked => return .panicked
  | out => do
      act .unlock
      return out

def PayCommand.program (ldk : Ldk) : PayCommand → LedgerProg Outcome
  | .invoice inv amt => withOutbound (sendPayment ldk inv amt)
  | .keysend payee amt bytes => withOutbound (LightningNode.keysend ldk.sha256 payee amt bytes)
  | .offer o amt bytes =>
      match offerAmountMsat o amt with
      | .error out => return out
      | .ok msat => payOffer o ⟨bytes⟩ msat

/-! ## The event handlers -/

/-- `Event::PaymentSent`.  `payment_id.unwrap()` is evaluated once per record. -/
def handlePaymentSent (preimage : PaymentPreimage) (paymentId : Option PaymentId) :
    LedgerProg Outcome := do
  act .lock
  match paymentId with
  | some id =>
      act (.update (.succeed id preimage))
      persist
      act .unlock
      return .done
  | none =>
      if ← act .isEmpty then
        persist
        act .unlock
        return .done
      else
        return .panicked

/-- `Event::PaymentFailed`. -/
def handlePaymentFailed (paymentId : PaymentId) : LedgerProg Outcome := do
  act .lock
  if ← act (.contains paymentId) then
    act (.update (.fail paymentId))
  persist
  act .unlock
  return .done

def PaymentEvent.program : PaymentEvent → LedgerProg Outcome
  | .sent preimage id => handlePaymentSent preimage id
  | .failed id => handlePaymentFailed id

/-! ## Startup -/

/-- Lines 977 to 1003 of `start_ldk`: load the ledger, fail the pending records
the `ChannelManager` does not list, write the result. -/
def reconcileOutbound : LedgerProg Outcome := do
  act .load
  let recent ← act .listRecentPayments
  act .lock
  act (.update (.reconcile recent))
  act .unlock
  act .lock
  persist
  act .unlock
  return .done

end LightningNode
