/-
# `LightningNode.Ledger.Recorded` — what the ledger says of a payment handed over

Two questions about the three ways to pay, alone with the ledger:

    refused      which of them leave the record failed
    any answer   for which invoices the record has the amount that is paid

`send_payment` and `keysend` mark a refused payment, the offer branch does not;
and `send_payment` records the invoice's amount, which need not be there.
-/
import LightningNode.Ledger.Sendpayment

namespace LightningNode

open Conc

namespace Sendpayment

/-! ## Refused payments -/

/-- A `ChannelManager` with the given answers; what was handed over is kept, last
one first. -/
def answering (answer : PayRequest → Except SendError Unit) : Manager (List PayRequest) where
  send handed req r handed' := r = answer req ∧ handed' = req :: handed
  recent handed _ handed' := handed' = handed

/-- A command that may pay. -/
inductive Command where
  | sendpayment (line : String) (input : List ReadLine) (randomBytes : Vector UInt8 32)
  | keysend (payee : PublicKey) (amtMsat : UInt64) (randomBytes : Vector UInt8 32)

def Command.program (parse : Parsers) (ldk : Ldk) : Command → LedgerProg Ending
  | .sendpayment line input randomBytes => Sendpayment.sendpayment parse ldk line input randomBytes
  | .keysend payee amtMsat randomBytes => do
      let out ← withOutbound (LightningNode.keysend ldk.sha256 payee amtMsat randomBytes)
      return .paid out

/-- The first word of the command is an offer. -/
def Command.IsOffer (parse : Parsers) : Command → Prop
  | .sendpayment line _ _ =>
      ∃ word words, (Text.splitWhitespace line).tail = word :: words ∧ (parse.offer word).isSome
  | .keysend .. => False

/-- One new record, failed; the others as they were; and all of it in the file. -/
structure RecordedFailed (codec : Codec OutboundPaymentInfoStorage) (id : PaymentId)
    (s s' : LedgerState (List PayRequest)) : Prop where
  new : ¬ s.ledger.Has id
  failed : s'.ledger.HasStatus id .failed
  others : ∀ i, i ≠ id → s'.ledger.lookup i = s.ledger.lookup i
  file : s'.FileFollows codec

variable {codec : Codec OutboundPaymentInfoStorage} {s s' : LedgerState (List PayRequest)}

/-- Of a payment attempted the status is all that is left to say. -/
theorem recordedFailed_of_attempted {m : Manager (List PayRequest)} {info : PaymentInfo}
    {req : PayRequest} {r : Except SendError Unit} (h : Attempted codec m info req r s s')
    (hnew : ¬ s.ledger.Has req.id) (hst : s'.ledger.HasStatus req.id .failed) :
    RecordedFailed codec req.id s s' :=
  ⟨hnew, hst, h.others, ⟨_, h.file, codec.decode_write _⟩⟩

theorem not_failed_of_pending {l : OutboundPaymentInfoStorage} {id : PaymentId}
    (h : l.HasStatus id .pending) : ¬ l.HasStatus id .failed := by
  rintro ⟨info, hl, hst⟩
  obtain ⟨info', hl', hst'⟩ := h
  obtain rfl := Option.some.inj (hl.symm.trans hl')
  rw [hst] at hst'
  cases hst'

/-- `keysend` ends with the payment attempted, and failed if it is refused. -/
theorem keysend_ends {m : Manager (List PayRequest)} {sha256 : Vector UInt8 32 → Vector UInt8 32}
    {payee : PublicKey} {amtMsat : UInt64} {randomBytes : Vector UInt8 32} :
    Ends (ledgerExec codec m .cli) (withOutbound (keysend sha256 payee amtMsat randomBytes)) s
      fun _ s' => ∃ req r, Attempted codec m (plainRecord amtMsat) req r s s' ∧
        ∀ e, r = .error e → s'.ledger.HasStatus req.id .failed := by
  refine withOutbound_ends (recordAndSend_ends.mono ?_) ?_
  · rintro out s' ⟨r, ha, hout⟩
    refine ⟨_, r, ⟨ha.send, ha.file, ha.record, ha.others⟩, ?_⟩
    rintro e rfl
    exact hout.2
  · rintro out s' ⟨req, r, ha, hst⟩
    exact ⟨req, r, ⟨ha.send, ha.file, ha.record, ha.others⟩, hst⟩

/-- A request refused of an id not recorded before leaves one new record that
failed if, and only if, it was not the offer branch that made it. -/
theorem refused_recorded_iff (codec : Codec OutboundPaymentInfoStorage) (parse : Parsers)
    (ldk : Ldk) (e : SendError) (c : Command) (ending : Ending)
    (s s' : LedgerState (List PayRequest))
    (h : Runs (ledgerExec codec (answering fun _ => .error e) .cli) (c.program parse ldk) s ending
      s')
    (req : PayRequest) (hreq : s'.node = req :: s.node) (hnew : ¬ s.ledger.Has req.id) :
    RecordedFailed codec req.id s s' ↔ ¬ c.IsOffer parse := by
  have same : ∀ {req' : PayRequest}, s'.node = req' :: s.node → req' = req := by
    intro req' h'
    exact (List.cons.inj (h'.symm.trans hreq)).1
  cases c with
  | keysend payee amtMsat randomBytes =>
      obtain ⟨out, s₁, hrun, _, rfl⟩ := runs_bind.mp h
      obtain ⟨req', r, ha, hst⟩ := keysend_ends _ _ hrun
      obtain ⟨hr, hnode⟩ := ha.send
      obtain rfl := same hnode
      exact ⟨fun _ => id, fun _ => recordedFailed_of_attempted ha hnew (hst e hr)⟩
  | sendpayment line input randomBytes =>
      obtain rfl | ⟨word, words, user, out, hwords, huser, hpays⟩ := sendpayment_runs h
      · exact absurd (congrArg List.length hreq) (by simp)
      obtain ⟨offer, a, hoffer, hamt, hrun⟩ | ⟨hno, invoice, hinvoice, hrun⟩ := hpays
      · obtain ⟨r, ha, hst⟩ := payOffer_ends _ _ hrun
        obtain rfl := same ha.send.2
        refine ⟨fun hf => absurd hf.failed (not_failed_of_pending hst), fun hn => ?_⟩
        exact absurd ⟨word, words, hwords, by rw [hoffer]; rfl⟩ hn
      · obtain hu | ⟨hash, onion, route, r, hp, ha, hst⟩ := withOutbound_sendPayment_ends _ _ hrun
        · exact absurd (congrArg List.length (hreq.symm.trans hu.node)) (by simp)
        · obtain rfl := same ha.send.2
          refine ⟨fun _ => ?_, fun _ => recordedFailed_of_attempted ha hnew (hst e ha.send.1)⟩
          rintro ⟨word', words', hwords', hsome⟩
          obtain ⟨rfl, rfl⟩ := List.cons.inj (hwords.symm.trans hwords')
          rw [hno] at hsome
          cases hsome

/-! ### Runs with the actions executable -/

/-- The actions with the given answers. -/
def playAnswer (answer : PayRequest → Except SendError Unit) (a : LedgerAct)
    (s : LedgerState (List PayRequest)) : Option (a.Answer × LedgerState (List PayRequest)) :=
  ledgerStep OutboundPaymentInfoStorage.codec (fun n req => (answer req, req :: n))
    (fun n => ([], n)) .cli a s

theorem playAnswer_exec (answer : PayRequest → Except SendError Unit) (a : LedgerAct)
    (s : LedgerState (List PayRequest)) (r : a.Answer) (s' : LedgerState (List PayRequest))
    (h : playAnswer answer a s = some (r, s')) :
    ledgerExec OutboundPaymentInfoStorage.codec (answering answer) .cli a s r s' := by
  refine ledgerExec_of_step (m := answering answer) ?_ ?_ h
  · intro n req
    exact ⟨rfl, rfl⟩
  · intro n
    exact rfl

/-- Every request refused. -/
def noRoute : PayRequest → Except SendError Unit := fun _ => .error .routeNotFound

/-- A ledger without records, in its file. -/
def noPayments : LedgerState (List PayRequest) :=
  .settled OutboundPaymentInfoStorage.codec .empty []

/-- An invoice refused is recorded as failed. -/
theorem refused_recorded_invoice :
    ∃ s', Runs (ledgerExec OutboundPaymentInfoStorage.codec (answering noRoute) .cli)
      (Command.program twoWords (.plain id)
        (.sendpayment "sendpayment lnbc 5\n" [] (.replicate 32 4)))
      noPayments (.paid (.sendFailed .routeNotFound)) s' ∧
      RecordedFailed OutboundPaymentInfoStorage.codec (.filled 1) noPayments s' := by
  have hrun := runs_of_run (playAnswer_exec noRoute)
    (p := Command.program twoWords (.plain id)
      (.sendpayment "sendpayment lnbc 5\n" [] (Vector.replicate 32 4)))
    (s := noPayments) (x := Ending.paid (.sendFailed .routeNotFound)) rfl
  refine ⟨_, hrun, ?_⟩
  refine (refused_recorded_iff _ _ _ _ _ _ _ _ hrun _ rfl (by decide)).mpr ?_
  rintro ⟨word, words, hwords, hsome⟩
  obtain ⟨rfl, _⟩ := List.cons.inj (show ["lnbc", "5"] = word :: words from hwords)
  exact absurd hsome (by decide)

/-- An offer refused is not: its record stays pending. -/
theorem offer_refused_stays_pending :
    ∃ s', Runs (ledgerExec OutboundPaymentInfoStorage.codec (answering noRoute) .cli)
      (Command.program twoWords (.plain id)
        (.sendpayment "sendpayment lno 1000\n" [] (.replicate 32 4)))
      noPayments (.paid (.offerFailed .routeNotFound)) s' ∧
      ¬ noPayments.ledger.Has (.filled 4) ∧ s'.node.map PayRequest.id = [.filled 4] ∧
      s'.ledger.HasStatus (.filled 4) .pending ∧
      ¬ RecordedFailed OutboundPaymentInfoStorage.codec (.filled 4) noPayments s' := by
  have hrun := runs_of_run (playAnswer_exec noRoute)
    (p := Command.program twoWords (.plain id)
      (.sendpayment "sendpayment lno 1000\n" [] (Vector.replicate 32 4)))
    (s := noPayments) (x := Ending.paid (.offerFailed .routeNotFound)) rfl
  refine ⟨_, hrun, by decide, rfl, ?_⟩
  have hpending : (LedgerUpdate.on (.insert (.filled 4) (plainRecord 1000)) .empty).HasStatus
      (.filled 4) .pending := ⟨plainRecord 1000, rfl, rfl⟩
  exact ⟨hpending, fun hf => not_failed_of_pending hpending hf.failed⟩

/-! ## Amounts recorded -/

/-- `cli::send_payment`, called with the mutex held, returns without a panic, and
the record of what it hands over has the amount that is paid. -/
structure RecordsAmount (codec : Codec OutboundPaymentInfoStorage) (ldk : Ldk)
    (answer : PayRequest → Except SendError Unit) (invoice : Bolt11Invoice) (user : Option UInt64)
    (s : LedgerState (List PayRequest)) : Prop where
  returns : ∃ out s',
    Runs (ledgerExec codec (answering answer) .cli) (sendPayment ldk invoice user) s out s'
  no_panic : Ends (ledgerExec codec (answering answer) .cli) (sendPayment ldk invoice user) s
    fun out _ => out ≠ .panicked
  amount : Ends (ledgerExec codec (answering answer) .cli) (sendPayment ldk invoice user) s
    fun _ s' => ∀ req, s'.node = req :: s.node → ∃ info a,
      s'.ledger.lookup req.id = some info ∧ amountMsat req = some a ∧ info.amtMsat = ⟨some a⟩

/-- With the mutex held nothing keeps `send_payment` from its end. -/
theorem sendPayment_returns (codec : Codec OutboundPaymentInfoStorage) (ldk : Ldk)
    (answer : PayRequest → Except SendError Unit) (invoice : Bolt11Invoice) (user : Option UInt64)
    {s : LedgerState (List PayRequest)} (hh : s.holder = some .cli) :
    ∃ out s', Runs (ledgerExec codec (answering answer) .cli) (sendPayment ldk invoice user) s out
      s' := by
  unfold sendPayment
  cases sendPaymentParams ldk invoice user with
  | error out => exact ⟨out, s, rfl, rfl⟩
  | ok res => exact recordAndSend_returns hh fun n req => ⟨answer req, req :: n, rfl, rfl⟩

/-- An amount given for an invoice without one is accepted. -/
theorem sendPaymentParams_open {ldk : Ldk} {invoice : Bolt11Invoice}
    (h : invoice.amountMilliSatoshis = none) (a : UInt64) :
    ∃ res, sendPaymentParams ldk invoice (some a) = .ok res := by
  obtain ⟨res, hres⟩ := Option.isSome_iff_exists.mp (ldk.zero_amount_accepted h a)
  refine ⟨res, ?_⟩
  simp only [sendPaymentParams, h, hres, Option.isNone_none, Bool.true_or, if_true]

/-- `send_payment` returns and records what it sends if, and only if, it is not
given an amount for an invoice without one. -/
theorem records_amount_iff (codec : Codec OutboundPaymentInfoStorage) (ldk : Ldk)
    (answer : PayRequest → Except SendError Unit) (invoice : Bolt11Invoice) (user : Option UInt64)
    (s : LedgerState (List PayRequest)) (hh : s.holder = some .cli) :
    RecordsAmount codec ldk answer invoice user s ↔
      ¬ (invoice.amountMilliSatoshis = none ∧ user ≠ none) := by
  constructor
  · rintro h ⟨hnone, huser⟩
    obtain ⟨a, rfl⟩ := Option.ne_none_iff_exists'.mp huser
    obtain ⟨out, s', hrun⟩ := h.returns
    obtain ⟨_, herror⟩ | ⟨hash, onion, route, r, hp, ha, _⟩ := sendPayment_ends _ _ hrun
    · obtain ⟨res, hres⟩ : ∃ res, sendPaymentParams ldk invoice (some a) = .ok res :=
        sendPaymentParams_open hnone a
      cases hres.symm.trans herror
    · obtain ⟨info, b, hinfo, _, hb⟩ := h.amount _ _ hrun _ ha.send.2
      obtain ⟨st, hrec⟩ := ha.record
      obtain rfl := Option.some.inj (hrec.symm.trans hinfo)
      rw [invoiceRecord, hnone] at hb
      cases hb
  · intro hcond
    have hasked : ∀ {hash onion route},
        sendPaymentParams ldk invoice user = .ok (hash, onion, route) →
        invoice.amountMilliSatoshis = some route.finalValueMsat := by
      intro hash onion route hp
      obtain ⟨_, hagreed⟩ := sendPaymentParams_agreed hp
      cases hamt : invoice.amountMilliSatoshis with
      | some b =>
          rw [hamt] at hagreed
          exact congrArg some hagreed.1.symm
      | none =>
          rw [hamt] at hagreed
          exact absurd ⟨hamt, by rw [show user = some _ from hagreed]; nofun⟩ hcond
    refine ⟨sendPayment_returns codec ldk answer invoice user hh, ?_, ?_⟩
    · intro out s' hrun
      obtain ⟨_, herror⟩ | ⟨hash, onion, route, r, hp, _, hout⟩ := sendPayment_ends _ _ hrun
      · rintro rfl
        exact sendPaymentParams_ne_panicked herror
      · cases r with
        | ok _ =>
            rw [hasked hp] at hout
            rw [hout]
            nofun
        | error e =>
            rw [hout.1]
            nofun
    · intro out s' hrun req hreq
      obtain ⟨hu, _⟩ | ⟨hash, onion, route, r, hp, ha, _⟩ := sendPayment_ends _ _ hrun
      · exact absurd (congrArg List.length (hreq.symm.trans hu.node)) (by simp)
      · obtain rfl := (List.cons.inj (ha.send.2.symm.trans hreq)).1
        obtain ⟨st, hrec⟩ := ha.record
        exact ⟨_, route.finalValueMsat, hrec, rfl, congrArg MillisatAmount.mk (hasked hp)⟩

/-- The invoice over nothing, with 5 msat given: the payment is accepted, the
record has no amount, and the node panics. -/
theorem open_invoice_panics :
    ∃ s', Runs (ledgerExec OutboundPaymentInfoStorage.codec (answering fun _ => .ok ()) .cli)
        (sendPayment (.plain id) openInvoice (some 5)) { noPayments with holder := some .cli }
        .panicked s' ∧
      s'.node.map amountMsat = [some 5] ∧
      (s'.ledger.lookup (.filled 1)).map (·.amtMsat) = some ⟨none⟩ ∧
      ¬ RecordsAmount OutboundPaymentInfoStorage.codec (.plain id) (fun _ => .ok ()) openInvoice
        (some 5) { noPayments with holder := some .cli } := by
  have hrun := runs_of_run (playAnswer_exec fun _ => .ok ())
    (p := sendPayment (.plain id) openInvoice (some 5))
    (s := { noPayments with holder := some .cli }) (x := Outcome.panicked) rfl
  exact ⟨_, hrun, rfl, rfl, fun h => h.no_panic _ _ hrun rfl⟩

/-- An invoice over 7 msat, paid with no amount given. -/
theorem records_amount_seven :
    RecordsAmount OutboundPaymentInfoStorage.codec (.plain id) (fun _ => .ok ())
      { openInvoice with amountMilliSatoshis := some 7 } none
      { noPayments with holder := some .cli } :=
  (records_amount_iff _ _ _ _ _ _ rfl).mpr (by rintro ⟨⟨⟩, _⟩)

end Sendpayment

end LightningNode
