/-
# `LightningNode.Ledger.Sendpayment` — from the line typed to what is paid

The arm `sendpayment` of `poll_for_user_input`: the words of the line, the offer
or the invoice in the first of them, the amount in the second, the question
asked before an offer is paid without an amount.  `Offer::from_str` and
`Bolt11Invoice::from_str` are parameters.

    asked for       by the user     paid
    an amount a     nothing, or a   a
    nothing         an amount a     a

An invoice over nothing and an offer in another currency ask for nothing; an
invoice over zero is not paid at all.
-/
import LightningNode.Ledger.Serialization
import LightningNode.Ledger.Shared
import LightningNode.Lib.Text

namespace LightningNode

open Conc LedgerProg LedgerAct Text

namespace Sendpayment

/-! ## The command -/

/-- `Offer::from_str` and `Bolt11Invoice::from_str`. -/
structure Parsers where
  offer : String → Option Offer
  invoice : String → Option Bolt11Invoice

/-- What a `read_line` answers: what is appended to the line, nothing at the end
of the input, or an error. -/
inductive ReadLine where
  | read (text : String)
  | failed
  deriving DecidableEq

/-- How the command ends, next to what the payment itself reports. -/
inductive Ending where
  | noInvoice
  | badAmount
  | invalidInvoice
  | paid (out : Outcome)
  | declined
  | stopped
  | asking
  deriving DecidableEq

/-- `amt_msat_str.parse()` -/
def parseU64 (s : String) : Option UInt64 := (parseUnsigned UInt64.size s).map UInt64.ofNat

/-- Lines 159 to 168: no word, no amount; a word that is no number ends the command. -/
def userProvidedAmt : List String → Option (Option UInt64)
  | [] => some none
  | amtMsatStr :: _ => (parseU64 amtMsatStr).map some

/-- The loop of lines 187 to 207, over the answers of `read_line` so far; `none`
is a `Y`.  The answers are appended to the line of the command itself, so that
what is looked at always starts with that line. -/
def confirm (line : String) : List ReadLine → Option Ending
  | [] => some .asking
  | .failed :: _ => some .stopped
  | .read text :: input =>
      let line := line ++ text
      if line = "" then some .stopped
      else if line.toList.head? = some 'Y' then none
      else if line.toList.head? = some 'N' then some .declined
      else confirm line input

/-- `while user_provided_amt.is_none()` -/
def confirmIfUnset (userProvidedAmt : Option UInt64) (line : String) (input : List ReadLine) :
    Option Ending :=
  match userProvidedAmt with
  | some _ => none
  | none => confirm line input

/-- The arm `sendpayment`, on a line that starts with this word. -/
def sendpayment (parse : Parsers) (ldk : Ldk) (line : String) (input : List ReadLine)
    (randomBytes : Vector UInt8 32) : LedgerProg Ending :=
  match (splitWhitespace line).tail with
  | [] => return .noInvoice
  | invoiceStr :: words =>
      match userProvidedAmt words with
      | none => return .badAmount
      | some amt =>
          match parse.offer invoiceStr with
          | some offer =>
              match offerAmountMsat offer amt with
              | .error out => return .paid out
              | .ok amtMsat =>
                  match confirmIfUnset amt line input with
                  | some ending => return ending
                  | none => do
                      let out ← payOffer offer ⟨randomBytes⟩ amtMsat
                      return .paid out
          | none =>
              match parse.invoice invoiceStr with
              | some invoice => do
                  let out ← withOutbound (sendPayment ldk invoice amt)
                  return .paid out
              | none => return .invalidInvoice

/-! ## The amounts -/

/-- The amount in the request. -/
def amountMsat : PayRequest → Option UInt64
  | .sendPayment _ _ _ route _ => some route.finalValueMsat
  | .sendSpontaneousPayment _ _ _ route _ => some route.finalValueMsat
  | .payForOffer _ amt _ _ => amt

/-- `a` is agreed on, where `asked` is asked for and the user gave `user`. -/
def AgreedOn (asked user : Option UInt64) (a : UInt64) : Prop :=
  match asked with
  | some b => a = b ∧ (user = none ∨ user = some b)
  | none => user = some a

/-- What an offer asks for in bitcoin. -/
def bitcoinAmount (offer : Offer) : Option UInt64 :=
  match offer.amount with
  | some (.bitcoin a) => some a
  | _ => none

theorem sendPaymentParams_agreed {ldk : Ldk} {invoice : Bolt11Invoice} {user : Option UInt64}
    {hash : PaymentHash} {onion : RecipientOnionFields} {route : RouteParameters}
    (h : sendPaymentParams ldk invoice user = .ok (hash, onion, route)) :
    invoice.amountMilliSatoshis ≠ some 0 ∧
      AgreedOn invoice.amountMilliSatoshis user route.finalValueMsat := by
  rcases sendPaymentParams_ok h with ⟨amt, rfl, hres⟩ | ⟨hres, hzero, huser⟩
  · obtain ⟨_, hnone, hvalue⟩ := ldk.from_zero_amount_invoice hres
    rw [hnone]
    exact ⟨nofun, congrArg some hvalue.symm⟩
  · obtain ⟨_, hvalue⟩ := ldk.from_invoice hres
    refine ⟨hzero, ?_⟩
    rw [hvalue] at huser ⊢
    exact ⟨rfl, huser⟩

/-- Returning early is no panic. -/
theorem sendPaymentParams_ne_panicked {ldk : Ldk} {invoice : Bolt11Invoice} {user : Option UInt64} :
    sendPaymentParams ldk invoice user ≠ .error .panicked := by
  unfold sendPaymentParams
  cases user with
  | none =>
      simp only [Option.isSome_none, Bool.false_eq_true, false_and, if_false]
      split
      · nofun
      · cases ldk.paymentParametersFromInvoice invoice <;> nofun
  | some a =>
      simp only
      split
      · cases ldk.paymentParametersFromZeroAmountInvoice invoice a <;> nofun
      · split
        · nofun
        · cases ldk.paymentParametersFromInvoice invoice <;> nofun

theorem offerAmountMsat_agreed {offer : Offer} {user : Option UInt64} {a : UInt64}
    (h : offerAmountMsat offer user = .ok a) : AgreedOn (bitcoinAmount offer) user a := by
  unfold offerAmountMsat at h
  have hcheck : ∀ b : UInt64,
      (if user.isSome ∧ user ≠ some b then Except.error (Outcome.offerMismatch b) else .ok b)
        = .ok a → a = b ∧ (user = none ∨ user = some b) := by
    intro b hb
    split at hb
    · cases hb
    · rename_i hu
      refine ⟨(Except.ok.inj hb).symm, ?_⟩
      cases user with
      | none => exact .inl rfl
      | some c => exact .inr (by_contra fun hc => hu ⟨rfl, hc⟩)
  unfold bitcoinAmount AgreedOn
  cases hamt : offer.amount with
  | none =>
      cases user with
      | none => simp [hamt] at h
      | some b =>
          simp only [hamt] at h
          rw [(hcheck b h).1]
  | some asked =>
      cases asked with
      | bitcoin b =>
          simp only [hamt] at h
          exact hcheck b h
      | currency code b =>
          cases user with
          | none => simp [hamt] at h
          | some c =>
              simp only [hamt] at h
              rw [(hcheck c h).1]

/-! ## What is handed over -/

/-- Any answer to any request; what was handed over is kept, last one first. -/
def handing : Manager (List PayRequest) where
  send handed req _ handed' := handed' = req :: handed
  recent handed _ handed' := handed' = handed

variable {χ : Type} {codec : Codec OutboundPaymentInfoStorage} {m : Manager χ} {t : Task}

/-- The ledger, its file and the `ChannelManager` are as they were. -/
structure Untouched (s s' : LedgerState χ) : Prop where
  ledger : s'.ledger = s.ledger
  file : s'.file = s.file
  node : s'.node = s.node

/-- `req` was made with `info` recorded for it, and the ledger is in the file. -/
structure Attempted (codec : Codec OutboundPaymentInfoStorage) (m : Manager χ) (info : PaymentInfo)
    (req : PayRequest) (r : Except SendError Unit) (s s' : LedgerState χ) : Prop where
  send : m.send s.node req r s'.node
  file : s'.file = some (codec.write s'.ledger)
  /-- of the record of `req` nothing changes but the status -/
  record : ∃ st, s'.ledger.lookup req.id = some { info with status := st }
  others : ∀ id, id ≠ req.id → s'.ledger.lookup id = s.ledger.lookup id

/-- `recordAndSend` ends with the payment attempted, and failed if it is refused. -/
theorem recordAndSend_ends {info : PaymentInfo} {req : PayRequest} {sent : Outcome}
    {s : LedgerState χ} :
    Ends (ledgerExec codec m t) (recordAndSend info req sent) s fun out s' =>
      ∃ r, Attempted codec m info req r s s' ∧
        match r with
        | .ok _ => out = sent
        | .error e => out = .sendFailed e ∧ s'.ledger.HasStatus req.id .failed := by
  intro out s' h
  obtain ⟨_, _, ⟨_, rfl⟩, bytes, _, ⟨_, rfl, rfl⟩, _, _, rfl, r, _, ⟨n, hn, rfl⟩, h⟩ := h
  cases r with
  | ok _ =>
      obtain ⟨rfl, rfl⟩ := h
      refine ⟨.ok (), ⟨hn, rfl, ⟨info.status, ?_⟩, ?_⟩, rfl⟩
      · exact (LedgerUpdate.lookup_insert _ _ _ _).trans (if_pos rfl)
      · exact fun id hid => (LedgerUpdate.lookup_insert _ _ _ _).trans (if_neg hid)
  | error e =>
      obtain ⟨found, _, ⟨_, hfound, rfl⟩, h⟩ := h
      have hins : ∀ id, ((LedgerUpdate.insert req.id info).on s.ledger).lookup id =
          if id = req.id then some info else s.ledger.lookup id :=
        fun id => LedgerUpdate.lookup_insert _ _ _ _
      have hhas : ((LedgerUpdate.insert req.id info).on s.ledger).Has req.id :=
        OutboundPaymentInfoStorage.has_iff.mpr ⟨info, (hins _).trans (if_pos rfl)⟩
      have hfound : found = true := hfound.trans (decide_eq_true hhas)
      subst hfound
      obtain ⟨_, _, ⟨_, rfl⟩, bytes, _, ⟨_, rfl, rfl⟩, _, _, rfl, rfl, rfl⟩ := h
      have hfail : ∀ id, ((LedgerUpdate.fail req.id).on
          ((LedgerUpdate.insert req.id info).on s.ledger)).lookup id =
            if id = req.id then some { info with status := .failed } else s.ledger.lookup id := by
        intro id
        rw [LedgerUpdate.lookup_fail, hins]
        by_cases hid : id = req.id
        · simp [hid]
        · simp [hid]
      refine ⟨.error e, ⟨hn, rfl, ⟨.failed, (hfail _).trans (if_pos rfl)⟩, ?_⟩, rfl, ?_⟩
      · exact fun id hid => (hfail id).trans (if_neg hid)
      · exact ⟨_, (hfail _).trans (if_pos rfl), rfl⟩

/-- With the mutex held, and where every request is answered, it ends. -/
theorem recordAndSend_returns {info : PaymentInfo} {req : PayRequest} {sent : Outcome}
    {s : LedgerState χ} (hh : s.holder = some t)
    (hm : ∀ n req, ∃ r n', m.send n req r n') :
    ∃ out s', Runs (ledgerExec codec m t) (recordAndSend info req sent) s out s' := by
  obtain ⟨r, n', hn⟩ := hm s.node req
  cases r with
  | ok _ =>
      exact ⟨sent, _, (), _, ⟨hh, rfl⟩, _, _, ⟨hh, rfl, rfl⟩, (), _, rfl, .ok (), _, ⟨n', hn, rfl⟩,
        rfl, rfl⟩
  | error e =>
      have hhas : ((LedgerUpdate.insert req.id info).on s.ledger).Has req.id :=
        (AList.mem_insert _).mpr (.inl rfl)
      exact ⟨.sendFailed e, _, (), _, ⟨hh, rfl⟩, _, _, ⟨hh, rfl, rfl⟩, (), _, rfl, .error e, _,
        ⟨n', hn, rfl⟩, true, _, ⟨hh, (decide_eq_true hhas).symm, rfl⟩, (), _, ⟨hh, rfl⟩, _, _,
        ⟨hh, rfl, rfl⟩, (), _, rfl, rfl, rfl⟩

/-- An offer refused is reported; the record stays as it was inserted. -/
theorem payOffer_ends {offer : Offer} {id : PaymentId} {amt : UInt64} {s : LedgerState χ} :
    Ends (ledgerExec codec m t) (payOffer offer id amt) s fun _ s' =>
      ∃ r, Attempted codec m (plainRecord amt) (.payForOffer offer (some amt) id (.timeout 10)) r
          s s' ∧ s'.ledger.HasStatus id .pending := by
  intro out s' h
  obtain ⟨_, _, ⟨_, rfl⟩, _, _, ⟨_, rfl⟩, _, _, ⟨_, rfl⟩, _, _, ⟨_, rfl⟩, bytes, _, ⟨_, rfl, rfl⟩,
    _, _, ⟨_, rfl⟩, _, _, rfl, r, _, ⟨n, hn, rfl⟩, h⟩ := h
  have hlookup : ((LedgerUpdate.insert id (plainRecord amt)).on s.ledger).lookup id =
      some (plainRecord amt) :=
    (LedgerUpdate.lookup_insert _ _ _ _).trans (if_pos rfl)
  have hs' : s'.ledger = (LedgerUpdate.insert id (plainRecord amt)).on s.ledger ∧
      s'.file = some (codec.write s'.ledger) ∧ s'.node = n := by
    cases r with
    | ok _ => obtain ⟨_, rfl⟩ := h; exact ⟨rfl, rfl, rfl⟩
    | error e => obtain ⟨_, rfl⟩ := h; exact ⟨rfl, rfl, rfl⟩
  obtain ⟨hl, hf, hnode⟩ := hs'
  refine ⟨r, ⟨hnode ▸ hn, hf, ⟨.pending, ?_⟩, ?_⟩, ?_⟩
  · rw [hl]
    exact hlookup
  · intro i hi
    rw [hl]
    exact (LedgerUpdate.lookup_insert _ _ _ _).trans (if_neg hi)
  · rw [hl]
    exact ⟨_, hlookup, rfl⟩

/-- Taking the mutex and dropping it is all that is added. -/
theorem withOutbound_ends {body : LedgerProg Outcome} {s : LedgerState χ}
    {Q : Outcome → LedgerState χ → Prop}
    (h : Ends (ledgerExec codec m t) body { s with holder := some t } Q)
    (hfree : ∀ out s', Q out s' → Q out { s' with holder := none }) :
    Ends (ledgerExec codec m t) (withOutbound body) s Q := by
  refine Ends.bind (fun _ s₁ => s₁ = { s with holder := some t }) ?_ ?_
  · exact Ends.perform fun _ s₁ he => he.2
  · rintro _ _ rfl
    refine Ends.bind Q h ?_
    intro out s₁ hq
    have hunlock : Ends (ledgerExec codec m t) (do act .unlock; return out) s₁ Q :=
      Ends.act fun _ s₂ he => by
        obtain ⟨_, rfl⟩ := he
        exact Ends.ret (hfree _ _ hq)
    cases out with
    | panicked => exact Ends.ret hq
    | _ => exact hunlock

/-- `cli::send_payment` returns early with nothing touched, or attempts the payment;
it panics if the payment is accepted and the invoice has no amount to print. -/
theorem sendPayment_ends {ldk : Ldk} {invoice : Bolt11Invoice} {user : Option UInt64}
    {s : LedgerState χ} :
    Ends (ledgerExec codec m t) (sendPayment ldk invoice user) s fun out s' =>
      (Untouched s s' ∧ sendPaymentParams ldk invoice user = .error out) ∨
      ∃ hash onion route r, sendPaymentParams ldk invoice user = .ok (hash, onion, route) ∧
        Attempted codec m (invoiceRecord invoice)
          (.sendPayment hash onion invoice.paymentHash.toId route (.timeout 10)) r s s' ∧
        match r with
        | .ok _ => out = match invoice.amountMilliSatoshis with
          | some amt => .initiated amt invoice.payeePubKey
          | none => .panicked
        | .error e => out = .sendFailed e ∧
            s'.ledger.HasStatus invoice.paymentHash.toId .failed := by
  unfold sendPayment
  cases hp : sendPaymentParams ldk invoice user with
  | error out => exact Ends.ret (.inl ⟨⟨rfl, rfl, rfl⟩, rfl⟩)
  | ok res =>
      obtain ⟨hash, onion, route⟩ := res
      refine recordAndSend_ends.mono fun out s' h => .inr ?_
      obtain ⟨r, ha, hout⟩ := h
      exact ⟨hash, onion, route, r, rfl, ha, hout⟩

/-- The same under the mutex. -/
theorem withOutbound_sendPayment_ends {ldk : Ldk} {invoice : Bolt11Invoice} {user : Option UInt64}
    {s : LedgerState χ} :
    Ends (ledgerExec codec m t) (withOutbound (sendPayment ldk invoice user)) s fun _ s' =>
      Untouched s s' ∨
      ∃ hash onion route r, sendPaymentParams ldk invoice user = .ok (hash, onion, route) ∧
        Attempted codec m (invoiceRecord invoice)
          (.sendPayment hash onion invoice.paymentHash.toId route (.timeout 10)) r s s' ∧
        ∀ e, r = .error e → s'.ledger.HasStatus invoice.paymentHash.toId .failed := by
  refine withOutbound_ends (sendPayment_ends.mono ?_) ?_
  · rintro out s' (⟨hu, _⟩ | ⟨hash, onion, route, r, hp, ha, hout⟩)
    · exact .inl ⟨hu.ledger, hu.file, hu.node⟩
    · refine .inr ⟨hash, onion, route, r, hp, ⟨ha.send, ha.file, ha.record, ha.others⟩, ?_⟩
      rintro e rfl
      exact hout.2
  · rintro out s' (hu | ⟨hash, onion, route, r, hp, ha, hst⟩)
    · exact .inl ⟨hu.ledger, hu.file, hu.node⟩
    · exact .inr ⟨hash, onion, route, r, hp, ⟨ha.send, ha.file, ha.record, ha.others⟩, hst⟩

/-- The arm does nothing, or pays the offer or the invoice of its first word. -/
theorem sendpayment_runs {parse : Parsers} {ldk : Ldk} {line : String} {input : List ReadLine}
    {randomBytes : Vector UInt8 32} {ending : Ending} {s s' : LedgerState χ}
    (h : Runs (ledgerExec codec m t) (sendpayment parse ldk line input randomBytes) s ending s') :
    s' = s ∨
      ∃ word words user out, (splitWhitespace line).tail = word :: words ∧
        userProvidedAmt words = some user ∧
        ((∃ offer a, parse.offer word = some offer ∧ offerAmountMsat offer user = .ok a ∧
            Runs (ledgerExec codec m t) (payOffer offer ⟨randomBytes⟩ a) s out s') ∨
          (parse.offer word = none ∧ ∃ invoice, parse.invoice word = some invoice ∧
            Runs (ledgerExec codec m t) (withOutbound (sendPayment ldk invoice user)) s out
              s')) := by
  unfold sendpayment at h
  cases hwords : (splitWhitespace line).tail with
  | nil => rw [hwords] at h; exact .inl h.2
  | cons word words =>
      simp only [hwords] at h
      cases huser : userProvidedAmt words with
      | none => rw [huser] at h; exact .inl h.2
      | some user =>
          simp only [huser] at h
          cases hoffer : parse.offer word with
          | some offer =>
              simp only [hoffer] at h
              cases hamt : offerAmountMsat offer user with
              | error out => rw [hamt] at h; exact .inl h.2
              | ok a =>
                  simp only [hamt] at h
                  cases hask : confirmIfUnset user line input with
                  | some ending => rw [hask] at h; exact .inl h.2
                  | none =>
                      simp only [hask] at h
                      obtain ⟨out, s₁, hrun, _, rfl⟩ := runs_bind.mp h
                      exact .inr ⟨word, words, user, out, rfl, huser,
                        .inl ⟨offer, a, hoffer, hamt, hrun⟩⟩
          | none =>
              simp only [hoffer] at h
              cases hinvoice : parse.invoice word with
              | none => rw [hinvoice] at h; exact .inl h.2
              | some invoice =>
                  simp only [hinvoice] at h
                  obtain ⟨out, s₁, hrun, _, rfl⟩ := runs_bind.mp h
                  exact .inr ⟨word, words, user, out, rfl, huser,
                    .inr ⟨hoffer, invoice, hinvoice, hrun⟩⟩

/-! ## The result -/

/-- What the words of a line say: an offer or an invoice, and an amount that is
agreed on. -/
def Agreed (parse : Parsers) (line : String) (a : UInt64) : Prop :=
  ∃ word words user, (splitWhitespace line).tail = word :: words ∧
    userProvidedAmt words = some user ∧
    ((∃ offer, parse.offer word = some offer ∧ AgreedOn (bitcoinAmount offer) user a) ∨
      (parse.offer word = none ∧ ∃ invoice, parse.invoice word = some invoice ∧
        invoice.amountMilliSatoshis ≠ some 0 ∧ AgreedOn invoice.amountMilliSatoshis user a))

/-- A payment is handed over for an amount that is agreed on; where nothing is
handed over nothing is touched. -/
theorem pays_only_agreed (codec : Codec OutboundPaymentInfoStorage) (parse : Parsers)
    (ldk : Ldk) (line : String) (input : List ReadLine) (randomBytes : Vector UInt8 32)
    (ending : Ending) (s s' : LedgerState (List PayRequest))
    (h : Runs (ledgerExec codec handing .cli) (sendpayment parse ldk line input randomBytes) s
      ending s') :
    Untouched s s' ∨
      ∃ req a, s'.node = req :: s.node ∧ amountMsat req = some a ∧ Agreed parse line a := by
  obtain rfl | ⟨word, words, user, out, hwords, huser, hpays⟩ := sendpayment_runs h
  · exact .inl ⟨rfl, rfl, rfl⟩
  obtain ⟨offer, a, hoffer, hamt, hrun⟩ | ⟨hno, invoice, hinvoice, hrun⟩ := hpays
  · obtain ⟨r, ha, _⟩ := payOffer_ends _ _ hrun
    exact .inr ⟨_, a, ha.send, rfl, word, words, user, hwords, huser,
      .inl ⟨offer, hoffer, offerAmountMsat_agreed hamt⟩⟩
  · obtain hu | ⟨hash, onion, route, r, hp, ha, _⟩ := withOutbound_sendPayment_ends _ _ hrun
    · exact .inl hu
    · exact .inr ⟨_, _, ha.send, rfl, word, words, user, hwords, huser,
        .inr ⟨hno, invoice, hinvoice, sendPaymentParams_agreed hp⟩⟩

/-! ## A line that pays -/

/-- The actions, executable: every request is accepted. -/
def play (a : LedgerAct) (s : LedgerState (List PayRequest)) :
    Option (a.Answer × LedgerState (List PayRequest)) :=
  ledgerStep OutboundPaymentInfoStorage.codec (fun n req => (.ok (), req :: n)) (fun n => ([], n))
    .cli a s

theorem play_exec (a : LedgerAct) (s : LedgerState (List PayRequest)) (r : a.Answer)
    (s' : LedgerState (List PayRequest)) (h : play a s = some (r, s')) :
    ledgerExec OutboundPaymentInfoStorage.codec handing .cli a s r s' :=
  ledgerExec_of_step (fun _ _ => rfl) (fun _ => rfl) h

/-- An invoice over nothing. -/
def openInvoice : Bolt11Invoice :=
  ⟨⟨Vector.replicate 32 1⟩, ⟨Vector.replicate 32 2⟩, none, ⟨Vector.replicate 33 3⟩⟩

/-- `lnbc` is the invoice over nothing, and `lno` an offer that asks for 1000 msat. -/
def twoWords : Parsers where
  offer s := if s = "lno" then some ⟨"lno", some (.bitcoin 1000)⟩ else none
  invoice s := if s = "lnbc" then some openInvoice else none

/-- The offer with its own amount given is paid. -/
theorem pays_only_agreed_offer :
    ∃ s', Runs (ledgerExec OutboundPaymentInfoStorage.codec handing .cli)
        (sendpayment twoWords (.plain id) "sendpayment lno 1000\n" [] (Vector.replicate 32 4))
        (.settled OutboundPaymentInfoStorage.codec .empty []) (.paid .done) s' ∧
      ∃ req a, s'.node = [req] ∧ amountMsat req = some a ∧
        Agreed twoWords "sendpayment lno 1000\n" a := by
  have hrun := runs_of_run play_exec
    (p := sendpayment twoWords (.plain id) "sendpayment lno 1000\n" [] (Vector.replicate 32 4))
    (s := .settled OutboundPaymentInfoStorage.codec .empty [])
    (x := Ending.paid .done) rfl
  refine ⟨_, hrun, ?_⟩
  obtain hu | h := pays_only_agreed _ _ _ _ _ _ _ _ _ hrun
  · exact absurd hu.node (by decide)
  · exact h

end Sendpayment

end LightningNode
