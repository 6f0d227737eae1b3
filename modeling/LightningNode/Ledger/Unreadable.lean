/-
# `LightningNode.Ledger.Unreadable` — ledgers that could not be read

One run of the node and its two payment files.  `start_ldk` reads them with
`disk::read_inbound_payment_info` and `disk::read_outbound_payment_info`, which
answer with an empty ledger where the file is missing, cannot be opened or cannot
be decoded.  From then on a whole file is written from memory:

    start_ldk, payments, PaymentSent, PaymentFailed    outbound_payments
    getinvoice, PaymentClaimed                         inbound_payments

So a file that could not be read is lost with the first of these writes, and what
is left to say is when there was nothing to lose.
-/
import LightningNode.Ledger.Inbound
import LightningNode.Ledger.OnDisk

namespace LightningNode

open Conc

namespace Unreadable

/-! ## Files and what they hold -/

/-- Which records the bytes of a file hold.  Where they decode it is those of the
ledger; of other bytes it may be anything. -/
structure Records {L κ : Type} (codec : Codec L) (Has : L → κ → Prop) where
  holds : Bytes → κ → Prop
  decoded : ∀ {bytes l}, codec.decode bytes = some l → ∀ k, holds bytes k ↔ Has l k

variable {L κ : Type} {codec : Codec L} {Has : L → κ → Prop}

/-- The file is there, and cannot be opened or decoded. -/
def Unread (codec : Codec L) (opened : Bool) (file : Option Bytes) : Prop :=
  ∃ bytes, file = some bytes ∧ (opened = false ∨ codec.decode bytes = none)

/-- No record that the file held is gone. -/
def Records.Kept (R : Records codec Has) (before after : Option Bytes) : Prop :=
  ∀ bytes k, before = some bytes → R.holds bytes k → ∃ bytes', after = some bytes' ∧ R.holds bytes' k

def Records.Nothing (R : Records codec Has) (file : Option Bytes) : Prop :=
  ∀ bytes k, file = some bytes → ¬ R.holds bytes k

theorem Records.Kept.refl (R : Records codec Has) (file : Option Bytes) : R.Kept file file :=
  fun bytes _ hf hk => ⟨bytes, hf, hk⟩

theorem Records.Nothing.kept {R : Records codec Has} {before : Option Bytes}
    (h : R.Nothing before) (after : Option Bytes) : R.Kept before after :=
  fun bytes k hf hk => absurd hk (h bytes k hf)

/-- A ledger without records in its place keeps none. -/
theorem Records.Kept.nothing {R : Records codec Has} {before : Option Bytes} {l : L}
    (h : R.Kept before (some (codec.write l))) (hl : ∀ k, ¬ Has l k) : R.Nothing before := by
  intro bytes k hf hk
  obtain ⟨bytes', hb, hk'⟩ := h bytes k hf hk
  obtain rfl := Option.some.inj hb
  exact hl k ((R.decoded (codec.decode_write l) k).mp hk')

/-- What `File::open` and the reader have of a file. -/
def seen (opened : Bool) (file : Option Bytes) : Option Bytes := if opened then file else none

abbrev OutboundRecords (codec : Codec OutboundPaymentInfoStorage) :=
  Records codec OutboundPaymentInfoStorage.Has

abbrev InboundRecords (codec : Codec InboundPaymentInfoStorage) :=
  Records codec fun l hash => hash ∈ l.payments

/-- Nothing is seen of it, or nothing that decodes. -/
theorem Unread.seen_cases {opened : Bool} {file : Option Bytes} (h : Unread codec opened file) :
    seen opened file = none ∨
      ∃ bytes, seen opened file = some bytes ∧ codec.decode bytes = none := by
  obtain ⟨bytes, rfl, rfl | hd⟩ := h
  · exact .inl rfl
  · cases opened with
    | false => exact .inl rfl
    | true => exact .inr ⟨bytes, rfl, hd⟩

/-- What could not be read is read as nothing. -/
theorem readOutbound_unread {codec : Codec OutboundPaymentInfoStorage} {opened : Bool}
    {file : Option Bytes} (h : Unread codec opened file) :
    readOutboundPaymentInfo codec (seen opened file) = .empty := by
  obtain hnone | ⟨bytes, hsome, hd⟩ := h.seen_cases
  · rw [hnone, readOutboundPaymentInfo]
  · rw [hsome, readOutboundPaymentInfo, hd]

theorem readInbound_unread {codec : Codec InboundPaymentInfoStorage} {opened : Bool}
    {file : Option Bytes} (h : Unread codec opened file) :
    Inbound.readInboundPaymentInfo codec (seen opened file) = .empty := by
  obtain hnone | ⟨bytes, hsome, hd⟩ := h.seen_cases
  · rw [hnone, Inbound.readInboundPaymentInfo]
  · rw [hsome, Inbound.readInboundPaymentInfo, hd]

/-! ## The node -/

inductive NodeAct where
  | outbound (a : LedgerAct)
  | inbound (a : Inbound.InboundAct)
  /-- `disk::read_inbound_payment_info` into a new mutex -/
  | loadInbound

abbrev NodeAct.Answer : NodeAct → Type
  | .outbound a => a.Answer
  | .inbound a => a.Answer
  | .loadInbound => Unit

abbrev NodeProg := Prog NodeAct NodeAct.Answer

def ofOutbound : LedgerProg Outcome → NodeProg Outcome
  | Prog.ret out => Prog.ret out
  | Prog.act a k => Prog.act (.outbound a) fun r => ofOutbound (k r)

def ofInbound : Inbound.InboundProg Unit → NodeProg Outcome
  | Prog.ret _ => Prog.ret .done
  | Prog.act a k => Prog.act (.inbound a) fun r => ofInbound (k r)

/-- Lines 974 to 1003 of `start_ldk`. -/
def startLdk : NodeProg Outcome := Prog.act .loadInbound fun _ => ofOutbound reconcileOutbound

theorem every_ofOutbound {P : NodeAct → Prop} (h : ∀ a, P (.outbound a)) (p : LedgerProg Outcome) :
    (ofOutbound p).Every P := by
  induction p with
  | ret out => trivial
  | act a k ih => exact ⟨h a, ih⟩

structure NodeState where
  up : Bool
  outbound : LedgerState Unit
  inbound : Inbound.InboundState

/-- What `File::open` answers at the start. -/
structure Opened where
  outbound : Bool
  inbound : Bool

section

variable (codec : Codec OutboundPaymentInfoStorage) (codec' : Codec InboundPaymentInfoStorage)
variable (ldk : Ldk) (opened : Opened)

/-- The effect of an action; a load takes what the file lets it. -/
def NodeAct.exec (t : Task) : (a : NodeAct) → NodeState → a.Answer → NodeState → Prop
  | .outbound .load, s, _, s' => s.outbound.holder = none ∧
      s' = { s with outbound := { s.outbound with
        ledger := readOutboundPaymentInfo codec (seen opened.outbound s.outbound.file) } }
  | .outbound a, s, r, s' =>
      ∃ o, ledgerExec codec OnDisk.manager t a s.outbound r o ∧ s' = { s with outbound := o }
  | .inbound a, s, r, s' =>
      ∃ i, Inbound.Exec codec' t a s.inbound r i ∧ s' = { s with inbound := i }
  | .loadInbound, s, _, s' =>
      s' = { s with inbound := { s.inbound with
        ledger := Inbound.readInboundPaymentInfo codec' (seen opened.inbound s.inbound.file) } }

/-- One run: `start_ldk`, then the commands and the events in any order.  `getinvoice`
and `PaymentClaimed` come in it only where `invoices` holds. -/
def node (invoices : Prop) : System Task NodeAct NodeAct.Answer Outcome NodeState where
  exec t a := a.exec codec codec' opened t
  start t s p s' :=
    match t with
    | .startup => s.up = false ∧ p = startLdk ∧ s' = s
    | .cli => s.up = true ∧ s' = s ∧
        ((∃ c : PayCommand, p = ofOutbound (c.program ldk)) ∨
          invoices ∧ ∃ amtMsat, p = ofInbound (Inbound.getInvoice amtMsat))
    | .events => s.up = true ∧
        ((∃ e : PaymentEvent, p = ofOutbound e.program) ∧ s' = s ∨
          invoices ∧ ∃ hash purpose amountMsat,
            p = ofInbound (Inbound.handlePaymentClaimed hash purpose amountMsat) ∧
            s' = { s with inbound := { s.inbound with used := hash :: s.inbound.used } })
  finish t out s s' := out ≠ .panicked ∧
    match t with
    | .startup => s' = { s with up := true }
    | _ => s' = s
  env _ _ := False
  crash _ _ := False

end

/-- Before the start: the two files, and the hashes used so far. -/
def NodeState.initial (outbound inbound : Option Bytes) (used : List PaymentHash) : NodeState where
  up := false
  outbound :=
    { ledger := .empty
      holder := none
      file := outbound
      node := ()
      version := 0
      fileVersion := 0
      snapshot := fun _ => none
      unwritten := fun _ => false }
  inbound := ⟨.empty, none, inbound, used, none, []⟩

/-! ## Runs that write -/

section

variable {codec : Codec OutboundPaymentInfoStorage} {codec' : Codec InboundPaymentInfoStorage}
variable {ldk : Ldk} {opened : Opened} {invoices : Prop}
variable {outbound inbound : Option Bytes} {used : List PaymentHash}

/-- The actions, executable: payments are accepted, none is recent, and no invoice is
made. -/
def play (codec : Codec OutboundPaymentInfoStorage) (codec' : Codec InboundPaymentInfoStorage)
    (opened : Opened) (t : Task) : (a : NodeAct) → NodeState → Option (a.Answer × NodeState)
  | .outbound .load, s =>
      if s.outbound.holder = none then
        some ((), { s with outbound := { s.outbound with
          ledger := readOutboundPaymentInfo codec (seen opened.outbound s.outbound.file) } })
      else none
  | .outbound a, s =>
      (ledgerStep codec (fun _ _ => (.ok (), ())) (fun _ => ([], ())) t a s.outbound).map fun p =>
        (p.1, { s with outbound := p.2 })
  | .inbound a, s =>
      (Inbound.smoothly codec' t a s.inbound).map fun p => (p.1, { s with inbound := p.2 })
  | .loadInbound, s =>
      some ((), { s with inbound := { s.inbound with
        ledger := Inbound.readInboundPaymentInfo codec' (seen opened.inbound s.inbound.file) } })

/-- A load apart, the actions are those of the ledger. -/
theorem play_outbound {t : Task} {a : LedgerAct} (ha : a ≠ .load) (s : NodeState) :
    play codec codec' opened t (.outbound a) s =
      (ledgerStep codec (fun _ _ => (.ok (), ())) (fun _ => ([], ())) t a s.outbound).map fun p =>
        (p.1, { s with outbound := p.2 }) := by
  cases a with
  | load => exact absurd rfl ha
  | _ => rfl

theorem exec_outbound {t : Task} {a : LedgerAct} (ha : a ≠ .load) (s : NodeState) (r : a.Answer)
    {o : LedgerState Unit} (h : ledgerExec codec OnDisk.manager t a s.outbound r o) :
    NodeAct.exec codec codec' opened t (.outbound a) s r { s with outbound := o } := by
  cases a with
  | load => exact absurd rfl ha
  | _ => exact ⟨o, h, rfl⟩

theorem outbound_of_exec {t : Task} {a : LedgerAct} (ha : a ≠ .load) {s s' : NodeState}
    {r : a.Answer} (h : NodeAct.exec codec codec' opened t (.outbound a) s r s') :
    ∃ o, ledgerExec codec OnDisk.manager t a s.outbound r o ∧ s' = { s with outbound := o } := by
  cases a with
  | load => exact absurd rfl ha
  | _ => exact h

theorem play_exec {t : Task} (a : NodeAct) (s : NodeState) (r : a.Answer) (s' : NodeState)
    (h : play codec codec' opened t a s = some (r, s')) :
    (node codec codec' ldk opened invoices).exec t a s r s' := by
  cases a with
  | outbound a =>
      by_cases ha : a = .load
      · subst ha
        simp only [play, Option.ite_none_right_eq_some, Option.some.injEq, Prod.mk.injEq] at h
        exact ⟨h.1, h.2.2.symm⟩
      · rw [play_outbound ha] at h
        obtain ⟨p, hp, heq⟩ := Option.map_eq_some_iff.mp h
        obtain ⟨rfl, rfl⟩ := Prod.mk.inj heq
        exact exec_outbound ha s p.1 (ledgerExec_of_step (fun _ _ => trivial) (fun _ => trivial) hp)
  | inbound a =>
      obtain ⟨p, hp, heq⟩ := Option.map_eq_some_iff.mp h
      obtain ⟨rfl, rfl⟩ := Prod.mk.inj heq
      exact ⟨_, Inbound.smoothly_exec a _ _ _ hp, rfl⟩
  | loadInbound =>
      obtain ⟨_, rfl⟩ := Prod.mk.inj (Option.some.inj h)
      rfl

/-- After `start_ldk`. -/
structure Booted (codec : Codec OutboundPaymentInfoStorage)
    (codec' : Codec InboundPaymentInfoStorage) (opened : Opened) (outbound inbound : Option Bytes)
    (s : NodeState) : Prop where
  up : s.up = true
  outbound : s.outbound.file = some (codec.write
    ((LedgerUpdate.reconcile []).on (readOutboundPaymentInfo codec (seen opened.outbound outbound))))
  ledger : s.inbound.ledger = Inbound.readInboundPaymentInfo codec' (seen opened.inbound inbound)
  free : s.inbound.holder = none

variable (codec codec' ldk opened invoices outbound inbound used) in
theorem reach_booted : ∃ s, Booted codec codec' opened outbound inbound s ∧
    (node codec codec' ldk opened invoices).Reach (.idle (.initial outbound inbound used))
      (.idle s) :=
  ⟨_, ⟨rfl, rfl, rfl, rfl⟩,
    System.reach_call (t := Task.startup) (x := Outcome.done) play_exec ⟨rfl, rfl, rfl⟩ rfl
      ⟨nofun, rfl⟩⟩

variable (ldk) in
/-- `getinvoice`, when the invoice fails. -/
theorem reach_invoice {s : NodeState} (h : Booted codec codec' opened outbound inbound s) :
    ∃ s', s'.inbound.file = some (codec'.write s.inbound.ledger) ∧
      (node codec codec' ldk opened True).Reach (.idle s) (.idle s') := by
  obtain ⟨up, o, ledger, holder, file, used, unwritten, claimed⟩ := s
  obtain ⟨rfl, ho, hledger, rfl⟩ := h
  exact ⟨_, rfl, System.reach_call (t := Task.cli) (x := Outcome.done) play_exec
    ⟨rfl, rfl, .inr ⟨trivial, 0, rfl⟩⟩ rfl ⟨nofun, rfl⟩⟩

/-- Where neither `getinvoice` nor `PaymentClaimed` comes, `inbound_payments` stays
as it was. -/
theorem inbound_stays
    {c : Config Task NodeAct NodeAct.Answer Outcome NodeState}
    (h : (node codec codec' ldk opened False).Reach (.idle (.initial outbound inbound used)) c) :
    c.state.inbound.file = inbound := by
  refine (System.Reach.keeps (P := fun a => ∀ a', a ≠ .inbound a')
    (I := fun s => s.inbound.file = inbound) ?_ ?_ ?_ (fun h => False.elim h) (fun h => False.elim h)
    h rfl).1
  · intro t s p s' hst hs
    cases t with
    | startup =>
        obtain ⟨_, rfl, rfl⟩ := hst
        exact ⟨hs, fun _ => nofun, fun _ => every_ofOutbound (fun _ _ => nofun) _⟩
    | cli =>
        obtain ⟨_, rfl, ⟨c, rfl⟩ | ⟨hno, _⟩⟩ := hst
        · exact ⟨hs, every_ofOutbound (fun _ _ => nofun) _⟩
        · exact hno.elim
    | events =>
        obtain ⟨_, ⟨⟨e, rfl⟩, rfl⟩ | ⟨hno, _⟩⟩ := hst
        · exact ⟨hs, every_ofOutbound (fun _ _ => nofun) _⟩
        · exact hno.elim
  · intro t a s r s' he ha hs
    cases a with
    | inbound a => exact absurd rfl (ha a)
    | loadInbound =>
        obtain rfl := he
        exact hs
    | outbound a =>
        by_cases hload : a = .load
        · subst hload
          obtain ⟨_, rfl⟩ := he
          exact hs
        · obtain ⟨o, _, rfl⟩ := outbound_of_exec hload he
          exact hs
  · intro t out s s' hf hs
    cases t with
    | startup =>
        obtain ⟨_, rfl⟩ := hf
        exact hs
    | cli | events =>
        obtain ⟨_, rfl⟩ := hf
        exact hs

/-! ## What is lost -/

/-- A file that could not be read has lost no record. -/
def NotErased (R : OutboundRecords codec) (R' : InboundRecords codec') (opened : Opened)
    (outbound inbound : Option Bytes) (s : NodeState) : Prop :=
  (Unread codec opened.outbound outbound → R.Kept outbound s.outbound.file) ∧
    (Unread codec' opened.inbound inbound → R'.Kept inbound s.inbound.file)

/-- `start_ldk` leaves a file it could not read without a record. -/
theorem outbound_erased {R : OutboundRecords codec} {s : NodeState}
    (h : Booted codec codec' opened outbound inbound s)
    (hunread : Unread codec opened.outbound outbound) (hkept : R.Kept outbound s.outbound.file) :
    R.Nothing outbound := by
  rw [h.outbound, readOutbound_unread hunread] at hkept
  refine hkept.nothing ?_
  intro id hid
  obtain hempty | ⟨info, hinsert⟩ := LedgerUpdate.has_of_on hid
  · exact OutboundPaymentInfoStorage.not_has_empty id hempty
  · cases hinsert

/-- What could not be read at the start was kept through every run, if and only if
it held no record.  The inbound file is also kept where nothing writes it. -/
theorem not_erased_iff (R : OutboundRecords codec) (R' : InboundRecords codec')
    (ldk : Ldk) (opened : Opened)
    (outbound inbound : Option Bytes) (used : List PaymentHash) :
    ((∀ c, (node codec codec' ldk opened True).Reach
          (.idle (.initial outbound inbound used)) c →
        NotErased R R' opened outbound inbound c.state) ↔
      (Unread codec opened.outbound outbound → R.Nothing outbound) ∧
        (Unread codec' opened.inbound inbound → R'.Nothing inbound)) ∧
    ((Unread codec opened.outbound outbound → R.Nothing outbound) →
      ∀ c, (node codec codec' ldk opened False).Reach
          (.idle (.initial outbound inbound used)) c →
        NotErased R R' opened outbound inbound c.state) := by
  refine ⟨⟨?_, ?_⟩, ?_⟩
  · intro h
    obtain ⟨s, hbooted, hreach⟩ := reach_booted codec codec' ldk opened True outbound inbound used
    constructor
    · intro hunread
      exact outbound_erased hbooted hunread ((h _ hreach).1 hunread)
    · intro hunread
      obtain ⟨s', hfile, hreach'⟩ := reach_invoice ldk hbooted
      have hkept := (h _ (hreach.trans hreach')).2 hunread
      have hkept : R'.Kept inbound s'.inbound.file := hkept
      rw [hfile, hbooted.ledger, readInbound_unread hunread] at hkept
      exact hkept.nothing fun hash => AList.notMem_empty hash
  · rintro ⟨hout, hin⟩ c _
    exact ⟨fun hunread => (hout hunread).kept _, fun hunread => (hin hunread).kept _⟩
  · intro hout c hc
    refine ⟨fun hunread => (hout hunread).kept _, fun _ => ?_⟩
    rw [inbound_stays hc]
    exact .refl R' inbound

end

/-- Bytes hold what they decode to. -/
def Records.ofDecode {L κ : Type} (codec : Codec L) (Has : L → κ → Prop) : Records codec Has where
  holds bytes k := ∃ l, codec.decode bytes = some l ∧ Has l k
  decoded := by
    intro bytes l hl k
    constructor
    · rintro ⟨l', hl', hk⟩
      obtain rfl := Option.some.inj (hl.symm.trans hl')
      exact hk
    · exact fun hk => ⟨l, hl, hk⟩

/-- The file of a pending payment, at a start that cannot open it. -/
theorem unopened_erased : ¬ ∀ c,
    (node OutboundPaymentInfoStorage.codec InboundPaymentInfoStorage.codec (.plain id) ⟨false, true⟩
        True).Reach
      (.idle (.initial (some (OutboundPaymentInfoStorage.codec.write OnDisk.onePending)) none []))
      c →
    NotErased (.ofDecode OutboundPaymentInfoStorage.codec _)
      (.ofDecode InboundPaymentInfoStorage.codec _) ⟨false, true⟩
      (some (OutboundPaymentInfoStorage.codec.write OnDisk.onePending)) none c.state := by
  intro h
  obtain ⟨s, hbooted, hreach⟩ := reach_booted _ _ (.plain id) _ True _ _ _
  have hunread : Unread OutboundPaymentInfoStorage.codec false
      (some (OutboundPaymentInfoStorage.codec.write OnDisk.onePending)) := ⟨_, rfl, .inl rfl⟩
  exact outbound_erased hbooted hunread ((h _ hreach).1 hunread) _ (.filled 1) rfl
    ⟨_, Codec.decode_write _ _, by decide⟩

/-- The file of an invoice not paid yet. -/
def oneInvoice : Bytes :=
  InboundPaymentInfoStorage.codec.write
    ⟨(∅ : AList _).insert ⟨.replicate 32 1⟩ (Inbound.invoiceRecord 1000 ⟨.replicate 32 2⟩)⟩

/-- It cannot be opened, and stays while no other invoice is asked for. -/
theorem not_erased_no_invoices : ∀ c,
    (node OutboundPaymentInfoStorage.codec InboundPaymentInfoStorage.codec (.plain id) ⟨true, false⟩
        False).Reach (.idle (.initial none (some oneInvoice) [])) c →
    NotErased (.ofDecode OutboundPaymentInfoStorage.codec _)
      (.ofDecode InboundPaymentInfoStorage.codec _) ⟨true, false⟩ none (some oneInvoice) c.state :=
  (not_erased_iff _ _ (.plain id) ⟨true, false⟩ none (some oneInvoice) []).2 fun h => by
    obtain ⟨bytes, hnone, _⟩ := h
    cases hnone

end Unreadable

end LightningNode
