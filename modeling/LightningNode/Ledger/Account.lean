/-
# `LightningNode.Ledger.Account` — what the records say, and why

A record of the outbound ledger may be read by the user (`listpayments`) long after
it was written, and by a process that did not write it.  Whatever it says then, in
memory or in the file, something that happened has made true (`Account`):

    amount, secret   a command was given that records this id with them
    preimage         a `PaymentSent` for this id carried it
    Succeeded        only with a preimage
    Failed           a `PaymentFailed` for this id, a refused request, or a start at
                     which the payment was not listed

What happened is kept in a history that survives crashes, and that no program reads.
Since the events are about requests (`Told`), and these are what commands ask for
(`Asks`), a preimage on record proves a payment that was asked for under its id
(`Proves`).
-/
import LightningNode.Ledger.Protocol
import LightningNode.Ledger.Serialization
import LightningNode.Lib.Typestate

namespace LightningNode

open Conc

namespace Account

/-! ## What happened -/

structure History where
  commands : List PayCommand
  handed : List PayRequest
  refused : List PaymentId
  events : List PaymentEvent
  /-- what `list_recent_payments` gave at each start -/
  listed : List (List PaymentId)
  up : Bool

/-- A request may be answered in any way, and any payments may be listed. -/
def manager : Manager History where
  send n req r n' := n' =
    { n with
      handed := req :: n.handed
      refused := if r.isOk then n.refused else req.id :: n.refused }
  recent n r n' := n' = { n with listed := r :: n.listed }

/-- The preimage `p` pays what was asked for. -/
def Proves (sha256 : Vector UInt8 32 → Vector UInt8 32) (p : PaymentPreimage) : PayRequest → Prop
  | .sendPayment hash _ _ _ _ => sha256 p.bytes = hash.bytes
  | .sendSpontaneousPayment (some q) _ _ _ _ => p = q
  | .sendSpontaneousPayment none _ _ _ _ | .payForOffer _ _ _ _ => True

/-- `PaymentSent` tells of a request that was handed over, and brings its preimage. -/
def Told (sha256 : Vector UInt8 32 → Vector UInt8 32) (n : History) (e : PaymentEvent) : Prop :=
  ∀ p id, e = .sent p (some id) → ∃ req ∈ n.handed, req.id = id ∧ Proves sha256 p req

/-- As in `LightningNode.Ledger.WriteAhead`: startup runs alone, then the CLI thread and
the event task do, until a crash takes the memory. -/
def system (codec : Codec OutboundPaymentInfoStorage)
    (ldk : Ldk) : LedgerSystem History where
  exec := ledgerExec codec manager
  start t s p s' :=
    match t with
    | .cli => s.node.up = true ∧ ∃ c : PayCommand, p = c.program ldk ∧
        s' = { s with node := { s.node with commands := c :: s.node.commands } }
    | .events => s.node.up = true ∧ ∃ e : PaymentEvent, Told ldk.sha256 s.node e ∧ p = e.program ∧
        s' = { s with node := { s.node with events := e :: s.node.events } }
    | .startup => s.node.up = false ∧ p = reconcileOutbound ∧ s' = s
  finish t out s s' := out ≠ .panicked ∧
    match t with
    | .startup => s' = { s with node := { s.node with up := true } }
    | _ => s' = s
  env _ _ := False
  crash s s' := s' =
    { s with
      ledger := .empty
      holder := none
      node := { s.node with up := false }
      snapshot := fun _ => none
      unwritten := fun _ => false }

/-- Before the first start: no file. -/
def initial : LedgerState History where
  ledger := .empty
  holder := none
  file := none
  node := ⟨[], [], [], [], [], false⟩
  version := 0
  fileVersion := 0
  snapshot _ := none
  unwritten _ := false

/-! ## Commands -/

section

variable (sha256 : Vector UInt8 32 → Vector UInt8 32)

/-- The id and the record a command inserts. -/
def record : PayCommand → Option (PaymentId × PaymentInfo)
  | .invoice inv _ => some (inv.paymentHash.toId, invoiceRecord inv)
  | .keysend _ amtMsat bytes => some (⟨sha256 bytes⟩, plainRecord amtMsat)
  | .offer o amt bytes =>
      (offerAmountMsat o amt).toOption.map fun msat => (⟨bytes⟩, plainRecord msat)

/-- The requests a command may make. -/
def Asks : PayCommand → PayRequest → Prop
  | .invoice inv _, .sendPayment hash _ id _ _ => hash = inv.paymentHash ∧ id = hash.toId
  | .keysend _ _ bytes, .sendSpontaneousPayment preimage _ id _ _ =>
      preimage = some ⟨bytes⟩ ∧ id = ⟨sha256 bytes⟩
  | .offer o _ bytes, .payForOffer o' _ id _ => o' = o ∧ id = ⟨bytes⟩
  | _, _ => False

/-- With what LDK tells of it, the id is the hash of the preimage, unless it is the
one drawn for an offer. -/
theorem Asks.proves {c : PayCommand} {req : PayRequest} {p : PaymentPreimage}
    (h : Asks sha256 c req) (hp : Proves sha256 p req) :
    sha256 p.bytes = req.id.bytes ∨ ∃ o user, c = .offer o user req.id.bytes := by
  cases c with
  | invoice inv user =>
      cases req with
      | sendPayment hash onion id route retry =>
          obtain ⟨_, rfl⟩ := h
          exact .inl hp
      | sendSpontaneousPayment preimage onion id route retry => exact h.elim
      | payForOffer o amt id retry => exact h.elim
  | keysend payee amt bytes =>
      cases req with
      | sendPayment hash onion id route retry => exact h.elim
      | sendSpontaneousPayment preimage onion id route retry =>
          obtain ⟨rfl, rfl⟩ := h
          have hq : p = ⟨bytes⟩ := hp
          exact .inl (congrArg (fun q => sha256 q.bytes) hq)
      | payForOffer o amt id retry => exact h.elim
  | offer o user bytes =>
      cases req with
      | sendPayment hash onion id route retry => exact h.elim
      | sendSpontaneousPayment preimage onion id route retry => exact h.elim
      | payForOffer o' amt id retry =>
          obtain ⟨_, rfl⟩ := h
          exact .inr ⟨o, user, rfl⟩

theorem sendPaymentParams_hash {ldk : Ldk} {invoice : Bolt11Invoice} {user : Option UInt64}
    {hash : PaymentHash} {onion : RecipientOnionFields} {route : RouteParameters}
    (h : sendPaymentParams ldk invoice user = .ok (hash, onion, route)) :
    hash = invoice.paymentHash := by
  rcases sendPaymentParams_ok h with ⟨amt, _, hres⟩ | ⟨hres, _⟩
  · exact (ldk.from_zero_amount_invoice hres).1
  · exact (ldk.from_invoice hres).1

end

/-! ## What a record says -/

section

variable {sha256 : Vector UInt8 32 → Vector UInt8 32} {n n' : History} {id i : PaymentId}
  {info : PaymentInfo} {l : OutboundPaymentInfoStorage}

/-- More has happened. -/
structure After (n n' : History) : Prop where
  commands : n.commands ⊆ n'.commands
  handed : n.handed ⊆ n'.handed
  refused : n.refused ⊆ n'.refused
  events : n.events ⊆ n'.events
  listed : n.listed ⊆ n'.listed

theorem After.refl (n : History) : After n n := by
  constructor <;> exact List.Subset.refl _

/-- Why a record may say that the payment failed. -/
def Failure (n : History) (id : PaymentId) : Prop :=
  .failed id ∈ n.events ∨ id ∈ n.refused ∨ ∃ recent ∈ n.listed, id ∉ recent

/-- What the record of `id` says has happened. -/
structure Accounted (sha256 : Vector UInt8 32 → Vector UInt8 32) (n : History) (id : PaymentId)
    (info : PaymentInfo) : Prop where
  made : ∃ c ∈ n.commands, ∃ r, record sha256 c = some (id, r) ∧ info.secret = r.secret ∧
    info.amtMsat = r.amtMsat
  preimage : ∀ p, info.preimage = some p → .sent p (some id) ∈ n.events
  succeeded : info.status = .succeeded → info.preimage ≠ none
  failed : info.status = .failed → Failure n id

def Truthful (sha256 : Vector UInt8 32 → Vector UInt8 32) (n : History)
    (l : OutboundPaymentInfoStorage) : Prop :=
  ∀ id info, l.lookup id = some info → Accounted sha256 n id info

theorem Failure.mono (h : After n n') (hf : Failure n id) : Failure n' id := by
  rcases hf with he | hr | ⟨recent, hl, hid⟩
  · exact .inl (h.events he)
  · exact .inr (.inl (h.refused hr))
  · exact .inr (.inr ⟨recent, h.listed hl, hid⟩)

theorem Accounted.mono (h : After n n') (ha : Accounted sha256 n id info) :
    Accounted sha256 n' id info where
  made := by
    obtain ⟨c, hc, hr⟩ := ha.made
    exact ⟨c, h.commands hc, hr⟩
  preimage p hp := h.events (ha.preimage p hp)
  succeeded := ha.succeeded
  failed hs := (ha.failed hs).mono h

theorem Truthful.mono (h : After n n') (hl : Truthful sha256 n l) : Truthful sha256 n' l :=
  fun id info hi => (hl id info hi).mono h

theorem Truthful.empty : Truthful sha256 n .empty := by
  intro id info h
  exact absurd (OutboundPaymentInfoStorage.has_iff.mpr ⟨info, h⟩)
    (OutboundPaymentInfoStorage.not_has_empty id)

/-! ### Each way a record changes -/

theorem Accounted.fresh {c : PayCommand} (hc : c ∈ n.commands)
    (hr : record sha256 c = some (id, info)) (hs : info.status = .pending)
    (hp : info.preimage = none) : Accounted sha256 n id info where
  made := ⟨c, hc, info, hr, rfl, rfl⟩
  preimage _ h := absurd (hp.symm.trans h) nofun
  succeeded h := absurd (hs.symm.trans h) nofun
  failed h := absurd (hs.symm.trans h) nofun

theorem Accounted.fail (h : Accounted sha256 n id info) (hf : Failure n id) :
    Accounted sha256 n id { info with status := .failed } :=
  ⟨h.made, h.preimage, nofun, fun _ => hf⟩

theorem Accounted.succeed (h : Accounted sha256 n id info) {p : PaymentPreimage}
    (he : .sent p (some id) ∈ n.events) :
    Accounted sha256 n id { info with preimage := some p, status := .succeeded } where
  made := h.made
  preimage q hq := by
    cases hq
    exact he
  succeeded _ := nofun
  failed := nofun

/-- A command records a payment that is pending and has no preimage. -/
theorem record_pending {c : PayCommand} (h : record sha256 c = some (id, info)) :
    info.status = .pending ∧ info.preimage = none := by
  cases c with
  | invoice inv user =>
      cases h
      exact ⟨rfl, rfl⟩
  | keysend payee amtMsat bytes =>
      cases h
      exact ⟨rfl, rfl⟩
  | offer o user bytes =>
      obtain ⟨msat, _, heq⟩ := Option.map_eq_some_iff.mp h
      cases heq
      exact ⟨rfl, rfl⟩

theorem Truthful.insert (hl : Truthful sha256 n l) {c : PayCommand} (hc : c ∈ n.commands)
    (hr : record sha256 c = some (id, info)) :
    Truthful sha256 n ((LedgerUpdate.insert id info).on l) := by
  intro i info' hi
  rw [LedgerUpdate.lookup_insert] at hi
  split_ifs at hi with hid
  · cases hi
    subst hid
    obtain ⟨hs, hp⟩ := record_pending hr
    exact .fresh hc hr hs hp
  · exact hl i info' hi

theorem Truthful.fail (hl : Truthful sha256 n l) (hf : Failure n id) :
    Truthful sha256 n ((LedgerUpdate.fail id).on l) := by
  intro i info' hi
  rw [LedgerUpdate.lookup_fail] at hi
  obtain ⟨info, hinfo, rfl⟩ := Option.map_eq_some_iff.mp hi
  split_ifs with hid
  · subst hid
    exact (hl i info hinfo).fail hf
  · exact hl i info hinfo

theorem Truthful.succeed (hl : Truthful sha256 n l) {p : PaymentPreimage}
    (he : .sent p (some id) ∈ n.events) :
    Truthful sha256 n ((LedgerUpdate.succeed id p).on l) := by
  intro i info' hi
  rw [LedgerUpdate.lookup_succeed] at hi
  obtain ⟨info, hinfo, rfl⟩ := Option.map_eq_some_iff.mp hi
  split_ifs with hid
  · subst hid
    exact (hl i info hinfo).succeed he
  · exact hl i info hinfo

theorem Truthful.reconcile (hl : Truthful sha256 n l) {recent : List PaymentId}
    (hr : recent ∈ n.listed) : Truthful sha256 n ((LedgerUpdate.reconcile recent).on l) := by
  intro i info' hi
  rw [LedgerUpdate.lookup_reconcile] at hi
  obtain ⟨info, hinfo, rfl⟩ := Option.map_eq_some_iff.mp hi
  split_ifs with hid
  · exact (hl i info hinfo).fail (.inr (.inr ⟨recent, hr, hid.2⟩))
  · exact hl i info hinfo

end

/-! ## What a task has grounds for -/

/-- What a task carries out, and what it has been answered. -/
structure Grounds where
  command : Option PayCommand
  event : Option PaymentEvent
  refused : Option PaymentId
  recent : Option (List PaymentId)
  encoded : Option Bytes

namespace Grounds

def none : Grounds := ⟨.none, .none, .none, .none, .none⟩

variable (sha256 : Vector UInt8 32 → Vector UInt8 32)

/-- A change of a record has its grounds, and what is written was encoded. -/
def permits (h : Grounds) : LedgerAct → Prop
  | .update (.insert id info) => ∃ c, h.command = some c ∧ record sha256 c = some (id, info)
  | .update (.fail id) => h.refused = some id ∨ h.event = some (.failed id)
  | .update (.succeed id p) => h.event = some (.sent p (some id))
  | .update (.reconcile recent) => h.recent = some recent
  | .write bytes => h.encoded = some bytes
  | .send req => ∃ c, h.command = some c ∧ Asks sha256 c req
  | _ => True

def after (h : Grounds) : (a : LedgerAct) → a.Answer → Grounds
  | .encode, bytes => { h with encoded := some bytes }
  | .send _, .ok _ => h
  | .send req, .error _ => { h with refused := some req.id }
  | .listRecentPayments, recent => { h with recent := some recent }
  | _, _ => h

end Grounds

def grounds (sha256 : Vector UInt8 32 → Vector UInt8 32) :
    Typestate LedgerAct LedgerAct.Answer Grounds where
  permits := Grounds.permits sha256
  answers _ _ _ := True
  after := Grounds.after

/-! ### Every program has them -/

section

variable {sha256 : Vector UInt8 32 → Vector UInt8 32} {h : Grounds} {info : PaymentInfo}
  {req : PayRequest} {sent : Outcome}

/-- Whatever it encodes it may write. -/
theorem follows_persist {β : Type} {Q : β → Grounds → Prop} {next : LedgerProg β}
    (hnext : ∀ bytes, (grounds sha256).Follows Q next { h with encoded := some bytes }) :
    (grounds sha256).Follows Q (persist >>= fun _ => next) h :=
  .act trivial fun bytes _ => .act rfl fun _ _ => hnext bytes

theorem follows_recordAndSend {c : PayCommand} (hc : h.command = some c)
    (hr : record sha256 c = some (req.id, info)) (hreq : Asks sha256 c req) :
    (grounds sha256).Follows (fun _ _ => True) (recordAndSend info req sent) h := by
  refine .act ⟨c, hc, hr⟩ fun _ _ => follows_persist fun bytes => .act ⟨c, hc, hreq⟩ fun r _ => ?_
  cases r with
  | ok x => exact trivial
  | error e =>
      refine .act trivial fun b _ => ?_
      cases b with
      | false => exact trivial
      | true => exact .act (.inl rfl) fun _ _ => follows_persist fun _ => trivial

theorem follows_withOutbound {body : LedgerProg Outcome}
    (hbody : (grounds sha256).Follows (fun _ _ => True) body h) :
    (grounds sha256).Follows (fun _ _ => True) (withOutbound body) h := by
  refine .act trivial fun _ _ => ?_
  show (grounds sha256).Follows (fun _ _ => True) (body >>= _) h
  refine Typestate.Follows.bind ?_ hbody
  intro out _ _
  cases out with
  | panicked => exact trivial
  | _ => exact .act trivial fun _ _ => trivial

theorem follows_pay (ldk : Ldk) (c : PayCommand) :
    (grounds ldk.sha256).Follows (fun _ _ => True) (c.program ldk)
      { Grounds.none with command := some c } := by
  cases c with
  | invoice inv user =>
      refine follows_withOutbound ?_
      unfold sendPayment
      split
      · exact trivial
      · rename_i hash onion route hparams
        obtain rfl := sendPaymentParams_hash hparams
        exact follows_recordAndSend rfl rfl ⟨rfl, rfl⟩
  | keysend payee amtMsat bytes =>
      exact follows_withOutbound (follows_recordAndSend rfl rfl ⟨rfl, rfl⟩)
  | offer o user bytes =>
      rw [PayCommand.program]
      split
      · exact trivial
      · rename_i msat hmsat
        have hr : record ldk.sha256 (.offer o user bytes) = some (⟨bytes⟩, plainRecord msat) := by
          rw [record, hmsat]
          rfl
        refine .act trivial fun _ _ => .act ⟨_, rfl, hr⟩ fun _ _ => .act trivial fun _ _ => ?_
        refine .act trivial fun _ _ => .act trivial fun bytes _ => .act trivial fun _ _ => ?_
        refine .act rfl fun _ _ => .act ⟨_, rfl, rfl, rfl⟩ fun r _ => ?_
        cases r with
        | ok x => exact trivial
        | error e => exact trivial

end

/-! ## The invariant -/

section

variable {codec : Codec OutboundPaymentInfoStorage} {sha256 : Vector UInt8 32 → Vector UInt8 32}
  {n n' : History} {h : Grounds}

/-- What a task goes by is what happened. -/
structure Grounded (codec : Codec OutboundPaymentInfoStorage)
    (sha256 : Vector UInt8 32 → Vector UInt8 32) (n : History) (h : Grounds) : Prop where
  command : ∀ c, h.command = some c → c ∈ n.commands
  event : ∀ e, h.event = some e → e ∈ n.events
  refused : ∀ id, h.refused = some id → id ∈ n.refused
  recent : ∀ r, h.recent = some r → r ∈ n.listed
  encoded : ∀ bytes, h.encoded = some bytes →
    ∃ l, codec.decode bytes = some l ∧ Truthful sha256 n l

theorem Grounded.none : Grounded codec sha256 n .none := ⟨nofun, nofun, nofun, nofun, nofun⟩

theorem Grounded.given {c : PayCommand} (hc : c ∈ n.commands) :
    Grounded codec sha256 n { Grounds.none with command := some c } := by
  refine ⟨?_, nofun, nofun, nofun, nofun⟩
  rintro _ ⟨⟩
  exact hc

theorem Grounded.mono (ha : After n n') (hh : Grounded codec sha256 n h) :
    Grounded codec sha256 n' h where
  command c hc := ha.commands (hh.command c hc)
  event e he := ha.events (hh.event e he)
  refused id hid := ha.refused (hh.refused id hid)
  recent r hr := ha.listed (hh.recent r hr)
  encoded bytes hb := by
    obtain ⟨l, hl, ht⟩ := hh.encoded bytes hb
    exact ⟨l, hl, ht.mono ha⟩

/-- What the commands, the requests and the events have to do with each other. -/
structure Consistent (sha256 : Vector UInt8 32 → Vector UInt8 32) (n : History) : Prop where
  asked : ∀ req ∈ n.handed, ∃ c ∈ n.commands, Asks sha256 c req
  told : ∀ p id, .sent p (some id) ∈ n.events →
    ∃ req ∈ n.handed, req.id = id ∧ Proves sha256 p req

structure Books (codec : Codec OutboundPaymentInfoStorage)
    (sha256 : Vector UInt8 32 → Vector UInt8 32) (s : LedgerState History)
    (hold : Task → Grounds) : Prop where
  memory : Truthful sha256 s.node s.ledger
  file : Truthful sha256 s.node (readOutboundPaymentInfo codec s.file)
  consistent : Consistent sha256 s.node
  tasks : ∀ t, Grounded codec sha256 s.node (hold t)

/-- A step at which more may have happened, and one task learns something. -/
theorem Books.step {s s' : LedgerState History} {hold : Task → Grounds} {t : Task}
    (hb : Books codec sha256 s hold) (ha : After s.node s'.node)
    (hmem : Truthful sha256 s'.node s'.ledger)
    (hfile : s'.file = s.file ∨ Truthful sha256 s'.node (readOutboundPaymentInfo codec s'.file))
    (hp : Consistent sha256 s'.node) (hh : Grounded codec sha256 s'.node h) :
    Books codec sha256 s' (Function.update hold t h) where
  memory := hmem
  file := by
    rcases hfile with heq | hf
    · rw [heq]
      exact hb.file.mono ha
    · exact hf
  consistent := hp
  tasks u := by
    by_cases hu : u = t
    · subst hu
      simpa using hh
    · simpa [hu] using (hb.tasks u).mono ha

/-- A step at which nothing happens that the records speak of. -/
theorem Books.same {s s' : LedgerState History} {hold : Task → Grounds} {t : Task}
    (hb : Books codec sha256 s hold) (hl : s'.ledger = s.ledger) (hf : s'.file = s.file)
    (hn : s'.node = s.node) : Books codec sha256 s' (Function.update hold t (hold t)) := by
  refine hb.step (hn ▸ .refl _) ?_ (.inl hf) ?_ ?_
  · rw [hl, hn]
    exact hb.memory
  · rw [hn]
    exact hb.consistent
  · rw [hn]
    exact hb.tasks t

theorem Books.exec {t : Task} {a : LedgerAct} {s s' : LedgerState History} {r : a.Answer}
    {hold : Task → Grounds} (he : ledgerExec codec manager t a s r s')
    (hb : Books codec sha256 s hold) (hp : (hold t).permits sha256 a) :
    Books codec sha256 s' (Function.update hold t ((hold t).after a r)) := by
  have ht := hb.tasks t
  cases a with
  | lock | unlock =>
      obtain ⟨_, rfl⟩ := he
      exact hb.same rfl rfl rfl
  | contains id | isEmpty =>
      obtain ⟨_, _, rfl⟩ := he
      exact hb.same rfl rfl rfl
  | load =>
      obtain ⟨_, rfl⟩ := he
      exact hb.step (.refl _) hb.file (.inl rfl) hb.consistent ht
  | encode =>
      obtain ⟨_, rfl, rfl⟩ := he
      refine hb.step (.refl _) hb.memory (.inl rfl) hb.consistent
        ⟨ht.command, ht.event, ht.refused, ht.recent, ?_⟩
      rintro bytes ⟨⟩
      exact ⟨s.ledger, codec.decode_write _, hb.memory⟩
  | write bytes =>
      obtain rfl := he
      obtain ⟨l, hl, htrue⟩ := ht.encoded bytes hp
      refine hb.step (.refl _) hb.memory (.inr ?_) hb.consistent ht
      have hread : readOutboundPaymentInfo codec (some bytes) = l := by
        simp only [readOutboundPaymentInfo, hl]
      exact hread ▸ htrue
  | send req =>
      obtain ⟨n, rfl, rfl⟩ := he
      have hrefused :
          s.node.refused ⊆ if r.isOk then s.node.refused else req.id :: s.node.refused := by
        split
        · exact List.Subset.refl _
        · exact List.subset_cons_self _ _
      have hafter : After s.node { s.node with
          handed := req :: s.node.handed
          refused := if r.isOk then s.node.refused else req.id :: s.node.refused } :=
        ⟨List.Subset.refl _, List.subset_cons_self _ _, hrefused, List.Subset.refl _,
          List.Subset.refl _⟩
      refine hb.step hafter (hb.memory.mono hafter) (.inl rfl) ⟨?_, ?_⟩ ?_
      · intro req' hreq
        rcases List.mem_cons.mp hreq with rfl | hreq
        · obtain ⟨c, hc, hasks⟩ := hp
          exact ⟨c, ht.command c hc, hasks⟩
        · exact hb.consistent.asked req' hreq
      · intro p id hid
        obtain ⟨req', hreq, hrest⟩ := hb.consistent.told p id hid
        exact ⟨req', List.mem_cons_of_mem _ hreq, hrest⟩
      · cases r with
        | ok x => exact ht.mono hafter
        | error e =>
            obtain ⟨hc, hev, _, hrec, henc⟩ := ht.mono hafter
            refine ⟨hc, hev, ?_, hrec, henc⟩
            rintro id ⟨⟩
            exact List.mem_cons_self
  | listRecentPayments =>
      obtain ⟨n, rfl, rfl⟩ := he
      have hafter : After s.node { s.node with listed := r :: s.node.listed } :=
        ⟨List.Subset.refl _, List.Subset.refl _, List.Subset.refl _, List.Subset.refl _,
          List.subset_cons_self _ _⟩
      obtain ⟨hc, hev, href, _, henc⟩ := ht.mono hafter
      refine hb.step hafter (hb.memory.mono hafter) (.inl rfl)
        ⟨hb.consistent.asked, hb.consistent.told⟩ ⟨hc, hev, href, ?_, henc⟩
      rintro recent ⟨⟩
      exact List.mem_cons_self
  | update u =>
      obtain ⟨_, rfl⟩ := he
      have htrue : Truthful sha256 s.node (u.on s.ledger) := by
        cases u with
        | insert id info =>
            obtain ⟨c, hc, hr⟩ := hp
            exact hb.memory.insert (ht.command c hc) hr
        | fail id =>
            rcases hp with hr | he
            · exact hb.memory.fail (.inr (.inl (ht.refused id hr)))
            · exact hb.memory.fail (.inl (ht.event _ he))
        | succeed id p => exact hb.memory.succeed (ht.event _ hp)
        | reconcile recent => exact hb.memory.reconcile (ht.recent recent hp)
      exact hb.step (.refl _) htrue (.inl rfl) hb.consistent ht

/-- What a record says, and what its preimage proves: its hash is the id, or the id
was drawn for an offer. -/
theorem Books.record {s : LedgerState History} {hold : Task → Grounds}
    (hb : Books codec sha256 s hold) {l : OutboundPaymentInfoStorage}
    (hl : l = s.ledger ∨ l = readOutboundPaymentInfo codec s.file) {id : PaymentId}
    {info : PaymentInfo} (hinfo : l.lookup id = some info) :
    Accounted sha256 s.node id info ∧ ∀ p, info.preimage = some p →
      sha256 p.bytes = id.bytes ∨ ∃ o user, .offer o user id.bytes ∈ s.node.commands := by
  have hacc : Accounted sha256 s.node id info := by
    rcases hl with rfl | rfl
    · exact hb.memory id info hinfo
    · exact hb.file id info hinfo
  refine ⟨hacc, fun p hp => ?_⟩
  obtain ⟨req, hreq, rfl, hproves⟩ := hb.consistent.told p id (hacc.preimage p hp)
  obtain ⟨c, hc, hasks⟩ := hb.consistent.asked req hreq
  rcases hasks.proves sha256 hproves with h | ⟨o, user, rfl⟩
  · exact .inl h
  · exact .inr ⟨o, user, hc⟩

theorem Books.initial : Books codec sha256 initial fun _ => Grounds.none :=
  ⟨.empty, .empty, ⟨nofun, nofun⟩, fun _ => .none⟩

end

/-! ## A payment that arrives, and one that does not -/

/-- The actions of `t`, executable: every request accepted, nothing listed. -/
def play (t : Task) (a : LedgerAct) (s : LedgerState History) :
    Option (a.Answer × LedgerState History) :=
  ledgerStep OutboundPaymentInfoStorage.codec
    (fun n req => (.ok (), { n with handed := req :: n.handed }))
    (fun n => ([], { n with listed := [] :: n.listed })) t a s

theorem play_exec {t : Task} (a : LedgerAct) (s : LedgerState History) (r : a.Answer)
    (s' : LedgerState History) (h : play t a s = some (r, s')) :
    (system OutboundPaymentInfoStorage.codec (.plain id)).exec t a s r s' :=
  ledgerExec_of_step (fun _ _ => rfl) (fun _ => rfl) h

end Account

end LightningNode
