/-
# `LightningNode.Ledger.Protocol` — the payment programs, checked once

A `Protocol` is what one claim about the ledger has to supply: an invariant,
what may change, when a task may act, when a payment is ready to be sent and
when an event has been delivered, and the few facts that say every action keeps
them.  In return every command and every handler is safe for it
(`Protocol.command`, `Protocol.handler`).

Where a task stands is an assertion `At t held snap clean k`:

    held     it holds the mutex
    snap     the bytes it has encoded and not yet written
    clean    it has no change of the ledger still to write
    k        what else it knows: a payment ready to be sent, an event delivered
-/
import LightningNode.Ledger.Shared

namespace LightningNode

open Conc LedgerProg

variable {χ : Type}

abbrev LedgerSystem (χ : Type) := System Task LedgerAct LedgerAct.Answer Outcome (LedgerState χ)

structure Protocol (codec : Codec OutboundPaymentInfoStorage) (m : Manager χ)
    (S : LedgerSystem χ) where
  ok : Task → (a : LedgerAct) → LedgerState χ → a.Answer → Prop
  exec_sub : ∀ {t a s r s'}, S.exec t a s r s' → ledgerExec codec m t a s r s' ∧ ok t a s r
  inv : LedgerState χ → Prop
  change : LedgerState χ → LedgerState χ → Prop
  change_refl : ∀ s, change s s
  change_trans : ∀ {s₁ s₂ s₃}, change s₁ s₂ → change s₂ s₃ → change s₁ s₃
  /-- the task may act -/
  turn : Task → χ → Prop
  /-- the payment is recorded and may be sent -/
  ready : PaymentId → OutboundPaymentInfoStorage → χ → Prop
  /-- the event has been handed to the event task -/
  delivered : PaymentEvent → χ → Prop
  turn_startup : ∀ {n}, turn .startup n → ¬ turn .cli n ∧ ¬ turn .events n
  turn_send : ∀ {n req r n'}, m.send n req r n' → ∀ t, turn t n → turn t n'
  turn_recent : ∀ {n r n'}, m.recent n r n' → ∀ t, turn t n → turn t n'
  delivered_send : ∀ {n req r n'}, m.send n req r n' → ∀ e, delivered e n → delivered e n'
  ready_insert : ∀ {s id info}, inv s → turn .cli s.node → ok .cli (.update (.insert id info)) s () →
    info.status = .pending → ready id ((LedgerUpdate.insert id info).on s.ledger) s.node
  ready_refused : ∀ {n req e n' l}, m.send n req (.error e) n' → ready req.id l n →
    ready req.id l n'
  ready_sent : ∀ {n l id i p}, delivered (.sent p (some i)) n → ready id l n →
    ready id ((LedgerUpdate.succeed i p).on l) n
  ready_failed : ∀ {n l id i}, delivered (.failed i) n → ready id l n →
    ready id ((LedgerUpdate.fail i).on l) n

namespace Protocol

variable {codec : Codec OutboundPaymentInfoStorage} {m : Manager χ} {S : LedgerSystem χ}
variable (P : Protocol codec m S)

/-- What a task must have seen to before it performs an action. -/
def Pre : Task → LedgerAct → LedgerState χ → Prop
  | t, .unlock, s => t = .events → s.snapshot t = none ∧ s.unwritten t = false
  | t, .update u, s => s.snapshot t = none ∧
      match t, u with
      | .cli, .insert _ info => info.status = .pending ∧ info.preimage = none
      | .cli, .fail id => P.ready id s.ledger s.node
      | .events, .succeed id p => P.delivered (.sent p (some id)) s.node
      | .events, .fail id => P.delivered (.failed id) s.node
      | .startup, .reconcile _ => s.ledger = readOutboundPaymentInfo codec s.file
      | _, _ => False
  | t, .write bytes, s => (∃ v, s.snapshot t = some ⟨v, bytes⟩) ∧
      (t = .startup → ∃ recent,
        s.ledger = (LedgerUpdate.reconcile recent).on (readOutboundPaymentInfo codec s.file))
  | t, .send req, s => t = .cli ∧ s.snapshot t = none ∧ s.unwritten t = false ∧
      P.ready req.id s.ledger s.node
  | t, .load, s => t = .startup ∧ s.snapshot t = none ∧ s.unwritten t = false
  | t, .listRecentPayments, _ => t = .startup
  | _, _, _ => True

/-- The obligation that is the claim's own: every action keeps the invariant and
is an allowed change. -/
def Keeps : Prop :=
  ∀ {t a s r s'}, P.inv s → P.turn t s.node → P.Pre t a s → ledgerExec codec m t a s r s' →
    P.ok t a s r → P.inv s' ∧ P.change s s'

/-- What the task `u` goes on knowing from `s` to `s'`, if it may act in `s`. -/
structure Keeping (u : Task) (s s' : LedgerState χ) : Prop where
  turn : P.turn u s'.node
  ready : u = .cli → ∀ id, P.ready id s.ledger s.node → P.ready id s'.ledger s'.node
  delivered : u = .events → ∀ e, P.delivered e s.node → P.delivered e s'.node
  /-- nothing else runs during startup -/
  alone : u = .startup → s' = s

/-- What the task `u` relies on: its own things are left alone, and while it may
act it goes on knowing what it knows. -/
def Rely (u : Task) (s s' : LedgerState χ) : Prop :=
  Frame u s s' ∧ (P.turn u s.node → P.Keeping u s s')

theorem Rely.refl (u : Task) (s : LedgerState χ) : P.Rely u s s :=
  ⟨.refl u s, fun h => ⟨h, fun _ _ h => h, fun _ _ h => h, fun _ => rfl⟩⟩

theorem Rely.trans {u : Task} {s₁ s₂ s₃ : LedgerState χ} (h : P.Rely u s₁ s₂)
    (h' : P.Rely u s₂ s₃) : P.Rely u s₁ s₃ := by
  refine ⟨h.1.trans h'.1, fun ht => ?_⟩
  have hk := h.2 ht
  have hk' := h'.2 hk.turn
  exact
    { turn := hk'.turn
      ready := fun hu id hi => hk'.ready hu id (hk.ready hu id hi)
      delivered := fun hu e he => hk'.delivered hu e (hk.delivered hu e he)
      alone := fun hu => (hk'.alone hu).trans (hk.alone hu) }

def discipline : Discipline S where
  inv := P.inv
  change := P.change
  rely := P.Rely
  change_refl := P.change_refl
  change_trans := P.change_trans
  rely_refl := Rely.refl P
  rely_trans := Rely.trans P

/-! ## One step -/

/-- An action of a task in turn leaves alone what a task other than `.startup`
knows: startup acts only when the others may not, and each of the others
changes the ledger in ways the `ready_` laws cover. -/
theorem keeping_of_exec {t u : Task} (hu : u ≠ t) {a : LedgerAct} {s s' : LedgerState χ}
    {r : a.Answer} (ht : P.turn t s.node) (hut : P.turn u s.node) (hp : P.Pre t a s)
    (he : ledgerExec codec m t a s r s') : P.Keeping u s s' := by
  have hus : u ≠ .startup := by
    rintro rfl
    have h := P.turn_startup hut
    cases t with
    | cli => exact h.1 ht
    | events => exact h.2 ht
    | startup => exact hu rfl
  have hts : t ≠ .startup := by
    rintro rfl
    have h := P.turn_startup ht
    cases u with
    | cli => exact h.1 hut
    | events => exact h.2 hut
    | startup => exact hu rfl
  have same : ∀ {s' : LedgerState χ}, s'.ledger = s.ledger → s'.node = s.node →
      P.Keeping u s s' := fun hl hn =>
    ⟨hn ▸ hut, fun _ _ h => by rw [hl, hn]; exact h, fun _ _ h => by rw [hn]; exact h,
      fun h => absurd h hus⟩
  cases a with
  | lock | unlock => obtain ⟨_, rfl⟩ := he; exact same rfl rfl
  | contains id => obtain ⟨_, _, rfl⟩ := he; exact same rfl rfl
  | isEmpty => obtain ⟨_, _, rfl⟩ := he; exact same rfl rfl
  | encode => obtain ⟨_, _, rfl⟩ := he; exact same rfl rfl
  | write bytes => obtain rfl := he; exact same rfl rfl
  | send req =>
      obtain ⟨n, hm, rfl⟩ := he
      obtain ⟨rfl, -⟩ := hp
      exact ⟨P.turn_send hm u hut, fun hc => absurd hc hu, fun _ => P.delivered_send hm,
        fun h => absurd h hus⟩
  | load => exact absurd hp.1 hts
  | listRecentPayments => exact absurd hp hts
  | update up =>
      obtain ⟨_, rfl⟩ := he
      refine ⟨hut, fun hc id hr => ?_, fun _ _ hd => hd, fun h => absurd h hus⟩
      subst hc
      obtain ⟨_, hp⟩ := hp
      match t, up with
      | .events, .succeed i p => exact P.ready_sent hp hr
      | .events, .fail i => exact P.ready_failed hp hr
      | .startup, _ => exact absurd rfl hts

/-- An action of `t` is one the other tasks rely on. -/
theorem rely_of_exec {t u : Task} (hu : u ≠ t) {a : LedgerAct} {s s' : LedgerState χ}
    {r : a.Answer} (ht : P.turn t s.node) (hp : P.Pre t a s)
    (he : ledgerExec codec m t a s r s') : P.Rely u s s' :=
  ⟨ledgerExec_frame hu he, fun hut => P.keeping_of_exec hu ht hut hp he⟩

/-- What every action of a task in turn guarantees, once its `Pre` holds. -/
theorem step (hk : P.Keeps) {t : Task} {a : LedgerAct} {s s' : LedgerState χ} {r : a.Answer}
    (hi : P.inv s) (ht : P.turn t s.node) (hp : P.Pre t a s) (he : S.exec t a s r s') :
    P.inv s' ∧ P.discipline.Guar t s s' ∧ P.turn t s'.node := by
  obtain ⟨he, hok⟩ := P.exec_sub he
  obtain ⟨hi', hc⟩ := hk hi ht hp he hok
  refine ⟨hi', ⟨hc, fun u hu => P.rely_of_exec hu ht hp he⟩, ?_⟩
  cases a with
  | lock | unlock | load | update => obtain ⟨_, rfl⟩ := he; exact ht
  | contains id => obtain ⟨_, _, rfl⟩ := he; exact ht
  | isEmpty => obtain ⟨_, _, rfl⟩ := he; exact ht
  | encode => obtain ⟨_, _, rfl⟩ := he; exact ht
  | write bytes => obtain rfl := he; exact ht
  | send req => obtain ⟨n, hm, rfl⟩ := he; exact P.turn_send hm t ht
  | listRecentPayments => obtain ⟨n, hm, rfl⟩ := he; exact P.turn_recent hm t ht

/-! ## Where a task stands -/

/-- What a task may know besides its own variables. -/
inductive Know where
  | nothing
  | ready (id : PaymentId)
  | delivered (e : PaymentEvent)

def Knows (t : Task) : Know → LedgerState χ → Prop
  | .nothing, _ => True
  | .ready id, s => t = .cli ∧ P.ready id s.ledger s.node
  | .delivered e, s => t = .events ∧ P.delivered e s.node

structure At (t : Task) (held : Bool) (snap : Option Bytes) (clean : Bool) (k : Know)
    (s : LedgerState χ) : Prop where
  turn : P.turn t s.node
  held : s.holder = some t ↔ held = true
  snap : (s.snapshot t).map Snapshot.bytes = snap
  clean : clean = true → s.unwritten t = false
  knows : P.Knows t k s

variable {t : Task} {held clean : Bool} {snap : Option Bytes} {k : Know}

theorem at_stable : P.discipline.Stable t (P.At t held snap clean k) := by
  intro s s' _ _ hr h
  obtain ⟨hf, hr⟩ := hr
  have hk := hr h.turn
  refine ⟨hk.turn, hf.holder.trans h.held, hf.snapshot ▸ h.snap, fun hc => ?_, ?_⟩
  · rw [hf.unwritten]; exact h.clean hc
  · cases k with
    | nothing => trivial
    | ready id => exact ⟨h.knows.1, hk.ready h.knows.1 id h.knows.2⟩
    | delivered e => exact ⟨h.knows.1, hk.delivered h.knows.1 e h.knows.2⟩

variable {P}

theorem At.no_snapshot {s : LedgerState χ} (h : P.At t held none clean k s) :
    s.snapshot t = none := by
  simpa using h.snap

theorem At.idle {s : LedgerState χ} (h : P.At t false none true k s) : Idle t s :=
  ⟨fun hh => absurd (h.held.mp hh) (by decide), h.no_snapshot, h.clean rfl⟩

theorem At.of_idle {s : LedgerState χ} (h : Idle t s) (ht : P.turn t s.node)
    (hk : P.Knows t k s) : P.At t false none true k s :=
  ⟨ht, ⟨fun hh => absurd hh h.holder, nofun⟩, by rw [h.snapshot]; rfl, fun _ => h.unwritten, hk⟩

theorem At.forget {s : LedgerState χ} (h : P.At t held snap clean k s) :
    P.At t held snap clean .nothing s :=
  ⟨h.turn, h.held, h.snap, h.clean, trivial⟩

/-- What a task knows depends on the ledger and the surroundings only. -/
theorem Knows.congr {s s' : LedgerState χ} (h : P.Knows t k s) (hl : s'.ledger = s.ledger)
    (hn : s'.node = s.node) : P.Knows t k s' := by
  cases k with
  | nothing => trivial
  | ready id => exact ⟨h.1, by rw [hl, hn]; exact h.2⟩
  | delivered e => exact ⟨h.1, by rw [hn]; exact h.2⟩

/-! ## One rule per action -/

/-- The shape of every rule: the action's `Pre` holds, and `snap'`, `k'` say
where the task stands after the answer. -/
theorem rule (hk : P.Keeps) {a : LedgerAct} {held' clean' : Bool}
    (snap' : a.Answer → Option Bytes) (k' : a.Answer → Know)
    (hpre : ∀ s, P.At t held snap clean k s → P.Pre t a s)
    (hpost : ∀ s r s', P.inv s → P.At t held snap clean k s → P.turn t s'.node →
      ledgerExec codec m t a s r s' → P.ok t a s r →
      P.At t held' (snap' r) clean' (k' r) s') :
    P.discipline.Triple t (P.At t held snap clean k) (act a)
      (fun r => P.At t held' (snap' r) clean' (k' r)) := by
  refine .perform P.at_stable (fun r => P.at_stable) fun s hi h r s' he => ?_
  obtain ⟨hi', hg, ht⟩ := P.step hk hi h.turn (hpre s h) he
  obtain ⟨he, hok⟩ := P.exec_sub he
  exact ⟨hi', hg, hpost s r s' hi h ht he hok⟩

theorem lock_rule (hk : P.Keeps) :
    P.discipline.Triple t (P.At t false snap clean k) (act .lock)
      (fun _ => P.At t true snap clean k) := by
  refine rule hk (fun _ => snap) (fun _ => k) (fun _ _ => trivial) fun s r s' _ h ht he _ => ?_
  obtain ⟨_, rfl⟩ := he
  exact ⟨ht, by simp, h.snap, h.clean, h.knows.congr rfl rfl⟩

/-- The event task drops the mutex only when everything is written. -/
theorem unlock_rule (hk : P.Keeps) (hq : t = .events → snap = none ∧ clean = true) :
    P.discipline.Triple t (P.At t true snap clean k) (act .unlock)
      (fun _ => P.At t false snap clean k) := by
  refine rule hk (fun _ => snap) (fun _ => k) (fun s h hev => ?_) fun s r s' _ h ht he _ => ?_
  · obtain ⟨rfl, rfl⟩ := hq hev
    exact ⟨h.no_snapshot, h.clean rfl⟩
  · obtain ⟨_, rfl⟩ := he
    exact ⟨ht, by simp, h.snap, h.clean, h.knows.congr rfl rfl⟩

theorem contains_rule (hk : P.Keeps) (id : PaymentId) :
    P.discipline.Triple t (P.At t held snap clean k) (act (.contains id))
      (fun _ => P.At t held snap clean k) := by
  refine rule hk (fun _ => snap) (fun _ => k) (fun _ _ => trivial) fun s r s' _ h _ he _ => ?_
  obtain ⟨_, _, rfl⟩ := he
  exact h

theorem isEmpty_rule (hk : P.Keeps) :
    P.discipline.Triple t (P.At t held snap clean k) (act .isEmpty)
      (fun _ => P.At t held snap clean k) := by
  refine rule hk (fun _ => snap) (fun _ => k) (fun _ _ => trivial) fun s r s' _ h _ he _ => ?_
  obtain ⟨_, _, rfl⟩ := he
  exact h

theorem encode_rule (hk : P.Keeps) :
    P.discipline.Triple t (P.At t held none clean k) (act .encode)
      (fun bytes => P.At t held (some bytes) clean k) := by
  refine rule (a := .encode) hk some (fun _ => k) (fun _ _ => trivial) fun s r s' _ h ht he _ => ?_
  obtain ⟨_, _, rfl⟩ := he
  exact ⟨ht, h.held, by simp [LedgerState.encoded], h.clean, h.knows.congr rfl rfl⟩

theorem write_rule (hk : P.Keeps) (ht : t ≠ .startup) (bytes : Bytes) :
    P.discipline.Triple t (P.At t held (some bytes) clean k) (act (.write bytes))
      (fun _ => P.At t held none true k) := by
  refine rule hk (fun _ => none) (fun _ => k) (fun s h => ?_) fun s r s' _ h ht he _ => ?_
  · obtain ⟨⟨v, b⟩, hs, hb⟩ := Option.map_eq_some_iff.mp h.snap
    exact ⟨⟨v, by rw [hs, ← hb]⟩, fun h => absurd h ht⟩
  · obtain rfl := he
    exact ⟨ht, h.held, by simp [LedgerState.written], fun _ => by simp [LedgerState.written],
      h.knows.congr rfl rfl⟩

/-- A change of the ledger whose `Pre` the task can show. -/
theorem update_rule (hk : P.Keeps) {u : LedgerUpdate} {k' : Know}
    (hpre : ∀ s, P.At t held none clean k s → P.Pre t (.update u) s)
    (hknow : ∀ s, P.inv s → P.At t held none clean k s → P.ok t (.update u) s () →
      P.Knows t k' (s.updated t u)) :
    P.discipline.Triple t (P.At t held none clean k) (act (.update u))
      (fun _ => P.At t held none false k') := by
  refine rule hk (fun _ => none) (fun _ => k') hpre fun s r s' hi h ht he hok => ?_
  obtain ⟨_, rfl⟩ := he
  exact ⟨ht, h.held, h.snap, fun hc => absurd hc (by decide), hknow s hi h hok⟩

/-- A refused payment is still the one that was made ready. -/
theorem send_rule (hk : P.Keeps) (req : PayRequest) :
    P.discipline.Triple .cli (P.At .cli held none true (.ready req.id)) (act (.send req))
      (fun r => P.At .cli held none true
        (match r with | .ok _ => .nothing | .error _ => .ready req.id)) := by
  refine rule (a := .send req) hk (fun _ => none)
    (fun r => match r with | .ok _ => .nothing | .error _ => .ready req.id) (fun s h => ?_)
    fun s r s' _ h ht he _ => ?_
  · exact ⟨rfl, h.no_snapshot, h.clean rfl, h.knows.2⟩
  · obtain ⟨n, hm, rfl⟩ := he
    refine ⟨ht, h.held, h.snap, h.clean, ?_⟩
    match r with
    | .ok _ => trivial
    | .error e => exact ⟨rfl, P.ready_refused hm h.knows.2⟩

theorem persist_rule (hk : P.Keeps) (ht : t ≠ .startup) :
    P.discipline.Triple t (P.At t held none clean k) persist
      (fun _ => P.At t held none true k) :=
  .bind _ (encode_rule hk) fun bytes => write_rule hk ht bytes

/-! ## The commands -/

/-- A program has ended with nothing left to write; if it panicked, the mutex
may still be taken. -/
def Ended (P : Protocol codec m S) (t : Task) (held : Bool) (out : Outcome) (s : LedgerState χ) :
    Prop :=
  ∃ held', (out ≠ .panicked → held' = held) ∧ P.At t held' none true .nothing s

theorem Ended.idle {out : Outcome} {s : LedgerState χ} (hout : out ≠ .panicked)
    (h : P.Ended t false out s) : Idle t s := by
  obtain ⟨held', hh, h⟩ := h
  rw [hh hout] at h
  exact h.idle

theorem ended_stable {out : Outcome} : P.discipline.Stable t (P.Ended t held out) := by
  rintro s s' hi hi' hr ⟨held', hh, h⟩
  exact ⟨held', hh, P.at_stable s s' hi hi' hr h⟩

theorem return_rule (out : Outcome) :
    P.discipline.Triple t (P.At t held none true k) (.ret out) (P.Ended t held) :=
  .ret P.at_stable fun _ _ h => ⟨held, fun _ => rfl, h.forget⟩

theorem panic_rule {held' : Bool} :
    P.discipline.Triple t (P.At t held none true k) (.ret .panicked) (P.Ended t held') :=
  .ret P.at_stable fun _ _ h => ⟨held, fun hn => absurd rfl hn, h.forget⟩

theorem recordAndSend_rule (hk : P.Keeps) {info : PaymentInfo} (req : PayRequest) (sent : Outcome)
    (hinfo : info.status = .pending ∧ info.preimage = none) :
    P.discipline.Triple .cli (P.At .cli true none clean .nothing) (recordAndSend info req sent)
      (P.Ended .cli true) := by
  refine .bind (fun _ => P.At .cli true none false (.ready req.id)) ?_ fun _ => ?_
  · exact update_rule hk (fun s h => ⟨h.no_snapshot, hinfo⟩)
      fun s hi h hok => ⟨rfl, P.ready_insert hi h.turn hok hinfo.1⟩
  refine .bind _ (persist_rule hk (by decide)) fun _ => .bind _ (send_rule hk req) fun r => ?_
  cases r with
  | ok _ => exact return_rule sent
  | error e =>
      refine .bind _ (contains_rule hk req.id) fun b => ?_
      cases b with
      | false => exact panic_rule
      | true =>
          refine .bind (fun _ => P.At .cli true none false .nothing) ?_ fun _ => ?_
          · exact update_rule hk (fun s h => ⟨h.no_snapshot, h.knows.2⟩) fun _ _ _ _ => trivial
          · exact .bind _ (persist_rule hk (by decide)) fun _ => return_rule _

theorem sendPayment_rule (hk : P.Keeps) (invoice : Bolt11Invoice) (amt : Option UInt64) :
    P.discipline.Triple .cli (P.At .cli true none true .nothing) (sendPayment ldk invoice amt)
      (P.Ended .cli true) := by
  unfold sendPayment
  split
  · exact return_rule _
  · exact recordAndSend_rule hk _ _ ⟨rfl, rfl⟩

theorem withOutbound_rule (hk : P.Keeps) {body : LedgerProg Outcome}
    (h : P.discipline.Triple .cli (P.At .cli true none true .nothing) body (P.Ended .cli true)) :
    P.discipline.Triple .cli (P.At .cli false none true .nothing) (withOutbound body)
      (P.Ended .cli false) := by
  refine .bind _ (lock_rule hk) fun _ => .bind _ h fun out => ?_
  by_cases hout : out = .panicked
  · subst hout
    refine .ret ended_stable fun _ _ h => ?_
    obtain ⟨held', _, h⟩ := h
    exact ⟨held', fun hn => absurd rfl hn, h⟩
  · have hpre : ∀ s, P.inv s → P.Ended .cli true out s → P.At .cli true none true .nothing s := by
      rintro s _ ⟨held', hh, h⟩
      rw [hh hout] at h
      exact h
    have hrest : P.discipline.Triple .cli (P.At .cli true none true .nothing)
        (act .unlock >>= fun _ => .ret out) (P.Ended .cli false) :=
      .bind _ (unlock_rule hk nofun) fun _ => return_rule out
    cases out <;> first | exact absurd rfl hout | exact hrest.weaken hpre

theorem payOffer_rule (hk : P.Keeps) (offer : Offer) (id : PaymentId) (amt : UInt64) :
    P.discipline.Triple .cli (P.At .cli false none true .nothing) (payOffer offer id amt)
      (P.Ended .cli false) := by
  refine .bind _ (lock_rule hk) fun _ => ?_
  refine .bind (fun _ => P.At .cli true none false (.ready id)) ?_ fun _ => ?_
  · exact update_rule hk (fun s h => ⟨h.no_snapshot, rfl, rfl⟩)
      fun s hi h hok => ⟨rfl, P.ready_insert hi h.turn hok rfl⟩
  refine .bind _ (unlock_rule hk nofun) fun _ => .bind _ (lock_rule hk) fun _ => ?_
  refine .bind _ (encode_rule hk) fun bytes => .bind _ (unlock_rule hk nofun) fun _ => ?_
  refine .bind _ (write_rule hk (by decide) bytes) fun _ => ?_
  refine .bind _ (send_rule hk (.payForOffer offer (some amt) id (.timeout 10))) fun r => ?_
  cases r with
  | ok _ => exact return_rule _
  | error e => exact return_rule _

/-- Every payment command is safe for the protocol. -/
theorem command (hk : P.Keeps) (ldk : Ldk) (c : PayCommand) :
    P.discipline.Triple .cli (P.At .cli false none true .nothing) (c.program ldk)
      (P.Ended .cli false) := by
  cases c with
  | invoice invoice amt => exact withOutbound_rule hk (sendPayment_rule hk invoice amt)
  | keysend payee amt bytes =>
      exact withOutbound_rule hk (recordAndSend_rule hk _ _ ⟨rfl, rfl⟩)
  | offer offer amt bytes =>
      simp only [PayCommand.program]
      split
      · exact return_rule _
      · exact payOffer_rule hk offer _ _

/-! ## The event handlers -/

theorem handlePaymentSent_rule (hk : P.Keeps) (preimage : PaymentPreimage)
    (id : Option PaymentId) :
    P.discipline.Triple .events (P.At .events false none true (.delivered (.sent preimage id)))
      (handlePaymentSent preimage id) (P.Ended .events false) := by
  refine .bind _ (lock_rule hk) fun _ => ?_
  cases id with
  | some id =>
      refine .bind (fun _ => P.At .events true none false .nothing) ?_ fun _ => ?_
      · exact update_rule hk (fun s h => ⟨h.no_snapshot, h.knows.2⟩) fun _ _ _ _ => trivial
      · exact .bind _ (persist_rule hk (by decide)) fun _ =>
          .bind _ (unlock_rule hk fun _ => ⟨rfl, rfl⟩) fun _ => return_rule _
  | none =>
      refine .bind _ (isEmpty_rule hk) fun b => ?_
      cases b with
      | false => exact panic_rule
      | true =>
          exact .bind _ (persist_rule hk (by decide)) fun _ =>
            .bind _ (unlock_rule hk fun _ => ⟨rfl, rfl⟩) fun _ => return_rule _

theorem handlePaymentFailed_rule (hk : P.Keeps) (id : PaymentId) :
    P.discipline.Triple .events (P.At .events false none true (.delivered (.failed id)))
      (handlePaymentFailed id) (P.Ended .events false) := by
  refine .bind _ (lock_rule hk) fun _ => .bind _ (contains_rule hk id) fun b => ?_
  have hrest : ∀ {clean : Bool} {k : Know}, P.discipline.Triple .events
      (P.At .events true none clean k)
      (persist >>= fun _ => act .unlock >>= fun _ => .ret .done) (P.Ended .events false) :=
    .bind _ (persist_rule hk (by decide)) fun _ =>
      .bind _ (unlock_rule hk fun _ => ⟨rfl, rfl⟩) fun _ => return_rule _
  cases b with
  | false => exact hrest
  | true =>
      refine .bind (fun _ => P.At .events true none false .nothing) ?_ fun _ => hrest
      exact update_rule hk (fun s h => ⟨h.no_snapshot, h.knows.2⟩) fun _ _ _ _ => trivial

/-- Every event handler is safe for the protocol. -/
theorem handler (hk : P.Keeps) (e : PaymentEvent) :
    P.discipline.Triple .events (P.At .events false none true (.delivered e)) e.program
      (P.Ended .events false) := by
  cases e with
  | sent preimage id => exact handlePaymentSent_rule hk preimage id
  | failed id => exact handlePaymentFailed_rule hk id

/-! ## Startup -/

/-- The startup pass has run from `s₀` to its end, with `recent` listed. -/
structure Booted (P : Protocol codec m S) (s₀ s : LedgerState χ) (recent : List PaymentId) :
    Prop where
  listed : m.recent s₀.node recent s.node
  ledger : s.ledger
    = (LedgerUpdate.reconcile recent).on (readOutboundPaymentInfo codec s₀.file)
  file : s.file = some (codec.write s.ledger)
  holder : s.holder = none
  snapshot : s.snapshot .startup = none
  unwritten : s.unwritten .startup = false

/-- Nothing else runs during startup, so its actions follow one another. -/
theorem boot_act (hk : P.Keeps) {a : LedgerAct} {β : Type} {next : a.Answer → LedgerProg β}
    {Q : β → LedgerState χ → Prop} {s : LedgerState χ} (ht : P.turn .startup s.node)
    (hpre : P.Pre .startup a s)
    (hnext : ∀ r s', ledgerExec codec m .startup a s r s' → P.turn .startup s'.node →
      P.discipline.Safe .startup Q (next r) s') :
    P.discipline.Safe .startup Q (.act a next) s := by
  intro s₁ hr hi r s₂ he
  obtain rfl : s₁ = s := (hr.2 ht).alone rfl
  obtain ⟨hi₂, hg, ht₂⟩ := P.step hk hi ht hpre he
  exact ⟨hi₂, hg, hnext r s₂ (P.exec_sub he).1 ht₂⟩

/-- The startup pass is safe for the protocol. -/
theorem startup (hk : P.Keeps) {s₀ : LedgerState χ} (ht : P.turn .startup s₀.node)
    (hs : s₀.snapshot .startup = none) (hu : s₀.unwritten .startup = false) :
    P.discipline.Safe .startup
      (fun out s => out = .done ∧ ∃ recent, P.Booted s₀ s recent)
      reconcileOutbound s₀ := by
  refine boot_act hk ht ⟨rfl, hs, hu⟩ fun _ s₁ he ht => ?_
  obtain ⟨-, rfl⟩ := he
  refine boot_act hk ht rfl fun recent s₂ he ht => ?_
  obtain ⟨n, hm, rfl⟩ := he
  refine boot_act hk ht trivial fun _ s₃ he ht => ?_
  obtain ⟨-, rfl⟩ := he
  refine boot_act hk ht ⟨hs, rfl⟩ fun _ s₄ he ht => ?_
  obtain ⟨-, rfl⟩ := he
  refine boot_act hk ht nofun fun _ s₅ he ht => ?_
  obtain ⟨-, rfl⟩ := he
  refine boot_act hk ht trivial fun _ s₆ he ht => ?_
  obtain ⟨-, rfl⟩ := he
  refine boot_act hk ht trivial fun bytes s₇ he ht => ?_
  obtain ⟨-, rfl, rfl⟩ := he
  refine boot_act hk ht ⟨⟨_, by simp [LedgerState.encoded]; rfl⟩, fun _ => ⟨recent, rfl⟩⟩
    fun _ s₈ he ht => ?_
  obtain rfl := he
  refine boot_act hk ht nofun fun _ s₉ he ht => ?_
  obtain ⟨-, rfl⟩ := he
  intro s' hr _
  obtain rfl : s' = _ := (hr.2 ht).alone rfl
  exact ⟨rfl, recent, hm, rfl, rfl, rfl, by simp [LedgerState.written],
    by simp [LedgerState.written]⟩

end Protocol

end LightningNode
