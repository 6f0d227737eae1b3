/-
# `LightningNode.Ledger.InFlight` — the ledger and the payments in flight

The `ChannelManager` keeps its own set of payments in flight.  A request for a
payment in the set is answered by an error and changes nothing; a payment that
leaves the set leaves an event behind, which the event task handles in turn.

A command cannot tell the error of a payment that never started from the error
of one already running, and marks the record failed either way.  `Unused` is
the condition under which only the first kind reaches it: a command records no
id that is in flight or that an event still to be handled is about.
-/
import LightningNode.Ledger.Protocol
import LightningNode.Ledger.Serialization
import Mathlib.Data.Finset.Insert
import Mathlib.Data.Finset.Erase

namespace LightningNode

open Conc

/-- The payment an event is about. -/
def PaymentEvent.paymentId : PaymentEvent → Option PaymentId
  | .sent _ id => id
  | .failed id => some id

/-- The answer to a request for a payment already in flight. -/
def PayRequest.duplicate : PayRequest → SendError
  | .sendPayment .. | .sendSpontaneousPayment .. => .duplicatePayment
  | .payForOffer .. => .bolt12 "DuplicatePaymentId"

namespace InFlight

/-- The payments in flight, and the events not yet handled, oldest first. -/
structure ChannelManager where
  inFlight : Finset PaymentId
  queue : List PaymentEvent

def manager : Manager ChannelManager where
  send n req r n' :=
    if req.id ∈ n.inFlight then r = .error req.duplicate ∧ n' = n
    else (r = .ok () ∧ n' = { n with inFlight := insert req.id n.inFlight }) ∨
      ((∃ e, r = .error e) ∧ n' = n)
  recent _ _ _ := True

/-- The CLI thread runs commands, the event task handles the oldest event, and
a payment may leave the set at any time. -/
def system (codec : Codec OutboundPaymentInfoStorage)
    (ldk : Ldk) : LedgerSystem ChannelManager where
  exec := ledgerExec codec manager
  start t s p s' := s' = s ∧
    match t with
    | .cli => ∃ c : PayCommand, p = c.program ldk
    | .events => ∃ e, s.node.queue.head? = some e ∧ p = e.program
    | .startup => False
  finish t out s s' := out ≠ .panicked ∧
    match t with
    | .events => s' = { s with node := { s.node with queue := s.node.queue.tail } }
    | _ => s' = s
  env s s' := ∃ id ∈ s.node.inFlight, ∃ e : PaymentEvent, e.paymentId = some id ∧
    s' = { s with node := ⟨s.node.inFlight.erase id, s.node.queue ++ [e]⟩ }
  crash _ _ := False

/-- Neither in flight nor the subject of an event still to be handled. -/
def ChannelManager.Unused (n : ChannelManager) (id : PaymentId) : Prop :=
  id ∉ n.inFlight ∧ ∀ e ∈ n.queue, e.paymentId ≠ some id

instance (n : ChannelManager) (id : PaymentId) : Decidable (n.Unused id) :=
  inferInstanceAs (Decidable (_ ∧ _))

/-- No command records a payment id that is not `Unused`. -/
def FreshIds : Task → (a : LedgerAct) → LedgerState ChannelManager → a.Answer → Prop
  | .cli, .update (.insert id _), s, _ => s.node.Unused id
  | _, _, _, _ => True

/-! ## The invariant -/

structure Tracked (s : LedgerState ChannelManager) : Prop where
  pending : ∀ id ∈ s.node.inFlight, s.ledger.HasStatus id .pending
  queued : ∀ e ∈ s.node.queue, ∀ id ∈ s.node.inFlight, e.paymentId ≠ some id

namespace Tracked

variable {s : LedgerState ChannelManager}

/-- A change that leaves the records in flight alone. -/
theorem update (h : Tracked s) {t : Task} {u : LedgerUpdate}
    (hu : ∀ id ∈ s.node.inFlight, (u.on s.ledger).HasStatus id .pending) :
    Tracked (s.updated t u) where
  pending := hu
  queued := h.queued

theorem accept (h : Tracked s) {id : PaymentId} (hid : s.ledger.HasStatus id .pending)
    (hun : s.node.Unused id) :
    Tracked { s with node := { s.node with inFlight := insert id s.node.inFlight } } where
  pending i hi := by
    rcases Finset.mem_insert.mp hi with rfl | hi
    · exact hid
    · exact h.pending i hi
  queued e he i hi := by
    rcases Finset.mem_insert.mp hi with rfl | hi
    · exact hun.2 e he
    · exact h.queued e he i hi

/-- A payment leaves the set, and its event joins the queue. -/
theorem leave (h : Tracked s) {id : PaymentId} {e : PaymentEvent} (he : e.paymentId = some id) :
    Tracked { s with node := ⟨s.node.inFlight.erase id, s.node.queue ++ [e]⟩ } where
  pending i hi := h.pending i (Finset.mem_of_mem_erase hi)
  queued e' he' i hi := by
    rcases List.mem_append.mp he' with he' | he'
    · exact h.queued e' he' i (Finset.mem_of_mem_erase hi)
    · obtain rfl := List.mem_singleton.mp he'
      intro hei
      exact Finset.ne_of_mem_erase hi (Option.some.inj (hei.symm.trans he))

theorem handled (h : Tracked s) :
    Tracked { s with node := { s.node with queue := s.node.queue.tail } } where
  pending := h.pending
  queued e he := h.queued e (List.mem_of_mem_tail he)

end Tracked

/-- The records of other ids keep their status. -/
theorem hasStatus_on {l : OutboundPaymentInfoStorage} {u : LedgerUpdate} {id : PaymentId}
    {st : HTLCStatus} (h : l.HasStatus id st) (hu : (u.on l).lookup id = l.lookup id) :
    (u.on l).HasStatus id st := by
  obtain ⟨info, hl, hst⟩ := h
  exact ⟨info, hu.trans hl, hst⟩

theorem lookup_fail_ne {l : OutboundPaymentInfoStorage} {id i : PaymentId} (h : i ≠ id) :
    ((LedgerUpdate.fail id).on l).lookup i = l.lookup i := by
  simp [h]

theorem lookup_succeed_ne {l : OutboundPaymentInfoStorage} {id i : PaymentId} (h : i ≠ id)
    (p : PaymentPreimage) : ((LedgerUpdate.succeed id p).on l).lookup i = l.lookup i := by
  simp [h]

/-! ## The protocol -/

/-- A payment recorded as pending, and unused. -/
def Ready (id : PaymentId) (l : OutboundPaymentInfoStorage) (n : ChannelManager) : Prop :=
  l.HasStatus id .pending ∧ n.Unused id

theorem Ready.on {id i : PaymentId} {l : OutboundPaymentInfoStorage} {n : ChannelManager}
    {e : PaymentEvent} {u : LedgerUpdate} (he : n.queue.head? = some e)
    (hei : e.paymentId = some i) (hu : ∀ j, j ≠ i → (u.on l).lookup j = l.lookup j)
    (h : Ready id l n) : Ready id (u.on l) n := by
  have hne : id ≠ i := by
    rintro rfl
    exact h.2.2 e (List.mem_of_mem_head? he) hei
  exact ⟨hasStatus_on h.1 (hu id hne), h.2⟩

variable (codec : Codec OutboundPaymentInfoStorage)
variable (ldk : Ldk)

def protocol : Protocol codec manager ((system codec ldk).onlyIf FreshIds) where
  ok := FreshIds
  exec_sub h := h
  inv := Tracked
  change _ _ := True
  change_refl _ := trivial
  change_trans _ _ := trivial
  turn t _ := t ≠ .startup
  ready := Ready
  delivered e n := n.queue.head? = some e
  turn_startup h := absurd rfl h
  turn_send _ _ h := h
  turn_recent _ _ h := h
  delivered_send := by
    intro n req r n' h e he
    simp only [manager] at h
    split at h
    · rw [h.2]; exact he
    · rcases h with ⟨_, rfl⟩ | ⟨_, rfl⟩ <;> exact he
  ready_insert := by
    intro s id info _ _ hok hinfo
    exact ⟨⟨info, by simp, hinfo⟩, hok⟩
  ready_refused := by
    intro n req e n' l h hr
    have hn : n' = n := by
      simp only [manager] at h
      split at h
      · exact h.2
      · rcases h with ⟨hr', _⟩ | ⟨_, rfl⟩
        · cases hr'
        · rfl
    rw [hn]; exact hr
  ready_sent h hr := hr.on h rfl fun _ hj => lookup_succeed_ne hj _
  ready_failed h hr := hr.on h rfl fun _ hj => lookup_fail_ne hj

variable {codec ldk}

theorem keeps : (protocol codec ldk).Keeps := by
  intro t a s r s' hi ht hp he hok
  refine ⟨?_, trivial⟩
  have hi : Tracked s := hi
  cases a with
  | lock | unlock => obtain ⟨_, rfl⟩ := he; exact ⟨hi.pending, hi.queued⟩
  | contains id => obtain ⟨_, _, rfl⟩ := he; exact hi
  | isEmpty => obtain ⟨_, _, rfl⟩ := he; exact hi
  | encode => obtain ⟨_, _, rfl⟩ := he; exact ⟨hi.pending, hi.queued⟩
  | write bytes => obtain rfl := he; exact ⟨hi.pending, hi.queued⟩
  | load => exact absurd hp.1 ht
  | listRecentPayments => exact absurd hp ht
  | update u =>
      obtain ⟨_, rfl⟩ := he
      refine hi.update fun id hid => ?_
      obtain ⟨_, hp⟩ := hp
      match t, u with
      | .cli, .insert i info =>
          by_cases hii : id = i
          · subst hii; exact ⟨info, by simp, hp.1⟩
          · exact hasStatus_on (hi.pending id hid) (by simp [hii])
      | .cli, .fail i =>
          have hne : id ≠ i := by rintro rfl; exact hp.2.1 hid
          exact hasStatus_on (hi.pending id hid) (lookup_fail_ne hne)
      | .events, .succeed i p =>
          have hne : id ≠ i := by
            rintro rfl; exact hi.queued _ (List.mem_of_mem_head? hp) id hid rfl
          exact hasStatus_on (hi.pending id hid) (lookup_succeed_ne hne p)
      | .events, .fail i =>
          have hne : id ≠ i := by
            rintro rfl; exact hi.queued _ (List.mem_of_mem_head? hp) id hid rfl
          exact hasStatus_on (hi.pending id hid) (lookup_fail_ne hne)
      | .startup, _ => exact absurd rfl ht
  | send req =>
      obtain ⟨n, hm, rfl⟩ := he
      obtain ⟨_, _, _, hready⟩ := hp
      simp only [manager, if_neg hready.2.1] at hm
      rcases hm with ⟨_, rfl⟩ | ⟨_, rfl⟩
      · exact hi.accept hready.1 hready.2
      · exact ⟨hi.pending, hi.queued⟩

/-- A payment that leaves the set is not one a command is about to send. -/
theorem rely_leave {t : Task} {s : LedgerState ChannelManager} {id : PaymentId} {e : PaymentEvent}
    (hid : id ∈ s.node.inFlight) (he : e.paymentId = some id) :
    (protocol codec ldk).Rely t s
      { s with node := ⟨s.node.inFlight.erase id, s.node.queue ++ [e]⟩ } := by
  refine ⟨⟨Iff.rfl, rfl, rfl⟩, fun ht => ⟨ht, ?_, ?_, fun h => absurd h ht⟩⟩
  · rintro _ i ⟨hst, hnot, hq⟩
    refine ⟨hst, fun h => hnot (Finset.mem_of_mem_erase h), ?_⟩
    intro e' he' hei
    rcases List.mem_append.mp he' with he' | he'
    · exact hq e' he' hei
    · obtain rfl := List.mem_singleton.mp he'
      obtain rfl := Option.some.inj (he.symm.trans hei)
      exact hnot hid
  · rintro _ e' he'
    have hhead : s.node.queue.head? = some e' := he'
    show (s.node.queue ++ [e]).head? = some e'
    rw [List.head?_append, hhead]
    rfl

def outline (codec : Codec OutboundPaymentInfoStorage)
    (ldk : Ldk) :
    Outline ((system codec ldk).onlyIf FreshIds) where
  toDiscipline := (protocol codec ldk).discipline
  idle := Idle
  post t out := (protocol codec ldk).Ended t false out
  idle_stable _ _ _ _ _ hr h := h.frame hr.1
  start_ok := by
    rintro t s p s' ⟨rfl, hst⟩ hi hidle
    refine ⟨hi, ⟨trivial, fun u _ => Protocol.Rely.refl _ u s'⟩, ?_⟩
    cases t with
    | cli =>
        obtain ⟨c, rfl⟩ := hst
        exact Protocol.command keeps ldk c s' hi (.of_idle hidle nofun trivial)
    | events =>
        obtain ⟨e, he, rfl⟩ := hst
        exact Protocol.handler keeps e s' hi (.of_idle hidle nofun ⟨rfl, he⟩)
    | startup => exact hst.elim
  finish_ok := by
    rintro t out s s' ⟨hout, hs⟩ hi hpost
    have hidle : Idle t s := hpost.idle hout
    cases t with
    | events =>
        obtain rfl := hs
        refine ⟨Tracked.handled hi, ⟨trivial, fun u hu => ⟨⟨Iff.rfl, rfl, rfl⟩, fun ht => ?_⟩⟩,
          ⟨hidle.holder, hidle.snapshot, hidle.unwritten⟩⟩
        refine ⟨ht, ?_, fun h => absurd h hu, fun h => absurd h ht⟩
        rintro _ i ⟨hst, hnot, hq⟩
        exact ⟨hst, hnot, fun e he => hq e (List.mem_of_mem_tail he)⟩
    | cli | startup =>
        obtain rfl := hs
        exact ⟨hi, ⟨trivial, fun u _ => Protocol.Rely.refl _ u s'⟩, hidle⟩
  env_ok := by
    rintro s s' ⟨id, hid, e, he, rfl⟩ hi
    exact ⟨Tracked.leave hi he, trivial, fun t => rely_leave hid he⟩
  crash_ok := nofun

/-! ## No payment in flight is shown as anything but pending -/

/-- If no command records an id in flight, or one an unhandled event is about,
then in every state every payment in flight has a pending record. -/
theorem in_flight_pending (l : OutboundPaymentInfoStorage) (inFlight : Finset PaymentId)
    (hl : ∀ id ∈ inFlight, l.HasStatus id .pending)
    {c : Config Task LedgerAct LedgerAct.Answer Outcome (LedgerState ChannelManager)}
    (h : ((system codec ldk).onlyIf FreshIds).Reach
      (.idle (.settled codec l ⟨inFlight, []⟩)) c) :
    ∀ id ∈ c.state.node.inFlight, c.state.ledger.HasStatus id .pending := by
  have hstart : (outline codec ldk).Inv (.idle (.settled codec l ⟨inFlight, []⟩)) :=
    .init _ ⟨hl, nofun⟩ (Idle.settled codec l _)
  have hi : Tracked c.state := (hstart.reach _ h).1.state
  exact hi.pending

/-! ## Two runs -/

/-- The actions of `t`, executable, with a `ChannelManager` that accepts what
it may. -/
def play (t : Task) (a : LedgerAct) (s : LedgerState ChannelManager) :
    Option (a.Answer × LedgerState ChannelManager) :=
  ledgerStep OutboundPaymentInfoStorage.codec
    (fun n req =>
      if req.id ∈ n.inFlight then (.error req.duplicate, n)
      else (.ok (), { n with inFlight := insert req.id n.inFlight }))
    (fun n => ([], n)) t a s

theorem play_exec {t : Task} (a : LedgerAct) (s : LedgerState ChannelManager) (r : a.Answer)
    (s' : LedgerState ChannelManager) (h : play t a s = some (r, s')) :
    ledgerExec OutboundPaymentInfoStorage.codec manager t a s r s' := by
  refine ledgerExec_of_step (fun n req => ?_) (fun _ => trivial) h
  by_cases hin : req.id ∈ n.inFlight
  · simp [manager, hin]
  · simp [manager, hin]

instance (t : Task) (a : LedgerAct) (s : LedgerState ChannelManager) (r : a.Answer) :
    Decidable (FreshIds t a s r) := by
  unfold FreshIds
  split <;> infer_instance

def invoice : PayCommand :=
  .invoice ⟨⟨Vector.replicate 32 1⟩, ⟨Vector.replicate 32 4⟩, some 1000, ⟨Vector.replicate 33 2⟩⟩
    none

/-- An invoice is paid once: it is in flight, and pending. -/
theorem in_flight_pending_once :
    ((system OutboundPaymentInfoStorage.codec (.plain id)).onlyIf FreshIds).Can
      (.idle (.settled OutboundPaymentInfoStorage.codec .empty ⟨∅, []⟩))
      fun c => .filled 1 ∈ c.state.node.inFlight ∧ c.state.ledger.HasStatus (.filled 1) .pending := by
  have hrun : ((system OutboundPaymentInfoStorage.codec (.plain id)).onlyIf FreshIds).Can
      (.idle (.settled OutboundPaymentInfoStorage.codec .empty ⟨∅, []⟩))
      fun c => .filled 1 ∈ c.state.node.inFlight := by
    refine .step (.start (t := Task.cli) rfl ⟨rfl, invoice, rfl⟩) ?_
    exact .acts (t := Task.cli) (System.exec_of_guarded play_exec) 6 (.here (by decide))
  obtain ⟨c, hr, hin⟩ := hrun
  exact ⟨c, hr, hin, in_flight_pending .empty ∅ nofun hr _ hin⟩

/-- The same invoice is paid twice: the second command marks the payment that
the first one started as failed. -/
theorem repeated_invoice_fails_record :
    (system OutboundPaymentInfoStorage.codec (.plain id)).Can
      (.idle (.settled OutboundPaymentInfoStorage.codec .empty ⟨∅, []⟩))
      fun c => (∀ t, c.task t = none) ∧ .filled 1 ∈ c.state.node.inFlight ∧
        ¬ c.state.ledger.HasStatus (.filled 1) .pending := by
  refine .step (.start (t := Task.cli) rfl ⟨rfl, invoice, rfl⟩) ?_
  refine .acts (t := Task.cli) play_exec 6 ?_
  refine .step (.finish (t := Task.cli) (x := .initiated 1000 ⟨Vector.replicate 33 2⟩) rfl
    ⟨by decide, rfl⟩) ?_
  refine .step (.start (t := Task.cli) rfl ⟨rfl, invoice, rfl⟩) ?_
  refine .acts (t := Task.cli) play_exec 10 ?_
  refine .step (.finish (t := Task.cli) (x := .sendFailed .duplicatePayment) rfl
    ⟨by decide, rfl⟩) (.here ⟨?_, by decide, ?_⟩)
  · intro t
    cases t <;> rfl
  · rintro ⟨info, hl, hst⟩
    have hfailed := congrArg (Option.map PaymentInfo.status) hl
    rw [Option.map_some, hst] at hfailed
    revert hfailed
    decide

end InFlight

end LightningNode
