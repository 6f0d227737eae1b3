/-
# `LightningNode.Ledger.OnDisk` — the outbound file follows the ledger in memory

The CLI thread and the event task, in any order of their steps.  The two
handlers and the BOLT11 and keysend commands keep the mutex from `encode` to
the end of the write, so their writes land in the order of their snapshots.
The offer branch writes after it has dropped the mutex:

    CLI      lock · insert · unlock · lock · encode · unlock ·                 · write
    events                                               lock · succeed · encode · write

`OffersAlone` is the condition that shuts this order out, and `InOrder` the
invariant that then carries: what either task has encoded is the ledger it
would encode now, up to the change the event task is about to write.
-/
import LightningNode.Ledger.Protocol
import LightningNode.Ledger.Serialization

namespace LightningNode

open Conc

namespace OnDisk

/-- The answers of the `ChannelManager` do not matter here. -/
def manager : Manager Unit where
  send _ _ _ _ := True
  recent _ _ _ := True

/-- The CLI thread runs payment commands and the event task handles events,
whenever they are idle.  A panic ends the process. -/
def system (codec : Codec OutboundPaymentInfoStorage)
    (ldk : Ldk) : LedgerSystem Unit where
  exec := ledgerExec codec manager
  start t s p s' := s' = s ∧
    match t with
    | .cli => ∃ c : PayCommand, p = c.program ldk
    | .events => ∃ e : PaymentEvent, p = e.program
    | .startup => False
  finish _ out s s' := out ≠ .panicked ∧ s' = s
  env _ _ := False
  crash _ _ := False

/-- An event handler completes its write while the CLI thread has a snapshot
still to write only if the ledger has not changed since that snapshot. -/
def OffersAlone : Task → (a : LedgerAct) → LedgerState Unit → a.Answer → Prop
  | .events, .write _, s, _ => ∀ snap, s.snapshot .cli = some snap → snap.version = s.version
  | _, _, _, _ => True

/-! ## The invariant -/

structure InOrder (codec : Codec OutboundPaymentInfoStorage) (s : LedgerState Unit) : Prop where
  file_le : s.fileVersion ≤ s.version
  /-- what the event task has under way, it has under way with the mutex -/
  events_held : s.snapshot .events ≠ none ∨ s.unwritten .events = true → s.holder = some .events
  events_snap : ∀ snap, s.snapshot .events = some snap →
    snap.version = s.version ∧ snap.bytes = codec.write s.ledger
  cli_between : ∀ snap, s.snapshot .cli = some snap →
    s.fileVersion ≤ snap.version ∧ snap.version ≤ s.version
  cli_snap : ∀ snap, s.snapshot .cli = some snap → snap.version = s.version →
    snap.bytes = codec.write s.ledger
  /-- only an event handler with a write to come has overtaken the CLI thread -/
  cli_current : ∀ snap, s.snapshot .cli = some snap → s.unwritten .events = false →
    snap.version = s.version
  startup : s.snapshot .startup = none
  file : s.Quiet → s.file = some (codec.write s.ledger)

namespace InOrder

variable {codec : Codec OutboundPaymentInfoStorage} {s : LedgerState Unit}

theorem settled (l : OutboundPaymentInfoStorage) : InOrder codec (.settled codec l ()) where
  file_le := Nat.le_refl 0
  events_held := by
    rintro (h | h)
    · exact absurd rfl h
    · exact absurd h Bool.false_ne_true
  events_snap := nofun
  cli_between := nofun
  cli_snap := nofun
  cli_current := nofun
  startup := rfl
  file _ := rfl

/-- With the mutex elsewhere the event task has nothing under way. -/
theorem events_idle (h : InOrder codec s) (hh : s.holder ≠ some .events) :
    s.snapshot .events = none ∧ s.unwritten .events = false := by
  constructor
  · by_contra hs
    exact hh (h.events_held (Or.inl hs))
  · by_contra hu
    exact hh (h.events_held (Or.inr (Bool.not_eq_false _ ▸ hu)))

/-- The mutex may pass to any task while the event task has nothing under way. -/
theorem holder (h : InOrder codec s) (t : Option Task)
    (hs : s.snapshot .events = none ∧ s.unwritten .events = false) :
    InOrder codec { s with holder := t } :=
  { h with
    events_held := by
      rintro (hn | hu)
      · exact absurd hs.1 hn
      · exact absurd (hs.2.symm.trans hu) (by decide) }

theorem update (h : InOrder codec s) {t : Task} {u : LedgerUpdate} (ht : t ≠ .startup)
    (hh : s.holder = some t) (hs : s.snapshot t = none) : InOrder codec (s.updated t u) := by
  have hev : s.snapshot .events = none := by
    cases t with
    | cli => exact (h.events_idle (by rw [hh]; decide)).1
    | events => exact hs
    | startup => exact absurd rfl ht
  refine ⟨Nat.le_succ_of_le h.file_le, ?_, ?_, ?_, ?_, ?_, h.startup, ?_⟩
  · rintro (hn | hu)
    · exact absurd hev hn
    · cases t with
      | cli => exact h.events_held (Or.inr (by simpa [LedgerState.updated] using hu))
      | events => exact hh
      | startup => exact absurd rfl ht
  · intro snap hsnap
    cases hev.symm.trans hsnap
  · intro snap hsnap
    exact ⟨(h.cli_between snap hsnap).1, Nat.le_succ_of_le (h.cli_between snap hsnap).2⟩
  · intro snap hsnap hv
    have := (h.cli_between snap hsnap).2
    rw [show (s.updated t u).version = s.version + 1 from rfl] at hv
    omega
  · intro snap hsnap hu
    cases t with
    | cli => cases hs.symm.trans hsnap
    | events => exact absurd hu (by simp [LedgerState.updated])
    | startup => exact absurd rfl ht
  · intro hq
    exact absurd (hq t) (by simp [LedgerState.updated])

theorem encode (h : InOrder codec s) {t : Task} (ht : t ≠ .startup) (hh : s.holder = some t) :
    InOrder codec (s.encoded t (codec.write s.ledger)) := by
  cases t with
  | cli =>
      refine { h with events_held := ?_, events_snap := ?_, cli_between := ?_, cli_snap := ?_,
                      cli_current := ?_, startup := ?_, file := h.file }
      · simpa [LedgerState.encoded] using h.events_held
      · simpa [LedgerState.encoded] using h.events_snap
      · rintro _ ⟨⟩
        exact ⟨h.file_le, Nat.le_refl _⟩
      · rintro _ ⟨⟩ _
        rfl
      · rintro _ ⟨⟩ _
        rfl
      · simpa [LedgerState.encoded] using h.startup
  | events =>
      refine { h with events_held := fun _ => hh, events_snap := ?_, cli_between := ?_,
                      cli_snap := ?_, cli_current := ?_, startup := ?_, file := h.file }
      · rintro _ ⟨⟩
        exact ⟨rfl, rfl⟩
      · simpa [LedgerState.encoded] using h.cli_between
      · simpa [LedgerState.encoded] using h.cli_snap
      · simpa [LedgerState.encoded] using h.cli_current
      · simpa [LedgerState.encoded] using h.startup
  | startup => exact absurd rfl ht

/-- A write of the CLI thread lands in order: no handler has written since the
snapshot was taken. -/
theorem write_cli (h : InOrder codec s) {v : Nat} {bytes : Bytes}
    (hs : s.snapshot .cli = some ⟨v, bytes⟩) : InOrder codec (s.written .cli bytes) := by
  obtain ⟨_, hv⟩ := h.cli_between _ hs
  have hver : (s.written .cli bytes).fileVersion = v := by simp [LedgerState.written, hs]
  refine ⟨by rw [hver]; exact hv, ?_, ?_, ?_, ?_, ?_, ?_, ?_⟩
  · simpa [LedgerState.written] using h.events_held
  · simpa [LedgerState.written] using h.events_snap
  · simp [LedgerState.written]
  · simp [LedgerState.written]
  · simp [LedgerState.written]
  · simpa [LedgerState.written] using h.startup
  · intro hq
    have hev : s.unwritten .events = false := by simpa [LedgerState.written] using hq .events
    exact congrArg some (h.cli_snap _ hs (h.cli_current _ hs hev))

/-- A write of the event task is of the ledger as it is. -/
theorem write_events (h : InOrder codec s) {v : Nat} {bytes : Bytes}
    (hs : s.snapshot .events = some ⟨v, bytes⟩)
    (hok : ∀ snap, s.snapshot .cli = some snap → snap.version = s.version) :
    InOrder codec (s.written .events bytes) := by
  obtain ⟨hv, hb⟩ := h.events_snap _ hs
  have hver : (s.written .events bytes).fileVersion = s.version := by
    simpa [LedgerState.written, hs] using hv
  refine ⟨by rw [hver]; exact Nat.le_refl _, ?_, ?_, ?_, ?_, ?_, ?_, fun _ => congrArg some hb⟩
  · simp [LedgerState.written]
  · simp [LedgerState.written]
  · intro snap hsnap
    rw [hver]
    have := hok snap (by simpa [LedgerState.written] using hsnap)
    exact ⟨Nat.le_of_eq this.symm, Nat.le_of_eq this⟩
  · simpa [LedgerState.written] using h.cli_snap
  · intro snap hsnap _
    exact hok snap (by simpa [LedgerState.written] using hsnap)
  · simpa [LedgerState.written] using h.startup

end InOrder

/-! ## The protocol -/

variable (codec : Codec OutboundPaymentInfoStorage)
variable (ldk : Ldk)

def protocol : Protocol codec manager ((system codec ldk).onlyIf OffersAlone) where
  ok := OffersAlone
  exec_sub h := h
  inv := InOrder codec
  change _ _ := True
  change_refl _ := trivial
  change_trans _ _ := trivial
  turn t _ := t ≠ .startup
  ready _ _ _ := True
  delivered _ _ := True
  turn_startup h := absurd rfl h
  turn_send _ _ h := h
  turn_recent _ _ h := h
  delivered_send _ _ h := h
  ready_insert _ _ _ _ := trivial
  ready_refused _ _ := trivial
  ready_sent _ _ := trivial
  ready_failed _ _ := trivial

variable {codec ldk}

theorem keeps : (protocol codec ldk).Keeps := by
  intro t a s r s' hi ht hp he hok
  refine ⟨?_, trivial⟩
  have hi : InOrder codec s := hi
  cases a with
  | lock =>
      obtain ⟨hn, rfl⟩ := he
      exact hi.holder _ (hi.events_idle (by rw [hn]; nofun))
  | unlock =>
      obtain ⟨hn, rfl⟩ := he
      refine hi.holder _ ?_
      cases t with
      | cli => exact hi.events_idle (by rw [hn]; decide)
      | events => exact hp rfl
      | startup => exact absurd rfl ht
  | contains id => obtain ⟨_, _, rfl⟩ := he; exact hi
  | isEmpty => obtain ⟨_, _, rfl⟩ := he; exact hi
  | update u =>
      obtain ⟨hh, rfl⟩ := he
      exact hi.update ht hh hp.1
  | encode =>
      obtain ⟨hh, rfl, rfl⟩ := he
      exact hi.encode ht hh
  | write bytes =>
      obtain rfl := he
      obtain ⟨v, hs⟩ := hp.1
      cases t with
      | cli => exact hi.write_cli hs
      | events => exact hi.write_events hs hok
      | startup => exact absurd rfl ht
  | send req => obtain ⟨n, _, rfl⟩ := he; exact hi
  | load => exact absurd hp.1 ht
  | listRecentPayments => exact absurd hp ht

def outline (codec : Codec OutboundPaymentInfoStorage)
    (ldk : Ldk) :
    Outline ((system codec ldk).onlyIf OffersAlone) where
  toDiscipline := (protocol codec ldk).discipline
  idle := Idle
  post t out := (protocol codec ldk).Ended t false out
  idle_stable _ _ _ _ _ hr h := h.frame hr.1
  start_ok := by
    rintro t s p s' ⟨rfl, hst⟩ hi hidle
    refine ⟨hi, ⟨trivial, fun u _ => Protocol.Rely.refl _ u s'⟩, ?_⟩
    cases t with
    | cli =>
        obtain ⟨c, rfl⟩ := hst
        exact Protocol.command keeps ldk c s' hi (.of_idle hidle nofun trivial)
    | events =>
        obtain ⟨e, rfl⟩ := hst
        exact Protocol.handler keeps e s' hi (.of_idle hidle nofun ⟨rfl, trivial⟩)
    | startup => exact hst.elim
  finish_ok := by
    rintro t out s s' ⟨hout, rfl⟩ hi hpost
    exact ⟨hi, ⟨trivial, fun u _ => Protocol.Rely.refl _ u s'⟩, hpost.idle hout⟩
  env_ok := nofun
  crash_ok := nofun

/-! ## The file -/

/-- With no operation between its change and its write, the file decodes to the
ledger in memory; and whatever is still to be written is no older than what the
file holds. -/
theorem file_follows_ledger (l : OutboundPaymentInfoStorage)
    {c : Config Task LedgerAct LedgerAct.Answer Outcome (LedgerState Unit)}
    (h : ((system codec ldk).onlyIf OffersAlone).Reach (.idle (.settled codec l ())) c) :
    (c.state.Quiet → c.state.FileFollows codec) ∧
      ∀ t snap, c.state.snapshot t = some snap → c.state.fileVersion ≤ snap.version := by
  have hstart : (outline codec ldk).Inv (.idle (.settled codec l ())) :=
    .init _ (InOrder.settled l) (Idle.settled codec l ())
  have hi : InOrder codec c.state := (hstart.reach _ h).1.state
  constructor
  · intro hq
    exact ⟨_, hi.file hq, codec.decode_write _⟩
  · intro t snap hs
    cases t with
    | cli => exact (hi.cli_between snap hs).1
    | events => rw [(hi.events_snap snap hs).1]; exact hi.file_le
    | startup => exact absurd (hi.startup.symm.trans hs) nofun

/-! ## Two runs -/

/-- The actions of `t`, executable. -/
def play (t : Task) (a : LedgerAct) (s : LedgerState Unit) :
    Option (a.Answer × LedgerState Unit) :=
  ledgerStep OutboundPaymentInfoStorage.codec (fun _ _ => (.ok (), ())) (fun _ => ([], ())) t a s

theorem play_exec {t : Task} (a : LedgerAct) (s : LedgerState Unit) (r : a.Answer)
    (s' : LedgerState Unit) (h : play t a s = some (r, s')) :
    ledgerExec OutboundPaymentInfoStorage.codec manager t a s r s' :=
  ledgerExec_of_step (fun _ _ => trivial) (fun _ => trivial) h

/-- A ledger with one pending payment. -/
def onePending : OutboundPaymentInfoStorage :=
  ⟨(∅ : AList _).insert (.filled 1) (plainRecord 1000)⟩

def offer : PayCommand := .offer ⟨"lno1", some (.bitcoin 1000)⟩ none (Vector.replicate 32 2)

def sent : PaymentEvent := .sent ⟨Vector.replicate 32 3⟩ (some (.filled 1))

/-- `OffersAlone` asks nothing of the CLI thread. -/
theorem play_exec_cli (a : LedgerAct) (s : LedgerState Unit) (r : a.Answer)
    (s' : LedgerState Unit) (h : play .cli a s = some (r, s')) :
    ((system OutboundPaymentInfoStorage.codec (.plain id)).onlyIf OffersAlone).exec .cli a s r s' :=
  ⟨play_exec a s r s' h, trivial⟩

/-- An offer is paid, and the file holds its record. -/
theorem file_follows_ledger_offer :
    ((system OutboundPaymentInfoStorage.codec (.plain id)).onlyIf OffersAlone).Can
      (.idle (.settled OutboundPaymentInfoStorage.codec onePending ()))
      fun c => c.state.ledger.Has (.filled 2) ∧
        c.state.FileFollows OutboundPaymentInfoStorage.codec := by
  have hrun : ((system OutboundPaymentInfoStorage.codec (.plain id)).onlyIf OffersAlone).Can
      (.idle (.settled OutboundPaymentInfoStorage.codec onePending ()))
      fun c => c.state.ledger.Has (.filled 2) ∧ c.state.Quiet := by
    refine .step (.start (t := Task.cli) rfl ⟨rfl, offer, rfl⟩) ?_
    refine .acts (t := Task.cli) play_exec_cli 8 (.here ⟨by decide, ?_⟩)
    intro t
    cases t <;> rfl
  obtain ⟨c, hr, hhas, hq⟩ := hrun
  exact ⟨c, hr, hhas, (file_follows_ledger onePending hr).1 hq⟩

/-- The event task writes between the offer branch's `encode` and its write:
the older snapshot lands last, and the file loses that the payment succeeded. -/
theorem offer_write_lands_late :
    (system OutboundPaymentInfoStorage.codec (.plain id)).Can
      (.idle (.settled OutboundPaymentInfoStorage.codec onePending ()))
      fun c => c.state.Quiet ∧ ¬ c.state.FileFollows OutboundPaymentInfoStorage.codec := by
  refine .step (.start (t := Task.cli) rfl ⟨rfl, offer, rfl⟩) ?_
  -- the offer branch, up to the write it has still to make
  refine .acts (t := Task.cli) play_exec 6 ?_
  refine .step (.start (t := Task.events) rfl ⟨rfl, sent, rfl⟩) ?_
  refine .acts (t := Task.events) play_exec 5 (.acts (t := Task.cli) play_exec 1 (.here ⟨?_, ?_⟩))
  · intro t
    cases t <;> rfl
  · rintro ⟨bytes, hf, hd⟩
    obtain rfl := Option.some.inj hf
    have hold := Option.some.inj ((Codec.decode_write _ _).symm.trans hd)
    have hst := congrArg (fun l => (l.lookup (.filled 1)).map PaymentInfo.status) hold
    revert hst
    decide

end OnDisk

end LightningNode
