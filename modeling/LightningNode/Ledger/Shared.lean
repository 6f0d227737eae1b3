/-
# `LightningNode.Ledger.Shared` — the state the payment tasks share

The in-memory ledger behind its mutex, the `outbound_payments` file, whatever a
claim needs to know of the `ChannelManager` and the surroundings (`χ`), and the
effect of every action on them.

Each action of the CLI thread or of the event task is one atomic step; in
particular a completed `fs_store.write` replaces the file at once.

History variables, read by no program: `version` counts the changes of the
in-memory ledger, a `Snapshot` is what `encode` returned with the version it
was taken at, and `unwritten` says that a task has changed the ledger and not
yet finished a write.
-/
import LightningNode.Ledger.Commands
import LightningNode.Lib.Codec
import LightningNode.Lib.Tasks

namespace LightningNode

open Conc

/-- The CLI thread, the event handler task, and `start_ldk` before both. -/
inductive Task where
  | cli
  | events
  | startup
  deriving DecidableEq

structure Snapshot where
  version : Nat
  bytes : Bytes

structure LedgerState (χ : Type) where
  ledger : OutboundPaymentInfoStorage
  holder : Option Task
  file : Option Bytes
  node : χ
  version : Nat
  fileVersion : Nat
  snapshot : Task → Option Snapshot
  unwritten : Task → Bool

/-- What the model leaves open about the `ChannelManager`: how it may answer a
request to pay, and which payments it may list as recent. -/
structure Manager (χ : Type) where
  send : χ → PayRequest → Except SendError Unit → χ → Prop
  recent : χ → List PaymentId → χ → Prop

/-- `disk::read_outbound_payment_info`: a missing or unreadable file is an
empty ledger. -/
def readOutboundPaymentInfo (codec : Codec OutboundPaymentInfoStorage) :
    Option Bytes → OutboundPaymentInfoStorage
  | some bytes =>
      match codec.decode bytes with
      | some info => info
      | none => .empty
  | none => .empty

variable {χ : Type}

namespace LedgerState

/-- The ledger changed by `u`, by the task `t`. -/
def updated (s : LedgerState χ) (t : Task) (u : LedgerUpdate) : LedgerState χ :=
  { s with
    ledger := u.on s.ledger
    version := s.version + 1
    unwritten := Function.update s.unwritten t true }

/-- The task `t` has encoded the ledger to `bytes`. -/
def encoded (s : LedgerState χ) (t : Task) (bytes : Bytes) : LedgerState χ :=
  { s with snapshot := Function.update s.snapshot t (some ⟨s.version, bytes⟩) }

/-- The task `t` has written `bytes` to the file. -/
def written (s : LedgerState χ) (t : Task) (bytes : Bytes) : LedgerState χ :=
  { s with
    file := some bytes
    fileVersion := match s.snapshot t with
      | some snap => snap.version
      | none => s.fileVersion
    snapshot := Function.update s.snapshot t none
    unwritten := Function.update s.unwritten t false }

/-- No task is between a change of the ledger and the end of its write. -/
def Quiet (s : LedgerState χ) : Prop := ∀ t, s.unwritten t = false

/-- The file decodes to the in-memory ledger. -/
def FileFollows (codec : Codec OutboundPaymentInfoStorage) (s : LedgerState χ) : Prop :=
  ∃ bytes, s.file = some bytes ∧ codec.decode bytes = some s.ledger

/-- Nothing is under way and the file holds the ledger `l`. -/
def settled (codec : Codec OutboundPaymentInfoStorage) (l : OutboundPaymentInfoStorage) (n : χ) :
    LedgerState χ where
  ledger := l
  holder := none
  file := some (codec.write l)
  node := n
  version := 0
  fileVersion := 0
  snapshot _ := none
  unwritten _ := false

end LedgerState

/-- The effect of one action of the task `t`. -/
def ledgerExec (codec : Codec OutboundPaymentInfoStorage) (m : Manager χ) (t : Task) :
    (a : LedgerAct) → LedgerState χ → a.Answer → LedgerState χ → Prop
  | .lock, s, _, s' => s.holder = none ∧ s' = { s with holder := some t }
  | .unlock, s, _, s' => s.holder = some t ∧ s' = { s with holder := none }
  | .contains id, s, r, s' => s.holder = some t ∧ r = decide (s.ledger.Has id) ∧ s' = s
  | .isEmpty, s, r, s' => s.holder = some t ∧ r = s.ledger.payments.keys.isEmpty ∧ s' = s
  | .update u, s, _, s' => s.holder = some t ∧ s' = s.updated t u
  | .encode, s, r, s' => s.holder = some t ∧ r = codec.write s.ledger ∧ s' = s.encoded t r
  | .write bytes, s, _, s' => s' = s.written t bytes
  | .send req, s, r, s' => ∃ n, m.send s.node req r n ∧ s' = { s with node := n }
  | .load, s, _, s' =>
      s.holder = none ∧ s' = { s with ledger := readOutboundPaymentInfo codec s.file }
  | .listRecentPayments, s, r, s' => ∃ n, m.recent s.node r n ∧ s' = { s with node := n }

/-- The same, executable, for a `ChannelManager` whose answers are given. -/
def ledgerStep (codec : Codec OutboundPaymentInfoStorage)
    (send : χ → PayRequest → Except SendError Unit × χ) (recent : χ → List PaymentId × χ)
    (t : Task) : (a : LedgerAct) → LedgerState χ → Option (a.Answer × LedgerState χ)
  | .lock, s => if s.holder = none then some ((), { s with holder := some t }) else none
  | .unlock, s => if s.holder = some t then some ((), { s with holder := none }) else none
  | .contains id, s => if s.holder = some t then some (decide (s.ledger.Has id), s) else none
  | .isEmpty, s => if s.holder = some t then some (s.ledger.payments.keys.isEmpty, s) else none
  | .update u, s => if s.holder = some t then some ((), s.updated t u) else none
  | .encode, s =>
      if s.holder = some t then some (codec.write s.ledger, s.encoded t (codec.write s.ledger))
      else none
  | .write bytes, s => some ((), s.written t bytes)
  | .send req, s => some ((send s.node req).1, { s with node := (send s.node req).2 })
  | .load, s =>
      if s.holder = none then
        some ((), { s with ledger := readOutboundPaymentInfo codec s.file })
      else none
  | .listRecentPayments, s => some ((recent s.node).1, { s with node := (recent s.node).2 })

theorem ledgerExec_of_step {codec : Codec OutboundPaymentInfoStorage} {m : Manager χ}
    {send : χ → PayRequest → Except SendError Unit × χ} {recent : χ → List PaymentId × χ}
    (hsend : ∀ n req, m.send n req (send n req).1 (send n req).2)
    (hrecent : ∀ n, m.recent n (recent n).1 (recent n).2)
    {t : Task} {a : LedgerAct} {s s' : LedgerState χ} {r : a.Answer}
    (h : ledgerStep codec send recent t a s = some (r, s')) : ledgerExec codec m t a s r s' := by
  cases a <;> simp only [ledgerStep, Option.ite_none_right_eq_some, Option.some.injEq,
    Prod.mk.injEq] at h
  case lock | unlock | update | load => exact ⟨h.1, h.2.2.symm⟩
  case contains id => exact ⟨h.1, h.2.1.symm, h.2.2.symm⟩
  case isEmpty => exact ⟨h.1, h.2.1.symm, h.2.2.symm⟩
  case encode => exact ⟨h.1, h.2.1.symm, h.2.1 ▸ h.2.2.symm⟩
  case write bytes => exact h.2.symm
  case send req =>
      obtain ⟨rfl, rfl⟩ := h
      exact ⟨_, hsend s.node req, rfl⟩
  case listRecentPayments =>
      obtain ⟨rfl, rfl⟩ := h
      exact ⟨_, hrecent s.node, rfl⟩

/-- An identifier for examples. -/
def PaymentId.filled (b : UInt8) : PaymentId := ⟨Vector.replicate 32 b⟩

/-! ## What a task leaves alone of another -/

/-- Nothing that belongs to the task `u` differs between `s` and `s'`. -/
structure Frame (u : Task) (s s' : LedgerState χ) : Prop where
  holder : s'.holder = some u ↔ s.holder = some u
  snapshot : s'.snapshot u = s.snapshot u
  unwritten : s'.unwritten u = s.unwritten u

theorem Frame.refl (u : Task) (s : LedgerState χ) : Frame u s s := ⟨Iff.rfl, rfl, rfl⟩

theorem Frame.trans {u : Task} {s₁ s₂ s₃ : LedgerState χ} (h : Frame u s₁ s₂)
    (h' : Frame u s₂ s₃) : Frame u s₁ s₃ :=
  ⟨h'.holder.trans h.holder, h'.snapshot.trans h.snapshot, h'.unwritten.trans h.unwritten⟩

/-- The task `t` has nothing under way. -/
structure Idle (t : Task) (s : LedgerState χ) : Prop where
  holder : s.holder ≠ some t
  snapshot : s.snapshot t = none
  unwritten : s.unwritten t = false

theorem Idle.frame {t : Task} {s s' : LedgerState χ} (h : Idle t s) (hf : Frame t s s') :
    Idle t s' :=
  ⟨fun hh => h.holder (hf.holder.mp hh), hf.snapshot.trans h.snapshot,
    hf.unwritten.trans h.unwritten⟩

/-- What the surroundings are at does not matter. -/
theorem Idle.node {t : Task} {s : LedgerState χ} {n : χ} (h : Idle t s) :
    Idle t { s with node := n } :=
  ⟨h.holder, h.snapshot, h.unwritten⟩

theorem Idle.settled (codec : Codec OutboundPaymentInfoStorage) (l : OutboundPaymentInfoStorage)
    (n : χ) (t : Task) : Idle t (LedgerState.settled codec l n) :=
  ⟨nofun, rfl, rfl⟩

/-- Every action leaves alone what belongs to the other tasks. -/
theorem ledgerExec_frame {codec : Codec OutboundPaymentInfoStorage} {m : Manager χ} {t u : Task}
    (hu : u ≠ t) {a : LedgerAct} {s s' : LedgerState χ} {r : a.Answer}
    (h : ledgerExec codec m t a s r s') : Frame u s s' := by
  cases a with
  | lock =>
      obtain ⟨hn, rfl⟩ := h
      exact ⟨by simp [hn, Ne.symm hu], rfl, rfl⟩
  | unlock =>
      obtain ⟨hn, rfl⟩ := h
      exact ⟨by simp [hn, Ne.symm hu], rfl, rfl⟩
  | contains id => obtain ⟨_, _, rfl⟩ := h; exact .refl u _
  | isEmpty => obtain ⟨_, _, rfl⟩ := h; exact .refl u _
  | update u' =>
      obtain ⟨_, rfl⟩ := h
      exact ⟨Iff.rfl, rfl, by simp [LedgerState.updated, hu]⟩
  | encode =>
      obtain ⟨_, _, rfl⟩ := h
      exact ⟨Iff.rfl, by simp [LedgerState.encoded, hu], rfl⟩
  | write bytes =>
      obtain rfl := h
      exact ⟨Iff.rfl, by simp [LedgerState.written, hu], by simp [LedgerState.written, hu]⟩
  | send req => obtain ⟨n, _, rfl⟩ := h; exact ⟨Iff.rfl, rfl, rfl⟩
  | load => obtain ⟨_, rfl⟩ := h; exact ⟨Iff.rfl, rfl, rfl⟩
  | listRecentPayments => obtain ⟨n, _, rfl⟩ := h; exact ⟨Iff.rfl, rfl, rfl⟩

end LightningNode
