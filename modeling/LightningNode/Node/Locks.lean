/-
# `LightningNode.Node.Locks` — the node's tasks never wait for each other for ever

The CLI thread, the event handler and whoever else persists something share three
kinds of locks:

    inbound_payments     getinvoice, listpayments, PaymentClaimed
    outbound_payments    the commands that pay, listpayments, PaymentSent, PaymentFailed, startup
    the lock of a path   every read, write and remove of a `FilesystemStore`

and take them in this order: a ledger is written with its mutex held, and
`listpayments` takes the inbound one first.  There are two `FilesystemStore`s on
the one directory, `fs_store` and the second `persister`, each with a table of
locks of its own.

The programs are those of `LightningNode.Ledger.Commands` and
`LightningNode.Ledger.Inbound`, a completed write carried out by the call of the
store.  What the ledgers and the `ChannelManager` answer decides nothing here, so
it is left open; any call of the operating system may fail, and the disk be
changed by others.  A write that fails is unwrapped: the process ends.
-/
import LightningNode.Ledger.Inbound
import LightningNode.Lib.Progress
import LightningNode.Store.LockDiscipline

namespace LightningNode

open Conc

namespace Locks

/-! ## Programs -/

/-- The two stores on `ldk_data_dir` (lines 695 and 1051 of `start_ldk`). -/
inductive Instance where
  | fsStore
  | persister
  deriving DecidableEq

inductive NodeAct where
  | outbound (a : LedgerAct)
  | inbound (a : Inbound.InboundAct)
  | store (i : Instance) (a : StoreAct)

abbrev NodeAct.Answer : NodeAct → Type
  | .outbound a => a.Answer
  | .inbound a => a.Answer
  | .store _ a => a.Answer

abbrev NodeProg := Prog NodeAct NodeAct.Answer

def OUTBOUND_PAYMENTS_FNAME : String := "outbound_payments"

def INBOUND_PAYMENTS_FNAME : String := "inbound_payments"

/-- A call on the store `i`. -/
def onInstance {β : Type} (i : Instance) (p : StoreProg β) : NodeProg β :=
  p.expand fun a => Prog.act (.store i a) fun r => Prog.ret (.ok r)

/-- `fs_store.write("", "", fname, &bytes).unwrap()`. -/
def unwrapWrite (dataDir : PathBuf) (i : Instance) (fname : String) (bytes : Bytes) :
    NodeProg (Except Outcome Unit) :=
  onInstance i ((Call.write "" "" fname bytes).program dataDir) >>= fun
    | .unit (.ok _) => Prog.ret (.ok ())
    | _ => Prog.ret (.error .panicked)

/-- The actions of the outbound ledger, a write carried out by the store `i`. -/
def carryOutbound (dataDir : PathBuf) (i : Instance) :
    (a : LedgerAct) → NodeProg (Except Outcome a.Answer)
  | .write bytes => unwrapWrite dataDir i OUTBOUND_PAYMENTS_FNAME bytes
  | a => Prog.act (.outbound a) fun r => Prog.ret (.ok r)

def outboundTask (dataDir : PathBuf) (i : Instance) (p : LedgerProg Outcome) : NodeProg Outcome :=
  p.expand (carryOutbound dataDir i)

def carryInbound (dataDir : PathBuf) (i : Instance) :
    (a : Inbound.InboundAct) → NodeProg (Except Outcome a.Answer)
  | .write bytes => unwrapWrite dataDir i INBOUND_PAYMENTS_FNAME bytes
  | a => Prog.act (.inbound a) fun r => Prog.ret (.ok r)

def inboundTask (dataDir : PathBuf) (i : Instance) (p : Inbound.InboundProg Unit) :
    NodeProg Outcome :=
  Prog.expand (carryInbound dataDir i) (p >>= fun _ => Prog.ret .done)

/-- `listpayments`: both guards live to the end of the statement. -/
def listPayments : NodeProg Outcome :=
  Prog.act (.inbound .lock) fun _ =>
  Prog.act (.outbound .lock) fun _ =>
  Prog.act (.outbound .unlock) fun _ =>
  Prog.act (.inbound .unlock) fun _ => Prog.ret .done

/-- What the tasks of the node run.  The CLI has the second `persister`, the event
handler and the startup have `fs_store`; others make any calls on both. -/
inductive NodeTask (dataDir : PathBuf) (ldk : Ldk) :
    NodeProg Outcome → Prop
  | pay (c : PayCommand) : NodeTask dataDir ldk
      (outboundTask dataDir .persister (c.program ldk))
  | getInvoice (amtMsat : UInt64) : NodeTask dataDir ldk
      (inboundTask dataDir .persister (Inbound.getInvoice amtMsat))
  | listPayments : NodeTask dataDir ldk listPayments
  | paymentEvent (e : PaymentEvent) : NodeTask dataDir ldk
      (outboundTask dataDir .fsStore e.program)
  | paymentClaimed (hash : PaymentHash) (purpose : Inbound.PaymentPurpose) (amountMsat : UInt64) :
      NodeTask dataDir ldk
        (inboundTask dataDir .fsStore (Inbound.handlePaymentClaimed hash purpose amountMsat))
  | startup : NodeTask dataDir ldk (outboundTask dataDir .fsStore reconcileOutbound)
  | call (i : Instance) (c : Call) : NodeTask dataDir ldk
      (onInstance i (c.program dataDir) >>= fun _ => Prog.ret .done)

/-! ## The system -/

/-- The disk, the memories of the stores, and who holds the two mutexes. -/
structure NodeState (T : Type) where
  disk : Disk
  memory : Instance → StoreMemory
  inbound : Option T
  outbound : Option T

variable {T : Type}

namespace NodeState

/-- A new process on the disk `d`. -/
def start (d : Disk) : NodeState T := ⟨d, fun _ => .new, none, none⟩

/-- What the store `i` works on. -/
def world (s : NodeState T) (i : Instance) : World := ⟨s.disk, s.memory i⟩

def setWorld (s : NodeState T) (i : Instance) (w : World) : NodeState T :=
  { s with disk := w.disk, memory := Function.update s.memory i w.memory }

end NodeState

/-- An action of the task `t` is performed, or a call of the operating system fails. -/
inductive NodeExec (t : T) : (a : NodeAct) → NodeState T → a.Answer → NodeState T → Prop
  | lockOutbound {s : NodeState T} : s.outbound = none →
      NodeExec t (.outbound .lock) s () { s with outbound := some t }
  | unlockOutbound {s : NodeState T} : s.outbound = some t →
      NodeExec t (.outbound .unlock) s () { s with outbound := none }
  | outbound {s : NodeState T} {a : LedgerAct} {r : a.Answer} : a ≠ .lock → a ≠ .unlock →
      NodeExec t (.outbound a) s r s
  | lockInbound {s : NodeState T} : s.inbound = none →
      NodeExec t (.inbound .lock) s () { s with inbound := some t }
  | unlockInbound {s : NodeState T} : s.inbound = some t →
      NodeExec t (.inbound .unlock) s () { s with inbound := none }
  | inbound {s : NodeState T} {a : Inbound.InboundAct} {r : a.Answer} : a ≠ .lock → a ≠ .unlock →
      NodeExec t (.inbound a) s r s
  | store {s : NodeState T} {i : Instance} {a : StoreAct} {r : a.Answer} {w : World} :
      storeStep a (s.world i) = some (r, w) → NodeExec t (.store i a) s r (s.setWorld i w)
  | fault {s : NodeState T} {i : Instance} {x : DiskAct} {e : ErrorKind} {d : Disk} :
      x.Fault s.disk d → NodeExec t (.store i (.disk x)) s (.error e) { s with disk := d }

/-- Any tasks start any of the programs; one that panics does not return, and ends
the process (`panic = "abort"`), as may happen at any time. -/
def nodeLocks (T : Type) [DecidableEq T] (dataDir : PathBuf)
    (ldk : Ldk) :
    System T NodeAct NodeAct.Answer Outcome (NodeState T) where
  exec := NodeExec
  start _ s p s' := NodeTask dataDir ldk p ∧ s' = s
  finish _ out s s' := out ≠ .panicked ∧ s' = s
  env s s' := ∃ d, s' = { s with disk := d }
  crash _ s' := ∃ d, s' = .start d

/-! ## What a task holds -/

structure NodeHold where
  inbound : Bool
  outbound : Bool
  store : Instance → Hold

namespace NodeHold

def none : NodeHold := ⟨false, false, fun _ => .none⟩

/-- The locks of paths come last, and of one store at a time. -/
def permits (h : NodeHold) : NodeAct → Prop
  | .inbound .lock => h = none
  | .inbound .unlock => h.inbound = true
  | .outbound .lock => h.outbound = false ∧ ∀ i, h.store i = .none
  | .outbound .unlock => h.outbound = true
  | .store i a => (h.store i).permits a ∧ ∀ j, j ≠ i → h.store j = .none
  | _ => True

def after (h : NodeHold) : (a : NodeAct) → a.Answer → NodeHold
  | .inbound .lock, _ => { h with inbound := true }
  | .inbound .unlock, _ => { h with inbound := false }
  | .outbound .lock, _ => { h with outbound := true }
  | .outbound .unlock, _ => { h with outbound := false }
  | .store i a, r => { h with store := Function.update h.store i ((h.store i).after a r) }
  | _, _ => h

end NodeHold

def nodeLocking : Typestate NodeAct NodeAct.Answer NodeHold where
  permits := NodeHold.permits
  answers _ _ _ := True
  after := NodeHold.after

/-- A program ends with nothing held, or with a panic. -/
def Ended (out : Outcome) (h : NodeHold) : Prop := out = .panicked ∨ h = .none

/-! ## Every program keeps to it -/

section

variable {β : Type} {inb out : Bool} {i : Instance}

/-- Holding the mutexes `inb` and `out`, and `g` of the store `i`. -/
def holding (inb out : Bool) (i : Instance) (g : Hold) : NodeHold :=
  ⟨inb, out, Function.update (fun _ => Hold.none) i g⟩

theorem holding_self {g : Hold} : (holding inb out i g).store i = g := by
  simp only [holding, Function.update_self]

theorem holding_other {g : Hold} {j : Instance} (hj : j ≠ i) :
    (holding inb out i g).store j = .none := by
  simp only [holding, Function.update_of_ne hj]

theorem holding_none : holding inb out i .none = ⟨inb, out, fun _ => Hold.none⟩ := by
  rw [holding, Function.update_eq_self_iff.mpr rfl]

/-- A call of the store, with whatever mutexes held. -/
theorem follows_onInstance (inb out : Bool) (i : Instance) {Q : β → Hold → Prop}
    {p : StoreProg β} {g : Hold}
    (hp : locking.Follows Q p g) :
    nodeLocking.Follows (fun x h => ∃ g', h = holding inb out i g' ∧ Q x g') (onInstance i p)
      (holding inb out i g) := by
  refine Typestate.Follows.expand (E := fun g h => h = holding inb out i g) ?_ ?_ hp rfl
  · rintro g _ a rfl ha
    have hpermits : ((holding inb out i g).store i).permits a := by
      rw [holding_self]
      exact ha
    refine .act ⟨hpermits, fun j hj => holding_other hj⟩ fun r _ => ⟨trivial, ?_⟩
    show NodeHold.after (holding inb out i g) (.store i a) r = holding inb out i (g.after a r)
    rw [NodeHold.after, holding_self]
    simp only [holding, Function.update_idem]
  · rintro x g _ rfl hx
    exact ⟨g, rfl, hx⟩

/-- A write that went well leaves the task holding what it held. -/
def Unwrapped {H : Type} (h : H) : Except Outcome Unit → H → Prop
  | .ok _, h' => h' = h
  | .error out, _ => out = .panicked

theorem follows_unwrapWrite (dataDir : PathBuf) (fname : String) (bytes : Bytes) :
    nodeLocking.Follows (Unwrapped ⟨inb, out, fun _ => Hold.none⟩)
      (unwrapWrite dataDir i fname bytes) ⟨inb, out, fun _ => Hold.none⟩ := by
  have hcall := follows_onInstance inb out i
    (follows_program dataDir (.write "" "" fname bytes))
  rw [holding_none] at hcall
  refine Typestate.Follows.bind ?_ hcall
  intro r h hr
  obtain ⟨g, rfl, rfl⟩ := hr
  rw [holding_none]
  cases r with
  | bytes r => exact rfl
  | keys r => exact rfl
  | unit r =>
      cases r with
      | error e => exact rfl
      | ok x => exact rfl

/-! ### The outbound ledger -/

/-- The ledger is looked at and changed under its mutex only, and written where `writes`
says; `true` where the mutex is held. -/
def outboundMutex (writes : Bool → Prop) : Typestate LedgerAct LedgerAct.Answer Bool where
  permits held
    | .lock | .load => held = false
    | .unlock | .contains _ | .isEmpty | .update _ | .encode => held = true
    | .write _ => writes held
    | _ => True
  answers _ _ _ := True
  after held
    | .lock, _ => true
    | .unlock, _ => false
    | _, _ => held

/-- A panic, or the mutex as it is to be. -/
def Kept (held : Bool) (out : Outcome) (h : Bool) : Prop := out = .panicked ∨ h = held

section

variable {info : PaymentInfo} {req : PayRequest} {sent : Outcome} {W : Bool → Prop}

theorem follows_persist (hW : W true) :
    (outboundMutex W).Follows (fun _ h => h = true) persist true :=
  .act rfl fun _ _ => .act hW fun _ _ => rfl

theorem follows_recordAndSend (hW : W true) :
    (outboundMutex W).Follows (Kept true) (recordAndSend info req sent) true := by
  refine .act rfl fun _ _ => ?_
  show (outboundMutex W).Follows (Kept true) (persist >>= _) true
  refine Typestate.Follows.bind ?_ (follows_persist hW)
  rintro _ _ rfl
  refine .act trivial fun r _ => ?_
  cases r with
  | ok x => exact .inr rfl
  | error e =>
      refine .act rfl fun b _ => ?_
      cases b with
      | false => exact .inl rfl
      | true =>
          refine .act rfl fun _ _ => ?_
          show (outboundMutex W).Follows (Kept true) (persist >>= _) true
          refine Typestate.Follows.bind ?_ (follows_persist hW)
          rintro _ _ rfl
          exact .inr rfl

theorem follows_withOutbound {body : LedgerProg Outcome}
    (hbody : (outboundMutex W).Follows (Kept true) body true) :
    (outboundMutex W).Follows (Kept false) (withOutbound body) false := by
  refine .act rfl fun _ _ => ?_
  show (outboundMutex W).Follows (Kept false) (body >>= _) true
  refine Typestate.Follows.bind ?_ hbody
  rintro out h (rfl | rfl)
  · exact .inl rfl
  · cases out with
    | panicked => exact .inl rfl
    | _ => exact .act rfl fun _ _ => .inr rfl

theorem follows_sendPayment (ldk : Ldk) (hW : W true) (invoice : Bolt11Invoice)
    (amt : Option UInt64) :
    (outboundMutex W).Follows (Kept true) (sendPayment ldk invoice amt) true := by
  unfold sendPayment
  split
  · exact .inr rfl
  · exact follows_recordAndSend hW

/-- The payment of an offer writes after it has let go of the mutex. -/
theorem follows_payOffer (hW : W false) (offer : Offer) (id : PaymentId) (msat : UInt64) :
    (outboundMutex W).Follows (Kept false) (payOffer offer id msat) false := by
  refine .act rfl fun _ _ => .act rfl fun _ _ => .act rfl fun _ _ => ?_
  refine .act rfl fun _ _ => .act rfl fun _ _ => .act rfl fun _ _ => .act hW fun _ _ => ?_
  refine .act trivial fun r _ => ?_
  cases r with
  | ok x => exact .inr rfl
  | error e => exact .inr rfl

theorem follows_pay (ldk : Ldk) (hW : W true)
    (c : PayCommand) (ho : (∃ o amt bytes, c = .offer o amt bytes) → W false) :
    (outboundMutex W).Follows (Kept false) (c.program ldk) false := by
  cases c with
  | invoice inv amt => exact follows_withOutbound (follows_sendPayment ldk hW inv amt)
  | keysend payee amt bytes => exact follows_withOutbound (follows_recordAndSend hW)
  | offer o amt bytes =>
      rw [PayCommand.program]
      split
      · exact .inr rfl
      · exact follows_payOffer (ho ⟨o, amt, bytes, rfl⟩) _ _ _

theorem follows_paymentEvent (hW : W true) (e : PaymentEvent) :
    (outboundMutex W).Follows (Kept false) e.program false := by
  have hend : (outboundMutex W).Follows (Kept false)
      (persist >>= fun _ => LedgerProg.act .unlock >>= fun _ => pure Outcome.done) true := by
    refine Typestate.Follows.bind ?_ (follows_persist hW)
    rintro _ _ rfl
    exact .act rfl fun _ _ => .inr rfl
  cases e with
  | sent preimage id =>
      refine .act rfl fun _ _ => ?_
      cases id with
      | some id => exact .act rfl fun _ _ => hend
      | none =>
          refine .act rfl fun b _ => ?_
          cases b with
          | false => exact .inl rfl
          | true => exact hend
  | failed id =>
      refine .act rfl fun _ _ => .act rfl fun b _ => ?_
      cases b with
      | false => exact hend
      | true => exact .act rfl fun _ _ => hend

theorem follows_reconcileOutbound (hW : W true) :
    (outboundMutex W).Follows (Kept false) reconcileOutbound false := by
  refine .act rfl fun _ _ => .act trivial fun _ _ => .act rfl fun _ _ => .act rfl fun _ _ => ?_
  refine .act rfl fun _ _ => .act rfl fun _ _ => ?_
  show (outboundMutex W).Follows (Kept false) (persist >>= _) true
  refine Typestate.Follows.bind ?_ (follows_persist hW)
  rintro _ _ rfl
  exact .act rfl fun _ _ => .inr rfl

end

/-- Its writes carried out by a store, with the mutex held or not. -/
theorem follows_outboundTask (dataDir : PathBuf) (i : Instance) {p : LedgerProg Outcome}
    (hp : (outboundMutex fun _ => True).Follows (Kept false) p false) :
    nodeLocking.Follows Ended (outboundTask dataDir i p) .none := by
  refine Typestate.Follows.expand
    (E := fun held h => h = ⟨false, held, fun _ => Hold.none⟩) ?_ ?_ hp rfl
  · rintro held _ a rfl ha
    cases a with
    | write bytes =>
        refine (follows_unwrapWrite dataDir _ bytes).mono ?_
        intro r h hr
        cases r with
        | ok x => exact ⟨trivial, hr⟩
        | error out => exact .inl hr
    | lock => exact .act ⟨ha, fun _ => rfl⟩ fun _ _ => ⟨trivial, rfl⟩
    | unlock => exact .act ha fun _ _ => ⟨trivial, rfl⟩
    | _ => exact .act trivial fun _ _ => ⟨trivial, rfl⟩
  · rintro out held _ rfl (hout | rfl)
    · exact .inl hout
    · exact .inr rfl

/-! ### The inbound ledger -/

/-- The same of the inbound ledger. -/
def inboundMutex : Typestate Inbound.InboundAct Inbound.InboundAct.Answer Bool where
  permits held
    | .lock => held = false
    | .unlock | .insert _ _ | .claim _ | .encode => held = true
    | _ => True
  answers _ _ _ := True
  after held
    | .lock, _ => true
    | .unlock, _ => false
    | _, _ => held

theorem follows_writeAndUnlock :
    inboundMutex.Follows (fun _ h => h = false) Inbound.writeAndUnlock true :=
  .act rfl fun _ _ => .act trivial fun _ _ => .act rfl fun _ _ => rfl

theorem follows_getInvoice (amtMsat : UInt64) :
    inboundMutex.Follows (fun _ h => h = false) (Inbound.getInvoice amtMsat) false := by
  refine .act rfl fun _ _ => .act trivial fun r _ => ?_
  cases r with
  | none => exact follows_writeAndUnlock
  | some x => exact .act rfl fun _ _ => follows_writeAndUnlock

theorem follows_paymentClaimed (hash : PaymentHash) (purpose : Inbound.PaymentPurpose)
    (amountMsat : UInt64) : inboundMutex.Follows (fun _ h => h = false)
      (Inbound.handlePaymentClaimed hash purpose amountMsat) false :=
  .act rfl fun _ _ => .act rfl fun _ _ => follows_writeAndUnlock

theorem follows_inboundTask (dataDir : PathBuf) (i : Instance) {p : Inbound.InboundProg Unit}
    (hp : inboundMutex.Follows (fun _ h => h = false) p false) :
    nodeLocking.Follows Ended (inboundTask dataDir i p) .none := by
  have hdone : inboundMutex.Follows (Kept false) (p >>= fun _ => Prog.ret Outcome.done) false := by
    refine Typestate.Follows.bind ?_ hp
    rintro _ _ rfl
    exact .inr rfl
  refine Typestate.Follows.expand
    (E := fun held h => h = ⟨held, false, fun _ => Hold.none⟩) ?_ ?_ hdone rfl
  · rintro held _ a rfl ha
    cases a with
    | write bytes =>
        refine (follows_unwrapWrite dataDir _ bytes).mono ?_
        intro r h hr
        cases r with
        | ok x => exact ⟨trivial, hr⟩
        | error out => exact .inl hr
    | lock =>
        obtain rfl : held = false := ha
        exact .act rfl fun _ _ => ⟨trivial, rfl⟩
    | unlock => exact .act ha fun _ _ => ⟨trivial, rfl⟩
    | _ => exact .act trivial fun _ _ => ⟨trivial, rfl⟩
  · rintro out held _ rfl (hout | rfl)
    · exact .inl hout
    · exact .inr rfl

end

/-- Whatever a task of the node runs. -/
theorem follows_nodeTask {dataDir : PathBuf} {ldk : Ldk}
    {p : NodeProg Outcome} (h : NodeTask dataDir ldk p) :
    nodeLocking.Follows Ended p .none := by
  cases h with
  | pay c => exact follows_outboundTask dataDir _ (follows_pay ldk trivial c fun _ => trivial)
  | getInvoice amtMsat => exact follows_inboundTask dataDir _ (follows_getInvoice amtMsat)
  | listPayments =>
      refine .act rfl fun _ _ => .act ⟨rfl, fun _ => rfl⟩ fun _ _ => ?_
      exact .act rfl fun _ _ => .act rfl fun _ _ => .inr rfl
  | paymentEvent e => exact follows_outboundTask dataDir _ (follows_paymentEvent trivial e)
  | paymentClaimed hash purpose amountMsat =>
      exact follows_inboundTask dataDir _ (follows_paymentClaimed hash purpose amountMsat)
  | startup => exact follows_outboundTask dataDir _ (follows_reconcileOutbound trivial)
  | call i c =>
      have hcall := follows_onInstance false false i
        (follows_program dataDir c)
      rw [holding_none] at hcall
      refine Typestate.Follows.bind ?_ hcall
      rintro _ _ ⟨g, rfl, rfl⟩
      exact .inr holding_none

/-! ## Who holds what -/

variable [DecidableEq T]

/-- The mutexes have the holders that hold them, and every guard of a path is somebody's. -/
structure Held (s : NodeState T) (hold : T → NodeHold) : Prop where
  inbound : ∀ t, s.inbound = some t ↔ (hold t).inbound = true
  outbound : ∀ t, s.outbound = some t ↔ (hold t).outbound = true
  manned : ∀ i, Manned (s.memory i) fun t => (hold t).store i

omit [DecidableEq T] in
theorem held_start (d : Disk) : Held (.start d) fun _ : T => NodeHold.none := by
  refine ⟨fun t => ?_, fun t => ?_, fun _ => .new⟩
  · simp only [NodeState.start, NodeHold.none, reduceCtorEq, Bool.false_eq_true]
  · simp only [NodeState.start, NodeHold.none, reduceCtorEq, Bool.false_eq_true]

section

variable {hold : T → NodeHold} {t : T} {h : NodeHold} {x : Option T} {f : NodeHold → Bool}

/-- What a task held before it, it still holds. -/
theorem field_same {X : Type} {f : NodeHold → X} (hf : f h = f (hold t)) :
    (fun u => f (Function.update hold t h u)) = fun u => f (hold u) := by
  funext u
  rcases eq_or_ne u t with rfl | hu
  · rw [Function.update_self, hf]
  · rw [Function.update_of_ne hu]

theorem field_update {X : Type} {f : NodeHold → X} :
    (fun u => f (Function.update hold t h u)) = Function.update (fun u => f (hold u)) t (f h) := by
  funext u
  rcases eq_or_ne u t with rfl | hu
  · rw [Function.update_self, Function.update_self]
  · rw [Function.update_of_ne hu, Function.update_of_ne hu]

theorem mutex_same (hx : ∀ u, x = some u ↔ f (hold u) = true) (hf : f h = f (hold t)) (u : T) :
    x = some u ↔ f (Function.update hold t h u) = true := by
  rw [hx u, congrFun (field_same hf) u]

theorem mutex_taken (hx : ∀ u, x = some u ↔ f (hold u) = true) (hfree : x = none)
    (hf : f h = true) (u : T) : some t = some u ↔ f (Function.update hold t h u) = true := by
  rcases eq_or_ne u t with rfl | hu
  · simp only [Function.update_self, hf]
  · have hother := hx u
    rw [hfree] at hother
    rw [Function.update_of_ne hu, ← hother]
    simp only [Option.some.injEq, Ne.symm hu, reduceCtorEq]

theorem mutex_given (hx : ∀ u, x = some u ↔ f (hold u) = true) (ht : x = some t)
    (hf : f h = false) (u : T) : none = some u ↔ f (Function.update hold t h u) = true := by
  rcases eq_or_ne u t with rfl | hu
  · simp only [Function.update_self, hf, reduceCtorEq, Bool.false_eq_true]
  · have hother := hx u
    rw [ht] at hother
    rw [Function.update_of_ne hu, ← hother]
    simp only [Option.some.injEq, Ne.symm hu, reduceCtorEq]

end

/-- A permitted action keeps locks and holders together. -/
theorem Held.exec {s s' : NodeState T} {hold : T → NodeHold} {t : T} {a : NodeAct} {r : a.Answer}
    (hi : Held s hold) (he : NodeExec t a s r s') (hp : nodeLocking.permits (hold t) a) :
    Held s' (Function.update hold t (nodeLocking.after (hold t) a r)) := by
  have hmanned : ∀ {h : NodeHold}, h.store = (hold t).store →
      ∀ i, Manned (s.memory i) fun u => (Function.update hold t h u).store i := by
    intro h hstore i
    rw [field_same (f := fun h => h.store i) (congrFun hstore i)]
    exact hi.manned i
  cases he with
  | lockOutbound hfree =>
      exact ⟨mutex_same hi.inbound rfl, mutex_taken hi.outbound hfree rfl, hmanned rfl⟩
  | unlockOutbound ht =>
      exact ⟨mutex_same hi.inbound rfl, mutex_given hi.outbound ht rfl, hmanned rfl⟩
  | @outbound _ a r hlock hunlock =>
      have hsame : nodeLocking.after (hold t) (.outbound a) r = hold t := by
        cases a with
        | lock => exact absurd rfl hlock
        | unlock => exact absurd rfl hunlock
        | _ => rfl
      rw [hsame, Function.update_eq_self]
      exact hi
  | lockInbound hfree =>
      exact ⟨mutex_taken hi.inbound hfree rfl, mutex_same hi.outbound rfl, hmanned rfl⟩
  | unlockInbound ht =>
      exact ⟨mutex_given hi.inbound ht rfl, mutex_same hi.outbound rfl, hmanned rfl⟩
  | @inbound _ a r hlock hunlock =>
      have hsame : nodeLocking.after (hold t) (.inbound a) r = hold t := by
        cases a with
        | lock => exact absurd rfl hlock
        | unlock => exact absurd rfl hunlock
        | _ => rfl
      rw [hsame, Function.update_eq_self]
      exact hi
  | @store _ i a r w hs =>
      refine ⟨mutex_same hi.inbound rfl, mutex_same hi.outbound rfl, fun j => ?_⟩
      rcases eq_or_ne j i with rfl | hj
      · have hstep := (hi.manned j).step (t := t) (w := s.world j) hs hp.1
        rw [field_update (f := fun h => h.store j)]
        simp only [NodeState.setWorld, Function.update_self]
        rw [show (nodeLocking.after (hold t) (.store j a) r).store j = ((hold t).store j).after a r
          from Function.update_self ..]
        exact hstep
      · simp only [NodeState.setWorld, Function.update_of_ne hj]
        rw [field_same (f := fun h => h.store j) (Function.update_of_ne hj ..)]
        exact hi.manned j
  | @fault _ i x e d hf =>
      refine ⟨mutex_same hi.inbound rfl, mutex_same hi.outbound rfl, fun j => ?_⟩
      rcases eq_or_ne j i with rfl | hj
      · have hstep := (hi.manned j).onDisk (t := t) x (.error e)
        rw [field_update (f := fun h => h.store j)]
        rw [show (nodeLocking.after (hold t) (.store j (.disk x)) (.error e)).store j =
          ((hold t).store j).after (.disk x) (.error e) from Function.update_self ..]
        exact hstep
      · rw [field_same (f := fun h => h.store j) (Function.update_of_ne hj ..)]
        exact hi.manned j

variable {dataDir : PathBuf} {ldk : Ldk}

theorem nodeLocking_kept :
    nodeLocking.Kept (nodeLocks T dataDir ldk) .none Ended Held where
  exec he hi hp := ⟨trivial, hi.exec he hp⟩
  start := by
    rintro t s p s' hold ⟨htask, rfl⟩ hi ht
    refine ⟨.none, ?_, follows_nodeTask htask⟩
    rwa [← ht, Function.update_eq_self]
  finish := by
    rintro t out s s' hold ⟨hout, rfl⟩ hi hended
    have hnone := hended.resolve_left hout
    rwa [← hnone, Function.update_eq_self]
  env := by
    rintro s s' hold ⟨d, rfl⟩ hi
    exact ⟨hi.inbound, hi.outbound, hi.manned⟩
  crash := by
    rintro s s' hold ⟨d, rfl⟩ _
    exact held_start d

/-! ## Who waits for whom -/

inductive LockName where
  | inbound
  | outbound
  | path (i : Instance) (r : LockRef)

def LockName.rank : LockName → Nat
  | .inbound => 0
  | .outbound => 1
  | .path _ _ => 2

abbrev NodeConfig (T : Type) := Config T NodeAct NodeAct.Answer Outcome (NodeState T)

/-- The task `t` is at the taking of a lock that is not to be had. -/
def Waits (c : NodeConfig T) (t : T) : LockName → Prop
  | .inbound => c.state.inbound ≠ none ∧ ∃ k, c.task t = some (.act (.inbound .lock) k)
  | .outbound => c.state.outbound ≠ none ∧ ∃ k, c.task t = some (.act (.outbound .lock) k)
  | .path i r =>
      (((c.state.memory i).held r).writer = true ∨ 0 < ((c.state.memory i).held r).readers) ∧
      ((∃ k, c.task t = some (.act (.store i (.readLock r)) k)) ∨
        ∃ k, c.task t = some (.act (.store i (.writeLock r)) k))

def Holds (hold : T → NodeHold) (t : T) : LockName → Prop
  | .inbound => (hold t).inbound = true
  | .outbound => (hold t).outbound = true
  | .path i r => ∃ g path, ((hold t).store i).Guards g path r

def waiting (c : NodeConfig T) (hold : T → NodeHold) : Waiting T LockName :=
  ⟨Waits c, Holds hold, LockName.rank⟩

abbrev NodeFits (hold : T → NodeHold) (c : NodeConfig T) : Prop :=
  nodeLocking.Fits .none Ended Held hold c

section

variable {c : NodeConfig T} {hold : T → NodeHold}

omit [DecidableEq T]

/-- Who waits for the lock of a path has a guard on none. -/
theorem permits_path {h : NodeHold} {i : Instance} {r : LockRef}
    (hp : h.permits (.store i (.readLock r)) ∨ h.permits (.store i (.writeLock r))) {j : Instance}
    {g : Guard} {path : PathBuf} {r' : LockRef} : ¬ (h.store j).Guards g path r' := by
  intro hg
  obtain ⟨⟨path', hi⟩, hother⟩ : (∃ path', h.store i = ⟨some (path', r), none, none⟩) ∧
      ∀ j, j ≠ i → h.store j = .none := by
    rcases hp with hp | hp
    · exact hp
    · exact hp
  rcases eq_or_ne j i with rfl | hj
  · rw [hi] at hg
    cases hg.2
  · rw [hother j hj] at hg
    cases hg.2

/-- The locks are taken in the order of their ranks. -/
theorem waiting_ordered (hc : NodeFits hold c) : (waiting c hold).Ordered where
  held := by
    intro t l hw
    cases l with
    | inbound =>
        obtain ⟨u, hu⟩ := Option.ne_none_iff_exists'.mp hw.1
        exact ⟨u, (hc.inv.inbound u).mp hu⟩
    | outbound =>
        obtain ⟨u, hu⟩ := Option.ne_none_iff_exists'.mp hw.1
        exact ⟨u, (hc.inv.outbound u).mp hu⟩
    | path i r =>
        rcases hw.1 with hwriter | hreaders
        · obtain ⟨u, path, hg⟩ := (hc.inv.manned i).writer r hwriter
          exact ⟨u, .write, path, hg⟩
        · obtain ⟨u, path, hg⟩ := ((hc.inv.manned i).readers r).exists_of_pos hreaders
          exact ⟨u, .read, path, hg⟩
  above := by
    intro t l l' hh hw
    cases l' with
    | inbound =>
        obtain ⟨k, ht⟩ := hw.2
        have hnone : hold t = .none := (hc.permits ht).1
        cases l with
        | inbound => cases (congrArg NodeHold.inbound hnone).symm.trans hh
        | outbound => cases (congrArg NodeHold.outbound hnone).symm.trans hh
        | path i r =>
            obtain ⟨g, path, hg⟩ := hh
            rw [hnone] at hg
            cases hg.2
    | outbound =>
        obtain ⟨k, ht⟩ := hw.2
        obtain ⟨hout, hstore⟩ : (hold t).outbound = false ∧ ∀ i, (hold t).store i = .none :=
          (hc.permits ht).1
        cases l with
        | inbound => exact Nat.zero_lt_one
        | outbound => cases hout.symm.trans hh
        | path i r =>
            obtain ⟨g, path, hg⟩ := hh
            rw [hstore i] at hg
            cases hg.2
    | path i r =>
        have hp : (hold t).permits (.store i (.readLock r)) ∨
            (hold t).permits (.store i (.writeLock r)) := by
          rcases hw.2 with ⟨k, ht⟩ | ⟨k, ht⟩
          · exact .inl (hc.permits ht).1
          · exact .inr (hc.permits ht).1
        cases l with
        | inbound => exact Nat.zero_lt_two
        | outbound => exact Nat.one_lt_two
        | path j r' =>
            obtain ⟨g, path, hg⟩ := hh
            exact absurd hg (permits_path hp)

/-- A task that waits for no lock can have its next action performed. -/
theorem can_act (hc : NodeFits hold c) {t : T} (hfree : ∀ l, ¬ Waits c t l) {a : NodeAct}
    {k : a.Answer → NodeProg Outcome} (ht : c.task t = some (.act a k)) :
    ∃ r s', NodeExec t a c.state r s' := by
  have hp := (hc.permits ht).1
  cases a with
  | outbound a =>
      cases a with
      | lock =>
          have hnone : c.state.outbound = none := by
            by_contra hne
            exact hfree .outbound ⟨hne, k, ht⟩
          exact ⟨_, _, .lockOutbound hnone⟩
      | unlock => exact ⟨_, _, .unlockOutbound ((hc.inv.outbound t).mpr hp)⟩
      | contains id => exact ⟨false, _, .outbound nofun nofun⟩
      | isEmpty => exact ⟨false, _, .outbound nofun nofun⟩
      | encode => exact ⟨[], _, .outbound nofun nofun⟩
      | send req => exact ⟨.ok (), _, .outbound nofun nofun⟩
      | listRecentPayments => exact ⟨[], _, .outbound nofun nofun⟩
      | update u => exact ⟨(), _, .outbound nofun nofun⟩
      | write bytes => exact ⟨(), _, .outbound nofun nofun⟩
      | load => exact ⟨(), _, .outbound nofun nofun⟩
  | inbound a =>
      cases a with
      | lock =>
          have hnone : c.state.inbound = none := by
            by_contra hne
            exact hfree .inbound ⟨hne, k, ht⟩
          exact ⟨_, _, .lockInbound hnone⟩
      | unlock => exact ⟨_, _, .unlockInbound ((hc.inv.inbound t).mpr hp)⟩
      | createInvoice amtMsat => exact ⟨none, _, .inbound nofun nofun⟩
      | encode => exact ⟨[], _, .inbound nofun nofun⟩
      | insert hash info => exact ⟨(), _, .inbound nofun nofun⟩
      | claim claim => exact ⟨(), _, .inbound nofun nofun⟩
      | write bytes => exact ⟨(), _, .inbound nofun nofun⟩
  | store i a =>
      cases hs : storeStep a (c.state.world i) with
      | some y => exact ⟨_, _, .store hs⟩
      | none =>
          obtain ⟨r, hlock, hheld⟩ := storeStep_waits hs
          rcases hlock with rfl | rfl
          · exact absurd ⟨hheld, .inl ⟨k, ht⟩⟩ (hfree (.path i r))
          · exact absurd ⟨hheld, .inr ⟨k, ht⟩⟩ (hfree (.path i r))

end

/-! ## Every run -/

/-- No task is under way, or the process has panicked. -/
def AtRest (c : NodeConfig T) : Prop :=
  (∀ t, c.task t = none) ∨ ∃ t, c.task t = some (.ret .panicked)

/-- While a task is under way and none has panicked, one can go on. -/
theorem one_can_go {c : NodeConfig T} {hold : T → NodeHold} (hc : NodeFits hold c) :
    AtRest c ∨ ∃ t, (nodeLocks T dataDir ldk).CanGo c t := by
  have hgo : ∀ t, (∀ l, ¬ Waits c t l) → c.task t ≠ none →
      AtRest c ∨ ∃ t, (nodeLocks T dataDir ldk).CanGo c t := by
    intro t hfree ht
    obtain ⟨p, hp⟩ := Option.ne_none_iff_exists'.mp ht
    cases p with
    | ret out =>
        by_cases hout : out = .panicked
        · subst hout
          exact .inl (.inr ⟨t, hp⟩)
        · exact .inr ⟨t, .inl ⟨out, _, hp, hout, rfl⟩⟩
    | act a k =>
        obtain ⟨r, s', he⟩ := can_act hc hfree hp
        exact .inr ⟨t, .inr ⟨a, k, r, s', hp, he⟩⟩
  by_cases hidle : ∀ t, c.task t = none
  · exact .inl (.inl hidle)
  · obtain ⟨t, ht⟩ := not_forall.mp hidle
    by_cases hwait : ∃ l, Waits c t l
    · obtain ⟨l, hl⟩ := hwait
      have hrank : ∀ l : LockName, l.rank ≤ 2 := by
        intro l
        cases l <;> simp only [LockName.rank] <;> omega
      obtain ⟨u, ⟨l', hl'⟩, hfree⟩ := Waiting.exists_free (waiting_ordered hc) hrank hl
      refine hgo u hfree fun hu => ?_
      -- who holds a lock is under way
      have hnone : hold u = .none := by
        have htask := hc.task u
        rw [hu] at htask
        exact htask
      have hholds : Holds hold u l' := hl'
      cases l' with
      | inbound => cases (congrArg NodeHold.inbound hnone).symm.trans hholds
      | outbound => cases (congrArg NodeHold.outbound hnone).symm.trans hholds
      | path i r =>
          obtain ⟨g, path, hg⟩ := hholds
          rw [hnone] at hg
          cases hg.2
    · exact hgo t (fun l hl => hwait ⟨l, hl⟩) ht

/-- From every configuration of every run on, the tasks under way take finitely many
steps, however they are scheduled and whatever they are answered; and where none of
them can take another, all have returned, or one has panicked. -/
theorem node_comes_to_rest [Finite T] {d : Disk} {c : NodeConfig T}
    (hr : (nodeLocks T dataDir ldk).Reach (.idle (.start d)) c) :
    Acc (fun c₂ c₁ => (nodeLocks T dataDir ldk).Work c₁ c₂) c ∧
      ∀ c', Relation.ReflTransGen (nodeLocks T dataDir ldk).Work c c' →
        (∀ c'', ¬ (nodeLocks T dataDir ldk).Work c' c'') → AtRest c' := by
  refine ⟨System.work_wf.apply c, ?_⟩
  intro c' hwork hlast
  obtain ⟨hold, hc⟩ := nodeLocking_kept.reach (held_start d) (hr.trans (System.Work.reach hwork))
  rcases one_can_go hc with hrest | ⟨t, ht⟩
  · exact hrest
  · obtain ⟨c'', h⟩ := ht.work
    exact absurd h (hlast c'')

/-- `listpayments` has the inbound mutex and waits for the outbound one, which a
payment holds that is about to write. -/
theorem node_comes_to_rest_waiting :
    (nodeLocks Bool (.base "data") (.plain id)).Can (.idle (.start .fresh)) fun c =>
      (Waits c false .outbound ∧ c.state.inbound = some false ∧ c.state.outbound = some true) ∧
      Acc (fun c₂ c₁ => (nodeLocks Bool (.base "data") (.plain id)).Work c₁ c₂) c ∧
      ∀ c', Relation.ReflTransGen (nodeLocks Bool (.base "data") (.plain id)).Work c c' →
        (∀ c'', ¬ (nodeLocks Bool (.base "data") (.plain id)).Work c' c'') → AtRest c' := by
  have hrun : (nodeLocks Bool (.base "data") (.plain id)).Can (.idle (.start .fresh)) fun c =>
      Waits c false .outbound ∧ c.state.inbound = some false ∧ c.state.outbound = some true := by
    refine .step (.start (t := true) rfl ⟨.paymentEvent (.failed (.filled 1)), rfl⟩) ?_
    refine .step (.act (t := true) rfl (.lockOutbound rfl)) ?_
    refine .step (.start (t := false) rfl ⟨.listPayments, rfl⟩) ?_
    refine .step (.act (t := false) rfl (.lockInbound rfl)) ?_
    exact .here ⟨⟨nofun, _, rfl⟩, rfl, rfl⟩
  obtain ⟨c, hr, hwaits⟩ := hrun
  exact ⟨c, hr, hwaits, node_comes_to_rest hr⟩

end Locks

end LightningNode
