/-
# `LightningNode.Ledger.WriteAhead` — recorded before it is sent

Every command writes the ledger with the new record before it hands the payment
to the `ChannelManager`, and startup fails the pending records that the
`ChannelManager` no longer knows.  Two consequences, over every run with a
crash at any step and any number of restarts:

    `handed_on_disk`   what was ever handed over has a record in the file
    `Reconciled`       what startup leaves of the ledger it found

Only the set of recorded ids matters for the first, and no step removes an id
from it; so a write of an old snapshot, which loses what an event handler has
written, still loses no record.
-/
import LightningNode.Ledger.Protocol
import LightningNode.Ledger.Serialization

namespace LightningNode

open Conc

namespace WriteAhead

/-- Whether startup is over, the ids handed over in all runs so far, the file
the last startup began with and the payments it saw listed. -/
structure Node where
  up : Bool
  handed : List PaymentId
  boot : Option Bytes
  recent : List PaymentId

/-- A request may be answered in any way; it is handed over either way. -/
def manager : Manager Node where
  send n req _ n' := n' = { n with handed := req.id :: n.handed }
  recent n r n' := n' = { n with recent := r }

/-- Startup runs alone; after it the CLI thread and the event task do, until a
crash takes the memory and leaves the file. -/
def system (codec : Codec OutboundPaymentInfoStorage)
    (ldk : Ldk) : LedgerSystem Node where
  exec := ledgerExec codec manager
  start t s p s' :=
    match t with
    | .cli => s.node.up = true ∧ (∃ c : PayCommand, p = c.program ldk) ∧ s' = s
    | .events => s.node.up = true ∧ (∃ e : PaymentEvent, p = e.program) ∧ s' = s
    | .startup => s.node.up = false ∧ p = reconcileOutbound ∧
        s' = { s with node := { s.node with boot := s.file } }
  finish t out s s' := out ≠ .panicked ∧
    match t with
    | .startup => s' = { s with node := { s.node with up := true } }
    | _ => s' = s
  env _ _ := False
  crash s s' := s' =
    { s with
      ledger := .empty
      holder := none
      node := { s.node with up := false }
      snapshot := fun _ => none
      unwritten := fun _ => false }

/-- Before the first start: any file, or none. -/
def initial (file : Option Bytes) : LedgerState Node where
  ledger := .empty
  holder := none
  file := file
  node := ⟨false, [], file, []⟩
  version := 0
  fileVersion := 0
  snapshot _ := none
  unwritten _ := false

/-! ## What startup does to the ledger it finds -/

structure Reconciled (before after : OutboundPaymentInfoStorage) (recent : List PaymentId) :
    Prop where
  pending : ∀ id, after.HasStatus id .pending → id ∈ recent
  settled : ∀ id p, before.lookup id = some p → p.status ≠ .pending → after.lookup id = some p
  fields : ∀ id p, before.lookup id = some p → ∃ st, after.lookup id = some { p with status := st }
  records : ∀ id, after.Has id → before.Has id

theorem reconciled_on (recent : List PaymentId) (l : OutboundPaymentInfoStorage) :
    Reconciled l ((LedgerUpdate.reconcile recent).on l) recent where
  pending := by
    rintro id ⟨info, hl, hst⟩
    rw [LedgerUpdate.lookup_reconcile] at hl
    obtain ⟨p, _, rfl⟩ := Option.map_eq_some_iff.mp hl
    by_contra hid
    by_cases hp : p.status = .pending
    · simp [hp, hid] at hst
    · simp [hp] at hst
  settled := by
    intro id p hl hp
    simp [hl, hp]
  fields := by
    intro id p hl
    by_cases hp : p.status = .pending ∧ id ∉ recent
    · exact ⟨.failed, by simp [hl, hp.1, hp.2]⟩
    · exact ⟨p.status, by simp [hl, hp]⟩
  records := by
    intro id h
    exact (LedgerUpdate.has_of_on h).resolve_right nofun

/-! ## The invariant -/

structure Ahead (codec : Codec OutboundPaymentInfoStorage) (s : LedgerState Node) : Prop where
  handed : ∀ id ∈ s.node.handed, (readOutboundPaymentInfo codec s.file).Has id
  known : s.node.up = true → ∀ id, (readOutboundPaymentInfo codec s.file).Has id →
    s.ledger.Has id
  written : s.node.up = true → s.unwritten .cli = false → ∀ id, s.ledger.Has id →
    (readOutboundPaymentInfo codec s.file).Has id
  /-- whatever is still to be written records the same ids as the ledger -/
  snapshot : ∀ t snap, s.snapshot t = some snap →
    ∃ l, codec.decode snap.bytes = some l ∧ ∀ id, l.Has id ↔ s.ledger.Has id
  events_held : s.snapshot .events ≠ none → s.holder = some .events
  startup_idle : s.node.up = true → s.snapshot .startup = none
  others_idle : s.node.up = false → s.snapshot .cli = none ∧ s.snapshot .events = none

namespace Ahead

variable {codec : Codec OutboundPaymentInfoStorage} {s : LedgerState Node}

theorem initial (file : Option Bytes) : Ahead codec (initial file) where
  handed := nofun
  known := nofun
  written := nofun
  snapshot := nofun
  events_held h := absurd rfl h
  startup_idle _ := rfl
  others_idle _ := ⟨rfl, rfl⟩

theorem events_none (h : Ahead codec s) (hh : s.holder ≠ some .events) :
    s.snapshot .events = none := by
  by_contra hs
  exact hh (h.events_held hs)

/-- The mutex may pass to any task while the event task has no snapshot. -/
theorem holder (h : Ahead codec s) (t : Option Task) (hs : s.snapshot .events = none) :
    Ahead codec { s with holder := t } :=
  { h with events_held := fun hn => absurd hs hn }

theorem encode (h : Ahead codec s) {t : Task} (hh : s.holder = some t)
    (hup : s.node.up = true ↔ t ≠ .startup) :
    Ahead codec (s.encoded t (codec.write s.ledger)) := by
  refine ⟨h.handed, h.known, h.written, ?_, ?_, ?_, ?_⟩
  · intro u snap hsnap
    by_cases hu : u = t
    · subst hu
      obtain rfl : _ = snap := by simpa [LedgerState.encoded] using hsnap
      exact ⟨s.ledger, codec.decode_write _, fun _ => Iff.rfl⟩
    · exact h.snapshot u snap (by simpa [LedgerState.encoded, hu] using hsnap)
  · intro hs
    by_cases ht : t = .events
    · exact ht ▸ hh
    · exact h.events_held (by simpa [LedgerState.encoded, Ne.symm ht] using hs)
  · intro hu
    have ht : Task.startup ≠ t := fun ht => (hup.mp hu) ht.symm
    simpa [LedgerState.encoded, ht] using h.startup_idle hu
  · intro hu
    have ht : t = .startup := by
      by_contra ht
      exact Bool.false_ne_true (hu.symm.trans (hup.mpr ht))
    subst ht
    simpa [LedgerState.encoded] using h.others_idle hu

/-- A write loses no id, if the ledger has all that the file has. -/
theorem write (h : Ahead codec s) {t : Task} {v : Nat} {bytes : Bytes}
    (hs : s.snapshot t = some ⟨v, bytes⟩)
    (hknown : ∀ id, (readOutboundPaymentInfo codec s.file).Has id → s.ledger.Has id) :
    Ahead codec (s.written t bytes) := by
  obtain ⟨l, hdec, hl⟩ := h.snapshot t _ hs
  have hfile : readOutboundPaymentInfo codec (some bytes) = l := by
    simp [readOutboundPaymentInfo, show codec.decode bytes = some l from hdec]
  have hsub : ∀ u, s.snapshot u = none → (s.written t bytes).snapshot u = none := by
    intro u hu
    by_cases hut : u = t
    · simp [LedgerState.written, hut]
    · simp [LedgerState.written, hut, hu]
  refine ⟨?_, ?_, ?_, ?_, ?_, ?_, ?_⟩
  · intro id hid
    rw [show (s.written t bytes).file = some bytes from rfl, hfile]
    exact (hl id).mpr (hknown id (h.handed id hid))
  · intro _ id hid
    rw [show (s.written t bytes).file = some bytes from rfl, hfile] at hid
    exact (hl id).mp hid
  · intro _ _ id hid
    rw [show (s.written t bytes).file = some bytes from rfl, hfile]
    exact (hl id).mpr hid
  · intro u snap hsnap
    by_cases hut : u = t
    · subst hut
      simp [LedgerState.written] at hsnap
    · exact h.snapshot u snap (by simpa [LedgerState.written, hut] using hsnap)
  · intro hn
    exact h.events_held fun hnone => hn (hsub _ hnone)
  · intro hu
    exact hsub _ (h.startup_idle hu)
  · intro hu
    exact ⟨hsub _ (h.others_idle hu).1, hsub _ (h.others_idle hu).2⟩

/-- A change that adds no id, or adds it while nothing else is under way. -/
theorem update (h : Ahead codec s) {t : Task} {u : LedgerUpdate}
    (hwritten : s.node.up = true → t ≠ .cli → ∀ id, (u.on s.ledger).Has id → s.ledger.Has id)
    (hsnap : ∀ v snap, s.snapshot v = some snap →
      ∀ id, (u.on s.ledger).Has id → s.ledger.Has id) :
    Ahead codec (s.updated t u) := by
  refine ⟨h.handed, ?_, ?_, ?_, h.events_held, h.startup_idle, h.others_idle⟩
  · intro hu id hid
    exact u.has_on (h.known hu id hid)
  · intro hu hun id hid
    have ht : t ≠ .cli := by
      rintro rfl
      simp [LedgerState.updated] at hun
    have hun : s.unwritten .cli = false := by
      simpa [LedgerState.updated, Ne.symm ht] using hun
    exact h.written hu hun id (hwritten hu ht id hid)
  · intro v snap hs
    obtain ⟨l, hdec, hl⟩ := h.snapshot v snap hs
    refine ⟨l, hdec, fun id => ?_⟩
    constructor
    · intro hid
      exact u.has_on ((hl id).mp hid)
    · intro hid
      exact (hl id).mpr (hsnap v snap hs id hid)

/-- A change that adds no id. -/
theorem update_same (h : Ahead codec s) {t : Task} {u : LedgerUpdate}
    (hno : ∀ id, (u.on s.ledger).Has id → s.ledger.Has id) : Ahead codec (s.updated t u) :=
  h.update (fun _ _ => hno) fun _ _ _ => hno

end Ahead

/-! ## The protocol -/

variable (codec : Codec OutboundPaymentInfoStorage)
variable (ldk : Ldk)

def protocol : Protocol codec manager (system codec ldk) where
  ok _ _ _ _ := True
  exec_sub h := ⟨h, trivial⟩
  inv := Ahead codec
  change _ _ := True
  change_refl _ := trivial
  change_trans _ _ := trivial
  turn t n := n.up = true ↔ t ≠ .startup
  ready id l _ := l.Has id
  delivered _ _ := True
  turn_startup h := by
    have hup := Bool.eq_false_of_not_eq_true fun hu => h.mp hu rfl
    exact ⟨fun hc => Bool.false_ne_true (hup.symm.trans (hc.mpr nofun)),
      fun he => Bool.false_ne_true (hup.symm.trans (he.mpr nofun))⟩
  turn_send := by rintro n req r n' rfl t h; exact h
  turn_recent := by rintro n r n' rfl t h; exact h
  delivered_send _ _ _ := trivial
  ready_insert := by
    intro s id info _ _ _ _
    exact (AList.mem_insert _).mpr (Or.inl rfl)
  ready_refused _ h := h
  ready_sent _ h := LedgerUpdate.has_on _ h
  ready_failed _ h := LedgerUpdate.has_on _ h

variable {codec ldk}

theorem keeps : (protocol codec ldk).Keeps := by
  intro t a s r s' hi ht hp he _
  refine ⟨?_, trivial⟩
  have hi : Ahead codec s := hi
  have ht : s.node.up = true ↔ t ≠ .startup := ht
  cases a with
  | lock =>
      obtain ⟨hn, rfl⟩ := he
      exact hi.holder _ (hi.events_none (by rw [hn]; nofun))
  | unlock =>
      obtain ⟨hn, rfl⟩ := he
      refine hi.holder _ ?_
      by_cases hev : t = .events
      · exact hev ▸ (hp hev).1
      · exact hi.events_none (by rw [hn]; exact fun h => hev (Option.some.inj h))
  | contains id => obtain ⟨_, _, rfl⟩ := he; exact hi
  | isEmpty => obtain ⟨_, _, rfl⟩ := he; exact hi
  | encode =>
      obtain ⟨hh, rfl, rfl⟩ := he
      exact hi.encode hh ht
  | write bytes =>
      obtain rfl := he
      obtain ⟨⟨v, hs⟩, hboot⟩ := hp
      refine hi.write hs fun id hid => ?_
      by_cases hst : t = .startup
      · obtain ⟨recent, hl⟩ := hboot hst
        rw [hl]
        exact LedgerUpdate.has_on _ hid
      · exact hi.known (ht.mpr hst) id hid
  | send req =>
      obtain ⟨n, rfl, rfl⟩ := he
      obtain ⟨rfl, _, hun, hready⟩ := hp
      refine ⟨?_, hi.known, hi.written, hi.snapshot, hi.events_held, hi.startup_idle,
        hi.others_idle⟩
      intro id hid
      rcases List.mem_cons.mp hid with rfl | hid
      · exact hi.written (ht.mpr nofun) hun _ hready
      · exact hi.handed id hid
  | load =>
      obtain ⟨_, rfl⟩ := he
      obtain ⟨rfl, hs, _⟩ := hp
      have hup : s.node.up = false := Bool.eq_false_of_not_eq_true fun hu => ht.mp hu rfl
      have hnone : ∀ t, s.snapshot t = none := by
        intro t
        cases t with
        | cli => exact (hi.others_idle hup).1
        | events => exact (hi.others_idle hup).2
        | startup => exact hs
      exact ⟨hi.handed, fun hu => absurd (hup.symm.trans hu) nofun,
        fun hu => absurd (hup.symm.trans hu) nofun,
        fun t snap hsnap => absurd ((hnone t).symm.trans hsnap) nofun, hi.events_held,
        hi.startup_idle, hi.others_idle⟩
  | listRecentPayments =>
      obtain ⟨n, rfl, rfl⟩ := he
      exact ⟨hi.handed, hi.known, hi.written, hi.snapshot, hi.events_held, hi.startup_idle,
        hi.others_idle⟩
  | update u =>
      obtain ⟨hh, rfl⟩ := he
      obtain ⟨hs, hp⟩ := hp
      match t, u with
      | .cli, _ =>
          have hnone : ∀ t, s.snapshot t = none := by
            intro t
            cases t with
            | cli => exact hs
            | events => exact hi.events_none (by rw [hh]; decide)
            | startup => exact hi.startup_idle (ht.mpr nofun)
          exact hi.update (fun _ h => absurd rfl h)
            fun v snap hsnap => absurd ((hnone v).symm.trans hsnap) nofun
      | .events, .succeed i p =>
          exact hi.update_same fun id h => (LedgerUpdate.has_of_on h).resolve_right nofun
      | .events, .fail i =>
          exact hi.update_same fun id h => (LedgerUpdate.has_of_on h).resolve_right nofun
      | .startup, .reconcile recent =>
          exact hi.update_same fun id h => (LedgerUpdate.has_of_on h).resolve_right nofun

/-! ## Startup and the rest -/

/-- Startup has returned. -/
structure Started (codec : Codec OutboundPaymentInfoStorage) (s : LedgerState Node) : Prop where
  down : s.node.up = false
  idle : Idle .startup s
  file : s.file = some (codec.write s.ledger)
  ledger : s.ledger =
    (LedgerUpdate.reconcile s.node.recent).on (readOutboundPaymentInfo codec s.node.boot)

def post (codec : Codec OutboundPaymentInfoStorage) (ldk : Ldk) :
    Task → Outcome → LedgerState Node → Prop
  | .startup, _, s => Started codec s
  | t, out, s => (protocol codec ldk).Ended t false out s

theorem startup_safe {s : LedgerState Node} (hup : s.node.up = false) (hidle : Idle .startup s) :
    (protocol codec ldk).discipline.Safe .startup (post codec ldk .startup)
      reconcileOutbound { s with node := { s.node with boot := s.file } } := by
  have ht : (protocol codec ldk).turn .startup { s.node with boot := s.file } :=
    ⟨fun hu => absurd (hup.symm.trans hu) nofun, fun h => absurd rfl h⟩
  refine Discipline.Safe.mono _ ?_ (Protocol.startup keeps ht hidle.snapshot hidle.unwritten)
  rintro out s' _ ⟨_, recent, hb⟩
  have hnode : s'.node = { s.node with boot := s.file, recent := recent } := hb.listed
  refine ⟨by rw [hnode]; exact hup, ⟨by rw [hb.holder]; nofun, hb.snapshot, hb.unwritten⟩,
    hb.file, ?_⟩
  rw [hnode]
  exact hb.ledger

/-- While startup runs, the others may not act, and need not be told anything. -/
theorem rely_of_down {u : Task} {s s' : LedgerState Node} (hu : u ≠ .startup)
    (hup : s.node.up = false) (hf : Frame u s s') : (protocol codec ldk).Rely u s s' := by
  refine ⟨hf, fun ht => ?_⟩
  have ht : s.node.up = true ↔ u ≠ .startup := ht
  exact absurd (hup.symm.trans (ht.mpr hu)) nofun

def outline (codec : Codec OutboundPaymentInfoStorage)
    (ldk : Ldk) : Outline (system codec ldk) where
  toDiscipline := (protocol codec ldk).discipline
  idle := Idle
  post := post codec ldk
  idle_stable _ _ _ _ _ hr h := h.frame hr.1
  start_ok := by
    intro t s p s' hst hi hidle
    cases t with
    | cli =>
        obtain ⟨hup, ⟨c, rfl⟩, rfl⟩ := hst
        refine ⟨hi, ⟨trivial, fun u _ => Protocol.Rely.refl _ u s'⟩, ?_⟩
        exact Protocol.command keeps ldk c s' hi
          (.of_idle hidle ⟨fun _ => nofun, fun _ => hup⟩ trivial)
    | events =>
        obtain ⟨hup, ⟨e, rfl⟩, rfl⟩ := hst
        refine ⟨hi, ⟨trivial, fun u _ => Protocol.Rely.refl _ u s'⟩, ?_⟩
        exact Protocol.handler keeps e s' hi
          (.of_idle hidle ⟨fun _ => nofun, fun _ => hup⟩ ⟨rfl, trivial⟩)
    | startup =>
        obtain ⟨hup, rfl, rfl⟩ := hst
        have hi : Ahead codec s := hi
        exact ⟨⟨hi.handed, hi.known, hi.written, hi.snapshot, hi.events_held, hi.startup_idle,
          hi.others_idle⟩, ⟨trivial, fun u hu => rely_of_down hu hup ⟨Iff.rfl, rfl, rfl⟩⟩,
          startup_safe hup hidle⟩
  finish_ok := by
    rintro t out s s' ⟨hout, hs⟩ hi hpost
    cases t with
    | cli | events =>
        obtain rfl := hs
        exact ⟨hi, ⟨trivial, fun u _ => Protocol.Rely.refl _ u s'⟩,
          hpost.idle hout⟩
    | startup =>
        obtain rfl := hs
        have hi : Ahead codec s := hi
        have hread : readOutboundPaymentInfo codec s.file = s.ledger := by
          simp [hpost.file, readOutboundPaymentInfo]
        refine ⟨⟨hi.handed, ?_, ?_, hi.snapshot, hi.events_held, ?_, nofun⟩,
          ⟨trivial, fun u hu => rely_of_down hu hpost.down ⟨Iff.rfl, rfl, rfl⟩⟩,
          ⟨hpost.idle.holder, hpost.idle.snapshot, hpost.idle.unwritten⟩⟩
        · intro _ id hid
          exact hread ▸ hid
        · intro _ _ id hid
          exact hread.symm ▸ hid
        · intro _
          exact hpost.idle.snapshot
  env_ok := nofun
  crash_ok := by
    rintro s s' rfl hi
    have hi : Ahead codec s := hi
    exact ⟨⟨hi.handed, nofun, nofun, nofun, fun h => absurd rfl h, fun _ => rfl,
      fun _ => ⟨rfl, rfl⟩⟩, trivial, fun t => ⟨nofun, rfl, rfl⟩⟩

/-! ## The two results -/

/-- The record of `id` is in the file. -/
def OnFile (codec : Codec OutboundPaymentInfoStorage) (s : LedgerState Node) (id : PaymentId) :
    Prop :=
  ∃ bytes l, s.file = some bytes ∧ codec.decode bytes = some l ∧ l.Has id

theorem onFile_of_has {s : LedgerState Node} {id : PaymentId}
    (h : (readOutboundPaymentInfo codec s.file).Has id) : OnFile codec s id := by
  cases hf : s.file with
  | none =>
      rw [hf] at h
      exact absurd h (OutboundPaymentInfoStorage.not_has_empty id)
  | some bytes =>
      rw [hf] at h
      cases hd : codec.decode bytes with
      | none => simp [readOutboundPaymentInfo, hd] at h
      | some l => exact ⟨bytes, l, hf, hd, by simpa [readOutboundPaymentInfo, hd] using h⟩

/-- In every state, what was ever handed to the `ChannelManager` has a record in
the file; and where startup returns, memory and file are the ledger it found,
with the pending records that were not listed failed and nothing else changed. -/
theorem handed_on_disk (file : Option Bytes)
    {c : Config Task LedgerAct LedgerAct.Answer Outcome (LedgerState Node)}
    (h : (system codec ldk).Reach (.idle (initial file)) c) :
    (∀ id ∈ c.state.node.handed, OnFile codec c.state id) ∧
      ∀ out, c.task .startup = some (.ret out) → c.state.FileFollows codec ∧
        Reconciled (readOutboundPaymentInfo codec c.state.node.boot) c.state.ledger
          c.state.node.recent := by
  have hstart : (outline codec ldk).Inv (.idle (initial file)) :=
    .init _ (Ahead.initial file) fun t => ⟨nofun, rfl, rfl⟩
  have hi := (hstart.reach _ h).1
  constructor
  · intro id hid
    exact onFile_of_has (Ahead.handed hi.state id hid)
  · intro out hret
    have hs : Started codec c.state := (hret ▸ hi.task .startup).returned _ hi.state
    refine ⟨⟨_, hs.file, codec.decode_write _⟩, ?_⟩
    rw [hs.ledger]
    exact reconciled_on _ _

/-! ## A run with a crash in it -/

/-- The actions of `t`, executable: every request accepted, nothing listed. -/
def play (t : Task) (a : LedgerAct) (s : LedgerState Node) :
    Option (a.Answer × LedgerState Node) :=
  ledgerStep OutboundPaymentInfoStorage.codec
    (fun n req => (.ok (), { n with handed := req.id :: n.handed }))
    (fun n => ([], { n with recent := [] })) t a s

theorem play_exec {t : Task} (a : LedgerAct) (s : LedgerState Node) (r : a.Answer)
    (s' : LedgerState Node) (h : play t a s = some (r, s')) :
    (system OutboundPaymentInfoStorage.codec (.plain id)).exec t a s r s' :=
  ledgerExec_of_step (fun _ _ => rfl) (fun _ => rfl) h

/-- A payment is sent, the node crashes and starts again. -/
theorem handed_on_disk_restart :
    (system OutboundPaymentInfoStorage.codec (.plain id)).Can (.idle (initial none))
      fun c => c.state.node.handed = [.filled 1] ∧
        OnFile OutboundPaymentInfoStorage.codec c.state (.filled 1) ∧
        c.task .startup = some (.ret .done) ∧
        c.state.FileFollows OutboundPaymentInfoStorage.codec := by
  have hrun : (system OutboundPaymentInfoStorage.codec (.plain id)).Can (.idle (initial none))
      fun c => c.state.node.handed = [.filled 1] ∧ c.task .startup = some (.ret .done) := by
    refine .step (.start (t := Task.startup) rfl ⟨rfl, rfl, rfl⟩) ?_
    refine .acts (t := Task.startup) play_exec 9 ?_
    refine .step (.finish (t := Task.startup) (x := .done) rfl ⟨by decide, rfl⟩) ?_
    refine .step (.start (t := Task.cli) rfl
      ⟨rfl, ⟨.keysend ⟨Vector.replicate 33 2⟩ 1000 (Vector.replicate 32 1), rfl⟩, rfl⟩) ?_
    refine .acts (t := Task.cli) play_exec 5 (.step (.crash rfl) ?_)
    refine .step (.start (t := Task.startup) rfl ⟨rfl, rfl, rfl⟩) ?_
    exact .acts (t := Task.startup) play_exec 9 (.here ⟨rfl, rfl⟩)
  obtain ⟨c, hr, hh, hret⟩ := hrun
  have hd := handed_on_disk none hr
  exact ⟨c, hr, hh, hd.1 _ (by rw [hh]; exact .head _), hret, (hd.2 _ hret).1⟩

end WriteAhead

end LightningNode
