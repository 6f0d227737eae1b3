/-
# `LightningNode.Ledger.Finality` — a paid record stays paid

Runs here are sequences of commands, event handlers and restarts, one after
another; what the first two do to each other when they overlap is the subject
of `LightningNode.Ledger.OnDisk`.

A payment of a BOLT11 invoice has the invoice's hash as its id, so paying the
same invoice again records the same id again: no command looks for an earlier
record.  `OncePaid` is the condition under which no record of a payment that
succeeded is written over.
-/
import LightningNode.Ledger.Protocol
import LightningNode.Ledger.Serialization

namespace LightningNode

open Conc

namespace Finality

/-- Which task runs, whether the process is down, the event last handed to the
event task, the ids a `PaymentSent` has been about, and the ids handed to the
`ChannelManager`, latest first. -/
structure Node where
  current : Option Task
  down : Bool
  event : Option PaymentEvent
  sent : List PaymentId
  handed : List PaymentId

/-- Any answer to any request. -/
def manager : Manager Node where
  send n req _ n' := n' = { n with handed := req.id :: n.handed }
  recent n _ n' := n' = n

/-- No `PaymentFailed` after a `PaymentSent` for the same id. -/
def Node.Deliverable (n : Node) : PaymentEvent → Prop
  | .sent _ _ => True
  | .failed id => id ∉ n.sent

/-- The event `e` is handed over. -/
def Node.deliver (n : Node) (e : PaymentEvent) : Node :=
  { n with
    current := some .events
    event := some e
    sent := match e with
      | .sent _ (some id) => id :: n.sent
      | _ => n.sent }

/-- One task at a time.  A panic ends the process, and with it whatever mutex
was taken; the ledger in memory is kept here until startup loads the file, as
nothing else reads it. -/
def system (codec : Codec OutboundPaymentInfoStorage)
    (ldk : Ldk) : LedgerSystem Node where
  exec := ledgerExec codec manager
  start t s p s' := s.node.current = none ∧
    match t with
    | .cli => s.node.down = false ∧ (∃ c : PayCommand, p = c.program ldk) ∧
        s' = { s with node := { s.node with current := some .cli } }
    | .events => s.node.down = false ∧ ∃ e, s.node.Deliverable e ∧ p = e.program ∧
        s' = { s with node := s.node.deliver e }
    | .startup => p = reconcileOutbound ∧
        s' = { s with node := { s.node with current := some .startup, down := false } }
  finish _ out s s' :=
    (out = .panicked ∧
      s' = { s with holder := none, node := { s.node with current := none, down := true } }) ∨
    (out ≠ .panicked ∧ s' = { s with node := { s.node with current := none } })
  env _ _ := False
  crash _ _ := False

/-- No command records an id whose record says it was paid, and a repeated
`PaymentSent` for such an id carries the preimage that is there. -/
def OncePaid : Task → (a : LedgerAct) → LedgerState Node → a.Answer → Prop
  | .cli, .update (.insert id _), s, _ => ∀ p, ¬ s.ledger.Final id p
  | .events, .update (.succeed id p), s, _ => ∀ p', s.ledger.Final id p' → p' = p
  | _, _, _, _ => True

/-! ## What each change does to a final record -/

section Final

variable {l : OutboundPaymentInfoStorage} {id i : PaymentId} {p q : PaymentPreimage}

theorem not_final_of_pending (h : l.HasStatus id .pending) : ¬ l.Final id p := by
  rintro ⟨info, hl, hst, _⟩
  obtain ⟨info', hl', hst'⟩ := h
  rw [hl] at hl'
  obtain rfl := Option.some.inj hl'
  exact nomatch hst.symm.trans hst'

theorem final_on (u : LedgerUpdate) (hu : (u.on l).lookup id = l.lookup id) :
    (u.on l).Final id p ↔ l.Final id p := by
  rw [OutboundPaymentInfoStorage.Final, OutboundPaymentInfoStorage.Final, hu]

theorem final_insert {info : PaymentInfo} (hi : info.status = .pending) :
    ((LedgerUpdate.insert i info).on l).Final id p ↔ id ≠ i ∧ l.Final id p := by
  by_cases h : id = i
  · subst h
    refine ⟨?_, fun hf => absurd rfl hf.1⟩
    rintro ⟨info', hl, hst, _⟩
    rw [LedgerUpdate.lookup_insert, if_pos rfl] at hl
    obtain rfl := Option.some.inj hl
    exact nomatch hi.symm.trans hst
  · rw [final_on _ (by simp [h])]
    exact ⟨fun hf => ⟨h, hf⟩, fun hf => hf.2⟩

theorem final_fail :
    ((LedgerUpdate.fail i).on l).Final id p ↔ id ≠ i ∧ l.Final id p := by
  by_cases h : id = i
  · subst h
    refine ⟨?_, fun hf => absurd rfl hf.1⟩
    rintro ⟨info, hl, hst, _⟩
    rw [LedgerUpdate.lookup_fail] at hl
    obtain ⟨info', _, rfl⟩ := Option.map_eq_some_iff.mp hl
    simp at hst
  · rw [final_on _ (by simp [h])]
    exact ⟨fun hf => ⟨h, hf⟩, fun hf => hf.2⟩

theorem final_succeed :
    ((LedgerUpdate.succeed i q).on l).Final id p ↔
      (id = i ∧ p = q ∧ l.Has id) ∨ (id ≠ i ∧ l.Final id p) := by
  by_cases h : id = i
  · subst h
    constructor
    · rintro ⟨info, hl, _, hp⟩
      rw [LedgerUpdate.lookup_succeed] at hl
      obtain ⟨info', hl', rfl⟩ := Option.map_eq_some_iff.mp hl
      rw [if_pos rfl] at hp
      exact Or.inl ⟨rfl, (Option.some.inj hp).symm,
        OutboundPaymentInfoStorage.has_iff.mpr ⟨info', hl'⟩⟩
    · rintro (⟨_, rfl, hh⟩ | ⟨hn, _⟩)
      · obtain ⟨info, hl⟩ := OutboundPaymentInfoStorage.has_iff.mp hh
        exact ⟨_, by rw [LedgerUpdate.lookup_succeed, hl]; rfl, by simp, by simp⟩
      · exact absurd rfl hn
  · rw [final_on _ (by simp [h])]
    simp [h]

theorem final_reconcile {recent : List PaymentId} :
    ((LedgerUpdate.reconcile recent).on l).Final id p ↔ l.Final id p := by
  constructor
  · rintro ⟨info, hl, hst, hp⟩
    rw [LedgerUpdate.lookup_reconcile] at hl
    obtain ⟨info', hl', rfl⟩ := Option.map_eq_some_iff.mp hl
    by_cases hpend : info'.status = .pending ∧ id ∉ recent
    · simp [hpend] at hst
    · rw [if_neg hpend] at hst hp
      exact ⟨info', hl', hst, hp⟩
  · rintro ⟨info, hl, hst, hp⟩
    refine ⟨info, ?_, hst, hp⟩
    rw [LedgerUpdate.lookup_reconcile, hl, Option.map_some, if_neg]
    rintro ⟨hpend, _⟩
    exact nomatch hst.symm.trans hpend

end Final

/-! ## The invariant and the allowed changes -/

structure Consistent (codec : Codec OutboundPaymentInfoStorage) (s : LedgerState Node) :
    Prop where
  others : ∀ t, s.node.current ≠ some t → Idle t s
  snapshot : ∀ t snap, s.snapshot t = some snap → snap.bytes = codec.write s.ledger
  file : s.Quiet → s.file = some (codec.write s.ledger)
  sent : ∀ id p, s.ledger.Final id p → id ∈ s.node.sent
  event_sent : ∀ p id, s.node.event = some (.sent p (some id)) → id ∈ s.node.sent
  event_failed : ∀ id, s.node.event = some (.failed id) → id ∉ s.node.sent

/-- A final record stays, and no id that has one is handed over. -/
def Change (s s' : LedgerState Node) : Prop :=
  (∀ id p, s.ledger.Final id p → s'.ledger.Final id p) ∧
    ∃ new, s'.node.handed = new ++ s.node.handed ∧ ∀ id ∈ new, ∀ p, ¬ s.ledger.Final id p

theorem Change.refl (s : LedgerState Node) : Change s s := ⟨fun _ _ h => h, [], rfl, nofun⟩

theorem Change.trans {s₁ s₂ s₃ : LedgerState Node} (h : Change s₁ s₂) (h' : Change s₂ s₃) :
    Change s₁ s₃ := by
  obtain ⟨hf, new, hn, hnew⟩ := h
  obtain ⟨hf', new', hn', hnew'⟩ := h'
  refine ⟨fun id p hp => hf' id p (hf id p hp), new' ++ new, ?_, ?_⟩
  · rw [hn', hn, List.append_assoc]
  · intro id hid p hp
    rcases List.mem_append.mp hid with hid | hid
    · exact hnew' id hid p (hf id p hp)
    · exact hnew id hid p hp

theorem Change.of_ledger {s s' : LedgerState Node}
    (hl : ∀ id p, s.ledger.Final id p → s'.ledger.Final id p)
    (hn : s'.node.handed = s.node.handed) : Change s s' :=
  ⟨hl, [], hn, nofun⟩

namespace Consistent

variable {codec : Codec OutboundPaymentInfoStorage} {s : LedgerState Node}

theorem idle_of_ne (h : Consistent codec s) {t u : Task} (ht : s.node.current = some t)
    (hu : u ≠ t) : Idle u s :=
  h.others u (by rw [ht]; exact fun hh => hu (Option.some.inj hh).symm)

theorem holder (h : Consistent codec s) {t : Task} {o : Option Task}
    (ht : s.node.current = some t) (ho : ∀ u, u ≠ t → o ≠ some u) :
    Consistent codec { s with holder := o } := by
  refine ⟨fun u hu => ?_, h.snapshot, h.file, h.sent, h.event_sent, h.event_failed⟩
  have hi := h.others u hu
  exact ⟨ho u fun hh => hu (hh ▸ ht), hi.snapshot, hi.unwritten⟩

theorem update (h : Consistent codec s) {t : Task} {u : LedgerUpdate}
    (ht : s.node.current = some t) (hs : s.snapshot t = none)
    (hsent : ∀ id p, (u.on s.ledger).Final id p → id ∈ s.node.sent) :
    Consistent codec (s.updated t u) := by
  have hnone : ∀ v, s.snapshot v = none := by
    intro v
    by_cases hv : v = t
    · rw [hv]; exact hs
    · exact (h.idle_of_ne ht hv).snapshot
  refine ⟨?_, fun v snap hsnap => absurd ((hnone v).symm.trans hsnap) nofun, ?_, hsent,
    h.event_sent, h.event_failed⟩
  · intro v hv
    have hvt : v ≠ t := fun hh => hv (hh ▸ ht)
    have hi := h.others v hv
    exact ⟨hi.holder, hi.snapshot, by simpa [LedgerState.updated, hvt] using hi.unwritten⟩
  · intro hq
    exact absurd (hq t) (by simp [LedgerState.updated])

theorem encode (h : Consistent codec s) {t : Task} (ht : s.node.current = some t) :
    Consistent codec (s.encoded t (codec.write s.ledger)) := by
  refine ⟨?_, ?_, h.file, h.sent, h.event_sent, h.event_failed⟩
  · intro v hv
    have hvt : v ≠ t := fun hh => hv (hh ▸ ht)
    have hi := h.others v hv
    exact ⟨hi.holder, by simpa [LedgerState.encoded, hvt] using hi.snapshot, hi.unwritten⟩
  · intro v snap hsnap
    by_cases hv : v = t
    · subst hv
      obtain rfl : _ = snap := by simpa [LedgerState.encoded] using hsnap
      rfl
    · exact h.snapshot v snap (by simpa [LedgerState.encoded, hv] using hsnap)

theorem write (h : Consistent codec s) {t : Task} {v : Nat} {bytes : Bytes}
    (ht : s.node.current = some t) (hs : s.snapshot t = some ⟨v, bytes⟩) :
    Consistent codec (s.written t bytes) := by
  refine ⟨?_, ?_, fun _ => congrArg some (h.snapshot t _ hs), h.sent, h.event_sent,
    h.event_failed⟩
  · intro u hu
    have hut : u ≠ t := fun hh => hu (hh ▸ ht)
    have hi := h.others u hu
    exact ⟨hi.holder, by simpa [LedgerState.written, hut] using hi.snapshot,
      by simpa [LedgerState.written, hut] using hi.unwritten⟩
  · intro u snap hsnap
    by_cases hu : u = t
    · subst hu
      simp [LedgerState.written] at hsnap
    · exact h.snapshot u snap (by simpa [LedgerState.written, hu] using hsnap)

/-- Between two tasks, and whenever the one running has written what it
changed, the file is the ledger. -/
theorem quiet (h : Consistent codec s) {t : Task} (ht : s.node.current = some t)
    (hu : s.unwritten t = false) : s.Quiet := by
  intro v
  by_cases hv : v = t
  · rw [hv]; exact hu
  · exact (h.idle_of_ne ht hv).unwritten

/-- What startup loads is the ledger that was in memory. -/
theorem load (h : Consistent codec s) (hq : s.Quiet) :
    readOutboundPaymentInfo codec s.file = s.ledger := by
  simp [h.file hq, readOutboundPaymentInfo]

end Consistent

/-! ## The protocol -/

variable (codec : Codec OutboundPaymentInfoStorage)
variable (ldk : Ldk)

def protocol : Protocol codec manager ((system codec ldk).onlyIf OncePaid) where
  ok := OncePaid
  exec_sub h := h
  inv := Consistent codec
  change := Change
  change_refl := Change.refl
  change_trans := Change.trans
  turn t n := n.current = some t
  ready id l n := n.current = some .cli ∧ l.HasStatus id .pending
  delivered e n := n.current = some .events ∧ n.event = some e
  turn_startup h := ⟨fun hc => (nomatch h.symm.trans hc), fun he => nomatch h.symm.trans he⟩
  turn_send := by rintro n req r n' rfl t h; exact h
  turn_recent := by rintro n r n' rfl t h; exact h
  delivered_send := by rintro n req r n' rfl e h; exact h
  ready_insert := by
    intro s id info _ ht _ hinfo
    exact ⟨ht, info, by simp, hinfo⟩
  ready_refused := by rintro n req e n' l rfl h; exact h
  ready_sent h hr := nomatch h.1.symm.trans hr.1
  ready_failed h hr := nomatch h.1.symm.trans hr.1

variable {codec ldk}

/-- One change of the ledger: what is final stays final, and is known to have
been sent. -/
theorem keeps_update {t : Task} {u : LedgerUpdate} {s : LedgerState Node}
    (hi : Consistent codec s) (hp : (protocol codec ldk).Pre t (.update u) s)
    (hok : OncePaid t (.update u) s ()) :
    (∀ id p, s.ledger.Final id p → (u.on s.ledger).Final id p) ∧
      ∀ id p, (u.on s.ledger).Final id p → id ∈ s.node.sent := by
  obtain ⟨_, hp⟩ := hp
  match t, u with
  | .cli, .insert i info =>
      constructor
      · intro id p hf
        exact (final_insert hp.1).mpr ⟨fun h => hok p (h ▸ hf), hf⟩
      · intro id p hf
        exact hi.sent id p ((final_insert hp.1).mp hf).2
  | .cli, .fail i =>
      constructor
      · intro id p hf
        exact final_fail.mpr ⟨fun h => not_final_of_pending hp.2 (h ▸ hf), hf⟩
      · intro id p hf
        exact hi.sent id p (final_fail.mp hf).2
  | .events, .succeed i q =>
      constructor
      · intro id p hf
        by_cases h : id = i
        · have hhas : s.ledger.Has id := by
            obtain ⟨info, hl, _⟩ := hf
            exact OutboundPaymentInfoStorage.has_iff.mpr ⟨info, hl⟩
          exact final_succeed.mpr (Or.inl ⟨h, hok p (h ▸ hf), hhas⟩)
        · exact final_succeed.mpr (Or.inr ⟨h, hf⟩)
      · intro id p hf
        rcases final_succeed.mp hf with ⟨rfl, _⟩ | ⟨_, hf⟩
        · exact hi.event_sent q id hp.2
        · exact hi.sent id p hf
  | .events, .fail i =>
      constructor
      · intro id p hf
        exact final_fail.mpr
          ⟨fun h => hi.event_failed i hp.2 (h ▸ hi.sent id p hf), hf⟩
      · intro id p hf
        exact hi.sent id p (final_fail.mp hf).2
  | .startup, .reconcile recent =>
      constructor
      · intro id p hf
        exact final_reconcile.mpr hf
      · intro id p hf
        exact hi.sent id p (final_reconcile.mp hf)

theorem keeps : (protocol codec ldk).Keeps := by
  intro t a s r s' hi ht hp he hok
  have hi : Consistent codec s := hi
  have ht : s.node.current = some t := ht
  cases a with
  | lock =>
      obtain ⟨_, rfl⟩ := he
      exact ⟨hi.holder ht fun u hu h => hu (Option.some.inj h).symm,
        .of_ledger (fun _ _ h => h) rfl⟩
  | unlock =>
      obtain ⟨_, rfl⟩ := he
      exact ⟨hi.holder ht fun _ _ => nofun, .of_ledger (fun _ _ h => h) rfl⟩
  | contains id => obtain ⟨_, _, rfl⟩ := he; exact ⟨hi, .refl _⟩
  | isEmpty => obtain ⟨_, _, rfl⟩ := he; exact ⟨hi, .refl _⟩
  | encode =>
      obtain ⟨_, rfl, rfl⟩ := he
      exact ⟨hi.encode ht, .of_ledger (fun _ _ h => h) rfl⟩
  | write bytes =>
      obtain rfl := he
      obtain ⟨v, hs⟩ := hp.1
      exact ⟨hi.write ht hs, .of_ledger (fun _ _ h => h) rfl⟩
  | update u =>
      obtain ⟨_, rfl⟩ := he
      have hf := keeps_update hi hp hok
      exact ⟨hi.update ht hp.1 hf.2, .of_ledger hf.1 rfl⟩
  | send req =>
      obtain ⟨n, rfl, rfl⟩ := he
      obtain ⟨_, _, _, _, hpend⟩ := hp
      refine ⟨⟨fun u hu => (hi.others u hu).node, hi.snapshot, hi.file, hi.sent, hi.event_sent,
          hi.event_failed⟩,
        fun _ _ h => h, [req.id], rfl, ?_⟩
      intro id hid p
      obtain rfl := List.mem_singleton.mp hid
      exact not_final_of_pending hpend
  | load =>
      obtain ⟨_, rfl⟩ := he
      have hload : readOutboundPaymentInfo codec s.file = s.ledger :=
        hi.load (hi.quiet ht hp.2.2)
      rw [hload]
      exact ⟨hi, .refl _⟩
  | listRecentPayments =>
      obtain ⟨n, rfl, rfl⟩ := he
      exact ⟨hi, .refl _⟩

/-! ## One task after another -/

/-- The program has returned, and it is its turn. -/
def post (codec : Codec OutboundPaymentInfoStorage) (ldk : Ldk)
    (t : Task) (out : Outcome) (s : LedgerState Node) : Prop :=
  (protocol codec ldk).Ended t false out s

/-- Between tasks nobody is relied on. -/
theorem rely_of_turn {u t : Task} {s s' : LedgerState Node} (hu : u ≠ t)
    (ht : s.node.current = some t) (hf : Frame u s s') : (protocol codec ldk).Rely u s s' :=
  ⟨hf, fun h => absurd (Option.some.inj (Eq.trans (Eq.symm h) ht)) hu⟩

theorem rely_of_none {u : Task} {s s' : LedgerState Node} (hn : s.node.current = none)
    (hf : Frame u s s') : (protocol codec ldk).Rely u s s' :=
  ⟨hf, fun h => nomatch hn.symm.trans h⟩

theorem startup_safe {s : LedgerState Node} (ht : s.node.current = some .startup)
    (hidle : Idle .startup s) :
    (protocol codec ldk).discipline.Safe .startup (post codec ldk .startup)
      reconcileOutbound s := by
  refine Discipline.Safe.mono _ ?_ (Protocol.startup keeps ht hidle.snapshot hidle.unwritten)
  rintro out s' _ ⟨_, recent, hb⟩
  have hnode : s'.node = s.node := hb.listed
  refine ⟨false, fun _ => rfl, .of_idle ⟨by rw [hb.holder]; nofun, hb.snapshot, hb.unwritten⟩ ?_
    trivial⟩
  show s'.node.current = some .startup
  rw [hnode]
  exact ht

def outline (codec : Codec OutboundPaymentInfoStorage)
    (ldk : Ldk) :
    Outline ((system codec ldk).onlyIf OncePaid) where
  toDiscipline := (protocol codec ldk).discipline
  idle := Idle
  post := post codec ldk
  idle_stable _ _ _ _ _ hr h := h.frame hr.1
  start_ok := by
    rintro t s p s' ⟨hnone, hst⟩ hi hidle
    have hi : Consistent codec s := hi
    have hothers : ∀ v, Idle v s := fun v => hi.others v (by rw [hnone]; nofun)
    cases t with
    | cli =>
        obtain ⟨_, ⟨c, rfl⟩, rfl⟩ := hst
        have hi' : Consistent codec { s with node := { s.node with current := some .cli } } :=
          ⟨fun v _ => (hothers v).node, hi.snapshot, hi.file, hi.sent, hi.event_sent,
            hi.event_failed⟩
        refine ⟨hi', ⟨.of_ledger (fun _ _ h => h) rfl,
          fun u _ => rely_of_none hnone ⟨Iff.rfl, rfl, rfl⟩⟩, ?_⟩
        exact Protocol.command keeps ldk c _ hi'
          (.of_idle hidle.node rfl trivial)
    | events =>
        obtain ⟨_, e, hdel, rfl, rfl⟩ := hst
        have hi' : Consistent codec { s with node := s.node.deliver e } := by
          refine ⟨fun v _ => (hothers v).node, hi.snapshot, hi.file, ?_, ?_, ?_⟩
          · intro id p hf
            match e with
            | .sent _ (some i) => exact .tail _ (hi.sent id p hf)
            | .sent _ none | .failed _ => exact hi.sent id p hf
          · rintro p id ⟨⟩
            exact .head _
          · rintro id ⟨⟩
            exact hdel
        refine ⟨hi', ⟨.of_ledger (fun _ _ h => h) rfl,
          fun u _ => rely_of_none hnone ⟨Iff.rfl, rfl, rfl⟩⟩, ?_⟩
        exact Protocol.handler keeps e _ hi'
          (.of_idle hidle.node rfl ⟨rfl, rfl, rfl⟩)
    | startup =>
        obtain ⟨rfl, rfl⟩ := hst
        exact ⟨⟨fun v _ => (hothers v).node, hi.snapshot, hi.file, hi.sent, hi.event_sent,
          hi.event_failed⟩, ⟨.of_ledger (fun _ _ h => h) rfl,
          fun u _ => rely_of_none hnone ⟨Iff.rfl, rfl, rfl⟩⟩,
          startup_safe rfl hidle.node⟩
  finish_ok := by
    intro t out s s' hs hi hpost
    have hi : Consistent codec s := hi
    obtain ⟨held, hheld, hat⟩ := hpost
    have ht : s.node.current = some t := hat.turn
    have hidle : ∀ v, v ≠ t → Idle v s := fun v hv => hi.idle_of_ne ht hv
    rcases hs with ⟨_, rfl⟩ | ⟨hout, rfl⟩
    · have hdead : ∀ v, Idle v { s with holder := none, node := { s.node with
          current := none, down := true } } := by
        intro v
        by_cases hv : v = t
        · rw [hv]; exact ⟨nofun, hat.no_snapshot, hat.clean rfl⟩
        · exact ⟨nofun, (hidle v hv).snapshot, (hidle v hv).unwritten⟩
      refine ⟨⟨fun v _ => hdead v, hi.snapshot, hi.file, hi.sent, hi.event_sent,
        hi.event_failed⟩, ⟨.of_ledger (fun _ _ h => h) rfl, fun u hu => ?_⟩, hdead t⟩
      exact rely_of_turn hu ht ⟨⟨nofun, fun hh => absurd hh (hidle u hu).holder⟩, rfl, rfl⟩
    · have hdone : ∀ v, Idle v s := by
        intro v
        by_cases hv : v = t
        · rw [hv]; exact Protocol.Ended.idle hout ⟨held, hheld, hat⟩
        · exact hidle v hv
      exact ⟨⟨fun v _ => (hdone v).node, hi.snapshot, hi.file, hi.sent, hi.event_sent,
        hi.event_failed⟩, ⟨.of_ledger (fun _ _ h => h) rfl,
        fun u hu => rely_of_turn hu ht ⟨Iff.rfl, rfl, rfl⟩⟩, (hdone t).node⟩
  env_ok := nofun
  crash_ok := nofun

/-! ## Final records -/

/-- Nothing runs, and `sent` are the ids a `PaymentSent` has been about. -/
def Node.initial (sent : List PaymentId) : Node := ⟨none, false, none, sent, []⟩

/-- If no command records an id that was paid, and no event brings a second
preimage, then a record that is final is final in every later state, and no id
that has one is handed to the `ChannelManager` from then on. -/
theorem final_stays (l : OutboundPaymentInfoStorage) (sent : List PaymentId)
    (hl : ∀ id p, l.Final id p → id ∈ sent)
    {c c' : Config Task LedgerAct LedgerAct.Answer Outcome (LedgerState Node)}
    (h : ((system codec ldk).onlyIf OncePaid).Reach
      (.idle (.settled codec l (.initial sent))) c)
    (h' : ((system codec ldk).onlyIf OncePaid).Reach c c')
    {id : PaymentId} {p : PaymentPreimage} (hf : c.state.ledger.Final id p) :
    c'.state.ledger.Final id p ∧
      ∃ new, c'.state.node.handed = new ++ c.state.node.handed ∧ id ∉ new := by
  have hstart : (outline codec ldk).Inv (.idle (.settled codec l (.initial sent))) :=
    .init _ ⟨fun t _ => Idle.settled codec l _ t, nofun, fun _ => rfl, hl, nofun, nofun⟩
      (Idle.settled codec l _)
  have hc := (hstart.reach _ h).1
  obtain ⟨hstay, new, hnew, hnot⟩ := (hc.reach _ h').2
  exact ⟨hstay id p hf, new, hnew, fun hid => hnot id hid p hf⟩

/-! ## Two runs -/

/-- The actions of `t`, executable, every request accepted. -/
def play (t : Task) (a : LedgerAct) (s : LedgerState Node) :
    Option (a.Answer × LedgerState Node) :=
  ledgerStep OutboundPaymentInfoStorage.codec
    (fun n req => (.ok (), { n with handed := req.id :: n.handed })) (fun n => ([], n)) t a s

theorem play_exec {t : Task} (a : LedgerAct) (s : LedgerState Node) (r : a.Answer)
    (s' : LedgerState Node) (h : play t a s = some (r, s')) :
    (system OutboundPaymentInfoStorage.codec (.plain id)).exec t a s r s' :=
  ledgerExec_of_step (fun _ _ => rfl) (fun _ => rfl) h

/-- `OncePaid` asks nothing of startup. -/
theorem play_exec_startup (a : LedgerAct) (s : LedgerState Node) (r : a.Answer)
    (s' : LedgerState Node) (h : play .startup a s = some (r, s')) :
    ((system OutboundPaymentInfoStorage.codec (.plain id)).onlyIf OncePaid).exec .startup a s r
      s' :=
  ⟨play_exec a s r s' h, trivial⟩

def invoice : PayCommand :=
  .invoice ⟨⟨Vector.replicate 32 1⟩, ⟨Vector.replicate 32 4⟩, some 1000, ⟨Vector.replicate 33 2⟩⟩
    none

def preimage : PaymentPreimage := ⟨Vector.replicate 32 3⟩

def sentEvent : PaymentEvent := .sent preimage (some (.filled 1))

/-- The record of one payment that succeeded. -/
def onePaid : OutboundPaymentInfoStorage :=
  ⟨(∅ : AList _).insert (.filled 1) { plainRecord 1000 with
    preimage := some preimage, status := .succeeded }⟩

theorem onePaid_final : onePaid.Final (.filled 1) preimage := ⟨_, rfl, rfl, rfl⟩

theorem onePaid_sent (id : PaymentId) (p : PaymentPreimage) (h : onePaid.Final id p) :
    id ∈ [PaymentId.filled 1] := by
  obtain ⟨info, hl, _⟩ := h
  have hmem : id ∈ onePaid.payments := AList.lookup_isSome.mp (by
    rw [OutboundPaymentInfoStorage.lookup] at hl
    rw [hl]; rfl)
  rcases (AList.mem_insert _).mp hmem with rfl | hnone
  · exact .head _
  · exact absurd hnone (AList.notMem_empty id)

/-- A restart leaves the one final record as it is. -/
theorem final_stays_restart :
    ((system OutboundPaymentInfoStorage.codec (.plain id)).onlyIf OncePaid).Can
      (.idle (.settled OutboundPaymentInfoStorage.codec onePaid (.initial [.filled 1])))
      fun c => c.task .startup = some (.ret .done) ∧ c.state.ledger.Final (.filled 1) preimage := by
  have hrun : ((system OutboundPaymentInfoStorage.codec (.plain id)).onlyIf OncePaid).Can
      (.idle (.settled OutboundPaymentInfoStorage.codec onePaid (.initial [.filled 1])))
      fun c => c.task .startup = some (.ret .done) := by
    refine .step (.start (t := Task.startup) rfl ⟨rfl, rfl, rfl⟩) ?_
    exact .acts (t := Task.startup) play_exec_startup 9 (.here rfl)
  obtain ⟨c, hr, hret⟩ := hrun
  exact ⟨c, hr, hret, (final_stays onePaid _ onePaid_sent .refl hr onePaid_final).1⟩

/-- An invoice is paid, and paid again: the record of the first payment is
written over, and its id handed over a second time. -/
theorem repeated_invoice_overwrites :
    (system OutboundPaymentInfoStorage.codec (.plain id)).Can
      (.idle (.settled OutboundPaymentInfoStorage.codec .empty (.initial [])))
      fun c => c.state.ledger.Final (.filled 1) preimage ∧
        (system OutboundPaymentInfoStorage.codec (.plain id)).Can c fun c' =>
          ¬ c'.state.ledger.Final (.filled 1) preimage ∧
            c'.state.node.handed = .filled 1 :: c.state.node.handed := by
  refine .step (.start (t := Task.cli) rfl ⟨rfl, rfl, ⟨invoice, rfl⟩, rfl⟩) ?_
  refine .acts (t := Task.cli) play_exec 6 ?_
  refine .step (.finish (t := Task.cli) (x := .initiated 1000 ⟨Vector.replicate 33 2⟩) rfl
    (.inr ⟨by decide, rfl⟩)) ?_
  refine .step (.start (t := Task.events) rfl ⟨rfl, rfl, sentEvent, trivial, rfl, rfl⟩) ?_
  refine .acts (t := Task.events) play_exec 5 ?_
  refine .step (.finish (t := Task.events) (x := .done) rfl (.inr ⟨by decide, rfl⟩))
    (.here ⟨⟨_, rfl, rfl, rfl⟩, ?_⟩)
  refine .step (.start (t := Task.cli) rfl ⟨rfl, rfl, ⟨invoice, rfl⟩, rfl⟩) ?_
  refine .acts (t := Task.cli) play_exec 6 (.here ⟨?_, rfl⟩)
  exact not_final_of_pending ⟨_, rfl, rfl⟩

end Finality

end LightningNode
