/-
# `LightningNode.Node.OneWriter` — the mutex keeps the two stores apart

`LightningNode.Node.LedgerOnStores` asks that no write creates the temporary file of
another one under way.  All programs but the payment of an offer write with the
mutex held, and where they all do there is nothing to ask: only the task that has
the mutex has a temporary file (`writing_kept`).  So without offers the ledger on its
stores is the one whose writes are one step (`unguarded_stores`), and what the records
say (`LightningNode.Ledger.Account`) the file on the disk says, at whatever step of
whatever call the node crashes (`paid_on_disk`).

    locked   the task has the mutex
    own      it may have a temporary file
-/
import LightningNode.Ledger.Account
import LightningNode.Node.LedgerOnStores

namespace LightningNode

open Conc StoreProg FilesystemStore

namespace OneWriter

open OnStores

/-! ## A write -/

/-- Whether there may be a temporary file after `a`, answered by `r`. -/
def ownAfter (own : Bool) : (a : StoreAct) → a.Answer → Bool
  | .disk (.create _), .ok _ => true
  | .disk (.rename _ _), .ok _ => false
  | _, _ => own

def owning : Typestate StoreAct StoreAct.Answer Bool where
  permits _ _ := True
  answers _ _ _ := True
  after := ownAfter

section

variable {β : Type} {own : Bool}

theorem follows_anything {p : StoreProg β} : owning.Follows (fun _ _ => True) p own := by
  induction p generalizing own with
  | ret x => exact trivial
  | act a k ih => exact .act trivial fun r _ => ih r

/-- Where it goes well, there is no temporary file afterwards. -/
def Renamed (r : Res β) (own : Bool) : Prop := r.isOk = true → own = false

theorem renamed_error {e : IoError} : Renamed (.error e : Res β) own := fun h => Bool.noConfusion h

/-- Only the second half counts. -/
theorem follows_last {γ : Type} {p : StoreProg (Res γ)} {f : γ → StoreProg (Res β)}
    (hf : ∀ x own, owning.Follows Renamed (f x) own) :
    owning.Follows Renamed (p.andThen f) own := by
  refine Typestate.Follows.bind (M := fun _ _ => True) ?_ follows_anything
  rintro r own -
  cases r with
  | ok x => exact hf x own
  | error e => exact renamed_error

theorem follows_syncDir (dir : PathBuf) : owning.Follows Renamed (syncDir dir) false := by
  refine .act trivial fun r _ => ?_
  cases r with
  | error e => exact renamed_error
  | ok f =>
      refine .act trivial fun r _ => ?_
      cases r with
      | error e => exact renamed_error
      | ok u => exact fun _ => rfl

theorem follows_install (tmp dest dir : PathBuf) :
    owning.Follows Renamed ((os (.rename tmp dest)).andThen fun _ => syncDir dir) own := by
  refine .act trivial fun r _ => ?_
  cases r with
  | error e => exact renamed_error
  | ok u => exact follows_syncDir dir

/-- The locks are neither. -/
theorem follows_withWriteLock {dest : PathBuf} {body : StoreProg (Res β)}
    (hbody : owning.Follows Renamed body own) :
    owning.Follows Renamed (withWriteLock dest body) own := by
  refine .act trivial fun r _ => .act trivial fun _ _ => ?_
  show owning.Follows Renamed (body >>= _) own
  refine Typestate.Follows.bind ?_ hbody
  intro res own' hres
  exact .act trivial fun _ _ => .act trivial fun _ _ => hres

theorem follows_collected {x : β} : owning.Follows Renamed (collected x) false := by
  refine .act trivial fun n _ => ?_
  show owning.Follows Renamed ((if n % 25 = 0 then act .retainLocks else pure ()) >>= _) false
  split
  · exact .act trivial fun _ _ => fun _ => rfl
  · exact fun _ => rfl

theorem follows_write (dataDir : PathBuf) (p s k : String) (buf : Bytes) :
    owning.Follows Renamed (write dataDir p s k buf) own := by
  unfold write
  split
  · exact renamed_error
  · dsimp only
    split
    · exact renamed_error
    · refine follows_last fun _ own => .act trivial fun n _ => follows_last fun _ own => ?_
      refine Typestate.Follows.bind ?_ (follows_withWriteLock (follows_install _ _ _))
      intro r own' hr
      cases r with
      | error e => exact renamed_error
      | ok u =>
          obtain rfl := hr rfl
          exact follows_collected

end

/-! ## Under the mutex -/

/-- What a task has of what it takes to write. -/
structure Writer where
  locked : Bool
  own : Bool

namespace Writer

def none : Writer := ⟨false, false⟩

/-- The stores are called with the mutex held, and it is not let go of with a temporary
file left. -/
def permits (h : Writer) : Locks.NodeAct → Prop
  | .outbound .unlock => h.own = false
  | .store _ _ => h.locked = true
  | _ => True

def after (h : Writer) : (a : Locks.NodeAct) → a.Answer → Writer
  | .outbound .lock, _ => { h with locked := true }
  | .outbound .unlock, _ => { h with locked := false }
  | .store _ a, r => { h with own := ownAfter h.own a r }
  | _, _ => h

end Writer

def writing : Typestate Locks.NodeAct Locks.NodeAct.Answer Writer where
  permits := Writer.permits
  answers _ _ _ := True
  after := Writer.after

/-- A panic, or neither mutex nor temporary file. -/
def Ended (out : Outcome) (h : Writer) : Prop := out = .panicked ∨ h = .none

section

variable {i : Locks.Instance}

theorem follows_onInstance {β : Type} {Q : β → Bool → Prop} {p : StoreProg β} {own : Bool}
    (hp : owning.Follows Q p own) :
    writing.Follows (fun x h => ∃ own', h = ⟨true, own'⟩ ∧ Q x own') (Locks.onInstance i p)
      ⟨true, own⟩ := by
  refine Typestate.Follows.expand (E := fun own h => h = ⟨true, own⟩) ?_ ?_ hp rfl
  · rintro own _ a rfl -
    exact .act rfl fun r _ => ⟨trivial, rfl⟩
  · rintro x own _ rfl hx
    exact ⟨own, rfl, hx⟩

/-- A write that is unwrapped leaves no temporary file, or ends the process. -/
theorem follows_unwrapWrite (dataDir : PathBuf) (fname : String) (bytes : Bytes) :
    writing.Follows (Locks.Unwrapped ⟨true, false⟩) (Locks.unwrapWrite dataDir i fname bytes)
      ⟨true, false⟩ := by
  have hcall : owning.Follows (fun r own => r = .unit (.ok ()) → own = false)
      ((Call.write "" "" fname bytes).program dataDir) false := by
    refine Typestate.Follows.bind ?_ (follows_write dataDir "" "" fname bytes)
    rintro r own hr heq
    cases heq
    exact hr rfl
  refine Typestate.Follows.bind ?_ (follows_onInstance hcall)
  rintro r h ⟨own, rfl, hr⟩
  cases r with
  | bytes r => exact rfl
  | keys r => exact rfl
  | unit r =>
      cases r with
      | error e => exact rfl
      | ok u =>
          obtain rfl := hr rfl
          exact rfl

/-- A program that writes with the mutex held, its writes carried out by a store. -/
theorem follows_outboundTask (dataDir : PathBuf) {p : LedgerProg Outcome}
    (hp : (Locks.outboundMutex fun held => held = true).Follows (Locks.Kept false) p false) :
    writing.Follows Ended (Locks.outboundTask dataDir i p) .none := by
  refine Typestate.Follows.expand (E := fun held h => h = ⟨held, false⟩) ?_ ?_ hp rfl
  · rintro held _ a rfl ha
    cases a with
    | write bytes =>
        obtain rfl : held = true := ha
        refine (follows_unwrapWrite dataDir _ bytes).mono ?_
        intro r h hr
        cases r with
        | ok x => exact ⟨trivial, hr⟩
        | error out => exact .inl hr
    | lock => exact .act trivial fun _ _ => ⟨trivial, rfl⟩
    | unlock => exact .act rfl fun _ _ => ⟨trivial, rfl⟩
    | _ => exact .act trivial fun _ _ => ⟨trivial, rfl⟩
  · rintro out held _ rfl (hout | rfl)
    · exact .inl hout
    · exact .inr rfl

end

/-! ## Every run -/

variable {χ : Type}

/-- The programs of `S` write with the mutex held, and it is they who take it. -/
structure Orderly (S : LedgerSystem χ) : Prop where
  start : ∀ {t s p s'}, S.start t s p s' → s'.holder = s.holder ∧
    (Locks.outboundMutex fun held => held = true).Follows (Locks.Kept false) p false
  finish : ∀ {t out s s'}, S.finish t out s s' → s'.holder = s.holder
  env : ∀ {s s'}, S.env s s' → s'.holder = s.holder

/-- Who is locked has the mutex, and who may have a temporary file is locked. -/
structure Sole (s : StoresState χ) (hold : Task → Writer) : Prop where
  locked : ∀ t, (hold t).locked = true → s.holder = some t
  own : ∀ t x, s.own t = some x → (hold t).own = true
  under : ∀ t, (hold t).own = true → (hold t).locked = true

section

variable {S : LedgerSystem χ} {codec : Codec OutboundPaymentInfoStorage} {m : Manager χ}
  {root : String} {t : Task} {s s' : StoresState χ} {hold : Task → Writer}

/-- So a task that creates a temporary file is the only one to have any. -/
theorem Sole.tmpFree {a : Locks.NodeAct} (h : Sole s hold) (ha : (hold t).permits a) :
    TmpFree root t a s := by
  unfold TmpFree
  split
  · intro u hut
    have hnone : s.own u = none := by
      refine Option.eq_none_iff_forall_not_mem.mpr fun x hx => hut ?_
      have hu := h.locked u (h.under u (h.own u x hx))
      exact Option.some.inj (hu.symm.trans (h.locked t ha))
    rw [hnone]
    nofun
  · exact trivial

/-- What one task does, to the others. -/
theorem Sole.update {w : Writer} (h : Sole s hold)
    (hlocked : ∀ u, u ≠ t → (hold u).locked = true → s'.holder = some u)
    (hown : ∀ u, u ≠ t → s'.own u = s.own u)
    (ht : (w.locked = true → s'.holder = some t) ∧
      (∀ x, s'.own t = some x → w.own = true) ∧ (w.own = true → w.locked = true)) :
    Sole s' (Function.update hold t w) := by
  refine ⟨fun u hu => ?_, fun u x hx => ?_, fun u hu => ?_⟩
  · by_cases hut : u = t
    · subst hut
      exact ht.1 (by simpa using hu)
    · exact hlocked u hut (by simpa [hut] using hu)
  · by_cases hut : u = t
    · subst hut
      simpa using ht.2.1 x hx
    · simpa [hut] using h.own u x (hown u hut ▸ hx)
  · by_cases hut : u = t
    · subst hut
      simpa using ht.2.2 (by simpa using hu)
    · simpa [hut] using h.under u (by simpa [hut] using hu)

/-- The mutex and the temporary files are left as they are. -/
theorem Sole.same (h : Sole s hold) (hholder : s'.holder = s.holder) (hown : s'.own = s.own) :
    Sole s' hold := by
  refine ⟨fun u hu => hholder.trans (h.locked u hu), fun u x hx => ?_, h.under⟩
  exact h.own u x (hown ▸ hx)

theorem Sole.outbound {a : LedgerAct} {r : a.Answer} {l : LedgerState χ} (h : Sole s hold)
    (he : ledgerExec codec m t a (s.seen root) r l) (ha : (hold t).permits (.outbound a)) :
    Sole (s.put l) (Function.update hold t ((hold t).after (.outbound a) r)) := by
  have hsame : l.holder = s.holder → Sole (s.put l) (Function.update hold t (hold t)) := by
    intro hl
    rw [Function.update_eq_self]
    exact h.same hl rfl
  cases a with
  | lock =>
      obtain ⟨hfree, rfl⟩ := he
      refine h.update ?_ (fun _ _ => rfl) ⟨fun _ => rfl, h.own t, fun _ => rfl⟩
      intro u _ hu
      have hheld : none = some u := hfree.symm.trans (h.locked u hu)
      cases hheld
  | unlock =>
      obtain ⟨hmine, rfl⟩ := he
      have hown : (hold t).own = false := ha
      refine h.update ?_ (fun _ _ => rfl) ⟨fun hl => Bool.noConfusion hl, h.own t, fun hu => ?_⟩
      · intro u hut hu
        exact absurd (Option.some.inj ((h.locked u hu).symm.trans hmine)) hut
      · exact absurd (hown.symm.trans hu) Bool.false_ne_true
  | write bytes =>
      obtain rfl := he
      exact hsame rfl
  | load | update u =>
      obtain ⟨_, rfl⟩ := he
      exact hsame rfl
  | contains id | isEmpty | encode =>
      obtain ⟨_, _, rfl⟩ := he
      exact hsame rfl
  | send req | listRecentPayments =>
      obtain ⟨n, _, rfl⟩ := he
      exact hsame rfl

theorem Sole.store {i : Locks.Instance} {a : StoreAct} {r : a.Answer} (h : Sole s hold)
    (hm : SameMemory s s') (hothers : ∀ u, u ≠ t → s'.own u = s.own u)
    (hmine : ∀ x, s'.own t = some x → ownAfter (hold t).own a r = true)
    (ha : (hold t).permits (.store i a)) :
    Sole s' (Function.update hold t ((hold t).after (.store i a) r)) := by
  refine h.update (fun u _ hu => hm.holder.trans (h.locked u hu)) hothers ⟨fun _ => ?_, hmine, ?_⟩
  · exact hm.holder.trans (h.locked t ha)
  · exact fun _ => ha

/-- A step of a store goes with the record of it. -/
theorem own_after {i : Locks.Instance} {a : StoreAct} {r : a.Answer} {w : World} :
    (∀ u, u ≠ t → (s.after t i a r w).own u = s.own u) ∧
      ∀ own, (∀ x, s.own t = some x → own = true) →
        ∀ x, (s.after t i a r w).own t = some x → ownAfter own a r = true := by
  have hkept : (s.after t i a r w).own = s.own → ownAfter true a r = true →
      (∀ u, u ≠ t → (s.after t i a r w).own u = s.own u) ∧
        ∀ own, (∀ x, s.own t = some x → own = true) →
          ∀ x, (s.after t i a r w).own t = some x → ownAfter own a r = true := by
    intro hown htrue
    refine ⟨fun u _ => congrFun hown u, fun own h x hx => ?_⟩
    rw [h x (hown ▸ hx)]
    exact htrue
  cases a with
  | disk x =>
      cases r with
      | error e =>
          cases x with
          | create path => cases path <;> exact hkept rfl rfl
          | _ => exact hkept rfl rfl
      | ok y =>
          cases x with
          | create path =>
              cases path with
              | base b => exact hkept rfl rfl
              | join d n => exact ⟨fun u hut => Function.update_of_ne hut .., fun _ _ _ _ => rfl⟩
          | rename tmp dest =>
              refine ⟨fun u hut => Function.update_of_ne hut .., fun own _ x hx => ?_⟩
              have hnone : (s.after t i (.disk (.rename tmp dest)) (.ok y) w).own t = none :=
                Function.update_self ..
              have hsome : none = some x := hnone.symm.trans hx
              cases hsome
          | _ => exact hkept rfl rfl
  | _ => exact hkept rfl rfl

theorem Sole.exec {a : Locks.NodeAct} {r : a.Answer} (he : StoresExec codec m root t a s r s')
    (h : Sole s hold) (ha : (hold t).permits a) :
    Sole s' (Function.update hold t ((hold t).after a r)) := by
  cases he with
  | outbound _ hl => exact h.outbound hl ha
  | store hs =>
      obtain ⟨hothers, hmine⟩ := own_after (s := s) (t := t)
      exact h.store ⟨rfl, rfl, rfl⟩ hothers (hmine _ (h.own t)) ha
  | @fault _ i x e d _ =>
      have hrecord : ownAfter (hold t).own (.disk x) (.error e) = (hold t).own := by
        cases x <;> rfl
      refine h.store ⟨rfl, rfl, rfl⟩ (fun _ _ => rfl) (fun x hx => ?_) ha
      rw [hrecord]
      exact h.own t x hx

/-- The programs keep the temporary files to the one that has the mutex. -/
theorem writing_kept (hS : Orderly S) :
    writing.Kept (rawStores S codec m root) Writer.none Ended Sole where
  exec he h ha := ⟨trivial, h.exec he ha⟩
  start := by
    rintro t s q s' hold ⟨p, l, hl, rfl, rfl⟩ h hidle
    obtain ⟨hholder, hp⟩ := hS.start hl
    refine ⟨Writer.none, ?_, follows_outboundTask _ hp⟩
    rw [← hidle, Function.update_eq_self]
    exact h.same hholder rfl
  finish := by
    rintro t out s s' hold ⟨hout, l, hl, rfl⟩ h hend
    obtain hnone := hend.resolve_left hout
    rw [← hnone, Function.update_eq_self]
    exact h.same (hS.finish hl) rfl
  env := by
    rintro s s' hold (⟨l, hl, rfl⟩ | he) h
    · exact h.same (hS.env hl) rfl
    · have hrest := he.rest
      refine h.same ?_ ?_ <;> rw [hrest]
  crash := by
    rintro s s' hold ⟨l, _, rfl⟩ _
    exact ⟨nofun, nofun, nofun⟩

theorem Sole.start (l : LedgerState χ) (d : Disk) :
    Sole (.start l d) fun _ => Writer.none := by
  refine ⟨fun _ h => Bool.noConfusion h, fun _ _ h => ?_, fun _ h => Bool.noConfusion h⟩
  cases h

/-- Nothing is lost by asking of the writes what they keep to. -/
theorem guarded (hS : Orderly S) {l : LedgerState χ} {d : Disk}
    {c : Config Task Locks.NodeAct Locks.NodeAct.Answer Outcome (StoresState χ)}
    (hr : (rawStores S codec m root).Reach (.idle (.start l d)) c) :
    (onStores S codec m root).Reach (.idle (.start l d)) c :=
  (writing_kept hS).reach_onlyIf Sole.tmpFree (.start l d) hr

/-- Two temporary files are of one task: it has the mutex. -/
theorem Sole.one (h : Sole s hold) {u : Task} {x y : String}
    (ht : s.own t = some x) (hu : s.own u = some y) : t = u := by
  have hmine : s.holder = some t := h.locked t (h.under t (h.own t x ht))
  have hother : s.holder = some u := h.locked u (h.under u (h.own u y hu))
  exact Option.some.inj (hmine.symm.trans hother)

/-- Where every program writes with the mutex held, at most one task has a temporary
file, and wherever the stores come to, `S` comes to, whatever those files are called. -/
theorem unguarded_stores (hS : Impartial S codec m) (hO : Orderly S) {d : Disk} (hd : Links d)
    {l : LedgerState χ} (hfile : l.file = d.contents (ledgerPath root))
    {c : Config Task Locks.NodeAct Locks.NodeAct.Answer Outcome (StoresState χ)}
    (hr : (rawStores S codec m root).Reach (.idle (.start l d)) c) :
    (∀ t u x y, c.state.own t = some x → c.state.own u = some y → t = u) ∧
      ∃ x, S.Reach (.idle l) x ∧ x.state.forget = c.state.seen root ∧
        ∀ t, (c.task t = none → x.task t = none) ∧
          ∀ o, c.task t = some (.ret o) → o ≠ .panicked → x.task t = some (.ret o) := by
  constructor
  · intro t u x y ht hu
    obtain ⟨hold, hc⟩ := (writing_kept hO).reach (Sole.start l d) hr
    exact hc.inv.one ht hu
  · obtain ⟨x, hx, hshown⟩ := reach_shown hS hd hfile (guarded hO hr)
    exact ⟨x, hx, hshown.state, same_tasks hshown⟩

end

/-! ## What the records on the disk say -/

section

variable {codec : Codec OutboundPaymentInfoStorage} {ldk : Ldk}

def NoOffers (n : Account.History) : Prop := ∀ o user bytes, .offer o user bytes ∉ n.commands

/-- Invoices are paid and keysends made. -/
def withoutOffers (codec : Codec OutboundPaymentInfoStorage)
    (ldk : Ldk) : LedgerSystem Account.History :=
  { Account.system codec ldk with
    start := fun t s p s' => (Account.system codec ldk).start t s p s' ∧ NoOffers s'.node }

theorem withoutOffers_orderly : Orderly (withoutOffers codec ldk) where
  start := by
    rintro t s p s' ⟨hst, hno⟩
    cases t with
    | cli =>
        obtain ⟨_, c, rfl, rfl⟩ := hst
        refine ⟨rfl, Locks.follows_pay (W := (· = true)) ldk rfl c ?_⟩
        rintro ⟨o, amt, bytes, rfl⟩
        exact absurd List.mem_cons_self (hno o amt bytes)
    | events =>
        obtain ⟨_, e, _, rfl, rfl⟩ := hst
        exact ⟨rfl, Locks.follows_paymentEvent (W := (· = true)) rfl e⟩
    | startup =>
        obtain ⟨_, rfl, rfl⟩ := hst
        exact ⟨rfl, Locks.follows_reconcileOutbound (W := (· = true)) rfl⟩
  finish := by
    rintro t out s s' ⟨_, hs⟩
    cases t with
    | cli | events | startup =>
        obtain rfl := hs
        rfl
  env := nofun

theorem withoutOffers_impartial :
    Impartial (withoutOffers codec ldk) codec Account.manager where
  exec h := h
  start t p := by
    rintro s l ⟨h, hno⟩
    cases t with
    | cli =>
        obtain ⟨hup, c, hp, rfl⟩ := h
        exact ⟨rfl, _, ⟨⟨hup, c, hp, rfl⟩, hno⟩, rfl⟩
    | events =>
        obtain ⟨hup, e, htold, hp, rfl⟩ := h
        exact ⟨rfl, _, ⟨⟨hup, e, htold, hp, rfl⟩, hno⟩, rfl⟩
    | startup =>
        obtain ⟨hup, hp, rfl⟩ := h
        exact ⟨rfl, s, ⟨⟨hup, hp, rfl⟩, hno⟩, rfl⟩
  finish t out := by
    intro s l h
    cases t with
    | cli | events | startup =>
        obtain ⟨hout, rfl⟩ := h
        exact ⟨rfl, _, ⟨hout, rfl⟩, rfl⟩
  env := nofun
  crash := by
    rintro s l rfl
    exact ⟨rfl, _, rfl, rfl⟩

end

/-! ## A run -/

abbrev rawData : System Task Locks.NodeAct Locks.NodeAct.Answer Outcome
    (StoresState Account.History) :=
  rawStores (withoutOffers OutboundPaymentInfoStorage.codec (.plain id))
    OutboundPaymentInfoStorage.codec Account.manager "data"

theorem play_exec {t : Task} (a : Locks.NodeAct) (s : StoresState Account.History) (r : a.Answer)
    (s' : StoresState Account.History) (h : OnStores.play Account.play t a s = some (r, s')) :
    rawData.exec t a s r s' :=
  (OnStores.play_exec (S := withoutOffers OutboundPaymentInfoStorage.codec (.plain id))
    Account.play_exec a s r s' h).1

/-- One payment is sent and arrives; the node crashes while it writes the record of
the next, and starts again. -/
theorem run_paid : rawData.Can (.idle (.start Account.initial .fresh)) fun c =>
    c.task .startup = some (.ret .done) ∧
      (c.state.onDisk OutboundPaymentInfoStorage.codec "data").bind (·.lookup (.filled 1)) =
        some { plainRecord 1000 with
          preimage := some ⟨Vector.replicate 32 1⟩
          status := .succeeded } := by
  refine .step (.start (t := Task.startup) rfl ⟨_, _, ⟨⟨rfl, rfl, rfl⟩, nofun⟩, rfl, rfl⟩) ?_
  refine .acts (t := Task.startup) play_exec 40 ?_
  refine .step (.finish (t := Task.startup) (x := .done) rfl
    ⟨by decide, _, ⟨by decide, rfl⟩, rfl⟩) ?_
  refine .step (.start (t := Task.cli) rfl ⟨_, _, ⟨⟨rfl,
    .keysend ⟨Vector.replicate 33 2⟩ 1000 (Vector.replicate 32 1), rfl, rfl⟩, ?_⟩, rfl, rfl⟩) ?_
  · rintro o user bytes (_ | ⟨_, ⟨⟩⟩)
  refine .acts (t := Task.cli) play_exec 40 ?_
  refine .step (.finish (t := Task.cli) (x := .initiated 1000 ⟨Vector.replicate 33 2⟩) rfl
    ⟨by decide, _, ⟨by decide, rfl⟩, rfl⟩) ?_
  refine .step (.start (t := Task.events) rfl ⟨_, _, ⟨⟨rfl,
    .sent ⟨Vector.replicate 32 1⟩ (some (.filled 1)), ?_, rfl, rfl⟩, ?_⟩, rfl, rfl⟩) ?_
  · rintro p i ⟨⟩
    exact ⟨_, .head _, rfl, rfl⟩
  · rintro o user bytes (_ | ⟨_, ⟨⟩⟩)
  refine .acts (t := Task.events) play_exec 40 ?_
  refine .step (.finish (t := Task.events) (x := .done) rfl
    ⟨by decide, _, ⟨by decide, rfl⟩, rfl⟩) ?_
  refine .step (.start (t := Task.cli) rfl ⟨_, _, ⟨⟨rfl,
    .keysend ⟨Vector.replicate 33 2⟩ 1000 (Vector.replicate 32 2), rfl, rfl⟩, ?_⟩, rfl, rfl⟩) ?_
  · rintro o user bytes (_ | ⟨_, _ | ⟨_, ⟨⟩⟩⟩)
  refine .acts (t := Task.cli) play_exec 8 ?_
  refine .step (.crash ⟨_, rfl, rfl⟩) ?_
  refine .step (.start (t := Task.startup) rfl ⟨_, _, ⟨⟨rfl, rfl, rfl⟩, ?_⟩, rfl, rfl⟩) ?_
  · rintro o user bytes (_ | ⟨_, _ | ⟨_, ⟨⟩⟩⟩)
  refine .acts (t := Task.startup) play_exec 40 ?_
  exact .here ⟨rfl, by decide +kernel⟩

theorem unguarded_stores_paid : rawData.Can (.idle (.start Account.initial .fresh)) fun c =>
    c.task .startup = some (.ret .done) ∧
      (∀ t u x y, c.state.own t = some x → c.state.own u = some y → t = u) ∧
      ∃ x, (withoutOffers OutboundPaymentInfoStorage.codec (.plain id)).Reach
          (.idle Account.initial) x ∧
        x.state.forget = c.state.seen "data" ∧
        ∀ t, (c.task t = none → x.task t = none) ∧
          ∀ o, c.task t = some (.ret o) → o ≠ .panicked → x.task t = some (.ret o) := by
  obtain ⟨c, hr, hret, _⟩ := run_paid
  exact ⟨c, hr, hret, unguarded_stores withoutOffers_impartial withoutOffers_orderly .fresh rfl hr⟩

end OneWriter

end LightningNode
