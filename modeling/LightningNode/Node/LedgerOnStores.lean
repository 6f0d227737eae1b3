/-
# `LightningNode.Node.LedgerOnStores` — the outbound ledger on its two stores

`LightningNode.Ledger.Shared` takes a write of the ledger for one step, which
replaces the file.  Here it is what it is in the program: a call of one of the two
`FilesystemStore`s, in steps that are interleaved with those of the other tasks
and with whatever else goes on in the directory, any of which may fail.  Whatever
the payment programs come to in this way, they come to with writes of one step
(`on_stores`), and what is proved of these holds of the file on the disk.

    seen      what a state is to the ledger: its file is the one on the disk
    forget    the same for a state of `Ledger.Shared`, without its history
    TmpFree   no write creates the temporary file of another one under way

`TmpFree` is not for free.  The two stores count their temporary files apart, and
the payment of an offer writes without the mutex (`LightningNode.Store.Instances`).
-/
import LightningNode.Ledger.WriteAhead
import LightningNode.Lib.Refinement
import LightningNode.Node.Locks
import LightningNode.Store.Instances

namespace LightningNode

open Conc StoreProg FilesystemStore

variable {χ : Type}

/-- The state without what no program reads. -/
def LedgerState.forget (s : LedgerState χ) : LedgerState χ :=
  { s with
    version := 0
    fileVersion := 0
    snapshot := fun _ => none
    unwritten := fun _ => false }

namespace OnStores

open Locks

/-! ## States -/

/-- The memory of the process and the disk.  `own` is the temporary file of the
ledger that a task has created and not yet renamed. -/
structure StoresState (χ : Type) where
  ledger : OutboundPaymentInfoStorage
  holder : Option Task
  node : χ
  disk : Disk
  memory : Instance → StoreMemory
  own : Task → Option String

def ledgerPath (root : String) : PathBuf := .join (.base root) OUTBOUND_PAYMENTS_FNAME

namespace StoresState

def seen (root : String) (s : StoresState χ) : LedgerState χ where
  ledger := s.ledger
  holder := s.holder
  file := s.disk.contents (ledgerPath root)
  node := s.node
  version := 0
  fileVersion := 0
  snapshot _ := none
  unwritten _ := false

/-- The memory is that of `l`. -/
def put (s : StoresState χ) (l : LedgerState χ) : StoresState χ :=
  { s with ledger := l.ledger, holder := l.holder, node := l.node }

/-- The action `a` of `t` on the store `i` was answered by `r`. -/
def after (s : StoresState χ) (t : Task) (i : Instance) (a : StoreAct) (r : a.Answer) (w : World) :
    StoresState χ :=
  { s with
    disk := w.disk
    memory := Function.update s.memory i w.memory
    own :=
      match a, r with
      | .disk (.create (.join _ x)), .ok _ => Function.update s.own t (some x)
      | .disk (.rename _ _), .ok _ => Function.update s.own t none
      | _, _ => s.own }

end StoresState

/-! ## The system -/

/-- The CLI has the second `persister`, the event handler and the startup `fs_store`. -/
def instanceOf : Task → Instance
  | .cli => .persister
  | .events | .startup => .fsStore

/-- An action of the task `t` is performed, or a call of the operating system fails. -/
inductive StoresExec (codec : Codec OutboundPaymentInfoStorage) (m : Manager χ) (root : String)
    (t : Task) : (a : Locks.NodeAct) → StoresState χ → a.Answer → StoresState χ → Prop
  | outbound {s : StoresState χ} {a : LedgerAct} {r : a.Answer} {l : LedgerState χ} :
      (∀ bytes, a ≠ .write bytes) → ledgerExec codec m t a (s.seen root) r l →
      StoresExec codec m root t (.outbound a) s r (s.put l)
  | store {s : StoresState χ} {i : Instance} {a : StoreAct} {r : a.Answer} {w : World} :
      storeStep a ⟨s.disk, s.memory i⟩ = some (r, w) →
      StoresExec codec m root t (.store i a) s r (s.after t i a r w)
  | fault {s : StoresState χ} {i : Instance} {x : DiskAct} {e : ErrorKind} {d : Disk} :
      x.Fault s.disk d → StoresExec codec m root t (.store i (.disk x)) s (.error e)
        { s with disk := d }

/-- `File::create` is not called for the temporary file of another task. -/
def TmpFree (root : String) (t : Task) : Locks.NodeAct → StoresState χ → Prop
  | .store _ (.disk (.create path)), s =>
      ∀ u, u ≠ t → (s.own u).map (PathBuf.join (.base root)) ≠ some path
  | _, _ => True

/-- What others do in the directory and with the stores: they leave the ledger's file
and the temporary files of its writes alone. -/
structure Elsewhere (root : String) (s s' : StoresState χ) : Prop where
  rest : s' = { s with disk := s'.disk, memory := s'.memory }
  links : Links s'.disk
  file : s'.disk.contents (ledgerPath root) = s.disk.contents (ledgerPath root)
  own : ∀ {t x i}, s.own t = some x → (s.disk.dirs (.base root)).now.lookup x = some (.file i) →
    (s'.disk.dirs (.base root)).now.lookup x = some (.file i) ∧ s'.disk.files i = s.disk.files i

/-- The system `S`, its writes carried out by the stores on the directory `root`.  A
crash ends the process and leaves the disk. -/
def rawStores (S : LedgerSystem χ) (codec : Codec OutboundPaymentInfoStorage) (m : Manager χ)
    (root : String) : System Task Locks.NodeAct Locks.NodeAct.Answer Outcome (StoresState χ) where
  exec := StoresExec codec m root
  start t s q s' := ∃ p l, S.start t (s.seen root) p l ∧
    q = outboundTask (.base root) (instanceOf t) p ∧ s' = s.put l
  finish t out s s' := out ≠ .panicked ∧ ∃ l, S.finish t out (s.seen root) l ∧ s' = s.put l
  env s s' := (∃ l, S.env (s.seen root) l ∧ s' = s.put l) ∨ Elsewhere root s s'
  crash s s' := ∃ l, S.crash (s.seen root) l ∧
    s' = { s.put l with memory := fun _ => .new, own := fun _ => none }

/-- The same, where no two writes meet in a temporary file. -/
def onStores (S : LedgerSystem χ) (codec : Codec OutboundPaymentInfoStorage) (m : Manager χ)
    (root : String) : System Task Locks.NodeAct Locks.NodeAct.Answer Outcome (StoresState χ) :=
  (rawStores S codec m root).onlyIf fun t a s _ => TmpFree root t a s

/-- A change that does not depend on the history, and is none of the file. -/
def Blind (step : LedgerState χ → LedgerState χ → Prop) : Prop :=
  ∀ s l, step s.forget l → l.file = s.file ∧ ∃ s', step s s' ∧ s'.forget = l.forget

/-- The history is there to be talked about, and the file is left to the writes. -/
structure Impartial (S : LedgerSystem χ) (codec : Codec OutboundPaymentInfoStorage)
    (m : Manager χ) : Prop where
  exec : ∀ {t a s r s'}, ledgerExec codec m t a s r s' → S.exec t a s r s'
  start : ∀ t p, Blind fun s s' => S.start t s p s'
  finish : ∀ t out, Blind (S.finish t out)
  env : Blind S.env
  crash : Blind S.crash

/-! ## What the two systems say of each other -/

section

variable {codec : Codec OutboundPaymentInfoStorage} {m : Manager χ} {root : String} {t : Task}

theorem seen_put {s : StoresState χ} {l : LedgerState χ} (h : l.file = (s.seen root).file) :
    (s.put l).seen root = l.forget := by
  cases l
  cases h
  rfl

/-- No action but a write changes the file, and none reads the history. -/
theorem ledgerExec_blind {a : LedgerAct} {r : a.Answer} (ha : ∀ bytes, a ≠ .write bytes) :
    Blind fun s s' => ledgerExec codec m t a s r s' := by
  intro s l h
  cases a with
  | write bytes => exact absurd rfl (ha bytes)
  | lock | unlock | load | update u =>
      obtain ⟨hs, rfl⟩ := h
      exact ⟨rfl, _, ⟨hs, rfl⟩, rfl⟩
  | contains id | isEmpty | encode =>
      obtain ⟨hs, hr, rfl⟩ := h
      exact ⟨rfl, _, ⟨hs, hr, rfl⟩, rfl⟩
  | send req | listRecentPayments =>
      obtain ⟨n, hm, rfl⟩ := h
      exact ⟨rfl, _, ⟨n, hm, rfl⟩, rfl⟩

/-- What is seen of a state, once more by a step of the system above. -/
theorem Blind.above {step : LedgerState χ → LedgerState χ → Prop} (hb : Blind step)
    {s : StoresState χ} {x l : LedgerState χ} (hx : x.forget = s.seen root)
    (hl : step (s.seen root) l) : ∃ x', step x x' ∧ x'.forget = (s.put l).seen root := by
  rw [← hx] at hl
  obtain ⟨hfile, x', hx', hf⟩ := hb x l hl
  refine ⟨x', hx', hf.trans (seen_put ?_).symm⟩
  rw [← hx]
  exact hfile

end

/-! ## What the tasks rely on -/

/-- No two writes under way have the same temporary file. -/
structure Separate (s : StoresState χ) : Prop where
  links : Links s.disk
  tmp : ∀ {t x}, s.own t = some x → IsTmp x
  apart : ∀ {t u x}, s.own t = some x → s.own u = some x → t = u

/-- The temporary file of `t` is left alone. -/
def LeavesOwn (root : String) (t : Task) (s s' : StoresState χ) : Prop :=
  s'.own t = s.own t ∧ ∀ x i, s.own t = some x →
    (s.disk.dirs (.base root)).now.lookup x = some (.file i) →
    (s'.disk.dirs (.base root)).now.lookup x = some (.file i) ∧ s'.disk.files i = s.disk.files i

/-- What the state is without the disk and the stores. -/
structure SameMemory (s s' : StoresState χ) : Prop where
  ledger : s'.ledger = s.ledger
  holder : s'.holder = s.holder
  node : s'.node = s.node

section

variable {root : String} {t u : Task} {s s' s'' : StoresState χ}

theorem LeavesOwn.refl (s : StoresState χ) : LeavesOwn root t s s :=
  ⟨rfl, fun _ _ _ hl => ⟨hl, rfl⟩⟩

theorem LeavesOwn.trans (h : LeavesOwn root t s s') (h' : LeavesOwn root t s' s'') :
    LeavesOwn root t s s'' := by
  refine ⟨h'.1.trans h.1, ?_⟩
  intro x i hx hl
  obtain ⟨hl₁, hf₁⟩ := h.2 x i hx hl
  obtain ⟨hl₂, hf₂⟩ := h'.2 x i (h.1.trans hx) hl₁
  exact ⟨hl₂, hf₂.trans hf₁⟩

theorem LeavesOwn.of_undisturbed (hown : s'.own t = s.own t)
    (hd : Undisturbed (fun x => s.own t = some x) s.disk s'.disk) : LeavesOwn root t s s' :=
  ⟨hown, fun _ _ hx hl => hd.mine hx (s.disk.isDir_base root) hl⟩

theorem SameMemory.seen (h : SameMemory s s')
    (hfile : s'.disk.contents (ledgerPath root) = s.disk.contents (ledgerPath root)) :
    s'.seen root = s.seen root := by
  simp only [StoresState.seen, h.ledger, h.holder, h.node, hfile]

theorem outbound_valid : ValidName OUTBOUND_PAYMENTS_FNAME := by decide

/-- A step of `t` that changes no key, and only temporary files that are nobody
else's: `t` may own one of them afterwards. -/
theorem Separate.quiet (h : Separate s) (root : String) {Own : String → Prop}
    (hq : Quiet Own s.disk s'.disk) (hm : SameMemory s s') (htmp : ∀ x, Own x → IsTmp x)
    (hothers : ∀ u x, u ≠ t → Own x → s.own u ≠ some x)
    (hown : ∀ u, u ≠ t → s'.own u = s.own u)
    (hmine : ∀ x, s'.own t = some x → IsTmp x ∧ ∀ u, u ≠ t → s.own u ≠ some x) :
    Separate s' ∧ s'.seen root = s.seen root ∧ ∀ u, u ≠ t → LeavesOwn root u s s' := by
  refine ⟨⟨hq.links h.links, ?_, ?_⟩, hm.seen (hq.sameKeys h.links htmp _ _ outbound_valid), ?_⟩
  · intro u x hu
    by_cases hut : u = t
    · subst hut
      exact (hmine x hu).1
    · exact h.tmp (hown u hut ▸ hu)
  · intro u v x hu hv
    by_cases hut : u = t
    · subst hut
      by_cases hvu : v = u
      · exact hvu.symm
      · exact absurd (hown v hvu ▸ hv) ((hmine x hu).2 v hvu)
    · have hu' : s.own u = some x := hown u hut ▸ hu
      by_cases hvt : v = t
      · subst hvt
        exact absurd hu' ((hmine x hv).2 u hut)
      · exact h.apart hu' (hown v hvt ▸ hv)
  · intro u hut
    exact .of_undisturbed (hown u hut) (hq.undisturbed h.links htmp fun x hx => hothers u x hut hx)

/-- A step that touches no file, to all tasks. -/
theorem Separate.unseen (h : Separate s) (root : String)
    (hq : Quiet (fun _ => False) s.disk s'.disk) (hm : SameMemory s s') (hown : s'.own = s.own) :
    Separate s' ∧ s'.seen root = s.seen root ∧ ∀ u, LeavesOwn root u s s' := by
  have hund : ∀ u, Undisturbed (fun x => s.own u = some x) s.disk s'.disk :=
    fun u => hq.undisturbed h.links nofun nofun
  refine ⟨⟨hq.links h.links, hown ▸ h.tmp, hown ▸ h.apart⟩,
    hm.seen (hq.sameKeys h.links nofun _ _ outbound_valid), ?_⟩
  exact fun u => .of_undisturbed (congrFun hown u) (hund u)

end

/-! ## Where a write is -/

/-- With no temporary file; with the directory opened, after the rename; while the
file `x` is its own, holds `f` and is one of `H`; on the way to a panic. -/
inductive Phase where
  | idle
  | opened (h : Handle)
  | writing (x : String) (f : File) (H : Ino → Prop)
  | failed

def Phase.holds (root : String) (t : Task) : Phase → StoresState χ → Prop
  | .idle, s => s.own t = none
  | .opened h, s => s.own t = none ∧ h = .dir (.base root)
  | .writing x f H, s => s.own t = some x ∧ ∃ i, H i ∧
      (s.disk.dirs (.base root)).now.lookup x = some (.file i) ∧ s.disk.files i = f
  | .failed, _ => True

theorem Phase.kept {root : String} {t : Task} {s s' : StoresState χ} (h : LeavesOwn root t s s')
    {P : Phase} (hP : P.holds root t s) : P.holds root t s' := by
  cases P with
  | idle => exact h.1.trans hP
  | opened d => exact ⟨h.1.trans hP.1, hP.2⟩
  | writing x f H =>
      obtain ⟨hx, i, hH, hl, hf⟩ := hP
      obtain ⟨hl', hf'⟩ := h.2 x i hx hl
      exact ⟨h.1.trans hx, i, hH, hl', hf'.trans hf⟩
  | failed => exact trivial

/-- The calls on the store `i` by themselves. -/
def storeCalls (codec : Codec OutboundPaymentInfoStorage) (m : Manager χ) (root : String)
    (i : Instance) : System Task StoreAct StoreAct.Answer Reply (StoresState χ) where
  exec t a s r s' := StoresExec codec m root t (.store i a) s r s' ∧ TmpFree root t (.store i a) s
  start _ _ _ _ := False
  finish _ _ _ _ := False
  env _ _ := False
  crash _ _ := False

/-- What a state below stands for. -/
def layers {B : Type} {P : B → Type} {α : Type} (S : LedgerSystem χ)
    (S' : System Task B P α (StoresState χ)) (root : String) : Layers S S' where
  inv := Separate
  rely := LeavesOwn root
  rely_refl _ := .refl
  rely_trans := .trans
  shows s x := x.forget = s.seen root

theorem unseen_of_seen {B : Type} {P : B → Type} {α : Type} {S : LedgerSystem χ}
    {S' : System Task B P α (StoresState χ)} {root : String} {s s' : StoresState χ}
    (h : s'.seen root = s.seen root) : (layers S S' root).Unseen s s' :=
  fun _ hx => hx.trans h.symm

/-- What a call on a store changes beside the disk and the store. -/
theorem exec_memory {codec : Codec OutboundPaymentInfoStorage} {m : Manager χ} {root : String}
    {t : Task} {i : Instance} {a : StoreAct} {s s' : StoresState χ} {r : a.Answer}
    (h : StoresExec codec m root t (.store i a) s r s') :
    SameMemory s s' ∧ (a.KeepsOwn → s'.own = s.own) := by
  cases h with
  | store hs =>
      refine ⟨⟨rfl, rfl, rfl⟩, fun ha => ?_⟩
      cases a with
      | disk x =>
          cases x with
          | create p => exact ha.elim
          | rename p q => exact ha.elim
          | _ => rfl
      | _ => rfl
  | fault hf => exact ⟨⟨rfl, rfl, rfl⟩, fun _ => rfl⟩

/-- A call of the operating system that touches no file touches none when it fails. -/
theorem quiet_of_exec {codec : Codec OutboundPaymentInfoStorage} {m : Manager χ} {root : String}
    {t : Task} {i : Instance} {x : DiskAct} {s s' : StoresState χ} {r : Except ErrorKind x.Out}
    {Own : String → Prop} (hq : Quiet Own s.disk (x.perform s.disk).2)
    (htorn : ∀ j b, x = .writeAll (.file j) b → ∀ f, Quiet Own s.disk (s.disk.setFile j f))
    (h : StoresExec codec m root t (.store i (.disk x)) s r s') : Quiet Own s.disk s'.disk := by
  cases h with
  | store hs =>
      cases hs
      exact hq
  | fault hf =>
      cases hf with
      | none => exact .none
      | done => exact hq
      | torn => exact htorn _ _ rfl _

/-! ## The parts of a write -/

section

variable {S : LedgerSystem χ} {codec : Codec OutboundPaymentInfoStorage} {m : Manager χ}
  {root : String} {t : Task} {i : Instance}

/-- What a write of the ledger may say between its steps. -/
def phases (S : LedgerSystem χ) (codec : Codec OutboundPaymentInfoStorage) (m : Manager χ)
    (root : String) (t : Task) (i : Instance) :
    StoreAssertions (layers S (storeCalls codec m root i) root).quietly t Phase where
  holds P s := P.holds root t s
  stable _ _ _ _ _ h hP := Phase.kept h hP
  memory := by
    rintro P a s r s' ha _ hi hP ⟨he, _⟩
    have hkeeps : a.KeepsOwn := by
      cases a with
      | disk x => exact ha.elim
      | _ => trivial
    obtain ⟨hm, hown⟩ := exec_memory he
    have hd : s'.disk = s.disk := by
      cases he with
      | store hs => exact storeStep_disk ha hs
      | fault hf => exact ha.elim
    obtain ⟨hi', hseen, hall⟩ := Separate.unseen hi root (hd ▸ .none) hm (hown hkeeps)
    exact ⟨hi', ⟨unseen_of_seen hseen, fun u _ => hall u⟩, Phase.kept (hall t) hP⟩

namespace Writes

open Discipline.Assertions StoreAssertions

variable {α β γ : Type} {P : Phase} {Q : β → Phase}

/-- A call of the operating system that touches no file. -/
theorem unseen {x : DiskAct} {s s' : StoresState χ} {r : Except ErrorKind x.Out}
    (hx : StoreAct.KeepsOwn (.disk x)) (hw : ∀ h b, x ≠ .writeAll h b)
    (hq : Quiet (fun _ => False) s.disk (x.perform s.disk).2) (hi : Separate s)
    (hP : P.holds root t s) (he : StoresExec codec m root t (.store i (.disk x)) s r s') :
    Separate s' ∧ (layers S (storeCalls codec m root i) root).quietly.Guar t s s' ∧
      P.holds root t s' := by
  obtain ⟨hm, hown⟩ := exec_memory he
  have hquiet := quiet_of_exec hq (fun j b h => absurd h (hw _ _)) he
  obtain ⟨hi', hseen, hall⟩ := Separate.unseen hi root hquiet hm (hown hx)
  exact ⟨hi', ⟨unseen_of_seen hseen, fun u _ => hall u⟩, Phase.kept (hall t) hP⟩

theorem createDirAll (q : PathBuf) :
    (phases S codec m root t i).Meets P (createDirAll q) fun _ => P := by
  refine keeps_createDirAll ?_ ?_ q
  · rintro q s r s' hi hP ⟨he, _⟩
    exact unseen (x := .mkdir q) trivial (by rintro _ _ ⟨⟩) (.mkdir q) hi hP he
  · rintro q s r s' hi hP ⟨he, _⟩
    exact unseen (x := .metadata q) trivial (by rintro _ _ ⟨⟩) .none hi hP he

/-- The file is new, or one that is left over and emptied. -/
theorem create (n : UInt64) :
    (phases S codec m root t i).Meets .idle
      (StoreProg.os (.create (.join (.base root) (tmpName OUTBOUND_PAYMENTS_FNAME n))))
      (onResult (fun _ => .failed) fun h =>
        .writing (tmpName OUTBOUND_PAYMENTS_FNAME n) ⟨[], false⟩ fun j => h = .file j) := by
  generalize hx : tmpName OUTBOUND_PAYMENTS_FNAME n = x
  have htmp : IsTmp x := hx ▸ tmpName_isTmp _ _
  refine StoreAssertions.os ?_
  rintro s r s' hi hP ⟨he, hfree⟩
  have hnone : s.own t = none := hP
  have hfree : ∀ u, u ≠ t → s.own u ≠ some x := fun u hut hu =>
    hfree u hut (by rw [hu, Option.map_some])
  obtain ⟨hm, _⟩ := exec_memory he
  have hcreate := Holds.create s.disk (.base root) x
  have hq : Quiet (· = x) s.disk s'.disk := by
    have hno : ∀ j b, DiskAct.create (.join (.base root) x) ≠ .writeAll (.file j) b := nofun
    exact quiet_of_exec (.create _ x) (fun j b h => absurd h (hno j b)) he
  have hstep : ∀ own, s'.own = Function.update s.own t own → (own = none ∨ own = some x) →
      Separate s' ∧ (layers S (storeCalls codec m root i) root).quietly.Guar t s s' := by
    intro own hown hor
    have hmine : ∀ y, s'.own t = some y → IsTmp y ∧ ∀ u, u ≠ t → s.own u ≠ some y := by
      intro y hy
      rw [hown, Function.update_self] at hy
      rcases hor with rfl | rfl
      · cases hy
      · cases hy
        exact ⟨htmp, hfree⟩
    obtain ⟨hi', hseen, hothers⟩ := Separate.quiet hi root hq hm
      (fun y hy => hy ▸ htmp) (fun u y hut hy => hy ▸ hfree u hut)
      (fun u hut => by rw [hown, Function.update_of_ne hut]) hmine
    exact ⟨hi', unseen_of_seen hseen, hothers⟩
  have hfailed : s'.own = s.own → r.isOk = false →
      Separate s' ∧ (layers S (storeCalls codec m root i) root).quietly.Guar t s s' ∧
        (phases S codec m root t i).holds (onResult (fun _ => .failed) (fun h =>
          .writing x ⟨[], false⟩ fun j => h = .file j) (r.mapError .os)) s' := by
    intro hown hr
    have hown' : s'.own = Function.update s.own t none := by
      rw [hown, eq_comm, Function.update_eq_self_iff]
      exact hnone.symm
    obtain ⟨hi', hg⟩ := hstep none hown' (.inl rfl)
    refine ⟨hi', hg, ?_⟩
    cases r with
    | ok h => cases hr
    | error e => exact trivial
  cases he with
  | fault hf => exact hfailed rfl rfl
  | store hs =>
      rcases hcreate with ⟨e, hc⟩ | ⟨j, d', hc, _, hholds⟩
      · simp only [storeStep, hc] at hs
        cases hs
        exact hfailed rfl rfl
      · simp only [storeStep, hc] at hs
        cases hs
        obtain ⟨hi', hg⟩ := hstep (some x) rfl (.inr rfl)
        exact ⟨hi', hg, Function.update_self .., j, rfl, hholds⟩

/-- The write works on its temporary file. -/
theorem setFile {bytes : Bytes} {x : String} {h : Handle} {f g : File} {y : DiskAct}
    (hy : Fills bytes h y f g) :
    (phases S codec m root t i).Meets (.writing x f fun j => h = .file j) (StoreProg.os y)
      (onResult (fun _ => .failed) fun _ => .writing x g fun j => h = .file j) := by
  refine StoreAssertions.os ?_
  rintro s r s' hi ⟨hx, j, rfl, hl, hf⟩ ⟨he, _⟩
  obtain ⟨v, hv⟩ := hy.perform hf
  obtain ⟨hm, hown⟩ := exec_memory he
  have hq : Quiet (fun y => s.own t = some y) s.disk s'.disk := by
    refine quiet_of_exec ?_ ?_ he
    · rw [hv]
      exact .setFile hx hl
    · rintro j' b rfl _
      -- what is torn is the task's own file
      cases hy
      exact .setFile hx hl
  have hmine : ∀ y, s'.own t = some y → IsTmp y ∧ ∀ u, u ≠ t → s.own u ≠ some y := by
    intro z hz
    have hz : s.own t = some z := hown hy.keepsOwn ▸ hz
    exact ⟨hi.tmp hz, fun u hut hu => hut (hi.apart hu hz)⟩
  obtain ⟨hi', hseen, hothers⟩ := Separate.quiet hi root hq hm (fun y hy => hi.tmp hy)
    (fun u y hut hy hu => hut (hi.apart hu hy)) (fun u _ => congrFun (hown hy.keepsOwn) u) hmine
  refine ⟨hi', ⟨unseen_of_seen hseen, hothers⟩, ?_⟩
  cases he with
  | fault hf => exact trivial
  | store hs =>
      simp only [storeStep, hv] at hs
      cases hs
      exact ⟨(congrFun (hown hy.keepsOwn) t).trans hx, j, rfl, hl, Disk.setFile_files_self ..⟩

theorem writeTmp (n : UInt64) (bytes : Bytes) :
    (phases S codec m root t i).Meets .idle
      (writeTmp (.join (.base root) (tmpName OUTBOUND_PAYMENTS_FNAME n)) bytes)
      (onResult (fun _ => .failed) fun _ =>
        .writing (tmpName OUTBOUND_PAYMENTS_FNAME n) ⟨bytes, true⟩ fun _ => True) := by
  refine writeTmp_of_parts
    (W := fun f h => .writing (tmpName OUTBOUND_PAYMENTS_FNAME n) f fun j => h = .file j) (create n)
    setFile ?_
  rintro h s ⟨hx, j, _, hl, hf⟩
  exact ⟨hx, j, trivial, hl, hf⟩

theorem syncDir :
    (phases S codec m root t i).Meets .idle (syncDir (.base root))
      (onResult (fun _ => .failed) fun _ => .idle) := by
  have hopen : ∀ d : Disk,
      DiskAct.perform (.openRead (.base root)) d = (.ok (.dir (.base root)), d) :=
    fun d => DiskAct.openRead_dir (d.isDir_base root)
  refine andThen (M := .opened) (StoreAssertions.os ?_) fun h => StoreAssertions.os ?_
  · rintro s r s' hi hP ⟨he, _⟩
    have hq : Quiet (fun _ => False) s.disk
        (DiskAct.perform (.openRead (.base root)) s.disk).2 := by
      rw [hopen]
      exact .none
    obtain ⟨hi', hg, hidle⟩ := unseen (x := .openRead (.base root)) (P := .idle) trivial
      (by rintro _ _ ⟨⟩) hq hi hP he
    refine ⟨hi', hg, ?_⟩
    cases he with
    | fault hf => exact trivial
    | store hs =>
        simp only [storeStep, hopen] at hs
        cases hs
        exact ⟨hidle, rfl⟩
  · rintro s r s' hi ⟨hidle, rfl⟩ ⟨he, _⟩
    obtain ⟨hi', hg, hidle'⟩ := unseen (x := .syncAll (.dir (.base root))) (P := .idle) trivial
      (by rintro _ _ ⟨⟩) .syncDir hi hidle he
    refine ⟨hi', hg, ?_⟩
    cases r with
    | ok _ => exact hidle'
    | error e => exact trivial

end Writes

/-! ## The rename, and the whole write -/

/-- The temporary file takes the place of the ledger's: above, the write happens. -/
theorem Separate.move (hS : Impartial S codec m) {s s' : StoresState χ} {x : String} {j : Ino}
    {bytes : Bytes} (hi : Separate s) (hx : s.own t = some x)
    (hl : (s.disk.dirs (.base root)).now.lookup x = some (.file j))
    (hf : s.disk.files j = ⟨bytes, true⟩)
    (hdir : (s.disk.dirs (.base root)).now.lookup OUTBOUND_PAYMENTS_FNAME ≠ some .dir)
    (hd : s'.disk = s.disk.change (.base root) (.move x OUTBOUND_PAYMENTS_FNAME (.file j)))
    (hm : SameMemory s s') (hown : ∀ u, u ≠ t → s'.own u = s.own u)
    (hmine : s'.own t = none ∨ s'.own t = s.own t) :
    Separate s' ∧ (layers S (storeCalls codec m root i) root).Others t s s' ∧
      (layers S (storeCalls codec m root i) root).Happens t (.write bytes) () s s' := by
  have htmp := hi.tmp hx
  have hold : ∀ {u y}, s'.own u = some y → s.own u = some y := by
    intro u y hu
    by_cases hut : u = t
    · subst hut
      rcases hmine with hnone | hsame
      · exact absurd (hnone.symm.trans hu) nofun
      · exact hsame ▸ hu
    · exact hown u hut ▸ hu
  refine ⟨⟨?_, fun hu => hi.tmp (hold hu), fun hu hv => hi.apart (hold hu) (hold hv)⟩, ?_, ?_⟩
  · rw [hd]
    exact hi.links.move htmp outbound_valid.not_tmp hl
  · intro u hut
    refine .of_undisturbed (hown u hut) ?_
    rw [hd]
    exact .move outbound_valid (fun y hy => hi.tmp hy) (fun hu => hut (hi.apart hu hx)) hl hdir
  · intro y hy
    refine ⟨y.written t bytes, hS.exec rfl, ?_⟩
    have hset := KeySet.move htmp (s.disk.isDir_base root) hl hdir
    have hfile : s'.disk.contents (ledgerPath root) = some bytes := by
      rw [hd]
      exact hset.here.trans (by rw [hf])
    have hforget : (y.written t bytes).forget = { y.forget with file := some bytes } := rfl
    have hseen : s'.seen root = { s.seen root with file := some bytes } := by
      simp only [StoresState.seen, hm.ledger, hm.holder, hm.node, hfile]
    have hy : y.forget = s.seen root := hy
    show (y.written t bytes).forget = s'.seen root
    rw [hforget, hseen, hy]

/-- The write has returned: it has happened, if it went well. -/
def Written (t : Task) (r : Res Unit) (j : Option Unit) (s : StoresState χ) : Prop :=
  r.isOk = true → j = some () ∧ s.own t = none

theorem install_carries (hS : Impartial S codec m) {bytes : Bytes} {n : UInt64} {s : StoresState χ}
    (h : (Phase.writing (tmpName OUTBOUND_PAYMENTS_FNAME n) ⟨bytes, true⟩ fun _ => True).holds
      root t s) :
    (layers S (storeCalls codec m root i) root).Carries t (.write bytes) (Written t)
      (install (.base root) (tmpName OUTBOUND_PAYMENTS_FNAME n) OUTBOUND_PAYMENTS_FNAME) none
      s := by
  generalize hx : tmpName OUTBOUND_PAYMENTS_FNAME n = x at h ⊢
  have hne : x ≠ OUTBOUND_PAYMENTS_FNAME := hx ▸ tmpName_ne outbound_valid
  have failed : ∀ {e : ErrorKind} {j : Option Unit} {s : StoresState χ},
      (Except.error e : Except ErrorKind Unit).isOk = true → j = some () ∧ s.own t = none :=
    fun h => Bool.noConfusion h
  refine Layers.Carries.act (fun r j s => r.isOk = true → j = some () ∧ s.own t = none) ?_ ?_
  · rintro s₁ hr hi₁ r s₂ ⟨he, _⟩
    obtain ⟨hx, j, _, hl, hf⟩ := Phase.kept hr h
    obtain ⟨hm, _⟩ := exec_memory he
    have same : s₂.disk = s₁.disk → s₂.own = s₁.own →
        Separate s₂ ∧ (layers S (storeCalls codec m root i) root).Others t s₁ s₂ ∧
          (layers S (storeCalls codec m root i) root).Unseen s₁ s₂ := by
      intro hd hown
      obtain ⟨hi₂, hseen, hall⟩ := Separate.unseen hi₁ root (hd ▸ .none) hm hown
      exact ⟨hi₂, fun u _ => hall u, unseen_of_seen hseen⟩
    cases he with
    | store hs =>
        rcases DiskAct.rename_cases s₁.disk (.base root) hne with ⟨e, hp⟩ | ⟨_, j', hj, hdir, hp⟩
        · simp only [storeStep, hp] at hs
          cases hs
          obtain ⟨hi₂, ho, hu⟩ := same rfl rfl
          exact ⟨hi₂, ho, none, .unseen hu, failed⟩
        · simp only [storeStep, hp] at hs
          cases hs
          obtain rfl : j = j' := by simpa [hl] using hj
          obtain ⟨hi₂, ho, hh⟩ := Separate.move hS hi₁ hx hl hf hdir rfl hm
            (fun u hut => Function.update_of_ne hut ..) (.inl (Function.update_self ..))
          exact ⟨hi₂, ho, some (), .happens hh, fun _ => ⟨rfl, Function.update_self ..⟩⟩
    | fault hfault =>
        cases hfault with
        | none =>
            obtain ⟨hi₂, ho, hu⟩ := same rfl rfl
            exact ⟨hi₂, ho, none, .unseen hu, failed⟩
        | done =>
            rcases DiskAct.rename_cases s₁.disk (.base root) hne with
              ⟨e, hp⟩ | ⟨_, j', hj, hdir, hp⟩
            · obtain ⟨hi₂, ho, hu⟩ := same (congrArg Prod.snd hp) rfl
              exact ⟨hi₂, ho, none, .unseen hu, failed⟩
            · obtain rfl : j = j' := by simpa [hl] using hj
              obtain ⟨hi₂, ho, hh⟩ := Separate.move hS hi₁ hx hl hf hdir (congrArg Prod.snd hp) hm
                (fun _ _ => rfl) (.inr rfl)
              exact ⟨hi₂, ho, some (), .happens hh, failed⟩
  · intro r j s hi hM
    cases r with
    | error e => exact fun _ _ _ hok => Bool.noConfusion hok
    | ok u =>
        obtain ⟨rfl, hidle⟩ := hM rfl
        refine Layers.Carries.mono ?_ (Layers.Carries.quiet (Writes.syncDir s hi hidle))
        rintro r' _ s' _ ⟨rfl, hr'⟩ hok
        cases r' with
        | ok u => exact ⟨rfl, hr'⟩
        | error e => cases hok

theorem memory (P : Phase) (a : StoreAct) (ha : a.OnMemory) (hf : a ≠ .fetchAddTmp) :
    (phases S codec m root t i).Meets P (StoreProg.act a) fun _ => P :=
  StoreAssertions.on_memory (k := .ret) ha hf fun _ => Discipline.Assertions.ret fun _ h => h

theorem fetchAddTmp :
    (phases S codec m root t i).Meets .idle (StoreProg.act .fetchAddTmp) fun _ => .idle := by
  refine Discipline.Assertions.look (fun _ => True) ?_ fun n _ =>
    Discipline.Assertions.ret fun _ h => h
  rintro s n s' hi hP ⟨he, _⟩
  obtain ⟨hm, hown⟩ := exec_memory he
  have hd : s'.disk = s.disk := by
    cases he with
    | store hs => exact storeStep_disk (a := .fetchAddTmp) trivial hs
  obtain ⟨hi', hseen, hall⟩ := Separate.unseen hi root (hd ▸ .none) hm (hown trivial)
  exact ⟨⟨hi', ⟨unseen_of_seen hseen, fun u _ => hall u⟩, Phase.kept (P := .idle) (hall t) hP⟩,
    trivial⟩

/-- Where a part that has returned `r` stands, as far as it went well. -/
def phaseOf : Res Unit → Phase := onResult (fun _ => .failed) fun _ => .idle

theorem Written.phase {r : Res Unit} {j : Option Unit} {s : StoresState χ} (h : Written t r j s) :
    (phaseOf r).holds root t s := by
  cases r with
  | ok u => exact (h rfl).2
  | error e => exact trivial

theorem Written.again {r : Res Unit} {j : Option Unit} {s s' : StoresState χ} (h : Written t r j s)
    (h' : (phaseOf r).holds root t s') : Written t r j s' := by
  intro hok
  refine ⟨(h hok).1, ?_⟩
  cases r with
  | ok u => exact h'
  | error e => cases hok

theorem locked_carries (hS : Impartial S codec m) {bytes : Bytes} {n : UInt64} {s : StoresState χ}
    (hi : Separate s)
    (h : (Phase.writing (tmpName OUTBOUND_PAYMENTS_FNAME n) ⟨bytes, true⟩ fun _ => True).holds
      root t s) :
    (layers S (storeCalls codec m root i) root).Carries t (.write bytes) (Written t)
      (withWriteLock (.join (.base root) OUTBOUND_PAYMENTS_FNAME)
        (install (.base root) (tmpName OUTBOUND_PAYMENTS_FNAME n) OUTBOUND_PAYMENTS_FNAME))
      none s := by
  let P : Phase := .writing (tmpName OUTBOUND_PAYMENTS_FNAME n) ⟨bytes, true⟩ fun _ => True
  refine Layers.Carries.after hi (memory P (.cloneLock _) trivial nofun s hi h)
    fun ref s₁ hi₁ h₁ => ?_
  refine Layers.Carries.after hi₁ (memory P (.writeLock ref) trivial nofun s₁ hi₁ h₁)
    fun _ s₂ hi₂ h₂ => ?_
  refine Layers.Carries.bind (M := Written t) ?_ hi₂ (install_carries hS h₂)
  intro r j s₃ hi₃ h₃
  refine Layers.Carries.after hi₃
    (memory (phaseOf r) (.unlockWrite ref) trivial nofun s₃ hi₃ h₃.phase) fun _ s₄ hi₄ h₄ => ?_
  refine Layers.Carries.after hi₄ (memory (phaseOf r) (.dropLock ref) trivial nofun s₄ hi₄ h₄)
    fun _ s₅ _ h₅ => ?_
  exact fun s' hr _ => h₃.again (Phase.kept hr h₅)

theorem writeIn_carries (hS : Impartial S codec m) {bytes : Bytes} {s : StoresState χ}
    (hi : Separate s) (hidle : s.own t = none) :
    (layers S (storeCalls codec m root i) root).Carries t (.write bytes) (Written t)
      (writeIn (.base root) OUTBOUND_PAYMENTS_FNAME bytes) none s := by
  have hfailed : ∀ e j s, (layers S (storeCalls codec m root i) root).Carries t (.write bytes)
      (Written t) (.ret (.error e)) j s := fun _ _ _ _ _ _ hok => Bool.noConfusion hok
  have hdirs : (phases S codec m root t i).Meets .idle (createDirAll (.base root)) fun _ => .idle :=
    Writes.createDirAll (.base root)
  refine Layers.Carries.after hi (hdirs s hi hidle) fun r s₁ hi₁ h₁ => ?_
  cases r with
  | error e => exact hfailed e none s₁
  | ok u =>
      refine Layers.Carries.after hi₁ (fetchAddTmp s₁ hi₁ h₁) fun n s₂ hi₂ h₂ => ?_
      refine Layers.Carries.after hi₂ (Writes.writeTmp n bytes s₂ hi₂ h₂) fun r s₃ hi₃ h₃ => ?_
      cases r with
      | error e => exact hfailed e none s₃
      | ok u =>
          refine Layers.Carries.bind (M := Written t) ?_ hi₃ (locked_carries hS hi₃ h₃)
          intro r j s₄ hi₄ h₄
          cases r with
          | error e => exact hfailed e j s₄
          | ok u =>
              obtain ⟨rfl, hown⟩ := h₄ rfl
              have hend : (phases S codec m root t i).Meets .idle (collected u) phaseOf :=
                StoreAssertions.collected fun _ h => h
              refine Layers.Carries.mono ?_ (Layers.Carries.quiet (hend s₄ hi₄ hown))
              rintro r _ s₅ _ ⟨rfl, hr⟩ hok
              cases r with
              | ok u => exact ⟨rfl, hr⟩
              | error e => cases hok

/-- The call has returned: it has happened, if it went well. -/
def Replied (t : Task) (r : Reply) (j : Option Unit) (s : StoresState χ) : Prop :=
  r = .unit (.ok ()) → j = some () ∧ s.own t = none

theorem write_carries (hS : Impartial S codec m) {bytes : Bytes} {s : StoresState χ}
    (hi : Separate s) (hidle : s.own t = none) :
    (layers S (storeCalls codec m root i) root).Carries t (.write bytes) (Replied t)
      ((Call.write "" "" OUTBOUND_PAYMENTS_FNAME bytes).program (.base root)) none s := by
  have hacc : Accepts "" "" (some OUTBOUND_PAYMENTS_FNAME) := by decide
  have hroot : getDestDirPath (.base root) "" "" = .base root := getDestDirPath_eq fun _ => rfl
  rw [Call.program, write_accepted hacc, hroot]
  refine Layers.Carries.bind ?_ hi (writeIn_carries hS hi hidle)
  rintro r j s _ hr s' hrely _ heq
  cases heq
  obtain ⟨rfl, hown⟩ := hr rfl
  exact ⟨rfl, hrely.1.trans hown⟩

end

/-! ## The refinement -/

section

variable {S : LedgerSystem χ} {codec : Codec OutboundPaymentInfoStorage} {m : Manager χ}
  {root : String} {t : Task}

/-- A call of a store is no different among the other actions. -/
theorem carries_onInstance {β : Type} {i : Instance} {p : StoreProg β} {a : LedgerAct}
    {Q : β → Option a.Answer → StoresState χ → Prop} {j : Option a.Answer} {s : StoresState χ}
    (h : (layers S (storeCalls codec m root i) root).Carries t a Q p j s) :
    (layers S (onStores S codec m root) root).Carries t a Q (onInstance i p) j s := by
  induction p generalizing j s with
  | ret x => exact h
  | act b k ih =>
      intro s₁ hr hi r s₂ he
      obtain ⟨hi₂, ho, j', hj, hk⟩ := h s₁ hr hi r s₂ he
      refine ⟨hi₂, ho, j', ?_, ih r hk⟩
      cases hj with
      | unseen hu => exact .unseen hu
      | happens hh => exact .happens hh

/-- An action is carried out, or the process ends. -/
def Settles (t : Task) {a : LedgerAct} (r : Except Outcome a.Answer) (j : Option a.Answer)
    (s : StoresState χ) : Prop :=
  (∀ x, r = .ok x → j = some x ∧ s.own t = none) ∧ ∀ o, r = .error o → o = .panicked

theorem unwrapWrite_carries (hS : Impartial S codec m) {i : Instance} {bytes : Bytes}
    {s : StoresState χ} (hi : Separate s) (hidle : s.own t = none) :
    (layers S (onStores S codec m root) root).Carries t (.write bytes) (Settles t)
      (unwrapWrite (.base root) i OUTBOUND_PAYMENTS_FNAME bytes) none s := by
  have hpanic : ∀ j s, (layers S (onStores S codec m root) root).Carries t (.write bytes)
      (Settles t) (.ret (.error .panicked)) j s := by
    intro j s s' _ _
    refine ⟨nofun, ?_⟩
    rintro _ ⟨⟩
    rfl
  refine Layers.Carries.bind ?_ hi (carries_onInstance (write_carries hS hi hidle))
  intro r j s₁ hi₁ h₁
  cases r with
  | bytes r => exact hpanic j s₁
  | keys r => exact hpanic j s₁
  | unit r =>
      cases r with
      | error e => exact hpanic j s₁
      | ok u =>
          intro s₂ hr _
          obtain ⟨rfl, hown⟩ := h₁ rfl
          exact ⟨fun x _ => ⟨rfl, hr.1.trans hown⟩, nofun⟩

/-- An action that is one step below, too. -/
theorem outbound_carries (hS : Impartial S codec m) {a : LedgerAct} (ha : ∀ bytes, a ≠ .write bytes)
    {s : StoresState χ} (hidle : s.own t = none) :
    (layers S (onStores S codec m root) root).Carries t a (Settles t)
      (.act (.outbound a) fun r => .ret (.ok r)) none s := by
  refine Layers.Carries.act (fun r j s => j = some r ∧ s.own t = none) ?_ ?_
  · rintro s₁ hr hi r s₂ ⟨he, _⟩
    cases he with
    | @outbound _ _ _ l _ hl =>
        refine ⟨⟨hi.links, hi.tmp, hi.apart⟩, fun u _ => ⟨rfl, fun _ _ _ hl => ⟨hl, rfl⟩⟩, some r,
          .happens ?_, rfl, hr.1.trans hidle⟩
        intro x hx
        obtain ⟨x', hx', hf⟩ := (ledgerExec_blind ha).above hx hl
        exact ⟨x', hS.exec hx', hf⟩
  · rintro r _ s₁ _ ⟨rfl, hown⟩ s₂ hr _
    refine ⟨?_, nofun⟩
    rintro _ ⟨⟩
    exact ⟨rfl, hr.1.trans hown⟩

theorem carryOutbound_carries (hS : Impartial S codec m) {i : Instance} {a : LedgerAct}
    {s : StoresState χ} (hi : Separate s) (hidle : s.own t = none) :
    (layers S (onStores S codec m root) root).Carries t a (Settles t)
      (carryOutbound (.base root) i a) none s := by
  cases a with
  | write bytes => exact unwrapWrite_carries hS hi hidle
  | _ => exact outbound_carries hS (by rintro _ ⟨⟩) hidle

/-- The ledger with writes of many steps, and with writes of one. -/
def refinement (hS : Impartial S codec m) (root : String) :
    Refinement S (onStores S codec m root) fun t => carryOutbound (.base root) (instanceOf t) where
  toLayers := layers S (onStores S codec m root) root
  idle t s := s.own t = none
  fatal o := o = .panicked
  idle_rely hr _ h := hr.1.trans h
  carries hi hidle := carryOutbound_carries hS hi hidle
  start := by
    rintro t s q s' x ⟨p, l, hl, rfl, rfl⟩ hi hidle hx
    obtain ⟨x', hx', hf⟩ := (hS.start t p).above hx hl
    exact ⟨⟨p, x', rfl, hx', hf⟩, ⟨hi.links, hi.tmp, hi.apart⟩, hidle,
      fun u _ => ⟨rfl, fun _ _ _ hl => ⟨hl, rfl⟩⟩⟩
  finish := by
    rintro t o s s' x ⟨_, l, hl, rfl⟩ hi hidle hx
    obtain ⟨x', hx', hf⟩ := (hS.finish t o).above hx hl
    exact ⟨⟨x', hx', hf⟩, ⟨hi.links, hi.tmp, hi.apart⟩, hidle,
      fun u _ => ⟨rfl, fun _ _ _ hl => ⟨hl, rfl⟩⟩⟩
  lasting h := h.1
  env := by
    rintro s s' x (⟨l, hl, rfl⟩ | he) hi hx
    · obtain ⟨x', hx', hf⟩ := hS.env.above hx hl
      exact ⟨.inr ⟨x', hx', hf⟩, ⟨hi.links, hi.tmp, hi.apart⟩,
        fun u => ⟨rfl, fun _ _ _ hl => ⟨hl, rfl⟩⟩⟩
    · have hrest := he.rest
      have hown : s'.own = s.own := by rw [hrest]
      have hm : SameMemory s s' := by
        constructor <;> rw [hrest]
      refine ⟨.inl ?_, ⟨he.links, ?_, ?_⟩, fun t => ⟨congrFun hown t, fun x i hx hl => ?_⟩⟩
      · exact Eq.trans hx (hm.seen he.file).symm
      · rw [hown]
        exact hi.tmp
      · rw [hown]
        exact hi.apart
      · exact he.own hx hl
  crash := by
    rintro s s' x ⟨l, hl, rfl⟩ hi hx
    obtain ⟨x', hx', hf⟩ := hS.crash.above hx hl
    exact ⟨⟨x', hx', hf⟩, ⟨hi.links, nofun, nofun⟩, fun _ => rfl⟩

end

/-! ## Every run -/

/-- A process that is about to start on the disk `d`. -/
def StoresState.start (l : LedgerState χ) (d : Disk) : StoresState χ where
  ledger := l.ledger
  holder := l.holder
  node := l.node
  disk := d
  memory _ := .new
  own _ := none

section

variable {S : LedgerSystem χ} {codec : Codec OutboundPaymentInfoStorage} {m : Manager χ}
  {root : String} {d : Disk} {l : LedgerState χ}
  {x : Config Task LedgerAct LedgerAct.Answer Outcome (LedgerState χ)}
  {c : Config Task Locks.NodeAct Locks.NodeAct.Answer Outcome (StoresState χ)}

theorem reach_shown (hS : Impartial S codec m) (hd : Links d)
    (hfile : l.file = d.contents (ledgerPath root))
    (hr : (onStores S codec m root).Reach (.idle (.start l d)) c) :
    ∃ x, S.Reach (.idle l) x ∧ (refinement hS root).Shown c x := by
  have hshows : l.forget = (StoresState.start l d).seen root := by
    cases l
    cases hfile
    rfl
  have hi : Separate (StoresState.start l d) := ⟨hd, nofun, nofun⟩
  have hidle : ∀ t, (StoresState.start l d).own t = none := fun _ => rfl
  exact (refinement hS root).reach hi hidle hshows hr

/-- What has returned below has returned the same above. -/
theorem same_tasks {hS : Impartial S codec m} (h : (refinement hS root).Shown c x) (t : Task) :
    (c.task t = none → x.task t = none) ∧
      ∀ o, c.task t = some (.ret o) → o ≠ .panicked → x.task t = some (.ret o) := by
  refine ⟨fun hn => (hn ▸ h.task t).of_none.1, fun o ho hne => ?_⟩
  rcases (ho ▸ h.task t).of_ret h.inv with hfatal | ⟨hret, _⟩
  · exact absurd hfatal hne
  · exact hret

/-- What is so of the runs of `S` is so of the stores: where they come to, `S` comes
to, with the same ledger in memory, the same bytes in the file, and the same
programs returned. -/
theorem on_stores (hS : Impartial S codec m) (hd : Links d)
    (hfile : l.file = d.contents (ledgerPath root))
    (hr : (onStores S codec m root).Reach (.idle (.start l d)) c) :
    ∃ x, S.Reach (.idle l) x ∧ x.state.forget = c.state.seen root ∧
      ∀ t, (c.task t = none → x.task t = none) ∧
        ∀ o, c.task t = some (.ret o) → o ≠ .panicked → x.task t = some (.ret o) := by
  obtain ⟨x, hx, hshown⟩ := reach_shown hS hd hfile hr
  exact ⟨x, hx, hshown.state, same_tasks hshown⟩

end

/-! ## Recorded before it is sent, on the disk -/

section

variable {codec : Codec OutboundPaymentInfoStorage} {ldk : Ldk}

theorem writeAhead_impartial :
    Impartial (WriteAhead.system codec ldk) codec WriteAhead.manager where
  exec h := h
  start t p := by
    intro s l h
    cases t with
    | cli | events =>
        obtain ⟨hup, hp, rfl⟩ := h
        exact ⟨rfl, s, ⟨hup, hp, rfl⟩, rfl⟩
    | startup =>
        obtain ⟨hup, hp, rfl⟩ := h
        exact ⟨rfl, _, ⟨hup, hp, rfl⟩, rfl⟩
  finish t out := by
    intro s l h
    cases t with
    | cli | events | startup =>
        obtain ⟨hout, rfl⟩ := h
        exact ⟨rfl, _, ⟨hout, rfl⟩, rfl⟩
  env := nofun
  crash := by
    rintro s l rfl
    exact ⟨rfl, _, rfl, rfl⟩

/-- The ledger in the file, if there is one. -/
def StoresState.onDisk (codec : Codec OutboundPaymentInfoStorage) (root : String)
    (s : StoresState χ) : Option OutboundPaymentInfoStorage :=
  (s.disk.contents (ledgerPath root)).bind codec.decode

/-- What was ever handed to the `ChannelManager` has a record in the file on the
disk, whatever step of whatever call the node crashed at; and where startup
returns, that file holds the ledger in memory, which is the one found, reconciled. -/
theorem handed_on_stores {root : String} {d : Disk} (hd : Links d)
    {c : Config Task Locks.NodeAct Locks.NodeAct.Answer Outcome (StoresState WriteAhead.Node)}
    (hr : (onStores (WriteAhead.system codec ldk) codec WriteAhead.manager root).Reach
      (.idle (.start (WriteAhead.initial (d.contents (ledgerPath root))) d)) c) :
    (∀ id ∈ c.state.node.handed, ∃ l, c.state.onDisk codec root = some l ∧ l.Has id) ∧
      (c.task .startup = some (.ret .done) → c.state.onDisk codec root = some c.state.ledger ∧
        WriteAhead.Reconciled (readOutboundPaymentInfo codec c.state.node.boot) c.state.ledger
          c.state.node.recent) := by
  obtain ⟨x, hx, hshown⟩ := reach_shown writeAhead_impartial hd rfl hr
  have hnode : x.state.node = c.state.node := congrArg LedgerState.node hshown.state
  have hledger : x.state.ledger = c.state.ledger := congrArg LedgerState.ledger hshown.state
  have hfile : x.state.file = c.state.disk.contents (ledgerPath root) :=
    congrArg LedgerState.file hshown.state
  have hstart : (WriteAhead.outline codec ldk).Inv
      (.idle (WriteAhead.initial (d.contents (ledgerPath root)))) :=
    .init _ (WriteAhead.Ahead.initial _) fun t => ⟨nofun, rfl, rfl⟩
  have hi := (hstart.reach _ hx).1
  constructor
  · intro id hid
    obtain ⟨bytes, l, hb, hl, hhas⟩ :=
      WriteAhead.onFile_of_has (WriteAhead.Ahead.handed hi.state id (hnode ▸ hid))
    refine ⟨l, ?_, hhas⟩
    rw [StoresState.onDisk, ← hfile, hb]
    exact hl
  · intro hret
    have hs : WriteAhead.Started codec x.state :=
      ((same_tasks hshown .startup).2 _ hret nofun ▸ hi.task .startup).returned _ hi.state
    constructor
    · rw [StoresState.onDisk, ← hfile, hs.file, ← hledger]
      exact codec.decode_write _
    · rw [← hnode, ← hledger, hs.ledger]
      exact WriteAhead.reconciled_on _ _

end

/-! ## A run with a crash in a write -/

/-- No other task has a temporary file at all. -/
def alone (t : Task) (s : StoresState χ) : Bool :=
  [Task.cli, .events, .startup].all fun u => u = t ∨ s.own u = none

theorem tmpFree_of_alone {root : String} {t : Task} {a : Locks.NodeAct} {s : StoresState χ}
    (h : alone t s = true) : TmpFree root t a s := by
  have hnone : ∀ u, u ≠ t → s.own u = none := by
    intro u hut
    have hu := List.all_eq_true.mp h u (by cases u <;> decide)
    exact (of_decide_eq_true hu).resolve_left hut
  unfold TmpFree
  split
  · intro u hut
    rw [hnone u hut]
    nofun
  · exact trivial

def isWrite : LedgerAct → Bool
  | .write _ => true
  | _ => false

/-- The actions of `t`, executable, with those of the ledger given; no other write is
under way. -/
def play (ledger : Task → (a : LedgerAct) → LedgerState χ → Option (a.Answer × LedgerState χ))
    (t : Task) (a : Locks.NodeAct) (s : StoresState χ) : Option (a.Answer × StoresState χ) :=
  match a with
  | .outbound a =>
      if isWrite a then none
      else (ledger t a (s.seen "data")).map fun x => (x.1, s.put x.2)
  | .inbound _ => none
  | .store i a =>
      if alone t s then
        (storeStep a ⟨s.disk, s.memory i⟩).map fun x => (x.1, s.after t i a x.1 x.2)
      else none

theorem play_exec {S : LedgerSystem χ} {codec : Codec OutboundPaymentInfoStorage} {m : Manager χ}
    {ledger : Task → (a : LedgerAct) → LedgerState χ → Option (a.Answer × LedgerState χ)}
    {t : Task} (hledger : ∀ a s r s', ledger t a s = some (r, s') → ledgerExec codec m t a s r s')
    (a : Locks.NodeAct) (s : StoresState χ) (r : a.Answer) (s' : StoresState χ)
    (h : play ledger t a s = some (r, s')) : (onStores S codec m "data").exec t a s r s' := by
  cases a with
  | inbound a => exact nomatch h
  | outbound a =>
      simp only [play, Option.ite_none_left_eq_some] at h
      obtain ⟨hw, h⟩ := h
      have ha : ∀ bytes, a ≠ .write bytes := by
        rintro bytes rfl
        exact hw rfl
      obtain ⟨⟨r', l⟩, hl, heq⟩ := Option.map_eq_some_iff.mp h
      cases heq
      exact ⟨.outbound ha (hledger a _ _ _ hl), trivial⟩
  | store i a =>
      simp only [play, Option.ite_none_right_eq_some] at h
      obtain ⟨halone, h⟩ := h
      obtain ⟨⟨r', w⟩, hs, heq⟩ := Option.map_eq_some_iff.mp h
      cases heq
      exact ⟨.store hs, tmpFree_of_alone halone⟩

abbrev onData : System Task Locks.NodeAct Locks.NodeAct.Answer Outcome
    (StoresState WriteAhead.Node) :=
  onStores (WriteAhead.system OutboundPaymentInfoStorage.codec (.plain id))
    OutboundPaymentInfoStorage.codec
    WriteAhead.manager "data"

/-- One payment is sent; the node crashes while it writes the record of the next, and
starts again. -/
theorem run_crash : onData.Can (.idle (.start (WriteAhead.initial none) .fresh)) fun c =>
    (c.state.node.handed = [.filled 1] ∧ c.task .startup = some (.ret .done)) ∧
      (c.state.disk.dirs (.base "data")).now.keys =
        ["outbound_payments", "outbound_payments.1.tmp"] := by
  refine .step (.start (t := Task.startup) rfl ⟨_, _, ⟨rfl, rfl, rfl⟩, rfl, rfl⟩) ?_
  refine .acts (t := Task.startup) (play_exec WriteAhead.play_exec) 40 ?_
  refine .step (.finish (t := Task.startup) (x := .done) rfl
    ⟨by decide, _, ⟨by decide, rfl⟩, rfl⟩) ?_
  refine .step (.start (t := Task.cli) rfl ⟨_, _,
    ⟨rfl, ⟨.keysend ⟨Vector.replicate 33 2⟩ 1000 (Vector.replicate 32 1), rfl⟩, rfl⟩, rfl, rfl⟩) ?_
  refine .acts (t := Task.cli) (play_exec WriteAhead.play_exec) 40 ?_
  refine .step (.finish (t := Task.cli) (x := .initiated 1000 ⟨Vector.replicate 33 2⟩) rfl
    ⟨by decide, _, ⟨by decide, rfl⟩, rfl⟩) ?_
  refine .step (.start (t := Task.cli) rfl ⟨_, _,
    ⟨rfl, ⟨.keysend ⟨Vector.replicate 33 2⟩ 1000 (Vector.replicate 32 2), rfl⟩, rfl⟩, rfl, rfl⟩) ?_
  refine .acts (t := Task.cli) (play_exec WriteAhead.play_exec) 8 ?_
  refine .step (.crash ⟨_, rfl, rfl⟩) ?_
  refine .step (.start (t := Task.startup) rfl ⟨_, _, ⟨rfl, rfl, rfl⟩, rfl, rfl⟩) ?_
  refine .acts (t := Task.startup) (play_exec WriteAhead.play_exec) 40 ?_
  exact .here ⟨⟨rfl, rfl⟩, rfl⟩

theorem on_stores_crash : onData.Can (.idle (.start (WriteAhead.initial none) .fresh)) fun c =>
    (c.state.disk.dirs (.base "data")).now.keys =
        ["outbound_payments", "outbound_payments.1.tmp"] ∧
      ∃ x, (WriteAhead.system OutboundPaymentInfoStorage.codec (.plain id)).Reach
          (.idle (WriteAhead.initial none)) x ∧
        x.state.forget = c.state.seen "data" ∧
        ∀ t, (c.task t = none → x.task t = none) ∧
          ∀ o, c.task t = some (.ret o) → o ≠ .panicked → x.task t = some (.ret o) := by
  obtain ⟨c, hr, _, hkeys⟩ := run_crash
  exact ⟨c, hr, hkeys, on_stores writeAhead_impartial .fresh rfl hr⟩

theorem handed_on_stores_crash :
    onData.Can (.idle (.start (WriteAhead.initial none) .fresh)) fun c =>
    (c.state.node.handed = [.filled 1] ∧ c.task .startup = some (.ret .done)) ∧
      (∃ l, c.state.onDisk OutboundPaymentInfoStorage.codec "data" = some l ∧ l.Has (.filled 1)) ∧
      c.state.onDisk OutboundPaymentInfoStorage.codec "data" = some c.state.ledger := by
  obtain ⟨c, hr, hc, _⟩ := run_crash
  have h := handed_on_stores .fresh hr
  exact ⟨c, hr, hc, h.1 _ (by rw [hc.1]; exact .head _), (h.2 hc.2).1⟩

end OnStores

end LightningNode
