/-
# `LightningNode.Store.LockDiscipline` — the locks of the paths, while they are collected

Any number of calls on one store, their steps in any order, the calls of the
operating system failing at will and the disk changed by others.  Beside the
store stands what each call has taken and not given back (`Hold`), read off
the actions it performed.  `Hold.permits` is the discipline: a path is renamed
to or unlinked under the write guard of its lock, a file is opened and read under
the read guard of its own.

The invariant ties table, counts and guards to the holdings.  A lock somebody
has a clone of is in the table, at the path it was asked for; the count of its
clones is at least the number of those who have one, which is why a collection
leaves it where it is.
-/
import LightningNode.Lib.Typestate
import LightningNode.Store.Steps
import Mathlib.Data.Finset.Card

namespace LightningNode

open Conc StoreProg FilesystemStore

/-! ## What a call holds -/

inductive Guard where
  | read
  | write
  deriving DecidableEq

/-- The clone of a lock with the path it was asked for, the guard on it, and the
path of the file opened last. -/
structure Hold where
  clone : Option (PathBuf × LockRef)
  guard : Option Guard
  file : Option PathBuf
  deriving DecidableEq

namespace Hold

def none : Hold := ⟨.none, .none, .none⟩

def after (h : Hold) : (a : StoreAct) → a.Answer → Hold
  | .cloneLock path, r => { h with clone := some (path, r) }
  | .readLock _, _ => { h with guard := some .read }
  | .writeLock _, _ => { h with guard := some .write }
  | .unlockRead _, _ | .unlockWrite _, _ => { h with guard := .none }
  | .dropLock _, _ => { h with clone := .none }
  | .disk (.openRead p), .ok _ => { h with file := some p }
  | .disk (.readToEnd _), _ | .disk (.syncAll _), _ => { h with file := .none }
  | _, _ => h

/-- The lock of `path`, held through `r` under the guard `g`. -/
def Guards (h : Hold) (g : Guard) (path : PathBuf) (r : LockRef) : Prop :=
  h.clone = some (path, r) ∧ h.guard = some g

def permits (h : Hold) : StoreAct → Prop
  | .cloneLock _ => h = none
  | .readLock r | .writeLock r => ∃ path, h = ⟨some (path, r), .none, .none⟩
  | .unlockRead r => ∃ path, h = ⟨some (path, r), some .read, .none⟩
  | .unlockWrite r => ∃ path, h = ⟨some (path, r), some .write, .none⟩
  | .dropLock r => ∃ path, h = ⟨some (path, r), .none, .none⟩
  | .disk (.rename _ path) | .disk (.removeFile path) => ∃ r, h.Guards .write path r
  | .disk (.openRead path) => (∃ r, h.Guards .read path r) ∨ ∃ dest r, h.Guards .write dest r
  | .disk (.readToEnd _) => ∃ path r, h.Guards .read path r ∧ h.file = some path
  | _ => True

/-- A call of the operating system leaves the locks alone. -/
theorem after_disk (h : Hold) (x : DiskAct) (r : Except ErrorKind x.Out) :
    (h.after (.disk x) r).clone = h.clone ∧ (h.after (.disk x) r).guard = h.guard := by
  cases x with
  | openRead p =>
      cases r with
      | ok f => exact ⟨rfl, rfl⟩
      | error e => exact ⟨rfl, rfl⟩
  | _ => exact ⟨rfl, rfl⟩

end Hold

/-- The discipline of the locks. -/
def locking : Typestate StoreAct StoreAct.Answer Hold where
  permits := Hold.permits
  answers _ _ _ := True
  after := Hold.after

/-! ## Every call keeps to it -/

section

variable {α β : Type} {h : Hold}

theorem follows_andThen {p : StoreProg (Res α)} {f : α → StoreProg (Res β)}
    {Q : Res β → Hold → Prop} (h' : Hold) (hp : locking.Follows (fun _ h₁ => h₁ = h') p h)
    (he : ∀ e, Q (.error e) h') (hf : ∀ x, locking.Follows Q (f x) h') :
    locking.Follows Q (p.andThen f) h := by
  rw [andThen_eq]
  exact hp.andThen h' he hf

/-- Neither a lock nor a file is touched. -/
def StoreAct.Unlocked : StoreAct → Prop
  | .disk x => OutsideLock x
  | .fetchAddTmp | .fetchAddGc | .retainLocks => True
  | _ => False

theorem StoreAct.Unlocked.permits {a : StoreAct} (ha : a.Unlocked) (h : Hold) :
    h.permits a := by
  cases a with
  | disk x =>
      cases x with
      | openRead _ | readToEnd _ | rename _ _ | removeFile _ => exact ha.elim
      | _ => trivial
  | fetchAddTmp | fetchAddGc | retainLocks => trivial
  | _ => exact ha.elim

theorem StoreAct.Unlocked.after {a : StoreAct} (ha : a.Unlocked) (r : a.Answer) :
    Hold.none.after a r = Hold.none := by
  cases a with
  | disk x =>
      cases x with
      | openRead _ | readToEnd _ | rename _ _ | removeFile _ => exact ha.elim
      | _ => rfl
  | fetchAddTmp | fetchAddGc | retainLocks => rfl
  | _ => exact ha.elim

/-- A part of a call that touches neither. -/
theorem follows_unlocked {p : StoreProg α} (hp : p.Every StoreAct.Unlocked) :
    locking.Follows (fun _ h => h = .none) p .none := by
  induction p with
  | ret x => exact rfl
  | act a k ih =>
      refine .act (hp.1.permits _) fun r _ => ?_
      rw [show locking.after _ a r = Hold.none from hp.1.after r]
      exact ih r (hp.2 r)

theorem every_collected (x : α) : (collected x).Every StoreAct.Unlocked := by
  have hgc : garbageCollectLocks.Every StoreAct.Unlocked := by
    refine ⟨trivial, fun n => ?_⟩
    show Prog.Every _ (if n % 25 = 0 then act .retainLocks else pure ())
    split
    · exact ⟨trivial, fun _ => trivial⟩
    · exact trivial
  show Prog.Every _ (garbageCollectLocks >>= fun _ => pure (Except.ok x))
  refine Prog.Every.bind (fun _ => ?_) hgc
  exact trivial

theorem every_listIn (q : PathBuf) : (listIn q).Every StoreAct.Unlocked := by
  refine ⟨trivial, fun r => ?_⟩
  cases r with
  | error e => exact trivial
  | ok x =>
      refine every_andThen (every_os (by trivial)) fun ps => ?_
      exact every_andThen (every_listEntries (fun _ h => h) q ps) fun _ => every_collected _

/-- The two ways to take a lock, with the guard they give. -/
inductive OfLock : (LockRef → StoreAct) → (LockRef → StoreAct) → Guard → Prop
  | read : OfLock .readLock .unlockRead .read
  | write : OfLock .writeLock .unlockWrite .write

/-- A lock is taken around `body`, which gives back the guard as it found it. -/
theorem follows_withLock {body : StoreProg α} {lock unlock : LockRef → StoreAct} {g : Guard}
    {path : PathBuf} (hlock : OfLock lock unlock g)
    (hbody : ∀ r, locking.Follows (fun _ h => h = ⟨some (path, r), some g, none⟩) body
      ⟨some (path, r), some g, none⟩) :
    locking.Follows (fun _ h => h = .none) (withLock lock unlock path body) .none := by
  -- what comes after the lock was taken
  have hrest : ∀ r, locking.permits ⟨some (path, r), some g, none⟩ (unlock r) →
      (∀ x, locking.after ⟨some (path, r), some g, none⟩ (unlock r) x =
        ⟨some (path, r), none, none⟩) →
      locking.Follows (fun _ h => h = .none)
        (body >>= fun x => act (unlock r) >>= fun _ => act (.dropLock r) >>= fun _ => pure x)
        ⟨some (path, r), some g, none⟩ := by
    intro r hpermits hafter
    refine .bind ?_ (hbody r)
    rintro x _ rfl
    refine .act hpermits fun answer _ => ?_
    rw [hafter answer]
    exact .act ⟨path, rfl⟩ fun _ _ => rfl
  refine .act rfl fun r _ => ?_
  cases hlock with
  | read => exact .act ⟨path, rfl⟩ fun _ _ => hrest r ⟨path, rfl⟩ fun _ => rfl
  | write => exact .act ⟨path, rfl⟩ fun _ _ => hrest r ⟨path, rfl⟩ fun _ => rfl

theorem follows_withLock_collected {body : StoreProg (Res α)} {lock unlock : LockRef → StoreAct}
    {g : Guard} {path : PathBuf} (hlock : OfLock lock unlock g)
    (hbody : ∀ r, locking.Follows (fun _ h => h = ⟨some (path, r), some g, none⟩) body
      ⟨some (path, r), some g, none⟩) :
    locking.Follows (fun _ h => h = .none)
      ((withLock lock unlock path body).andThen collected) .none :=
  follows_andThen .none (follows_withLock hlock hbody) (fun _ => rfl) fun x =>
    follows_unlocked (every_collected x)

variable {path : PathBuf} {r : LockRef}

theorem follows_openRead :
    locking.Follows (fun _ h => h = ⟨some (path, r), some .read, none⟩)
      ((os (.openRead path)).andThen fun f => os (.readToEnd f))
      ⟨some (path, r), some .read, none⟩ := by
  refine .act (.inl ⟨r, rfl, rfl⟩) fun answer _ => ?_
  cases answer with
  | error e => exact rfl
  | ok f =>
      refine .act ⟨path, r, ⟨rfl, rfl⟩, rfl⟩ fun answer _ => ?_
      cases answer with
      | ok bytes => exact rfl
      | error e => exact rfl

theorem follows_syncDir (q : PathBuf) :
    locking.Follows (fun _ h => h = ⟨some (path, r), some .write, none⟩) (syncDir q)
      ⟨some (path, r), some .write, none⟩ := by
  refine .act (.inr ⟨path, r, rfl, rfl⟩) fun answer _ => ?_
  cases answer with
  | error e => exact rfl
  | ok f =>
      refine .act trivial fun answer _ => ?_
      cases answer with
      | ok _ => exact rfl
      | error e => exact rfl

/-- A call of the operating system that changes the path of the lock. -/
theorem follows_change {x : DiskAct} (hx : (∃ tmp, x = .rename tmp path) ∨ x = .removeFile path) :
    locking.Follows (fun _ h => h = ⟨some (path, r), some .write, none⟩) (os x)
      ⟨some (path, r), some .write, none⟩ := by
  rcases hx with ⟨tmp, rfl⟩ | rfl
  · refine .act ⟨r, rfl, rfl⟩ fun answer _ => ?_
    cases answer with
    | ok _ => exact rfl
    | error e => exact rfl
  · refine .act ⟨r, rfl, rfl⟩ fun answer _ => ?_
    cases answer with
    | ok _ => exact rfl
    | error e => exact rfl

theorem follows_unlink (q : PathBuf) (k : String) (lazily : Bool) (r : LockRef) :
    locking.Follows (fun _ h => h = ⟨some (.join q k, r), some .write, none⟩)
      (unlink q k lazily) ⟨some (.join q k, r), some .write, none⟩ := by
  cases lazily with
  | true => exact follows_change (.inr rfl)
  | false =>
      exact follows_andThen _ (follows_change (.inr rfl)) (fun _ => rfl) fun _ => follows_syncDir q

/-- Every call, whatever its arguments. -/
theorem follows_program (dataDir : PathBuf) (c : Call) :
    locking.Follows (fun _ h => h = .none) (c.program dataDir) .none := by
  by_cases ha : c.Accepted
  · rw [Call.program_accepted dataDir ha]
    have hret : ∀ {β : Type} (f : β → Reply) (p : StoreProg β),
        locking.Follows (fun _ h => h = .none) p .none →
        locking.Follows (fun _ h => h = .none) (p >>= fun x => pure (f x)) .none := by
      intro β f p hp
      refine .bind ?_ hp
      rintro x _ rfl
      exact rfl
    cases c with
    | read p s k =>
        exact hret _ _ (follows_withLock_collected .read fun _ => follows_openRead)
    | write p s k buf =>
        have hdirs := follows_unlocked (every_createDirAll (fun _ h => h) (getDestDirPath dataDir p s))
        refine hret _ _ (follows_andThen .none hdirs (fun _ => rfl) ?_)
        refine fun _ => .act trivial fun n _ => ?_
        have htmp := follows_unlocked
          (every_writeTmp (fun _ h => h) (.join (getDestDirPath dataDir p s) (tmpName k n)) buf)
        refine follows_andThen .none htmp (fun _ => rfl) fun _ => ?_
        refine follows_withLock_collected .write fun r => ?_
        refine follows_andThen _ (follows_change (.inl ⟨_, rfl⟩)) (fun _ => rfl) ?_
        exact fun _ => follows_syncDir _
    | remove p s k lazily =>
        refine hret _ _ (.act trivial fun answer _ => ?_)
        cases answer with
        | error e => exact rfl
        | ok x =>
            cases x with
            | dir => exact rfl
            | file i => exact follows_withLock_collected .write fun r => follows_unlink _ k lazily r
    | list p s => exact hret _ _ (follows_unlocked (every_listIn _))
  · obtain ⟨r, _, hr⟩ := Call.program_rejected dataDir ha
    rw [hr]
    exact rfl

end

/-! ## The system -/

/-- The disk and the memory of a store, and what each call holds. -/
structure Crowd (T : Type) where
  world : World
  hold : T → Hold

namespace Crowd

variable {T : Type}

abbrev memory (s : Crowd T) : StoreMemory := s.world.memory

/-- A new store on the disk `d`. -/
def start (d : Disk) : Crowd T := ⟨⟨d, .new⟩, fun _ => .none⟩

end Crowd

variable {T : Type} [DecidableEq T]

/-- An action of the task `t` is performed, or fails. -/
inductive CrowdExec (t : T) : (a : StoreAct) → Crowd T → a.Answer → Crowd T → Prop
  | done {a : StoreAct} {s : Crowd T} {r : a.Answer} {w : World} :
      storeStep a s.world = some (r, w) →
      CrowdExec t a s r ⟨w, Function.update s.hold t ((s.hold t).after a r)⟩
  | fault {x : DiskAct} {s : Crowd T} {e : ErrorKind} {d : Disk} : x.Fault s.world.disk d →
      CrowdExec t (.disk x) s (.error e) ⟨{ s.world with disk := d },
        Function.update s.hold t ((s.hold t).after (.disk x) (.error e))⟩

/-- Any calls on one store; a crash leaves any disk, and a new store on it. -/
def lockedStore (T : Type) [DecidableEq T] (dataDir : PathBuf) :
    System T StoreAct StoreAct.Answer Reply (Crowd T) where
  exec := CrowdExec
  start _ s p s' := (∃ c : Call, p = c.program dataDir) ∧ s' = s
  finish _ _ s s' := s' = s
  env s s' := ∃ d, s' = { s with world := { s.world with disk := d } }
  crash _ s' := ∃ d, s' = .start d

/-! ## The invariant -/

/-- The table of the locks, their counts and their guards, against the holdings. -/
structure Tied (m : StoreMemory) (hold : T → Hold) : Prop where
  table : ∀ t path r, (hold t).clone = some (path, r) → m.locks.lookup path = some r
  fresh : ∀ path r, m.locks.lookup path = some r → r < m.nextLock
  counted : ∀ r, Typestate.AtMost (fun t => ∃ path, (hold t).clone = some (path, r)) (m.clones r)
  readers : ∀ r, Typestate.AtMost (fun t => ∃ path, (hold t).Guards .read path r) (m.held r).readers
  writer : ∀ t path r, (hold t).Guards .write path r → (m.held r).writer = true
  alone : ∀ t u path path' r g, t ≠ u → (hold t).Guards .write path r →
    ¬ (hold u).Guards g path' r

omit [DecidableEq T] in
theorem tied_new : Tied .new fun _ : T => Hold.none where
  table t path r h := nomatch h
  fresh path r h := by
    rw [StoreMemory.new, AList.lookup_empty] at h
    cases h
  counted r := .of_none fun u hu => by
    obtain ⟨path, h⟩ := hu
    cases h
  readers r := .of_none fun u hu => by
    obtain ⟨path, h, _⟩ := hu
    cases h
  writer t path r h := nomatch h.1
  alone t u path path' r g _ h := nomatch h.1

section

variable {hold : T → Hold} {t u : T} {h : Hold} {p : PathBuf} {r : LockRef}

theorem clone_cases (hu : (Function.update hold t h u).clone = some (p, r)) :
    (u = t ∧ h.clone = some (p, r)) ∨ (u ≠ t ∧ (hold u).clone = some (p, r)) :=
  Typestate.update_cases (P := fun h : Hold => h.clone = some (p, r)) hu

theorem guards_cases {g : Guard} (hu : (Function.update hold t h u).Guards g p r) :
    (u = t ∧ h.Guards g p r) ∨ (u ≠ t ∧ (hold u).Guards g p r) :=
  Typestate.update_cases (P := fun h : Hold => h.Guards g p r) hu

end

namespace Tied

variable {m : StoreMemory} {hold : T → Hold} {t : T} {path : PathBuf} {r : LockRef}

/-- An action that leaves clones and guards alone. -/
theorem same (h : Tied m hold) {m' : StoreMemory} {h' : Hold}
    (hm : m'.locks = m.locks ∧ m'.held = m.held ∧ m'.clones = m.clones ∧ m'.nextLock = m.nextLock)
    (hh : h'.clone = (hold t).clone ∧ h'.guard = (hold t).guard) :
    Tied m' (Function.update hold t h') := by
  have hclone : ∀ u, (Function.update hold t h' u).clone = (hold u).clone := by
    intro u
    rcases eq_or_ne u t with rfl | hu
    · rw [Function.update_self, hh.1]
    · rw [Function.update_of_ne hu]
  have hguard : ∀ u g p r, (Function.update hold t h' u).Guards g p r ↔ (hold u).Guards g p r := by
    intro u g p r
    rcases eq_or_ne u t with rfl | hu
    · rw [Function.update_self, Hold.Guards, Hold.Guards, hh.1, hh.2]
    · rw [Function.update_of_ne hu]
  obtain ⟨hlocks, hheld, hclones, hnext⟩ := hm
  constructor
  · intro u p r hu
    rw [hlocks]
    exact h.table u p r (hclone u ▸ hu)
  · intro p r hp
    rw [hnext]
    exact h.fresh p r (hlocks ▸ hp)
  · intro r
    simp only [hclone, hclones]
    exact h.counted r
  · intro r
    simp only [hguard, hheld]
    exact h.readers r
  · intro u p r hu
    rw [hheld]
    exact h.writer u p r ((hguard ..).mp hu)
  · intro u v p p' r g huv hu hv
    exact h.alone u v p p' r g huv ((hguard ..).mp hu) ((hguard ..).mp hv)

/-- With a new clone, no guard is new. -/
theorem guards_clone {u : T} {g : Guard} {p : PathBuf} {r' : LockRef}
    (hu : (Function.update hold t ⟨some (path, r'), none, none⟩ u).Guards g p r) :
    (hold u).Guards g p r := by
  rcases guards_cases hu with ⟨_, h⟩ | ⟨_, h⟩
  · cases h.2
  · exact h

/-- Nor is there a new clone of another lock. -/
theorem clone_other {u : T} {p : PathBuf} {r' : LockRef} (hr : r' ≠ r)
    (hu : (Function.update hold t ⟨some (path, r), none, none⟩ u).clone = some (p, r')) :
    (hold u).clone = some (p, r') := by
  rcases clone_cases hu with ⟨_, hc⟩ | ⟨_, hc⟩
  · cases hc
    exact absurd rfl hr
  · exact hc

/-- A lock is looked up and cloned. -/
theorem cloneLock_there (h : Tied m hold) (hl : m.locks.lookup path = some r) :
    Tied (m.setClones r (m.clones r + 1))
      (Function.update hold t ⟨some (path, r), none, none⟩) := by
  constructor
  · intro u p r' hu
    rcases clone_cases hu with ⟨_, hc⟩ | ⟨_, hc⟩
    · cases hc
      exact hl
    · exact h.table u p r' hc
  · exact h.fresh
  · intro r'
    rcases eq_or_ne r' r with rfl | hr
    · simp only [StoreMemory.setClones, Function.update_self]
      refine (h.counted r').add (t := t) fun u hu hne => ?_
      rwa [Function.update_of_ne hne] at hu
    · simp only [StoreMemory.setClones, Function.update_of_ne hr]
      refine (h.counted r').mono ?_
      rintro u ⟨p, hu⟩
      exact ⟨p, clone_other hr hu⟩
  · intro r'
    refine (h.readers r').mono ?_
    rintro u ⟨p, hu⟩
    exact ⟨p, guards_clone hu⟩
  · exact fun u p r' hu => h.writer u p r' (guards_clone hu)
  · intro u v p p' r' g huv hu hv
    exact h.alone u v p p' r' g huv (guards_clone hu) (guards_clone hv)

/-- A lock is made and cloned. -/
theorem cloneLock_new (h : Tied m hold) (hl : m.locks.lookup path = none) :
    Tied { m with
        locks := m.locks.insert path m.nextLock
        held := Function.update m.held m.nextLock ⟨0, false⟩
        clones := Function.update m.clones m.nextLock 1
        nextLock := m.nextLock + 1 }
      (Function.update hold t ⟨some (path, m.nextLock), none, none⟩) := by
  -- nobody has a clone of a lock not made yet
  have hnobody : ∀ {u p r}, (hold u).clone = some (p, r) → r ≠ m.nextLock := by
    intro u p r hu
    exact (h.fresh p r (h.table u p r hu)).ne
  constructor
  · intro u p r' hu
    rcases clone_cases hu with ⟨_, hc⟩ | ⟨_, hc⟩
    · cases hc
      exact AList.lookup_insert m.locks
    · have hp := h.table u p r' hc
      have hne : p ≠ path := by
        rintro rfl
        exact nomatch hl.symm.trans hp
      exact (AList.lookup_insert_ne hne).trans hp
  · intro p r' hp
    show r' < m.nextLock + 1
    rcases eq_or_ne p path with rfl | hne
    · have hp' : some m.nextLock = some r' := (AList.lookup_insert m.locks).symm.trans hp
      cases hp'
      exact Nat.lt_succ_self _
    · exact Nat.lt_succ_of_lt (h.fresh p r' ((AList.lookup_insert_ne hne).symm.trans hp))
  · intro r'
    rcases eq_or_ne r' m.nextLock with rfl | hr
    · simp only [Function.update_self]
      refine (Typestate.AtMost.of_none (P := fun _ => False) (n := 0) fun _ => id).add (t := t) ?_
      rintro u ⟨p, hu⟩ hne
      rw [Function.update_of_ne hne] at hu
      exact hnobody hu rfl
    · simp only [Function.update_of_ne hr]
      refine (h.counted r').mono ?_
      rintro u ⟨p, hu⟩
      exact ⟨p, clone_other hr hu⟩
  · intro r'
    rcases eq_or_ne r' m.nextLock with rfl | hr
    · refine .of_none ?_
      rintro u ⟨p, hu⟩
      exact hnobody (guards_clone hu).1 rfl
    · simp only [Function.update_of_ne hr]
      refine (h.readers r').mono ?_
      rintro u ⟨p, hu⟩
      exact ⟨p, guards_clone hu⟩
  · intro u p r' hu
    have hr := hnobody (guards_clone hu).1
    simp only [Function.update_of_ne hr]
    exact h.writer u p r' (guards_clone hu)
  · intro u v p p' r' g huv hu hv
    exact h.alone u v p p' r' g huv (guards_clone hu) (guards_clone hv)

/-- `entry(path).or_default()`, cloned. -/
theorem cloneLock (h : Tied m hold) :
    Tied (m.cloneLock path).2
      (Function.update hold t ⟨some (path, (m.cloneLock path).1), none, none⟩) := by
  cases hl : m.locks.lookup path with
  | some r =>
      rw [StoreMemory.cloneLock_there hl]
      exact h.cloneLock_there hl
  | none =>
      rw [StoreMemory.cloneLock_new hl]
      exact h.cloneLock_new hl

/-- A guard is taken or given back: the clones stay as they are. -/
theorem setLock (h : Tied m hold) {g : Option Guard} {l : RwLock}
    (ht : (hold t).clone = some (path, r))
    (hreaders : Typestate.AtMost
      (fun u => ∃ p, (Function.update hold t ⟨some (path, r), g, none⟩ u).Guards .read p r)
      l.readers)
    (hwriter : ∀ u p, (Function.update hold t ⟨some (path, r), g, none⟩ u).Guards .write p r →
      l.writer = true)
    (halone : ∀ u v p p' g', u ≠ v →
      (Function.update hold t ⟨some (path, r), g, none⟩ u).Guards .write p r →
      ¬ (Function.update hold t ⟨some (path, r), g, none⟩ v).Guards g' p' r) :
    Tied (m.setLock r l) (Function.update hold t ⟨some (path, r), g, none⟩) := by
  have hclone : ∀ u,
      (Function.update hold t ⟨some (path, r), g, none⟩ u).clone = (hold u).clone := by
    intro u
    rcases eq_or_ne u t with rfl | hu
    · rw [Function.update_self, ht]
    · rw [Function.update_of_ne hu]
  -- the guards on the other locks stay too
  have hguards : ∀ {u g' p r'}, r' ≠ r →
      (Function.update hold t ⟨some (path, r), g, none⟩ u).Guards g' p r' →
      (hold u).Guards g' p r' := by
    intro u g' p r' hr hu
    rcases guards_cases hu with ⟨_, hg⟩ | ⟨_, hg⟩
    · obtain ⟨hc, _⟩ := hg
      cases hc
      exact absurd rfl hr
    · exact hg
  constructor
  · intro u p r' hu
    exact h.table u p r' (hclone u ▸ hu)
  · exact h.fresh
  · intro r'
    simp only [hclone]
    exact h.counted r'
  · intro r'
    rcases eq_or_ne r' r with rfl | hr
    · simpa only [StoreMemory.setLock, Function.update_self] using hreaders
    · simp only [StoreMemory.setLock, Function.update_of_ne hr]
      refine (h.readers r').mono ?_
      rintro u ⟨p, hu⟩
      exact ⟨p, hguards hr hu⟩
  · intro u p r' hu
    rcases eq_or_ne r' r with rfl | hr
    · simpa only [StoreMemory.setLock, Function.update_self] using hwriter u p hu
    · simp only [StoreMemory.setLock, Function.update_of_ne hr]
      exact h.writer u p r' (hguards hr hu)
  · intro u v p p' r' g' huv hu
    rcases eq_or_ne r' r with rfl | hr
    · exact halone u v p p' g' huv hu
    · exact fun hv => h.alone u v p p' r' g' huv (hguards hr hu) (hguards hr hv)

/-- Of those without a guard on `r`, none is the one who gets it. -/
theorem other {g : Option Guard} {u : T} {g' : Guard} {p : PathBuf}
    (hu : (Function.update hold t ⟨some (path, r), g, none⟩ u).Guards g' p r) :
    (u = t ∧ g = some g') ∨ (u ≠ t ∧ (hold u).Guards g' p r) := by
  rcases guards_cases hu with ⟨hut, hg⟩ | hg
  · exact .inl ⟨hut, hg.2⟩
  · exact .inr hg

theorem readLock (h : Tied m hold) (ht : hold t = ⟨some (path, r), none, none⟩)
    (hw : (m.held r).writer = false) :
    Tied (m.setLock r { m.held r with readers := (m.held r).readers + 1 })
      (Function.update hold t ⟨some (path, r), some .read, none⟩) := by
  have hnone : ∀ u p, ¬ (hold u).Guards .write p r := by
    intro u p hu
    exact absurd (h.writer u p r hu) (by simp [hw])
  refine h.setLock (by rw [ht]) ?_ ?_ ?_
  · refine (h.readers r).add (t := t) ?_
    rintro u ⟨p, hu⟩ hne
    rcases other hu with ⟨hut, _⟩ | ⟨_, hu⟩
    · exact absurd hut hne
    · exact ⟨p, hu⟩
  · intro u p hu
    rcases other hu with ⟨_, hg⟩ | ⟨_, hu⟩
    · cases hg
    · exact absurd hu (hnone u p)
  · intro u v p p' g' _ hu
    rcases other hu with ⟨_, hg⟩ | ⟨_, hu⟩
    · cases hg
    · exact absurd hu (hnone u p)

theorem writeLock (h : Tied m hold) (ht : hold t = ⟨some (path, r), none, none⟩)
    (hw : (m.held r).writer = false) (hr : (m.held r).readers = 0) :
    Tied (m.setLock r { m.held r with writer := true })
      (Function.update hold t ⟨some (path, r), some .write, none⟩) := by
  have hnone : ∀ u p g, ¬ (hold u).Guards g p r := by
    intro u p g hu
    cases g with
    | read => exact absurd ((h.readers r).pos ⟨p, hu⟩) (by omega)
    | write => exact absurd (h.writer u p r hu) (by simp [hw])
  refine h.setLock (by rw [ht]) (.of_none ?_) (fun _ _ _ => rfl) ?_
  · rintro u ⟨p, hu⟩
    rcases other hu with ⟨_, hg⟩ | ⟨_, hu⟩
    · cases hg
    · exact hnone u p _ hu
  · intro u v p p' g' huv hu hv
    rcases other hu with ⟨rfl, _⟩ | ⟨_, hu⟩
    · rcases other hv with ⟨rfl, _⟩ | ⟨_, hv⟩
      · exact huv rfl
      · exact hnone v p' g' hv
    · exact hnone u p _ hu

theorem unlockRead (h : Tied m hold) (ht : hold t = ⟨some (path, r), some .read, none⟩) :
    Tied (m.setLock r { m.held r with readers := (m.held r).readers - 1 })
      (Function.update hold t ⟨some (path, r), none, none⟩) := by
  have hrest : ∀ {u g p}, (Function.update hold t ⟨some (path, r), none, none⟩ u).Guards g p r →
      u ≠ t ∧ (hold u).Guards g p r := by
    intro u g p hu
    rcases other hu with ⟨_, hg⟩ | hu
    · cases hg
    · exact hu
  refine h.setLock (by rw [ht]) ?_ ?_ ?_
  · refine (h.readers r).remove (t := t) ⟨path, by rw [ht]; exact ⟨rfl, rfl⟩⟩ ?_
    rintro u ⟨p, hu⟩
    exact ⟨⟨p, (hrest hu).2⟩, (hrest hu).1⟩
  · exact fun u p hu => h.writer u p r (hrest hu).2
  · exact fun u v p p' g' huv hu hv => h.alone u v p p' r g' huv (hrest hu).2 (hrest hv).2

theorem unlockWrite (h : Tied m hold) (ht : hold t = ⟨some (path, r), some .write, none⟩) :
    Tied (m.setLock r { m.held r with writer := false })
      (Function.update hold t ⟨some (path, r), none, none⟩) := by
  have hguard : (hold t).Guards .write path r := by
    rw [ht]
    exact ⟨rfl, rfl⟩
  -- the guard given back was the only one
  have hnone : ∀ {u g p},
      ¬ (Function.update hold t ⟨some (path, r), none, none⟩ u).Guards g p r := by
    intro u g p hu
    rcases other hu with ⟨_, hg⟩ | ⟨hne, hu⟩
    · cases hg
    · exact h.alone t u path p r g hne.symm hguard hu
  refine h.setLock (by rw [ht]) (.of_none ?_) ?_ ?_
  · rintro u ⟨p, hu⟩
    exact hnone hu
  · exact fun u p hu => absurd hu hnone
  · exact fun u v p p' g' _ hu => absurd hu hnone

/-- A clone goes out of scope. -/
theorem dropLock (h : Tied m hold) (ht : hold t = ⟨some (path, r), none, none⟩) :
    Tied (m.setClones r (m.clones r - 1)) (Function.update hold t .none) := by
  have hclone : ∀ {u p r'}, (Function.update hold t .none u).clone = some (p, r') →
      u ≠ t ∧ (hold u).clone = some (p, r') := by
    intro u p r' hu
    rcases clone_cases hu with ⟨_, hc⟩ | hc
    · cases hc
    · exact hc
  have hguards : ∀ {u g p r'}, (Function.update hold t .none u).Guards g p r' →
      (hold u).Guards g p r' := by
    intro u g p r' hu
    rcases guards_cases hu with ⟨_, hc⟩ | ⟨_, hc⟩
    · cases hc.2
    · exact hc
  constructor
  · exact fun u p r' hu => h.table u p r' (hclone hu).2
  · exact h.fresh
  · intro r'
    rcases eq_or_ne r' r with rfl | hr
    · simp only [StoreMemory.setClones, Function.update_self]
      refine (h.counted r').remove (t := t) ⟨path, by rw [ht]⟩ ?_
      rintro u ⟨p, hu⟩
      exact ⟨⟨p, (hclone hu).2⟩, (hclone hu).1⟩
    · simp only [StoreMemory.setClones, Function.update_of_ne hr]
      refine (h.counted r').mono ?_
      rintro u ⟨p, hu⟩
      exact ⟨p, (hclone hu).2⟩
  · intro r'
    refine (h.readers r').mono ?_
    rintro u ⟨p, hu⟩
    exact ⟨p, hguards hu⟩
  · exact fun u p r' hu => h.writer u p r' (hguards hu)
  · exact fun u v p p' r' g huv hu hv => h.alone u v p p' r' g huv (hguards hu) (hguards hv)

omit [DecidableEq T] in
/-- A collection takes no lock out of the table that anybody has a clone of. -/
theorem retainLocks (h : Tied m hold) : Tied m.retainLocks hold := by
  have hmem : ∀ {p r}, m.retainLocks.locks.lookup p = some r ↔
      m.locks.lookup p = some r ∧ 0 < m.clones r := by
    intro p r
    have hold := AList.mem_lookup_iff (a := p) (b := r) (s := m.locks)
    have hnew := AList.mem_lookup_iff (a := p) (b := r) (s := m.retainLocks.locks)
    rw [Option.mem_def] at hold hnew
    rw [hold, hnew]
    show _ ∈ m.locks.entries.filter _ ↔ _
    rw [List.mem_filter, decide_eq_true_iff]
  constructor
  · intro u p r hu
    exact hmem.mpr ⟨h.table u p r hu, (h.counted r).pos ⟨p, hu⟩⟩
  · exact fun p r hp => h.fresh p r (hmem.mp hp).1
  · exact h.counted
  · exact h.readers
  · exact h.writer
  · exact h.alone

theorem onDisk (h : Tied m hold) (x : DiskAct) (r : Except ErrorKind x.Out) :
    Tied m (Function.update hold t ((hold t).after (.disk x) r)) :=
  h.same ⟨rfl, rfl, rfl, rfl⟩ ((hold t).after_disk x r)

/-- A permitted action keeps table, counts and guards as they are to be. -/
theorem step {w w' : World} {a : StoreAct} {r : a.Answer} (h : Tied w.memory hold)
    (hs : storeStep a w = some (r, w')) (hp : (hold t).permits a) :
    Tied w'.memory (Function.update hold t ((hold t).after a r)) := by
  cases a with
  | disk x =>
      cases hs
      exact h.onDisk x _
  | fetchAddTmp =>
      cases hs
      exact h.same ⟨rfl, rfl, rfl, rfl⟩ ⟨rfl, rfl⟩
  | fetchAddGc =>
      cases hs
      exact h.same ⟨rfl, rfl, rfl, rfl⟩ ⟨rfl, rfl⟩
  | retainLocks =>
      cases hs
      exact h.retainLocks.same ⟨rfl, rfl, rfl, rfl⟩ ⟨rfl, rfl⟩
  | cloneLock path =>
      cases hs
      have hnone : hold t = .none := hp
      rw [hnone]
      exact h.cloneLock
  | readLock l =>
      obtain ⟨path, ht⟩ := hp
      simp only [storeStep] at hs
      split at hs <;> cases hs
      rename_i hw
      rw [ht]
      exact h.readLock ht (by simpa using hw)
  | writeLock l =>
      obtain ⟨path, ht⟩ := hp
      simp only [storeStep] at hs
      split at hs <;> cases hs
      rename_i hw
      rw [ht]
      rw [not_or] at hw
      exact h.writeLock ht (by simpa using hw.1) (Nat.eq_zero_of_not_pos hw.2)
  | unlockRead l =>
      obtain ⟨path, ht⟩ := hp
      cases hs
      rw [ht]
      exact h.unlockRead ht
  | unlockWrite l =>
      obtain ⟨path, ht⟩ := hp
      cases hs
      rw [ht]
      exact h.unlockWrite ht
  | dropLock l =>
      obtain ⟨path, ht⟩ := hp
      cases hs
      rw [ht]
      exact h.dropLock ht

end Tied

/-! ## Nobody waits for ever -/

/-- Every guard that is taken is somebody's. -/
structure Manned (m : StoreMemory) (hold : T → Hold) : Prop where
  readers : ∀ r, Typestate.AtLeast (fun t => ∃ path, (hold t).Guards .read path r)
    (m.held r).readers
  writer : ∀ r, (m.held r).writer = true → ∃ t path, (hold t).Guards .write path r

namespace Manned

variable {m m' : StoreMemory} {hold : T → Hold} {t : T} {h' : Hold} {path : PathBuf} {r : LockRef}

omit [DecidableEq T] in
theorem new : Manned .new fun _ : T => Hold.none where
  readers _ := .zero
  writer _ h := nomatch h

theorem guards_update {g : Guard} {u : T} (h : ∀ p, (hold t).Guards g p r → h'.Guards g p r)
    (hu : ∃ p, (hold u).Guards g p r) : ∃ p, (Function.update hold t h' u).Guards g p r := by
  obtain ⟨p, hp⟩ := hu
  refine ⟨p, ?_⟩
  rcases eq_or_ne u t with rfl | hne
  · rw [Function.update_self]
    exact h p hp
  · rwa [Function.update_of_ne hne]

/-- No guard is taken or given back; a lock is made, perhaps. -/
theorem same (h : Manned m hold) (hm : ∀ r, m'.held r = m.held r ∨ m'.held r = ⟨0, false⟩)
    (hguards : ∀ g p r, (hold t).Guards g p r → h'.Guards g p r) :
    Manned m' (Function.update hold t h') where
  readers r := by
    rcases hm r with heq | heq
    · rw [heq]
      exact (h.readers r).mono fun u => guards_update fun p => hguards .read p r
    · rw [heq]
      exact .zero
  writer r hw := by
    rcases hm r with heq | heq
    · rw [heq] at hw
      obtain ⟨u, hu⟩ := h.writer r hw
      exact ⟨u, guards_update (fun p => hguards .write p r) hu⟩
    · rw [heq] at hw
      cases hw

/-- A guard on `r` is taken or given back. -/
theorem setLock (h : Manned m hold) {g : Option Guard} {l : RwLock}
    (ht : (hold t).clone = some (path, r))
    (hreaders : Typestate.AtLeast
      (fun u => ∃ p, (Function.update hold t ⟨some (path, r), g, none⟩ u).Guards .read p r)
      l.readers)
    (hwriter : l.writer = true →
      ∃ u p, (Function.update hold t ⟨some (path, r), g, none⟩ u).Guards .write p r) :
    Manned (m.setLock r l) (Function.update hold t ⟨some (path, r), g, none⟩) := by
  -- `t` has no guard on another lock
  have hother : ∀ {r'} g' p, r' ≠ r → ¬ (hold t).Guards g' p r' := by
    intro r' g' p hr hg
    cases ht.symm.trans hg.1
    exact hr rfl
  constructor
  · intro r'
    rcases eq_or_ne r' r with rfl | hr
    · simpa only [StoreMemory.setLock, Function.update_self] using hreaders
    · simp only [StoreMemory.setLock, Function.update_of_ne hr]
      exact (h.readers r').mono fun u => guards_update fun p hp => absurd hp (hother .read p hr)
  · intro r' hw
    rcases eq_or_ne r' r with rfl | hr
    · exact hwriter (by simpa only [StoreMemory.setLock, Function.update_self] using hw)
    · simp only [StoreMemory.setLock, Function.update_of_ne hr] at hw
      obtain ⟨u, hu⟩ := h.writer r' hw
      exact ⟨u, guards_update (fun p hp => absurd hp (hother .write p hr)) hu⟩

theorem onDisk (h : Manned m hold) (x : DiskAct) (r : Except ErrorKind x.Out) :
    Manned m (Function.update hold t ((hold t).after (.disk x) r)) := by
  obtain ⟨hclone, hguard⟩ := (hold t).after_disk x r
  refine h.same (fun _ => .inl rfl) ?_
  intro g p r' hg
  exact ⟨hclone.trans hg.1, hguard.trans hg.2⟩

/-- A permitted action keeps every guard somebody's. -/
theorem step {w w' : World} {a : StoreAct} {answer : a.Answer} (h : Manned w.memory hold)
    (hs : storeStep a w = some (answer, w')) (hp : (hold t).permits a) :
    Manned w'.memory (Function.update hold t ((hold t).after a answer)) := by
  cases a with
  | disk x =>
      cases hs
      exact h.onDisk x _
  | fetchAddTmp | fetchAddGc | retainLocks =>
      cases hs
      exact h.same (fun _ => .inl rfl) fun _ _ _ => id
  | cloneLock path =>
      cases hs
      have hnone : hold t = .none := hp
      refine h.same (fun r => ?_) ?_
      · cases hl : w.memory.locks.lookup path with
        | some r' =>
            rw [StoreMemory.cloneLock_there hl]
            exact .inl rfl
        | none =>
            rw [StoreMemory.cloneLock_new hl]
            rcases eq_or_ne r w.memory.nextLock with rfl | hne
            · exact .inr (Function.update_self ..)
            · exact .inl (Function.update_of_ne hne ..)
      · intro g p r hg
        rw [hnone] at hg
        cases hg.1
  | readLock l =>
      obtain ⟨path, ht⟩ := hp
      simp only [storeStep] at hs
      split at hs <;> cases hs
      rename_i hw
      rw [ht]
      refine h.setLock (by rw [ht]) ?_ fun hwriter => absurd hwriter hw
      refine (h.readers l).add (t := t) ?_ ⟨path, by simp [Hold.Guards]⟩ ?_
      · rintro ⟨p, hg⟩
        rw [ht] at hg
        cases hg.2
      · refine fun u => guards_update fun p hg => ?_
        rw [ht] at hg
        cases hg.2
  | writeLock l =>
      obtain ⟨path, ht⟩ := hp
      simp only [storeStep] at hs
      split at hs <;> cases hs
      rename_i hw
      rw [not_or] at hw
      rw [ht]
      refine h.setLock (by rw [ht]) ?_ fun _ => ⟨t, path, by simp [Hold.Guards]⟩
      rw [Nat.eq_zero_of_not_pos hw.2]
      exact .zero
  | unlockRead l =>
      obtain ⟨path, ht⟩ := hp
      cases hs
      rw [ht]
      refine h.setLock (by rw [ht]) ?_ ?_
      · refine (h.readers l).remove (t := t) ?_
        rintro u ⟨p, hg⟩ hne
        exact ⟨p, by rwa [Function.update_of_ne hne]⟩
      · intro hw
        obtain ⟨u, hu⟩ := h.writer l hw
        refine ⟨u, guards_update (fun p hg => ?_) hu⟩
        rw [ht] at hg
        cases hg.2
  | unlockWrite l =>
      obtain ⟨path, ht⟩ := hp
      cases hs
      rw [ht]
      refine h.setLock (by rw [ht]) ?_ fun hw => ?_
      · refine (h.readers l).mono fun u => guards_update fun p hg => ?_
        rw [ht] at hg
        cases hg.2
      · cases hw
  | dropLock l =>
      obtain ⟨path, ht⟩ := hp
      cases hs
      refine h.same (fun _ => .inl rfl) fun g p r hg => ?_
      rw [ht] at hg
      cases hg.2

end Manned

/-- A lock that cannot be had at once has its guard taken. -/
theorem storeStep_waits {w : World} {a : StoreAct} (h : storeStep a w = none) :
    ∃ r, (a = .readLock r ∨ a = .writeLock r) ∧
      ((w.memory.held r).writer = true ∨ 0 < (w.memory.held r).readers) := by
  cases a with
  | readLock r =>
      simp only [storeStep] at h
      split at h
      · rename_i hw
        exact ⟨r, .inl rfl, .inl hw⟩
      · cases h
  | writeLock r =>
      simp only [storeStep] at h
      split at h
      · rename_i hw
        exact ⟨r, .inr rfl, hw⟩
      · cases h
  | _ => cases h

omit [DecidableEq T] in
/-- While programs are under way that keep to the discipline, one of them has
returned or has its next action performed. -/
theorem Manned.next {σ : Type} {w : World} {hold : T → Hold} {I : σ → (T → Hold) → Prop}
    (h : Manned w.memory hold) {c : Config T StoreAct StoreAct.Answer Reply σ}
    (hc : locking.Fits .none (fun _ h => h = .none) I hold c) {t : T} (ht : c.task t ≠ none) :
    ∃ u, (∃ x, c.task u = some (.ret x)) ∨
      ∃ a k r w', c.task u = some (.act a k) ∧ storeStep a w = some (r, w') := by
  obtain ⟨p, hp⟩ := Option.ne_none_iff_exists'.mp ht
  cases p with
  | ret x => exact ⟨t, .inl ⟨x, hp⟩⟩
  | act a k =>
      cases hs : storeStep a w with
      | some y => exact ⟨t, .inr ⟨a, k, y.1, y.2, hp, hs⟩⟩
      | none =>
          -- then somebody has the guard, and waits for no other
          obtain ⟨r, _, hheld⟩ := storeStep_waits hs
          obtain ⟨u, g, path, hg⟩ : ∃ u g path, (hold u).Guards g path r := by
            rcases hheld with hw | hr
            · obtain ⟨u, path, hg⟩ := h.writer r hw
              exact ⟨u, .write, path, hg⟩
            · obtain ⟨u, path, hg⟩ := (h.readers r).exists_of_pos hr
              exact ⟨u, .read, path, hg⟩
          have hu := hc.task u
          cases hq : c.task u with
          | none =>
              rw [hq] at hu
              rw [show hold u = Hold.none from hu] at hg
              cases hg.2
          | some q =>
              cases q with
              | ret x => exact ⟨u, .inl ⟨x, hq⟩⟩
              | act a' k' =>
                  cases hs' : storeStep a' w with
                  | some y => exact ⟨u, .inr ⟨a', k', y.1, y.2, hq, hs'⟩⟩
                  | none =>
                      obtain ⟨r', hlock, _⟩ := storeStep_waits hs'
                      have hpermits := (hc.permits hq).1
                      rcases hlock with rfl | rfl
                      · obtain ⟨path', hpath⟩ := hpermits
                        rw [hpath] at hg
                        cases hg.2
                      · obtain ⟨path', hpath⟩ := hpermits
                        rw [hpath] at hg
                        cases hg.2

/-- The record of a task is its own, and changes with what it does. -/
theorem CrowdExec.hold {t : T} {s s' : Crowd T} {a : StoreAct} {r : a.Answer}
    (he : CrowdExec t a s r s') :
    s'.hold = Function.update s.hold t ((s.hold t).after a r) := by
  cases he with
  | done _ => rfl
  | fault _ => rfl

/-- The records are the holdings, to which table, counts and guards are tied. -/
structure Held (s : Crowd T) (hold : T → Hold) : Prop where
  tied : Tied s.memory hold
  manned : Manned s.memory hold
  same : hold = s.hold

omit [DecidableEq T] in
theorem held_start (d : Disk) : Held (.start d) fun _ : T => Hold.none := ⟨tied_new, .new, rfl⟩

theorem locking_kept (dataDir : PathBuf) :
    locking.Kept (lockedStore T dataDir) .none (fun _ h => h = .none) Held where
  exec := by
    rintro t a s r s' hold he ⟨hi, hm, rfl⟩ hp
    refine ⟨trivial, ?_⟩
    show Held s' (Function.update s.hold t ((s.hold t).after a r))
    rw [← he.hold]
    cases he with
    | done hs => exact ⟨hi.step hs hp, hm.step hs hp, rfl⟩
    | fault _ => exact ⟨hi.onDisk _ _, hm.onDisk _ _, rfl⟩
  start := by
    rintro t s p s' hold ⟨⟨c, rfl⟩, rfl⟩ hi ht
    refine ⟨.none, ?_, follows_program dataDir c⟩
    rwa [← ht, Function.update_eq_self]
  finish := by
    rintro t x s s' hold rfl hi ht
    rwa [← ht, Function.update_eq_self]
  env := by
    rintro s s' hold ⟨d, rfl⟩ ⟨hi, hm, hsame⟩
    exact ⟨hi, hm, hsame⟩
  crash := by
    rintro s s' hold ⟨d, rfl⟩ _
    exact held_start d

/-! ## Every run -/

abbrev LockedConfig (T : Type) := Config T StoreAct StoreAct.Answer Reply (Crowd T)

variable {dataDir : PathBuf} {d : Disk} {c : LockedConfig T}

/-- Every call keeps to the discipline, in every configuration of every run. -/
theorem locked_fits (hr : (lockedStore T dataDir).Reach (.idle (.start d)) c) :
    locking.Fits .none (fun _ h => h = .none) Held c.state.hold c := by
  obtain ⟨hold, hc⟩ := (locking_kept dataDir).reach (held_start d) hr
  obtain rfl := hc.inv.same
  exact hc

section

variable (c : LockedConfig T) (t : T) (path : PathBuf)

/-- `t` holds a clone of the lock of `path`: `r`. -/
def HasClone (r : LockRef) : Prop := (c.state.hold t).clone = some (path, r)

/-- `t` is at a rename to `path`, or at its unlink. -/
def AtChange : Prop :=
  ∃ x k, c.task t = some (.act (.disk x) k) ∧ ((∃ tmp, x = .rename tmp path) ∨ x = .removeFile path)

/-- `t` is at the opening of `path` for a file it reads, or has opened it and not
read it yet. -/
def AtRead : Prop :=
  (∃ k, c.task t = some (.act (.disk (.openRead path)) k) ∧
    ∃ f k', k (.ok f) = .act (.disk (.readToEnd f)) k') ∨
  ((c.state.hold t).file = some path ∧ ∃ f k, c.task t = some (.act (.disk (.readToEnd f)) k))

end

omit [DecidableEq T] in
theorem AtChange.guards {t : T} {path : PathBuf} (h : AtChange c t path)
    (hc : locking.Fits .none (fun _ h => h = .none) Held c.state.hold c) :
    ∃ r, (c.state.hold t).Guards .write path r := by
  obtain ⟨x, k, ht, ⟨tmp, rfl⟩ | rfl⟩ := h
  · exact (hc.permits ht).1
  · exact (hc.permits ht).1

omit [DecidableEq T] in
theorem AtRead.guards {t : T} {path : PathBuf} (h : AtRead c t path)
    (hc : locking.Fits .none (fun _ h => h = .none) Held c.state.hold c) :
    ∃ r, (c.state.hold t).Guards .read path r := by
  rcases h with ⟨k, ht, f, k', hk⟩ | ⟨hfile, f, k, ht⟩
  · obtain ⟨hp, hnext⟩ := hc.permits ht
    -- under the other guard, the file would not be read
    rcases hp with hg | ⟨dest, r, hg⟩
    · exact hg
    · have hread := hnext (.ok f) trivial
      rw [hk] at hread
      obtain ⟨path', r', ⟨_, hguard⟩, _⟩ := hread.1
      exact nomatch hguard.symm.trans hg.2
  · obtain ⟨path', r, hg, hfile'⟩ := (hc.permits ht).1
    obtain rfl : path = path' := Option.some.inj (hfile.symm.trans hfile')
    exact ⟨r, hg⟩

/-- In every configuration of every run, all clones of the lock of a path are
clones of one lock; and while a call is at the rename to a path or at its
unlink, no other call is at one of these or between opening and reading it. -/
theorem clones_agree (hr : (lockedStore T dataDir).Reach (.idle (.start d)) c) :
    (∀ t u path r r', HasClone c t path r → HasClone c u path r' → r = r') ∧
    ∀ t u path, t ≠ u → AtChange c t path → ¬ AtChange c u path ∧ ¬ AtRead c u path := by
  have hc := locked_fits hr
  have hone : ∀ t u path r r', HasClone c t path r → HasClone c u path r' → r = r' := by
    intro t u path r r' ht hu
    have h := hc.inv.tied.table t path r ht
    exact Option.some.inj (h.symm.trans (hc.inv.tied.table u path r' hu))
  have hexcl : ∀ t u path r r' g, t ≠ u → (c.state.hold t).Guards .write path r →
      ¬ (c.state.hold u).Guards g path r' := by
    intro t u path r r' g htu ht hu
    obtain rfl := hone t u path r r' ht.1 hu.1
    exact hc.inv.tied.alone t u path path r g htu ht hu
  refine ⟨hone, ?_⟩
  intro t u path htu ht
  obtain ⟨r, hg⟩ := ht.guards hc
  constructor
  · intro hu
    obtain ⟨r', hg'⟩ := hu.guards hc
    exact hexcl t u path r r' .write htu hg hg'
  · intro hu
    obtain ⟨r', hg'⟩ := hu.guards hc
    exact hexcl t u path r r' .read htu hg hg'

/-- In no configuration of any run do all calls under way wait for a lock. -/
theorem never_stuck (hr : (lockedStore T dataDir).Reach (.idle (.start d)) c) {t : T}
    (ht : c.task t ≠ none) : ∃ u, (lockedStore T dataDir).CanGo c u := by
  have hc := locked_fits hr
  obtain ⟨u, ⟨x, hu⟩ | ⟨a, k, r, w', hu, hs⟩⟩ := hc.inv.manned.next hc ht
  · exact ⟨u, .inl ⟨x, c.state, hu, rfl⟩⟩
  · exact ⟨u, .inr ⟨a, k, r, _, hu, .done hs⟩⟩

/-- The actions of the task `t`, executable. -/
def playCrowd (t : T) (a : StoreAct) (s : Crowd T) : Option (a.Answer × Crowd T) :=
  (storeStep a s.world).map fun x => (x.1, ⟨x.2, Function.update s.hold t ((s.hold t).after a x.1)⟩)

theorem playCrowd_exec (t : T) (a : StoreAct) (s : Crowd T) (r : a.Answer) (s' : Crowd T)
    (h : playCrowd t a s = some (r, s')) : (lockedStore T dataDir).exec t a s r s' := by
  obtain ⟨⟨r', w⟩, hs, he⟩ := Option.map_eq_some_iff.mp h
  cases he
  exact .done hs

/-- A write is at its rename while a read waits with a clone of the same lock. -/
theorem clones_agree_waiting :
    (lockedStore Bool (.base "data")).Can (.idle (.start .fresh)) fun c =>
    AtChange c true (.join (.base "data") "manager") ∧
    HasClone c true (.join (.base "data") "manager") 0 ∧
    HasClone c false (.join (.base "data") "manager") 0 ∧
    ¬ AtChange c false (.join (.base "data") "manager") ∧
    ¬ AtRead c false (.join (.base "data") "manager") := by
  have hrun : (lockedStore Bool (.base "data")).Can (.idle (.start .fresh)) fun c =>
      AtChange c true (.join (.base "data") "manager") ∧
      HasClone c true (.join (.base "data") "manager") 0 ∧
      HasClone c false (.join (.base "data") "manager") 0 := by
    refine .step (.start (t := true) rfl ⟨⟨.write "" "" "manager" [7], rfl⟩, rfl⟩) ?_
    refine .step (.start (t := false) rfl ⟨⟨.read "" "" "manager", rfl⟩, rfl⟩) ?_
    refine .acts (t := true) (playCrowd_exec true) 8 ?_
    refine .acts (t := false) (playCrowd_exec false) 1 ?_
    exact .here ⟨⟨_, _, rfl, .inl ⟨_, rfl⟩⟩, rfl, rfl⟩
  obtain ⟨c, hr, hat, htrue, hfalse⟩ := hrun
  exact ⟨c, hr, hat, htrue, hfalse, (clones_agree hr).2 true false _ nofun hat⟩

end LightningNode
