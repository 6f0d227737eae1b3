/-
# `LightningNode.Store.LockTable` — how large the table of the locks gets

Calls on one store, made one after another.  A call puts at most one lock into
the table.  A call that does without one leaves the table alone; one that took
its lock and returns what it was asked for counts towards the next collection.
A call that fails while it has its lock does neither, and its lock stays behind.

    entries ≤ phase + failed        between two calls
    entries ≤ phase + failed + 1    from the lookup of the lock to the collection

where `phase` is how far the counter is past the last collection, at most 24,
and `failed` counts the calls that have failed with their lock since then.
-/
import LightningNode.Store.Steps
import LightningNode.Lib.Solo

namespace LightningNode

open Conc StoreProg FilesystemStore

/-! ## The system -/

/-- Some call has its lock. -/
def LockInUse (m : StoreMemory) : Prop := ∃ e ∈ m.locks.entries, m.clones e.2 ≠ 0

instance (m : StoreMemory) : Decidable (LockInUse m) :=
  inferInstanceAs (Decidable (∃ e ∈ m.locks.entries, m.clones e.2 ≠ 0))

/-- A store, and how many calls have failed with their lock since the table was
last collected. -/
structure Counted where
  life : Life
  failed : Nat

namespace Counted

abbrev memory (s : Counted) : StoreMemory := s.life.world.memory

/-- A new store on the disk `d`. -/
def start (d : Disk) : Counted := ⟨.start d, 0⟩

/-- `a` was answered by `r`, and left `l`. -/
def after (s : Counted) : (a : StoreAct) → a.Answer → Life → Counted
  | .disk _, .error _, l => ⟨l, if LockInUse s.memory then s.failed + 1 else s.failed⟩
  | .retainLocks, _, l => ⟨l, 0⟩
  | _, _, l => ⟨l, s.failed⟩

@[simp] theorem after_life (s : Counted) (a : StoreAct) (r : a.Answer) (l : Life) :
    (s.after a r l).life = l := by
  unfold after
  split <;> rfl

end Counted

/-- Valid calls on one store, one after another, any of which may fail. -/
def sequentialStore (root : PathBuf) : System Unit StoreAct StoreAct.Answer Reply Counted where
  exec _ a s r s' := ∃ l, StoreExec True a s.life r l ∧ s' = s.after a r l
  start _ s p s' := ∃ c : Call, c.Accepted ∧ p = c.program root ∧
    s' = { s with life := { s.life with issued := c.issues ++ s.life.issued } }
  finish _ _ s s' := s' = s
  env _ _ := False
  crash _ _ := False

/-- A call fails while it has its lock only if none has since the last collection. -/
def FailsOnce : (a : StoreAct) → Counted → a.Answer → Prop
  | .disk _, s, .error _ => LockInUse s.memory → s.failed = 0
  | _, _, _ => True

instance : ∀ (a : StoreAct) (s : Counted) (r : a.Answer), Decidable (FailsOnce a s r)
  | .disk _, s, .error _ => inferInstanceAs (Decidable (LockInUse s.memory → s.failed = 0))
  | .disk _, _, .ok _ => .isTrue trivial
  | .fetchAddTmp, _, _ | .fetchAddGc, _, _ | .retainLocks, _, _ | .cloneLock _, _, _
  | .readLock _, _, _ | .writeLock _, _, _ | .unlockRead _, _, _ | .unlockWrite _, _, _
  | .dropLock _, _, _ => .isTrue trivial

/-- The runs in which at most one call fails with its lock between two collections. -/
abbrev collectingStore (root : PathBuf) : System Unit StoreAct StoreAct.Answer Reply Counted :=
  (sequentialStore root).onlyIf fun _ => FailsOnce

/-! ## The table between two actions -/

/-- How many calls were counted since the last collection. -/
def phase (counter : UInt64) : Nat := (counter.toNat + 24) % 25

theorem phase_lt (counter : UInt64) : phase counter < 25 := Nat.mod_lt _ (by decide)

/-- A call that is counted and does not collect, also where the counter wraps. -/
theorem phase_succ {counter : UInt64} (h : ¬ counter % 25 = 0) :
    phase counter + 1 ≤ phase (counter + 1) := by
  have hmod : counter.toNat % 25 ≠ 0 := by
    intro hz
    refine h (UInt64.toNat_inj.mp ?_)
    rw [UInt64.toNat_mod]
    exact hz
  have hlt : counter.toNat < UInt64.size := counter.toNat_lt
  have hadd : (counter + 1).toNat = (counter.toNat + 1) % UInt64.size := UInt64.toNat_add counter 1
  have hsize : UInt64.size = 18446744073709551616 := rfl
  simp only [phase, hadd]
  rcases Nat.lt_or_ge (counter.toNat + 1) UInt64.size with hsmall | hwrap
  · rw [Nat.mod_eq_of_lt hsmall]
    omega
  · have heq : counter.toNat + 1 = UInt64.size := by omega
    rw [heq, Nat.mod_self]
    omega

/-- No more than `extra` locks above the phase, and the only clone is one of `held`. -/
structure Table (extra : Nat) (held : Option LockRef) (m : StoreMemory) : Prop where
  entries : m.locks.entries.length ≤ phase m.gcCounter + extra
  clones : ∀ r, m.clones r = if held = some r then 1 else 0
  there : ∀ r, held = some r → ∃ path, m.locks.lookup path = some r

namespace Table

variable {extra : Nat} {held : Option LockRef} {m : StoreMemory} {r : LockRef}

theorem new : Table 0 none .new where
  entries := Nat.zero_le _
  clones _ := rfl
  there _ h := nomatch h

theorem mono (h : Table extra held m) {extra' : Nat} (hle : extra ≤ extra') :
    Table extra' held m :=
  { h with entries := h.entries.trans (Nat.add_le_add_left hle _) }

/-- Table, counts and counter are all it speaks of. -/
theorem same (h : Table extra held m) {m' : StoreMemory}
    (hm : m'.locks = m.locks ∧ m'.clones = m.clones ∧ m'.gcCounter = m.gcCounter) :
    Table extra held m' := by
  obtain ⟨hlocks, hclones, hgc⟩ := hm
  constructor
  · rw [hlocks, hgc]
    exact h.entries
  · rw [hclones]
    exact h.clones
  · rw [hlocks]
    exact h.there

theorem cloneLock (h : Table extra none m) (path : PathBuf) :
    Table (extra + 1) (some (m.cloneLock path).1) (m.cloneLock path).2 := by
  have hzero : ∀ r, m.clones r = 0 := h.clones
  cases hl : m.locks.lookup path with
  | some r =>
      rw [StoreMemory.cloneLock_there hl]
      refine ⟨Nat.le_succ_of_le h.entries, ?_, ?_⟩
      · intro r'
        rcases eq_or_ne r r' with rfl | hne
        · simp [StoreMemory.setClones, hzero]
        · simp [StoreMemory.setClones, hzero, hne, Function.update_of_ne hne.symm]
      · intro r' hr
        obtain rfl := Option.some.inj hr
        exact ⟨path, hl⟩
  | none =>
      have hnot : path ∉ m.locks := AList.lookup_eq_none.mp hl
      rw [StoreMemory.cloneLock_new hl]
      refine ⟨?_, ?_, ?_⟩
      · show (m.locks.insert path m.nextLock).entries.length ≤ _
        rw [AList.insert_of_notMem hnot, List.length_cons]
        exact Nat.succ_le_succ h.entries
      · intro r'
        rcases eq_or_ne m.nextLock r' with rfl | hne
        · simp
        · simp [hzero, hne, Function.update_of_ne hne.symm]
      · intro r' hr
        obtain rfl := Option.some.inj hr
        exact ⟨path, AList.lookup_insert m.locks⟩

theorem dropLock (h : Table extra (some r) m) :
    Table extra none (m.setClones r (m.clones r - 1)) := by
  refine ⟨h.entries, ?_, nofun⟩
  intro r'
  rcases eq_or_ne r r' with rfl | hne
  · simp [StoreMemory.setClones, h.clones]
  · simp [StoreMemory.setClones, h.clones, hne, Function.update_of_ne hne.symm]

theorem in_use (h : Table extra (some r) m) : LockInUse m := by
  obtain ⟨path, hp⟩ := h.there r rfl
  refine ⟨⟨path, r⟩, AList.mem_lookup_iff.mp hp, ?_⟩
  rw [h.clones, if_pos rfl]
  exact Nat.one_ne_zero

/-- With no clone out, a collection empties the table. -/
theorem retainLocks (h : Table extra none m) (counter : UInt64) :
    Table 0 none { m.retainLocks with gcCounter := counter } := by
  have hnone : m.locks.entries.filter (fun e => 0 < m.clones e.2) = [] := by
    rw [List.filter_eq_nil_iff]
    intro e _
    simp [h.clones]
  refine ⟨?_, h.clones, nofun⟩
  show (m.locks.entries.filter (fun e => 0 < m.clones e.2)).length ≤ _
  rw [hnone]
  exact Nat.zero_le _

end Table

/-! ## One call -/

/-- A guard is taken or given back. -/
def StoreAct.OnGuard : StoreAct → Prop
  | .readLock _ | .writeLock _ | .unlockRead _ | .unlockWrite _ => True
  | _ => False

/-- It is on the memory, and no collection. -/
def StoreAct.Uncollecting : StoreAct → Prop
  | .disk _ | .retainLocks => False
  | _ => True

theorem StoreAct.OnGuard.uncollecting {a : StoreAct} (ha : a.OnGuard) : a.Uncollecting := by
  cases a with
  | disk x => exact ha.elim
  | retainLocks => exact ha.elim
  | _ => trivial

theorem Counted.after_uncollecting {s : Counted} {a : StoreAct} (ha : a.Uncollecting)
    (r : a.Answer) (l : Life) : s.after a r l = ⟨l, s.failed⟩ := by
  cases a with
  | disk x => exact ha.elim
  | retainLocks => exact ha.elim
  | _ => rfl

/-- Table, counts and counter are not touched. -/
theorem storeStep_guard {a : StoreAct} (ha : a.OnGuard) {w w' : World} {r : a.Answer}
    (h : storeStep a w = some (r, w')) :
    w'.memory.locks = w.memory.locks ∧ w'.memory.clones = w.memory.clones ∧
      w'.memory.gcCounter = w.memory.gcCounter := by
  cases a with
  | readLock r =>
      simp only [storeStep] at h
      split at h <;> cases h
      exact ⟨rfl, rfl, rfl⟩
  | writeLock r =>
      simp only [storeStep] at h
      split at h <;> cases h
      exact ⟨rfl, rfl, rfl⟩
  | unlockRead r =>
      cases h
      exact ⟨rfl, rfl, rfl⟩
  | unlockWrite r =>
      cases h
      exact ⟨rfl, rfl, rfl⟩
  | _ => exact ha.elim

section

variable {root : PathBuf} {s s' : Counted} {a : StoreAct} {r : a.Answer}

theorem exec_memory (ha : a.OnMemory) (he : (sequentialStore root).exec () a s r s') :
    ∃ w, storeStep a s.life.world = some (r, w) ∧
      s' = s.after a r { s.life with world := w } := by
  obtain ⟨l, he, rfl⟩ := he
  cases he with
  | done hs => exact ⟨_, hs, rfl⟩
  | fault _ _ => exact ha.elim

/-- A call of the operating system does not touch the memory. -/
theorem exec_disk {x : DiskAct} {r : Except ErrorKind x.Out}
    (he : (sequentialStore root).exec () (.disk x) s r s') :
    s'.memory = s.memory ∧ s'.failed =
      if r.isOk then s.failed else if LockInUse s.memory then s.failed + 1 else s.failed := by
  obtain ⟨l, he, rfl⟩ := he
  have hmem : l.world.memory = s.memory := by
    cases he with
    | done hs =>
        cases hs
        rfl
    | fault _ _ => rfl
  refine ⟨by rw [Counted.memory, Counted.after_life, hmem], ?_⟩
  cases r with
  | ok v => rfl
  | error e => rfl

variable {α β : Type} {extra : Nat} {held : Option LockRef}

/-- At most `extra` locks above the phase and the failures. -/
def Rests (extra : Nat) (held : Option LockRef) (s : Counted) : Prop :=
  Table (s.failed + extra) held s.memory

/-- From such a table, `p` ends in `Q`. -/
def OnTable (root : PathBuf) (extra : Nat) (held : Option LockRef) (p : StoreProg β)
    (Q : β → Counted → Prop) : Prop :=
  (Discipline.solo (sequentialStore root) fun _ => True).Triple () (Rests extra held) p Q

namespace OnTable

variable {Q Q' : β → Counted → Prop}

theorem ret {x : β} (h : ∀ s, Rests extra held s → Q x s) : OnTable root extra held (.ret x) Q :=
  .solo_ret fun s _ hs => h s hs

theorem bind {p : StoreProg α} {f : α → StoreProg β} {extra' : Nat} {held' : Option LockRef}
    (hp : OnTable root extra held p fun _ => Rests extra' held')
    (hf : ∀ x, OnTable root extra' held' (f x) Q) : OnTable root extra held (p >>= f) Q :=
  Discipline.Triple.bind _ hp hf

theorem more {p : StoreProg β} (h : OnTable root 1 held p Q) : OnTable root 0 held p Q :=
  h.weaken fun _ _ hs => hs.mono (Nat.le_succ _)

/-- An action on the memory that does not collect. -/
theorem memory (ha : a.Uncollecting) {k : a.Answer → StoreProg β}
    (extra' : Nat) (held' : a.Answer → Option LockRef)
    (hstep : ∀ n w w' r, Table (n + extra) held w.memory → storeStep a w = some (r, w') →
      Table (n + extra') (held' r) w'.memory)
    (hk : ∀ r, OnTable root extra' (held' r) (k r) Q) :
    OnTable root extra held (act a >>= k) Q := by
  refine .solo (fun r => Rests extra' (held' r)) ?_ hk
  intro s _ hs r s' he
  have honMemory : a.OnMemory := by
    cases a with
    | disk x => exact ha.elim
    | _ => trivial
  obtain ⟨w, hstep', rfl⟩ := exec_memory honMemory he
  rw [Counted.after_uncollecting ha]
  exact ⟨trivial, hstep _ _ _ _ hs hstep'⟩

/-- What is done before a lock is taken, and what a listing does. -/
theorem quiet {p : StoreProg β} (hp : p.Every fun a => (∃ x, a = .disk x) ∨ a = .fetchAddTmp) :
    OnTable root extra none p fun _ => Rests extra none := by
  induction p with
  | ret x => exact ret fun _ h => h
  | act a k ih =>
      rcases hp.1 with ⟨x, rfl⟩ | rfl
      · refine .solo (fun _ => Rests extra none) ?_ fun r => ih r (hp.2 r)
        intro s _ hs r s' he
        obtain ⟨hmem, hfailed⟩ := exec_disk he
        refine ⟨trivial, ?_⟩
        rw [Rests, hmem, hfailed]
        refine hs.mono (Nat.add_le_add_right ?_ _)
        split
        · exact Nat.le_refl _
        · split
          · exact Nat.le_succ _
          · exact Nat.le_refl _
      · refine memory (by trivial) extra (fun _ => none) ?_ fun r => ih r (hp.2 r)
        intro n w w' r hw hs
        cases hs
        exact hw.same ⟨rfl, rfl, rfl⟩

/-! A lock is in use. -/

variable {ref : LockRef}

/-- The lock is still in use; a call that has failed is counted. -/
def Locked (ref : LockRef) : Res α → Counted → Prop
  | .ok _ => Rests 1 (some ref)
  | .error _ => Rests 0 (some ref)

/-- The lock is given back. -/
def Unlocked : Res α → Counted → Prop
  | .ok _ => Rests 1 none
  | .error _ => Rests 0 none

theorem os (x : DiskAct) : OnTable root 1 (some ref) (StoreProg.os x) (Locked ref) := by
  refine .solo (fun r => Rests (if r.isOk then 1 else 0) (some ref)) ?_ fun r => ?_
  · intro s _ hs r s' he
    obtain ⟨hmem, hfailed⟩ := exec_disk he
    refine ⟨trivial, ?_⟩
    rw [Rests, hmem, hfailed]
    cases r with
    | ok v => exact hs
    | error e =>
        have huse : LockInUse s.memory := Table.in_use hs
        simpa [Rests, Except.isOk, Except.toBool, huse] using hs
  · cases r with
    | ok v => exact .solo_ret fun _ _ hs => hs
    | error e => exact .solo_ret fun _ _ hs => hs

theorem andThen {p : StoreProg (Res α)} {f : α → StoreProg (Res β)}
    (hp : OnTable root 1 (some ref) p (Locked ref))
    (hf : ∀ x, OnTable root 1 (some ref) (f x) (Locked ref)) :
    OnTable root 1 (some ref) (p.andThen f) (Locked ref) := by
  refine Discipline.Triple.bind _ hp fun r => ?_
  cases r with
  | ok x => exact hf x
  | error e => exact .solo_ret fun _ _ hs => hs

theorem guard (ha : a.OnGuard) {k : a.Answer → StoreProg β}
    (hk : ∀ r, OnTable root extra held (k r) Q) : OnTable root extra held (act a >>= k) Q := by
  refine memory ha.uncollecting extra (fun _ => held) ?_ hk
  intro n w w' r hw hs
  exact hw.same (storeStep_guard ha hs)

/-- The lock is looked up, and its clone dropped when `body` is done. -/
theorem withLock {lock unlock : LockRef → StoreAct} (hl : ∀ r, (lock r).OnGuard)
    (hu : ∀ r, (unlock r).OnGuard) {path : PathBuf} {body : StoreProg (Res β)}
    (hbody : ∀ r, OnTable root 1 (some r) body (Locked r)) :
    OnTable root 0 none (FilesystemStore.withLock lock unlock path body) Unlocked := by
  have hdrop : ∀ (ref : LockRef) (n : Nat) (x : Res β) (Q : Res β → Counted → Prop),
      (∀ s, Rests n none s → Q x s) →
      OnTable root n (some ref)
        (act (unlock ref) >>= fun _ => act (.dropLock ref) >>= fun _ => pure x) Q := by
    intro ref n x Q hQ
    refine guard (hu ref) fun _ => memory (by trivial) n (fun _ => none) ?_ fun _ => ret hQ
    intro m w w' r hw hs
    cases hs
    exact hw.dropLock
  refine memory (by trivial) 1 some ?_ fun ref => guard (hl ref) fun _ => ?_
  · intro n w w' r hw hs
    cases hs
    exact Table.cloneLock hw path
  refine Discipline.Triple.bind _ (hbody ref) fun r => ?_
  cases r with
  | ok x => exact hdrop ref 1 (.ok x) Unlocked fun _ h => h
  | error e => exact hdrop ref 0 (.error e) Unlocked fun _ h => h

/-- The call is counted, and the table collected when it is time. -/
theorem collected {x : β} :
    OnTable root 1 none (FilesystemStore.collected x) fun _ => Rests 0 none := by
  refine Discipline.Triple.bind (fun _ => Rests 0 none) ?_ fun _ => ret fun _ h => h
  -- after the counter was read, the table is as large as before
  refine .solo (fun n s => ∃ m, Table (s.failed + 1) none m ∧ m.gcCounter = n ∧
    s.memory = { m with gcCounter := n + 1 }) ?_ fun n => ?_
  · intro s _ hs n s' he
    obtain ⟨w, hstep, rfl⟩ := exec_memory (by trivial) he
    cases hstep
    exact ⟨trivial, s.memory, hs, rfl, rfl⟩
  · show Discipline.Triple _ _ _ (if n % 25 = 0 then act .retainLocks else pure ()) _
    split
    · refine .solo (fun _ => Rests 0 none) ?_ fun _ => ret fun _ h => h
      rintro s _ ⟨m, hm, _, heq⟩ r s' he
      obtain ⟨w, hstep, rfl⟩ := exec_memory (by trivial) he
      cases hstep
      refine ⟨trivial, ?_⟩
      show Table 0 none s.memory.retainLocks
      rw [heq]
      exact hm.retainLocks (n + 1)
    · rename_i hn
      refine .solo_ret ?_
      rintro s _ ⟨m, hm, hgc, heq⟩
      rw [Rests, heq]
      refine ⟨?_, hm.clones, nofun⟩
      have hle := hm.entries
      have hphase := phase_succ hn
      rw [hgc] at hle
      show m.locks.entries.length ≤ phase (n + 1) + (s.failed + 0)
      omega

theorem locked_collected {lock unlock : LockRef → StoreAct} (hl : ∀ r, (lock r).OnGuard)
    (hu : ∀ r, (unlock r).OnGuard) {path : PathBuf} {body : StoreProg (Res β)}
    (hbody : ∀ r, OnTable root 1 (some r) body (Locked r)) :
    OnTable root 0 none
      ((FilesystemStore.withLock lock unlock path body).andThen FilesystemStore.collected)
      fun _ => Rests 0 none := by
  refine Discipline.Triple.bind _ (withLock hl hu hbody) fun r => ?_
  cases r with
  | error e => exact .solo_ret fun _ _ hs => hs
  | ok x => exact collected

/-- What comes before the lock is taken; an error ends the call there. -/
theorem first {p : StoreProg (Res α)} {f : α → StoreProg (Res β)}
    (hp : p.Every fun a => (∃ x, a = .disk x) ∨ a = .fetchAddTmp)
    (hf : ∀ x, OnTable root 0 none (f x) fun _ => Rests 0 none) :
    OnTable root 0 none (p.andThen f) fun _ => Rests 0 none := by
  refine bind (quiet hp) fun r => ?_
  cases r with
  | ok x => exact hf x
  | error e => exact ret fun _ h => h

theorem syncDir (q : PathBuf) : OnTable root 1 (some ref) (FilesystemStore.syncDir q) (Locked ref) :=
  andThen (os _) fun _ => os _

/-- A whole call. -/
theorem program {c : Call} (hc : c.Accepted) :
    OnTable root 0 none (c.program root) fun _ => Rests 0 none := by
  rw [Call.program_accepted root hc]
  have hdisk : ∀ x, OutsideLock x → (∃ y, StoreAct.disk x = .disk y) ∨ StoreAct.disk x = .fetchAddTmp :=
    fun x _ => .inl ⟨x, rfl⟩
  cases c with
  | read p s k =>
      refine bind (locked_collected (fun _ => by trivial) (fun _ => by trivial) fun _ => ?_) fun _ =>
        ret fun _ h => h
      exact andThen (os _) fun _ => os _
  | write p s k buf =>
      refine bind (first (every_createDirAll hdisk _) fun _ => ?_) fun _ => ret fun _ h => h
      refine bind (quiet ⟨.inr rfl, fun _ => trivial⟩) fun n => ?_
      refine first (every_writeTmp hdisk _ _) fun _ => ?_
      refine locked_collected (fun _ => by trivial) (fun _ => by trivial) fun _ => ?_
      exact andThen (os _) fun _ => syncDir _
  | remove p s k lazily =>
      refine bind ?_ fun _ => ret fun _ h => h
      refine bind (quiet (p := isFile _) ?_) fun found => ?_
      · refine ⟨.inl ⟨_, rfl⟩, fun r => ?_⟩
        cases r with
        | error e => exact trivial
        | ok x =>
            cases x with
            | dir => exact trivial
            | file i => exact trivial
      · split
        · exact ret fun _ h => h
        · refine locked_collected (fun _ => by trivial) (fun _ => by trivial) fun _ => ?_
          unfold FilesystemStore.unlink
          split
          · exact os _
          · exact andThen (os _) fun _ => syncDir _
  | list p s =>
      refine bind ?_ fun _ => ret fun _ h => h
      refine bind (quiet (p := pathExists _) ?_) fun found => ?_
      · refine ⟨.inl ⟨_, rfl⟩, fun r => ?_⟩
        cases r with
        | error e => exact trivial
        | ok x => exact trivial
      · split
        · exact ret fun _ h => h
        · refine first (every_os (.inl ⟨_, rfl⟩)) fun ps => ?_
          exact first (every_listEntries hdisk _ ps) fun _ => collected.more

end OnTable

end

/-! ## Every run -/

/-- Between two calls, the table is no larger than the phase of the counter and
the failures. -/
def tableOutline (root : PathBuf) : Outline (sequentialStore root) :=
  .solo _ (fun _ => True) (Rests 0 none) (fun _ => Rests 0 none)
    (by
      rintro s p s' ⟨c, hc, rfl, rfl⟩ _ ht
      exact ⟨trivial, OnTable.program hc _ trivial ht⟩)
    (by
      rintro x s s' rfl _ ht
      exact ⟨trivial, ht⟩)
    id
    (by
      rintro s s' ⟨⟩ _)

/-- In every history of valid calls: after each of them the table holds at most
24 locks, and one for each call that has failed with its lock since the table was
last collected. -/
theorem locks_le_failed {root : PathBuf} {d : Disk}
    {c : Config Unit StoreAct StoreAct.Answer Reply Counted}
    (h : (sequentialStore root).Reach (.idle (.start d)) c) (hidle : c.task () = none) :
    c.state.memory.locks.entries.length ≤ 24 + c.state.failed := by
  have hinit : (tableOutline root).Inv (.idle (.start d)) :=
    .init _ trivial fun _ => Table.new
  have htask := ((hinit.reach _ h).1.task ())
  rw [hidle] at htask
  have ht : Rests 0 none c.state := htask
  have hphase := phase_lt c.state.memory.gcCounter
  have hle := Table.entries ht
  omega

theorem failed_le_one {root : PathBuf} {d : Disk}
    {c : Config Unit StoreAct StoreAct.Answer Reply Counted}
    (h : (collectingStore root).Reach (.idle (.start d)) c) : c.state.failed ≤ 1 := by
  refine (System.Reach.keeps (P := fun _ => True) (I := fun s => s.failed ≤ 1) ?_ ?_ ?_ ?_ ?_ h
    (Nat.zero_le 1)).1
  · rintro t s p s' ⟨c, _, rfl, rfl⟩ hs
    exact ⟨hs, Prog.Every.of_all (fun _ => trivial) _⟩
  · rintro t a s r s' ⟨⟨l, _, rfl⟩, hok⟩ _ hs
    unfold Counted.after
    split
    · dsimp only
      split
      · rename_i huse
        rw [hok huse]
      · exact hs
    · exact Nat.zero_le 1
    · exact hs
  · rintro t x s s' rfl hs
    exact hs
  · rintro s s' ⟨⟩
  · rintro s s' ⟨⟩

/-- Where at most one of the calls between two collections fails with its lock,
the table holds no more than `GC_LOCK_INTERVAL` locks after each call. -/
theorem locks_bounded {root : PathBuf} {d : Disk}
    {c : Config Unit StoreAct StoreAct.Answer Reply Counted}
    (h : (collectingStore root).Reach (.idle (.start d)) c) (hidle : c.task () = none) :
    c.state.memory.locks.entries.length ≤ 25 := by
  have hle := locks_le_failed h.of_onlyIf hidle
  have hfailed := failed_le_one h
  omega

/-- The actions of the calls with no fault, executable. -/
def playCounted (a : StoreAct) (s : Counted) : Option (a.Answer × Counted) :=
  (play a s.life).map fun x => (x.1, s.after a x.1 x.2)

theorem playCounted_exec {root : PathBuf} (a : StoreAct) (s : Counted) (r : a.Answer) (s' : Counted)
    (h : playCounted a s = some (r, s')) : (sequentialStore root).exec () a s r s' := by
  obtain ⟨⟨r', l⟩, hp, he⟩ := Option.map_eq_some_iff.mp h
  cases he
  exact ⟨l, play_exec a s.life r' l hp, rfl⟩

/-- A program, run on the counted store. -/
theorem run_playCounted {β : Type} {p : StoreProg β} :
    ∀ {s : Counted} {w : World} {x : β}, run storeStep p s.life.world = some (x, w) →
      ∃ s', s'.life.world = w ∧ run playCounted p s = some (x, s') := by
  induction p with
  | ret y =>
      intro s w x h
      cases h
      exact ⟨s, rfl, rfl⟩
  | act a k ih =>
      intro s w x h
      obtain ⟨r, w₁, hs, hk⟩ := run_act_some h
      have hstep : playCounted a s
          = some (r, s.after a r { s.life with world := w₁ }) := by
        simp [playCounted, play, hs]
      obtain ⟨s', hw, hrun⟩ := ih r (s := s.after a r { s.life with world := w₁ })
        (by simpa using hk)
      exact ⟨s', hw, (run_act hstep).trans hrun⟩

/-- A key is written, and one that is not there read, which fails with its lock. -/
theorem locks_bounded_write :
    (collectingStore (.base "data")).Can (.idle (.start .fresh)) fun c =>
      c.state.failed = 1 ∧ c.state.memory.locks.entries.length = 2 ∧
      c.state.memory.locks.entries.length ≤ 25 := by
  have hrun : (collectingStore (.base "data")).Can (.idle (.start .fresh)) fun c =>
      c.task () = none ∧ c.state.failed = 1 ∧ c.state.memory.locks.entries.length = 2 := by
    refine .step (.start (t := ()) rfl ⟨.write "" "" "manager" [7], by decide, rfl, rfl⟩) ?_
    refine .acts (t := ()) (System.exec_of_guarded (t := ()) playCounted_exec) 14 ?_
    refine .step (.finish (t := ()) rfl rfl) ?_
    refine .step (.start (t := ()) rfl ⟨.read "" "" "graph", by decide, rfl, rfl⟩) ?_
    refine .acts (t := ()) (System.exec_of_guarded (t := ()) playCounted_exec) 5 ?_
    exact .step (.finish (t := ()) rfl rfl) (.here ⟨rfl, rfl, rfl⟩)
  obtain ⟨c, hr, hidle, hfailed, hlen⟩ := hrun
  exact ⟨c, hr, hfailed, hlen, locks_bounded hr hidle⟩

/-! ## Calls that fail with their lock -/

/-- Calls with no fault, one after another. -/
theorem reach_runCalls {root : PathBuf} : ∀ {cs : List Call} {s : Counted} {w : World}
    {rs : List Reply}, (∀ c ∈ cs, c.Accepted) →
      run storeStep (runCalls root cs) s.life.world = some (rs, w) →
      ∃ s', s'.life.world = w ∧ (sequentialStore root).Reach (.idle s) (.idle s') := by
  intro cs
  induction cs with
  | nil =>
      intro s w rs _ h
      cases h
      exact ⟨s, rfl, .refl⟩
  | cons c cs ih =>
      intro s w rs hcs h
      obtain ⟨r, w₁, hc, hrest⟩ := run_bind_some h
      obtain ⟨rs', w₂, hcs', hret⟩ := run_bind_some hrest
      cases hret
      obtain ⟨s₁, hw₁, hrun⟩ := run_playCounted (s := { s with
        life := ⟨s.life.world, c.issues ++ s.life.issued⟩ }) hc
      have hcall : (sequentialStore root).Reach (.idle s) (.idle s₁) :=
        System.reach_call (t := ()) playCounted_exec
          ⟨c, hcs c (List.mem_cons_self ..), rfl, rfl⟩ hrun rfl
      obtain ⟨s', hw', hr⟩ := ih (s := s₁) (fun c' hc' => hcs c' (List.mem_cons_of_mem c hc'))
        (hw₁ ▸ hcs')
      exact ⟨s', hw', hcall.trans hr⟩

/-- A read of each letter. -/
def readLetters : List Call :=
  "abcdefghijklmnopqrstuvwxyz".toList.map fun c => .read "" "" (String.ofList [c])

/-- On a new disk they find nothing, and leave their locks behind. -/
theorem reads_of_absent_keys :
    (sequentialStore (.base "data")).Can (.idle (.start .fresh)) fun c =>
      c.task () = none ∧ ¬ c.state.memory.locks.entries.length ≤ 25 := by
  have hrun : (run storeStep (runCalls (.base "data") readLetters) (Life.start .fresh).world).map
      (fun x => x.2.memory.locks.entries.length) = some 26 := by decide +kernel
  obtain ⟨⟨rs, w⟩, hr, hlen⟩ := Option.map_eq_some_iff.mp hrun
  obtain ⟨s, rfl, hreach⟩ := reach_runCalls (s := .start .fresh) (by decide) hr
  have hmany : s.memory.locks.entries.length = 26 := hlen
  refine ⟨_, hreach, rfl, ?_⟩
  show ¬ s.memory.locks.entries.length ≤ 25
  omega

end LightningNode
