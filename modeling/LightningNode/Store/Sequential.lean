/-
# `LightningNode.Store.Sequential` — the store used by one caller

Runs of the store's programs with no fault and nobody else about.  `OnDisk` is
for the parts that only call the operating system, `Alone` for whole calls: it
asks that no lock is held before, and says that none is held after.  Both say
that the program comes to its end.
-/
import LightningNode.Store.Names

namespace LightningNode

open Conc StoreProg

variable {α β : Type}

/-! ## Programs on the disk -/

/-- From `d`, whatever the memory, `p` returns with `Q` and leaves the memory alone. -/
def OnDisk (p : StoreProg α) (d : Disk) (Q : α → Disk → Prop) : Prop :=
  ∃ x d', (∀ m, run storeStep p ⟨d, m⟩ = some (x, ⟨d', m⟩)) ∧ Q x d'

namespace OnDisk

variable {d d' : Disk} {Q Q' : α → Disk → Prop}

theorem ret {x : α} (h : Q x d) : OnDisk (.ret x) d Q := ⟨x, d, fun _ => rfl, h⟩

theorem act {a : DiskAct} {k : Except ErrorKind a.Out → StoreProg α}
    (h : OnDisk (k (a.perform d).1) (a.perform d).2 Q) : OnDisk (Prog.act (.disk a) k) d Q := by
  obtain ⟨x, d', hr, hq⟩ := h
  exact ⟨x, d', fun m => hr m, hq⟩

theorem bind {p : StoreProg α} {f : α → StoreProg β} {Q : β → Disk → Prop}
    (h : OnDisk p d fun x d' => OnDisk (f x) d' Q) : OnDisk (p >>= f) d Q := by
  obtain ⟨x, d', hr, y, d'', hr', hq⟩ := h
  exact ⟨y, d'', fun m => (run_bind (hr m)).trans (hr' m), hq⟩

theorem mono {p : StoreProg α} (h : OnDisk p d Q) (hQ : ∀ x d', Q x d' → Q' x d') :
    OnDisk p d Q' := by
  obtain ⟨x, d', hr, hq⟩ := h
  exact ⟨x, d', hr, hQ x d' hq⟩

theorem os {a : DiskAct} {Q : Res a.Out → Disk → Prop} {r : Except ErrorKind a.Out}
    (h : a.perform d = (r, d')) (hQ : Q (r.mapError .os) d') : OnDisk (StoreProg.os a) d Q := by
  refine act ?_
  rw [h]
  cases r with
  | ok x => exact ret hQ
  | error e => exact ret hQ

theorem andThen {p : StoreProg (Res α)} {f : α → StoreProg (Res β)} {Q : Res β → Disk → Prop}
    (h : OnDisk p d fun r d' =>
      match r with
      | .ok x => OnDisk (f x) d' Q
      | .error e => Q (.error e) d') : OnDisk (p.andThen f) d Q := by
  refine bind (mono h fun r d' hr => ?_)
  cases r with
  | ok x => exact hr
  | error e => exact ret hr

end OnDisk

/-! ## The parts of a write -/

namespace FilesystemStore

variable {d : Disk} {q : PathBuf} {t k : String} {i : Ino} {buf : Bytes}

theorem writeTmp_file {d' : Disk}
    (hcr : DiskAct.perform (.create (.join q t)) d = (.ok (.file i), d'))
    (hi : d'.files i = ⟨[], false⟩) :
    OnDisk (writeTmp (.join q t) buf) d fun r e => r = .ok () ∧ e = d'.setFile i ⟨buf, true⟩ := by
  have hbuf : (d'.setFile i ⟨buf, false⟩).files i = ⟨buf, false⟩ := Disk.setFile_files_self ..
  refine .andThen (.os hcr (.andThen (.os (DiskAct.writeAll_new hi)
    (.os (DiskAct.syncAll_file hbuf) ⟨rfl, ?_⟩))))
  simp

/-- A temporary file that is not there is made. -/
theorem writeTmp_new (hq : d.IsDir q) (ht : (d.dirs q).now.lookup t = none) :
    OnDisk (writeTmp (.join q t) buf) d fun r e =>
      r = .ok () ∧ e = (d.addFile q t).setFile d.next ⟨buf, true⟩ :=
  writeTmp_file (DiskAct.create_new hq ht) (by simp)

theorem syncDir_dir (hq : d.IsDir q) :
    OnDisk (syncDir q) d fun r e => r = .ok () ∧ e = d.syncDir q :=
  .andThen (.os (DiskAct.openRead_dir hq) (.os rfl ⟨rfl, rfl⟩))

/-- The move of the temporary file over the key, and the sync of the directory. -/
theorem install_file (hq : d.IsDir q) (ht : (d.dirs q).now.lookup t = some (.file i))
    (hk : (d.dirs q).now.lookup k ≠ some .dir) (htk : t ≠ k) :
    OnDisk (install q t k) d fun r e =>
      r = .ok () ∧ e = (d.change q (.move t k (.file i))).syncDir q := by
  exact .andThen (.os (DiskAct.rename_file hq ht hk htk)
    (syncDir_dir ((Disk.isDir_move ht hk q).mpr hq)))

end FilesystemStore

/-! ## Whole calls -/

/-- No lock is held. -/
def StoreMemory.Quiet (m : StoreMemory) : Prop := ∀ r, m.held r = ⟨0, false⟩

theorem StoreMemory.Quiet.new : StoreMemory.new.Quiet := fun _ => rfl

theorem StoreMemory.Quiet.cloneLock {m : StoreMemory} (h : m.Quiet) (path : PathBuf) :
    (m.cloneLock path).2.Quiet := by
  intro r
  unfold StoreMemory.cloneLock
  split
  · exact h r
  · by_cases hr : r = m.nextLock
    · simp [hr]
    · simpa [hr] using h r

/-- From `d`, with no lock held, `p` returns with `Q` and no lock held. -/
def Alone (p : StoreProg α) (d : Disk) (Q : α → Disk → Prop) : Prop :=
  ∀ m : StoreMemory, m.Quiet → ∃ x d' m', run storeStep p ⟨d, m⟩ = some (x, ⟨d', m'⟩) ∧
    m'.Quiet ∧ Q x d'

namespace Alone

variable {d : Disk} {Q Q' : α → Disk → Prop}

theorem of_onDisk {p : StoreProg α} (h : OnDisk p d Q) : Alone p d Q := by
  obtain ⟨x, d', hr, hq⟩ := h
  exact fun m hm => ⟨x, d', m, hr m, hm, hq⟩

theorem ret {x : α} (h : Q x d) : Alone (.ret x) d Q := of_onDisk (.ret h)

theorem bind {p : StoreProg α} {f : α → StoreProg β} {Q : β → Disk → Prop}
    (h : Alone p d fun x d' => Alone (f x) d' Q) : Alone (p >>= f) d Q := by
  intro m hm
  obtain ⟨x, d', m', hr, hm', hf⟩ := h m hm
  obtain ⟨y, d'', m'', hr', hm'', hq⟩ := hf m' hm'
  exact ⟨y, d'', m'', (run_bind hr).trans hr', hm'', hq⟩

theorem mono {p : StoreProg α} (h : Alone p d Q) (hQ : ∀ x d', Q x d' → Q' x d') :
    Alone p d Q' := by
  intro m hm
  obtain ⟨x, d', m', hr, hm', hq⟩ := h m hm
  exact ⟨x, d', m', hr, hm', hQ x d' hq⟩

theorem andThen {p : StoreProg (Res α)} {f : α → StoreProg (Res β)} {Q : Res β → Disk → Prop}
    (h : Alone p d fun r d' =>
      match r with
      | .ok x => Alone (f x) d' Q
      | .error e => Q (.error e) d') : Alone (p.andThen f) d Q := by
  refine bind (mono h fun r d' hr => ?_)
  cases r with
  | ok x => exact hr
  | error e => exact ret hr

theorem fetchAddTmp {k : UInt64 → StoreProg α} (h : ∀ n, Alone (k n) d Q) :
    Alone (Prog.act .fetchAddTmp k) d Q := by
  intro m hm
  exact h m.tmpFileCounter _ hm

theorem garbageCollectLocks {Q : Unit → Disk → Prop} (h : Q () d) :
    Alone FilesystemStore.garbageCollectLocks d Q := by
  intro m hm
  unfold FilesystemStore.garbageCollectLocks
  by_cases hgc : m.gcCounter % 25 = 0
  · refine ⟨(), d, StoreMemory.retainLocks { m with gcCounter := m.gcCounter + 1 }, ?_, hm, h⟩
    simp [StoreProg.act, run, storeStep, hgc, Prog.perform]
  · refine ⟨(), d, { m with gcCounter := m.gcCounter + 1 }, ?_, hm, h⟩
    simp [StoreProg.act, run, storeStep, hgc]

theorem collected {x : α} {Q : Res α → Disk → Prop} (h : Q (.ok x) d) :
    Alone (FilesystemStore.collected x) d Q :=
  bind (garbageCollectLocks (ret h))

/-- A lock that is free can be taken, and is free again afterwards. -/
theorem withLock {lock unlock : LockRef → StoreAct} (taken : RwLock) {path : PathBuf}
    {body : StoreProg α}
    (hlock : ∀ r (w : World), w.memory.held r = ⟨0, false⟩ →
      ∃ g, storeStep (lock r) w = some (g, { w with memory := w.memory.setLock r taken }))
    (hunlock : ∀ r (w : World), w.memory.held r = taken →
      ∃ g, storeStep (unlock r) w = some (g, { w with memory := w.memory.setLock r ⟨0, false⟩ }))
    (h : OnDisk body d Q) : Alone (FilesystemStore.withLock lock unlock path body) d Q := by
  obtain ⟨x, d', hr, hq⟩ := h
  intro m hm
  obtain ⟨r, m₁, hcl⟩ : ∃ r m₁, m.cloneLock path = (r, m₁) := ⟨_, _, rfl⟩
  have hm₁ : m₁.Quiet := by simpa [hcl] using hm.cloneLock path
  obtain ⟨g, hg⟩ := hlock r ⟨d, m₁⟩ (hm₁ r)
  obtain ⟨g', hg'⟩ := hunlock r ⟨d', m₁.setLock r taken⟩ (by simp [StoreMemory.setLock])
  have hcl' : storeStep (.cloneLock path) ⟨d, m⟩ = some (r, ⟨d, m₁⟩) := by simp [storeStep, hcl]
  refine ⟨x, d', ((m₁.setLock r taken).setLock r ⟨0, false⟩).setClones r (m₁.clones r - 1), ?_, ?_,
    hq⟩
  · simp only [FilesystemStore.withLock, StoreProg.act, Prog.perform_bind]
    rw [run_act hcl', run_act hg, run_bind (hr _), run_act hg']
    rfl
  · intro r'
    by_cases hrr : r' = r
    · simp [StoreMemory.setLock, StoreMemory.setClones, hrr]
    · simpa [StoreMemory.setLock, StoreMemory.setClones, hrr] using hm₁ r'

theorem withReadLock {path : PathBuf} {body : StoreProg α} (h : OnDisk body d Q) :
    Alone (FilesystemStore.withReadLock path body) d Q := by
  refine withLock ⟨1, false⟩ (fun r w hw => ⟨(), ?_⟩) (fun r w hw => ⟨(), ?_⟩) h
  · simp [storeStep, hw]
  · simp [storeStep, hw]

theorem withWriteLock {path : PathBuf} {body : StoreProg α} (h : OnDisk body d Q) :
    Alone (FilesystemStore.withWriteLock path body) d Q := by
  refine withLock ⟨0, true⟩ (fun r w hw => ⟨(), ?_⟩) (fun r w hw => ⟨(), ?_⟩) h
  · simp [storeStep, hw]
  · simp [storeStep, hw]

end Alone

/-! ## Reading -/

namespace FilesystemStore

/-- What reading the file at `p` gives. -/
def readFile (d : Disk) (p : PathBuf) : Res Bytes :=
  match d.access p with
  | .ok (.file i) => .ok (d.files i).data
  | .ok .dir => .error (.os .isADirectory)
  | .error e => .error (.os e)

variable {d : Disk} {q : PathBuf} {k : String}

theorem readFile_ok {p : PathBuf} {b : Bytes} :
    readFile d p = .ok b ↔ d.contents p = some b := by
  unfold readFile Disk.contents
  split <;> simp_all

theorem openRead_readFile (p : PathBuf) :
    OnDisk ((os (.openRead p)).andThen fun f => os (.readToEnd f)) d fun r d' =>
      d' = d ∧ r = readFile d p := by
  cases ha : d.access p with
  | error e =>
      refine .andThen (.os (DiskAct.openRead_error ha) ⟨rfl, ?_⟩)
      simp only [readFile, ha]
  | ok x =>
      cases x with
      | file i =>
          refine .andThen (.os (DiskAct.openRead_file ha) (.os rfl ⟨rfl, ?_⟩))
          simp only [readFile, ha]
          rfl
      | dir =>
          refine .andThen (.os (DiskAct.openRead_dir ha) (.os rfl ⟨rfl, ?_⟩))
          simp only [readFile, ha]
          rfl

theorem readIn_readFile :
    Alone (readIn q k) d fun r d' => d' = d ∧ r = readFile d (.join q k) := by
  refine .andThen (.withReadLock ((openRead_readFile _).mono ?_))
  rintro r d' ⟨rfl, hr⟩
  cases r with
  | error e => exact ⟨rfl, hr⟩
  | ok b => exact .collected ⟨rfl, hr⟩

/-- What `list` reports are files, and their names are not those of temporary files. -/
def Reported (d : Disk) (q : PathBuf) (r : Res (List String)) : Prop :=
  ∀ ks, r = .ok ks → ∀ n ∈ ks, ¬ IsTmp n ∧ (d.contents (.join q n)).isSome

theorem listEntries_reported (q : PathBuf) (names : List String) :
    OnDisk (listEntries q (names.map q.join)) d fun r d' => d' = d ∧ Reported d q r := by
  induction names with
  | nil =>
      refine .ret ⟨rfl, ?_⟩
      rintro _ ⟨⟩
      nofun
  | cons n names ih =>
      refine .andThen ?_
      unfold dirEntryIsKey
      split
      · exact .ret ih
      · rename_i ht
        refine .act ?_
        cases ha : d.access (.join q n) with
        | error e =>
            rw [DiskAct.metadata_error ha]
            exact .ret ⟨rfl, nofun⟩
        | ok x =>
            rw [DiskAct.metadata_ok ha]
            cases x with
            | dir => exact .ret ih
            | file i =>
                refine .ret ?_
                have hstrip : (PathBuf.join q n).stripPrefix q = some n := PathBuf.stripPrefix_join q n
                simp only [if_true, getKeyFromDirEntry, hstrip]
                split
                · exact .ret ⟨rfl, nofun⟩
                · rename_i key hkey
                  obtain rfl : n = key := by
                    split at hkey <;> cases hkey
                    rfl
                  refine .andThen (ih.mono ?_)
                  rintro r d' ⟨rfl, hr⟩
                  cases r with
                  | error e => exact ⟨rfl, nofun⟩
                  | ok ks =>
                      refine .ret ⟨rfl, ?_⟩
                      rintro _ ⟨⟩ m hm
                      rcases List.mem_cons.mp hm with rfl | hm
                      · refine ⟨ht, ?_⟩
                        simp [Disk.contents, ha]
                      · exact hr ks rfl m hm

theorem listIn_reported : Alone (listIn q) d fun r d' => d' = d ∧ Reported d q r := by
  refine .bind (.of_onDisk (.act ?_))
  cases ha : d.access q with
  | error e =>
      rw [DiskAct.metadata_error ha]
      refine .ret (.ret ⟨rfl, ?_⟩)
      rintro _ ⟨⟩ k hk
      cases hk
  | ok x =>
      rw [DiskAct.metadata_ok ha]
      refine .ret (.andThen (.of_onDisk ?_))
      cases x with
      | file i =>
          have hread : DiskAct.perform (.readDir q) d = (.error .notADirectory, d) := by
            simp only [DiskAct.perform, ha]
          refine .os hread ⟨rfl, ?_⟩
          rintro _ ⟨⟩
      | dir =>
          refine .os (DiskAct.readDir_dir ha) ?_
          refine .andThen (.of_onDisk ((listEntries_reported q _).mono ?_))
          rintro r d' ⟨rfl, hr⟩
          cases r with
          | error e =>
              refine ⟨rfl, ?_⟩
              rintro _ ⟨⟩
          | ok ks => exact .collected ⟨rfl, hr⟩

end FilesystemStore

end LightningNode
