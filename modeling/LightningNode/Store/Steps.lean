/-
# `LightningNode.Store.Steps` — what one step of a call can do to the disk

One store, its calls made one after another, with faults of the disk and
crashes.  `Effect` lists everything a step may do to the disk, so that an
invariant is checked against it once:

    none · addDir · addFile tmp · setFile of a temporary file · sync ·
    move tmp over the key · del key

`Part` is a triple for a part of a call; it speaks of the disk, and of nothing
after an answer that is an error.
-/
import LightningNode.Lib.PowerLoss
import LightningNode.Lib.Solo
import LightningNode.Store.Calls
import LightningNode.Store.Names

namespace LightningNode

open Conc StoreProg FilesystemStore

/-! ## The system -/

/-- Key and data of a write that was asked for. -/
abbrev Issue := String × String × String × Bytes

structure Life where
  world : World
  issued : List Issue

namespace Life

abbrev disk (l : Life) : Disk := l.world.disk

/-- A new store on the disk `d`. -/
def start (d : Disk) : Life := ⟨⟨d, .new⟩, []⟩

end Life

/-- An action is performed, or fails. -/
inductive StoreExec (faults : Prop) : (a : StoreAct) → Life → a.Answer → Life → Prop
  | done {a : StoreAct} {l : Life} {r : a.Answer} {w : World} :
      storeStep a l.world = some (r, w) → StoreExec faults a l r { l with world := w }
  | fault {x : DiskAct} {l : Life} {e : ErrorKind} {d : Disk} : faults → x.Fault l.disk d →
      StoreExec faults (.disk x) l (.error e) { l with world := { l.world with disk := d } }

/-- Calls that meet `starts` on one store below `root`. -/
def oneStore (root : PathBuf) (starts : Call → Prop) (faults : Prop) (crash : Disk → Disk → Prop) :
    System Unit StoreAct StoreAct.Answer Reply Life where
  exec _ := StoreExec faults
  start _ l p l' := ∃ c, starts c ∧ p = c.program root ∧
    l' = { l with issued := c.issues ++ l.issued }
  finish _ _ l l' := l' = l
  env _ _ := False
  crash l l' := crash l.disk l'.disk ∧ l'.world.memory = .new ∧ l'.issued = l.issued

/-- The actions of a store with no faults, executable. -/
def play (a : StoreAct) (l : Life) : Option (a.Answer × Life) :=
  (storeStep a l.world).map fun x => (x.1, { l with world := x.2 })

theorem play_exec {faults : Prop} (a : StoreAct) (l : Life) (r : a.Answer) (l' : Life)
    (h : play a l = some (r, l')) : StoreExec faults a l r l' := by
  obtain ⟨⟨r', w⟩, hs, he⟩ := Option.map_eq_some_iff.mp h
  cases he
  exact .done hs

theorem run_play {β : Type} {p : StoreProg β} :
    ∀ {l : Life} {w : World} {x : β}, run storeStep p l.world = some (x, w) →
      run play p l = some (x, { l with world := w }) := by
  induction p with
  | ret y =>
      intro l w x h
      cases h
      rfl
  | act a k ih =>
      intro l w x h
      cases hs : storeStep a l.world with
      | none => simp [run, hs] at h
      | some rs =>
          obtain ⟨r, w₁⟩ := rs
          rw [run_act hs] at h
          have hplay : play a l = some (r, { l with world := w₁ }) := by simp [play, hs]
          rw [run_act hplay]
          exact ih r (l := { l with world := w₁ }) h

/-! ## Effects -/

/-- What a step of the call `c` may do to the disk `d`. -/
inductive Effect (root : PathBuf) (d : Disk) : Call → Disk → Prop
  | none {c : Call} : Effect root d c d
  | addDir {c : Call} {q : PathBuf} {n : String} : d.IsDir q → (d.dirs q).now.lookup n = .none →
      Effect root d c (d.addDir q n)
  | addFile {p s k : String} {buf : Bytes} {n : UInt64} : Accepts p s (some k) →
      d.IsDir (getDestDirPath root p s) →
      (d.dirs (getDestDirPath root p s)).now.lookup (tmpName k n) = .none →
      Effect root d (.write p s k buf)
        (d.addFile (getDestDirPath root p s) (tmpName k n))
  | setFile {c : Call} {q : PathBuf} {t : String} {i : Ino} {f : File} : IsTmp t →
      (d.dirs q).now.lookup t = some (.file i) → Effect root d c (d.setFile i f)
  | syncFile {c : Call} {i : Ino} : Effect root d c (d.setFile i { d.files i with synced := true })
  | syncDir {c : Call} : Effect root d c (d.syncDir (c.dir root))
  | move {p s k t : String} {buf : Bytes} {i : Ino} : Accepts p s (some k) → IsTmp t →
      d.IsDir (getDestDirPath root p s) →
      (d.dirs (getDestDirPath root p s)).now.lookup t = some (.file i) →
      (d.dirs (getDestDirPath root p s)).now.lookup k ≠ some .dir →
      d.files i = ⟨buf, true⟩ →
      Effect root d (.write p s k buf)
        (d.change (getDestDirPath root p s) (.move t k (.file i)))
  | del {p s k : String} {lazily : Bool} {i : Ino} : Accepts p s (some k) →
      d.access (.join (getDestDirPath root p s) k) = .ok (.file i) →
      Effect root d (.remove p s k lazily)
        (d.change (getDestDirPath root p s) (.del k))

/-- The data of the temporary file `t`. -/
def Holds (d : Disk) (q : PathBuf) (t : String) (i : Ino) (f : File) : Prop :=
  (d.dirs q).now.lookup t = some (.file i) ∧ d.files i = f

/-- `File::create` fails, or the file is there and empty: a new one, or one that is
left over. -/
theorem Holds.create (d : Disk) (q : PathBuf) (t : String) :
    (∃ e, DiskAct.perform (.create (.join q t)) d = (.error e, d)) ∨
      ∃ i d', DiskAct.perform (.create (.join q t)) d = (.ok (.file i), d') ∧
        d'.IsDir q ∧ Holds d' q t i ⟨[], false⟩ := by
  rcases DiskAct.create_cases d q t with he | ⟨hq, i, hl, hc⟩ | ⟨hq, hl, hc⟩
  · exact Or.inl he
  · exact Or.inr ⟨i, _, hc, (Disk.isDir_setFile _ _ _ q).mpr hq, hl, Disk.setFile_files_self ..⟩
  · have hentry : Disk.Entry d (d.addFile q t) q t _ := Disk.entry_addFile
    refine Or.inr ⟨d.next, _, hc, ?_, ?_, ?_⟩
    · exact (hentry.isDir (by simp [hl]) (by rintro ⟨⟩) q).mpr hq
    · rw [hentry, if_pos ⟨rfl, rfl⟩]
    · rw [Disk.addFile_files, Disk.setFile_files_self]

/-- A write to the file, or its sync. -/
theorem Holds.setFile {d : Disk} {q : PathBuf} {t : String} {i : Ino} {f g : File}
    (h : Holds d q t i f) : Holds (d.setFile i g) q t i g :=
  ⟨h.1, Disk.setFile_files_self ..⟩

/-- Every outcome for the directory `q` has the key `k`, with the data `buf`. -/
def Durable (d : Disk) (q : PathBuf) (k : String) (buf : Bytes) : Prop :=
  ∃ i, d.files i = ⟨buf, true⟩ ∧ ∀ m, (d.dirs q).MayBe m → m.lookup k = some (.file i)

/-- No outcome for the directory `q` has the key `k`. -/
def Gone (d : Disk) (q : PathBuf) (k : String) : Prop :=
  ∀ m, (d.dirs q).MayBe m → ∀ i, m.lookup k ≠ some (.file i)

/-- The calls of the operating system that the call `c` makes on the disk `d`. -/
inductive Does (root : PathBuf) (d : Disk) : Call → DiskAct → Prop
  | metadata {c : Call} {p : PathBuf} : Does root d c (.metadata p)
  | openRead {c : Call} {p : PathBuf} : Does root d c (.openRead p)
  | readToEnd {c : Call} {h : Handle} : Does root d c (.readToEnd h)
  | readDir {c : Call} {p : PathBuf} : Does root d c (.readDir p)
  | mkdir {c : Call} {p : PathBuf} : Does root d c (.mkdir p)
  | syncAll {c : Call} {h : Handle} : (∀ q, h = .dir q → q = c.dir root) →
      Does root d c (.syncAll h)
  | create {p s k : String} {buf : Bytes} {n : UInt64} : Accepts p s (some k) →
      Does root d (.write p s k buf)
        (.create (.join (getDestDirPath root p s) (tmpName k n)))
  | writeAll {c : Call} {q : PathBuf} {t : String} {i : Ino} {b : Bytes} {f : File} : IsTmp t →
      Holds d q t i f → Does root d c (.writeAll (.file i) b)
  | rename {p s k t : String} {buf : Bytes} {i : Ino} : Accepts p s (some k) → IsTmp t →
      Holds d (getDestDirPath root p s) t i ⟨buf, true⟩ →
      Does root d (.write p s k buf) (.rename (.join (getDestDirPath root p s) t)
        (.join (getDestDirPath root p s) k))
  | removeFile {p s k : String} {lazily : Bool} : Accepts p s (some k) →
      Does root d (.remove p s k lazily)
        (.removeFile (.join (getDestDirPath root p s) k))

variable {root : PathBuf} {d d' : Disk} {c : Call} {x : DiskAct}

/-- Performed, such a call of the operating system has one of the effects. -/
theorem Does.perform (h : Does root d c x) : Effect root d c (x.perform d).2 := by
  cases h with
  | metadata => exact .none
  | openRead =>
      rw [DiskAct.openRead_disk]
      exact .none
  | readToEnd =>
      rw [DiskAct.readToEnd_disk]
      exact .none
  | readDir =>
      rw [DiskAct.readDir_disk]
      exact .none
  | @mkdir c p =>
      rcases DiskAct.mkdir_cases d p with ⟨e, he⟩ | ⟨q, n, rfl, hq, hn, he⟩
      · rw [he]
        exact .none
      · rw [he]
        exact .addDir hq hn
  | @syncAll c h hdir =>
      cases h with
      | file i => exact .syncFile
      | dir q =>
          obtain rfl := hdir q rfl
          exact .syncDir
  | @create p s k buf n ha =>
      rcases DiskAct.create_cases d (getDestDirPath root p s) (tmpName k n) with
        ⟨e, he⟩ | ⟨_, i, hn, he⟩ | ⟨hq, hn, he⟩
      · rw [he]
        exact .none
      · rw [he]
        exact .setFile (tmpName_isTmp k n) hn
      · rw [he]
        exact .addFile ha hq hn
  | writeAll ht hh => exact .setFile ht hh.1
  | @rename p s k t buf i ha ht hh =>
      have htk : t ≠ k := fun h => (ha.2.2.2.2 k rfl).not_tmp (h ▸ ht)
      rcases DiskAct.rename_cases d (getDestDirPath root p s) htk with
        ⟨e, he⟩ | ⟨hq, j, hj, hk, he⟩
      · rw [he]
        exact .none
      · rw [he]
        obtain rfl : i = j := by simpa [hh.1] using hj
        exact .move ha ht hq hj hk hh.2
  | @removeFile p s k lazily ha =>
      rcases DiskAct.removeFile_cases d (getDestDirPath root p s) k with
        ⟨e, he⟩ | ⟨i, hi, he⟩
      · rw [he]
        exact .none
      · rw [he]
        exact .del ha hi

/-- Nor does it do anything else when it fails. -/
theorem Does.fault (h : Does root d c x) (hf : x.Fault d d') : Effect root d c d' := by
  cases hf with
  | none => exact .none
  | done => exact h.perform
  | torn =>
      cases h with
      | writeAll ht hh => exact .setFile ht hh.1

/-! ## Parts of a call -/

/-- Not a call of the operating system. -/
def StoreAct.OnMemory : StoreAct → Prop
  | .disk _ => False
  | _ => True

theorem storeStep_disk {a : StoreAct} (ha : a.OnMemory) {w w' : World} {r : a.Answer}
    (h : storeStep a w = some (r, w')) : w'.disk = w.disk := by
  cases a with
  | disk x => exact ha.elim
  | readLock r =>
      simp only [storeStep] at h
      split at h <;> cases h
      rfl
  | writeLock r =>
      simp only [storeStep] at h
      split at h <;> cases h
      rfl
  | _ => cases h; rfl

/-- `I` survives the effects of the call `c`. -/
def Kept (root : PathBuf) (I : Disk → List Issue → Prop) (c : Call) : Prop :=
  ∀ {d d' l}, I d l → c.issues ⊆ l → Effect root d c d' → I d' l

section

variable (root : PathBuf) (starts : Call → Prop) (faults : Prop) (crash : Disk → Disk → Prop)
  (I : Disk → List Issue → Prop) (c : Call) {α β : Type}

/-- From `P` on, `p` is a part of the call `c` that keeps `I`, and ends in `Q`. -/
def Part (P : Disk → Prop) (p : StoreProg β) (Q : β → Disk → Prop) : Prop :=
  (Discipline.solo (oneStore root starts faults crash) fun l => I l.disk l.issued).Triple ()
    (fun l => c.issues ⊆ l.issued ∧ P l.disk) p fun x l => c.issues ⊆ l.issued ∧ Q x l.disk

/-- A postcondition for the case that all went well. -/
def Succeeds (M : β → Disk → Prop) : Res β → Disk → Prop := fun r d => ∀ x, r = .ok x → M x d

namespace Part

variable {root starts faults crash I c} {P P' : Disk → Prop} {Q Q' : β → Disk → Prop}

theorem ret {x : β} (h : ∀ d, P d → Q x d) :
    Part root starts faults crash I c P (.ret x) Q :=
  Discipline.Triple.solo_ret fun l _ hl => ⟨hl.1, h l.disk hl.2⟩

theorem bind {p : StoreProg α} {f : α → StoreProg β} {M : α → Disk → Prop}
    (hp : Part root starts faults crash I c P p M)
    (hf : ∀ x, Part root starts faults crash I c (M x) (f x) Q) :
    Part root starts faults crash I c P (p >>= f) Q :=
  Discipline.Triple.bind _ hp hf

theorem weaken {p : StoreProg β} (h : Part root starts faults crash I c P p Q)
    (hP : ∀ d, P' d → P d) : Part root starts faults crash I c P' p Q :=
  Discipline.Triple.weaken h fun l _ hl => ⟨hl.1, hP l.disk hl.2⟩

theorem post {p : StoreProg β} (h : Part root starts faults crash I c P p Q)
    (hQ : ∀ x d, Q x d → Q' x d) : Part root starts faults crash I c P p Q' :=
  fun l hi hl => Discipline.Safe.mono _ (fun x l' _ hq => ⟨hq.1, hQ x l'.disk hq.2⟩) (h l hi hl)

theorem memory {a : StoreAct} (ha : a.OnMemory) {k : a.Answer → StoreProg β}
    (hk : ∀ r, Part root starts faults crash I c P (k r) Q) :
    Part root starts faults crash I c P (StoreProg.act a >>= k) Q := by
  refine Discipline.Triple.solo (fun _ l => c.issues ⊆ l.issued ∧ P l.disk) ?_ hk
  rintro l hi ⟨hc, hP⟩ r l' he
  cases he with
  | @done _ _ r w hs =>
      have hd : w.disk = l.disk := storeStep_disk ha hs
      exact ⟨by rw [Life.disk, hd]; exact hi, hc, by rw [Life.disk, hd]; exact hP⟩
  | fault _ _ => exact ha.elim

theorem memory_last {a : StoreAct} (ha : a.OnMemory) :
    Part root starts faults crash I c P (StoreProg.act a) fun _ => P :=
  memory ha fun _ => ret fun _ h => h

theorem disk (hI : Kept root I c) {x : DiskAct} {k : Except ErrorKind x.Out → StoreProg β}
    {M : x.Out → Disk → Prop} (hdoes : ∀ d, P d → Does root d c x)
    (hok : ∀ d v d', P d → x.perform d = (.ok v, d') → M v d')
    (hk : ∀ v, Part root starts faults crash I c (M v) (k (.ok v)) Q)
    (herr : ∀ e, Part root starts faults crash I c (fun _ => True) (k (.error e)) Q) :
    Part root starts faults crash I c P (StoreProg.act (.disk x) >>= k) Q := by
  refine Discipline.Triple.solo (fun r l => c.issues ⊆ l.issued ∧ ∀ v, r = .ok v → M v l.disk) ?_ ?_
  · rintro l hi ⟨hc, hP⟩ r l' he
    cases he with
    | @done _ _ r w hs =>
        cases hs
        refine ⟨hI hi hc (hdoes _ hP).perform, hc, ?_⟩
        intro v hv
        exact hok l.disk v _ hP (Prod.ext hv rfl)
    | @fault _ _ e d _ hf => exact ⟨hI hi hc ((hdoes _ hP).fault hf), hc, nofun⟩
  · intro r
    cases r with
    | ok v => exact Discipline.Triple.weaken (hk v) fun l _ hl => ⟨hl.1, hl.2 v rfl⟩
    | error e => exact Discipline.Triple.weaken (herr e) fun l _ hl => ⟨hl.1, trivial⟩

theorem os (hI : Kept root I c) {x : DiskAct} {M : x.Out → Disk → Prop}
    (hdoes : ∀ d, P d → Does root d c x)
    (hok : ∀ d v d', P d → x.perform d = (.ok v, d') → M v d') :
    Part root starts faults crash I c P (StoreProg.os x) (Succeeds M) := by
  refine disk hI hdoes hok ?_ ?_
  · intro v
    refine ret fun d hM => ?_
    rintro _ ⟨⟩
    exact hM
  · exact fun e => ret fun _ _ => nofun

theorem andThen {p : StoreProg (Res α)} {f : α → StoreProg (Res β)} {M : α → Disk → Prop}
    {N : β → Disk → Prop} (hp : Part root starts faults crash I c P p (Succeeds M))
    (hf : ∀ x, Part root starts faults crash I c (M x) (f x) (Succeeds N)) :
    Part root starts faults crash I c P (p.andThen f) (Succeeds N) := by
  refine bind hp ?_
  intro r
  cases r with
  | ok x => exact (hf x).weaken fun d h => h x rfl
  | error e => exact ret fun _ _ => nofun

theorem withLock {lock unlock : LockRef → StoreAct} {path : PathBuf} {body : StoreProg β}
    (hl : ∀ r, (lock r).OnMemory) (hu : ∀ r, (unlock r).OnMemory)
    (h : Part root starts faults crash I c P body Q) :
    Part root starts faults crash I c P (FilesystemStore.withLock lock unlock path body) Q := by
  refine memory (by trivial) fun r => memory (hl r) fun _ => bind h fun x => ?_
  exact memory (hu r) fun _ => memory (by trivial) fun _ => ret fun _ hQ => hQ

theorem collected {x : β} {N : β → Disk → Prop} (h : ∀ d, P d → N x d) :
    Part root starts faults crash I c P (FilesystemStore.collected x) (Succeeds N) := by
  have hret : Part root starts faults crash I c P (.ret (.ok x)) (Succeeds N) := by
    refine ret fun d hP => ?_
    rintro _ ⟨⟩
    exact h d hP
  refine bind (M := fun _ => P) (memory (by trivial) fun n => ?_) fun _ => hret
  split
  · exact memory_last (by trivial)
  · exact ret fun _ hP => hP

/-- A part of a call that is run to its end with no fault. -/
theorem run {p : StoreProg β} (h : Part root starts faults crash I c P p Q) {l : Life} {w : World}
    {x : β} (hi : I l.disk l.issued) (hc : c.issues ⊆ l.issued) (hP : P l.disk)
    (hr : run storeStep p l.world = some (x, w)) : I w.disk l.issued ∧ Q x w.disk := by
  obtain ⟨hi', _, hq⟩ :=
    Discipline.Safe.run play_exec (h l hi ⟨hc, hP⟩) hi (run_play hr)
  exact ⟨hi', hq⟩

/-! ## Whole calls -/

section

variable (hI : Kept root I c)

include hI

theorem look {x : DiskAct} (hx : ∀ d, Does root d c x) :
    Part root starts faults crash I c P (StoreProg.os x) (Succeeds fun _ _ => True) :=
  os hI (fun d _ => hx d) fun _ _ _ _ _ => trivial

theorem metadata {q : PathBuf} {k : Except ErrorKind Node → StoreProg β}
    (hk : ∀ r, Part root starts faults crash I c (fun _ => True) (k r) Q) :
    Part root starts faults crash I c P (StoreProg.act (.disk (.metadata q)) >>= k) Q :=
  disk hI (M := fun _ _ => True) (fun _ _ => .metadata) (fun _ _ _ _ _ => trivial)
    (fun v => hk (.ok v)) fun e => hk (.error e)

theorem existing (q : PathBuf) (e : ErrorKind) :
    Part root starts faults crash I c P (createDirAll.existing q e)
      (Succeeds fun _ _ => True) := by
  refine metadata hI fun r => ?_
  split
  · exact ret fun _ _ _ _ => trivial
  · exact ret fun _ _ => nofun

theorem createDirAll (q : PathBuf) :
    Part root starts faults crash I c P (createDirAll q) (Succeeds fun _ _ => True) := by
  induction q generalizing P with
  | base s =>
      refine disk hI (M := fun _ _ => True) (fun _ _ => .mkdir) (fun _ _ _ _ _ => trivial) ?_ ?_
      · exact fun _ => ret fun _ _ _ _ => trivial
      · exact fun e => existing hI _ e
  | join q n ih =>
      refine disk hI (M := fun _ _ => True) (fun _ _ => .mkdir) (fun _ _ _ _ _ => trivial) ?_ ?_
      · exact fun _ => ret fun _ _ _ _ => trivial
      · intro e
        split
        · rename_i heq
          cases heq
        · refine andThen ih fun _ => ?_
          refine disk hI (M := fun _ _ => True) (fun _ _ => .mkdir) (fun _ _ _ _ _ => trivial) ?_ ?_
          · exact fun _ => ret fun _ _ _ _ => trivial
          · exact fun e => existing hI _ e
        · exact existing hI _ _

theorem syncDir {M : Disk → Prop} (hM : ∀ d, P d → d.IsDir (c.dir root) ∧ M (d.syncDir (c.dir root))) :
    Part root starts faults crash I c P (FilesystemStore.syncDir (c.dir root))
      (Succeeds fun _ => M) := by
  refine andThen (M := fun h d => h = .dir (c.dir root) ∧ P d) (os hI ?_ ?_) fun h => os hI ?_ ?_
  · exact fun _ _ => .openRead
  · intro d v d' hP he
    rw [DiskAct.openRead_dir (hM d hP).1] at he
    cases he
    exact ⟨rfl, hP⟩
  · rintro d ⟨rfl, _⟩
    refine .syncAll ?_
    rintro _ ⟨⟩
    rfl
  · rintro d v d' ⟨rfl, hP⟩ he
    cases he
    exact (hM d hP).2

theorem readIn (q : PathBuf) (k : String) :
    Part root starts faults crash I c P (FilesystemStore.readIn q k)
      (Succeeds fun _ _ => True) := by
  refine andThen (M := fun _ _ => True) ?_ fun _ => collected fun _ _ => trivial
  refine withLock (fun _ => trivial) (fun _ => trivial) ?_
  exact andThen (look hI fun _ => .openRead) fun _ => look hI fun _ => .readToEnd

theorem listEntries (q : PathBuf) (ps : List PathBuf) :
    Part root starts faults crash I c P (listEntries q ps) (Succeeds fun _ _ => True) := by
  induction ps generalizing P with
  | nil => exact ret fun _ _ _ _ => trivial
  | cons p ps ih =>
      refine andThen (M := fun _ _ => True) ?_ fun isKey => ?_
      · unfold dirEntryIsKey
        split
        · exact ret fun _ _ _ _ => trivial
        · refine metadata hI fun r => ?_
          split
          · exact ret fun _ _ _ _ => trivial
          · exact ret fun _ _ _ _ => trivial
          · exact ret fun _ _ => nofun
      · split
        · split
          · exact ret fun _ _ => nofun
          · exact andThen ih fun _ => ret fun _ _ _ _ => trivial
        · exact ih

theorem listIn (q : PathBuf) :
    Part root starts faults crash I c P (FilesystemStore.listIn q)
      (Succeeds fun _ _ => True) := by
  refine bind (M := fun _ _ => True) ?_ fun found => ?_
  · refine metadata hI fun r => ?_
    split <;> exact ret fun _ _ => trivial
  · split
    · exact ret fun _ _ _ _ => trivial
    · refine andThen (look hI fun _ => .readDir) fun ps => ?_
      exact andThen (listEntries hI q ps) fun _ => collected fun _ _ => trivial

end

/-! The two calls that change the disk. -/

section

variable {p s k : String} {buf : Bytes} {lazily : Bool} (hacc : Accepts p s (some k))

include hacc

theorem unlinked (hI : Kept root I (.remove p s k lazily)) :
    Part root starts faults crash I (.remove p s k lazily) P
      ((withWriteLock (.join (getDestDirPath root p s) k)
        (unlink (getDestDirPath root p s) k lazily)).andThen FilesystemStore.collected)
      (Succeeds fun _ d => lazily = false → Gone d (getDestDirPath root p s) k) := by
  refine andThen (M := fun _ d => lazily = false → Gone d (getDestDirPath root p s) k) ?_
    fun _ => collected fun _ h => h
  refine withLock (fun _ => trivial) (fun _ => trivial) ?_
  cases lazily with
  | true => exact os hI (fun _ _ => .removeFile hacc) fun _ _ _ _ _ => nofun
  | false =>
      refine andThen (M := fun _ d => d.IsDir (getDestDirPath root p s) ∧
        (d.dirs (getDestDirPath root p s)).now.lookup k = none) (os hI ?_ ?_) fun _ => ?_
      · exact fun _ _ => .removeFile hacc
      · intro d v d' _ he
        rcases DiskAct.removeFile_cases d (getDestDirPath root p s) k with
          ⟨e, hr⟩ | ⟨i, hi, hr⟩
        · rw [hr] at he
          cases he
        · rw [hr] at he
          cases he
          obtain ⟨hq, hl⟩ := Disk.access_join.mp hi
          have hentry : Disk.Entry d _ (getDestDirPath root p s) k none := Disk.entry_del
          refine ⟨(hentry.isDir (by simp [hl]) nofun _).mpr hq, ?_⟩
          rw [hentry, if_pos ⟨rfl, rfl⟩]
      · refine syncDir hI ?_
        rintro d ⟨hq, hl⟩
        refine ⟨hq, ?_⟩
        intro _ m hm i hn
        rw [Disk.mayBe_syncDir_self.mp hm] at hn
        exact nomatch hl.symm.trans hn

theorem removeIn (hI : Kept root I (.remove p s k lazily)) :
    Part root starts faults crash I (.remove p s k lazily) P
      (FilesystemStore.removeIn (getDestDirPath root p s) k lazily)
      (Succeeds fun _ _ => True) := by
  refine bind (M := fun _ _ => True) ?_ fun found => ?_
  · refine metadata hI fun r => ?_
    split <;> exact ret fun _ _ => trivial
  · split
    · exact ret fun _ _ _ _ => trivial
    · refine (unlinked hacc hI).post ?_
      exact fun _ _ _ _ _ => trivial

theorem writeTmp (hI : Kept root I (.write p s k buf)) (n : UInt64) :
    Part root starts faults crash I (.write p s k buf) P
      (FilesystemStore.writeTmp (.join (getDestDirPath root p s) (tmpName k n)) buf)
      (Succeeds fun _ d =>
        ∃ i, Holds d (getDestDirPath root p s) (tmpName k n) i ⟨buf, true⟩) := by
  have ht := tmpName_isTmp k n
  generalize hq : getDestDirPath root p s = q
  -- what is known of the temporary file, given its handle
  let Open (f : File) (h : Handle) (d : Disk) : Prop :=
    ∃ i, h = .file i ∧ Holds d q (tmpName k n) i f
  refine andThen (M := Open ⟨[], false⟩) (os hI ?_ ?_) fun h => ?_
  · exact fun _ _ => hq ▸ .create hacc
  · intro d v d' _ he
    rcases Holds.create d q (tmpName k n) with ⟨e, hc⟩ | ⟨i, _, hc, _, hholds⟩
    · rw [hc] at he
      cases he
    · rw [hc] at he
      cases he
      exact ⟨i, rfl, hholds⟩
  refine andThen (M := fun _ => Open ⟨buf, false⟩ h) (os hI ?_ ?_) fun _ => os hI ?_ ?_
  · rintro d ⟨i, rfl, hh⟩
    exact .writeAll ht hh
  · rintro d v d' ⟨i, rfl, hholds⟩ he
    rw [DiskAct.writeAll_new hholds.2] at he
    cases he
    exact ⟨i, rfl, hholds.setFile⟩
  · rintro d ⟨i, rfl, _⟩
    exact .syncAll nofun
  · rintro d v d' ⟨i, rfl, hholds⟩ he
    rw [DiskAct.syncAll_file hholds.2] at he
    cases he
    exact ⟨i, hholds.setFile⟩

theorem install (hI : Kept root I (.write p s k buf)) {t : String} (ht : IsTmp t) :
    Part root starts faults crash I (.write p s k buf)
      (fun d => ∃ i, Holds d (getDestDirPath root p s) t i ⟨buf, true⟩)
      (FilesystemStore.install (getDestDirPath root p s) t k)
      (Succeeds fun _ d => Durable d (getDestDirPath root p s) k buf) := by
  have htk : t ≠ k := fun h => (hacc.2.2.2.2 k rfl).not_tmp (h ▸ ht)
  refine andThen (M := fun _ d => d.IsDir (getDestDirPath root p s) ∧
    ∃ i, Holds d (getDestDirPath root p s) k i ⟨buf, true⟩) (os hI ?_ ?_) fun _ => ?_
  · rintro d ⟨i, hh⟩
    exact .rename hacc ht hh
  · rintro d v d' ⟨i, hl, hf⟩ he
    rcases DiskAct.rename_cases d (getDestDirPath root p s) htk with
      ⟨e, hr⟩ | ⟨hq, j, hj, hk, hr⟩
    · rw [hr] at he
      cases he
    · rw [hr] at he
      cases he
      obtain rfl : i = j := by simpa [hl] using hj
      refine ⟨(Disk.isDir_move hl hk _).mpr hq, i, ?_, hf⟩
      rw [Disk.now_change, if_pos rfl, DirOp.lookup_move, if_pos rfl]
  · refine syncDir hI ?_
    rintro d ⟨hq, i, hl, hf⟩
    refine ⟨hq, i, hf, ?_⟩
    intro m hm
    rw [Disk.mayBe_syncDir_self.mp hm]
    exact hl

theorem writeIn (hI : Kept root I (.write p s k buf)) :
    Part root starts faults crash I (.write p s k buf) P
      (FilesystemStore.writeIn (getDestDirPath root p s) k buf)
      (Succeeds fun _ d => Durable d (getDestDirPath root p s) k buf) := by
  refine andThen (createDirAll hI _) fun _ => memory (by trivial) fun n => ?_
  refine andThen (writeTmp hacc hI n) fun _ => ?_
  refine andThen (M := fun _ d => Durable d (getDestDirPath root p s) k buf) ?_
    fun _ => collected fun _ h => h
  exact withLock (fun _ => trivial) (fun _ => trivial) (install hacc hI (tmpName_isTmp k n))

end

/-- A whole call. -/
theorem program (hI : Kept root I c) :
    Part root starts faults crash I c P (c.program root) fun _ _ => True := by
  by_cases ha : c.Accepted
  · rw [Call.program_accepted root ha]
    cases c with
    | read p s k => exact bind (readIn hI _ k) fun _ => ret fun _ _ => trivial
    | write p s k buf => exact bind (writeIn ha hI) fun _ => ret fun _ _ => trivial
    | remove p s k lazily => exact bind (removeIn ha hI) fun _ => ret fun _ _ => trivial
    | list p s => exact bind (listIn hI _) fun _ => ret fun _ _ => trivial
  · obtain ⟨r, _, hr⟩ := Call.program_rejected root ha
    rw [hr]
    exact ret fun _ _ => trivial

end Part

end

/-! ## Runs -/

variable {starts : Call → Prop} {faults : Prop} {crash : Disk → Disk → Prop}
  {I : Disk → List Issue → Prop}

/-- What the effects of the calls keep, and issues and crashes too, holds in every
state of every run. -/
theorem oneStore_reach (hI : ∀ c, starts c → Kept root I c)
    (hissue : ∀ {d l} (c : Call), I d l → I d (c.issues ++ l))
    (hcrash : ∀ {d d' l}, crash d d' → I d l → I d' l) {l : Life} (hl : I l.disk l.issued)
    {cfg : Config Unit StoreAct StoreAct.Answer Reply Life}
    (hr : (oneStore root starts faults crash).Reach (.idle l) cfg) :
    I cfg.state.disk cfg.state.issued := by
  let O : Outline (oneStore root starts faults crash) :=
    .solo _ (fun l => I l.disk l.issued) (fun _ => True) (fun _ _ => True)
      (by
        rintro l p l' ⟨c, hc, rfl, rfl⟩ hi _
        have hi' := hissue c hi
        have hpart : Part root starts faults crash I c (fun _ => True) _ _ := Part.program (hI c hc)
        have hp := hpart { l with issued := c.issues ++ l.issued } hi'
          ⟨List.subset_append_left _ _, trivial⟩
        exact ⟨hi', Discipline.Safe.mono _ (fun _ _ _ _ => trivial) hp⟩)
      (by
        rintro x l l' rfl hi _
        exact ⟨hi, trivial⟩)
      id
      (by
        rintro l l' ⟨hc, _, hissued⟩ hi
        exact ⟨hissued ▸ hcrash hc hi, trivial⟩)
  exact ((Outline.Inv.init O hl fun _ => trivial).reach O hr).1.state

end LightningNode
