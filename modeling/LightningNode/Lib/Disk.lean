/-
# `LightningNode.Lib.Disk` — a disk that forgets what was not synced

Files are inodes, directories map names to files and directories.  A change of
a directory is pending until the directory is synced, the data of a file is
unsynced until the file is.

    access p        what the path leads to, or why it leads nowhere
    contents p      the data of the file it leads to
    Entry           two disks that differ in one entry

The calls of the operating system are in `LightningNode.Lib.DiskCalls`, the loss
of what is pending in `LightningNode.Lib.PowerLoss`.
-/
import LightningNode.Lib.AssocList
import LightningNode.Lib.Path
import Mathlib.Logic.Function.Basic

namespace Conc

inductive ErrorKind where
  | notFound
  | notADirectory
  | isADirectory
  | alreadyExists
  | invalidInput
  | other
  deriving DecidableEq

/-! ## Directories -/

abbrev Ino := Nat

inductive Node where
  | file (i : Ino)
  | dir
  deriving DecidableEq

abbrev Names := AList fun _ : String => Node

/-- A change of a directory.  A moved entry takes its node along. -/
inductive DirOp where
  | set (name : String) (x : Node)
  | del (name : String)
  | move (src dst : String) (x : Node)

namespace DirOp

def on : DirOp → Names → Names
  | .set name x, m => m.insert name x
  | .del name, m => m.erase name
  | .move src dst x, m => (m.erase src).insert dst x

variable (m : Names) (n name src dst : String) (x : Node)

@[simp] theorem lookup_set :
    ((set name x).on m).lookup n = if n = name then some x else m.lookup n := by
  by_cases h : n = name
  · subst h; simp [on]
  · simp [on, AList.lookup_insert_ne h, h]

@[simp] theorem lookup_del :
    ((del name).on m).lookup n = if n = name then none else m.lookup n := by
  by_cases h : n = name
  · subst h; simp [on]
  · simp [on, AList.lookup_erase_ne h, h]

@[simp] theorem lookup_move :
    ((move src dst x).on m).lookup n =
      if n = dst then some x else if n = src then none else m.lookup n := by
  by_cases h : n = dst
  · subst h; simp [on]
  · by_cases h' : n = src
    · subst h'; simp [on, AList.lookup_insert_ne h, h]
    · simp [on, AList.lookup_insert_ne h, AList.lookup_erase_ne h', h, h']

/-- The change puts `x` under the name. -/
def Puts : DirOp → String → Node → Prop
  | .set name x, n, y | .move _ name x, n, y => n = name ∧ y = x
  | .del _, _, _ => False

variable {m n x}

theorem lookup_on {op : DirOp} (h : (op.on m).lookup n = some x) :
    m.lookup n = some x ∨ op.Puts n x := by
  cases op with
  | set name y =>
      rw [lookup_set] at h
      split_ifs at h with hn
      · exact Or.inr ⟨hn, (Option.some.inj h).symm⟩
      · exact Or.inl h
  | del name =>
      rw [lookup_del] at h
      split_ifs at h
      exact Or.inl h
  | move src dst y =>
      rw [lookup_move] at h
      split_ifs at h with hn
      · exact Or.inr ⟨hn, (Option.some.inj h).symm⟩
      · exact Or.inl h

/-- What changes make of the entries, an entry of before or one that they put there. -/
theorem lookup_foldl {ops : List DirOp}
    (h : (ops.foldl (fun m op => op.on m) m).lookup n = some x) :
    m.lookup n = some x ∨ ∃ op ∈ ops, op.Puts n x := by
  induction ops generalizing m with
  | nil => exact Or.inl h
  | cons op ops ih =>
      rcases ih h with hm | ⟨op', hop', hput⟩
      · rcases lookup_on hm with hm | hput
        · exact Or.inl hm
        · exact Or.inr ⟨op, List.mem_cons_self, hput⟩
      · exact Or.inr ⟨op', List.mem_cons_of_mem _ hop', hput⟩

theorem Puts.lookup {op : DirOp} (h : op.Puts n x) : (op.on m).lookup n = some x := by
  cases op with
  | set name y =>
      obtain ⟨rfl, rfl⟩ := h
      rw [lookup_set, if_pos rfl]
  | del name => exact h.elim
  | move src dst y =>
      obtain ⟨rfl, rfl⟩ := h
      rw [lookup_move, if_pos rfl]

end DirOp

structure Dir where
  synced : Names
  pending : List DirOp

namespace Dir

def empty : Dir := ⟨∅, []⟩

def after (d : Dir) (ops : List DirOp) : Names := ops.foldl (fun m op => op.on m) d.synced

/-- The directory as the running system sees it. -/
def now (d : Dir) : Names := d.after d.pending

def add (d : Dir) (op : DirOp) : Dir := { d with pending := d.pending ++ [op] }

def sync (d : Dir) : Dir := ⟨d.now, []⟩

/-- What a power loss may leave of the directory. -/
def MayBe (d : Dir) (m : Names) : Prop := ∃ ops : List DirOp, ops.Sublist d.pending ∧ m = d.after ops

@[simp] theorem now_add (d : Dir) (op : DirOp) : (d.add op).now = op.on d.now := by
  simp [now, add, after]

@[simp] theorem now_sync (d : Dir) : d.sync.now = d.now := rfl

theorem mayBe_now (d : Dir) : d.MayBe d.now := ⟨d.pending, .refl _, rfl⟩

@[simp] theorem mayBe_sync {d : Dir} {m : Names} : d.sync.MayBe m ↔ m = d.now := by
  constructor
  · rintro ⟨ops, hs, rfl⟩
    obtain rfl := List.sublist_nil.mp hs
    rfl
  · rintro rfl
    exact ⟨[], .refl _, rfl⟩

theorem mayBe_empty {m : Names} : empty.MayBe m ↔ m = ∅ := mayBe_sync (d := empty)

theorem mayBe_add {d : Dir} {op : DirOp} {m : Names} :
    (d.add op).MayBe m ↔ d.MayBe m ∨ ∃ m', d.MayBe m' ∧ m = op.on m' := by
  constructor
  · rintro ⟨ops, hs, rfl⟩
    rcases List.sublist_append_iff.mp hs with ⟨l₁, l₂, rfl, h₁, h₂⟩
    rcases List.sublist_singleton.mp h₂ with rfl | rfl
    · exact Or.inl ⟨l₁, h₁, by simp [after, add]⟩
    · exact Or.inr ⟨d.after l₁, ⟨l₁, h₁, rfl⟩, by simp [after, add]⟩
  · rintro (⟨ops, hs, rfl⟩ | ⟨m', ⟨ops, hs, rfl⟩, rfl⟩)
    · exact ⟨ops, hs.trans (List.sublist_append_left _ _), rfl⟩
    · exact ⟨ops ++ [op], hs.append (.refl _), by simp [after, add]⟩

/-- The name leads to `x` in the synced entries, or would by a pending change. -/
def MayHold (d : Dir) (n : String) (x : Node) : Prop :=
  d.synced.lookup n = some x ∨ ∃ op ∈ d.pending, op.Puts n x

theorem mayHold_iff {d : Dir} {n : String} {x : Node} :
    d.MayHold n x ↔ ∃ m, d.MayBe m ∧ m.lookup n = some x := by
  constructor
  · rintro (hs | ⟨op, hop, hput⟩)
    · exact ⟨d.synced, ⟨[], List.nil_sublist _, rfl⟩, hs⟩
    · exact ⟨op.on d.synced, ⟨[op], List.singleton_sublist.mpr hop, rfl⟩, hput.lookup⟩
  · rintro ⟨_, ⟨ops, hsub, rfl⟩, hn⟩
    rcases DirOp.lookup_foldl hn with hs | ⟨op, hop, hput⟩
    · exact Or.inl hs
    · exact Or.inr ⟨op, hsub.subset hop, hput⟩

end Dir

/-! ## The disk -/

structure File where
  data : List UInt8
  synced : Bool

structure Disk where
  dirs : PathBuf → Dir
  files : Ino → File
  next : Ino

/-- An open file or directory. -/
inductive Handle where
  | file (i : Ino)
  | dir (p : PathBuf)
  deriving DecidableEq

namespace Disk

/-- What the path leads to.  A base is a directory that is always there: the root of
the file system, or the working directory. -/
def access (d : Disk) : PathBuf → Except ErrorKind Node
  | .base _ => .ok .dir
  | .join p name =>
      match d.access p with
      | .error e => .error e
      | .ok (.file _) => .error .notADirectory
      | .ok .dir =>
          match (d.dirs p).now.lookup name with
          | none => .error .notFound
          | some x => .ok x

/-- The data of the file the path leads to. -/
def contents (d : Disk) (p : PathBuf) : Option (List UInt8) :=
  match d.access p with
  | .ok (.file i) => some (d.files i).data
  | _ => none

def IsDir (d : Disk) (p : PathBuf) : Prop := d.access p = .ok .dir

theorem isDir_base (d : Disk) (s : String) : d.IsDir (.base s) := rfl

theorem access_join {d : Disk} {p : PathBuf} {name : String} {x : Node} :
    d.access (.join p name) = .ok x ↔ d.IsDir p ∧ (d.dirs p).now.lookup name = some x := by
  simp only [access, IsDir]
  cases hp : d.access p with
  | error e => simp
  | ok y =>
      cases y with
      | file i => simp
      | dir => cases hn : (d.dirs p).now.lookup name <;> simp

theorem access_join_notFound {d : Disk} {p : PathBuf} {name : String} :
    d.access (.join p name) = .error .notFound ↔
      d.access p = .error .notFound ∨ d.IsDir p ∧ (d.dirs p).now.lookup name = none := by
  simp only [access, IsDir]
  cases hp : d.access p with
  | error e => simp
  | ok y =>
      cases y with
      | file i => simp
      | dir => cases hn : (d.dirs p).now.lookup name <;> simp

theorem isDir_join {d : Disk} {p : PathBuf} {name : String} :
    d.IsDir (.join p name) ↔ d.IsDir p ∧ (d.dirs p).now.lookup name = some .dir := access_join

theorem IsDir.above {d : Disk} {q r : PathBuf} (hq : d.IsDir q) (h : Above q r) : d.IsDir r := by
  induction h with
  | here => exact hq
  | up _ ih => exact (isDir_join.mp ih).1

theorem contents_eq_some {d : Disk} {p : PathBuf} {bytes : List UInt8} :
    d.contents p = some bytes ↔ ∃ i, d.access p = .ok (.file i) ∧ (d.files i).data = bytes := by
  unfold contents
  split
  · rename_i i hi
    simp [hi]
  · rename_i hne
    constructor
    · nofun
    · rintro ⟨i, hi, _⟩
      exact absurd hi (hne i)

theorem contents_join {d : Disk} {p : PathBuf} {name : String} {bytes : List UInt8} :
    d.contents (.join p name) = some bytes ↔
      d.IsDir p ∧ ∃ i, (d.dirs p).now.lookup name = some (.file i) ∧ (d.files i).data = bytes := by
  rw [contents_eq_some]
  constructor
  · rintro ⟨i, hi, hb⟩
    obtain ⟨hp, hl⟩ := access_join.mp hi
    exact ⟨hp, i, hl, hb⟩
  · rintro ⟨hp, i, hl, hb⟩
    exact ⟨i, access_join.mpr ⟨hp, hl⟩, hb⟩

theorem contents_eq_none {d : Disk} {p : PathBuf} {name : String}
    (h : (d.dirs p).now.lookup name = none) : d.contents (.join p name) = none := by
  refine Option.eq_none_iff_forall_not_mem.mpr fun bytes hb => ?_
  obtain ⟨_, i, hl, _⟩ := contents_join.mp hb
  rw [h] at hl
  cases hl

/-- What is at a name depends on its entry, and on the data of the file it leads to. -/
theorem contents_congr {d d' : Disk} {p : PathBuf} {name : String} (hp : d'.IsDir p ↔ d.IsDir p)
    (hl : (d'.dirs p).now.lookup name = (d.dirs p).now.lookup name)
    (hf : ∀ i, (d.dirs p).now.lookup name = some (.file i) → (d'.files i).data = (d.files i).data) :
    d'.contents (.join p name) = d.contents (.join p name) := by
  refine Option.ext fun bytes => ?_
  rw [contents_join, contents_join, hp, hl]
  constructor
  · rintro ⟨hd, i, hi, hb⟩
    exact ⟨hd, i, hi, hf i hi ▸ hb⟩
  · rintro ⟨hd, i, hi, hb⟩
    exact ⟨hd, i, hi, (hf i hi).symm ▸ hb⟩

/-- Which paths are directories depends on the entries for directories only. -/
theorem isDir_congr {d d' : Disk}
    (h : ∀ p name, (d'.dirs p).now.lookup name = some .dir ↔
      (d.dirs p).now.lookup name = some .dir) : ∀ p, d'.IsDir p ↔ d.IsDir p
  | .base s => ⟨fun _ => isDir_base d s, fun _ => isDir_base d' s⟩
  | .join p name => by
      have ih := isDir_congr h p
      rw [isDir_join, isDir_join, ih, h p name]

/-- One more change pending in the directory `p`. -/
def change (d : Disk) (p : PathBuf) (op : DirOp) : Disk :=
  { d with dirs := Function.update d.dirs p ((d.dirs p).add op) }

def setFile (d : Disk) (i : Ino) (f : File) : Disk :=
  { d with files := Function.update d.files i f }

/-- A new, empty directory `name` in `p`. -/
def addDir (d : Disk) (p : PathBuf) (name : String) : Disk :=
  { d with
    dirs := Function.update (d.change p (.set name .dir)).dirs (.join p name) .empty }

/-- A new, empty file `name` in `p`. -/
def addFile (d : Disk) (p : PathBuf) (name : String) : Disk :=
  { (d.setFile d.next ⟨[], false⟩).change p (.set name (.file d.next)) with next := d.next + 1 }

def syncDir (d : Disk) (p : PathBuf) : Disk :=
  { d with dirs := Function.update d.dirs p (d.dirs p).sync }

/-- No entry, no file. -/
def fresh : Disk := ⟨fun _ => .empty, fun _ => ⟨[], true⟩, 0⟩

section

variable (d : Disk) (p q : PathBuf) (op : DirOp) (name n : String) (i j : Ino) (f g : File)

@[simp] theorem setFile_dirs : (d.setFile i f).dirs = d.dirs := rfl

@[simp] theorem setFile_next : (d.setFile i f).next = d.next := rfl

@[simp] theorem setFile_files_self : (d.setFile i f).files i = f := by
  simp [setFile]

theorem setFile_files_ne {i j : Ino} (h : j ≠ i) : (d.setFile i f).files j = d.files j := by
  simp [setFile, h]

@[simp] theorem setFile_setFile : (d.setFile i f).setFile i g = d.setFile i g := by
  simp only [setFile, Function.update_idem]

@[simp] theorem change_files : (d.change p op).files = d.files := rfl

@[simp] theorem change_next : (d.change p op).next = d.next := rfl

@[simp] theorem syncDir_files : (d.syncDir p).files = d.files := rfl

@[simp] theorem syncDir_next : (d.syncDir p).next = d.next := rfl

@[simp] theorem addFile_next : (d.addFile p name).next = d.next + 1 := rfl

@[simp] theorem addFile_files : (d.addFile p name).files = (d.setFile d.next ⟨[], false⟩).files := rfl

theorem setFile_addFile_files :
    ((d.addFile p name).setFile d.next f).files = (d.setFile d.next f).files := by
  have h := congrArg Disk.files (setFile_setFile d d.next ⟨[], false⟩ f)
  exact h

theorem now_change :
    ((d.change p op).dirs q).now = if q = p then op.on (d.dirs q).now else (d.dirs q).now := by
  by_cases h : q = p
  · subst h
    simp [change]
  · simp [change, h]

@[simp] theorem now_syncDir : ((d.syncDir p).dirs q).now = (d.dirs q).now := by
  by_cases h : q = p
  · subst h
    simp [syncDir]
  · simp [syncDir, h]

theorem now_addFile :
    ((d.addFile p name).dirs q).now =
      if q = p then (d.dirs q).now.insert name (.file d.next) else (d.dirs q).now :=
  now_change (d.setFile d.next ⟨[], false⟩) p q (.set name (.file d.next))

/-- Where a path leads depends on the directories above it. -/
theorem access_above {d d' : Disk} (p : PathBuf)
    (h : ∀ q, q.depth < p.depth → (d'.dirs q).now = (d.dirs q).now) : d'.access p = d.access p := by
  induction p with
  | base s => rfl
  | join p name ih =>
      have hp := ih fun q hq => h q (Nat.lt_succ_of_lt hq)
      simp only [access, hp, h p (Nat.lt_succ_self _)]

theorem isDir_setFile (q : PathBuf) : (d.setFile i f).IsDir q ↔ d.IsDir q := by
  refine isDir_congr ?_ q
  intro p n
  exact Iff.rfl

theorem access_congr {d d' : Disk} (h : ∀ q, (d'.dirs q).now = (d.dirs q).now) (p : PathBuf) :
    d'.access p = d.access p :=
  access_above p fun q _ => h q

end

end Disk

/-! ## One entry more or less -/

namespace Disk

variable {d d' : Disk} {p q : PathBuf} {name n : String}

/-- `d'` differs from `d` in what `name` in the directory `p` leads to: now `x`. -/
def Entry (d d' : Disk) (p : PathBuf) (name : String) (x : Option Node) : Prop :=
  ∀ q n, (d'.dirs q).now.lookup n = if q = p ∧ n = name then x else (d.dirs q).now.lookup n

theorem entry_addFile : Entry d (d.addFile p name) p name (some (.file d.next)) := by
  intro q n
  rw [now_addFile]
  by_cases hq : q = p
  · subst hq
    simp [AList.lookup_insert_ite]
  · simp [hq]

theorem entry_del : Entry d (d.change p (.del name)) p name none := by
  intro q n
  rw [now_change]
  by_cases hq : q = p
  · subst hq
    simp
  · simp [hq]

/-- A file made under the name `src` and moved to `dst`. -/
theorem Entry.move {i : Ino} {src dst : String} (h : Entry d d' p src (some (.file i)))
    (hs : (d.dirs p).now.lookup src = none) :
    Entry d (d'.change p (.move src dst (.file i))) p dst (some (.file i)) := by
  intro q n
  rw [now_change]
  by_cases hq : q = p
  · subst hq
    by_cases hn : n = src
    · subst hn
      simp [hs]
    · simp [h q n, hn]
  · simp [h q n, hq]

/-- A file moves, over a file or to a new name: directories stay what they are. -/
theorem isDir_move {i : Ino} {src dst : String} (hs : (d.dirs p).now.lookup src = some (.file i))
    (hd : (d.dirs p).now.lookup dst ≠ some .dir) (q : PathBuf) :
    (d.change p (.move src dst (.file i))).IsDir q ↔ d.IsDir q := by
  refine isDir_congr (fun q n => ?_) q
  rw [now_change]
  split_ifs with hq
  · subst hq
    rw [DirOp.lookup_move]
    split_ifs with hnd hns
    · subst hnd
      simp [hd]
    · subst hns
      simp [hs]
    · exact Iff.rfl
  · exact Iff.rfl

theorem Entry.syncDir {x : Option Node} (h : Entry d d' p name x) (q : PathBuf) :
    Entry d (d'.syncDir q) p name x := by
  intro q' n
  rw [now_syncDir]
  exact h q' n

theorem Entry.setFile {x : Option Node} (h : Entry d d' p name x) (i : Ino) (f : File) :
    Entry d (d'.setFile i f) p name x := h

theorem lookup_addDir : ((d.addDir p name).dirs q).now.lookup n =
    if q = .join p name then none
    else if q = p ∧ n = name then some .dir else (d.dirs q).now.lookup n := by
  by_cases hq : q = .join p name
  · subst hq
    simp [addDir, Dir.empty, Dir.now, Dir.after]
  · by_cases hp : q = p
    · subst hp
      simp [addDir, change, hq]
    · simp [addDir, change, hq, hp]

/-- A new directory is empty, so the paths below it lead nowhere, as before. -/
theorem access_addDir (hp : d.IsDir p) (hn : (d.dirs p).now.lookup name = none) (q : PathBuf) :
    (d.addDir p name).access q = if q = .join p name then .ok .dir else d.access q := by
  induction q with
  | base s => rw [if_neg nofun, access, access]
  | join q n ih =>
      have hold : d.access (.join p name) = .error .notFound :=
        access_join_notFound.mpr (Or.inr ⟨hp, hn⟩)
      rw [access, ih, lookup_addDir]
      by_cases hq : q = .join p name
      · subst hq
        rw [if_pos rfl, if_pos rfl, if_neg (PathBuf.join_ne_self _ n), access, hold]
      · rw [if_neg hq, if_neg hq]
        by_cases hqn : q = p ∧ n = name
        · obtain ⟨rfl, rfl⟩ := hqn
          rw [if_pos ⟨rfl, rfl⟩, if_pos rfl, show d.access q = .ok .dir from hp]
        · have hne : PathBuf.join q n ≠ .join p name := fun h => hqn (PathBuf.join.inj h)
          rw [if_neg hqn, if_neg hne, access]

theorem isDir_addDir (hp : d.IsDir p) (hn : (d.dirs p).now.lookup name = none) (q : PathBuf) :
    (d.addDir p name).IsDir q ↔ d.IsDir q ∨ q = .join p name := by
  rw [IsDir, access_addDir hp hn]
  split_ifs with hq
  · simp [hq]
  · simp [hq, IsDir]

theorem contents_addDir (hp : d.IsDir p) (hn : (d.dirs p).now.lookup name = none) (q : PathBuf) :
    (d.addDir p name).contents q = d.contents q := by
  have hold : d.access (.join p name) = .error .notFound :=
    access_join_notFound.mpr (Or.inr ⟨hp, hn⟩)
  rw [contents, contents, access_addDir hp hn]
  split_ifs with hq
  · rw [hq, hold]
  · rfl

/-- An entry for a file comes or goes: directories stay what they are. -/
theorem Entry.isDir {x : Option Node} (h : Entry d d' p name x)
    (hn : (d.dirs p).now.lookup name ≠ some .dir) (hx : x ≠ some .dir) (q : PathBuf) :
    d'.IsDir q ↔ d.IsDir q := by
  refine isDir_congr (fun q n => ?_) q
  rw [h q n]
  by_cases hqn : q = p ∧ n = name
  · obtain ⟨rfl, rfl⟩ := hqn
    simp [hn, hx]
  · simp [hqn]

theorem Entry.contents_self {i : Ino} (h : Entry d d' p name (some (.file i)))
    (hn : (d.dirs p).now.lookup name ≠ some .dir) (hp : d.IsDir p) :
    d'.contents (.join p name) = some (d'.files i).data := by
  refine contents_eq_some.mpr ⟨i, access_join.mpr ⟨(h.isDir hn nofun p).mpr hp, ?_⟩, rfl⟩
  simp [h p name]

theorem Entry.contents_none (h : Entry d d' p name none) :
    d'.contents (.join p name) = none :=
  contents_eq_none (by simp [h p name])

theorem Entry.contents_other {x : Option Node} (h : Entry d d' p name x)
    (hn : (d.dirs p).now.lookup name ≠ some .dir) (hx : x ≠ some .dir) {q : PathBuf} {n : String}
    (hqn : ¬ (q = p ∧ n = name))
    (hf : ∀ i, (d.dirs q).now.lookup n = some (.file i) → d'.files i = d.files i) :
    d'.contents (.join q n) = d.contents (.join q n) := by
  refine contents_congr (h.isDir hn hx q) ?_ fun i hl => congrArg File.data (hf i hl)
  rw [h q n, if_neg hqn]

end Disk

end Conc
