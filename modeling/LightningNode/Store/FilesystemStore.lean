/-
# `LightningNode.Store.FilesystemStore` — `filesystem_store.rs`

The four calls of `FilesystemStore` as programs over the calls of the operating
system and the store's own memory: its two counters and its table of locks.

    write    mkdir … · fetch_add · create tmp · write · sync · lock · rename · open dir · sync dir
    remove   is_file · lock · unlink ( · open dir · sync dir unless lazy )
    read     lock · open · read
    list     exists · read_dir · metadata of each entry
-/
import LightningNode.HexUtils
import LightningNode.Lib.DiskCalls
import LightningNode.Lib.Program

namespace LightningNode

open Conc

/-! ## Memory of a store -/

abbrev LockRef := Nat

structure RwLock where
  readers : Nat
  writer : Bool
  deriving DecidableEq

/-- `locks` maps a path to its lock; `clones` counts the `Arc`s of a lock beside
the one in the table. -/
structure StoreMemory where
  tmpFileCounter : UInt64
  gcCounter : UInt64
  locks : AList fun _ : PathBuf => LockRef
  held : LockRef → RwLock
  clones : LockRef → Nat
  nextLock : LockRef

/-- `FilesystemStore::new`. -/
def StoreMemory.new : StoreMemory where
  tmpFileCounter := 0
  gcCounter := 1
  locks := ∅
  held _ := ⟨0, false⟩
  clones _ := 0
  nextLock := 0

/-- A disk, and the memory of one store on it. -/
structure World where
  disk : Disk
  memory : StoreMemory

/-! ## Actions -/

inductive StoreAct where
  | disk (a : DiskAct)
  /-- `tmp_file_counter.fetch_add(1)` -/
  | fetchAddTmp
  /-- `gc_counter.fetch_add(1)` -/
  | fetchAddGc
  /-- `outer_lock.retain(|_, v| Arc::strong_count(&v) > 1)` under the outer lock -/
  | retainLocks
  /-- `Arc::clone(&outer_lock.entry(path).or_default())` under the outer lock -/
  | cloneLock (path : PathBuf)
  | readLock (r : LockRef)
  | writeLock (r : LockRef)
  | unlockRead (r : LockRef)
  | unlockWrite (r : LockRef)
  /-- a clone of the `Arc` goes out of scope -/
  | dropLock (r : LockRef)

namespace StoreAct

abbrev Answer : StoreAct → Type
  | disk a => Except ErrorKind a.Out
  | fetchAddTmp | fetchAddGc => UInt64
  | cloneLock _ => LockRef
  | _ => Unit

end StoreAct

namespace StoreMemory

def setLock (m : StoreMemory) (r : LockRef) (l : RwLock) : StoreMemory :=
  { m with held := Function.update m.held r l }

def setClones (m : StoreMemory) (r : LockRef) (n : Nat) : StoreMemory :=
  { m with clones := Function.update m.clones r n }

/-- `entry(path).or_default()`, cloned. -/
def cloneLock (m : StoreMemory) (path : PathBuf) : LockRef × StoreMemory :=
  match m.locks.lookup path with
  | some r => (r, m.setClones r (m.clones r + 1))
  | none =>
      (m.nextLock, { m with
        locks := m.locks.insert path m.nextLock
        held := Function.update m.held m.nextLock ⟨0, false⟩
        clones := Function.update m.clones m.nextLock 1
        nextLock := m.nextLock + 1 })

theorem cloneLock_there {m : StoreMemory} {path : PathBuf} {r : LockRef}
    (h : m.locks.lookup path = some r) :
    m.cloneLock path = (r, m.setClones r (m.clones r + 1)) := by
  rw [cloneLock, h]

theorem cloneLock_new {m : StoreMemory} {path : PathBuf} (h : m.locks.lookup path = none) :
    m.cloneLock path = (m.nextLock, { m with
      locks := m.locks.insert path m.nextLock
      held := Function.update m.held m.nextLock ⟨0, false⟩
      clones := Function.update m.clones m.nextLock 1
      nextLock := m.nextLock + 1 }) := by
  rw [cloneLock, h]

def retainLocks (m : StoreMemory) : StoreMemory :=
  { m with locks := ⟨m.locks.entries.filter fun e => 0 < m.clones e.2,
      m.locks.nodupKeys.sublist List.filter_sublist⟩ }

end StoreMemory

/-- One action; `none` where a lock has to be waited for. -/
def storeStep : (a : StoreAct) → World → Option (a.Answer × World)
  | .disk a, w => some ((a.perform w.disk).1, { w with disk := (a.perform w.disk).2 })
  | .fetchAddTmp, w => some (w.memory.tmpFileCounter,
      { w with memory := { w.memory with tmpFileCounter := w.memory.tmpFileCounter + 1 } })
  | .fetchAddGc, w => some (w.memory.gcCounter,
      { w with memory := { w.memory with gcCounter := w.memory.gcCounter + 1 } })
  | .retainLocks, w => some ((), { w with memory := w.memory.retainLocks })
  | .cloneLock path, w =>
      some ((w.memory.cloneLock path).1, { w with memory := (w.memory.cloneLock path).2 })
  | .readLock r, w =>
      let l := w.memory.held r
      if l.writer then none
      else some ((), { w with memory := w.memory.setLock r { l with readers := l.readers + 1 } })
  | .writeLock r, w =>
      let l := w.memory.held r
      if l.writer ∨ 0 < l.readers then none
      else some ((), { w with memory := w.memory.setLock r { l with writer := true } })
  | .unlockRead r, w =>
      let l := w.memory.held r
      some ((), { w with memory := w.memory.setLock r { l with readers := l.readers - 1 } })
  | .unlockWrite r, w =>
      some ((), { w with memory := w.memory.setLock r { w.memory.held r with writer := false } })
  | .dropLock r, w =>
      some ((), { w with memory := w.memory.setClones r (w.memory.clones r - 1) })

/-! ## Errors -/

/-- `std::io::Error`: from the operating system, or with a message. -/
inductive IoError where
  | os (kind : ErrorKind)
  | custom (kind : ErrorKind) (msg : String)
  deriving DecidableEq

def IoError.kind : IoError → ErrorKind
  | .os kind => kind
  | .custom kind _ => kind

/-- What `{}` prints of an error of the operating system. -/
def ErrorKind.display : ErrorKind → String
  | .notFound => "No such file or directory (os error 2)"
  | .notADirectory => "Not a directory (os error 20)"
  | .isADirectory => "Is a directory (os error 21)"
  | .alreadyExists => "File exists (os error 17)"
  | .invalidInput => "Invalid argument (os error 22)"
  | .other => "Input/output error (os error 5)"

/-- `impl Display for PrintableString`. -/
def printableString (s : String) : String :=
  s.map fun c => if c.val ≤ 0x1F ∨ (0x7F ≤ c.val ∧ c.val ≤ 0x9F) then '\uFFFD' else c

abbrev StoreProg := Prog StoreAct StoreAct.Answer

abbrev Res (α : Type) := Except IoError α

namespace StoreProg

def act (a : StoreAct) : StoreProg a.Answer := Prog.perform a

/-- A call of the operating system, its error passed on. -/
def os (a : DiskAct) : StoreProg (Res a.Out) := do
  match ← act (.disk a) with
  | .ok x => return .ok x
  | .error e => return .error (.os e)

/-- `p?` followed by `f`. -/
def andThen {α β : Type} (p : StoreProg (Res α)) (f : α → StoreProg (Res β)) :
    StoreProg (Res β) := do
  match ← p with
  | .ok x => f x
  | .error e => return .error e

end StoreProg

open StoreProg

/-! ## Names -/

def KVSTORE_NAMESPACE_KEY_ALPHABET : String :=
  "abcdefghijklmnopqrstuvwxyzABCDEFGHIJKLMNOPQRSTUVWXYZ0123456789_-"

def KVSTORE_NAMESPACE_KEY_MAX_LEN : Nat := 120

def isValidKvstoreStr (key : String) : Bool :=
  key.utf8ByteSize ≤ KVSTORE_NAMESPACE_KEY_MAX_LEN &&
    key.toList.all fun c => c ∈ KVSTORE_NAMESPACE_KEY_ALPHABET.toList

/-- `check_namespace_key_validity`, with `debug_assert` off. -/
def checkNamespaceKeyValidity (primaryNamespace secondaryNamespace : String)
    (key : Option String) (operation : String) : Res Unit :=
  let p := printableString primaryNamespace
  let s := printableString secondaryNamespace
  match key with
  | some key =>
      let k := printableString key
      if key = "" then
        .error (.custom .other s!"Failed to {operation} {p}/{s}/{k}: key may not be empty.")
      else if primaryNamespace = "" ∧ secondaryNamespace ≠ "" then
        .error (.custom .other s!"Failed to {operation} {p}/{s}/{k}: primary namespace may not be empty if a non-empty secondary namespace is given.")
      else if !isValidKvstoreStr primaryNamespace || !isValidKvstoreStr secondaryNamespace ||
          !isValidKvstoreStr key then
        .error (.custom .other s!"Failed to {operation} {p}/{s}/{k}: primary namespace, secondary namespace, and key must be valid.")
      else .ok ()
  | none =>
      if primaryNamespace = "" ∧ secondaryNamespace ≠ "" then
        .error (.custom .other s!"Failed to {operation} {p}/{s}: primary namespace may not be empty if a non-empty secondary namespace is given.")
      else if !isValidKvstoreStr primaryNamespace || !isValidKvstoreStr secondaryNamespace then
        .error (.custom .other s!"Failed to {operation} {p}/{s}: primary namespace and secondary namespace must be valid.")
      else .ok ()

/-! ## `std::fs` -/

/-- `fs::create_dir_all`. -/
def createDirAll : PathBuf → StoreProg (Res Unit)
  | .base s => do
      match ← act (.disk (.mkdir (.base s))) with
      | .ok _ => return .ok ()
      | .error e => existing (.base s) e
  | .join p name => do
      match ← act (.disk (.mkdir (.join p name))) with
      | .ok _ => return .ok ()
      | .error .notFound =>
          (createDirAll p).andThen fun _ => do
            match ← act (.disk (.mkdir (.join p name))) with
            | .ok _ => return .ok ()
            | .error e => existing (.join p name) e
      | .error e => existing (.join p name) e
where
  /-- `Err(_) if path.is_dir() => Ok(())` -/
  existing (path : PathBuf) (e : ErrorKind) : StoreProg (Res Unit) := do
    match ← act (.disk (.metadata path)) with
    | .ok .dir => return .ok ()
    | _ => return .error (.os e)

/-- `Path::is_file`. -/
def isFile (path : PathBuf) : StoreProg Bool := do
  match ← act (.disk (.metadata path)) with
  | .ok (.file _) => return true
  | _ => return false

/-- `Path::exists`. -/
def pathExists (path : PathBuf) : StoreProg Bool := do
  match ← act (.disk (.metadata path)) with
  | .ok _ => return true
  | .error _ => return false

/-! ## Directory entries -/

def dirEntryIsKey (p : PathBuf) : StoreProg (Res Bool) := do
  if p.fileName.bind extension = some "tmp" then
    return .ok false
  else
    match ← act (.disk (.metadata p)) with
    | .ok .dir => return .ok false
    | .ok (.file _) => return .ok true
    | .error e =>
        return .error (.custom .other s!"Failed to list keys at path {printableString p.display}: {ErrorKind.display e}")

def getKeyFromDirEntry (p basePath : PathBuf) : Res String :=
  match p.stripPrefix basePath with
  | some relativePath =>
      if isValidKvstoreStr relativePath then .ok relativePath
      else
        .error (.custom .other s!"Failed to list keys of path {printableString p.display}: file path is not valid key")
  | none =>
      .error (.custom .other s!"Failed to list keys of path {printableString p.display}: prefix not found")

/-! ## The store -/

namespace FilesystemStore

def garbageCollectLocks : StoreProg Unit := do
  let gcCounter ← act .fetchAddGc
  -- GC_LOCK_INTERVAL
  if gcCounter % 25 = 0 then
    act .retainLocks

/-- `data_dir` with the namespaces pushed. -/
def getDestDirPath (dataDir : PathBuf) (primaryNamespace secondaryNamespace : String) : PathBuf :=
  let destDirPath := dataDir.push primaryNamespace
  if secondaryNamespace ≠ "" then destDirPath.push secondaryNamespace else destDirPath

/-- The lock of `path`, taken by `lock` around `body` and given back by `unlock`. -/
def withLock {α : Type} (lock unlock : LockRef → StoreAct) (path : PathBuf)
    (body : StoreProg α) : StoreProg α := do
  let innerLockRef ← act (.cloneLock path)
  let _guard ← act (lock innerLockRef)
  let res ← body
  let _ ← act (unlock innerLockRef)
  act (.dropLock innerLockRef)
  return res

def withReadLock {α : Type} : PathBuf → StoreProg α → StoreProg α :=
  withLock .readLock .unlockRead

def withWriteLock {α : Type} : PathBuf → StoreProg α → StoreProg α :=
  withLock .writeLock .unlockWrite

/-- The locks are collected, and `x` is returned. -/
def collected {α : Type} (x : α) : StoreProg (Res α) := do
  garbageCollectLocks
  return .ok x

variable (dataDir : PathBuf) (primaryNamespace secondaryNamespace key : String)

def destFilePath : PathBuf := (getDestDirPath dataDir primaryNamespace secondaryNamespace).push key

def noParent (path : PathBuf) : IoError :=
  .custom .invalidInput s!"Could not retrieve parent directory of {path.display}."

def read : StoreProg (Res Bytes) :=
  match checkNamespaceKeyValidity primaryNamespace secondaryNamespace (some key) "read" with
  | .error e => return .error e
  | .ok _ =>
      let dest := destFilePath dataDir primaryNamespace secondaryNamespace key
      (withReadLock dest
        ((os (.openRead dest)).andThen fun f => os (.readToEnd f))).andThen collected

/-- The temporary file: created, written and synced. -/
def writeTmp (tmp : PathBuf) (buf : Bytes) : StoreProg (Res Unit) :=
  (os (.create tmp)).andThen fun tmpFile =>
    (os (.writeAll tmpFile buf)).andThen fun _ => os (.syncAll tmpFile)

/-- `open(dir)`, `fsync(dir)`. -/
def syncDir (dir : PathBuf) : StoreProg (Res Unit) :=
  (os (.openRead dir)).andThen fun dirFile => os (.syncAll dirFile)

def tmpFilePath (dest : PathBuf) (counter : UInt64) : PathBuf :=
  dest.setExtension s!"{counter}.tmp"

def write (buf : Bytes) : StoreProg (Res Unit) :=
  match checkNamespaceKeyValidity primaryNamespace secondaryNamespace (some key) "write" with
  | .error e => return .error e
  | .ok _ =>
      let dest := destFilePath dataDir primaryNamespace secondaryNamespace key
      match dest.parent with
      | none => return .error (noParent dest)
      | some parentDirectory =>
          (createDirAll parentDirectory).andThen fun _ => do
            let counter ← act .fetchAddTmp
            let tmp := tmpFilePath dest counter
            (writeTmp tmp buf).andThen fun _ =>
              (withWriteLock dest
                ((os (.rename tmp dest)).andThen fun _ => syncDir parentDirectory)).andThen
                  collected

def remove (lazily : Bool) : StoreProg (Res Unit) :=
  match checkNamespaceKeyValidity primaryNamespace secondaryNamespace (some key) "remove" with
  | .error e => return .error e
  | .ok _ => do
      let dest := destFilePath dataDir primaryNamespace secondaryNamespace key
      if !(← isFile dest) then
        return .ok ()
      else
        (withWriteLock dest
          (if lazily then os (.removeFile dest)
          else
            (os (.removeFile dest)).andThen fun _ =>
              match dest.parent with
              | none => return .error (noParent dest)
              | some parentDirectory => syncDir parentDirectory)).andThen collected

/-- The loop of `list` over the entries of the directory. -/
def listEntries (prefixedDest : PathBuf) : List PathBuf → StoreProg (Res (List String))
  | [] => return .ok []
  | p :: entries =>
      (dirEntryIsKey p).andThen fun isKey =>
        if isKey then
          match getKeyFromDirEntry p prefixedDest with
          | .error e => return .error e
          | .ok key => (listEntries prefixedDest entries).andThen fun keys => return .ok (key :: keys)
        else listEntries prefixedDest entries

def list : StoreProg (Res (List String)) :=
  match checkNamespaceKeyValidity primaryNamespace secondaryNamespace none "list" with
  | .error e => return .error e
  | .ok _ => do
      let prefixedDest := getDestDirPath dataDir primaryNamespace secondaryNamespace
      if !(← pathExists prefixedDest) then
        return .ok []
      else
        (os (.readDir prefixedDest)).andThen fun entries =>
          (listEntries prefixedDest entries).andThen collected

end FilesystemStore

end LightningNode
