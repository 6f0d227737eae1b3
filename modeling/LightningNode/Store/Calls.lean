/-
# `LightningNode.Store.Calls` — the calls of a store, as data
-/
import LightningNode.Store.Names

namespace LightningNode

open Conc StoreProg FilesystemStore

inductive Call where
  | read (p s k : String)
  | write (p s k : String) (buf : Bytes)
  | remove (p s k : String) (lazily : Bool)
  | list (p s : String)

inductive Reply where
  | bytes (r : Res Bytes)
  | unit (r : Res Unit)
  | keys (r : Res (List String))

/-- A reply to arguments that are not valid. -/
def Reply.Refused : Reply → Prop
  | .bytes r => ∃ msg, r = .error (.custom .other msg)
  | .unit r => ∃ msg, r = .error (.custom .other msg)
  | .keys r => ∃ msg, r = .error (.custom .other msg)

namespace Call

def program (dataDir : PathBuf) : Call → StoreProg Reply
  | .read p s k => return .bytes (← FilesystemStore.read dataDir p s k)
  | .write p s k buf => return .unit (← FilesystemStore.write dataDir p s k buf)
  | .remove p s k lazily => return .unit (← FilesystemStore.remove dataDir p s k lazily)
  | .list p s => return .keys (← FilesystemStore.list dataDir p s)

/-- The namespace of a call. -/
def level : Call → String × String
  | .read p s _ | .write p s _ _ | .remove p s _ _ | .list p s => (p, s)

/-- The directory of its namespace. -/
def dir (root : PathBuf) (c : Call) : PathBuf := getDestDirPath root c.level.1 c.level.2

def key : Call → Option String
  | .read _ _ k | .write _ _ k _ | .remove _ _ k _ => some k
  | .list _ _ => none

def Accepted (c : Call) : Prop := Accepts c.level.1 c.level.2 c.key

instance (c : Call) : Decidable c.Accepted := inferInstanceAs (Decidable (Accepts _ _ _))

/-- Arguments that are not valid are refused before anything is done. -/
theorem program_rejected {c : Call} (dataDir : PathBuf) (h : ¬ c.Accepted) :
    ∃ r : Reply, r.Refused ∧ c.program dataDir = .ret r := by
  cases c with
  | read p s k =>
      have h' : ¬ Accepts p s (some k) := h
      obtain ⟨msg, hmsg⟩ := check_rejects "read" h'
      refine ⟨.bytes (.error (.custom .other msg)), ⟨msg, rfl⟩, ?_⟩
      simp only [program, FilesystemStore.read, hmsg]
      rfl
  | write p s k buf =>
      have h' : ¬ Accepts p s (some k) := h
      obtain ⟨msg, hmsg⟩ := check_rejects "write" h'
      refine ⟨.unit (.error (.custom .other msg)), ⟨msg, rfl⟩, ?_⟩
      simp only [program, FilesystemStore.write, hmsg]
      rfl
  | remove p s k lazily =>
      have h' : ¬ Accepts p s (some k) := h
      obtain ⟨msg, hmsg⟩ := check_rejects "remove" h'
      refine ⟨.unit (.error (.custom .other msg)), ⟨msg, rfl⟩, ?_⟩
      simp only [program, FilesystemStore.remove, hmsg]
      rfl
  | list p s =>
      have h' : ¬ Accepts p s none := h
      obtain ⟨msg, hmsg⟩ := check_rejects "list" h'
      refine ⟨.keys (.error (.custom .other msg)), ⟨msg, rfl⟩, ?_⟩
      simp only [program, FilesystemStore.list, hmsg]
      rfl

/-- The call, once its arguments are accepted. -/
def programIn (dataDir : PathBuf) : Call → StoreProg Reply
  | .read p s k => return .bytes (← FilesystemStore.readIn (getDestDirPath dataDir p s) k)
  | .write p s k buf => return .unit (← FilesystemStore.writeIn (getDestDirPath dataDir p s) k buf)
  | .remove p s k lazily =>
      return .unit (← FilesystemStore.removeIn (getDestDirPath dataDir p s) k lazily)
  | .list p s => return .keys (← FilesystemStore.listIn (getDestDirPath dataDir p s))

theorem program_accepted {c : Call} (dataDir : PathBuf) (h : c.Accepted) :
    c.program dataDir = c.programIn dataDir := by
  cases c with
  | read p s k =>
      have h' : Accepts p s (some k) := h
      rw [program, read_accepted h', programIn]
  | write p s k buf =>
      have h' : Accepts p s (some k) := h
      rw [program, write_accepted h', programIn]
  | remove p s k lazily =>
      have h' : Accepts p s (some k) := h
      rw [program, remove_accepted h', programIn]
  | list p s =>
      have h' : Accepts p s none := h
      rw [program, list_accepted h', programIn]

/-- The writes the call stands for. -/
def issues : Call → List (String × String × String × Bytes)
  | .write p s k buf => [(p, s, k, buf)]
  | _ => []

end Call

def runCalls (dataDir : PathBuf) : List Call → StoreProg (List Reply)
  | [] => return []
  | c :: cs => do
      let r ← c.program dataDir
      let rs ← runCalls dataDir cs
      return r :: rs

/-! ## What the parts of a call perform -/

section

variable {α β : Type}

theorem andThen_eq (p : StoreProg (Res α)) (f : α → StoreProg (Res β)) :
    p.andThen f = Prog.andThen p f := by
  refine congrArg p.bind (funext fun r => ?_)
  cases r with
  | ok x => rfl
  | error e => rfl

/-- The calls of the operating system made outside the locks. -/
def OutsideLock : DiskAct → Prop
  | .mkdir _ | .create _ | .writeAll _ _ | .syncAll _ | .metadata _ | .readDir _ => True
  | .openRead _ | .readToEnd _ | .rename _ _ | .removeFile _ => False

variable {P : StoreAct → Prop}

theorem every_andThen {p : StoreProg (Res α)} {f : α → StoreProg (Res β)}
    (hp : p.Every P) (hf : ∀ x, (f x).Every P) : (p.andThen f).Every P := by
  rw [andThen_eq]
  exact hp.andThen hf

theorem every_os {x : DiskAct} (h : P (.disk x)) : (os x).Every P := by
  refine ⟨h, fun r => ?_⟩
  cases r with
  | ok x => exact trivial
  | error e => exact trivial

variable (hP : ∀ x, OutsideLock x → P (.disk x))

include hP

theorem every_createDirAll (q : PathBuf) : (createDirAll q).Every P := by
  have hexisting : ∀ q e, (createDirAll.existing q e).Every P := by
    intro q e
    refine ⟨hP _ trivial, fun r => ?_⟩
    cases r with
    | error e => exact trivial
    | ok x =>
        cases x with
        | dir => exact trivial
        | file i => exact trivial
  induction q with
  | base s =>
      refine ⟨hP _ trivial, fun r => ?_⟩
      cases r with
      | ok x => exact trivial
      | error e => exact hexisting _ _
  | join q n ih =>
      refine ⟨hP _ trivial, fun r => ?_⟩
      cases r with
      | ok x => exact trivial
      | error e =>
          cases e with
          | notFound =>
              refine every_andThen ih fun _ => ⟨hP _ trivial, fun r => ?_⟩
              cases r with
              | ok x => exact trivial
              | error e => exact hexisting _ _
          | _ => exact hexisting _ _

theorem every_writeTmp (tmp : PathBuf) (buf : Bytes) : (writeTmp tmp buf).Every P :=
  every_andThen (every_os (hP _ trivial)) fun _ =>
    every_andThen (every_os (hP _ trivial)) fun _ => every_os (hP _ trivial)

theorem every_listEntries (q : PathBuf) (ps : List PathBuf) : (listEntries q ps).Every P := by
  induction ps with
  | nil => exact trivial
  | cons p ps ih =>
      refine every_andThen ?_ fun isKey => ?_
      · unfold dirEntryIsKey
        split
        · exact trivial
        · refine ⟨hP _ trivial, fun r => ?_⟩
          cases r with
          | error e => exact trivial
          | ok x =>
              cases x with
              | dir => exact trivial
              | file i => exact trivial
      · split
        · split
          · exact trivial
          · exact every_andThen ih fun _ => trivial
        · exact ih

end

end LightningNode
