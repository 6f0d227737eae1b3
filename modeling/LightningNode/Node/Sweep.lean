/-
# `LightningNode.Node.Sweep` — old spendable outputs brought to the sweeper

`migrate_deprecated_spendable_outputs` of `sweep.rs`, on three directories of
files and a sweeper:

    pending       files with a name of 64 bytes are moved to processing
    processing    all files, one after another, become one file of spendable
    spendable     every descriptor of every file is passed to the sweeper

A directory is deleted file by file once its content has gone on.  A call that
fails panics, a crash can fall between any two actions, and another run follows.

The write into `spendable_outputs` is a parameter of the program: one atomic
action here, the steps of the store in `LightningNode.Node.SweepResumed`.
-/
import LightningNode.HexUtils
import LightningNode.Lib.AssocList
import LightningNode.Lib.Codec
import LightningNode.Lib.Disk
import LightningNode.Lib.Solo

namespace LightningNode

open Conc

/-- The three directories below `ldk_data_dir`. -/
inductive SweepDir where
  | pending
  | processing
  | spendable
  deriving DecidableEq

/-- What an `unwrap` finds where there is no `Ok`. -/
inductive SweepError where
  | io (e : ErrorKind)
  | decode

inductive SweepAct (D : Type) where
  | exists (k : SweepDir)
  | readDir (k : SweepDir)
  | createDirAll (k : SweepDir)
  | rename (k : SweepDir) (name : String) (k' : SweepDir) (name' : String)
  /-- `fs::read`; `File::open` and a reader -/
  | readFile (k : SweepDir) (name : String)
  | unlink (k : SweepDir) (name : String)
  | rmdir (k : SweepDir)
  | create (k : SweepDir) (name : String)
  /-- one byte of `write_all` -/
  | append (k : SweepDir) (name : String) (byte : UInt8)
  /-- `sync_all` of a file or a directory -/
  | syncAll
  /-- `persister.write("spendable_outputs", "", key, bytes)`, as one action -/
  | write (key : String) (bytes : Bytes)
  /-- `tmp_file_counter.fetch_add(1)` -/
  | fetchAddTmp
  | getSecureRandomBytes
  /-- the height of `sweeper.current_best_block()` -/
  | currentBestBlock
  /-- `sweeper.track_spendable_outputs(outputs, None, false, Some(height))` -/
  | trackSpendableOutputs (outputs : List D) (spendDelay : UInt32)

abbrev SweepAct.Answer {D : Type} : SweepAct D → Type
  | .exists _ => Bool
  | .readDir _ => Except SweepError (List String)
  | .readFile _ _ => Except SweepError Bytes
  | .fetchAddTmp => UInt64
  | .getSecureRandomBytes => Bytes
  | .currentBestBlock => UInt32
  | _ => Except SweepError Unit

abbrev SweepProg (D : Type) := Prog (SweepAct D) SweepAct.Answer

namespace Sweep

variable {D : Type}

/-! ## Programs -/

def act (a : SweepAct D) : SweepProg D a.Answer := Prog.perform a

def unlinkAll (k : SweepDir) : List String → SweepProg D (Except SweepError Unit)
  | [] => .ret (.ok ())
  | name :: names => (act (.unlink k name)).andThen fun _ => unlinkAll k names

/-- `fs::remove_dir_all`. -/
def removeDirAll (k : SweepDir) : SweepProg D (Except SweepError Unit) :=
  (act (.readDir k)).andThen fun names =>
    (unlinkAll k names).andThen fun _ => act (.rmdir k)

/-- The loop over the files of the pending directory. -/
def movePending : List String → SweepProg D (Except SweepError Unit)
  | [] => .ret (.ok ())
  | name :: names =>
      if name.utf8ByteSize = 64 then
        (act (.createDirAll .processing)).andThen fun _ =>
          (act (.rename .pending name .processing name)).andThen fun _ =>
            movePending names
      else movePending names

/-- `outputs.append(&mut fs::read(..).unwrap())` for each file. -/
def appendFiles : List String → Bytes → SweepProg D (Except SweepError Bytes)
  | [], outputs => .ret (.ok outputs)
  | name :: names, outputs =>
      (act (.readFile .processing name)).andThen fun bytes =>
        appendFiles names (outputs ++ bytes)

def readProcessing : SweepProg D (Except SweepError Bytes) :=
  .act (.readDir .processing) fun
    | .ok names => appendFiles names []
    | .error _ => .ret (.ok [])

/-- The first half: all that is pending goes to the spendable directory, in one
file with a random name. -/
def movePendingToSpendable (write : String → Bytes → SweepProg D (Except SweepError Unit)) :
    SweepProg D (Except SweepError Unit) :=
  .act (.readDir .pending) fun
    | .error _ => .ret (.ok ())
    | .ok names =>
        (movePending names).andThen fun _ =>
        readProcessing.andThen fun outputs =>
          if outputs.isEmpty then .ret (.ok ())
          else
            .act .getSecureRandomBytes fun bytes =>
              (write (hexStr bytes) outputs).andThen fun _ => removeDirAll .processing

/-- The descriptors of all files, one after another. -/
def readDescriptors (codec : Codec D) :
    List String → List D → SweepProg D (Except SweepError (List D))
  | [], outputs => .ret (.ok outputs)
  | name :: names, outputs =>
      (act (.readFile .spendable name)).andThen fun bytes =>
        match codec.all bytes with
        | none => .ret (.error .decode)
        | some ds => readDescriptors codec names (outputs ++ ds)

def readSpendable (codec : Codec D) : SweepProg D (Except SweepError (List D)) :=
  .act (.readDir .spendable) fun
    | .ok names => readDescriptors codec names []
    | .error _ => .ret (.ok [])

/-- The second half: the descriptors are tracked, and two directories deleted. -/
def trackSpendable (codec : Codec D) : SweepProg D (Except SweepError Unit) :=
  .act .currentBestBlock fun height =>
    (readSpendable codec).andThen fun outputs =>
      (act (.trackSpendableOutputs outputs (height + 2))).andThen fun _ =>
        (removeDirAll .spendable).andThen fun _ => removeDirAll .pending

def migrate (codec : Codec D) (write : String → Bytes → SweepProg D (Except SweepError Unit)) :
    SweepProg D (Except SweepError Unit) :=
  (movePendingToSpendable write).andThen fun _ => trackSpendable codec

/-- `migrate_deprecated_spendable_outputs`. -/
def migrateDeprecatedSpendableOutputs (codec : Codec D)
    (write : String → Bytes → SweepProg D (Except SweepError Unit)) :
    SweepProg D (Except SweepError Unit) :=
  .act (.exists .pending) fun
    | true => migrate codec write
    | false => .act (.exists .processing) fun
        | true => migrate codec write
        | false => .act (.exists .spendable) fun
            | true => migrate codec write
            | false => .ret (.ok ())

end Sweep

/-! ## Directories -/

/-- The directories that are there, with their files; and as history, the
descriptors the sweeper took, and whether some run has returned. -/
structure Migration (D : Type) where
  dirs : SweepDir → Option (AList fun _ : String => Bytes)
  tracked : List D
  returned : Bool

namespace Migration

variable {D : Type} {s : Migration D} {k k' : SweepDir} {name name' : String} {bytes : Bytes}

def has (s : Migration D) (k : SweepDir) : Bool := (s.dirs k).isSome

def file (s : Migration D) (k : SweepDir) (name : String) : Option Bytes :=
  (s.dirs k).bind (·.lookup name)

def setDir (s : Migration D) (k : SweepDir) (m : Option (AList fun _ : String => Bytes)) :
    Migration D :=
  { s with dirs := Function.update s.dirs k m }

def mkdir (s : Migration D) (k : SweepDir) : Migration D := s.setDir k (some ((s.dirs k).getD ∅))

def rmdir (s : Migration D) (k : SweepDir) : Migration D := s.setDir k none

def put (s : Migration D) (k : SweepDir) (name : String) (bytes : Bytes) : Migration D :=
  s.setDir k (some (((s.dirs k).getD ∅).insert name bytes))

def drop (s : Migration D) (k : SweepDir) (name : String) : Migration D :=
  s.setDir k ((s.dirs k).map (·.erase name))

theorem file_of_not_has (h : s.has k = false) : s.file k name = none := by
  have hnone : s.dirs k = none := by simpa [has] using h
  rw [file, hnone]
  rfl

theorem has_of_file (h : s.file k name = some bytes) : s.has k = true := by
  cases hh : s.has k with
  | true => rfl
  | false =>
      rw [file_of_not_has hh] at h
      exact nomatch h

@[simp] theorem file_mkdir : (s.mkdir k).file k' name = s.file k' name := by
  by_cases hk : k' = k
  · subst hk
    cases hd : s.dirs k' with
    | none => simp [mkdir, setDir, file, hd]
    | some m => simp [mkdir, setDir, file, hd]
  · simp [mkdir, setDir, file, hk]

@[simp] theorem file_rmdir :
    (s.rmdir k).file k' name = if k' = k then none else s.file k' name := by
  by_cases hk : k' = k
  · subst hk
    simp [rmdir, setDir, file]
  · simp [rmdir, setDir, file, hk]

@[simp] theorem file_put : (s.put k name bytes).file k' name'
    = if k' = k ∧ name' = name then some bytes else s.file k' name' := by
  by_cases hk : k' = k
  · subst hk
    have hput : (s.put k' name bytes).file k' name'
        = (((s.dirs k').getD ∅).insert name bytes).lookup name' := by
      simp only [put, setDir, file, Function.update_self, Option.bind_some]
    have hfile : ((s.dirs k').getD ∅).lookup name' = s.file k' name' := by
      cases hd : s.dirs k' with
      | none => simp [file, hd]
      | some m => simp [file, hd]
    rw [hput, AList.lookup_insert_ite, hfile]
    simp
  · simp [put, setDir, file, hk]

@[simp] theorem file_drop : (s.drop k name).file k' name'
    = if k' = k ∧ name' = name then none else s.file k' name' := by
  by_cases hk : k' = k
  · subst hk
    cases hd : s.dirs k' with
    | none => simp [drop, setDir, file, hd]
    | some m =>
        by_cases hn : name' = name
        · subst hn
          simp [drop, setDir, file, hd, AList.lookup_erase]
        · simp [drop, setDir, file, hd, hn, AList.lookup_erase_ne hn]
  · simp [drop, setDir, file, hk]

@[simp] theorem has_mkdir : (s.mkdir k).has k' = (decide (k' = k) || s.has k') := by
  by_cases hk : k' = k
  · simp [mkdir, setDir, has, hk]
  · simp [mkdir, setDir, has, hk]

@[simp] theorem has_rmdir : (s.rmdir k).has k' = (!decide (k' = k) && s.has k') := by
  by_cases hk : k' = k
  · simp [rmdir, setDir, has, hk]
  · simp [rmdir, setDir, has, hk]

@[simp] theorem has_put : (s.put k name bytes).has k' = (decide (k' = k) || s.has k') := by
  by_cases hk : k' = k
  · simp [put, setDir, has, hk]
  · simp [put, setDir, has, hk]

@[simp] theorem has_drop : (s.drop k name).has k' = s.has k' := by
  by_cases hk : k' = k
  · simp [drop, setDir, has, hk]
  · simp [drop, setDir, has, hk]

@[simp] theorem tracked_mkdir : (s.mkdir k).tracked = s.tracked := rfl
@[simp] theorem tracked_rmdir : (s.rmdir k).tracked = s.tracked := rfl
@[simp] theorem tracked_put : (s.put k name bytes).tracked = s.tracked := rfl
@[simp] theorem tracked_drop : (s.drop k name).tracked = s.tracked := rfl

/-- What reading a directory gives: every file once, in any order. -/
def Lists (s : Migration D) (k : SweepDir) (names : List String) : Prop :=
  names.Nodup ∧ ∀ name, name ∈ names ↔ (s.file k name).isSome

end Migration

namespace Sweep

variable {D : Type}

/-! ## Runs -/

/-- The effect of an action when nothing is wrong with the disk and the sweeper. -/
def Perform : (a : SweepAct D) → Migration D → a.Answer → Migration D → Prop
  | .exists k, s, r, s' => r = s.has k ∧ s' = s
  | .readDir k, s, r, s' =>
      s' = s ∧ if s.has k then ∃ names, s.Lists k names ∧ r = .ok names
        else r = .error (.io .notFound)
  | .createDirAll k, s, r, s' => r = .ok () ∧ s' = s.mkdir k
  | .rename k name k' name', s, r, s' =>
      match s.file k name with
      | some bytes =>
          if s.has k' then r = .ok () ∧ s' = (s.drop k name).put k' name' bytes
          else r = .error (.io .notFound) ∧ s' = s
      | none => r = .error (.io .notFound) ∧ s' = s
  | .readFile k name, s, r, s' =>
      s' = s ∧ match s.file k name with
        | some bytes => r = .ok bytes
        | none => r = .error (.io .notFound)
  | .unlink k name, s, r, s' =>
      if (s.file k name).isSome then r = .ok () ∧ s' = s.drop k name
      else r = .error (.io .notFound) ∧ s' = s
  | .rmdir k, s, r, s' =>
      s.has k ∧ s.Lists k [] ∧ r = .ok () ∧ s' = s.rmdir k ∨
      ¬ (s.has k ∧ s.Lists k []) ∧ (∃ e, r = .error (.io e)) ∧ s' = s
  | .create k name, s, r, s' =>
      if s.has k then r = .ok () ∧ s' = s.put k name []
      else r = .error (.io .notFound) ∧ s' = s
  | .append k name byte, s, r, s' =>
      match s.file k name with
      | some bytes => r = .ok () ∧ s' = s.put k name (bytes ++ [byte])
      | none => r = .error (.io .notFound) ∧ s' = s
  | .syncAll, s, r, s' => r = .ok () ∧ s' = s
  | .write key bytes, s, r, s' => r = .ok () ∧ s' = s.put .spendable key bytes
  | .fetchAddTmp, s, _, s' => s' = s
  | .getSecureRandomBytes, s, r, s' => r.length = 32 ∧ s' = s
  | .currentBestBlock, s, _, s' => s' = s
  | .trackSpendableOutputs outputs _, s, r, s' =>
      r = .ok () ∧ s' = { s with tracked := outputs ++ s.tracked }

/-- What an action may do instead: fail, and leave things as they are.  A
directory is read or is not there; a write that fails may have been made. -/
def Fault : (a : SweepAct D) → Migration D → a.Answer → Migration D → Prop
  | .createDirAll _, s, r, s' | .rename _ _ _ _, s, r, s' | .unlink _ _, s, r, s'
  | .rmdir _, s, r, s' | .create _ _, s, r, s' | .append _ _ _, s, r, s' | .syncAll, s, r, s'
  | .trackSpendableOutputs _ _, s, r, s' => (∃ e, r = .error e) ∧ s' = s
  | .readFile _ _, s, r, s' => (∃ e, r = .error e) ∧ s' = s
  | .write key bytes, s, r, s' =>
      (∃ e, r = .error e) ∧ (s' = s ∨ s' = s.mkdir .spendable ∨ s' = s.put .spendable key bytes)
  | _, _, _, _ => False

def Exec (a : SweepAct D) (s : Migration D) (r : a.Answer) (s' : Migration D) : Prop :=
  Perform a s r s' ∨ Fault a s r s'

/-- One run after another; a crash comes at any time. -/
def migrations (codec : Codec D) (write : String → Bytes → SweepProg D (Except SweepError Unit)) :
    System Unit (SweepAct D) SweepAct.Answer (Except SweepError Unit) (Migration D) where
  exec _ := Exec
  start _ s p s' := p = migrateDeprecatedSpendableOutputs codec write ∧ s' = s
  finish _ x s s' :=
    match x with
    | .ok _ => s' = { s with returned := true }
    | .error _ => s' = s
  env _ _ := False
  crash s s' := s' = s

/-- The write as one atomic action. -/
def atomicWrite (key : String) (bytes : Bytes) : SweepProg D (Except SweepError Unit) :=
  act (.write key bytes)

/-- The random name is not that of a file of the directory. -/
def FreshKey (_ : Unit) : (a : SweepAct D) → Migration D → a.Answer → Prop
  | .getSecureRandomBytes, s, r => s.file .spendable (hexStr r) = none
  | _, _, _ => True

/-! ## Rules -/

/-- What holds where nothing has panicked. -/
def OnOk {β : Type} (M : β → Migration D → Prop) : Except SweepError β → Migration D → Prop
  | .ok x, s => M x s
  | .error _, _ => True

section Rules

variable {S : System Unit (SweepAct D) SweepAct.Answer (Except SweepError Unit) (Migration D)}
  {inv : Migration D → Prop} {P : Migration D → Prop} {k : SweepDir} {name : String}

theorem andThen_rule {β γ : Type} {p : SweepProg D (Except SweepError β)}
    {f : β → SweepProg D (Except SweepError γ)} {M : β → Migration D → Prop}
    {N : γ → Migration D → Prop} (hp : (Discipline.solo S inv).Triple () P p (OnOk M))
    (hf : ∀ x, (Discipline.solo S inv).Triple () (M x) (f x) (OnOk N)) :
    (Discipline.solo S inv).Triple () P (p.andThen f) (OnOk N) := by
  refine .bind (OnOk M) hp fun r => ?_
  cases r with
  | ok x => exact hf x
  | error e => exact .solo_ret fun _ _ _ => trivial

/-- One action: what it does, and what it may do instead. -/
theorem act_rule (hS : ∀ a s r s', S.exec () a s r s' → Exec a s r s') (a : SweepAct D)
    {M : a.Answer → Migration D → Prop}
    (hdo : ∀ s, inv s → P s → ∀ r s', Perform a s r s' → inv s' ∧ M r s')
    (hfault : ∀ s, inv s → P s → ∀ r s', Fault a s r s' → inv s' ∧ M r s') :
    (Discipline.solo S inv).Triple () P (act a) M := by
  refine .solo M ?_ fun r => .solo_ret fun _ _ h => h
  intro s hi hs r s' he
  rcases hS a s r s' he with he | he
  · exact hdo s hi hs r s' he
  · exact hfault s hi hs r s' he

theorem readDir_rule (hS : ∀ a s r s', S.exec () a s r s' → Exec a s r s')
    {M : Except SweepError (List String) → Migration D → Prop}
    (hok : ∀ s names, inv s → P s → s.has k = true → s.Lists k names → M (.ok names) s)
    (herror : ∀ s e, inv s → P s → s.has k = false → M (.error e) s) :
    (Discipline.solo S inv).Triple () P (act (.readDir k)) M := by
  refine act_rule hS _ ?_ (fun _ _ _ _ _ h => h.elim)
  rintro s hi hs r _ ⟨rfl, he⟩
  cases hh : Migration.has _ k with
  | true =>
      rw [hh, if_pos rfl] at he
      obtain ⟨names, hnames, rfl⟩ := he
      exact ⟨hi, hok _ names hi hs hh hnames⟩
  | false =>
      rw [hh, if_neg Bool.false_ne_true] at he
      rw [he]
      exact ⟨hi, herror _ _ hi hs hh⟩

theorem readFile_rule (hS : ∀ a s r s', S.exec () a s r s' → Exec a s r s')
    {M : Bytes → Migration D → Prop}
    (hok : ∀ s bytes, inv s → P s → s.file k name = some bytes → M bytes s) :
    (Discipline.solo S inv).Triple () P (act (.readFile k name)) (OnOk M) := by
  refine act_rule hS _ ?_ ?_
  · rintro s hi hs r _ ⟨rfl, he⟩
    cases hf : Migration.file _ k name with
    | some bytes =>
        rw [hf] at he
        rw [he]
        exact ⟨hi, hok _ bytes hi hs hf⟩
    | none =>
        rw [hf] at he
        rw [he]
        exact ⟨hi, trivial⟩
  · rintro s hi hs r _ ⟨⟨e, rfl⟩, rfl⟩
    exact ⟨hi, trivial⟩

theorem exists_rule {β : Type} (hS : ∀ a s r s', S.exec () a s r s' → Exec a s r s')
    (k : SweepDir) {Q : Migration D → Prop} {M : Except SweepError β → Migration D → Prop}
    {f : Bool → SweepProg D (Except SweepError β)}
    (hQ : ∀ s, P s → s.has k = false → Q s)
    (htrue : (Discipline.solo S inv).Triple () (fun _ => True) (f true) M)
    (hfalse : (Discipline.solo S inv).Triple () Q (f false) M) :
    (Discipline.solo S inv).Triple () P (.act (.exists k) f) M := by
  refine .bind (p := act (.exists k)) (fun r s => r = false → Q s) ?_ fun r => ?_
  · refine act_rule hS _ ?_ (fun _ _ _ _ _ h => h.elim)
    rintro s hi hp r _ ⟨hr, rfl⟩
    refine ⟨hi, ?_⟩
    intro hr'
    exact hQ _ hp (hr.symm.trans hr')
  · cases r with
    | true => exact htrue.weaken fun _ _ _ => trivial
    | false => exact hfalse.weaken fun _ _ h => h rfl

theorem createDirAll_rule (hS : ∀ a s r s', S.exec () a s r s' → Exec a s r s')
    {M : Unit → Migration D → Prop}
    (hok : ∀ s, inv s → P s → inv (s.mkdir k) ∧ M () (s.mkdir k)) :
    (Discipline.solo S inv).Triple () P (act (.createDirAll k)) (OnOk M) := by
  refine act_rule hS _ ?_ ?_
  · rintro s hi hs r _ ⟨rfl, rfl⟩
    exact hok s hi hs
  · rintro s hi hs r _ ⟨⟨e, rfl⟩, rfl⟩
    exact ⟨hi, trivial⟩

theorem rename_rule (hS : ∀ a s r s', S.exec () a s r s' → Exec a s r s') {k' : SweepDir}
    {name' : String} {M : Unit → Migration D → Prop}
    (hok : ∀ s bytes, inv s → P s → s.file k name = some bytes →
      inv ((s.drop k name).put k' name' bytes) ∧ M () ((s.drop k name).put k' name' bytes)) :
    (Discipline.solo S inv).Triple () P (act (.rename k name k' name')) (OnOk M) := by
  refine act_rule hS _ ?_ ?_
  · intro s hi hs r s' he
    simp only [Perform] at he
    cases hf : s.file k name with
    | some bytes =>
        rw [hf] at he
        dsimp only at he
        split at he
        · obtain ⟨rfl, rfl⟩ := he
          exact hok s bytes hi hs hf
        · obtain ⟨rfl, rfl⟩ := he
          exact ⟨hi, trivial⟩
    | none =>
        rw [hf] at he
        obtain ⟨rfl, rfl⟩ := he
        exact ⟨hi, trivial⟩
  · rintro s hi hs r _ ⟨⟨e, rfl⟩, rfl⟩
    exact ⟨hi, trivial⟩

theorem unlink_rule (hS : ∀ a s r s', S.exec () a s r s' → Exec a s r s')
    {M : Unit → Migration D → Prop}
    (hok : ∀ s bytes, inv s → P s → s.file k name = some bytes →
      inv (s.drop k name) ∧ M () (s.drop k name)) :
    (Discipline.solo S inv).Triple () P (act (.unlink k name)) (OnOk M) := by
  refine act_rule hS _ ?_ ?_
  · intro s hi hs r s' he
    simp only [Perform] at he
    split at he
    · rename_i hsome
      obtain ⟨bytes, hf⟩ := Option.isSome_iff_exists.mp hsome
      obtain ⟨rfl, rfl⟩ := he
      exact hok s bytes hi hs hf
    · obtain ⟨rfl, rfl⟩ := he
      exact ⟨hi, trivial⟩
  · rintro s hi hs r _ ⟨⟨e, rfl⟩, rfl⟩
    exact ⟨hi, trivial⟩

theorem rmdir_rule (hS : ∀ a s r s', S.exec () a s r s' → Exec a s r s')
    {M : Unit → Migration D → Prop}
    (hok : ∀ s, inv s → P s → s.has k = true → (∀ name, s.file k name = none) →
      inv (s.rmdir k) ∧ M () (s.rmdir k)) :
    (Discipline.solo S inv).Triple () P (act (.rmdir k)) (OnOk M) := by
  refine act_rule hS _ ?_ ?_
  · rintro s hi hs r s' (⟨hh, hl, rfl, rfl⟩ | ⟨_, ⟨e, rfl⟩, rfl⟩)
    · refine hok s hi hs hh ?_
      intro n
      cases hf : s.file k n with
      | none => rfl
      | some bytes => exact nomatch (hl.2 n).mpr (by rw [hf]; rfl)
    · exact ⟨hi, trivial⟩
  · rintro s hi hs r _ ⟨⟨e, rfl⟩, rfl⟩
    exact ⟨hi, trivial⟩

/-- What deleting one file keeps, deleting all of them keeps. -/
theorem removeDirAll_rule (hS : ∀ a s r s', S.exec () a s r s' → Exec a s r s')
    {M : Unit → Migration D → Prop}
    (hdrop : ∀ s name bytes, inv s → P s → s.file k name = some bytes →
      inv (s.drop k name) ∧ P (s.drop k name))
    (hrmdir : ∀ s, inv s → P s → s.has k = true → (∀ name, s.file k name = none) →
      inv (s.rmdir k) ∧ M () (s.rmdir k)) :
    (Discipline.solo S inv).Triple () P (removeDirAll k) (OnOk M) := by
  have hunlink : ∀ names : List String,
      (Discipline.solo S inv).Triple () P (unlinkAll k names) (OnOk fun _ => P) := by
    intro names
    induction names with
    | nil => exact .solo_ret fun _ _ h => h
    | cons name names ih =>
        exact andThen_rule (unlink_rule hS fun s bytes => hdrop s name bytes) fun _ => ih
  refine andThen_rule (M := fun _ => P) ?_ fun names =>
    andThen_rule (hunlink names) fun _ => rmdir_rule hS hrmdir
  exact readDir_rule hS (fun _ _ _ h _ _ => h) fun _ _ _ _ _ => trivial

end Rules

/-! ## Nothing goes wrong -/

variable {s : Migration D} {k : SweepDir}

/-- The action as it is performed with no fault; the random bytes are given. -/
def smoothly (random : Bytes) : (a : SweepAct D) → Migration D → a.Answer × Migration D
  | .exists k, s => (s.has k, s)
  | .readDir k, s =>
      match s.dirs k with
      | some m => (.ok m.keys, s)
      | none => (.error (.io .notFound), s)
  | .createDirAll k, s => (.ok (), s.mkdir k)
  | .rename k name k' name', s =>
      match s.file k name with
      | some bytes =>
          if s.has k' then (.ok (), (s.drop k name).put k' name' bytes)
          else (.error (.io .notFound), s)
      | none => (.error (.io .notFound), s)
  | .readFile k name, s =>
      match s.file k name with
      | some bytes => (.ok bytes, s)
      | none => (.error (.io .notFound), s)
  | .unlink k name, s =>
      if (s.file k name).isSome then (.ok (), s.drop k name) else (.error (.io .notFound), s)
  | .rmdir k, s =>
      match s.dirs k with
      | some m => if m.keys = [] then (.ok (), s.rmdir k) else (.error (.io .other), s)
      | none => (.error (.io .notFound), s)
  | .create k name, s =>
      if s.has k then (.ok (), s.put k name []) else (.error (.io .notFound), s)
  | .append k name byte, s =>
      match s.file k name with
      | some bytes => (.ok (), s.put k name (bytes ++ [byte]))
      | none => (.error (.io .notFound), s)
  | .syncAll, s => (.ok (), s)
  | .write key bytes, s => (.ok (), s.put .spendable key bytes)
  | .fetchAddTmp, s => (0, s)
  | .getSecureRandomBytes, s => (random, s)
  | .currentBestBlock, s => (0, s)
  | .trackSpendableOutputs outputs _, s => (.ok (), { s with tracked := outputs ++ s.tracked })

theorem lists_keys {m : AList fun _ : String => Bytes} (h : s.dirs k = some m) :
    s.Lists k m.keys := by
  refine ⟨m.keys_nodup, ?_⟩
  intro name
  rw [← AList.mem_keys, ← AList.lookup_isSome, Migration.file, h]
  rfl

theorem smoothly_perform {random : Bytes} (hrandom : random.length = 32) (a : SweepAct D)
    (s : Migration D) : Perform a s (smoothly random a s).1 (smoothly random a s).2 := by
  cases a with
  | readDir k =>
      cases hd : s.dirs k with
      | some m => simpa [Perform, smoothly, hd, Migration.has] using lists_keys hd
      | none => simp [Perform, smoothly, hd, Migration.has]
  | rename k name k' name' =>
      cases hf : s.file k name with
      | some bytes =>
          cases hh : s.has k' <;> simp [Perform, smoothly, hf, hh]
      | none => simp [Perform, smoothly, hf]
  | readFile k name | append k name byte =>
      cases hf : s.file k name with
      | some bytes => simp [Perform, smoothly, hf]
      | none => simp [Perform, smoothly, hf]
  | unlink k name =>
      cases hf : (s.file k name).isSome <;> simp [Perform, smoothly, hf]
  | rmdir k =>
      cases hd : s.dirs k with
      | none => simp [Perform, smoothly, hd, Migration.has]
      | some m =>
          have hl := lists_keys hd
          by_cases hm : m.keys = []
          · rw [hm] at hl
            simp [Perform, smoothly, hd, hm, hl, Migration.has]
          · have hl' : ¬ s.Lists k [] := by
              intro h
              apply hm
              apply List.eq_nil_iff_forall_not_mem.mpr
              intro name hname
              exact nomatch (h.2 name).mpr ((hl.2 name).mp hname)
            simp [Perform, smoothly, hd, hm, hl']
  | create k name =>
      cases hh : s.has k <;> simp [Perform, smoothly, hh]
  | getSecureRandomBytes => exact ⟨hrandom, rfl⟩
  | «exists» k | createDirAll k | syncAll | write key bytes | trackSpendableOutputs outputs h =>
      exact ⟨rfl, rfl⟩
  | fetchAddTmp | currentBestBlock => rfl

end Sweep

end LightningNode
