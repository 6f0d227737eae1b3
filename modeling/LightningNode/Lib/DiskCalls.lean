/-
# `LightningNode.Lib.DiskCalls` — the calls of the operating system

    DiskAct         one call of the operating system, and its `perform`
    Fault           the same call failing

Each call has its lemmas: what it does where the path leads somewhere, and all
that it can do (`…_cases`).
-/
import LightningNode.Lib.Disk

namespace Conc

/-! ## Calls of the operating system -/

inductive DiskAct where
  | mkdir (p : PathBuf)
  /-- `File::create`: an existing file is truncated -/
  | create (p : PathBuf)
  | openRead (p : PathBuf)
  /-- `write_all` on a handle just created: from the start of the file -/
  | writeAll (h : Handle) (bytes : List UInt8)
  | syncAll (h : Handle)
  | readToEnd (h : Handle)
  /-- a file, to another name in its directory -/
  | rename (p q : PathBuf)
  | removeFile (p : PathBuf)
  | metadata (p : PathBuf)
  | readDir (p : PathBuf)

namespace DiskAct

abbrev Out : DiskAct → Type
  | mkdir _ | writeAll _ _ | syncAll _ | rename _ _ | removeFile _ => Unit
  | create _ | openRead _ => Handle
  | readToEnd _ => List UInt8
  | metadata _ => Node
  | readDir _ => List PathBuf

open Disk

def perform : (a : DiskAct) → Disk → Except ErrorKind a.Out × Disk
  | .mkdir (.base _), d => (.error .alreadyExists, d)
  | .mkdir (.join p name), d =>
      match d.access p with
      | .error e => (.error e, d)
      | .ok (.file _) => (.error .notADirectory, d)
      | .ok .dir =>
          match (d.dirs p).now.lookup name with
          | some _ => (.error .alreadyExists, d)
          | none => (.ok (), d.addDir p name)
  | .create (.base _), d => (.error .isADirectory, d)
  | .create (.join p name), d =>
      match d.access p with
      | .error e => (.error e, d)
      | .ok (.file _) => (.error .notADirectory, d)
      | .ok .dir =>
          match (d.dirs p).now.lookup name with
          | some .dir => (.error .isADirectory, d)
          | some (.file i) => (.ok (.file i), d.setFile i ⟨[], false⟩)
          | none => (.ok (.file d.next), d.addFile p name)
  | .openRead p, d =>
      match d.access p with
      | .error e => (.error e, d)
      | .ok (.file i) => (.ok (.file i), d)
      | .ok .dir => (.ok (.dir p), d)
  | .writeAll (.file i) bytes, d =>
      (.ok (), d.setFile i ⟨bytes ++ (d.files i).data.drop bytes.length, false⟩)
  | .writeAll (.dir _) _, d => (.error .isADirectory, d)
  | .syncAll (.file i), d => (.ok (), d.setFile i { d.files i with synced := true })
  | .syncAll (.dir p), d => (.ok (), d.syncDir p)
  | .readToEnd (.file i), d => (.ok (d.files i).data, d)
  | .readToEnd (.dir _), d => (.error .isADirectory, d)
  | .rename (.join p src) (.join q dst), d =>
      if p ≠ q then (.error .other, d)
      else
        match d.access p with
        | .error e => (.error e, d)
        | .ok (.file _) => (.error .notADirectory, d)
        | .ok .dir =>
            match (d.dirs p).now.lookup src, (d.dirs p).now.lookup dst with
            | none, _ => (.error .notFound, d)
            | some .dir, _ => (.error .other, d)
            | some (.file _), some .dir => (.error .isADirectory, d)
            | some (.file i), _ =>
                if src = dst then (.ok (), d) else (.ok (), d.change p (.move src dst (.file i)))
  | .rename _ _, d => (.error .other, d)
  | .removeFile (.base _), d => (.error .isADirectory, d)
  | .removeFile (.join p name), d =>
      match d.access p with
      | .error e => (.error e, d)
      | .ok (.file _) => (.error .notADirectory, d)
      | .ok .dir =>
          match (d.dirs p).now.lookup name with
          | none => (.error .notFound, d)
          | some .dir => (.error .isADirectory, d)
          | some (.file _) => (.ok (), d.change p (.del name))
  | .metadata p, d => (d.access p, d)
  | .readDir p, d =>
      match d.access p with
      | .error e => (.error e, d)
      | .ok (.file _) => (.error .notADirectory, d)
      | .ok .dir => (.ok ((d.dirs p).now.keys.map p.join), d)

/-- A base directory is always there. -/
example (d : Disk) (s : String) : perform (.mkdir (.base s)) d = (.error .alreadyExists, d) := by
  simp only [perform]

/-! Where a path leads decides what a call does. -/

section

variable {d : Disk} {p : PathBuf} {name src dst : String} {i : Ino}

theorem mkdir_new (h : d.IsDir p) (hn : (d.dirs p).now.lookup name = none) :
    perform (.mkdir (.join p name)) d = (.ok (), d.addDir p name) := by
  simp only [perform, show d.access p = .ok .dir from h, hn]

theorem mkdir_exists {x : Node} (h : d.access (.join p name) = .ok x) :
    perform (.mkdir (.join p name)) d = (.error .alreadyExists, d) := by
  obtain ⟨hp, hn⟩ := access_join.mp h
  simp only [perform, show d.access p = .ok .dir from hp, hn]

theorem mkdir_error {e : ErrorKind} (h : d.access p = .error e) :
    perform (.mkdir (.join p name)) d = (.error e, d) := by
  simp only [perform, h]

theorem create_new (h : d.IsDir p) (hn : (d.dirs p).now.lookup name = none) :
    perform (.create (.join p name)) d = (.ok (.file d.next), d.addFile p name) := by
  simp only [perform, show d.access p = .ok .dir from h, hn]

theorem create_existing (h : d.IsDir p) (hn : (d.dirs p).now.lookup name = some (.file i)) :
    perform (.create (.join p name)) d = (.ok (.file i), d.setFile i ⟨[], false⟩) := by
  simp only [perform, show d.access p = .ok .dir from h, hn]

theorem writeAll_new {b : List UInt8} (h : d.files i = ⟨[], false⟩) :
    perform (.writeAll (.file i) b) d = (.ok (), d.setFile i ⟨b, false⟩) := by
  simp only [perform, h, List.drop_nil, List.append_nil]

theorem syncAll_file {b : List UInt8} {synced : Bool} (h : d.files i = ⟨b, synced⟩) :
    perform (.syncAll (.file i)) d = (.ok (), d.setFile i ⟨b, true⟩) := by
  simp only [perform, h]

theorem openRead_dir (h : d.IsDir p) : perform (.openRead p) d = (.ok (.dir p), d) := by
  simp only [perform, show d.access p = .ok .dir from h]

theorem openRead_file (h : d.access p = .ok (.file i)) :
    perform (.openRead p) d = (.ok (.file i), d) := by
  simp only [perform, h]

theorem openRead_error {e : ErrorKind} (h : d.access p = .error e) :
    perform (.openRead p) d = (.error e, d) := by
  simp only [perform, h]

theorem metadata_ok {x : Node} (h : d.access p = .ok x) :
    perform (.metadata p) d = (.ok x, d) := by
  simp only [perform, h]

theorem metadata_error {e : ErrorKind} (h : d.access p = .error e) :
    perform (.metadata p) d = (.error e, d) := by
  simp only [perform, h]

theorem rename_file (h : d.IsDir p) (hs : (d.dirs p).now.lookup src = some (.file i))
    (hd : (d.dirs p).now.lookup dst ≠ some .dir) (hne : src ≠ dst) :
    perform (.rename (.join p src) (.join p dst)) d
      = (.ok (), d.change p (.move src dst (.file i))) := by
  simp only [perform, ne_eq, not_true_eq_false, if_false, show d.access p = .ok .dir from h, hs]
  cases hdst : (d.dirs p).now.lookup dst with
  | none => simp only [if_neg hne]
  | some x =>
      cases x with
      | dir => exact absurd hdst hd
      | file j => simp only [if_neg hne]

theorem removeFile_file (h : d.access (.join p name) = .ok (.file i)) :
    perform (.removeFile (.join p name)) d = (.ok (), d.change p (.del name)) := by
  obtain ⟨hp, hn⟩ := access_join.mp h
  simp only [perform, show d.access p = .ok .dir from hp, hn]

theorem readDir_dir (h : d.IsDir p) :
    perform (.readDir p) d = (.ok ((d.dirs p).now.keys.map p.join), d) := by
  simp only [perform, show d.access p = .ok .dir from h]

end

/-! All that a call can do, whatever the path leads to. -/

section

variable (d : Disk) (p : PathBuf) (name src dst : String)

theorem openRead_disk : (perform (.openRead p) d).2 = d := by
  cases ha : d.access p with
  | error e => rw [openRead_error ha]
  | ok x =>
      cases x with
      | file i => rw [openRead_file ha]
      | dir => rw [openRead_dir ha]

theorem readToEnd_disk (h : Handle) : (perform (.readToEnd h) d).2 = d := by
  cases h with
  | file i => rfl
  | dir p => rfl

theorem readDir_disk : (perform (.readDir p) d).2 = d := by
  cases ha : d.access p with
  | error e => simp only [perform, ha]
  | ok x =>
      cases x with
      | file i => simp only [perform, ha]
      | dir => rw [readDir_dir ha]

theorem mkdir_cases : (∃ e, perform (.mkdir p) d = (.error e, d)) ∨
    ∃ q n, p = .join q n ∧ d.IsDir q ∧ (d.dirs q).now.lookup n = none ∧
      perform (.mkdir p) d = (.ok (), d.addDir q n) := by
  cases p with
  | base s => exact Or.inl ⟨_, rfl⟩
  | join q n =>
      cases ha : d.access (.join q n) with
      | ok x => exact Or.inl ⟨_, mkdir_exists ha⟩
      | error e =>
          cases hq : d.access q with
          | error e' => exact Or.inl ⟨_, mkdir_error hq⟩
          | ok y =>
              cases y with
              | file i => exact Or.inl ⟨.notADirectory, by simp only [perform, hq]⟩
              | dir =>
                  cases hn : (d.dirs q).now.lookup n with
                  | none => exact Or.inr ⟨q, n, rfl, hq, hn, mkdir_new hq hn⟩
                  | some z => exact Or.inl ⟨_, mkdir_exists (access_join.mpr ⟨hq, hn⟩)⟩

theorem create_cases : (∃ e, perform (.create (.join p name)) d = (.error e, d)) ∨
    (d.IsDir p ∧ ∃ i, (d.dirs p).now.lookup name = some (.file i) ∧
      perform (.create (.join p name)) d = (.ok (.file i), d.setFile i ⟨[], false⟩)) ∨
    (d.IsDir p ∧ (d.dirs p).now.lookup name = none ∧
      perform (.create (.join p name)) d = (.ok (.file d.next), d.addFile p name)) := by
  cases hp : d.access p with
  | error e => exact Or.inl ⟨e, by simp only [perform, hp]⟩
  | ok y =>
      cases y with
      | file i => exact Or.inl ⟨.notADirectory, by simp only [perform, hp]⟩
      | dir =>
          cases hn : (d.dirs p).now.lookup name with
          | none => exact Or.inr (Or.inr ⟨hp, rfl, create_new hp hn⟩)
          | some z =>
              cases z with
              | dir => exact Or.inl ⟨.isADirectory, by simp only [perform, hp, hn]⟩
              | file i => exact Or.inr (Or.inl ⟨hp, i, rfl, create_existing hp hn⟩)

variable {src dst} in
theorem rename_cases (hne : src ≠ dst) :
    (∃ e, perform (.rename (.join p src) (.join p dst)) d = (.error e, d)) ∨
    (d.IsDir p ∧ ∃ i, (d.dirs p).now.lookup src = some (.file i) ∧
      (d.dirs p).now.lookup dst ≠ some .dir ∧
      perform (.rename (.join p src) (.join p dst)) d
        = (.ok (), d.change p (.move src dst (.file i)))) := by
  cases hp : d.access p with
  | error e =>
      exact Or.inl ⟨e, by simp only [perform, ne_eq, not_true_eq_false, if_false, hp]⟩
  | ok y =>
      cases y with
      | file i =>
          refine Or.inl ⟨.notADirectory, ?_⟩
          simp only [perform, ne_eq, not_true_eq_false, if_false, hp]
      | dir =>
          cases hs : (d.dirs p).now.lookup src with
          | none =>
              refine Or.inl ⟨.notFound, ?_⟩
              simp only [perform, ne_eq, not_true_eq_false, if_false, hp, hs]
          | some z =>
              cases z with
              | dir =>
                  refine Or.inl ⟨.other, ?_⟩
                  simp only [perform, ne_eq, not_true_eq_false, if_false, hp, hs]
              | file i =>
                  by_cases hd : (d.dirs p).now.lookup dst = some .dir
                  · refine Or.inl ⟨.isADirectory, ?_⟩
                    simp only [perform, ne_eq, not_true_eq_false, if_false, hp, hs, hd]
                  · exact Or.inr ⟨hp, i, rfl, hd, rename_file hp hs hd hne⟩

theorem removeFile_cases : (∃ e, perform (.removeFile (.join p name)) d = (.error e, d)) ∨
    ∃ i, d.access (.join p name) = .ok (.file i) ∧
      perform (.removeFile (.join p name)) d = (.ok (), d.change p (.del name)) := by
  cases hp : d.access p with
  | error e => exact Or.inl ⟨e, by simp only [perform, hp]⟩
  | ok y =>
      cases y with
      | file i => exact Or.inl ⟨.notADirectory, by simp only [perform, hp]⟩
      | dir =>
          cases hn : (d.dirs p).now.lookup name with
          | none => exact Or.inl ⟨.notFound, by simp only [perform, hp, hn]⟩
          | some z =>
              cases z with
              | dir => exact Or.inl ⟨.isADirectory, by simp only [perform, hp, hn]⟩
              | file i =>
                  have ha := access_join.mpr ⟨hp, hn⟩
                  exact Or.inr ⟨i, ha, removeFile_file ha⟩

end

/-- A call that fails: with no effect, with its effect, or with a part of the
data written. -/
inductive Fault : (a : DiskAct) → Disk → Disk → Prop
  | none {a : DiskAct} {d : Disk} : Fault a d d
  | done {a : DiskAct} {d : Disk} : Fault a d (a.perform d).2
  | torn {i : Ino} {bytes data : List UInt8} {d : Disk} :
      Fault (.writeAll (.file i) bytes) d (d.setFile i ⟨data, false⟩)

end DiskAct

end Conc
