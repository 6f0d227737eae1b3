/-
# `LightningNode.Store.Visible` — what reads and lists see of a disk

On any disk, whatever else lies on it:

    readFile   what a read answers (`LightningNode.Store.Sequential`)
    listing    what a list answers, entry by entry
    Seen       two disks of which reads and lists cannot tell one from the other
    SameButTmp two disks that differ in temporary files only

`SameButTmp.seen` is what the extension of the temporary files is for.
-/
import LightningNode.Store.Calls
import LightningNode.Store.Sequential

namespace LightningNode

open Conc StoreProg FilesystemStore

/-! ## What a list answers -/

namespace FilesystemStore

variable {d d' : Disk} {q : PathBuf}

/-- What is at a path: a directory, or a file with its data. -/
def whatAt (d : Disk) (p : PathBuf) : Except ErrorKind (Option Bytes) :=
  match d.access p with
  | .error e => .error e
  | .ok .dir => .ok none
  | .ok (.file i) => .ok (some (d.files i).data)

theorem readFile_whatAt (d : Disk) (p : PathBuf) :
    readFile d p =
      match whatAt d p with
      | .error e => .error (.os e)
      | .ok none => .error (.os .isADirectory)
      | .ok (some b) => .ok b := by
  unfold readFile whatAt
  cases d.access p with
  | error e => rfl
  | ok x =>
      cases x with
      | dir => rfl
      | file i => rfl

/-- The loop of `list` over the names of the entries of `q`. -/
def listed (d : Disk) (q : PathBuf) : List String → Res (List String)
  | [] => .ok []
  | n :: names =>
      if IsTmp n then listed d q names
      else
        match whatAt d (.join q n) with
        | .error e =>
            .error (.custom .other s!"Failed to list keys at path {printableString (PathBuf.join q n).display}: {ErrorKind.display e}")
        | .ok none => listed d q names
        | .ok (some _) =>
            match getKeyFromDirEntry (.join q n) q with
            | .error e => .error e
            | .ok key => (listed d q names).map (key :: ·)

def listing (d : Disk) (q : PathBuf) : Res (List String) :=
  match whatAt d q with
  | .error _ => .ok []
  | .ok (some _) => .error (.os .notADirectory)
  | .ok none => listed d q (d.dirs q).now.keys

theorem listEntries_listed (names : List String) :
    OnDisk (listEntries q (names.map q.join)) d fun r d' => d' = d ∧ r = listed d q names := by
  induction names with
  | nil => exact .ret ⟨rfl, rfl⟩
  | cons n names ih =>
      by_cases ht : IsTmp n
      · have hext : (PathBuf.join q n).fileName.bind extension = some "tmp" := ht
        simp only [List.map_cons, listEntries, dirEntryIsKey, if_pos hext, listed, if_pos ht]
        exact .andThen (.ret ih)
      · have hext : ¬ (PathBuf.join q n).fileName.bind extension = some "tmp" := ht
        simp only [List.map_cons, listEntries, dirEntryIsKey, if_neg hext, listed, if_neg ht, whatAt]
        refine .andThen (.act ?_)
        cases ha : d.access (.join q n) with
        | error e =>
            rw [DiskAct.metadata_error ha]
            exact .ret ⟨rfl, rfl⟩
        | ok x =>
            rw [DiskAct.metadata_ok ha]
            cases x with
            | dir => exact .ret ih
            | file i =>
                refine .ret ?_
                simp only [if_true]
                cases getKeyFromDirEntry (.join q n) q with
                | error e => exact .ret ⟨rfl, rfl⟩
                | ok key =>
                    refine .andThen (ih.mono ?_)
                    rintro r d' ⟨rfl, rfl⟩
                    cases listed d' q names with
                    | error e => exact ⟨rfl, rfl⟩
                    | ok ks => exact .ret ⟨rfl, rfl⟩

theorem listIn_listing : Alone (listIn q) d fun r d' => d' = d ∧ r = listing d q := by
  refine .bind (.of_onDisk (.act ?_))
  cases ha : d.access q with
  | error e =>
      rw [DiskAct.metadata_error ha]
      refine .ret (.ret ⟨rfl, ?_⟩)
      simp only [listing, whatAt, ha]
  | ok x =>
      rw [DiskAct.metadata_ok ha]
      refine .ret (.andThen (.of_onDisk ?_))
      cases x with
      | file i =>
          have hread : DiskAct.perform (.readDir q) d = (.error .notADirectory, d) := by
            simp only [DiskAct.perform, ha]
          refine .os hread ⟨rfl, ?_⟩
          simp only [listing, whatAt, ha]
      | dir =>
          refine .os (DiskAct.readDir_dir ha) (.andThen (.of_onDisk ((listEntries_listed _).mono ?_)))
          rintro r d' ⟨rfl, rfl⟩
          have heq : listing d' q = listed d' q (d'.dirs q).now.keys := by simp only [listing, whatAt, ha]
          rw [heq]
          cases listed d' q (d'.dirs q).now.keys with
          | error e => exact ⟨rfl, rfl⟩
          | ok ks => exact .collected ⟨rfl, rfl⟩

/-- Temporary files are passed over. -/
theorem listed_filter (names : List String) :
    listed d q names = listed d q (names.filter fun n => ¬ IsTmp n) := by
  induction names with
  | nil => rfl
  | cons n names ih =>
      by_cases ht : IsTmp n
      · simp [listed, ht, ih]
      · simp [listed, ht, ih]

/-- Which file it is does not matter. -/
theorem listed_congr {names : List String}
    (h : ∀ n ∈ names, ¬ IsTmp n → whatAt d' (.join q n) = whatAt d (.join q n)) :
    listed d' q names = listed d q names := by
  induction names with
  | nil => rfl
  | cons n names ih =>
      have ih' := ih fun m hm => h m (List.mem_cons_of_mem n hm)
      by_cases ht : IsTmp n
      · simp only [listed, if_pos ht, ih']
      · simp only [listed, if_neg ht, ih', h n (List.mem_cons_self ..) ht]

/-- Two answers of a list, up to the order of the keys. -/
def SameKeysAs : Res (List String) → Res (List String) → Prop
  | .ok ks, .ok ks' => ks.Perm ks'
  | r, r' => r = r'

theorem SameKeysAs.refl : ∀ r : Res (List String), SameKeysAs r r
  | .ok ks => List.Perm.refl ks
  | .error _ => rfl

theorem SameKeysAs.symm : ∀ {r r' : Res (List String)}, SameKeysAs r r' → SameKeysAs r' r
  | .ok _, .ok _, h => List.Perm.symm h
  | .ok _, .error _, h => by cases h
  | .error _, .ok _, h => by cases h
  | .error _, .error _, h => by
      cases h
      rfl

theorem SameKeysAs.trans :
    ∀ {r r' r'' : Res (List String)}, SameKeysAs r r' → SameKeysAs r' r'' → SameKeysAs r r''
  | .ok _, .ok _, .ok _, h, h' => List.Perm.trans h h'
  | .ok _, .ok _, .error _, _, h' => by cases h'
  | .ok _, .error _, _, h, _ => by cases h
  | .error _, .ok _, _, h, _ => by cases h
  | .error _, .error _, _, h, h' => by
      cases h
      exact h'

theorem SameKeysAs.swap (m n : String) :
    ∀ {r r' : Res (List String)}, SameKeysAs (r.map (n :: ·)) r' →
      SameKeysAs ((r.map (m :: ·)).map (n :: ·)) (r'.map (m :: ·))
  | .ok _, .ok _, h => (List.Perm.swap m n _).trans (List.Perm.cons m h)
  | .ok _, .error _, h => by cases h
  | .error _, .ok _, h => by cases h
  | .error _, .error _, h => by
      cases h
      rfl

/-- Where a key stands in its directory does not matter. -/
theorem listed_front {n : String} {b : Bytes} (hv : ValidName n)
    (hn : whatAt d (.join q n) = .ok (some b)) {names : List String} (hmem : n ∈ names) :
    SameKeysAs (listed d q (n :: names.erase n)) (listed d q names) := by
  have hkey : getKeyFromDirEntry (.join q n) q = .ok n := by
    simp [getKeyFromDirEntry, isValidKvstoreStr_iff.mpr hv]
  have hfront : ∀ ns, listed d q (n :: ns) = (listed d q ns).map (n :: ·) := by
    intro ns
    simp only [listed, if_neg hv.not_tmp, hn, hkey]
  induction names with
  | nil => cases hmem
  | cons m names ih =>
      by_cases hmn : m = n
      · subst hmn
        rw [List.erase_cons_head]
        exact .refl _
      · have ih' := ih ((List.mem_cons.mp hmem).resolve_left (Ne.symm hmn))
        rw [hfront] at ih'
        rw [List.erase_cons_tail (by simpa using hmn), hfront]
        by_cases ht : IsTmp m
        · simp only [listed, if_pos ht]
          exact ih'
        · simp only [listed, if_neg ht]
          cases whatAt d (.join q m) with
          | error e => exact .refl _
          | ok x =>
              cases x with
              | none => exact ih'
              | some b =>
                  cases getKeyFromDirEntry (.join q m) q with
                  | error e => exact .refl _
                  | ok key => exact SameKeysAs.swap key n ih'

end FilesystemStore

/-! ## Reads and lists -/

/-- A read or a list. -/
def Call.Looks : Call → Prop
  | .read _ _ _ | .list _ _ => True
  | .write _ _ _ _ | .remove _ _ _ _ => False

/-- The same reply, up to the order of listed keys. -/
def Reply.Alike : Reply → Reply → Prop
  | .keys r, .keys r' => SameKeysAs r r'
  | r, r' => r = r'

theorem Reply.Alike.refl : ∀ r : Reply, r.Alike r
  | .bytes _ => rfl
  | .unit _ => rfl
  | .keys r => SameKeysAs.refl r

theorem Reply.Alike.trans {r r' r'' : Reply} (h : r.Alike r') (h' : r'.Alike r'') :
    r.Alike r'' := by
  cases r with
  | keys r =>
      cases r' with
      | keys r' =>
          cases r'' with
          | keys r'' => exact SameKeysAs.trans h h'
          | bytes _ => cases h'
          | unit _ => cases h'
      | bytes _ => cases h
      | unit _ => cases h
  | bytes r =>
      cases r' with
      | keys r' => cases h
      | bytes _ =>
          cases h
          exact h'
      | unit _ => cases h
  | unit r =>
      cases r' with
      | keys r' => cases h
      | bytes _ => cases h
      | unit _ =>
          cases h
          exact h'

theorem Reply.Alike.symm {r r' : Reply} (h : r.Alike r') : r'.Alike r := by
  cases r with
  | keys r =>
      cases r' with
      | keys r' => exact SameKeysAs.symm h
      | bytes _ => cases h
      | unit _ => cases h
  | bytes r =>
      cases r' with
      | bytes _ => exact Eq.symm h
      | keys _ => cases h
      | unit _ => cases h
  | unit r =>
      cases r' with
      | unit _ => exact Eq.symm h
      | keys _ => cases h
      | bytes _ => cases h

/-- What a read or a list answers, its arguments being valid. -/
def look (root : PathBuf) (d : Disk) : Call → Reply
  | .read p s k => .bytes (readFile d (.join (getDestDirPath root p s) k))
  | .list p s => .keys (listing d (getDestDirPath root p s))
  | .write _ _ _ _ | .remove _ _ _ _ => .unit (.ok ())

/-- Reads and lists answer the same on both disks. -/
def Seen (root : PathBuf) (d d' : Disk) : Prop :=
  ∀ c : Call, c.Looks → c.Accepted → (look root d c).Alike (look root d' c)

variable {root : PathBuf} {d d' : Disk}

theorem Seen.trans {d'' : Disk} (h : Seen root d d') (h' : Seen root d' d'') : Seen root d d'' :=
  fun c hc ha => (h c hc ha).trans (h' c hc ha)

theorem Seen.symm (h : Seen root d d') : Seen root d' d :=
  fun c hc ha => (h c hc ha).symm

/-- Of two disks that are seen alike either may be compared with a third. -/
theorem Seen.left {d'' : Disk} (h : Seen root d d') : Seen root d d'' ↔ Seen root d' d'' :=
  ⟨h.symm.trans, h.trans⟩

theorem program_look {c : Call} (hc : c.Looks) (ha : c.Accepted) :
    Alone (c.program root) d fun r d' => d' = d ∧ r = look root d c := by
  rw [Call.program_accepted root ha]
  cases c with
  | read p s k =>
      refine .bind (readIn_readFile.mono ?_)
      rintro r d' ⟨rfl, rfl⟩
      exact .ret ⟨rfl, rfl⟩
  | list p s =>
      refine .bind (listIn_listing.mono ?_)
      rintro r d' ⟨rfl, rfl⟩
      exact .ret ⟨rfl, rfl⟩
  | write p s k buf => exact hc.elim
  | remove p s k lazily => exact hc.elim

/-- What reads and lists made one after another reply. -/
def replies (root : PathBuf) (w : World) (later : List Call) : Option (List Reply) :=
  (run storeStep (runCalls root later) w).map Prod.fst

/-- They leave the disk as it is. -/
theorem runCalls_look {later : List Call} (hl : ∀ c ∈ later, c.Looks) (hs : Seen root d d') :
    ∃ rs rs', Alone (runCalls root later) d (fun r e => e = d ∧ r = rs) ∧
      Alone (runCalls root later) d' (fun r e => e = d' ∧ r = rs') ∧
      List.Forall₂ Reply.Alike rs rs' := by
  induction later with
  | nil => exact ⟨[], [], .ret ⟨rfl, rfl⟩, .ret ⟨rfl, rfl⟩, .nil⟩
  | cons c later ih =>
      obtain ⟨rs, rs', hrs, hrs', halike⟩ := ih fun c' hc' => hl c' (List.mem_cons_of_mem c hc')
      -- the first reply, then the others
      have hcons : ∀ {e : Disk} {r : Reply} {rs : List Reply},
          Alone (c.program root) e (fun x e' => e' = e ∧ x = r) →
          Alone (runCalls root later) e (fun x e' => e' = e ∧ x = rs) →
          Alone (runCalls root (c :: later)) e fun x e' => e' = e ∧ x = r :: rs := by
        intro e r rs hr hrs
        refine .bind (hr.mono ?_)
        rintro _ _ ⟨rfl, rfl⟩
        refine .bind (hrs.mono ?_)
        rintro _ _ ⟨rfl, rfl⟩
        exact .ret ⟨rfl, rfl⟩
      by_cases ha : c.Accepted
      · have hc := hl c (List.mem_cons_self ..)
        exact ⟨_, _, hcons (program_look hc ha) hrs, hcons (program_look hc ha) hrs',
          .cons (hs c hc ha) halike⟩
      · obtain ⟨r, _, hr⟩ := Call.program_rejected root ha
        have hret : ∀ e, Alone (c.program root) e fun x e' => e' = e ∧ x = r := by
          intro e
          rw [hr]
          exact .ret ⟨rfl, rfl⟩
        exact ⟨_, _, hcons (hret d) hrs, hcons (hret d') hrs', .cons (.refl r) halike⟩

/-- The replies of any later reads and lists, on two stores that are not in use. -/
def SeeAlike (root : PathBuf) (w w' : World) : Prop :=
  ∀ later : List Call, (∀ c ∈ later, c.Looks) →
    ∃ rs rs', replies root w later = some rs ∧ replies root w' later = some rs' ∧
      List.Forall₂ Reply.Alike rs rs'

theorem seeAlike_iff {m m' : StoreMemory} (hm : m.Quiet) (hm' : m'.Quiet) :
    SeeAlike root ⟨d, m⟩ ⟨d', m'⟩ ↔ Seen root d d' := by
  constructor
  · intro h c hc ha
    have hone : ∀ {e : Disk} {n : StoreMemory}, n.Quiet →
        replies root ⟨e, n⟩ [c] = some [look root e c] := by
      intro e n hn
      have hlook : Alone (c.program root) e fun r e' => e' = e ∧ r = look root e c :=
        program_look hc ha
      obtain ⟨r, _, n', hr, _, rfl, rfl⟩ := hlook n hn
      rw [replies, runCalls, run_bind hr]
      rfl
    obtain ⟨rs, rs', hr, hr', halike⟩ := h [c] fun c' hc' => List.mem_singleton.mp hc' ▸ hc
    rw [hone hm] at hr
    rw [hone hm'] at hr'
    cases hr
    cases hr'
    cases halike with
    | cons hfirst _ => exact hfirst
  · intro h later hl
    obtain ⟨rs, rs', hrs, hrs', halike⟩ := runCalls_look hl h
    obtain ⟨_, e, n, hr, _, _, rfl⟩ := hrs m hm
    obtain ⟨_, e', n', hr', _, _, rfl⟩ := hrs' m' hm'
    refine ⟨_, _, ?_, ?_, halike⟩
    · rw [replies, hr]
      rfl
    · rw [replies, hr']
      rfl

/-! ## Temporary files -/

/-- What an entry leads to: a directory, or a file with its data. -/
def entryAt (d : Disk) (q : PathBuf) (n : String) : Option (Option Bytes) :=
  match (d.dirs q).now.lookup n with
  | none => none
  | some .dir => some none
  | some (.file i) => some (some (d.files i).data)

/-- The entry is no temporary file: a directory may have the name of one. -/
def NoTmp (d : Disk) (q : PathBuf) (n : String) : Prop := IsTmp n → entryAt d q n = some none

/-- The same entries, but for temporary files. -/
def SameEntries (d d' : Disk) : Prop := ∀ q n, NoTmp d q n → entryAt d' q n = entryAt d q n

/-- The names of a directory that are not those of temporary files. -/
def keysIn (d : Disk) (q : PathBuf) : List String :=
  (d.dirs q).now.keys.filter fun n => ¬ IsTmp n

/-- They stand in the same order, too. -/
structure SameButTmp (d d' : Disk) : Prop where
  entry : SameEntries d d'
  order : ∀ q, keysIn d' q = keysIn d q

/-- A path with no temporary file on it. -/
def TmpFree (d : Disk) : PathBuf → Prop
  | .base _ => True
  | .join q n => TmpFree d q ∧ NoTmp d q n

theorem noTmp_valid {q : PathBuf} {n : String} (hn : ValidName n) : NoTmp d q n :=
  fun ht => absurd ht hn.not_tmp

/-- So is that of a directory, the data directory for one. -/
theorem tmpFree_isDir {q : PathBuf} (hq : d.IsDir q) : TmpFree d q := by
  induction q with
  | base s => trivial
  | join q n ih =>
      obtain ⟨hdir, hn⟩ := Disk.isDir_join.mp hq
      refine ⟨ih hdir, fun _ => ?_⟩
      rw [entryAt, hn]

theorem tmpFree_getDestDirPath {p s : String} (hroot : TmpFree d root) (hps : p = "" → s = "")
    (hp : ValidName p) (hs : ValidName s) : TmpFree d (getDestDirPath root p s) := by
  rw [getDestDirPath_eq hps]
  split_ifs with h₁ h₂
  · exact hroot
  · exact ⟨hroot, noTmp_valid hp⟩
  · exact ⟨⟨hroot, noTmp_valid hp⟩, noTmp_valid hs⟩

theorem whatAt_join (d : Disk) (q : PathBuf) (n : String) :
    whatAt d (.join q n) =
      match whatAt d q with
      | .error e => .error e
      | .ok (some _) => .error .notADirectory
      | .ok none =>
          match entryAt d q n with
          | none => .error .notFound
          | some x => .ok x := by
  simp only [whatAt, Disk.access, entryAt]
  cases d.access q with
  | error e => rfl
  | ok x =>
      cases x with
      | file i => rfl
      | dir =>
          cases (d.dirs q).now.lookup n with
          | none => rfl
          | some y =>
              cases y with
              | dir => rfl
              | file i => rfl

namespace SameEntries

theorem whatAt (h : SameEntries d d') {p : PathBuf} (hp : TmpFree d p) :
    whatAt d' p = whatAt d p := by
  induction p with
  | base s => rfl
  | join q n ih => rw [whatAt_join, whatAt_join, ih hp.1, h q n hp.2]

theorem isDir (h : SameEntries d d') {p : PathBuf} (hp : TmpFree d p) :
    d'.IsDir p ↔ d.IsDir p := by
  have hw : ∀ e : Disk, e.IsDir p ↔ FilesystemStore.whatAt e p = .ok none := by
    intro e
    rw [Disk.IsDir, FilesystemStore.whatAt]
    cases e.access p with
    | error e => simp
    | ok x => cases x with
      | dir => simp
      | file i => simp
  rw [hw, hw, h.whatAt hp]

/-- The reads, and the lists where the keys stand as they did. -/
theorem seen (h : SameEntries d d') (hroot : TmpFree d root)
    (horder : ∀ q, FilesystemStore.whatAt d q = .ok none →
      SameKeysAs (listed d q (d.dirs q).now.keys) (listed d q (d'.dirs q).now.keys)) :
    Seen root d d' := by
  intro c hc ha
  cases c with
  | read p s k =>
      have hp : TmpFree d (.join (getDestDirPath root p s) k) :=
        ⟨tmpFree_getDestDirPath hroot ha.2.1 ha.2.2.1 ha.2.2.2.1, noTmp_valid (ha.2.2.2.2 k rfl)⟩
      show Reply.bytes _ = Reply.bytes _
      rw [readFile_whatAt, readFile_whatAt, h.whatAt hp]
  | list p s =>
      have hq : TmpFree d (getDestDirPath root p s) :=
        tmpFree_getDestDirPath hroot ha.2.1 ha.2.2.1 ha.2.2.2.1
      show SameKeysAs (listing d _) (listing d' _)
      simp only [listing, h.whatAt hq]
      cases hw : FilesystemStore.whatAt d (getDestDirPath root p s) with
      | error e => exact .refl _
      | ok x =>
          cases x with
          | some b => exact .refl _
          | none =>
              have heq : listed d' (getDestDirPath root p s) = listed d _ :=
                funext fun names => listed_congr fun n _ hn =>
                  h.whatAt (p := .join _ n) ⟨hq, fun ht => absurd ht hn⟩
              simp only [heq]
              exact horder _ hw
  | write p s k buf => exact hc.elim
  | remove p s k lazily => exact hc.elim

end SameEntries

namespace SameButTmp

variable {d'' : Disk}

theorem refl (d : Disk) : SameButTmp d d := ⟨fun _ _ _ => rfl, fun _ => rfl⟩

theorem trans (h : SameButTmp d d') (h' : SameButTmp d' d'') : SameButTmp d d'' where
  entry q n hn := by
    have heq := h.entry q n hn
    exact (h'.entry q n fun ht => heq.trans (hn ht)).trans heq
  order q := (h'.order q).trans (h.order q)

/-- A file that is no temporary file has no such name. -/
theorem not_tmp_of_file {q : PathBuf} {n : String} {i : Ino} (hn : NoTmp d q n)
    (hl : (d.dirs q).now.lookup n = some (.file i)) : ¬ IsTmp n := by
  intro ht
  have hdir := hn ht
  rw [entryAt, hl] at hdir
  cases hdir

/-- A temporary file that is not there yet is made. -/
theorem addFile {q : PathBuf} {t : String} (ht : IsTmp t) (hn : (d.dirs q).now.lookup t = none)
    (hnew : ∀ q n, ¬ IsTmp n → (d.dirs q).now.lookup n ≠ some (.file d.next)) :
    SameButTmp d (d.addFile q t) where
  entry := by
    intro q' n hnt
    have hl : ((d.addFile q t).dirs q').now.lookup n = (d.dirs q').now.lookup n := by
      rw [Disk.entry_addFile q' n]
      refine if_neg ?_
      rintro ⟨rfl, rfl⟩
      have hdir := hnt ht
      rw [entryAt, hn] at hdir
      cases hdir
    simp only [entryAt, hl]
    cases hold : (d.dirs q').now.lookup n with
    | none => rfl
    | some x =>
        cases x with
        | dir => rfl
        | file i =>
            have hne : i ≠ d.next := by
              rintro rfl
              exact hnew q' n (not_tmp_of_file hnt hold) hold
            simp only [Disk.addFile_files, Disk.setFile_files_ne _ _ hne]
  order := by
    intro q'
    rw [keysIn, Disk.now_addFile]
    split_ifs with hq
    · subst hq
      have hnot : t ∉ (d.dirs q').now.keys := AList.lookup_eq_none.mp hn
      rw [AList.keys_insert, List.erase_of_not_mem hnot, List.filter_cons_of_neg (by simpa using ht)]
      rfl
    · rfl

/-- The file of a temporary file, and of nothing else, is written. -/
theorem setFile {i : Ino} {f : File}
    (hi : ∀ q n, ¬ IsTmp n → (d.dirs q).now.lookup n ≠ some (.file i)) :
    SameButTmp d (d.setFile i f) where
  entry := by
    intro q n hnt
    simp only [entryAt, Disk.setFile_dirs]
    cases hold : (d.dirs q).now.lookup n with
    | none => rfl
    | some x =>
        cases x with
        | dir => rfl
        | file j =>
            have hne : j ≠ i := by
              rintro rfl
              exact hi q n (not_tmp_of_file hnt hold) hold
            simp only [Disk.setFile_files_ne _ _ hne]
  order _ := rfl

theorem syncDir (q : PathBuf) : SameButTmp d (d.syncDir q) where
  entry q' n _ := by
    simp only [entryAt, Disk.now_syncDir]
    rfl
  order q' := by rw [keysIn, Disk.now_syncDir, keysIn]

theorem seen (h : SameButTmp d d') (hroot : TmpFree d root) : Seen root d d' := by
  refine h.entry.seen hroot fun q _ => ?_
  have hkeys : listed d q (d'.dirs q).now.keys = listed d q (d.dirs q).now.keys := by
    rw [listed_filter, show (d'.dirs q).now.keys.filter _ = _ from h.order q, keysIn,
      ← listed_filter]
  rw [hkeys]
  exact .refl _

end SameButTmp

/-- A temporary file takes the place of a key that has the same data. -/
theorem seen_move {q : PathBuf} {t k : String} {i : Ino} (hroot : TmpFree d root) (ht : IsTmp t)
    (hk : ValidName k) (hti : (d.dirs q).now.lookup t = some (.file i))
    (hkey : entryAt d q k = some (some (d.files i).data)) :
    Seen root d (d.change q (.move t k (.file i))) := by
  have htk : k ≠ t := fun h => hk.not_tmp (h ▸ ht)
  have hentry : SameEntries d (d.change q (.move t k (.file i))) := by
    intro q' n hn
    by_cases hq : q' = q
    · subst hq
      have hnt : n ≠ t := by
        rintro rfl
        exact SameButTmp.not_tmp_of_file hn hti ht
      by_cases hnk : n = k
      · subst hnk
        rw [hkey]
        simp [entryAt, Disk.now_change]
      · simp [entryAt, Disk.now_change, hnk, hnt]
    · simp [entryAt, Disk.now_change, hq]
  refine hentry.seen hroot fun q' hdir => ?_
  by_cases hq : q' = q
  · subst hq
    have hmem : k ∈ (d.dirs q').now.keys := by
      refine AList.lookup_isSome.mp ?_
      rw [entryAt] at hkey
      cases hl : (d.dirs q').now.lookup k with
      | none => simp [hl] at hkey
      | some x => rfl
    have hkeys : keysIn (d.change q' (.move t k (.file i))) q'
        = (k :: (d.dirs q').now.keys.erase k).filter fun n => ¬ IsTmp n := by
      have hnow : ((d.change q' (.move t k (.file i))).dirs q').now.keys
          = k :: ((d.dirs q').now.keys.erase k).erase t := by
        rw [Disk.now_change, if_pos rfl, DirOp.on, AList.keys_insert, AList.keys_erase,
          List.erase_comm]
      have hnodup : ((d.dirs q').now.keys.erase k).Nodup := (d.dirs q').now.keys_nodup.erase k
      have hgone : (((d.dirs q').now.keys.erase k).erase t).filter (fun n => ¬ IsTmp n)
          = ((d.dirs q').now.keys.erase k).filter fun n => ¬ IsTmp n := by
        rw [hnodup.erase_eq_filter, List.filter_filter]
        refine List.filter_congr fun n _ => ?_
        by_cases hn : IsTmp n
        · simp [hn]
        · have hne : n ≠ t := fun h => hn (h ▸ ht)
          simp [hn, hne]
      rw [keysIn, hnow, List.filter_cons, List.filter_cons, hgone]
    have hwhat : whatAt d (.join q' k) = .ok (some (d.files i).data) := by
      rw [whatAt_join, hdir, hkey]
    have hfront := listed_front hk hwhat hmem
    rw [listed_filter (k :: _), ← hkeys, keysIn, ← listed_filter] at hfront
    exact hfront.symm
  · rw [show ((d.change q (.move t k (.file i))).dirs q').now = (d.dirs q').now by
      rw [Disk.now_change, if_neg hq]]
    exact .refl _

end LightningNode
