/-
# `LightningNode.Store.KeyValue` — the store is a map

`FilesystemStore` keeps a directory tree: keys are files, namespaces are
directories beside them, and every write passes through a temporary file.  What
a caller sees of it is a map from triples (primary, secondary, key) to bytes:

    Stored       the map, and what each call answers and does to it
    Tree         the invariant of the tree: an entry is a key or a sub-namespace
                 of some call, and there is no temporary file
    Represents   the tree holds exactly what the map holds

Callers must not use one name both as a key and as a sub-namespace of the same
level (`Apart`), as the trait asks them.
-/
import LightningNode.Store.Calls
import LightningNode.Store.Sequential

namespace LightningNode

open Conc StoreProg FilesystemStore

namespace Call

/-- The call goes through the sub-namespace `n` of the level `l`. -/
def Enters (c : Call) (l : String × String) (n : String) : Prop :=
  n ≠ "" ∧ (l = ("", "") ∧ n = c.level.1 ∨ l = (c.level.1, "") ∧ n = c.level.2)

instance (c : Call) (l : String × String) (n : String) : Decidable (c.Enters l n) :=
  inferInstanceAs (Decidable (_ ∧ (_ ∨ _)))

theorem Enters.level_ok {c : Call} {l : String × String} {n : String} (h : c.Enters l n) :
    l.1 = "" → l.2 = "" := by
  rcases h.2 with ⟨rfl, _⟩ | ⟨rfl, _⟩
  · exact fun _ => rfl
  · exact fun _ => rfl

theorem Accepted.enters_valid {c : Call} {l : String × String} {n : String} (h : c.Accepted)
    (he : c.Enters l n) : ValidName n := by
  rcases he.2 with ⟨_, rfl⟩ | ⟨_, rfl⟩
  · exact h.2.2.1
  · exact h.2.2.2.1

end Call

/-- No key is the name of a sub-namespace of its level. -/
def Apart (cs : List Call) : Prop :=
  ∀ c ∈ cs, ∀ c' ∈ cs, c.Accepted → c'.Accepted → ∀ k ∈ c.key, ¬ c'.Enters c.level k

instance (cs : List Call) : Decidable (Apart cs) := by
  unfold Apart
  infer_instance

/-! ## The map -/

abbrev Stored := AList fun _ : String × String × String => Bytes

inductive Answer where
  | value (bytes : Bytes)
  | notFound
  | done
  | keys (keys : List String)
  | rejected

namespace Stored

/-- The keys stored under exactly (p, s). -/
def keysOf (m : Stored) (p s : String) : List String :=
  (m.keys.filter fun t => t.1 = p ∧ t.2.1 = s).map fun t => t.2.2

/-- What a call answers and does to the map. -/
def step (m : Stored) (c : Call) : Answer × Stored :=
  if c.Accepted then
    match c with
    | .read p s k =>
        match m.lookup (p, s, k) with
        | some bytes => (.value bytes, m)
        | none => (.notFound, m)
    | .write p s k buf => (.done, m.insert (p, s, k) buf)
    | .remove p s k _ => (.done, m.erase (p, s, k))
    | .list p s => (.keys (m.keysOf p s), m)
  else (.rejected, m)

theorem mem_keysOf {m : Stored} {p s k : String} : k ∈ m.keysOf p s ↔ (p, s, k) ∈ m := by
  constructor
  · intro h
    obtain ⟨⟨p', s', k'⟩, ht, rfl⟩ := List.mem_map.mp h
    obtain ⟨hm, hps⟩ := List.mem_filter.mp ht
    obtain ⟨rfl, rfl⟩ : p' = p ∧ s' = s := by simpa using hps
    exact hm
  · intro h
    exact List.mem_map.mpr ⟨(p, s, k), List.mem_filter.mpr ⟨h, by simp⟩, rfl⟩

theorem keysOf_nodup {p s : String} (m : Stored) : (m.keysOf p s).Nodup := by
  refine (m.keys_nodup.filter _).map_on ?_
  rintro ⟨p₁, s₁, k₁⟩ h₁ ⟨p₂, s₂, k₂⟩ h₂ hk
  have hps₁ : p₁ = p ∧ s₁ = s := by simpa using (List.mem_filter.mp h₁).2
  have hps₂ : p₂ = p ∧ s₂ = s := by simpa using (List.mem_filter.mp h₂).2
  exact Prod.ext (hps₁.1.trans hps₂.1.symm) (Prod.ext (hps₁.2.trans hps₂.2.symm) hk)

theorem step_rejected {m : Stored} {c : Call} (h : ¬ c.Accepted) : m.step c = (.rejected, m) := by
  unfold step
  exact if_neg h

def run : Stored → List Call → List Answer
  | _, [] => []
  | m, c :: cs => (m.step c).1 :: run (m.step c).2 cs

end Stored

/-- The reply of the store is the answer of the map; listed keys in some order,
each once. -/
def Reply.Agrees : Reply → Answer → Prop
  | .bytes (.ok b), .value b' => b = b'
  | .bytes (.error (.os .notFound)), .notFound => True
  | .unit (.ok _), .done => True
  | .keys (.ok ks), .keys ks' => ks.Nodup ∧ ks.Perm ks'
  | r, .rejected => r.Refused
  | _, _ => False

theorem Reply.Refused.agrees {r : Reply} (h : r.Refused) : r.Agrees .rejected := by
  cases r with
  | bytes r =>
      obtain ⟨msg, rfl⟩ := h
      exact ⟨msg, rfl⟩
  | unit r =>
      obtain ⟨msg, rfl⟩ := h
      exact ⟨msg, rfl⟩
  | keys r =>
      obtain ⟨msg, rfl⟩ := h
      exact ⟨msg, rfl⟩

/-! ## The tree -/

/-- Which entries a run may make: `key q n` a file `n` in `q`, `space q n` a directory.
Outside the data directory only the directories on the way to it are made. -/
structure Layout where
  dataDir : PathBuf
  key : PathBuf → String → Prop
  space : PathBuf → String → Prop
  apart : ∀ {q n}, key q n → ¬ space q n
  key_inside : ∀ {q n}, key q n → Above q dataDir
  key_valid : ∀ {q n}, key q n → ValidName n
  space_valid : ∀ {q n}, Above q dataDir → space q n → ValidName n

namespace Layout

variable (L : Layout)

structure Tree (d : Disk) : Prop where
  file : ∀ {q n i}, (d.dirs q).now.lookup n = some (.file i) → L.key q n ∧ i < d.next
  dir : ∀ {q n}, (d.dirs q).now.lookup n = some .dir → L.space q n

/-- A path through namespaces only. -/
inductive Spaces : PathBuf → Prop
  | base (s : String) : Spaces (.base s)
  | join {p : PathBuf} {name : String} : Spaces p → L.space p name → Spaces (.join p name)

variable {L} {d : Disk} {p q : PathBuf} {name n : String}

/-- A temporary file is never left over. -/
theorem Tree.no_tmp (h : L.Tree d) (hq : Above q L.dataDir) (hn : IsTmp n) :
    (d.dirs q).now.lookup n = none := by
  cases hl : (d.dirs q).now.lookup n with
  | none => rfl
  | some x =>
      cases x with
      | file i => exact absurd hn (L.key_valid (h.file hl).1).not_tmp
      | dir => exact absurd hn (L.space_valid hq (h.dir hl)).not_tmp

theorem Tree.key_not_dir (h : L.Tree d) (hk : L.key q n) :
    (d.dirs q).now.lookup n ≠ some .dir := fun hl => L.apart hk (h.dir hl)

/-- Namespaces are directories, or missing. -/
theorem Tree.access_space (h : L.Tree d) (hp : L.Spaces p) :
    d.IsDir p ∨ d.access p = .error .notFound := by
  induction hp with
  | base s => exact Or.inl (d.isDir_base s)
  | @join p name _ hs ih =>
      rcases ih with hp | hp
      · cases hl : (d.dirs p).now.lookup name with
        | none =>
            right
            simp only [Disk.access, show d.access p = .ok .dir from hp, hl]
        | some x =>
            cases x with
            | file i => exact absurd hs (L.apart (h.file hl).1)
            | dir => exact Or.inl (Disk.isDir_join.mpr ⟨hp, hl⟩)
      · right
        simp only [Disk.access, hp]

/-- A key is a file, or missing. -/
theorem Tree.access_key (h : L.Tree d) (hp : L.Spaces p) (hk : L.key p n) :
    (∃ i, d.access (.join p n) = .ok (.file i)) ∨ d.access (.join p n) = .error .notFound := by
  rcases h.access_space hp with hd | hd
  · cases hl : (d.dirs p).now.lookup n with
    | none =>
        right
        simp only [Disk.access, show d.access p = .ok .dir from hd, hl]
    | some x =>
        cases x with
        | file i => exact Or.inl ⟨i, Disk.access_join.mpr ⟨hd, hl⟩⟩
        | dir => exact absurd hl (h.key_not_dir hk)
  · right
    simp only [Disk.access, hd]

theorem Tree.addDir (h : L.Tree d) (hs : L.space p name) : L.Tree (d.addDir p name) where
  file := by
    intro q n i hl
    rw [Disk.lookup_addDir] at hl
    split_ifs at hl with _ hqn
    · cases hl
    · exact h.file hl
  dir := by
    intro q n hl
    rw [Disk.lookup_addDir] at hl
    split_ifs at hl with _ hqn
    · obtain ⟨rfl, rfl⟩ := hqn
      exact hs
    · exact h.dir hl

/-! ## `create_dir_all` -/

/-- The same contents, and the directory is there. -/
def Made (L : Layout) (d : Disk) (p : PathBuf) (r : Res Unit) (d' : Disk) : Prop :=
  r = .ok () ∧ L.Tree d' ∧ d'.IsDir p ∧ ∀ q, d'.contents q = d.contents q

theorem existing_made (h : L.Tree d) (hd : d.IsDir p) (e : ErrorKind) :
    OnDisk (createDirAll.existing p e) d (L.Made d p) := by
  refine .act ?_
  rw [DiskAct.metadata_ok hd]
  exact .ret ⟨rfl, h, hd, fun _ => rfl⟩

/-- `mkdir` in a directory that is there: made now, or made before. -/
theorem mkdir_cases (h : L.Tree d) (hp : d.IsDir p) (hs : L.space p name) :
    (∃ d', DiskAct.perform (.mkdir (.join p name)) d = (.ok (), d') ∧
      L.Made d (.join p name) (.ok ()) d') ∨
    (DiskAct.perform (.mkdir (.join p name)) d = (.error .alreadyExists, d) ∧
      d.IsDir (.join p name)) := by
  cases hl : (d.dirs p).now.lookup name with
  | none =>
      exact Or.inl ⟨_, DiskAct.mkdir_new hp hl, rfl, h.addDir hs,
        (Disk.isDir_addDir hp hl _).mpr (Or.inr rfl), Disk.contents_addDir hp hl⟩
  | some x =>
      have hdir : d.IsDir (.join p name) := by
        cases x with
        | file i => exact absurd hs (L.apart (h.file hl).1)
        | dir => exact Disk.isDir_join.mpr ⟨hp, hl⟩
      exact Or.inr ⟨DiskAct.mkdir_exists hdir, hdir⟩

theorem createDirAll_made (hp : L.Spaces p) (h : L.Tree d) :
    OnDisk (createDirAll p) d (L.Made d p) := by
  induction hp with
  | base s =>
      refine .act (existing_made h (d.isDir_base s) _)
  | @join p name hp hs ih =>
      refine .act ?_
      rcases h.access_space hp with hd | hd
      · rcases mkdir_cases h hd hs with ⟨d', hm, hmade⟩ | ⟨hm, hdir⟩
        · rw [hm]
          exact .ret hmade
        · rw [hm]
          exact existing_made h hdir _
      · rw [DiskAct.mkdir_error hd]
        refine .andThen (ih.mono ?_)
        rintro r d' ⟨rfl, h', hd', hc⟩
        refine .act ?_
        rcases mkdir_cases h' hd' hs with ⟨d'', hm, hr, h'', hd'', hc'⟩ | ⟨hm, hdir⟩
        · rw [hm]
          exact .ret ⟨hr, h'', hd'', fun q => (hc' q).trans (hc q)⟩
        · rw [hm]
          refine (existing_made h' hdir _).mono ?_
          rintro r d'' ⟨hr, h'', hd'', hc'⟩
          exact ⟨hr, h'', hd'', fun q => (hc' q).trans (hc q)⟩

/-! ## `write` and `remove` -/

/-- `b` is at `n` in `q`; elsewhere there is what there was. -/
structure Put (L : Layout) (d d' : Disk) (q : PathBuf) (n : String) (b : Option Bytes) :
    Prop where
  tree : L.Tree d'
  here : d'.contents (.join q n) = b
  other : ∀ {q' n'}, ¬ (q' = q ∧ n' = n) → d'.contents (.join q' n') = d.contents (.join q' n')

theorem Tree.entry {d' : Disk} {x : Option Node} (h : L.Tree d) (he : Disk.Entry d d' q n x)
    (hnext : d.next ≤ d'.next) (hx : ∀ y, x = some y → ∃ i, y = .file i ∧ L.key q n ∧ i < d'.next) :
    L.Tree d' where
  file := by
    intro q' n' i hl
    rw [he q' n'] at hl
    split_ifs at hl with hqn
    · obtain ⟨rfl, rfl⟩ := hqn
      obtain ⟨j, hj, hk, hlt⟩ := hx _ hl
      cases hj
      exact ⟨hk, hlt⟩
    · exact ⟨(h.file hl).1, Nat.lt_of_lt_of_le (h.file hl).2 hnext⟩
  dir := by
    intro q' n' hl
    rw [he q' n'] at hl
    split_ifs at hl with hqn
    · obtain ⟨j, hj, _⟩ := hx _ hl
      cases hj
    · exact h.dir hl

theorem Put.of_new {d' : Disk} {buf : Bytes} (h : L.Tree d) (hq : d.IsDir q) (hk : L.key q n)
    (he : Disk.Entry d d' q n (some (.file d.next)))
    (hf : d'.files = (d.setFile d.next ⟨buf, true⟩).files) (hnext : d'.next = d.next + 1) :
    L.Put d d' q n (some buf) where
  tree := by
    refine h.entry he (hnext ▸ Nat.le_succ d.next) ?_
    rintro _ ⟨⟩
    exact ⟨d.next, rfl, hk, hnext ▸ Nat.lt_succ_self d.next⟩
  here := by
    rw [he.contents_self (h.key_not_dir hk) hq, hf]
    simp
  other := by
    intro q' n' hqn
    refine he.contents_other (h.key_not_dir hk) nofun hqn fun i hl => ?_
    rw [hf, Disk.setFile_files_ne]
    exact Nat.ne_of_lt (h.file hl).2

theorem Put.of_del (h : L.Tree d) (hk : L.key q n) :
    L.Put d (d.change q (.del n)) q n none where
  tree := h.entry Disk.entry_del le_rfl nofun
  here := Disk.entry_del.contents_none
  other := fun hqn => Disk.entry_del.contents_other (h.key_not_dir hk) nofun hqn fun _ _ => rfl

theorem Put.syncDir {d' : Disk} {b : Option Bytes} (h : L.Put d d' q n b) :
    L.Put d (d'.syncDir q) q n b := by
  have hc : ∀ p, (d'.syncDir q).contents p = d'.contents p := fun p => by
    rw [Disk.contents, Disk.contents, Disk.access_congr (fun r => Disk.now_syncDir d' q r),
      Disk.syncDir_files]
  refine ⟨⟨?_, ?_⟩, ?_, ?_⟩
  · intro q' n' i hl
    rw [Disk.now_syncDir] at hl
    exact h.tree.file hl
  · intro q' n' hl
    rw [Disk.now_syncDir] at hl
    exact h.tree.dir hl
  · rw [hc]
    exact h.here
  · intro q' n' hqn
    rw [hc]
    exact h.other hqn

section

variable {k : String} {buf : Bytes} (hq : L.Spaces q) (hk : L.key q k) (h : L.Tree d)

include hq hk h

theorem writeIn_put :
    Alone (writeIn q k buf) d fun r d' => r = .ok () ∧ L.Put d d' q k (some buf) := by
  refine .andThen (.of_onDisk ((createDirAll_made hq h).mono ?_))
  rintro _ d₁ ⟨rfl, h₁, hd₁, hc⟩
  refine .fetchAddTmp fun counter => ?_
  have ht := h₁.no_tmp (L.key_inside hk) (tmpName_isTmp k counter)
  have htk : tmpName k counter ≠ k := tmpName_ne (L.key_valid hk)
  refine .andThen (.of_onDisk ((writeTmp_new hd₁ ht).mono ?_))
  rintro _ d₂ ⟨rfl, rfl⟩
  have htmp : Disk.Entry d₁ ((d₁.addFile q (tmpName k counter)).setFile d₁.next ⟨buf, true⟩) q
      (tmpName k counter) (some (.file d₁.next)) := Disk.entry_addFile.setFile _ _
  refine .andThen (.withWriteLock ((install_file (i := d₁.next) ?_ ?_ ?_ htk).mono ?_))
  · exact (htmp.isDir (by simp [ht]) nofun q).mpr hd₁
  · rw [htmp q, if_pos ⟨rfl, rfl⟩]
  · rw [htmp q, if_neg fun hn => htk hn.2.symm]
    exact h₁.key_not_dir hk
  · rintro _ d₃ ⟨rfl, rfl⟩
    have hput : L.Put d₁ _ q k (some buf) :=
      .of_new h₁ hd₁ hk ((htmp.move ht).syncDir q) (Disk.setFile_addFile_files ..) rfl
    exact .collected ⟨rfl, hput.tree, hput.here, fun hqn => (hput.other hqn).trans (hc _)⟩

theorem removeIn_put (lazily : Bool) :
    Alone (removeIn q k lazily) d fun r d' => r = .ok () ∧ L.Put d d' q k none := by
  rcases h.access_key hq hk with ⟨i, hi⟩ | hi
  · refine .bind (.of_onDisk (.act ?_))
    rw [DiskAct.metadata_ok hi]
    refine .ret (.andThen (.withWriteLock (d := d) ?_))
    have hdel := DiskAct.removeFile_file hi
    cases lazily with
    | true => exact .os hdel (.collected ⟨rfl, .of_del h hk⟩)
    | false =>
        refine .andThen (.os hdel ((syncDir_dir ?_).mono ?_))
        · exact (Disk.entry_del.isDir (h.key_not_dir hk) nofun q).mpr (Disk.access_join.mp hi).1
        · rintro _ d' ⟨rfl, rfl⟩
          exact .collected ⟨rfl, (Put.of_del h hk).syncDir⟩
  · refine .bind (.of_onDisk (.act ?_))
    rw [DiskAct.metadata_error hi]
    refine .ret (.ret ⟨rfl, h, ?_, fun _ => rfl⟩)
    rw [Disk.contents, hi]

/-! ## `read` -/

theorem readIn_contents : Alone (readIn q k) d fun r d' =>
    d' = d ∧ r = (d.contents (.join q k)).elim (.error (.os .notFound)) .ok := by
  refine readIn_readFile.mono ?_
  rintro r d' ⟨rfl, rfl⟩
  refine ⟨rfl, ?_⟩
  rcases h.access_key hq hk with ⟨i, hi⟩ | hi
  · simp [readFile, Disk.contents, hi]
  · simp [readFile, Disk.contents, hi]

end

/-! ## `list` -/

/-- The names of files among `names`. -/
def fileNames (d : Disk) (q : PathBuf) (names : List String) : List String :=
  names.filter fun n => (d.contents (.join q n)).isSome

theorem listEntries_fileNames (h : L.Tree d) (hin : Above q L.dataDir) (hq : d.IsDir q) :
    ∀ names : List String, (∀ n ∈ names, n ∈ (d.dirs q).now) →
      OnDisk (listEntries q (names.map q.join)) d fun r d' =>
        d' = d ∧ r = .ok (fileNames d q names)
  | [], _ => .ret ⟨rfl, rfl⟩
  | n :: names, hn => by
      have ih := listEntries_fileNames h hin hq names fun m hm => hn m (.tail _ hm)
      obtain ⟨x, hx⟩ := AList.lookup_isSome.mpr (hn n (.head _)) |> Option.isSome_iff_exists.mp
      have ha : d.access (.join q n) = .ok x := Disk.access_join.mpr ⟨hq, hx⟩
      have hv : ValidName n := by
        cases x with
        | file i => exact L.key_valid (h.file hx).1
        | dir => exact L.space_valid hin (h.dir hx)
      have hext : ¬ (PathBuf.join q n).fileName.bind extension = some "tmp" := hv.not_tmp
      simp only [List.map_cons, listEntries, dirEntryIsKey, if_neg hext]
      refine .andThen (.act ?_)
      rw [DiskAct.metadata_ok ha]
      cases x with
      | dir =>
          refine .ret (ih.mono ?_)
          rintro r d' ⟨rfl, rfl⟩
          refine ⟨rfl, ?_⟩
          simp [fileNames, Disk.contents, ha]
      | file i =>
          have hkey : getKeyFromDirEntry (.join q n) q = .ok n := by
            simp [getKeyFromDirEntry, isValidKvstoreStr_iff.mpr hv]
          simp only [hkey]
          refine .ret (.andThen (ih.mono ?_))
          rintro r d' ⟨rfl, rfl⟩
          refine .ret ⟨rfl, ?_⟩
          simp [fileNames, Disk.contents, ha]

theorem listIn_files (hin : Above q L.dataDir) (hq : L.Spaces q) (h : L.Tree d) :
    Alone (listIn q) d fun r d' => d' = d ∧ ∃ names, r = .ok names ∧ names.Nodup ∧
      ∀ n, n ∈ names ↔ (d.contents (.join q n)).isSome := by
  refine .bind (.of_onDisk (.act ?_))
  rcases h.access_space hq with hd | hd
  · rw [DiskAct.metadata_ok hd]
    refine .ret (.andThen (.of_onDisk (.os (DiskAct.readDir_dir hd) ?_)))
    refine .andThen (.of_onDisk ((listEntries_fileNames h hin hd _ fun n hn => hn).mono ?_))
    rintro r d' ⟨rfl, rfl⟩
    refine .collected ⟨rfl, _, rfl, (d'.dirs q).now.keys_nodup.filter _, fun n => ?_⟩
    simp only [fileNames, List.mem_filter, and_iff_right_iff_imp]
    intro hs
    obtain ⟨b, hb⟩ := Option.isSome_iff_exists.mp hs
    obtain ⟨i, hi, _⟩ := Disk.contents_eq_some.mp hb
    exact AList.lookup_isSome.mp (Option.isSome_iff_exists.mpr ⟨_, (Disk.access_join.mp hi).2⟩)
  · rw [DiskAct.metadata_error hd]
    refine .ret (.ret ⟨rfl, [], rfl, List.nodup_nil, fun n => ?_⟩)
    simp [Disk.contents, Disk.access, hd]

end Layout

/-! ## The store and the map -/

variable {root : PathBuf} {cs : List Call}

/-- The layout a list of calls makes below `root`. -/
def layoutOf (root : PathBuf) (cs : List Call) (hcs : Apart cs) : Layout where
  dataDir := root
  key q n := ∃ c ∈ cs, c.Accepted ∧ c.key = some n ∧
    q = getDestDirPath root c.level.1 c.level.2
  space q n := Above root (.join q n) ∨ ∃ c ∈ cs, c.Accepted ∧ ∃ l, c.Enters l n ∧
    q = getDestDirPath root l.1 l.2
  apart := by
    rintro q n ⟨c, hc, ha, hk, rfl⟩ (hway | ⟨c', hc', ha', l, hl, hq⟩)
    · exact (above_getDestDirPath ha.2.1).not_on_way hway
    obtain ⟨h₁, h₂⟩ := getDestDirPath_inj ha.2.1 hl.level_ok hq
    have hlevel : c.level = l := Prod.ext h₁ h₂
    exact hcs c hc c' hc' ha ha' n hk (hlevel ▸ hl)
  key_inside := by
    rintro q n ⟨c, hc, ha, hk, rfl⟩
    exact above_getDestDirPath ha.2.1
  key_valid := by
    rintro q n ⟨c, hc, ha, hk, rfl⟩
    exact ha.2.2.2.2 n hk
  space_valid := by
    rintro q n hq (hway | ⟨c, hc, ha, l, hl, rfl⟩)
    · exact absurd hway hq.not_on_way
    · exact ha.enters_valid hl

variable {hcs : Apart cs}

section

variable {c : Call} {p s : String} (hc : c ∈ cs) (ha : c.Accepted) (hl : c.level = (p, s))

include hc ha hl

theorem layoutOf_key {k : String} (hk : c.key = some k) :
    (layoutOf root cs hcs).key (getDestDirPath root p s) k :=
  ⟨c, hc, ha, hk, by rw [hl]⟩

omit hc ha hl in
/-- The directories on the way to the data directory, and itself. -/
theorem layoutOf_dataDir {q : PathBuf} (h : Above root q) : (layoutOf root cs hcs).Spaces q := by
  induction q with
  | base b => exact .base b
  | join q n ih => exact .join (ih h.up) (Or.inl h)

theorem layoutOf_spaces :
    (layoutOf root cs hcs).Spaces (getDestDirPath root p s) := by
  have hps : p = "" → s = "" := by simpa [hl] using ha.2.1
  have hp : p ≠ "" → (layoutOf root cs hcs).space root p := fun h =>
    Or.inr ⟨c, hc, ha, ("", ""), ⟨h, Or.inl ⟨rfl, by rw [hl]⟩⟩, rfl⟩
  have hs : p ≠ "" → s ≠ "" → (layoutOf root cs hcs).space (.join root p) s := by
    intro h h'
    refine Or.inr ⟨c, hc, ha, (p, ""), ⟨h', Or.inr ⟨by rw [hl], by rw [hl]⟩⟩, ?_⟩
    rw [getDestDirPath_eq fun _ => rfl, if_neg h, if_pos rfl]
  rw [getDestDirPath_eq hps]
  split_ifs with h₁ h₂
  · exact layoutOf_dataDir .here
  · exact .join (layoutOf_dataDir .here) (hp h₁)
  · exact .join (.join (layoutOf_dataDir .here) (hp h₁)) (hs h₁ h₂)

end

/-- The tree holds what the map holds. -/
structure Represents (L : Layout) (root : PathBuf) (d : Disk) (m : Stored) : Prop where
  tree : L.Tree d
  value : ∀ {p s k}, Accepts p s (some k) →
    d.contents (.join (getDestDirPath root p s) k) = m.lookup (p, s, k)
  accepted : ∀ {p s k}, (p, s, k) ∈ m → Accepts p s (some k)

namespace Represents

variable {L : Layout} {d d' : Disk} {m : Stored} {p s k : String}

theorem fresh : Represents L root Disk.fresh ∅ where
  tree := ⟨nofun, nofun⟩
  value := fun _ => Disk.contents_eq_none rfl
  accepted := nofun

theorem ne_of_ne {p' s' k' : String} (ha : Accepts p s (some k)) (ha' : Accepts p' s' (some k'))
    (hne : (p', s', k') ≠ (p, s, k)) :
    ¬ (getDestDirPath root p' s' = getDestDirPath root p s ∧ k' = k) := by
  rintro ⟨hq, rfl⟩
  obtain ⟨rfl, rfl⟩ := getDestDirPath_inj ha'.2.1 ha.2.1 hq
  exact hne rfl

theorem insert {buf : Bytes} (h : Represents L root d m) (ha : Accepts p s (some k))
    (hp : L.Put d d' (getDestDirPath root p s) k (some buf)) :
    Represents L root d' (m.insert (p, s, k) buf) where
  tree := hp.tree
  value := by
    intro p' s' k' ha'
    rw [AList.lookup_insert_ite]
    split_ifs with heq
    · cases heq
      exact hp.here
    · rw [hp.other (ne_of_ne ha ha' heq), h.value ha']
  accepted := by
    intro p' s' k' hm
    rcases AList.mem_insert _ |>.mp hm with heq | hm
    · cases heq
      exact ha
    · exact h.accepted hm

theorem erase (h : Represents L root d m) (ha : Accepts p s (some k))
    (hp : L.Put d d' (getDestDirPath root p s) k none) :
    Represents L root d' (m.erase (p, s, k)) where
  tree := hp.tree
  value := by
    intro p' s' k' ha'
    by_cases heq : (p', s', k') = (p, s, k)
    · cases heq
      rw [AList.lookup_erase]
      exact hp.here
    · rw [AList.lookup_erase_ne heq, hp.other (ne_of_ne ha ha' heq), h.value ha']
  accepted := fun hm => h.accepted (AList.mem_erase.mp hm).2

theorem keysOf (h : Represents L root d m) {ks : List String} (hnd : ks.Nodup)
    (hkey : ∀ n, L.key (getDestDirPath root p s) n → Accepts p s (some n))
    (hks : ∀ n, n ∈ ks ↔ (d.contents (.join (getDestDirPath root p s) n)).isSome) :
    ks.Perm (m.keysOf p s) := by
  refine (List.perm_ext_iff_of_nodup hnd m.keysOf_nodup).mpr fun n => ?_
  rw [hks, Stored.mem_keysOf]
  constructor
  · intro hs
    obtain ⟨b, hb⟩ := Option.isSome_iff_exists.mp hs
    obtain ⟨_, i, hl, _⟩ := Disk.contents_join.mp hb
    rw [h.value (hkey n (h.tree.file hl).1)] at hs
    exact AList.lookup_isSome.mp hs
  · intro hm
    rw [h.value (h.accepted hm)]
    exact AList.lookup_isSome.mpr hm

end Represents

/-! ## Whole runs -/

theorem Alone.replied {α β : Type} {p : StoreProg α} {d : Disk} {f : α → β}
    {Q : β → Disk → Prop} (h : Alone p d fun x d' => Q (f x) d') :
    Alone (do return f (← p)) d Q :=
  .bind (h.mono fun _ _ hq => .ret hq)

theorem call_accepted {d : Disk} {m : Stored} {c : Call} (hc : c ∈ cs) (ha : c.Accepted)
    (h : Represents (layoutOf root cs hcs) root d m) :
    Alone (c.program root) d fun r d' =>
      r.Agrees (m.step c).1 ∧ Represents (layoutOf root cs hcs) root d' (m.step c).2 := by
  rw [Call.program_accepted root ha]
  cases c with
  | read p s k =>
      have ha' : Accepts p s (some k) := ha
      simp only [Stored.step, if_pos ha]
      refine .replied ?_
      refine (Layout.readIn_contents (layoutOf_spaces hc ha rfl) (layoutOf_key hc ha rfl rfl)
        h.tree).mono ?_
      rintro r d' ⟨rfl, rfl⟩
      rw [h.value ha']
      cases m.lookup (p, s, k) with
      | none => exact ⟨trivial, h⟩
      | some b => exact ⟨rfl, h⟩
  | write p s k buf =>
      have ha' : Accepts p s (some k) := ha
      simp only [Stored.step, if_pos ha]
      refine .replied ?_
      refine (Layout.writeIn_put (layoutOf_spaces hc ha rfl) (layoutOf_key hc ha rfl rfl)
        h.tree).mono ?_
      rintro r d' ⟨rfl, hp⟩
      exact ⟨trivial, h.insert ha' hp⟩
  | remove p s k lazily =>
      have ha' : Accepts p s (some k) := ha
      simp only [Stored.step, if_pos ha]
      refine .replied ?_
      refine (Layout.removeIn_put (layoutOf_spaces hc ha rfl) (layoutOf_key hc ha rfl rfl)
        h.tree lazily).mono ?_
      rintro r d' ⟨rfl, hp⟩
      exact ⟨trivial, h.erase ha' hp⟩
  | list p s =>
      have ha' : Accepts p s none := ha
      simp only [Stored.step, if_pos ha]
      refine .replied ?_
      refine (Layout.listIn_files (above_getDestDirPath ha'.2.1) (layoutOf_spaces hc ha rfl)
        h.tree).mono ?_
      rintro r d' ⟨rfl, ks, rfl, hnd, hks⟩
      refine ⟨⟨hnd, h.keysOf hnd ?_ hks⟩, h⟩
      rintro n ⟨c', _, hac, hkey, hdir⟩
      obtain ⟨rfl, rfl⟩ := getDestDirPath_inj ha'.2.1 hac.2.1 hdir
      exact hkey ▸ hac

theorem call_agrees {d : Disk} {m : Stored} {c : Call} (hc : c ∈ cs)
    (h : Represents (layoutOf root cs hcs) root d m) :
    Alone (c.program root) d fun r d' =>
      r.Agrees (m.step c).1 ∧ Represents (layoutOf root cs hcs) root d' (m.step c).2 := by
  by_cases ha : c.Accepted
  · exact call_accepted hc ha h
  · obtain ⟨r, hr, he⟩ := Call.program_rejected root ha
    rw [Stored.step_rejected ha, he]
    exact .ret ⟨hr.agrees, h⟩

theorem runCalls_agree : ∀ (rest : List Call) {d : Disk} {m : Stored}, rest ⊆ cs →
    Represents (layoutOf root cs hcs) root d m →
    Alone (runCalls root rest) d fun rs _ => List.Forall₂ Reply.Agrees rs (m.run rest)
  | [], _, _, _, _ => .ret .nil
  | c :: rest, d, m, hsub, h => by
      obtain ⟨hc, hrest⟩ := List.cons_subset.mp hsub
      refine .bind ((call_agrees hc h).mono ?_)
      rintro r d' ⟨hr, h'⟩
      refine .bind ((runCalls_agree rest hrest h').mono fun rs _ hrs => ?_)
      exact .ret (.cons hr hrs)

/-- What callers see of the store is the map. -/
theorem store_is_map (root : PathBuf) (cs : List Call) (hcs : Apart cs) :
    ∃ rs w, run storeStep (runCalls root cs) ⟨.fresh, .new⟩ = some (rs, w) ∧
      List.Forall₂ Reply.Agrees rs (Stored.run ∅ cs) := by
  obtain ⟨rs, d, m, hr, _, ha⟩ :=
    runCalls_agree cs (List.Subset.refl cs) (Represents.fresh (L := layoutOf root cs hcs)) .new .new
  exact ⟨rs, ⟨d, m⟩, hr, ha⟩

/-- A key beside a sub-namespace of another name, a rejected call among them. -/
theorem store_is_map_levels :
    ∃ rs w, run storeStep (runCalls (.base "data")
        [.write "" "" "manager" [1], .write "monitors" "" "ab_0" [2], .list "" "",
          .write "" "monitors" "k" [3], .remove "" "" "manager" true, .read "" "" "manager"])
        ⟨.fresh, .new⟩ = some (rs, w) ∧
      List.Forall₂ Reply.Agrees rs (Stored.run ∅
        [.write "" "" "manager" [1], .write "monitors" "" "ab_0" [2], .list "" "",
          .write "" "monitors" "k" [3], .remove "" "" "manager" true, .read "" "" "manager"]) :=
  store_is_map (.base "data") _ (by decide)

end LightningNode
