/-
# `LightningNode.Node.SweepStore` — the write of the migration is that of the store

`storeWrite` has one action for each thing `FilesystemStore::write` does in the
spendable directory.  Here the two are run side by side, on a disk that shows this
directory: wherever the write of the store is cut, `storeWrite` can be cut with the
same files in it, and where the one has returned the other has too.

    Shows         the directory on a disk
    Stage         how far `storeWrite` has come, and what is known of the disk
    write_seen    any cut of the write of the store
-/
import LightningNode.Node.SweepResumed
import LightningNode.Store.Instances

namespace LightningNode

open Conc FilesystemStore StoreAssertions

namespace Sweep

variable {D : Type}

/-! ## The directory -/

/-- `q` is the spendable directory. -/
structure Shows (q : PathBuf) (d : Disk) (s : Migration D) : Prop where
  has : s.has .spendable = true ↔ d.IsDir q
  file : ∀ name, s.file .spendable name = d.contents (.join q name)

section

variable {q r : PathBuf} {d d' : Disk} {s s' : Migration D} {n t key : String} {i : Ino} {f : File}

/-- Another directory is made on the way, or this one. -/
theorem Shows.addDir (h : Shows q d s) (hr : d.IsDir r) (hn : (d.dirs r).now.lookup n = none) :
    Shows q (d.addDir r n) (if r.join n = q then s.mkdir .spendable else s) := by
  refine ⟨?_, ?_⟩
  · rw [Disk.isDir_addDir hr hn]
    split_ifs with hq
    · simp [hq]
    · rw [h.has, or_iff_left (Ne.symm hq)]
  · intro name
    rw [Disk.contents_addDir hr hn, ← h.file]
    split_ifs
    · exact Migration.file_mkdir
    · rfl

theorem Shows.mkdir (h : Shows q d s) (hq : d.IsDir q) : Shows q d (s.mkdir .spendable) where
  has := by simp [hq]
  file name := Migration.file_mkdir.trans (h.file name)

/-- The temporary file `t` is the only file that changes. -/
theorem Shows.touch (h : Shows q d s) (hquiet : Quiet (· = t) d d') (hl : Links d) (ht : IsTmp t)
    (hq : d'.IsDir q) (hh : Holds d' q t i f) (hhas : s'.has .spendable = true)
    (hfile : ∀ name, s'.file .spendable name =
      if name = t then some f.data else s.file .spendable name) : Shows q d' s' where
  has := by simp [hhas, hq]
  file name := by
    rw [hfile]
    split_ifs with hn
    · rw [hn, Disk.contents_join.mpr ⟨hq, i, hh.1, congrArg File.data hh.2⟩]
    · rw [hquiet.same_contents hl (fun _ ht' => ht' ▸ ht) q hn, h.file]

/-- The temporary file takes the place of the key. -/
theorem Shows.move (h : Shows q d s) (hq : d.IsDir q)
    (hl : (d.dirs q).now.lookup t = some (.file i))
    (hd : (d.dirs q).now.lookup key ≠ some .dir) (htk : t ≠ key) :
    Shows q (d.change q (.move t key (.file i)))
      ((s.drop .spendable t).put .spendable key (d.files i).data) where
  has := by simp [Disk.isDir_move hl hd, hq]
  file name := by
    have hnow : ((d.change q (.move t key (.file i))).dirs q).now
        = (DirOp.move t key (.file i)).on (d.dirs q).now := by
      rw [Disk.now_change, if_pos rfl]
    by_cases hk : name = key
    · subst hk
      have hthere := Disk.contents_join.mpr ⟨(Disk.isDir_move hl hd q).mpr hq, i,
        by rw [hnow, DirOp.lookup_move, if_pos rfl], rfl⟩
      rw [hthere]
      simp
    · by_cases ht : name = t
      · subst ht
        rw [Disk.contents_eq_none (by rw [hnow, DirOp.lookup_move, if_neg hk, if_pos rfl])]
        simp [hk]
      · rw [contents_move hl hd q ht (fun hk' => hk hk'.2), ← h.file]
        simp [hk, ht]

/-- The bytes, one after another. -/
theorem appendAll_passes {α : Type} {g : Unit → SweepProg D (Except SweepError α)} (bytes : Bytes) :
    ∀ {s : Migration D} {b : Bytes}, s.file .spendable t = some b →
      ∃ s', Passes Perform ((appendAll t bytes).andThen g) s (g ()) s' ∧
        s'.has .spendable = true ∧ ∀ name, s'.file .spendable name =
          if name = t then some (b ++ bytes) else s.file .spendable name := by
  induction bytes with
  | nil =>
      intro s b hb
      refine ⟨s, .here, Migration.has_of_file hb, fun name => ?_⟩
      split_ifs with hn
      · rw [hn, hb, List.append_nil]
      · rfl
  | cons x bytes ih =>
      intro s b hb
      have hput : (s.put .spendable t (b ++ [x])).file .spendable t = some (b ++ [x]) := by simp
      obtain ⟨s', hpass, hhas, hfile⟩ := ih hput
      have hfirst : Perform (.append .spendable t x) s (.ok ())
          (s.put .spendable t (b ++ [x])) := by
        simp only [Perform, hb, and_self]
      refine ⟨s', .act hfirst hpass, hhas, fun name => ?_⟩
      rw [hfile]
      split_ifs with hn
      · rw [List.append_assoc, List.singleton_append]
      · simp [hn]

end

/-! ## The parts of `storeWrite` -/

section

variable (key : String) (n : UInt64) (bytes : Bytes)

def moveWritten : SweepProg D (Except SweepError Unit) :=
  (act (.rename .spendable (tmpName key n) .spendable key)).andThen fun _ => act .syncAll

def syncWritten : SweepProg D (Except SweepError Unit) :=
  (act .syncAll).andThen fun _ => moveWritten key n

def fillTmp : SweepProg D (Except SweepError Unit) :=
  (appendAll (tmpName key n) bytes).andThen fun _ => syncWritten key n

def createTmp : SweepProg D (Except SweepError Unit) :=
  (act (.create .spendable (tmpName key n))).andThen fun _ => fillTmp key n bytes

def numberTmp : SweepProg D (Except SweepError Unit) :=
  .act .fetchAddTmp fun n => createTmp key n bytes

theorem storeWrite_eq : (storeWrite key bytes : SweepProg D (Except SweepError Unit)) =
    (act (.createDirAll .spendable)).andThen fun _ => numberTmp key bytes := rfl

end

/-! ## Side by side -/

/-- What is left of `storeWrite`, and what is known of the disk. -/
structure Stage (D : Type) where
  left : SweepProg D (Except SweepError Unit)
  knows : Disk → Prop

/-- `storeWrite` has come to `P.left` where the directory is as the disk shows it. -/
def Stage.holds (q : PathBuf) (key : String) (bytes : Bytes) (s : Migration D) (P : Stage D)
    (w : World) : Prop :=
  (∃ s', Passes Perform (storeWrite key bytes) s P.left s' ∧ Shows q w.disk s') ∧ P.knows w.disk

/-- Somewhere `storeWrite` can be cut with this directory. -/
structure Seen (q : PathBuf) (key : String) (bytes : Bytes) (s : Migration D) (w : World) :
    Prop where
  links : Links w.disk
  plain : Plain q key w.disk
  cut : ∃ p s', Passes Perform (storeWrite key bytes) s p s' ∧ Shows q w.disk s'

/-- The actions of a store with no faults. -/
def StorePerform (a : StoreAct) (w : World) (r : a.Answer) (w' : World) : Prop :=
  storeStep a w = some (r, w')

section

variable {q : PathBuf} {key : String} {bytes : Bytes} {s : Migration D} {w w' : World}

/-- The write of the store, with `Seen` all along. -/
abbrev seeing (q : PathBuf) (key : String) (bytes : Bytes) (s : Migration D) :
    Discipline
      (System.alone StorePerform : System Unit StoreAct StoreAct.Answer (Res Unit) World) :=
  .solo _ (Seen q key bytes s)

def stages (q : PathBuf) (key : String) (bytes : Bytes) (s : Migration D) :
    StoreAssertions (seeing q key bytes s) () (Stage D) where
  holds := Stage.holds q key bytes s
  stable _ := Discipline.solo_stable _
  memory := by
    rintro P a w r w' ha _ hi hP he
    have hd : w'.disk = w.disk := storeStep_disk ha he
    refine ⟨⟨hd ▸ hi.links, hd ▸ hi.plain, hd ▸ hi.cut⟩, Discipline.solo_guar w w', ?_⟩
    rw [Stage.holds, hd]
    exact hP

/-- A step to another stage. -/
theorem Stage.reached {P : Stage D} (hl : Links w'.disk) (hp : Plain q key w'.disk)
    (h : P.holds q key bytes s w') :
    (seeing q key bytes s).inv w' ∧ (seeing q key bytes s).Guar () w w' ∧
      (stages q key bytes s).holds P w' := by
  refine ⟨⟨hl, hp, ?_⟩, Discipline.solo_guar w w', h⟩
  obtain ⟨⟨s', hpass, hshows⟩, _⟩ := h
  exact ⟨_, s', hpass, hshows⟩

theorem Seen.disk (h : Seen q key bytes s w) (hd : w'.disk = w.disk) : Seen q key bytes s w' :=
  ⟨hd ▸ h.links, hd ▸ h.plain, hd ▸ h.cut⟩

/-- Before the directory is there. -/
def Stage.started (key : String) (bytes : Bytes) : Stage D := ⟨storeWrite key bytes, fun _ => True⟩

def Stage.never : Stage D := ⟨.ret (.ok ()), fun _ => False⟩

/-- The directory `r` on the way to `q` is there. -/
def Stage.made (q : PathBuf) (key : String) (bytes : Bytes) (r : PathBuf) : Stage D where
  left := if r = q then numberTmp key bytes else storeWrite key bytes
  knows d := d.IsDir r

end

/-! ## The steps -/

namespace StoreWrite

variable {q r : PathBuf} {key n : String} {bytes : Bytes} {s : Migration D} {w w' : World}

/-- The directory `r` is there: where it is `q`, `storeWrite` has made it too. -/
theorem arrived {P : Stage D} (hP : P.left = storeWrite key bytes) (hs : P.holds q key bytes s w)
    (hl : Links w'.disk) (hplain : Plain q key w'.disk) (hr : w'.disk.IsDir r)
    (hshows : ∀ s' : Migration D, Shows q w.disk s' →
      Shows q w'.disk (if r = q then s'.mkdir .spendable else s')) :
    (seeing q key bytes s).inv w' ∧ (seeing q key bytes s).Guar () w w' ∧
      (stages q key bytes s).holds (.made q key bytes r) w' := by
  obtain ⟨⟨s', hpass, hs'⟩, _⟩ := hs
  rw [hP, storeWrite_eq] at hpass
  refine Stage.reached hl hplain ⟨⟨_, ?_, hshows s' hs'⟩, hr⟩
  rw [Stage.made]
  split_ifs
  · exact hpass.more ⟨rfl, rfl⟩
  · exact hpass

/-- Nothing has changed, and the directory is there. -/
theorem Shows.there {d : Disk} {s' : Migration D} (h : Shows q d s') (hr : d.IsDir r) :
    Shows q d (if r = q then s'.mkdir .spendable else s') := by
  split_ifs with hq
  · exact h.mkdir (hq ▸ hr)
  · exact h

theorem mkdir {P early : Stage D} (ha : Above q (.join r n))
    (hP : P.left = storeWrite key bytes)
    (hearly : ∀ d, P.knows d → d.IsDir r ∨ early = P) {e : Except ErrorKind Unit}
    (hi : Seen q key bytes s w) (hs : P.holds q key bytes s w)
    (he : StorePerform (.disk (.mkdir (.join r n))) w e w') :
    (seeing q key bytes s).inv w' ∧ (seeing q key bytes s).Guar () w w' ∧
      (stages q key bytes s).holds
        (afterMkdir (.made q key bytes (.join r n)) early .never e) w' := by
  rcases hi.plain.mkdir_cases ha with ⟨hm, hr⟩ | ⟨hm, hd⟩ | ⟨hm, hr, hl⟩
  · simp only [StorePerform, storeStep, hm] at he
    cases he
    obtain rfl := (hearly _ hs.2).resolve_left hr
    exact Stage.reached hi.links hi.plain hs
  · simp only [StorePerform, storeStep, hm] at he
    cases he
    exact arrived hP hs hi.links hi.plain hd fun _ h => Shows.there h hd
  · simp only [StorePerform, storeStep, hm] at he
    cases he
    exact arrived hP hs hi.links.addDir (hi.plain.addDir ha)
      ((Disk.isDir_addDir hr hl _).mpr (Or.inr rfl)) fun _ h => h.addDir hr hl

/-- A look at the disk. -/
theorem look {P : Stage D} {x : DiskAct} {e : Except ErrorKind x.Out}
    (hx : (x.perform w.disk).2 = w.disk) (hi : Seen q key bytes s w)
    (hs : P.holds q key bytes s w) (he : StorePerform (.disk x) w e w') :
    (seeing q key bytes s).inv w' ∧ (seeing q key bytes s).Guar () w w' ∧
      (stages q key bytes s).holds P w' := by
  cases he
  have hi' : Seen q key bytes s { w with disk := (x.perform w.disk).2 } := hi.disk hx
  refine Stage.reached hi'.links hi'.plain ?_
  rw [Stage.holds, hx]
  exact hs

theorem createDirAll (hq : Above q r) :
    (stages q key bytes s).Meets (.started key bytes) (createDirAll r)
      (onResult (fun _ => .never) fun _ => .made q key bytes r) := by
  refine createDirAll_made (q := q) ?_ ?_ ?_ ?_ ?_ hq
  · exact fun _ h => h.2
  · intro b w e w' hi hs he
    cases he
    have hb : w.disk.IsDir (.base b) := w.disk.isDir_base b
    exact ⟨arrived rfl hs hi.links hi.plain hb fun _ h => Shows.there h hb, rfl⟩
  · intro r n ha w e w' hi hs he
    exact mkdir ha rfl (fun _ _ => Or.inr rfl) hi hs he
  · intro r n ha w e w' hi hs he
    refine mkdir (P := .made q key bytes r) ha (if_neg ?_) (fun _ h => Or.inl h) hi hs he
    rintro rfl
    exact Above.not_below ha
  · intro r _ w x w' hi hs he
    have hm := DiskAct.metadata_ok (show w.disk.access r = .ok .dir from hs.2)
    refine ⟨look (congrArg Prod.snd hm) hi hs he, ?_⟩
    cases he
    exact congrArg Prod.fst hm

/-- From here on the directory is there. -/
def inDir (q : PathBuf) (left : SweepProg D (Except SweepError Unit)) (knows : Disk → Prop) :
    Stage D :=
  ⟨left, fun d => d.IsDir q ∧ knows d⟩

variable {c : UInt64} {h : Handle}

theorem create :
    (stages q key bytes s).Meets (inDir q (createTmp key c bytes) fun _ => True)
      (StoreProg.os (.create (.join q (tmpName key c))))
      (onResult (fun _ => .never) fun h => inDir q (fillTmp key c bytes) fun d =>
        ∃ i, h = .file i ∧ Holds d q (tmpName key c) i ⟨[], false⟩) := by
  refine StoreAssertions.os ?_
  rintro w e w' hi ⟨⟨s', hpass, hshows⟩, hq, _⟩ he
  obtain ⟨i, d', hc, hquiet, hdir, hholds, hplain⟩ := hi.plain.create hq c
  simp only [System.alone, StorePerform, storeStep, hc] at he
  cases he
  have hhas : s'.has .spendable = true := hshows.has.mpr hq
  have hact : Perform (.create .spendable (tmpName key c)) s' (.ok ())
      (s'.put .spendable (tmpName key c) []) := by
    simp only [Perform, hhas, if_true, and_self]
  refine Stage.reached (hquiet.links hi.links) hplain
    ⟨⟨_, hpass.more hact, ?_⟩, hdir, i, rfl, hholds⟩
  refine hshows.touch hquiet hi.links (tmpName_isTmp key c) hdir hholds (by simp) fun name => ?_
  simp

/-- The bytes are written at once there, and one after another here. -/
theorem writeAll :
    (stages q key bytes s).Meets
      (inDir q (fillTmp key c bytes) fun d =>
        ∃ i, h = .file i ∧ Holds d q (tmpName key c) i ⟨[], false⟩)
      (StoreProg.os (.writeAll h bytes))
      (onResult (fun _ => .never) fun _ => inDir q (syncWritten key c) fun d =>
        ∃ i, h = .file i ∧ Holds d q (tmpName key c) i ⟨bytes, false⟩) := by
  refine StoreAssertions.os ?_
  rintro w e w' hi ⟨⟨s', hpass, hshows⟩, hq, i, rfl, hholds⟩ he
  simp only [System.alone, StorePerform, storeStep, DiskAct.writeAll_new hholds.2] at he
  cases he
  have hquiet : Quiet (· = tmpName key c) w.disk (w.disk.setFile i ⟨bytes, false⟩) := hholds.quiet
  have hdir := (Disk.isDir_setFile w.disk i ⟨bytes, false⟩ q).mpr hq
  have hholds' : Holds (w.disk.setFile i ⟨bytes, false⟩) q _ i ⟨bytes, false⟩ := hholds.setFile
  have hempty : s'.file .spendable (tmpName key c) = some [] := by
    rw [hshows.file, Disk.contents_join]
    exact ⟨hq, i, hholds.1, congrArg File.data hholds.2⟩
  obtain ⟨s'', hfill, hhas, hfile⟩ :=
    appendAll_passes (g := fun _ => syncWritten key c) bytes hempty
  exact Stage.reached (hquiet.links hi.links) (hi.plain.congr fun _ => rfl)
    ⟨⟨s'', hpass.trans hfill, hshows.touch hquiet hi.links (tmpName_isTmp key c) hdir hholds' hhas
      hfile⟩, hdir, i, rfl, hholds'⟩

theorem syncAll :
    (stages q key bytes s).Meets
      (inDir q (syncWritten key c) fun d =>
        ∃ i, h = .file i ∧ Holds d q (tmpName key c) i ⟨bytes, false⟩)
      (StoreProg.os (.syncAll h))
      (onResult (fun _ => .never) fun _ => inDir q (moveWritten key c) fun d =>
        ∃ i, Holds d q (tmpName key c) i ⟨bytes, true⟩) := by
  refine StoreAssertions.os ?_
  rintro w e w' hi ⟨⟨s', hpass, hshows⟩, hq, i, rfl, hholds⟩ he
  simp only [System.alone, StorePerform, storeStep, DiskAct.syncAll_file hholds.2] at he
  cases he
  have hquiet : Quiet (· = tmpName key c) w.disk (w.disk.setFile i ⟨bytes, true⟩) := hholds.quiet
  have hdir := (Disk.isDir_setFile w.disk i ⟨bytes, true⟩ q).mpr hq
  have hholds' : Holds (w.disk.setFile i ⟨bytes, true⟩) q _ i ⟨bytes, true⟩ := hholds.setFile
  refine Stage.reached (hquiet.links hi.links) (hi.plain.congr fun _ => rfl)
    ⟨⟨s', hpass.more ⟨rfl, rfl⟩, ?_⟩, hdir, i, hholds'⟩
  refine hshows.touch hquiet hi.links (tmpName_isTmp key c) hdir hholds' (hshows.has.mpr hq)
    fun name => ?_
  split_ifs with hn
  · rw [hn, hshows.file, Disk.contents_join]
    exact ⟨hq, i, hholds.1, by rw [hholds.2]⟩
  · rfl

theorem install (hk : ValidName key) :
    (stages q key bytes s).Meets
      (inDir q (moveWritten key c) fun d => ∃ i, Holds d q (tmpName key c) i ⟨bytes, true⟩)
      (install q (tmpName key c) key)
      (onResult (fun _ => .never) fun _ => ⟨.ret (.ok ()), fun _ => True⟩) := by
  refine andThen (M := fun _ => inDir q (act .syncAll) fun _ => True) (StoreAssertions.os ?_)
    fun _ => andThen (M := fun h => inDir q (act .syncAll) fun _ => h = .dir q)
      (StoreAssertions.os ?_) fun h => StoreAssertions.os ?_
  · rintro w e w' hi ⟨⟨s', hpass, hshows⟩, hq, i, hholds⟩ he
    have htk : tmpName key c ≠ key := tmpName_ne hk
    have hd := hi.plain.not_dir
    simp only [System.alone, StorePerform, storeStep, DiskAct.rename_file hq hholds.1 hd htk] at he
    cases he
    have htmp : s'.file .spendable (tmpName key c) = some bytes := by
      rw [hshows.file, Disk.contents_join]
      exact ⟨hq, i, hholds.1, congrArg File.data hholds.2⟩
    have hact : Perform (.rename .spendable (tmpName key c) .spendable key) s' (.ok ())
        ((s'.drop .spendable (tmpName key c)).put .spendable key bytes) := by
      simp only [Perform, htmp, hshows.has.mpr hq, if_true, and_self]
    have hmove := hshows.move hq hholds.1 hd htk
    rw [hholds.2] at hmove
    exact Stage.reached (hi.links.move (tmpName_isTmp key c) hk.not_tmp hholds.1) hi.plain.move
      ⟨⟨_, hpass.more hact, hmove⟩, (Disk.isDir_move hholds.1 hd q).mpr hq, trivial⟩
  · rintro w e w' hi hs he
    have hopen := DiskAct.openRead_dir hs.2.1
    obtain ⟨hi', hg, hs'⟩ := look (congrArg Prod.snd hopen) hi hs he
    simp only [System.alone, StorePerform, storeStep, hopen] at he
    cases he
    exact ⟨hi', hg, hs'.1, hs'.2.1, rfl⟩
  · rintro w e w' hi ⟨⟨s', hpass, hshows⟩, hq, rfl⟩ he
    cases he
    have hsame : ∀ r, ((w.disk.syncDir q).dirs r).now = (w.disk.dirs r).now :=
      fun r => Disk.now_syncDir w.disk q r
    have hdir : (w.disk.syncDir q).IsDir q := by
      rw [Disk.IsDir, Disk.access_congr hsame]
      exact hq
    refine Stage.reached hi.links.syncDir (hi.plain.congr hsame)
      ⟨⟨s', hpass.more ⟨rfl, rfl⟩, ⟨?_, ?_⟩⟩, trivial⟩
    · rw [hshows.has]
      exact iff_of_true hq hdir
    · intro name
      have hquiet : Quiet (fun _ => False) w.disk (w.disk.syncDir q) := .syncDir
      exact (hshows.file name).trans
        (hquiet.same_contents hi.links (fun _ h => h.elim) q id).symm

theorem writeIn (hk : ValidName key) :
    (stages q key bytes s).Meets (.started key bytes) (writeIn q key bytes)
      (onResult (fun _ => .never) fun _ => ⟨.ret (.ok ()), fun _ => True⟩) := by
  refine writeIn_of_parts (createDirAll .here) ?_
    (fun c => andThen create fun h => andThen writeAll fun _ => syncAll)
    (fun c => install hk) fun _ h => h
  rintro w c w' hi ⟨⟨s', hpass, hshows⟩, hq⟩ he
  cases he
  rw [Stage.made, if_pos rfl] at hpass
  exact Stage.reached hi.links hi.plain ⟨⟨s', hpass.more rfl, hshows⟩, hq, trivial⟩

end StoreWrite

/-- Wherever the store's write of a random key is cut, `storeWrite` can be cut with
the same files in the spendable directory; and it has not returned but with the
answer of `storeWrite`. -/
theorem write_seen {root : PathBuf} {random : Bytes} (hrandom : random.length = 32) {bytes : Bytes}
    {w w' : World} (hl : Links w.disk)
    (hplain : Plain (getDestDirPath root "spendable_outputs" "") (hexStr random) w.disk)
    {s : Migration D} (hs : Shows (getDestDirPath root "spendable_outputs" "") w.disk s)
    {p : StoreProg (Res Unit)}
    (h : Passes StorePerform (write root "spendable_outputs" "" (hexStr random) bytes) w p w') :
    (∃ p' s', Passes Perform (storeWrite (hexStr random) bytes) s p' s' ∧
        Shows (getDestDirPath root "spendable_outputs" "") w'.disk s') ∧
      ∀ x, p = .ret x → x = .ok () ∧
        ∃ s', Runs Perform (storeWrite (hexStr random) bytes) s (.ok ()) s' ∧
          Shows (getDestDirPath root "spendable_outputs" "") w'.disk s' := by
  have hacc := key_accepted hrandom
  rw [write_accepted hacc] at h
  have hi : Seen (getDestDirPath root "spendable_outputs" "") (hexStr random) bytes s w :=
    ⟨hl, hplain, _, s, .here, hs⟩
  have hsafe := StoreWrite.writeIn (hacc.2.2.2.2 _ rfl) w hi ⟨⟨s, .here, hs⟩, trivial⟩
  obtain ⟨hi', hsafe'⟩ := Discipline.Safe.passes hsafe hi h
  refine ⟨hi'.cut, ?_⟩
  rintro x rfl
  have hend := hsafe' w' rfl hi'
  cases x with
  | ok _ =>
      obtain ⟨⟨s', hpass, hs'⟩, _⟩ := hend
      exact ⟨rfl, s', hpass.runs, hs'⟩
  | error e => exact hend.2.elim

end Sweep

end LightningNode
