/-
# `LightningNode.Store.Durability` — what an acknowledgement is worth

A `write` that returned syncs the file and the directory of its namespace, but
not the directories above, the data directory among them; a `remove` that is not
lazy syncs the directory, but only if it found the key.  So

    write    is durable exactly if every directory on the way to the namespace
             was there before, and synced in the one above it
    remove   is durable exactly if the key was there, or neither the synced
             entries of its directory nor a pending change of it has the key

`Holding` and `Cleared` are kept by every later call on other keys, step by step,
and by every loss of power.  The data directory is any path: `create_dir_all` may
have to make it, and those above it.
-/
import LightningNode.Store.Links
import LightningNode.Store.Sequential

namespace LightningNode

open Conc FilesystemStore

variable {root : PathBuf} {d d' : Disk} {c : Call} {p s k : String} {buf : Bytes}

/-- Calls that meet `starts`, any faults, losses of power, and a new store after each. -/
def restartedStore (root : PathBuf) (starts : Call → Prop) :
    System Unit StoreAct StoreAct.Answer Reply Life :=
  oneStore root starts True PowerLoss

/-- What a store may be opened on first: directories have been made, the data
directory among them or not, and some have been synced. -/
inductive Blank : Disk → Prop
  | fresh : Blank .fresh
  | addDir {d : Disk} {q : PathBuf} {n : String} : Blank d → d.IsDir q →
      (d.dirs q).now.lookup n = none → Blank (d.addDir q n)
  | syncDir {d : Disk} {q : PathBuf} : Blank d → Blank (d.syncDir q)

/-- A new store on the disk `d` reads `r`. -/
def Reads (root : PathBuf) (d : Disk) (p s k : String) (r : Res Bytes) : Prop :=
  ∃ w, run storeStep (read root p s k) ⟨d, .new⟩ = some (r, w)

theorem reads_iff {r : Res Bytes} (ha : Accepts p s (some k)) :
    Reads root d p s k r ↔ r = readFile d (.join (getDestDirPath root p s) k) := by
  obtain ⟨r', d', m, hrun, _, rfl, rfl⟩ := readIn_readFile (d := d)
    (q := getDestDirPath root p s) (k := k) .new .new
  rw [Reads, read_accepted ha]
  constructor
  · rintro ⟨w, hw⟩
    rw [hrun] at hw
    cases hw
    rfl
  · rintro rfl
    exact ⟨_, hrun⟩

theorem reads_ok (ha : Accepts p s (some k)) : Reads root d p s k (.ok buf) ↔
    d.contents (.join (getDestDirPath root p s) k) = some buf := by
  rw [reads_iff ha, eq_comm, readFile_ok]

theorem reads_error (ha : Accepts p s (some k)) : (∃ e, Reads root d p s k (.error e)) ↔
    d.contents (.join (getDestDirPath root p s) k) = none := by
  simp only [reads_iff ha]
  constructor
  · rintro ⟨e, he⟩
    refine Option.eq_none_iff_forall_not_mem.mpr ?_
    intro b hb
    rw [readFile_ok.mpr hb] at he
    cases he
  · intro hn
    cases hr : readFile d (.join (getDestDirPath root p s) k) with
    | error e => exact ⟨e, rfl⟩
    | ok b =>
        rw [readFile_ok, hn] at hr
        cases hr

def Call.Writes (c : Call) (p s k : String) : Prop := ∃ buf, c = .write p s k buf

def Call.Changes (c : Call) (p s k : String) : Prop :=
  c.Writes p s k ∨ ∃ lazily, c = .remove p s k lazily

/-! ## Directories -/

/-- No step takes a secure directory away. -/
theorem secure_effect {q : PathBuf} (he : Effect root d c d') (h : d.Secure q) : d'.Secure q := by
  refine h.step ?_
  intro r m' hm'
  cases he with
  | none => exact ⟨m', hm', fun _ _ => id⟩
  | @addDir _ p n hp hn =>
      rw [Disk.mayBe_addDir] at hm'
      split_ifs at hm' with hr
      · subst hr
        refine ⟨_, (d.dirs _).mayBe_now, ?_⟩
        intro n' hn'
        have hdir := (Disk.isDir_join.mp (Disk.isDir_join.mp hn').1).2
        rw [hn] at hdir
        cases hdir
      · rcases hm' with hm | ⟨rfl, m, hm, rfl⟩
        · exact ⟨m', hm, fun _ _ => id⟩
        · refine ⟨m, hm, ?_⟩
          intro n' _ hn'
          rw [DirOp.lookup_set, hn', ite_self]
  | @addFile p s k buf n _ _ hn =>
      rcases Disk.mayBe_addFile.mp hm' with hm | ⟨rfl, m, hm, rfl⟩
      · exact ⟨m', hm, fun _ _ => id⟩
      · refine ⟨m, hm, ?_⟩
        intro n' hdir hn'
        have hne : n' ≠ tmpName k n := by
          rintro rfl
          rw [(Disk.isDir_join.mp hdir).2] at hn
          cases hn
        rw [DirOp.lookup_set, if_neg hne, hn']
  | setFile _ _ => exact ⟨m', hm', fun _ _ => id⟩
  | syncFile => exact ⟨m', hm', fun _ _ => id⟩
  | syncDir =>
      rw [Disk.mayBe_syncDir] at hm'
      split_ifs at hm'
      · exact ⟨m', hm' ▸ (d.dirs r).mayBe_now, fun _ _ => id⟩
      · exact ⟨m', hm', fun _ _ => id⟩
  | @move p s k t buf i _ _ _ hti hk _ =>
      rcases Disk.mayBe_change.mp hm' with hm | ⟨rfl, m, hm, rfl⟩
      · exact ⟨m', hm, fun _ _ => id⟩
      · refine ⟨m, hm, ?_⟩
        intro n' hdir hn'
        have hnow := (Disk.isDir_join.mp hdir).2
        have hnt : n' ≠ t := by
          rintro rfl
          rw [hnow] at hti
          cases hti
        have hnk : n' ≠ k := by
          rintro rfl
          exact hk hnow
        rw [DirOp.lookup_move, if_neg hnk, if_neg hnt, hn']
  | @del p s k lazily i _ ha =>
      rcases Disk.mayBe_change.mp hm' with hm | ⟨rfl, m, hm, rfl⟩
      · exact ⟨m', hm, fun _ _ => id⟩
      · refine ⟨m, hm, ?_⟩
        intro n' hdir hn'
        have hne : n' ≠ k := by
          rintro rfl
          rw [show d.access _ = _ from hdir] at ha
          cases ha
        rw [DirOp.lookup_del, if_neg hne, hn']

/-- Nor does a step of a call make the directory of its namespace secure. -/
theorem secure_of_effect (he : Effect root d c d') (h : d'.Secure (c.dir root)) :
    d.Secure (c.dir root) := by
  have habove : (∀ q, q ≠ c.dir root → d'.dirs q = d.dirs q) → d.Secure (c.dir root) :=
    fun hd => Disk.secure_above _ (fun q hq => hd q (PathBuf.ne_of_depth_lt hq)) h
  cases he with
  | none => exact h
  | addDir _ hn => exact Disk.secure_of_addDir hn h
  | addFile _ _ _ => exact habove fun q hq => Function.update_of_ne hq ..
  | setFile _ _ => exact habove fun _ _ => rfl
  | syncFile => exact habove fun _ _ => rfl
  | syncDir => exact habove fun q hq => Function.update_of_ne hq ..
  | move _ _ _ _ _ _ => exact habove fun q hq => Function.update_of_ne hq ..
  | del _ _ => exact habove fun q hq => Function.update_of_ne hq ..

/-- A step of a call makes a directory only where there was nothing. -/
theorem isDir_of_effect {q : PathBuf} (he : Effect root d c d') (h : d'.IsDir q) :
    d.IsDir q ∨ ∃ p n, q = .join p n ∧ d' = d.addDir p n := by
  cases he with
  | none => exact Or.inl h
  | @addDir _ p n hp hn =>
      rcases (Disk.isDir_addDir hp hn q).mp h with h | rfl
      · exact Or.inl h
      · exact Or.inr ⟨p, n, rfl, rfl⟩
  | addFile _ _ hn => exact Or.inl ((Disk.entry_addFile.isDir (by simp [hn]) nofun q).mp h)
  | setFile _ _ => exact Or.inl ((Disk.isDir_setFile d _ _ q).mp h)
  | syncFile => exact Or.inl ((Disk.isDir_setFile d _ _ q).mp h)
  | syncDir => exact Or.inl ((Disk.access_congr (fun r => Disk.now_syncDir d _ r) q).symm.trans h)
  | move _ _ _ hti hk _ => exact Or.inl ((Disk.isDir_move hti hk q).mp h)
  | del _ ha =>
      refine Or.inl ((Disk.entry_del.isDir ?_ nofun q).mp h)
      rw [(Disk.access_join.mp ha).2]
      nofun

theorem standing_addDir {p : PathBuf} {n : String} (h : d.Standing) : (d.addDir p n).Standing := by
  refine ⟨fun {q m n'} hm hn => ?_⟩
  rw [Disk.mayBe_addDir] at hm
  rw [Disk.lookup_addDir]
  split_ifs at hm ⊢ with hq hqn
  · subst hm
    cases hn
  · rfl
  · rcases hm with hm | ⟨rfl, m₀, hm₀, rfl⟩
    · exact h.now hm hn
    · have hne : n' ≠ n := fun heq => hqn ⟨rfl, heq⟩
      rw [DirOp.lookup_set, if_neg hne] at hn
      exact h.now hm₀ hn

theorem standing_syncDir {p : PathBuf} (h : d.Standing) : (d.syncDir p).Standing := by
  refine ⟨fun {q m n} hm hn => ?_⟩
  rw [Disk.mayBe_syncDir] at hm
  rw [Disk.now_syncDir]
  split_ifs at hm with hq
  · subst hm
    exact hn
  · exact h.now hm hn

theorem standing_effect (h : d.Standing) (he : Effect root d c d') : d'.Standing := by
  cases he with
  | none => exact h
  | addDir _ _ => exact standing_addDir h
  | setFile _ _ => exact ⟨h.now⟩
  | syncFile => exact ⟨h.now⟩
  | syncDir => exact standing_syncDir h
  | @addFile p s k buf n _ _ hnone =>
      refine ⟨fun {q m n'} hm hn => ?_⟩
      rw [Disk.entry_addFile q n']
      rcases Disk.mayBe_addFile.mp hm with hm | ⟨rfl, m₀, hm₀, rfl⟩
      · have hnow := h.now hm hn
        rw [if_neg ?_, hnow]
        rintro ⟨rfl, rfl⟩
        rw [hnone] at hnow
        cases hnow
      · rw [DirOp.lookup_set] at hn
        split_ifs at hn with hne
        · cases hn
        · rw [if_neg fun heq => hne heq.2, h.now hm₀ hn]
  | @move p s k t buf i _ _ _ hti hk _ =>
      refine ⟨fun {q m n'} hm hn => ?_⟩
      rw [Disk.now_change]
      have hnow : (d.dirs q).now.lookup n' = some .dir := by
        rcases Disk.mayBe_change.mp hm with hm | ⟨rfl, m₀, hm₀, rfl⟩
        · exact h.now hm hn
        · rw [DirOp.lookup_move] at hn
          split_ifs at hn
          · cases hn
          · exact h.now hm₀ hn
      split_ifs with hq
      · subst hq
        have hnk : n' ≠ k := fun heq => hk (heq ▸ hnow)
        have hnt : n' ≠ t := by
          rintro rfl
          rw [hti] at hnow
          cases hnow
        rw [DirOp.lookup_move, if_neg hnk, if_neg hnt, hnow]
      · exact hnow
  | @del p s k lazily i _ ha =>
      refine ⟨fun {q m n'} hm hn => ?_⟩
      rw [Disk.entry_del q n']
      have hnow : (d.dirs q).now.lookup n' = some .dir := by
        rcases Disk.mayBe_change.mp hm with hm | ⟨rfl, m₀, hm₀, rfl⟩
        · exact h.now hm hn
        · rw [DirOp.lookup_del] at hn
          split_ifs at hn
          exact h.now hm₀ hn
      rw [if_neg ?_, hnow]
      rintro ⟨rfl, rfl⟩
      rw [(Disk.access_join.mp ha).2] at hnow
      cases hnow

theorem Blank.standing (h : Blank d) : d.Standing := by
  induction h with
  | fresh =>
      refine ⟨fun {q m n} hm hn => ?_⟩
      rw [Dir.mayBe_empty.mp hm] at hn
      cases hn
  | addDir _ _ _ ih => exact standing_addDir ih
  | syncDir _ ih => exact standing_syncDir ih

theorem Blank.links (h : Blank d) : Links d := by
  induction h with
  | fresh => exact .fresh
  | addDir _ _ _ ih => exact ih.addDir
  | syncDir _ ih => exact ih.syncDir

/-! ## Keys -/

/-- The key is on the disk to stay. -/
structure Holding (d : Disk) (q : PathBuf) (k : String) (buf : Bytes) : Prop where
  links : Links d
  secure : d.Secure q
  durable : Durable d q k buf

/-- A step of a call that does not change the key. -/
theorem Holding.effect (ha : Accepts p s (some k))
    (h : Holding d (getDestDirPath root p s) k buf) (hc : ¬ c.Changes p s k)
    (he : Effect root d c d') : Holding d' (getDestDirPath root p s) k buf := by
  refine ⟨h.links.effect he, secure_effect he h.secure, ?_⟩
  have hk : ¬ IsTmp k := (ha.2.2.2.2 k rfl).not_tmp
  obtain ⟨i, hf, hv⟩ := h.durable
  have hnow := hv _ (d.dirs _).mayBe_now
  have hlink : d.Linked (getDestDirPath root p s) k i := .of_now hnow
  cases he with
  | none => exact ⟨i, hf, hv⟩
  | @addDir _ p' n hp hn =>
      refine ⟨i, hf, ?_⟩
      intro m hm
      rw [Disk.mayBe_addDir] at hm
      split_ifs at hm with hq
      · have hdir := (Disk.isDir_join.mp (hq ▸ h.secure.isDir)).2
        rw [hn] at hdir
        cases hdir
      · rcases hm with ho | ⟨rfl, m₀, ho, rfl⟩
        · exact hv m ho
        · have hne : k ≠ n := by
            rintro rfl
            rw [hn] at hnow
            cases hnow
          rw [DirOp.lookup_set, if_neg hne, hv m₀ ho]
  | @addFile p' s' k' buf' n _ _ _ =>
      refine ⟨i, ?_, ?_⟩
      · rw [Disk.addFile_files, Disk.setFile_files_ne d _ (Nat.ne_of_lt (h.links.next hlink)), hf]
      · intro m hm
        rcases Disk.mayBe_addFile.mp hm with ho | ⟨_, m₀, ho, rfl⟩
        · exact hv m ho
        · have hne : k ≠ tmpName k' n := fun heq => hk (heq ▸ tmpName_isTmp k' n)
          rw [DirOp.lookup_set, if_neg hne, hv m₀ ho]
  | @setFile _ q' t j f ht hti =>
      refine ⟨i, ?_, hv⟩
      rw [Disk.setFile_files_ne, hf]
      rintro rfl
      obtain rfl := h.links.dir (.of_now hti) hlink
      exact hk (h.links.tmp ht hti hlink ▸ ht)
  | @syncFile _ j =>
      refine ⟨i, ?_, hv⟩
      by_cases hij : i = j
      · subst hij
        rw [Disk.setFile_files_self, hf]
      · rw [Disk.setFile_files_ne d _ hij, hf]
  | syncDir =>
      refine ⟨i, hf, ?_⟩
      intro m hm
      rw [Disk.mayBe_syncDir] at hm
      split_ifs at hm
      · exact hm ▸ hnow
      · exact hv m hm
  | @move p' s' k' t buf' j ha' ht _ hti _ _ =>
      refine ⟨i, hf, ?_⟩
      intro m hm
      rcases Disk.mayBe_change.mp hm with ho | ⟨hq, m₀, ho, rfl⟩
      · exact hv m ho
      · obtain ⟨rfl, rfl⟩ := getDestDirPath_inj ha.2.1 ha'.2.1 hq
        have hne : k ≠ k' := by
          rintro rfl
          exact hc (Or.inl ⟨buf', rfl⟩)
        have hnt : k ≠ t := fun heq => hk (heq ▸ ht)
        rw [DirOp.lookup_move, if_neg hne, if_neg hnt, hv m₀ ho]
  | @del p' s' k' lazily j ha' _ =>
      refine ⟨i, hf, ?_⟩
      intro m hm
      rcases Disk.mayBe_change.mp hm with ho | ⟨hq, m₀, ho, rfl⟩
      · exact hv m ho
      · obtain ⟨rfl, rfl⟩ := getDestDirPath_inj ha.2.1 ha'.2.1 hq
        have hne : k ≠ k' := by
          rintro rfl
          exact hc (Or.inr ⟨lazily, rfl⟩)
        rw [DirOp.lookup_del, if_neg hne, hv m₀ ho]

theorem Holding.powerLoss {q : PathBuf} (h : Holding d q k buf) (hp : PowerLoss d d') :
    Holding d' q k buf := by
  refine ⟨h.links.powerLoss hp, h.secure.powerLoss hp, ?_⟩
  obtain ⟨i, hf, hv⟩ := h.durable
  have hsynced := (hp.files i).1
  have hdata := (hp.files i).2 (by rw [hf])
  refine ⟨i, ?_, fun m hm => hv m (hp.view q m hm)⟩
  cases hfile : d'.files i with
  | mk data synced =>
      rw [hfile, hf] at hsynced hdata
      rw [show data = buf from hdata, show synced = true from hsynced]

theorem Holding.contents {q : PathBuf} (h : Holding d q k buf) :
    d.contents (.join q k) = some buf := by
  obtain ⟨i, hf, hv⟩ := h.durable
  exact Disk.contents_join.mpr ⟨h.secure.isDir, i, hv _ (d.dirs q).mayBe_now, by rw [hf]⟩

/-- A step of a call that does not write the key. -/
theorem Gone.effect (ha : Accepts p s (some k))
    (h : Gone d (getDestDirPath root p s) k) (hc : ¬ c.Writes p s k)
    (he : Effect root d c d') : Gone d' (getDestDirPath root p s) k := by
  have hk : ¬ IsTmp k := (ha.2.2.2.2 k rfl).not_tmp
  intro m hm i hn
  have hfewer : d.Fewer d' → False := by
    intro hf
    obtain ⟨m₀, hm₀, hsub⟩ := hf _ m hm
    exact h m₀ hm₀ i (hsub k i hn)
  cases he with
  | none => exact h m hm i hn
  | addDir _ _ => exact hfewer .addDir
  | @addFile p' s' k' buf' n _ _ _ =>
      obtain hl | ⟨_, rfl, _⟩ := Links.linked_addFile ⟨m, hm, hn⟩
      · obtain ⟨m₀, hm₀, hn₀⟩ := hl
        exact h m₀ hm₀ i hn₀
      · exact hk (tmpName_isTmp k' n)
  | setFile _ _ => exact h m hm i hn
  | syncFile => exact h m hm i hn
  | syncDir => exact hfewer .syncDir
  | @move p' s' k' t buf' j ha' _ _ _ _ _ =>
      obtain hl | ⟨hq, rfl, _⟩ := Links.linked_move ⟨m, hm, hn⟩
      · obtain ⟨m₀, hm₀, hn₀⟩ := hl
        exact h m₀ hm₀ i hn₀
      · obtain ⟨rfl, rfl⟩ := getDestDirPath_inj ha.2.1 ha'.2.1 hq
        exact hc ⟨buf', rfl⟩
  | del _ _ => exact hfewer .del

/-- The key is not on the disk, nor can it come back. -/
structure Cleared (d : Disk) (q : PathBuf) (k : String) : Prop where
  standing : d.Standing
  gone : d.IsDir q → Gone d q k

theorem Cleared.effect (ha : Accepts p s (some k)) (h : Cleared d (getDestDirPath root p s) k)
    (hc : ¬ c.Writes p s k) (he : Effect root d c d') :
    Cleared d' (getDestDirPath root p s) k := by
  refine ⟨standing_effect h.standing he, ?_⟩
  intro hq
  rcases isDir_of_effect he hq with hq | ⟨r, n, heq, rfl⟩
  · exact Gone.effect ha (h.gone hq) hc he
  · -- the directory has just been made, and is empty
    intro m hm i hl
    rw [heq, Disk.mayBe_addDir, if_pos rfl] at hm
    subst hm
    cases hl

theorem Cleared.powerLoss {q : PathBuf} (h : Cleared d q k) (hp : PowerLoss d d') :
    Cleared d' q k :=
  ⟨.powerLoss hp, fun hq m hm => h.gone (h.standing.isDir hp hq) m (hp.view q m hm)⟩

theorem Cleared.contents {q : PathBuf} (h : Cleared d q k) : d.contents (.join q k) = none := by
  refine Option.eq_none_iff_forall_not_mem.mpr ?_
  intro b hb
  obtain ⟨hq, i, hl, _⟩ := Disk.contents_join.mp hb
  exact h.gone hq _ (d.dirs q).mayBe_now i hl

/-- A key that is in some outcome of a directory may come back. -/
theorem contents_choose {q : PathBuf} {m : Names} {i : Ino} (hq : d.IsDir q)
    (hm : (d.dirs q).MayBe m) (hl : m.lookup k = some (.file i)) :
    ∃ d' b, PowerLoss d d' ∧ d'.contents (.join q k) = some b := by
  refine ⟨_, (d.files i).data, PowerLoss.choose hm, Disk.contents_join.mpr ⟨?_, i, ?_, rfl⟩⟩
  · refine (Disk.access_above q fun r hr => ?_).trans hq
    rw [PowerLoss.now_choose, if_neg (PathBuf.ne_of_depth_lt hr)]
  · rw [PowerLoss.now_choose, if_pos rfl, hl]

/-! ## The two calls -/

variable {l : Life} {w : World}

/-- A `write` that returned: the key is on the disk, and its directory as secure
as it was. -/
theorem write_done (hl : Links l.disk)
    (hw : run storeStep (write root p s k buf) l.world = some (.ok (), w)) :
    Accepts p s (some k) ∧ Links w.disk ∧ Durable w.disk (getDestDirPath root p s) k buf ∧
      (w.disk.Secure (getDestDirPath root p s) ↔
        l.disk.Secure (getDestDirPath root p s)) := by
  by_cases ha : Accepts p s (some k)
  · let I (d : Disk) (_ : List Issue) := Links d ∧
      (d.Secure (getDestDirPath root p s) ↔
        l.disk.Secure (getDestDirPath root p s))
    have hI : Kept root I (.write p s k buf) := by
      rintro d d' _ ⟨hlinks, hs⟩ _ he
      exact ⟨hlinks.effect he, Iff.trans ⟨secure_of_effect he, secure_effect he⟩ hs⟩
    rw [write_accepted ha] at hw
    have hpart : Part root (fun _ => True) True (fun _ _ => False) I _ (fun _ => True) _ _ :=
      Part.writeIn ha hI
    obtain ⟨⟨hlinks, hs⟩, hd⟩ := hpart.run (l := ⟨l.world, [(p, s, k, buf)]⟩) ⟨hl, Iff.rfl⟩
      (List.Subset.refl _) trivial hw
    exact ⟨ha, hlinks, hd () rfl, hs⟩
  · obtain ⟨msg, hmsg⟩ := check_rejects "write" ha
    simp only [write, hmsg] at hw
    cases hw

/-- The key is a file. -/
def IsFile (d : Disk) (q : PathBuf) : Prop := ∃ i, d.access q = .ok (.file i)

/-- A `remove` that returned: of a key that was there nothing is left, else
nothing was done. -/
theorem remove_done (hs : l.disk.Standing)
    (hw : run storeStep (remove root p s k false) l.world = some (.ok (), w)) :
    Accepts p s (some k) ∧
      (IsFile l.disk (.join (getDestDirPath root p s) k) ∧
          w.disk.Standing ∧ Gone w.disk (getDestDirPath root p s) k ∨
        ¬ IsFile l.disk (.join (getDestDirPath root p s) k) ∧ w = l.world) := by
  by_cases ha : Accepts p s (some k)
  · refine ⟨ha, ?_⟩
    rw [remove_accepted ha] at hw
    -- the first step looks at the key and changes nothing
    have hmeta : ∀ x, l.disk.access (.join (getDestDirPath root p s) k) = x →
        storeStep (.disk (.metadata (.join (getDestDirPath root p s) k))) l.world
          = some (x, l.world) := by
      rintro _ rfl
      rfl
    cases hx : l.disk.access (.join (getDestDirPath root p s) k) with
    | error e =>
        have hr : run storeStep (removeIn (getDestDirPath root p s) k false) l.world
            = some (.ok (), l.world) := run_act (hmeta _ hx)
        rw [hr] at hw
        cases hw
        refine Or.inr ⟨?_, rfl⟩
        rintro ⟨i, hi⟩
        rw [hx] at hi
        cases hi
    | ok x =>
        cases x with
        | dir =>
            have hr : run storeStep (removeIn (getDestDirPath root p s) k false) l.world
                = some (.ok (), l.world) := run_act (hmeta _ hx)
            rw [hr] at hw
            cases hw
            refine Or.inr ⟨?_, rfl⟩
            rintro ⟨i, hi⟩
            rw [hx] at hi
            cases hi
        | file i =>
            have hr : run storeStep (removeIn (getDestDirPath root p s) k false) l.world
                = run storeStep _ l.world := run_act (hmeta _ hx)
            rw [hr] at hw
            have hI : Kept root (fun d _ => d.Standing) (.remove p s k false) :=
              fun hi _ he => standing_effect hi he
            have hpart : Part root (fun _ => True) True (fun _ _ => False) _ _ (fun _ => True) _ _ :=
              Part.unlinked ha hI
            obtain ⟨hs', hg⟩ := hpart.run hs (List.nil_subset _) trivial hw
            exact Or.inl ⟨⟨i, hx⟩, hs', hg () rfl rfl⟩
  · obtain ⟨msg, hmsg⟩ := check_rejects "remove" ha
    simp only [remove, hmsg] at hw
    cases hw

/-! ## What is acknowledged -/

/-- The `write` is durable: until the key is changed, every power loss leaves it. -/
def WriteLasts (root : PathBuf) (w : World) (p s k : String) (buf : Bytes) : Prop :=
  ∀ cfg, (restartedStore root fun c => ¬ c.Changes p s k).Reach (.idle ⟨w, []⟩) cfg →
    ∀ d, PowerLoss cfg.state.disk d → Reads root d p s k (.ok buf)

/-- The `remove` is durable: until the key is written, no power loss brings it back. -/
def RemoveLasts (root : PathBuf) (w : World) (p s k : String) : Prop :=
  ∀ cfg, (restartedStore root fun c => ¬ c.Writes p s k).Reach (.idle ⟨w, []⟩) cfg →
    ∀ d, PowerLoss cfg.state.disk d → ∃ e, Reads root d p s k (.error e)

theorem write_lasts (ha : Accepts p s (some k))
    (h : Holding w.disk (getDestDirPath root p s) k buf) :
    WriteLasts root w p s k buf := by
  intro cfg hr d hd
  have hold := oneStore_reach (I := fun d _ => Holding d (getDestDirPath root p s) k buf)
    (fun c hc _ _ _ hi _ he => hi.effect ha hc he) (fun _ hi => hi) (fun hp hi => hi.powerLoss hp)
    h hr
  exact (reads_ok ha).mpr (hold.powerLoss hd).contents

theorem remove_lasts (ha : Accepts p s (some k))
    (h : Cleared w.disk (getDestDirPath root p s) k) : RemoveLasts root w p s k := by
  intro cfg hr d hd
  have hcleared := oneStore_reach (I := fun d _ => Cleared d (getDestDirPath root p s) k)
    (fun c hc _ _ _ hi _ he => hi.effect ha hc he) (fun _ hi => hi) (fun hp hi => hi.powerLoss hp)
    h hr
  exact (reads_error ha).mpr (hcleared.powerLoss hd).contents

/-- After any history, a `write` that returned is durable exactly if the
directory of its namespace, with all above it, was safe from a power loss before;
a `remove` that returned, exactly if the key was there before, or the directory
was not, or had the key neither in its synced entries nor by a pending change. -/
theorem acknowledged_lasts {d : Disk} (hd : Blank d)
    {cfg : Config Unit StoreAct StoreAct.Answer Reply Life}
    (h : (restartedStore root fun _ => True).Reach (.idle (.start d)) cfg) :
    (∀ p s k buf w,
      run storeStep (write root p s k buf) cfg.state.world = some (.ok (), w) →
      (WriteLasts root w p s k buf ↔
        cfg.state.disk.Survives (getDestDirPath root p s))) ∧
    (∀ p s k w,
      run storeStep (remove root p s k false) cfg.state.world = some (.ok (), w) →
      (RemoveLasts root w p s k ↔
        IsFile cfg.state.disk (.join (getDestDirPath root p s) k) ∨
          (cfg.state.disk.IsDir (getDestDirPath root p s) →
            ∀ i, ¬ (cfg.state.disk.dirs (getDestDirPath root p s)).MayHold k (.file i)))) := by
  have hlinks : Links cfg.state.disk := Links.oneStore Or.inr hd.links h
  have hstanding : cfg.state.disk.Standing :=
    oneStore_reach (I := fun d _ => d.Standing) (fun c _ _ _ _ hi _ he => standing_effect hi he)
      (fun _ hi => hi) (fun hp _ => .powerLoss hp) hd.standing h
  constructor
  · intro p s k buf w hw
    obtain ⟨ha, hl, hd, hs⟩ := write_done hlinks hw
    rw [Disk.survives_iff, ← hs]
    constructor
    · intro hlasts
      refine (Disk.survives_iff _).mp ?_
      intro d hd
      exact (Disk.contents_join.mp ((reads_ok ha).mp (hlasts _ .refl d hd))).1
    · intro hsec
      exact write_lasts ha ⟨hl, hsec, hd⟩
  · intro p s k w hw
    obtain ⟨ha, ⟨hf, hs, hg⟩ | ⟨hf, rfl⟩⟩ := remove_done hstanding hw
    · exact ⟨fun _ => Or.inl hf, fun _ => remove_lasts ha ⟨hs, fun _ => hg⟩⟩
    · constructor
      · intro hlasts
        refine Or.inr fun hq i hold => ?_
        obtain ⟨m, hm, hl⟩ := Dir.mayHold_iff.mp hold
        obtain ⟨d, b, hp, hb⟩ := contents_choose hq hm hl
        have hnone := (reads_error ha).mp (hlasts _ .refl d hp)
        rw [hnone] at hb
        cases hb
      · rintro (hf' | hnone)
        · exact absurd hf' hf
        · refine remove_lasts ha ⟨hstanding, fun hq m hm i hl => ?_⟩
          exact hnone hq i (Dir.mayHold_iff.mpr ⟨m, hm, hl⟩)

/-! ### A data directory -/

/-- `ldk_data_dir`, in a directory that is always there. -/
def ldkDataDir : PathBuf := .join (.base "/home") ".ldk"

/-- Made, as `main` does it. -/
def dataDirMade : Disk := Disk.fresh.addDir (.base "/home") ".ldk"

theorem blank_dataDirMade : Blank dataDirMade := .addDir .fresh rfl rfl

/-- Made, and synced in the directory above it. -/
def dataDirSynced : Disk := dataDirMade.syncDir (.base "/home")

/-- The top-level namespace of a data directory whose own entry is synced. -/
theorem acknowledged_lasts_top :
    ∃ w, run storeStep (write ldkDataDir "" "" "manager" [1]) (Life.start dataDirSynced).world
        = some (.ok (), w) ∧ WriteLasts ldkDataDir w "" "" "manager" [1] := by
  have hrun : (run storeStep (write ldkDataDir "" "" "manager" [1])
      (Life.start dataDirSynced).world).map Prod.fst = some (.ok ()) := by
    decide
  obtain ⟨⟨r, w⟩, hw, rfl⟩ := Option.map_eq_some_iff.mp hrun
  have hblank : Blank dataDirSynced := .syncDir blank_dataDirMade
  refine ⟨w, hw, ((acknowledged_lasts hblank .refl).1 "" "" "manager" [1] w hw).mpr ?_⟩
  refine (Disk.survives_iff ldkDataDir).mpr ⟨trivial, ?_⟩
  intro m hm
  rw [Disk.mayBe_syncDir_self.mp hm]
  decide

/-! ## Three calls that do not last -/

/-- What is left if all that is pending is lost. -/
def lose (d : Disk) : Disk := { d with dirs := fun q => ⟨(d.dirs q).synced, []⟩ }

/-- Each call on a store nobody else uses, one after the other. -/
theorem restartedStore_call {starts : Call → Prop} {l : Life} {w : World} {x : Reply}
    (hc : starts c) (hr : run storeStep (c.program root) l.world = some (x, w)) :
    (restartedStore root starts).Reach (.idle l) (.idle ⟨w, c.issues ++ l.issued⟩) := by
  have hrun := run_play (l := ⟨l.world, c.issues ++ l.issued⟩) hr
  exact System.reach_call (t := ()) play_exec ⟨c, hc, rfl, rfl⟩ hrun rfl

/-- A `write` whose key is not there after a loss of all that is pending. -/
theorem not_writeLasts {l : Life} (ha : Accepts p s (some k))
    (hrun : (run storeStep (write root p s k buf) l.world).map (fun x =>
      (x.1, (lose x.2.disk).contents (.join (getDestDirPath root p s) k))) = some (.ok (), none)) :
    ∃ w, run storeStep (write root p s k buf) l.world = some (.ok (), w) ∧
      ¬ WriteLasts root w p s k buf := by
  obtain ⟨⟨r, w⟩, hw, hx⟩ := Option.map_eq_some_iff.mp hrun
  obtain ⟨rfl, hnone⟩ := Prod.mk.inj hx
  refine ⟨w, hw, ?_⟩
  intro hlasts
  have hsome := (reads_ok ha).mp (hlasts _ .refl _ (.lost _))
  exact nomatch hnone.symm.trans hsome

/-- The first write of a namespace is lost with the directory it made, one to a
data directory that is not synced is lost with that; a key removed lazily, then
not lazily, is back. -/
theorem acknowledged_is_lost :
    (∃ w, run storeStep (write ldkDataDir "monitors" "" "ab_0" [1])
        (Life.start dataDirSynced).world = some (.ok (), w) ∧
      ¬ WriteLasts ldkDataDir w "monitors" "" "ab_0" [1]) ∧
    (∃ w, run storeStep (write ldkDataDir "" "" "manager" [1])
        (Life.start dataDirMade).world = some (.ok (), w) ∧
      ¬ WriteLasts ldkDataDir w "" "" "manager" [1]) ∧
    (restartedStore ldkDataDir fun _ => True).Can (.idle (.start dataDirSynced)) fun cfg =>
      ∃ w, run storeStep (remove ldkDataDir "" "" "manager" false) cfg.state.world
          = some (.ok (), w) ∧ ¬ RemoveLasts ldkDataDir w "" "" "manager" := by
  refine ⟨not_writeLasts (by decide) (by decide), not_writeLasts (by decide) (by decide), ?_⟩
  have hrun : ((run storeStep ((Call.write "" "" "manager" [1]).program ldkDataDir)
      (Life.start dataDirSynced).world).bind fun x =>
        (run storeStep ((Call.remove "" "" "manager" true).program ldkDataDir) x.2).bind
          fun y => (run storeStep (remove ldkDataDir "" "" "manager" false) y.2).map
            fun z => (z.1, (lose z.2.disk).contents (.join ldkDataDir "manager")))
      = some (.ok (), some [1]) := by
    decide
  obtain ⟨⟨r₁, w₁⟩, hw₁, hrun⟩ := Option.bind_eq_some_iff.mp hrun
  obtain ⟨⟨r₂, w₂⟩, hw₂, hrun⟩ := Option.bind_eq_some_iff.mp hrun
  obtain ⟨⟨r₃, w₃⟩, hw₃, hx⟩ := Option.map_eq_some_iff.mp hrun
  obtain ⟨rfl, hsome⟩ := Prod.mk.inj hx
  refine ⟨_, .trans (restartedStore_call trivial hw₁) (restartedStore_call trivial hw₂),
    w₃, hw₃, ?_⟩
  intro hlasts
  have ha : Accepts "" "" (some "manager") := by decide
  have hnone := (reads_error ha).mp (hlasts _ .refl _ (.lost _))
  exact nomatch hnone.symm.trans hsome

end LightningNode
