/-
# `LightningNode.Lib.PowerLoss` — what a power loss leaves of a disk

Each directory comes out of a power loss with some of its pending changes; these
are its outcomes (`Dir.MayBe`).  Synced data stays, other data may become
anything.

    Linked          a name leads to a file in some outcome
    Fewer           outcomes that lead to fewer files
    PowerLoss       what the disk may be afterwards
    Survives        a directory that is there in every outcome
-/
import LightningNode.Lib.Disk

namespace Conc

/-! ## What a power loss may leave -/

namespace Disk

variable {d : Disk} {p q : PathBuf} {op : DirOp} {name : String} {m : Names}

theorem mayBe_change : ((d.change p op).dirs q).MayBe m ↔
    (d.dirs q).MayBe m ∨ q = p ∧ ∃ m', (d.dirs q).MayBe m' ∧ m = op.on m' := by
  by_cases h : q = p
  · subst h
    simp [change, Dir.mayBe_add]
  · simp [change, h]

theorem mayBe_addFile : ((d.addFile p name).dirs q).MayBe m ↔
    (d.dirs q).MayBe m ∨
      q = p ∧ ∃ m', (d.dirs q).MayBe m' ∧ m = (DirOp.set name (.file d.next)).on m' :=
  mayBe_change (d := d.setFile d.next ⟨[], false⟩)

theorem mayBe_addDir : ((d.addDir p name).dirs q).MayBe m ↔
    if q = .join p name then m = ∅
    else (d.dirs q).MayBe m ∨ q = p ∧ ∃ m', (d.dirs q).MayBe m' ∧ m = (DirOp.set name .dir).on m' := by
  by_cases h : q = .join p name
  · subst h
    simp [addDir, Dir.mayBe_empty]
  · rw [if_neg h, ← mayBe_change]
    simp [addDir, h]

theorem mayBe_syncDir : ((d.syncDir p).dirs q).MayBe m ↔
    if q = p then m = (d.dirs q).now else (d.dirs q).MayBe m := by
  by_cases h : q = p
  · subst h
    simp [syncDir]
  · simp [syncDir, h]

theorem mayBe_syncDir_self : ((d.syncDir p).dirs p).MayBe m ↔ m = (d.dirs p).now := by
  rw [mayBe_syncDir, if_pos rfl]

/-- `n` in `q` is the file `i`, now or after a power loss. -/
def Linked (d : Disk) (q : PathBuf) (n : String) (i : Ino) : Prop :=
  ∃ m, (d.dirs q).MayBe m ∧ m.lookup n = some (.file i)

theorem Linked.of_now {n : String} {i : Ino} (h : (d.dirs q).now.lookup n = some (.file i)) :
    d.Linked q n i :=
  ⟨_, (d.dirs q).mayBe_now, h⟩

/-- Every outcome for `d'` leads to files at most where some outcome for `d` does. -/
def Fewer (d d' : Disk) : Prop := ∀ q m', (d'.dirs q).MayBe m' → ∃ m, (d.dirs q).MayBe m ∧
  ∀ n i, m'.lookup n = some (.file i) → m.lookup n = some (.file i)

theorem Fewer.linked {d' : Disk} (h : Fewer d d') {n : String} {i : Ino}
    (hl : d'.Linked q n i) : d.Linked q n i := by
  obtain ⟨m', hm', hn⟩ := hl
  obtain ⟨m, hm, hmm'⟩ := h q m' hm'
  exact ⟨m, hm, hmm' n i hn⟩

theorem Fewer.del : Fewer d (d.change p (.del name)) := by
  intro q m' hm'
  rcases mayBe_change.mp hm' with hm | ⟨rfl, m, hm, rfl⟩
  · exact ⟨m', hm, fun _ _ => id⟩
  · refine ⟨m, hm, ?_⟩
    intro n i hn
    rw [DirOp.lookup_del] at hn
    split_ifs at hn
    exact hn

theorem Fewer.addDir : Fewer d (d.addDir p name) := by
  intro q m' hm'
  rw [mayBe_addDir] at hm'
  split_ifs at hm' with hq
  · subst hm'
    exact ⟨_, (d.dirs q).mayBe_now, nofun⟩
  · rcases hm' with hm | ⟨rfl, m, hm, rfl⟩
    · exact ⟨m', hm, fun _ _ => id⟩
    · refine ⟨m, hm, ?_⟩
      intro n i hn
      rw [DirOp.lookup_set] at hn
      split_ifs at hn with hnn
      · cases hn
      · exact hn

theorem Fewer.syncDir : Fewer d (d.syncDir p) := by
  intro q m' hm'
  rw [mayBe_syncDir] at hm'
  split_ifs at hm'
  · exact ⟨m', hm' ▸ (d.dirs q).mayBe_now, fun _ _ => id⟩
  · exact ⟨m', hm', fun _ _ => id⟩

end Disk

/-! ## Power loss -/

/-- Each directory keeps any of its pending changes, in order; synced data
stays, other data may become anything. -/
structure PowerLoss (d d' : Disk) : Prop where
  dirs : ∀ p, (d'.dirs p).pending = [] ∧ (d.dirs p).MayBe (d'.dirs p).synced
  files : ∀ i, (d'.files i).synced = (d.files i).synced ∧
    ((d.files i).synced = true → (d'.files i).data = (d.files i).data)
  next : d'.next = d.next

namespace PowerLoss

variable {d d' : Disk}

theorem now (h : PowerLoss d d') (q : PathBuf) : (d'.dirs q).now = (d'.dirs q).synced := by
  rw [Dir.now, (h.dirs q).1]
  rfl

theorem mayBe (h : PowerLoss d d') {q : PathBuf} {m : Names} :
    (d'.dirs q).MayBe m ↔ m = (d'.dirs q).now := by
  have hd : (d'.dirs q) = ⟨(d'.dirs q).synced, []⟩ := by
    rw [← (h.dirs q).1]
  constructor
  · rintro ⟨ops, hs, rfl⟩
    rw [(h.dirs q).1] at hs
    obtain rfl := List.sublist_nil.mp hs
    rw [h.now]
    rfl
  · rintro rfl
    exact Dir.mayBe_now _

theorem view (h : PowerLoss d d') (q : PathBuf) (m : Names) (hm : (d'.dirs q).MayBe m) :
    (d.dirs q).MayBe m := by
  rw [h.mayBe.mp hm, h.now]
  exact (h.dirs q).2

theorem fewer (h : PowerLoss d d') : Disk.Fewer d d' :=
  fun q m' hm' => ⟨m', h.view q m' hm', fun _ _ => id⟩

/-- Nothing that is pending gets through. -/
theorem lost (d : Disk) : PowerLoss d { d with dirs := fun q => ⟨(d.dirs q).synced, []⟩ } where
  dirs _ := ⟨rfl, [], List.nil_sublist _, rfl⟩
  files _ := ⟨rfl, fun _ => rfl⟩
  next := rfl

/-- Everything gets through, but the directory `p` comes out as `m`. -/
theorem choose {d : Disk} {p : PathBuf} {m : Names} (h : (d.dirs p).MayBe m) :
    PowerLoss d { d with dirs := Function.update (fun q => (d.dirs q).sync) p ⟨m, []⟩ } where
  dirs q := by
    by_cases hq : q = p
    · subst hq
      simp [h]
    · simp only [Function.update_of_ne hq]
      exact ⟨rfl, (d.dirs q).mayBe_now⟩
  files _ := ⟨rfl, fun _ => rfl⟩
  next := rfl

theorem now_choose {d : Disk} {p q : PathBuf} {m : Names} :
    (Function.update (fun q => (d.dirs q).sync) p ⟨m, []⟩ q : Dir).now =
      if q = p then m else (d.dirs q).now := by
  by_cases hq : q = p
  · subst hq
    simp [Dir.now, Dir.after]
  · simp [hq]

end PowerLoss

/-! ## Directories that stay -/

namespace Disk

/-- The directory is there after every power loss. -/
def Survives (d : Disk) (q : PathBuf) : Prop := ∀ d', PowerLoss d d' → d'.IsDir q

/-- Every outcome for a directory on the way has the next one. -/
def Secure (d : Disk) : PathBuf → Prop
  | .base _ => True
  | .join p n => d.Secure p ∧ ∀ m, (d.dirs p).MayBe m → m.lookup n = some .dir

variable {d d' : Disk}

theorem survives_iff (q : PathBuf) : d.Survives q ↔ d.Secure q := by
  induction q with
  | base s =>
      constructor
      · exact fun _ => trivial
      · exact fun _ d' _ => d'.isDir_base s
  | join p n ih =>
      constructor
      · intro h
        refine ⟨ih.mp fun d' hd => (isDir_join.mp (h d' hd)).1, ?_⟩
        intro m hm
        have hn := (isDir_join.mp (h _ (PowerLoss.choose hm))).2
        rw [PowerLoss.now_choose, if_pos rfl] at hn
        exact hn
      · rintro ⟨hp, hn⟩ d' hd
        exact isDir_join.mpr ⟨ih.mpr hp d' hd, hn _ (hd.view p _ ((d'.dirs p).mayBe_now))⟩

theorem Secure.isDir {q : PathBuf} (h : d.Secure q) : d.IsDir q := by
  induction q with
  | base s => exact d.isDir_base s
  | join p n ih => exact isDir_join.mpr ⟨ih h.1, h.2 _ ((d.dirs p).mayBe_now)⟩

/-- Whether a directory is secure depends on the directories above it. -/
theorem secure_above (q : PathBuf) (h : ∀ p, p.depth < q.depth → d'.dirs p = d.dirs p)
    (hs : d'.Secure q) : d.Secure q := by
  induction q with
  | base s => trivial
  | join p n ih =>
      refine ⟨ih (fun r hr => h r (Nat.lt_succ_of_lt hr)) hs.1, ?_⟩
      intro m hm
      rw [← h p (Nat.lt_succ_self _)] at hm
      exact hs.2 m hm

/-- A directory that is new is not secure. -/
theorem secure_of_addDir {p : PathBuf} {n : String} (hn : (d.dirs p).now.lookup n = none)
    {q : PathBuf} (hs : (d.addDir p n).Secure q) : d.Secure q := by
  induction q with
  | base s => trivial
  | join r n' ih =>
      refine ⟨ih hs.1, ?_⟩
      intro m hm
      refine hs.2 m (mayBe_addDir.mpr ?_)
      split_ifs with hr
      · -- below the new directory, which one outcome for `p` lacks
        subst hr
        have hold := hs.1.2 _ (mayBe_addDir.mpr (by
          rw [if_neg (PathBuf.self_ne_join p n)]
          exact Or.inl (d.dirs p).mayBe_now))
        rw [hn] at hold
        cases hold
      · exact Or.inl hm

/-- Every new outcome has the directories that are there now and in an old one. -/
theorem Secure.step {q : PathBuf} (h : d.Secure q)
    (hv : ∀ p m', (d'.dirs p).MayBe m' → ∃ m, (d.dirs p).MayBe m ∧
      ∀ n, d.IsDir (.join p n) → m.lookup n = some .dir → m'.lookup n = some .dir) :
    d'.Secure q := by
  induction q with
  | base s => trivial
  | join p n ih =>
      refine ⟨ih h.1, ?_⟩
      intro m' hm'
      obtain ⟨m, hm, hmm'⟩ := hv p m' hm'
      exact hmm' n h.isDir (h.2 m hm)

theorem Secure.powerLoss {q : PathBuf} (h : d.Secure q) (hp : PowerLoss d d') : d'.Secure q := by
  induction q with
  | base s => trivial
  | join p n ih => exact ⟨ih h.1, fun m hm => h.2 m (hp.view p m hm)⟩

/-- Directories are never taken away: each that is in some outcome is there now. -/
structure Standing (d : Disk) : Prop where
  now : ∀ {q m n}, (d.dirs q).MayBe m → m.lookup n = some .dir →
    (d.dirs q).now.lookup n = some .dir

theorem Standing.powerLoss (hp : PowerLoss d d') : Standing d' where
  now := by
    intro q m n hm hn
    rwa [hp.mayBe.mp hm] at hn

/-- So a power loss brings none back. -/
theorem Standing.isDir {q : PathBuf} (h : Standing d) (hp : PowerLoss d d') (hq : d'.IsDir q) :
    d.IsDir q := by
  induction q with
  | base s => exact d.isDir_base s
  | join p n ih =>
      obtain ⟨hdir, hn⟩ := isDir_join.mp hq
      exact isDir_join.mpr ⟨ih hdir, h.now (hp.view p _ ((d'.dirs p).mayBe_now)) hn⟩

end Disk

end Conc
