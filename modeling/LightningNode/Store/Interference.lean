/-
# `LightningNode.Store.Interference` — what calls side by side leave alone

Each write works on a temporary file of its own; nobody writes to a file that has
the name of a key.  So of what the disk does under the hands of one call, the
others see three kinds of step:

    Quiet      no key changes: directories made, a temporary file of the caller
    move       a temporary file of the caller takes the place of a key
    del        a key goes

and none of these touches what another call relies on (`Undisturbed`): its own
temporary files, the directories it has seen, the data of a file it has opened.
-/
import LightningNode.Store.Links

namespace LightningNode

open Conc

/-! ## Keys -/

/-- At every key there is what there was. -/
def SameKeys (d d' : Disk) : Prop :=
  ∀ q k, ValidName k → d'.contents (.join q k) = d.contents (.join q k)

/-- `b` is at the key `k` in `q`; at every other there is what there was. -/
structure KeySet (d d' : Disk) (q : PathBuf) (k : String) (b : Option Bytes) : Prop where
  here : d'.contents (.join q k) = b
  other : ∀ {q' k'}, ValidName k' → ¬ (q' = q ∧ k' = k) →
    d'.contents (.join q' k') = d.contents (.join q' k')

/-! ## What a call relies on -/

/-- The file is no temporary file any more. -/
def Settled (d : Disk) (i : Ino) : Prop :=
  i < d.next ∧ ∀ q t, IsTmp t → (d.dirs q).now.lookup t ≠ some (.file i)

/-- For a call with the temporary files `Mine`. -/
structure Undisturbed (Mine : String → Prop) (d d' : Disk) : Prop where
  isDir : ∀ {q}, d.IsDir q → d'.IsDir q
  mine : ∀ {q t i}, Mine t → d.IsDir q → (d.dirs q).now.lookup t = some (.file i) →
    (d'.dirs q).now.lookup t = some (.file i) ∧ d'.files i = d.files i
  settled : ∀ {i}, Settled d i → Settled d' i ∧ (d'.files i).data = (d.files i).data

namespace Undisturbed

variable {Mine : String → Prop} {d d' d'' : Disk}

theorem refl (d : Disk) : Undisturbed Mine d d where
  isDir := id
  mine _ _ hl := ⟨hl, rfl⟩
  settled hs := ⟨hs, rfl⟩

theorem trans (h : Undisturbed Mine d d') (h' : Undisturbed Mine d' d'') :
    Undisturbed Mine d d'' where
  isDir hq := h'.isDir (h.isDir hq)
  mine := by
    intro q t i ht hq hl
    obtain ⟨hl₁, hf₁⟩ := h.mine ht hq hl
    obtain ⟨hl₂, hf₂⟩ := h'.mine ht (h.isDir hq) hl₁
    exact ⟨hl₂, hf₂.trans hf₁⟩
  settled := by
    intro i hs
    obtain ⟨hs₁, hf₁⟩ := h.settled hs
    obtain ⟨hs₂, hf₂⟩ := h'.settled hs₁
    exact ⟨hs₂, hf₂.trans hf₁⟩

end Undisturbed

/-! ## The steps -/

/-- What a step does that changes no key, `Own` being the temporary files of the caller. -/
inductive Quiet (Own : String → Prop) (d : Disk) : Disk → Prop
  | none : Quiet Own d d
  | addDir {q : PathBuf} {n : String} : d.IsDir q → (d.dirs q).now.lookup n = .none →
      Quiet Own d (d.addDir q n)
  | addFile {q : PathBuf} {t : String} : Own t → (d.dirs q).now.lookup t = .none →
      Quiet Own d (d.addFile q t)
  | setFile {q : PathBuf} {t : String} {i : Ino} {f : File} : Own t →
      (d.dirs q).now.lookup t = some (.file i) → Quiet Own d (d.setFile i f)
  | syncDir {q : PathBuf} : Quiet Own d (d.syncDir q)

/-- A file that has the name of a temporary file has no other. -/
theorem Links.tmp_now {d : Disk} (h : Links d) {q q' : PathBuf} {t n : String} {i : Ino}
    (ht : IsTmp t) (hl : (d.dirs q).now.lookup t = some (.file i))
    (hl' : (d.dirs q').now.lookup n = some (.file i)) : n = t := by
  obtain rfl := h.dir (.of_now hl) (.of_now hl')
  exact h.tmp ht hl (.of_now hl')

variable {Own Mine : String → Prop} {d d' : Disk} {q : PathBuf} {t k : String} {i : Ino}

/-- What is at a key is settled. -/
theorem Links.settled (h : Links d) (hk : ¬ IsTmp k)
    (hl : (d.dirs q).now.lookup k = some (.file i)) : Settled d i := by
  refine ⟨h.next (.of_now hl), ?_⟩
  intro q' t ht hl'
  have heq := h.tmp_now ht hl' hl
  exact hk (heq ▸ ht)

theorem Undisturbed.addDir {n : String} (hq : d.IsDir q) (hn : (d.dirs q).now.lookup n = none) :
    Undisturbed Mine d (d.addDir q n) where
  isDir hq' := (Disk.isDir_addDir hq hn _).mpr (Or.inl hq')
  mine := by
    intro q' t i _ hq' hti
    have hnew : q' ≠ .join q n := by
      rintro rfl
      rw [Disk.isDir_join, hn] at hq'
      cases hq'.2
    have hqn : ¬ (q' = q ∧ t = n) := by
      rintro ⟨rfl, rfl⟩
      cases hn.symm.trans hti
    rw [Disk.lookup_addDir, if_neg hnew, if_neg hqn]
    exact ⟨hti, rfl⟩
  settled := by
    intro i hs
    refine ⟨⟨hs.1, ?_⟩, rfl⟩
    intro q' t ht hti
    rw [Disk.lookup_addDir] at hti
    split_ifs at hti
    · cases hti
    · exact hs.2 q' t ht hti

theorem Undisturbed.addFile (hl : Links d) (ht : ¬ Mine t) (hn : (d.dirs q).now.lookup t = none) :
    Undisturbed Mine d (d.addFile q t) := by
  have hentry : Disk.Entry d (d.addFile q t) q t _ := Disk.entry_addFile
  have hfiles : ∀ {i}, i < d.next → (d.addFile q t).files i = d.files i := by
    intro i hi
    rw [Disk.addFile_files]
    exact Disk.setFile_files_ne d _ (Nat.ne_of_lt hi)
  refine ⟨fun hq' => (hentry.isDir (by simp [hn]) nofun _).mpr hq', ?_, ?_⟩
  · intro q' t' i ht' _ hti
    have hqt : ¬ (q' = q ∧ t' = t) := by
      rintro ⟨_, rfl⟩
      exact ht ht'
    rw [hentry q' t', if_neg hqt]
    exact ⟨hti, hfiles (hl.next (.of_now hti))⟩
  · intro i hs
    refine ⟨⟨Nat.lt_succ_of_lt hs.1, ?_⟩, congrArg File.data (hfiles hs.1)⟩
    intro q' t' ht' hti
    rw [hentry q' t'] at hti
    split_ifs at hti
    · cases hti
      exact absurd hs.1 (Nat.lt_irrefl _)
    · exact hs.2 q' t' ht' hti

theorem Undisturbed.setFile {f : File} (hl : Links d) (htmp : IsTmp t) (ht : ¬ Mine t)
    (hti : (d.dirs q).now.lookup t = some (.file i)) : Undisturbed Mine d (d.setFile i f) where
  isDir hq' := (Disk.isDir_setFile d i f _).mpr hq'
  mine := by
    intro q' t' j ht' _ htj
    refine ⟨htj, Disk.setFile_files_ne d f ?_⟩
    rintro rfl
    have heq := hl.tmp_now htmp hti htj
    exact ht (heq ▸ ht')
  settled := by
    intro j hs
    refine ⟨hs, congrArg File.data (Disk.setFile_files_ne d f ?_)⟩
    rintro rfl
    exact hs.2 q t htmp hti

theorem Undisturbed.syncDir : Undisturbed Mine d (d.syncDir q) := by
  have hnow : ∀ q', ((d.syncDir q).dirs q').now = (d.dirs q').now := Disk.now_syncDir d q
  refine ⟨?_, ?_, ?_⟩
  · intro q' hq'
    rw [Disk.IsDir, Disk.access_congr hnow]
    exact hq'
  · intro q' t' i _ _ hti
    rw [hnow]
    exact ⟨hti, rfl⟩
  · intro i hs
    refine ⟨⟨hs.1, ?_⟩, rfl⟩
    intro q' t' ht' hti
    rw [hnow] at hti
    exact hs.2 q' t' ht' hti

theorem Undisturbed.move (hk : ValidName k) (hmine : ∀ t, Mine t → IsTmp t) (ht : ¬ Mine t)
    (hti : (d.dirs q).now.lookup t = some (.file i)) (hd : (d.dirs q).now.lookup k ≠ some .dir) :
    Undisturbed Mine d (d.change q (.move t k (.file i))) where
  isDir hq' := (Disk.isDir_move hti hd _).mpr hq'
  mine := by
    intro q' t' j ht' _ htj
    refine ⟨?_, rfl⟩
    have hne : t' ≠ k := fun heq => hk.not_tmp (heq ▸ hmine t' ht')
    have hne' : t' ≠ t := fun heq => ht (heq ▸ ht')
    rw [Disk.now_change]
    split_ifs
    · rwa [DirOp.lookup_move, if_neg hne, if_neg hne']
    · exact htj
  settled := by
    intro j hs
    refine ⟨⟨hs.1, ?_⟩, rfl⟩
    intro q' t' ht' htj
    have hne : t' ≠ k := fun heq => hk.not_tmp (heq ▸ ht')
    rw [Disk.now_change] at htj
    split_ifs at htj
    · rw [DirOp.lookup_move, if_neg hne] at htj
      split_ifs at htj
      exact hs.2 q' t' ht' htj
    · exact hs.2 q' t' ht' htj

theorem Undisturbed.del (hk : ValidName k) (hmine : ∀ t, Mine t → IsTmp t)
    (hki : (d.dirs q).now.lookup k = some (.file i)) :
    Undisturbed Mine d (d.change q (.del k)) where
  isDir hq' := (Disk.entry_del.isDir (by simp [hki]) nofun _).mpr hq'
  mine := by
    intro q' t' j ht' _ htj
    refine ⟨?_, rfl⟩
    have hne : t' ≠ k := fun heq => hk.not_tmp (heq ▸ hmine t' ht')
    rwa [Disk.entry_del q' t', if_neg fun h => hne h.2]
  settled := by
    intro j hs
    refine ⟨⟨hs.1, ?_⟩, rfl⟩
    intro q' t' ht' htj
    rw [Disk.entry_del q' t'] at htj
    split_ifs at htj
    exact hs.2 q' t' ht' htj

namespace Quiet

theorem mono {Own' : String → Prop} (h : Quiet Own d d') (ho : ∀ t, Own t → Own' t) :
    Quiet Own' d d' := by
  cases h with
  | none => exact .none
  | addDir hq hn => exact .addDir hq hn
  | addFile ht hn => exact .addFile (ho _ ht) hn
  | setFile ht hti => exact .setFile (ho _ ht) hti
  | syncDir => exact .syncDir

theorem links (h : Quiet Own d d') (hl : Links d) : Links d' := by
  cases h with
  | none => exact hl
  | addDir _ _ => exact hl.addDir
  | addFile _ _ => exact hl.addFile
  | setFile _ _ => exact hl.setFile
  | syncDir => exact hl.syncDir

/-- Nor does any other file change. -/
theorem same_contents (h : Quiet Own d d') (hl : Links d) (hown : ∀ t, Own t → IsTmp t)
    (q' : PathBuf) (hk : ¬ Own k) : d'.contents (.join q' k) = d.contents (.join q' k) := by
  cases h with
  | none => rfl
  | addDir hq hn => exact Disk.contents_addDir hq hn _
  | @addFile q t ht hn =>
      have hqk : ¬ (q' = q ∧ k = t) := by
        rintro ⟨_, rfl⟩
        exact hk ht
      refine Disk.entry_addFile.contents_other (by simp [hn]) nofun hqk ?_
      intro i hi
      rw [Disk.addFile_files]
      exact Disk.setFile_files_ne d _ (Nat.ne_of_lt (hl.next (.of_now hi)))
  | @setFile q t i f ht hti =>
      refine Disk.contents_congr (Disk.isDir_setFile d i f q') rfl ?_
      intro j hj
      refine congrArg File.data (Disk.setFile_files_ne d f ?_)
      rintro rfl
      have heq := hl.tmp_now (hown _ ht) hti hj
      exact hk (heq ▸ ht)
  | @syncDir q =>
      rw [Disk.contents, Disk.contents, Disk.access_congr (fun r => Disk.now_syncDir d q r),
        Disk.syncDir_files]

theorem sameKeys (h : Quiet Own d d') (hl : Links d) (hown : ∀ t, Own t → IsTmp t) :
    SameKeys d d' :=
  fun q' _ hk => h.same_contents hl hown q' fun ht => hk.not_tmp (hown _ ht)

theorem undisturbed (h : Quiet Own d d') (hl : Links d) (hown : ∀ t, Own t → IsTmp t)
    (happ : ∀ t, Own t → ¬ Mine t) : Undisturbed Mine d d' := by
  cases h with
  | none => exact .refl d
  | addDir hq hn => exact .addDir hq hn
  | addFile ht hn => exact .addFile hl (happ _ ht) hn
  | setFile ht hti => exact .setFile hl (hown _ ht) (happ _ ht) hti
  | syncDir => exact .syncDir

end Quiet

/-! ### The steps of a write -/

theorem Quiet.mkdir (q : PathBuf) : Quiet Own d (DiskAct.perform (.mkdir q) d).2 := by
  rcases DiskAct.mkdir_cases d q with ⟨e, he⟩ | ⟨q, n, rfl, hq, hn, he⟩
  · rw [he]
    exact .none
  · rw [he]
    exact .addDir hq hn

theorem Quiet.create (q : PathBuf) (t : String) :
    Quiet (· = t) d (DiskAct.perform (.create (.join q t)) d).2 := by
  rcases DiskAct.create_cases d q t with ⟨e, he⟩ | ⟨_, i, hl, hc⟩ | ⟨_, hl, hc⟩
  · rw [he]
    exact .none
  · rw [hc]
    exact .setFile rfl hl
  · rw [hc]
    exact .addFile rfl hl

/-- The step that gives the file `g` for its data. -/
theorem Holds.quiet {f g : File} (h : Holds d q t i f) : Quiet (· = t) d (d.setFile i g) :=
  .setFile rfl h.1

theorem contents_move {k' : String} (hti : (d.dirs q).now.lookup t = some (.file i))
    (hd : (d.dirs q).now.lookup k ≠ some .dir) (q' : PathBuf) (ht : k' ≠ t)
    (hk : ¬ (q' = q ∧ k' = k)) :
    (d.change q (.move t k (.file i))).contents (.join q' k') = d.contents (.join q' k') := by
  refine Disk.contents_congr (Disk.isDir_move hti hd q') ?_ fun _ _ => rfl
  rw [Disk.now_change]
  split_ifs with hq'
  · rw [DirOp.lookup_move, if_neg fun heq => hk ⟨hq', heq⟩, if_neg ht]
  · rfl

theorem KeySet.move (ht : IsTmp t) (hq : d.IsDir q)
    (hti : (d.dirs q).now.lookup t = some (.file i)) (hd : (d.dirs q).now.lookup k ≠ some .dir) :
    KeySet d (d.change q (.move t k (.file i))) q k (some (d.files i).data) where
  here := by
    refine Disk.contents_join.mpr ⟨(Disk.isDir_move hti hd q).mpr hq, i, ?_, rfl⟩
    rw [Disk.now_change, if_pos rfl, DirOp.lookup_move, if_pos rfl]
  other := by
    intro q' k' hk' hqk
    exact contents_move hti hd q' (fun heq => hk'.not_tmp (heq ▸ ht)) hqk

theorem KeySet.del (hki : (d.dirs q).now.lookup k = some (.file i)) :
    KeySet d (d.change q (.del k)) q k none where
  here := Disk.entry_del.contents_none
  other := fun _ hqk => Disk.entry_del.contents_other (by simp [hki]) nofun hqk fun _ _ => rfl

end LightningNode
