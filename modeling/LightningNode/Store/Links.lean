/-
# `LightningNode.Store.Links` — no file has two names

Which names may lead to a file, whatever a power loss leaves:

    next      a file that has a name is not a new one
    dir       all its names are in one directory
    view      it has one name in every outcome for that directory
    tmp       while it has the name of a temporary file it has no other

So truncating a temporary file, even one left over, harms nothing else.
-/
import LightningNode.Store.Steps

namespace LightningNode

open Conc FilesystemStore

structure Links (d : Disk) : Prop where
  next : ∀ {q n i}, d.Linked q n i → i < d.next
  dir : ∀ {q n i q' n'}, d.Linked q n i → d.Linked q' n' i → q' = q
  view : ∀ {q m n n' i}, (d.dirs q).MayBe m → m.lookup n = some (.file i) →
    m.lookup n' = some (.file i) → n' = n
  tmp : ∀ {q t i n}, IsTmp t → (d.dirs q).now.lookup t = some (.file i) → d.Linked q n i → n = t

namespace Links

variable {d d' : Disk}

theorem fresh : Links .fresh where
  next := by
    rintro q n i ⟨m, hm, hn⟩
    rw [Dir.mayBe_empty.mp hm] at hn
    cases hn
  dir := by
    rintro q n i q' n' ⟨m, hm, hn⟩
    rw [Dir.mayBe_empty.mp hm] at hn
    cases hn
  view := by
    intro q m n n' i hm hn
    rw [Dir.mayBe_empty.mp hm] at hn
    cases hn
  tmp := nofun

theorem fewer (h : Links d) (hf : d.Fewer d') (hnext : d'.next = d.next)
    (htmp : ∀ {q t i n}, IsTmp t → (d'.dirs q).now.lookup t = some (.file i) →
      d'.Linked q n i → n = t) : Links d' where
  next hl := hnext ▸ h.next (hf.linked hl)
  dir hl hl' := h.dir (hf.linked hl) (hf.linked hl')
  view := by
    intro q m' n n' i hm' hn hn'
    obtain ⟨m, hm, hmm'⟩ := hf q m' hm'
    exact h.view hm (hmm' n i hn) (hmm' n' i hn')
  tmp := htmp

/-- Fewer outcomes, and no new file now. -/
theorem fewer_now (h : Links d) (hf : d.Fewer d') (hnext : d'.next = d.next)
    (hnow : ∀ q n i, (d'.dirs q).now.lookup n = some (.file i) →
      (d.dirs q).now.lookup n = some (.file i)) : Links d' := by
  refine h.fewer hf hnext ?_
  intro q t i n ht hl hlink
  exact h.tmp ht (hnow q t i hl) (hf.linked hlink)

theorem powerLoss (h : Links d) (hp : PowerLoss d d') : Links d' := by
  refine h.fewer hp.fewer hp.next ?_
  intro q t i n _ hl hlink
  obtain ⟨m, hm, hn⟩ := hlink
  rw [hp.mayBe.mp hm] at hn
  exact h.view (hp.view q _ ((d'.dirs q).mayBe_now)) hl hn

/-! ## The effects -/

/-- What a new temporary file adds. -/
theorem linked_addFile {p q : PathBuf} {t n : String} {i : Ino}
    (hl : (d.addFile p t).Linked q n i) : d.Linked q n i ∨ q = p ∧ n = t ∧ i = d.next := by
  obtain ⟨m, hm, hn⟩ := hl
  rcases Disk.mayBe_addFile.mp hm with hm | ⟨rfl, m', hm', rfl⟩
  · exact Or.inl ⟨m, hm, hn⟩
  · rw [DirOp.lookup_set] at hn
    split_ifs at hn with hnt
    · cases hn
      exact Or.inr ⟨rfl, hnt, rfl⟩
    · exact Or.inl ⟨m', hm', hn⟩

theorem addFile (h : Links d) {p : PathBuf} {t : String} : Links (d.addFile p t) where
  next := by
    intro q n i hl
    rcases linked_addFile hl with hl | ⟨_, _, rfl⟩
    · exact Nat.lt_succ_of_lt (h.next hl)
    · exact Nat.lt_succ_self d.next
  dir := by
    intro q n i q' n' hl hl'
    rcases linked_addFile hl with ho | ⟨rfl, _, rfl⟩
    · rcases linked_addFile hl' with ho' | ⟨_, _, rfl⟩
      · exact h.dir ho ho'
      · exact absurd (h.next ho) (Nat.lt_irrefl _)
    · rcases linked_addFile hl' with ho' | ⟨rfl, _, _⟩
      · exact absurd (h.next ho') (Nat.lt_irrefl _)
      · rfl
  view := by
    intro q m n n' i hm hn hn'
    rcases Disk.mayBe_addFile.mp hm with ho | ⟨rfl, m₀, ho, rfl⟩
    · exact h.view ho hn hn'
    · rw [DirOp.lookup_set] at hn hn'
      split_ifs at hn hn' with hnt hnt' hnt'
      · rw [hnt, hnt']
      · cases hn
        exact absurd (h.next ⟨m₀, ho, hn'⟩) (Nat.lt_irrefl _)
      · cases hn'
        exact absurd (h.next ⟨m₀, ho, hn⟩) (Nat.lt_irrefl _)
      · exact h.view ho hn hn'
  tmp := by
    intro q t' i n ht' hl hlink
    have hnow : d.Linked q t' i ∨ q = p ∧ t' = t ∧ i = d.next := linked_addFile (.of_now hl)
    rcases hnow with hold | ⟨rfl, rfl, rfl⟩
    · have hlt := h.next hold
      have hl' : (d.dirs q).now.lookup t' = some (.file i) := by
        have hentry := (Disk.entry_addFile : Disk.Entry d (d.addFile p t) p t _) q t'
        rw [hl] at hentry
        split_ifs at hentry
        · cases hentry
          exact absurd hlt (Nat.lt_irrefl _)
        · exact hentry.symm
      rcases linked_addFile hlink with hlink | ⟨_, _, rfl⟩
      · exact h.tmp ht' hl' hlink
      · exact absurd hlt (Nat.lt_irrefl _)
    · rcases linked_addFile hlink with hlink | ⟨_, rfl, _⟩
      · exact absurd (h.next hlink) (Nat.lt_irrefl _)
      · rfl

/-- What the move of a temporary file adds. -/
theorem linked_move {p q : PathBuf} {t k n : String} {i j : Ino}
    (hl : (d.change p (.move t k (.file i))).Linked q n j) :
    d.Linked q n j ∨ q = p ∧ n = k ∧ j = i := by
  obtain ⟨m, hm, hn⟩ := hl
  rcases Disk.mayBe_change.mp hm with hm | ⟨rfl, m', hm', rfl⟩
  · exact Or.inl ⟨m, hm, hn⟩
  · rw [DirOp.lookup_move] at hn
    split_ifs at hn with hnk
    · cases hn
      exact Or.inr ⟨rfl, hnk, rfl⟩
    · exact Or.inl ⟨m', hm', hn⟩

theorem move (h : Links d) {p : PathBuf} {t k : String} {i : Ino} (ht : IsTmp t) (hk : ¬ IsTmp k)
    (hti : (d.dirs p).now.lookup t = some (.file i)) :
    Links (d.change p (.move t k (.file i))) where
  next := by
    intro q n j hl
    rcases linked_move hl with hl | ⟨_, _, rfl⟩
    · exact h.next hl
    · exact h.next (.of_now hti)
  dir := by
    intro q n j q' n' hl hl'
    rcases linked_move hl with ho | ⟨rfl, _, rfl⟩
    · rcases linked_move hl' with ho' | ⟨rfl, _, rfl⟩
      · exact h.dir ho ho'
      · exact h.dir ho (.of_now hti)
    · rcases linked_move hl' with ho' | ⟨rfl, _, _⟩
      · exact h.dir (.of_now hti) ho'
      · rfl
  view := by
    intro q m n n' j hm hn hn'
    rcases Disk.mayBe_change.mp hm with ho | ⟨rfl, m₀, ho, rfl⟩
    · exact h.view ho hn hn'
    · -- before the move the file has only the name of the temporary file, which goes
      have hgone : ∀ n, m₀.lookup n = some (.file i) → n = t := fun n hn =>
        h.tmp ht hti ⟨m₀, ho, hn⟩
      rw [DirOp.lookup_move] at hn hn'
      split_ifs at hn hn' with h₁ h₂ h₃ h₄ h₅
      · rw [h₁, h₂]
      · cases hn
        exact absurd (hgone n' hn') h₃
      · cases hn'
        exact absurd (hgone n hn) h₄
      · exact h.view ho hn hn'
  tmp := by
    intro q t' j n ht' hl hlink
    rw [Disk.now_change] at hl
    have hl' : (d.dirs q).now.lookup t' = some (.file j) ∧ (q = p → t' ≠ t) := by
      split_ifs at hl with hq
      · rw [DirOp.lookup_move] at hl
        split_ifs at hl with h₁ h₂
        · exact absurd (h₁ ▸ ht') hk
        · exact ⟨hl, fun _ => h₂⟩
      · exact ⟨hl, fun h => absurd h hq⟩
    rcases linked_move hlink with hlink | ⟨rfl, _, rfl⟩
    · exact h.tmp ht' hl'.1 hlink
    · exact absurd (h.tmp ht hti (.of_now hl'.1)) (hl'.2 rfl)

theorem addDir (h : Links d) {q : PathBuf} {n : String} : Links (d.addDir q n) := by
  refine h.fewer_now .addDir rfl ?_
  intro q' n' i hl
  rw [Disk.lookup_addDir] at hl
  split_ifs at hl with _ hqn
  · cases hl
  · exact hl

theorem setFile (h : Links d) {i : Ino} {f : File} : Links (d.setFile i f) :=
  ⟨h.next, h.dir, h.view, h.tmp⟩

theorem syncDir (h : Links d) {q : PathBuf} : Links (d.syncDir q) := by
  refine h.fewer_now .syncDir rfl ?_
  intro q' n' i hl
  rwa [Disk.now_syncDir] at hl

theorem del (h : Links d) {q : PathBuf} {n : String} : Links (d.change q (.del n)) := by
  refine h.fewer_now .del rfl ?_
  intro q' n' i hl
  rw [Disk.entry_del q' n'] at hl
  split_ifs at hl
  exact hl

theorem effect (h : Links d) {root : PathBuf} {c : Call} (he : Effect root d c d') : Links d' := by
  cases he with
  | none => exact h
  | addDir _ _ => exact h.addDir
  | addFile _ _ _ => exact h.addFile
  | setFile _ _ => exact h.setFile
  | syncFile => exact h.setFile
  | syncDir => exact h.syncDir
  | move ha ht _ hti _ _ => exact h.move ht (ha.2.2.2.2 _ rfl).not_tmp hti
  | del _ _ => exact h.del

/-- So has every disk a store comes to, with failing calls and losses of power. -/
theorem oneStore {root : PathBuf} {starts : Call → Prop} {faults : Prop}
    {crash : Disk → Disk → Prop}
    (hcrash : ∀ {d d'}, crash d d' → d' = d ∨ PowerLoss d d') {l : Life} (hl : Links l.disk)
    {cfg : Config Unit StoreAct StoreAct.Answer Reply Life}
    (hr : (oneStore root starts faults crash).Reach (.idle l) cfg) : Links cfg.state.disk := by
  refine oneStore_reach (I := fun d _ => Links d) (fun c _ _ _ _ hi _ he => hi.effect he)
    (fun _ hi => hi) ?_ hl hr
  intro d d' _ hc hi
  obtain rfl | hp := hcrash hc
  · exact hi
  · exact hi.powerLoss hp

end Links

end LightningNode
