/-
# `LightningNode.Store.Instances` — writes of one key through several instances

`start_ldk` makes two `FilesystemStore`s for the same directory, `fs_store` and
`persister`.  Each has its own counter and its own locks, so two writes of one
key may have the same temporary file, and may rename it at the same time.

    unclaimed       the condition: `File::create` makes or empties no other write's file
    AllOrNothing    what the writes of the key should look like then
    Plain           what the directories must be like: the store is not new
    Whole           the invariant: a temporary file has one owner
    Phase           where a write is, and what it knows of its file
-/
import LightningNode.Store.Interference
import LightningNode.Store.Rules
import LightningNode.Store.Sequential

namespace LightningNode

open Conc FilesystemStore

/-! ## The system -/

/-- One disk and a memory for each instance; `own` is the temporary file a task
has created and not yet renamed, `issued` the buffers of the writes. -/
structure Instances (T I : Type) where
  disk : Disk
  memory : I → StoreMemory
  own : T → Option String
  issued : List Bytes
  replies : List Reply

variable {T I : Type}

/-- New instances on the disk `d`, with any counters. -/
def Instances.start (d : Disk) (counters : I → UInt64) : Instances T I where
  disk := d
  memory i := { StoreMemory.new with tmpFileCounter := counters i }
  own _ := none
  issued := []
  replies := []

section

variable [DecidableEq T] [DecidableEq I]

/-- The action `a` of `t`, through the instance `i`, was answered by `r`. -/
def Instances.after (st : Instances T I) (t : T) (i : I) (a : StoreAct) (r : a.Answer) (w : World) :
    Instances T I where
  disk := w.disk
  memory := Function.update st.memory i w.memory
  own :=
    match a, r with
    | .disk (.create (.join _ x)), .ok _ => Function.update st.own t (some x)
    | .disk (.rename _ _), .ok _ => Function.update st.own t none
    | _, _ => st.own
  issued := st.issued
  replies := st.replies

/-- Nothing is created or renamed. -/
def StoreAct.KeepsOwn : StoreAct → Prop
  | .disk (.create _) | .disk (.rename _ _) => False
  | _ => True

theorem Fills.keepsOwn {buf : Bytes} {h : Handle} {y : DiskAct} {f g : File}
    (hy : Fills buf h y f g) : StoreAct.KeepsOwn (.disk y) := by
  cases hy <;> trivial

theorem Instances.own_after {st : Instances T I} {t : T} {i : I} {a : StoreAct} {r : a.Answer}
    {w : World} (ha : a.KeepsOwn) : (st.after t i a r w).own = st.own := by
  cases a with
  | disk x =>
      cases x with
      | create p => exact ha.elim
      | rename p q => exact ha.elim
      | _ => rfl
  | _ => rfl

/-- Tasks that write the key (p, s, k), each through its instance, with no faults. -/
def sharedKey (inst : T → I) (root : PathBuf) (p s k : String) :
    System T StoreAct StoreAct.Answer Reply (Instances T I) where
  exec t a st r st' := ∃ w, storeStep a ⟨st.disk, st.memory (inst t)⟩ = some (r, w) ∧
    st' = st.after t (inst t) a r w
  start _ st pr st' := ∃ buf, pr = (Call.write p s k buf).program root ∧
    st' = { st with issued := buf :: st.issued }
  finish _ r st st' := st' = { st with replies := r :: st.replies }
  env _ _ := False
  crash _ _ := False

end

/-- The name of the file an action creates. -/
def StoreAct.created : StoreAct → Option String
  | .disk (.create (.join _ x)) => some x
  | _ => none

/-- The file `File::create` makes or empties is not that of another write in
progress.  It may be one left over from a write that was never finished. -/
def unclaimed (t : T) (a : StoreAct) (st : Instances T I) (_ : a.Answer) : Prop :=
  ∀ x ∈ a.created, ∀ u, u ≠ t → st.own u ≠ some x

instance (t : Bool) (a : StoreAct) (st : Instances Bool I) (r : a.Answer) :
    Decidable (unclaimed t a st r) :=
  inferInstanceAs (Decidable (∀ x ∈ a.created, ∀ u, u ≠ t → st.own u ≠ some x))

/-- Every write that has returned has succeeded, and a read, through any store
that has not locked the key, gives the whole buffer of a write; or none has
returned, and it gives what was there on the disk `d` they started with. -/
structure AllOrNothing (root : PathBuf) (p s k : String) (d : Disk) (st : Instances T I) :
    Prop where
  ok : ∀ r ∈ st.replies, r = .unit (.ok ())
  whole : ∀ m x w, run storeStep (read root p s k) ⟨st.disk, m⟩ = some (x, w) →
    (∃ b ∈ st.issued, x = .ok b) ∨
      (st.replies = [] ∧ x = readFile d (.join (getDestDirPath root p s) k))

/-! ## The directories -/

/-- The names a write of `k` gives to files. -/
def UsedFor (k x : String) : Prop := x = k ∨ ∃ n, x = tmpName k n

/-- No file is on the way to `q`, and no directory has a name that a write of the
key `k` in `q` gives to a file.  What else there is does not matter. -/
structure Plain (q : PathBuf) (k : String) (d : Disk) : Prop where
  way : ∀ {r n i}, Above q (.join r n) → (d.dirs r).now.lookup n ≠ some (.file i)
  used : ∀ {x}, UsedFor k x → (d.dirs q).now.lookup x ≠ some .dir

namespace Plain

variable {q r : PathBuf} {d d' : Disk} {n x k : String} {i : Ino}

theorem fresh : Plain q k .fresh := ⟨nofun, nofun⟩

theorem congr (h : Plain q k d) (hnow : ∀ r, (d'.dirs r).now = (d.dirs r).now) : Plain q k d' where
  way ha hl := h.way ha (hnow _ ▸ hl)
  used hx hl := h.used hx (hnow _ ▸ hl)

theorem addDir (h : Plain q k d) (ha : Above q (.join r n)) : Plain q k (d.addDir r n) where
  way := by
    intro r' n' i ha' hl
    rw [Disk.lookup_addDir] at hl
    split_ifs at hl
    · cases hl
    · exact h.way ha' hl
  used := by
    intro x hx hl
    rw [Disk.lookup_addDir] at hl
    split_ifs at hl with _ heq
    · obtain ⟨rfl, rfl⟩ := heq
      exact Above.not_below ha
    · exact h.used hx hl

theorem addFile (h : Plain q k d) : Plain q k (d.addFile q x) where
  way := by
    intro r n i ha hl
    rw [(Disk.entry_addFile : Disk.Entry d (d.addFile q x) q x _) r n] at hl
    split_ifs at hl with heq
    · obtain ⟨rfl, rfl⟩ := heq
      exact Above.not_below ha
    · exact h.way ha hl
  used := by
    intro y hy hl
    rw [(Disk.entry_addFile : Disk.Entry d (d.addFile q x) q x _) q y] at hl
    split_ifs at hl
    · cases hl
    · exact h.used hy hl

theorem move {y : String} (h : Plain q k d) : Plain q k (d.change q (.move x y (.file i))) where
  way := by
    intro r n j ha hl
    rw [Disk.now_change] at hl
    split_ifs at hl with hr
    · exact Above.not_below (hr ▸ ha)
    · exact h.way ha hl
  used := by
    intro z hz hl
    rw [Disk.now_change, if_pos rfl, DirOp.lookup_move] at hl
    split_ifs at hl
    · cases hl
    · exact h.used hz hl

theorem not_dir (h : Plain q k d) : (d.dirs q).now.lookup k ≠ some .dir := h.used (Or.inl rfl)

/-- A directory on the way is there, or missing. -/
theorem access (h : Plain q k d) (ha : Above q r) : d.IsDir r ∨ d.access r = .error .notFound := by
  induction r with
  | base b => exact Or.inl (d.isDir_base b)
  | join r n ih =>
      rcases ih ha.up with hr | hr
      · cases hl : (d.dirs r).now.lookup n with
        | none =>
            right
            simp only [Disk.access, show d.access r = .ok .dir from hr, hl]
        | some y =>
            cases y with
            | dir => exact Or.inl (Disk.isDir_join.mpr ⟨hr, hl⟩)
            | file i => exact absurd hl (h.way ha)
      · right
        simp only [Disk.access, hr]

/-- At the key is a file, or nothing. -/
theorem access_file (h : Plain q k d) :
    (∃ i, d.access (.join q k) = .ok (.file i)) ∨ d.access (.join q k) = .error .notFound := by
  rcases h.access .here with hq | hq
  · cases hl : (d.dirs q).now.lookup k with
    | none =>
        right
        simp only [Disk.access, show d.access q = .ok .dir from hq, hl]
    | some y =>
        cases y with
        | dir => exact absurd hl h.not_dir
        | file i => exact Or.inl ⟨i, Disk.access_join.mpr ⟨hq, hl⟩⟩
  · right
    simp only [Disk.access, hq]

theorem created (h : Plain q k d) (x : String) :
    Plain q k (DiskAct.perform (.create (.join q x)) d).2 := by
  rcases DiskAct.create_cases d q x with ⟨e, he⟩ | ⟨_, i, _, he⟩ | ⟨_, _, he⟩
  · rw [he]
    exact h
  · rw [he]
    exact h.congr fun _ => rfl
  · rw [he]
    exact h.addFile

/-- `File::create` of a temporary file of the key cannot fail. -/
theorem create (h : Plain q k d) (hq : d.IsDir q) (n : UInt64) :
    ∃ i d', DiskAct.perform (.create (.join q (tmpName k n))) d = (.ok (.file i), d') ∧
      Quiet (· = tmpName k n) d d' ∧ d'.IsDir q ∧ Holds d' q (tmpName k n) i ⟨[], false⟩ ∧
      Plain q k d' := by
  rcases Holds.create d q (tmpName k n) with ⟨e, he⟩ | ⟨i, d', hc, hdir, hholds⟩
  · cases hl : (d.dirs q).now.lookup (tmpName k n) with
    | none => exact nomatch (DiskAct.create_new hq hl).symm.trans he
    | some y =>
        cases y with
        | dir => exact absurd hl (h.used (Or.inr ⟨n, rfl⟩))
        | file i => exact nomatch (DiskAct.create_existing hq hl).symm.trans he
  · have hquiet : Quiet (· = tmpName k n) d _ := .create q (tmpName k n)
    have hplain := h.created (tmpName k n)
    rw [hc] at hquiet hplain
    exact ⟨i, d', hc, hquiet, hdir, hholds, hplain⟩

/-- What a reader finds at the key. -/
theorem readFile_key (h : Plain q k d) :
    readFile d (.join q k) = match d.contents (.join q k) with
      | some b => .ok b
      | none => .error (.os .notFound) := by
  rcases h.access_file with ⟨i, hi⟩ | hnone
  · simp only [readFile, Disk.contents, hi]
  · simp only [readFile, Disk.contents, hnone]

/-- `mkdir` on the way: made, there already, or too early. -/
theorem mkdir_cases (h : Plain q k d) (ha : Above q (.join r n)) :
    (DiskAct.perform (.mkdir (.join r n)) d = (.error .notFound, d) ∧ ¬ d.IsDir r) ∨
      (DiskAct.perform (.mkdir (.join r n)) d = (.error .alreadyExists, d) ∧ d.IsDir (.join r n)) ∨
      (DiskAct.perform (.mkdir (.join r n)) d = (.ok (), d.addDir r n) ∧ d.IsDir r ∧
        (d.dirs r).now.lookup n = none) := by
  rcases h.access ha.up with hr | hr
  · cases hl : (d.dirs r).now.lookup n with
    | none => exact Or.inr (Or.inr ⟨DiskAct.mkdir_new hr hl, hr, rfl⟩)
    | some y =>
        rcases h.access ha with hd | hd
        · exact Or.inr (Or.inl ⟨DiskAct.mkdir_exists hd, hd⟩)
        · have hy := Disk.access_join.mpr ⟨hr, hl⟩
          rw [hd] at hy
          exact nomatch hy
  · refine Or.inl ⟨DiskAct.mkdir_error hr, ?_⟩
    intro hd
    exact nomatch hd.symm.trans hr

end Plain

/-! ## The invariant -/

/-- At the key `k` in `q` is the buffer of a write. -/
def Instances.Written (st : Instances T I) (q : PathBuf) (k : String) : Prop :=
  ∃ b ∈ st.issued, st.disk.contents (.join q k) = some b

theorem Instances.Written.issue {st : Instances T I} {q : PathBuf} {k : String} {buf : Bytes}
    (h : st.Written q k) : Instances.Written { st with issued := buf :: st.issued } q k := by
  obtain ⟨b, hb, hc⟩ := h
  exact ⟨b, List.mem_cons_of_mem _ hb, hc⟩

/-- `d₀` is the disk they started with. -/
structure Whole (d₀ : Disk) (q : PathBuf) (k : String) (st : Instances T I) : Prop where
  links : Links st.disk
  plain : Plain q k st.disk
  owned : ∀ {t x}, st.own t = some x → IsTmp x ∧ st.disk.IsDir q ∧
    ∃ i, (st.disk.dirs q).now.lookup x = some (.file i)
  apart : ∀ {t u x}, st.own t = some x → st.own u = some x → t = u
  key : st.Written q k ∨
    (st.replies = [] ∧ st.disk.contents (.join q k) = d₀.contents (.join q k))
  replied : ∀ r ∈ st.replies, r = .unit (.ok ())

/-- The others leave the temporary file of the task alone, and the key where it is. -/
structure Undisturbing (q : PathBuf) (k : String) (t : T) (st st' : Instances T I) : Prop where
  own : st'.own t = st.own t
  disk : Undisturbed (fun x => st.own t = some x) st.disk st'.disk
  issued : st.issued ⊆ st'.issued
  key : st.Written q k → st'.Written q k

theorem Undisturbing.trans {q : PathBuf} {k : String} {t : T} {st st' st'' : Instances T I}
    (h : Undisturbing q k t st st') (h' : Undisturbing q k t st' st'') :
    Undisturbing q k t st st'' where
  own := h'.own.trans h.own
  disk := by
    refine h.disk.trans ?_
    have hdisk := h'.disk
    rwa [h.own] at hdisk
  issued := List.Subset.trans h.issued h'.issued
  key := h'.key ∘ h.key

/-- A step of `t` to `st'` that the others may rely on. -/
def Allowed (d₀ : Disk) (q : PathBuf) (k : String) (t : T) (st st' : Instances T I) : Prop :=
  Whole d₀ q k st' ∧ ∀ u, u ≠ t → Undisturbing q k u st st'

section

variable [DecidableEq T] [DecidableEq I]

/-- Runs in which `File::create` never takes another write's file. -/
abbrev undisputed (inst : T → I) (root : PathBuf) (p s k : String) :
    System T StoreAct StoreAct.Answer Reply (Instances T I) :=
  (sharedKey inst root p s k).onlyIf unclaimed

def wholly (d₀ : Disk) (inst : T → I) (root : PathBuf) (p s k : String) (q : PathBuf) :
    Discipline (undisputed inst root p s k) where
  inv := Whole d₀ q k
  change _ _ := True
  rely := Undisturbing q k
  change_refl _ := trivial
  change_trans _ _ := trivial
  rely_refl _ _ := ⟨rfl, .refl _, fun _ => id, id⟩
  rely_trans := .trans

end

/-! ## Steps -/

section

variable {d₀ : Disk} {q : PathBuf} {k : String} {st st' : Instances T I} {t : T}
  {Own : String → Prop}

/-- What is left of a temporary file by a step that does not touch it. -/
theorem Whole.still_owned (h : Whole d₀ q k st) {u : T} {x : String} (hu : st.own u = some x)
    (hund : Undisturbed (fun x => st.own u = some x) st.disk st'.disk) :
    IsTmp x ∧ st'.disk.IsDir q ∧ ∃ i, (st'.disk.dirs q).now.lookup x = some (.file i) := by
  obtain ⟨hx, hq, i, hl⟩ := h.owned hu
  exact ⟨hx, hund.isDir hq, i, (hund.mine hu hq hl).1⟩

/-- What is said of the key is left true by a step that does not touch it. -/
theorem Whole.same_key (h : Whole d₀ q k st)
    (hkey : st'.disk.contents (.join q k) = st.disk.contents (.join q k))
    (hissued : st'.issued = st.issued) (hreplies : st'.replies = st.replies) :
    (st.Written q k → st'.Written q k) ∧
      (st'.Written q k ∨
        (st'.replies = [] ∧ st'.disk.contents (.join q k) = d₀.contents (.join q k))) ∧
      ∀ r ∈ st'.replies, r = .unit (.ok ()) := by
  have hwritten : st.Written q k → st'.Written q k := by
    rintro ⟨b, hb, hc⟩
    exact ⟨b, hissued ▸ hb, hkey.trans hc⟩
  refine ⟨hwritten, ?_, hreplies ▸ h.replied⟩
  rcases h.key with hw | ⟨hnone, hold⟩
  · exact Or.inl (hwritten hw)
  · exact Or.inr ⟨hreplies.trans hnone, hkey.trans hold⟩

/-- A step that changes no key, and only temporary files that are nobody else's:
the task may own one of them afterwards. -/
theorem Whole.quiet (h : Whole d₀ q k st) (hk : ValidName k) (hq : Quiet Own st.disk st'.disk)
    (hplain : Plain q k st'.disk) (htmp : ∀ x, Own x → IsTmp x)
    (hothers : ∀ u x, u ≠ t → Own x → st.own u ≠ some x) (hown : ∀ u, u ≠ t → st'.own u = st.own u)
    (hmine : ∀ x, st'.own t = some x → IsTmp x ∧ st'.disk.IsDir q ∧
      (∃ i, (st'.disk.dirs q).now.lookup x = some (.file i)) ∧ ∀ u, u ≠ t → st.own u ≠ some x)
    (hissued : st'.issued = st.issued) (hreplies : st'.replies = st.replies) :
    Allowed d₀ q k t st st' := by
  have hund : ∀ u, u ≠ t → Undisturbed (fun x => st.own u = some x) st.disk st'.disk :=
    fun u hut => hq.undisturbed h.links htmp fun x hx => hothers u x hut hx
  obtain ⟨hwritten, hkey, hreplied⟩ := h.same_key (hq.sameKeys h.links htmp q k hk) hissued hreplies
  refine ⟨⟨hq.links h.links, hplain, ?_, ?_, hkey, hreplied⟩, ?_⟩
  · intro u x hu
    by_cases hut : u = t
    · subst hut
      obtain ⟨hx, hd, hl, _⟩ := hmine x hu
      exact ⟨hx, hd, hl⟩
    · rw [hown u hut] at hu
      exact h.still_owned hu (hund u hut)
  · intro u v x hu hv
    by_cases hut : u = t
    · subst hut
      by_cases hvt : v = u
      · exact hvt.symm
      · rw [hown v hvt] at hv
        exact absurd hv ((hmine x hu).2.2.2 v hvt)
    · rw [hown u hut] at hu
      by_cases hvt : v = t
      · subst hvt
        exact absurd hu ((hmine x hv).2.2.2 u hut)
      · rw [hown v hvt] at hv
        exact h.apart hu hv
  · intro u hut
    exact ⟨hown u hut, hund u hut, hissued ▸ fun _ => id, hwritten⟩

/-- The temporary file of the task takes the place of the key. -/
theorem Whole.move [DecidableEq T] (h : Whole d₀ q k st) (hk : ValidName k) {x : String} {i : Ino}
    (hx : st.own t = some x) (hl : (st.disk.dirs q).now.lookup x = some (.file i))
    (hb : (st.disk.files i).data ∈ st.issued)
    (hd : st'.disk = st.disk.change q (.move x k (.file i)))
    (hown : st'.own = Function.update st.own t none) (hissued : st'.issued = st.issued)
    (hreplies : st'.replies = st.replies) :
    Allowed d₀ q k t st st' ∧ st'.Written q k := by
  obtain ⟨hxt, hq, _⟩ := h.owned hx
  have hset : KeySet st.disk _ q k _ := KeySet.move hxt hq hl h.plain.not_dir
  have hwritten : st'.Written q k := ⟨_, hissued ▸ hb, hd ▸ hset.here⟩
  have hother : ∀ u, u ≠ t → st'.own u = st.own u := by
    intro u hut
    rw [hown, Function.update_of_ne hut]
  have hne : ∀ u, u ≠ t → st.own u ≠ some x := fun u hut hu => hut (h.apart hu hx)
  have hund : ∀ u, u ≠ t → Undisturbed (fun x => st.own u = some x) st.disk st'.disk := by
    intro u hut
    rw [hd]
    exact .move hk (fun y hy => (h.owned hy).1) (hne u hut) hl h.plain.not_dir
  have hstill : ∀ {u y}, st'.own u = some y → u ≠ t ∧ st.own u = some y := by
    intro u y hu
    rw [hown] at hu
    by_cases hut : u = t
    · rw [hut, Function.update_self] at hu
      cases hu
    · exact ⟨hut, by rwa [Function.update_of_ne hut] at hu⟩
  refine ⟨⟨⟨?_, ?_, ?_, ?_, Or.inl hwritten, hreplies ▸ h.replied⟩, ?_⟩, hwritten⟩
  · rw [hd]
    exact h.links.move hxt hk.not_tmp hl
  · rw [hd]
    exact h.plain.move
  · intro u y hu
    obtain ⟨hut, hu'⟩ := hstill hu
    exact h.still_owned hu' (hund u hut)
  · intro u v y hu hv
    exact h.apart (hstill hu).2 (hstill hv).2
  · intro u hut
    exact ⟨hother u hut, hund u hut, hissued ▸ fun _ => id, fun _ => hwritten⟩

/-- A step that touches no file. -/
theorem Whole.unseen (h : Whole d₀ q k st) (hk : ValidName k)
    (hq : Quiet (fun _ => False) st.disk st'.disk) (hplain : Plain q k st'.disk)
    (hown : st'.own = st.own) (hissued : st'.issued = st.issued)
    (hreplies : st'.replies = st.replies) :
    Whole d₀ q k st' ∧ ∀ u, Undisturbing q k u st st' := by
  have hund : ∀ u, Undisturbed (fun x => st.own u = some x) st.disk st'.disk :=
    fun u => hq.undisturbed h.links nofun nofun
  obtain ⟨hwritten, hkey, hreplied⟩ :=
    h.same_key (hq.sameKeys h.links nofun q k hk) hissued hreplies
  refine ⟨⟨hq.links h.links, hplain, ?_, hown ▸ h.apart, hkey, hreplied⟩, ?_⟩
  · intro u x hu
    rw [hown] at hu
    exact h.still_owned hu (hund u)
  · intro u
    exact ⟨congrFun hown u, hund u, hissued ▸ fun _ => id, hwritten⟩

end

/-! ## Where a write is -/

/-- Before it has a temporary file, on the way through the directories; while the
file `x` is its own, holds `f` and is one of `H`; and after the rename.  What
would be the end of a write that fails does not happen. -/
inductive Phase where
  | started
  | made (r : PathBuf)
  | writing (x : String) (f : File) (H : Ino → Prop)
  | moved
  | never

def Phase.holds (q : PathBuf) (k : String) (t : T) : Phase → Instances T I → Prop
  | .started, st => st.own t = none
  | .made r, st => st.own t = none ∧ st.disk.IsDir r
  | .writing x f H, st => st.own t = some x ∧
      ∃ i, H i ∧ (st.disk.dirs q).now.lookup x = some (.file i) ∧ st.disk.files i = f
  | .moved, st => st.own t = none ∧ st.disk.IsDir q ∧ st.Written q k
  | .never, _ => False

theorem Phase.kept {d₀ : Disk} {q : PathBuf} {k : String} {t : T} {st st' : Instances T I}
    (hi : Whole d₀ q k st) (h : Undisturbing q k t st st') {P : Phase} (hP : P.holds q k t st) :
    P.holds q k t st' := by
  cases P with
  | started => exact h.own.trans hP
  | made r => exact ⟨h.own.trans hP.1, h.disk.isDir hP.2⟩
  | writing x f H =>
      obtain ⟨hx, i, hH, hl, hf⟩ := hP
      obtain ⟨hl', hf'⟩ := h.disk.mine hx (hi.owned hx).2.1 hl
      exact ⟨h.own.trans hx, i, hH, hl', hf'.trans hf⟩
  | moved => exact ⟨h.own.trans hP.1, h.disk.isDir hP.2.1, h.key hP.2.2⟩
  | never => exact hP

section

variable [DecidableEq T] [DecidableEq I]

/-- A step that touches no file. -/
theorem Whole.looked {d₀ : Disk} {inst : T → I} {root : PathBuf} {p s k : String} {q : PathBuf}
    (hk : ValidName k) {t : T}
    {buf : Bytes} {st : Instances T I} {P : Phase} {a : StoreAct} {r : a.Answer} {w : World}
    (hi : Whole d₀ q k st) (hbuf : buf ∈ st.issued)
    (hP : Undisturbing q k t st (st.after t (inst t) a r w) →
      P.holds q k t (st.after t (inst t) a r w))
    (hq : Quiet (fun _ => False) st.disk w.disk)
    (hplain : Plain q k w.disk)
    (hown : (st.after t (inst t) a r w).own = st.own) :
    (wholly d₀ inst root p s k q).inv (st.after t (inst t) a r w) ∧
      (wholly d₀ inst root p s k q).Guar t st (st.after t (inst t) a r w) ∧
      buf ∈ (st.after t (inst t) a r w).issued ∧
      P.holds q k t (st.after t (inst t) a r w) := by
  have hstep : Whole d₀ q k (st.after t (inst t) a r w) ∧
      ∀ u, Undisturbing q k u st (st.after t (inst t) a r w) :=
    hi.unseen hk hq hplain hown rfl rfl
  obtain ⟨hi', hothers⟩ := hstep
  exact ⟨hi', ⟨trivial, fun u _ => hothers u⟩, hbuf, hP (hothers t)⟩

/-- The phases of a write of `buf` by `t`. -/
def writes (d₀ : Disk) (inst : T → I) (root : PathBuf) (p s : String) {k : String}
    (hk : ValidName k) (q : PathBuf) (t : T) (buf : Bytes) : StoreAssertions (wholly d₀ inst root p s k q) t Phase where
  holds P st := buf ∈ st.issued ∧ P.holds q k t st
  stable := by
    intro P st st' hi _ h hs
    exact ⟨h.issued hs.1, Phase.kept hi h hs.2⟩
  memory := by
    rintro P a st r st' ha _ hi ⟨hbuf, hP⟩ ⟨⟨w, hs, rfl⟩, _⟩
    have hown : (st.after t (inst t) a r w).own = st.own := by
      refine Instances.own_after ?_
      cases a with
      | disk x => exact ha.elim
      | _ => trivial
    have hd : w.disk = st.disk := storeStep_disk ha hs
    exact Whole.looked hk hi hbuf (fun h => Phase.kept hi h hP) (hd ▸ .none) (hd ▸ hi.plain) hown

namespace StoreAssertions.Writes

open Discipline.Assertions

variable {d₀ : Disk} {inst : T → I} {root : PathBuf} {p s k : String} {hk : ValidName k}
  {q : PathBuf} {t : T}
  {buf : Bytes}
  {α β : Type} {P : Phase} {Q : β → Phase}

/-- `mkdir` on the way, `early` being what is known if it comes too early. -/
theorem mkdir (P early : Phase) {r : PathBuf} {n : String} (ha : Above q (.join r n))
    (hP : ∀ {st : Instances T I}, P.holds q k t st →
      st.own t = none ∧ (st.disk.IsDir r ∨ early.holds q k t st)) :
    ∀ st e st', (wholly d₀ inst root p s k q).inv st →
      (writes d₀ inst root p s hk q t buf).holds P st →
      (undisputed inst root p s k).exec t (.disk (.mkdir (.join r n))) st e st' →
      (wholly d₀ inst root p s k q).inv st' ∧ (wholly d₀ inst root p s k q).Guar t st st' ∧
        (writes d₀ inst root p s hk q t buf).holds
          (afterMkdir (.made (.join r n)) early .never e) st' := by
  rintro st e _ hi ⟨hbuf, hPs⟩ ⟨⟨w, hs, rfl⟩, _⟩
  obtain ⟨hnone, hor⟩ := hP hPs
  rcases hi.plain.mkdir_cases ha with ⟨hm, hr⟩ | ⟨hm, hd⟩ | ⟨hm, hr, hl⟩
  · simp only [storeStep, hm] at hs
    cases hs
    exact Whole.looked hk hi hbuf (fun h => Phase.kept hi h (hor.resolve_left hr)) .none
      hi.plain rfl
  · simp only [storeStep, hm] at hs
    cases hs
    exact Whole.looked hk hi hbuf (fun h => ⟨h.own.trans hnone, hd⟩) .none hi.plain rfl
  · simp only [storeStep, hm] at hs
    cases hs
    refine Whole.looked hk hi hbuf ?_ (.addDir hr hl) (hi.plain.addDir ha) rfl
    intro h
    exact ⟨h.own.trans hnone, (Disk.isDir_addDir hr hl _).mpr (Or.inr rfl)⟩

theorem createDirAll {r : PathBuf} (ha : Above q r) :
    (writes d₀ inst root p s hk q t buf).Meets .started (createDirAll r)
      (onResult (fun _ => .never) fun _ => .made r) := by
  refine createDirAll_made (q := q) ?_ ?_ ?_ ?_ ?_ ha
  · exact fun _ h => h.2
  · rintro b st e _ hi ⟨hbuf, hnone⟩ ⟨⟨w, hs, rfl⟩, _⟩
    cases hs
    exact ⟨Whole.looked hk hi hbuf (fun h => ⟨h.own.trans hnone, Disk.isDir_base _ b⟩) .none
      hi.plain rfl, rfl⟩
  · exact fun r n ha => mkdir .started .started ha fun h => ⟨h, Or.inr h⟩
  · exact fun r n ha => mkdir (.made r) .never ha fun h => ⟨h.1, Or.inl h.2⟩
  · rintro r _ st x _ hi ⟨hbuf, hP⟩ ⟨⟨w, hs, rfl⟩, _⟩
    simp only [storeStep, DiskAct.metadata_ok hP.2] at hs
    cases hs
    exact ⟨Whole.looked hk hi hbuf (fun h => Phase.kept hi h hP) .none hi.plain rfl, rfl⟩

/-- The file is empty, and from here on the task's own: it is a new one, or one
that no write in progress has. -/
theorem create {n : UInt64} :
    (writes d₀ inst root p s hk q t buf).Meets (.made q)
      (StoreProg.os (.create (.join q (tmpName k n))))
      (onResult (fun _ => .never) fun h =>
        .writing (tmpName k n) ⟨[], false⟩ fun i => h = .file i) := by
  refine StoreAssertions.os ?_
  rintro st r _ hi ⟨hbuf, hnone, hq⟩ ⟨⟨w, hs, rfl⟩, hok⟩
  have hx : IsTmp (tmpName k n) := tmpName_isTmp k n
  have hothers : ∀ u y, u ≠ t → y = tmpName k n → st.own u ≠ some y := by
    rintro u _ hut rfl
    exact hok _ rfl u hut
  obtain ⟨i, d', hc, hquiet, hdir, hholds, hplain⟩ := hi.plain.create hq n
  simp only [storeStep, hc] at hs
  cases hs
  have hstep : Allowed d₀ q k t st (st.after t (inst t) (.disk (.create (.join q (tmpName k n))))
      (.ok (.file i)) ⟨d', st.memory (inst t)⟩) := by
    refine hi.quiet hk hquiet hplain ?_ hothers ?_ ?_ rfl rfl
    · rintro _ rfl
      exact hx
    · intro u hut
      exact Function.update_of_ne hut ..
    · intro y hy
      have hself : Function.update st.own t (some (tmpName k n)) t = some y := hy
      rw [Function.update_self] at hself
      obtain rfl := Option.some.inj hself
      exact ⟨hx, hdir, ⟨i, hholds.1⟩, fun u hut => hothers u _ hut rfl⟩
  exact ⟨hstep.1, ⟨trivial, hstep.2⟩, hbuf, Function.update_self .., i, rfl, hholds⟩

/-- The task writes to its file. -/
theorem setFile {x : String} {h : Handle} {f g : File} {y : DiskAct} (hy : Fills buf h y f g) :
    (writes d₀ inst root p s hk q t buf).Meets (.writing x f fun i => h = .file i)
      (StoreProg.os y) (onResult (fun _ => .never) fun _ => .writing x g fun i => h = .file i) := by
  refine StoreAssertions.os ?_
  rintro st r _ hi ⟨hbuf, hown, i, rfl, hl, hf⟩ ⟨⟨w, hs, rfl⟩, _⟩
  obtain ⟨v, hperform⟩ := hy.perform hf
  simp only [storeStep, hperform] at hs
  cases hs
  obtain ⟨hx, hq, _⟩ := hi.owned hown
  have hsame : (st.after t (inst t) (.disk y) (.ok v) ⟨st.disk.setFile i g, st.memory (inst t)⟩).own
      = st.own := Instances.own_after hy.keepsOwn
  have hholds : Holds st.disk q x i f := ⟨hl, hf⟩
  have hq' : (st.disk.setFile i g).IsDir q := (Disk.isDir_setFile _ i g q).mpr hq
  have hothers : ∀ u z, u ≠ t → z = x → st.own u ≠ some z := by
    rintro u _ hut rfl hu
    exact hut (hi.apart hu hown)
  have hwhole : Allowed d₀ q k t st (st.after t (inst t) (.disk y) (.ok v)
      ⟨st.disk.setFile i g, st.memory (inst t)⟩) := by
    refine hi.quiet hk hholds.quiet (hi.plain.congr fun _ => rfl) ?_ hothers ?_ ?_ rfl rfl
    · rintro _ rfl
      exact hx
    · intro u _
      exact congrFun hsame u
    · intro z hz
      rw [hsame] at hz
      obtain rfl : x = z := Option.some.inj (hown.symm.trans hz)
      exact ⟨hx, hq', ⟨i, hl⟩, fun u hut => hothers u x hut rfl⟩
  exact ⟨hwhole.1, ⟨trivial, hwhole.2⟩, hbuf, (congrFun hsame t).trans hown, i, rfl,
    hholds.setFile⟩

theorem writeTmp {n : UInt64} :
    (writes d₀ inst root p s hk q t buf).Meets (.made q) (writeTmp (.join q (tmpName k n)) buf)
      (onResult (fun _ => .never) fun _ => .writing (tmpName k n) ⟨buf, true⟩ fun _ => True) := by
  refine writeTmp_of_parts (W := fun f h => .writing (tmpName k n) f fun i => h = .file i) create
    setFile ?_
  rintro h st ⟨hbuf, hown, i, _, hl, hf⟩
  exact ⟨hbuf, hown, i, trivial, hl, hf⟩

/-- The rename cannot fail, and the directory can be opened. -/
theorem install {x : String} (hxk : x ≠ k) :
    (writes d₀ inst root p s hk q t buf).Meets (.writing x ⟨buf, true⟩ fun _ => True)
      (install q x k) (onResult (fun _ => .never) fun _ => .moved) := by
  refine andThen (M := fun _ => .moved) (StoreAssertions.os ?_) fun _ => ?_
  · rintro st r _ hi ⟨hbuf, hown, i, _, hl, hf⟩ ⟨⟨w, hs, rfl⟩, _⟩
    obtain ⟨_, hq, _⟩ := hi.owned hown
    simp only [storeStep, DiskAct.rename_file hq hl hi.plain.not_dir hxk] at hs
    cases hs
    have hmove : Allowed d₀ q k t st
        (st.after t (inst t) (.disk (.rename (.join q x) (.join q k))) (.ok ())
        ⟨st.disk.change q (.move x k (.file i)), st.memory (inst t)⟩) ∧ Instances.Written _ q k :=
      hi.move hk hown hl (hf ▸ hbuf) rfl rfl rfl rfl
    obtain ⟨⟨hi', hothers⟩, hkey⟩ := hmove
    exact ⟨hi', ⟨trivial, hothers⟩, hbuf, Function.update_self ..,
      (Disk.isDir_move hl hi.plain.not_dir q).mpr hq, hkey⟩
  · refine StoreAssertions.syncDir ?_ ?_
    · rintro st r _ hi ⟨hbuf, hP⟩ ⟨⟨w, hs, rfl⟩, _⟩
      simp only [storeStep, DiskAct.openRead_dir hP.2.1] at hs
      cases hs
      exact ⟨Whole.looked hk hi hbuf (fun h => Phase.kept hi h hP) .none hi.plain rfl, rfl⟩
    · rintro st r _ hi ⟨hbuf, hP⟩ ⟨⟨w, hs, rfl⟩, _⟩
      cases hs
      exact ⟨Whole.looked hk hi hbuf (fun h => Phase.kept hi h hP) .syncDir
        (hi.plain.congr fun r => Disk.now_syncDir st.disk q r) rfl, rfl⟩

theorem writeIn : (writes d₀ inst root p s hk q t buf).Meets .started (writeIn q k buf)
    (onResult (fun _ => .never) fun _ => .moved) := by
  refine writeIn_of_parts (createDirAll .here) ?_ (fun _ => writeTmp)
    (fun _ => install (tmpName_ne hk)) fun _ h => h
  rintro st n _ hi ⟨hbuf, hP⟩ ⟨⟨w, hs, rfl⟩, _⟩
  cases hs
  exact Whole.looked hk hi hbuf (fun h => Phase.kept hi h hP) .none hi.plain rfl

end StoreAssertions.Writes

/-! ## Runs -/

def whollyOutline (d₀ : Disk) (inst : T → I) {root : PathBuf} {p s k : String}
    (hacc : Accepts p s (some k)) :
    Outline (undisputed inst root p s k) where
  toDiscipline := wholly d₀ inst root p s k (getDestDirPath root p s)
  idle t st := st.own t = none
  post t r st := r = .unit (.ok ()) ∧ st.own t = none ∧
    st.Written (getDestDirPath root p s) k
  idle_stable := by
    intro t st st' _ _ h hn
    exact h.own.trans hn
  start_ok := by
    rintro t st _ _ ⟨buf, rfl, rfl⟩ hi hnone
    have hi' : Whole d₀ (getDestDirPath root p s) k { st with issued := buf :: st.issued } :=
      ⟨hi.links, hi.plain, hi.owned, hi.apart, hi.key.imp_left .issue, hi.replied⟩
    refine ⟨hi', ⟨trivial, ?_⟩, ?_⟩
    · intro u _
      exact ⟨rfl, .refl _, List.subset_cons_self _ _, .issue⟩
    · have hacc' : (Call.write p s k buf).Accepted := hacc
      rw [Call.program_accepted _ hacc']
      have hk : ValidName k := hacc.2.2.2.2 k rfl
      have hwrite : (writes d₀ inst root p s hk _ t buf).Meets .started
          (writeIn (getDestDirPath root p s) k buf) _ := StoreAssertions.Writes.writeIn
      refine Discipline.Triple.bind _ hwrite ?_ _ hi' ⟨List.mem_cons_self, hnone⟩
      intro r
      refine Discipline.Triple.ret ((writes d₀ inst root p s hk _ t buf).stable _) ?_
      intro st' _ hs
      cases r with
      | ok _ => exact ⟨rfl, hs.2.1, hs.2.2.2⟩
      | error e => exact hs.2.elim
  finish_ok := by
    rintro t _ st _ rfl hi ⟨rfl, hnone, hkey⟩
    refine ⟨⟨hi.links, hi.plain, hi.owned, hi.apart, Or.inl hkey, ?_⟩, ⟨trivial, ?_⟩, hnone⟩
    · intro r hr
      rcases List.mem_cons.mp hr with rfl | hr
      · rfl
      · exact hi.replied r hr
    · intro u _
      exact ⟨rfl, .refl _, fun _ => id, id⟩
  env_ok := nofun
  crash_ok := nofun

end

/-! ## Reads -/

/-- Whoever holds which locks: what a read returns is what is on the disk. -/
theorem readIn_result {d : Disk} {q : PathBuf} {k : String} {m : StoreMemory} {x : Res Bytes}
    {w : World} (h : run storeStep (readIn q k) ⟨d, m⟩ = some (x, w)) :
    x = readFile d (.join q k) := by
  obtain ⟨r, w₁, hlocked, hrest⟩ := run_bind_some h
  obtain ⟨lock, w₂, hclone, hlocked⟩ := run_act_some hlocked
  obtain ⟨_, ⟨d₃, m₃⟩, htaken, hlocked⟩ := run_act_some hlocked
  obtain ⟨r', w₄, hbody, hlocked⟩ := run_bind_some
    (p := (StoreProg.os (.openRead (.join q k))).andThen fun f => StoreProg.os (.readToEnd f)) hlocked
  obtain ⟨_, w₅, _, hlocked⟩ := run_act_some hlocked
  obtain ⟨_, w₆, _, hlocked⟩ := run_act_some hlocked
  obtain rfl : d₃ = d :=
    (storeStep_disk (by trivial) htaken).trans (storeStep_disk (by trivial) hclone)
  obtain ⟨r'', d', hrun, _, hfile⟩ := openRead_readFile (d := d₃) (.join q k)
  rw [hrun m₃] at hbody
  cases hbody
  cases hlocked
  cases r with
  | error e =>
      cases hrest
      exact hfile
  | ok b =>
      obtain ⟨_, w₇, _, hrest⟩ := run_bind_some hrest
      cases hrest
      exact hfile

/-! ## The two stores -/

variable [DecidableEq T] [DecidableEq I]

/-- Writes of one key through any instances for one directory, in whatever order
their steps come, are atomic as long as no `File::create` of theirs takes the file
of another, whatever else is in the directories, an older value and temporary files
left over included. -/
theorem writes_atomic {inst : T → I} {root : PathBuf} {p s k : String} (hacc : Accepts p s (some k))
    {d : Disk} (hlinks : Links d) (hplain : Plain (getDestDirPath root p s) k d)
    {counters : I → UInt64} {cfg : Config T StoreAct StoreAct.Answer Reply (Instances T I)}
    (h : ((sharedKey inst root p s k).onlyIf unclaimed).Reach (.idle (.start d counters)) cfg) :
    AllOrNothing root p s k d cfg.state := by
  have hstart : Whole d (getDestDirPath root p s) k (.start d counters : Instances T I) :=
    ⟨hlinks, hplain, nofun, nofun, Or.inr ⟨rfl, rfl⟩, nofun⟩
  have hinv : Whole d (getDestDirPath root p s) k cfg.state :=
    ((Outline.Inv.init (whollyOutline d inst hacc) hstart fun _ => rfl).reach _ h).1.state
  refine ⟨hinv.replied, ?_⟩
  intro m x w hread
  rw [read_accepted hacc] at hread
  obtain rfl := readIn_result hread
  rcases hinv.key with ⟨b, hb, hc⟩ | ⟨hnone, hsame⟩
  · exact Or.inl ⟨b, hb, readFile_ok.mpr hc⟩
  · exact Or.inr ⟨hnone, by rw [hinv.plain.readFile_key, hplain.readFile_key, hsame]⟩

/-- The actions of `t` through the instance `i`, executable. -/
def playThrough (i : I) (t : T) (a : StoreAct) (st : Instances T I) :
    Option (a.Answer × Instances T I) :=
  (storeStep a ⟨st.disk, st.memory i⟩).map fun x => (x.1, st.after t i a x.1 x.2)

theorem playThrough_exec {inst : T → I} {root : PathBuf} {p s k : String} (t : T) (a : StoreAct)
    (st : Instances T I) (r : a.Answer) (st' : Instances T I)
    (h : playThrough (inst t) t a st = some (r, st')) :
    (sharedKey inst root p s k).exec t a st r st' := by
  obtain ⟨⟨_, w⟩, hs, he⟩ := Option.map_eq_some_iff.mp h
  cases he
  exact ⟨w, hs, rfl⟩

/-- An older value, another key, and the temporary file of a write that never ended. -/
def leftOver : Disk :=
  ((Disk.fresh.addFile (.base "data") "outbound_payments").addFile (.base "data") "manager").addFile
    (.base "data") "outbound_payments.1.tmp"

/-- With different counters, one write overlaps the other; the first
finds a temporary file with its name. -/
theorem writes_atomic_overlap :
    ((sharedKey (I := Bool) id (.base "data") "" "" "outbound_payments").onlyIf unclaimed).Can
      (.idle (.start leftOver fun i => if i then 1 else 0)) fun cfg =>
        cfg.state.replies = [.unit (.ok ()), .unit (.ok ())] ∧
          AllOrNothing (.base "data") "" "" "outbound_payments" leftOver cfg.state := by
  have hrun : ((sharedKey (I := Bool) id (.base "data") "" ""
      "outbound_payments").onlyIf unclaimed).Can
      (.idle (.start leftOver fun i => if i then 1 else 0)) fun cfg =>
        cfg.state.replies = [.unit (.ok ()), .unit (.ok ())] := by
    refine .step (.start (t := true) rfl ⟨[1], rfl, rfl⟩) ?_
    refine .step (.start (t := false) rfl ⟨[2], rfl, rfl⟩) ?_
    refine .acts (t := true) (System.exec_of_guarded (playThrough_exec true)) 6 ?_
    refine .acts (t := false) (System.exec_of_guarded (playThrough_exec false)) 15 ?_
    refine .acts (t := true) (System.exec_of_guarded (playThrough_exec true)) 9 ?_
    refine .step (.finish (t := false) rfl rfl) ?_
    exact .step (.finish (t := true) rfl rfl) (.here rfl)
  have hlinks : Links leftOver := Links.fresh.addFile.addFile.addFile
  have hplain : Plain (getDestDirPath (.base "data") "" "") "outbound_payments" leftOver :=
    Plain.fresh.addFile.addFile.addFile
  obtain ⟨cfg, hr, hreplies⟩ := hrun
  exact ⟨cfg, hr, hreplies, writes_atomic (by decide) hlinks hplain hr⟩

/-- With equal counters, `File::create` empties the file that the other write has
synced: its rename makes an empty value of the key, and takes the file away from
the write that emptied it. -/
theorem overlap_not_atomic :
    (sharedKey (I := Bool) id (.base "data") "" "" "outbound_payments").Can
      (.idle (.start .fresh fun _ => 0))
      fun cfg =>
        ¬ AllOrNothing (.base "data") "" "" "outbound_payments" .fresh cfg.state ∧
        cfg.state.issued = [[2], [1]] ∧ cfg.state.replies = [.unit (.ok ())] ∧
        (run storeStep (read (.base "data") "" "" "outbound_payments")
          ⟨cfg.state.disk, .new⟩).map Prod.fst = some (.ok []) ∧
        (sharedKey (I := Bool) id (.base "data") "" "" "outbound_payments").Can cfg fun cfg' =>
          cfg'.state.replies = [.unit (.error (.os .notFound)), .unit (.ok ())] := by
  refine .step (.start (t := true) rfl ⟨[1], rfl, rfl⟩) ?_
  refine .step (.start (t := false) rfl ⟨[2], rfl, rfl⟩) ?_
  refine .acts (t := true) (playThrough_exec true) 6 ?_
  refine .acts (t := false) (playThrough_exec false) 4 ?_
  refine .acts (t := true) (playThrough_exec true) 9 ?_
  refine .step (.finish (t := true) rfl rfl) ?_
  refine .here ⟨?_, rfl, rfl, rfl, ?_⟩
  · intro h
    rcases h.whole .new (.ok []) _ rfl with ⟨b, hb, he⟩ | ⟨hreplies, _⟩
    · cases he
      exact absurd hb (by decide)
    · exact nomatch hreplies
  · refine .acts (t := false) (playThrough_exec false) 9 ?_
    exact .step (.finish (t := false) rfl rfl) (.here rfl)

end LightningNode
