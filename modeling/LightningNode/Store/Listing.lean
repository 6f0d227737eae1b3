/-
# `LightningNode.Store.Listing` — lists beside the other calls

`LightningNode.Store.Linearizability` orders reads, writes and removes.  Here
tasks also list namespaces, while others write and remove the keys listed.  A
list takes effect

    where it finds no directory, or
    where it reads the one it has found,

and looks at each of the entries afterwards: a temporary file is passed over, a
sub-namespace is still there, and a key is a file or has gone, which makes the
list fail.  So one that returns `Ok` returns the keys of one moment, and one
that fails has changed nothing and is taken out of the order (`retract`).

Callers keep keys and sub-namespaces apart (`Apart`).  The reading of a directory
is one step.
-/
import LightningNode.Store.Linearizability

namespace LightningNode

open Conc StoreProg FilesystemStore

/-! ## The tree, with temporary files in it -/

namespace Layout

variable (L : Layout) {d d' : Disk} {q : PathBuf} {n : String}

/-- A file is a key or, in the data directory, a temporary file; a directory is a
sub-namespace. -/
structure Entries (d : Disk) : Prop where
  file : ∀ {q n i}, (d.dirs q).now.lookup n = some (.file i) →
    L.key q n ∨ Above q L.dataDir ∧ IsTmp n
  dir : ∀ {q n}, (d.dirs q).now.lookup n = some .dir → L.space q n

/-- What a call may do: make a sub-namespace, make a temporary file, move one over
a key of its directory; nothing else adds an entry. -/
def Allows : StoreAct → Prop
  | .disk (.mkdir (.join q n)) => L.space q n
  | .disk (.create (.join q t)) => Above q L.dataDir ∧ IsTmp t
  | .disk (.rename (.join p t) (.join q k)) => p = q ∧ IsTmp t ∧ L.key q k
  | _ => True

variable {L}

namespace Entries

theorem fresh : L.Entries .fresh := ⟨nofun, nofun⟩

/-- Fewer entries. -/
theorem fewer (h : L.Entries d)
    (hnow : ∀ q n x, (d'.dirs q).now.lookup n = some x → (d.dirs q).now.lookup n = some x) :
    L.Entries d' where
  file hl := h.file (hnow _ _ _ hl)
  dir hl := h.dir (hnow _ _ _ hl)

theorem addDir (h : L.Entries d) (hs : L.space q n) : L.Entries (d.addDir q n) where
  file := by
    intro q' n' i hl
    rw [Disk.lookup_addDir] at hl
    split_ifs at hl with _ hqn
    · cases hl
    · exact h.file hl
  dir := by
    intro q' n' hl
    rw [Disk.lookup_addDir] at hl
    split_ifs at hl with _ hqn
    · obtain ⟨rfl, rfl⟩ := hqn
      exact hs
    · exact h.dir hl

theorem addFile (h : L.Entries d) (hq : Above q L.dataDir) (ht : IsTmp n) :
    L.Entries (d.addFile q n) where
  file := by
    intro q' n' i hl
    rw [Disk.entry_addFile q' n'] at hl
    split_ifs at hl with hqn
    · obtain ⟨rfl, rfl⟩ := hqn
      exact Or.inr ⟨hq, ht⟩
    · exact h.file hl
  dir := by
    intro q' n' hl
    rw [Disk.entry_addFile q' n'] at hl
    split_ifs at hl
    · cases hl
    · exact h.dir hl

theorem move (h : L.Entries d) {t k : String} {i : Ino} (hk : L.key q k) :
    L.Entries (d.change q (.move t k (.file i))) := by
  have hnow : ∀ q' n' x, ((d.change q (.move t k (.file i))).dirs q').now.lookup n' = some x →
      (q' = q ∧ n' = k ∧ x = .file i) ∨ (d.dirs q').now.lookup n' = some x := by
    intro q' n' x hl
    rw [Disk.now_change] at hl
    split_ifs at hl with hq
    · rw [DirOp.lookup_move] at hl
      split_ifs at hl with hnk
      · cases hl
        exact Or.inl ⟨hq, hnk, rfl⟩
      · exact Or.inr hl
    · exact Or.inr hl
  constructor
  · intro q' n' j hl
    rcases hnow q' n' _ hl with ⟨rfl, rfl, _⟩ | hl
    · exact Or.inl hk
    · exact h.file hl
  · intro q' n' hl
    rcases hnow q' n' _ hl with ⟨_, _, hx⟩ | hl
    · cases hx
    · exact h.dir hl

/-- What is allowed keeps the tree. -/
theorem perform (h : L.Entries d) {x : DiskAct} (ha : L.Allows (.disk x)) :
    L.Entries (x.perform d).2 := by
  cases x with
  | mkdir p =>
      rcases DiskAct.mkdir_cases d p with ⟨e, he⟩ | ⟨q, n, rfl, _, _, he⟩
      · rwa [he]
      · rw [he]
        exact h.addDir ha
  | create p =>
      cases p with
      | base s => exact h
      | join q t =>
          rcases DiskAct.create_cases d q t with ⟨e, he⟩ | ⟨_, i, _, he⟩ | ⟨_, _, he⟩
          · rwa [he]
          · rw [he]
            exact h.fewer fun _ _ _ => id
          · rw [he]
            exact h.addFile ha.1 ha.2
  | openRead p => rwa [DiskAct.openRead_disk]
  | writeAll w b =>
      cases w with
      | file i => exact h.fewer fun _ _ _ => id
      | dir p => exact h
  | syncAll w =>
      cases w with
      | file i => exact h.fewer fun _ _ _ => id
      | dir p =>
          refine h.fewer fun q n x hl => ?_
          rwa [show (DiskAct.perform (.syncAll (.dir p)) d).2 = d.syncDir p from rfl,
            Disk.now_syncDir] at hl
  | readToEnd w => rwa [DiskAct.readToEnd_disk]
  | rename p q =>
      cases p with
      | base s => exact h
      | join p t =>
          cases q with
          | base s => exact h
          | join q k =>
              obtain ⟨rfl, ht, hk⟩ := ha
              have htk : t ≠ k := fun heq => (L.key_valid hk).not_tmp (heq ▸ ht)
              rcases DiskAct.rename_cases d p htk with ⟨e, he⟩ | ⟨_, i, _, _, he⟩
              · rwa [he]
              · rw [he]
                exact h.move hk
  | removeFile p =>
      cases p with
      | base s => exact h
      | join q k =>
          rcases DiskAct.removeFile_cases d q k with ⟨e, he⟩ | ⟨i, _, he⟩
          · rwa [he]
          · rw [he]
            refine h.fewer fun q' n x hl => ?_
            rw [Disk.entry_del q' n] at hl
            split_ifs at hl
            exact hl
  | metadata p => exact h
  | readDir p => rwa [DiskAct.readDir_disk]

theorem step (h : L.Entries d) {a : StoreAct} {w w' : World} {r : a.Answer} (ha : L.Allows a)
    (hw : w.disk = d) (hs : storeStep a w = some (r, w')) : L.Entries w'.disk := by
  subst hw
  cases a with
  | disk x =>
      cases hs
      exact h.perform ha
  | _ =>
      rw [storeStep_disk (by trivial) hs]
      exact h

/-- Namespaces are directories, or missing. -/
theorem access_space (h : L.Entries d) (hq : L.Spaces q) :
    d.IsDir q ∨ d.access q = .error .notFound := by
  induction hq with
  | base s => exact Or.inl (d.isDir_base s)
  | @join p n _ hs ih =>
      rcases ih with hp | hp
      · cases hl : (d.dirs p).now.lookup n with
        | none => exact Or.inr (Disk.access_join_notFound.mpr (Or.inr ⟨hp, hl⟩))
        | some x =>
            cases x with
            | dir => exact Or.inl (Disk.isDir_join.mpr ⟨hp, hl⟩)
            | file i =>
                rcases h.file hl with hk | ⟨hq, ht⟩
                · exact absurd hs (L.apart hk)
                · exact absurd ht (L.space_valid hq hs).not_tmp
      · exact Or.inr (Disk.access_join_notFound.mpr (Or.inl hp))

end Entries

/-! ### What the calls do is allowed -/

theorem createDirAll_allowed (hq : L.Spaces q) : (createDirAll q).Every L.Allows := by
  have hexisting : ∀ q e, (createDirAll.existing q e).Every L.Allows := by
    intro q e
    refine ⟨trivial, fun r => ?_⟩
    cases r with
    | error e => exact trivial
    | ok x =>
        cases x with
        | dir => exact trivial
        | file i => exact trivial
  induction hq with
  | base s =>
      refine ⟨trivial, fun r => ?_⟩
      cases r with
      | ok x => exact trivial
      | error e => exact hexisting _ _
  | @join p n _ hs ih =>
      refine ⟨hs, fun r => ?_⟩
      cases r with
      | ok x => exact trivial
      | error e =>
          cases e with
          | notFound =>
              refine every_andThen ih fun _ => ⟨hs, fun r => ?_⟩
              cases r with
              | ok x => exact trivial
              | error e => exact hexisting _ _
          | _ => exact hexisting _ _

theorem collected_allowed {α : Type} (x : α) : (collected x).Every L.Allows := by
  have hgc : garbageCollectLocks.Every L.Allows := by
    refine ⟨trivial, fun n => ?_⟩
    show Prog.Every _ (if n % 25 = 0 then act .retainLocks else pure ())
    split
    · exact ⟨trivial, fun _ => trivial⟩
    · exact trivial
  show Prog.Every _ (garbageCollectLocks >>= fun _ => pure (Except.ok x))
  refine Prog.Every.bind (fun _ => ?_) hgc
  exact trivial

theorem withLock_allowed {α : Type} {lock unlock : LockRef → StoreAct} {path : PathBuf}
    {body : StoreProg α} (hl : ∀ r, L.Allows (lock r)) (hu : ∀ r, L.Allows (unlock r))
    (h : body.Every L.Allows) : (withLock lock unlock path body).Every L.Allows := by
  refine ⟨trivial, fun r => ⟨hl r, fun _ => ?_⟩⟩
  have hrest : ∀ x : α, ((act (unlock r) >>= fun _ => act (.dropLock r) >>= fun _ => pure x :
      StoreProg α)).Every L.Allows := fun x => ⟨hu r, fun _ => ⟨trivial, fun _ => trivial⟩⟩
  exact Prog.Every.bind hrest h

theorem syncDir_allowed (q : PathBuf) : (syncDir q).Every L.Allows :=
  every_andThen (every_os trivial) fun _ => every_os trivial

theorem writeTmp_allowed {t : String} (buf : Bytes) (hq : Above q L.dataDir) (ht : IsTmp t) :
    (writeTmp (.join q t) buf).Every L.Allows :=
  every_andThen (every_os ⟨hq, ht⟩) fun _ =>
    every_andThen (every_os trivial) fun _ => every_os trivial

theorem writeIn_allowed {k : String} {buf : Bytes} (hq : L.Spaces q) (hk : L.key q k) :
    (writeIn q k buf).Every L.Allows := by
  refine every_andThen (createDirAll_allowed hq) fun _ => ⟨trivial, fun n => ?_⟩
  have ht := tmpName_isTmp k n
  refine every_andThen (writeTmp_allowed buf (L.key_inside hk) ht) fun _ => ?_
  refine every_andThen (withLock_allowed (fun _ => trivial) (fun _ => trivial) ?_)
    fun _ => collected_allowed _
  exact every_andThen (every_os ⟨rfl, ht, hk⟩) fun _ => syncDir_allowed q

theorem removeIn_allowed (k : String) (lazily : Bool) : (removeIn q k lazily).Every L.Allows := by
  have hunlink : (unlink q k lazily).Every L.Allows := by
    unfold unlink
    split
    · exact every_os trivial
    · exact every_andThen (every_os trivial) fun _ => syncDir_allowed q
  have hremove : ((withWriteLock (.join q k) (unlink q k lazily)).andThen collected).Every
      L.Allows :=
    every_andThen (withLock_allowed (fun _ => trivial) (fun _ => trivial) hunlink)
      fun _ => collected_allowed _
  refine ⟨trivial, fun r => ?_⟩
  cases r with
  | error e => exact trivial
  | ok x =>
      cases x with
      | dir => exact trivial
      | file i => exact hremove

theorem listIn_allowed (q : PathBuf) : (listIn q).Every L.Allows := by
  have hlook : ∀ ps, (listEntries q ps).Every L.Allows := by
    intro ps
    induction ps with
    | nil => exact trivial
    | cons p ps ih =>
        refine every_andThen ?_ fun isKey => ?_
        · unfold dirEntryIsKey
          split
          · exact trivial
          · refine ⟨trivial, fun r => ?_⟩
            cases r with
            | error e => exact trivial
            | ok x => cases x <;> exact trivial
        · split
          · split
            · exact trivial
            · exact every_andThen ih fun _ => trivial
          · exact ih
  refine ⟨trivial, fun r => ?_⟩
  cases r with
  | error e => exact trivial
  | ok x =>
      exact every_andThen (every_os trivial) fun ps =>
        every_andThen (hlook ps) fun _ => collected_allowed _

theorem readIn_allowed (k : String) : (readIn q k).Every L.Allows := by
  refine every_andThen (withLock_allowed (fun _ => trivial) (fun _ => trivial) ?_)
    fun _ => collected_allowed _
  exact every_andThen (every_os trivial) fun _ => every_os trivial

end Layout

variable {root : PathBuf} {cs : List Call} {hcs : Apart cs}

theorem every_replied {α β : Type} {P : StoreAct → Prop} {p : StoreProg α} {f : α → β}
    (h : p.Every P) : (do return f (← p) : StoreProg β).Every P := by
  have hret : ∀ x, (pure (f x) : StoreProg β).Every P := fun _ => trivial
  exact Prog.Every.bind hret h

/-- So is what any call does. -/
theorem Call.program_allowed {c : Call} (hc : c ∈ cs) :
    (c.program root).Every (layoutOf root cs hcs).Allows := by
  by_cases hacc : c.Accepted
  · rw [Call.program_accepted _ hacc]
    cases c with
    | read p s k => exact every_replied (Layout.readIn_allowed k)
    | write p s k buf =>
        have hspaces : (layoutOf root cs hcs).Spaces (getDestDirPath root p s) :=
          layoutOf_spaces hc hacc rfl
        exact every_replied (Layout.writeIn_allowed hspaces (layoutOf_key hc hacc rfl rfl))
    | remove p s k lazily =>
        exact every_replied (Layout.removeIn_allowed k lazily)
    | list p s => exact every_replied (Layout.listIn_allowed _)
  · obtain ⟨r, _, hprog⟩ := Call.program_rejected root hacc
    rw [hprog]
    exact trivial

/-! ## The system -/

/-- A list takes effect where it finds no directory, or reads the one it has found. -/
def Call.snapshot (root : PathBuf) : Call → (a : StoreAct) → a.Answer → Bool
  | .list p s, .disk (.metadata q), .error _ => q = getDestDirPath root p s
  | .list _ _, .disk (.readDir _), .ok _ => true
  | _, _, _ => false

namespace Shared

variable {T : Type}

/-- The action `a` of `t` was answered by `r`; a list that takes effect is answered
by the map. -/
def afterAny (root : PathBuf) (s : Shared T) (t : T) (a : StoreAct) (r : a.Answer) (w : World) :
    Shared T :=
  match s.trace.running t with
  | none => s.after t a r w
  | some (_, c) =>
      if c.snapshot root a r then
        { s with
          world := w
          trace := s.trace.point t (Stored.step (storeObject.after s.trace.order) c).1 }
      else s.after t a r w

section

variable {s : Shared T} {t : T} {id : Nat} {c : Call} {a : StoreAct} {r : a.Answer} {w : World}
  (hrun : s.trace.running t = some (id, c))

include hrun

theorem afterAny_quiet (h : c.snapshot root a r = false) :
    s.afterAny root t a r w = s.after t a r w := by
  simp only [afterAny, hrun, h, Bool.false_eq_true, if_false]

theorem afterAny_snapshot (h : c.snapshot root a r = true) :
    s.afterAny root t a r w =
      { s with
        world := w
        trace := s.trace.point t (Stored.step (storeObject.after s.trace.order) c).1 } := by
  simp only [afterAny, hrun, h, if_true]

end

end Shared

/-- Only lists take effect in this way. -/
theorem Call.snapshot_key {c : Call} (hc : c.key.isSome) (a : StoreAct) (r : a.Answer) :
    c.snapshot root a r = false := by
  cases c with
  | list p s => exact nomatch hc
  | _ => rfl

theorem Call.snapshot_memory {c : Call} {a : StoreAct} (ha : a.OnMemory) (r : a.Answer) :
    c.snapshot root a r = false := by
  cases a with
  | disk x => exact ha.elim
  | _ => cases c <;> rfl

/-- Any number of callers on one store below `root`, each call one of `cs`, with no
faults and fewer than 2^64 writes.  A list that fails has not taken effect. -/
def storeWithLists (T : Type) [DecidableEq T] (root : PathBuf) (cs : List Call) :
    System T StoreAct StoreAct.Answer Reply (Shared T) where
  exec t a s r s' := ∃ w, storeStep a s.world = some (r, w) ∧ s' = s.afterAny root t a r w
  start t s p s' := ∃ c ∈ cs, p = c.program root ∧
    s' = { s with trace := s.trace.invoke t c } ∧ (writeIds s'.trace.events).length < UInt64.size
  finish t r s s' :=
    (r.Good ∧ s' = { s with trace := s.trace.reply t r }) ∨
      (¬ r.Good ∧ s' = { s with trace := (s.trace.retract t).reply t r })
  env _ _ := False
  crash _ _ := False

/-! ## The invariant -/

/-- The map has accepted keys only. -/
theorem accepted_of_mem {p s k : String} {order : List (Entry Call Answer)}
    (hm : (p, s, k) ∈ storeObject.after order) : Accepts p s (some k) := by
  induction order with
  | nil => exact nomatch hm
  | cons e order ih =>
      obtain ⟨n, c, x⟩ := e
      replace hm : (p, s, k) ∈ (Stored.step (storeObject.after order) c).2 := hm
      by_cases hacc : c.Accepted
      · cases c with
        | read p' s' k' =>
            have hread : Accepts p' s' (some k') := hacc
            rw [Stored.step_read hread rfl] at hm
            exact ih hm
        | write p' s' k' buf =>
            have hwrite : Accepts p' s' (some k') := hacc
            rw [Stored.step_write hwrite] at hm
            rcases (AList.mem_insert _).mp hm with heq | hm
            · cases heq
              exact hwrite
            · exact ih hm
        | remove p' s' k' lazily =>
            have hremove : Accepts p' s' (some k') := hacc
            rw [Stored.step_remove hremove] at hm
            exact ih (AList.mem_erase.mp hm).2
        | list p' s' =>
            rw [Stored.step, if_pos hacc] at hm
            exact ih hm
      · rw [Stored.step_rejected hacc] at hm
        exact ih hm

/-- A list leaves the map alone. -/
theorem Stored.step_list (m : Stored) (p s : String) : (m.step (.list p s)).2 = m := by
  unfold Stored.step
  split <;> rfl

theorem Stored.step_list_accepted {p s : String} (h : Accepts p s none) (m : Stored) :
    (m.step (.list p s)).1 = .keys (m.keysOf p s) := by
  rw [Stored.step, if_pos (show Call.Accepted (.list p s) from h)]

/-- Of these names, those of keys: `dirs` are the sub-namespaces. -/
def kept (names : List String) (dirs : String → Bool) : List String :=
  names.filter fun n => !decide (IsTmp n) && !dirs n

/-- The keys of a directory. -/
def keyNames (d : Disk) (q : PathBuf) : List String :=
  kept (d.dirs q).now.keys fun n => decide ((d.dirs q).now.lookup n = some .dir)

/-- They are the keys that the map has there. -/
theorem Stores.keysOf {p s : String} {d : Disk} {order : List (Entry Call Answer)}
    (h : Stores root (storeObject.after order) d) (hL : (layoutOf root cs hcs).Entries d)
    (hacc : Accepts p s none) (hq : d.IsDir (getDestDirPath root p s)) :
    (keyNames d (getDestDirPath root p s)).Perm
      ((storeObject.after order).keysOf p s) := by
  refine (List.perm_ext_iff_of_nodup ((AList.keys_nodup _).filter _)
    (Stored.keysOf_nodup _)).mpr fun n => ?_
  rw [Stored.mem_keysOf, List.mem_filter, Bool.and_eq_true, Bool.not_eq_true', Bool.not_eq_true',
    decide_eq_false_iff_not, decide_eq_false_iff_not]
  constructor
  · rintro ⟨hn, htmp, hdir⟩
    obtain ⟨x, hx⟩ := Option.isSome_iff_exists.mp (AList.lookup_isSome.mpr hn)
    cases x with
    | dir => exact absurd hx hdir
    | file i =>
        have hkey : (layoutOf root cs hcs).key _ n := (hL.file hx).resolve_right fun h => htmp h.2
        obtain ⟨c, _, hc, hk, hlevel⟩ := hkey
        obtain ⟨rfl, rfl⟩ := getDestDirPath_inj hacc.2.1 hc.2.1 hlevel
        have hacc' : Accepts c.level.1 c.level.2 (some n) := hk ▸ hc
        refine AList.lookup_isSome.mp ?_
        rw [h hacc', Disk.contents_join.mpr ⟨hq, i, hx, rfl⟩]
        rfl
  · intro hm
    have hacc' := accepted_of_mem hm
    obtain ⟨b, hb⟩ := Option.isSome_iff_exists.mp (AList.lookup_isSome.mpr hm)
    rw [h hacc'] at hb
    obtain ⟨_, i, hl, _⟩ := Disk.contents_join.mp hb
    refine ⟨AList.lookup_isSome.mp (Option.isSome_iff_exists.mpr ⟨_, hl⟩),
      (hacc'.2.2.2.2 n rfl).not_tmp, ?_⟩
    rw [hl]
    nofun

/-- Where there is no directory, the map has no keys. -/
theorem Stores.keysOf_nil {p s : String} {d : Disk} {order : List (Entry Call Answer)}
    (h : Stores root (storeObject.after order) d)
    (hq : ¬ d.IsDir (getDestDirPath root p s)) :
    (storeObject.after order).keysOf p s = [] := by
  refine List.eq_nil_iff_forall_not_mem.mpr fun n hn => ?_
  have hm := Stored.mem_keysOf.mp hn
  obtain ⟨b, hb⟩ := Option.isSome_iff_exists.mp (AList.lookup_isSome.mpr hm)
  rw [h (accepted_of_mem hm)] at hb
  exact hq (Disk.contents_join.mp hb).1

/-! ## The discipline -/

variable {T : Type} [DecidableEq T]

/-- What `linearly` asks, and the tree. -/
def linearlyAll (root : PathBuf) (cs : List Call) (hcs : Apart cs) :
    Discipline (storeWithLists T root cs) where
  inv s := Linear root s ∧ (layoutOf root cs hcs).Entries s.disk
  change _ _ := True
  rely := (linearly root).rely
  change_refl _ := trivial
  change_trans _ _ := trivial
  rely_refl := (linearly root).rely_refl
  rely_trans := (linearly root).rely_trans

/-- Reads, writes and removes are safe beside lists as they were without them. -/
theorem linearlyAll_safe {β : Type} {t : T} {id : Nat} {c : Call} {p : StoreProg β} {s : Shared T}
    {Q : β → Shared T → Prop} (hc : c.key.isSome) (hrun : s.trace.running t = some (id, c))
    (hp : p.Every (layoutOf root cs hcs).Allows) (h : (linearly root).Safe t Q p s) :
    (linearlyAll root cs hcs).Safe t Q p s := by
  have hinv : ∀ s : Shared T, (linearlyAll root cs hcs).inv s ↔
      (linearly root).inv s ∧ (layoutOf root cs hcs).Entries s.disk := fun _ => Iff.rfl
  refine Discipline.Safe.transfer (linearly root)
    (J := fun s => (layoutOf root cs hcs).Entries s.disk)
    (G := fun s => s.trace.running t = some (id, c))
    hinv ?_ (fun _ hg => hg) ?_ hp hrun h
  · intro s s' hr
    exact ⟨hr, fun hG => hr.1.trans hG⟩
  · rintro a s r s' ha hG hJ ⟨w, hs, rfl⟩
    rw [Shared.afterAny_quiet hG (Call.snapshot_key hc a r)]
    refine ⟨⟨w, hs, rfl⟩, ?_, hJ.step ha rfl hs⟩
    rw [Shared.running_after hG]
    exact hG

namespace Assertion

variable {id : Nat}

/-- The entry of the call, if there is one, changes nothing. -/
def looks : Assertion T id where
  holds s := storeObject.OnlyLooks id s.trace.order
  kept h hs e he heq := hs e ((h.entries e heq).mp he) heq

def subspaces (q : PathBuf) (dirs : String → Bool) : Assertion T id where
  holds s := ∀ n, dirs n = true → s.disk.IsDir (.join q n)
  kept h hs n hn := h.disk.isDir (hs n hn)

def fact (φ : Prop) : Assertion T id where
  holds _ := φ
  kept _ hs := hs

/-- The list has taken effect, and `ks` is what it is to return. -/
def found (ks : List String) : Assertion T id where
  holds s := storeObject.OnlyLooks id s.trace.order ∧
    ∃ ks', ks.Nodup ∧ ks.Perm ks' ∧ s.trace.After id (.keys ks')
  kept := by
    rintro s s' h ⟨hl, ks', hn, hp, ha⟩
    exact ⟨(looks (T := T)).kept h hl, ks', hn, hp, h.entries.after ha⟩

/-- What a list knows from its look at the directory. -/
def atLook (q : PathBuf) : Except ErrorKind Node → Assertion T id
  | .ok _ => before.and (isDir q)
  | .error _ => found []

/-- What it knows of the entries it has read. -/
def atRead (L : Layout) (q : PathBuf) (entries : List PathBuf) : Assertion T id where
  holds s := ∃ names dirs, entries = names.map q.join ∧
    (∀ n ∈ names, IsTmp n ∨ dirs n = true ∨ L.key q n) ∧
    (found (LightningNode.kept names dirs) : Assertion T id).holds s ∧
    (subspaces q dirs : Assertion T id).holds s
  kept := by
    rintro s s' h ⟨names, dirs, he, hk, hf, hs⟩
    exact ⟨names, dirs, he, hk, (found (T := T) _).kept h hf, (subspaces (T := T) q dirs).kept h hs⟩

/-- A call that returns `r` went well and is in the order, or has only looked. -/
def answered (r : Reply) : Assertion T id where
  holds s := (r.Good → s.trace.Fits Reply.Agrees Reply.Good id r) ∧
    (¬ r.Good → storeObject.OnlyLooks id s.trace.order)
  kept h hs := ⟨fun hg => h.entries.fits (hs.1 hg), fun hg => (looks (T := T)).kept h (hs.2 hg)⟩

omit [DecidableEq T] in
/-- A reply that says what the order says. -/
theorem answered_of_fits {r : Reply} {s : Shared T}
    (h : s.trace.Fits Reply.Agrees Reply.Good id r) : (answered r : Assertion T id).holds s := by
  refine ⟨fun _ => h, ?_⟩
  intro hg e he heq
  exact absurd (h.2.mpr ⟨e, he, heq⟩) hg

end Assertion

/-! ## Lists -/

namespace Listing

open Assertion Discipline.Assertions

variable {t : T} {id : Nat} {p s : String} {w : Shared T} {w' : World} {a : StoreAct}
  {r : a.Answer} {P : Assertion T id}

/-- A step at which the list does not take effect. -/
theorem quiet (hi : (linearlyAll root cs hcs).inv w)
    (hrun : w.trace.running t = some (id, .list p s))
    (hP : P.holds w) (hsnap : (Call.list p s).snapshot root a r = false) (ha : a ≠ .fetchAddTmp)
    (hs : storeStep a w.world = some (r, w')) (hd : w'.disk = w.disk) :
    (linearlyAll root cs hcs).inv (w.afterAny root t a r w') ∧
      (linearlyAll root cs hcs).Guar t w (w.afterAny root t a r w') ∧
      (w.afterAny root t a r w').trace.running t = some (id, .list p s) ∧
      P.holds (w.afterAny root t a r w') := by
  have hp : (Call.list p s).point a r w.disk = none := rfl
  have hq : Quiet (fun _ => False) w.disk w'.disk := by
    rw [hd]
    exact .none
  obtain ⟨hi', hg, hrun', hP'⟩ := P.unseen hi.1 hrun hP ha hp hs hq
  rw [Shared.afterAny_quiet hrun hsnap]
  exact ⟨⟨hi', show Layout.Entries _ w'.disk from hd ▸ hi.2⟩, hg, hrun', hP'⟩

/-- The step at which it does. -/
theorem snapshot (hi : (linearlyAll root cs hcs).inv w)
    (hrun : w.trace.running t = some (id, .list p s)) (hb : w.trace.Before id)
    (hsnap : (Call.list p s).snapshot root a r = true) (ha : a ≠ .fetchAddTmp)
    (hs : storeStep a w.world = some (r, w')) (hd : w'.disk = w.disk) :
    (linearlyAll root cs hcs).inv (w.afterAny root t a r w') ∧
      (linearlyAll root cs hcs).Guar t w (w.afterAny root t a r w') ∧
      (w.afterAny root t a r w').trace.running t = some (id, .list p s) ∧
      (w.afterAny root t a r w').trace.After id
        (Stored.step (storeObject.after w.trace.order) (.list p s)).1 ∧
      storeObject.OnlyLooks id (w.afterAny root t a r w').trace.order := by
  rw [Shared.afterAny_snapshot hrun hsnap]
  have horder := Trace.order_point (a := (Stored.step (storeObject.after w.trace.order)
    (.list p s)).1) hrun
  refine ⟨⟨⟨?_, hi.1.consistent.point hrun hb, ?_, ?_⟩, ?_⟩, ⟨trivial, ?_⟩, ?_, hb.point hrun, ?_⟩
  · exact (hd ▸ hi.1.links : Links w'.disk)
  · show Stores root (storeObject.after (w.trace.point t _).order) w'.disk
    rw [horder, hd]
    show Stores root (Stored.step (storeObject.after w.trace.order) (.list p s)).2 w.disk
    rw [Stored.step_list]
    exact hi.1.stored
  · show Ticketed w'.memory.tmpFileCounter w.tickets (writeIds (w.trace.point t _).events)
    rw [Trace.events_point hrun, storeStep_counter ha hs]
    exact hi.1.ticketed
  · exact (hd ▸ hi.2 : Layout.Entries _ w'.disk)
  · intro u hut
    refine ⟨congrFun (Trace.running_point hrun) u, ?_⟩
    intro id' c' hu
    refine ⟨.point hrun hi.1.consistent hut hu, fun _ => Iff.rfl, ?_⟩
    show Undisturbed _ w.disk w'.disk
    rw [hd]
    exact .refl _
  · rw [Trace.running_point hrun]
    exact hrun
  · show storeObject.OnlyLooks id (w.trace.point t _).order
    rw [horder]
    intro e he heq m
    rcases List.mem_cons.mp he with rfl | he
    · exact Stored.step_list m p s
    · exact absurd heq (hb e he)

/-- The assertions of the list `id` of `t`. -/
def listed (root : PathBuf) (cs : List Call) (hcs : Apart cs) (t : T) (id : Nat) (p s : String) :
    StoreAssertions (linearlyAll root cs hcs) t (Assertion T id) where
  holds P w := w.trace.running t = some (id, .list p s) ∧ P.holds w
  stable := by
    intro P w w' _ _ h hw
    exact ⟨h.1 ▸ hw.1, P.kept (h.2 hw.1) hw.2⟩
  memory := by
    rintro P a w r w' ha hf hi ⟨hrun, hP⟩ ⟨v, hs, rfl⟩
    exact quiet hi hrun hP (Call.snapshot_memory ha r) hf hs (storeStep_disk ha hs)

/-- What is a fact before a part of the list is one for its proof. -/
theorem of_fact {β : Type} {φ : Prop} {x : StoreProg β} {Q : β → Assertion T id}
    (h : φ → (listed root cs hcs t id p s).Meets P x Q) :
    (listed root cs hcs t id p s).Meets (P.and (fact φ)) x Q :=
  fun w hi hw => h hw.2.2 w hi ⟨hw.1, hw.2.1⟩

/-- Is it a key? -/
def isKey (dirs : String → Bool) (n : String) : Bool := !decide (IsTmp n) && !dirs n

theorem kept_cons {names : List String} {dirs : String → Bool} {n : String} :
    LightningNode.kept (n :: names) dirs =
      if isKey dirs n then n :: LightningNode.kept names dirs else LightningNode.kept names dirs :=
  List.filter_cons

section

variable {q : PathBuf} {ks : List String} {dirs : String → Bool} {n : String}
  (hq : q = getDestDirPath root p s)

include hq

/-- A look at an entry, some time after the directory was read: a sub-namespace is
still one, and what was no sub-namespace has not become one. -/
theorem dirEntryIsKey (hkind : IsTmp n ∨ dirs n = true ∨ (layoutOf root cs hcs).key q n) :
    (listed root cs hcs t id p s).Meets ((found ks).and (subspaces q dirs))
      (dirEntryIsKey (q.join n))
      (onResult (fun _ => looks) fun b =>
        ((found ks).and (subspaces q dirs)).and (fact (b = isKey dirs n))) := by
  unfold LightningNode.dirEntryIsKey
  split
  · rename_i htmp
    have hkey : isKey dirs n = false := by
      have hn : IsTmp n := htmp
      simp only [isKey, hn, decide_true, Bool.not_true, Bool.false_and]
    exact ret fun w hw => ⟨hw.1, hw.2, hkey.symm⟩
  · rename_i htmp
    have hn : ¬ IsTmp n := htmp
    have hkey : isKey dirs n = !dirs n := by
      simp only [isKey, hn, decide_false, Bool.not_false, Bool.true_and]
    refine look (fun r => (dirs n = true → r = .ok .dir) ∧ (dirs n = false → r ≠ .ok .dir)) ?_ ?_
    · rintro w r w' hi ⟨hrun, hP⟩ ⟨v, hs, rfl⟩
      have hsnap : (Call.list p s).snapshot root (.disk (.metadata (q.join n))) r = false := by
        cases r with
        | ok x => rfl
        | error e =>
            refine decide_eq_false ?_
            rw [← hq]
            exact PathBuf.join_ne_self q n
      have hr : r = w.disk.access (q.join n) := by
        cases hs
        rfl
      refine ⟨quiet hi hrun hP hsnap nofun hs (by cases hs; rfl), ?_, ?_⟩
      · intro hd
        exact hr.trans (hP.2 n hd)
      · intro hd hdir
        have hk : (layoutOf root cs hcs).key q n := by
          rcases hkind with h | h | h
          · exact absurd h hn
          · rw [hd] at h
            cases h
          · exact h
        have hl := (Disk.isDir_join.mp (hr.symm.trans hdir)).2
        exact (layoutOf root cs hcs).apart hk (hi.2.dir hl)
    · rintro r ⟨hdir, hnot⟩
      cases r with
      | error e => exact ret fun w hw => ⟨hw.1, hw.2.1.1⟩
      | ok x =>
          cases x with
          | dir =>
              cases hd : dirs n with
              | true => exact ret fun w hw => ⟨hw.1, hw.2, by rw [hkey, hd]; rfl⟩
              | false => exact absurd rfl (hnot hd)
          | file i =>
              cases hd : dirs n with
              | true => exact nomatch hdir hd
              | false => exact ret fun w hw => ⟨hw.1, hw.2, by rw [hkey, hd]; rfl⟩

/-- The loop: it ends with the keys the directory had, or it fails. -/
theorem listEntries {names : List String}
    (hkinds : ∀ n ∈ names, IsTmp n ∨ dirs n = true ∨ (layoutOf root cs hcs).key q n) :
    (listed root cs hcs t id p s).Meets ((found ks).and (subspaces q dirs))
      (listEntries q (names.map q.join))
      (onResult (fun _ => looks) fun ks' =>
        (found ks).and (fact (ks' = LightningNode.kept names dirs))) := by
  induction names with
  | nil => exact ret fun w hw => ⟨hw.1, hw.2.1, rfl⟩
  | cons n names ih =>
      have hrest := ih fun m hm => hkinds m (List.mem_cons_of_mem _ hm)
      have hkind := hkinds n List.mem_cons_self
      refine StoreAssertions.andThen (dirEntryIsKey hq hkind) fun b => of_fact ?_
      intro hb
      rw [kept_cons]
      cases hkey : isKey dirs n with
      | false =>
          rw [hkey] at hb
          subst hb
          exact hrest
      | true =>
          rw [hkey] at hb
          subst hb
          have hn : ¬ IsTmp n ∧ dirs n = false := by
            simpa only [isKey, Bool.and_eq_true, Bool.not_eq_true', decide_eq_false_iff_not]
              using hkey
          have hk : (layoutOf root cs hcs).key q n := by
            rcases hkind with h | h | h
            · exact absurd h hn.1
            · rw [hn.2] at h
              cases h
            · exact h
          have hname : getKeyFromDirEntry (q.join n) q = .ok n := by
            have hv := isValidKvstoreStr_iff.mpr ((layoutOf root cs hcs).key_valid hk)
            simp only [getKeyFromDirEntry, PathBuf.stripPrefix_join, hv, if_true]
          rw [if_pos rfl, if_pos rfl, hname]
          refine StoreAssertions.andThen hrest fun keys => of_fact ?_
          intro hkeys
          exact ret fun w hw => ⟨hw.1, hw.2, congrArg (n :: ·) hkeys⟩

end

section

variable (hacc : Accepts p s none)
  (hspaces : (layoutOf root cs hcs).Spaces (getDestDirPath root p s))

include hacc hspaces

/-- Where there is no directory the list takes effect, and finds no keys. -/
theorem pathExists :
    (listed root cs hcs t id p s).Meets before (pathExists (getDestDirPath root p s))
      fun b => if b then before.and (isDir (getDestDirPath root p s)) else found [] := by
  generalize hq : getDestDirPath root p s = q
  rw [hq] at hspaces
  refine Discipline.Assertions.act (atLook q) ?_ ?_
  · rintro w r w' hi ⟨hrun, hb⟩ ⟨v, hs, rfl⟩
    have hr : r = w.disk.access q := by
      cases hs
      rfl
    have hd : v.disk = w.disk := by
      cases hs
      rfl
    cases r with
    | ok x =>
        obtain ⟨hi', hg, hrun', hb'⟩ :=
          quiet (a := .disk (.metadata q)) (P := before) hi hrun hb rfl nofun hs hd
        refine ⟨hi', hg, hrun', hb', ?_⟩
        have hdir : w.disk.IsDir q := by
          rcases hi.2.access_space hspaces with h | h
          · exact h
          · rw [h] at hr
            cases hr
        rw [Shared.afterAny_quiet hrun rfl]
        exact (hd ▸ hdir : v.disk.IsDir q)
    | error e =>
        have hsnap : (Call.list p s).snapshot root (.disk (.metadata q)) (.error e) = true :=
          decide_eq_true hq.symm
        obtain ⟨hi', hg, hrun', ha, hl⟩ := snapshot hi hrun hb hsnap nofun hs hd
        refine ⟨hi', hg, hrun', hl, [], List.nodup_nil, .nil, ?_⟩
        rw [Stored.step_list_accepted hacc] at ha
        have hnot : ¬ w.disk.IsDir (getDestDirPath root p s) := by
          intro hdir
          rw [hq, Disk.IsDir, ← hr] at hdir
          cases hdir
        rwa [Stores.keysOf_nil hi.1.stored hnot] at ha
  · intro r
    cases r with
    | ok x => exact ret fun _ h => h
    | error e => exact ret fun _ h => h

omit hspaces in
/-- The reading of the directory: here the list takes effect. -/
theorem readDir :
    (listed root cs hcs t id p s).Meets
      (before.and (isDir (getDestDirPath root p s)))
      (StoreProg.os (.readDir (getDestDirPath root p s)))
      (onResult (fun _ => looks)
        (atRead (layoutOf root cs hcs) (getDestDirPath root p s))) := by
  generalize hq : getDestDirPath root p s = q
  refine StoreAssertions.os ?_
  rintro w r w' hi ⟨hrun, hb, hdir⟩ ⟨v, hs, rfl⟩
  have hr : r = .ok ((w.disk.dirs q).now.keys.map q.join) := by
    cases hs
    rw [DiskAct.readDir_dir hdir]
  have hd : v.disk = w.disk := by
    cases hs
    exact DiskAct.readDir_disk _ _
  subst hr
  obtain ⟨hi', hg, hrun', ha, hl⟩ := snapshot (a := .disk (.readDir q)) hi hrun hb rfl nofun hs hd
  refine ⟨hi', hg, hrun', (w.disk.dirs q).now.keys,
    fun n => decide ((w.disk.dirs q).now.lookup n = some .dir), rfl, ?_, ?_, ?_⟩
  · intro n hn
    obtain ⟨x, hx⟩ := Option.isSome_iff_exists.mp (AList.lookup_isSome.mpr hn)
    cases x with
    | dir => exact Or.inr (Or.inl (decide_eq_true hx))
    | file i => exact (hi.2.file hx).elim (fun h => Or.inr (Or.inr h)) fun h => Or.inl h.2
  · rw [Stored.step_list_accepted hacc] at ha
    have hperm := Stores.keysOf hi.1.stored hi.2 hacc (hq ▸ hdir)
    rw [hq] at hperm
    exact ⟨hl, _, (AList.keys_nodup _).filter _, hperm, ha⟩
  · intro n hn
    rw [Shared.afterAny_snapshot hrun rfl]
    have hsub := Disk.isDir_join.mpr ⟨hdir, of_decide_eq_true hn⟩
    exact (hd ▸ hsub : v.disk.IsDir (q.join n))

theorem listIn :
    (listed root cs hcs t id p s).Meets before (listIn (getDestDirPath root p s))
      (onResult (fun _ => looks) found) := by
  refine bind _ (pathExists hacc hspaces) fun b => ?_
  cases b with
  | false => exact ret fun _ h => h
  | true =>
      refine StoreAssertions.andThen (readDir hacc) fun entries => ?_
      rintro w hi ⟨hrun, names, dirs, rfl, hkinds, hfound, hsub⟩
      refine StoreAssertions.andThen (K := listed root cs hcs t id p s) (listEntries rfl hkinds)
        (fun ks => of_fact fun hks => ?_) w hi ⟨hrun, hfound, hsub⟩
      subst hks
      exact StoreAssertions.collected fun _ h => h

end

/-- A whole list. -/
theorem program (hc : Call.list p s ∈ cs) :
    (listed root cs hcs t id p s).Meets before ((Call.list p s).program root)
      answered := by
  by_cases hacc : (Call.list p s).Accepted
  · have hspaces : (layoutOf root cs hcs).Spaces (getDestDirPath root p s) :=
      layoutOf_spaces hc hacc rfl
    rw [Call.program_accepted _ hacc]
    refine bind _ (listIn hacc hspaces) fun r => ret ?_
    rintro w ⟨hrun, hw⟩
    refine ⟨hrun, ?_⟩
    cases r with
    | error e => exact ⟨False.elim, fun _ => hw⟩
    | ok ks =>
        obtain ⟨_, ks', hnodup, hperm, ha⟩ := hw
        exact answered_of_fits (ha.fits ⟨hnodup, hperm⟩ trivial)
  · obtain ⟨r, hr, hprog⟩ := Call.program_rejected root hacc
    rw [hprog]
    refine ret fun w hw => ⟨hw.1, ?_⟩
    exact answered_of_fits (Trace.Before.fits hw.2 hr.not_good)

end Listing

/-! ## Runs -/

/-- Every call, beside any others. -/
theorem program_answered {t : T} {id : Nat} {s : Shared T} {c : Call} (hc : c ∈ cs)
    (hi : (linearlyAll root cs hcs).inv s) (hrun : s.trace.running t = some (id, c))
    (hb : s.trace.Before id) (hno : ∀ n, (id, n) ∉ s.tickets) :
    (linearlyAll root cs hcs).Safe t
      (fun r s => ∃ id c, s.trace.running t = some (id, c) ∧
        (Assertion.answered r : Assertion T id).holds s) (c.program root) s := by
  by_cases hkey : c.key.isSome
  · have hsafe := StoreAssertions.Linearly.program hkey s hi.1 ⟨hrun, hb, hno⟩
    refine Discipline.Safe.mono _ ?_ (linearlyAll_safe hkey hrun (Call.program_allowed hc) hsafe)
    rintro r s' _ ⟨hrun', hfits⟩
    exact ⟨_, _, hrun', Assertion.answered_of_fits hfits⟩
  · cases c with
    | list p q =>
        have hsafe := Listing.program hc s hi ⟨hrun, hb⟩
        exact Discipline.Safe.mono _ (fun r s' _ h => ⟨_, _, h.1, h.2⟩) hsafe
    | _ => exact absurd rfl hkey

theorem writeIds_reply {tr : Trace T Call Reply Answer} {t : T} {r : Reply} :
    writeIds (tr.reply t r).events = writeIds tr.events := by
  unfold Trace.reply
  cases tr.running t <;> rfl

/-- A call returns. -/
theorem linearlyAll_finish {s : Shared T} {t : T} {r : Reply} {tr : Trace T Call Reply Answer}
    (hi : (linearlyAll root cs hcs).inv s) (hrun : ∀ u, tr.running u = s.trace.running u)
    (hevents : tr.events = s.trace.events)
    (hc : (tr.reply t r).Consistent storeObject Reply.Agrees Reply.Good)
    (horder : storeObject.after tr.order = storeObject.after s.trace.order)
    (hsame : ∀ {u id c}, u ≠ t → s.trace.running u = some (id, c) →
      Trace.SameEntries id s.trace tr) :
    (linearlyAll root cs hcs).inv { s with trace := tr.reply t r } ∧
      (linearlyAll root cs hcs).Guar t s { s with trace := tr.reply t r } := by
  refine ⟨⟨⟨hi.1.links, hc, ?_, ?_⟩, hi.2⟩, trivial, ?_⟩
  · show Stores root (storeObject.after tr.order) s.disk
    rw [horder]
    exact hi.1.stored
  · show Ticketed s.world.memory.tmpFileCounter s.tickets (writeIds (tr.reply t r).events)
    rw [writeIds_reply, hevents]
    exact hi.1.ticketed
  · intro u hut
    refine ⟨(Function.update_of_ne hut ..).trans (hrun u), ?_⟩
    intro id c hu
    exact ⟨hsame hut hu, fun _ => Iff.rfl, .refl _⟩

def listingOutline (root : PathBuf) (cs : List Call) (hcs : Apart cs) :
    Outline (storeWithLists T root cs) where
  toDiscipline := linearlyAll root cs hcs
  idle t s := s.trace.running t = none
  post t r s := ∃ id c, s.trace.running t = some (id, c) ∧
    (Assertion.answered r : Assertion T id).holds s
  idle_stable := by
    intro t s s' _ _ h hn
    exact h.1.trans hn
  start_ok := by
    rintro t s p s' ⟨c, hc, rfl, rfl, hfew⟩ hi _
    have hrun : (s.trace.invoke t c).running t = some (s.trace.events.length, c) :=
      Function.update_self ..
    have hsub : writeIds s.trace.events ⊆ writeIds (s.trace.invoke t c).events :=
      fun x hx => ((List.sublist_cons_self _ _).filterMap _).subset hx
    have hi' : (linearlyAll root cs hcs).inv { s with trace := s.trace.invoke t c } :=
      ⟨⟨hi.1.links, hi.1.consistent.invoke t c, hi.1.stored, hi.1.ticketed.more hsub hfew⟩, hi.2⟩
    have hbefore : (s.trace.invoke t c).Before s.trace.events.length :=
      fun e he => hi.1.consistent.fresh (hi.1.consistent.linearizes.invoked e he)
    have hno : ∀ n, (s.trace.events.length, n) ∉ s.tickets := by
      intro n hn
      obtain ⟨c', hc'⟩ := mem_writeIds (hi.1.ticketed.issued hn)
      exact hi.1.consistent.fresh hc' rfl
    refine ⟨hi', ⟨trivial, ?_⟩, program_answered hc hi' hrun hbefore hno⟩
    intro u hut
    exact ⟨Function.update_of_ne hut .., fun _ => .of_eq (.refl _) rfl rfl⟩
  finish_ok := by
    rintro t r s s' hf hi ⟨id, c, hrun, hgood, hlooks⟩
    rcases hf with ⟨hg, rfl⟩ | ⟨hg, rfl⟩
    · have hc := hi.1.consistent.reply hrun (hgood hg)
      obtain ⟨hi', hguar⟩ := linearlyAll_finish hi (fun _ => rfl) rfl hc rfl
        fun _ _ => .of_order rfl
      exact ⟨hi', hguar, Function.update_self ..⟩
    · -- a list that failed is taken out of the order first
      have hretract := hi.1.consistent.retract hrun (hlooks hg)
      have hrun' : (s.trace.retract t).running t = some (id, c) := by
        rw [Trace.running_retract hrun]
        exact hrun
      have hc := hretract.reply hrun' ((Trace.before_retract hrun).fits hg)
      obtain ⟨hi', hguar⟩ := linearlyAll_finish hi (congrFun (Trace.running_retract hrun))
        (Trace.events_retract hrun) hc
        (by rw [Trace.order_retract hrun, Object.after_without (hlooks hg)])
        fun hut hu => .retract hrun hi.1.consistent hut hu
      exact ⟨hi', hguar, Function.update_self ..⟩
  env_ok := nofun
  crash_ok := nofun

omit [DecidableEq T] in
/-- The keys of a namespace, after the calls of the order. -/
theorem mem_keysOf_after {p s k : String} {order : List (Entry Call Answer)} :
    k ∈ (storeObject.after order).keysOf p s ↔
      Accepts p s (some k) ∧ (latest (p, s, k) order).isSome := by
  rw [Stored.mem_keysOf]
  constructor
  · intro hm
    have hacc := accepted_of_mem hm
    exact ⟨hacc, after_lookup hacc order ▸ AList.lookup_isSome.mpr hm⟩
  · rintro ⟨hacc, hs⟩
    exact AList.lookup_isSome.mp (after_lookup hacc order ▸ hs)

/-- All four calls on one store, by any number of callers that keep keys and
sub-namespaces apart, and in whatever order their steps come, can be put in an
order that agrees with real time, in which a read returns what the latest write of
its key stored, and a list exactly the keys of its namespace that were written and
not removed since; a call that returned another error is not in it. -/
theorem store_linearizable (hcs : Apart cs)
    {cfg : Config T StoreAct StoreAct.Answer Reply (Shared T)}
    (h : (storeWithLists T root cs).Reach (.idle .start) cfg) :
    ∃ order, Linearizes storeObject Reply.Agrees Reply.Good cfg.state.trace.events order ∧
      (∀ newer older n p s k x, order = newer ++ ⟨n, .read p s k, x⟩ :: older →
        Accepts p s (some k) → x = (latest (p, s, k) older).elim .notFound .value) ∧
      ∀ newer older n p s x, order = newer ++ ⟨n, .list p s, x⟩ :: older → Accepts p s none →
        ∃ ks, x = .keys ks ∧ ∀ k, k ∈ ks ↔
          Accepts p s (some k) ∧ (latest (p, s, k) older).isSome := by
  have hstart : (linearlyAll (T := T) root cs hcs).inv .start :=
    ⟨Linear.start, Layout.Entries.fresh⟩
  have hinit := Outline.Inv.init (listingOutline root cs hcs) hstart fun _ => rfl
  have hinv := (hinit.reach _ h).1.state
  have hl := hinv.1.consistent.linearizes
  refine ⟨_, hl, ?_, ?_⟩
  · intro newer older n p s k x hsplit hacc
    have hanswer := Object.Legal.answer (hsplit ▸ hl.legal)
    exact hanswer.trans (congrArg Prod.fst (Stored.step_read hacc (after_lookup hacc older)))
  · intro newer older n p s x hsplit hacc
    have hanswer := Object.Legal.answer (hsplit ▸ hl.legal)
    exact ⟨_, hanswer.trans (Stored.step_list_accepted hacc _), fun _ => mem_keysOf_after⟩

/-- The actions of the task `t`, executable. -/
def playAny (root : PathBuf) (t : T) (a : StoreAct) (s : Shared T) : Option (a.Answer × Shared T) :=
  (storeStep a s.world).map fun x => (x.1, s.afterAny root t a x.1 x.2)

theorem playAny_exec (t : T) (a : StoreAct) (s : Shared T) (r : a.Answer) (s' : Shared T)
    (h : playAny root t a s = some (r, s')) : (storeWithLists T root cs).exec t a s r s' := by
  obtain ⟨⟨_, w⟩, hs, he⟩ := Option.map_eq_some_iff.mp h
  cases he
  exact ⟨w, hs, rfl⟩

/-- A list overlaps a write and returns first, without the temporary file and
without the key; a second one has the key before the write has returned. -/
theorem store_linearizable_overlap :
    (storeWithLists Bool (.base "data")
      [.write "" "" "manager" [7], .list "" ""]).Can (.idle .start)
      fun cfg =>
        cfg.state.trace.events = [.reply 3 (.keys (.ok ["manager"])), .invoke 3 (.list "" ""),
          .reply 1 (.keys (.ok [])), .invoke 1 (.list "" ""),
          .invoke 0 (.write "" "" "manager" [7])] ∧
        ∃ order, Linearizes storeObject Reply.Agrees Reply.Good cfg.state.trace.events order ∧
          (∀ newer older n p s k x, order = newer ++ ⟨n, .read p s k, x⟩ :: older →
            Accepts p s (some k) → x = (latest (p, s, k) older).elim .notFound .value) ∧
          ∀ newer older n p s x, order = newer ++ ⟨n, .list p s, x⟩ :: older → Accepts p s none →
            ∃ ks, x = .keys ks ∧ ∀ k, k ∈ ks ↔
              Accepts p s (some k) ∧ (latest (p, s, k) older).isSome := by
  have hrun : (storeWithLists Bool (.base "data") [.write "" "" "manager" [7], .list "" ""]).Can
      (.idle .start) fun cfg =>
        cfg.state.trace.events = [.reply 3 (.keys (.ok ["manager"])), .invoke 3 (.list "" ""),
          .reply 1 (.keys (.ok [])), .invoke 1 (.list "" ""),
          .invoke 0 (.write "" "" "manager" [7])] := by
    refine .step (.start (t := true) rfl ⟨_, .head _, rfl, rfl, by decide⟩) ?_
    refine .acts (t := true) (playAny_exec true) 6 ?_
    refine .step (.start (t := false) rfl ⟨_, .tail _ (.head _), rfl, rfl, by decide⟩) ?_
    refine .acts (t := false) (playAny_exec false) 3 ?_
    refine .step (.finish (t := false) rfl (Or.inl ⟨trivial, rfl⟩)) ?_
    refine .acts (t := true) (playAny_exec true) 4 ?_
    refine .step (.start (t := false) rfl ⟨_, .tail _ (.head _), rfl, rfl, by decide⟩) ?_
    refine .acts (t := false) (playAny_exec false) 4 ?_
    refine .step (.finish (t := false) rfl (Or.inl ⟨trivial, rfl⟩)) ?_
    exact .here rfl
  obtain ⟨cfg, hr, hevents⟩ := hrun
  exact ⟨cfg, hr, hevents, store_linearizable (by decide) hr⟩

end LightningNode
