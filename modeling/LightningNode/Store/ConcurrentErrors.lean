/-
# `LightningNode.Store.ConcurrentErrors` — calls side by side, and the errors they return

Any number of valid calls on one store, their steps in any order, with no fault
of the disk.  What a call has found out (`Findings`) stays so whatever the others
do: no call takes a directory away, and nobody else touches its temporary file.
So of all its calls of the operating system, these alone can go wrong:

    Unraced     `remove_file`, or `metadata` of a listed entry: another call has
                removed the file since it was seen
    Separate    a path that is in use both as a key and as a namespace, or for the
                temporary files of two writes

Where these conditions hold, no call returns an error but a read of a key that is
not there.
-/
import LightningNode.Lib.Typestate
import LightningNode.Store.LockDiscipline
import LightningNode.Store.Steps

namespace LightningNode

open Conc StoreProg FilesystemStore

/-! ## The system -/

/-- A call with its reply, and whether there was no file at the path it opened last. -/
structure Returned where
  call : Call
  absent : Bool
  reply : Reply

/-- The call succeeded, or is a read that found no file. -/
def Returned.Fine : Returned → Prop
  | ⟨.read _ _ _, _, .bytes (.ok _)⟩ => True
  | ⟨.read _ _ _, absent, .bytes (.error e)⟩ => e = .os .notFound ∧ absent = true
  | ⟨.write _ _ _ _, _, .unit (.ok _)⟩ => True
  | ⟨.remove _ _ _ _, _, .unit (.ok _)⟩ => True
  | ⟨.list _ _, _, .keys (.ok _)⟩ => True
  | _ => False

/-- The disk and the memory of a store, the call each task made last, the files
created and not yet renamed, and what has been returned. -/
structure Service (T : Type) where
  world : World
  calls : T → Option Call
  absent : T → Bool
  created : List PathBuf
  returned : List Returned

namespace Service

variable {T : Type}

abbrev disk (s : Service T) : Disk := s.world.disk

/-- A new store on the disk `d`. -/
def start (d : Disk) : Service T := ⟨⟨d, .new⟩, fun _ => none, fun _ => false, [], []⟩

variable [DecidableEq T]

/-- `t` has performed `a`, answered by `r`. -/
def after (s : Service T) (t : T) (a : StoreAct) (r : a.Answer) (w : World) : Service T where
  world := w
  calls := s.calls
  absent :=
    match a with
    | .disk (.openRead p) => Function.update s.absent t (s.disk.contents p).isNone
    | _ => s.absent
  created :=
    match a, r with
    | .disk (.create p), .ok _ => p :: s.created
    | .disk (.rename p _), .ok _ => s.created.erase p
    | _, _ => s.created
  returned := s.returned

end Service

/-- Valid calls on one store below `root`, in any order. -/
def service (T : Type) [DecidableEq T] (root : PathBuf) :
    System T StoreAct StoreAct.Answer Reply (Service T) where
  exec t a s r s' := ∃ w, storeStep a s.world = some (r, w) ∧ s' = s.after t a r w
  start t s p s' := ∃ c : Call, c.Accepted ∧ p = c.program root ∧
    s' = { s with calls := Function.update s.calls t (some c) }
  finish t r s s' := ∃ c, s.calls t = some c ∧
    s' = { s with returned := ⟨c, s.absent t, r⟩ :: s.returned }
  env _ _ := False
  crash _ _ := False

/-! ## The condition -/

/-- Nobody has taken away what the call `c` has seen. -/
def Unraced (root : PathBuf) (d : Disk) : Call → DiskAct → Prop
  | _, .removeFile p => d.access p ≠ .error .notFound
  | .list p s, .metadata x =>
      x ≠ getDestDirPath root p s → d.access x ≠ .error .notFound
  | _, _ => True

/-- The path of a namespace leads to a directory if anywhere, the path of a key to
a file; so does that of a temporary file, and no other write has `created` it and
still uses it; and a file that is listed has the name of a key. -/
def Separate (root : PathBuf) (d : Disk) (created : List PathBuf) : Call → DiskAct → Prop
  | _, .mkdir q => d.IsDir q ∨ d.access q = .error .notFound
  | _, .create p => p ∉ created ∧ ((d.contents p).isSome ∨ d.access p = .error .notFound)
  | _, .rename _ p | _, .removeFile p | .read _ _ _, .openRead p =>
      (d.contents p).isSome ∨ d.access p = .error .notFound
  | .list p s, .metadata x =>
      if x = getDestDirPath root p s then d.contents x = none
      else (d.contents x).isSome → ∃ n ∈ x.fileName, ValidName n
  | _, _ => True

instance (d : Disk) (p : PathBuf) : Decidable (d.IsDir p) := inferInstanceAs (Decidable (_ = _))

instance (root : PathBuf) (d : Disk) (c : Call) (x : DiskAct) : Decidable (Unraced root d c x) := by
  unfold Unraced
  split <;> infer_instance

instance (root : PathBuf) (d : Disk) (created : List PathBuf) (c : Call) (x : DiskAct) :
    Decidable (Separate root d created c x) := by
  unfold Separate
  split <;> infer_instance

/-- The steps the condition is about: calls of the operating system. -/
def Clear {T : Type} (root : PathBuf) (t : T) : (a : StoreAct) → Service T → a.Answer → Prop
  | .disk x, s, _ => ∀ c ∈ s.calls t, Unraced root s.disk c x ∧ Separate root s.disk s.created c x
  | _, _, _ => True

/-! ## What stays on the disk -/

/-- A temporary file is at `p`. -/
def TmpAt (d : Disk) (p : PathBuf) : Prop :=
  ∃ q n i, p = .join q n ∧ IsTmp n ∧ d.access p = .ok (.file i)

/-- Directories stay, and every temporary file but `mine`. -/
structure Spares (mine : Option PathBuf) (d d' : Disk) : Prop where
  dir : ∀ {q}, d.IsDir q → d'.IsDir q
  tmp : ∀ {p}, mine ≠ some p → TmpAt d p → TmpAt d' p

namespace Spares

variable {mine : Option PathBuf} {d d' : Disk} {q : PathBuf} {n k : String} {i : Ino} {f : File}

theorem refl : Spares mine d d := ⟨id, fun _ => id⟩

/-- It is enough that the entries of temporary files stay. -/
theorem of_lookup (hdir : ∀ {q}, d.IsDir q → d'.IsDir q)
    (htmp : ∀ {q n i}, IsTmp n → d.IsDir q → mine ≠ some (.join q n) →
      (d.dirs q).now.lookup n = some (.file i) → (d'.dirs q).now.lookup n = some (.file i)) :
    Spares mine d d' where
  dir := hdir
  tmp := by
    intro p hp ht
    obtain ⟨q, n, i, rfl, hn, ha⟩ := ht
    obtain ⟨hq, hl⟩ := Disk.access_join.mp ha
    exact ⟨q, n, i, rfl, hn, Disk.access_join.mpr ⟨hdir hq, htmp hn hq hp hl⟩⟩

theorem setFile : Spares mine d (d.setFile i f) :=
  of_lookup (fun hq => (Disk.isDir_setFile d i f _).mpr hq) fun _ _ _ hl => hl

theorem syncDir : Spares mine d (d.syncDir q) := by
  refine of_lookup ?_ ?_
  · intro q' hq
    rw [Disk.IsDir, Disk.access_congr fun r => Disk.now_syncDir d q r]
    exact hq
  · intro q' n i _ _ _ hl
    rwa [Disk.now_syncDir]

theorem addDir (hq : d.IsDir q) (hn : (d.dirs q).now.lookup n = none) :
    Spares mine d (d.addDir q n) := by
  refine of_lookup (fun h => (Disk.isDir_addDir hq hn _).mpr (.inl h)) ?_
  intro q' n' i _ hq' _ hl
  have hnew : q' ≠ .join q n := by
    rintro rfl
    rw [Disk.isDir_join, hn] at hq'
    cases hq'.2
  have hother : ¬ (q' = q ∧ n' = n) := by
    rintro ⟨rfl, rfl⟩
    rw [hn] at hl
    cases hl
  rwa [Disk.lookup_addDir, if_neg hnew, if_neg hother]

theorem addFile (hn : (d.dirs q).now.lookup n = none) : Spares mine d (d.addFile q n) := by
  have he : Disk.Entry d (d.addFile q n) q n (some (.file d.next)) := Disk.entry_addFile
  refine of_lookup (fun h => (he.isDir (by simp [hn]) nofun _).mpr h) ?_
  intro q' n' i _ _ _ hl
  have hother : ¬ (q' = q ∧ n' = n) := by
    rintro ⟨rfl, rfl⟩
    rw [hn] at hl
    cases hl
  rwa [he, if_neg hother]

theorem move (hs : (d.dirs q).now.lookup n = some (.file i))
    (hd : (d.dirs q).now.lookup k ≠ some .dir) (hk : ¬ IsTmp k) :
    Spares (some (.join q n)) d (d.change q (.move n k (.file i))) := by
  refine of_lookup (fun h => (Disk.isDir_move hs hd _).mpr h) ?_
  intro q' n' j hn' _ hmine hl
  rw [Disk.now_change]
  split
  · rename_i hqq
    subst hqq
    have hnk : n' ≠ k := fun h => hk (h ▸ hn')
    have hnn : n' ≠ n := fun h => hmine (h ▸ rfl)
    rw [DirOp.lookup_move, if_neg hnk, if_neg hnn]
    exact hl
  · exact hl

theorem del (hk : ¬ IsTmp k) (hl : (d.dirs q).now.lookup k = some (.file i)) :
    Spares mine d (d.change q (.del k)) := by
  have he : Disk.Entry d (d.change q (.del k)) q k none := Disk.entry_del
  refine of_lookup (fun h => (he.isDir (by simp [hl]) nofun _).mpr h) ?_
  intro q' n' j hn' _ _ hl'
  have hother : ¬ (q' = q ∧ n' = k) := by
    rintro ⟨_, rfl⟩
    exact hk hn'
  rwa [he, if_neg hother]

end Spares

/-! ## What a call has found out -/

/-- Directories that are there, the temporary file the call has made, and whether
it found no file at the path it opened last. -/
structure Findings where
  call : Call
  dirs : List PathBuf
  tmp : Option PathBuf
  absent : Bool

namespace Findings

def after (h : Findings) : (a : StoreAct) → a.Answer → Findings
  | .disk (.mkdir q), .ok _ | .disk (.mkdir q), .error .alreadyExists
  | .disk (.metadata q), .ok .dir => { h with dirs := q :: h.dirs }
  | .disk (.removeFile (.join q _)), .ok _ => { h with dirs := q :: h.dirs }
  | .disk (.create p), .ok _ => { h with tmp := some p }
  | .disk (.rename _ _), .ok _ => { h with tmp := none }
  | .disk (.openRead _), .ok (.file _) => { h with absent := false }
  | .disk (.openRead _), _ => { h with absent := true }
  | _, _ => h

/-- What a call makes sure of before it acts. -/
def permits (h : Findings) : StoreAct → Prop
  | .disk (.create p) => ∃ q n, p = .join q n ∧ IsTmp n ∧ q ∈ h.dirs
  | .disk (.rename p p') => ∃ q n k, p = .join q n ∧ p' = .join q k ∧ ¬ IsTmp k ∧ h.tmp = some p
  | .disk (.removeFile p) => ∃ q k, p = .join q k ∧ ¬ IsTmp k
  | .disk (.writeAll f _) | .disk (.readToEnd f) => ∃ i, f = .file i
  | .disk (.readDir q) => q ∈ h.dirs
  | _ => True

/-- What it may then be answered. -/
def answers (root : PathBuf) (h : Findings) : (a : StoreAct) → a.Answer → Prop
  | .disk (.mkdir q), r => r = .ok () ∨ r = .error .alreadyExists ∨
      r = .error .notFound ∧ ∃ q' n, q = .join q' n ∧ q' ∉ h.dirs
  | .disk (.create _), r => ∃ i, r = .ok (.file i)
  | .disk (.openRead p), r => (p ∈ h.dirs → r = .ok (.dir p)) ∧
      ∀ p' s' k, h.call = .read p' s' k → (∃ i, r = .ok (.file i)) ∨ r = .error .notFound
  | .disk (.writeAll _ _), r | .disk (.syncAll _), r | .disk (.rename _ _), r
  | .disk (.removeFile _), r => r = .ok ()
  | .disk (.readToEnd _), r => ∃ bytes, r = .ok bytes
  | .disk (.metadata p), r => (p ∈ h.dirs → r = .ok .dir) ∧
      ∀ p' s', h.call = .list p' s' →
        if p = getDestDirPath root p' s' then ∀ i, r ≠ .ok (.file i)
        else ∀ q n, p = .join q n → q ∈ h.dirs →
          r = .ok .dir ∨ ∃ i, r = .ok (.file i) ∧ ValidName n
  | .disk (.readDir q), r => ∃ names : List String, r = .ok (names.map q.join)
  | _, _ => True

end Findings

/-- The findings of the calls, and what follows from them; a task with no call
does nothing. -/
def finding (root : PathBuf) : Typestate StoreAct StoreAct.Answer (Option Findings) where
  permits h a := ∃ f ∈ h, f.permits a
  answers h a r := ∀ f ∈ h, f.answers root a r
  after h a r := h.map fun f => f.after a r

/-! ## The invariant -/

variable {T : Type} [DecidableEq T] {root : PathBuf}

/-- What the call of `t` has found out is so. -/
structure Findings.Valid (f : Findings) (s : Service T) (t : T) : Prop where
  call : s.calls t = some f.call
  absent : s.absent t = f.absent
  dirs : ∀ q ∈ f.dirs, s.disk.IsDir q
  tmp : ∀ p, f.tmp = some p → TmpAt s.disk p ∧ p ∈ s.created

omit [DecidableEq T] in
/-- It stays so, where its directories and its temporary file are spared. -/
theorem Findings.Valid.spared {f : Findings} {s s' : Service T} {u : T} {mine : Option PathBuf}
    (h : f.Valid s u) (hspares : Spares mine s.disk s'.disk)
    (hmine : ∀ p, f.tmp = some p → mine ≠ some p)
    (hcreated : ∀ p ∈ s.created, mine ≠ some p → p ∈ s'.created)
    (hsame : s'.calls u = s.calls u ∧ s'.absent u = s.absent u) : f.Valid s' u where
  call := hsame.1.trans h.call
  absent := hsame.2.trans h.absent
  dirs q hq := hspares.dir (h.dirs q hq)
  tmp p hp := by
    obtain ⟨htmp, hmem⟩ := h.tmp p hp
    exact ⟨hspares.tmp (hmine p hp) htmp, hcreated p hmem (hmine p hp)⟩

/-- What the calls have found out is so, and each temporary file is one call's. -/
structure TrueFindings (s : Service T) (found : T → Option Findings) : Prop where
  valid : ∀ {t f}, found t = some f → f.Valid s t
  own : ∀ {t u f g p}, found t = some f → found u = some g → f.tmp = some p →
    g.tmp = some p → t = u
  fine : ∀ x ∈ s.returned, x.Fine

namespace TrueFindings

variable {s s' : Service T} {found : T → Option Findings} {t : T} {f f' : Findings}

omit [DecidableEq T] in
theorem dirs (h : TrueFindings s found) (ht : found t = some f) {q : PathBuf} (hq : q ∈ f.dirs) :
    s.disk.IsDir q := (h.valid ht).dirs q hq

/-- The findings of `t` change, and its temporary file is none of the others'. -/
theorem update (h : TrueFindings s found) {g : Option Findings}
    (hothers : ∀ {u f}, u ≠ t → found u = some f → f.Valid s' u)
    (hmine : ∀ f, g = some f → f.Valid s' t)
    (hown : ∀ {u f p}, u ≠ t → found u = some f → f.tmp = some p →
      ∀ f', g = some f' → f'.tmp ≠ some p)
    (hfine : ∀ x ∈ s'.returned, x.Fine) : TrueFindings s' (Function.update found t g) where
  valid := by
    intro u f hu
    rcases Typestate.update_cases (P := (· = some f)) hu with ⟨rfl, hf⟩ | ⟨hne, hf⟩
    · exact hmine f hf
    · exact hothers hne hf
  own := by
    intro u v f f' p hu hv hp hp'
    rcases Typestate.update_cases (P := (· = some f)) hu with ⟨rfl, hf⟩ | ⟨hne, hf⟩
    · rcases Typestate.update_cases (P := (· = some f')) hv with ⟨rfl, _⟩ | ⟨hne, hf'⟩
      · rfl
      · exact absurd hp (hown hne hf' hp' f hf)
    · rcases Typestate.update_cases (P := (· = some f')) hv with ⟨rfl, hf'⟩ | ⟨_, hf'⟩
      · exact absurd hp' (hown hne hf hp f' hf')
      · exact h.own hf hf' hp hp'
  fine := hfine

/-- A step of `t` that spares the others: what it has found out now is so, and its
temporary file is the one it had or a new one. -/
theorem step (h : TrueFindings s found) (ht : found t = some f)
    (hspares : Spares f.tmp s.disk s'.disk) (hcall : s'.calls = s.calls ∧ f'.call = f.call)
    (habsent : s'.absent = Function.update s.absent t f'.absent)
    (hreturned : s'.returned = s.returned)
    (hdirs : ∀ q ∈ f'.dirs, q ∈ f.dirs ∨ s'.disk.IsDir q)
    (hcreated : ∀ p ∈ s.created, f.tmp ≠ some p → p ∈ s'.created)
    (htmp : ∀ p, f'.tmp = some p → TmpAt s'.disk p ∧ p ∈ s'.created)
    (hown : ∀ p, f'.tmp = some p → f.tmp = some p ∨ p ∉ s.created) :
    TrueFindings s' (Function.update found t (some f')) := by
  -- the temporary file of another is not the one that goes
  have hother : ∀ {u g p}, u ≠ t → found u = some g → g.tmp = some p → f.tmp ≠ some p := by
    intro u g p hne hu hp hf
    exact hne (h.own hu ht hp hf)
  refine h.update ?_ ?_ ?_ (hreturned ▸ h.fine)
  · intro u g hne hu
    refine (h.valid hu).spared hspares (fun p => hother hne hu) hcreated ⟨?_, ?_⟩
    · rw [hcall.1]
    · rw [habsent, Function.update_of_ne hne]
  · rintro _ ⟨⟩
    refine ⟨?_, ?_, ?_, htmp⟩
    · rw [hcall.1, hcall.2]
      exact (h.valid ht).call
    · rw [habsent, Function.update_self]
    · intro q hq
      rcases hdirs q hq with hold | hnew
      · exact hspares.dir (h.dirs ht hold)
      · exact hnew
  · rintro u g p hne hu hp _ ⟨⟩ hf'
    rcases hown p hf' with hf | hno
    · exact hother hne hu hp hf
    · exact hno ((h.valid hu).tmp p hp).2

/-- A call begins or ends: nothing has been found out, and there is no temporary file. -/
theorem reset (h : TrueFindings s found) (s' : Service T)
    (hsame : s'.disk = s.disk ∧ s'.absent = s.absent ∧ s'.created = s.created)
    (hcalls : ∀ u, u ≠ t → s'.calls u = s.calls u) (hfine : ∀ x ∈ s'.returned, x.Fine)
    {g : Option Findings} (hg : ∀ f, g = some f → f.Valid s' t ∧ f.tmp = none) :
    TrueFindings s' (Function.update found t g) := by
  obtain ⟨hdisk, habsent, hcreated⟩ := hsame
  have hspares : Spares none s.disk s'.disk := hdisk ▸ .refl
  refine h.update ?_ (fun f hf => (hg f hf).1) ?_ hfine
  · intro u f hne hu
    refine (h.valid hu).spared hspares (fun _ _ => nofun) ?_ ⟨hcalls u hne, by rw [habsent]⟩
    exact fun p hp _ => hcreated ▸ hp
  · intro u f p _ _ _ f' hf'
    rw [(hg f' hf').2]
    nofun

/-- Findings that are no more than before, or directories that are there. -/
theorem stays (h : TrueFindings s found) (ht : found t = some f) (s' : Service T)
    (hspares : Spares none s.disk s'.disk)
    (hsame : s'.calls = s.calls ∧ s'.absent = s.absent ∧ s'.created = s.created ∧
      s'.returned = s.returned)
    {qs : List PathBuf} (hqs : ∀ q ∈ qs, q ∈ f.dirs ∨ s'.disk.IsDir q) :
    TrueFindings s' (Function.update found t (some { f with dirs := qs })) := by
  obtain ⟨hcalls, habsent, hcreated, hreturned⟩ := hsame
  have hkept : Spares f.tmp s.disk s'.disk := ⟨hspares.dir, fun _ => hspares.tmp nofun⟩
  refine h.step ht hkept ⟨hcalls, rfl⟩ ?_ hreturned hqs ?_ ?_ fun p hp => .inl hp
  · rw [habsent, ← (h.valid ht).absent, Function.update_eq_self]
  · rw [hcreated]
    exact fun p hp _ => hp
  · intro p hp
    obtain ⟨htmp, hmem⟩ := (h.valid ht).tmp p hp
    exact ⟨hspares.tmp nofun htmp, hcreated ▸ hmem⟩

end TrueFindings

/-! ## What each call of the operating system is answered -/

section

variable {s : Service T} {found : T → Option Findings} {t : T} {f : Findings}

/-- `t` has performed a call of the operating system: its answer, and the disk it left. -/
def Service.performed (s : Service T) (t : T) (x : DiskAct) (y : Except ErrorKind x.Out × Disk) :
    Service T :=
  s.after t (.disk x) y.1 { s.world with disk := y.2 }

/-- Such an answer is expected, and what is found out from it is so. -/
def Expected (root : PathBuf) (s : Service T) (found : T → Option Findings) (t : T) (f : Findings)
    (x : DiskAct) (y : Except ErrorKind x.Out × Disk) : Prop :=
  f.answers root (.disk x) y.1 ∧
    TrueFindings (s.performed t x y) (Function.update found t (some (f.after (.disk x) y.1)))

namespace TrueFindings

variable (h : TrueFindings s found) (ht : found t = some f)

include h ht

theorem mkdir {q : PathBuf} (hsep : s.disk.IsDir q ∨ s.disk.access q = .error .notFound) :
    Expected root s found t f (.mkdir q) (DiskAct.perform (.mkdir q) s.disk) := by
  rcases hsep with hq | hq
  · have he : DiskAct.perform (.mkdir q) s.disk = (.error .alreadyExists, s.disk) := by
      cases q with
      | base b => rfl
      | join q n => exact DiskAct.mkdir_exists hq
    rw [he]
    refine ⟨.inr (.inl rfl), h.stays ht (s.performed t _ (_, s.disk)) .refl ⟨rfl, rfl, rfl, rfl⟩ ?_⟩
    exact List.forall_mem_cons.mpr ⟨.inr hq, fun _ => .inl⟩
  · cases q with
    | base b => cases hq
    | join q n =>
        rcases Disk.access_join_notFound.mp hq with hnone | ⟨hdir, hl⟩
        · have hnot : q ∉ f.dirs := fun hmem => nomatch hnone.symm.trans (h.dirs ht hmem)
          rw [DiskAct.mkdir_error hnone]
          refine ⟨.inr (.inr ⟨rfl, q, n, rfl, hnot⟩), ?_⟩
          exact h.stays ht (s.performed t _ (_, s.disk)) .refl ⟨rfl, rfl, rfl, rfl⟩ fun _ => .inl
        · have hspares : Spares none s.disk (s.disk.addDir q n) := .addDir hdir hl
          rw [DiskAct.mkdir_new hdir hl]
          refine ⟨.inl rfl, h.stays ht (s.performed t _ (_, _)) hspares ⟨rfl, rfl, rfl, rfl⟩ ?_⟩
          have hnew := (Disk.isDir_addDir hdir hl (.join q n)).mpr (.inr rfl)
          exact List.forall_mem_cons.mpr ⟨.inr hnew, fun _ => .inl⟩

theorem create {q : PathBuf} {n : String} (hn : IsTmp n) (hq : q ∈ f.dirs)
    (hsep : .join q n ∉ s.created ∧
      ((s.disk.contents (.join q n)).isSome ∨ s.disk.access (.join q n) = .error .notFound)) :
    Expected root s found t f (.create (.join q n))
      (DiskAct.perform (.create (.join q n)) s.disk) := by
  obtain ⟨hshared, hsep⟩ := hsep
  have hdir := h.dirs ht hq
  -- the file is there, old or new, and nobody else's
  have hmade : ∀ i d, (∀ mine, Spares mine s.disk d) → (d.dirs q).now.lookup n = some (.file i) →
      Expected root s found t f (.create (.join q n)) (.ok (.file i), d) := by
    intro i d hspares hl
    refine ⟨⟨i, rfl⟩, h.step ht (hspares _) ⟨rfl, rfl⟩ ?_ rfl (fun _ => .inl) ?_ ?_ ?_⟩
    · show s.absent = Function.update s.absent t f.absent
      rw [← (h.valid ht).absent, Function.update_eq_self]
    · exact fun p hp _ => List.mem_cons_of_mem _ hp
    · rintro p ⟨⟩
      have ha := Disk.access_join.mpr ⟨(hspares none).dir hdir, hl⟩
      exact ⟨⟨q, n, i, rfl, hn, ha⟩, List.mem_cons_self ..⟩
    · rintro p ⟨⟩
      exact .inr hshared
  rcases hsep with hsome | hnone
  · obtain ⟨bytes, hb⟩ := Option.isSome_iff_exists.mp hsome
    obtain ⟨_, i, hl, _⟩ := Disk.contents_join.mp hb
    rw [DiskAct.create_existing hdir hl]
    exact hmade i _ (fun _ => .setFile) hl
  · have hl : (s.disk.dirs q).now.lookup n = none := by
      rcases Disk.access_join_notFound.mp hnone with hno | ⟨_, hl⟩
      · cases hno.symm.trans hdir
      · exact hl
    rw [DiskAct.create_new hdir hl]
    refine hmade _ _ (fun _ => .addFile hl) ?_
    rw [Disk.entry_addFile, if_pos ⟨rfl, rfl⟩]

theorem openRead {p : PathBuf} (hsep : ∀ q n k, f.call = .read q n k →
      (s.disk.contents p).isSome ∨ s.disk.access p = .error .notFound) :
    Expected root s found t f (.openRead p) (DiskAct.perform (.openRead p) s.disk) := by
  -- whether a file is found is recorded both in the state and in the findings
  have hstep : ∀ r, (s.disk.contents p).isNone = (f.after (.disk (.openRead p)) r).absent →
      TrueFindings (s.performed t (.openRead p) (r, s.disk))
        (Function.update found t (some (f.after (.disk (.openRead p)) r))) := by
    intro r hr
    have hrest : (f.after (.disk (.openRead p)) r).call = f.call ∧
        (f.after (.disk (.openRead p)) r).dirs = f.dirs ∧
        (f.after (.disk (.openRead p)) r).tmp = f.tmp := by
      cases r with
      | error e => exact ⟨rfl, rfl, rfl⟩
      | ok x =>
          cases x with
          | file i => exact ⟨rfl, rfl, rfl⟩
          | dir q => exact ⟨rfl, rfl, rfl⟩
    refine h.step ht .refl ⟨rfl, hrest.1⟩ ?_ rfl ?_ (fun p hp _ => hp) ?_ ?_
    · rw [← hr]
      rfl
    · rw [hrest.2.1]
      exact fun _ => .inl
    · rw [hrest.2.2]
      exact (h.valid ht).tmp
    · rw [hrest.2.2]
      exact fun p => .inl
  cases ha : s.disk.access p with
  | error e =>
      rw [DiskAct.openRead_error ha]
      refine ⟨⟨?_, ?_⟩, hstep _ (by simp [Disk.contents, ha]; rfl)⟩
      · intro hmem
        cases ha.symm.trans (h.dirs ht hmem)
      · intro q n k hcall
        rcases hsep q n k hcall with hsome | hnone
        · simp [Disk.contents, ha] at hsome
        · cases ha.symm.trans hnone
          exact .inr rfl
  | ok x =>
      cases x with
      | dir =>
          rw [DiskAct.openRead_dir ha]
          refine ⟨⟨fun _ => rfl, ?_⟩, hstep _ (by simp [Disk.contents, ha]; rfl)⟩
          intro q n k hcall
          rcases hsep q n k hcall with hsome | hnone
          · simp [Disk.contents, ha] at hsome
          · cases ha.symm.trans hnone
      | file i =>
          rw [DiskAct.openRead_file ha]
          refine ⟨⟨?_, fun _ _ _ _ => .inl ⟨i, rfl⟩⟩, hstep _ (by simp [Disk.contents, ha]; rfl)⟩
          intro hmem
          cases ha.symm.trans (h.dirs ht hmem)

theorem metadata {x : PathBuf} (hrace : Unraced root s.disk f.call (.metadata x))
    (hsep : Separate root s.disk s.created f.call (.metadata x)) :
    Expected root s found t f (.metadata x) (DiskAct.perform (.metadata x) s.disk) := by
  have hlist : ∀ p' s', f.call = .list p' s' →
      if x = getDestDirPath root p' s' then ∀ i, s.disk.access x ≠ .ok (.file i)
      else ∀ q n, x = .join q n → q ∈ f.dirs →
        s.disk.access x = .ok .dir ∨ ∃ i, s.disk.access x = .ok (.file i) ∧ ValidName n := by
    intro p' s' hcall
    rw [hcall] at hrace hsep
    simp only [Separate] at hsep
    split
    · rename_i hx
      rw [if_pos hx] at hsep
      intro i hi
      simp [Disk.contents, hi] at hsep
    · rename_i hx
      rw [if_neg hx] at hsep
      rintro q n rfl hq
      have hdir := h.dirs ht hq
      cases hl : (s.disk.dirs q).now.lookup n with
      | none => exact absurd (Disk.access_join_notFound.mpr (.inr ⟨hdir, hl⟩)) (hrace hx)
      | some y =>
          have ha := Disk.access_join.mpr ⟨hdir, hl⟩
          cases y with
          | dir => exact .inl ha
          | file i =>
              obtain ⟨m, hm, hv⟩ := hsep (by simp [Disk.contents, ha])
              obtain rfl := Option.some.inj hm
              exact .inr ⟨i, ha, hv⟩
  refine ⟨⟨fun hmem => h.dirs ht hmem, hlist⟩, ?_⟩
  show TrueFindings _
    (Function.update found t (some (f.after (.disk (.metadata x)) (s.disk.access x))))
  have hsame : ∀ r, TrueFindings (s.performed t (.metadata x) (r, s.disk))
      (Function.update found t (some f)) :=
    fun r => h.stays ht (s.performed t _ (r, s.disk)) .refl ⟨rfl, rfl, rfl, rfl⟩ fun _ => .inl
  cases ha : s.disk.access x with
  | error e => exact hsame _
  | ok y =>
      cases y with
      | file i => exact hsame _
      | dir =>
          refine h.stays ht (s.performed t (.metadata x) (_, s.disk)) .refl ⟨rfl, rfl, rfl, rfl⟩ ?_
          exact List.forall_mem_cons.mpr ⟨.inr ha, fun _ => .inl⟩

theorem rename {q : PathBuf} {n k : String} (hk : ¬ IsTmp k) (hn : f.tmp = some (.join q n))
    (hsep : (s.disk.contents (.join q k)).isSome ∨ s.disk.access (.join q k) = .error .notFound) :
    Expected root s found t f (.rename (.join q n) (.join q k))
      (DiskAct.perform (.rename (.join q n) (.join q k)) s.disk) := by
  obtain ⟨⟨_, _, i, ⟨⟩, htmp, ha⟩, _⟩ := (h.valid ht).tmp _ hn
  obtain ⟨hdir, hl⟩ := Disk.access_join.mp ha
  have hkdir : (s.disk.dirs q).now.lookup k ≠ some .dir := by
    intro hkl
    have hkd : s.disk.access (.join q k) = .ok .dir := Disk.access_join.mpr ⟨hdir, hkl⟩
    rcases hsep with hsome | hnone
    · simp [Disk.contents, hkd] at hsome
    · cases hkd.symm.trans hnone
  have hne : n ≠ k := fun hnk => hk (hnk ▸ htmp)
  have hspares : Spares f.tmp s.disk (s.disk.change q (.move n k (.file i))) :=
    hn ▸ .move hl hkdir hk
  rw [DiskAct.rename_file hdir hl hkdir hne]
  refine ⟨rfl, h.step ht hspares ⟨rfl, rfl⟩ ?_ rfl (fun _ => .inl) ?_ ?_ ?_⟩
  · show s.absent = Function.update s.absent t f.absent
    rw [← (h.valid ht).absent, Function.update_eq_self]
  · intro p hp hne
    have hp' : p ≠ .join q n := by
      rintro rfl
      exact hne hn
    exact (List.mem_erase_of_ne hp').mpr hp
  -- the temporary file has gone
  · rintro p ⟨⟩
  · rintro p ⟨⟩

theorem removeFile {q : PathBuf} {k : String} (hk : ¬ IsTmp k)
    (hrace : s.disk.access (.join q k) ≠ .error .notFound)
    (hsep : (s.disk.contents (.join q k)).isSome ∨ s.disk.access (.join q k) = .error .notFound) :
    Expected root s found t f (.removeFile (.join q k))
      (DiskAct.perform (.removeFile (.join q k)) s.disk) := by
  obtain ⟨bytes, hb⟩ := Option.isSome_iff_exists.mp (hsep.resolve_right hrace)
  obtain ⟨i, ha, _⟩ := Disk.contents_eq_some.mp hb
  have hspares : Spares none s.disk (s.disk.change q (.del k)) :=
    .del hk (Disk.access_join.mp ha).2
  rw [DiskAct.removeFile_file ha]
  refine ⟨rfl, h.stays ht (s.performed t _ (_, _)) hspares ⟨rfl, rfl, rfl, rfl⟩ ?_⟩
  exact List.forall_mem_cons.mpr ⟨.inr (hspares.dir (Disk.access_join.mp ha).1), fun _ => .inl⟩

/-- Handles, and directories that are read. -/
theorem writeAll (i : Ino) (bytes : Bytes) :
    Expected root s found t f (.writeAll (.file i) bytes)
      (DiskAct.perform (.writeAll (.file i) bytes) s.disk) :=
  ⟨rfl, h.stays ht (s.performed t _ (_, _)) .setFile ⟨rfl, rfl, rfl, rfl⟩ fun _ => .inl⟩

theorem syncAll (x : Handle) :
    Expected root s found t f (.syncAll x) (DiskAct.perform (.syncAll x) s.disk) := by
  have hspares : Spares none s.disk (DiskAct.perform (.syncAll x) s.disk).2 := by
    cases x with
    | file i => exact .setFile
    | dir q => exact .syncDir
  have hanswer : (DiskAct.perform (.syncAll x) s.disk).1 = .ok () := by
    cases x with
    | file i => rfl
    | dir q => rfl
  exact ⟨hanswer, h.stays ht (s.performed t _ _) hspares ⟨rfl, rfl, rfl, rfl⟩ fun _ => .inl⟩

theorem readToEnd (i : Ino) :
    Expected root s found t f (.readToEnd (.file i))
      (DiskAct.perform (.readToEnd (.file i)) s.disk) :=
  ⟨⟨_, rfl⟩, h.stays ht (s.performed t _ (_, _)) .refl ⟨rfl, rfl, rfl, rfl⟩ fun _ => .inl⟩

theorem readDir {q : PathBuf} (hq : q ∈ f.dirs) :
    Expected root s found t f (.readDir q) (DiskAct.perform (.readDir q) s.disk) := by
  rw [DiskAct.readDir_dir (h.dirs ht hq)]
  exact ⟨⟨_, rfl⟩, h.stays ht (s.performed t _ (_, _)) .refl ⟨rfl, rfl, rfl, rfl⟩ fun _ => .inl⟩

/-- A permitted call of the operating system, where the condition holds. -/
theorem perform {x : DiskAct} (hp : f.permits (.disk x))
    (hc : Unraced root s.disk f.call x ∧ Separate root s.disk s.created f.call x) :
    Expected root s found t f x (x.perform s.disk) := by
  obtain ⟨hrace, hsep⟩ := hc
  cases x with
  | mkdir q => exact h.mkdir ht (by simpa [Separate] using hsep)
  | create p =>
      obtain ⟨q, n, rfl, hn, hq⟩ := hp
      exact h.create ht hn hq (by simpa [Separate] using hsep)
  | openRead p =>
      refine h.openRead ht ?_
      intro q n k hcall
      rw [hcall] at hsep
      exact hsep
  | writeAll y bytes =>
      obtain ⟨i, rfl⟩ := hp
      exact h.writeAll ht i bytes
  | syncAll y => exact h.syncAll ht y
  | readToEnd y =>
      obtain ⟨i, rfl⟩ := hp
      exact h.readToEnd ht i
  | rename p p' =>
      obtain ⟨q, n, k, rfl, rfl, hk, hn⟩ := hp
      exact h.rename ht hk hn (by simpa [Separate] using hsep)
  | removeFile p =>
      obtain ⟨q, k, rfl, hk⟩ := hp
      exact h.removeFile ht hk (by simpa [Unraced] using hrace) (by simpa [Separate] using hsep)
  | metadata p => exact h.metadata ht hrace hsep
  | readDir q => exact h.readDir ht hp

/-- What is not a call of the operating system finds nothing out. -/
theorem onMemory {a : StoreAct} (ha : a.OnMemory) {r : a.Answer} {w : World}
    (hs : storeStep a s.world = some (r, w)) :
    f.answers root a r ∧
      TrueFindings (s.after t a r w) (Function.update found t (some (f.after a r))) := by
  have hdisk : (s.after t a r w).disk = s.disk := storeStep_disk ha hs
  have hspares : Spares none s.disk (s.after t a r w).disk := hdisk ▸ .refl
  have hsame : TrueFindings (s.after t a r w) (Function.update found t (some f)) := by
    refine h.stays ht (s.after t a r w) hspares ⟨rfl, ?_, ?_, rfl⟩ fun _ => .inl
    · cases a with
      | disk x => exact ha.elim
      | _ => rfl
    · cases a with
      | disk x => exact ha.elim
      | _ => rfl
  cases a with
  | disk x => exact ha.elim
  | _ => exact ⟨trivial, hsame⟩

omit ht in
theorem exec {a : StoreAct} {r : a.Answer} {s' : Service T}
    (he : ((service T root).onlyIf (Clear root)).exec t a s r s')
    (hp : (finding root).permits (found t) a) :
    (finding root).answers (found t) a r ∧
      TrueFindings s' (Function.update found t ((finding root).after (found t) a r)) := by
  obtain ⟨⟨w, hs, rfl⟩, hclear⟩ := he
  obtain ⟨f, ht, hp⟩ := hp
  have hboth : f.answers root a r ∧
      TrueFindings (s.after t a r w) (Function.update found t (some (f.after a r))) := by
    cases a with
    | disk x =>
        cases hs
        exact h.perform ht hp (hclear f.call (h.valid ht).call)
    | _ => exact h.onMemory ht (by trivial) hs
  rw [show found t = some f from ht]
  refine ⟨?_, hboth.2⟩
  rintro _ ⟨⟩
  exact hboth.1

end TrueFindings

end

/-! ## What a call does with its answers -/

namespace finding

variable {root : PathBuf} {α β : Type} {f : Findings} {Q : β → Option Findings → Prop}

/-- One action, permitted, and all it may be answered. -/
theorem follows_act {a : StoreAct} {k : a.Answer → StoreProg β} (ha : f.permits a)
    (hk : ∀ r, f.answers root a r → (finding root).Follows Q (k r) (some (f.after a r))) :
    (finding root).Follows Q (.act a k) (some f) :=
  ⟨⟨f, rfl, ha⟩, fun r hr => hk r (hr f rfl)⟩

/-- `p` succeeds, and `M` holds of its value and of what is found out by then. -/
def Finds (root : PathBuf) (f : Findings) (p : StoreProg (Res α)) (M : α → Findings → Prop) :
    Prop :=
  (finding root).Follows (fun r h => ∃ x, r = .ok x ∧ ∃ f', h = some f' ∧ M x f') p (some f)

namespace Finds

variable {M : α → Findings → Prop} {N : β → Findings → Prop}

theorem ret {x : α} (h : M x f) : Finds root f (.ret (.ok x)) M := ⟨x, rfl, f, rfl, h⟩

theorem andThen {p : StoreProg (Res α)} {g : α → StoreProg (Res β)} (hp : Finds root f p M)
    (hg : ∀ x f', M x f' → Finds root f' (g x) N) : Finds root f (p.andThen g) N := by
  rw [andThen_eq]
  refine Typestate.Follows.andThen_ok (M := fun x h => ∃ f', h = some f' ∧ M x f') hp ?_
  rintro x _ ⟨f', rfl, hx⟩
  exact hg x f' hx

theorem mono {M' : α → Findings → Prop} {p : StoreProg (Res α)} (hp : Finds root f p M)
    (hM : ∀ x f', M x f' → M' x f') : Finds root f p M' := by
  refine Typestate.Follows.mono ?_ hp
  rintro _ _ ⟨x, rfl, f', rfl, hx⟩
  exact ⟨x, rfl, f', rfl, hM x f' hx⟩

/-- A call of the operating system that succeeds. -/
theorem os {x : DiskAct} {M : x.Out → Findings → Prop} (hx : f.permits (.disk x))
    (hok : ∀ r, f.answers root (.disk x) r → ∃ v, r = .ok v ∧ M v (f.after (.disk x) (.ok v))) :
    Finds root f (StoreProg.os x) M := by
  refine follows_act hx fun r hr => ?_
  obtain ⟨v, rfl, hv⟩ := hok r hr
  exact ret hv

end Finds

theorem follows_onMemory {a : StoreAct} {k : a.Answer → StoreProg β} (ha : a.OnMemory)
    (hk : ∀ r, (finding root).Follows Q (k r) (some f)) :
    (finding root).Follows Q (.act a k) (some f) := by
  cases a with
  | disk x => exact ha.elim
  | _ => exact follows_act trivial fun r _ => hk r

theorem follows_withLock {lock unlock : LockRef → StoreAct} {path : PathBuf} {body : StoreProg β}
    (hl : ∀ r, (lock r).OnMemory) (hu : ∀ r, (unlock r).OnMemory)
    (hQ : ∀ x h, Q x h → h.isSome) (hbody : (finding root).Follows Q body (some f)) :
    (finding root).Follows Q (withLock lock unlock path body) (some f) := by
  refine follows_onMemory (by trivial) fun r => follows_onMemory (hl r) fun _ => ?_
  show (finding root).Follows Q
    (body >>= fun x => act (unlock r) >>= fun _ => act (.dropLock r) >>= fun _ => pure x) (some f)
  refine Typestate.Follows.bind ?_ hbody
  intro x h hx
  obtain ⟨f', rfl⟩ := Option.isSome_iff_exists.mp (hQ x h hx)
  exact follows_onMemory (hu r) fun _ => follows_onMemory (by trivial) fun _ => hx

namespace Finds

variable {M : α → Findings → Prop}

theorem withWriteLock {path : PathBuf} {body : StoreProg (Res α)} (h : Finds root f body M) :
    Finds root f (withWriteLock path body) M := by
  refine follows_withLock (fun _ => trivial) (fun _ => trivial) ?_ h
  rintro _ _ ⟨_, _, f', rfl, _⟩
  rfl

theorem collected {x : α} (h : M x f) : Finds root f (collected x) M := by
  have hgc : (finding root).Follows (fun _ h => h = some f) garbageCollectLocks (some f) := by
    refine follows_onMemory (by trivial) fun n => ?_
    show (finding root).Follows _ (if n % 25 = 0 then act .retainLocks else pure ()) (some f)
    split
    · exact follows_onMemory (by trivial) fun _ => rfl
    · exact rfl
  show Finds root f (garbageCollectLocks >>= fun _ => pure (Except.ok x)) M
  refine Typestate.Follows.bind ?_ hgc
  rintro _ _ rfl
  exact ret h

end Finds

/-! ## Every call -/

/-- More is known than before, and no more was done. -/
structure Grows (f f' : Findings) : Prop where
  call : f'.call = f.call
  tmp : f'.tmp = f.tmp
  dirs : ∀ q ∈ f.dirs, q ∈ f'.dirs

theorem Grows.refl : Grows f f := ⟨rfl, rfl, fun _ => id⟩

theorem Grows.trans {f' f'' : Findings} (h : Grows f f') (h' : Grows f' f'') : Grows f f'' :=
  ⟨h'.call.trans h.call, h'.tmp.trans h.tmp, fun q hq => h'.dirs q (h.dirs q hq)⟩

theorem Grows.cons (f : Findings) (q : PathBuf) : Grows f { f with dirs := q :: f.dirs } :=
  ⟨rfl, rfl, fun _ => List.mem_cons_of_mem _⟩

/-- The directory `q` is known. -/
def Knows (q : PathBuf) (f : Findings) : Unit → Findings → Prop :=
  fun _ f' => Grows f f' ∧ q ∈ f'.dirs

theorem finds_existing {q : PathBuf} (hq : q ∈ f.dirs) (e : ErrorKind) :
    Finds root f (createDirAll.existing q e) (Knows q f) := by
  refine follows_act (by trivial) fun r hr => ?_
  obtain rfl : r = .ok .dir := hr.1 hq
  exact Finds.ret ⟨.cons f q, List.mem_cons_self ..⟩

/-- A `mkdir` of `q`: it is made, or there, or a directory above it is not. -/
theorem follows_mkdir {q : PathBuf} {k : Except ErrorKind Unit → StoreProg (Res Unit)}
    (hok : k (.ok ()) = .ret (.ok ()))
    (hexists : k (.error .alreadyExists) = createDirAll.existing q .alreadyExists)
    (hmissing : ∀ q' n, q = .join q' n → q' ∉ f.dirs →
      Finds root f (k (.error .notFound)) (Knows q f)) :
    Finds root f (act (.disk (.mkdir q)) >>= k) (Knows q f) := by
  refine follows_act (by trivial) fun r hr => ?_
  have hknown : q ∈ (q :: f.dirs) := List.mem_cons_self ..
  rcases hr with rfl | rfl | ⟨rfl, q', n, hq, hnot⟩
  · show Finds root { f with dirs := q :: f.dirs } (k (.ok ())) (Knows q f)
    rw [hok]
    exact Finds.ret ⟨.cons f q, hknown⟩
  · show Finds root { f with dirs := q :: f.dirs } (k (.error .alreadyExists)) (Knows q f)
    rw [hexists]
    refine (finds_existing hknown _).mono ?_
    rintro _ f' ⟨hgrows, hq⟩
    exact ⟨(Grows.cons f q).trans hgrows, hq⟩
  · exact hmissing q' n hq hnot

theorem finds_createDirAll (q : PathBuf) : Finds root f (createDirAll q) (Knows q f) := by
  induction q generalizing f with
  | base b => exact follows_mkdir rfl rfl nofun
  | join q n ih =>
      refine follows_mkdir rfl rfl fun _ _ _ _ => ?_
      refine Finds.andThen ih ?_
      rintro _ f' ⟨hgrows, hq⟩
      -- now that `q` is known, it is not what is missing
      refine Finds.mono (follows_mkdir (f := f') rfl rfl ?_) ?_
      · rintro _ _ ⟨⟩ hnot
        exact absurd hq hnot
      · rintro _ f'' ⟨hgrows', hq'⟩
        exact ⟨hgrows.trans hgrows', hq'⟩

theorem finds_syncDir {q : PathBuf} (hq : q ∈ f.dirs) :
    Finds root f (syncDir q) fun _ f' => f'.call = f.call := by
  refine Finds.andThen (M := fun x f' => f'.call = f.call) ?_ ?_
  · refine Finds.os (by trivial) fun r hr => ?_
    obtain rfl := hr.1 hq
    exact ⟨_, rfl, rfl⟩
  · intro x f' hcall
    refine Finds.os (by trivial) fun r hr => ?_
    obtain rfl : r = .ok () := hr
    exact ⟨(), rfl, hcall⟩

/-- The temporary file, made in a directory that is known. -/
theorem finds_writeTmp {q : PathBuf} {n : String} (hn : IsTmp n) (hq : q ∈ f.dirs) (buf : Bytes) :
    Finds root f (writeTmp (.join q n) buf) fun _ f' => f' = { f with tmp := some (.join q n) } := by
  refine Finds.andThen (M := fun x f' => (∃ i, x = .file i) ∧
    f' = { f with tmp := some (.join q n) }) ?_ ?_
  · refine Finds.os ⟨q, n, rfl, hn, hq⟩ fun r hr => ?_
    obtain ⟨i, rfl⟩ := hr
    exact ⟨_, rfl, ⟨i, rfl⟩, rfl⟩
  · rintro _ _ ⟨⟨i, rfl⟩, rfl⟩
    refine Finds.andThen (M := fun _ f' => f' = { f with tmp := some (.join q n) }) ?_ ?_
    · refine Finds.os ⟨i, rfl⟩ fun r hr => ?_
      obtain rfl : r = .ok () := hr
      exact ⟨(), rfl, rfl⟩
    · rintro _ _ rfl
      refine Finds.os (by trivial) fun r hr => ?_
      obtain rfl : r = .ok () := hr
      exact ⟨(), rfl, rfl⟩

theorem finds_install {q : PathBuf} {n k : String} (hk : ¬ IsTmp k) (hq : q ∈ f.dirs)
    (hn : f.tmp = some (.join q n)) :
    Finds root f (install q n k) fun _ f' => f'.call = f.call := by
  refine Finds.andThen (M := fun _ f' => f' = { f with tmp := none }) ?_ ?_
  · refine Finds.os ⟨q, n, k, rfl, rfl, hk, hn⟩ fun r hr => ?_
    obtain rfl : r = .ok () := hr
    exact ⟨(), rfl, rfl⟩
  · rintro _ _ rfl
    exact finds_syncDir hq

theorem finds_writeIn {q : PathBuf} {k : String} (hk : ValidName k) (buf : Bytes) :
    Finds root f (writeIn q k buf) fun _ f' => f'.call = f.call := by
  refine Finds.andThen (finds_createDirAll q) ?_
  rintro _ f' ⟨hgrows, hq⟩
  refine follows_onMemory (by trivial) fun n => ?_
  refine Finds.andThen (finds_writeTmp (tmpName_isTmp k n) hq buf) ?_
  rintro _ _ rfl
  have hinstall : Finds root { f' with tmp := some (.join q (tmpName k n)) }
      (install q (tmpName k n) k) fun _ f'' => f''.call = f'.call := finds_install hk.not_tmp hq rfl
  refine hinstall.withWriteLock.andThen ?_
  intro _ f'' hcall
  exact .collected (hcall.trans hgrows.call)

theorem finds_unlink {q : PathBuf} {k : String} (hk : ¬ IsTmp k) (lazily : Bool) :
    Finds root f (unlink q k lazily) fun _ f' => f'.call = f.call := by
  have hremove : Finds root f (os (.removeFile (.join q k)))
      fun _ f' => f'.call = f.call ∧ q ∈ f'.dirs := by
    refine Finds.os ⟨q, k, rfl, hk⟩ fun r hr => ?_
    obtain rfl : r = .ok () := hr
    exact ⟨(), rfl, rfl, List.mem_cons_self ..⟩
  cases lazily with
  | true => exact hremove.mono fun _ _ h => h.1
  | false =>
      refine hremove.andThen ?_
      rintro _ f' ⟨hcall, hq⟩
      exact (finds_syncDir hq).mono fun _ _ h => h.trans hcall

/-- The end of a call: its reply is fine. -/
def Ends (r : Reply) (h : Option Findings) : Prop :=
  ∃ f, h = some f ∧ Returned.Fine ⟨f.call, f.absent, r⟩

/-- A call that succeeds, with a reply that is fine. -/
theorem Finds.ends {p : StoreProg (Res α)} {reply : Res α → Reply}
    (hp : Finds root f p fun _ f' => f'.call = f.call)
    (hfine : ∀ x absent, Returned.Fine ⟨f.call, absent, reply (.ok x)⟩) :
    (finding root).Follows Ends (p >>= fun r => pure (reply r)) (some f) := by
  refine Typestate.Follows.bind ?_ hp
  rintro _ _ ⟨x, rfl, f', rfl, hf'⟩
  refine ⟨f', rfl, ?_⟩
  rw [hf']
  exact hfine x f'.absent

theorem follows_removeIn {p s k : String} (hk : ValidName k) {lazily : Bool}
    (hcall : f.call = .remove p s k lazily) (q : PathBuf) :
    (finding root).Follows Ends (removeIn q k lazily >>= fun r => pure (.unit r)) (some f) := by
  have hfine : ∀ x absent, Returned.Fine ⟨f.call, absent, .unit (.ok x)⟩ := by
    rw [hcall]
    exact fun _ _ => trivial
  refine follows_act (by trivial) fun r _ => ?_
  cases r with
  | error e => exact ⟨f, rfl, hfine () f.absent⟩
  | ok x =>
      cases x with
      | dir => exact ⟨_, rfl, hfine () f.absent⟩
      | file i =>
          have hfinds : Finds root f
              ((withWriteLock (.join q k) (unlink q k lazily)).andThen collected)
              fun _ f' => f'.call = f.call :=
            (finds_unlink hk.not_tmp lazily).withWriteLock.andThen fun _ _ h => .collected h
          exact hfinds.ends hfine

theorem follows_readIn {p s k : String} (hcall : f.call = .read p s k) (q : PathBuf) :
    (finding root).Follows Ends (readIn q k >>= fun r => pure (.bytes r)) (some f) := by
  -- the bytes of a file, or no file
  let Found (r : Res Bytes) (h : Option Findings) : Prop := ∃ f', h = some f' ∧ f'.call = f.call ∧
    ((∃ b, r = .ok b) ∨ r = .error (.os .notFound) ∧ f'.absent = true)
  have hbody : (finding root).Follows Found
      ((os (.openRead (.join q k))).andThen fun x => os (.readToEnd x)) (some f) := by
    refine follows_act (by trivial) fun r hr => ?_
    rcases hr.2 p s k hcall with ⟨i, rfl⟩ | rfl
    · refine follows_act ⟨i, rfl⟩ fun r hr => ?_
      obtain ⟨bytes, rfl⟩ := hr
      exact ⟨_, rfl, rfl, .inl ⟨bytes, rfl⟩⟩
    · exact ⟨_, rfl, rfl, .inr ⟨rfl, rfl⟩⟩
  have hlock : (finding root).Follows Found (withReadLock (.join q k)
      ((os (.openRead (.join q k))).andThen fun x => os (.readToEnd x))) (some f) := by
    refine follows_withLock (fun _ => trivial) (fun _ => trivial) ?_ hbody
    rintro _ _ ⟨f', rfl, _⟩
    rfl
  have hall : (finding root).Follows Found (readIn q k) (some f) := by
    refine Typestate.Follows.bind ?_ hlock
    rintro _ _ ⟨f', rfl, hf', ⟨b, rfl⟩ | ⟨rfl, habsent⟩⟩
    · have hdone : Finds root f' (collected b) fun _ f'' => f''.call = f'.call := .collected rfl
      refine Typestate.Follows.mono ?_ hdone
      rintro _ _ ⟨b, rfl, f'', rfl, hf''⟩
      exact ⟨f'', rfl, hf''.trans hf', .inl ⟨b, rfl⟩⟩
    · exact ⟨f', rfl, hf', .inr ⟨rfl, habsent⟩⟩
  refine Typestate.Follows.bind ?_ hall
  rintro _ _ ⟨f', rfl, hf', ⟨b, rfl⟩ | ⟨rfl, habsent⟩⟩
  · refine ⟨f', rfl, ?_⟩
    rw [hf', hcall]
    exact trivial
  · refine ⟨f', rfl, ?_⟩
    rw [hf', hcall]
    exact ⟨rfl, habsent⟩

theorem finds_listEntries {p s : String} (names : List String)
    (hcall : f.call = .list p s) (hq : getDestDirPath root p s ∈ f.dirs) :
    Finds root f (listEntries (getDestDirPath root p s)
        (names.map (getDestDirPath root p s).join)) fun _ f' => f'.call = f.call := by
  generalize hdir : getDestDirPath root p s = q at hq ⊢
  induction names generalizing f with
  | nil => exact .ret rfl
  | cons n names ih =>
      have hentry : Finds root f (dirEntryIsKey (.join q n))
          fun isKey f' => (isKey = true → ValidName n) ∧ Grows f f' := by
        unfold dirEntryIsKey
        split
        · exact .ret ⟨nofun, .refl⟩
        · refine follows_act (by trivial) fun r hr => ?_
          have hlist := hr.2 p s hcall
          rw [hdir, if_neg (PathBuf.join_ne_self q n)] at hlist
          rcases hlist q n rfl hq with rfl | ⟨i, rfl, hv⟩
          · exact Finds.ret ⟨nofun, .cons f _⟩
          · exact Finds.ret ⟨fun _ => hv, .refl⟩
      refine hentry.andThen ?_
      rintro isKey f' ⟨hkey, hgrows⟩
      -- what is left after the entry `n` was looked at
      have hrest : Finds root f' (listEntries q (names.map q.join)) fun _ f'' => f''.call = f.call :=
        (ih (hgrows.call.trans hcall) (hgrows.dirs q hq)).mono fun _ _ h => h.trans hgrows.call
      cases isKey with
      | false => exact hrest
      | true =>
          have hget : getKeyFromDirEntry (.join q n) q = .ok n := by
            simp only [getKeyFromDirEntry, PathBuf.stripPrefix_join,
              isValidKvstoreStr_iff.mpr (hkey rfl), if_true]
          simp only [hget, if_true]
          exact hrest.andThen fun _ _ h => .ret h

theorem follows_listIn {p s : String} (hcall : f.call = .list p s) :
    (finding root).Follows Ends
      (listIn (getDestDirPath root p s) >>= fun r => pure (.keys r)) (some f) := by
  have hfine : ∀ x absent, Returned.Fine ⟨f.call, absent, .keys (.ok x)⟩ := by
    rw [hcall]
    exact fun _ _ => trivial
  refine follows_act (by trivial) fun r hr => ?_
  have hlist := hr.2 p s hcall
  rw [if_pos rfl] at hlist
  cases r with
  | error e => exact ⟨f, rfl, hfine [] f.absent⟩
  | ok x =>
      cases x with
      | file i => exact absurd rfl (hlist i)
      | dir =>
          generalize hf' : f.after _ _ = f'
          have hcall' : f'.call = f.call := by
            rw [← hf']
            rfl
          have hq : getDestDirPath root p s ∈ f'.dirs := by
            rw [← hf']
            exact List.mem_cons_self ..
          have hfinds : Finds root f' ((os (.readDir (getDestDirPath root p s))).andThen
              fun entries =>
                (listEntries (getDestDirPath root p s) entries).andThen collected)
              fun _ f'' => f''.call = f'.call := by
            refine Finds.andThen (M := fun entries f'' => f'' = f' ∧ ∃ names : List String,
              entries = names.map (getDestDirPath root p s).join) ?_ ?_
            · refine Finds.os hq fun r hr => ?_
              obtain ⟨names, rfl⟩ := hr
              exact ⟨_, rfl, rfl, names, rfl⟩
            · rintro _ _ ⟨rfl, names, rfl⟩
              refine (finds_listEntries names (hcall'.trans hcall) hq).andThen ?_
              exact fun _ _ h => .collected h
          refine hfinds.ends ?_
          rw [hcall']
          exact hfine

/-- Every valid call. -/
theorem follows_program {c : Call} (ha : c.Accepted) (hcall : f.call = c) :
    (finding root).Follows Ends (c.program root) (some f) := by
  rw [Call.program_accepted _ ha]
  cases c with
  | read p s k => exact follows_readIn hcall _
  | write p s k buf =>
      refine (finds_writeIn (ha.2.2.2.2 k rfl) buf).ends ?_
      rw [hcall]
      exact fun _ _ => trivial
  | remove p s k lazily => exact follows_removeIn (ha.2.2.2.2 k rfl) hcall _
  | list p s => exact follows_listIn hcall

end finding

/-! ## Every run -/

theorem finding_kept (root : PathBuf) : (finding root).Kept ((service T root).onlyIf (Clear root))
    none finding.Ends TrueFindings where
  exec he hi hp := hi.exec he hp
  start := by
    rintro t s p s' found ⟨c, hc, rfl, rfl⟩ hi _
    refine ⟨some ⟨c, [], none, s.absent t⟩, ?_, finding.follows_program hc rfl⟩
    refine hi.reset { s with calls := Function.update s.calls t (some c) } ⟨rfl, rfl, rfl⟩ ?_
      hi.fine ?_
    · exact fun u hu => Function.update_of_ne hu ..
    · rintro _ ⟨⟩
      exact ⟨⟨Function.update_self .., rfl, nofun, nofun⟩, rfl⟩
  finish := by
    rintro t r s s' found ⟨c, hc, rfl⟩ hi ⟨f, hf, hfine⟩
    refine hi.reset { s with returned := ⟨c, s.absent t, r⟩ :: s.returned } ⟨rfl, rfl, rfl⟩
      (fun _ _ => rfl) ?_ nofun
    have hvalid := hi.valid hf
    refine List.forall_mem_cons.mpr ⟨?_, hi.fine⟩
    obtain rfl : c = f.call := Option.some.inj (hc.symm.trans hvalid.call)
    rw [hvalid.absent]
    exact hfine
  env he := he.elim
  crash hc := hc.elim

omit [DecidableEq T] in
theorem trueFindings_start (d : Disk) : TrueFindings (.start d) fun _ : T => none where
  valid := nofun
  own := nofun
  fine := nofun

/-- Its locks are held and given back as in every run of a store. -/
theorem locking_service (root : PathBuf) : locking.Kept ((service T root).onlyIf (Clear root))
    .none (fun _ h => h = .none)
    fun s hold => Tied s.world.memory hold ∧ Manned s.world.memory hold where
  exec := by
    rintro t a s r s' hold ⟨⟨w, hs, rfl⟩, _⟩ ⟨hi, hm⟩ hp
    exact ⟨trivial, hi.step hs hp, hm.step hs hp⟩
  start := by
    rintro t s p s' hold ⟨c, _, rfl, rfl⟩ hi ht
    refine ⟨.none, ?_, follows_program root c⟩
    rwa [← ht, Function.update_eq_self]
  finish := by
    rintro t x s s' hold ⟨c, _, rfl⟩ hi ht
    rwa [← ht, Function.update_eq_self]
  env he := he.elim
  crash hc := hc.elim

/-- In every run in which no call of the operating system meets what another call
has taken away, or a path in another use, every call that has returned has
succeeded, or is a read of a key that was not there when it was opened; and while
calls are under way, one of them can go on. -/
theorem no_spurious_errors {d : Disk} {c : Config T StoreAct StoreAct.Answer Reply (Service T)}
    (hr : ((service T root).onlyIf (Clear root)).Reach (.idle (.start d)) c) :
    (∀ x ∈ c.state.returned, x.Fine) ∧
      ∀ t, c.task t ≠ none → ∃ u, (service T root).CanGo c u := by
  obtain ⟨found, hc⟩ := (finding_kept root).reach (trueFindings_start d) hr
  obtain ⟨hold, hlocks⟩ := (locking_service root).reach ⟨tied_new, .new⟩ hr
  refine ⟨hc.inv.fine, ?_⟩
  intro t ht
  obtain ⟨u, ⟨x, hu⟩ | ⟨a, k, r, w, hu, hs⟩⟩ := hlocks.inv.2.next hlocks ht
  · have hends := hc.task u
    rw [hu] at hends
    obtain ⟨f, hf, _⟩ : finding.Ends x (found u) := hends
    exact ⟨u, .inl ⟨x, _, hu, f.call, (hc.inv.valid hf).call, rfl⟩⟩
  · exact ⟨u, .inr ⟨a, k, r, _, hu, w, hs, rfl⟩⟩

/-! ## Two runs -/

instance {t : T} : ∀ (a : StoreAct) (s : Service T) (r : a.Answer), Decidable (Clear root t a s r)
  | .disk _, s, _ => Option.decidableForallMem (s.calls t)
  | .fetchAddTmp, _, _ | .fetchAddGc, _, _ | .retainLocks, _, _ | .cloneLock _, _, _
  | .readLock _, _, _ | .writeLock _, _, _ | .unlockRead _, _, _ | .unlockWrite _, _, _
  | .dropLock _, _, _ => .isTrue trivial

/-- The actions of the task `t`, executable. -/
def playService (t : T) (a : StoreAct) (s : Service T) : Option (a.Answer × Service T) :=
  (storeStep a s.world).map fun x => (x.1, s.after t a x.1 x.2)

theorem playService_exec (t : T) (a : StoreAct) (s : Service T) (r : a.Answer) (s' : Service T)
    (h : playService t a s = some (r, s')) : (service T root).exec t a s r s' := by
  obtain ⟨⟨r', w⟩, hs, he⟩ := Option.map_eq_some_iff.mp h
  cases he
  exact ⟨w, hs, rfl⟩

/-- Two writes make the directory of their namespace, both at the same time, and a
key that is not there is read. -/
theorem no_spurious_errors_overlap :
    ((service Bool (.base "data")).onlyIf (Clear (.base "data"))).Can
      (.idle (.start .fresh)) fun c =>
      c.state.returned.length = 3 ∧ (∀ x ∈ c.state.returned, x.Fine) ∧
      ∀ t, c.task t ≠ none → ∃ u, (service Bool (.base "data")).CanGo c u := by
  have hrun : ((service Bool (.base "data")).onlyIf (Clear (.base "data"))).Can
      (.idle (.start .fresh)) fun c =>
      c.state.returned.length = 3 := by
    refine .step (.start (t := true) rfl ⟨.write "a" "" "x" [1], by decide, rfl, rfl⟩) ?_
    refine .step (.start (t := false) rfl ⟨.write "a" "" "y" [2], by decide, rfl, rfl⟩) ?_
    refine .acts (t := true) (System.exec_of_guarded (t := true) (playService_exec true)) 1 ?_
    refine .acts (t := false) (System.exec_of_guarded (t := false) (playService_exec false)) 20 ?_
    refine .acts (t := true) (System.exec_of_guarded (t := true) (playService_exec true)) 20 ?_
    refine .step (.finish (t := false) rfl ⟨_, rfl, rfl⟩) ?_
    refine .step (.finish (t := true) rfl ⟨_, rfl, rfl⟩) ?_
    refine .step (.start (t := true) rfl ⟨.read "a" "" "z", by decide, rfl, rfl⟩) ?_
    refine .acts (t := true) (System.exec_of_guarded (t := true) (playService_exec true)) 20 ?_
    exact .step (.finish (t := true) rfl ⟨_, rfl, rfl⟩) (.here rfl)
  obtain ⟨c, hr, hlen⟩ := hrun
  exact ⟨c, hr, hlen, no_spurious_errors hr⟩

/-- Two tasks remove a key that a third lists: the slower remove and the list fail. -/
theorem removed_meanwhile :
    (service ℕ (.base "data")).Can (.idle (.start .fresh)) fun c =>
      c.state.disk.contents (.join (.base "data") "manager") = none ∧
      (∃ x ∈ c.state.returned, x.call = .remove "" "" "manager" false ∧
        x.reply = .unit (.error (.os .notFound)) ∧ ¬ x.Fine) ∧
      ∃ x ∈ c.state.returned, x.call = .list "" "" ∧ ¬ x.Fine := by
  refine .step (.start (t := 0) rfl ⟨.write "" "" "manager" [7], by decide, rfl, rfl⟩) ?_
  refine .acts (t := 0) (playService_exec 0) 20 ?_
  refine .step (.finish (t := 0) rfl ⟨_, rfl, rfl⟩) ?_
  refine .step (.start (t := 0) rfl ⟨.list "" "", by decide, rfl, rfl⟩) ?_
  refine .step (.start (t := 1) rfl ⟨.remove "" "" "manager" true, by decide, rfl, rfl⟩) ?_
  refine .step (.start (t := 2) rfl ⟨.remove "" "" "manager" false, by decide, rfl, rfl⟩) ?_
  -- the directory is read, and both removes have seen the file
  refine .acts (t := 0) (playService_exec 0) 2 ?_
  refine .acts (t := 2) (playService_exec 2) 1 ?_
  refine .acts (t := 1) (playService_exec 1) 20 ?_
  refine .step (.finish (t := 1) rfl ⟨_, rfl, rfl⟩) ?_
  refine .acts (t := 2) (playService_exec 2) 20 ?_
  refine .step (.finish (t := 2) rfl ⟨_, rfl, rfl⟩) ?_
  refine .acts (t := 0) (playService_exec 0) 20 ?_
  refine .step (.finish (t := 0) rfl ⟨_, rfl, rfl⟩) (.here ⟨rfl, ?_, ?_⟩)
  · exact ⟨_, .tail _ (.head _), rfl, rfl, id⟩
  · exact ⟨_, .head _, rfl, id⟩

end LightningNode
