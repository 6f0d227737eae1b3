/-
# `LightningNode.Store.CrashAtomicity` — what is there after a power loss

However the calls, the faults of the disk, the crashes and the restarts follow
each other, a key holds after a power loss what one write of it was asked to
store, or nothing:

    Links    no file has two names
    Sound    a file that has, or may come to have, the name of a key is synced
             and holds the data of a write of that key

A temporary file becomes a key by a rename, and only once it is synced; and the
one that is truncated by the next write, when it is left over, has no other
name.  So every outcome for a directory shows whole buffers only.
-/
import LightningNode.Store.Links
import LightningNode.Store.Sequential

namespace LightningNode

open Conc FilesystemStore

/-- Any calls, any faults; the process is killed, or the power is lost. -/
def crashingStore (root : PathBuf) : System Unit StoreAct StoreAct.Answer Reply Life :=
  oneStore root (fun _ => True) True fun d d' => d' = d ∨ PowerLoss d d'

/-! ## The invariant -/

/-- The file `i` is whole, and what some write of the key `n` in `q` was to store. -/
def Written (root : PathBuf) (d : Disk) (issued : List Issue) (q : PathBuf) (n : String) (i : Ino) :
    Prop :=
  (d.files i).synced = true ∧ ∃ p s, q = getDestDirPath root p s ∧
    Accepts p s (some n) ∧ (p, s, n, (d.files i).data) ∈ issued

structure Sound (root : PathBuf) (d : Disk) (issued : List Issue) : Prop where
  links : Links d
  written : ∀ {q n i}, d.Linked q n i → ¬ IsTmp n → Written root d issued q n i

namespace Sound

variable {root : PathBuf} {d d' : Disk} {issued : List Issue} {c : Call}

theorem fresh : Sound root .fresh [] where
  links := .fresh
  written := by
    rintro q n i ⟨m, hm, hn⟩
    rw [Dir.mayBe_empty.mp hm] at hn
    cases hn

theorem issue (c : Call) (h : Sound root d issued) : Sound root d (c.issues ++ issued) where
  links := h.links
  written := by
    intro q n i hl hn
    obtain ⟨hs, p, s, hq, ha, hi⟩ := h.written hl hn
    exact ⟨hs, p, s, hq, ha, List.mem_append_right _ hi⟩

theorem powerLoss (h : Sound root d issued) (hp : PowerLoss d d') : Sound root d' issued where
  links := h.links.powerLoss hp
  written := by
    intro q n i hl hn
    obtain ⟨hs, p, s, hq, ha, hi⟩ := h.written (hp.fewer.linked hl) hn
    obtain ⟨hsync, hdata⟩ := hp.files i
    exact ⟨hsync.trans hs, p, s, hq, ha, (hdata hs).symm ▸ hi⟩

/-- Fewer names, the same files. -/
theorem fewer (h : Sound root d issued) (hlinks : Links d') (hf : d.Fewer d')
    (hfiles : d'.files = d.files) : Sound root d' issued where
  links := hlinks
  written := by
    intro q n i hl hn
    have hw := h.written (hf.linked hl) hn
    rw [Written, hfiles]
    exact hw

/-- Files may change that no key leads to. -/
theorem files (h : Sound root d issued) (hlinks : Links d') (hdirs : d'.dirs = d.dirs)
    (hfiles : ∀ {q n i}, d.Linked q n i → ¬ IsTmp n → (d.files i).synced = true →
      d'.files i = d.files i) : Sound root d' issued where
  links := hlinks
  written := by
    intro q n i hl hn
    have hl' : d.Linked q n i := by
      rw [Disk.Linked, ← hdirs]
      exact hl
    have hw := h.written hl' hn
    rw [Written, hfiles hl' hn hw.1]
    exact hw

theorem kept (root : PathBuf) (c : Call) : Kept root (Sound root) c := by
  intro d d' issued h hc he
  have hlinks := h.links.effect he
  cases he with
  | none => exact h
  | addDir _ _ => exact h.fewer hlinks .addDir rfl
  | @addFile p s k buf n _ _ _ =>
      refine ⟨hlinks, ?_⟩
      intro q n' i hl hn
      rcases Links.linked_addFile hl with hl | ⟨_, rfl, _⟩
      · have hi : i ≠ d.next := Nat.ne_of_lt (h.links.next hl)
        have hw := h.written hl hn
        rw [Written, Disk.addFile_files, Disk.setFile_files_ne d _ hi]
        exact hw
      · exact absurd (tmpName_isTmp k n) hn
  | @setFile c q t i f ht hti =>
      refine h.files hlinks rfl ?_
      intro q' n j hl hn _
      refine Disk.setFile_files_ne d f ?_
      rintro rfl
      -- all names of the temporary file are its own
      obtain rfl := h.links.dir (.of_now hti) hl
      exact hn (h.links.tmp ht hti hl ▸ ht)
  | @syncFile c i =>
      refine h.files hlinks rfl ?_
      intro q n j _ _ hs
      by_cases hij : j = i
      · subst hij
        rw [Disk.setFile_files_self, ← hs]
      · exact Disk.setFile_files_ne d _ hij
  | syncDir => exact h.fewer hlinks .syncDir rfl
  | @move p s k t buf i ha ht _ hti _ hf =>
      refine ⟨hlinks, ?_⟩
      intro q n j hl hn
      rcases Links.linked_move hl with hl | ⟨rfl, rfl, rfl⟩
      · exact h.written hl hn
      · rw [Written, Disk.change_files, hf]
        exact ⟨rfl, p, s, rfl, ha, hc (.head _)⟩
  | del _ _ => exact h.fewer hlinks .del rfl

/-- What is at a key. -/
theorem contents (h : Sound root d issued) {p s k : String} {b : Bytes}
    (hps : p = "" → s = "") (hk : ¬ IsTmp k)
    (hb : d.contents (.join (getDestDirPath root p s) k) = some b) :
    (p, s, k, b) ∈ issued := by
  obtain ⟨_, i, hl, rfl⟩ := Disk.contents_join.mp hb
  obtain ⟨_, p', s', hq, ha, hi⟩ := h.written (.of_now hl) hk
  obtain ⟨rfl, rfl⟩ := getDestDirPath_inj hps ha.2.1 hq
  exact hi

end Sound

/-! ## After a power loss -/

/-- What a new store on the disk `d` reads and lists. -/
structure Recovered (root : PathBuf) (d : Disk) (issued : List Issue) : Prop where
  value : ∀ p s k, Accepts p s (some k) → ∃ r w,
    run storeStep (read root p s k) ⟨d, .new⟩ = some (r, w) ∧
      (((∃ e, r = .error e) ∧ d.contents (.join (getDestDirPath root p s) k) = none) ∨
        ∃ b, r = .ok b ∧ (p, s, k, b) ∈ issued)
  keys : ∀ p s, Accepts p s none → ∃ r w,
    run storeStep (list root p s) ⟨d, .new⟩ = some (r, w) ∧
      ∀ ks, r = .ok ks → ∀ k ∈ ks, ¬ IsTmp k ∧ ∃ b, (p, s, k, b) ∈ issued

theorem Sound.recovered {root : PathBuf} {d : Disk} {issued : List Issue}
    (h : Sound root d issued) : Recovered root d issued where
  value := by
    intro p s k ha
    obtain ⟨r, d', m, hrun, _, rfl, hr⟩ := readIn_readFile (d := d)
      (q := getDestDirPath root p s) (k := k) .new .new
    refine ⟨r, _, by rw [read_accepted ha]; exact hrun, ?_⟩
    cases r with
    | error e =>
        refine Or.inl ⟨⟨e, rfl⟩, Option.eq_none_iff_forall_not_mem.mpr ?_⟩
        intro b hb
        rw [readFile_ok.mpr hb] at hr
        cases hr
    | ok b =>
        refine Or.inr ⟨b, rfl, ?_⟩
        exact h.contents ha.2.1 (ha.2.2.2.2 k rfl).not_tmp (readFile_ok.mp hr.symm)
  keys := by
    intro p s ha
    obtain ⟨r, d', m, hrun, _, rfl, hr⟩ := listIn_reported (d := d)
      (q := getDestDirPath root p s) .new .new
    refine ⟨r, _, by rw [list_accepted ha]; exact hrun, ?_⟩
    intro ks hks k hk
    obtain ⟨ht, hsome⟩ := hr ks hks k hk
    obtain ⟨b, hb⟩ := Option.isSome_iff_exists.mp hsome
    exact ⟨ht, b, h.contents ha.2.1 ht hb⟩

/-- At every point, also within a call, a power loss leaves of each key nothing
or the whole buffer of a write of that key issued before. -/
theorem crash_atomic {root : PathBuf}
    {cfg : Config Unit StoreAct StoreAct.Answer Reply Life}
    (h : (crashingStore root).Reach (.idle (.start .fresh)) cfg) {d : Disk}
    (hd : PowerLoss cfg.state.disk d) : Recovered root d cfg.state.issued := by
  have hsound : Sound root cfg.state.disk cfg.state.issued := by
    refine oneStore_reach (I := Sound root) (fun c _ => Sound.kept root c) (fun c => Sound.issue c)
      ?_ .fresh h
    rintro d d' issued (rfl | hp) hi
    · exact hi
    · exact hi.powerLoss hp
  exact (hsound.powerLoss hd).recovered

/-- The power is lost after the rename of the first write, before its directory
is synced. -/
theorem crash_atomic_renamed :
    (crashingStore (.base "data")).Can (.idle (.start .fresh)) fun cfg =>
      cfg.state.issued = [("", "", "manager", [7])] ∧
        ∃ d, PowerLoss cfg.state.disk d ∧ Recovered (.base "data") d cfg.state.issued := by
  have hrun : (crashingStore (.base "data")).Can (.idle (.start .fresh)) fun cfg =>
      cfg.state.issued = [("", "", "manager", [7])] := by
    refine .step (.start (t := ()) rfl ⟨.write "" "" "manager" [7], trivial, rfl, rfl⟩) ?_
    exact .acts (t := ()) play_exec 9 (.here rfl)
  obtain ⟨cfg, hr, hissued⟩ := hrun
  exact ⟨cfg, hr, hissued, _, .lost _, crash_atomic hr (.lost _)⟩

end LightningNode
