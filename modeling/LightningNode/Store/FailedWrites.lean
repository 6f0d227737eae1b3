/-
# `LightningNode.Store.FailedWrites` — what a write that fails leaves to be seen

One write, any of whose calls of the operating system may fail, and after it any
reads and lists.  What it leaves behind:

    temporary file    not seen: the extension hides it from a list, its dot from a read
    directories       seen, if they are in the data directory: a read of the key of
                      that name finds a directory
    the new data      seen: the rename is done before the directory is opened and synced

`failed_write_seen_iff` says that nothing else is, so that a write which made no
directory, but for the data directory and those above it, and came to no rename
leaves everything as it was.
-/
import LightningNode.Store.Instances
import LightningNode.Store.Links
import LightningNode.Store.Visible

namespace LightningNode

open Conc StoreProg FilesystemStore

/-! ## A write that may fail -/

/-- A store, and what the operating system has granted a call on it: the new
directories, the rename. -/
structure Attempt where
  world : World
  made : List PathBuf
  renamed : Bool

namespace Attempt

abbrev disk (s : Attempt) : Disk := s.world.disk

def start (w : World) : Attempt := ⟨w, [], false⟩

/-- `a` was answered by `r`, and left `w`. -/
def after (s : Attempt) : (a : StoreAct) → a.Answer → World → Attempt
  | .disk (.mkdir p), .ok _, w => { s with world := w, made := p :: s.made }
  | .disk (.rename _ _), .ok _, w => { s with world := w, renamed := true }
  | _, _, w => { s with world := w }

end Attempt

/-- A call that has no effect when it fails. -/
def Traceless : DiskAct → Prop
  | .mkdir _ | .rename _ _ => True
  | _ => False

/-- An action is performed, or fails: with no effect, with its effect, or with a
part of the data written. -/
inductive AttemptExec : (a : StoreAct) → Attempt → a.Answer → Attempt → Prop
  | done {a : StoreAct} {s : Attempt} {r : a.Answer} {w : World} :
      storeStep a s.world = some (r, w) → AttemptExec a s r (s.after a r w)
  | fault {x : DiskAct} {s : Attempt} {e : ErrorKind} {d : Disk} : x.Fault s.disk d →
      (Traceless x → d = s.disk) →
      AttemptExec (.disk x) s (.error e) { s with world := { s.world with disk := d } }

/-! ## Its steps -/

section

variable {s s' s'' : Attempt} {q r : PathBuf} {n : String} {α β : Type}

/-- A call of the operating system leaves the memory alone. -/
theorem AttemptExec.memory {x : DiskAct} {r : Except ErrorKind x.Out}
    (he : AttemptExec (.disk x) s r s') : s'.world.memory = s.world.memory := by
  cases he with
  | fault _ _ => rfl
  | done hs =>
      cases hs
      unfold Attempt.after
      split <;> rfl

theorem Ends.memory {p : StoreProg α} (hp : p.Every fun a => ∃ x, a = .disk x) :
    ∀ {s : Attempt}, Ends AttemptExec p s fun _ s' => s'.world.memory = s.world.memory := by
  induction p with
  | ret x => exact .ret rfl
  | act a k ih =>
      intro s
      refine .act fun r s₁ he => ?_
      obtain ⟨x, rfl⟩ := hp.1
      refine (ih r (hp.2 r)).mono fun _ s' h => ?_
      exact h.trans he.memory

/-- A call that only looks, or fails without a trace. -/
theorem AttemptExec.look {x : DiskAct} {r : Except ErrorKind x.Out}
    (he : AttemptExec (.disk x) s r s') (hx : ∀ d : Disk, (x.perform d).2 = d)
    (hflags : ∀ p p', x ≠ .mkdir p ∧ x ≠ .rename p p') (htorn : ∀ h b, x ≠ .writeAll h b) :
    s' = s := by
  cases he with
  | fault hf _ =>
      cases hf with
      | none => rfl
      | done => rw [hx]
      | torn => exact absurd rfl (htorn _ _)
  | done hs =>
      cases hs
      have hd := hx s.world.disk
      cases x with
      | mkdir p => exact absurd rfl (hflags p p).1
      | rename p p' => exact absurd rfl (hflags p p').2
      | _ => simp only [Attempt.after, hd]

/-! ## The directories -/

/-- `d'` is `d` with the directories `new` made on the way to `q`, the last one first. -/
inductive Digs (q : PathBuf) (d : Disk) : List PathBuf → Disk → Prop
  | nothing : Digs q d [] d
  | made {new : List PathBuf} {d' : Disk} {r : PathBuf} {n : String} : Digs q d new d' →
      Above q (.join r n) → d'.IsDir r → (d'.dirs r).now.lookup n = none →
      Digs q d (.join r n :: new) (d'.addDir r n)

namespace Digs

variable {d d' d'' : Disk} {new new' : List PathBuf} {x root : PathBuf}

theorem trans (h : Digs q d new d') (h' : Digs q d' new' d'') : Digs q d (new' ++ new) d'' := by
  induction h' with
  | nothing => exact h
  | made _ ha hr hn ih => exact .made ih ha hr hn

theorem up (h : Digs q d new d') : Digs (.join q n) d new d' := by
  induction h with
  | nothing => exact .nothing
  | made _ ha hr hn ih => exact .made ih ((Above.up .here).trans ha) hr hn

theorem links (h : Digs q d new d') (hl : Links d) : Links d' := by
  induction h with
  | nothing => exact hl
  | made _ _ _ _ ih => exact ih.addDir

theorem files (h : Digs q d new d') : d'.files = d.files := by
  induction h with
  | nothing => rfl
  | made _ _ _ _ ih => exact ih

theorem contents (h : Digs q d new d') (x : PathBuf) : d'.contents x = d.contents x := by
  induction h with
  | nothing => rfl
  | made _ _ hr hn ih => exact (Disk.contents_addDir hr hn x).trans ih

/-- The other paths lead where they did. -/
theorem access (h : Digs q d new d') (hx : x ∉ new) : d'.access x = d.access x := by
  induction h with
  | nothing => rfl
  | made _ _ hr hn ih =>
      rw [Disk.access_addDir hr hn, if_neg (List.ne_of_not_mem_cons hx),
        ih (List.not_mem_of_not_mem_cons hx)]

theorem isDir (h : Digs q d new d') (hx : x ∈ new) : d'.IsDir x := by
  induction h with
  | nothing => cases hx
  | made _ _ hr hn ih =>
      rcases List.mem_cons.mp hx with rfl | hx
      · exact (Disk.isDir_addDir hr hn _).mpr (.inr rfl)
      · exact (Disk.isDir_addDir hr hn x).mpr (.inl (ih hx))

/-- What is made is on the way to `q`, and was not there. -/
theorem new_dir (h : Digs q d new d') (hx : x ∈ new) :
    ∃ r n, x = .join r n ∧ Above q (.join r n) ∧ d.access (.join r n) = .error .notFound := by
  induction h with
  | nothing => cases hx
  | @made new d' r n hd ha hr hn ih =>
      rcases List.mem_cons.mp hx with rfl | hx
      · have hnow : d'.access (.join r n) = .error .notFound :=
          Disk.access_join_notFound.mpr (.inr ⟨hr, hn⟩)
        refine ⟨r, n, rfl, ha, ?_⟩
        rw [← hd.access ?_, hnow]
        intro hmem
        exact nomatch hnow.symm.trans (hd.isDir hmem)
      · exact ih hx

/-- The directories beside and below keep their entries. -/
theorem now (h : Digs q d new d') (hall : ∀ y ∈ new, Above root y) (hx : Above x root)
    (hnew : x ∉ new) : (d'.dirs x).now = (d.dirs x).now := by
  induction h with
  | nothing => rfl
  | @made new d' r n _ _ _ _ ih =>
      have hne : x ≠ .join r n := List.ne_of_not_mem_cons hnew
      have hr : x ≠ r := by
        rintro rfl
        exact hx.not_on_way (hall _ List.mem_cons_self)
      rw [← ih (fun y hy => hall y (List.mem_cons_of_mem _ hy)) (List.not_mem_of_not_mem_cons hnew)]
      simp only [Disk.addDir, Disk.change, Function.update_of_ne hne, Function.update_of_ne hr]

/-- A data directory that is made is empty. -/
theorem empty (h : Digs q d new d') (hall : ∀ y ∈ new, Above root y) (hroot : root ∈ new) :
    (d'.dirs root).now.keys = [] := by
  induction h with
  | nothing => cases hroot
  | @made new d' r n _ _ _ _ ih =>
      by_cases heq : root = .join r n
      · simp only [heq, Disk.addDir, Function.update_self]
        rfl
      · have hr : root ≠ r := by
          rintro rfl
          exact Above.not_below (hall _ List.mem_cons_self)
        have hold := ih (fun y hy => hall y (List.mem_cons_of_mem _ hy))
          ((List.mem_cons.mp hroot).resolve_left heq)
        rw [← hold]
        simp only [Disk.addDir, Disk.change, Function.update_of_ne heq, Function.update_of_ne hr]

theorem whatAt (h : Digs q d new d') (hx : x ∉ new) :
    FilesystemStore.whatAt d' x = FilesystemStore.whatAt d x := by
  simp only [FilesystemStore.whatAt, h.access hx, h.files]

/-- The data directory and those above it: that they are there now is not seen. -/
theorem seen (h : Digs q d new d') (hall : ∀ y ∈ new, Above root y) : Seen root d d' := by
  have hin : ∀ {x n}, Above x root → PathBuf.join x n ∉ new := fun hx hmem =>
    hx.not_on_way (hall _ hmem)
  intro c hc ha
  cases c with
  | read p s k =>
      have hdir : Above (getDestDirPath root p s) root := above_getDestDirPath ha.2.1
      show Reply.bytes _ = Reply.bytes _
      rw [readFile_whatAt, readFile_whatAt, h.whatAt (hin hdir)]
  | list p s =>
      have hdir : Above (getDestDirPath root p s) root := above_getDestDirPath ha.2.1
      show SameKeysAs (listing d _) (listing d' _)
      generalize getDestDirPath root p s = x at hdir
      by_cases hx : x ∈ new
      · -- the data directory: it was not there, or is empty
        obtain rfl := hdir.antisymm (hall x hx)
        obtain ⟨r, n, rfl, _, hold⟩ := h.new_dir hx
        have hnew : d'.access (.join r n) = .ok .dir := h.isDir hx
        simp only [listing, FilesystemStore.whatAt, hold, hnew, h.empty hall hx]
        exact .refl _
      · have heq : listed d' x = listed d x :=
          funext fun names => listed_congr fun n _ _ => h.whatAt (hin hdir)
        simp only [listing, h.whatAt hx, heq, h.now hall hdir hx]
        exact .refl _
  | write p s k buf => exact hc.elim
  | remove p s k lazily => exact hc.elim

end Digs

/-- What making directories on the way to `q` does to a store. -/
structure Dug (q : PathBuf) (s s' : Attempt) : Prop where
  memory : s'.world.memory = s.world.memory
  renamed : s'.renamed = s.renamed
  digs : ∃ new, s'.made = new ++ s.made ∧ Digs q s.disk new s'.disk

namespace Dug

theorem refl (q : PathBuf) (s : Attempt) : Dug q s s :=
  ⟨rfl, rfl, [], rfl, .nothing⟩

theorem trans (h : Dug q s s') (h' : Dug q s' s'') : Dug q s s'' := by
  obtain ⟨new, hm, hd⟩ := h.digs
  obtain ⟨new', hm', hd'⟩ := h'.digs
  refine ⟨h'.memory.trans h.memory, h'.renamed.trans h.renamed, new' ++ new, ?_, hd.trans hd'⟩
  rw [hm', hm, List.append_assoc]

theorem up (h : Dug q s s') : Dug (.join q n) s s' := by
  obtain ⟨new, hm, hd⟩ := h.digs
  exact ⟨h.memory, h.renamed, new, hm, hd.up⟩

theorem mkdir {r : Except ErrorKind Unit} (he : AttemptExec (.disk (.mkdir q)) s r s') :
    Dug q s s' ∧ (r = .ok () → s'.disk.IsDir q) := by
  cases he with
  | fault _ htrace =>
      obtain rfl := htrace trivial
      exact ⟨.refl q s, nofun⟩
  | done hs =>
      cases hs
      rcases DiskAct.mkdir_cases s.world.disk q with ⟨e, hm⟩ | ⟨r, n, rfl, hr, hn, hm⟩
      · rw [hm]
        exact ⟨.refl q s, nofun⟩
      · rw [hm]
        refine ⟨⟨rfl, rfl, [.join r n], rfl, .made .nothing .here hr hn⟩, fun _ => ?_⟩
        exact (Disk.isDir_addDir hr hn _).mpr (.inr rfl)

theorem existing {e : ErrorKind} :
    Ends AttemptExec (createDirAll.existing q e) s fun r s' =>
      Dug q s s' ∧ (r = .ok () → s'.disk.IsDir q) := by
  refine .act fun r s₁ he => ?_
  have hdir : r = .ok .dir → s.disk.IsDir q := by
    intro hr
    cases he with
    | fault _ _ => cases hr
    | done hs =>
        cases hs
        exact hr
  obtain rfl := he.look (fun _ => rfl) (fun _ _ => ⟨nofun, nofun⟩) fun _ _ => nofun
  cases r with
  | error e => exact .ret ⟨.refl q s₁, nofun⟩
  | ok x =>
      cases x with
      | dir => exact .ret ⟨.refl q s₁, fun _ => hdir rfl⟩
      | file i => exact .ret ⟨.refl q s₁, nofun⟩

theorem createDirAll : ∀ {s : Attempt}, Ends AttemptExec (createDirAll q) s fun r s' =>
    Dug q s s' ∧ (r = .ok () → s'.disk.IsDir q) := by
  -- what `mkdir` cannot make may be there
  have hexisting : ∀ {q : PathBuf} {s s₁ : Attempt} {e : ErrorKind}, Dug q s s₁ →
      Ends AttemptExec (createDirAll.existing q e) s₁ fun r s' =>
        Dug q s s' ∧ (r = .ok () → s'.disk.IsDir q) := fun hdug =>
    existing.mono fun _ _ h => ⟨hdug.trans h.1, h.2⟩
  induction q with
  | base b =>
      intro s
      refine .act fun r s₁ he => ?_
      obtain ⟨hdug, hdir⟩ := Dug.mkdir he
      cases r with
      | ok x => exact .ret ⟨hdug, fun _ => hdir rfl⟩
      | error e => exact hexisting hdug
  | join q n ih =>
      intro s
      refine .act fun r s₁ he => ?_
      obtain ⟨hdug, hdir⟩ := Dug.mkdir he
      cases r with
      | ok x => exact .ret ⟨hdug, fun _ => hdir rfl⟩
      | error e =>
          cases e with
          | notFound =>
              show Ends _ (LightningNode.createDirAll q |>.andThen _) s₁ _
              refine .bind _ ih fun r s₂ hup => ?_
              have hdug₂ := hdug.trans hup.1.up
              cases r with
              | error e => exact .ret ⟨hdug₂, nofun⟩
              | ok _ =>
                  refine .act fun r s₃ he => ?_
                  obtain ⟨hdug₃, hdir₃⟩ := Dug.mkdir he
                  cases r with
                  | ok x => exact .ret ⟨hdug₂.trans hdug₃, fun _ => hdir₃ rfl⟩
                  | error e => exact hexisting (hdug₂.trans hdug₃)
          | _ => exact hexisting hdug

end Dug

end

/-! ## The temporary file -/

section

variable {s s' s'' : Attempt} {q : PathBuf} {α : Type}

section

variable {d : Disk} {t : String} {i : Ino}

/-- The file of a temporary file is no key's. -/
theorem Links.sole (h : Links d) (ht : IsTmp t) (hl : (d.dirs q).now.lookup t = some (.file i)) :
    ∀ r n, ¬ IsTmp n → (d.dirs r).now.lookup n ≠ some (.file i) := by
  intro r n hn hkey
  obtain rfl := h.dir (.of_now hl) (.of_now hkey)
  obtain rfl := h.tmp ht hl (.of_now hkey)
  exact hn ht

theorem Links.new (h : Links d) : ∀ r n, ¬ IsTmp n → (d.dirs r).now.lookup n ≠ some (.file d.next) :=
  fun _ _ _ hkey => Nat.lt_irrefl _ (h.next (.of_now hkey))

theorem SameButTmp.syncAll (h : Handle) (d : Disk) :
    SameButTmp d (DiskAct.perform (.syncAll h) d).2 := by
  cases h with
  | dir p => exact .syncDir p
  | file j =>
      refine ⟨fun r n _ => ?_, fun _ => rfl⟩
      simp only [DiskAct.perform, entryAt, Disk.setFile_dirs]
      cases (d.dirs r).now.lookup n with
      | none => rfl
      | some x =>
          cases x with
          | dir => rfl
          | file m =>
              rcases eq_or_ne m j with rfl | hne
              · simp only [Disk.setFile_files_self]
              · simp only [Disk.setFile_files_ne _ _ hne]

end

/-- What has been done cannot be seen. -/
structure Hidden (s s' : Attempt) : Prop where
  made : s'.made = s.made
  renamed : s'.renamed = s.renamed
  links : Links s'.disk
  same : SameButTmp s.disk s'.disk

theorem Hidden.refl (h : Links s.disk) : Hidden s s := ⟨rfl, rfl, h, .refl _⟩

theorem Hidden.trans (h : Hidden s s') (h' : Hidden s' s'') : Hidden s s'' :=
  ⟨h'.made.trans h.made, h'.renamed.trans h.renamed, h'.links, h.same.trans h'.same⟩

/-- The temporary file `t`, of the data `b`. -/
def HasTmp (d : Disk) (q : PathBuf) (t : String) (b : Bytes) (h : Handle) : Prop :=
  ∃ i, h = .file i ∧ (d.dirs q).now.lookup t = some (.file i) ∧ (d.files i).data = b

section

variable {t : String} {buf : Bytes} {h : Handle} (ht : IsTmp t)

include ht

theorem create_hidden {r : Except ErrorKind Handle} (hl : Links s.disk)
    (he : AttemptExec (.disk (.create (.join q t))) s r s') :
    Hidden s s' ∧ ∀ h, r = .ok h → HasTmp s'.disk q t [] h := by
  -- what the call does to the disk, whether its answer says so or not
  have hdisk : ∀ {d : Disk}, d = (DiskAct.perform (.create (.join q t)) s.disk).2 →
      Links d ∧ SameButTmp s.disk d := by
    rintro _ rfl
    refine ⟨(Quiet.create q t).links hl, ?_⟩
    rcases DiskAct.create_cases s.disk q t with ⟨e, hc⟩ | ⟨_, i, hi, hc⟩ | ⟨_, hn, hc⟩
    · rw [hc]
      exact .refl _
    · rw [hc]
      exact .setFile (hl.sole ht hi)
    · rw [hc]
      exact .addFile ht hn hl.new
  cases he with
  | fault hf _ =>
      cases hf with
      | none => exact ⟨.refl hl, nofun⟩
      | done => exact ⟨⟨rfl, rfl, (hdisk rfl).1, (hdisk rfl).2⟩, nofun⟩
  | done hs =>
      cases hs
      refine ⟨⟨rfl, rfl, (hdisk rfl).1, (hdisk rfl).2⟩, ?_⟩
      intro h hok
      show HasTmp (DiskAct.perform (.create (.join q t)) s.disk).2 q t [] h
      change (DiskAct.perform (.create (.join q t)) s.disk).1 = .ok h at hok
      rcases Holds.create s.disk q t with ⟨e, hc⟩ | ⟨i, d', hc, _, hi, hf⟩
      · rw [hc] at hok
        cases hok
      · rw [hc] at hok ⊢
        cases hok
        exact ⟨i, rfl, hi, congrArg File.data hf⟩

/-- The file is written, or a part of it. -/
theorem setFile_hidden {f : File} {i : Ino} (hl : Links s.disk)
    (hi : (s.disk.dirs q).now.lookup t = some (.file i)) :
    Hidden s { s with world := { s.world with disk := s.disk.setFile i f } } :=
  ⟨rfl, rfl, hl.setFile, .setFile (hl.sole ht hi)⟩

theorem writeAll_hidden {r : Except ErrorKind Unit} (hl : Links s.disk)
    (hh : HasTmp s.disk q t [] h) (he : AttemptExec (.disk (.writeAll h buf)) s r s') :
    Hidden s s' ∧ (r = .ok () → HasTmp s'.disk q t buf h) := by
  obtain ⟨i, rfl, hi, hdata⟩ := hh
  cases he with
  | fault hf _ =>
      cases hf with
      | none => exact ⟨.refl hl, nofun⟩
      | done => exact ⟨setFile_hidden ht hl hi, nofun⟩
      | torn => exact ⟨setFile_hidden ht hl hi, nofun⟩
  | done hs =>
      cases hs
      refine ⟨setFile_hidden ht hl hi, fun _ => ⟨i, rfl, hi, ?_⟩⟩
      have hempty : (s.world.disk.files i).data = [] := hdata
      simp [Attempt.after, Attempt.disk, DiskAct.perform, hempty]

theorem syncAll_hidden {r : Except ErrorKind Unit} (hl : Links s.disk)
    (hh : HasTmp s.disk q t buf h) (he : AttemptExec (.disk (.syncAll h)) s r s') :
    Hidden s s' ∧ HasTmp s'.disk q t buf h := by
  obtain ⟨i, rfl, hi, hdata⟩ := hh
  cases he with
  | fault hf _ =>
      cases hf with
      | none => exact ⟨.refl hl, i, rfl, hi, hdata⟩
      | done =>
          refine ⟨setFile_hidden ht hl hi, i, rfl, hi, ?_⟩
          simpa [Attempt.disk, DiskAct.perform] using hdata
  | done hs =>
      cases hs
      refine ⟨setFile_hidden ht hl hi, i, rfl, hi, ?_⟩
      simpa [Attempt.after, Attempt.disk, DiskAct.perform] using hdata

theorem writeTmp_hidden (hl : Links s.disk) :
    Ends AttemptExec (writeTmp (.join q t) buf) s fun r s' =>
      Hidden s s' ∧ (r = .ok () → ∃ h, HasTmp s'.disk q t buf h) := by
  refine .act fun r s₁ he => ?_
  obtain ⟨h₁, hcreate⟩ := create_hidden ht hl he
  cases r with
  | error e => exact .ret ⟨h₁, nofun⟩
  | ok h =>
      refine .act fun r s₂ he => ?_
      obtain ⟨h₂, hwrite⟩ := writeAll_hidden ht h₁.links (hcreate h rfl) he
      cases r with
      | error e => exact .ret ⟨h₁.trans h₂, nofun⟩
      | ok _ =>
          refine .act fun r s₃ he => ?_
          obtain ⟨h₃, hsync⟩ := syncAll_hidden ht h₂.links (hwrite rfl) he
          have hall := (h₁.trans h₂).trans h₃
          cases r with
          | error e => exact .ret ⟨hall, nofun⟩
          | ok _ => exact .ret ⟨hall, fun _ => ⟨h, hsync⟩⟩

end

/-! ## The rename -/

/-- The temporary file has taken the place of the key `k`, and the directory may
have been synced. -/
structure Moved (q : PathBuf) (t k : String) (buf : Bytes) (s s' : Attempt) : Prop where
  made : s'.made = s.made
  renamed : s'.renamed = true
  disk : ∃ i, (s.disk.dirs q).now.lookup t = some (.file i) ∧ (s.disk.files i).data = buf ∧
    s.disk.IsDir q ∧ (s.disk.dirs q).now.lookup k ≠ some .dir ∧
    SameButTmp (s.disk.change q (.move t k (.file i))) s'.disk

section

variable {t k : String} {buf : Bytes} {h : Handle}

theorem rename_moved (htk : t ≠ k) (hh : HasTmp s.disk q t buf h) {r : Except ErrorKind Unit}
    (he : AttemptExec (.disk (.rename (.join q t) (.join q k))) s r s') :
    (s' = s ∧ r ≠ .ok ()) ∨ (r = .ok () ∧ Moved q t k buf s s') := by
  obtain ⟨i, rfl, hi, hdata⟩ := hh
  cases he with
  | fault _ htrace =>
      obtain rfl := htrace trivial
      exact .inl ⟨rfl, nofun⟩
  | done hs =>
      cases hs
      rcases DiskAct.rename_cases s.disk q htk with ⟨e, hr⟩ | ⟨hq, j, hj, hk, hr⟩
      · refine .inl ?_
        rw [show (DiskAct.perform _ s.world.disk) = _ from hr]
        exact ⟨rfl, nofun⟩
      · refine .inr ?_
        obtain rfl : i = j := by simpa [hi] using hj
        rw [show (DiskAct.perform _ s.world.disk) = _ from hr]
        exact ⟨rfl, rfl, rfl, i, hi, hdata, hq, hk, .refl _⟩

theorem syncDir_moved (h : Moved q t k buf s s') :
    Ends AttemptExec (syncDir q) s' fun _ s'' => Moved q t k buf s s'' := by
  refine .act fun r s₁ he => ?_
  obtain rfl := he.look (fun d => DiskAct.openRead_disk d q) (fun _ _ => ⟨nofun, nofun⟩)
    fun _ _ => nofun
  cases r with
  | error e => exact .ret h
  | ok f =>
      refine .act fun r s₂ he => ?_
      have h₂ : Moved q t k buf s s₂ := by
        obtain ⟨i, hi, hdata, hq, hk, hsame⟩ := h.disk
        cases he with
        | fault hf _ =>
            cases hf with
            | none => exact h
            | done =>
                exact ⟨h.made, h.renamed, i, hi, hdata, hq, hk, hsame.trans (.syncAll f _)⟩
        | done hs =>
            cases hs
            exact ⟨h.made, h.renamed, i, hi, hdata, hq, hk, hsame.trans (.syncAll f _)⟩
      cases r with
      | error e => exact .ret h₂
      | ok _ => exact .ret h₂

theorem install_moved (htk : t ≠ k) (hh : HasTmp s.disk q t buf h) :
    Ends AttemptExec (install q t k) s fun _ s' =>
      s' = s ∨ Moved q t k buf s s' := by
  refine .act fun r s₁ he => ?_
  rcases rename_moved htk hh he with ⟨rfl, hr⟩ | ⟨rfl, hmoved⟩
  · cases r with
    | ok _ => exact absurd rfl hr
    | error e => exact .ret (.inl rfl)
  · exact (syncDir_moved hmoved).mono fun _ _ h => .inr h

end

/-! ## The whole call -/

/-- An action on the memory. -/
theorem AttemptExec.onMemory {a : StoreAct} {r : a.Answer} (ha : a.OnMemory)
    (he : AttemptExec a s r s') : ∃ m, storeStep a s.world = some (r, ⟨s.disk, m⟩) ∧
      s' = { s with world := ⟨s.disk, m⟩ } := by
  cases he with
  | fault _ _ => exact ha.elim
  | @done _ _ _ w hs =>
      obtain ⟨d, m⟩ := w
      obtain rfl : d = s.disk := storeStep_disk ha hs
      refine ⟨m, hs, ?_⟩
      cases a with
      | disk x => exact ha.elim
      | _ => rfl

/-- The lock `ref` is held for writing, and no other is held. -/
def HeldBy (ref : LockRef) (m : StoreMemory) : Prop :=
  m.held ref = ⟨0, true⟩ ∧ ∀ r, r ≠ ref → m.held r = ⟨0, false⟩

theorem heldBy_writeLock {w w' : World} {ref : LockRef} (hm : w.memory.Quiet)
    (h : storeStep (.writeLock ref) w = some ((), w')) : HeldBy ref w'.memory := by
  simp only [storeStep] at h
  split at h <;> cases h
  constructor
  · simp [StoreMemory.setLock, hm ref]
  · intro r hr
    simp [StoreMemory.setLock, hr, hm r]

theorem quiet_unlockWrite {w w' : World} {ref : LockRef} (hm : HeldBy ref w.memory)
    (h : storeStep (.unlockWrite ref) w = some ((), w')) : w'.memory.Quiet := by
  cases h
  intro r
  rcases eq_or_ne r ref with rfl | hr
  · simp [StoreMemory.setLock, hm.1]
  · simp [StoreMemory.setLock, hr, hm.2 r hr]

/-- A lock is taken and given back around `body`, which does not touch the memory. -/
theorem Ends.withWriteLock {path : PathBuf} {body : StoreProg α} {Q : α → Attempt → Prop}
    (hm : s.world.memory.Quiet) (hevery : body.Every fun a => ∃ x, a = .disk x)
    (hQ : ∀ {x s'} (m : StoreMemory), Q x s' → Q x { s' with world := ⟨s'.disk, m⟩ })
    (hbody : ∀ m : StoreMemory, Ends AttemptExec body { s with world := ⟨s.disk, m⟩ } Q) :
    Ends AttemptExec (withWriteLock path body) s fun x s' =>
      s'.world.memory.Quiet ∧ Q x s' := by
  refine .act fun ref s₁ he => ?_
  obtain ⟨m₁, hs₁, rfl⟩ := he.onMemory (by trivial)
  have hquiet : m₁.Quiet := by
    cases hs₁
    exact hm.cloneLock path
  refine .act fun _ s₂ he => ?_
  obtain ⟨m₂, hs₂, rfl⟩ := he.onMemory (by trivial)
  have hheld : HeldBy ref m₂ := heldBy_writeLock (w := ⟨s.disk, m₁⟩) hquiet hs₂
  show Ends _ (body >>= fun x => act (.unlockWrite ref) >>= fun _ => act (.dropLock ref) >>=
    fun _ => pure x) _ _
  refine .bind (fun x s' => HeldBy ref s'.world.memory ∧ Q x s') ?_ fun x s₃ h₃ => ?_
  · intro x s' hr
    exact ⟨(Ends.memory hevery x s' hr).symm ▸ hheld, hbody m₂ x s' hr⟩
  refine .act fun _ s₄ he => ?_
  obtain ⟨m₄, hs₄, rfl⟩ := he.onMemory (by trivial)
  have hquiet₄ : m₄.Quiet := quiet_unlockWrite h₃.1 hs₄
  refine .act fun _ s₅ he => ?_
  obtain ⟨m₅, hs₅, rfl⟩ := he.onMemory (by trivial)
  have hquiet₅ : m₅.Quiet := by
    cases hs₅
    exact hquiet₄
  exact .ret ⟨hquiet₅, hQ m₅ (hQ m₄ h₃.2)⟩

theorem Ends.collected {x : α} (hm : s.world.memory.Quiet) {Q : Attempt → Prop}
    (hQ : ∀ m : StoreMemory, Q { s with world := ⟨s.disk, m⟩ }) :
    Ends AttemptExec (FilesystemStore.collected x) s fun _ s' => s'.world.memory.Quiet ∧ Q s' := by
  refine .act fun n s₁ he => ?_
  obtain ⟨m₁, hs₁, rfl⟩ := he.onMemory (by trivial)
  have hquiet : m₁.Quiet := by
    cases hs₁
    exact hm
  show Ends _ ((if n % 25 = 0 then act .retainLocks else pure ()) >>= fun _ => pure (Except.ok x)) _ _
  split
  · refine .act fun _ s₂ he => ?_
    obtain ⟨m₂, hs₂, rfl⟩ := he.onMemory (by trivial)
    have hquiet₂ : m₂.Quiet := by
      cases hs₂
      exact hquiet
    exact .ret ⟨hquiet₂, hQ m₂⟩
  · exact .ret ⟨hquiet, hQ m₁⟩

/-- What the call does to a store: it digs for its directory, and where it has
that, nothing that can be seen, or the rename. -/
structure Wrote (q : PathBuf) (k : String) (buf : Bytes) (s s' : Attempt) : Prop where
  quiet : s'.world.memory.Quiet
  steps : ∃ s₁, Dug q s s₁ ∧ (s' = s₁ ∨ s₁.disk.IsDir q ∧ (Hidden s₁ s' ∨
    ∃ s₂ t, IsTmp t ∧ Hidden s₁ s₂ ∧ Moved q t k buf s₂ s'))

theorem Hidden.withMemory (h : Hidden s s') (m : StoreMemory) :
    Hidden s { s' with world := ⟨s'.disk, m⟩ } :=
  ⟨h.made, h.renamed, h.links, h.same⟩

theorem Moved.withMemory {t k : String} {buf : Bytes} (h : Moved q t k buf s s') (m : StoreMemory) :
    Moved q t k buf s { s' with world := ⟨s'.disk, m⟩ } :=
  ⟨h.made, h.renamed, h.disk⟩

theorem writeIn_wrote {k : String} {buf : Bytes} (hk : ValidName k) (hl : Links s.disk)
    (hm : s.world.memory.Quiet) :
    Ends AttemptExec (writeIn q k buf) s fun _ s' => Wrote q k buf s s' := by
  have hdisk : ∀ x, OutsideLock x → ∃ y, StoreAct.disk x = .disk y := fun x _ => ⟨x, rfl⟩
  refine .bind _ Dug.createDirAll fun r s₁ h₁ => ?_
  obtain ⟨hdug, hdir⟩ := h₁
  have hquiet : s₁.world.memory.Quiet := hdug.memory.symm ▸ hm
  obtain ⟨_, _, hdigs⟩ := hdug.digs
  have hlinks := hdigs.links hl
  cases r with
  | error e => exact .ret ⟨hquiet, s₁, hdug, .inl rfl⟩
  | ok _ =>
      refine .act fun n s₂ he => ?_
      obtain ⟨m₂, hs₂, rfl⟩ := he.onMemory (by trivial)
      have hquiet₂ : m₂.Quiet := by
        cases hs₂
        exact hquiet
      have ht := tmpName_isTmp k n
      have htk : tmpName k n ≠ k := fun h => hk.not_tmp (h ▸ ht)
      show Ends _ ((writeTmp (.join q (tmpName k n)) buf).andThen _) _ _
      refine .bind (fun r s₃ => s₃.world.memory = m₂ ∧ Hidden s₁ s₃ ∧
        (r = .ok () → ∃ h, HasTmp s₃.disk q (tmpName k n) buf h)) ?_ fun r s₃ h₃ => ?_
      · intro r s₃ hr
        refine ⟨Ends.memory (every_writeTmp hdisk _ _) r s₃ hr, ?_⟩
        obtain ⟨hhid, htmp⟩ :=
          writeTmp_hidden ht (s := { s₁ with world := ⟨s₁.disk, m₂⟩ }) hlinks r s₃ hr
        exact ⟨⟨hhid.made, hhid.renamed, hhid.links, hhid.same⟩, htmp⟩
      obtain ⟨hmem, hhid, htmp⟩ := h₃
      have hquiet₃ : s₃.world.memory.Quiet := hmem.symm ▸ hquiet₂
      cases r with
      | error e => exact .ret ⟨hquiet₃, s₁, hdug, .inr ⟨hdir rfl, .inl hhid⟩⟩
      | ok _ =>
          obtain ⟨h, htmp⟩ := htmp rfl
          refine .bind (fun _ s' => s'.world.memory.Quiet ∧
            (Hidden s₁ s' ∨ ∃ s₂ t, IsTmp t ∧ Hidden s₁ s₂ ∧ Moved q t k buf s₂ s')) ?_
            fun r s₄ h₄ => ?_
          · refine Ends.withWriteLock hquiet₃ ?_ ?_ fun m => ?_
            · exact every_andThen (every_os ⟨_, rfl⟩) fun _ =>
                every_andThen (every_os ⟨_, rfl⟩) fun _ => every_os ⟨_, rfl⟩
            · rintro x s' m (hs | ⟨s₂, t, ht, hh, hmoved⟩)
              · exact .inl (hs.withMemory m)
              · exact .inr ⟨s₂, t, ht, hh, hmoved.withMemory m⟩
            · refine (install_moved (s := { s₃ with world := ⟨s₃.disk, m⟩ }) htk htmp).mono ?_
              rintro x s' (rfl | hmoved)
              · exact .inl (hhid.withMemory m)
              · exact .inr ⟨_, _, ht, hhid.withMemory m, hmoved⟩
          · cases r with
            | error e => exact .ret ⟨h₄.1, s₁, hdug, .inr ⟨hdir rfl, h₄.2⟩⟩
            | ok _ =>
                refine (Ends.collected (Q := fun s' => Hidden s₁ s' ∨
                    ∃ s₂ t, IsTmp t ∧ Hidden s₁ s₂ ∧ Moved q t k buf s₂ s') h₄.1
                  fun m => ?_).mono fun _ s' h => ⟨h.1, s₁, hdug, .inr ⟨hdir rfl, h.2⟩⟩
                rcases h₄.2 with hs | ⟨s₂, t, ht, hh, hmoved⟩
                · exact .inl (hs.withMemory m)
                · exact .inr ⟨s₂, t, ht, hh, hmoved.withMemory m⟩

end

/-! ## What can be seen of it -/

variable {root : PathBuf} {p s k : String} {buf : Bytes} {d d' : Disk}

/-- A directory on the way to a namespace, in the data directory, has the path of
a key. -/
theorem above_key {r : PathBuf} {n : String} (ha : Accepts p s (some k))
    (h : Above (getDestDirPath root p s) (.join r n)) (hin : ¬ Above root (.join r n)) :
    ∃ p' s', Accepts p' s' (some n) ∧ r = getDestDirPath root p' s' := by
  obtain ⟨_, hps, hp, hs, _⟩ := ha
  have hempty : ValidName "" := by decide
  -- the namespace itself, as a key beside it
  have hprimary : p ≠ "" → Accepts "" "" (some p) ∧
      root = getDestDirPath root "" "" := by
    intro hne
    refine ⟨⟨fun h => hne (Option.some.inj h), fun _ => rfl, hempty, hempty, ?_⟩, ?_⟩
    · rintro _ ⟨⟩
      exact hp
    · rw [getDestDirPath_eq fun _ => rfl, if_pos rfl]
  rw [getDestDirPath_eq hps] at h
  split_ifs at h with h₁ h₂
  · exact absurd h hin
  · rcases h.of_join with heq | habove
    · cases heq
      exact ⟨"", "", hprimary h₁⟩
    · exact absurd habove hin
  · rcases h.of_join with heq | habove
    · cases heq
      refine ⟨p, "",
        ⟨fun h => h₂ (Option.some.inj h), fun h => absurd h h₁, hp, hempty, ?_⟩, ?_⟩
      · rintro _ ⟨⟩
        exact hs
      · rw [getDestDirPath_eq fun _ => rfl, if_neg h₁, if_pos rfl]
    · rcases habove.of_join with heq | habove
      · cases heq
        exact ⟨"", "", hprimary h₁⟩
      · exact absurd habove hin

/-- A directory where nothing was is seen by the read of its name. -/
theorem not_seen_dir {r : PathBuf} {n : String} (ha : Accepts p s (some k))
    (h : Above (getDestDirPath root p s) (.join r n)) (hin : ¬ Above root (.join r n))
    (hold : d.access (.join r n) = .error .notFound) (hdir : d'.IsDir (.join r n)) :
    ¬ Seen root d d' := by
  intro hseen
  obtain ⟨p', s', hacc, rfl⟩ := above_key ha h hin
  have hread := hseen (.read p' s' n) trivial hacc
  have hbefore : readFile d (.join (getDestDirPath root p' s') n) = .error (.os .notFound) := by
    simp only [readFile, hold]
  have hafter : readFile d' (.join (getDestDirPath root p' s') n)
      = .error (.os .isADirectory) := by
    simp only [readFile, show d'.access _ = .ok .dir from hdir]
  change Reply.bytes _ = Reply.bytes _ at hread
  rw [hbefore, hafter] at hread
  cases hread

theorem contents_entryAt {q : PathBuf} {n : String} {b : Bytes} :
    d.contents (.join q n) = some b ↔ d.IsDir q ∧ entryAt d q n = some (some b) := by
  rw [Disk.contents_join]
  refine and_congr_right fun _ => ?_
  simp only [entryAt]
  cases (d.dirs q).now.lookup n with
  | none => simp
  | some x =>
      cases x with
      | dir => simp
      | file i => simp

/-- The rename is seen, unless the key had the data before. -/
theorem seen_moved_iff {w w' : Attempt} {t : String} (ha : Accepts p s (some k))
    (hd : d.IsDir (getDestDirPath root p s)) (ht : IsTmp t) (hw : SameButTmp d w.disk)
    (hm : Moved (getDestDirPath root p s) t k buf w w') :
    Seen root d w'.disk ↔ d.contents (.join (getDestDirPath root p s) k) = some buf := by
  have hroot : ∀ {d : Disk}, d.IsDir (getDestDirPath root p s) → TmpFree d root := fun hdir =>
    tmpFree_isDir (hdir.above (above_getDestDirPath ha.2.1))
  generalize hq : getDestDirPath root p s = q at hd hm hroot
  obtain ⟨i, hti, hdata, hdir, hkdir, hsame⟩ := hm.disk
  have hk : ValidName k := ha.2.2.2.2 k rfl
  have hmoved : (w.disk.change q (.move t k (.file i))).IsDir q :=
    (Disk.isDir_move hti hkdir q).mpr hdir
  constructor
  · intro hseen
    have hread := hseen (.read p s k) trivial ha
    change Reply.bytes (readFile d _) = Reply.bytes (readFile w'.disk _) at hread
    have hnow : (w.disk.change q (.move t k (.file i))).contents (.join q k) = some buf := by
      refine contents_entryAt.mpr ⟨hmoved, ?_⟩
      simp [entryAt, Disk.now_change, hdata]
    have hnew : readFile w'.disk (.join q k) = .ok buf := by
      rw [readFile_whatAt,
        hsame.entry.whatAt (p := .join q k) ⟨tmpFree_isDir hmoved, noTmp_valid hk⟩,
        ← readFile_whatAt]
      exact readFile_ok.mpr hnow
    rw [hq, hnew] at hread
    exact readFile_ok.mp (Reply.bytes.inj hread)
  · intro hcontents
    have hkey : entryAt w.disk q k = some (some (w.disk.files i).data) := by
      rw [hw.entry q k (noTmp_valid hk), hdata]
      exact (contents_entryAt.mp hcontents).2
    have hfirst : Seen root d w.disk := hw.seen (hroot hd)
    have hsecond : Seen root w.disk _ := seen_move (hroot hdir) ht hk hti hkey
    exact (hfirst.trans hsecond).trans (hsame.seen (hroot hmoved))

/-- A write that fails leaves everything as it was to later reads and lists, if
and only if the directories it made are the data directory and those above it,
and it did not come to its rename, or the key had the same data before. -/
theorem failed_write_seen_iff {w : World} (hl : Links w.disk) (hm : w.memory.Quiet)
    (ha : Accepts p s (some k)) {e : IoError} {w' : Attempt}
    (hr : Runs AttemptExec (FilesystemStore.write root p s k buf) (.start w) (.error e) w') :
    SeeAlike root w w'.world ↔ (∀ x ∈ w'.made, Above root x) ∧
      (w'.renamed = true →
        w.disk.contents (.join (getDestDirPath root p s) k) = some buf) := by
  have hk : ValidName k := ha.2.2.2.2 k rfl
  rw [write_accepted ha] at hr
  obtain ⟨hquiet, w₁, hdug, hrest⟩ := writeIn_wrote (s := .start w) hk hl hm _ _ hr
  rw [show SeeAlike root w w'.world ↔ Seen root w.disk w'.disk from seeAlike_iff hm hquiet]
  obtain ⟨new, hmade₁, hdigs⟩ := hdug.digs
  change Digs _ w.disk new w₁.disk at hdigs
  have hmade : w'.made = new := by
    have hnew : w₁.made = new := hmade₁.trans (List.append_nil new)
    rcases hrest with rfl | ⟨_, hhid | ⟨w₂, t, _, hhid, hmoved⟩⟩
    · exact hnew
    · exact hhid.made.trans hnew
    · exact hmoved.made.trans (hhid.made.trans hnew)
  rw [hmade]
  by_cases hall : ∀ x ∈ new, Above root x
  · rw [(hdigs.seen hall).left, and_iff_right hall, ← hdigs.contents]
    rcases hrest with rfl | ⟨hdir, hhid | ⟨w₂, t, ht, hhid, hmoved⟩⟩
    · have hno : w'.renamed = false := hdug.renamed
      have hseen : Seen root w'.disk w'.disk := fun c _ _ => .refl _
      simp [hno, hseen]
    · have hno : w'.renamed = false := hhid.renamed.trans hdug.renamed
      have hroot := tmpFree_isDir (hdir.above (above_getDestDirPath ha.2.1))
      have hseen : Seen root w₁.disk w'.disk := hhid.same.seen hroot
      simp [hno, hseen]
    · rw [seen_moved_iff ha hdir ht hhid.same hmoved, hmoved.renamed]
      exact ⟨fun h _ => h, fun h => h rfl⟩
  · -- a directory made in the data directory is seen, whatever came after
    rw [iff_false_right fun h => hall h.1]
    obtain ⟨x, hx, hin⟩ := not_forall₂.mp hall
    have hnew := hdigs.isDir hx
    obtain ⟨r, n, rfl, habove, hold⟩ := hdigs.new_dir hx
    refine not_seen_dir ha habove hin hold ?_
    rcases hrest with rfl | ⟨_, hhid | ⟨w₂, t, ht, hhid, hmoved⟩⟩
    · exact hnew
    · exact (hhid.same.entry.isDir (tmpFree_isDir hnew)).mpr hnew
    · obtain ⟨i, hti, _, _, hkdir, hsame⟩ := hmoved.disk
      have hnew₂ := (hhid.same.entry.isDir (tmpFree_isDir hnew)).mpr hnew
      have hmoved₂ := (Disk.isDir_move hti hkdir (.join r n)).mpr hnew₂
      exact (hsame.entry.isDir (tmpFree_isDir hmoved₂)).mpr hmoved₂

/-! ## Two writes that fail -/

/-- The actions of a call, executable, where the calls of the operating system
that meet `fails` fail and do nothing. -/
def playFailing (fails : DiskAct → Bool) : (a : StoreAct) → Attempt → Option (a.Answer × Attempt)
  | .disk x, s =>
      if fails x then some (.error .other, s)
      else (storeStep (.disk x) s.world).map fun y => (y.1, s.after (.disk x) y.1 y.2)
  | a, s => (storeStep a s.world).map fun y => (y.1, s.after a y.1 y.2)

theorem playFailing_exec {fails : DiskAct → Bool} (a : StoreAct) (s : Attempt) (r : a.Answer)
    (s' : Attempt) (h : playFailing fails a s = some (r, s')) : AttemptExec a s r s' := by
  have hdone : ∀ {a : StoreAct} {r : a.Answer} {s' : Attempt},
      (storeStep a s.world).map (fun y => (y.1, s.after a y.1 y.2)) = some (r, s') →
      AttemptExec a s r s' := by
    intro a r s' h
    obtain ⟨⟨r', w⟩, hs, he⟩ := Option.map_eq_some_iff.mp h
    cases he
    exact .done hs
  cases a with
  | disk x =>
      simp only [playFailing] at h
      split at h
      · cases h
        exact .fault .none fun _ => rfl
      · exact hdone h
  | _ => exact hdone h

def createFails : DiskAct → Bool
  | .create _ => true
  | _ => false

def dirSyncFails : DiskAct → Bool
  | .syncAll (.dir _) => true
  | _ => false

/-- The data directory is made, the temporary file cannot be: the write has
failed, and nothing is seen of it. -/
theorem failed_create_unseen : ∃ w', Runs AttemptExec
      (FilesystemStore.write (.join (.base "/home") ".ldk") "" "" "manager" [7])
      (.start ⟨.fresh, .new⟩) (.error (.os .other)) w' ∧
    SeeAlike (.join (.base "/home") ".ldk") ⟨.fresh, .new⟩ w'.world := by
  have hrun : (run (playFailing createFails)
      (FilesystemStore.write (.join (.base "/home") ".ldk") "" "" "manager" [7])
        (.start ⟨.fresh, .new⟩)).map (fun x => (x.1, x.2.made, x.2.renamed))
      = some (.error (.os .other), [.join (.base "/home") ".ldk"], false) := by
    rfl
  obtain ⟨⟨r, w'⟩, hr, hres⟩ := Option.map_eq_some_iff.mp hrun
  obtain ⟨hres, hmade, hrenamed⟩ : r = _ ∧ w'.made = _ ∧ w'.renamed = _ := by
    simpa using hres
  subst hres
  have hruns := runs_of_run playFailing_exec hr
  refine ⟨w', hruns, ?_⟩
  refine (failed_write_seen_iff (w := ⟨.fresh, .new⟩) .fresh .new (by decide) hruns).mpr
    ⟨?_, ?_⟩
  · rw [hmade]
    exact List.forall_mem_singleton.mpr .here
  intro h
  rw [hrenamed] at h
  cases h

/-- The directory cannot be synced: the write has failed, and a read finds its data. -/
theorem failed_sync_seen : ∃ w', Runs AttemptExec
      (FilesystemStore.write (.base "data") "" "" "manager" [7]) (.start ⟨.fresh, .new⟩)
      (.error (.os .other)) w' ∧ ¬ SeeAlike (.base "data") ⟨.fresh, .new⟩ w'.world := by
  have hrun : (run (playFailing dirSyncFails)
      (FilesystemStore.write (.base "data") "" "" "manager" [7]) (.start ⟨.fresh, .new⟩)).map
        (fun x => (x.1, replies (.base "data") x.2.world [.read "" "" "manager"]))
        = some (.error (.os .other), some [.bytes (.ok [7])]) := by
    rfl
  have hbefore : replies (.base "data") ⟨.fresh, .new⟩ [.read "" "" "manager"]
      = some [.bytes (.error (.os .notFound))] := by
    rfl
  obtain ⟨⟨r, w'⟩, hr, hres⟩ := Option.map_eq_some_iff.mp hrun
  obtain ⟨hres, hafter⟩ : r = _ ∧ replies (.base "data") w'.world _ = _ := Prod.mk.inj hres
  subst hres
  refine ⟨w', runs_of_run playFailing_exec hr, ?_⟩
  intro hsee
  obtain ⟨rs, rs', hrs, hrs', halike⟩ := hsee [.read "" "" "manager"] (by simp [Call.Looks])
  rw [hbefore] at hrs
  rw [hafter] at hrs'
  cases hrs
  cases hrs'
  cases halike with
  | cons hread _ => cases hread

end LightningNode
