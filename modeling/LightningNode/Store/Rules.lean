/-
# `LightningNode.Store.Rules` — rules for the programs of a store

What holds between the steps of a call does not depend on the memory of its
store, on the locks above all: `StoreAssertions` asks this once, and the parts of
a call that only work on the memory have their rules from it.

    onResult             one assertion for the value, one for the error
    withLock             a part under a lock
    collected            the end of a call
    syncDir              a directory that is there
    keeps_createDirAll   directories made, whatever comes of it
    createDirAll_made    directories made where nothing stands in the way
    writeTmp_of_parts    a temporary file, from what is done to it
    writeIn_of_parts     a write, from its parts
-/
import LightningNode.Lib.Assertions
import LightningNode.Store.Steps

namespace LightningNode

open Conc StoreProg FilesystemStore

variable {T L σ α β γ : Type} {S : System T StoreAct StoreAct.Answer α σ}

/-- `M` of a value, `E` of an error. -/
def onResult (E : IoError → L) (M : β → L) : Res β → L
  | .ok x => M x
  | .error e => E e

/-- What a write does to its temporary file, by the handle `h`: the call, and the file
before and after it. -/
inductive Fills (buf : Bytes) (h : Handle) : DiskAct → File → File → Prop where
  | writeAll : Fills buf h (.writeAll h buf) ⟨[], false⟩ ⟨buf, false⟩
  | syncAll : Fills buf h (.syncAll h) ⟨buf, false⟩ ⟨buf, true⟩

theorem Fills.perform {buf : Bytes} {i : Ino} {y : DiskAct} {f g : File} {d : Disk}
    (hy : Fills buf (.file i) y f g) (hf : d.files i = f) :
    ∃ v, y.perform d = (.ok v, d.setFile i g) := by
  cases hy with
  | writeAll => exact ⟨(), DiskAct.writeAll_new hf⟩
  | syncAll => exact ⟨(), DiskAct.syncAll_file hf⟩

/-- Assertions that say nothing of the memory of the store. -/
structure StoreAssertions (D : Discipline S) (t : T) (L : Type) extends D.Assertions t L where
  memory : ∀ {P a s r s'}, a.OnMemory → a ≠ .fetchAddTmp → D.inv s → holds P s →
    S.exec t a s r s' → D.inv s' ∧ D.Guar t s s' ∧ holds P s'

namespace StoreAssertions

variable {D : Discipline S} {t : T} {K : StoreAssertions D t L} {P : L} {Q : β → L}
  {E : IoError → L} {M : γ → L} {N N' : β → L}

open Discipline.Assertions

/-- An action that leaves `P` true. -/
theorem keeping {a : StoreAct} {k : a.Answer → StoreProg β}
    (hstep : ∀ s r s', D.inv s → K.holds P s → S.exec t a s r s' →
      D.inv s' ∧ D.Guar t s s' ∧ K.holds P s')
    (hk : ∀ r, K.Meets P (k r) Q) : K.Meets P (StoreProg.act a >>= k) Q :=
  Discipline.Assertions.act (fun _ => P) hstep hk

theorem on_memory {a : StoreAct} {k : a.Answer → StoreProg β} (ha : a.OnMemory)
    (hf : a ≠ .fetchAddTmp) (hk : ∀ r, K.Meets P (k r) Q) :
    K.Meets P (StoreProg.act a >>= k) Q :=
  keeping (fun _ _ _ hi hs he => K.memory ha hf hi hs he) hk

theorem andThen {p : StoreProg (Res γ)} {f : γ → StoreProg (Res β)}
    (hp : K.Meets P p (onResult E M)) (hf : ∀ x, K.Meets (M x) (f x) (onResult E N)) :
    K.Meets P (p.andThen f) (onResult E N) := by
  refine bind _ hp ?_
  intro r
  cases r with
  | ok x => exact hf x
  | error e => exact ret fun _ h => h

theorem post {p : StoreProg (Res β)} (h : K.Meets P p (onResult E N))
    (hN : ∀ x s, K.holds (N x) s → K.holds (N' x) s) : K.Meets P p (onResult E N') := by
  refine mono h ?_
  intro r s hs
  cases r with
  | ok x => exact hN x s hs
  | error e => exact hs

/-- A call of the operating system, its error passed on. -/
theorem os {x : DiskAct} {M : x.Out → L}
    (hstep : ∀ s r s', D.inv s → K.holds P s → S.exec t (.disk x) s r s' →
      D.inv s' ∧ D.Guar t s s' ∧ K.holds (onResult E M (r.mapError .os)) s') :
    K.Meets P (StoreProg.os x) (onResult E M) := by
  refine Discipline.Assertions.act (fun r => onResult E M (r.mapError .os)) hstep ?_
  intro r
  cases r with
  | ok v => exact ret fun _ h => h
  | error e => exact ret fun _ h => h

theorem withLock {lock unlock : LockRef → StoreAct} {path : PathBuf} {body : StoreProg β}
    (hl : ∀ r, (lock r).OnMemory ∧ lock r ≠ .fetchAddTmp)
    (hu : ∀ r, (unlock r).OnMemory ∧ unlock r ≠ .fetchAddTmp) (h : K.Meets P body Q) :
    K.Meets P (FilesystemStore.withLock lock unlock path body) Q := by
  refine on_memory trivial nofun fun r => on_memory (hl r).1 (hl r).2 fun _ => bind Q h fun x => ?_
  exact on_memory (hu r).1 (hu r).2 fun _ => on_memory trivial nofun fun _ => ret fun _ hQ => hQ

theorem collected {x : β} (h : ∀ s, K.holds P s → K.holds (N x) s) :
    K.Meets P (FilesystemStore.collected x) (onResult E N) := by
  have hret : K.Meets P (.ret (.ok x)) (onResult E N) := ret h
  refine bind (fun _ => P) (on_memory trivial nofun fun n => ?_) fun _ => hret
  split
  · exact on_memory trivial nofun fun _ => ret fun _ hP => hP
  · exact ret fun _ hP => hP

/-- A directory is opened and synced. -/
theorem syncDir {q : PathBuf}
    (hopen : ∀ s r s', D.inv s → K.holds P s → S.exec t (.disk (.openRead q)) s r s' →
      (D.inv s' ∧ D.Guar t s s' ∧ K.holds P s') ∧ r = .ok (.dir q))
    (hsync : ∀ s r s', D.inv s → K.holds P s → S.exec t (.disk (.syncAll (.dir q))) s r s' →
      (D.inv s' ∧ D.Guar t s s' ∧ K.holds P s') ∧ r = .ok ()) :
    K.Meets P (FilesystemStore.syncDir q) (onResult E fun _ => P) := by
  refine look _ hopen ?_
  rintro _ rfl
  refine look _ hsync ?_
  rintro _ rfl
  exact ret fun _ h => h

/-- Making directories and looking at them keeps `P`. -/
theorem keeps_createDirAll
    (hmkdir : ∀ q s r s', D.inv s → K.holds P s → S.exec t (.disk (.mkdir q)) s r s' →
      D.inv s' ∧ D.Guar t s s' ∧ K.holds P s')
    (hmetadata : ∀ q s r s', D.inv s → K.holds P s → S.exec t (.disk (.metadata q)) s r s' →
      D.inv s' ∧ D.Guar t s s' ∧ K.holds P s') (q : PathBuf) :
    K.Meets P (createDirAll q) fun _ => P := by
  have hexisting : ∀ q e, K.Meets P (createDirAll.existing q e) fun _ => P := by
    intro q e
    refine keeping (hmetadata q) fun r => ?_
    split <;> exact ret fun _ h => h
  induction q with
  | base b =>
      refine keeping (hmkdir _) fun r => ?_
      split
      · exact ret fun _ h => h
      · exact hexisting _ _
  | join q n ih =>
      refine keeping (hmkdir _) fun r => ?_
      split
      · exact ret fun _ h => h
      · refine bind (fun _ => P) ih fun r => ?_
        cases r with
        | ok _ =>
            refine keeping (hmkdir _) fun r => ?_
            split
            · exact ret fun _ h => h
            · exact hexisting _ _
        | error e => exact ret fun _ h => h
      · exact hexisting _ _

/-- What is known after `mkdir`: `early` if the directory above is missing. -/
def afterMkdir (made early never : L) : Except ErrorKind Unit → L
  | .ok _ | .error .alreadyExists => made
  | .error .notFound => early
  | .error _ => never

/-- Where nothing stands in the way to `q`, the directories are made; `never` is
what would be the end otherwise. -/
theorem createDirAll_made {q : PathBuf} {started never : L} {made : PathBuf → L}
    (hnever : ∀ s, ¬ K.holds never s)
    (hbase : ∀ b s r s', D.inv s → K.holds started s →
      S.exec t (.disk (.mkdir (.base b))) s r s' →
      (D.inv s' ∧ D.Guar t s s' ∧ K.holds (made (.base b)) s') ∧ r = .error .alreadyExists)
    (hmkdir : ∀ r n, Above q (.join r n) → ∀ s x s', D.inv s → K.holds started s →
      S.exec t (.disk (.mkdir (.join r n))) s x s' →
      D.inv s' ∧ D.Guar t s s' ∧ K.holds (afterMkdir (made (.join r n)) started never x) s')
    (hmkdir' : ∀ r n, Above q (.join r n) → ∀ s x s', D.inv s → K.holds (made r) s →
      S.exec t (.disk (.mkdir (.join r n))) s x s' →
      D.inv s' ∧ D.Guar t s s' ∧ K.holds (afterMkdir (made (.join r n)) never never x) s')
    (hmetadata : ∀ r, Above q r → ∀ s x s', D.inv s → K.holds (made r) s →
      S.exec t (.disk (.metadata r)) s x s' →
      (D.inv s' ∧ D.Guar t s s' ∧ K.holds (made r) s') ∧ x = .ok .dir)
    {r : PathBuf} (hr : Above q r) :
    K.Meets started (createDirAll r) (onResult (fun _ => never) fun _ => made r) := by
  have impossible : ∀ {p : StoreProg (Res Unit)} {Q : Res Unit → L}, K.Meets never p Q :=
    fun s _ hs => (hnever s hs).elim
  have hexisting : ∀ r e, Above q r → K.Meets (made r) (createDirAll.existing r e)
      (onResult (fun _ => never) fun _ => made r) := by
    intro r e hr
    refine look (· = .ok .dir) (hmetadata r hr) ?_
    rintro _ rfl
    exact ret fun _ h => h
  induction r with
  | base b =>
      refine Discipline.Assertions.act
        (fun x => if x = .error .alreadyExists then made (.base b) else never) ?_ fun x => ?_
      · intro s x s' hi hs he
        obtain ⟨⟨hi', hg, hm⟩, rfl⟩ := hbase b s x s' hi hs he
        exact ⟨hi', hg, hm⟩
      · split_ifs with hx
        · subst hx
          exact hexisting _ _ hr
        · exact impossible
  | join r n ih =>
      refine Discipline.Assertions.act (afterMkdir (made (.join r n)) started never)
        (hmkdir r n hr) fun x => ?_
      cases x with
      | ok _ => exact ret fun _ h => h
      | error e =>
          cases e with
          | alreadyExists => exact hexisting _ _ hr
          | notFound =>
              refine andThen (ih hr.up) fun _ => ?_
              refine Discipline.Assertions.act (afterMkdir (made (.join r n)) never never)
                (hmkdir' r n hr) fun x => ?_
              cases x with
              | ok _ => exact ret fun _ h => h
              | error e =>
                  cases e with
                  | alreadyExists => exact hexisting _ _ hr
                  | _ => exact impossible
          | _ => exact impossible

/-- The temporary file of a write, from its creation on; `W` is what is known while
it is worked on. -/
theorem writeTmp_of_parts {tmp : PathBuf} {buf : Bytes} {W : File → Handle → L} {F : L}
    (hcreate : K.Meets P (StoreProg.os (.create tmp)) (onResult E (W ⟨[], false⟩)))
    (hfill : ∀ {h y f g}, Fills buf h y f g →
      K.Meets (W f h) (StoreProg.os y) (onResult E fun _ => W g h))
    (hend : ∀ h s, K.holds (W ⟨buf, true⟩ h) s → K.holds F s) :
    K.Meets P (writeTmp tmp buf) (onResult E fun _ => F) := by
  refine andThen hcreate fun h => andThen (hfill .writeAll) fun _ => ?_
  exact post (hfill .syncAll) fun _ => hend h

/-- The parts of a write, put together. -/
theorem writeIn_of_parts {q : PathBuf} {k : String} {buf : Bytes} {A F Z : L} {B C : UInt64 → L}
    (hdirs : K.Meets P (createDirAll q) (onResult E fun _ => A))
    (hfetch : ∀ s n s', D.inv s → K.holds A s → S.exec t .fetchAddTmp s n s' →
      D.inv s' ∧ D.Guar t s s' ∧ K.holds (B n) s')
    (hwrite : ∀ n, K.Meets (B n) (writeTmp (.join q (tmpName k n)) buf) (onResult E fun _ => C n))
    (hinstall : ∀ n, K.Meets (C n) (install q (tmpName k n) k) (onResult E fun _ => F))
    (hend : ∀ s, K.holds F s → K.holds Z s) :
    K.Meets P (writeIn q k buf) (onResult E fun _ => Z) := by
  refine andThen hdirs fun _ => Discipline.Assertions.act B hfetch fun n => ?_
  refine andThen (hwrite n) fun _ => ?_
  refine andThen (withLock (fun _ => ⟨trivial, nofun⟩) (fun _ => ⟨trivial, nofun⟩) (hinstall n))
    fun _ => ?_
  exact collected hend

end StoreAssertions

end LightningNode
