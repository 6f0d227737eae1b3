/-
# `LightningNode.Store.PathNames` — the paths of the store as they are written

`get_dest_dir_path` and what `write` makes of it, on the text of the paths.  For
names that `check_namespace_key_validity` accepts

    data dir / primary / secondary / key          an empty namespace is left out
    data dir / primary / secondary / key.n.tmp    the counter is `n`

where everything behind the data directory is a plain name, so that no key leads
out of it and no two triples or temporary files meet.  The paths of
`LightningNode.Store.FilesystemStore` have these components.
-/
import LightningNode.Lib.PathText
import LightningNode.Store.Names

namespace LightningNode

open Conc PathText

namespace PathNames

/-! ## The paths -/

/-- `get_dest_dir_path` -/
def getDestDirPath (dataDir primaryNamespace secondaryNamespace : String) : String :=
  let destDirPath := push dataDir primaryNamespace
  if secondaryNamespace = "" then destDirPath else push destDirPath secondaryNamespace

def destFilePath (dataDir primaryNamespace secondaryNamespace key : String) : String :=
  push (getDestDirPath dataDir primaryNamespace secondaryNamespace) key

def tmpFilePath (destFilePath : String) (counter : UInt64) : String :=
  setExtension destFilePath (toString counter ++ ".tmp")

/-! ## Accepted names -/

/-- Names that a call may be given. -/
@[ext] structure Triple where
  primaryNamespace : String
  secondaryNamespace : String
  key : String
  accepted : ∃ operation,
    checkNamespaceKeyValidity primaryNamespace secondaryNamespace (some key) operation = .ok ()

/-- The channel manager's. -/
example : Triple := ⟨"", "", "manager", "write", by decide⟩

theorem isNormal_valid {s : String} (h : ValidName s) (hne : s ≠ "") : IsNormal s where
  ne_empty := hne
  ne_dot hs := absurd (hs ▸ h.no_dot) (by decide)
  ne_dotdot hs := absurd (hs ▸ h.no_dot) (by decide)
  no_sep hc := absurd (h.2 '/' hc) (by decide)

theorem isNormal_tmpName {k : String} (h : ValidName k) (n : UInt64) : IsNormal (tmpName k n) := by
  have hne : ∀ s : String, ¬ IsTmp s → tmpName k n ≠ s := by
    rintro s hs rfl
    exact hs (tmpName_isTmp k n)
  refine ⟨hne "" (by decide), hne "." (by decide), hne ".." (by decide), ?_⟩
  intro hc
  simp only [tmpName, String.toList_append, List.mem_append] at hc
  obtain (hk | hdot) | hcount | htmp := hc
  · exact absurd (h.2 '/' hk) (by decide)
  · exact absurd hdot (by decide)
  · have hdigit : ('/').isDigit = true := by
      refine Nat.isDigit_of_mem_toDigits (b := 10) (n := n.toNat) (by decide) (by decide) ?_
      rw [← Nat.toList_repr]
      exact hcount
    exact absurd hdigit (by decide)
  · exact absurd htmp (by decide)

namespace Triple

variable (t : Triple) (dataDir : String) (counter : UInt64)

theorem accepts : Accepts t.primaryNamespace t.secondaryNamespace (some t.key) := by
  obtain ⟨operation, hok⟩ := t.accepted
  by_contra h
  obtain ⟨msg, herr⟩ := check_rejects operation h
  rw [hok] at herr
  cases herr

theorem validKey : ValidName t.key := t.accepts.2.2.2.2 t.key rfl

theorem key_ne : t.key ≠ "" := fun h => t.accepts.1 (congrArg some h)

/-- The namespaces that are not empty. -/
def namespaces : List String := [t.primaryNamespace, t.secondaryNamespace].filter (· ≠ "")

def dir : String := getDestDirPath dataDir t.primaryNamespace t.secondaryNamespace

def dest : String := destFilePath dataDir t.primaryNamespace t.secondaryNamespace t.key

def tmp : String := tmpFilePath (t.dest dataDir) counter

theorem isNormal_key : IsNormal t.key := isNormal_valid t.validKey t.key_ne

theorem isNormal_namespaces : ∀ name ∈ t.namespaces, IsNormal name := by
  intro name hname
  obtain ⟨hmem, hne⟩ := List.mem_filter.mp hname
  have hne : name ≠ "" := of_decide_eq_true hne
  have h := t.accepts
  simp only [List.mem_cons, List.not_mem_nil, or_false] at hmem
  obtain rfl | rfl := hmem
  · exact isNormal_valid h.2.2.1 hne
  · exact isNormal_valid h.2.2.2.1 hne

/-- The secondary namespace is empty where the primary one is. -/
theorem namespaces_cases :
    (t.primaryNamespace = "" ∧ t.secondaryNamespace = "" ∧ t.namespaces = []) ∨
    (t.primaryNamespace ≠ "" ∧ t.secondaryNamespace = "" ∧ t.namespaces = [t.primaryNamespace]) ∨
    (t.primaryNamespace ≠ "" ∧ t.secondaryNamespace ≠ "" ∧
      t.namespaces = [t.primaryNamespace, t.secondaryNamespace]) := by
  unfold namespaces
  by_cases hp : t.primaryNamespace = ""
  · have hs : t.secondaryNamespace = "" := t.accepts.2.1 hp
    simp [hp, hs]
  · by_cases hs : t.secondaryNamespace = ""
    · simp [hp, hs]
    · simp [hp, hs]

theorem components_dir :
    components (t.dir dataDir) = components dataDir ++ t.namespaces.map .normal := by
  have hnormal := t.isNormal_namespaces
  unfold dir getDestDirPath
  obtain ⟨hp, hs, hns⟩ | ⟨hp, hs, hns⟩ | ⟨hp, hs, hns⟩ := t.namespaces_cases
  · simp [hp, hs, hns, components_push_empty]
  · rw [hns] at hnormal
    have hpn := hnormal _ (.head _)
    simp [hs, hns, components_push hpn]
  · rw [hns] at hnormal
    have hpn := hnormal _ (.head _)
    have hsn := hnormal _ (.tail _ (.head _))
    simp [hs, hns, components_push hpn, components_push hsn]

/-- The temporary file is a name in the same directory. -/
theorem tmp_eq : t.tmp dataDir counter = push (t.dir dataDir) (tmpName t.key counter) := by
  have hext : toString counter ++ ".tmp" ≠ "" := by
    intro h
    have hl := congrArg String.toList h
    simp at hl
  exact setExtension_push t.isNormal_key t.validKey.no_dot hext

theorem components_dest : components (t.dest dataDir) =
    components dataDir ++ (t.namespaces ++ [t.key]).map .normal := by
  have hdest : t.dest dataDir = push (t.dir dataDir) t.key := rfl
  rw [hdest, components_push t.isNormal_key, components_dir, List.map_append, List.append_assoc]
  rfl

theorem components_tmp : components (t.tmp dataDir counter) =
    components dataDir ++ (t.namespaces ++ [tmpName t.key counter]).map .normal := by
  rw [tmp_eq, components_push (isNormal_tmpName t.validKey counter), components_dir,
    List.map_append, List.append_assoc]
  rfl

/-! ## No two of them meet -/

theorem namespaces_inj {t t' : Triple} (h : t.namespaces = t'.namespaces) :
    t.primaryNamespace = t'.primaryNamespace ∧ t.secondaryNamespace = t'.secondaryNamespace := by
  obtain ⟨hp, hs, hns⟩ | ⟨hp, hs, hns⟩ | ⟨hp, hs, hns⟩ := t.namespaces_cases <;>
    obtain ⟨hp', hs', hns'⟩ | ⟨hp', hs', hns'⟩ | ⟨hp', hs', hns'⟩ := t'.namespaces_cases <;>
    simp_all

/-- Behind the same directory, the same names. -/
theorem names_inj {t t' : Triple} {name name' : String}
    (h : components dataDir ++ (t.namespaces ++ [name]).map .normal =
      components dataDir ++ (t'.namespaces ++ [name']).map .normal) :
    t.namespaces = t'.namespaces ∧ name = name' := by
  have hmap := List.append_cancel_left h
  have hnames := List.map_injective_iff.mpr (fun _ _ => Component.normal.inj) hmap
  obtain ⟨hns, hname⟩ := List.append_inj' hnames rfl
  exact ⟨hns, List.singleton_injective hname⟩

end Triple

/-- The paths of accepted triples lead to plain names below the data directory, and
are different; so are those of the temporary files, which no triple has. -/
theorem paths_injective_confined (dataDir : String) :
    (∀ t : Triple, components (t.dest dataDir) =
        components dataDir ++ (t.namespaces ++ [t.key]).map .normal ∧
      ∀ name ∈ t.namespaces ++ [t.key], IsNormal name) ∧
    (∀ t t' : Triple, components (t.dest dataDir) = components (t'.dest dataDir) → t = t') ∧
    (∀ (t : Triple) (counter : UInt64),
      (∃ dir, parent (t.dest dataDir) = some dir ∧ parent (t.tmp dataDir counter) = some dir) ∧
      PathText.extension (t.tmp dataDir counter) = some "tmp" ∧
      ∀ t' : Triple, components (t.tmp dataDir counter) ≠ components (t'.dest dataDir)) ∧
    ∀ (t t' : Triple) (counter counter' : UInt64),
      components (t.tmp dataDir counter) = components (t'.tmp dataDir counter') →
        t = t' ∧ counter = counter' := by
  refine ⟨?_, ?_, ?_, ?_⟩
  · intro t
    refine ⟨t.components_dest dataDir, List.forall_mem_append.mpr ⟨t.isNormal_namespaces, ?_⟩⟩
    exact List.forall_mem_singleton.mpr t.isNormal_key
  · intro t t' h
    rw [Triple.components_dest, Triple.components_dest] at h
    obtain ⟨hns, hkey⟩ := Triple.names_inj dataDir h
    obtain ⟨hp, hs⟩ := Triple.namespaces_inj hns
    exact Triple.ext hp hs hkey
  · intro t counter
    refine ⟨⟨components (t.dir dataDir), ?_, ?_⟩, ?_, ?_⟩
    · exact parent_push t.isNormal_key
    · rw [Triple.tmp_eq, parent_push (isNormal_tmpName t.validKey counter)]
    · rw [Triple.tmp_eq, PathText.extension, fileName_push (isNormal_tmpName t.validKey counter)]
      exact tmpName_isTmp t.key counter
    · intro t' h
      rw [Triple.components_tmp, Triple.components_dest] at h
      obtain ⟨_, hname⟩ := Triple.names_inj dataDir h
      exact tmpName_ne t'.validKey hname
  · intro t t' counter counter' h
    rw [Triple.components_tmp, Triple.components_tmp] at h
    obtain ⟨hns, hname⟩ := Triple.names_inj dataDir h
    obtain ⟨hp, hs⟩ := Triple.namespaces_inj hns
    obtain rfl := tmpName_inj t.validKey t'.validKey hname
    refine ⟨Triple.ext hp hs ?_, rfl⟩
    have hl := congrArg String.toList hname
    simp only [tmpName, String.toList_append] at hl
    exact String.toList_inj.mp (List.append_cancel_right (List.append_cancel_right hl))

/-- The paths of the store's own model are these, however the data directory is
written there. -/
theorem components_model (t : Triple) {root : PathBuf} {dataDir : String}
    (hroot : root.components = components dataDir) (counter : UInt64) :
    (FilesystemStore.destFilePath root t.primaryNamespace t.secondaryNamespace
      t.key).components = components (t.dest dataDir) ∧
    (FilesystemStore.tmpFilePath (FilesystemStore.destFilePath root t.primaryNamespace
      t.secondaryNamespace t.key) counter).components = components (t.tmp dataDir counter) := by
  have hdir : (FilesystemStore.getDestDirPath root t.primaryNamespace
      t.secondaryNamespace).components = components dataDir ++ t.namespaces.map .normal := by
    rw [FilesystemStore.getDestDirPath_eq t.accepts.2.1]
    obtain ⟨hp, hs, hns⟩ | ⟨hp, hs, hns⟩ | ⟨hp, hs, hns⟩ := t.namespaces_cases
    · simp [hp, hns, hroot]
    · simp [hp, hs, hns, hroot, PathBuf.components]
    · simp [hp, hs, hns, hroot, PathBuf.components]
  rw [FilesystemStore.destFilePath_accepted t.accepts, tmpFilePath_join t.validKey,
    Triple.components_dest, Triple.components_tmp]
  simp [PathBuf.components, hdir]

/-- `ldk_data_dir` under the root of the file system. -/
example : (PathBuf.join (.base "/") ".ldk").components = components "/.ldk" := by
  decide

end PathNames

end LightningNode
