/-
# `LightningNode.Store.Names` — what may be stored, and where

What `check_namespace_key_validity` accepts; that accepted triples have
different paths; and that the names of temporary files are not names of keys.
-/
import LightningNode.Store.FilesystemStore

namespace LightningNode

open Conc StoreProg

/-! ## Accepted names -/

/-- At most 120 characters, all of them from the alphabet. -/
def ValidName (s : String) : Prop :=
  s.length ≤ KVSTORE_NAMESPACE_KEY_MAX_LEN ∧
    ∀ c ∈ s.toList, c ∈ KVSTORE_NAMESPACE_KEY_ALPHABET.toList

instance (s : String) : Decidable (ValidName s) :=
  @instDecidableAnd _ _ _ (List.decidableBAll (· ∈ KVSTORE_NAMESPACE_KEY_ALPHABET.toList) s.toList)

theorem alphabet_ascii : ∀ c ∈ KVSTORE_NAMESPACE_KEY_ALPHABET.toList, c.utf8Size = 1 := by
  have hall : (KVSTORE_NAMESPACE_KEY_ALPHABET.toList.all fun c => c.utf8Size = 1) = true := by decide
  simpa using hall

/-- Over the alphabet, bytes are characters. -/
theorem utf8ByteSize_alphabet :
    ∀ l : List Char, (∀ c ∈ l, c ∈ KVSTORE_NAMESPACE_KEY_ALPHABET.toList) →
      (String.ofList l).utf8ByteSize = l.length
  | [], _ => rfl
  | c :: l, h => by
      have ih := utf8ByteSize_alphabet l fun c hc => h c (.tail _ hc)
      have hc := alphabet_ascii c (h c (.head _))
      rw [String.ofList_cons, String.utf8ByteSize_append, String.utf8ByteSize_singleton, ih, hc,
        List.length_cons, Nat.add_comm]

theorem isValidKvstoreStr_iff {s : String} : isValidKvstoreStr s = true ↔ ValidName s := by
  have hall : (s.toList.all fun c => c ∈ KVSTORE_NAMESPACE_KEY_ALPHABET.toList) = true ↔
      ∀ c ∈ s.toList, c ∈ KVSTORE_NAMESPACE_KEY_ALPHABET.toList := by
    simp
  rw [isValidKvstoreStr, Bool.and_eq_true, hall, decide_eq_true_iff]
  refine and_congr_left fun h => ?_
  have hsize := utf8ByteSize_alphabet s.toList h
  rw [String.ofList_toList, String.length_toList] at hsize
  rw [hsize]

/-- What the store accepts: `none` for the key of a `list`. -/
def Accepts (primary secondary : String) (key : Option String) : Prop :=
  key ≠ some "" ∧ (primary = "" → secondary = "") ∧
    ValidName primary ∧ ValidName secondary ∧ ∀ k ∈ key, ValidName k

instance (p s : String) (key : Option String) : Decidable (Accepts p s key) := by
  unfold Accepts
  cases key with
  | none => exact decidable_of_iff ((p = "" → s = "") ∧ ValidName p ∧ ValidName s) (by simp)
  | some k =>
      exact decidable_of_iff (k ≠ "" ∧ (p = "" → s = "") ∧ ValidName p ∧ ValidName s ∧ ValidName k)
        (by simp)

theorem check_accepts {p s op : String} {key : Option String} (h : Accepts p s key) :
    checkNamespaceKeyValidity p s key op = .ok () := by
  obtain ⟨hk, hps, hp, hs, hv⟩ := h
  have hps' : ¬ (p = "" ∧ s ≠ "") := fun h => h.2 (hps h.1)
  cases key with
  | none =>
      simp [checkNamespaceKeyValidity, hps', isValidKvstoreStr_iff.mpr hp,
        isValidKvstoreStr_iff.mpr hs]
  | some k =>
      have hk' : k ≠ "" := fun h => hk (congrArg some h)
      simp [checkNamespaceKeyValidity, hk', hps', isValidKvstoreStr_iff.mpr hp,
        isValidKvstoreStr_iff.mpr hs, isValidKvstoreStr_iff.mpr (hv k rfl)]

/-- A refusal carries a text, and the kind `Other`. -/
theorem check_rejects {p s : String} {key : Option String} (op : String) (h : ¬ Accepts p s key) :
    ∃ msg, checkNamespaceKeyValidity p s key op = .error (.custom .other msg) := by
  unfold checkNamespaceKeyValidity
  cases key with
  | none =>
      simp only
      split_ifs with h₁ h₂
      · exact ⟨_, rfl⟩
      · exact ⟨_, rfl⟩
      · refine absurd ?_ h
        simp only [Bool.or_eq_true, Bool.not_eq_true', not_or, Bool.not_eq_false] at h₂
        exact ⟨nofun, fun hp => not_not.mp fun hs => h₁ ⟨hp, hs⟩, isValidKvstoreStr_iff.mp h₂.1,
          isValidKvstoreStr_iff.mp h₂.2, nofun⟩
  | some k =>
      simp only
      split_ifs with h₀ h₁ h₂
      · exact ⟨_, rfl⟩
      · exact ⟨_, rfl⟩
      · exact ⟨_, rfl⟩
      · refine absurd ?_ h
        simp only [Bool.or_eq_true, Bool.not_eq_true', not_or, Bool.not_eq_false] at h₂
        refine ⟨fun hk => h₀ (Option.some.inj hk), fun hp => not_not.mp fun hs => h₁ ⟨hp, hs⟩,
          isValidKvstoreStr_iff.mp h₂.1.1, isValidKvstoreStr_iff.mp h₂.1.2, ?_⟩
        rintro _ ⟨⟩
        exact isValidKvstoreStr_iff.mp h₂.2

/-! ## Paths -/

namespace FilesystemStore

variable {root : PathBuf} {p s k : String}

/-- The directory of a namespace. -/
theorem getDestDirPath_eq (hps : p = "" → s = "") :
    getDestDirPath root p s =
      if p = "" then root
      else if s = "" then .join root p else .join (.join root p) s := by
  by_cases hp : p = ""
  · simp [getDestDirPath, PathBuf.push, hp, hps hp]
  · by_cases hs : s = ""
    · simp [getDestDirPath, PathBuf.push, hp, hs]
    · simp [getDestDirPath, PathBuf.push, hp, hs]

theorem getDestDirPath_inj {p' s' : String} (hps : p = "" → s = "") (hps' : p' = "" → s' = "")
    (h : getDestDirPath root p s = getDestDirPath root p' s') :
    p = p' ∧ s = s' := by
  rw [getDestDirPath_eq hps, getDestDirPath_eq hps'] at h
  by_cases hp : p = "" <;> by_cases hp' : p' = "" <;> by_cases hs : s = "" <;>
    by_cases hs' : s' = "" <;> simp_all

/-- Namespaces are in the data directory. -/
theorem above_getDestDirPath (hps : p = "" → s = "") : Above (getDestDirPath root p s) root := by
  rw [getDestDirPath_eq hps]
  split_ifs
  · exact .here
  · exact .up .here
  · exact .up (.up .here)

theorem destFilePath_eq (dataDir : PathBuf) (hk : k ≠ "") :
    destFilePath dataDir p s k = .join (getDestDirPath dataDir p s) k := by
  simp [destFilePath, PathBuf.push, hk]

end FilesystemStore

/-! ## Keys in hexadecimal -/

theorem hexDigit_mem {n : UInt8} (h : n < 16) :
    hexDigit n ∈ KVSTORE_NAMESPACE_KEY_ALPHABET.toList := by
  have hall : ∀ i : Fin 16, hexDigit (UInt8.ofNat i) ∈ KVSTORE_NAMESPACE_KEY_ALPHABET.toList := by
    decide
  have hn : n.toNat < 16 := h
  simpa using hall ⟨n.toNat, hn⟩

theorem validName_hexStr {bytes : Bytes} (h : bytes.length ≤ 60) : ValidName (hexStr bytes) := by
  constructor
  · have hmax : KVSTORE_NAMESPACE_KEY_MAX_LEN = 120 := rfl
    rw [hexStr_length, hmax]
    omega
  · intro c hc
    rw [hexStr, String.toList_ofList] at hc
    obtain ⟨v, _, hc⟩ := List.mem_flatMap.mp hc
    have hlt := v.toNat_lt
    have h16 : (16 : UInt8).toNat = 16 := rfl
    rcases List.mem_cons.mp hc with rfl | hc
    · refine hexDigit_mem (UInt8.lt_iff_toNat_lt.mpr ?_)
      rw [UInt8.toNat_div, h16]
      omega
    · rw [List.mem_singleton.mp hc]
      refine hexDigit_mem (UInt8.lt_iff_toNat_lt.mpr ?_)
      rw [UInt8.toNat_mod, h16]
      omega

/-! ## Temporary files -/

theorem ValidName.no_dot {s : String} (h : ValidName s) : '.' ∉ s.toList := fun hc =>
  absurd (h.2 '.' hc) (by decide)

/-- A name that `list` takes for a temporary file. -/
def IsTmp (name : String) : Prop := extension name = some "tmp"

instance (name : String) : Decidable (IsTmp name) := inferInstanceAs (Decidable (_ = _))

theorem ValidName.not_tmp {s : String} (h : ValidName s) : ¬ IsTmp s := by
  rw [IsTmp, extension_plain h.no_dot]
  nofun

/-- The temporary name for the key `k` and the counter `n`. -/
def tmpName (k : String) (n : UInt64) : String := k ++ "." ++ (toString n ++ ".tmp")

theorem tmpName_isTmp (k : String) (n : UInt64) : IsTmp (tmpName k n) := by
  have hne : k ++ "." ++ toString n ≠ "" := by
    intro h
    have hl := congrArg String.length h
    simp only [String.length_append] at hl
    have h1 : (".").length = 1 := by decide
    have h0 : ("").length = 0 := by decide
    omega
  have heq : tmpName k n = k ++ "." ++ toString n ++ "." ++ "tmp" := by
    have hext : ".tmp" = "." ++ "tmp" := by decide
    rw [tmpName, hext]
    simp only [String.append_assoc]
  rw [IsTmp, heq]
  exact extension_append hne (by decide) (by decide)

theorem tmpFilePath_join {dir : PathBuf} {k : String} (hk : ValidName k) (n : UInt64) :
    FilesystemStore.tmpFilePath (.join dir k) n = .join dir (tmpName k n) := by
  have hne : toString n ++ ".tmp" ≠ "" := by
    intro h
    have hl := congrArg String.length h
    simp only [String.length_append] at hl
    have h1 : (".tmp").length = 4 := by decide
    have h0 : ("").length = 0 := by decide
    omega
  exact PathBuf.setExtension_join hk.no_dot hne

theorem tmpName_ne {k k' : String} {n : UInt64} (hk : ValidName k') : tmpName k n ≠ k' := by
  rintro rfl
  exact hk.not_tmp (tmpName_isTmp k n)

/-- The counter can be read off a temporary name. -/
theorem tmpName_inj {k k' : String} {n n' : UInt64} (hk : ValidName k) (hk' : ValidName k')
    (h : tmpName k n = tmpName k' n') : n = n' := by
  have hl := congrArg String.toList h
  have hdot : ".".toList = ['.'] := by decide
  simp only [tmpName, String.toList_append, hdot, List.append_assoc, List.singleton_append] at hl
  -- neither key has a dot, so both names are cut at their first
  have hrest := congrArg (List.drop 1 ∘ List.dropWhile (· ≠ '.')) hl
  have hcut : ∀ {s : String} (l : List Char), ValidName s →
      (s.toList ++ '.' :: l).dropWhile (· ≠ '.') = '.' :: l := by
    intro s l hs
    rw [List.dropWhile_append_of_pos]
    · rfl
    · intro c hc
      have hne : c ≠ '.' := by
        rintro rfl
        exact hs.no_dot hc
      simpa using hne
  simp only [Function.comp_apply, hcut _ hk, hcut _ hk', List.drop_one, List.tail_cons] at hrest
  have hrepr : n.toNat.repr.toList = n'.toNat.repr.toList := List.append_cancel_right hrest
  have hnat := congrArg (Nat.ofDigitChars 10 · 0) hrepr
  simp only [Nat.toList_repr, Nat.ofDigitChars_ten_toDigits] at hnat
  exact UInt64.toNat_inj.mp hnat

/-! ## The calls, once their arguments are accepted

`q` is the directory of the namespace. -/

namespace FilesystemStore

def readIn (q : PathBuf) (k : String) : StoreProg (Res Bytes) :=
  (withReadLock (.join q k)
    ((os (.openRead (.join q k))).andThen fun f => os (.readToEnd f))).andThen collected

/-- The temporary file takes the place of the key. -/
def install (q : PathBuf) (tmp k : String) : StoreProg (Res Unit) :=
  (os (.rename (.join q tmp) (.join q k))).andThen fun _ => syncDir q

def writeIn (q : PathBuf) (k : String) (buf : Bytes) : StoreProg (Res Unit) :=
  (createDirAll q).andThen fun _ => do
    let counter ← act .fetchAddTmp
    (writeTmp (.join q (tmpName k counter)) buf).andThen fun _ =>
      (withWriteLock (.join q k) (install q (tmpName k counter) k)).andThen collected

def unlink (q : PathBuf) (k : String) (lazily : Bool) : StoreProg (Res Unit) :=
  if lazily then os (.removeFile (.join q k))
  else (os (.removeFile (.join q k))).andThen fun _ => syncDir q

def removeIn (q : PathBuf) (k : String) (lazily : Bool) : StoreProg (Res Unit) := do
  if !(← isFile (.join q k)) then
    return .ok ()
  else
    (withWriteLock (.join q k) (unlink q k lazily)).andThen collected

def listIn (q : PathBuf) : StoreProg (Res (List String)) := do
  if !(← pathExists q) then
    return .ok []
  else
    (os (.readDir q)).andThen fun entries => (listEntries q entries).andThen collected

variable {root : PathBuf} {p s k : String} {buf : Bytes} {lazily : Bool}

section

variable (h : Accepts p s (some k))

include h

theorem destFilePath_accepted (root : PathBuf) :
    destFilePath root p s k = .join (getDestDirPath root p s) k :=
  destFilePath_eq root fun hk => h.1 (congrArg some hk)

theorem read_accepted : read root p s k = readIn (getDestDirPath root p s) k := by
  simp only [read, check_accepts h]
  rw [destFilePath_accepted h]
  rfl

theorem write_accepted : write root p s k buf = writeIn (getDestDirPath root p s) k buf := by
  simp only [write, check_accepts h]
  rw [destFilePath_accepted h]
  refine congrArg (andThen _) (funext fun _ => congrArg (bind _) (funext fun counter => ?_))
  rw [tmpFilePath_join (h.2.2.2.2 k rfl)]
  rfl

theorem remove_accepted :
    remove root p s k lazily = removeIn (getDestDirPath root p s) k lazily := by
  simp only [remove, check_accepts h]
  rw [destFilePath_accepted h]
  rfl

end

theorem list_accepted (h : Accepts p s none) : list root p s = listIn (getDestDirPath root p s) := by
  simp only [list, check_accepts h]
  rfl

end FilesystemStore

end LightningNode
