/-
# `LightningNode.Node.SweepResumed` — whether a later run can go on

The migration with the write into `spendable_outputs` as the store makes it: a
temporary file beside the key, written, synced and renamed.  Earlier runs have
been cut anywhere.  When a run comes that meets no fault, it returns and leaves
nothing to do exactly if it finds

    none of the three directories
or  the pending directory, only whole descriptors in the spendable files, and
      a pending or processing file that is not empty
    or  a spendable directory, no processing one and no pending file that counts
-/
import LightningNode.Node.SweepSafety
import LightningNode.Store.Names

namespace LightningNode

open Conc

namespace Sweep

variable {D : Type}

/-! ## The write of the store -/

def appendAll (name : String) : Bytes → SweepProg D (Except SweepError Unit)
  | [] => .ret (.ok ())
  | byte :: bytes => (act (.append .spendable name byte)).andThen fun _ => appendAll name bytes

/-- The store accepts the random key, so that its write comes to the disk. -/
theorem key_accepted {random : Bytes} (hrandom : random.length = 32) :
    Accepts "spendable_outputs" "" (some (hexStr random)) := by
  have hvalid : ValidName (hexStr random) := validName_hexStr (by omega)
  refine ⟨?_, nofun, by decide, by decide, ?_⟩
  · intro h
    have hlen := congrArg String.length (Option.some.inj h)
    rw [hexStr_length, hrandom] at hlen
    exact nomatch hlen
  · intro k hk
    exact Option.some.inj hk ▸ hvalid

/-- `persister.write("spendable_outputs", "", key, bytes)`, action by action: that it
is the store's own write is shown in `LightningNode.Node.SweepStore`. -/
def storeWrite (key : String) (bytes : Bytes) : SweepProg D (Except SweepError Unit) :=
  (act (.createDirAll .spendable)).andThen fun _ =>
    .act .fetchAddTmp fun counter =>
      (act (.create .spendable (tmpName key counter))).andThen fun _ =>
      (appendAll (tmpName key counter) bytes).andThen fun _ =>
      (act .syncAll).andThen fun _ =>
      (act (.rename .spendable (tmpName key counter) .spendable key)).andThen fun _ =>
        act .syncAll

/-- A run of the migration. -/
def resumed (codec : Codec D) : SweepProg D (Except SweepError Unit) :=
  migrateDeprecatedSpendableOutputs codec storeWrite

/-- Every run that meets no fault returns, and one after it changes nothing. -/
def Resumes (codec : Codec D) (s : Migration D) : Prop :=
  (∃ x s', Runs Perform (resumed codec) s x s') ∧
  ∀ x s', Runs Perform (resumed codec) s x s' → x = .ok () ∧
    ∀ x' s'', Runs Perform (resumed codec) s' x' s'' → x' = .ok () ∧ s'' = s'

/-- Every spendable file can be read. -/
def Readable (codec : Codec D) (s : Migration D) : Prop :=
  ∀ name bytes, s.file .spendable name = some bytes → (codec.all bytes).isSome = true

/-- The processing files after the pending ones have been moved. -/
def merged (s : Migration D) (name : String) : Option Bytes :=
  if name.utf8ByteSize = 64 ∧ (s.file .pending name).isSome then s.file .pending name
  else s.file .processing name

/-- What a run must find. -/
def CanResume (codec : Codec D) (s : Migration D) : Prop :=
  (∀ k, s.has k = false) ∨
  s.has .pending = true ∧ Readable codec s ∧
    ((∃ name bytes, merged s name = some bytes ∧ bytes ≠ []) ∨
      s.has .spendable = true ∧ s.has .processing = false ∧
        ∀ name, name.utf8ByteSize = 64 → s.file .pending name = none)

/-! ## A run without faults -/

section Run

variable {exec : (a : SweepAct D) → Migration D → a.Answer → Migration D → Prop}
  {s s' : Migration D} {k : SweepDir}

/-- The directory is as it was. -/
def Same (k : SweepDir) (s s' : Migration D) : Prop :=
  s'.has k = s.has k ∧ ∀ name, s'.file k name = s.file k name

theorem Same.refl (k : SweepDir) (s : Migration D) : Same k s s := ⟨rfl, fun _ => rfl⟩

theorem Same.trans {s₁ s₂ s₃ : Migration D} (h : Same k s₁ s₂) (h' : Same k s₂ s₃) :
    Same k s₁ s₃ :=
  ⟨h'.1.trans h.1, fun name => (h'.2 name).trans (h.2 name)⟩

theorem unlinkAll_ends (hE : ∀ a s r s', exec a s r s' → Perform a s r s') (k : SweepDir)
    (names : List String) : ∀ s : Migration D, names.Nodup →
      (∀ name ∈ names, (s.file k name).isSome) →
      Ends exec (unlinkAll k names) s fun r s' => r = .ok () ∧ s'.has k = s.has k ∧
        (∀ name, s'.file k name = if name ∈ names then none else s.file k name) ∧
        ∀ k', k' ≠ k → Same k' s s' := by
  induction names with
  | nil =>
      intro s _ _
      exact .ret ⟨rfl, rfl, by simp, fun k' _ => .refl k' s⟩
  | cons name names ih =>
      intro s hnodup hfiles
      obtain ⟨hnot, hnodup⟩ := List.nodup_cons.mp hnodup
      refine .andThen_ok () (· = s.drop k name) ?_ ?_
      · refine .perform ?_
        intro r s₁ he
        have hdo := hE _ _ _ _ he
        simp only [Perform, hfiles name List.mem_cons_self, if_true] at hdo
        exact hdo
      · intro s₁ h
        subst h
        refine (ih _ hnodup ?_).mono ?_
        · intro n hn
          have hne : n ≠ name := fun h => hnot (h ▸ hn)
          simpa [hne] using hfiles n (List.mem_cons_of_mem _ hn)
        · intro r s' h
          obtain ⟨hr, hh, hf, hsame⟩ := h
          refine ⟨hr, by simpa using hh, ?_, ?_⟩
          · intro n
            rw [hf]
            by_cases hn : n = name
            · simp [hn]
            · simp [hn]
          · intro k' hk
            refine .trans ⟨by simp, ?_⟩ (hsame k' hk)
            intro n
            simp [hk]

theorem removeDirAll_ends (hE : ∀ a s r s', exec a s r s' → Perform a s r s') (k : SweepDir)
    (s : Migration D) : Ends exec (removeDirAll k) s fun r s' =>
      if s.has k then r = .ok () ∧ s'.has k = false ∧ ∀ k', k' ≠ k → Same k' s s'
      else ∃ e, r = .error e := by
  refine .andThen (fun r s₁ => s₁ = s ∧
    if s.has k then ∃ names, s.Lists k names ∧ r = .ok names else ∃ e, r = .error e) ?_ ?_ ?_
  · refine .perform ?_
    intro r s₁ he
    obtain ⟨rfl, hr⟩ := hE _ _ _ _ he
    refine ⟨rfl, ?_⟩
    split
    · rename_i hh
      rwa [if_pos hh] at hr
    · rename_i hh
      rw [if_neg hh] at hr
      exact ⟨_, hr⟩
  · intro names s₁ h
    obtain ⟨rfl, h⟩ := h
    split at h
    · rename_i hh
      obtain ⟨names', hl, hr⟩ := h
      obtain rfl := Except.ok.inj hr
      refine .andThen_ok _ _ (unlinkAll_ends hE k names s₁ hl.1 fun n hn => (hl.2 n).mp hn) ?_
      intro s₂ h
      obtain ⟨hh₂, hf, hsame⟩ := h
      have hempty : ∀ n, s₂.file k n = none := by
        intro n
        rw [hf]
        split
        · rfl
        · rename_i hn
          cases hfile : s₁.file k n with
          | none => rfl
          | some bytes => exact absurd ((hl.2 n).mpr (by rw [hfile]; rfl)) hn
      refine .perform ?_
      intro r s' he
      rw [if_pos hh]
      rcases hE _ _ _ _ he with ⟨_, _, hr, rfl⟩ | ⟨hnot, _⟩
      · refine ⟨hr, by simp, ?_⟩
        intro k' hk
        refine (hsame k' hk).trans ⟨by simp [hk], ?_⟩
        intro n
        simp [hk]
      · refine absurd ⟨hh₂.trans hh, List.nodup_nil, ?_⟩ hnot
        intro n
        simp [hempty]
    · obtain ⟨e, he⟩ := h
      cases he
  · intro e s₁ h
    obtain ⟨rfl, h⟩ := h
    split at h
    · obtain ⟨_, _, hr⟩ := h
      cases hr
    · rename_i hh
      rw [if_neg hh]
      exact ⟨e, rfl⟩

/-- The pending files of `names` that count have become processing files. -/
structure MovedFrom (names : List String) (s s' : Migration D) : Prop where
  pending : s'.has .pending = s.has .pending
  processing : s'.has .processing = true ↔
    s.has .processing = true ∨ ∃ name ∈ names, name.utf8ByteSize = 64
  left : ∀ name, s'.file .pending name
    = if name ∈ names ∧ name.utf8ByteSize = 64 then none else s.file .pending name
  moved : ∀ name, s'.file .processing name
    = if name ∈ names ∧ name.utf8ByteSize = 64 then s.file .pending name
      else s.file .processing name
  spendable : Same .spendable s s'

theorem movePending_ends (hE : ∀ a s r s', exec a s r s' → Perform a s r s')
    (names : List String) : ∀ s : Migration D, names.Nodup →
      (∀ name ∈ names, (s.file .pending name).isSome) →
      Ends exec (movePending names) s fun r s' => r = .ok () ∧ MovedFrom names s s' := by
  induction names with
  | nil =>
      intro s _ _
      exact .ret ⟨rfl, rfl, by simp, by simp, by simp, .refl _ s⟩
  | cons name names ih =>
      intro s hnodup hfiles
      obtain ⟨hnot, hnodup⟩ := List.nodup_cons.mp hnodup
      unfold movePending
      split
      · rename_i hlen
        refine .andThen_ok () (· = s.mkdir .processing) ?_ ?_
        · exact .perform fun r s₁ he => hE _ _ _ _ he
        · intro s₁ h
          subst h
          obtain ⟨bytes, hb⟩ := Option.isSome_iff_exists.mp (hfiles name List.mem_cons_self)
          refine .andThen_ok ()
            (· = ((s.mkdir .processing).drop .pending name).put .processing name bytes) ?_ ?_
          · refine .perform ?_
            intro r s₁ he
            have hdo := hE _ _ _ _ he
            simpa [Perform, hb] using hdo
          · intro s₂ h
            subst h
            refine (ih _ hnodup ?_).mono ?_
            · intro n hn
              have hne : n ≠ name := fun h => hnot (h ▸ hn)
              simpa [hne] using hfiles n (List.mem_cons_of_mem _ hn)
            · intro r s' h
              obtain ⟨hr, hm⟩ := h
              refine ⟨hr, by simpa using hm.pending, ?_, ?_, ?_, ?_⟩
              · have hp := hm.processing
                simp only [Migration.has_put, decide_true, Bool.true_or, true_or, iff_true] at hp
                exact iff_of_true hp (Or.inr ⟨name, List.mem_cons_self, hlen⟩)
              · intro n
                rw [hm.left]
                by_cases hn : n = name
                · simp [hn, hlen]
                · simp [hn]
              · intro n
                rw [hm.moved]
                by_cases hn : n = name
                · subst hn
                  simp [hnot, hlen, hb]
                · simp [hn]
              · exact .trans ⟨by simp, by simp⟩ hm.spendable
      · rename_i hlen
        refine (ih s hnodup fun n hn => hfiles n (List.mem_cons_of_mem _ hn)).mono ?_
        intro r s' h
        obtain ⟨hr, hm⟩ := h
        refine ⟨hr, hm.pending, ?_, ?_, ?_, hm.spendable⟩
        · rw [hm.processing]
          simp [hlen]
        · intro n
          rw [hm.left]
          by_cases hn : n = name
          · simp [hn, hlen]
          · simp [hn]
        · intro n
          rw [hm.moved]
          by_cases hn : n = name
          · simp [hn, hlen]
          · simp [hn]

/-- A file is read or is not there. -/
theorem readFile_ends (hE : ∀ a s r s', exec a s r s' → Perform a s r s') (k : SweepDir)
    (name : String) (s : Migration D) : Ends exec (act (.readFile k name)) s fun r s' =>
      s' = s ∧ (s.file k name).elim (∃ e, r = .error e) (r = .ok ·) := by
  refine .perform ?_
  intro r s₁ he
  obtain ⟨rfl, hr⟩ := hE _ _ _ _ he
  refine ⟨rfl, ?_⟩
  cases hf : s₁.file k name with
  | some bytes =>
      rw [hf] at hr
      exact hr
  | none =>
      rw [hf] at hr
      exact ⟨_, hr⟩

theorem readFile_ok (hE : ∀ a s r s', exec a s r s' → Perform a s r s') {name : String}
    {bytes : Bytes} (h : s.file k name = some bytes) :
    Ends exec (act (.readFile k name)) s fun r s' => r = .ok bytes ∧ s' = s := by
  refine (readFile_ends hE k name s).mono ?_
  intro r s' hr
  rw [h] at hr
  exact hr.symm

theorem appendFiles_ends (hE : ∀ a s r s', exec a s r s' → Perform a s r s')
    (content : String → Bytes) (names : List String) : ∀ (outputs : Bytes) (s : Migration D),
      (∀ name ∈ names, s.file .processing name = some (content name)) →
      Ends exec (appendFiles names outputs) s fun r s' =>
        r = .ok (outputs ++ names.flatMap content) ∧ s' = s := by
  induction names with
  | nil =>
      intro outputs s _
      exact .ret ⟨by simp, rfl⟩
  | cons name names ih =>
      intro outputs s hfiles
      refine .andThen_ok (content name) (· = s) (readFile_ok hE (hfiles name List.mem_cons_self)) ?_
      intro s₁ h
      subst h
      refine (ih _ s₁ fun n hn => hfiles n (List.mem_cons_of_mem _ hn)).mono ?_
      intro r s' h
      obtain ⟨hr, rfl⟩ := h
      exact ⟨by rw [hr, List.flatMap_cons, List.append_assoc], rfl⟩

/-- All processing files, in some order. -/
theorem readProcessing_ends (hE : ∀ a s r s', exec a s r s' → Perform a s r s')
    (s : Migration D) : Ends exec readProcessing s fun r s' => s' = s ∧
      ∃ names : List String, (∀ name, name ∈ names ↔ (s.file .processing name).isSome) ∧
        r = .ok (names.flatMap fun name => (s.file .processing name).getD []) := by
  refine .act ?_
  intro r s₁ he
  obtain ⟨rfl, hr⟩ := hE _ _ _ _ he
  split at hr
  · obtain ⟨names, hl, rfl⟩ := hr
    refine (appendFiles_ends hE (fun n => (s₁.file .processing n).getD []) names [] s₁ ?_).mono ?_
    · intro n hn
      obtain ⟨bytes, hb⟩ := Option.isSome_iff_exists.mp ((hl.2 n).mp hn)
      simp [hb]
    · intro r s' h
      obtain ⟨hr, rfl⟩ := h
      exact ⟨rfl, names, hl.2, hr⟩
  · rename_i hh
    rw [hr]
    refine .ret ⟨rfl, [], ?_, rfl⟩
    intro n
    have hnone : s₁.file .processing n = none :=
      Migration.file_of_not_has (Bool.eq_false_iff.mpr hh)
    simp [hnone]

theorem appendAll_ends (hE : ∀ a s r s', exec a s r s' → Perform a s r s') (name : String)
    (bytes : Bytes) : ∀ (done : Bytes) (s : Migration D), s.file .spendable name = some done →
      s.has .spendable = true →
      Ends exec (appendAll name bytes) s fun r s' => r = .ok () ∧
        s'.file .spendable name = some (done ++ bytes) ∧ s'.has .spendable = true ∧
        (∀ n, n ≠ name → s'.file .spendable n = s.file .spendable n) ∧
        ∀ k, k ≠ .spendable → Same k s s' := by
  induction bytes with
  | nil =>
      intro done s hf hh
      exact .ret ⟨rfl, by simpa using hf, hh, fun _ _ => rfl, fun k _ => .refl k s⟩
  | cons byte bytes ih =>
      intro done s hf hh
      refine .andThen_ok () (· = s.put .spendable name (done ++ [byte])) ?_ ?_
      · refine .perform ?_
        intro r s₁ he
        have hdo := hE _ _ _ _ he
        simpa [Perform, hf] using hdo
      · intro s₁ h
        subst h
        refine (ih (done ++ [byte]) _ (by simp) (by simp)).mono ?_
        intro r s' h
        obtain ⟨hr, hf', hh', hother, hsame⟩ := h
        refine ⟨hr, by simpa using hf', hh', ?_, ?_⟩
        · intro n hn
          rw [hother n hn]
          simp [hn]
        · intro k hk
          exact .trans ⟨by simp [hk], by simp [hk]⟩ (hsame k hk)

theorem tmpName_ne_key (key : String) (counter : UInt64) : tmpName key counter ≠ key := by
  intro h
  have hl := congrArg String.length h
  simp only [tmpName, String.length_append] at hl
  have h1 : (".").length = 1 := rfl
  omega

/-- The store leaves the bytes under the key, and takes the temporary file away. -/
theorem storeWrite_ends (hE : ∀ a s r s', exec a s r s' → Perform a s r s') (key : String)
    (bytes : Bytes) (s : Migration D) :
    Ends exec (storeWrite key bytes) s fun r s' => r = .ok () ∧ s'.has .spendable = true ∧
      (∃ counter, ∀ name, s'.file .spendable name = if name = key then some bytes
        else if name = tmpName key counter then none else s.file .spendable name) ∧
      ∀ k, k ≠ .spendable → Same k s s' := by
  refine .andThen_ok () (· = s.mkdir .spendable) ?_ ?_
  · exact .perform fun r s₁ he => hE _ _ _ _ he
  · intro s₁ h
    subst h
    refine .act ?_
    intro counter s₁ he
    obtain rfl := hE _ _ _ _ he
    refine .andThen_ok () (· = (s.mkdir .spendable).put .spendable (tmpName key counter) []) ?_ ?_
    · refine .perform ?_
      intro r s₂ he
      have hdo := hE _ _ _ _ he
      simpa [Perform] using hdo
    · intro s₂ h
      subst h
      refine .andThen_ok _ _ (appendAll_ends hE (tmpName key counter) bytes [] _ (by simp) (by simp)) ?_
      intro s₃ h
      obtain ⟨hf, hh, hother, hsame⟩ := h
      refine .andThen_ok () (· = s₃) ?_ ?_
      · exact .perform fun r s₄ he => hE _ _ _ _ he
      intro s₄ h
      subst h
      refine .andThen_ok ()
        (· = (s₄.drop .spendable (tmpName key counter)).put .spendable key bytes) ?_ ?_
      · refine .perform ?_
        intro r s₅ he
        have hdo := hE _ _ _ _ he
        simpa [Perform, hf, hh] using hdo
      intro s₅ h
      subst h
      refine .perform ?_
      intro r s' he
      obtain ⟨hr, rfl⟩ := hE _ _ _ _ he
      refine ⟨hr, by simp, ⟨counter, ?_⟩, ?_⟩
      · intro n
        by_cases hn : n = key
        · simp [hn]
        · by_cases hn' : n = tmpName key counter
          · simp [hn', tmpName_ne_key]
          · simp [hn, hn', hother n hn']
      · intro k hk
        refine .trans (.trans ⟨?_, ?_⟩ (hsame k hk)) ⟨?_, ?_⟩
        · simp [hk]
        · simp [hk]
        · simp [hk]
        · simp [hk]

/-- The first half made one file of all that is pending, under a key `K` allows. -/
structure Filled (K : Bytes → Prop) (s s' : Migration D) : Prop where
  fed : ∃ name bytes, merged s name = some bytes ∧ bytes ≠ []
  processing : s'.has .processing = false
  spendable : s'.has .spendable = true
  files : ∃ (random : Bytes) (counter : UInt64) (names : List String), K random ∧
    ∀ name, s'.file .spendable name =
      if name = hexStr random then some (names.flatMap fun n => (merged s n).getD [])
      else if name = tmpName (hexStr random) counter then none
      else s.file .spendable name

/-- There was nothing to make a file of. -/
structure NotFilled (s s' : Migration D) : Prop where
  unfed : ∀ name bytes, merged s name = some bytes → bytes = []
  processing : s'.has .processing = true ↔ s.has .processing = true ∨
    ∃ name, name.utf8ByteSize = 64 ∧ (s.file .pending name).isSome
  spendable : Same .spendable s s'

theorem MovedFrom.file_merged {names : List String} (h : MovedFrom names s s')
    (hl : s.Lists .pending names) (name : String) :
    s'.file .processing name = merged s name := by
  rw [h.moved, merged]
  simp only [hl.2 name, and_comm]

theorem movePendingToSpendable_ends (hE : ∀ a s r s', exec a s r s' → Perform a s r s')
    {K : Bytes → Prop} (hkey : ∀ s r s', exec .getSecureRandomBytes s r s' → K r)
    (s : Migration D) (hh : s.has .pending = true) :
    Ends exec (movePendingToSpendable storeWrite) s fun r s' =>
      r = .ok () ∧ s'.has .pending = true ∧ (Filled K s s' ∨ NotFilled s s') := by
  refine .act ?_
  intro r s₁ he
  obtain ⟨rfl, hr⟩ := hE _ _ _ _ he
  rw [if_pos hh] at hr
  obtain ⟨names, hl, rfl⟩ := hr
  refine .andThen_ok _ _ (movePending_ends hE names s₁ hl.1 fun n hn => (hl.2 n).mp hn) ?_
  intro s₂ hm
  refine .andThen _ (readProcessing_ends hE s₂) ?_ fun e s₃ h => by
    obtain ⟨_, _, _, h⟩ := h
    cases h
  intro outputs s₃ h
  obtain ⟨rfl, names', hnames', houtputs⟩ := h
  obtain rfl := Except.ok.inj houtputs
  simp only [hm.file_merged hl] at hnames' ⊢
  split
  · rename_i hempty
    refine .ret ⟨rfl, hm.pending.trans hh, Or.inr ⟨?_, ?_, hm.spendable⟩⟩
    · intro n bytes hb
      have hnil := List.flatMap_eq_nil_iff.mp (List.isEmpty_iff.mp hempty) n
        ((hnames' n).mpr (by rw [hb]; rfl))
      rwa [hb] at hnil
    · rw [hm.processing]
      refine or_congr_right ?_
      constructor
      · intro h
        obtain ⟨n, hn, hlen⟩ := h
        exact ⟨n, hlen, (hl.2 n).mp hn⟩
      · intro h
        obtain ⟨n, hlen, hn⟩ := h
        exact ⟨n, (hl.2 n).mpr hn, hlen⟩
  · rename_i hempty
    refine .act ?_
    intro random s₄ he
    have hK := hkey _ _ _ he
    obtain ⟨_, rfl⟩ := hE _ _ _ _ he
    refine .andThen_ok _ _ (storeWrite_ends hE (hexStr random) _ s₄) ?_
    intro s₅ h
    obtain ⟨hhas, ⟨counter, hfiles⟩, hsame⟩ := h
    have hsome : ∃ name bytes, merged s₁ name = some bytes ∧ bytes ≠ [] := by
      have hne : (names'.flatMap fun n => (merged s₁ n).getD []) ≠ [] :=
        fun h => hempty (List.isEmpty_iff.mpr h)
      obtain ⟨byte, hbyte⟩ := List.exists_mem_of_ne_nil _ hne
      obtain ⟨n, hn, hmem⟩ := List.mem_flatMap.mp hbyte
      obtain ⟨bytes, hb⟩ := Option.isSome_iff_exists.mp ((hnames' n).mp hn)
      rw [hb] at hmem
      exact ⟨n, bytes, hb, List.ne_nil_of_mem hmem⟩
    have hprocessing : s₅.has .processing = true := by
      obtain ⟨n, bytes, hb, _⟩ := hsome
      rw [(hsame .processing nofun).1]
      exact Migration.has_of_file ((hm.file_merged hl n).trans hb)
    refine (removeDirAll_ends hE .processing s₅).mono ?_
    intro r s' h
    rw [if_pos hprocessing] at h
    obtain ⟨hr, hgone, hrest⟩ := h
    refine ⟨hr, ?_, Or.inl ⟨hsome, hgone, (hrest .spendable nofun).1.trans hhas,
      random, counter, names', hK, ?_⟩⟩
    · rw [(hrest .pending nofun).1, (hsame .pending nofun).1]
      exact hm.pending.trans hh
    · intro n
      rw [(hrest .spendable nofun).2 n, hfiles n, hm.spendable.2 n]

theorem readDescriptors_ends (hE : ∀ a s r s', exec a s r s' → Perform a s r s')
    (codec : Codec D) (names : List String) : ∀ (outputs : List D) (s : Migration D),
      Ends exec (readDescriptors codec names outputs) s fun r s' => s' = s ∧
        ((∃ x, r = .ok x) ↔ ∀ name ∈ names, ∃ bytes, s.file .spendable name = some bytes ∧
          (codec.all bytes).isSome = true) := by
  induction names with
  | nil => exact fun outputs s => .ret ⟨rfl, iff_of_true ⟨_, rfl⟩ (List.forall_mem_nil _)⟩
  | cons name names ih =>
      intro outputs s
      refine .andThen _ (readFile_ends hE .spendable name s) ?_ ?_
      · intro bytes s₁ h
        obtain ⟨rfl, h⟩ := h
        cases hf : s₁.file .spendable name with
        | none =>
            rw [hf] at h
            obtain ⟨_, h⟩ := h
            cases h
        | some bytes' =>
            rw [hf] at h
            obtain rfl := Except.ok.inj h
            cases hall : codec.all bytes with
            | none =>
                refine .ret ⟨rfl, iff_of_false ?_ ?_⟩
                · intro h
                  obtain ⟨_, h⟩ := h
                  cases h
                · intro h
                  obtain ⟨b, hb, hsome⟩ := h name List.mem_cons_self
                  rw [hf] at hb
                  rw [← Option.some.inj hb, hall] at hsome
                  cases hsome
            | some ds =>
                refine (ih (outputs ++ ds) s₁).mono ?_
                intro r s' h
                refine ⟨h.1, h.2.trans ?_⟩
                simp [hf, hall]
      · intro e s₁ h
        obtain ⟨rfl, h⟩ := h
        refine ⟨rfl, iff_of_false ?_ ?_⟩
        · intro h
          obtain ⟨_, h⟩ := h
          cases h
        · intro hall
          obtain ⟨b, hb, _⟩ := hall name List.mem_cons_self
          rw [hb] at h
          cases h

theorem readSpendable_ends (hE : ∀ a s r s', exec a s r s' → Perform a s r s')
    (codec : Codec D) (s : Migration D) :
    Ends exec (readSpendable codec) s fun r s' => s' = s ∧
      ((∃ x, r = .ok x) ↔ Readable codec s) := by
  refine .act ?_
  intro r s₁ he
  obtain ⟨rfl, hr⟩ := hE _ _ _ _ he
  split at hr
  · obtain ⟨names, hl, rfl⟩ := hr
    refine (readDescriptors_ends hE codec names [] s₁).mono ?_
    intro r s' h
    refine ⟨h.1, h.2.trans ?_⟩
    constructor
    · intro hall n bytes hb
      obtain ⟨b, hb', hsome⟩ := hall n ((hl.2 n).mpr (by rw [hb]; rfl))
      rw [hb] at hb'
      exact Option.some.inj hb' ▸ hsome
    · intro hall n hn
      obtain ⟨bytes, hb⟩ := Option.isSome_iff_exists.mp ((hl.2 n).mp hn)
      exact ⟨bytes, hb, hall n bytes hb⟩
  · rename_i hh
    rw [hr]
    refine .ret ⟨rfl, iff_of_true ⟨_, rfl⟩ ?_⟩
    intro n bytes hb
    exact absurd (Migration.has_of_file hb) hh

/-- The second half returns where both directories are there and the files can be
read, and takes both away. -/
theorem trackSpendable_ends (hE : ∀ a s r s', exec a s r s' → Perform a s r s')
    (codec : Codec D) (s : Migration D) :
    Ends exec (trackSpendable codec) s fun r s' =>
      (r = .ok () ↔ s.has .spendable = true ∧ s.has .pending = true ∧ Readable codec s) ∧
      (r = .ok () → s'.has .spendable = false ∧ s'.has .pending = false ∧
        s'.has .processing = s.has .processing) := by
  refine .act ?_
  intro height s₁ he
  obtain rfl := hE _ _ _ _ he
  refine .andThen _ (readSpendable_ends hE codec s₁) ?_ ?_
  · intro outputs s₂ h
    obtain ⟨rfl, hread⟩ := h
    have hreadable := hread.mp ⟨_, rfl⟩
    refine .andThen_ok () (· = { s₂ with tracked := outputs ++ s₂.tracked }) ?_ ?_
    · exact .perform fun r s₃ he => hE _ _ _ _ he
    intro s₃ hs₃
    have hhas : ∀ k, s₃.has k = s₂.has k := by
      rw [hs₃]
      exact fun k => rfl
    refine .andThen _ (removeDirAll_ends hE .spendable s₃) ?_ ?_
    · intro _ s₄ h
      split at h
      · rename_i hspend
        obtain ⟨_, hgone, hsame⟩ := h
        refine (removeDirAll_ends hE .pending s₄).mono ?_
        intro r s' h
        have hpend : s₄.has .pending = s₂.has .pending := (hsame .pending nofun).1.trans (hhas _)
        split at h
        · rename_i hp
          obtain ⟨hr, hgone', hsame'⟩ := h
          refine ⟨iff_of_true hr ⟨(hhas _) ▸ hspend, hpend ▸ hp, hreadable⟩, ?_⟩
          intro _
          refine ⟨(hsame' .spendable nofun).1.trans hgone, hgone', ?_⟩
          rw [(hsame' .processing nofun).1, (hsame .processing nofun).1, hhas]
        · rename_i hp
          obtain ⟨e, rfl⟩ := h
          refine ⟨iff_of_false nofun ?_, nofun⟩
          intro h
          exact hp (hpend.trans h.2.1)
      · obtain ⟨e, h⟩ := h
        exact nomatch h
    · intro e s₄ h
      split at h
      · exact nomatch h.1
      · rename_i hspend
        refine ⟨iff_of_false nofun ?_, nofun⟩
        intro h
        exact hspend ((hhas _).trans h.1)
  · intro e s₂ h
    obtain ⟨rfl, hread⟩ := h
    refine ⟨iff_of_false nofun ?_, nofun⟩
    intro h
    obtain ⟨_, h⟩ := hread.mpr h.2.2
    exact nomatch h

/-- Without a pending directory no run returns, unless there is nothing at all. -/
theorem migrate_ends_missing (hE : ∀ a s r s', exec a s r s' → Perform a s r s')
    (codec : Codec D) (s : Migration D) (hh : s.has .pending = false) :
    Ends exec (migrate codec storeWrite) s fun r _ => r ≠ .ok () := by
  refine .andThen_ok () (· = s) ?_ ?_
  · refine .act ?_
    intro r s₁ he
    obtain ⟨rfl, hr⟩ := hE _ _ _ _ he
    rw [hh, if_neg Bool.false_ne_true] at hr
    rw [hr]
    exact .ret ⟨rfl, rfl⟩
  · intro s₁ h
    subst h
    refine (trackSpendable_ends hE codec s₁).mono ?_
    intro r s' h hr
    have hp := (h.1.mp hr).2.1
    rw [hh] at hp
    cases hp

/-- How a run from `s` can go. -/
inductive Outcome (codec : Codec D) (K : Bytes → Prop) (s : Migration D)
    (r : Except SweepError Unit) (s' : Migration D) : Prop
  | nothing : (∀ k, s.has k = false) → r = .ok () → s' = s → Outcome codec K s r s'
  | missing (k : SweepDir) : s.has k = true → s.has .pending = false → r ≠ .ok () →
      Outcome codec K s r s'
  | migrated (s₁ : Migration D) : s.has .pending = true → Filled K s s₁ ∨ NotFilled s s₁ →
      (r = .ok () ↔ s₁.has .spendable = true ∧ Readable codec s₁) →
      (r = .ok () → s'.has .spendable = false ∧ s'.has .pending = false ∧
        s'.has .processing = s₁.has .processing) → Outcome codec K s r s'

theorem migrate_ends (hE : ∀ a s r s', exec a s r s' → Perform a s r s') {K : Bytes → Prop}
    (hkey : ∀ s r s', exec .getSecureRandomBytes s r s' → K r) (codec : Codec D)
    (s : Migration D) (hh : s.has k = true) :
    Ends exec (migrate codec storeWrite) s (Outcome codec K s) := by
  cases hp : s.has .pending with
  | false => exact (migrate_ends_missing hE codec s hp).mono fun r s' hr => .missing k hh hp hr
  | true =>
      refine .andThen_ok _ _ (movePendingToSpendable_ends hE hkey s hp) ?_
      intro s₁ h
      obtain ⟨hp₁, hfilled⟩ := h
      refine (trackSpendable_ends hE codec s₁).mono ?_
      intro r s' h
      refine .migrated s₁ hp hfilled (h.1.trans ?_) h.2
      simp [hp₁]

theorem resumed_ends (hE : ∀ a s r s', exec a s r s' → Perform a s r s') {K : Bytes → Prop}
    (hkey : ∀ s r s', exec .getSecureRandomBytes s r s' → K r) (codec : Codec D)
    (s : Migration D) : Ends exec (resumed codec) s (Outcome codec K s) := by
  refine .act ?_
  intro r s₁ he
  obtain ⟨rfl, rfl⟩ := hE _ _ _ _ he
  cases hp : s₁.has .pending with
  | true => exact migrate_ends hE hkey codec s₁ hp
  | false =>
      refine .act ?_
      intro r s₂ he
      obtain ⟨rfl, rfl⟩ := hE _ _ _ _ he
      cases hpr : s₂.has .processing with
      | true => exact migrate_ends hE hkey codec s₂ hpr
      | false =>
          refine .act ?_
          intro r s₃ he
          obtain ⟨rfl, rfl⟩ := hE _ _ _ _ he
          cases hsp : s₃.has .spendable with
          | true => exact migrate_ends hE hkey codec s₃ hsp
          | false =>
              refine .ret (.nothing ?_ rfl rfl)
              intro k
              cases k <;> assumption

end Run

/-! ## When a run can go on -/

variable {codec : Codec D} {s s' : Migration D}

/-- The files that go into the new one hold whole descriptors. -/
def FilesWhole (codec : Codec D) (s : Migration D) : Prop :=
  ∀ k name bytes, k ≠ .spendable → Counts k name → s.file k name = some bytes → Whole codec bytes

theorem whole_flatMap {f : String → Bytes} {names : List String}
    (h : ∀ name ∈ names, Whole codec (f name)) : Whole codec (names.flatMap f) := by
  induction names with
  | nil => exact ⟨[], rfl⟩
  | cons name names ih =>
      obtain ⟨ds, hds⟩ := h name List.mem_cons_self
      obtain ⟨ds', hds'⟩ := ih fun n hn => h n (List.mem_cons_of_mem _ hn)
      exact ⟨ds ++ ds', by rw [List.flatMap_cons, hds, hds', List.flatMap_append]⟩

theorem FilesWhole.merged (h : FilesWhole codec s) (name : String) :
    Whole codec ((merged s name).getD []) := by
  have hfile : ∀ k, k ≠ .spendable → Counts k name → Whole codec ((s.file k name).getD []) := by
    intro k hk hc
    cases hf : s.file k name with
    | none => exact ⟨[], rfl⟩
    | some bytes => exact h k name bytes hk hc hf
  unfold Sweep.merged
  split
  · rename_i hlen
    exact hfile .pending nofun fun _ => hlen.1
  · exact hfile .processing nofun nofun

theorem Filled.readable (hc : codec.Consumes) (hw : FilesWhole codec s) {K : Bytes → Prop}
    (h : Filled K s s') (hr : Readable codec s) : Readable codec s' := by
  obtain ⟨random, counter, names, _, hfile⟩ := h.files
  intro n bytes hb
  rw [hfile] at hb
  split at hb
  · obtain ⟨ds, hds⟩ : Whole codec bytes := by
      rw [← Option.some.inj hb]
      exact whole_flatMap fun n _ => hw.merged n
    rw [hds, Codec.all_flatMap hc]
    rfl
  · split at hb
    · exact nomatch hb
    · exact hr n bytes hb

theorem Same.readable (h : Same .spendable s s') : Readable codec s' ↔ Readable codec s := by
  unfold Readable
  simp only [h.2]

theorem perform_total (a : SweepAct D) (s : Migration D) : ∃ r s', Perform a s r s' :=
  ⟨_, _, smoothly_perform (List.length_replicate (n := 32) (a := 0)) a s⟩

theorem resumed_perform (codec : Codec D) (s : Migration D) :
    Ends Perform (resumed codec) s (Outcome codec (fun _ => True) s) :=
  resumed_ends (fun _ _ _ _ h => h) (fun _ _ _ _ => trivial) codec s

theorem resumes_of_canResume (hc : codec.Consumes) (hw : FilesWhole codec s)
    (h : CanResume codec s) : Resumes codec s := by
  refine ⟨runs_total perform_total _ s, ?_⟩
  intro x s' hrun
  have hdone : x = .ok () ∧ ∀ k, s'.has k = false := by
    cases resumed_perform codec s x s' hrun with
    | nothing hnone hx hs' => exact ⟨hx, hs' ▸ hnone⟩
    | missing k hk hp _ =>
        rcases h with hnone | ⟨hp', _⟩
        · rw [hnone k] at hk
          exact nomatch hk
        · rw [hp] at hp'
          exact nomatch hp'
    | migrated s₁ hp hfilled hx hgone =>
        obtain ⟨hread, hfed⟩ : Readable codec s ∧ _ := by
          rcases h with hnone | ⟨_, h⟩
          · rw [hnone] at hp
            exact nomatch hp
          · exact h
        have hs₁ : s₁.has .spendable = true ∧ Readable codec s₁ ∧ s₁.has .processing = false := by
          rcases hfilled with hf | hf
          · exact ⟨hf.spendable, hf.readable hc hw hread, hf.processing⟩
          · rcases hfed with ⟨n, bytes, hb, hne⟩ | ⟨hsp, hpr, hnone⟩
            · exact absurd (hf.unfed n bytes hb) hne
            · refine ⟨hf.spendable.1.trans hsp, hf.spendable.readable.mpr hread, ?_⟩
              cases hpr' : s₁.has .processing with
              | false => rfl
              | true =>
                  rcases hf.processing.mp hpr' with h | ⟨n, hlen, hn⟩
                  · rw [hpr] at h
                    exact nomatch h
                  · rw [hnone n hlen] at hn
                    exact nomatch hn
        have hx' := hx.mpr ⟨hs₁.1, hs₁.2.1⟩
        obtain ⟨h₁, h₂, h₃⟩ := hgone hx'
        refine ⟨hx', ?_⟩
        intro k
        cases k with
        | pending => exact h₂
        | processing => exact h₃.trans hs₁.2.2
        | spendable => exact h₁
  refine ⟨hdone.1, ?_⟩
  intro x' s'' hrun'
  cases resumed_perform codec s' x' s'' hrun' with
  | nothing _ hx hs'' => exact ⟨hx, hs''⟩
  | missing k hk _ _ =>
      rw [hdone.2 k] at hk
      exact nomatch hk
  | migrated s₁ hp _ _ _ =>
      rw [hdone.2] at hp
      exact nomatch hp

/-- Some run, with the random bytes given. -/
theorem exists_run {random : Bytes} (hrandom : random.length = 32) (codec : Codec D)
    (s : Migration D) : ∃ x s', Runs Perform (resumed codec) s x s' ∧
      Outcome codec (fun r => r = random) s x s' := by
  let exec : (a : SweepAct D) → Migration D → a.Answer → Migration D → Prop :=
    fun a s r s' => smoothly random a s = (r, s')
  have hE : ∀ a s r s', exec a s r s' → Perform a s r s' := by
    intro a s r s' he
    have hdo := smoothly_perform hrandom a s
    rwa [he] at hdo
  have hkey : ∀ s r s', exec .getSecureRandomBytes s r s' → r = random :=
    fun _ _ _ he => (congrArg Prod.fst he).symm
  have htotal : ∀ a s, ∃ r s', exec a s r s' := fun _ _ => ⟨_, _, rfl⟩
  obtain ⟨x, s', hrun⟩ := runs_total htotal (resumed codec) s
  exact ⟨x, s', hrun.mono hE, resumed_ends hE hkey codec s x s' hrun⟩

theorem take_key {random : Bytes} (hrandom : random.length = 32) {name : String}
    (h : name = hexStr random ∨ ∃ counter, name = tmpName (hexStr random) counter) :
    name.toList.take 64 = (hexStr random).toList := by
  have hlen : (hexStr random).toList.length = 64 := by
    rw [String.length_toList, hexStr_length, hrandom]
  rcases h with rfl | ⟨counter, rfl⟩
  · exact List.take_of_length_le (Nat.le_of_eq hlen)
  · simp only [tmpName, String.toList_append, List.append_assoc]
    rw [← hlen, List.take_left]

/-- A name is neither the key of some random bytes nor one of its temporary files. -/
theorem exists_key (name : String) : ∃ random : Bytes, random.length = 32 ∧
    name ≠ hexStr random ∧ ∀ counter, name ≠ tmpName (hexStr random) counter := by
  have hother : ∀ random : Bytes, random.length = 32 →
      name.toList.take 64 ≠ (hexStr random).toList →
      name ≠ hexStr random ∧ ∀ counter, name ≠ tmpName (hexStr random) counter := by
    intro random hrandom hne
    exact ⟨fun h => hne (take_key hrandom (Or.inl h)),
      fun counter h => hne (take_key hrandom (Or.inr ⟨counter, h⟩))⟩
  by_cases h : name.toList.take 64 = (hexStr (.replicate 32 0)).toList
  · refine ⟨.replicate 32 1, List.length_replicate, hother _ List.length_replicate ?_⟩
    rw [h]
    decide
  · exact ⟨.replicate 32 0, List.length_replicate, hother _ List.length_replicate h⟩

/-- A file that cannot be read is still there in the second half, under some key. -/
theorem readable_of_resumes (hp : s.has .pending = true) (h : Resumes codec s) :
    Readable codec s := by
  intro n bytes hb
  obtain ⟨random, hrandom, hkey, htmp⟩ := exists_key n
  obtain ⟨x, s', hrun, hout⟩ := exists_run hrandom codec s
  have hx := (h.2 x s' hrun).1
  cases hout with
  | nothing hnone _ _ =>
      rw [hnone] at hp
      exact nomatch hp
  | missing k _ hp' _ =>
      rw [hp] at hp'
      exact nomatch hp'
  | migrated s₁ _ hfilled hiff _ =>
      have hread := (hiff.mp hx).2
      rcases hfilled with hf | hf
      · obtain ⟨random', counter, names, rfl, hfile⟩ := hf.files
        refine hread n bytes ?_
        rw [hfile, if_neg hkey, if_neg (htmp counter)]
        exact hb
      · exact hf.spendable.readable.mp hread n bytes hb

theorem canResume_of_resumes (h : Resumes codec s) : CanResume codec s := by
  obtain ⟨x, s', hrun⟩ := h.1
  obtain ⟨hx, hnext⟩ := h.2 x s' hrun
  cases resumed_perform codec s x s' hrun with
  | nothing hnone _ _ => exact Or.inl hnone
  | missing k _ _ hne => exact absurd hx hne
  | migrated s₁ hp hfilled hiff hgone =>
      refine Or.inr ⟨hp, readable_of_resumes hp h, ?_⟩
      rcases hfilled with hf | hf
      · exact Or.inl hf.fed
      · right
        obtain ⟨hsp, hpend, hpr⟩ := hgone hx
        have hpr₁ : s₁.has .processing = false := by
          -- a processing directory that stays makes the next run panic
          obtain ⟨x', s'', hrun'⟩ := runs_total perform_total (resumed codec) s'
          obtain ⟨hx', _⟩ := hnext x' s'' hrun'
          cases resumed_perform codec s' x' s'' hrun' with
          | nothing hnone _ _ => exact hpr ▸ hnone .processing
          | missing _ _ _ hne => exact absurd hx' hne
          | migrated _ hp' _ _ _ =>
              rw [hpend] at hp'
              exact nomatch hp'
        refine ⟨hf.spendable.1 ▸ (hiff.mp hx).1, ?_, ?_⟩
        · cases hpr' : s.has .processing with
          | false => rfl
          | true =>
              rw [hf.processing.mpr (Or.inl hpr')] at hpr₁
              exact nomatch hpr₁
        · intro n hlen
          cases hfile : s.file .pending n with
          | none => rfl
          | some bytes =>
              rw [hf.processing.mpr (Or.inr ⟨n, hlen, by rw [hfile]; rfl⟩)] at hpr₁
              exact nomatch hpr₁

/-! ## Earlier runs -/

/-- What the migration does to files outside the spendable directory: it moves
those that count, and deletes. -/
def Outside : SweepAct D → Prop
  | .rename k name k' name' =>
      (k = .pending ∧ k' = .processing ∧ name' = name ∧ name.utf8ByteSize = 64) ∨ k' = .spendable
  | .create k _ | .append k _ _ => k = .spendable
  | _ => True

theorem FilesWhole.of_file (hw : FilesWhole codec s) (hf : ∀ k name bytes, k ≠ .spendable →
    s'.file k name = some bytes → s.file k name = some bytes) : FilesWhole codec s' :=
  fun k name bytes hk hc hb => hw k name bytes hk hc (hf k name bytes hk hb)

theorem FilesWhole.put (hw : FilesWhole codec s) (name : String) (bytes : Bytes) :
    FilesWhole codec (s.put .spendable name bytes) := by
  refine hw.of_file ?_
  intro k n b hk hb
  simpa [hk] using hb

theorem FilesWhole.drop (hw : FilesWhole codec s) (k : SweepDir) (name : String) :
    FilesWhole codec (s.drop k name) := by
  refine hw.of_file ?_
  intro k' n b _ hb
  rw [Migration.file_drop] at hb
  split at hb
  · exact nomatch hb
  · exact hb

theorem FilesWhole.move (hw : FilesWhole codec s) {name : String} {bytes : Bytes}
    (hlen : name.utf8ByteSize = 64) (hf : s.file .pending name = some bytes) :
    FilesWhole codec ((s.drop .pending name).put .processing name bytes) := by
  intro k n b hk hc hb
  rw [Migration.file_put] at hb
  split at hb
  · rw [← Option.some.inj hb]
    exact hw .pending name bytes nofun (fun _ => hlen) hf
  · exact (hw.drop .pending name) k n b hk hc hb

/-- What an action can change. -/
def Changes : SweepAct D → Migration D → Migration D → Prop
  | .createDirAll k, s, s' => s' = s.mkdir k
  | .rename k name k' name', s, s' =>
      ∃ bytes, s.file k name = some bytes ∧ s' = (s.drop k name).put k' name' bytes
  | .unlink k name, s, s' => s' = s.drop k name
  | .rmdir k, s, s' => s' = s.rmdir k
  | .create k name, s, s' => s' = s.put k name []
  | .append k name byte, s, s' =>
      ∃ bytes, s.file k name = some bytes ∧ s' = s.put k name (bytes ++ [byte])
  | .write key bytes, s, s' => s' = s.mkdir .spendable ∨ s' = s.put .spendable key bytes
  | .trackSpendableOutputs outputs _, s, s' => s' = { s with tracked := outputs ++ s.tracked }
  | _, _, _ => False

theorem Perform.changes {a : SweepAct D} {r : a.Answer} (he : Perform a s r s') :
    s' = s ∨ Changes a s s' := by
  cases a with
  | createDirAll k => exact Or.inr he.2
  | rename k name k' name' =>
      simp only [Perform] at he
      cases hf : s.file k name with
      | none =>
          rw [hf] at he
          exact Or.inl he.2
      | some bytes =>
          rw [hf] at he
          dsimp only at he
          split at he
          · exact Or.inr ⟨bytes, hf, he.2⟩
          · exact Or.inl he.2
  | unlink k name =>
      simp only [Perform] at he
      split at he
      · exact Or.inr he.2
      · exact Or.inl he.2
  | rmdir k =>
      rcases he with ⟨_, _, _, hs⟩ | ⟨_, _, hs⟩
      · exact Or.inr hs
      · exact Or.inl hs
  | create k name =>
      simp only [Perform] at he
      split at he
      · exact Or.inr he.2
      · exact Or.inl he.2
  | append k name byte =>
      simp only [Perform] at he
      cases hf : s.file k name with
      | none =>
          rw [hf] at he
          exact Or.inl he.2
      | some bytes =>
          rw [hf] at he
          exact Or.inr ⟨bytes, hf, he.2⟩
  | write key bytes => exact Or.inr (Or.inr he.2)
  | trackSpendableOutputs outputs h => exact Or.inr he.2
  | readDir k | readFile k name => exact Or.inl he.1
  | «exists» k | syncAll | getSecureRandomBytes => exact Or.inl he.2
  | fetchAddTmp | currentBestBlock => exact Or.inl he

theorem Fault.changes {a : SweepAct D} {r : a.Answer} (he : Fault a s r s') :
    s' = s ∨ Changes a s s' := by
  cases a with
  | write key bytes => exact he.2
  | createDirAll _ | rename _ _ _ _ | unlink _ _ | rmdir _ | create _ _ | append _ _ _
  | syncAll | trackSpendableOutputs _ _ | readFile _ _ => exact Or.inl he.2
  | «exists» _ | readDir _ | getSecureRandomBytes | fetchAddTmp | currentBestBlock =>
      exact he.elim

/-- Whatever an action of the migration does, the files outside the spendable
directory hold whole descriptors. -/
theorem FilesWhole.exec {a : SweepAct D} {r : a.Answer} (ha : Outside a)
    (hw : FilesWhole codec s) (he : Exec a s r s') : FilesWhole codec s' := by
  rcases he.elim Perform.changes Fault.changes with rfl | hc
  · exact hw
  · cases a with
    | createDirAll k =>
        subst hc
        exact hw.of_file (by simp)
    | rename k name k' name' =>
        obtain ⟨bytes, hf, rfl⟩ := hc
        rcases ha with ⟨rfl, rfl, rfl, hlen⟩ | rfl
        · exact hw.move hlen hf
        · exact (hw.drop k name).put name' bytes
    | unlink k name =>
        subst hc
        exact hw.drop k name
    | rmdir k =>
        subst hc
        refine hw.of_file ?_
        intro k' n b _ hb
        rw [Migration.file_rmdir] at hb
        split at hb
        · cases hb
        · exact hb
    | create k name =>
        obtain rfl := ha
        subst hc
        exact hw.put name []
    | append k name byte =>
        obtain rfl := ha
        obtain ⟨bytes, _, rfl⟩ := hc
        exact hw.put name _
    | write key bytes =>
        rcases hc with rfl | rfl
        · exact hw.of_file (by simp)
        · exact hw.put key bytes
    | trackSpendableOutputs outputs h =>
        subst hc
        exact hw.of_file fun _ _ _ _ hb => hb
    | _ => exact hc.elim

theorem act_outside {a : SweepAct D} (ha : Outside a) : (act a).Every Outside :=
  ⟨ha, fun _ => trivial⟩

theorem removeDirAll_outside (k : SweepDir) : (removeDirAll (D := D) k).Every Outside := by
  refine .andThen (act_outside trivial) fun names => .andThen ?_ fun _ => act_outside trivial
  induction names with
  | nil => exact trivial
  | cons name names ih => exact .andThen (act_outside trivial) fun _ => ih

theorem movePending_outside (names : List String) :
    (movePending (D := D) names).Every Outside := by
  induction names with
  | nil => exact trivial
  | cons name names ih =>
      unfold movePending
      split
      · rename_i hlen
        exact .andThen (act_outside trivial) fun _ =>
          .andThen (act_outside (Or.inl ⟨rfl, rfl, rfl, hlen⟩)) fun _ => ih
      · exact ih

theorem readProcessing_outside : (readProcessing (D := D)).Every Outside := by
  refine ⟨trivial, fun r => ?_⟩
  cases r with
  | error e => exact trivial
  | ok names =>
      have happend : ∀ outputs, (appendFiles (D := D) names outputs).Every Outside := by
        induction names with
        | nil => exact fun _ => trivial
        | cons name names ih => exact fun _ => .andThen (act_outside trivial) fun _ => ih _
      exact happend []

theorem storeWrite_outside (key : String) (bytes : Bytes) :
    (storeWrite (D := D) key bytes).Every Outside := by
  have happend : ∀ name, (appendAll (D := D) name bytes).Every Outside := by
    intro name
    induction bytes with
    | nil => exact trivial
    | cons byte bytes ih => exact .andThen (act_outside rfl) fun _ => ih
  refine .andThen (act_outside trivial) fun _ => ⟨trivial, fun counter => ?_⟩
  refine .andThen (act_outside rfl) fun _ => .andThen (happend _) fun _ => ?_
  refine .andThen (act_outside trivial) fun _ => ?_
  exact .andThen (act_outside (Or.inr rfl)) fun _ => act_outside trivial

theorem readSpendable_outside (codec : Codec D) : (readSpendable codec).Every Outside := by
  refine ⟨trivial, fun r => ?_⟩
  cases r with
  | error e => exact trivial
  | ok names =>
      have hread : ∀ outputs, (readDescriptors codec names outputs).Every Outside := by
        induction names with
        | nil => exact fun _ => trivial
        | cons name names ih =>
            intro outputs
            refine .andThen (act_outside trivial) fun bytes => ?_
            split
            · exact trivial
            · exact ih _
      exact hread []

theorem migrate_outside (codec : Codec D) : (migrate codec storeWrite).Every Outside := by
  refine .andThen ⟨trivial, fun r => ?_⟩ fun _ => ⟨trivial, fun height => ?_⟩
  · cases r with
    | error e => exact trivial
    | ok names =>
        refine .andThen (movePending_outside names) fun _ => ?_
        refine .andThen readProcessing_outside fun outputs => ?_
        split
        · exact trivial
        · exact ⟨trivial, fun random => .andThen (storeWrite_outside _ _) fun _ =>
            removeDirAll_outside .processing⟩
  · refine .andThen (readSpendable_outside codec) fun outputs => ?_
    refine .andThen (act_outside trivial) fun _ => ?_
    exact .andThen (removeDirAll_outside .spendable) fun _ => removeDirAll_outside .pending

theorem resumed_outside (codec : Codec D) : (resumed codec).Every Outside := by
  have hmigrate := migrate_outside codec
  refine ⟨trivial, fun r => ?_⟩
  cases r with
  | true => exact hmigrate
  | false =>
      refine ⟨trivial, fun r => ?_⟩
      cases r with
      | true => exact hmigrate
      | false =>
          refine ⟨trivial, fun r => ?_⟩
          cases r with
          | true => exact hmigrate
          | false => exact trivial

/-- Earlier runs keep the files outside the spendable directory whole. -/
def earlier (codec : Codec D) : Outline (migrations codec storeWrite) :=
  .solo _ (FilesWhole codec) (fun _ => True) (fun _ _ => True)
    (by
      intro s p s' hstart hi _
      obtain ⟨rfl, rfl⟩ := hstart
      have hrule : (Discipline.solo (migrations codec storeWrite) (FilesWhole codec)).Triple ()
          (fun _ => True) (resumed codec) fun _ _ => True :=
        .of_every (fun a ha s hw r s' he => FilesWhole.exec ha hw he) (resumed_outside codec)
      exact ⟨hi, hrule s' hi trivial⟩)
    (by
      intro x s s' hf hi _
      cases x with
      | ok _ =>
          rw [hf]
          exact ⟨hi.of_file fun _ _ _ _ hb => hb, trivial⟩
      | error e =>
          rw [hf]
          exact ⟨hi, trivial⟩)
    (fun h => h)
    (by
      intro s s' hs' hi
      rw [hs']
      exact ⟨hi, trivial⟩)

end Sweep

open Sweep in
/-- After any earlier runs, each cut anywhere: a run that meets no fault returns
and leaves nothing to do, exactly if it finds what it needs. -/
theorem migration_resumes {D : Type} {codec : Codec D} (hc : codec.Consumes) {s : Migration D}
    (hs : ∀ k name bytes, Counts k name → s.file k name = some bytes → Whole codec bytes)
    {c : Config Unit (SweepAct D) SweepAct.Answer (Except SweepError Unit) (Migration D)}
    (h : (migrations codec storeWrite).Reach (.idle s) c) :
    Resumes codec c.state ↔ CanResume codec c.state := by
  have hinit : (earlier codec).Inv (.idle s) :=
    .init _ (fun k name bytes _ => hs k name bytes) fun _ => trivial
  have hw : FilesWhole codec c.state := (hinit.reach _ h).1.state
  exact ⟨canResume_of_resumes, resumes_of_canResume hc hw⟩

theorem Sweep.twoFiles_whole (k : SweepDir) (name : String) (bytes : Bytes)
    (_ : Counts k name) (_ : twoFiles.file k name = some bytes) : Whole byteCodec bytes :=
  ⟨bytes, by simp [byteCodec]⟩

open Sweep in
/-- One file in each of two directories, and a run killed at once. -/
theorem migration_resumes_two : Resumes byteCodec twoFiles := by
  have hreach : (migrations byteCodec storeWrite).Reach (.idle twoFiles) (.idle twoFiles) :=
    .single (.crash rfl)
  refine (migration_resumes byteCodec_consumes twoFiles_whole hreach).mpr ?_
  refine Or.inr ⟨rfl, fun name bytes _ => ?_, Or.inl ⟨"a", [7], by decide, by decide⟩⟩
  obtain ⟨ds, rfl⟩ : Whole byteCodec bytes := ⟨bytes, by simp [byteCodec]⟩
  rw [Codec.all_flatMap byteCodec_consumes]
  rfl

open Sweep in
/-- A run killed when it has deleted the spendable directory and not yet the
pending one: the next run panics. -/
theorem migration_stuck : ∃ c, (migrations byteCodec storeWrite).Reach (.idle twoFiles) c ∧
    ¬ Resumes byteCodec c.state := by
  have hstep : ∀ (a : SweepAct UInt8) (s : Migration UInt8) (r : a.Answer) (s' : Migration UInt8),
      some (smoothly (.replicate 32 0) a s) = some (r, s') → Exec a s r s' := by
    intro a s r s' he
    have hdo := smoothly_perform (List.length_replicate (n := 32) (a := 0)) a s
    rw [Option.some.inj he] at hdo
    exact Or.inl hdo
  have hcan : (migrations byteCodec storeWrite).Can (.idle twoFiles) fun c =>
      c.state.dirs .pending = some ∅ ∧ c.state.dirs .processing = none ∧
        c.state.dirs .spendable = none := by
    refine .step (.start (t := ()) rfl ⟨rfl, rfl⟩) ?_
    refine .acts (t := ()) hstep 25 ?_
    exact .step (.crash rfl) (.here ⟨rfl, rfl, rfl⟩)
  obtain ⟨c, hreach, hp, hpr, hsp⟩ := hcan
  refine ⟨c, hreach, ?_⟩
  intro hresumes
  rcases canResume_of_resumes hresumes with hnone | ⟨_, _, ⟨n, bytes, hb, _⟩ | ⟨hspend, _⟩⟩
  · have hpend := hnone .pending
    simp [Migration.has, hp] at hpend
  · simp [merged, Migration.file, hp, hpr] at hb
  · simp [Migration.has, hsp] at hspend

end LightningNode
