/-
# `LightningNode.Node.SweepSafety` — no spendable output is lost

A descriptor in one of the three directories stays in one of them until the
sweeper has it, whichever action of a run a crash or a panic comes after.

    Moving, Appended      the first half, and how far it is
    Moved, Collected      the second

Each is about one descriptor, and says where it can still be.
-/
import LightningNode.Node.Sweep

namespace LightningNode

open Conc

namespace Sweep

variable {D : Type}

/-! ## What is in the files -/

/-- A file that counts: in the pending directory others may be temporary files. -/
def Counts (k : SweepDir) (name : String) : Prop := k = .pending → name.utf8ByteSize = 64

variable (codec : Codec D)

/-- Descriptors, one after another. -/
def Whole (bytes : Bytes) : Prop := ∃ ds : List D, bytes = ds.flatMap codec.write

def InFile (s : Migration D) (k : SweepDir) (name : String) (d : D) : Prop :=
  ∃ ds : List D, s.file k name = some (ds.flatMap codec.write) ∧ d ∈ ds

/-- The descriptor is in a file of one of the three directories. -/
def Present (s : Migration D) (d : D) : Prop := ∃ k name, Counts k name ∧ InFile codec s k name d

/-- The files hold whole descriptors, and no name is both in the pending and in
the processing directory. -/
structure WellFormed (s : Migration D) : Prop where
  whole : ∀ k name bytes, Counts k name → s.file k name = some bytes → Whole codec bytes
  disjoint : ∀ name, s.file .pending name = none ∨ s.file .processing name = none

/-- The descriptor is where it has to be. -/
structure Safe (d : D) (s : Migration D) : Prop where
  wellFormed : WellFormed codec s
  safe : Present codec s d ∨ d ∈ s.tracked
  returned : s.returned = true → d ∈ s.tracked

variable {codec} {d : D} {s s' : Migration D} {k : SweepDir} {name : String} {bytes : Bytes}

theorem not_inFile_of_none (h : s.file k name = none) : ¬ InFile codec s k name d := by
  rintro ⟨ds, hf, _⟩
  rw [h] at hf
  exact nomatch hf

/-- What is in a file of whole descriptors. -/
theorem mem_of_inFile (hc : codec.Consumes) {ds : List D}
    (hf : s.file k name = some (ds.flatMap codec.write)) (h : InFile codec s k name d) :
    d ∈ ds := by
  obtain ⟨ds', hf', hmem⟩ := h
  rw [hf] at hf'
  have hall : codec.all (ds.flatMap codec.write) = some ds' := by
    rw [Option.some.inj hf']
    exact Codec.all_flatMap hc ds'
  rw [Codec.all_flatMap hc ds] at hall
  rw [Option.some.inj hall]
  exact hmem

/-- Nothing that counts is touched. -/
theorem Safe.of_file_eq (h : Safe codec d s)
    (hf : ∀ k name, Counts k name → s'.file k name = s.file k name)
    (hd : ∀ name, s'.file .pending name = none ∨ s'.file .processing name = none)
    (ht : s'.tracked = s.tracked) (hr : s'.returned = s.returned) : Safe codec d s' := by
  refine ⟨⟨?_, hd⟩, ?_, ?_⟩
  · intro k name bytes hc hb
    rw [hf k name hc] at hb
    exact h.wellFormed.whole k name bytes hc hb
  · rw [ht]
    rcases h.safe with ⟨k, name, hc, ds, hb, hd⟩ | h
    · exact Or.inl ⟨k, name, hc, ds, (hf k name hc).trans hb, hd⟩
    · exact Or.inr h
  · rw [ht, hr]
    exact h.returned

theorem Safe.mkdir (h : Safe codec d s) : Safe codec d (s.mkdir k) :=
  h.of_file_eq (fun _ _ _ => Migration.file_mkdir) (by simpa using h.wellFormed.disjoint) rfl rfl

theorem Safe.rmdir (h : Safe codec d s) (he : ∀ name, s.file k name = none) :
    Safe codec d (s.rmdir k) := by
  have hf : ∀ k' name, (s.rmdir k).file k' name = s.file k' name := by
    intro k' name
    rw [Migration.file_rmdir]
    split
    · rename_i hk
      rw [hk, he]
    · rfl
  refine h.of_file_eq (fun k' name _ => hf k' name) ?_ rfl rfl
  simpa only [hf] using h.wellFormed.disjoint

/-- A file is deleted; its descriptors are elsewhere, or it has none. -/
theorem Safe.drop (h : Safe codec d s)
    (hd : Counts k name → InFile codec s k name d → d ∈ s.tracked ∨
      ∃ k' name', Counts k' name' ∧ (k' ≠ k ∨ name' ≠ name) ∧ InFile codec s k' name' d) :
    Safe codec d (s.drop k name) := by
  have hkeep : ∀ {k' name'}, (k' ≠ k ∨ name' ≠ name) →
      InFile codec s k' name' d → InFile codec (s.drop k name) k' name' d := by
    rintro k' name' hne ⟨ds, hf, hmem⟩
    refine ⟨ds, ?_, hmem⟩
    rw [Migration.file_drop, if_neg (by tauto)]
    exact hf
  refine ⟨⟨?_, ?_⟩, ?_, h.returned⟩
  · intro k' name' bytes hc hb
    rw [Migration.file_drop] at hb
    split at hb
    · exact nomatch hb
    · exact h.wellFormed.whole k' name' bytes hc hb
  · intro n
    simp only [Migration.file_drop]
    rcases h.wellFormed.disjoint n with hn | hn
    · left
      split <;> [rfl; exact hn]
    · right
      split <;> [rfl; exact hn]
  · rcases h.safe with ⟨k', name', hc, hin⟩ | ht
    · by_cases hne : k' = k ∧ name' = name
      · obtain ⟨rfl, rfl⟩ := hne
        rcases hd hc hin with ht | ⟨k'', name'', hc'', hne, hin'⟩
        · exact Or.inr ht
        · exact Or.inl ⟨k'', name'', hc'', hkeep hne hin'⟩
      · exact Or.inl ⟨k', name', hc, hkeep (by tauto) hin⟩
    · exact Or.inr ht

/-- A file of whole descriptors is added. -/
theorem Safe.put (h : Safe codec d s) (hw : Whole codec bytes)
    (hnew : s.file .spendable name = none) : Safe codec d (s.put .spendable name bytes) := by
  refine ⟨⟨?_, ?_⟩, ?_, h.returned⟩
  · intro k' name' bytes' hc hb
    rw [Migration.file_put] at hb
    split at hb
    · cases hb
      exact hw
    · exact h.wellFormed.whole k' name' bytes' hc hb
  · simpa using h.wellFormed.disjoint
  · rcases h.safe with ⟨k', name', hc, ds, hf, hmem⟩ | ht
    · refine Or.inl ⟨k', name', hc, ds, ?_, hmem⟩
      rw [Migration.file_put, if_neg ?_]
      · exact hf
      · rintro ⟨rfl, rfl⟩
        rw [hnew] at hf
        exact nomatch hf
    · exact Or.inr ht

/-- A pending file becomes a processing file. -/
theorem Safe.move (h : Safe codec d s) (hf : s.file .pending name = some bytes)
    (hlen : name.utf8ByteSize = 64) :
    Safe codec d ((s.drop .pending name).put .processing name bytes) := by
  have hnone : s.file .processing name = none := by
    rcases h.wellFormed.disjoint name with hn | hn
    · rw [hf] at hn
      exact nomatch hn
    · exact hn
  have hfile : ∀ k' name', ((s.drop .pending name).put .processing name bytes).file k' name' =
      if name' = name then
        match k' with
        | .pending => none
        | .processing => some bytes
        | .spendable => s.file .spendable name
      else s.file k' name' := by
    intro k' name'
    by_cases hn : name' = name
    · subst hn
      cases k' <;> simp
    · simp [hn]
  refine ⟨⟨?_, ?_⟩, ?_, h.returned⟩
  · intro k' name' bytes' hc hb
    rw [hfile] at hb
    split at hb
    · rename_i hn
      subst hn
      cases k' with
      | pending => exact nomatch hb
      | processing =>
          cases hb
          exact h.wellFormed.whole .pending name' _ (fun _ => hlen) hf
      | spendable => exact h.wellFormed.whole .spendable name' bytes' nofun hb
    · exact h.wellFormed.whole k' name' bytes' hc hb
  · intro n
    simp only [hfile]
    by_cases hn : n = name
    · simp [hn]
    · simpa [hn] using h.wellFormed.disjoint n
  · rcases h.safe with ⟨k', name', hc, ds, hb, hmem⟩ | ht
    · by_cases hn : name' = name
      · subst hn
        refine Or.inl ?_
        cases k' with
        | pending =>
            rw [hf] at hb
            refine ⟨.processing, name', nofun, ds, ?_, hmem⟩
            rw [hfile, if_pos rfl]
            exact hb
        | processing =>
            rw [hnone] at hb
            exact nomatch hb
        | spendable =>
            refine ⟨.spendable, name', nofun, ds, ?_, hmem⟩
            rw [hfile, if_pos rfl]
            exact hb
      · refine Or.inl ⟨k', name', hc, ds, ?_, hmem⟩
        rw [hfile, if_neg hn]
        exact hb
    · exact Or.inr ht

theorem Safe.track (h : Safe codec d s) (ds : List D) :
    Safe codec d { s with tracked := ds ++ s.tracked } :=
  ⟨⟨h.wellFormed.whole, h.wellFormed.disjoint⟩,
    h.safe.imp_right fun ht => List.mem_append_right _ ht,
    fun hr => List.mem_append_right _ (h.returned hr)⟩

/-! ## A run -/

/-- Of the pending files that count, only those of `rest` are left. -/
def Moving (rest : List String) (s : Migration D) : Prop :=
  s.has .pending = true ∧ ∀ name bytes, name.utf8ByteSize = 64 →
    s.file .pending name = some bytes → name ∈ rest

/-- `outputs` are whole descriptors, with the one looked for if it is in a
processing file that is not of `rest`. -/
def Appended (codec : Codec D) (d : D) (rest : List String) (outputs : Bytes)
    (s : Migration D) : Prop :=
  Moving [] s ∧ ∃ ds : List D, outputs = ds.flatMap codec.write ∧
    ∀ name, InFile codec s .processing name d → name ∈ rest ∨ d ∈ ds

/-- Nothing is left to be moved, unless there is no pending directory. -/
def Moved (codec : Codec D) (d : D) (s : Migration D) : Prop :=
  s.has .pending = true → Moving [] s ∧ ∀ name, ¬ InFile codec s .processing name d

/-- `outputs` has the descriptor looked for, if it is in a spendable file that is
not of `rest`. -/
def Collected (codec : Codec D) (d : D) (rest : List String) (outputs : List D)
    (s : Migration D) : Prop :=
  Moved codec d s ∧ ∀ name, InFile codec s .spendable name d → name ∈ rest ∨ d ∈ outputs

section Run

variable {S : System Unit (SweepAct D) SweepAct.Answer (Except SweepError Unit) (Migration D)}

theorem Moving.of_pending {rest : List String} (h : Moving rest s)
    (hh : s'.has .pending = s.has .pending)
    (hf : ∀ name bytes, s'.file .pending name = some bytes → s.file .pending name = some bytes) :
    Moving rest s' := by
  refine ⟨hh.trans h.1, ?_⟩
  intro name bytes hlen hb
  exact h.2 name bytes hlen (hf name bytes hb)

theorem movePending_rule (hS : ∀ a s r s', S.exec () a s r s' → Exec a s r s')
    (names : List String) :
    (Discipline.solo S (Safe codec d)).Triple () (Moving names) (movePending names)
      (OnOk fun _ => Moving []) := by
  induction names with
  | nil => exact .solo_ret fun _ _ h => h
  | cons name names ih =>
      unfold movePending
      split
      · rename_i hlen
        refine andThen_rule (M := fun _ => Moving (name :: names)) ?_ fun _ => ?_
        · refine createDirAll_rule hS ?_
          intro s hi hm
          exact ⟨hi.mkdir, hm.of_pending (by simp) (by simp)⟩
        refine andThen_rule (M := fun _ => Moving names) ?_ fun _ => ih
        refine rename_rule hS ?_
        intro s bytes hi hm hf
        refine ⟨hi.move hf hlen, by simpa using hm.1, ?_⟩
        intro n b hn hb
        simp only [Migration.file_put, Migration.file_drop] at hb
        split at hb
        · rename_i h
          exact nomatch h.1
        · split at hb
          · exact nomatch hb
          · rename_i hne
            rcases List.mem_cons.mp (hm.2 n b hn hb) with rfl | hmem
            · exact absurd ⟨trivial, rfl⟩ hne
            · exact hmem
      · rename_i hlen
        refine ih.weaken ?_
        rintro s _ ⟨hh, hm⟩
        refine ⟨hh, ?_⟩
        intro n b hn hb
        rcases List.mem_cons.mp (hm n b hn hb) with rfl | hmem
        · exact absurd hn hlen
        · exact hmem

theorem appendFiles_rule (hc : codec.Consumes) (hS : ∀ a s r s', S.exec () a s r s' → Exec a s r s')
    (names : List String) : ∀ outputs : Bytes,
    (Discipline.solo S (Safe codec d)).Triple () (Appended codec d names outputs)
      (appendFiles names outputs) (OnOk fun outputs => Appended codec d [] outputs) := by
  induction names with
  | nil => exact fun _ => .solo_ret fun _ _ h => h
  | cons name names ih =>
      intro outputs
      refine andThen_rule (M := fun bytes => Appended codec d names (outputs ++ bytes)) ?_
        fun bytes => ih (outputs ++ bytes)
      refine readFile_rule hS ?_
      rintro s bytes hi ⟨hm, ds, rfl, hds⟩ hf
      obtain ⟨ds', rfl⟩ := hi.wellFormed.whole .processing name bytes nofun hf
      refine ⟨hm, ds ++ ds', List.flatMap_append.symm, ?_⟩
      intro n hin
      rcases hds n hin with hmem | hmem
      · rcases List.mem_cons.mp hmem with rfl | hmem
        · exact Or.inr (List.mem_append_right _ (mem_of_inFile hc hf hin))
        · exact Or.inl hmem
      · exact Or.inr (List.mem_append_left _ hmem)

theorem listed_of_inFile {names : List String} (hl : s.Lists k names)
    (h : InFile codec s k name d) : name ∈ names := by
  obtain ⟨ds, hf, _⟩ := h
  exact (hl.2 name).mpr (by rw [hf]; rfl)

theorem readProcessing_rule (hc : codec.Consumes)
    (hS : ∀ a s r s', S.exec () a s r s' → Exec a s r s') :
    (Discipline.solo S (Safe codec d)).Triple () (Moving []) readProcessing
      (OnOk fun outputs => Appended codec d [] outputs) := by
  refine .bind (p := act (.readDir .processing))
    (fun r => Appended codec d (r.toOption.getD []) []) ?_ fun r => ?_
  · refine readDir_rule hS ?_ ?_
    · intro s names hi hm hh hl
      exact ⟨hm, [], rfl, fun n hin => Or.inl (listed_of_inFile hl hin)⟩
    · intro s e hi hm hh
      refine ⟨hm, [], rfl, ?_⟩
      intro n hin
      exact absurd hin (not_inFile_of_none (Migration.file_of_not_has hh))
  · cases r with
    | ok names => exact appendFiles_rule hc hS names []
    | error e => exact .solo_ret fun _ _ h => h

theorem atomicWrite_rule (hS : ∀ a s r s', S.exec () a s r s' → Exec a s r s') {key : String}
    {outputs : Bytes} :
    (Discipline.solo S (Safe codec d)).Triple ()
      (fun s => Appended codec d [] outputs s ∧ s.file .spendable key = none)
      (atomicWrite key outputs)
      (OnOk fun _ s => Moving [] s ∧ ∀ name, InFile codec s .processing name d →
        ∃ name', InFile codec s .spendable name' d) := by
  have hput : ∀ s, Safe codec d s → Appended codec d [] outputs s →
      s.file .spendable key = none → Safe codec d (s.put .spendable key outputs) := by
    rintro s hi ⟨_, ds, hds, _⟩ hnew
    exact hi.put ⟨ds, hds⟩ hnew
  refine act_rule hS _ ?_ ?_
  · rintro s hi ⟨ha, hnew⟩ r _ ⟨rfl, rfl⟩
    refine ⟨hput s hi ha hnew, ?_⟩
    obtain ⟨hm, ds, rfl, hds⟩ := ha
    refine ⟨hm.of_pending (by simp) (by simp), ?_⟩
    rintro n ⟨ds', hf, hmem⟩
    have hin : InFile codec s .processing n d := ⟨ds', by simpa using hf, hmem⟩
    rcases hds n hin with h | h
    · exact nomatch h
    · exact ⟨key, ds, by simp, h⟩
  · rintro s hi ⟨ha, hnew⟩ r s' ⟨⟨e, rfl⟩, rfl | rfl | rfl⟩
    · exact ⟨hi, trivial⟩
    · exact ⟨hi.mkdir, trivial⟩
    · exact ⟨hput s hi ha hnew, trivial⟩

/-- The processing directory goes, once what is in it is also in a spendable
file. -/
theorem removeProcessing_rule (hS : ∀ a s r s', S.exec () a s r s' → Exec a s r s') :
    (Discipline.solo S (Safe codec d)).Triple ()
      (fun s => Moving [] s ∧ ∀ name, InFile codec s .processing name d →
        ∃ name', InFile codec s .spendable name' d)
      (removeDirAll .processing) (OnOk fun _ => Moved codec d) := by
  have hdropped : ∀ {s : Migration D} {name k' n}, InFile codec (s.drop .processing name) k' n d →
      InFile codec s k' n d := by
    rintro s name k' n ⟨ds, hf, hmem⟩
    rw [Migration.file_drop] at hf
    split at hf
    · exact nomatch hf
    · exact ⟨ds, hf, hmem⟩
  refine removeDirAll_rule hS ?_ ?_
  · rintro s name bytes hi ⟨hm, hin⟩ hf
    refine ⟨hi.drop ?_, hm.of_pending (by simp) (by simp), ?_⟩
    · intro _ h
      obtain ⟨n, hn⟩ := hin name h
      exact Or.inr ⟨.spendable, n, nofun, Or.inl nofun, hn⟩
    · intro n h
      obtain ⟨n', ds, hf', hmem⟩ := hin n (hdropped h)
      exact ⟨n', ds, by simpa using hf', hmem⟩
  · rintro s hi ⟨hm, hin⟩ hh he
    refine ⟨hi.rmdir he, ?_⟩
    intro _
    refine ⟨hm.of_pending (by simp) (by simp), ?_⟩
    intro n
    exact not_inFile_of_none (by simp)

theorem movePendingToSpendable_rule (hc : codec.Consumes)
    (hS : ∀ a s r s', S.exec () a s r s' → Exec a s r s')
    (hfresh : ∀ a s r s', S.exec () a s r s' → FreshKey () a s r) :
    (Discipline.solo S (Safe codec d)).Triple () (fun _ => True)
      (movePendingToSpendable atomicWrite) (OnOk fun _ => Moved codec d) := by
  refine .bind (p := act (.readDir .pending)) (fun r s => match r with
    | .ok names => Moving names s
    | .error _ => s.has .pending = false) ?_ fun r => ?_
  · refine readDir_rule hS ?_ ?_
    · intro s names _ _ hh hl
      refine ⟨hh, ?_⟩
      intro n b _ hb
      exact (hl.2 n).mpr (by rw [hb]; rfl)
    · intro s e _ _ hh
      exact hh
  cases r with
  | error e =>
      refine .solo_ret ?_
      intro s _ (hh : s.has .pending = false) hh'
      rw [hh] at hh'
      exact nomatch hh'
  | ok names =>
      refine andThen_rule (movePending_rule hS names) fun _ => ?_
      refine andThen_rule (readProcessing_rule hc hS) fun outputs => ?_
      split
      · rename_i hempty
        refine .solo_ret ?_
        rintro s _ ⟨hm, ds, rfl, hds⟩ _
        refine ⟨hm, ?_⟩
        intro n hin
        rcases hds n hin with h | h
        · exact nomatch h
        · have hnil : ds.flatMap codec.write = [] := List.isEmpty_iff.mp hempty
          exact hc.write_ne_nil d (List.flatMap_eq_nil_iff.mp hnil d h)
      · refine .solo (fun r s => Appended codec d [] outputs s ∧
          s.file .spendable (hexStr r) = none) ?_ fun r => ?_
        · intro s hi ha r s' he
          have hnew := hfresh _ s r s' he
          rcases hS _ s r s' he with ⟨_, hs'⟩ | h
          · rw [hs']
            exact ⟨hi, ha, hnew⟩
          · exact h.elim
        · exact andThen_rule (atomicWrite_rule hS) fun _ => removeProcessing_rule hS

theorem readDescriptors_rule (hc : codec.Consumes)
    (hS : ∀ a s r s', S.exec () a s r s' → Exec a s r s') (names : List String) :
    ∀ outputs : List D,
    (Discipline.solo S (Safe codec d)).Triple () (Collected codec d names outputs)
      (readDescriptors codec names outputs) (OnOk fun outputs => Collected codec d [] outputs) := by
  induction names with
  | nil => exact fun _ => .solo_ret fun _ _ h => h
  | cons name names ih =>
      intro outputs
      refine andThen_rule (M := fun bytes s => Collected codec d (name :: names) outputs s ∧
        s.file .spendable name = some bytes) ?_ fun bytes => ?_
      · refine readFile_rule hS ?_
        intro s bytes _ hcol hf
        exact ⟨hcol, hf⟩
      cases hall : codec.all bytes with
      | none => exact .solo_ret fun _ _ _ => trivial
      | some ds =>
          refine (ih (outputs ++ ds)).weaken ?_
          rintro s hi ⟨⟨hm, hcol⟩, hf⟩
          refine ⟨hm, ?_⟩
          intro n hin
          rcases hcol n hin with hmem | hmem
          · rcases List.mem_cons.mp hmem with rfl | hmem
            · obtain ⟨ds', rfl⟩ := hi.wellFormed.whole .spendable n bytes nofun hf
              rw [Codec.all_flatMap hc] at hall
              rw [← Option.some.inj hall]
              exact Or.inr (List.mem_append_right _ (mem_of_inFile hc hf hin))
            · exact Or.inl hmem
          · exact Or.inr (List.mem_append_left _ hmem)

theorem readSpendable_rule (hc : codec.Consumes)
    (hS : ∀ a s r s', S.exec () a s r s' → Exec a s r s') :
    (Discipline.solo S (Safe codec d)).Triple () (Moved codec d) (readSpendable codec)
      (OnOk fun outputs => Collected codec d [] outputs) := by
  refine .bind (p := act (.readDir .spendable))
    (fun r => Collected codec d (r.toOption.getD []) []) ?_ fun r => ?_
  · refine readDir_rule hS ?_ ?_
    · intro s names hi hm hh hl
      exact ⟨hm, fun n hin => Or.inl (listed_of_inFile hl hin)⟩
    · intro s e hi hm hh
      refine ⟨hm, ?_⟩
      intro n hin
      exact absurd hin (not_inFile_of_none (Migration.file_of_not_has hh))
  · cases r with
    | ok names => exact readDescriptors_rule hc hS names []
    | error e => exact .solo_ret fun _ _ h => h

theorem Moved.of_file (h : Moved codec d s) (hh : s'.has .pending = true → s.has .pending = true)
    (hf : ∀ k name bytes, s'.file k name = some bytes → s.file k name = some bytes) :
    Moved codec d s' := by
  intro hh'
  obtain ⟨hm, hin⟩ := h (hh hh')
  refine ⟨⟨hh', fun n b hn hb => hm.2 n b hn (hf .pending n b hb)⟩, ?_⟩
  rintro n ⟨ds, hf', hmem⟩
  exact hin n ⟨ds, hf .processing n _ hf', hmem⟩

/-- The spendable directory goes, once what is in it is tracked. -/
theorem removeSpendable_rule (hS : ∀ a s r s', S.exec () a s r s' → Exec a s r s') :
    (Discipline.solo S (Safe codec d)).Triple ()
      (fun s => Moved codec d s ∧ ∀ name, InFile codec s .spendable name d → d ∈ s.tracked)
      (removeDirAll .spendable)
      (OnOk fun _ s => Moved codec d s ∧ ∀ name, ¬ InFile codec s .spendable name d) := by
  refine removeDirAll_rule hS ?_ ?_
  · rintro s name bytes hi ⟨hm, hin⟩ hf
    have hfile : ∀ k n b, (s.drop .spendable name).file k n = some b → s.file k n = some b := by
      intro k n b hb
      rw [Migration.file_drop] at hb
      split at hb
      · exact nomatch hb
      · exact hb
    refine ⟨hi.drop fun _ h => Or.inl (hin name h), hm.of_file (by simp) hfile, ?_⟩
    rintro n ⟨ds, hf', hmem⟩
    exact hin n ⟨ds, hfile _ n _ hf', hmem⟩
  · rintro s hi ⟨hm, hin⟩ hh he
    refine ⟨hi.rmdir he, hm.of_file (by simp) ?_, ?_⟩
    · intro k n b hb
      rw [Migration.file_rmdir] at hb
      split at hb
      · exact nomatch hb
      · exact hb
    · intro n
      exact not_inFile_of_none (by simp)

/-- The pending directory goes last; where it was, no file has the descriptor. -/
theorem removePending_rule (hS : ∀ a s r s', S.exec () a s r s' → Exec a s r s') :
    (Discipline.solo S (Safe codec d)).Triple ()
      (fun s => Moved codec d s ∧ ∀ name, ¬ InFile codec s .spendable name d)
      (removeDirAll .pending) (OnOk fun _ s => d ∈ s.tracked) := by
  refine removeDirAll_rule hS ?_ ?_
  · rintro s name bytes hi ⟨hm, hin⟩ hf
    have hfile : ∀ k n b, (s.drop .pending name).file k n = some b → s.file k n = some b := by
      intro k n b hb
      rw [Migration.file_drop] at hb
      split at hb
      · exact nomatch hb
      · exact hb
    refine ⟨hi.drop ?_, hm.of_file (by simp) hfile, ?_⟩
    · intro hcounts _
      exact nomatch (hm (Migration.has_of_file hf)).1.2 name bytes (hcounts rfl) hf
    · rintro n ⟨ds, hf', hmem⟩
      exact hin n ⟨ds, hfile _ n _ hf', hmem⟩
  · rintro s hi ⟨hm, hin⟩ hh he
    refine ⟨hi.rmdir he, ?_⟩
    rcases hi.safe with ⟨k, n, hcounts, hpresent⟩ | ht
    · cases k with
      | pending => exact absurd hpresent (not_inFile_of_none (he n))
      | processing => exact absurd hpresent ((hm hh).2 n)
      | spendable => exact absurd hpresent (hin n)
    · exact ht

theorem trackSpendable_rule (hc : codec.Consumes)
    (hS : ∀ a s r s', S.exec () a s r s' → Exec a s r s') :
    (Discipline.solo S (Safe codec d)).Triple () (Moved codec d) (trackSpendable codec)
      (OnOk fun _ s => d ∈ s.tracked) := by
  refine .bind (p := act .currentBestBlock) (fun _ => Moved codec d) ?_ fun height => ?_
  · refine act_rule hS _ ?_ (fun _ _ _ _ _ h => h.elim)
    rintro s hi hm _ _ rfl
    exact ⟨hi, hm⟩
  refine andThen_rule (readSpendable_rule hc hS) fun outputs => ?_
  refine andThen_rule (M := fun _ s => Moved codec d s ∧
    ∀ name, InFile codec s .spendable name d → d ∈ s.tracked) ?_ fun _ => ?_
  · refine act_rule hS _ ?_ ?_
    · rintro s hi ⟨hm, hcol⟩ r _ ⟨rfl, rfl⟩
      refine ⟨hi.track outputs, hm, ?_⟩
      intro n hin
      rcases hcol n hin with h | h
      · exact nomatch h
      · exact List.mem_append_left _ h
    · rintro s hi _ r _ ⟨⟨e, rfl⟩, rfl⟩
      exact ⟨hi, trivial⟩
  exact andThen_rule (removeSpendable_rule hS) fun _ => removePending_rule hS

theorem migrate_rule (hc : codec.Consumes)
    (hS : ∀ a s r s', S.exec () a s r s' → Exec a s r s')
    (hfresh : ∀ a s r s', S.exec () a s r s' → FreshKey () a s r) :
    (Discipline.solo S (Safe codec d)).Triple () (fun _ => True)
      (migrateDeprecatedSpendableOutputs codec atomicWrite) (OnOk fun _ s => d ∈ s.tracked) := by
  have hmigrate : (Discipline.solo S (Safe codec d)).Triple () (fun _ => True)
      (migrate codec atomicWrite) (OnOk fun _ s => d ∈ s.tracked) :=
    andThen_rule (movePendingToSpendable_rule hc hS hfresh) fun _ => trackSpendable_rule hc hS
  refine exists_rule hS .pending (Q := fun s => s.has .pending = false) (fun _ _ h => h) hmigrate ?_
  refine exists_rule hS .processing (Q := fun s => s.has .pending = false ∧ s.has .processing = false)
    (fun _ h h' => ⟨h, h'⟩) hmigrate ?_
  refine exists_rule hS .spendable (Q := fun s => ∀ k, s.has k = false) ?_ hmigrate ?_
  · rintro s ⟨h₁, h₂⟩ h₃ k
    cases k <;> assumption
  · refine .solo_ret ?_
    intro s hi hnone
    rcases hi.safe with ⟨k, n, _, hin⟩ | ht
    · exact absurd hin (not_inFile_of_none (Migration.file_of_not_has (hnone k)))
    · exact ht

end Run

/-! ## All runs -/

def outline (hc : codec.Consumes) (d : D) :
    Outline ((migrations codec atomicWrite).onlyIf FreshKey) :=
  .solo _ (Safe codec d) (fun _ => True) (OnOk fun _ s => d ∈ s.tracked)
    (by
      rintro s p s' ⟨hp, hs'⟩ hi _
      rw [hp, hs']
      exact ⟨hi, migrate_rule hc (fun _ _ _ _ => And.left) (fun _ _ _ _ => And.right) s hi trivial⟩)
    (by
      intro x s s' hf hi hx
      cases x with
      | ok _ =>
          subst hf
          exact ⟨⟨⟨hi.wellFormed.whole, hi.wellFormed.disjoint⟩, hi.safe, fun _ => hx⟩, trivial⟩
      | error e =>
          subst hf
          exact ⟨hi, trivial⟩)
    (fun h => h)
    (by
      rintro s s' hs' hi
      rw [hs']
      exact ⟨hi, trivial⟩)

end Sweep

open Sweep in
/-- Runs one after another, each cut by a crash or a panic or left to return: a
descriptor that was in a file is in a file or tracked, and tracked once some run
has returned. -/
theorem migration_keeps_outputs {D : Type} {codec : Codec D} (hc : codec.Consumes)
    {s : Migration D} (hs : WellFormed codec s) (hnew : s.returned = false)
    {c : Config Unit (SweepAct D) SweepAct.Answer (Except SweepError Unit) (Migration D)}
    (h : ((migrations codec atomicWrite).onlyIf FreshKey).Reach (.idle s) c) {d : D}
    (hd : Present codec s d) :
    (Present codec c.state d ∨ d ∈ c.state.tracked) ∧
    (c.state.returned = true → d ∈ c.state.tracked) := by
  have hsafe : Safe codec d s := by
    refine ⟨hs, Or.inl hd, ?_⟩
    intro hr
    rw [hnew] at hr
    exact nomatch hr
  have hinit : (outline hc d).Inv (.idle s) := .init _ hsafe fun _ => trivial
  have hc' := (hinit.reach _ h).1.state
  exact ⟨hc'.safe, hc'.returned⟩

namespace Sweep

variable {D : Type}

/-- The random bytes are answered if they make a fresh key. -/
def freshly (random : Bytes) : (a : SweepAct D) → Migration D → Option (a.Answer × Migration D)
  | .getSecureRandomBytes, s =>
      if s.file .spendable (hexStr random) = none then some (random, s) else none
  | a, s => some (smoothly random a s)

theorem freshly_exec {random : Bytes} (hrandom : random.length = 32) (a : SweepAct D)
    (s : Migration D) (r : a.Answer) (s' : Migration D) (h : freshly random a s = some (r, s')) :
    Exec a s r s' ∧ FreshKey () a s r := by
  have hdo := smoothly_perform hrandom a s
  cases a with
  | getSecureRandomBytes =>
      simp only [freshly] at h
      split at h
      · rename_i hnew
        cases h
        exact ⟨Or.inl hdo, hnew⟩
      · exact nomatch h
  | _ =>
      have hrs : smoothly random _ s = (r, s') := Option.some.inj h
      rw [hrs] at hdo
      exact ⟨Or.inl hdo, trivial⟩

/-- A byte for a descriptor. -/
def byteCodec : Codec UInt8 where
  write b := [b]
  read
    | [] => none
    | b :: rest => some (b, rest)
  read_write _ _ := rfl

theorem byteCodec_consumes : byteCodec.Consumes := by
  intro bytes b rest h
  cases bytes with
  | nil => exact nomatch h
  | cons _ _ =>
      cases h
      exact Nat.lt_succ_self _

/-- One file in each of two directories. -/
def twoFiles : Migration UInt8 where
  dirs
    | .pending => some ∅
    | .processing => some ((∅ : AList fun _ : String => Bytes).insert "a" [7])
    | .spendable => some ((∅ : AList fun _ : String => Bytes).insert "b" [8])
  tracked := []
  returned := false

end Sweep

open Sweep in
/-- A run that returns, with one file in each of two directories. -/
theorem migration_keeps_outputs_two :
    ((migrations byteCodec atomicWrite).onlyIf FreshKey).Can (.idle twoFiles) fun c =>
      c.state.returned = true ∧ 7 ∈ c.state.tracked := by
  have hin : Present byteCodec twoFiles 7 :=
    ⟨.processing, "a", nofun, [7], rfl, List.mem_singleton_self 7⟩
  have hws : WellFormed byteCodec twoFiles := by
    refine ⟨?_, fun name => Or.inl (by simp [Migration.file, twoFiles])⟩
    intro k name bytes _ _
    exact ⟨bytes, by simp [byteCodec]⟩
  have hrun : run (freshly (.replicate 32 0))
      (migrateDeprecatedSpendableOutputs byteCodec atomicWrite) twoFiles = some (.ok (), _) := rfl
  have hreach : ((migrations byteCodec atomicWrite).onlyIf FreshKey).Reach (.idle twoFiles)
      (.idle _) :=
    System.reach_call (t := ()) (freshly_exec List.length_replicate) ⟨rfl, rfl⟩ hrun rfl
  exact ⟨_, hreach, rfl, (migration_keeps_outputs byteCodec_consumes hws rfl hreach hin).2 rfl⟩

end LightningNode
