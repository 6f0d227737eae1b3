/-
# `LightningNode.Node.SweepReader` — the descriptors of a file, read one by one

The loop of `migrate_deprecated_spendable_outputs` over the files of
`spendable_outputs`, with the reader it uses.  One byte is read to see whether
there is another descriptor; the reader then goes back over it, and the descriptor
is read from its start.

    nothing left      the file is done
    something left    a descriptor, or a panic

A file put together from older files holds their descriptors one after another.
-/
import LightningNode.Lib.BufReader
import LightningNode.Node.SweepResumed

namespace LightningNode

open Conc

namespace Sweep

variable {D : Type}

/-! ## The code -/

/-- Lines 58 to 62: the files read, one appended to another. -/
def appended (files : List Bytes) : Bytes := files.foldl (· ++ ·) []

/-- The `loop` over one file, `none` where it has not ended after `fuel` rounds. -/
def readLoop (c : Wire D) {f : SourceFile} :
    Nat → BufReader f → List D → Option (Except SweepError (List D))
  | 0, _, _ => none
  | fuel + 1, reader, outputs =>
      match reader.readExact 1 with
      | (none, _) => some (.ok outputs)
      | (some _, reader) =>
          match reader.seekCurrent (-1) with
          | none => some (.error (.io .invalidInput))
          | some reader =>
              match c.read.onFile reader with
              | (none, _) => some (.error .decode)
              | (some d, reader) => readLoop c fuel reader (outputs ++ [d])

/-- `DEFAULT_BUF_SIZE` -/
def DEFAULT_BUF_SIZE : Nat := 8 * 1024

/-- The loop over the files, of which none takes more than `fuel` rounds. -/
def readFiles (c : Wire D) (fuel : Nat) :
    List SourceFile → List D → Option (Except SweepError (List D))
  | [], outputs => some (.ok outputs)
  | f :: files, outputs =>
      match readLoop c fuel (BufReader.new f DEFAULT_BUF_SIZE) outputs with
      | some (.ok outputs) => readFiles c fuel files outputs
      | ended => ended

/-! ## One round -/

section

variable {c : Wire D} {f : SourceFile} {r : BufReader f} {fuel : Nat}

/-- Nothing is left to look at. -/
theorem readLoop_end (h : r.remaining = []) (outputs : List D) :
    readLoop c (fuel + 1) r outputs = some (.ok outputs) := by
  have hread := r.readExact_remaining 1
  rw [h] at hread
  have hnone : (r.readExact 1).1 = none := (Prod.mk.inj hread).1.symm
  unfold readLoop
  split
  · rfl
  · rename_i heq
    rw [heq] at hnone
    cases hnone

/-- A byte is looked at, and the reader is back where it was. -/
theorem readLoop_peek (h : r.remaining ≠ []) :
    ∃ bytes r₁ r', r.readExact 1 = (some bytes, r₁) ∧ r₁.seekCurrent (-1) = some r' ∧
      r'.remaining = r.remaining := by
  have hread := r.readExact_remaining 1
  obtain ⟨byte, bytes, hbytes⟩ := List.exists_cons_of_ne_nil h
  rw [hbytes] at hread
  have hsome : (r.readExact 1).1 = some [byte] := (Prod.mk.inj hread).1.symm
  obtain ⟨r', hseek, hrem⟩ := BufReader.seek_back (r.readExact_position hsome)
  exact ⟨[byte], (r.readExact 1).2, r', Prod.ext hsome rfl, hseek, hrem⟩

theorem readLoop_bad (h : r.remaining ≠ []) (hread : (c.read.onBytes r.remaining).1 = none)
    (outputs : List D) : readLoop c (fuel + 1) r outputs = some (.error .decode) := by
  obtain ⟨bytes, r₁, r', hpeek, hseek, hrem⟩ := readLoop_peek h
  rw [← hrem, c.read.onFile_remaining] at hread
  have hon : c.read.onFile r' = (none, (c.read.onFile r').2) := Prod.ext hread rfl
  rw [readLoop, hpeek]
  simp only [hseek]
  rw [hon]

theorem readLoop_next (h : r.remaining ≠ []) {d : D} {rest : Bytes}
    (hread : c.read.onBytes r.remaining = (some d, rest)) :
    ∃ r'' : BufReader f, r''.remaining = rest ∧
      ∀ fuel outputs,
        readLoop c (fuel + 1) r outputs = readLoop c fuel r'' (outputs ++ [d]) := by
  obtain ⟨bytes, r₁, r', hpeek, hseek, hrem⟩ := readLoop_peek h
  rw [← hrem, c.read.onFile_remaining] at hread
  obtain ⟨hd, hrest⟩ := Prod.mk.inj hread
  have hon : c.read.onFile r' = (some d, (c.read.onFile r').2) := Prod.ext hd rfl
  refine ⟨(c.read.onFile r').2, hrest, ?_⟩
  intro fuel outputs
  rw [readLoop, hpeek]
  simp only [hseek]
  rw [hon]

end

/-! ## A file -/

section

variable {c : Wire D} {f : SourceFile}

/-- What was written one after another is read one after another. -/
theorem readLoop_flatMap (hne : ∀ d, c.write d ≠ []) (ds : List D) :
    ∀ {fuel : Nat} {r : BufReader f} (outputs : List D), ds.length < fuel →
      r.remaining = ds.flatMap c.write → readLoop c fuel r outputs = some (.ok (outputs ++ ds)) := by
  induction ds with
  | nil =>
      intro fuel r outputs hfuel hrem
      obtain ⟨fuel, rfl⟩ := Nat.exists_eq_succ_of_ne_zero (Nat.ne_of_gt hfuel)
      rw [readLoop_end hrem, List.append_nil]
  | cons d ds ih =>
      intro fuel r outputs hfuel hrem
      obtain ⟨fuel, rfl⟩ := Nat.exists_eq_succ_of_ne_zero (Nat.ne_zero_of_lt hfuel)
      have hread := c.read_write d (ds.flatMap c.write)
      rw [← List.flatMap_cons, ← hrem] at hread
      have hrem' : r.remaining ≠ [] := by
        rw [hrem, List.flatMap_cons]
        exact List.append_ne_nil_of_left_ne_nil (hne d) _
      obtain ⟨r', hr', hnext⟩ := readLoop_next hrem' hread
      rw [hnext, ih _ (Nat.lt_of_succ_lt_succ hfuel) hr', List.append_assoc, List.singleton_append]

/-- Whatever the bytes are, the loop makes of them what `Codec.all` does. -/
theorem readLoop_all (hc : c.codec.Consumes) {n : Nat} :
    ∀ {fuel : Nat} {r : BufReader f} (outputs : List D), r.remaining.length ≤ n → n < fuel →
      readLoop c fuel r outputs =
        some (((c.codec.many n r.remaining).map (outputs ++ ·)).elim (.error .decode) .ok) := by
  induction n with
  | zero =>
      intro fuel r outputs hlen hfuel
      obtain ⟨fuel, rfl⟩ := Nat.exists_eq_succ_of_ne_zero (Nat.ne_zero_of_lt hfuel)
      have hrem := List.eq_nil_of_length_eq_zero (Nat.le_zero.mp hlen)
      rw [readLoop_end hrem, hrem]
      simp [Codec.many]
  | succ n ih =>
      intro fuel r outputs hlen hfuel
      obtain ⟨fuel, rfl⟩ := Nat.exists_eq_succ_of_ne_zero (Nat.ne_zero_of_lt hfuel)
      cases hrem : r.remaining with
      | nil =>
          rw [readLoop_end hrem]
          simp [Codec.many]
      | cons byte bytes =>
          have hne : r.remaining ≠ [] := hrem ▸ List.cons_ne_nil _ _
          cases hd : (c.read.onBytes r.remaining).1 with
          | none =>
              rw [readLoop_bad hne hd]
              have hread : c.codec.read (byte :: bytes) = none := by
                rw [← hrem, Wire.codec]
                simp [hd]
              simp [Codec.many, hread]
          | some d =>
              obtain ⟨r', hr', hnext⟩ := readLoop_next hne (Prod.ext hd rfl)
              have hread : c.codec.read (byte :: bytes) = some (d, r'.remaining) := by
                rw [← hrem, hr', Wire.codec]
                simp [hd]
              have hlen' := hc _ _ _ hread
              rw [← hrem] at hlen'
              rw [hnext, ih _ (by omega) (Nat.lt_of_succ_lt_succ hfuel)]
              simp [Codec.many, hread, Function.comp_def]

/-- A file that is opened is read from its start. -/
theorem readLoop_file (hc : c.codec.Consumes) {fuel : Nat} (hfuel : f.bytes.length < fuel)
    (outputs : List D) : readLoop c fuel (BufReader.new f DEFAULT_BUF_SIZE) outputs =
      some (((c.codec.all f.bytes).map (outputs ++ ·)).elim (.error .decode) .ok) :=
  readLoop_all hc outputs (Nat.le_refl _) hfuel

end

/-! ## All files -/

theorem appended_eq (files : List Bytes) : appended files = files.flatten := by
  have h : appended files = [] ++ (files.map id).flatten := List.foldl_append_eq_append
  rwa [List.map_id, List.nil_append] at h

/-- A file of `spendable_outputs`, with the descriptors of the older files that were
put together to make it. -/
structure MergedFile (c : Wire D) where
  file : SourceFile
  older : List (List D)
  merged : file.bytes = appended (older.map fun ds => ds.flatMap c.write)

namespace MergedFile

variable {c : Wire D}

def descriptors (m : MergedFile c) : List D := m.older.flatten

theorem bytes_eq (m : MergedFile c) : m.file.bytes = m.descriptors.flatMap c.write := by
  rw [m.merged, appended_eq, descriptors]
  simp only [List.flatMap_def, List.map_flatten, List.flatten_flatten, List.map_map,
    Function.comp_def]

end MergedFile

theorem readFiles_merged {c : Wire D} (hne : ∀ d, c.write d ≠ []) {fuel : Nat}
    (files : List (MergedFile c)) (hfuel : ∀ m ∈ files, m.descriptors.length < fuel) :
    ∀ outputs, readFiles c fuel (files.map MergedFile.file) outputs =
      some (.ok (outputs ++ files.flatMap MergedFile.descriptors)) := by
  induction files with
  | nil => exact fun outputs => by rw [List.flatMap_nil, List.append_nil]; rfl
  | cons m files ih =>
      intro outputs
      obtain ⟨hm, hfiles⟩ := List.forall_mem_cons.mp hfuel
      have hloop := readLoop_flatMap hne m.descriptors outputs hm
        (r := BufReader.new m.file DEFAULT_BUF_SIZE) m.bytes_eq
      rw [List.map_cons, readFiles, hloop]
      simp only [ih hfiles, List.flatMap_cons, List.append_assoc]

/-- The loops end, with the descriptors of all files in order. -/
theorem read_loop_inverts_concatenation (c : Wire D) (hne : ∀ d, c.write d ≠ [])
    (files : List (MergedFile c)) :
    ∃ fuel, ∀ more, fuel ≤ more → readFiles c more (files.map MergedFile.file) [] =
      some (.ok (files.flatMap MergedFile.descriptors)) := by
  refine ⟨(files.flatMap MergedFile.descriptors).length + 1, ?_⟩
  intro more hmore
  refine readFiles_merged hne files ?_ []
  intro m hm
  have hle : m.descriptors.length ≤ (files.flatMap MergedFile.descriptors).length :=
    (List.sublist_flatten_of_mem (List.mem_map_of_mem hm)).length_le
  omega

/-- A value of one byte. -/
def byteWire : Wire UInt8 where
  write b := [b]
  read := .act 1 fun answer => .ret (answer.bind List.head?)
  read_write _ _ := rfl

/-- Three older files in one, and another of its own. -/
def twoMerged : List (MergedFile byteWire) :=
  [⟨.whole [1, 2, 3], [[1], [], [2, 3]], by decide⟩, ⟨.whole [4], [[4]], by decide⟩]

theorem read_loop_inverts_two : ∃ fuel, ∀ more, fuel ≤ more →
    readFiles byteWire more (twoMerged.map MergedFile.file) [] = some (.ok [1, 2, 3, 4]) :=
  read_loop_inverts_concatenation byteWire (fun _ => List.cons_ne_nil _ _) twoMerged

/-! ## The programs of the migration -/

/-- The loop over the processing files appends them. -/
theorem appendFiles_appended {exec : (a : SweepAct D) → Migration D → a.Answer → Migration D → Prop}
    (hE : ∀ a s r s', exec a s r s' → Perform a s r s') (content : String → Bytes)
    (names : List String) (s : Migration D)
    (hfiles : ∀ name ∈ names, s.file .processing name = some (content name)) :
    Ends exec (appendFiles names []) s fun r s' =>
      r = .ok (appended (names.map content)) ∧ s' = s := by
  refine (appendFiles_ends hE content names [] s hfiles).mono ?_
  rintro r s' ⟨rfl, rfl⟩
  rw [appended_eq]
  exact ⟨rfl, rfl⟩

/-- Reading the descriptors of the spendable files is running the loops on them. -/
theorem readDescriptors_readFiles {c : Wire D} (hc : c.codec.Consumes)
    {exec : (a : SweepAct D) → Migration D → a.Answer → Migration D → Prop}
    (hE : ∀ a s r s', exec a s r s' → Perform a s r s') (source : String → SourceFile)
    (names : List String) {fuel : Nat} (hfuel : ∀ name ∈ names, (source name).bytes.length < fuel) :
    ∀ (outputs : List D) (s : Migration D),
      (∀ name ∈ names, s.file .spendable name = some (source name).bytes) →
      Ends exec (readDescriptors c.codec names outputs) s fun r s' =>
        readFiles c fuel (names.map source) outputs = some r ∧ s' = s := by
  induction names with
  | nil => exact fun outputs s _ => .ret ⟨rfl, rfl⟩
  | cons name names ih =>
      intro outputs s hfiles
      obtain ⟨hname, hnames⟩ := List.forall_mem_cons.mp hfuel
      refine .andThen_ok (source name).bytes (· = s)
        (readFile_ok hE (hfiles name List.mem_cons_self)) ?_
      rintro _ rfl
      have hloop := readLoop_file hc hname outputs
      rw [List.map_cons]
      cases hds : c.codec.all (source name).bytes with
      | none =>
          rw [hds] at hloop
          refine .ret ⟨?_, rfl⟩
          rw [readFiles, hloop]
          rfl
      | some ds =>
          rw [hds] at hloop
          refine (ih hnames (outputs ++ ds) _ fun n hn => hfiles n (List.mem_cons_of_mem _ hn)).mono ?_
          rintro r s' ⟨hr, rfl⟩
          refine ⟨?_, rfl⟩
          rw [readFiles, hloop]
          exact hr

end Sweep

end LightningNode
