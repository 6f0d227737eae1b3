/-
# `LightningNode.Lib.BufReader` — a file read through a buffer

`std::io::BufReader` over a file: a position in the file, and the bytes that were
read ahead of who reads.  How many bytes a read of the file gives is for the
system to say, so it is a parameter.

    read         from the buffer, filled first if it is empty; a read as long as
                 the buffer goes past it
    read_exact   reads until there is enough
    seek         from where the reader is, not the file; what was read ahead is
                 forgotten

Whoever reads by `read_exact` only sees none of this, but the bytes that remain
(`Reads.on_map`).
-/
import LightningNode.Lib.Codec
import LightningNode.Lib.Program
import Mathlib.Data.List.Infix

namespace Conc

/-- `read_exact` of bytes; a failed one has used them up. -/
def takeExact (n : Nat) (bytes : List UInt8) : Option (List UInt8) × List UInt8 :=
  if n ≤ bytes.length then (some (bytes.take n), bytes.drop n) else (none, [])

/-- The first part already read. -/
theorem takeExact_append {n : Nat} {bytes : List UInt8} (h : bytes.length ≤ n)
    (rest : List UInt8) : takeExact n (bytes ++ rest) =
      ((takeExact (n - bytes.length) rest).1.map (bytes ++ ·), (takeExact (n - bytes.length) rest).2) := by
  unfold takeExact
  rw [List.length_append, List.take_append, List.drop_append, List.take_of_length_le h,
    List.drop_eq_nil_of_le h]
  by_cases hn : n ≤ bytes.length + rest.length
  · rw [if_pos hn, if_pos (Nat.sub_le_iff_le_add'.mpr hn)]
    rfl
  · rw [if_neg hn, if_neg (hn ∘ Nat.sub_le_iff_le_add'.mp)]
    rfl

/-- An open file; a read of `n` bytes at `pos` is served with `serve pos n` of
them, or what there is. -/
structure SourceFile where
  bytes : List UInt8
  serve : Nat → Nat → Nat
  serve_pos : ∀ pos n, 0 < n → 0 < serve pos n
  serve_le : ∀ pos n, serve pos n ≤ n

/-- A file of which one gets all that one asks for. -/
def SourceFile.whole (bytes : List UInt8) : SourceFile :=
  ⟨bytes, fun _ n => n, fun _ _ h => h, fun _ _ => Nat.le_refl _⟩

/-- The buffer holds what stands before `pos` and was not asked for yet. -/
structure BufReader (f : SourceFile) where
  capacity : Nat
  pos : Nat
  buf : List UInt8
  buf_le : buf.length ≤ pos
  buf_eq : buf ++ f.bytes.drop pos = f.bytes.drop (pos - buf.length)

namespace BufReader

variable {f : SourceFile} (r : BufReader f)

/-- `BufReader::with_capacity` -/
def new (f : SourceFile) (capacity : Nat) : BufReader f := ⟨capacity, 0, [], Nat.le_refl 0, rfl⟩

/-- Where the reader is. -/
def position : Nat := r.pos - r.buf.length

/-- What it has not read. -/
def remaining : List UInt8 := r.buf ++ f.bytes.drop r.pos

theorem remaining_eq : r.remaining = f.bytes.drop r.position := r.buf_eq

/-! ## The operations -/

/-- What the file gives for a read of `n` bytes. -/
def inner (n : Nat) : List UInt8 := (f.bytes.drop r.pos).take (f.serve r.pos n)

theorem inner_append (n : Nat) :
    r.inner n ++ f.bytes.drop (r.pos + (r.inner n).length) = f.bytes.drop r.pos := by
  rw [← List.drop_drop]
  exact (List.prefix_append_drop (List.take_prefix _ _)).symm

/-- A read past the buffer. -/
def readInner (n : Nat) : List UInt8 × BufReader f :=
  (r.inner n,
    { capacity := r.capacity
      pos := r.pos + (r.inner n).length
      buf := []
      buf_le := Nat.zero_le _
      buf_eq := rfl })

/-- `fill_buf` -/
def fillBuf : BufReader f :=
  if r.buf = [] then
    { capacity := r.capacity
      pos := r.pos + (r.inner r.capacity).length
      buf := r.inner r.capacity
      buf_le := Nat.le_add_left _ _
      buf_eq := by rw [Nat.add_sub_cancel]; exact r.inner_append _ }
  else r

/-- `consume` -/
def consume (n : Nat) : BufReader f :=
  { capacity := r.capacity
    pos := r.pos
    buf := r.buf.drop n
    buf_le := (List.length_drop ▸ Nat.sub_le _ _).trans r.buf_le
    buf_eq := by
      have hle := r.buf_le
      rw [List.length_drop]
      by_cases hn : n ≤ r.buf.length
      · have hpos : r.pos - (r.buf.length - n) = r.pos - r.buf.length + n := by omega
        rw [hpos, ← List.drop_drop, ← r.buf_eq, List.drop_append_of_le_length hn]
      · have hn : r.buf.length ≤ n := Nat.le_of_not_le hn
        rw [List.drop_eq_nil_of_le hn, Nat.sub_eq_zero_of_le hn, List.nil_append, Nat.sub_zero] }

/-- `Read::read` -/
def read (n : Nat) : List UInt8 × BufReader f :=
  if r.buf = [] ∧ r.capacity ≤ n then r.readInner n
  else (r.fillBuf.buf.take n, r.fillBuf.consume n)

/-- The loop of `read_exact`, which reads something each time. -/
def readExactLoop : Nat → Nat → BufReader f → Option (List UInt8) × BufReader f
  | _, 0, r => (some [], r)
  | 0, _ + 1, r => (none, r)
  | fuel + 1, n + 1, r =>
      let bytes := (r.read (n + 1)).1
      let r' := (r.read (n + 1)).2
      if bytes = [] then (none, r')
      else
        let rest := readExactLoop fuel (n + 1 - bytes.length) r'
        (rest.1.map (bytes ++ ·), rest.2)

/-- `Read::read_exact`; `none` is `UnexpectedEof`. -/
def readExact (n : Nat) : Option (List UInt8) × BufReader f := readExactLoop n n r

/-- `seek(SeekFrom::Current(n))`, which cannot go before the start. -/
def seekCurrent (n : Int) : Option (BufReader f) :=
  let target := (r.pos : Int) + (n - r.buf.length)
  if 0 ≤ target then
    some
      { capacity := r.capacity
        pos := target.toNat
        buf := []
        buf_le := Nat.zero_le _
        buf_eq := rfl }
  else none

/-! ## What they read -/

/-- `r'` is what `r` is after `bytes` were read. -/
structure Advances (r : BufReader f) (bytes : List UInt8) (r' : BufReader f) : Prop where
  position : r'.position = r.position + bytes.length
  remaining : bytes ++ r'.remaining = r.remaining

theorem Advances.trans {r r₁ r₂ : BufReader f} {bytes₁ bytes₂ : List UInt8}
    (h₁ : r.Advances bytes₁ r₁) (h₂ : r₁.Advances bytes₂ r₂) :
    r.Advances (bytes₁ ++ bytes₂) r₂ where
  position := by rw [h₂.position, h₁.position, List.length_append, Nat.add_assoc]
  remaining := by rw [List.append_assoc, h₂.remaining, h₁.remaining]

theorem fillBuf_advances : r.Advances [] r.fillBuf := by
  unfold fillBuf
  split
  · rename_i h
    refine ⟨?_, ?_⟩
    · simp [position, h]
    · simp [BufReader.remaining, h, r.inner_append]
  · exact ⟨rfl, rfl⟩

theorem consume_advances (n : Nat) : r.Advances (r.buf.take n) (r.consume n) where
  position := by
    have hle := r.buf_le
    simp only [BufReader.position, consume, List.length_drop, List.length_take]
    omega
  remaining := by
    rw [BufReader.remaining, consume, ← List.append_assoc, List.take_append_drop]
    rfl

theorem readInner_advances (h : r.buf = []) (n : Nat) :
    r.Advances (r.readInner n).1 (r.readInner n).2 where
  position := by simp [readInner, BufReader.position, h]
  remaining := by simp [readInner, BufReader.remaining, h, r.inner_append]

/-- A read gives something, unless nothing is asked for or nothing is left. -/
theorem read_spec (n : Nat) :
    r.Advances (r.read n).1 (r.read n).2 ∧ (r.read n).1.length ≤ n ∧
      (0 < n → r.remaining ≠ [] → (r.read n).1 ≠ []) := by
  unfold read
  split
  · rename_i h
    refine ⟨r.readInner_advances h.1 n, ?_, ?_⟩
    · exact (List.length_take_le _ _).trans (f.serve_le _ _)
    · intro hn hrem hnil
      have hpos := f.serve_pos r.pos n hn
      rw [remaining, h.1, List.nil_append] at hrem
      obtain hzero | hnil := List.take_eq_nil_iff.mp hnil
      · omega
      · exact hrem hnil
  · rename_i h
    refine ⟨r.fillBuf_advances.trans (r.fillBuf.consume_advances n), List.length_take_le _ _, ?_⟩
    intro hn hrem hnil
    have hbuf : r.fillBuf.buf = [] := by
      obtain hzero | hnil := List.take_eq_nil_iff.mp hnil
      · omega
      · exact hnil
    -- the buffer was empty, so it has room for something
    have hempty : r.buf = [] := by
      by_contra hne
      rw [fillBuf, if_neg hne] at hbuf
      exact hne hbuf
    have hcap : 0 < r.capacity := by
      by_contra hcap
      exact h ⟨hempty, by omega⟩
    have hpos := f.serve_pos r.pos r.capacity hcap
    rw [fillBuf, if_pos hempty] at hbuf
    rw [remaining, hempty, List.nil_append] at hrem
    obtain hzero | hnil := List.take_eq_nil_iff.mp hbuf
    · omega
    · exact hrem hnil

theorem readExactLoop_spec {fuel n : Nat} (hfuel : n ≤ fuel) (r : BufReader f) :
    ((readExactLoop fuel n r).1, (readExactLoop fuel n r).2.remaining) = takeExact n r.remaining ∧
      ∀ bytes, (readExactLoop fuel n r).1 = some bytes →
        (readExactLoop fuel n r).2.position = r.position + n := by
  induction fuel generalizing n r with
  | zero =>
      obtain rfl := Nat.le_zero.mp hfuel
      exact ⟨rfl, fun _ _ => rfl⟩
  | succ fuel ih =>
      cases n with
      | zero => exact ⟨rfl, fun _ _ => rfl⟩
      | succ n =>
          obtain ⟨hadv, hle, hne⟩ := r.read_spec (n + 1)
          unfold readExactLoop
          by_cases hnil : (r.read (n + 1)).1 = []
          · have hrem : r.remaining = [] := by
              by_contra h
              exact hne (Nat.succ_pos n) h hnil
            have hrem' := hadv.remaining
            rw [hnil, List.nil_append] at hrem'
            simp only [if_pos hnil, hrem', hrem]
            exact ⟨rfl, nofun⟩
          · have hpos : 0 < (r.read (n + 1)).1.length := List.length_pos_iff.mpr hnil
            obtain ⟨hrest, hposition⟩ := ih (n := n + 1 - (r.read (n + 1)).1.length) (by omega)
              (r.read (n + 1)).2
            simp only [if_neg hnil]
            constructor
            · rw [← hadv.remaining, takeExact_append hle, ← hrest]
            · intro bytes h
              obtain ⟨rest, hr, _⟩ := Option.map_eq_some_iff.mp h
              rw [hposition rest hr, hadv.position]
              omega

/-- Reading exactly so many bytes is taking them off what remains. -/
theorem readExact_remaining (n : Nat) :
    takeExact n r.remaining = ((r.readExact n).1, (r.readExact n).2.remaining) :=
  (readExactLoop_spec (Nat.le_refl n) r).1.symm

theorem readExact_position {n : Nat} {bytes : List UInt8} (h : (r.readExact n).1 = some bytes) :
    (r.readExact n).2.position = r.position + n :=
  (readExactLoop_spec (Nat.le_refl n) r).2 bytes h

/-- Back over what was read, everything is there again. -/
theorem seek_back {r r' : BufReader f} {n : Nat} (h : r'.position = r.position + n) :
    ∃ r₁, r'.seekCurrent (-n) = some r₁ ∧ r₁.remaining = r.remaining := by
  have hle := r'.buf_le
  unfold position at h
  have htarget : (r'.pos : Int) + (-n - r'.buf.length) = (r.pos - r.buf.length : Nat) := by omega
  unfold seekCurrent
  simp only [htarget, Int.natCast_nonneg, if_true, Int.toNat_natCast]
  exact ⟨_, rfl, r.remaining_eq.symm⟩

end BufReader

/-! ## Who reads -/

/-- A program that reads, `n` bytes at a time. -/
abbrev Reads := Prog Nat fun _ => Option (List UInt8)

namespace Reads

variable {σ τ α : Type}

/-- The program on whatever there is to read from. -/
def on (readExact : Nat → σ → Option (List UInt8) × σ) : Reads α → σ → α × σ
  | .ret x, s => (x, s)
  | .act n k, s => on readExact (k (readExact n s).1) (readExact n s).2

/-- Two things to read from that give the same bytes give the same result. -/
theorem on_map {readExact : Nat → σ → Option (List UInt8) × σ}
    {readExact' : Nat → τ → Option (List UInt8) × τ} {abs : σ → τ}
    (h : ∀ n s, readExact' n (abs s) = ((readExact n s).1, abs (readExact n s).2))
    (p : Reads α) (s : σ) :
    on readExact' p (abs s) = ((on readExact p s).1, abs (on readExact p s).2) := by
  induction p generalizing s with
  | ret x => rfl
  | act n k ih =>
      unfold on
      rw [h]
      exact ih _ _

/-- On bytes. -/
def onBytes (p : Reads α) (bytes : List UInt8) : α × List UInt8 := on takeExact p bytes

/-- On a buffered file. -/
def onFile {f : SourceFile} (p : Reads α) (r : BufReader f) : α × BufReader f :=
  on (fun n r => r.readExact n) p r

theorem onFile_remaining {f : SourceFile} (p : Reads α) (r : BufReader f) :
    p.onBytes r.remaining = ((p.onFile r).1, (p.onFile r).2.remaining) :=
  on_map (fun n r => r.readExact_remaining n) p r

end Reads

/-- A type that is written as bytes and read off them again. -/
structure Wire (S : Type) where
  write : S → List UInt8
  read : Reads (Option S)
  read_write : ∀ s rest, read.onBytes (write s ++ rest) = (some s, rest)

/-- What it makes of bytes, as a codec. -/
def Wire.codec {S : Type} (c : Wire S) : Codec S where
  write := c.write
  read bytes := (c.read.onBytes bytes).1.map fun s => (s, (c.read.onBytes bytes).2)
  read_write s rest := by rw [c.read_write]; rfl

end Conc
