/-
# `LightningNode.Lib.Codec` — encodings that can be read back

A `Codec` writes a value as bytes and reads it off the front of a byte string,
leaving what follows.  The one law, `read_write`, makes the encoding
self-delimiting, so that codecs can be put one after another.

    all               values one after another up to the end of the bytes
    pair, counted     one value after another
    blob, stream      a byte count, then that many bytes
    option            a byte count plus one, or zero
    pmap              the values a reader accepts of another codec
    tlv               records of a type number and a blob, in ascending order
-/
import Mathlib.Data.List.AList
import Mathlib.Data.List.Basic
import Mathlib.Tactic.NormNum

namespace Conc

structure Codec (S : Type) where
  write : S → List UInt8
  read : List UInt8 → Option (S × List UInt8)
  read_write : ∀ s rest, read (write s ++ rest) = some (s, rest)

namespace Codec

variable {S T : Type}

/-- What a reader makes of a whole file: bytes after the value are ignored. -/
def decode (c : Codec S) (bytes : List UInt8) : Option S := (c.read bytes).map Prod.fst

@[simp] theorem decode_write (c : Codec S) (s : S) : c.decode (c.write s) = some s := by
  have h := c.read_write s []
  rw [List.append_nil] at h
  simp [decode, h]

/-- Different values are never written as the same bytes. -/
theorem write_injective (c : Codec S) : Function.Injective c.write := by
  intro s t h
  have hs : c.decode (c.write s) = some t := h ▸ c.decode_write t
  rw [decode_write] at hs
  exact Option.some.inj hs

/-- A value that must take up all the bytes. -/
def exactly (c : Codec S) (bytes : List UInt8) : Option S :=
  match c.read bytes with
  | some (s, []) => some s
  | _ => none

@[simp] theorem exactly_write (c : Codec S) (s : S) : c.exactly (c.write s) = some s := by
  have h := c.read_write s []
  rw [List.append_nil] at h
  simp [exactly, h]

/-- Values one after another, up to the end; `n` is at least their number. -/
def many (c : Codec S) : Nat → List UInt8 → Option (List S)
  | _, [] => some []
  | 0, _ :: _ => none
  | n + 1, byte :: bytes =>
      match c.read (byte :: bytes) with
      | none => none
      | some (s, rest) => (c.many n rest).map (s :: ·)

/-- All values of a file. -/
def all (c : Codec S) (bytes : List UInt8) : Option (List S) := c.many bytes.length bytes

/-- A value takes up at least one byte. -/
def Consumes (c : Codec S) : Prop :=
  ∀ bytes s rest, c.read bytes = some (s, rest) → rest.length < bytes.length

theorem Consumes.write_ne_nil {c : Codec S} (h : c.Consumes) (s : S) : c.write s ≠ [] := by
  intro hs
  have hread := c.read_write s []
  rw [hs] at hread
  exact Nat.lt_irrefl _ (h _ _ _ hread)

theorem many_flatMap {c : Codec S} (h : c.Consumes) :
    ∀ (ss : List S) {n : Nat}, ss.length ≤ n → c.many n (ss.flatMap c.write) = some ss := by
  intro ss
  induction ss with
  | nil =>
      intro n _
      cases n <;> rfl
  | cons s ss ih =>
      intro n hn
      cases n with
      | zero => simp at hn
      | succ n =>
          have hread := c.read_write s (ss.flatMap c.write)
          cases hb : c.write s with
          | nil => exact absurd hb (h.write_ne_nil s)
          | cons byte bytes =>
              rw [hb] at hread
              simp only [List.flatMap_cons, hb, List.cons_append, many] at hread ⊢
              rw [hread]
              simp [ih (Nat.le_of_succ_le_succ hn)]

theorem length_le_flatMap {c : Codec S} (h : c.Consumes) (ss : List S) :
    ss.length ≤ (ss.flatMap c.write).length := by
  induction ss with
  | nil => exact Nat.le_refl 0
  | cons s ss ih =>
      have hpos : 0 < (c.write s).length := List.length_pos_iff.mpr (h.write_ne_nil s)
      simp only [List.length_cons, List.flatMap_cons, List.length_append]
      omega

/-- Values written one after another are read back. -/
theorem all_flatMap {c : Codec S} (h : c.Consumes) (ss : List S) :
    c.all (ss.flatMap c.write) = some ss :=
  many_flatMap h ss (length_le_flatMap h ss)

/-! ## One codec from another -/

def pair (c : Codec S) (d : Codec T) : Codec (S × T) where
  write p := c.write p.1 ++ d.write p.2
  read bytes := (c.read bytes).bind fun p => (d.read p.2).map fun q => ((p.1, q.1), q.2)
  read_write p rest := by simp [List.append_assoc, c.read_write, d.read_write]

/-- A value of `T` written as the `g` of it; a reader accepts what `f` accepts. -/
def pmap (c : Codec S) (f : S → Option T) (g : T → S) (h : ∀ t, f (g t) = some t) : Codec T where
  write t := c.write (g t)
  read bytes := (c.read bytes).bind fun p => (f p.1).map fun t => (t, p.2)
  read_write t rest := by simp [c.read_write, h]

/-! ## Bytes and integers -/

def readRaw (k : Nat) (bytes : List UInt8) : Option (List UInt8 × List UInt8) :=
  if k ≤ bytes.length then some (bytes.take k, bytes.drop k) else none

theorem readRaw_append (bytes rest : List UInt8) :
    readRaw bytes.length (bytes ++ rest) = some (bytes, rest) := by
  simp [readRaw]

def fixed (k : Nat) : Codec (Vector UInt8 k) where
  write v := v.toList
  read bytes :=
    match readRaw k bytes with
    | some (head, rest) => if h : head.length = k then some (⟨head.toArray, by simpa⟩, rest) else none
    | none => none
  read_write v rest := by
    have h := readRaw_append v.toList rest
    rw [Vector.length_toList] at h
    simp only [h]
    simp [Vector.toList]

/-- `n` in `k` bytes, the most significant first. -/
def bytesBE : Nat → Nat → List UInt8
  | 0, _ => []
  | k + 1, n => bytesBE k (n / 256) ++ [UInt8.ofNat n]

def ofBytesBE (bytes : List UInt8) : Nat := bytes.foldl (fun n b => n * 256 + b.toNat) 0

@[simp] theorem length_bytesBE : ∀ k n, (bytesBE k n).length = k
  | 0, _ => rfl
  | k + 1, n => by simp [bytesBE, length_bytesBE k]

theorem ofBytesBE_bytesBE : ∀ k n, ofBytesBE (bytesBE k n) = n % 256 ^ k
  | 0, n => by simp [ofBytesBE, bytesBE, Nat.mod_one]
  | k + 1, n => by
      have ih := ofBytesBE_bytesBE k (n / 256)
      rw [ofBytesBE] at ih
      rw [ofBytesBE, bytesBE, List.foldl_append, ih, Nat.pow_succ, Nat.mul_comm (256 ^ k) 256,
        Nat.mod_mul]
      simp [Nat.mul_comm, Nat.add_comm]

def readBE (k : Nat) (bytes : List UInt8) : Option (Nat × List UInt8) :=
  (readRaw k bytes).map fun p => (ofBytesBE p.1, p.2)

theorem readBE_append {k n : Nat} (h : n < 256 ^ k) (rest : List UInt8) :
    readBE k (bytesBE k n ++ rest) = some (n, rest) := by
  have hr := readRaw_append (bytesBE k n) rest
  rw [length_bytesBE] at hr
  simp [readBE, hr, ofBytesBE_bytesBE, Nat.mod_eq_of_lt h]

def u8 : Codec UInt8 where
  write b := [b]
  read
    | b :: rest => some (b, rest)
    | [] => none
  read_write _ _ := rfl

def u64 : Codec UInt64 where
  write x := bytesBE 8 x.toNat
  read bytes := (readBE 8 bytes).map fun p => (UInt64.ofNat p.1, p.2)
  read_write x rest := by
    rw [readBE_append (by simpa using x.toNat_lt)]
    simp

/-- A number in unary: so many ones, then a zero. -/
def readUnary : List UInt8 → Option (Nat × List UInt8)
  | [] => none
  | b :: rest =>
      if b = 0 then some (0, rest) else (readUnary rest).map fun p => (p.1 + 1, p.2)

theorem readUnary_append (rest : List UInt8) :
    ∀ n, readUnary (List.replicate n 1 ++ 0 :: rest) = some (n, rest)
  | 0 => by simp [readUnary]
  | n + 1 => by
      have ih := readUnary_append rest n
      simp [List.replicate_succ, readUnary, ih]

def unary : Codec Nat where
  write n := List.replicate n 1 ++ [0]
  read := readUnary
  read_write n rest := by rw [List.append_assoc]; exact readUnary_append rest n

/-- A number in `k` bytes if it is below `top`; else `top`, and the excess as
`more` writes it. -/
def extended (k top : Nat) (htop : top < 256 ^ k) (more : Codec Nat) : Codec Nat where
  write n := if n < top then bytesBE k n else bytesBE k top ++ more.write (n - top)
  read bytes :=
    (readBE k bytes).bind fun p =>
      if p.1 < top then some p else (more.read p.2).map fun q => (top + q.1, q.2)
  read_write n rest := by
    by_cases h : n < top
    · rw [if_pos h, readBE_append (Nat.lt_trans h htop)]
      simp [h]
    · have hn : top + (n - top) = n := Nat.add_sub_cancel' (Nat.le_of_not_lt h)
      rw [if_neg h, List.append_assoc, readBE_append htop]
      simp [more.read_write, hn]

/-- A length in eight bytes.  Lengths are natural numbers here; the unary part
is for those that no machine has. -/
def length64 : Codec Nat := extended 8 (2 ^ 64 - 1) (by norm_num) unary

/-- The variable-length integer of the Lightning specification, in its shortest
form only. -/
def bigSize : Codec Nat where
  write n :=
    if n < 0xFD then [UInt8.ofNat n]
    else if n < 0x10000 then 0xFD :: bytesBE 2 n
    else if n < 0x100000000 then 0xFE :: bytesBE 4 n
    else 0xFF :: length64.write n
  read
    | [] => none
    | b :: rest =>
        if b = 0xFF then (length64.read rest).filter fun p => 0x100000000 ≤ p.1
        else if b = 0xFE then (readBE 4 rest).filter fun p => 0x10000 ≤ p.1
        else if b = 0xFD then (readBE 2 rest).filter fun p => 0xFD ≤ p.1
        else some (b.toNat, rest)
  read_write n rest := by
    by_cases h₁ : n < 0xFD
    · have hb : (UInt8.ofNat n).toNat = n := UInt8.toNat_ofNat_of_lt (by change n < 256; omega)
      have hne : ∀ m : UInt8, 0xFD ≤ m.toNat → UInt8.ofNat n ≠ m := by
        rintro m hm rfl
        omega
      rw [if_pos h₁]
      simp [hne 0xFF (by decide), hne 0xFE (by decide), hne 0xFD (by decide), hb]
    · rw [if_neg h₁]
      by_cases h₂ : n < 0x10000
      · rw [if_pos h₂]
        simp [readBE_append (show n < 256 ^ 2 by omega), Option.filter, Nat.le_of_not_lt h₁]
      · rw [if_neg h₂]
        by_cases h₃ : n < 0x100000000
        · rw [if_pos h₃]
          simp [readBE_append (show n < 256 ^ 4 by omega), Option.filter, Nat.le_of_not_lt h₂]
        · rw [if_neg h₃]
          simp [length64.read_write, Option.filter, Nat.le_of_not_lt h₃]

theorem bigSize_write_ne_nil (n : Nat) : bigSize.write n ≠ [] := by
  simp only [bigSize]
  split_ifs <;> simp

/-! ## Counted and delimited -/

def readN (c : Codec S) : Nat → List UInt8 → Option (List S × List UInt8)
  | 0, bytes => some ([], bytes)
  | n + 1, bytes =>
      (c.read bytes).bind fun p => (c.readN n p.2).map fun q => (p.1 :: q.1, q.2)

theorem readN_append (c : Codec S) (rest : List UInt8) :
    ∀ xs : List S, c.readN xs.length ((xs.map c.write).flatten ++ rest) = some (xs, rest)
  | [] => rfl
  | x :: xs => by
      have ih := readN_append c rest xs
      simp [readN, List.append_assoc, c.read_write, ih]

/-- A number of elements, then the elements. -/
def counted (len : Codec Nat) (c : Codec S) : Codec (List S) where
  write xs := len.write xs.length ++ (xs.map c.write).flatten
  read bytes := (len.read bytes).bind fun p => c.readN p.1 p.2
  read_write xs rest := by simp [List.append_assoc, len.read_write, readN_append]

/-- A number of bytes, then the bytes. -/
def blob : Codec (List UInt8) where
  write bytes := bigSize.write bytes.length ++ bytes
  read bytes := (bigSize.read bytes).bind fun p => readRaw p.1 p.2
  read_write bytes rest := by simp [List.append_assoc, bigSize.read_write, readRaw_append]

/-- All the elements in `bytes`, at most `k` of them. -/
def readAll (c : Codec S) : Nat → List UInt8 → Option (List S)
  | _, [] => some []
  | 0, _ :: _ => none
  | k + 1, b :: bytes =>
      (c.read (b :: bytes)).bind fun p => (c.readAll k p.2).map (p.1 :: ·)

theorem readAll_flatten (c : Codec S) (hc : ∀ s, c.write s ≠ []) :
    ∀ (xs : List S) (k : Nat), xs.length ≤ k →
      c.readAll k (xs.map c.write).flatten = some xs
  | [], k, _ => by simp [readAll]
  | x :: xs, 0, h => absurd h (by simp)
  | x :: xs, k + 1, h => by
      have ih := readAll_flatten c hc xs k (by simpa using h)
      have hx := c.read_write x (xs.map c.write).flatten
      obtain ⟨b, bytes, hb⟩ := List.exists_cons_of_ne_nil (hc x)
      rw [List.map_cons, List.flatten_cons, hb, List.cons_append, readAll, ← List.cons_append, ← hb,
        hx]
      simp [ih]

theorem length_le_flatten (c : Codec S) (hc : ∀ s, c.write s ≠ []) :
    ∀ xs : List S, xs.length ≤ (xs.map c.write).flatten.length
  | [] => Nat.le_refl 0
  | x :: xs => by
      have ih := length_le_flatten c hc xs
      have hx := List.length_pos_iff.mpr (hc x)
      rw [List.map_cons, List.flatten_cons, List.length_append, List.length_cons]
      omega

/-- A number of bytes, then elements that fill them. -/
def stream (c : Codec S) (hc : ∀ s, c.write s ≠ []) : Codec (List S) :=
  blob.pmap (fun bytes => c.readAll bytes.length bytes) (fun xs => (xs.map c.write).flatten)
    fun xs => readAll_flatten c hc xs _ (length_le_flatten c hc xs)

/-- Zero, or one more than the number of bytes of the value that follows. -/
def option (c : Codec S) : Codec (Option S) where
  write
    | none => bigSize.write 0
    | some s => bigSize.write ((c.write s).length + 1) ++ c.write s
  read bytes :=
    (bigSize.read bytes).bind fun p =>
      match p.1 with
      | 0 => some (none, p.2)
      | n + 1 => (readRaw n p.2).bind fun q => (c.exactly q.1).map fun s => (some s, q.2)
  read_write o rest := by
    cases o with
    | none => simp [bigSize.read_write]
    | some s => simp [List.append_assoc, bigSize.read_write, readRaw_append]

/-! ## Tagged records -/

/-- One record: its type and its value. -/
def record : Codec (Nat × List UInt8) := pair bigSize blob

theorem record_write_ne_nil (r : Nat × List UInt8) : record.write r ≠ [] := by
  simp [record, pair, bigSize_write_ne_nil]

/-- The records of the `known` types, if types ascend and no other is even. -/
def accept (known : List Nat) : Option Nat → List (Nat × List UInt8) →
    Option (List (Nat × List UInt8))
  | _, [] => some []
  | last, (ty, value) :: rest =>
      if last.all (· < ty) then
        if ty ∈ known then (accept known (some ty) rest).map ((ty, value) :: ·)
        else if ty % 2 = 0 then none
        else accept known (some ty) rest
      else none

/-- A structure as a stream of records: `g` gives the records of a value, and
`f` reads it from the records of the `known` types. -/
def tlv (known : List Nat) (f : List (Nat × List UInt8) → Option T)
    (g : T → List (Nat × List UInt8))
    (h : ∀ t, (accept known none (g t)).bind f = some t) : Codec T :=
  (stream record record_write_ne_nil).pmap (fun rs => (accept known none rs).bind f) g h

/-- The field of type `ty`, which must be there. -/
def required (c : Codec S) (ty : Nat) (rs : List (Nat × List UInt8)) : Option S :=
  (rs.lookup ty).bind c.exactly

/-! ## Maps -/

section Maps

variable {κ ν : Type} [DecidableEq κ]

/-- The map of a list of entries; none if a key is there twice. -/
def ofEntries : List (κ × ν) → Option (AList fun _ : κ => ν)
  | [] => some ∅
  | (k, v) :: rest =>
      (ofEntries rest).bind fun m => if k ∈ m then none else some (m.insert k v)

theorem ofEntries_entries : ∀ (entries : List (Sigma fun _ : κ => ν)) (h : entries.NodupKeys),
    ofEntries (entries.map fun e => (e.1, e.2)) = some ⟨entries, h⟩
  | [], _ => rfl
  | ⟨k, v⟩ :: rest, h => by
      obtain ⟨hk, hr⟩ := List.nodupKeys_cons.mp h
      have ih := ofEntries_entries rest hr
      have hmem : k ∉ (⟨rest, hr⟩ : AList fun _ : κ => ν) := hk
      simp only [List.map_cons, ofEntries, ih, Option.bind_some, if_neg hmem]
      exact congrArg some (AList.insert_of_notMem hmem)

/-- A map as its number of entries and the entries, in some order. -/
def map (len : Codec Nat) (c : Codec κ) (d : Codec ν) : Codec (AList fun _ : κ => ν) :=
  (counted len (pair c d)).pmap ofEntries (fun m => m.entries.map fun e => (e.1, e.2))
    fun m => ofEntries_entries m.entries m.nodupKeys

end Maps

end Codec

end Conc
