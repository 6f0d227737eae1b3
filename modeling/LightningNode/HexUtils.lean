/-
# `LightningNode.HexUtils` — hexadecimal text (`hex_utils.rs`)

`hex_str` writes two lower-case digits a byte.  `to_vec` reads digits of either
case; between two of them the first waits in `b`, and what waits when the text
ends is dropped:

    even number of digits    every pair is a byte of the answer
    odd number               so is every pair, and the last digit is not looked at again
    any other byte           no answer
-/
import LightningNode.Lib.Text
import Mathlib.Data.List.Basic
import Mathlib.Data.List.Forall2

namespace LightningNode

open Conc Text

abbrev Bytes := List UInt8

/-! ## Writing -/

/-- One hexadecimal digit of `{:02x}`. -/
def hexDigit (n : UInt8) : Char :=
  if n < 10 then Char.ofNat (48 + n.toNat) else Char.ofNat (87 + n.toNat)

/-- `hex_str`: two lower-case digits a byte. -/
def hexStr (value : List UInt8) : String :=
  String.ofList (value.flatMap fun v => [hexDigit (v / 16), hexDigit (v % 16)])

theorem hexStr_length (value : List UInt8) : (hexStr value).length = 2 * value.length := by
  induction value with
  | nil => rfl
  | cons v vs ih =>
      simp only [hexStr, List.flatMap_cons, String.length_ofList, List.length_append,
        List.length_cons, List.length_nil] at ih ⊢
      omega

example : hexStr [0x0f, 0xa0] = "0fa0" := by decide

/-! ## Reading -/

/-- The arms of the `match` in `to_vec`: what is taken from a byte of the range,
and what is added after that. -/
def digitRange (c : UInt8) : Option (UInt8 × UInt8) :=
  if 0x41 ≤ c ∧ c ≤ 0x46 then some (0x41, 10)
  else if 0x61 ≤ c ∧ c ≤ 0x66 then some (0x61, 10)
  else if 0x30 ≤ c ∧ c ≤ 0x39 then some (0x30, 0)
  else none

/-- The variables of the loop of `to_vec`. -/
structure HexLoop where
  b : UInt8
  out : List UInt8
  deriving DecidableEq

namespace HexLoop

def init : HexLoop := ⟨0, []⟩

/-- One round of the loop; `none` is its `return None`. -/
def round (s : HexLoop) (idx : Nat) (c : UInt8) : Option HexLoop :=
  let b := s.b <<< 4
  match digitRange c with
  | none => none
  | some (start, plus) =>
      let b := b ||| (c - start + plus)
      if idx &&& 1 = 1 then some ⟨0, s.out ++ [b]⟩ else some ⟨b, s.out⟩

/-- The rounds over the bytes from the index `idx` on. -/
def rounds (s : HexLoop) (idx : Nat) : List UInt8 → Option HexLoop
  | [] => some s
  | c :: cs => (s.round idx c).bind fun s => s.rounds (idx + 1) cs

end HexLoop

/-- `to_vec` -/
def toVec (hex : String) : Option Bytes := (HexLoop.init.rounds 0 (utf8 hex)).map HexLoop.out

/-! ### What the digits say -/

/-- A hexadecimal digit of either case. -/
def IsHexDigit (c : Char) : Prop := c.isDigit ∨ ('a' ≤ c ∧ c ≤ 'f') ∨ ('A' ≤ c ∧ c ≤ 'F')

instance (c : Char) : Decidable (IsHexDigit c) := inferInstanceAs (Decidable (_ ∨ _ ∨ _))

def digitValue (c : Char) : Nat :=
  if c.isDigit then c.toNat - 0x30
  else if 'a' ≤ c ∧ c ≤ 'f' then c.toNat - 0x61 + 10
  else c.toNat - 0x41 + 10

/-- The bytes whose halves are consecutive pairs of digits. -/
def pairBytes : List Char → Bytes
  | hi :: lo :: cs => UInt8.ofNat (16 * digitValue hi + digitValue lo) :: pairBytes cs
  | _ => []

/-- What is or-ed into `b` for a byte of the text. -/
def digitByte (c : UInt8) : Option UInt8 := (digitRange c).map fun r => c - r.1 + r.2

/-- The characters one by one: what `to_vec` makes of each, how `{:02x}` writes
its value, and that the case makes no difference. -/
theorem digit_table : ∀ n < 128,
    digitByte (UInt8.ofNat n) =
        (if IsHexDigit (Char.ofNat n) then some (UInt8.ofNat (digitValue (Char.ofNat n))) else none) ∧
      (IsHexDigit (Char.ofNat n) → digitValue (Char.ofNat n) < 16 ∧
        hexDigit (UInt8.ofNat (digitValue (Char.ofNat n))) = (Char.ofNat n).toLower ∧
        IsHexDigit (Char.ofNat n).toUpper ∧
        digitValue (Char.ofNat n).toUpper = digitValue (Char.ofNat n)) := by
  decide

theorem digitByte_high : ∀ n < 128, digitByte (UInt8.ofNat (128 + n)) = none := by
  decide

namespace IsHexDigit

variable {c : Char}

theorem ascii (h : IsHexDigit c) : c.toNat < 128 := by
  obtain h | ⟨_, h⟩ | ⟨_, h⟩ := h
  · exact Nat.lt_of_le_of_lt (Char.isDigit_iff_toNat.mp h).2 (by decide)
  · exact Nat.lt_of_le_of_lt h (by decide)
  · exact Nat.lt_of_le_of_lt h (by decide)

theorem digitByte (h : IsHexDigit c) :
    digitByte (UInt8.ofNat c.toNat) = some (UInt8.ofNat (digitValue c)) := by
  have htable := (digit_table c.toNat h.ascii).1
  rwa [Char.ofNat_toNat, if_pos h] at htable

theorem facts (h : IsHexDigit c) : digitValue c < 16 ∧
    hexDigit (UInt8.ofNat (digitValue c)) = c.toLower ∧ IsHexDigit c.toUpper ∧
    digitValue c.toUpper = digitValue c := by
  have htable := (digit_table c.toNat h.ascii).2
  rw [Char.ofNat_toNat] at htable
  exact htable h

end IsHexDigit

/-! ### The loop -/

namespace HexLoop

variable {s s' : HexLoop} {idx : Nat} {c : UInt8}

theorem round_eq : s.round idx c = (digitByte c).map fun d =>
    if idx &&& 1 = 1 then ⟨0, s.out ++ [s.b <<< 4 ||| d]⟩ else ⟨s.b <<< 4 ||| d, s.out⟩ := by
  simp only [round, digitByte]
  cases digitRange c with
  | none => rfl
  | some r =>
      by_cases hidx : idx &&& 1 = 1
      · simp only [if_pos hidx, Option.map_some]
      · simp only [if_neg hidx, Option.map_some]

theorem rounds_append (cs ds : List UInt8) :
    s.rounds idx (cs ++ ds) = (s.rounds idx cs).bind fun s => s.rounds (idx + cs.length) ds := by
  induction cs generalizing s idx with
  | nil => rfl
  | cons c cs ih =>
      simp only [List.cons_append, rounds, List.length_cons, Option.bind_assoc]
      refine congrArg (Option.bind _) (funext fun s => ?_)
      rw [ih, Nat.add_assoc, Nat.add_comm 1]

/-- A byte that is no digit ends the loop, wherever it stands. -/
theorem rounds_none {cs : List UInt8} (hc : c ∈ cs) (hd : digitByte c = none) :
    s.rounds idx cs = none := by
  induction cs generalizing s idx with
  | nil => exact absurd hc List.not_mem_nil
  | cons c' cs ih =>
      rw [rounds, round_eq]
      obtain rfl | hc := List.mem_cons.mp hc
      · rw [hd]
        rfl
      · cases digitByte c' with
        | none => rfl
        | some d => exact ih hc

theorem two_digits : ∀ x < 16, ∀ y < 16,
    ((0 : UInt8) <<< 4 ||| UInt8.ofNat x) <<< 4 ||| UInt8.ofNat y = UInt8.ofNat (16 * x + y) := by
  decide

/-- Digits from an even index on: their pairs come out, and one may be left. -/
theorem rounds_digits : ∀ (cs : List Char) (out : List UInt8) (idx : Nat), idx % 2 = 0 →
    (∀ c ∈ cs, IsHexDigit c) → ∃ b,
      HexLoop.rounds ⟨0, out⟩ idx (cs.map fun c => UInt8.ofNat c.toNat)
        = some ⟨b, out ++ pairBytes cs⟩
  | [], out, idx, _, _ => ⟨0, by simp [rounds, pairBytes]⟩
  | [c], out, idx, hidx, h => by
      have hidx : ¬ idx &&& 1 = 1 := by
        rw [Nat.and_one_is_mod]
        omega
      have hc := (h c (.head _)).digitByte
      refine ⟨(0 : UInt8) <<< 4 ||| UInt8.ofNat (digitValue c), ?_⟩
      simp only [List.map_cons, List.map_nil, rounds, round_eq, hc, Option.map_some,
        Option.bind_some, if_neg hidx, pairBytes, List.append_nil]
  | hi :: lo :: cs, out, idx, hidx, h => by
      have h₁ : ¬ idx &&& 1 = 1 := by
        rw [Nat.and_one_is_mod]
        omega
      have h₂ : (idx + 1) &&& 1 = 1 := by
        rw [Nat.and_one_is_mod]
        omega
      obtain ⟨hhi, hlo, hcs⟩ : IsHexDigit hi ∧ IsHexDigit lo ∧ ∀ c ∈ cs, IsHexDigit c := by
        simpa using h
      have hb := two_digits _ hhi.facts.1 _ hlo.facts.1
      obtain ⟨b, hrest⟩ := rounds_digits cs
        (out ++ [UInt8.ofNat (16 * digitValue hi + digitValue lo)]) (idx + 2) (by omega) hcs
      refine ⟨b, ?_⟩
      simp only [List.map_cons, rounds, round_eq, hhi.digitByte, hlo.digitByte, Option.map_some,
        Option.bind_some, if_neg h₁, if_pos h₂, hb]
      rw [hrest, pairBytes, List.append_assoc, List.singleton_append]

/-- The digit that waits: none at an even index. -/
structure Waits (s : HexLoop) (idx : Nat) : Prop where
  digit : s.b.toNat < 16
  even : idx % 2 = 0 → s.b = 0

theorem Waits.init : init.Waits 0 := ⟨by decide, fun _ => rfl⟩

/-- A digit is at most nine places into its range. -/
theorem digitRange_some {start plus : UInt8} (h : digitRange c = some (start, plus)) :
    start.toNat ≤ c.toNat ∧ c.toNat - start.toNat + plus.toNat < 16 := by
  have h₁ : (0x41 : UInt8).toNat = 65 ∧ (0x46 : UInt8).toNat = 70 := by decide
  have h₂ : (0x61 : UInt8).toNat = 97 ∧ (0x66 : UInt8).toNat = 102 := by decide
  have h₃ : (0x30 : UInt8).toNat = 48 ∧ (0x39 : UInt8).toNat = 57 := by decide
  have h₄ : (10 : UInt8).toNat = 10 ∧ (0 : UInt8).toNat = 0 := by decide
  simp only [digitRange, UInt8.le_iff_toNat_le] at h
  split_ifs at h <;> cases h <;> omega

theorem digit_exact {start plus : UInt8} (h : digitRange c = some (start, plus)) :
    (c - start + plus).toNat = c.toNat - start.toNat + plus.toNat := by
  obtain ⟨hle, hlt⟩ := digitRange_some h
  rw [UInt8.toNat_add, UInt8.toNat_sub_of_le _ _ hle]
  exact Nat.mod_eq_of_lt (by omega)

theorem digitByte_lt {d : UInt8} (h : digitByte c = some d) : d.toNat < 16 := by
  obtain ⟨r, hr, rfl⟩ := Option.map_eq_some_iff.mp h
  rw [digit_exact hr]
  exact (digitRange_some hr).2

theorem Waits.round (h : s.Waits idx) (hs : s.round idx c = some s') : s'.Waits (idx + 1) := by
  rw [round_eq] at hs
  obtain ⟨d, hd, rfl⟩ := Option.map_eq_some_iff.mp hs
  by_cases hidx : idx &&& 1 = 1
  · rw [if_pos hidx]
    exact ⟨Nat.zero_lt_succ 15, fun _ => rfl⟩
  · rw [if_neg hidx]
    rw [Nat.and_one_is_mod] at hidx
    have hb := h.even (by omega)
    refine ⟨?_, fun hodd => by omega⟩
    rw [hb, UInt8.zero_shiftLeft, UInt8.zero_or]
    exact digitByte_lt hd

theorem Waits.rounds {cs : List UInt8} (h : s.Waits idx) (hs : s.rounds idx cs = some s') :
    s'.Waits (idx + cs.length) := by
  induction cs generalizing s idx with
  | nil =>
      cases hs
      exact h
  | cons c cs ih =>
      obtain ⟨s₁, hround, hrest⟩ := Option.bind_eq_some_iff.mp hs
      have hw := ih (h.round hround) hrest
      rwa [Nat.add_assoc, Nat.add_comm 1] at hw

/-- The arithmetic of a round is that of the numbers: nothing wraps in the value
of the digit, the shift drops no bit, and the or is a sum. -/
structure Exact (s : HexLoop) (c : UInt8) : Prop where
  digit : ∀ start plus, digitRange c = some (start, plus) →
    start.toNat ≤ c.toNat ∧ c.toNat - start.toNat + plus.toNat < 256 ∧
      (c - start + plus).toNat = c.toNat - start.toNat + plus.toNat
  shift : (s.b <<< 4).toNat = 16 * s.b.toNat
  or : ∀ d, digitByte c = some d → (s.b <<< 4 ||| d).toNat = 16 * s.b.toNat + d.toNat

theorem Waits.exact (h : s.Waits idx) (c : UInt8) : s.Exact c where
  digit := by
    intro start plus hr
    obtain ⟨hle, hlt⟩ := digitRange_some hr
    exact ⟨hle, Nat.lt_trans hlt (by decide), digit_exact hr⟩
  shift := by
    have hall : ∀ n < 16, (UInt8.ofNat n <<< 4).toNat = 16 * n := by decide
    have hb := hall s.b.toNat h.digit
    rwa [UInt8.ofNat_toNat] at hb
  or := by
    have hall : ∀ n < 16, ∀ m < 16,
        (UInt8.ofNat n <<< 4 ||| UInt8.ofNat m).toNat = 16 * n + m := by
      decide
    intro d hd
    have hb := hall s.b.toNat h.digit d.toNat (digitByte_lt hd)
    rwa [UInt8.ofNat_toNat, UInt8.ofNat_toNat] at hb

end HexLoop

/-! ### What `to_vec` reads -/

theorem toVec_digits {s : String} (h : ∀ c ∈ s.toList, IsHexDigit c) :
    toVec s = some (pairBytes s.toList) := by
  obtain ⟨b, hrounds⟩ := HexLoop.rounds_digits s.toList [] 0 rfl h
  rw [toVec, utf8_ascii fun c hc => (h c hc).ascii, HexLoop.init, hrounds]
  rfl

theorem toVec_none {s : String} {c : Char} (hc : c ∈ s.toList) (h : ¬ IsHexDigit c) :
    toVec s = none := by
  obtain ⟨b, hb, hd⟩ : ∃ b ∈ utf8 s, digitByte b = none := by
    by_cases ha : c.toNat < 128
    · have htable := (digit_table c.toNat ha).1
      rw [Char.ofNat_toNat, if_neg h] at htable
      refine ⟨_, (mem_utf8 ?_).mpr ⟨c, hc, ?_⟩, htable⟩
      · simp
        omega
      · simp
        omega
    · obtain ⟨b, hb⟩ := List.exists_mem_of_ne_nil _ (String.utf8EncodeChar_ne_nil (c := c))
      have hle := le_of_mem_utf8EncodeChar (Nat.le_of_not_lt ha) hb
      have hlt := b.toNat_lt
      refine ⟨b, ?_, ?_⟩
      · rw [utf8_flatMap]
        exact List.mem_flatMap.mpr ⟨c, hc, hb⟩
      · have hhigh := digitByte_high (b.toNat - 128) (by omega)
        rwa [Nat.add_sub_cancel' hle, UInt8.ofNat_toNat] at hhigh
  rw [toVec, HexLoop.rounds_none hb hd]
  rfl

/-- `to_vec` answers any text that has only digits in it, also if their number is
odd, with the bytes of their pairs. -/
theorem toVec_eq_some {s : String} {v : Bytes} :
    toVec s = some v ↔ (∀ c ∈ s.toList, IsHexDigit c) ∧ v = pairBytes s.toList := by
  by_cases h : ∀ c ∈ s.toList, IsHexDigit c
  · rw [toVec_digits h, Option.some_inj, eq_comm]
    exact (and_iff_right h).symm
  · obtain ⟨c, hc, hn⟩ : ∃ c ∈ s.toList, ¬ IsHexDigit c := by simpa using h
    rw [toVec_none hc hn]
    exact ⟨nofun, fun hs => absurd hs.1 h⟩

/-! ### Back and forth -/

theorem hexDigit_facts : ∀ n < 16, IsHexDigit (hexDigit (UInt8.ofNat n)) ∧
    digitValue (hexDigit (UInt8.ofNat n)) = n := by
  decide

/-- A byte is sixteen times its high half and its low half. -/
theorem halves (v : UInt8) : (v / 16).toNat < 16 ∧ (v % 16).toNat < 16 ∧
    UInt8.ofNat (16 * (v / 16).toNat + (v % 16).toNat) = v := by
  have hv := v.toNat_lt
  have hhi : (v / 16).toNat = v.toNat / 16 := by simp
  have hlo : (v % 16).toNat = v.toNat % 16 := by simp
  refine ⟨by omega, by omega, ?_⟩
  rw [hhi, hlo, Nat.div_add_mod, UInt8.ofNat_toNat]

theorem halves_ofNat {x y : Nat} (hx : x < 16) (hy : y < 16) :
    UInt8.ofNat (16 * x + y) / 16 = UInt8.ofNat x ∧ UInt8.ofNat (16 * x + y) % 16 = UInt8.ofNat y := by
  have h : ∀ x < 16, ∀ y < 16, UInt8.ofNat (16 * x + y) / 16 = UInt8.ofNat x ∧
      UInt8.ofNat (16 * x + y) % 16 = UInt8.ofNat y := by
    decide
  exact h x hx y hy

/-- Any digit of the text may be in upper case. -/
def CaseVariant (s t : String) : Prop :=
  List.Forall₂ (fun c d => d = c ∨ d = c.toUpper) s.toList t.toList

instance (s t : String) : Decidable (CaseVariant s t) :=
  inferInstanceAs (Decidable (List.Forall₂ _ _ _))

theorem toList_hexStr_cons (v : UInt8) (vs : Bytes) :
    (hexStr (v :: vs)).toList = hexDigit (v / 16) :: hexDigit (v % 16) :: (hexStr vs).toList := by
  simp [hexStr]

/-- What `{:02x}` writes for a half of a byte is a digit with its value, in either case. -/
theorem variant_digit {n : UInt8} {d : Char} (hn : n.toNat < 16)
    (hd : d = hexDigit n ∨ d = (hexDigit n).toUpper) : IsHexDigit d ∧ digitValue d = n.toNat := by
  have h := hexDigit_facts n.toNat hn
  rw [UInt8.ofNat_toNat] at h
  obtain rfl | rfl := hd
  · exact h
  · exact ⟨h.1.facts.2.2.1, h.1.facts.2.2.2.trans h.2⟩

theorem variant_digits (v : Bytes) : ∀ {cs : List Char},
    List.Forall₂ (fun c d => d = c ∨ d = c.toUpper) (hexStr v).toList cs →
      (∀ c ∈ cs, IsHexDigit c) ∧ pairBytes cs = v := by
  induction v with
  | nil =>
      intro cs h
      cases h
      exact ⟨nofun, rfl⟩
  | cons v vs ih =>
      intro cs h
      rw [toList_hexStr_cons] at h
      cases h with
      | cons hhi h =>
          cases h with
          | cons hlo h =>
              obtain ⟨hx, hy, hv⟩ := halves v
              obtain ⟨hdhi, hhi⟩ := variant_digit hx hhi
              obtain ⟨hdlo, hlo⟩ := variant_digit hy hlo
              obtain ⟨hds, hvs⟩ := ih h
              refine ⟨?_, ?_⟩
              · simp only [List.forall_mem_cons]
                exact ⟨hdhi, hdlo, hds⟩
              · rw [pairBytes, hhi, hlo, hv, hvs]

/-- Bytes written are read back, with any of the digits in upper case. -/
theorem toVec_hexStr {v : Bytes} {s : String} (h : CaseVariant (hexStr v) s) :
    toVec s = some v := by
  obtain ⟨hs, hv⟩ := variant_digits v h
  exact toVec_eq_some.mpr ⟨hs, hv.symm⟩

theorem CaseVariant.refl (s : String) : CaseVariant s s :=
  List.forall₂_same.mpr fun _ _ => .inl rfl

/-- Digits read, an even number of them, are written back in lower case. -/
theorem hexStr_pairBytes : ∀ {cs : List Char}, cs.length % 2 = 0 → (∀ c ∈ cs, IsHexDigit c) →
    (hexStr (pairBytes cs)).toList = cs.map Char.toLower
  | [], _, _ => rfl
  | [_], heven, _ => nomatch heven
  | hi :: lo :: cs, heven, h => by
      obtain ⟨hhi, hlo, hcs⟩ : IsHexDigit hi ∧ IsHexDigit lo ∧ ∀ c ∈ cs, IsHexDigit c := by
        simpa using h
      have heven : cs.length % 2 = 0 := by
        rw [List.length_cons, List.length_cons] at heven
        omega
      obtain ⟨hx, hy⟩ := halves_ofNat hhi.facts.1 hlo.facts.1
      rw [pairBytes, toList_hexStr_cons, hx, hy, hhi.facts.2.1, hlo.facts.2.1,
        hexStr_pairBytes heven hcs]
      rfl

theorem length_pairBytes : ∀ cs : List Char, (pairBytes cs).length = cs.length / 2
  | [] => rfl
  | [_] => by simp [pairBytes]
  | _ :: _ :: cs => by
      rw [pairBytes, List.length_cons, length_pairBytes cs, List.length_cons, List.length_cons]
      omega

example : toVec "0Fa0" = some [0x0f, 0xa0] := by decide
example : toVec "0g" = none := by decide

/-! ## Public keys -/

/-- `PublicKey::from_slice(..).ok()` and `serialize` of `secp256k1`. -/
structure Secp256k1 (P : Type) where
  fromSlice : Bytes → Option P
  serialize : P → Vector UInt8 33

/-- Keys by their bytes, the sign first; whether they are on the curve is not asked. -/
abbrev KeyBytes := {v : Vector UInt8 33 // v[0] = 2 ∨ v[0] = 3}

def Secp256k1.keyBytes : Secp256k1 KeyBytes where
  fromSlice data :=
    if h : data.length = 33 then
      let v : Vector UInt8 33 := ⟨data.toArray, h⟩
      if hv : v[0] = 2 ∨ v[0] = 3 then some ⟨v, hv⟩ else none
    else none
  serialize pk := pk.1

theorem Secp256k1.keyBytes_fromSlice (pk : KeyBytes) :
    keyBytes.fromSlice (keyBytes.serialize pk).toList = some pk := by
  obtain ⟨v, hv⟩ := pk
  have hlen : v.toList.length = 33 := by simp
  simp only [keyBytes, dif_pos hlen]
  exact dif_pos hv

/-- The generator, compressed. -/
def KeyBytes.generator : KeyBytes :=
  ⟨#v[0x02, 0x79, 0xbe, 0x66, 0x7e, 0xf9, 0xdc, 0xbb, 0xac, 0x55, 0xa0, 0x62, 0x95, 0xce, 0x87,
    0x0b, 0x07, 0x02, 0x9b, 0xfc, 0xdb, 0x2d, 0xce, 0x28, 0xd9, 0x59, 0xf2, 0x81, 0x5b, 0x16, 0xf8,
    0x17, 0x98], by decide⟩

/-- `to_compressed_pubkey` -/
def toCompressedPubkey {P : Type} (secp : Secp256k1 P) (hex : String) : Option P :=
  if hex.utf8ByteSize ≠ 33 * 2 then none
  else
    match toVec hex with
    | some data => secp.fromSlice data
    | none => none

/-- A key written in hexadecimal is read back, in any case of its digits. -/
theorem toCompressedPubkey_hexStr {P : Type} {secp : Secp256k1 P} {pubkey : P} {s : String}
    (hundo : secp.fromSlice (secp.serialize pubkey).toList = some pubkey)
    (hs : CaseVariant (hexStr (secp.serialize pubkey).toList) s) :
    toCompressedPubkey secp s = some pubkey := by
  have hread := toVec_hexStr hs
  have hdigits := (toVec_eq_some.mp hread).1
  have hlen : s.utf8ByteSize = 33 * 2 := by
    have hchars : s.toList.length = 66 := by
      rw [← List.Forall₂.length_eq hs, String.length_toList, hexStr_length, Vector.length_toList]
    rw [← length_utf8, utf8_ascii fun c hc => (hdigits c hc).ascii, List.length_map, hchars]
  rw [toCompressedPubkey, if_neg (not_not_intro hlen), hread]
  exact hundo

end LightningNode
