/-
# `LightningNode.Lib.Text` — taking strings apart

The functions of `str` that a program reads its configuration with: splitting at
a character, from either end and at most once or as often as it occurs, lines,
words, and decimal numbers.  Each has one lemma that says what it makes of a
string put together the way the function expects.

    split      `a:b`      every part
    splitn2    `a=b=c`    before and after the first
    rsplitn2   `a@b@c`    after and before the last
-/
import Mathlib.Data.List.Basic
import Mathlib.Data.List.TakeWhile

namespace Conc

namespace Text

/-! ## Splitting at a character -/

/-- `str::split` -/
def split (c : Char) (s : String) : List String := (s.toList.splitOn c).map String.ofList

/-- `str::splitn(2, c)` -/
def splitn2 (c : Char) (s : String) : List String :=
  match s.toList.dropWhile (· != c) with
  | [] => [s]
  | _ :: rest => [.ofList (s.toList.takeWhile (· != c)), .ofList rest]

/-- `str::rsplitn(2, c)`: the last part comes first. -/
def rsplitn2 (c : Char) (s : String) : List String :=
  match s.toList.reverse.dropWhile (· != c) with
  | [] => [s]
  | _ :: before => [.ofList (s.toList.reverse.takeWhile (· != c)).reverse, .ofList before.reverse]

variable {c : Char} {s t : String}

theorem split_two (hs : c ∉ s.toList) (ht : c ∉ t.toList) :
    split c (s ++ .singleton c ++ t) = [s, t] := by
  have hl : (s ++ .singleton c ++ t).toList = s.toList ++ c :: t.toList := by simp
  rw [split, hl, List.splitOn_append_cons_self_of_not_mem hs, List.splitOn_eq_singleton ht]
  simp

theorem two_le_length_splitOn {l : List Char} (h : c ∈ l) : 2 ≤ (l.splitOn c).length := by
  obtain ⟨xs, ys, rfl⟩ := List.append_of_mem h
  have hx := List.length_pos_of_ne_nil (List.splitOn_ne_nil c xs)
  have hy := List.length_pos_of_ne_nil (List.splitOn_ne_nil c ys)
  rw [List.splitOn_append_cons_self, List.length_append]
  omega

/-- A separator too many. -/
theorem length_split_ne_two (ht : c ∈ t.toList) :
    (split c (s ++ .singleton c ++ t)).length ≠ 2 := by
  have hl : (s ++ .singleton c ++ t).toList = s.toList ++ c :: t.toList := by simp
  have hs := List.length_pos_of_ne_nil (List.splitOn_ne_nil c s.toList)
  have ht := two_le_length_splitOn ht
  rw [split, List.length_map, hl, List.splitOn_append_cons_self, List.length_append]
  omega

theorem dropWhile_ne {l : List Char} (h : c ∉ l) : l.dropWhile (· != c) = [] := by
  rw [List.dropWhile_eq_nil_iff]
  intro x hx
  exact bne_iff_ne.mpr fun hxc => h (hxc ▸ hx)

/-- What stands before the separator is what it was. -/
theorem span_ne {l l' : List Char} (h : c ∉ l) :
    (l ++ c :: l').takeWhile (· != c) = l ∧ (l ++ c :: l').dropWhile (· != c) = c :: l' := by
  induction l with
  | nil => simp
  | cons x xs ih =>
      rw [List.mem_cons, not_or] at h
      have hx : (x != c) = true := bne_iff_ne.mpr (Ne.symm h.1)
      simp [hx, ih h.2]

theorem splitn2_two (hs : c ∉ s.toList) : splitn2 c (s ++ .singleton c ++ t) = [s, t] := by
  have hl : (s ++ .singleton c ++ t).toList = s.toList ++ c :: t.toList := by simp
  rw [splitn2, hl, (span_ne hs).1, (span_ne hs).2]
  simp

theorem splitn2_one (hs : c ∉ s.toList) : splitn2 c s = [s] := by
  rw [splitn2, dropWhile_ne hs]

theorem rsplitn2_two (ht : c ∉ t.toList) : rsplitn2 c (s ++ .singleton c ++ t) = [t, s] := by
  have hl : (s ++ .singleton c ++ t).toList.reverse = t.toList.reverse ++ c :: s.toList.reverse := by
    simp
  have ht : c ∉ t.toList.reverse := fun h => ht (List.mem_reverse.mp h)
  rw [rsplitn2, hl, (span_ne ht).1, (span_ne ht).2]
  simp

theorem rsplitn2_one (hs : c ∉ s.toList) : rsplitn2 c s = [s] := by
  rw [rsplitn2, dropWhile_ne fun h => hs (List.mem_reverse.mp h)]

/-! ## Lines -/

section

variable {α : Type} [DecidableEq α] {nl cr : α} {l rest : List α}

/-- A carriage return before the line feed belongs to the line's end. -/
def dropCr (cr : α) (l : List α) : List α := if l.getLast? = some cr then l.dropLast else l

theorem dropCr_append : dropCr cr (l ++ [cr]) = l := by
  simp [dropCr]

theorem dropCr_of_ne (h : l.getLast? ≠ some cr) : dropCr cr l = l := if_neg h

/-- The pieces between line feeds, as lines: the last one has no line feed after
it, and is a line only if there is something in it. -/
def linesBy (cr : α) : List (List α) → List (List α)
  | [] => []
  | [last] => if last = [] then [] else [last]
  | l :: ls => dropCr cr l :: linesBy cr ls

theorem linesBy_cons (h : nl ∉ l) :
    linesBy cr ((l ++ nl :: rest).splitOn nl) = dropCr cr l :: linesBy cr (rest.splitOn nl) := by
  rw [List.splitOn_append_cons_self_of_not_mem h]
  cases hrest : rest.splitOn nl with
  | nil => exact absurd hrest (List.splitOn_ne_nil _ _)
  | cons x xs => rfl

theorem linesBy_last (h : nl ∉ l) (hne : l ≠ []) : linesBy cr (l.splitOn nl) = [l] := by
  rw [List.splitOn_eq_singleton h, linesBy, if_neg hne]

theorem linesBy_nil : linesBy cr (([] : List α).splitOn nl) = [] := by
  rw [List.splitOn_eq_singleton List.not_mem_nil]
  rfl

end

/-- `str::lines` -/
def lines (s : String) : List String :=
  (linesBy '\r' (s.toList.splitOn '\n')).map String.ofList

@[simp] theorem lines_empty : lines "" = [] := by
  rw [lines, String.toList_empty, linesBy_nil, List.map_nil]

theorem lines_last (h : '\n' ∉ s.toList) (hne : s ≠ "") : lines s = [s] := by
  have hne : s.toList ≠ [] := fun hs => hne (String.toList_eq_nil_iff.mp hs)
  rw [lines, linesBy_last h hne, List.map_singleton, String.ofList_toList]

theorem lines_lf (h : '\n' ∉ s.toList) (hr : s.toList.getLast? ≠ some '\r') :
    lines (s ++ "\n" ++ t) = s :: lines t := by
  have hl : (s ++ "\n" ++ t).toList = s.toList ++ '\n' :: t.toList := by simp
  rw [lines, lines, hl, linesBy_cons h, dropCr_of_ne hr, List.map_cons,
    String.ofList_toList]

theorem lines_crlf (h : '\n' ∉ s.toList) : lines (s ++ "\r\n" ++ t) = s :: lines t := by
  have hl : (s ++ "\r\n" ++ t).toList = (s.toList ++ ['\r']) ++ '\n' :: t.toList := by simp
  have h : '\n' ∉ s.toList ++ ['\r'] := by simp [h]
  rw [lines, lines, hl, linesBy_cons h, dropCr_append, List.map_cons,
    String.ofList_toList]

/-- Without line feeds and carriage returns. -/
def OneLine (s : String) : Prop := '\n' ∉ s.toList ∧ '\r' ∉ s.toList

instance (s : String) : Decidable (OneLine s) :=
  inferInstanceAs (Decidable (_ ∧ _))

/-- Lines written out, each with a line feed after it, are read back. -/
theorem lines_join (ls : List String) (h : ∀ l ∈ ls, OneLine l) :
    lines (String.join (ls.map (· ++ "\n"))) = ls := by
  induction ls with
  | nil => exact lines_empty
  | cons l ls ih =>
      obtain ⟨hl, hls⟩ := List.forall_mem_cons.mp h
      have hr : l.toList.getLast? ≠ some '\r' := fun hr => hl.2 (List.mem_of_getLast? hr)
      have hcat : String.join ((l :: ls).map (· ++ "\n")) =
          l ++ "\n" ++ String.join (ls.map (· ++ "\n")) := by
        simp
      rw [hcat, lines_lf hl.1 hr, ih hls]

/-! ## Words -/

/-- `char::is_whitespace` -/
def isWhitespace (c : Char) : Bool :=
  let n := c.toNat
  (9 ≤ n && n ≤ 13) || n == 0x20 || n == 0x85 || n == 0xA0 || n == 0x1680 ||
    (0x2000 ≤ n && n ≤ 0x200A) || n == 0x2028 || n == 0x2029 || n == 0x202F || n == 0x205F ||
    n == 0x3000

/-- `str::split_whitespace` -/
def splitWhitespace (s : String) : List String :=
  ((s.toList.splitOnP isWhitespace).filter (· ≠ [])).map String.ofList

theorem not_of_mem_splitOnP {p : Char → Bool} : ∀ {l w : List Char}, w ∈ l.splitOnP p →
    ∀ c ∈ w, p c = false := by
  intro l
  induction l with
  | nil =>
      intro w hw c hc
      rw [List.splitOnP_nil, List.mem_singleton] at hw
      exact absurd (hw ▸ hc) List.not_mem_nil
  | cons x xs ih =>
      intro w hw
      rw [List.splitOnP_cons_eq_if_modifyHead] at hw
      cases hp : p x with
      | true =>
          rw [if_pos hp] at hw
          obtain rfl | hw := List.mem_cons.mp hw
          · exact nofun
          · exact ih hw
      | false =>
          rw [if_neg (by simp [hp])] at hw
          cases hxs : xs.splitOnP p with
          | nil => exact absurd hxs (List.splitOnP_ne_nil _ _)
          | cons y ys =>
              rw [hxs] at ih hw
              obtain rfl | hw := List.mem_cons.mp hw
              · exact List.forall_mem_cons.mpr ⟨hp, ih (.head _)⟩
              · exact ih (.tail _ hw)

/-- A word has no white space in it. -/
theorem not_isWhitespace {s w : String} (hw : w ∈ splitWhitespace s) :
    ∀ c ∈ w.toList, isWhitespace c = false := by
  obtain ⟨l, hl, rfl⟩ := List.mem_map.mp hw
  rw [String.toList_ofList]
  exact not_of_mem_splitOnP (List.mem_filter.mp hl).1

/-- A text without white space is one line. -/
theorem oneLine_of_word (h : ∀ c ∈ s.toList, isWhitespace c = false) : OneLine s :=
  ⟨fun hc => absurd (h _ hc) (by decide), fun hc => absurd (h _ hc) (by decide)⟩

/-! ## Bytes -/

/-- `str::as_bytes` -/
def utf8 (s : String) : List UInt8 := s.toUTF8.data.toList

@[simp] theorem length_utf8 (s : String) : (utf8 s).length = s.utf8ByteSize := rfl

theorem utf8_flatMap (s : String) : utf8 s = s.toList.flatMap String.utf8EncodeChar := by
  have h : s.toUTF8 = s.toList.utf8Encode := String.utf8Encode_toList.symm
  rw [utf8, h, List.utf8Encode]
  simp

@[simp] theorem utf8_append (s t : String) : utf8 (s ++ t) = utf8 s ++ utf8 t := by
  simp only [utf8_flatMap, String.toList_append, List.flatMap_append]

/-- `str::from_utf8` -/
def ofUtf8 (bytes : List UInt8) : Option String := String.fromUTF8? ⟨bytes.toArray⟩

@[simp] theorem ofUtf8_utf8 (s : String) : ofUtf8 (utf8 s) = some s := by
  have h : (⟨(utf8 s).toArray⟩ : ByteArray) = s.toByteArray := by simp [utf8]
  rw [ofUtf8, h, String.fromUTF8?, dif_pos s.isValidUTF8]
  exact congrArg some (String.toByteArray_inj.mp rfl)

theorem utf8EncodeChar_ascii {c : Char} (h : c.toNat < 128) :
    String.utf8EncodeChar c = [UInt8.ofNat c.toNat] := by
  have h' : c.val.toNat ≤ 127 := Nat.le_of_lt_succ h
  rw [String.utf8EncodeChar]
  exact if_pos h'

theorem le_of_mem_utf8EncodeChar {c : Char} (h : 128 ≤ c.toNat) {b : UInt8}
    (hb : b ∈ String.utf8EncodeChar c) : 128 ≤ b.toNat := by
  have h' : ¬ c.val.toNat ≤ 127 := Nat.not_le.mpr h
  simp only [String.utf8EncodeChar, if_neg h'] at hb
  split at hb
  · simp only [List.mem_cons, List.not_mem_nil, or_false] at hb
    rcases hb with rfl | rfl <;> simp <;> omega
  · split at hb
    · simp only [List.mem_cons, List.not_mem_nil, or_false] at hb
      rcases hb with rfl | rfl | rfl <;> simp <;> omega
    · simp only [List.mem_cons, List.not_mem_nil, or_false] at hb
      rcases hb with rfl | rfl | rfl | rfl <;> simp <;> omega

/-- A byte below 128 is a character, never part of one. -/
theorem mem_utf8 {s : String} {b : UInt8} (hb : b.toNat < 128) :
    b ∈ utf8 s ↔ ∃ c ∈ s.toList, c.toNat = b.toNat := by
  rw [utf8_flatMap, List.mem_flatMap]
  refine exists_congr fun c => and_congr_right fun _ => ?_
  by_cases hc : c.toNat < 128
  · rw [utf8EncodeChar_ascii hc, List.mem_singleton, ← UInt8.toNat_inj]
    simp only [UInt8.toNat_ofNat']
    omega
  · constructor
    · intro h
      exact absurd (le_of_mem_utf8EncodeChar (Nat.le_of_not_lt hc) h) (Nat.not_le.mpr hb)
    · intro h
      omega

theorem utf8_ascii {s : String} (h : ∀ c ∈ s.toList, c.toNat < 128) :
    utf8 s = s.toList.map fun c => UInt8.ofNat c.toNat := by
  rw [utf8_flatMap, List.map_eq_flatMap]
  exact List.flatMap_congr fun c hc => utf8EncodeChar_ascii (h c hc)

/-- `BufRead::lines` of a file; a line that is no text is an error. -/
def bufLines (bytes : List UInt8) : List (Option String) :=
  (linesBy 13 (bytes.splitOn 10)).map ofUtf8

@[simp] theorem bufLines_nil : bufLines [] = [] := by
  rw [bufLines, linesBy_nil, List.map_nil]

/-- A line of text written out is the first that is read. -/
theorem bufLines_cons (h : OneLine s) (rest : List UInt8) :
    bufLines (utf8 (s ++ "\n") ++ rest) = some s :: bufLines rest := by
  have hlf : 10 ∉ utf8 s := by
    intro hb
    obtain ⟨c, hc, heq⟩ := (mem_utf8 (by decide)).mp hb
    obtain rfl : c = '\n' := Char.toNat_inj.mp heq
    exact h.1 hc
  have hcr : (utf8 s).getLast? ≠ some 13 := by
    intro hb
    obtain ⟨c, hc, heq⟩ := (mem_utf8 (by decide)).mp (List.mem_of_getLast? hb)
    obtain rfl : c = '\r' := Char.toNat_inj.mp heq
    exact h.2 hc
  have hbytes : utf8 (s ++ "\n") ++ rest = utf8 s ++ 10 :: rest := by
    have hn : utf8 "\n" = [10] := by decide
    rw [utf8_append, hn, List.append_assoc, List.singleton_append]
  rw [hbytes, bufLines, linesBy_cons hlf, dropCr_of_ne hcr, List.map_cons, ofUtf8_utf8, bufLines]

/-! ## Decimal numbers -/

/-- `parse` of an unsigned integer type with the values below `bound`. -/
def parseUnsigned (bound : Nat) (s : String) : Option Nat :=
  let digits := match s.toList with
    | '+' :: rest => rest
    | cs => cs
  if digits ≠ [] ∧ digits.all (·.isDigit) ∧ Nat.ofDigitChars 10 digits 0 < bound then
    some (Nat.ofDigitChars 10 digits 0)
  else none

/-- What is printed is parsed. -/
theorem parseUnsigned_repr {bound n : Nat} (h : n < bound) : parseUnsigned bound n.repr = some n := by
  have hdigit : ∀ c ∈ Nat.toDigits 10 n, c.isDigit = true :=
    fun c hc => Nat.isDigit_of_mem_toDigits (by decide) (by decide) hc
  have hplus : (match Nat.toDigits 10 n with | '+' :: rest => rest | cs => cs) =
      Nat.toDigits 10 n := by
    split
    · rename_i rest heq
      exact absurd (hdigit '+' (by rw [heq]; exact .head _)) (by decide)
    · rfl
  unfold parseUnsigned
  rw [Nat.toList_repr]
  simp only [hplus]
  rw [if_pos ⟨Nat.toDigits_ne_nil, List.all_eq_true.mpr hdigit, by
    rwa [Nat.ofDigitChars_ten_toDigits]⟩, Nat.ofDigitChars_ten_toDigits]

example : parseUnsigned 65536 "+9735" = some 9735 := by decide
example : parseUnsigned 65536 "testnet" = none := by decide
example : split ':' "a:b" = ["a", "b"] := by decide
example : rsplitn2 '@' "a@b@c" = ["c", "a@b"] := by decide

end Text

end Conc
