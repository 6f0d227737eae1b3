/-
# `LightningNode.Lib.Path` — paths below a base directory

A path is a base, taken whole, followed by names.  The operations are those of
`std::path` on such paths; a pushed name is one component, so it has no
separator in it.
-/
import Mathlib.Data.List.TakeWhile

namespace Conc

inductive PathBuf where
  | base (s : String)
  | join (dir : PathBuf) (name : String)
  deriving DecidableEq

namespace PathBuf

/-- Pushing the empty string adds a separator, which is the same path. -/
def push (p : PathBuf) (name : String) : PathBuf := if name = "" then p else .join p name

def parent : PathBuf → Option PathBuf
  | .base _ => none
  | .join dir _ => some dir

def fileName : PathBuf → Option String
  | .base _ => none
  | .join _ name => some name

/-- The number of names. -/
def depth : PathBuf → Nat
  | .base _ => 0
  | .join dir _ => dir.depth + 1

theorem ne_of_depth_lt {p q : PathBuf} (h : p.depth < q.depth) : p ≠ q := by
  rintro rfl
  exact Nat.lt_irrefl _ h

def display : PathBuf → String
  | .base s => s
  | .join dir name => dir.display ++ "/" ++ name

/-- What is left of `p` after the prefix `dir`. -/
def stripPrefix (p dir : PathBuf) : Option String :=
  if p = dir then some ""
  else
    match p with
    | .base _ => none
    | .join d name =>
        (d.stripPrefix dir).map fun s => if s = "" then name else s ++ "/" ++ name

@[simp] theorem self_ne_join (p : PathBuf) (name : String) : p ≠ .join p name := by
  induction p generalizing name with
  | base s => nofun
  | join d n ih =>
      intro h
      obtain ⟨hd, _⟩ := PathBuf.join.inj h
      exact ih n hd

@[simp] theorem join_ne_self (p : PathBuf) (name : String) : PathBuf.join p name ≠ p :=
  (self_ne_join p name).symm

@[simp] theorem self_ne_join_join (p : PathBuf) (n name : String) : p ≠ .join (.join p n) name :=
  ne_of_depth_lt (Nat.lt_succ_of_lt (Nat.lt_succ_self p.depth))

@[simp] theorem join_join_ne_self (p : PathBuf) (n name : String) :
    PathBuf.join (.join p n) name ≠ p :=
  (self_ne_join_join p n name).symm

@[simp] theorem stripPrefix_join (p : PathBuf) (name : String) :
    (PathBuf.join p name).stripPrefix p = some name := by
  have hself : p.stripPrefix p = some "" := by
    unfold stripPrefix
    simp
  rw [stripPrefix, if_neg (join_ne_self p name)]
  simp [hself]

end PathBuf

/-- The path is `q` or a directory above it. -/
inductive Above (q : PathBuf) : PathBuf → Prop
  | here : Above q q
  | up {r : PathBuf} {n : String} : Above q (.join r n) → Above q r

namespace Above

variable {q r x : PathBuf} {n : String}

theorem depth_le (h : Above q r) : r.depth ≤ q.depth := by
  induction h with
  | here => exact Nat.le_refl _
  | up _ ih => exact Nat.le_of_succ_le ih

theorem not_below : ¬ Above q (.join q n) := fun h =>
  absurd h.depth_le (Nat.not_succ_le_self _)

theorem trans (h : Above q r) (hr : Above r x) : Above q x := by
  induction hr with
  | here => exact h
  | up _ ih => exact ih.up

theorem eq_or_depth_lt (h : Above q r) : r = q ∨ r.depth < q.depth := by
  induction h with
  | here => exact .inl rfl
  | up hr _ => exact .inr hr.depth_le

theorem antisymm (h : Above q r) (hr : Above r q) : r = q := by
  rcases h.eq_or_depth_lt with heq | hlt
  · exact heq
  · exact absurd hr.depth_le (Nat.not_le_of_lt hlt)

/-- A path is not both below `r` and on the way to it. -/
theorem not_on_way (h : Above q r) : ¬ Above r (.join q n) := by
  intro hr
  have hle : q.depth + 1 ≤ r.depth := hr.depth_le
  exact Nat.not_succ_le_self _ (hle.trans h.depth_le)

theorem of_join (h : Above (.join q n) x) : x = .join q n ∨ Above q x := by
  induction h with
  | here => exact .inl rfl
  | up _ ih =>
      rcases ih with heq | habove
      · cases heq
        exact .inr .here
      · exact .inr (.up habove)

end Above

/-! ## Extensions -/

/-- A file name cut at its last dot: what is before it, what is after it.  With
no dot, or only a leading one, the name is all of it one part. -/
def rsplitFileAtDot (name : String) : Option String × Option String :=
  if name = ".." then (some name, none)
  else
    match name.toList.reverse.dropWhile (· ≠ '.') with
    | [] => (none, some name)
    | _ :: before =>
        if before = [] then (some name, none)
        else (some (.ofList before.reverse),
          some (.ofList (name.toList.reverse.takeWhile (· ≠ '.')).reverse))

def fileStem (name : String) : Option String :=
  match rsplitFileAtDot name with
  | (before, after) => before <|> after

def extension (name : String) : Option String :=
  match rsplitFileAtDot name with
  | (some _, after) => after
  | (none, _) => none

theorem rsplitFileAtDot_plain {name : String} (h : '.' ∉ name.toList) :
    rsplitFileAtDot name = (none, some name) := by
  have hdd : name ≠ ".." := by
    rintro rfl
    exact h (by decide)
  have hdrop : name.toList.reverse.dropWhile (· ≠ '.') = [] := by
    rw [List.dropWhile_eq_nil_iff]
    intro c hc
    have hne : c ≠ '.' := by
      rintro rfl
      exact h (List.mem_reverse.mp hc)
    simpa using hne
  rw [rsplitFileAtDot, if_neg hdd, hdrop]

theorem fileStem_plain {name : String} (h : '.' ∉ name.toList) : fileStem name = some name := by
  rw [fileStem, rsplitFileAtDot_plain h]
  rfl

theorem extension_plain {name : String} (h : '.' ∉ name.toList) : extension name = none := by
  rw [extension, rsplitFileAtDot_plain h]

theorem extension_append {stem ext : String} (hs : stem ≠ "") (he : '.' ∉ ext.toList)
    (hne : ext ≠ "") : extension (stem ++ "." ++ ext) = some ext := by
  have hrev : (stem ++ "." ++ ext).toList.reverse
      = ext.toList.reverse ++ '.' :: stem.toList.reverse := by
    simp [String.toList_append]
  have hall : ∀ c ∈ ext.toList.reverse, (decide (c ≠ '.')) = true := by
    intro c hc
    have : c ≠ '.' := by
      rintro rfl
      exact he (List.mem_reverse.mp hc)
    simpa using this
  have hdd : stem ++ "." ++ ext ≠ ".." := by
    intro h
    have hl := congrArg String.toList h
    simp only [String.toList_append] at hl
    have hs' : 0 < stem.toList.length :=
      List.length_pos_iff.mpr fun h => hs (String.toList_eq_nil_iff.mp h)
    have he' : 0 < ext.toList.length :=
      List.length_pos_iff.mpr fun h => hne (String.toList_eq_nil_iff.mp h)
    have hlen := congrArg List.length hl
    simp only [List.length_append] at hlen
    have h1 : ("." : String).toList.length = 1 := by decide
    have h2 : (".." : String).toList.length = 2 := by decide
    omega
  have hnil : stem.toList.reverse ≠ [] := fun h =>
    hs (String.toList_eq_nil_iff.mp (List.reverse_eq_nil_iff.mp h))
  have hdrop : (ext.toList.reverse ++ '.' :: stem.toList.reverse).dropWhile (· ≠ '.')
      = '.' :: stem.toList.reverse := by
    rw [List.dropWhile_append_of_pos hall]
    rfl
  have htake : (ext.toList.reverse ++ '.' :: stem.toList.reverse).takeWhile (· ≠ '.')
      = ext.toList.reverse := by
    rw [List.takeWhile_append_of_pos hall]
    simp
  rw [extension, rsplitFileAtDot, if_neg hdd, hrev, hdrop, htake]
  simp [hnil, String.ofList_toList]

/-- `PathBuf::set_extension`. -/
def PathBuf.setExtension (p : PathBuf) (ext : String) : PathBuf :=
  match p with
  | .base s => .base s
  | .join dir name =>
      match fileStem name with
      | none => .join dir name
      | some stem => .join dir (if ext = "" then stem else stem ++ "." ++ ext)

theorem PathBuf.setExtension_join {dir : PathBuf} {name ext : String} (h : '.' ∉ name.toList)
    (he : ext ≠ "") : (PathBuf.join dir name).setExtension ext = .join dir (name ++ "." ++ ext) := by
  simp only [PathBuf.setExtension, fileStem_plain h, if_neg he]

end Conc
