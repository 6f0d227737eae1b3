/-
# `LightningNode.Lib.PathText` — paths as they are written

The operations of `std::path` on the text of a path, where `/` separates.  A path
is what its components are: two of them are equal where those are, so a separator
too many or a `.` in the middle makes no difference.

    ""      the path of no component
    "/a"    the root, and `a`
    "./a/"  the current directory, and `a`
    "a/./b" `a`, and `b`

Pushing adds the components of what is pushed, unless that is absolute.
-/
import LightningNode.Lib.Path
import Mathlib.Data.List.Basic

namespace Conc

namespace PathText

/-- `std::path::Component` -/
inductive Component where
  | rootDir
  | curDir
  | parentDir
  | normal (name : String)
  deriving DecidableEq

def hasRoot (text : List Char) : Bool := text.head? = some '/'

/-- `parse_single_component`: nothing, and a dot, are no component. -/
def parseSingle (segment : List Char) : Option Component :=
  if segment = [] ∨ segment = ['.'] then none
  else if segment = ['.', '.'] then some .parentDir
  else some (.normal (.ofList segment))

/-- Ahead of the body: the root, or a dot that a relative path starts with. -/
def front (text : List Char) : List Component :=
  if hasRoot text then [.rootDir]
  else if (text.splitOn '/').head? = some ['.'] then [.curDir]
  else []

def body (text : List Char) : List Component := (text.splitOn '/').filterMap parseSingle

/-- `Path::components` -/
def components (path : String) : List Component := front path.toList ++ body path.toList

/-- A separator stands, or nothing is needed, before what is pushed. -/
def Separated (path : String) : Prop := path = "" ∨ path.toList.getLast? = some '/'

instance (path : String) : Decidable (Separated path) := inferInstanceAs (Decidable (_ ∨ _))

/-- `PathBuf::push` -/
def push (path name : String) : String :=
  if hasRoot name.toList then name
  else if Separated path then path ++ name
  else path ++ "/" ++ name

/-- `Path::parent`, as components -/
def parent (path : String) : Option (List Component) :=
  match (components path).getLast? with
  | none | some .rootDir => none
  | some _ => some (components path).dropLast

/-- `Path::file_name` -/
def fileName (path : String) : Option String :=
  match (components path).getLast? with
  | some (.normal name) => some name
  | _ => none

/-- `Path::extension` -/
def extension (path : String) : Option String := (fileName path).bind Conc.extension

/-- From its end, a path without the separators and dots after its last component. -/
def trimRight : List Char → List Char
  | '/' :: cs => trimRight cs
  | '.' :: '/' :: cs => trimRight cs
  | cs => cs

/-- `PathBuf::set_extension`: cut behind the stem of the file name. -/
def setExtension (path ext : String) : String :=
  match fileName path with
  | none => path
  | some name =>
      match fileStem name with
      | none => path
      | some stem =>
          let before := ((trimRight path.toList.reverse).drop name.toList.length).reverse
          .ofList before ++ stem ++ if ext = "" then "" else "." ++ ext

/-! ## Pushing -/

section

variable {l r : List Char} {path name ext : String}

theorem splitOn_sep : (l ++ '/' :: r).splitOn '/' = l.splitOn '/' ++ r.splitOn '/' :=
  List.splitOn_append_cons_self ..

theorem head_splitOn_sep : ((l ++ '/' :: r).splitOn '/').head? = (l.splitOn '/').head? := by
  rw [splitOn_sep]
  cases hl : l.splitOn '/' with
  | nil => exact absurd hl (List.splitOn_ne_nil _ _)
  | cons x xs => rfl

theorem body_sep : body (l ++ '/' :: r) = body l ++ body r := by
  rw [body, splitOn_sep, List.filterMap_append]
  rfl

@[simp] theorem body_nil : body [] = [] := by decide

/-- What comes after a separator is no part of the front. -/
theorem front_sep : front (l ++ '/' :: r) = front (l ++ ['/']) := by
  have hroot : hasRoot (l ++ '/' :: r) = hasRoot (l ++ ['/']) := by
    cases l <;> rfl
  rw [front, front, hroot, head_splitOn_sep, head_splitOn_sep]

theorem front_last (h : l ≠ []) : front (l ++ ['/']) = front l := by
  have hroot : hasRoot (l ++ ['/']) = hasRoot l := by
    rw [hasRoot, List.head?_append_of_ne_nil _ h]
    rfl
  rw [front, front, hroot, head_splitOn_sep]

/-- The name of a component: no separator in it, and not one of the special ones. -/
structure IsNormal (name : String) : Prop where
  ne_empty : name ≠ ""
  ne_dot : name ≠ "."
  ne_dotdot : name ≠ ".."
  no_sep : '/' ∉ name.toList

namespace IsNormal

theorem not_root (h : IsNormal name) : hasRoot name.toList = false :=
  decide_eq_false fun hroot => h.no_sep (List.mem_of_mem_head? hroot)

theorem splitOn_eq (h : IsNormal name) : name.toList.splitOn '/' = [name.toList] :=
  List.splitOn_eq_singleton h.no_sep

theorem toList_ne {s : String} (h : name ≠ s) : name.toList ≠ s.toList := h ∘ String.toList_inj.mp

theorem body_eq (h : IsNormal name) : body name.toList = [.normal name] := by
  have hdrop : ¬ (name.toList = [] ∨ name.toList = ['.']) :=
    not_or.mpr ⟨toList_ne h.ne_empty, toList_ne h.ne_dot⟩
  have hparent : name.toList ≠ ['.', '.'] := toList_ne h.ne_dotdot
  rw [body, h.splitOn_eq, List.filterMap_cons, parseSingle, if_neg hdrop, if_neg hparent,
    String.ofList_toList]
  rfl

theorem front_eq (h : IsNormal name) : front name.toList = [] := by
  have hdot : [name.toList].head? ≠ some ['.'] := toList_ne h.ne_dot ∘ Option.some.inj
  rw [front, h.not_root, h.splitOn_eq, if_neg Bool.false_ne_true, if_neg hdot]

end IsNormal

/-- What stands before a name that is pushed. -/
def pushed (path : String) : String := if Separated path then path else path ++ "/"

theorem push_eq (h : hasRoot name.toList = false) : push path name = pushed path ++ name := by
  rw [push, if_neg (by simp [h]), pushed]
  split
  · rfl
  · rfl

/-- It is empty, or ends in a separator; its components are those of the path. -/
theorem pushed_cases (path : String) :
    (path = "" ∧ pushed path = "") ∨
      ∃ l, (pushed path).toList = l ++ ['/'] ∧ components path = front (l ++ ['/']) ++ body l := by
  by_cases hempty : path = ""
  · subst hempty
    exact .inl ⟨rfl, rfl⟩
  have hne : path.toList ≠ [] := fun h => hempty (String.toList_eq_nil_iff.mp h)
  right
  unfold pushed
  split
  · rename_i hsep
    obtain ⟨l, hl⟩ := List.getLast?_eq_some_iff.mp (hsep.resolve_left hempty)
    refine ⟨l, hl, ?_⟩
    rw [components, hl, body_sep, body_nil, List.append_nil]
  · refine ⟨path.toList, by simp, ?_⟩
    rw [front_last hne, components]

/-- Pushing a name adds a component. -/
theorem components_push (h : IsNormal name) :
    components (push path name) = components path ++ [.normal name] := by
  rw [push_eq h.not_root]
  obtain ⟨rfl, hp⟩ | ⟨l, hl, hc⟩ := pushed_cases path
  · rw [hp, String.empty_append, components, h.front_eq, h.body_eq]
    rfl
  · have hcat : (pushed path ++ name).toList = l ++ '/' :: name.toList := by
      rw [String.toList_append, hl, List.append_assoc, List.singleton_append]
    rw [components, hcat, front_sep, body_sep, h.body_eq, hc, List.append_assoc]

/-- Pushing nothing adds a separator, if anything. -/
theorem components_push_empty (path : String) : components (push path "") = components path := by
  rw [push_eq (by decide), String.append_empty]
  obtain ⟨rfl, hp⟩ | ⟨l, hl, hc⟩ := pushed_cases path
  · rw [hp]
  · rw [components, hl, body_sep, body_nil, List.append_nil, hc]

theorem fileName_push (h : IsNormal name) : fileName (push path name) = some name := by
  simp [fileName, components_push h]

theorem parent_push (h : IsNormal name) : parent (push path name) = some (components path) := by
  simp [parent, components_push h]

theorem trimRight_cons {c : Char} {cs : List Char} (hsep : c ≠ '/') (hdot : c ≠ '.') :
    trimRight (c :: cs) = c :: cs := by
  unfold trimRight
  split
  · rename_i heq
    exact absurd (List.cons.inj heq).1 hsep
  · rename_i heq
    exact absurd (List.cons.inj heq).1 hdot
  · rfl

/-- The extension of a name without one. -/
theorem setExtension_push (h : IsNormal name) (hdot : '.' ∉ name.toList) (hext : ext ≠ "") :
    setExtension (push path name) ext = push path (name ++ "." ++ ext) := by
  have hne : name.toList ≠ [] := fun h' => h.ne_empty (String.toList_eq_nil_iff.mp h')
  have hroot : hasRoot (name ++ "." ++ ext).toList = false := by
    have hhead : (name ++ "." ++ ext).toList.head? = name.toList.head? := by
      rw [String.toList_append, String.toList_append, List.append_assoc,
        List.head?_append_of_ne_nil _ hne]
    rw [hasRoot, hhead]
    exact h.not_root
  have htrim : trimRight (push path name).toList.reverse =
      name.toList.reverse ++ (pushed path).toList.reverse := by
    rw [push_eq h.not_root, String.toList_append, List.reverse_append]
    obtain ⟨c, cs, hrev⟩ := List.exists_cons_of_ne_nil (List.reverse_ne_nil_iff.mpr hne)
    have hc : c ∈ name.toList := List.mem_reverse.mp (hrev ▸ .head _)
    rw [hrev]
    exact trimRight_cons (fun hs => h.no_sep (hs ▸ hc)) (fun hd => hdot (hd ▸ hc))
  rw [setExtension, fileName_push h]
  simp only [fileStem_plain hdot, htrim, if_neg hext]
  rw [← List.length_reverse, List.drop_left, List.reverse_reverse, String.ofList_toList,
    push_eq hroot]
  simp only [String.append_assoc]

end

end PathText

open PathText in
/-- The components of the base, and the names. -/
def PathBuf.components : PathBuf → List Component
  | .base s => PathText.components s
  | .join dir name => dir.components ++ [.normal name]

end Conc
