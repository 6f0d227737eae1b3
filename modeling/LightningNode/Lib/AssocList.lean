/-
# `LightningNode.Lib.AssocList` — mapping the values of an association list

Mathlib's `AList` is the model of a hash map here: a list of entries with no
key twice, the order being whatever order the map happens to be iterated in.
What is added is the pass over all values with their keys in view, which is
what iterating mutably over a map does.
-/
import Mathlib.Data.List.AList

namespace AList

variable {κ : Type} {ν ν' : κ → Type}

/-- Every value replaced by `f` of its key and itself. -/
def mapVal (f : ∀ k, ν k → ν' k) (m : AList ν) : AList ν' where
  entries := m.entries.map (Sigma.map id f)
  nodupKeys := by
    have h : (m.entries.map (Sigma.map id f)).keys = m.entries.keys := by
      simp [List.keys, Sigma.map]
    rw [List.NodupKeys, h]
    exact m.nodupKeys

@[simp] theorem keys_mapVal (f : ∀ k, ν k → ν' k) (m : AList ν) : (m.mapVal f).keys = m.keys := by
  simp [mapVal, keys, List.keys, Sigma.map]

@[simp] theorem mem_mapVal {f : ∀ k, ν k → ν' k} {m : AList ν} {k : κ} :
    k ∈ m.mapVal f ↔ k ∈ m := by
  rw [mem_keys, keys_mapVal, mem_keys]

@[simp] theorem lookup_mapVal [DecidableEq κ] (f : ∀ k, ν k → ν' k) (m : AList ν) (k : κ) :
    (m.mapVal f).lookup k = (m.lookup k).map (f k) :=
  List.dlookup_map₂ k

/-- `lookup` after `insert`, in one equation. -/
theorem lookup_insert_ite [DecidableEq κ] {V : Type} (m : AList fun _ : κ => V) (k k' : κ) (v : V) :
    (m.insert k v).lookup k' = if k' = k then some v else m.lookup k' := by
  by_cases h : k' = k
  · subst h; simp
  · simp [h, lookup_insert_ne h]

/-- Equal as maps: the orders of the entries may differ. -/
def Same [DecidableEq κ] (m m' : AList ν) : Prop := ∀ k, m.lookup k = m'.lookup k

end AList
