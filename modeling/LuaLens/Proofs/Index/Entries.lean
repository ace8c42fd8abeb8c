import LuaLens.Index.Basic
import LuaLens.Proofs.Sorting

/-!
The order of the entries of an index. They are sorted by label, and sorting keeps the entries of one
label in their order.
-/

namespace LuaLens

namespace Index

variable {x : Index}

theorem projectEntries_eq (x : Index) :
    x.projectEntries = ((x.project.filter fun e => !x.isOverridden e.tag.file) ++
      x.overrides.flatMap (·.2.corpus)).mergeSort (byLabel fun e => e.tag.file) := rfl

/-- The entries of one label. -/
def entriesOf (x : Index) (label : String) : Corpus :=
  x.projectEntries.filter fun e => e.tag.file == label

theorem entriesOf_eq (x : Index) (label : String) :
    x.entriesOf label =
      ((x.project.filter fun e => !x.isOverridden e.tag.file) ++
        x.overrides.flatMap (·.2.corpus)).filter fun e => e.tag.file == label := by
  rw [entriesOf, projectEntries_eq, filter_mergeSort_byLabel]

/-- Two indexes with the same entries of each label have the same entries. -/
theorem projectEntries_eq_iff {y : Index} :
    x.projectEntries = y.projectEntries ↔ ∀ label, x.entriesOf label = y.entriesOf label := by
  constructor
  · intro h label
    rw [entriesOf, entriesOf, h]
  · exact eq_of_filter_byLabel _ (pairwise_mergeSort_byLabel _ _) (pairwise_mergeSort_byLabel _ _)

end Index

end LuaLens
