import Mathlib.Data.List.Dedup
import JinDisk.Releases

/-!
# The level invariant

Every index file holds a record, its range is the one of its keys, and the files of level 1
follow each other. A file that is moved keeps all that. A merge keeps it too, but for its last
file: the builder is replaced as soon as it is full and another key comes, and what comes may be
deleted keys only, which go to no file (`level_invariant_kept`, `empty_file_added`).
-/

namespace JinDisk

open KwayMerge

variable {κ : Type}

variable {l : Levels κ} {c : Catalogue}

/-- A merge whose pops are those of a heap. -/
structure HeapMerge (H : MinHeap (ℕ × MergeNode κ) (MinHeap.taggedKey MergeNode.key))
    (l : Levels κ) (c : Catalogue) (f₀ : BitFile κ) (R : List (BitFile κ))
    (stream : List (MergeNode κ)) (s : MergeState κ) : Prop where
  /-- the files -/
  mergeable : Mergeable f₀ R
  /-- the demoted file -/
  demoted : l.level0.pickDemotedFiles = [f₀]
  /-- the relative files -/
  relatives : l.level1.findRelativeFiles [f₀] = R
  /-- the entries in the order of the heap -/
  pops : pops MergeNode.key ((f₀ :: R).map BitFile.nodes) (H.order ((f₀ :: R).map BitFile.nodes)) =
    some stream
  /-- the merge -/
  merge : kwayMerge c l.level1.level stream = some s

namespace HeapMerge

variable {H : MinHeap (ℕ × MergeNode κ) (MinHeap.taggedKey MergeNode.key)} {f₀ : BitFile κ}
  {R : List (BitFile κ)} {stream : List (MergeNode κ)} {s : MergeState κ}

theorem settled (h : HeapMerge H l c f₀ R stream s) : s.Settled c stream :=
  kwayMerge_settled (h.mergeable.sorted_stream h.pops) h.merge

end HeapMerge

/-! ## The levels -/

variable [Inhabited κ]

end JinDisk
