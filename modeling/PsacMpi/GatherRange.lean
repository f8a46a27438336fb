import PsacMpi.Collectives

namespace PsacMpi.GatherRange

open Counts Collectives

variable {α : Type}

def rootResult (p : Nat) (x : List α) : List (List α) :=
  (List.range p).map fun rank ↦ if rank = 0 then x else []

theorem rootResult_eq {p : Nat} (hp : 0 < p) (x : List α) :
    rootResult p x = x :: List.replicate (p - 1) [] := by
  obtain ⟨k, rfl⟩ := Nat.exists_eq_succ_of_ne_zero hp.ne'
  simp [rootResult, List.range_succ_eq_map, Function.comp_def, List.map_const']

theorem localSizes_eq {c : CountType} {ranges : List (List α)}
    (h : ∀ r ∈ ranges, c.Fits (c.wrap r.length)) :
    (ranges.mapM fun r ↦ c.ofSize r.length) = some (ranges.map fun r ↦ c.wrap r.length) :=
  mapM_eq_some fun r hr ↦ if_pos (h r hr)

variable [Inhabited α]

/-- `gather_range(begin, end, comm)` run by every rank of the communicator: `ranges` holds each
rank's range, the result each rank's return value. `MPI_Gatherv` sends the first `local_size`
elements of each range. -/
def gatherRange (c : CountType) (ranges : List (List α)) : Option (List (List α)) := do
  let localSizes ← ranges.mapM fun r ↦ c.ofSize r.length
  let totalSize ← c.accumulate 0 localSizes
  let recvDispls ← getDisplacements c localSizes
  let result := gatherv (List.replicate totalSize default)
    (List.zipWith (fun r localSize ↦ r.take localSize) ranges localSizes) recvDispls
  pure (rootResult ranges.length result)

/-- `gather_vectors(local_vec, comm)`. -/
def gatherVectors (c : CountType) (vecs : List (List α)) : Option (List (List α)) :=
  gatherRange c vecs

theorem gatherRange_eq (c : CountType) (ranges : List (List α)) :
    gatherRange c ranges =
      if c.Fits (ranges.map fun r ↦ c.wrap r.length).sum then
        some (rootResult ranges.length (ranges.map fun r ↦ r.take (c.wrap r.length)).flatten)
      else none := by
  by_cases h : c.Fits (ranges.map fun r ↦ c.wrap r.length).sum
  · have hsegs : (ranges.map fun r ↦ r.take (c.wrap r.length)).map List.length =
        ranges.map fun r ↦ c.wrap r.length := by
      simp only [List.map_map]
      exact List.map_congr_left fun r _ ↦ List.length_take_of_le (CountType.wrap_le c _)
    rw [gatherRange, localSizes_eq fun r hr ↦ h.mono (List.le_sum_of_mem (List.mem_map_of_mem _ hr)),
      if_pos h]
    simp only [Option.bind_eq_bind, Option.some_bind, accumulate_zero_eq, getDisplacements_eq,
      if_pos h, gatherv, Option.pure_def, List.zipWith_map_right, List.zipWith_same]
    rw [← hsegs, placeSegs_exclPrefixSum _ _ (by rw [hsegs, List.length_replicate])]
  · rw [if_neg h]
    by_cases hall : ∀ r ∈ ranges, c.Fits (c.wrap r.length)
    · rw [gatherRange, localSizes_eq hall]
      simp [accumulate_zero_eq, h]
    · push_neg at hall
      obtain ⟨r, hr, hfit⟩ := hall
      rw [gatherRange, mapM_eq_none hr (by rw [CountType.ofSize, if_neg hfit])]
      rfl

theorem gatherRange_eq_of_fits {c : CountType} {ranges : List (List α)}
    (h : c.Fits (ranges.map List.length).sum) :
    gatherRange c ranges = some (rootResult ranges.length ranges.flatten) := by
  have hwrap : ∀ r ∈ ranges, c.wrap r.length = r.length := fun r hr ↦
    CountType.wrap_of_fits (h.mono (List.le_sum_of_mem (List.mem_map_of_mem _ hr)))
  have hmap : (ranges.map fun r ↦ c.wrap r.length) = ranges.map List.length :=
    List.map_congr_left hwrap
  have htake : (ranges.map fun r ↦ r.take (c.wrap r.length)) = ranges :=
    (List.map_congr_left fun r hr ↦ by rw [hwrap r hr, List.take_length]; rfl).trans (List.map_id _)
  rw [gatherRange_eq, hmap, if_pos h, htake]

end PsacMpi.GatherRange
