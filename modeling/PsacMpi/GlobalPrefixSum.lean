import PsacMpi.Collectives

namespace PsacMpi.GlobalPrefixSum

open Counts Collectives

variable {T : Type} [AddCommMonoid T]

def prefixLoop : T → List T → List T
  | _, [] => []
  | sum, x :: xs => (sum + x) :: prefixLoop (sum + x) xs

/-- `global_prefix_sum(begin, end, comm)` run by every rank on its range; `undef` is what
`MPI_Exscan` leaves on rank 0. -/
def globalPrefixSum (undef : T) (ranges : List (List T)) : List (List T) :=
  let sums := ranges.map fun r ↦ r.foldl (· + ·) 0
  let scanned := exscan 1 [undef] (sums.map fun s ↦ [s])
  (List.range ranges.length).map fun rank ↦
    prefixLoop (if rank = 0 then 0 else (scanned.getD rank []).getD 0 0) (ranges.getD rank [])

/-- The sequential inclusive prefix sum: element `i` becomes the sum of elements `0 ..= i`. -/
def inclPrefixSum (xs : List T) : List T :=
  (List.range xs.length).map fun i ↦ (xs.take (i + 1)).sum

theorem prefixLoop_append (s : T) (xs ys : List T) :
    prefixLoop s (xs ++ ys) = prefixLoop s xs ++ prefixLoop (s + xs.sum) ys := by
  induction xs generalizing s with
  | nil => simp [prefixLoop]
  | cons x xs ih => simp [prefixLoop, ih, add_assoc]

theorem prefixLoop_eq (s : T) (xs : List T) :
    prefixLoop s xs = (List.range xs.length).map fun i ↦ s + (xs.take (i + 1)).sum := by
  induction xs generalizing s with
  | nil => simp [prefixLoop]
  | cons x xs ih =>
    simp [prefixLoop, ih, List.range_succ_eq_map, Function.comp_def, add_assoc]

theorem flatten_zipWith_prefixLoop (s : T) (ranges : List (List T)) :
    (List.zipWith prefixLoop (exclPrefixSumFrom s (ranges.map List.sum)) ranges).flatten =
      prefixLoop s ranges.flatten := by
  induction ranges generalizing s with
  | nil => simp [exclPrefixSumFrom, prefixLoop]
  | cons r rs ih => simp [exclPrefixSumFrom, ih, prefixLoop_append]

theorem globalPrefixSum_eq (undef : T) (ranges : List (List T)) :
    globalPrefixSum undef ranges =
      List.zipWith prefixLoop (exclPrefixSum (ranges.map List.sum)) ranges := by
  refine List.ext_getElem (by simp [globalPrefixSum]) fun r h₁ h₂ ↦ ?_
  have hr : r < ranges.length := by simpa [globalPrefixSum] using h₁
  simp only [globalPrefixSum, List.getElem_map, List.getElem_range, List.getElem_zipWith,
    getElem_exclPrefixSum, List.getD_eq_getElem?_getD, List.getElem?_eq_getElem hr,
    Option.getD_some]
  congr 1
  split_ifs with h0
  · simp [h0]
  · simp [exscan, hr, h0, vsum, ← List.sum_eq_foldl, List.map_take, Function.comp_def]

/-- The blockwise scan of all ranks, read in rank order, is the sequential inclusive prefix sum
of the whole sequence. -/
theorem global_prefix_sum_eq_sequential (undef : T) (ranges : List (List T)) :
    (globalPrefixSum undef ranges).flatten = inclPrefixSum ranges.flatten := by
  rw [globalPrefixSum_eq, exclPrefixSum, flatten_zipWith_prefixLoop, prefixLoop_eq]
  simp [inclPrefixSum]

end PsacMpi.GlobalPrefixSum
