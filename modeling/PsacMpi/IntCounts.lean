import PsacMpi.GatherRange
import PsacMpi.MsgsAll2all

namespace PsacMpi.IntCounts

open Counts Collectives GatherRange Bucketing MsgsAll2all

variable {α : Type}

def overflowRanges : List (List Nat) := [List.replicate INT_MAX 0, List.replicate INT_MAX 0]

@[simp] theorem length_overflowRanges : overflowRanges.length = 2 := rfl

theorem getD_overflowRanges {q : Nat} (hq : q < 2) :
    overflowRanges.getD q [] = List.replicate INT_MAX 0 := by
  rcases q with _ | _ | q
  · rfl
  · rfl
  · omega

/-- Sizes that each fit in `int` can still overflow the `int` sums: `total_size` in
`gather_range`, and `recv_size` (and the receive displacements) in `msgs_all2all` when both
ranks send everything to rank 0. -/
theorem int_sum_of_fitting_sizes_overflows :
    (∀ r ∈ overflowRanges, r.length ≤ INT_MAX) ∧
      gatherRange .int overflowRanges = none ∧
      CountType.int.accumulate 0
          ((all2allvGetRecvCounts (sendCountsOf (fun _ _ ↦ 0) overflowRanges)).getD 0 []) =
        none ∧
      msgsAll2all .int (fun _ _ ↦ 0) overflowRanges = none := by
  have hmax : ¬ CountType.int.Fits (INT_MAX + INT_MAX) := by simp [INT_MAX]
  set RC := all2allvGetRecvCounts (sendCountsOf (fun _ _ ↦ (0 : Nat)) overflowRanges)
  have hRC : RC.getD 0 [] = [INT_MAX, INT_MAX] := by
    rw [recvCounts_eq _ _ (by simp)]
    simp [overflowRanges, List.range_succ]
  have hmem : [INT_MAX, INT_MAX] ∈ RC := by
    rw [← hRC, List.getD_eq_getElem _ _ (by simp [RC, all2allvGetRecvCounts, alltoall,
      sendCountsOf])]
    exact List.getElem_mem _
  refine ⟨by simp [overflowRanges], ?_, ?_, ?_⟩
  · rw [gatherRange_eq, if_neg]
    simp only [overflowRanges, List.map_cons, List.map_nil, List.length_replicate, List.sum_cons,
      List.sum_nil]
    decide
  · rw [hRC, accumulate_zero_eq, if_neg (by simpa using hmax)]
  · rw [msgsAll2all_eq_recv .int _ _ (fun _ _ _ _ ↦ by simp) (fun q hq ↦ by
        rw [getD_overflowRanges (by simpa using hq), List.length_replicate]; exact le_rfl),
      mapM_eq_none hmem (by rw [getDisplacements_eq, if_neg (by simpa using hmax)])]
    rfl

/-- When the total of the local sizes fits in `int`, the `int` sizes, sum and displacements of
`gather_range` are the true ones, and the root receives every element. When every rank's
message count and received count fit in `int`, `recv_size` in `msgs_all2all` is the number of
messages the rank receives, and the exchange is the one of exact arithmetic. -/
theorem int_counts_exact_of_totals_fit [Inhabited α] (ranges : List (List α))
    (htotal : (ranges.map List.length).sum ≤ INT_MAX)
    (target : Nat → α → Nat) (world : List (List α))
    (ht : ∀ q < world.length, ∀ m ∈ world.getD q [], target q m < world.length)
    (hsend : ∀ q < world.length, (world.getD q []).length ≤ INT_MAX)
    (hrecv : ∀ r < world.length, ((delivered target world).getD r []).length ≤ INT_MAX) :
    ranges.mapM (fun r ↦ CountType.int.ofSize r.length) = some (ranges.map List.length) ∧
      CountType.int.accumulate 0 (ranges.map List.length) = some (ranges.map List.length).sum ∧
      getDisplacements .int (ranges.map List.length) =
        some (exclPrefixSum (ranges.map List.length)) ∧
      gatherRange .int ranges = some (rootResult ranges.length ranges.flatten) ∧
      (gatherRange .int ranges).map (fun res ↦ (res.getD 0 []).length) =
        some (ranges.map List.length).sum ∧
      (∀ r < world.length, CountType.int.accumulate 0
          ((all2allvGetRecvCounts (sendCountsOf target world)).getD r []) =
        some ((delivered target world).getD r []).length) ∧
      msgsAll2all .int target world = some (delivered target world) := by
  have hfit : CountType.int.Fits (ranges.map List.length).sum := htotal
  have hgather : gatherRange .int ranges = some (rootResult ranges.length ranges.flatten) :=
    gatherRange_eq_of_fits hfit
  refine ⟨mapM_eq_some fun r hr ↦ CountType.ofSize_of_fits
      (hfit.mono (List.le_sum_of_mem (List.mem_map_of_mem _ hr))),
    by rw [accumulate_zero_eq, if_pos hfit],
    by rw [getDisplacements_eq, if_pos hfit],
    hgather, ?_, fun r hr ↦ ?_, msgsAll2all_eq .int target world ht hsend hrecv⟩
  · rw [hgather]
    cases ranges with
    | nil => rfl
    | cons r rs => simp [rootResult, List.length_flatten]
  · rw [accumulate_zero_eq, sum_recvCounts target world hr,
      if_pos (show CountType.int.Fits _ from hrecv r hr)]

theorem int_counts_exact_of_totals_fit_example :
    ([[1, 2], [3]].map List.length).sum ≤ INT_MAX ∧
      (∀ q < 2, ∀ m ∈ [[0, 1, 2], [3, 4]].getD q [], m % 2 < 2) ∧
      (∀ q < 2, ([[0, 1, 2], [3, 4]].getD q []).length ≤ INT_MAX) ∧
      (∀ r < 2, ((delivered (fun _ m ↦ m % 2) [[0, 1, 2], [3, 4]]).getD r []).length ≤
        INT_MAX) ∧
      gatherRange .int [[1, 2], [3]] = some [[1, 2, 3], []] ∧
      msgsAll2all .int (fun _ m ↦ m % 2) [[0, 1, 2], [3, 4]] = some [[0, 2, 4], [1, 3]] := by
  have h := int_counts_exact_of_totals_fit [[1, 2], [3]] (by decide) (fun _ m ↦ m % 2)
    [[0, 1, 2], [3, 4]] (fun _ _ _ _ ↦ Nat.mod_lt _ (by decide)) (by decide) (by decide)
  exact ⟨by decide, fun _ _ _ _ ↦ Nat.mod_lt _ (by decide), by decide, by decide,
    h.2.2.2.1.trans (by decide), h.2.2.2.2.2.2.trans (by decide)⟩

/-- `int local_size = std::distance(begin, end)` keeps each size modulo `2 ^ 32`: `gather_range`
fails exactly when the stored sizes sum past `INT_MAX` (a stored size above `INT_MAX` is negative
as an `int`), and otherwise gathers the first `size mod 2 ^ 32` elements of every rank. -/
theorem gather_range_int_eq [Inhabited α] (ranges : List (List α)) :
    gatherRange .int ranges =
      if (ranges.map fun r ↦ r.length % 2 ^ 32).sum ≤ INT_MAX then
        some (rootResult ranges.length (ranges.map fun r ↦ r.take (r.length % 2 ^ 32)).flatten)
      else none :=
  gatherRange_eq .int ranges

theorem gather_range_int_eq_example :
    gatherRange .int [List.replicate (2 ^ 32 + 3) 0, [1]] = some [[0, 0, 0, 1], []] := by
  rw [gather_range_int_eq]
  simp only [List.map_cons, List.map_nil, List.length_replicate, List.take_replicate]
  decide

/-- `msgs_all2all` overflows its `int` counts or displacements exactly when some rank holds more
than `INT_MAX` messages or some rank is sent more than `INT_MAX` messages in all. -/
theorem msgs_all2all_int_eq_none_iff [Inhabited α] (target : Nat → α → Nat)
    (world : List (List α))
    (ht : ∀ q < world.length, ∀ m ∈ world.getD q [], target q m < world.length) :
    msgsAll2all .int target world = none ↔
      (∃ q < world.length, INT_MAX < (world.getD q []).length) ∨
        ∃ r < world.length, INT_MAX < ((delivered target world).getD r []).length := by
  constructor
  · intro h
    by_contra hfit
    push_neg at hfit
    rw [msgsAll2all_eq .int target world ht hfit.1 hfit.2] at h
    cases h
  · intro hover
    by_contra hnone
    obtain ⟨res, hres⟩ := Option.ne_none_iff_exists'.mp hnone
    obtain ⟨hsend, hrecv⟩ := fits_of_msgsAll2all_eq_some .int target world ht hres
    rcases hover with ⟨q, hq, hlt⟩ | ⟨r, hr, hlt⟩
    · exact absurd (hsend q hq) (not_le.mpr hlt)
    · exact absurd (hrecv r hr) (not_le.mpr hlt)

theorem msgs_all2all_int_eq_none_iff_example :
    (∀ q < 2, ∀ m ∈ [[0, 1, 2], [3, 4]].getD q [], m % 2 < 2) ∧
      msgsAll2all .int (fun _ m ↦ m % 2) [[0, 1, 2], [3, 4]] ≠ none :=
  ⟨fun _ _ _ _ ↦ Nat.mod_lt _ (by decide), fun h ↦ absurd
    ((msgs_all2all_int_eq_none_iff (fun _ m ↦ m % 2) [[0, 1, 2], [3, 4]]
      (fun _ _ _ _ ↦ Nat.mod_lt _ (by decide))).mp h) (by decide)⟩

end PsacMpi.IntCounts
