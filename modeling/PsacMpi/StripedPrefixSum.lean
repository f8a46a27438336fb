import PsacMpi.Collectives

namespace PsacMpi.StripedPrefixSum

open Counts Collectives

variable {T : Type} [AddCommMonoid T]

/-- `striped_excl_prefix_sum(x, comm)` run by every rank on its vector of bucket counts; `undef`
is what `MPI_Exscan` leaves on rank 0. -/
def stripedExclPrefixSum (undef : List T) (xs : List (List T)) : List (List T) :=
  (List.range xs.length).map fun rank ↦
    let x := xs.getD rank []
    let allSum := exclPrefixSum (allreduce x.length xs)
    let scanned := (exscan x.length undef xs).getD rank []
    if rank = 0 then (List.range x.length).map fun i ↦ allSum.getD i 0
    else (List.range x.length).map fun i ↦ scanned.getD i 0 + allSum.getD i 0

def bucketTotal (xs : List (List T)) (j : Nat) : T := (xs.map (·.getD j 0)).sum

@[simp] theorem bucketTotal_nil : bucketTotal ([] : List (List T)) = fun _ ↦ 0 := rfl

@[simp] theorem bucketTotal_cons (x : List T) (xs : List (List T)) :
    bucketTotal (x :: xs) = fun j ↦ x.getD j 0 + bucketTotal xs j := rfl

theorem vsum_eq (xs : List (List T)) (m : Nat) :
    vsum m xs = (List.range m).map (bucketTotal xs) := rfl

theorem getD_exclPrefixSum_vsum (xs : List (List T)) {m i : Nat} (hi : i < m) :
    (exclPrefixSum (vsum m xs)).getD i 0 = ((List.range i).map (bucketTotal xs)).sum := by
  rw [List.getD_eq_getElem _ _ (by simpa using hi), getElem_exclPrefixSum, vsum_eq,
    ← List.map_take, List.take_range, Nat.min_eq_left hi.le]

theorem getD_vsum (xs : List (List T)) {m i : Nat} (hi : i < m) :
    (vsum m xs).getD i 0 = (xs.map (·.getD i 0)).sum := by
  rw [List.getD_eq_getElem _ _ (by simpa using hi), getElem_vsum]

theorem getD_stripedExclPrefixSum_row (undef : List T) (xs : List (List T)) {m : Nat}
    (hm : ∀ x ∈ xs, x.length = m) {r : Nat} (hr : r < xs.length) :
    (stripedExclPrefixSum undef xs).getD r [] =
      if r = 0 then (List.range m).map fun i ↦ (exclPrefixSum (vsum m xs)).getD i 0
      else (List.range m).map fun i ↦
        ((exscan m undef xs).getD r []).getD i 0 + (exclPrefixSum (vsum m xs)).getD i 0 := by
  have hx : xs.getD r [] = xs[r] := List.getD_eq_getElem _ _ hr
  have hlen : xs[r].length = m := hm _ (List.getElem_mem hr)
  rw [List.getD_eq_getElem _ _ (by simpa [stripedExclPrefixSum] using hr)]
  simp only [stripedExclPrefixSum, List.getElem_map, List.getElem_range, allreduce, hx, hlen]

theorem getD_stripedExclPrefixSum (undef : List T) (xs : List (List T)) {m : Nat}
    (hm : ∀ x ∈ xs, x.length = m) {r i : Nat} (hr : r < xs.length) (hi : i < m) :
    ((stripedExclPrefixSum undef xs).getD r []).getD i 0 =
      ((List.range i).map (bucketTotal xs)).sum + ((xs.take r).map (·.getD i 0)).sum := by
  rw [getD_stripedExclPrefixSum_row undef xs hm hr]
  split_ifs with h0
  · rw [List.getD_eq_getElem _ _ (by simpa using hi), List.getElem_map, List.getElem_range,
      getD_exclPrefixSum_vsum xs hi, h0, List.take_zero, List.map_nil, List.sum_nil, add_zero]
  · rw [List.getD_eq_getElem _ _ (by simpa using hi), List.getElem_map, List.getElem_range,
      getD_exclPrefixSum_vsum xs hi,
      List.getD_eq_getElem (exscan m undef xs) [] (by simpa using hr),
      getElem_exscan _ _ _ _ h0, getD_vsum _ hi, add_comm]

theorem length_getD_stripedExclPrefixSum (undef : List T) (xs : List (List T)) {m : Nat}
    (hm : ∀ x ∈ xs, x.length = m) {r : Nat} (hr : r < xs.length) :
    ((stripedExclPrefixSum undef xs).getD r []).length = m := by
  rw [getD_stripedExclPrefixSum_row undef xs hm hr]
  split_ifs <;> simp

theorem exists_bracket (l : List Nat) {z : Nat} (h : z < l.sum) :
    ∃ k, ∃ hk : k < l.length, (l.take k).sum ≤ z ∧ z < (l.take k).sum + l[k] := by
  induction l generalizing z with
  | nil => simp at h
  | cons a l ih =>
    by_cases hz : z < a
    · exact ⟨0, by simp, by simp, by simpa using hz⟩
    · obtain ⟨k, hk, h₁, h₂⟩ := ih (z := z - a) (by simp at h; omega)
      exact ⟨k + 1, by simpa using hk, by simp; omega, by simp; omega⟩

theorem sum_bucketTotal (xs : List (List Nat)) {m : Nat} (hm : ∀ x ∈ xs, x.length = m) :
    ((List.range m).map (bucketTotal xs)).sum = (xs.map List.sum).sum := by
  induction xs with
  | nil => simp
  | cons x xs ih =>
    have hx : (List.range m).map (x.getD · 0) = x := by
      refine List.ext_getElem (by simp [hm x (by simp)]) fun i h₁ _ ↦ ?_
      simp only [List.getElem_map, List.getElem_range]
      exact List.getD_eq_getElem _ _ _
    rw [bucketTotal_cons, List.sum_map_add, hx, ih fun y hy ↦ hm y (by simp [hy]),
      List.map_cons, List.sum_cons]

theorem sum_take_succ_map (xs : List (List Nat)) {r : Nat} (hr : r < xs.length) (i : Nat) :
    ((xs.take (r + 1)).map (·.getD i 0)).sum =
      ((xs.take r).map (·.getD i 0)).sum + xs[r].getD i 0 := by
  rw [List.take_succ, List.getElem?_eq_getElem hr, List.map_append, List.sum_append]
  rfl

theorem sum_take_map_mono (xs : List (List Nat)) (i : Nat) {r r' : Nat} (h : r ≤ r') :
    ((xs.take r).map (·.getD i 0)).sum ≤ ((xs.take r').map (·.getD i 0)).sum := by
  simpa only [List.map_take] using List.monotone_sum_take (xs.map (·.getD i 0)) h

section Slots

variable (undef : List Nat) (xs : List (List Nat))

def bucketCount (r i : Nat) : Nat := (xs.getD r []).getD i 0

def bucketStart (r i : Nat) : Nat := ((stripedExclPrefixSum undef xs).getD r []).getD i 0

variable {xs} {m : Nat} (hm : ∀ x ∈ xs, x.length = m)
include hm

theorem bucketStart_eq {r i : Nat} (hr : r < xs.length) (hi : i < m) :
    bucketStart undef xs r i =
      ((List.range i).map (bucketTotal xs)).sum + ((xs.take r).map (·.getD i 0)).sum :=
  getD_stripedExclPrefixSum undef xs hm hr hi

theorem bucketStart_add_bucketCount {r i : Nat} (hr : r < xs.length) (hi : i < m) :
    bucketStart undef xs r i + bucketCount xs r i =
      ((List.range i).map (bucketTotal xs)).sum + ((xs.take (r + 1)).map (·.getD i 0)).sum := by
  rw [bucketStart_eq undef hm hr hi, bucketCount, List.getD_eq_getElem _ _ hr,
    sum_take_succ_map xs hr, Nat.add_assoc]

theorem bucketStart_add_bucketCount_le {r i : Nat} (hr : r < xs.length) (hi : i < m) :
    bucketStart undef xs r i + bucketCount xs r i ≤
      ((List.range (i + 1)).map (bucketTotal xs)).sum := by
  have hle := sum_take_map_mono xs i (Nat.succ_le_of_lt hr)
  rw [List.take_length] at hle
  rw [bucketStart_add_bucketCount undef hm hr hi, sum_range_succ_map]
  exact Nat.add_le_add_left hle _

theorem bucketStart_ordered {r i r' i' : Nat} (hr : r < xs.length) (hi : i < m)
    (hr' : r' < xs.length) (hi' : i' < m) (hlt : i < i' ∨ (i = i' ∧ r < r')) :
    bucketStart undef xs r i + bucketCount xs r i ≤ bucketStart undef xs r' i' := by
  rw [bucketStart_eq undef hm hr' hi']
  rcases hlt with hlt | ⟨rfl, hlt⟩
  · calc bucketStart undef xs r i + bucketCount xs r i
        ≤ ((List.range (i + 1)).map (bucketTotal xs)).sum :=
          bucketStart_add_bucketCount_le undef hm hr hi
      _ ≤ ((List.range i').map (bucketTotal xs)).sum := sum_range_map_mono _ hlt
      _ ≤ _ := Nat.le_add_right _ _
  · rw [bucketStart_add_bucketCount undef hm hr hi]
    exact Nat.add_le_add_left (sum_take_map_mono xs i hlt) _

theorem bucketStart_add_bucketCount_le_total {r i : Nat} (hr : r < xs.length) (hi : i < m) :
    bucketStart undef xs r i + bucketCount xs r i ≤ (xs.map List.sum).sum := by
  rw [← sum_bucketTotal xs hm]
  exact (bucketStart_add_bucketCount_le undef hm hr hi).trans (sum_range_map_mono _ hi)

theorem exists_bucketStart_le {z : Nat} (hz : z < (xs.map List.sum).sum) :
    ∃ r < xs.length, ∃ i < m,
      bucketStart undef xs r i ≤ z ∧ z < bucketStart undef xs r i + bucketCount xs r i := by
  rw [← sum_bucketTotal xs hm] at hz
  obtain ⟨i, hi, hi₁, hi₂⟩ := exists_bracket _ hz
  simp only [List.length_map, List.length_range] at hi
  simp only [← List.map_take, List.take_range, Nat.min_eq_left hi.le, List.getElem_map,
    List.getElem_range, bucketTotal] at hi₁ hi₂
  obtain ⟨r, hr, hr₁, hr₂⟩ := exists_bracket (xs.map (·.getD i 0))
    (z := z - ((List.range i).map (bucketTotal xs)).sum) (by omega)
  simp only [List.length_map] at hr
  simp only [List.getElem_map, ← List.map_take] at hr₁ hr₂
  refine ⟨r, hr, i, hi, ?_, ?_⟩
  · rw [bucketStart_eq undef hm hr hi]
    omega
  · rw [bucketStart_add_bucketCount undef hm hr hi, sum_take_succ_map xs hr]
    omega

end Slots

/-- After `striped_excl_prefix_sum`, rank `r`'s bucket `i` starts after every element of the
lower buckets and of bucket `i` on lower ranks; so the slots are disjoint, ordered bucket-major
then rank-minor, and cover exactly the total count. -/
theorem striped_excl_prefix_sum_slots (undef : List Nat) (xs : List (List Nat)) (m : Nat)
    (hm : ∀ x ∈ xs, x.length = m) :
    (∀ r < xs.length, ∀ i < m, bucketStart undef xs r i =
      ((List.range i).map fun j ↦ (xs.map (·.getD j 0)).sum).sum +
        ((xs.take r).map (·.getD i 0)).sum) ∧
    (∀ r < xs.length, ∀ i < m, ∀ r' < xs.length, ∀ i' < m, (i < i' ∨ (i = i' ∧ r < r')) →
      bucketStart undef xs r i + bucketCount xs r i ≤ bucketStart undef xs r' i') ∧
    (∀ r < xs.length, ∀ i < m, ∀ r' < xs.length, ∀ i' < m, (r, i) ≠ (r', i') → ∀ z,
      ¬ (bucketStart undef xs r i ≤ z ∧ z < bucketStart undef xs r i + bucketCount xs r i ∧
        bucketStart undef xs r' i' ≤ z ∧ z < bucketStart undef xs r' i' + bucketCount xs r' i')) ∧
    (∀ r < xs.length, ∀ i < m,
      bucketStart undef xs r i + bucketCount xs r i ≤ (xs.map List.sum).sum) ∧
    (∀ z < (xs.map List.sum).sum, ∃ r < xs.length, ∃ i < m,
      bucketStart undef xs r i ≤ z ∧ z < bucketStart undef xs r i + bucketCount xs r i) := by
  refine ⟨fun r hr i hi ↦ bucketStart_eq undef hm hr hi,
    fun r hr i hi r' hr' i' hi' ↦ bucketStart_ordered undef hm hr hi hr' hi', ?_,
    fun r hr i hi ↦ bucketStart_add_bucketCount_le_total undef hm hr hi,
    fun z hz ↦ exists_bucketStart_le undef hm hz⟩
  intro r hr i hi r' hr' i' hi' hne z ⟨h₁, h₂, h₃, h₄⟩
  rcases Nat.lt_trichotomy i i' with hlt | rfl | hlt
  · have := bucketStart_ordered undef hm hr hi hr' hi' (.inl hlt); omega
  · rcases Nat.lt_trichotomy r r' with hlt | rfl | hlt
    · have := bucketStart_ordered undef hm hr hi hr' hi' (.inr ⟨rfl, hlt⟩); omega
    · exact hne rfl
    · have := bucketStart_ordered undef hm hr' hi' hr hi (.inr ⟨rfl, hlt⟩); omega
  · have := bucketStart_ordered undef hm hr' hi' hr hi (.inl hlt); omega

theorem striped_excl_prefix_sum_slots_example :
    (∀ x ∈ [[1, 0, 2], [3, 1, 0]], x.length = 3) ∧
      stripedExclPrefixSum [7, 7, 7] [[1, 0, 2], [3, 1, 0]] = [[0, 4, 5], [1, 4, 7]] ∧
      ∀ z < 7, ∃ r < 2, ∃ i < 3, bucketStart [7, 7, 7] [[1, 0, 2], [3, 1, 0]] r i ≤ z ∧
        z < bucketStart [7, 7, 7] [[1, 0, 2], [3, 1, 0]] r i +
          bucketCount [[1, 0, 2], [3, 1, 0]] r i :=
  ⟨by decide, by decide,
    (striped_excl_prefix_sum_slots [7, 7, 7] [[1, 0, 2], [3, 1, 0]] 3 (by decide)).2.2.2.2⟩

end PsacMpi.StripedPrefixSum
