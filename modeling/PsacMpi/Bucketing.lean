import PsacMpi.Collectives
import Mathlib.Algebra.BigOperators.Group.Finset

namespace PsacMpi.Bucketing

open Counts Collectives

variable {α : Type}

/-- The counting loop of `msgs_all2all`: `send_counts[target_p_fun(*it)]++`, in the count type. -/
def countTargets (c : CountType) (target : α → Nat) : List Nat → List α → Option (List Nat)
  | counts, [] => some counts
  | counts, m :: ms =>
    c.add (counts.getD (target m) 0) 1 >>= fun k ↦
      countTargets c target (counts.set (target m) k) ms

structure Placement (α : Type) where
  offset : List Nat
  sendBuffer : List α

/-- One step of the placement loop: `send_buffer[offset[target_p_fun(*it)]++] = *it`. -/
def placeStep (target : α → Nat) (st : Placement α) (m : α) : Placement α :=
  let i := st.offset.getD (target m) 0
  ⟨st.offset.set (target m) (i + 1), st.sendBuffer.set i m⟩

def placeIndices (target : α → Nat) : Placement α → List α → List Nat
  | _, [] => []
  | st, m :: ms => st.offset.getD (target m) 0 :: placeIndices target (placeStep target st m) ms

def initPlacement [Inhabited α] (sendCounts : List Nat) (n : Nat) : Placement α :=
  ⟨exclPrefixSum sendCounts, List.replicate n default⟩

/-- The bucketing of `msgs_all2all` on one rank: its send counts and its send buffer. -/
def bucketMsgs [Inhabited α] (c : CountType) (target : α → Nat) (p : Nat) (msgs : List α) :
    Option (List Nat × List α) := do
  let sendCounts ← countTargets c target (List.replicate p 0) msgs
  let st := msgs.foldl (placeStep target) (initPlacement sendCounts msgs.length)
  pure (sendCounts, st.sendBuffer)

def targetCounts (target : α → Nat) (p : Nat) (msgs : List α) : List Nat :=
  (List.range p).map fun t ↦ msgs.countP (target · = t)

/-- The stable partition of the messages by target: those for rank 0, then those for rank 1, and
so on, each in their original order. -/
def stablePartition (target : α → Nat) (p : Nat) (msgs : List α) : List α :=
  ((List.range p).map fun t ↦ msgs.filter (target · = t)).flatten

theorem sum_set_succ (l : List Nat) {t : Nat} (ht : t < l.length) :
    (l.set t (l[t] + 1)).sum = l.sum + 1 := by
  induction l generalizing t with
  | nil => simp at ht
  | cons a l ih =>
    cases t with
    | zero => simp; omega
    | succ t => simp [ih (Nat.lt_of_succ_lt_succ ht)]; omega

theorem map_range_set_succ (target : α → Nat) (m : α) (ms : List α) (counts : List Nat)
    (hm : target m < counts.length) :
    (List.range (counts.set (target m) (counts[target m] + 1)).length).map
        (fun t ↦ (counts.set (target m) (counts[target m] + 1)).getD t 0 +
          ms.countP (target · = t)) =
      (List.range counts.length).map fun t ↦ counts.getD t 0 + (m :: ms).countP (target · = t) := by
  refine List.ext_getElem (by simp) fun t h₁ _ ↦ ?_
  have ht' : t < counts.length := by simpa using h₁
  simp only [List.getElem_map, List.getElem_range, List.getD_eq_getElem _ _ ht',
    List.getD_eq_getElem (counts.set (target m) (counts[target m] + 1)) 0 (by simpa using ht'),
    List.countP_cons, List.getElem_set]
  by_cases h : target m = t
  · subst h; simp; omega
  · simp [h]

theorem map_range_getD_add_countP_nil (target : α → Nat) (counts : List Nat) :
    ((List.range counts.length).map fun t ↦ counts.getD t 0 + ([] : List α).countP (target · = t)) =
      counts :=
  List.ext_getElem (by simp) fun i h₁ _ ↦ by simp [List.getElem?_eq_getElem (by simpa using h₁)]

theorem countTargets_eq (c : CountType) (target : α → Nat) (ms : List α) (counts : List Nat)
    (ht : ∀ m ∈ ms, target m < counts.length) (hfit : c.Fits (counts.sum + ms.length)) :
    countTargets c target counts ms =
      some ((List.range counts.length).map fun t ↦ counts.getD t 0 + ms.countP (target · = t)) := by
  induction ms generalizing counts with
  | nil => exact congrArg some (map_range_getD_add_countP_nil target counts).symm
  | cons m ms ih =>
    have hm := ht m (by simp)
    have hk : counts.getD (target m) 0 = counts[target m] := List.getD_eq_getElem _ _ hm
    have hle : counts[target m] ≤ counts.sum := List.le_sum_of_mem (List.getElem_mem hm)
    have hadd : c.add counts[target m] 1 = some (counts[target m] + 1) :=
      if_pos (hfit.mono (by simp; omega))
    rw [countTargets, hk, hadd, Option.bind_eq_bind, Option.some_bind,
      ih _ (fun m' hm' ↦ by simpa using ht m' (by simp [hm'])) (by
        rw [sum_set_succ _ hm]; simpa [Nat.add_assoc, Nat.add_comm 1] using hfit)]
    exact congrArg some (map_range_set_succ target m ms counts hm)

theorem countTargets_eq_some (c : CountType) (target : α → Nat) (ms : List α) (counts : List Nat)
    (ht : ∀ m ∈ ms, target m < counts.length) {res : List Nat}
    (h : countTargets c target counts ms = some res) :
    res = (List.range counts.length).map fun t ↦ counts.getD t 0 + ms.countP (target · = t) := by
  induction ms generalizing counts with
  | nil => rw [map_range_getD_add_countP_nil]; exact (Option.some.inj h).symm
  | cons m ms ih =>
    have hm := ht m (by simp)
    rw [countTargets, Option.bind_eq_bind, Option.bind_eq_some] at h
    obtain ⟨k, hk, h⟩ := h
    rw [CountType.add_eq_some hk, List.getD_eq_getElem _ _ hm] at h
    rw [ih _ (fun m' hm' ↦ by simpa using ht m' (by simp [hm'])) h,
      map_range_set_succ target m ms counts hm]

theorem countTargets_eq_none (c : CountType) (target : α → Nat) {t : Nat} (ms : List α)
    (hms : ∀ m ∈ ms, target m = t) (counts : List Nat) (ht : t < counts.length)
    (hc : c.Fits (counts.getD t 0)) (hover : ¬ c.Fits (counts.getD t 0 + ms.length)) :
    countTargets c target counts ms = none := by
  induction ms generalizing counts with
  | nil => exact absurd hc hover
  | cons m ms ih =>
    rw [countTargets, hms m (List.mem_cons_self _ _), CountType.add]
    by_cases hk : c.Fits (counts.getD t 0 + 1)
    · have hget : (counts.set t (counts.getD t 0 + 1)).getD t 0 = counts.getD t 0 + 1 := by
        simp [List.getD_eq_getElem _ _ ht, ht]
      rw [if_pos hk, Option.bind_eq_bind, Option.some_bind]
      exact ih (fun m' hm' ↦ hms m' (List.mem_cons_of_mem _ hm')) _ (by simpa using ht)
        (by rwa [hget]) (by rwa [hget, Nat.add_assoc, Nat.add_comm 1])
    · rw [if_neg hk]
      rfl

theorem sum_range_eq_finset (f : Nat → Nat) (n : Nat) :
    ((List.range n).map f).sum = ∑ i ∈ Finset.range n, f i := by
  induction n with
  | zero => simp
  | succ n ih => rw [sum_range_succ_map, ih, Finset.sum_range_succ]

theorem sum_range_ite {a p : Nat} (ha : a < p) :
    ((List.range p).map fun t ↦ if a = t then 1 else 0).sum = 1 := by
  rw [sum_range_eq_finset, Finset.sum_ite_eq, if_pos (Finset.mem_range.mpr ha)]

theorem sum_targetCounts (target : α → Nat) (p : Nat) (msgs : List α)
    (ht : ∀ m ∈ msgs, target m < p) : (targetCounts target p msgs).sum = msgs.length := by
  induction msgs with
  | nil => simp [targetCounts]
  | cons m ms ih =>
    simp only [targetCounts, List.countP_cons, decide_eq_true_eq, List.sum_map_add] at ih ⊢
    rw [ih fun m' hm' ↦ ht m' (by simp [hm']), sum_range_ite (ht m (by simp)), List.length_cons]

theorem length_stablePartition (target : α → Nat) (p : Nat) (msgs : List α)
    (ht : ∀ m ∈ msgs, target m < p) : (stablePartition target p msgs).length = msgs.length := by
  rw [← sum_targetCounts target p msgs ht, stablePartition, List.length_flatten, List.map_map]
  simp [targetCounts, List.countP_eq_length_filter, Function.comp_def]

theorem getD_placeStep_offset (target : α → Nat) (st : Placement α) (m : α) {t : Nat}
    (ht : t < st.offset.length) :
    (placeStep target st m).offset.getD t 0 =
      st.offset.getD t 0 + if target m = t then 1 else 0 := by
  simp only [placeStep, List.getD_eq_getElem _ _ ht,
    List.getD_eq_getElem _ _ (show t < (st.offset.set (target m) _).length by simpa using ht),
    List.getElem_set]
  split_ifs with h <;> simp_all

theorem placeIndices_nodup (target : α → Nat) (p : Nat) (ms : List α) (st : Placement α)
    (hlen : st.offset.length = p) (ht : ∀ m ∈ ms, target m < p)
    (hdisj : ∀ t < p, ∀ t' < p, t ≠ t' →
      st.offset.getD t 0 + ms.countP (target · = t) ≤ st.offset.getD t' 0 ∨
        st.offset.getD t' 0 + ms.countP (target · = t') ≤ st.offset.getD t 0) :
    (placeIndices target st ms).Nodup ∧ ∀ i ∈ placeIndices target st ms, ∃ t < p,
      st.offset.getD t 0 ≤ i ∧ i < st.offset.getD t 0 + ms.countP (target · = t) := by
  induction ms generalizing st with
  | nil => simp [placeIndices]
  | cons m ms ih =>
    have hm := ht m (by simp)
    have hoff : ∀ t < p, (placeStep target st m).offset.getD t 0 =
        st.offset.getD t 0 + if target m = t then 1 else 0 :=
      fun t h ↦ getD_placeStep_offset target st m (hlen ▸ h)
    have hcnt : ∀ t, (m :: ms).countP (target · = t) =
        ms.countP (target · = t) + if target m = t then 1 else 0 := fun t ↦ by
      simp [List.countP_cons]
    obtain ⟨hnd, hin⟩ := ih (placeStep target st m) (by simpa [placeStep] using hlen)
      (fun m' hm' ↦ ht m' (by simp [hm'])) (fun t h t' h' hne ↦ by
        have := hdisj t h t' h' hne
        rw [hoff t h, hoff t' h']; rw [hcnt, hcnt] at this
        split_ifs at this ⊢ <;> omega)
    refine ⟨List.nodup_cons.mpr ⟨fun hmem ↦ ?_, hnd⟩, ?_⟩
    · obtain ⟨t, htp, h₁, h₂⟩ := hin _ hmem
      rw [hoff t htp] at h₁ h₂
      by_cases h : target m = t
      · simp [h] at h₁
      · have := hdisj _ hm t htp h
        rw [hcnt, hcnt] at this
        simp only [h, if_true, if_false] at this h₁ h₂
        omega
    · intro i hi
      rcases List.mem_cons.mp hi with rfl | hi
      · exact ⟨target m, hm, le_rfl, by rw [hcnt]; simp⟩
      · obtain ⟨t, htp, h₁, h₂⟩ := hin i hi
        rw [hoff t htp] at h₁ h₂
        refine ⟨t, htp, ?_, ?_⟩
        · split_ifs at h₁ <;> omega
        · rw [hcnt]; split_ifs at h₁ h₂ ⊢ <;> omega

theorem set_flatten (L : List (List α)) {t : Nat} (ht : t < L.length) {j : Nat}
    (hj : j < L[t].length) (x : α) :
    L.flatten.set (((L.take t).map List.length).sum + j) x = (L.set t (L[t].set j x)).flatten := by
  induction L generalizing t with
  | nil => simp at ht
  | cons l L ih =>
    cases t with
    | zero => simpa using List.set_append_left (t := L.flatten) j x hj
    | succ t =>
      have h := ih (Nat.lt_of_succ_lt_succ ht) hj
      simp only [List.flatten_cons, List.take_succ_cons, List.map_cons, List.sum_cons,
        List.set_cons_succ, List.getElem_cons_succ] at h ⊢
      rw [Nat.add_assoc, List.set_append_right _ _ (Nat.le_add_right _ _), Nat.add_sub_cancel_left,
        h]

theorem flatten_map_replicate (L : List Nat) (f : Nat → Nat) (d : α) :
    (L.map fun t ↦ List.replicate (f t) d).flatten = List.replicate (L.map f).sum d := by
  induction L with
  | nil => rfl
  | cons t L ih =>
    rw [List.map_cons, List.flatten_cons, ih, List.map_cons, List.sum_cons, List.replicate_add]

theorem getD_exclPrefixSum_targetCounts (target : α → Nat) {p t : Nat} (ht : t < p)
    (msgs : List α) :
    (exclPrefixSum (targetCounts target p msgs)).getD t 0 =
      ((List.range t).map fun t' ↦ msgs.countP (target · = t')).sum := by
  rw [List.getD_eq_getElem _ _ (by simpa [targetCounts] using ht), getElem_exclPrefixSum,
    targetCounts, ← List.map_take, List.take_range, Nat.min_eq_left ht.le]

theorem countTargets_replicate (c : CountType) (target : α → Nat) (p : Nat) (msgs : List α)
    (ht : ∀ m ∈ msgs, target m < p) (hfit : c.Fits msgs.length) :
    countTargets c target (List.replicate p 0) msgs = some (targetCounts target p msgs) := by
  rw [countTargets_eq c target msgs _ (by simpa using ht) (by simpa using hfit)]
  simp [targetCounts]

@[simp] theorem length_placeIndices (target : α → Nat) (st : Placement α) (ms : List α) :
    (placeIndices target st ms).length = ms.length := by
  induction ms generalizing st <;> simp [placeIndices, *]

theorem sendSlice_stablePartition (target : α → Nat) {p t : Nat} (htp : t < p) (msgs : List α) :
    sendSlice (stablePartition target p msgs) (targetCounts target p msgs)
      (exclPrefixSum (targetCounts target p msgs)) t = msgs.filter (target · = t) := by
  have hcounts : targetCounts target p msgs =
      ((List.range p).map fun t ↦ msgs.filter (target · = t)).map List.length := by
    simp [targetCounts, List.countP_eq_length_filter]
  have h := congrArg (·[t]?)
    (blockSlices_flatten ((List.range p).map fun t ↦ msgs.filter (target · = t)))
  simp only [blockSlices, ← hcounts, stablePartition] at h ⊢
  simpa [List.getElem?_range htp, targetCounts, htp] using h

variable [Inhabited α]

def midPlacement (target : α → Nat) (p : Nat) (pre post : List α) : Placement α :=
  ⟨(List.range p).map fun t ↦
      (exclPrefixSum (targetCounts target p (pre ++ post))).getD t 0 + pre.countP (target · = t),
    ((List.range p).map fun t ↦
      pre.filter (target · = t) ++ List.replicate (post.countP (target · = t)) default).flatten⟩

theorem initPlacement_eq (target : α → Nat) (p : Nat) (msgs : List α)
    (ht : ∀ m ∈ msgs, target m < p) :
    initPlacement (targetCounts target p msgs) msgs.length = midPlacement target p [] msgs := by
  simp only [initPlacement, midPlacement, List.nil_append, List.countP_nil, Nat.add_zero,
    List.filter_nil, flatten_map_replicate]
  refine congrArg₂ _ (List.ext_getElem (by simp [targetCounts]) fun t h₁ _ ↦ ?_) ?_
  · simp only [List.getElem_map, List.getElem_range]
    rw [List.getD_eq_getElem _ _ h₁]
  · rw [← sum_targetCounts target p msgs ht]; rfl

theorem midPlacement_sendBuffer (target : α → Nat) (p : Nat) (msgs : List α) :
    (midPlacement target p msgs []).sendBuffer = stablePartition target p msgs := by
  simp [midPlacement, stablePartition]

theorem placeStep_midPlacement (target : α → Nat) {p : Nat} (pre post : List α) {m : α}
    (hm : target m < p) :
    placeStep target (midPlacement target p pre (m :: post)) m =
      midPlacement target p (pre ++ [m]) post := by
  have hoff : (midPlacement target p pre (m :: post)).offset.getD (target m) 0 =
      (exclPrefixSum (targetCounts target p (pre ++ m :: post))).getD (target m) 0 +
        pre.countP (target · = target m) := by
    rw [midPlacement, List.getD_eq_getElem _ _ (by simpa using hm)]
    simp
  simp only [placeStep, hoff]
  refine congrArg₂ _ ?_ ?_
  · refine List.ext_getElem (by simp [midPlacement]) fun t h₁ _ ↦ ?_
    simp only [midPlacement, List.getElem_set, List.getElem_map, List.getElem_range,
      List.append_assoc, List.singleton_append, List.countP_append, List.countP_singleton]
    by_cases h : target m = t
    · subst h; simp; omega
    · simp [h]
  · set B : Nat → List α := fun t ↦
      pre.filter (target · = t) ++ List.replicate ((m :: post).countP (target · = t)) default
    have hB : ∀ t, (B t).length = (pre ++ m :: post).countP (target · = t) := fun t ↦ by
      simp [B, List.countP_eq_length_filter]
    have hj : pre.countP (target · = target m) < (B (target m)).length := by
      rw [hB]; simp
    have hpos : ((((List.range p).map B).take (target m)).map List.length).sum =
        (exclPrefixSum (targetCounts target p (pre ++ m :: post))).getD (target m) 0 := by
      rw [getD_exclPrefixSum_targetCounts target hm, ← List.map_take, List.take_range,
        Nat.min_eq_left hm.le, List.map_map]
      exact congrArg List.sum (List.map_congr_left fun t _ ↦ hB t)
    have h := set_flatten ((List.range p).map B) (t := target m) (by simpa using hm)
      (j := pre.countP (target · = target m)) (by simpa using hj) m
    rw [hpos] at h
    simp only [midPlacement]
    rw [h]
    congr 1
    refine List.ext_getElem (by simp) fun t h₁ _ ↦ ?_
    simp only [List.getElem_set, List.getElem_map, List.getElem_range]
    by_cases ht : target m = t
    · subst ht
      simp [B, List.countP_eq_length_filter, List.set_append_right, List.replicate_succ]
    · simp [B, ht, List.countP_cons]

theorem foldl_placeStep_midPlacement (target : α → Nat) (p : Nat) (pre post : List α)
    (ht : ∀ m ∈ post, target m < p) :
    post.foldl (placeStep target) (midPlacement target p pre post) =
      midPlacement target p (pre ++ post) [] := by
  induction post generalizing pre with
  | nil => simp
  | cons m post ih =>
    rw [List.foldl_cons, placeStep_midPlacement target pre post (ht m (by simp)),
      ih _ fun m' hm' ↦ ht m' (by simp [hm'])]
    simp

theorem bucketMsgs_eq (c : CountType) (target : α → Nat) (p : Nat) (msgs : List α)
    (ht : ∀ m ∈ msgs, target m < p) (hfit : c.Fits msgs.length) :
    bucketMsgs c target p msgs =
      some (targetCounts target p msgs, stablePartition target p msgs) := by
  rw [bucketMsgs, countTargets_replicate c target p msgs ht hfit, Option.bind_eq_bind,
    Option.some_bind, initPlacement_eq target p msgs ht, foldl_placeStep_midPlacement _ _ _ _ ht,
    List.nil_append]
  exact congrArg (fun b ↦ some (targetCounts target p msgs, b))
    (midPlacement_sendBuffer target p msgs)

theorem fst_of_bucketMsgs_eq_some (c : CountType) (target : α → Nat) (p : Nat) (msgs : List α)
    (ht : ∀ m ∈ msgs, target m < p) {b : List Nat × List α} (h : bucketMsgs c target p msgs = some b) :
    b.1 = targetCounts target p msgs := by
  simp only [bucketMsgs, Option.bind_eq_bind, Option.bind_eq_some, Option.pure_def,
    Option.some.injEq] at h
  obtain ⟨sc, hsc, rfl⟩ := h
  rw [countTargets_eq_some c target msgs _ (by simpa using ht) hsc]
  simp [targetCounts]

theorem placeIndices_perm (target : α → Nat) (p : Nat) (msgs : List α)
    (ht : ∀ m ∈ msgs, target m < p) :
    (placeIndices target (initPlacement (targetCounts target p msgs) msgs.length) msgs).Perm
      (List.range msgs.length) := by
  have hstart : ∀ t < p,
      (initPlacement (α := α) (targetCounts target p msgs) msgs.length).offset.getD t 0 =
      ((List.range t).map fun t' ↦ msgs.countP (target · = t')).sum :=
    fun t h ↦ getD_exclPrefixSum_targetCounts target h msgs
  have hend : ∀ t < p, ((List.range t).map fun t' ↦ msgs.countP (target · = t')).sum +
      msgs.countP (target · = t) ≤ msgs.length := fun t h ↦ by
    rw [← sum_range_succ_map, ← sum_targetCounts target p msgs ht]
    exact sum_range_map_mono _ h
  obtain ⟨hnd, hin⟩ := placeIndices_nodup target p msgs
    (initPlacement (targetCounts target p msgs) msgs.length) (by simp [initPlacement, targetCounts])
    ht (fun t h t' h' hne ↦ by
      rw [hstart t h, hstart t' h']
      rcases Nat.lt_or_gt_of_ne hne with hlt | hlt
      · exact .inl (by rw [← sum_range_succ_map]; exact sum_range_map_mono _ hlt)
      · exact .inr (by rw [← sum_range_succ_map]; exact sum_range_map_mono _ hlt))
  refine (List.subperm_of_subset hnd fun i hi ↦ ?_).perm_of_length_le (by simp)
  obtain ⟨t, htp, -, hi₂⟩ := hin i hi
  rw [hstart t htp] at hi₂
  exact List.mem_range.mpr (lt_of_lt_of_le hi₂ (hend t htp))

/-- The bucketing loops of `msgs_all2all` are a counting sort: every write lands inside the send
buffer and every slot is written once, the buffer is the stable partition of the messages by
target, and the displacements handed to `MPI_Alltoallv` delimit exactly its buckets. -/
theorem bucket_msgs_counting_sort (c : CountType) (target : α → Nat) (p : Nat) (msgs : List α)
    (ht : ∀ m ∈ msgs, target m < p) (hfit : c.Fits msgs.length) :
    bucketMsgs c target p msgs =
        some (targetCounts target p msgs, stablePartition target p msgs) ∧
      (∀ i ∈ placeIndices target (initPlacement (targetCounts target p msgs) msgs.length) msgs,
        i < msgs.length) ∧
      (placeIndices target (initPlacement (targetCounts target p msgs) msgs.length) msgs).Perm
        (List.range msgs.length) ∧
      getDisplacements c (targetCounts target p msgs) =
        some (exclPrefixSum (targetCounts target p msgs)) ∧
      ∀ t < p, sendSlice (stablePartition target p msgs) (targetCounts target p msgs)
        (exclPrefixSum (targetCounts target p msgs)) t = msgs.filter (target · = t) := by
  have hperm := placeIndices_perm target p msgs ht
  refine ⟨bucketMsgs_eq c target p msgs ht hfit, fun i hi ↦ List.mem_range.mp (hperm.subset hi),
    hperm, by rw [getDisplacements_eq, sum_targetCounts target p msgs ht, if_pos hfit], ?_⟩
  exact fun t htp ↦ sendSlice_stablePartition target htp msgs

theorem bucket_msgs_counting_sort_example :
    (∀ m ∈ [5, 3, 4, 0, 2], m % 3 < 3) ∧ CountType.int.Fits [5, 3, 4, 0, 2].length ∧
      bucketMsgs .int (· % 3) 3 [5, 3, 4, 0, 2] = some ([2, 1, 2], [3, 0, 4, 5, 2]) ∧
      placeIndices (· % 3) (initPlacement (targetCounts (· % 3) 3 [5, 3, 4, 0, 2]) 5)
        [5, 3, 4, 0, 2] = [3, 0, 2, 1, 4] :=
  have h := bucket_msgs_counting_sort .int (· % 3) 3 [5, 3, 4, 0, 2] (by decide) (by decide)
  ⟨by decide, by decide, h.1.trans (by decide), by decide⟩

/-- `INT_MAX + 1` messages for one target overflow its `int` count in `send_counts`. -/
theorem bucket_msgs_int_overflow :
    (∀ m ∈ List.replicate (INT_MAX + 1) 0, (fun _ ↦ 0) m < 1) ∧
      bucketMsgs .int (fun _ ↦ 0) 1 (List.replicate (INT_MAX + 1) (0 : Nat)) = none := by
  refine ⟨fun _ _ ↦ Nat.one_pos, ?_⟩
  rw [bucketMsgs, countTargets_eq_none .int _ _ (fun _ _ ↦ rfl) _ (by decide) (by decide)
    (by rw [List.length_replicate]; decide)]
  rfl

end PsacMpi.Bucketing
