import PsacMpi.Bucketing

namespace PsacMpi.MsgsAll2all

open Counts Collectives Bucketing

variable {α : Type}

/-- `all2allv_get_recv_counts(send_counts, comm)` on every rank: `MPI_Alltoall` of the counts. -/
def all2allvGetRecvCounts (sendCounts : List (List Nat)) : List (List Nat) := alltoall sendCounts

/-- `msgs_all2all(msgs, target_p_fun, comm)` run by every rank: `world` holds each rank's
messages and `target q` is rank `q`'s `target_p_fun`; the result is every rank's `msgs` after
the call. -/
def msgsAll2all [Inhabited α] (c : CountType) (target : Nat → α → Nat) (world : List (List α)) :
    Option (List (List α)) := do
  let p := world.length
  let buckets ← (List.range p).mapM fun q ↦ bucketMsgs c (target q) p (world.getD q [])
  let sendCounts := buckets.map (·.1)
  let recvCounts := all2allvGetRecvCounts sendCounts
  let sendDispls ← sendCounts.mapM (getDisplacements c)
  let recvDispls ← recvCounts.mapM (getDisplacements c)
  let recvSizes ← recvCounts.mapM (c.accumulate 0)
  pure (alltoallv (buckets.map (·.2)) sendCounts sendDispls
    (recvSizes.map fun n ↦ List.replicate n default) recvDispls)

/-- What rank `r` should hold afterwards: the messages of rank 0 for `r`, then those of rank 1
for `r`, and so on, each block in its sender's order. -/
def delivered (target : Nat → α → Nat) (world : List (List α)) : List (List α) :=
  (List.range world.length).map fun r ↦
    ((List.range world.length).map fun q ↦ (world.getD q []).filter (target q · = r)).flatten

def sendCountsOf (target : Nat → α → Nat) (world : List (List α)) : List (List Nat) :=
  (List.range world.length).map fun q ↦ targetCounts (target q) world.length (world.getD q [])

theorem getD_map_range {β : Type} (f : Nat → β) {p q : Nat} (hq : q < p) (d : β) :
    ((List.range p).map f).getD q d = f q := by
  simp [hq]

theorem getD_map_of_lt {β γ : Type} (f : β → γ) {l : List β} {r : Nat} (hr : r < l.length)
    (d : γ) (d' : β) : (l.map f).getD r d = f (l.getD r d') := by
  simp [hr]

theorem recvCounts_eq (target : Nat → α → Nat) (world : List (List α)) {r : Nat}
    (hr : r < world.length) :
    (all2allvGetRecvCounts (sendCountsOf target world)).getD r [] =
      ((List.range world.length).map fun q ↦ (world.getD q []).filter (target q · = r)).map
        List.length := by
  simp only [all2allvGetRecvCounts, alltoall, sendCountsOf, List.length_map, List.length_range,
    getD_map_range _ hr, List.map_map]
  refine List.map_congr_left fun q _ ↦ ?_
  simp [targetCounts, hr, List.countP_eq_length_filter]

theorem sum_recvCounts (target : Nat → α → Nat) (world : List (List α)) {r : Nat}
    (hr : r < world.length) :
    ((all2allvGetRecvCounts (sendCountsOf target world)).getD r []).sum =
      ((delivered target world).getD r []).length := by
  rw [recvCounts_eq target world hr, delivered, getD_map_range _ hr, List.length_flatten]

theorem count_filter_eq [DecidableEq α] (a : α) (l : List α) (P : α → Prop) [DecidablePred P] :
    (l.filter (P ·)).count a = if P a then l.count a else 0 := by
  split_ifs with h
  · exact List.count_filter (by simpa using h)
  · exact List.count_eq_zero_of_not_mem fun hm ↦ h (by simpa using (List.mem_filter.mp hm).2)

theorem delivered_perm (target : Nat → α → Nat) (world : List (List α))
    (ht : ∀ q < world.length, ∀ m ∈ world.getD q [], target q m < world.length) :
    (delivered target world).flatten.Perm world.flatten := by
  classical
  have hw : (List.range world.length).map (world.getD · []) = world :=
    List.ext_getElem (by simp) fun i _ h ↦ by simp [List.getElem?_eq_getElem h]
  rw [List.perm_iff_count]
  intro a
  conv_rhs => rw [← hw]
  simp only [delivered, List.count_flatten, List.map_map, Function.comp_def, count_filter_eq,
    sum_range_eq_finset]
  rw [Finset.sum_comm]
  refine Finset.sum_congr rfl fun q hq ↦ ?_
  by_cases ha : a ∈ world.getD q []
  · rw [Finset.sum_ite_eq, if_pos (Finset.mem_range.mpr (ht q (Finset.mem_range.mp hq) a ha))]
  · simp only [List.count_eq_zero_of_not_mem ha, ite_self, Finset.sum_const_zero]

theorem filter_flatten_map_range {β : Type} (g : Nat → List β) (label : β → Nat) {p r : Nat}
    (hr : r < p) (hg : ∀ q < p, ∀ x ∈ g q, label x = q) :
    ((List.range p).map g).flatten.filter (label · = r) = g r := by
  induction p with
  | zero => omega
  | succ p ih =>
    rw [List.range_succ, List.map_append, List.flatten_append, List.filter_append]
    rcases Nat.lt_succ_iff_lt_or_eq.mp hr with hr | rfl
    · rw [ih hr fun q hq ↦ hg q (by omega), List.filter_eq_nil_iff.mpr fun x hx ↦ by
        simp [hg p (by omega) x (by simpa using hx)]; omega, List.append_nil]
    · rw [List.filter_eq_nil_iff.mpr fun x hx ↦ ?_, List.nil_append,
        List.filter_eq_self.mpr fun x hx ↦ by simp [hg r (by omega) x (by simpa using hx)]]
      · simp
      · obtain ⟨l, hl, hxl⟩ := List.mem_flatten.mp hx
        obtain ⟨q, hq, rfl⟩ := List.mem_map.mp hl
        simp [hg q (by simpa using (List.mem_range.mp hq).trans (Nat.lt_succ_self _)) x hxl,
          Nat.ne_of_lt (List.mem_range.mp hq)]

section Idempotent

variable (target : α → Nat) (world : List (List α))

theorem length_delivered (target : Nat → α → Nat) :
    (delivered target world).length = world.length := by
  rw [delivered, List.length_map, List.length_range]

theorem target_of_mem_delivered {r : Nat} (hr : r < world.length) {m : α}
    (hm : m ∈ (delivered (fun _ ↦ target) world).getD r []) : target m = r := by
  rw [delivered, getD_map_range _ hr] at hm
  obtain ⟨l, hl, hml⟩ := List.mem_flatten.mp hm
  obtain ⟨q, -, rfl⟩ := List.mem_map.mp hl
  simpa using (List.mem_filter.mp hml).2

theorem delivered_delivered :
    delivered (fun _ ↦ target) (delivered (fun _ ↦ target) world) =
      delivered (fun _ ↦ target) world := by
  set D := delivered (fun _ ↦ target) world
  have hD : D.length = world.length := length_delivered world _
  conv_rhs => rw [← map_range_getD D []]
  rw [delivered]
  refine List.map_congr_left fun r hr ↦ Eq.trans ?_ (filter_flatten_map_range (D.getD · []) target
    (List.mem_range.mp hr) fun q hq m hm ↦ target_of_mem_delivered target world (hD ▸ hq) hm)
  rw [List.filter_flatten, List.map_map]
  rfl

end Idempotent

/-- Every message tagged with the rank that holds it, as a message type carrying its origin. -/
def tagOrigin (world : List (List α)) : List (List (Nat × α)) :=
  (List.range world.length).map fun q ↦ (world.getD q []).map fun m ↦ (q, m)

section RoundTrip

variable (target : Nat → α → Nat) (world : List (List α))

theorem length_tagOrigin : (tagOrigin world).length = world.length := by
  rw [tagOrigin, List.length_map, List.length_range]

theorem getD_tagOrigin {q : Nat} (hq : q < world.length) :
    (tagOrigin world).getD q [] = (world.getD q []).map fun m ↦ (q, m) :=
  getD_map_range _ hq _

theorem getD_delivered_tagOrigin {s : Nat} (hs : s < world.length) :
    (delivered (fun q x ↦ target q x.2) (tagOrigin world)).getD s [] =
      ((List.range world.length).map fun q ↦
        ((world.getD q []).filter (target q · = s)).map fun m ↦ (q, m)).flatten := by
  rw [delivered, length_tagOrigin, getD_map_range _ hs]
  refine congrArg List.flatten (List.map_congr_left fun q hq ↦ ?_)
  rw [getD_tagOrigin world (List.mem_range.mp hq), List.filter_map]
  rfl

theorem length_getD_delivered_tagOrigin {s : Nat} (hs : s < world.length) :
    ((delivered (fun q x ↦ target q x.2) (tagOrigin world)).getD s []).length =
      ((delivered target world).getD s []).length := by
  rw [getD_delivered_tagOrigin target world hs, delivered, getD_map_range _ hs]
  simp [List.length_flatten, Function.comp_def]

theorem delivered_delivered_tagOrigin :
    delivered (fun _ x ↦ x.1) (delivered (fun q x ↦ target q x.2) (tagOrigin world)) =
      (List.range world.length).map fun r ↦
        (stablePartition (target r) world.length (world.getD r [])).map fun m ↦ (r, m) := by
  rw [delivered, length_delivered, length_tagOrigin]
  refine List.map_congr_left fun r hr ↦ ?_
  rw [stablePartition, List.map_flatten, List.map_map]
  refine congrArg List.flatten (List.map_congr_left fun s hs ↦ ?_)
  rw [getD_delivered_tagOrigin target world (List.mem_range.mp hs),
    filter_flatten_map_range _ Prod.fst (List.mem_range.mp hr)
      fun _ _ x hx ↦ by obtain ⟨m, -, rfl⟩ := List.mem_map.mp hx; rfl]
  rfl

end RoundTrip

variable [Inhabited α]

theorem buckets_eq (c : CountType) (target : Nat → α → Nat) (world : List (List α))
    (ht : ∀ q < world.length, ∀ m ∈ world.getD q [], target q m < world.length)
    (hsend : ∀ q < world.length, c.Fits (world.getD q []).length) :
    ((List.range world.length).mapM fun q ↦
        bucketMsgs c (target q) world.length (world.getD q [])) =
      some ((List.range world.length).map fun q ↦
        (targetCounts (target q) world.length (world.getD q []),
          stablePartition (target q) world.length (world.getD q []))) :=
  mapM_eq_some fun q hq ↦ bucketMsgs_eq c (target q) _ _ (ht q (List.mem_range.mp hq))
    (hsend q (List.mem_range.mp hq))

theorem alltoallv_stablePartition (target : Nat → α → Nat) (world : List (List α)) :
    alltoallv ((List.range world.length).map fun q ↦
        stablePartition (target q) world.length (world.getD q []))
      (sendCountsOf target world) ((sendCountsOf target world).map exclPrefixSum)
      ((all2allvGetRecvCounts (sendCountsOf target world)).map fun rc ↦
        List.replicate rc.sum default)
      ((all2allvGetRecvCounts (sendCountsOf target world)).map exclPrefixSum) =
      delivered target world := by
  refine List.ext_getElem (by simp [alltoallv, delivered]) fun r h₁ _ ↦ ?_
  have hr : r < world.length := by simpa [alltoallv] using h₁
  have hrc : r < (all2allvGetRecvCounts (sendCountsOf target world)).length := by
    simpa [all2allvGetRecvCounts, alltoall, sendCountsOf] using hr
  have hsegs : ((List.range world.length).map fun q ↦
      sendSlice (((List.range world.length).map fun q ↦
          stablePartition (target q) world.length (world.getD q [])).getD q [])
        ((sendCountsOf target world).getD q [])
        (((sendCountsOf target world).map exclPrefixSum).getD q []) r) =
      (List.range world.length).map fun q ↦ (world.getD q []).filter (target q · = r) := by
    refine List.map_congr_left fun q hq ↦ ?_
    have hq : q < world.length := List.mem_range.mp hq
    rw [getD_map_range _ hq, sendCountsOf, getD_map_range _ hq, List.map_map,
      getD_map_range _ hq]
    exact sendSlice_stablePartition _ hr _
  simp only [alltoallv, List.length_map, List.length_range, List.getElem_map, List.getElem_range,
    hsegs]
  rw [getD_map_of_lt _ hrc _ [], getD_map_of_lt _ hrc _ [], recvCounts_eq target world hr,
    placeSegs_exclPrefixSum _ _ (by simp)]
  simp only [delivered, List.getElem_map, List.getElem_range]

theorem msgsAll2all_eq_recv (c : CountType) (target : Nat → α → Nat) (world : List (List α))
    (ht : ∀ q < world.length, ∀ m ∈ world.getD q [], target q m < world.length)
    (hsend : ∀ q < world.length, c.Fits (world.getD q []).length) :
    msgsAll2all c target world =
      ((all2allvGetRecvCounts (sendCountsOf target world)).mapM (getDisplacements c)).bind
        fun recvDispls ↦ ((all2allvGetRecvCounts (sendCountsOf target world)).mapM
          (c.accumulate 0)).bind fun recvSizes ↦
            some (alltoallv ((List.range world.length).map fun q ↦
                stablePartition (target q) world.length (world.getD q []))
              (sendCountsOf target world) ((sendCountsOf target world).map exclPrefixSum)
              (recvSizes.map fun n ↦ List.replicate n default) recvDispls) := by
  have hsd : (sendCountsOf target world).mapM (getDisplacements c) =
      some ((sendCountsOf target world).map exclPrefixSum) :=
    mapM_eq_some fun sc hsc ↦ by
      obtain ⟨q, hq, rfl⟩ := List.mem_map.mp hsc
      have hq := List.mem_range.mp hq
      rw [getDisplacements_eq, sum_targetCounts _ _ _ (ht q hq), if_pos (hsend q hq)]
  have hsc : ((List.range world.length).map fun q ↦
      (targetCounts (target q) world.length (world.getD q []),
        stablePartition (target q) world.length (world.getD q []))).map (·.1) =
      sendCountsOf target world := by
    simp [sendCountsOf]
  simp only [msgsAll2all, buckets_eq c target world ht hsend, Option.bind_eq_bind,
    Option.some_bind, hsc, hsd, Option.pure_def, List.map_map]
  rfl

theorem msgsAll2all_eq (c : CountType) (target : Nat → α → Nat) (world : List (List α))
    (ht : ∀ q < world.length, ∀ m ∈ world.getD q [], target q m < world.length)
    (hsend : ∀ q < world.length, c.Fits (world.getD q []).length)
    (hrecv : ∀ r < world.length, c.Fits ((delivered target world).getD r []).length) :
    msgsAll2all c target world = some (delivered target world) := by
  set RC := all2allvGetRecvCounts (sendCountsOf target world)
  have hRC : ∀ rc ∈ RC, ∃ r < world.length, rc = RC.getD r [] := fun rc hrc ↦ by
    obtain ⟨r, hr, rfl⟩ := List.mem_map.mp hrc
    have hr : r < world.length := by simpa [sendCountsOf] using hr
    exact ⟨r, hr, by simp [RC, all2allvGetRecvCounts, alltoall, sendCountsOf, hr]⟩
  have hrd : RC.mapM (getDisplacements c) = some (RC.map exclPrefixSum) :=
    mapM_eq_some fun rc hrc ↦ by
      obtain ⟨r, hr, rfl⟩ := hRC rc hrc
      rw [getDisplacements_eq, sum_recvCounts target world hr, if_pos (hrecv r hr)]
  have hrs : RC.mapM (c.accumulate 0) = some (RC.map List.sum) :=
    mapM_eq_some fun rc hrc ↦ by
      obtain ⟨r, hr, rfl⟩ := hRC rc hrc
      rw [accumulate_zero_eq, sum_recvCounts target world hr, if_pos (hrecv r hr)]
  rw [msgsAll2all_eq_recv c target world ht hsend, hrd, Option.some_bind, hrs, Option.some_bind,
    List.map_map]
  exact congrArg some (alltoallv_stablePartition target world)

theorem fits_of_msgsAll2all_eq_some (c : CountType) (target : Nat → α → Nat)
    (world : List (List α))
    (ht : ∀ q < world.length, ∀ m ∈ world.getD q [], target q m < world.length)
    {res : List (List α)} (h : msgsAll2all c target world = some res) :
    (∀ q < world.length, c.Fits (world.getD q []).length) ∧
      ∀ r < world.length, c.Fits ((delivered target world).getD r []).length := by
  simp only [msgsAll2all, Option.bind_eq_bind, Option.bind_eq_some] at h
  obtain ⟨buckets, hb, sd, hsd, rd, hrd, -⟩ := h
  have hsc : buckets.map (·.1) = sendCountsOf target world :=
    map_eq_of_mapM_eq_some hb fun q hq _ hbq ↦
      fst_of_bucketMsgs_eq_some c _ _ _ (ht q (List.mem_range.mp hq)) hbq
  have hfits : ∀ counts d, getDisplacements c counts = some d → c.Fits counts.sum :=
    fun counts d h ↦ by
      by_contra hn
      rw [getDisplacements_eq, if_neg hn] at h
      cases h
  rw [hsc] at hsd hrd
  refine ⟨fun q hq ↦ ?_, fun r hr ↦ ?_⟩
  · obtain ⟨_, hd⟩ := exists_of_mapM_eq_some hsd (List.mem_map.mpr ⟨q, List.mem_range.mpr hq, rfl⟩)
    simpa only [sum_targetCounts _ _ _ (ht q hq)] using hfits _ _ hd
  · have hlen : r < (all2allvGetRecvCounts (sendCountsOf target world)).length := by
      simpa [all2allvGetRecvCounts, alltoall, sendCountsOf] using hr
    obtain ⟨_, hd⟩ := exists_of_mapM_eq_some hrd
      (List.getD_eq_getElem _ [] hlen ▸ List.getElem_mem hlen)
    rw [← sum_recvCounts target world hr]
    exact hfits _ _ hd

/-- With counts in exact arithmetic, `msgs_all2all` leaves on every rank exactly the messages
addressed to it, grouped by sender in rank order, and loses or duplicates none. -/
theorem msgs_all2all_delivers (target : Nat → α → Nat) (world : List (List α))
    (ht : ∀ q < world.length, ∀ m ∈ world.getD q [], target q m < world.length) :
    msgsAll2all .exact target world = some (delivered target world) ∧
      (delivered target world).flatten.Perm world.flatten :=
  ⟨msgsAll2all_eq .exact target world ht (fun _ _ ↦ CountType.fits_exact _)
      (fun _ _ ↦ CountType.fits_exact _),
    delivered_perm target world ht⟩

theorem msgs_all2all_delivers_example :
    (∀ q < 2, ∀ m ∈ [[0, 1, 2], [3, 4]].getD q [], m % 2 < 2) ∧
      msgsAll2all .exact (fun _ m ↦ m % 2) [[0, 1, 2], [3, 4]] = some [[0, 2, 4], [1, 3]] :=
  ⟨fun _ _ _ _ ↦ Nat.mod_lt _ (by decide),
    (msgs_all2all_delivers (fun _ m ↦ m % 2) [[0, 1, 2], [3, 4]]
      (fun _ _ _ _ ↦ Nat.mod_lt _ (by decide))).1.trans (by decide)⟩

/-- Sending every message to its target and then back to the rank it came from returns to each
rank its own messages, grouped by target in the order of its send buffer. The counts of the way
back are those of the way out, so the round trip overflows nowhere the first exchange does not. -/
theorem msgs_all2all_round_trip (c : CountType) (target : Nat → α → Nat) (world : List (List α))
    (ht : ∀ q < world.length, ∀ m ∈ world.getD q [], target q m < world.length)
    (hsend : ∀ q < world.length, c.Fits (world.getD q []).length)
    (hrecv : ∀ r < world.length, c.Fits ((delivered target world).getD r []).length) :
    (msgsAll2all c (fun q x ↦ target q x.2) (tagOrigin world)).bind
        (msgsAll2all c fun _ x ↦ x.1) =
      some ((List.range world.length).map fun r ↦
        (stablePartition (target r) world.length (world.getD r [])).map fun m ↦ (r, m)) := by
  have hlenmid : (delivered (fun q x ↦ target q x.2) (tagOrigin world)).length = world.length := by
    rw [length_delivered, length_tagOrigin]
  have hmid : ∀ s < world.length,
      c.Fits ((delivered (fun q x ↦ target q x.2) (tagOrigin world)).getD s []).length :=
    fun s hs ↦ (length_getD_delivered_tagOrigin target world hs).symm ▸ hrecv s hs
  have ht₁ : ∀ q < (tagOrigin world).length, ∀ x ∈ (tagOrigin world).getD q [],
      target q x.2 < (tagOrigin world).length := by
    intro q hq x hx
    rw [length_tagOrigin] at hq ⊢
    obtain ⟨m, hm, rfl⟩ := List.mem_map.mp (getD_tagOrigin world hq ▸ hx)
    exact ht q hq m hm
  have hs₁ : ∀ q < (tagOrigin world).length, c.Fits ((tagOrigin world).getD q []).length := by
    intro q hq
    rw [length_tagOrigin] at hq
    rw [getD_tagOrigin world hq, List.length_map]
    exact hsend q hq
  have ht₂ : ∀ s < (delivered (fun q x ↦ target q x.2) (tagOrigin world)).length,
      ∀ x ∈ (delivered (fun q x ↦ target q x.2) (tagOrigin world)).getD s [],
        x.1 < (delivered (fun q x ↦ target q x.2) (tagOrigin world)).length := by
    intro s hs x hx
    rw [hlenmid] at hs ⊢
    obtain ⟨l, hl, hxl⟩ := List.mem_flatten.mp (getD_delivered_tagOrigin target world hs ▸ hx)
    obtain ⟨q, hq, rfl⟩ := List.mem_map.mp hl
    obtain ⟨m, -, rfl⟩ := List.mem_map.mp hxl
    exact List.mem_range.mp hq
  have hr₂ : ∀ r < (delivered (fun q x ↦ target q x.2) (tagOrigin world)).length,
      c.Fits ((delivered (fun _ x ↦ x.1)
        (delivered (fun q x ↦ target q x.2) (tagOrigin world))).getD r []).length := by
    intro r hr
    rw [hlenmid] at hr
    rw [delivered_delivered_tagOrigin, getD_map_range _ hr, List.length_map,
      length_stablePartition _ _ _ (ht r hr)]
    exact hsend r hr
  rw [msgsAll2all_eq c _ _ ht₁ hs₁ fun s hs ↦ hmid s (length_tagOrigin world ▸ hs), Option.some_bind,
    msgsAll2all_eq c _ _ ht₂ (fun s hs ↦ hmid s (hlenmid ▸ hs)) hr₂, delivered_delivered_tagOrigin]

theorem msgs_all2all_round_trip_example :
    (∀ q < 2, ∀ m ∈ [[0, 1, 2], [3, 4]].getD q [], m % 2 < 2) ∧
      (∀ q < 2, CountType.int.Fits ([[0, 1, 2], [3, 4]].getD q []).length) ∧
      (∀ r < 2, CountType.int.Fits
        ((delivered (fun _ m ↦ m % 2) [[0, 1, 2], [3, 4]]).getD r []).length) ∧
      (msgsAll2all .int (fun _ x ↦ x.2 % 2) (tagOrigin [[0, 1, 2], [3, 4]])).bind
          (msgsAll2all .int fun _ x ↦ x.1) =
        some [[(0, 0), (0, 2), (0, 1)], [(1, 4), (1, 3)]] :=
  ⟨fun _ _ _ _ ↦ Nat.mod_lt _ (by decide), by decide, by decide,
    (msgs_all2all_round_trip .int (fun _ m ↦ m % 2) [[0, 1, 2], [3, 4]]
      (fun _ _ _ _ ↦ Nat.mod_lt _ (by decide)) (by decide) (by decide)).trans (by decide)⟩

/-- Once every message is on its target rank, `msgs_all2all` moves nothing: calling it again on
its result gives that result back, and the pair fails only where the first call fails. -/
theorem msgs_all2all_idempotent (c : CountType) (target : α → Nat)
    (world : List (List α)) (ht : ∀ q < world.length, ∀ m ∈ world.getD q [], target m < world.length) :
    (msgsAll2all c (fun _ ↦ target) world).bind (msgsAll2all c fun _ ↦ target) =
      msgsAll2all c (fun _ ↦ target) world := by
  cases h : msgsAll2all c (fun _ ↦ target) world with
  | none => rfl
  | some res =>
    obtain ⟨hsend, hrecv⟩ := fits_of_msgsAll2all_eq_some c _ world ht h
    obtain rfl : res = delivered (fun _ ↦ target) world :=
      Option.some.inj (h.symm.trans (msgsAll2all_eq c _ world ht hsend hrecv))
    have hD := length_delivered world fun _ ↦ target
    rw [Option.some_bind]
    refine (msgsAll2all_eq c _ _ (fun q hq m hm ↦ ?_) (fun q hq ↦ hrecv q (hD ▸ hq)) fun r hr ↦ ?_).trans
      (congrArg some (delivered_delivered target world))
    · rw [target_of_mem_delivered target world (hD ▸ hq) hm]
      exact hq
    · rw [delivered_delivered]
      exact hrecv r (hD ▸ hr)

theorem msgs_all2all_idempotent_example :
    (∀ q < 2, ∀ m ∈ [[0, 1, 2], [3, 4]].getD q [], m % 2 < 2) ∧
      (msgsAll2all .int (fun _ m ↦ m % 2) [[0, 1, 2], [3, 4]]).bind
          (msgsAll2all .int fun _ m ↦ m % 2) = some [[0, 2, 4], [1, 3]] :=
  ⟨fun _ _ _ _ ↦ Nat.mod_lt _ (by decide),
    (msgs_all2all_idempotent .int (· % 2) [[0, 1, 2], [3, 4]]
      fun _ _ _ _ ↦ Nat.mod_lt _ (by decide)).trans (by decide)⟩

end PsacMpi.MsgsAll2all
