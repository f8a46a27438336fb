import PsacMpi.Counts

namespace PsacMpi.Collectives

open Counts

variable {α β T : Type}

def writeSeg : List α → Nat → List α → List α
  | buf, _, [] => buf
  | buf, pos, x :: xs => writeSeg (buf.set pos x) (pos + 1) xs

@[simp] theorem length_writeSeg (buf : List α) (pos : Nat) (seg : List α) :
    (writeSeg buf pos seg).length = buf.length := by
  induction seg generalizing buf pos <;> simp [writeSeg, *]

theorem writeSeg_eq (buf : List α) (pos : Nat) (seg : List α)
    (h : pos + seg.length ≤ buf.length) :
    writeSeg buf pos seg = buf.take pos ++ seg ++ buf.drop (pos + seg.length) := by
  induction seg generalizing buf pos with
  | nil => simp [writeSeg]
  | cons x xs ih =>
    simp only [List.length_cons] at h
    have ht : (buf.take pos).length = pos := by simp; omega
    rw [writeSeg, ih _ _ (by simp; omega), List.set_eq_take_append_cons_drop, if_pos (by omega)]
    simp [List.take_append_eq_append_take, List.drop_append_eq_append_drop, ht,
      List.take_of_length_le, List.drop_eq_nil_of_le, Nat.add_assoc, Nat.add_comm 1]

theorem writeSeg_zero (buf seg : List α) (h : seg.length = buf.length) :
    writeSeg buf 0 seg = seg := by
  simp [writeSeg_eq buf 0 seg (by omega), h]

def placeSegs (buf : List α) (segs : List (List α)) (displs : List Nat) : List α :=
  (segs.zip displs).foldl (fun b sd ↦ writeSeg b sd.2 sd.1) buf

theorem placeSegs_exclPrefixSumFrom (segs : List (List α)) (buf : List α) (o : Nat)
    (h : buf.length = o + (segs.map List.length).sum) :
    placeSegs buf segs (exclPrefixSumFrom o (segs.map List.length)) =
      buf.take o ++ segs.flatten := by
  induction segs generalizing buf o with
  | nil => simp_all [placeSegs]
  | cons s segs ih =>
    simp only [List.map_cons, List.sum_cons] at h
    have ht : (buf.take o).length = o := by simp; omega
    have ih' := ih (writeSeg buf o s) (o + s.length) (by simp; omega)
    simp only [placeSegs, exclPrefixSumFrom, List.map_cons, List.zip_cons_cons,
      List.foldl_cons] at ih' ⊢
    rw [ih', writeSeg_eq buf o s (by omega)]
    simp [List.take_append_eq_append_take, ht, List.take_of_length_le]

theorem placeSegs_exclPrefixSum (segs : List (List α)) (buf : List α)
    (h : buf.length = (segs.map List.length).sum) :
    placeSegs buf segs (exclPrefixSum (segs.map List.length)) = segs.flatten := by
  simpa using placeSegs_exclPrefixSumFrom segs buf 0 (by simpa using h)

def sendSlice (buf : List α) (counts displs : List Nat) (r : Nat) : List α :=
  (buf.drop (displs.getD r 0)).take (counts.getD r 0)

/-- The blocks `v[D_r, D_r + sizes_r)` of a block decomposition `sizes` of `v`, with `D` the
exclusive prefix sums of `sizes`. -/
def blockSlices (v : List α) (sizes : List Nat) : List (List α) :=
  (List.range sizes.length).map (sendSlice v sizes (exclPrefixSum sizes))

@[simp] theorem length_blockSlices (v : List α) (sizes : List Nat) :
    (blockSlices v sizes).length = sizes.length := by
  simp [blockSlices]

theorem blockSlices_cons (v : List α) (k : Nat) (sizes : List Nat) :
    blockSlices v (k :: sizes) = v.take k :: blockSlices (v.drop k) sizes := by
  simp only [blockSlices, List.length_cons, List.range_succ_eq_map, List.map_cons, List.map_map]
  refine congrArg₂ _ (by simp [sendSlice, exclPrefixSum, exclPrefixSumFrom]) ?_
  refine List.map_congr_left fun r hr ↦ ?_
  have hr : r < sizes.length := List.mem_range.mp hr
  simp [sendSlice, exclPrefixSum, exclPrefixSumFrom, getElem?_exclPrefixSumFrom _ _ hr,
    List.drop_drop, Nat.add_comm]

theorem flatten_blockSlices (v : List α) (sizes : List Nat) (h : sizes.sum = v.length) :
    (blockSlices v sizes).flatten = v := by
  induction sizes generalizing v with
  | nil => simp [blockSlices, List.eq_nil_of_length_eq_zero h.symm]
  | cons k sizes ih =>
    simp only [List.sum_cons] at h
    rw [blockSlices_cons, List.flatten_cons, ih _ (by simp; omega), List.take_append_drop]

theorem map_length_blockSlices (v : List α) (sizes : List Nat) (h : sizes.sum ≤ v.length) :
    (blockSlices v sizes).map List.length = sizes := by
  induction sizes generalizing v with
  | nil => simp [blockSlices]
  | cons k sizes ih =>
    simp only [List.sum_cons] at h
    rw [blockSlices_cons, List.map_cons, ih _ (by simp; omega), List.length_take,
      Nat.min_eq_left (by omega)]

theorem blockSlices_take (v : List α) (sizes : List Nat) {m : Nat} (h : sizes.sum ≤ m) :
    blockSlices (v.take m) sizes = blockSlices v sizes := by
  induction sizes generalizing v m with
  | nil => simp [blockSlices]
  | cons k sizes ih =>
    simp only [List.sum_cons] at h
    rw [blockSlices_cons, blockSlices_cons, List.take_take, Nat.min_eq_left (by omega),
      List.drop_take, ih _ (by omega)]

theorem blockSlices_flatten (L : List (List α)) :
    blockSlices L.flatten (L.map List.length) = L := by
  induction L with
  | nil => simp [blockSlices]
  | cons l L ih => simp [blockSlices_cons, ih]

theorem sendSlice_exclPrefixSum (v : List α) (sizes : List Nat) {r : Nat} (hr : r < sizes.length) :
    sendSlice v sizes (exclPrefixSum sizes) r = (v.drop (sizes.take r).sum).take sizes[r] := by
  rw [sendSlice, List.getD_eq_getElem _ _ hr, List.getD_eq_getElem _ _ (by simpa using hr),
    getElem_exclPrefixSum]

theorem length_sendSlice (v : List α) (sizes : List Nat) (h : sizes.sum ≤ v.length) {r : Nat}
    (hr : r < sizes.length) : (sendSlice v sizes (exclPrefixSum sizes) r).length = sizes[r] := by
  have h1 := List.sum_take_add_sum_drop sizes (r + 1)
  have h2 := List.sum_take_succ sizes r hr
  rw [sendSlice_exclPrefixSum _ _ hr, List.length_take, List.length_drop]
  omega

theorem sendSlice_take (v : List α) (counts displs : List Nat) {r m : Nat}
    (h : displs.getD r 0 + counts.getD r 0 ≤ m) :
    sendSlice (v.take m) counts displs r = sendSlice v counts displs r := by
  rw [sendSlice, sendSlice, List.drop_take, List.take_take, Nat.min_eq_left (by omega)]

theorem getD_exclPrefixSum_add_le (sizes : List Nat) (r : Nat) :
    (exclPrefixSum sizes).getD r 0 + sizes.getD r 0 ≤ sizes.sum := by
  by_cases hr : r < sizes.length
  · have h1 := List.sum_take_add_sum_drop sizes (r + 1)
    rw [List.getD_eq_getElem _ _ (by simpa using hr), getElem_exclPrefixSum,
      List.getD_eq_getElem _ _ hr, ← List.sum_take_succ sizes r hr]
    omega
  · rw [List.getD_eq_default _ _ (by simpa using hr), List.getD_eq_default _ _ (by omega)]
    exact Nat.zero_le _

/-- `MPI_Scatterv` from the root: rank `r` receives `sendSlice sendbuf sendcounts displs r` into
its receive buffer `recvbuf`. -/
def scatterv (sendbuf : List α) (sendcounts displs : List Nat) (r : Nat) (recvbuf : List α) :
    List α :=
  writeSeg recvbuf 0 (sendSlice sendbuf sendcounts displs r)

/-- `MPI_Gatherv` at the root: what rank `q` sends lands in `recvbuf` from `displs[q]` on. -/
def gatherv (recvbuf : List α) (sends : List (List α)) (displs : List Nat) : List α :=
  placeSegs recvbuf sends displs

def alltoall (sendcounts : List (List Nat)) : List (List Nat) :=
  (List.range sendcounts.length).map fun r ↦ sendcounts.map (·.getD r 0)

/-- `MPI_Alltoallv`: rank `r` receives the slice each rank `q` addresses to it, at
`rdispls_r[q]` of its receive buffer. -/
def alltoallv (sendbufs : List (List α)) (scounts sdispls : List (List Nat))
    (recvbufs : List (List α)) (rdispls : List (List Nat)) : List (List α) :=
  (List.range sendbufs.length).map fun r ↦
    placeSegs (recvbufs.getD r [])
      ((List.range sendbufs.length).map fun q ↦
        sendSlice (sendbufs.getD q []) (scounts.getD q []) (sdispls.getD q []) r)
      (rdispls.getD r [])

def vsum [AddCommMonoid T] (count : Nat) (bufs : List (List T)) : List T :=
  (List.range count).map fun i ↦ (bufs.map (·.getD i 0)).sum

def allreduce [AddCommMonoid T] (count : Nat) (bufs : List (List T)) : List T := vsum count bufs

/-- `MPI_Exscan` with `MPI_SUM`: rank `r` receives the elementwise sum of the buffers of ranks
`0 ..< r`. The standard leaves rank 0's receive buffer undefined; `undef` is what it holds. -/
def exscan [AddCommMonoid T] (count : Nat) (undef : List T) (bufs : List (List T)) :
    List (List T) :=
  (List.range bufs.length).map fun r ↦ if r = 0 then undef else vsum count (bufs.take r)

@[simp] theorem length_vsum [AddCommMonoid T] (count : Nat) (bufs : List (List T)) :
    (vsum count bufs).length = count := by
  simp [vsum]

@[simp] theorem getElem_vsum [AddCommMonoid T] (count : Nat) (bufs : List (List T)) {i : Nat}
    (h : i < (vsum count bufs).length) :
    (vsum count bufs)[i] = (bufs.map (·.getD i 0)).sum := by
  simp [vsum]

@[simp] theorem length_exscan [AddCommMonoid T] (count : Nat) (undef : List T)
    (bufs : List (List T)) : (exscan count undef bufs).length = bufs.length := by
  simp [exscan]

theorem getElem_exscan [AddCommMonoid T] (count : Nat) (undef : List T) (bufs : List (List T))
    {r : Nat} (h : r < (exscan count undef bufs).length) (hr : r ≠ 0) :
    (exscan count undef bufs)[r] = vsum count (bufs.take r) := by
  simp [exscan, hr]

structure Message (α : Type) where
  dest : Nat
  tag : Nat
  payload : List α

/-- `MPI_Recv` on rank `dest` of the message with `tag`, into `recvbuf`; `none` when no such
message is ever sent and the receive blocks, or when it is longer than `recvbuf`
(`MPI_ERR_TRUNCATE`). -/
def recv (msgs : List (Message α)) (dest tag : Nat) (recvbuf : List α) : Option (List α) := do
  let m ← msgs.find? fun m ↦ m.dest == dest && m.tag == tag
  if m.payload.length ≤ recvbuf.length then pure (writeSeg recvbuf 0 m.payload) else none

theorem mapM_eq_some {f : α → Option β} {g : α → β} {l : List α}
    (h : ∀ x ∈ l, f x = some (g x)) : l.mapM f = some (l.map g) := by
  induction l with
  | nil => rfl
  | cons x xs ih =>
    rw [List.mapM_cons, h x (by simp), ih fun y hy ↦ h y (by simp [hy])]
    rfl

theorem map_range_getD (l : List α) (d : α) : (List.range l.length).map (l.getD · d) = l :=
  List.ext_getElem (by simp) fun i h₁ _ ↦ by simp [List.getElem?_eq_getElem (by simpa using h₁)]

theorem map_eq_of_mapM_eq_some {γ : Type} {f : α → Option β} {l : List α} {bs : List β}
    {g : β → γ} {h : α → γ} (hl : l.mapM f = some bs)
    (hfg : ∀ a ∈ l, ∀ b, f a = some b → g b = h a) : bs.map g = l.map h := by
  induction l generalizing bs with
  | nil => rw [List.mapM_nil] at hl; cases Option.some.inj hl; rfl
  | cons a l ih =>
    simp only [List.mapM_cons, Option.bind_eq_bind, Option.bind_eq_some, Option.pure_def,
      Option.some.injEq] at hl
    obtain ⟨b, hb, bs', hbs', rfl⟩ := hl
    rw [List.map_cons, List.map_cons, hfg a (by simp) b hb,
      ih hbs' fun a' ha' ↦ hfg a' (by simp [ha'])]

theorem exists_of_mapM_eq_some {f : α → Option β} {l : List α} {bs : List β}
    (hl : l.mapM f = some bs) {a : α} (ha : a ∈ l) : ∃ b, f a = some b := by
  induction l generalizing bs with
  | nil => cases ha
  | cons a' l ih =>
    simp only [List.mapM_cons, Option.bind_eq_bind, Option.bind_eq_some, Option.pure_def,
      Option.some.injEq] at hl
    obtain ⟨b, hb, bs', hbs', rfl⟩ := hl
    rcases List.mem_cons.mp ha with rfl | ha
    · exact ⟨b, hb⟩
    · exact ih hbs' ha

theorem mapM_eq_none {f : α → Option β} {l : List α} {x : α} (hx : x ∈ l) (h : f x = none) :
    l.mapM f = none := by
  induction l with
  | nil => cases hx
  | cons y ys ih =>
    rw [List.mapM_cons]
    rcases List.mem_cons.mp hx with rfl | hx
    · rw [h]; rfl
    · rw [ih hx]; cases f y <;> rfl

end PsacMpi.Collectives
