import PsacMpi.GatherRange

namespace PsacMpi.ScatterBlock

open Counts Collectives GatherRange

variable {α : Type}

/-- `scatter_vector_block_decomp(global_vec, comm)` and `scatter_string_block_decomp` run by
every rank, with `globalVec` the container on rank 0. `blockPartition` is `block_partition` of
`partition.hpp`, which is not among the sources; `fill` is the element `resize` fills with. -/
def scatterBlockDecomp (c : CountType) (blockPartition : Nat → Nat → List Nat) (p : Nat)
    (fill : α) (globalVec : List α) : Option (List (List α)) := do
  let n := globalVec.length % 2 ^ 32
  let blockDecomp := blockPartition n p
  let displs ← getDisplacements c blockDecomp
  pure ((List.range p).map fun rank ↦
    scatterv globalVec blockDecomp displs rank (List.replicate (blockDecomp.getD rank 0) fill))

def scatterVectorBlockDecomp [Inhabited α] (c : CountType) (blockPartition : Nat → Nat → List Nat)
    (p : Nat) (globalVec : List α) : Option (List (List α)) :=
  scatterBlockDecomp c blockPartition p default globalVec

def scatterStringBlockDecomp (c : CountType) (blockPartition : Nat → Nat → List Nat) (p : Nat)
    (globalStr : String) : Option (List String) :=
  (scatterBlockDecomp c blockPartition p (Char.ofNat 0) globalStr.data).map (·.map String.mk)

theorem scatterBlockDecomp_eq (c : CountType) (blockPartition : Nat → Nat → List Nat) (p : Nat)
    (fill : α) (v : List α) (hn : v.length < 2 ^ 32) (hfit : c.Fits v.length)
    (hlen : (blockPartition v.length p).length = p)
    (hsum : (blockPartition v.length p).sum = v.length) :
    scatterBlockDecomp c blockPartition p fill v =
      some (blockSlices v (blockPartition v.length p)) := by
  simp only [scatterBlockDecomp, Nat.mod_eq_of_lt hn, getDisplacements_eq, hsum, if_pos hfit,
    Option.bind_eq_bind, Option.some_bind, Option.pure_def, Option.some.injEq, blockSlices, hlen]
  refine List.map_congr_left fun r hr ↦ writeSeg_zero _ _ ?_
  have hr : r < (blockPartition v.length p).length := by simpa [hlen] using hr
  simp [length_sendSlice v _ hsum.le hr, List.getElem?_eq_getElem hr]

/-- Modelled from the spec: `block_partition(n, p)` of `partition.hpp`, which is not among the
sources, splits `n` elements into `p` contiguous blocks whose sizes differ by at most one; here
the first `n % p` blocks hold the extra element. -/
def blockPartition (n p : Nat) : List Nat :=
  List.replicate (n % p) (n / p + 1) ++ List.replicate (p - n % p) (n / p)

theorem length_blockPartition (n : Nat) {p : Nat} (hp : 0 < p) :
    (blockPartition n p).length = p := by
  have := Nat.mod_lt n hp
  simp [blockPartition]
  omega

theorem sum_blockPartition (n : Nat) {p : Nat} (hp : 0 < p) : (blockPartition n p).sum = n := by
  have hlt := Nat.mod_lt n hp
  have hle : n % p * (n / p) ≤ p * (n / p) := Nat.mul_le_mul_right _ hlt.le
  have hdiv := Nat.div_add_mod n p
  simp only [blockPartition, List.sum_append, List.sum_const_nat, Nat.mul_add, Nat.sub_mul]
  omega

theorem gatherRange_blockSlices [Inhabited α] (c : CountType) {p : Nat} (hp : 0 < p) (v : List α)
    (cs : List Nat) (hlen : cs.length = p) (hsum : cs.sum = v.length) (hfit : c.Fits v.length) :
    gatherRange c (blockSlices v cs) = some (v :: List.replicate (p - 1) []) := by
  rw [gatherRange_eq_of_fits (by rwa [map_length_blockSlices _ _ hsum.le, hsum]),
    flatten_blockSlices _ _ hsum, length_blockSlices, hlen, rootResult_eq hp]

/-- A scatter from rank 0 followed by a gather to rank 0 hands every rank its block and then
gives rank 0 back the whole vector, for vectors and for strings alike. -/
theorem scatter_block_decomp_gather [Inhabited α] (blockPartition : Nat → Nat → List Nat) (p : Nat)
    (hp : 0 < p) (v : List α) (hv : v.length ≤ INT_MAX)
    (hvlen : (blockPartition v.length p).length = p)
    (hvsum : (blockPartition v.length p).sum = v.length)
    (s : String) (hs : s.length ≤ INT_MAX)
    (hslen : (blockPartition s.length p).length = p)
    (hssum : (blockPartition s.length p).sum = s.length) :
    scatterVectorBlockDecomp .int blockPartition p v =
        some (blockSlices v (blockPartition v.length p)) ∧
      (scatterVectorBlockDecomp .int blockPartition p v).bind (gatherVectors .int) =
        some (v :: List.replicate (p - 1) []) ∧
      scatterStringBlockDecomp .int blockPartition p s =
        some ((blockSlices s.data (blockPartition s.length p)).map String.mk) ∧
      (scatterStringBlockDecomp .int blockPartition p s).bind
          (fun strs ↦ gatherRange .int (strs.map String.data)) =
        some (s.data :: List.replicate (p - 1) []) := by
  have hmax : INT_MAX < 2 ^ 32 := by decide
  have hv' := scatterBlockDecomp_eq .int blockPartition p default v (by omega) hv hvlen hvsum
  have hs' : scatterBlockDecomp .int blockPartition p (Char.ofNat 0) s.data =
      some (blockSlices s.data (blockPartition s.length p)) :=
    scatterBlockDecomp_eq .int blockPartition p _ s.data (by simp only [String.length] at hs; omega)
      hs hslen hssum
  have hs'' : scatterStringBlockDecomp .int blockPartition p s =
      some ((blockSlices s.data (blockPartition s.length p)).map String.mk) := by
    simp [scatterStringBlockDecomp, hs']
  refine ⟨hv', ?_, hs'', ?_⟩
  · rw [scatterVectorBlockDecomp, hv', Option.some_bind]
    exact gatherRange_blockSlices .int hp v _ hvlen hvsum hv
  · rw [hs'', Option.some_bind, List.map_map, show String.data ∘ String.mk = id from rfl,
      List.map_id]
    exact gatherRange_blockSlices .int hp s.data _ hslen hssum hs

theorem scatter_block_decomp_gather_example :
    0 < 2 ∧ [1, 2, 3].length ≤ INT_MAX ∧ "abc".length ≤ INT_MAX ∧
      scatterVectorBlockDecomp .int blockPartition 2 [1, 2, 3] = some [[1, 2], [3]] ∧
      (scatterVectorBlockDecomp .int blockPartition 2 [1, 2, 3]).bind (gatherVectors .int) =
        some [[1, 2, 3], []] ∧
      scatterStringBlockDecomp .int blockPartition 2 "abc" = some ["ab", "c"] := by
  have h := scatter_block_decomp_gather blockPartition 2 (by decide) [1, 2, 3] (by decide)
    (by decide) (by decide) "abc" (by decide) (by decide) (by decide)
  exact ⟨by decide, by decide, by decide, h.1.trans (by decide), h.2.1, h.2.2.1.trans (by decide)⟩

theorem scatterBlockDecomp_take (c : CountType) (blockPartition : Nat → Nat → List Nat) (p : Nat)
    (fill : α) (v : List α)
    (hsum : (blockPartition (v.length % 2 ^ 32) p).sum = v.length % 2 ^ 32) :
    scatterBlockDecomp c blockPartition p fill v =
      scatterBlockDecomp c blockPartition p fill (v.take (v.length % 2 ^ 32)) := by
  have hn : (v.take (v.length % 2 ^ 32)).length % 2 ^ 32 = v.length % 2 ^ 32 := by
    rw [List.length_take, Nat.min_eq_left (Nat.mod_le _ _), Nat.mod_mod]
  simp only [scatterBlockDecomp, hn, getDisplacements_eq]
  split_ifs
  · simp only [Option.bind_eq_bind, Option.some_bind, Option.pure_def, Option.some.injEq]
    refine List.map_congr_left fun r _ ↦ ?_
    rw [scatterv, scatterv, sendSlice_take _ _ _ ((getD_exclPrefixSum_add_le _ r).trans_eq hsum)]
  · rfl

/-- Rank 0 reads the size into a `uint32_t`: the elements from position `size mod 2^32` on reach
no rank, so a vector or string of `2^32 + k` elements is scattered as its first `k`. -/
theorem scatter_block_decomp_truncates [Inhabited α] (c : CountType)
    (blockPartition : Nat → Nat → List Nat) (p : Nat) (v : List α)
    (hv : (blockPartition (v.length % 2 ^ 32) p).sum = v.length % 2 ^ 32) (s : String)
    (hs : (blockPartition (s.length % 2 ^ 32) p).sum = s.length % 2 ^ 32) :
    scatterVectorBlockDecomp c blockPartition p v =
        scatterVectorBlockDecomp c blockPartition p (v.take (v.length % 2 ^ 32)) ∧
      scatterStringBlockDecomp c blockPartition p s =
        scatterStringBlockDecomp c blockPartition p ⟨s.data.take (s.length % 2 ^ 32)⟩ :=
  ⟨scatterBlockDecomp_take c blockPartition p default v hv,
    congrArg (Option.map _) (scatterBlockDecomp_take c blockPartition p _ s.data hs)⟩

theorem scatter_block_decomp_truncates_example :
    (blockPartition ((List.replicate (2 ^ 32 + 3) 0).length % 2 ^ 32) 2).sum =
        (List.replicate (2 ^ 32 + 3) 0).length % 2 ^ 32 ∧
      (blockPartition ("abc".length % 2 ^ 32) 2).sum = "abc".length % 2 ^ 32 ∧
      scatterVectorBlockDecomp .int blockPartition 2 (List.replicate (2 ^ 32 + 3) 0) =
        some [[0, 0], [0]] := by
  have hv : (blockPartition ((List.replicate (2 ^ 32 + 3) 0).length % 2 ^ 32) 2).sum =
      (List.replicate (2 ^ 32 + 3) 0).length % 2 ^ 32 := by
    rw [List.length_replicate]
    decide
  have h := scatter_block_decomp_truncates .int blockPartition 2 (List.replicate (2 ^ 32 + 3) 0)
    hv "abc" (by decide)
  refine ⟨hv, by decide, ?_⟩
  rw [h.1, List.length_replicate, List.take_replicate]
  decide

end PsacMpi.ScatterBlock
