import PsacMpi.ScatterBlock

namespace PsacMpi.ScatterStream

open Counts Collectives ScatterBlock

variable {α : Type}

/-- `copy_n(input, count, out)` at lines 262 and 268: the `int` count makes the call resolve to
`std::copy_n`, which takes `input` by value, so the caller's stream never advances. The buffer
once `count` elements of the input are written from its start; `none` where the input runs out
or the copy runs past the end of the buffer. -/
def copyN : List α → Nat → List α → Option (List α)
  | _, 0, out => some out
  | [], _ + 1, _ => none
  | _ :: _, _ + 1, [] => none
  | x :: input, n + 1, _ :: out => (copyN input n out).map (x :: ·)

/-- The loop `for (int i = 1; i < p; ++i)` of `scatter_stream_block_decomp`: copy
`blockDecomp[i]` elements of the input into `localBuffer`, then `MPI_Send` that many elements of
the buffer to rank `i` with tag `i`. -/
def sendBlocks (blockDecomp : List Nat) (input : List α) :
    List α → List Nat → Option (List (Message α))
  | _, [] => some []
  | localBuffer, i :: is => do
    let copied ← copyN input (blockDecomp.getD i 0) localBuffer
    let sent ← sendBlocks blockDecomp input copied is
    pure (⟨i, i, copied.take (blockDecomp.getD i 0)⟩ :: sent)

/-- `scatter_stream_block_decomp(input, n, comm)` on rank 0: its `local_elements` and the
messages it sends. -/
def scatterStreamBlockDecomp [Inhabited α] (blockPartition : Nat → Nat → List Nat) (p : Nat)
    (input : List α) (n : UInt32) : Option (List α × List (Message α)) := do
  let blockDecomp := blockPartition n.toNat p
  let localSize := blockDecomp.getD 0 0
  let localElements ← copyN input localSize (List.replicate localSize default)
  let sent ← sendBlocks blockDecomp input (List.replicate (blockDecomp.getD 0 0) default)
    (List.range' 1 (p - 1))
  pure (localElements, sent)

/-- `scatter_stream_block_decomp_slave(comm)` on rank `rank`, to which `MPI_Scatter` has sent
`localSize`. -/
def scatterStreamBlockDecompSlave [Inhabited α] (rank localSize : Nat) (sent : List (Message α)) :
    Option (List α) :=
  recv sent rank rank (List.replicate localSize default)

/-- Rank 0 calls `scatter_stream_block_decomp(input, n)` and every other rank calls
`scatter_stream_block_decomp_slave`, which receives its size `block_decomp[rank]` through
`MPI_Scatter`: every rank's `local_elements`. -/
def scatterStream [Inhabited α] (blockPartition : Nat → Nat → List Nat) (p : Nat) (input : List α)
    (n : UInt32) : Option (List (List α)) := do
  let root ← scatterStreamBlockDecomp blockPartition p input n
  let slaves ← (List.range' 1 (p - 1)).mapM fun rank ↦
    scatterStreamBlockDecompSlave rank ((blockPartition n.toNat p).getD rank 0) root.2
  pure (root.1 :: slaves)

/-- For `block_partition(7, 3) = (3, 2, 2)` ranks 1 and 2 both receive `[10, 11]`, the start of the
stream, where the vector scatter of the same elements hands them `[13, 14]` and `[15, 16]`. -/
theorem scatter_stream_rereads_input :
    scatterStream blockPartition 3 [10, 11, 12, 13, 14, 15, 16] 7 =
        some [[10, 11, 12], [10, 11], [10, 11]] ∧
      scatterVectorBlockDecomp .int blockPartition 3 [10, 11, 12, 13, 14, 15, 16] =
        some [[10, 11, 12], [13, 14], [15, 16]] := by
  decide

end PsacMpi.ScatterStream
