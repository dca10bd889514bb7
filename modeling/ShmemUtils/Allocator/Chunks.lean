import ShmemUtils.Allocator.FreeChunk
import ShmemUtils.Allocator.SortedVec

/-!
# Free chunks manager

`src/allocator/chunks.rs`. The manager is a sorted vector of free spaces; `get` takes the first
space that is large enough and puts the rest back, `returnBack` puts a block back, and putting
back merges with every adjacent free space first.

The receiver that the source changes in place is passed in and returned.
-/

namespace ShmemUtils.Allocator

/-- Free chunks manager: the sorted list of free chunks. -/
structure Chunks where
  freeChunks : FixesSortedVec FreeSpace
deriving DecidableEq, Repr

namespace Chunks

/-- `Chunks::new`; `none` is the error of the vector's allocation. -/
def new (A : VecAllocator) (S : Superslice) (maxChunks : ℕ) : Checked (Option Chunks) :=
  match FixesSortedVec.new A maxChunks with
  | none => .ok none
  | some freeChunks => do
    let space ← FreeSpace.new RelativeBeginning.zero maxChunks
    let freeChunks ← freeChunks.push S space
    return some ⟨freeChunks⟩

/-- The first free chunk that merges with `chunk`: its index and the merged space. -/
def findAndMerge : List FreeSpace → FreeSpace → Checked (Option (ℕ × FreeSpace))
  | [], _ => .ok none
  | existingChunk :: rest, chunk => do
    match ← existingChunk.merge chunk with
    | some merged => return some (0, merged)
    | none =>
      let found ← findAndMerge rest chunk
      return found.map fun (id, merged) => (id + 1, merged)

/-- The loop of `insert_chunk_and_merge`: while some free chunk merges with `chunk`, take it out
and go on with the merged space. Every turn takes one chunk out, so as many turns as there are
chunks are enough; with none left there is nothing to merge. -/
def mergeWhileAdjacent :
    ℕ → FixesSortedVec FreeSpace → FreeSpace → Checked (FixesSortedVec FreeSpace × FreeSpace)
  | 0, freeChunks, chunk => .ok (freeChunks, chunk)
  | turns + 1, freeChunks, chunk => do
    match ← findAndMerge freeChunks.items chunk with
    | none => return (freeChunks, chunk)
    | some (id, merged) =>
      let (_, freeChunks) ← freeChunks.pop id
      mergeWhileAdjacent turns freeChunks merged

def insertChunkAndMerge (S : Superslice) (self : Chunks) (chunk : FreeSpace) : Checked Chunks :=
  if self.freeChunks.items.isEmpty then do
    -- 1. If there are no chunks.
    let freeChunks ← self.freeChunks.push S chunk
    return ⟨freeChunks⟩
  else do
    -- 2. Check if we can merge anything.
    let (freeChunks, chunk) ←
      mergeWhileAdjacent self.freeChunks.items.length self.freeChunks chunk
    -- 3. Push the chunk to the sorted vector.
    let freeChunks ← freeChunks.push S chunk
    return ⟨freeChunks⟩

/-- Extracts free space of a given size in bytes, if possible. -/
def get (S : Superslice) (self : Chunks) (size : ℕ) : Checked (Option FreeSpace × Chunks) :=
  let requiredChunks :=
    if size % chunkSize = 0 then some (size / chunkSize) else Usize.checkedAdd (size / chunkSize) 1
  match requiredChunks with
  | none => .ok (none, self)
  | some requiredChunks =>
    let idx := S.lowerBoundBy self.freeChunks.items fun freeSpace =>
      compare freeSpace.count requiredChunks
    if idx ≥ self.freeChunks.items.length then
      .ok (none, self)
    else do
      let (space, freeChunks) ← self.freeChunks.pop idx
      let (space, unused) ← space.split requiredChunks
      match unused with
      | some unused =>
        let chunks ← insertChunkAndMerge S ⟨freeChunks⟩ unused
        return (some space, chunks)
      | none => return (some space, ⟨freeChunks⟩)

/-- Returns free space of `size` (in bytes) back, which begins at `shift` (in bytes). -/
def returnBack (S : Superslice) (self : Chunks) (shift size : ℕ) : Checked Chunks :=
  let count :=
    if size % chunkSize = 0 then some (size / chunkSize) else Usize.checkedAdd (size / chunkSize) 1
  match count with
  | none => .error .countOverflow
  | some count =>
    if shift % chunkSize ≠ 0 then
      .error .unalignedShift
    else do
      let chunk ← FreeSpace.new (RelativeBeginning.fromBytes shift) count
      insertChunkAndMerge S self chunk

end Chunks

end ShmemUtils.Allocator
