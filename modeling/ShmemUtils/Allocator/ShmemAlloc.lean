import ShmemUtils.Allocator.Chunks

/-!
# Shared memory allocator

`src/allocator.rs`: layouts and pointers over the manager of free chunks. Addresses are natural
numbers. The allocator is `Copy` and points to the one manager behind the shared mutex, so a call
from any process acts on the same `Chunks`; the calls are serialised by that mutex.
-/

namespace ShmemUtils.Allocator

/-- `std::alloc::Layout`: the alignment is a power of two, and the size rounded up to it does not
leave the word. -/
structure Layout where
  size : ℕ
  align : ℕ
  align_pow : ∃ k, align = 2 ^ k
  size_le : size + (align - 1) < usizeLimit
deriving DecidableEq

theorem Layout.align_pos (l : Layout) : 0 < l.align := by
  obtain ⟨k, hk⟩ := l.align_pow
  rw [hk]
  exact Nat.two_pow_pos k

/-- `alloc::AllocationError` -/
structure AllocationError where
  layout : Layout
deriving DecidableEq

/-- `alloc::Excess`: a pointer and the usable size of its block. -/
structure Excess where
  ptr : ℕ
  usable : ℕ
deriving DecidableEq

inductive InitializationError where
  | zeroCapacity
  | unalignedCapacity (capacity : ℕ)
  | internalVector (chunks : ℕ)
  | internalBuffer
  | memoryBuffer
deriving DecidableEq, Repr

def pageSize : ℕ := 4096

/-- A buffer of `capacity` bytes obtained from `mmap`. -/
structure Buffer (capacity : ℕ) where
  base : ℕ
  nonNull : base ≠ 0
  pageAligned : base % pageSize = 0
  fits : base + capacity ≤ usizeLimit

/-- How the three acquisitions of `ShmemAlloc::new` turn out. -/
structure Environment where
  vec : VecAllocator
  -- whether the mutex can be moved into a mapping of its own
  mutexBox : Bool
  buffer : (capacity : ℕ) → Option (Buffer capacity)

structure ShmemAlloc where
  freeChunks : Chunks
  memoryBuffer : ℕ
deriving DecidableEq, Repr

namespace ShmemAlloc

/-- Initializes a new allocator with a given capacity (in bytes). -/
def new (env : Environment) (S : Superslice) (capacity : ℕ) :
    Checked (Except InitializationError ShmemAlloc) :=
  if capacity = 0 then
    .ok (.error .zeroCapacity)
  else if capacity % alignment ≠ 0 then
    .ok (.error (.unalignedCapacity capacity))
  else do
    let maxChunksCount := capacity / alignment
    match ← Chunks.new env.vec S maxChunksCount with
    | none => return .error (.internalVector maxChunksCount)
    | some freeChunks =>
      if ¬ env.mutexBox then
        return .error .internalBuffer
      else if ¬ capacity + (alignment - 1) < usizeLimit then
        .error .notWellFormed
      else
        match env.buffer capacity with
        | none => return .error .memoryBuffer
        | some buffer => return .ok ⟨freeChunks, buffer.base⟩

def checkAlignment (layout : Layout) : Except AllocationError Unit :=
  if layout.align = 0 ∨ layout.size = 0 then
    .ok ()
  else if alignment % layout.align ≠ 0 then
    .error ⟨layout⟩
  else
    .ok ()

def allocExcess (S : Superslice) (self : ShmemAlloc) (layout : Layout) :
    Checked (Except AllocationError Excess × ShmemAlloc) :=
  match checkAlignment layout with
  | .error e => .ok (.error e, self)
  | .ok () =>
    if layout.size = 0 then
      .ok (.ok ⟨layout.align, 0⟩, self)
    else do
      let (chunk, freeChunks) ← self.freeChunks.get S layout.size
      match chunk with
      | some chunk =>
        let usableSize ← Usize.mul chunk.count chunkSize
        let ptr ← chunk.begin.intoAbsolute self.memoryBuffer
        return (.ok ⟨ptr, usableSize⟩, { self with freeChunks })
      | none => return (.error ⟨layout⟩, { self with freeChunks })

def alloc (S : Superslice) (self : ShmemAlloc) (layout : Layout) :
    Checked (Except AllocationError ℕ × ShmemAlloc) :=
  match checkAlignment layout with
  | .error e => .ok (.error e, self)
  | .ok () => do
    let (excess, self) ← self.allocExcess S layout
    return (excess.map Excess.ptr, self)

-- "Since `mmap` returns zeroed memory, we don't need to do anything else."
def allocZeroed (S : Superslice) (self : ShmemAlloc) (layout : Layout) :
    Checked (Except AllocationError ℕ × ShmemAlloc) :=
  self.alloc S layout

def usableSize (layout : Layout) : Checked (ℕ × ℕ) :=
  match checkAlignment layout with
  | .ok () => do
    let size := layout.size
    let size ←
      if size % chunkSize = 0 then .ok size else Usize.mul (size / chunkSize) (chunkSize + 1)
    return (size, size)
  | .error _ => .ok (0, 0)

def dealloc (S : Superslice) (self : ShmemAlloc) (ptr : ℕ) (layout : Layout) :
    Checked ShmemAlloc :=
  if layout.align = ptr then
    .ok self
  else
    match checkAlignment layout with
    | .error _ => .ok self
    | .ok () =>
      match Usize.checkedSub ptr self.memoryBuffer with
      | none => .ok self
      | some shift => do
        let freeChunks ← self.freeChunks.returnBack S shift layout.size
        return { self with freeChunks }

/-! ## The alignment check -/

theorem checkAlignment_of_size_eq_zero {l : Layout} (h : l.size = 0) :
    checkAlignment l = .ok () := if_pos (Or.inr h)

/-- A layout that has a size passes the check when its alignment divides that of the chunks. -/
theorem checkAlignment_eq {l : Layout} (h : l.size ≠ 0) :
    checkAlignment l = if l.align ∣ alignment then .ok () else .error ⟨l⟩ := by
  have hzero : ¬ (l.align = 0 ∨ l.size = 0) := by
    have := l.align_pos
    omega
  rw [checkAlignment, if_neg hzero]
  by_cases hdvd : l.align ∣ alignment
  · rw [if_neg (by simpa using Nat.mod_eq_zero_of_dvd hdvd), if_pos hdvd]
  · rw [if_pos fun hmod => hdvd (Nat.dvd_of_mod_eq_zero hmod), if_neg hdvd]

/-- `alloc` is `alloc_excess` without the usable size. -/
theorem alloc_eq (S : Superslice) (self : ShmemAlloc) (l : Layout) :
    self.alloc S l = (do
      let (excess, self) ← self.allocExcess S l
      return (excess.map Excess.ptr, self)) := by
  unfold alloc
  cases hcheck : checkAlignment l with
  | error e => simp [allocExcess, hcheck, Except.map]
  | ok _ => rfl

end ShmemAlloc

end ShmemUtils.Allocator
