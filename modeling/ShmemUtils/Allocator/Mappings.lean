import ShmemUtils.Allocator.ShmemAlloc

/-!
# Mapped memory

`src/memmap.rs`, and `ShmemAlloc::new` once more with the memory that its three acquisitions map.
The state is the set of mapped pages; the kernel is a parameter that answers each `mmap` as it is
documented to. `alloc_collections` is known by the layouts it asks for: its `Vec` and its
`CustomBox` release their block when they are dropped, `CustomBox::new_in` drops its value when
there is no block for it, and `into_raw_parts` gives the block away.

When the second acquisition fails, the drop of the mutex unmaps the vector. When the third one
fails, the box has been taken apart, and neither the mutex nor the vector has an owner.
-/

namespace ShmemUtils.Allocator

/-- The pages of a mapping of `len` bytes. -/
def pagesOf (base len : ℕ) : Finset ℕ :=
  Finset.Ico (base / pageSize) (base / pageSize + (len + (pageSize - 1)) / pageSize)

/-- Where the kernel may put a new mapping of `len` bytes. -/
structure Placed (mapped : Finset ℕ) (len base : ℕ) : Prop where
  -- `EINVAL` otherwise
  len_pos : 0 < len
  nonNull : base ≠ 0
  pageAligned : base % pageSize = 0
  fresh : Disjoint mapped (pagesOf base len)
  fits : base + len ≤ usizeLimit

/-- `mmap` without a hint: the address of the new mapping, or `none` for an error. -/
structure Kernel where
  mmap : Finset ℕ → ℕ → Option ℕ
  placed : ∀ {mapped : Finset ℕ} {len base : ℕ}, mmap mapped len = some base →
    Placed mapped len base

/-- What `alloc_collections` asks the allocator for. -/
structure Layouts where
  -- the buffer of the vector, unless the capacity overflows
  vec : ℕ → Option Layout
  -- the box of the mutex
  mutex : Layout
  vec_align : ∀ {n : ℕ} {layout : Layout}, vec n = some layout → layout.align ∣ pageSize
  mutex_align : mutex.align ∣ pageSize

namespace MemmapAlloc

def alloc (K : Kernel) (mapped : Finset ℕ) (layout : Layout) :
    Except AllocationError ℕ × Finset ℕ :=
  match K.mmap mapped layout.size with
  | some rawPtr =>
    if rawPtr = 0 then
      (.error ⟨layout⟩, mapped ∪ pagesOf rawPtr layout.size)
    else if rawPtr % layout.align ≠ 0 then
      (.error ⟨layout⟩, mapped ∪ pagesOf rawPtr layout.size)
    else
      (.ok rawPtr, mapped ∪ pagesOf rawPtr layout.size)
  | none => (.error ⟨layout⟩, mapped)

-- `munmap`
def dealloc (mapped : Finset ℕ) (ptr : ℕ) (layout : Layout) : Finset ℕ :=
  mapped \ pagesOf ptr layout.size

end MemmapAlloc

/-- A vector in a block of its own, and the block. -/
structure MappedChunks where
  chunks : Chunks
  ptr : ℕ
  layout : Layout

/-- `Mutex`, and whether it is held. -/
structure Mutex (α : Type) where
  data : α
  locked : Bool
  creatorPid : ℕ

namespace Mutex

variable {α : Type}

def new (pid : ℕ) (data : α) : Mutex α := ⟨data, false, pid⟩

/-- The drop of a mutex, in the process `pid`. `pthread_mutex_destroy` refuses a held one. -/
def drop (pid : ℕ) (dropData : α → Finset ℕ → Finset ℕ) (self : Mutex α) (mapped : Finset ℕ) :
    Finset ℕ :=
  if self.creatorPid ≠ pid then mapped
  else if self.locked then mapped
  else dropData self.data mapped

end Mutex

/-- The drop of `Chunks`: its vector releases its block. -/
def MappedChunks.drop (self : MappedChunks) (mapped : Finset ℕ) : Finset ℕ :=
  MemmapAlloc.dealloc mapped self.ptr self.layout

/-- `Vec::with_capacity_in` -/
def vecIn (K : Kernel) (L : Layouts) (mapped : Finset ℕ) (capacity : ℕ) :
    Option (ℕ × Layout) × Finset ℕ :=
  match L.vec capacity with
  | none => (none, mapped)
  | some layout =>
    match MemmapAlloc.alloc K mapped layout with
    | (.ok ptr, mapped) => (some (ptr, layout), mapped)
    | (.error _, mapped) => (none, mapped)

/-- `CustomBox::new_in`, followed by `into_raw_parts` when there is a block. -/
def boxIn {α : Type} (K : Kernel) (layout : Layout) (drop : α → Finset ℕ → Finset ℕ) (value : α)
    (mapped : Finset ℕ) : Except AllocationError α × Finset ℕ :=
  match MemmapAlloc.alloc K mapped layout with
  | (.ok _, mapped) => (.ok value, mapped)
  | (.error e, mapped) => (.error e, drop value mapped)

/-- `Chunks::new` -/
def Chunks.newIn (K : Kernel) (L : Layouts) (S : Superslice) (mapped : Finset ℕ) (maxChunks : ℕ) :
    Checked (Option MappedChunks × Finset ℕ) :=
  match vecIn K L mapped maxChunks with
  | (none, mapped) => .ok (none, mapped)
  | (some (ptr, layout), mapped) => do
    let space ← FreeSpace.new RelativeBeginning.zero maxChunks
    let freeChunks ← FixesSortedVec.push S ⟨maxChunks, []⟩ space
    return (some ⟨⟨freeChunks⟩, ptr, layout⟩, mapped)

/-- The layout of the memory buffer. -/
def bufferLayout (capacity : ℕ) : Checked Layout :=
  if h : capacity + (alignment - 1) < usizeLimit then
    .ok ⟨capacity, alignment, ⟨3, rfl⟩, h⟩
  else .error .notWellFormed

/-- `ShmemAlloc::new`, in the process `pid`. -/
def ShmemAlloc.newIn (K : Kernel) (L : Layouts) (S : Superslice) (pid : ℕ) (mapped : Finset ℕ)
    (capacity : ℕ) : Checked (Except InitializationError ShmemAlloc × Finset ℕ) :=
  if capacity = 0 then
    .ok (.error .zeroCapacity, mapped)
  else if capacity % alignment ≠ 0 then
    .ok (.error (.unalignedCapacity capacity), mapped)
  else do
    let maxChunksCount := capacity / alignment
    match ← Chunks.newIn K L S mapped maxChunksCount with
    | (none, mapped) => return (.error (.internalVector maxChunksCount), mapped)
    | (some freeChunks, mapped) =>
      match boxIn K L.mutex (Mutex.drop pid MappedChunks.drop) (Mutex.new pid freeChunks) mapped with
      | (.error _, mapped) => return (.error .internalBuffer, mapped)
      | (.ok freeChunks, mapped) => do
        let memoryLayout ← bufferLayout capacity
        match MemmapAlloc.alloc K mapped memoryLayout with
        | (.error _, mapped) => return (.error .memoryBuffer, mapped)
        | (.ok memoryBuffer, mapped) =>
          return (.ok ⟨freeChunks.data.chunks, memoryBuffer⟩, mapped)

section Mapped

variable {K : Kernel} {L : Layouts} {S : Superslice} {pid : ℕ} {mapped : Finset ℕ}

/-! ## The page arithmetic of one mapping -/

theorem pagesOf_nonempty (base : ℕ) {len : ℕ} (h : 0 < len) : (pagesOf base len).Nonempty := by
  have hpages : 0 < (len + (pageSize - 1)) / pageSize := by
    unfold pageSize
    omega
  rw [pagesOf, Finset.nonempty_Ico]
  omega

/-- Unmapping a new mapping leads back. -/
theorem Placed.unmap {len base : ℕ} (h : Placed mapped len base) :
    (mapped ∪ pagesOf base len) \ pagesOf base len = mapped :=
  Finset.union_sdiff_cancel_right h.fresh

/-- A new mapping is not mapped before. -/
theorem Placed.ne {len base : ℕ} (h : Placed mapped len base) {others : Finset ℕ} :
    mapped ∪ pagesOf base len ∪ others ≠ mapped := by
  intro heq
  obtain ⟨page, hpage⟩ := pagesOf_nonempty base h.len_pos
  have hmem : page ∈ mapped := by
    rw [← heq]
    exact Finset.mem_union_left _ (Finset.mem_union_right _ hpage)
  exact Finset.disjoint_left.mp h.fresh hmem hpage

/-! ## The single acquisitions -/

/-- With an alignment that divides the page size, an allocation fails only with its `mmap`. -/
theorem MemmapAlloc.alloc_of_some {layout : Layout} {base : ℕ} (halign : layout.align ∣ pageSize)
    (h : K.mmap mapped layout.size = some base) :
    MemmapAlloc.alloc K mapped layout = (.ok base, mapped ∪ pagesOf base layout.size) := by
  obtain ⟨-, hnull, haligned, -, -⟩ := K.placed h
  have hmod : base % layout.align = 0 :=
    Nat.mod_eq_zero_of_dvd (halign.trans (Nat.dvd_of_mod_eq_zero haligned))
  unfold MemmapAlloc.alloc
  rw [h]
  simp only
  rw [if_neg hnull, if_neg (not_not.mpr hmod)]

theorem MemmapAlloc.alloc_of_none {layout : Layout} (h : K.mmap mapped layout.size = none) :
    MemmapAlloc.alloc K mapped layout = (.error ⟨layout⟩, mapped) := by
  unfold MemmapAlloc.alloc
  rw [h]

/-- The vector has its block, at this address. -/
def HasVec (K : Kernel) (L : Layouts) (mapped : Finset ℕ) (n : ℕ) (layout : Layout) (base : ℕ) :
    Prop :=
  L.vec n = some layout ∧ K.mmap mapped layout.size = some base

theorem vecIn_of_hasVec {n base : ℕ} {layout : Layout} (h : HasVec K L mapped n layout base) :
    vecIn K L mapped n = (some (base, layout), mapped ∪ pagesOf base layout.size) := by
  obtain ⟨hlayout, hmmap⟩ := h
  unfold vecIn
  rw [hlayout]
  simp only
  rw [MemmapAlloc.alloc_of_some (L.vec_align hlayout) hmmap]

theorem vecIn_of_not_hasVec {n : ℕ} (h : ∀ layout base, ¬ HasVec K L mapped n layout base) :
    vecIn K L mapped n = (none, mapped) := by
  unfold vecIn
  cases hlayout : L.vec n with
  | none => rfl
  | some layout =>
    cases hmmap : K.mmap mapped layout.size with
    | none =>
      simp only
      rw [MemmapAlloc.alloc_of_none hmmap]
    | some base => exact absurd ⟨hlayout, hmmap⟩ (h layout base)

/-- The first free chunk finds room in the new vector. -/
theorem push_first {n : ℕ} (S : Superslice) (hn : 0 < n) :
    FixesSortedVec.push S ⟨n, []⟩ (⟨RelativeBeginning.zero, n⟩ : FreeSpace) =
      .ok ⟨n, [⟨RelativeBeginning.zero, n⟩]⟩ := by
  have hidx := S.upperBound_eq [] [] (⟨RelativeBeginning.zero, n⟩ : FreeSpace) (by simp) (by simp)
  simp only [List.append_nil, List.length_nil] at hidx
  unfold FixesSortedVec.push FixesSortedVec.insert
  simp [hidx, hn.ne']

theorem Chunks.newIn_of_hasVec {n base : ℕ} {layout : Layout} (hn : 0 < n)
    (h : HasVec K L mapped n layout base) :
    Chunks.newIn K L S mapped n =
      .ok (some ⟨⟨⟨n, [⟨RelativeBeginning.zero, n⟩]⟩⟩, base, layout⟩,
        mapped ∪ pagesOf base layout.size) := by
  unfold Chunks.newIn
  rw [vecIn_of_hasVec h]
  simp only
  rw [FreeSpace.new_eq hn, checked_ok_bind, push_first S hn]
  rfl

theorem Chunks.newIn_of_not_hasVec {n : ℕ} (h : ∀ layout base, ¬ HasVec K L mapped n layout base) :
    Chunks.newIn K L S mapped n = .ok (none, mapped) := by
  unfold Chunks.newIn
  rw [vecIn_of_not_hasVec h]

/-- A new mutex is dropped with its data by its creator. -/
theorem Mutex.drop_new {α : Type} (dropData : α → Finset ℕ → Finset ℕ) (data : α) :
    Mutex.drop pid dropData (Mutex.new pid data) mapped = dropData data mapped := by
  simp [Mutex.drop, Mutex.new]

theorem boxIn_of_some {α : Type} {layout : Layout} {base : ℕ} (drop : α → Finset ℕ → Finset ℕ)
    (value : α) (halign : layout.align ∣ pageSize) (h : K.mmap mapped layout.size = some base) :
    boxIn K layout drop value mapped = (.ok value, mapped ∪ pagesOf base layout.size) := by
  unfold boxIn
  rw [MemmapAlloc.alloc_of_some halign h]

theorem boxIn_of_none {α : Type} {layout : Layout} (drop : α → Finset ℕ → Finset ℕ) (value : α)
    (h : K.mmap mapped layout.size = none) :
    boxIn K layout drop value mapped = (.error ⟨layout⟩, drop value mapped) := by
  unfold boxIn
  rw [MemmapAlloc.alloc_of_none h]

theorem bufferLayout_eq {capacity : ℕ} (h : capacity + (alignment - 1) < usizeLimit) :
    bufferLayout capacity = .ok ⟨capacity, alignment, ⟨3, rfl⟩, h⟩ := dif_pos h

/-! ## The three acquisitions -/

namespace ShmemAlloc

variable {capacity vec box : ℕ} {layout : Layout}

theorem newIn_of_not_hasVec (hzero : capacity ≠ 0) (haligned : capacity % alignment = 0)
    (hvec : ∀ layout base, ¬ HasVec K L mapped (capacity / alignment) layout base) :
    newIn K L S pid mapped capacity =
      .ok (.error (.internalVector (capacity / alignment)), mapped) := by
  unfold newIn
  rw [if_neg hzero, if_neg (not_not.mpr haligned)]
  simp only
  rw [Chunks.newIn_of_not_hasVec hvec]
  rfl

theorem chunks_pos (hzero : capacity ≠ 0) (haligned : capacity % alignment = 0) :
    0 < capacity / alignment := by
  unfold alignment at *
  omega

/-- Without memory for the box, the mutex and with it the vector are dropped. -/
theorem newIn_of_no_box (hzero : capacity ≠ 0) (haligned : capacity % alignment = 0)
    (hvec : HasVec K L mapped (capacity / alignment) layout vec)
    (hbox : K.mmap (mapped ∪ pagesOf vec layout.size) L.mutex.size = none) :
    newIn K L S pid mapped capacity = .ok (.error .internalBuffer, mapped) := by
  unfold newIn
  rw [if_neg hzero, if_neg (not_not.mpr haligned)]
  simp only
  rw [Chunks.newIn_of_hasVec (chunks_pos hzero haligned) hvec, checked_ok_bind]
  simp only
  rw [boxIn_of_none _ _ hbox, Mutex.drop_new]
  simp only [MappedChunks.drop, MemmapAlloc.dealloc]
  rw [(K.placed hvec.2).unmap]
  rfl

/-- Once the box has been taken apart, what is left is the buffer. -/
theorem newIn_of_box (hzero : capacity ≠ 0) (haligned : capacity % alignment = 0)
    (hvec : HasVec K L mapped (capacity / alignment) layout vec)
    (hbox : K.mmap (mapped ∪ pagesOf vec layout.size) L.mutex.size = some box) :
    newIn K L S pid mapped capacity = do
      let memoryLayout ← bufferLayout capacity
      match MemmapAlloc.alloc K
          (mapped ∪ pagesOf vec layout.size ∪ pagesOf box L.mutex.size) memoryLayout with
      | (.error _, mapped) => return (.error .memoryBuffer, mapped)
      | (.ok memoryBuffer, mapped) =>
        return (.ok ⟨⟨⟨capacity / alignment, [⟨RelativeBeginning.zero, capacity / alignment⟩]⟩⟩,
          memoryBuffer⟩, mapped) := by
  conv_lhs => unfold newIn
  rw [if_neg hzero, if_neg (not_not.mpr haligned)]
  simp only
  rw [Chunks.newIn_of_hasVec (chunks_pos hzero haligned) hvec, checked_ok_bind]
  simp only
  rw [boxIn_of_some _ _ L.mutex_align hbox]
  rfl

/-- Both the vector and the box have their memory, and the buffer is refused. -/
def BufferRefused (K : Kernel) (L : Layouts) (mapped : Finset ℕ) (capacity : ℕ) : Prop :=
  capacity ≠ 0 ∧ capacity % alignment = 0 ∧ capacity + (alignment - 1) < usizeLimit ∧
    ∃ layout vec box, HasVec K L mapped (capacity / alignment) layout vec ∧
      K.mmap (mapped ∪ pagesOf vec layout.size) L.mutex.size = some box ∧
      K.mmap (mapped ∪ pagesOf vec layout.size ∪ pagesOf box L.mutex.size) capacity = none

/-- What is refused the buffer leaves the vector and the box behind. -/
theorem newIn_of_bufferRefused (h : BufferRefused K L mapped capacity) :
    ∃ layout vec box, HasVec K L mapped (capacity / alignment) layout vec ∧
      newIn K L S pid mapped capacity = .ok (.error .memoryBuffer,
        mapped ∪ pagesOf vec layout.size ∪ pagesOf box L.mutex.size) := by
  obtain ⟨hzero, haligned, hfits, layout, vec, box, hvec, hbox, hbuffer⟩ := h
  refine ⟨layout, vec, box, hvec, ?_⟩
  rw [newIn_of_box hzero haligned hvec hbox, bufferLayout_eq hfits, checked_ok_bind,
    MemmapAlloc.alloc_of_none hbuffer]
  rfl

/-- Any other failure leads back. -/
theorem mapped_eq_of_error (h : ¬ BufferRefused K L mapped capacity) {e : InitializationError}
    {mapped' : Finset ℕ} (hnew : newIn K L S pid mapped capacity = .ok (.error e, mapped')) :
    mapped' = mapped := by
  by_cases hzero : capacity = 0
  · rw [newIn, if_pos hzero] at hnew
    cases hnew
    rfl
  by_cases haligned : capacity % alignment = 0
  swap
  · rw [newIn, if_neg hzero, if_pos haligned] at hnew
    cases hnew
    rfl
  by_cases hvec : ∀ layout base, ¬ HasVec K L mapped (capacity / alignment) layout base
  · cases (newIn_of_not_hasVec hzero haligned hvec).symm.trans hnew
    rfl
  push Not at hvec
  obtain ⟨layout, vec, hvec⟩ := hvec
  cases hbox : K.mmap (mapped ∪ pagesOf vec layout.size) L.mutex.size with
  | none =>
    cases (newIn_of_no_box hzero haligned hvec hbox).symm.trans hnew
    rfl
  | some box =>
    rw [newIn_of_box hzero haligned hvec hbox] at hnew
    by_cases hfits : capacity + (alignment - 1) < usizeLimit
    · rw [bufferLayout_eq hfits, checked_ok_bind] at hnew
      cases hbuffer :
          K.mmap (mapped ∪ pagesOf vec layout.size ∪ pagesOf box L.mutex.size) capacity with
      | none =>
        exact absurd ⟨hzero, haligned, hfits, layout, vec, box, hvec, hbox, hbuffer⟩ h
      | some base =>
        have halign : alignment ∣ pageSize := by decide
        rw [MemmapAlloc.alloc_of_some halign hbuffer] at hnew
        cases hnew
    · rw [bufferLayout, dif_neg hfits] at hnew
      cases hnew

/-- **When a failed `new` leaks nothing**: unless the vector and the box of the mutex have been
mapped, and the mapping of the buffer fails. -/
theorem newIn_restores_iff (K : Kernel) (L : Layouts) (S : Superslice) (pid : ℕ)
    (mapped : Finset ℕ) (capacity : ℕ) :
    (∀ e mapped', newIn K L S pid mapped capacity = .ok (.error e, mapped') → mapped' = mapped) ↔
      ¬ BufferRefused K L mapped capacity := by
  constructor
  · intro hall hrefused
    obtain ⟨layout, vec, box, hvec, hnew⟩ := newIn_of_bufferRefused hrefused
    exact (K.placed hvec.2).ne (hall _ _ hnew)
  · intro h e mapped' hnew
    exact mapped_eq_of_error h hnew

/-! ## The allocator that comes out -/

end ShmemAlloc

variable {capacity vec : ℕ} {layout : Layout}

/-- A successful `mmap`, as a buffer. -/
def Kernel.buffer (K : Kernel) (mapped : Finset ℕ) (capacity : ℕ) : Option (Buffer capacity) :=
  match h : K.mmap mapped capacity with
  | some base => some ⟨base, (K.placed h).nonNull, (K.placed h).pageAligned, (K.placed h).fits⟩
  | none => none

theorem Kernel.buffer_of_none (h : K.mmap mapped capacity = none) :
    K.buffer mapped capacity = none := by
  unfold Kernel.buffer
  split
  · next hsome =>
    cases h.symm.trans hsome
  · rfl

theorem Kernel.buffer_of_some {base : ℕ} (h : K.mmap mapped capacity = some base) :
    ∃ buffer, K.buffer mapped capacity = some buffer ∧ buffer.base = base := by
  unfold Kernel.buffer
  split
  · next hsome =>
    cases h.symm.trans hsome
    exact ⟨_, rfl, rfl⟩
  · next hnone =>
    cases h.symm.trans hnone

/-- How the kernel answers a call of `new`. -/
def environment (K : Kernel) (L : Layouts) (mapped : Finset ℕ) (capacity : ℕ) : Environment where
  vec :=
    { withCapacityIn := fun n => (vecIn K L mapped n).1.map fun _ => n
      capacity_ge := by
        intro n c h
        obtain ⟨_, -, rfl⟩ := Option.map_eq_some_iff.mp h
        exact le_rfl }
  mutexBox := (K.mmap (vecIn K L mapped (capacity / alignment)).2 L.mutex.size).isSome
  buffer :=
    K.buffer (MemmapAlloc.alloc K (vecIn K L mapped (capacity / alignment)).2 L.mutex).2

namespace ShmemAlloc

theorem new_of_not_hasVec {n : ℕ}
    (hvec : ∀ layout base, ¬ HasVec K L mapped n layout base) :
    Chunks.new (environment K L mapped capacity).vec S n = .ok none := by
  simp only [Chunks.new, FixesSortedVec.new, environment]
  rw [vecIn_of_not_hasVec hvec]
  rfl

theorem new_of_hasVec {n : ℕ} (hn : 0 < n) (hvec : HasVec K L mapped n layout vec) :
    Chunks.new (environment K L mapped capacity).vec S n =
      .ok (some ⟨⟨n, [⟨RelativeBeginning.zero, n⟩]⟩⟩) := by
  simp only [Chunks.new, FixesSortedVec.new, environment]
  rw [vecIn_of_hasVec hvec]
  simp only [Option.map_some]
  rw [FreeSpace.new_eq hn, checked_ok_bind, push_first S hn]
  rfl

/-- Without its pages, this is the `new` of the allocator. -/
theorem newIn_fst (K : Kernel) (L : Layouts) (S : Superslice) (pid : ℕ) (mapped : Finset ℕ)
    (capacity : ℕ) : (newIn K L S pid mapped capacity).map Prod.fst =
      new (environment K L mapped capacity) S capacity := by
  by_cases hzero : capacity = 0
  · rw [newIn, if_pos hzero, new, if_pos hzero]
    rfl
  by_cases haligned : capacity % alignment = 0
  swap
  · rw [newIn, if_neg hzero, if_pos haligned, new, if_neg hzero, if_pos haligned]
    rfl
  rw [new, if_neg hzero, if_neg (not_not.mpr haligned)]
  simp only
  by_cases hvec : ∀ layout base, ¬ HasVec K L mapped (capacity / alignment) layout base
  · rw [newIn_of_not_hasVec hzero haligned hvec, new_of_not_hasVec hvec]
    rfl
  push Not at hvec
  obtain ⟨layout, vec, hvec⟩ := hvec
  rw [new_of_hasVec (chunks_pos hzero haligned) hvec, checked_ok_bind]
  simp only [environment, vecIn_of_hasVec hvec]
  cases hbox : K.mmap (mapped ∪ pagesOf vec layout.size) L.mutex.size with
  | none =>
    rw [newIn_of_no_box hzero haligned hvec hbox]
    rfl
  | some box =>
    rw [newIn_of_box hzero haligned hvec hbox, MemmapAlloc.alloc_of_some L.mutex_align hbox]
    by_cases hfits : capacity + (alignment - 1) < usizeLimit
    · rw [bufferLayout_eq hfits, checked_ok_bind]
      cases hbuffer :
          K.mmap (mapped ∪ pagesOf vec layout.size ∪ pagesOf box L.mutex.size) capacity with
      | none =>
        rw [MemmapAlloc.alloc_of_none hbuffer, Kernel.buffer_of_none hbuffer, if_neg (by simp),
          if_neg (not_not.mpr hfits)]
        rfl
      | some base =>
        have halign : alignment ∣ pageSize := by decide
        obtain ⟨buffer, hbuffer', rfl⟩ := Kernel.buffer_of_some hbuffer
        rw [MemmapAlloc.alloc_of_some halign hbuffer, hbuffer', if_neg (by simp),
          if_neg (not_not.mpr hfits)]
        rfl
    · rw [bufferLayout, dif_neg hfits]
      simp [hfits]
      rfl

end ShmemAlloc

end Mapped

/-! ## A machine with little memory -/

/-- A kernel with `limit` pages, which puts each mapping behind all others. -/
def Kernel.limited (limit : ℕ) (hlimit : limit * pageSize ≤ usizeLimit) : Kernel where
  mmap mapped len :=
    if 0 < len ∧ mapped.sup id + 1 + (len + (pageSize - 1)) / pageSize ≤ limit then
      some ((mapped.sup id + 1) * pageSize)
    else none
  placed := by
    intro mapped len base h
    rw [Option.ite_none_right_eq_some] at h
    obtain ⟨⟨hlen, hroom⟩, hbase⟩ := h
    cases hbase
    have hpage : (mapped.sup id + 1) * pageSize / pageSize = mapped.sup id + 1 :=
      Nat.mul_div_cancel _ (by decide)
    refine ⟨hlen, ?_, Nat.mul_mod_left _ _, ?_, ?_⟩
    · exact Nat.mul_ne_zero (Nat.succ_ne_zero _) (by decide)
    · rw [Finset.disjoint_left]
      intro page hmem hnew
      have hle : page ≤ mapped.sup id := Finset.le_sup (f := id) hmem
      rw [pagesOf, hpage, Finset.mem_Ico] at hnew
      omega
    · have hpages : len ≤ (len + (pageSize - 1)) / pageSize * pageSize := by
        unfold pageSize
        omega
      calc (mapped.sup id + 1) * pageSize + len
          ≤ (mapped.sup id + 1) * pageSize + (len + (pageSize - 1)) / pageSize * pageSize := by
            gcongr
        _ = (mapped.sup id + 1 + (len + (pageSize - 1)) / pageSize) * pageSize :=
          (add_mul _ _ _).symm
        _ ≤ limit * pageSize := Nat.mul_le_mul_right _ hroom
        _ ≤ usizeLimit := hlimit

/-- A vector of 16 bytes a chunk, and a mutex of 72. -/
def Layouts.small : Layouts where
  vec n := if h : n * 16 + (alignment - 1) < usizeLimit then
    some ⟨n * 16, alignment, ⟨3, rfl⟩, h⟩ else none
  mutex := ⟨72, alignment, ⟨3, rfl⟩, by decide⟩
  vec_align := by
    intro n layout h
    split at h
    · cases h
      show alignment ∣ pageSize
      decide
    · cases h
  mutex_align := by decide

/-- Three pages are left: two for the vector, one for the box, and none for the buffer. -/
theorem newIn_leaks :
    ShmemAlloc.newIn (.limited 4 (by decide)) .small .linear 1 ∅ 4096 =
      .ok (.error .memoryBuffer, {1, 2, 3}) ∧
    ¬ ∀ (K : Kernel) (L : Layouts) (S : Superslice) (pid : ℕ) (mapped : Finset ℕ) (capacity : ℕ)
      (e : InitializationError) (mapped' : Finset ℕ),
      ShmemAlloc.newIn K L S pid mapped capacity = .ok (.error e, mapped') → mapped' = mapped := by
  have hleaks : ShmemAlloc.newIn (.limited 4 (by decide)) .small .linear 1 ∅ 4096 =
      .ok (.error .memoryBuffer, {1, 2, 3}) := by decide +kernel
  refine ⟨hleaks, fun hall => ?_⟩
  have hempty := hall _ _ _ _ _ _ _ _ hleaks
  exact absurd hempty (by decide)

end ShmemUtils.Allocator
