import ShmemUtils.Allocator.ShmemAlloc
import ShmemUtils.Allocator.BestFit

/-!
# The allocator and its live blocks

A run of the allocator is any sequence of calls from its clients: allocations with arbitrary
layouts, and deallocations of live blocks with any size between the layout's and the usable size.
`Arena.Inv` ties the pointers of the live blocks to chunk spans (`Live.span`), and the spans to the
manager's free list; each call has one specification, and `Arena.Run.inv` carries the invariant
along a run.
-/

namespace ShmemUtils.Allocator

open ShmemUtils.Library

/-- A block that has been allocated and not deallocated since. -/
structure Live where
  ptr : ℕ
  layout : Layout
  -- the usable size that `alloc_excess` reported; `alloc` makes the same call and drops it
  usable : ℕ
deriving DecidableEq

namespace Live

/-- The chunks of the block, in a buffer that begins at `base`. -/
def span (base : ℕ) (b : Live) : Span := ⟨(b.ptr - base) / chunkSize, b.usable / chunkSize⟩

/-- The addresses that the caller may use. -/
def bytes (b : Live) : Set ℕ := Set.Ico b.ptr (b.ptr + b.usable)

/-- The chunks of a buffer at `base` whose bytes are the block's. -/
def chunks (base : ℕ) (b : Live) : Set ℕ := {i | base + i * chunkSize ∈ b.bytes}

theorem bytes_disjoint_of_usable_eq_zero {a b : Live} (h : a.usable = 0) :
    Disjoint a.bytes b.bytes := by
  simp [bytes, h]

/-- A block without bytes: the sentinel address, and no chunks. -/
def Dangling (b : Live) : Prop := b.layout.size = 0 ∧ b.ptr = b.layout.align ∧ b.usable = 0

/-- A block that occupies the chunks from `i` on. -/
def Placed (base : ℕ) (b : Live) (i : ℕ) : Prop :=
  b.ptr = base + i * chunkSize ∧ b.usable = chunksFor b.layout.size * chunkSize

theorem Dangling.span_len {b : Live} (h : b.Dangling) (base : ℕ) : (b.span base).len = 0 := by
  obtain ⟨-, -, husable⟩ := h
  simp [span, husable]

/-- A span without chunks covers nothing. -/
theorem Dangling.not_contains {b : Live} (h : b.Dangling) (base k : ℕ) :
    ¬ (b.span base).Contains k := by
  have hlen := h.span_len base
  simp only [Span.Contains, Span.stop, hlen]
  omega

theorem Placed.span_eq {base i : ℕ} {b : Live} (h : b.Placed base i) :
    b.span base = ⟨i, chunksFor b.layout.size⟩ := by
  obtain ⟨hptr, husable⟩ := h
  simp [span, hptr, husable, chunkSize, alignment]

theorem Placed.chunks_eq {base i : ℕ} {b : Live} (h : b.Placed base i) :
    b.chunks base = {k | (b.span base).Contains k} := by
  rw [h.span_eq]
  obtain ⟨hptr, husable⟩ := h
  ext k
  simp only [chunks, bytes, hptr, husable, Set.mem_ofPred_eq, Set.mem_Ico, Span.Contains, Span.stop,
    chunkSize, alignment]
  omega

end Live

structure Arena where
  alloc : ShmemAlloc
  live : List Live
deriving DecidableEq

namespace Arena

variable {env : Environment} {S : Superslice} {capacity : ℕ} {st : Arena}

/-- The states that a run of an allocator of `capacity` bytes can reach. -/
inductive Run (env : Environment) (S : Superslice) (capacity : ℕ) : Arena → Prop where
  | new {a : ShmemAlloc} :
      ShmemAlloc.new env S capacity = .ok (.ok a) → Run env S capacity ⟨a, []⟩
  | alloc {st : Arena} {layout : Layout} {ptr usable : ℕ} {a : ShmemAlloc} :
      Run env S capacity st → st.alloc.alloc S layout = .ok (.ok ptr, a) →
      st.alloc.allocExcess S layout = .ok (.ok ⟨ptr, usable⟩, a) →
      Run env S capacity ⟨a, ⟨ptr, layout, usable⟩ :: st.live⟩
  | allocError {st : Arena} {layout : Layout} {e : AllocationError} {a : ShmemAlloc} :
      Run env S capacity st → st.alloc.alloc S layout = .ok (.error e, a) →
      Run env S capacity ⟨a, st.live⟩
  | allocExcess {st : Arena} {layout : Layout} {ptr usable : ℕ} {a : ShmemAlloc} :
      Run env S capacity st → st.alloc.allocExcess S layout = .ok (.ok ⟨ptr, usable⟩, a) →
      Run env S capacity ⟨a, ⟨ptr, layout, usable⟩ :: st.live⟩
  | allocExcessError {st : Arena} {layout : Layout} {e : AllocationError} {a : ShmemAlloc} :
      Run env S capacity st → st.alloc.allocExcess S layout = .ok (.error e, a) →
      Run env S capacity ⟨a, st.live⟩
  | dealloc {st : Arena} {b : Live} {layout : Layout} {a : ShmemAlloc} :
      Run env S capacity st → b ∈ st.live → layout.align = b.layout.align →
      b.layout.size ≤ layout.size → layout.size ≤ b.usable ∨ layout.size = b.layout.size →
      st.alloc.dealloc S b.ptr layout = .ok a →
      Run env S capacity ⟨a, st.live.erase b⟩

def held (st : Arena) : List Span := st.live.map (Live.span st.alloc.memoryBuffer)

/-- The free chunks of the allocator. -/
def freeChunks (a : ShmemAlloc) : Set ℕ :=
  positions (a.freeChunks.freeChunks.items.map FreeSpace.span)

/-- What a run preserves. -/
structure Inv (capacity : ℕ) (st : Arena) : Prop where
  base : st.alloc.memoryBuffer ≠ 0 ∧ st.alloc.memoryBuffer % pageSize = 0
  fits : st.alloc.memoryBuffer + capacity ≤ usizeLimit
  aligned : capacity % alignment = 0
  freeList : FreeList (capacity / alignment) st.alloc.freeChunks.freeChunks st.held
  blocks : ∀ b ∈ st.live, b.Dangling ∨
    0 < b.layout.size ∧ b.layout.align ∣ alignment ∧ ∃ i, b.Placed st.alloc.memoryBuffer i

/-! ## One specification for each call -/

/-- A chunk span inside the heap ends inside the buffer. -/
theorem Inv.span_in_buffer (h : Inv capacity st) {i k : ℕ} (hk : i + k ≤ capacity / alignment) :
    st.alloc.memoryBuffer + i * chunkSize + k * chunkSize ≤
      st.alloc.memoryBuffer + capacity := by
  have haligned := h.aligned
  simp only [chunkSize, alignment] at *
  omega

/-- The four outcomes of `alloc_excess`: an alignment that is not supported, a layout without
bytes, no gap that is long enough, or a block at the beginning of the best one. Only the last one
changes the allocator. -/
theorem Inv.allocExcess_cases (h : Inv capacity st) (S : Superslice) (layout : Layout) :
    (layout.size ≠ 0 ∧ ¬ layout.align ∣ alignment ∧
      st.alloc.allocExcess S layout = .ok (.error ⟨layout⟩, st.alloc)) ∨
    (layout.size = 0 ∧ st.alloc.allocExcess S layout = .ok (.ok ⟨layout.align, 0⟩, st.alloc)) ∨
    (layout.size ≠ 0 ∧ layout.align ∣ alignment ∧
      (∀ s, Gap (capacity / alignment) st.held s → s.len < chunksFor layout.size) ∧
      st.alloc.allocExcess S layout = .ok (.error ⟨layout⟩, st.alloc)) ∨
    ∃ gap v, layout.size ≠ 0 ∧ layout.align ∣ alignment ∧
      BestGap (capacity / alignment) st.held (chunksFor layout.size) gap ∧
      st.alloc.allocExcess S layout = .ok (.ok ⟨st.alloc.memoryBuffer + gap.start * chunkSize,
        chunksFor layout.size * chunkSize⟩, { st.alloc with freeChunks := ⟨v⟩ }) ∧
      FreeList (capacity / alignment) v (⟨gap.start, chunksFor layout.size⟩ :: st.held) := by
  by_cases hsize : layout.size = 0
  · right; left
    refine ⟨hsize, ?_⟩
    simp [ShmemAlloc.allocExcess, ShmemAlloc.checkAlignment_of_size_eq_zero hsize, hsize]
  by_cases halign : layout.align ∣ alignment
  swap
  · left
    refine ⟨hsize, halign, ?_⟩
    simp [ShmemAlloc.allocExcess, ShmemAlloc.checkAlignment_eq hsize, halign]
  have hcheck : ShmemAlloc.checkAlignment layout = .ok () := by
    rw [ShmemAlloc.checkAlignment_eq hsize, if_pos halign]
  right; right
  rcases get_gap S h.freeList with
    ⟨hget, hshort⟩ | ⟨gap, v, hbest, hget, hinv⟩
  · left
    refine ⟨hsize, halign, hshort, ?_⟩
    simp only [ShmemAlloc.allocExcess, hcheck, hsize, if_false]
    rw [hget]
    rfl
  · right
    refine ⟨gap, v, hsize, halign, hbest, ?_, hinv⟩
    have hpos := chunksFor_pos (Nat.pos_of_ne_zero hsize)
    have hstop : gap.start + chunksFor layout.size ≤ capacity / alignment :=
      hinv.held_stop_le List.mem_cons_self hpos
    have hin := h.span_in_buffer hstop
    have hfits := h.fits
    have hbase := Nat.pos_of_ne_zero h.base.1
    have hone : 1 ≤ chunksFor layout.size * chunkSize := Nat.mul_pos hpos (by decide)
    have hptr : st.alloc.memoryBuffer + gap.start * chunkSize < usizeLimit := by
      omega
    have husable : chunksFor layout.size * chunkSize < usizeLimit := by
      omega
    have habsolute : (⟨gap.start⟩ : RelativeBeginning).intoAbsolute st.alloc.memoryBuffer =
        .ok (st.alloc.memoryBuffer + gap.start * chunkSize) :=
      RelativeBeginning.intoAbsolute_eq hptr
    simp only [ShmemAlloc.allocExcess, hcheck, hsize, if_false]
    rw [hget]
    simp only [checked_ok_bind, FreeSpace.begin, Usize.mul_eq husable, habsolute]
    rfl

/-- Returning the chunks of a block with bytes, for any size that they were reserved for. -/
theorem Inv.returnBack (h : Inv capacity st) (S : Superslice) {b : Live} (hb : b ∈ st.live)
    (hpos : 0 < b.layout.size) {i : ℕ} (hplaced : b.Placed st.alloc.memoryBuffer i) {size : ℕ}
    (hlow : b.layout.size ≤ size) (hhigh : size ≤ b.usable ∨ size = b.layout.size) :
    ∃ v, st.alloc.freeChunks.returnBack S (i * chunkSize) size = .ok ⟨v⟩ ∧
      FreeList (capacity / alignment) v
        ((st.live.erase b).map (Live.span st.alloc.memoryBuffer)) := by
  have hheld := h.freeList.perm_held ((List.perm_cons_erase hb).map _)
  rw [List.map_cons, hplaced.span_eq] at hheld
  -- any size up to the usable one rounds up to the chunks that were reserved
  have hcount : chunksFor size = chunksFor b.layout.size := by
    rcases hhigh with hhigh | hhigh
    · rw [hplaced.2] at hhigh
      simp only [chunksFor, chunkSize, alignment] at *
      omega
    · rw [hhigh]
  exact returnBack_spec S hheld (chunksFor_pos hpos) hcount

/-- An allocation leaves the buffer where it is. -/
theorem Inv.memoryBuffer_of_allocExcess (h : Inv capacity st) {layout : Layout}
    {r : Except AllocationError Excess} {a : ShmemAlloc}
    (hrun : st.alloc.allocExcess S layout = .ok (r, a)) :
    a.memoryBuffer = st.alloc.memoryBuffer := by
  rcases h.allocExcess_cases S layout with
    ⟨-, -, hbad⟩ | ⟨-, hzero⟩ | ⟨-, -, -, hfull⟩ | ⟨gap, v, -, -, -, hsome, -⟩
  · cases hbad.symm.trans hrun
    rfl
  · cases hzero.symm.trans hrun
    rfl
  · cases hfull.symm.trans hrun
    rfl
  · cases hsome.symm.trans hrun
    rfl

/-- Deallocating a live block, with any size that its chunks were reserved for: a dangling block
changes nothing, and a placed one gives its span back. -/
theorem Inv.dealloc_cases (h : Inv capacity st) (S : Superslice) {b : Live} (hb : b ∈ st.live)
    {layout : Layout} (halign : layout.align = b.layout.align)
    (hlow : b.layout.size ≤ layout.size)
    (hhigh : layout.size ≤ b.usable ∨ layout.size = b.layout.size) :
    (b.Dangling ∧ st.alloc.dealloc S b.ptr layout = .ok st.alloc) ∨
    ∃ i v, 0 < b.layout.size ∧ b.Placed st.alloc.memoryBuffer i ∧
      st.alloc.dealloc S b.ptr layout = .ok { st.alloc with freeChunks := ⟨v⟩ } ∧
      FreeList (capacity / alignment) v
        ((st.live.erase b).map (Live.span st.alloc.memoryBuffer)) := by
  rcases h.blocks b hb with hdangling | ⟨hsize, hdvd, i, hplaced⟩
  · left
    refine ⟨hdangling, ?_⟩
    rw [ShmemAlloc.dealloc, if_pos (halign.trans hdangling.2.1.symm)]
  · right
    obtain ⟨hptr, husable⟩ := hplaced
    -- the buffer begins at a page, so no block address is small enough for an alignment
    have hne : layout.align ≠ b.ptr := by
      have hle : layout.align ≤ alignment := halign ▸ Nat.le_of_dvd (by decide) hdvd
      have hbase := h.base
      simp only [alignment, pageSize] at hle hbase
      omega
    have hcheck : ShmemAlloc.checkAlignment layout = .ok () := by
      rw [ShmemAlloc.checkAlignment_eq (by omega), if_pos (halign ▸ hdvd)]
    have hshift : Usize.checkedSub b.ptr st.alloc.memoryBuffer = some (i * chunkSize) := by
      rw [Usize.checkedSub_eq (by omega), hptr, Nat.add_sub_cancel_left]
    obtain ⟨v, hret, hinv⟩ := h.returnBack S hb hsize ⟨hptr, husable⟩ hlow hhigh
    refine ⟨i, v, hsize, ⟨hptr, husable⟩, ?_, hinv⟩
    simp only [ShmemAlloc.dealloc, if_neg hne, hcheck, hshift]
    rw [hret]
    rfl

/-! ## The invariant along a run -/

/-- A fresh allocator is one free space over the whole buffer. -/
theorem inv_new {a : ShmemAlloc} (h : ShmemAlloc.new env S capacity = .ok (.ok a)) :
    Inv capacity ⟨a, []⟩ := by
  unfold ShmemAlloc.new at h
  by_cases hzero : capacity = 0
  · rw [if_pos hzero] at h
    cases h
  rw [if_neg hzero] at h
  by_cases hmod : capacity % alignment = 0
  swap
  · rw [if_pos hmod] at h
    cases h
  rw [if_neg (not_not.mpr hmod)] at h
  have hpos : 0 < capacity / alignment := by
    simp only [alignment] at *
    omega
  by_cases hform : capacity + (alignment - 1) < usizeLimit
  swap
  · -- the layout of the buffer would not be well-formed
    cases hnew : Chunks.new env.vec S (capacity / alignment) with
    | error p => simp [hnew] at h
    | ok r =>
      cases r with
      | none => simp [hnew] at h
      | some chunks => by_cases hbox : env.mutexBox = true <;> simp [hnew, hbox, hform] at h
  have hword : capacity / alignment < usizeLimit := by
    simp only [alignment] at *
    omega
  rcases new_spec env.vec S hpos hword with hnone | ⟨v, hsome, hinv⟩
  · simp [hnone] at h
  by_cases hbox : env.mutexBox = true
  swap
  · simp [hsome, hbox] at h
  cases hbuf : env.buffer capacity with
  | none => simp [hsome, hbox, hform, hbuf] at h
  | some buffer =>
    simp only [hsome, checked_ok_bind, hbox, not_true_eq_false, if_false, hform, hbuf, checked_pure,
      Except.ok.injEq] at h
    subst h
    exact ⟨⟨buffer.nonNull, buffer.pageAligned⟩, buffer.fits, hmod, hinv, by simp⟩

/-- A successful allocation adds a live block. -/
theorem Inv.allocExcess (h : Inv capacity st) {layout : Layout} {ptr usable : ℕ} {a : ShmemAlloc}
    (hrun : st.alloc.allocExcess S layout = .ok (.ok ⟨ptr, usable⟩, a)) :
    Inv capacity ⟨a, ⟨ptr, layout, usable⟩ :: st.live⟩ := by
  rcases h.allocExcess_cases S layout with
    ⟨-, -, hbad⟩ | ⟨hsize, hzero⟩ | ⟨-, -, -, hfull⟩ | ⟨gap, v, hsize, hdvd, -, hsome, hinv⟩
  · rw [hbad] at hrun
    cases hrun
  · rw [hzero] at hrun
    cases hrun
    let b : Live := ⟨layout.align, layout, 0⟩
    have hdangling : b.Dangling := ⟨hsize, rfl, rfl⟩
    refine ⟨h.base, h.fits, h.aligned, ?_, ?_⟩
    · refine h.freeList.of_tiles (h.freeList.tiles.of_cover_eq fun k => ?_)
      show cover (_ ++ b.span st.alloc.memoryBuffer :: st.held) k = _
      simp only [cover_append, cover_cons, if_neg (hdangling.not_contains _ k)]
      rfl
    · intro b' hb'
      rcases List.mem_cons.mp hb' with rfl | hb'
      · exact Or.inl hdangling
      · exact h.blocks b' hb'
  · rw [hfull] at hrun
    cases hrun
  · rw [hsome] at hrun
    cases hrun
    let b : Live := ⟨st.alloc.memoryBuffer + gap.start * chunkSize, layout,
      chunksFor layout.size * chunkSize⟩
    have hplaced : b.Placed st.alloc.memoryBuffer gap.start := ⟨rfl, rfl⟩
    refine ⟨h.base, h.fits, h.aligned, ?_, ?_⟩
    · show FreeList _ v (b.span st.alloc.memoryBuffer :: st.held)
      rw [hplaced.span_eq]
      exact hinv
    · intro b' hb'
      rcases List.mem_cons.mp hb' with rfl | hb'
      · exact Or.inr ⟨Nat.pos_of_ne_zero hsize, hdvd, gap.start, hplaced⟩
      · exact h.blocks b' hb'

/-- An allocation that fails changes nothing. -/
theorem Inv.allocExcess_error (h : Inv capacity st) {layout : Layout} {e : AllocationError}
    {a : ShmemAlloc} (hrun : st.alloc.allocExcess S layout = .ok (.error e, a)) :
    a = st.alloc := by
  rcases h.allocExcess_cases S layout with
    ⟨-, -, hbad⟩ | ⟨-, hzero⟩ | ⟨-, -, -, hfull⟩ | ⟨gap, v, -, -, -, hsome, -⟩
  · rw [hbad] at hrun
    cases hrun
    rfl
  · rw [hzero] at hrun
    cases hrun
  · rw [hfull] at hrun
    cases hrun
    rfl
  · rw [hsome] at hrun
    cases hrun

/-- `alloc` fails exactly where `alloc_excess` does, and leaves what it leaves. -/
theorem alloc_error_iff {self a : ShmemAlloc} {layout : Layout} {e : AllocationError} :
    self.alloc S layout = .ok (.error e, a) ↔ self.allocExcess S layout = .ok (.error e, a) := by
  rw [ShmemAlloc.alloc_eq]
  cases hrun : self.allocExcess S layout with
  | error p => simp
  | ok r =>
    obtain ⟨excess, a'⟩ := r
    cases excess <;> simp [Except.map]

/-- Deallocating a live block keeps the invariant for the others. -/
theorem Inv.dealloc (h : Inv capacity st) {b : Live} (hb : b ∈ st.live) {layout : Layout}
    (halign : layout.align = b.layout.align) (hlow : b.layout.size ≤ layout.size)
    (hhigh : layout.size ≤ b.usable ∨ layout.size = b.layout.size) {a : ShmemAlloc}
    (hrun : st.alloc.dealloc S b.ptr layout = .ok a) : Inv capacity ⟨a, st.live.erase b⟩ := by
  have hrest : ∀ b' ∈ st.live.erase b, b' ∈ st.live := fun b' hb' => List.mem_of_mem_erase hb'
  rcases h.dealloc_cases S hb halign hlow hhigh with ⟨hdangling, hsame⟩ | ⟨i, v, -, -, hret, hinv⟩
  · rw [hsame] at hrun
    cases hrun
    refine ⟨h.base, h.fits, h.aligned, ?_, fun b' hb' => h.blocks b' (hrest b' hb')⟩
    have hperm := h.freeList.perm_held ((List.perm_cons_erase hb).map _)
    refine hperm.of_tiles (hperm.tiles.of_cover_eq fun k => ?_)
    simp only [List.map_cons, cover_append, cover_cons, if_neg (hdangling.not_contains _ k)]
    rfl
  · rw [hret] at hrun
    cases hrun
    exact ⟨h.base, h.fits, h.aligned, hinv, fun b' hb' => h.blocks b' (hrest b' hb')⟩

/-- The invariant holds in every state of every run. -/
theorem Run.inv (h : Run env S capacity st) : Inv capacity st := by
  induction h with
  | new hnew => exact inv_new hnew
  | alloc _ _ hrun ih => exact ih.allocExcess hrun
  | @allocError st layout e a _ hrun ih =>
    have hsame := ih.allocExcess_error (alloc_error_iff.mp hrun)
    subst hsame
    exact ih
  | allocExcess _ hrun ih => exact ih.allocExcess hrun
  | @allocExcessError st layout e a _ hrun ih =>
    have hsame := ih.allocExcess_error hrun
    subst hsame
    exact ih
  | dealloc _ hb halign hlow hhigh hrun ih => exact ih.dealloc hb halign hlow hhigh hrun

/-! ## The contract of the pointers -/

/-- A block without bytes has no usable size, and a block with bytes occupies chunks. -/
theorem Inv.usable_eq_zero (h : Inv capacity st) {b : Live} (hb : b ∈ st.live)
    (hsize : b.layout.size = 0) : b.usable = 0 := by
  rcases h.blocks b hb with ⟨-, -, husable⟩ | ⟨hpos, -, -⟩
  · exact husable
  · omega

theorem Inv.placed (h : Inv capacity st) {b : Live} (hb : b ∈ st.live)
    (hsize : b.layout.size ≠ 0) :
    b.layout.align ∣ alignment ∧ ∃ i, b.Placed st.alloc.memoryBuffer i := by
  rcases h.blocks b hb with ⟨hzero, -, -⟩ | ⟨-, hdvd, hplaced⟩
  · exact absurd hzero hsize
  · exact ⟨hdvd, hplaced⟩

/-- A block with bytes is aligned, large enough, and inside the buffer. -/
theorem Inv.block_ok (h : Inv capacity st) {b : Live} (hb : b ∈ st.live)
    (hsize : b.layout.size ≠ 0) :
    b.ptr % b.layout.align = 0 ∧ b.layout.size ≤ b.usable ∧
      st.alloc.memoryBuffer ≤ b.ptr ∧ b.ptr + b.usable ≤ st.alloc.memoryBuffer + capacity := by
  obtain ⟨hdvd, i, hplaced⟩ := h.placed hb hsize
  have hspan := hplaced.span_eq
  obtain ⟨hptr, husable⟩ := hplaced
  have hmem : (⟨i, chunksFor b.layout.size⟩ : Span) ∈ st.held := by
    rw [← hspan]
    exact List.mem_map_of_mem hb
  have hpos := chunksFor_pos (Nat.pos_of_ne_zero hsize)
  have hstop : i + chunksFor b.layout.size ≤ capacity / alignment :=
    h.freeList.held_stop_le hmem hpos
  have hin := h.span_in_buffer hstop
  refine ⟨?_, ?_, ?_, ?_⟩
  · have hbase : alignment ∣ st.alloc.memoryBuffer :=
      (show alignment ∣ pageSize by decide).trans (Nat.dvd_of_mod_eq_zero h.base.2)
    have hshift : alignment ∣ i * chunkSize := Dvd.intro_left i rfl
    rw [hptr]
    exact Nat.mod_eq_zero_of_dvd (hdvd.trans (Nat.dvd_add hbase hshift))
  · rw [husable]
    exact le_chunksFor_mul b.layout.size
  · rw [hptr]
    exact Nat.le_add_right _ _
  · rw [hptr, husable]
    exact hin

/-- The blocks share no byte: their chunk spans are apart, or one of them has no bytes. -/
theorem Inv.bytes_disjoint (h : Inv capacity st) :
    st.live.Pairwise fun a b => Disjoint a.bytes b.bytes := by
  have hcover : ∀ i, cover st.held i ≤ 1 := fun i => by
    have := h.freeList.tiles.cover_le_one i
    rw [cover_append] at this
    exact (Nat.le_add_left _ _).trans this
  refine (List.pairwise_map.mp (pairwise_apart_of_pos hcover)).imp_of_mem ?_
  intro a b ha hb hapart
  by_cases hsa : a.layout.size = 0
  · exact Live.bytes_disjoint_of_usable_eq_zero (h.usable_eq_zero ha hsa)
  by_cases hsb : b.layout.size = 0
  · exact (Live.bytes_disjoint_of_usable_eq_zero (h.usable_eq_zero hb hsb)).symm
  obtain ⟨-, i, hplaceda⟩ := h.placed ha hsa
  obtain ⟨-, j, hplacedb⟩ := h.placed hb hsb
  rw [hplaceda.span_eq, hplacedb.span_eq] at hapart
  have hij := hapart (chunksFor_pos (Nat.pos_of_ne_zero hsa))
    (chunksFor_pos (Nat.pos_of_ne_zero hsb))
  obtain ⟨hptra, husablea⟩ := hplaceda
  obtain ⟨hptrb, husableb⟩ := hplacedb
  rw [Set.disjoint_left]
  intro x hx hy
  simp only [Live.bytes, Set.mem_Ico, hptra, husablea, hptrb, husableb] at hx hy
  simp only [Span.Apart, Span.stop, chunkSize, alignment] at hij hx hy
  omega

/-! ## What each call does to the free chunks -/

/-- Every allocation comes back, and one without bytes or with an error changes nothing. -/
theorem Inv.allocExcess_total (h : Inv capacity st) (S : Superslice) (layout : Layout) :
    ∃ r a, st.alloc.allocExcess S layout = .ok (r, a) ∧
      st.alloc.alloc S layout = .ok (r.map Excess.ptr, a) ∧
      (layout.size = 0 ∨ (∃ e, r = .error e) → a = st.alloc) := by
  rcases h.allocExcess_cases S layout with
    ⟨-, -, hrun⟩ | ⟨-, hrun⟩ | ⟨-, -, -, hrun⟩ | ⟨gap, v, hsize, -, -, hrun, -⟩
  · exact ⟨_, _, hrun, by rw [ShmemAlloc.alloc_eq, hrun]; rfl, fun _ => rfl⟩
  · exact ⟨_, _, hrun, by rw [ShmemAlloc.alloc_eq, hrun]; rfl, fun _ => rfl⟩
  · exact ⟨_, _, hrun, by rw [ShmemAlloc.alloc_eq, hrun]; rfl, fun _ => rfl⟩
  · refine ⟨_, _, hrun, by rw [ShmemAlloc.alloc_eq, hrun]; rfl, ?_⟩
    rintro (hzero | ⟨e, herror⟩)
    · exact absurd hzero hsize
    · cases herror

/-- The chunks of a block are not free, and when it leaves they join the free ones. -/
theorem Inv.freeChunks_release (h : Inv capacity st) {b : Live} (hb : b ∈ st.live) {i : ℕ}
    (hplaced : b.Placed st.alloc.memoryBuffer i) {v : FixesSortedVec FreeSpace}
    (hv : FreeList (capacity / alignment) v
      ((st.live.erase b).map (Live.span st.alloc.memoryBuffer))) :
    Disjoint (freeChunks st.alloc) (b.chunks st.alloc.memoryBuffer) ∧
      positions (v.items.map FreeSpace.span) =
        freeChunks st.alloc ∪ b.chunks st.alloc.memoryBuffer := by
  have hbefore := h.freeList.perm_held ((List.perm_cons_erase hb).map _)
  rw [hplaced.chunks_eq]
  refine ⟨?_, hbefore.positions_release hv⟩
  rw [Set.disjoint_left]
  intro k hfree hown
  have hle := hbefore.tiles.cover_le_one k
  rw [freeChunks, mem_positions_iff] at hfree
  rw [Set.mem_ofPred_eq] at hown
  rw [cover_append, List.map_cons, cover_cons, if_pos hown] at hle
  omega

/-- Deallocating a block with bytes frees its chunks, none of which was free before, and no
others. -/
theorem Inv.dealloc_frees (h : Inv capacity st) (S : Superslice) {b : Live} (hb : b ∈ st.live)
    (hsize : b.layout.size ≠ 0) {layout : Layout} (halign : layout.align = b.layout.align)
    (hlow : b.layout.size ≤ layout.size)
    (hhigh : layout.size ≤ b.usable ∨ layout.size = b.layout.size) :
    ∃ a, st.alloc.dealloc S b.ptr layout = .ok a ∧
      Disjoint (freeChunks st.alloc) (b.chunks st.alloc.memoryBuffer) ∧
      freeChunks a = freeChunks st.alloc ∪ b.chunks st.alloc.memoryBuffer := by
  rcases h.dealloc_cases S hb halign hlow hhigh with ⟨hdangling, -⟩ | ⟨i, v, -, hplaced, hret, hinv⟩
  · exact absurd hdangling.1 hsize
  · exact ⟨_, hret, h.freeChunks_release hb hplaced hinv⟩

/-- Deallocating a block without bytes changes nothing. -/
theorem Inv.dealloc_dangling (h : Inv capacity st) (S : Superslice) {b : Live} (hb : b ∈ st.live)
    (hsize : b.layout.size = 0) {layout : Layout} (halign : layout.align = b.layout.align)
    (hlow : b.layout.size ≤ layout.size)
    (hhigh : layout.size ≤ b.usable ∨ layout.size = b.layout.size) :
    st.alloc.dealloc S b.ptr layout = .ok st.alloc := by
  rcases h.dealloc_cases S hb halign hlow hhigh with ⟨-, hsame⟩ | ⟨i, v, hpos, -, -, -⟩
  · exact hsame
  · omega

/-- **The allocator's contract**, in every state of every run: blocks with bytes are aligned, large
enough and inside the buffer, and no two blocks share a byte; every call comes back; a deallocation
frees the chunks of its block and no others, and calls without bytes or with an error leave the
free chunks alone. -/
theorem arena_contract (h : Run env S capacity st) :
    (∀ b ∈ st.live, b.layout.size ≠ 0 →
      b.ptr % b.layout.align = 0 ∧ b.layout.size ≤ b.usable ∧
      st.alloc.memoryBuffer ≤ b.ptr ∧ b.ptr + b.usable ≤ st.alloc.memoryBuffer + capacity) ∧
    (st.live.Pairwise fun a b => Disjoint a.bytes b.bytes) ∧
    (∀ layout, ∃ r a, st.alloc.allocExcess S layout = .ok (r, a) ∧
      st.alloc.alloc S layout = .ok (r.map Excess.ptr, a) ∧
      (layout.size = 0 ∨ (∃ e, r = .error e) → freeChunks a = freeChunks st.alloc)) ∧
    ∀ b ∈ st.live, ∀ layout : Layout, layout.align = b.layout.align →
      b.layout.size ≤ layout.size → layout.size ≤ b.usable ∨ layout.size = b.layout.size →
      ∃ a, st.alloc.dealloc S b.ptr layout = .ok a ∧
        (b.layout.size = 0 → freeChunks a = freeChunks st.alloc) ∧
        (b.layout.size ≠ 0 →
          Disjoint (freeChunks st.alloc) (b.chunks st.alloc.memoryBuffer) ∧
          freeChunks a = freeChunks st.alloc ∪ b.chunks st.alloc.memoryBuffer) := by
  have hinv := h.inv
  refine ⟨fun b hb hsize => hinv.block_ok hb hsize, hinv.bytes_disjoint, ?_, ?_⟩
  · intro layout
    obtain ⟨r, a, hrun, halloc, hsame⟩ := hinv.allocExcess_total S layout
    exact ⟨r, a, hrun, halloc, fun hzero => by rw [hsame hzero]⟩
  · intro b hb layout halign hlow hhigh
    by_cases hsize : b.layout.size = 0
    · exact ⟨_, hinv.dealloc_dangling S hb hsize halign hlow hhigh, fun _ => rfl,
        fun hne => absurd hsize hne⟩
    · obtain ⟨a, hrun, hdisjoint, hfree⟩ := hinv.dealloc_frees S hb hsize halign hlow hhigh
      exact ⟨a, hrun, fun hzero => absurd hzero hsize, fun _ => ⟨hdisjoint, hfree⟩⟩

/-- A buffer at address 4096. -/
def exampleEnvironment : Environment where
  vec := .exact
  mutexBox := true
  buffer capacity :=
    if h : 4096 + capacity ≤ usizeLimit then some ⟨4096, by decide, by decide, h⟩ else none

private def shortLayout : Layout := ⟨5, 4, ⟨2, rfl⟩, by decide⟩

private def longLayout : Layout := ⟨12, 4, ⟨2, rfl⟩, by decide⟩

/-- Thirty-two bytes, of which three blocks were taken, and the first was given back. -/
private def exampleArena : Arena :=
  ⟨⟨⟨⟨4, [⟨⟨0⟩, 1⟩]⟩⟩, 4096⟩, [⟨4120, shortLayout, 8⟩, ⟨4104, longLayout, 16⟩]⟩

private theorem exampleArena_run : Run exampleEnvironment .linear 32 exampleArena := by
  have h₀ : Run exampleEnvironment .linear 32 ⟨⟨⟨⟨4, [⟨⟨0⟩, 4⟩]⟩⟩, 4096⟩, []⟩ :=
    .new (by decide)
  have h₁ : Run exampleEnvironment .linear 32
      ⟨⟨⟨⟨4, [⟨⟨1⟩, 3⟩]⟩⟩, 4096⟩, [⟨4096, shortLayout, 8⟩]⟩ := .allocExcess h₀ (by decide)
  have h₂ : Run exampleEnvironment .linear 32
      ⟨⟨⟨⟨4, [⟨⟨3⟩, 1⟩]⟩⟩, 4096⟩, [⟨4104, longLayout, 16⟩, ⟨4096, shortLayout, 8⟩]⟩ :=
    .allocExcess h₁ (by decide)
  have h₃ : Run exampleEnvironment .linear 32
      ⟨⟨⟨⟨4, []⟩⟩, 4096⟩,
        [⟨4120, shortLayout, 8⟩, ⟨4104, longLayout, 16⟩, ⟨4096, shortLayout, 8⟩]⟩ :=
    .allocExcess h₂ (by decide)
  have hfirst : ⟨4096, shortLayout, 8⟩ ∈ [⟨4120, shortLayout, 8⟩, ⟨4104, longLayout, 16⟩,
      (⟨4096, shortLayout, 8⟩ : Live)] := by decide
  exact .dealloc h₃ hfirst (show shortLayout.align = _ from rfl) le_rfl (Or.inr rfl) (by decide)

/-- The contract where two blocks are left beside a free chunk. -/
theorem arena_contract_example :
    (∀ b ∈ exampleArena.live, b.layout.size ≠ 0 →
      b.ptr % b.layout.align = 0 ∧ b.layout.size ≤ b.usable ∧
      4096 ≤ b.ptr ∧ b.ptr + b.usable ≤ 4096 + 32) ∧
    (exampleArena.live.Pairwise fun a b => Disjoint a.bytes b.bytes) ∧
    (∀ layout, ∃ r a, exampleArena.alloc.allocExcess .linear layout = .ok (r, a) ∧
      exampleArena.alloc.alloc .linear layout = .ok (r.map Excess.ptr, a) ∧
      (layout.size = 0 ∨ (∃ e, r = .error e) → freeChunks a = freeChunks exampleArena.alloc)) ∧
    ∀ b ∈ exampleArena.live, ∀ layout : Layout, layout.align = b.layout.align →
      b.layout.size ≤ layout.size → layout.size ≤ b.usable ∨ layout.size = b.layout.size →
      ∃ a, exampleArena.alloc.dealloc .linear b.ptr layout = .ok a ∧
        (b.layout.size = 0 → freeChunks a = freeChunks exampleArena.alloc) ∧
        (b.layout.size ≠ 0 →
          Disjoint (freeChunks exampleArena.alloc) (b.chunks 4096) ∧
          freeChunks a = freeChunks exampleArena.alloc ∪ b.chunks 4096) :=
  arena_contract exampleArena_run

end Arena

end ShmemUtils.Allocator
