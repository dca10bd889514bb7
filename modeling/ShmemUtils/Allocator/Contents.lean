import ShmemUtils.Library.Runs
import ShmemUtils.Allocator.Arena

/-!
# The bytes of the buffer

The allocator together with the bytes that its clients write into their blocks. `alloc_zeroed`
relies on the zeroed pages of `mmap`, and these stay zero only until somebody writes to them: a
block that comes out of `alloc_zeroed` has whatever the best gap holds.
-/

namespace ShmemUtils.Allocator

open ShmemUtils.Library

/-- The allocator, its clients' blocks, and the memory. -/
structure Contents where
  arena : Arena
  memory : ℕ → UInt8

inductive Access where
  | alloc (layout : Layout)
  | allocZeroed (layout : Layout)
  | allocExcess (layout : Layout)
  | dealloc (b : Live) (layout : Layout)
  -- a client writes a byte of one of its blocks
  | write (b : Live) (address : ℕ) (value : UInt8)

/-- The blocks after an allocation that returned `r`. -/
def Arena.granted (st : Arena) (layout : Layout) (r : Except AllocationError Excess)
    (a : ShmemAlloc) : Arena :=
  match r with
  | .ok excess => ⟨a, ⟨excess.ptr, layout, excess.usable⟩ :: st.live⟩
  | .error _ => ⟨a, st.live⟩

namespace Contents

inductive Step (S : Superslice) : Contents → Access → Contents → Prop where
  | alloc {c : Contents} {layout : Layout} {r : Except AllocationError Excess} {a : ShmemAlloc} :
      c.arena.alloc.alloc S layout = .ok (r.map Excess.ptr, a) →
      c.arena.alloc.allocExcess S layout = .ok (r, a) →
      Step S c (.alloc layout) { c with arena := c.arena.granted layout r a }
  | allocZeroed {c : Contents} {layout : Layout} {r : Except AllocationError Excess}
      {a : ShmemAlloc} :
      c.arena.alloc.allocZeroed S layout = .ok (r.map Excess.ptr, a) →
      c.arena.alloc.allocExcess S layout = .ok (r, a) →
      Step S c (.allocZeroed layout) { c with arena := c.arena.granted layout r a }
  | allocExcess {c : Contents} {layout : Layout} {r : Except AllocationError Excess}
      {a : ShmemAlloc} :
      c.arena.alloc.allocExcess S layout = .ok (r, a) →
      Step S c (.allocExcess layout) { c with arena := c.arena.granted layout r a }
  | dealloc {c : Contents} {b : Live} {layout : Layout} {a : ShmemAlloc} :
      b ∈ c.arena.live → layout.align = b.layout.align → b.layout.size ≤ layout.size →
      layout.size ≤ b.usable ∨ layout.size = b.layout.size →
      c.arena.alloc.dealloc S b.ptr layout = .ok a →
      Step S c (.dealloc b layout) { c with arena := ⟨a, c.arena.live.erase b⟩ }
  | write {c : Contents} {b : Live} {address : ℕ} {value : UInt8} :
      b ∈ c.arena.live → address ∈ b.bytes →
      Step S c (.write b address value)
        { c with memory := fun x => if x = address then value else c.memory x }

/-- A fresh allocator, in a buffer of zeros. -/
structure Fresh (env : Environment) (S : Superslice) (capacity : ℕ) (c : Contents) : Prop where
  new : ShmemAlloc.new env S capacity = .ok (.ok c.arena.alloc)
  noBlocks : c.arena.live = []
  zero : ∀ x, c.arena.alloc.memoryBuffer ≤ x → x < c.arena.alloc.memoryBuffer + capacity →
    c.memory x = 0

/-- The block that `alloc_zeroed` returns is zero. -/
def ReturnsZeroed (c : Contents) : Access → Contents → Prop
  | .allocZeroed layout, c' => ∀ b, c'.arena.live = b :: c.arena.live →
      ∀ x, b.ptr ≤ x → x < b.ptr + layout.size → c'.memory x = 0
  | _, _ => True

/-- Before a call of `alloc_zeroed` with a layout that it supports, the best gap begins with as many
zeros as the layout asks for. -/
def CleanGap (capacity : ℕ) (c : Contents) : Access → Prop
  | .allocZeroed layout => layout.size ≠ 0 → layout.align ∣ alignment →
      ∀ gap, BestGap (capacity / alignment) c.arena.held (chunksFor layout.size) gap →
      ∀ x, c.arena.alloc.memoryBuffer + gap.start * chunkSize ≤ x →
        x < c.arena.alloc.memoryBuffer + gap.start * chunkSize + layout.size → c.memory x = 0
  | _ => True

/-- A block that is deallocated is all zero. -/
def FreesZeroed (c : Contents) : Access → Prop
  | .dealloc b _ => ∀ x ∈ b.bytes, c.memory x = 0
  | _ => True

variable {env : Environment} {S : Superslice} {capacity : ℕ} {c c' : Contents} {i : Access}

/-! ## The runs of the allocator below -/

theorem run_granted (h : Arena.Run env S capacity c.arena) {layout : Layout}
    {r : Except AllocationError Excess} {a : ShmemAlloc}
    (hexcess : c.arena.alloc.allocExcess S layout = .ok (r, a)) :
    Arena.Run env S capacity (c.arena.granted layout r a) := by
  cases r with
  | ok excess => exact .allocExcess h hexcess
  | error e => exact .allocExcessError h hexcess

theorem Step.arena_run (hstep : Step S c i c') (h : Arena.Run env S capacity c.arena) :
    Arena.Run env S capacity c'.arena := by
  cases hstep with
  | alloc _ hexcess => exact run_granted h hexcess
  | allocZeroed _ hexcess => exact run_granted h hexcess
  | allocExcess hexcess => exact run_granted h hexcess
  | dealloc hb halign hlow hhigh hrun => exact .dealloc h hb halign hlow hhigh hrun
  | write _ _ => exact h

theorem Fresh.arena_run (h : Fresh env S capacity c) : Arena.Run env S capacity c.arena := by
  obtain ⟨⟨a, live⟩, memory⟩ := c
  obtain ⟨hnew, rfl, -⟩ := h
  exact .new hnew

/-! ## What one call returns -/

/-- No block is longer than the list of all of them. -/
theorem ne_cons_self {l : List Live} {b : Live} : l ≠ b :: l := fun h => by
  have hlen := congrArg List.length h
  simp at hlen

/-- The returned block has the bytes of the best gap. -/
theorem returnsZeroed_iff (h : Arena.Run env S capacity c.arena) (hstep : Step S c i c') :
    ReturnsZeroed c i c' ↔ CleanGap capacity c i := by
  cases hstep with
  | alloc _ _ => exact Iff.rfl
  | allocExcess _ => exact Iff.rfl
  | dealloc _ _ _ _ _ => exact Iff.rfl
  | write _ _ => exact Iff.rfl
  | @allocZeroed layout r a _ hexcess =>
    simp only [ReturnsZeroed, CleanGap]
    rcases h.inv.allocExcess_cases S layout with
      ⟨-, hdvd, hbad⟩ | ⟨hsize, hzero⟩ | ⟨-, -, hshort, hfull⟩ |
        ⟨gap, v, hsize, hdvd, hbest, hsome, -⟩
    · -- an alignment that is not supported: no block, and nothing asked of the gap
      cases hbad.symm.trans hexcess
      exact iff_of_true (fun b hb => absurd hb ne_cons_self) fun _ hsupported =>
        absurd hsupported hdvd
    · -- the dangling block of size zero has no bytes
      cases hzero.symm.trans hexcess
      refine iff_of_true (fun b hb x hlow hhigh => ?_) fun hpos => absurd hsize hpos
      omega
    · -- out of memory: there is no best gap
      cases hfull.symm.trans hexcess
      refine iff_of_true (fun b hb => absurd hb ne_cons_self) fun _ _ gap hbest => ?_
      exact absurd hbest.long (Nat.not_le.mpr (hshort gap hbest.gap))
    · cases hsome.symm.trans hexcess
      constructor
      · intro hzeroed _ _ gap' hbest' x hlow hhigh
        rw [hbest'.eq hbest] at hlow hhigh
        exact hzeroed _ rfl x hlow hhigh
      · intro hclean b hb x hlow hhigh
        obtain ⟨rfl, -⟩ := List.cons_eq_cons.mp hb
        exact hclean hsize hdvd gap hbest x hlow hhigh

/-! ## Zeros between the blocks -/

/-- The chunk of a byte, in a buffer at `base`. -/
def chunkOf (base x : ℕ) : ℕ := (x - base) / chunkSize

/-- Every byte between the blocks is zero. -/
def VacantZero (capacity : ℕ) (c : Contents) : Prop :=
  ∀ x, c.arena.alloc.memoryBuffer ≤ x →
    Vacant (capacity / alignment) c.arena.held (chunkOf c.arena.alloc.memoryBuffer x) →
    c.memory x = 0

/-- The bytes of a block are those of its chunks. -/
theorem mem_bytes_iff (h : Arena.Inv capacity c.arena) {b : Live} (hb : b ∈ c.arena.live) {x : ℕ} :
    x ∈ b.bytes ↔ c.arena.alloc.memoryBuffer ≤ x ∧
      (b.span c.arena.alloc.memoryBuffer).Contains (chunkOf c.arena.alloc.memoryBuffer x) := by
  -- a block of size zero has neither bytes nor chunks
  rcases h.blocks b hb with hdangling | ⟨-, -, j, hplaced⟩
  · refine iff_of_false ?_ fun hin => hdangling.not_contains _ _ hin.2
    simp [Live.bytes, hdangling.2.2]
  · rw [hplaced.span_eq]
    obtain ⟨hptr, husable⟩ := hplaced
    simp only [Live.bytes, Set.mem_Ico, hptr, husable, Span.Contains, Span.stop, chunkOf, chunkSize,
      alignment]
    omega

theorem Fresh.vacantZero (h : Fresh env S capacity c) : VacantZero capacity c := by
  intro x hlow hvacant
  apply h.zero x hlow
  have hlt := hvacant.1
  simp only [chunkOf, chunkSize, alignment] at hlt
  omega

/-- An allocation leaves the buffer where it is, and takes chunks at most. -/
theorem granted_vacant (h : Arena.Inv capacity c.arena) {layout : Layout}
    {r : Except AllocationError Excess} {a : ShmemAlloc} {k : ℕ}
    (hexcess : c.arena.alloc.allocExcess S layout = .ok (r, a)) :
    a.memoryBuffer = c.arena.alloc.memoryBuffer ∧
      (Vacant (capacity / alignment) (c.arena.granted layout r a).held k →
        Vacant (capacity / alignment) c.arena.held k) := by
  have hbase := h.memoryBuffer_of_allocExcess hexcess
  refine ⟨hbase, fun hvacant => ⟨hvacant.1, fun hold => hvacant.2 ?_⟩⟩
  obtain ⟨s, hs, hk⟩ := hold
  refine ⟨s, ?_, hk⟩
  cases r with
  | ok excess =>
    simp only [Arena.granted, Arena.held, List.map_cons, hbase]
    exact List.mem_cons_of_mem _ hs
  | error e =>
    simp only [Arena.granted, Arena.held, hbase]
    exact hs

theorem vacantZero_granted (h : Arena.Inv capacity c.arena) (hzero : VacantZero capacity c)
    {layout : Layout} {r : Except AllocationError Excess} {a : ShmemAlloc}
    (hexcess : c.arena.alloc.allocExcess S layout = .ok (r, a)) :
    VacantZero capacity { c with arena := c.arena.granted layout r a } := by
  intro x hlow hvacant
  have hbase : (c.arena.granted layout r a).alloc.memoryBuffer = c.arena.alloc.memoryBuffer := by
    rw [← (granted_vacant h hexcess (k := 0)).1]
    cases r <;> rfl
  simp only [hbase] at hlow hvacant
  exact hzero x hlow ((granted_vacant h hexcess).2 hvacant)

/-- Deallocating keeps the buffer, and what it leaves vacant was vacant or part of the block. -/
theorem dealloc_vacant (h : Arena.Inv capacity c.arena) {b : Live} (hb : b ∈ c.arena.live)
    {layout : Layout} (halign : layout.align = b.layout.align)
    (hlow : b.layout.size ≤ layout.size)
    (hhigh : layout.size ≤ b.usable ∨ layout.size = b.layout.size) {a : ShmemAlloc} {k : ℕ}
    (hrun : c.arena.alloc.dealloc S b.ptr layout = .ok a) :
    a.memoryBuffer = c.arena.alloc.memoryBuffer ∧
      (Vacant (capacity / alignment) (Arena.held ⟨a, c.arena.live.erase b⟩) k →
        Vacant (capacity / alignment) c.arena.held k ∨
          (b.span c.arena.alloc.memoryBuffer).Contains k) := by
  have hbase : a.memoryBuffer = c.arena.alloc.memoryBuffer := by
    rcases h.dealloc_cases S hb halign hlow hhigh with ⟨-, hsame⟩ | ⟨j, v, -, -, hret, -⟩
    · cases hsame.symm.trans hrun
      rfl
    · cases hret.symm.trans hrun
      rfl
  -- a chunk that is vacant now and was not before belongs to the block that went
  refine ⟨hbase, fun hvacant => ?_⟩
  by_cases hin : (b.span c.arena.alloc.memoryBuffer).Contains k
  · exact Or.inr hin
  · refine Or.inl ⟨hvacant.1, fun hold => hvacant.2 ?_⟩
    obtain ⟨s, hs, hk⟩ := hold
    obtain ⟨b', hb', rfl⟩ := List.mem_map.mp hs
    have hne : b' ≠ b := fun heq => hin (heq ▸ hk)
    refine ⟨_, List.mem_map_of_mem ((List.mem_erase_of_ne hne).mpr hb'), ?_⟩
    rw [hbase]
    exact hk

/-- As long as blocks are zero when they are deallocated, the bytes between the blocks stay zero. -/
theorem Step.vacantZero (hstep : Step S c i c') (h : Arena.Inv capacity c.arena)
    (hzero : VacantZero capacity c) (hfrees : FreesZeroed c i) : VacantZero capacity c' := by
  cases hstep with
  | alloc _ hexcess => exact vacantZero_granted h hzero hexcess
  | allocZeroed _ hexcess => exact vacantZero_granted h hzero hexcess
  | allocExcess hexcess => exact vacantZero_granted h hzero hexcess
  | @dealloc b layout a hb halign hlow hhigh hrun =>
    intro x hx hvacant
    -- only the block that goes can add vacant bytes, and it is zero
    obtain ⟨hbase, hor⟩ := dealloc_vacant h hb halign hlow hhigh hrun
      (k := chunkOf c.arena.alloc.memoryBuffer x)
    simp only [hbase] at hx hvacant
    rcases hor hvacant with hold | hin
    · exact hzero x hx hold
    · exact hfrees x ((mem_bytes_iff h hb).mpr ⟨hx, hin⟩)
  | @write b address value hb hbytes =>
    intro x hx hvacant
    -- the byte that is written belongs to a block, so it is not vacant
    have hne : x ≠ address := by
      intro heq
      subst heq
      exact hvacant.2 ⟨_, List.mem_map_of_mem hb, ((mem_bytes_iff h hb).mp hbytes).2⟩
    simp only [if_neg hne]
    exact hzero x hx hvacant

theorem VacantZero.cleanGap (hzero : VacantZero capacity c) : CleanGap capacity c i := by
  cases i with
  | allocZeroed layout =>
    intro _ _ gap hbest x hlow hhigh
    apply hzero x (by omega)
    apply hbest.gap.vacant
    have hlong := hbest.long
    have hround := le_chunksFor_mul layout.size
    -- the bytes asked for lie in the first chunks of the gap
    simp only [Span.Contains, Span.stop, chunkOf, chunkSize, alignment] at *
    omega
  | alloc _ => trivial
  | allocExcess _ => trivial
  | dealloc _ _ => trivial
  | write _ _ _ => trivial

/-! ## Runs -/

/-- **When `alloc_zeroed` returns zeroed memory**: in a run from a zeroed buffer every block that it
returns is zero exactly when each call finds a best gap that begins with zeros. That is so in every
run in which blocks are zero when they are deallocated. -/
theorem alloc_zeroed_iff {c₀ : Contents} {tr : List (Contents × Access)}
    (hfresh : Fresh env S capacity c₀) (hrun : Run (Step S) c₀ tr c) :
    (Throughout (fun c i => ∀ c', Step S c i c' → ReturnsZeroed c i c') tr ↔
      Throughout (CleanGap capacity) tr) ∧
    (Throughout FreesZeroed tr → Throughout (CleanGap capacity) tr) := by
  have harena : Everywhere (fun c => Arena.Run env S capacity c.arena) tr c :=
    hrun.everywhere' hfresh.arena_run fun h hstep => hstep.arena_run h
  refine ⟨hrun.throughout_iff harena fun h hstep => returnsZeroed_iff h hstep, fun hfrees => ?_⟩
  have hzero : Everywhere (fun c => Arena.Run env S capacity c.arena ∧ VacantZero capacity c)
      tr c := by
    refine hrun.everywhere ⟨hfresh.arena_run, hfresh.vacantZero⟩ ?_ hfrees
    intro c i c' h hfrees hstep
    exact ⟨hstep.arena_run h.1, hstep.vacantZero h.1.inv h.2 hfrees⟩
  exact fun x hx => (hzero.2 x hx).2.cleanGap

/-- Eight bytes. -/
private def wordLayout : Layout := ⟨8, 8, ⟨3, rfl⟩, by decide⟩

/-- A buffer of eight bytes, all free. -/
private def emptyBuffer : Contents := ⟨⟨⟨⟨⟨1, [⟨⟨0⟩, 1⟩]⟩⟩, 4096⟩, []⟩, fun _ => 0⟩

private theorem emptyBuffer_fresh : Fresh Arena.exampleEnvironment .linear 8 emptyBuffer :=
  ⟨by decide, rfl, fun _ _ _ => rfl⟩

/-- The buffer with one block, in which the first byte was written. -/
private def written (value : UInt8) : Contents :=
  ⟨⟨⟨⟨⟨1, []⟩⟩, 4096⟩, [⟨4096, wordLayout, 8⟩]⟩, fun x => if x = 4096 then value else 0⟩

/-- The buffer after that block was deallocated. -/
private def reusable (value : UInt8) : Contents :=
  ⟨⟨⟨⟨⟨1, [⟨⟨0⟩, 1⟩]⟩⟩, 4096⟩, []⟩, fun x => if x = 4096 then value else 0⟩

private theorem dealloc_word :
    ShmemAlloc.dealloc .linear ⟨⟨⟨1, []⟩⟩, 4096⟩ 4096 wordLayout =
      .ok ⟨⟨⟨1, [⟨⟨0⟩, 1⟩]⟩⟩, 4096⟩ := by decide

/-- A block is taken, written, given back and taken again. -/
private theorem reuse_run (value : UInt8) :
    ∃ tr, Run (Step .linear) emptyBuffer tr (reusable value) ∧
      (value = 0 → Throughout FreesZeroed tr) := by
  have hblock : (⟨4096, wordLayout, 8⟩ : Live) ∈ [(⟨4096, wordLayout, 8⟩ : Live)] :=
    List.mem_cons_self
  have halloc : Step .linear emptyBuffer (.alloc wordLayout)
      ⟨⟨⟨⟨⟨1, []⟩⟩, 4096⟩, [⟨4096, wordLayout, 8⟩]⟩, fun _ => 0⟩ :=
    .alloc (r := .ok ⟨4096, 8⟩) (by decide) (by decide)
  have hwrite : Step .linear ⟨⟨⟨⟨⟨1, []⟩⟩, 4096⟩, [⟨4096, wordLayout, 8⟩]⟩, fun _ => 0⟩
      (.write ⟨4096, wordLayout, 8⟩ 4096 value) (written value) :=
    .write hblock ⟨le_rfl, by decide⟩
  have hdealloc : Step .linear (written value) (.dealloc ⟨4096, wordLayout, 8⟩ wordLayout)
      (reusable value) :=
    .dealloc hblock rfl le_rfl (Or.inr rfl) dealloc_word
  refine ⟨_, .next (.next (.next .start halloc) hwrite) hdealloc, fun hzero => ?_⟩
  subst hzero
  refine throughout_cons.mpr ⟨fun x _ => ?_, throughout_cons.mpr ⟨trivial,
    throughout_cons.mpr ⟨trivial, throughout_nil _⟩⟩⟩
  simp [written]

private theorem allocZeroed_word :
    ShmemAlloc.allocZeroed .linear ⟨⟨⟨1, [⟨⟨0⟩, 1⟩]⟩⟩, 4096⟩ wordLayout =
      .ok (.ok 4096, ⟨⟨⟨1, []⟩⟩, 4096⟩) := by decide

private theorem allocExcess_word :
    ShmemAlloc.allocExcess .linear ⟨⟨⟨1, [⟨⟨0⟩, 1⟩]⟩⟩, 4096⟩ wordLayout =
      .ok (.ok ⟨4096, 8⟩, ⟨⟨⟨1, []⟩⟩, 4096⟩) := by decide

/-- `alloc_zeroed` makes a block of the chunk that was given back, bytes and all. -/
private theorem reusable_allocZeroed (value : UInt8) :
    Step .linear (reusable value) (.allocZeroed wordLayout) (written value) :=
  .allocZeroed (r := .ok ⟨4096, 8⟩) allocZeroed_word allocExcess_word

/-- A block in which a zero was written is given back. The block that `alloc_zeroed` makes of the
same chunk is zero. -/
theorem alloc_zeroed_example :
    ∃ tr, Run (Step .linear) emptyBuffer ((reusable 0, .allocZeroed wordLayout) :: tr) (written 0) ∧
      Throughout (CleanGap 8) ((reusable 0, .allocZeroed wordLayout) :: tr) ∧
      ∀ x ∈ (⟨4096, wordLayout, 8⟩ : Live).bytes, (written 0).memory x = 0 := by
  obtain ⟨tr, hrun, hfrees⟩ := reuse_run 0
  have hagain := reusable_allocZeroed 0
  have hiff := alloc_zeroed_iff emptyBuffer_fresh (hrun.next hagain)
  have hclean : Throughout (CleanGap 8) ((reusable 0, .allocZeroed wordLayout) :: tr) :=
    hiff.2 (throughout_cons.mpr ⟨trivial, hfrees rfl⟩)
  refine ⟨tr, hrun.next hagain, hclean, fun x hx => ?_⟩
  -- the last call is one of those of the run, and it returned the block
  exact hiff.1.mpr hclean _ List.mem_cons_self _ hagain _ rfl x hx.1 hx.2

/-- A block with a one in it is given back, and comes out of `alloc_zeroed` as it is. -/
theorem alloc_zeroed_dirty :
    ¬ ∀ (env : Environment) (S : Superslice) (capacity : ℕ) (c₀ c : Contents)
      (tr : List (Contents × Access)), Fresh env S capacity c₀ → Run (Step S) c₀ tr c →
      Throughout (fun c i => ∀ c', Step S c i c' → ReturnsZeroed c i c') tr := by
  intro hall
  obtain ⟨tr, hrun, -⟩ := reuse_run 1
  have hagain := reusable_allocZeroed 1
  have hzeroed :=
    hall _ _ _ _ _ _ emptyBuffer_fresh (hrun.next hagain) _ List.mem_cons_self _ hagain
  have hone : (1 : UInt8) = 0 := hzeroed _ rfl 4096 (by decide) (by decide)
  exact absurd hone (by decide)

end Contents

end ShmemUtils.Allocator
