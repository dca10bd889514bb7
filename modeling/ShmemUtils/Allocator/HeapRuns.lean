import ShmemUtils.Allocator.FreeList

/-!
# Runs of the free chunks manager

A run starts at `Chunks::new(N)` and takes and returns blocks in any order; a block can be returned
once, with the size it was asked for. The manager's invariant is carried along the whole run, and
read back as a partition of `[0, N)` into maximal free spaces and blocks that are handed out.
-/

namespace ShmemUtils.Allocator

open ShmemUtils.Library

/-- The manager, and the blocks it has handed out with the sizes they were asked for. -/
structure Heap where
  chunks : Chunks
  handedOut : List (FreeSpace × ℕ)
deriving DecidableEq, Repr

namespace Heap

variable {A : VecAllocator} {S : Superslice} {N : ℕ} {st : Heap}

def free (st : Heap) : List FreeSpace := st.chunks.freeChunks.items

def held (st : Heap) : List Span := st.handedOut.map fun b => b.1.span

/-- The states that a run of the manager over `N` chunks can reach. -/
inductive Run (A : VecAllocator) (S : Superslice) (N : ℕ) : Heap → Prop where
  | new {chunks : Chunks} :
      Chunks.new A S N = .ok (some chunks) → Run A S N ⟨chunks, []⟩
  | get {st : Heap} {size : ℕ} {space : FreeSpace} {chunks : Chunks} :
      Run A S N st → 1 ≤ size → st.chunks.get S size = .ok (some space, chunks) →
      Run A S N ⟨chunks, (space, size) :: st.handedOut⟩
  | getNone {st : Heap} {size : ℕ} {chunks : Chunks} :
      Run A S N st → 1 ≤ size → st.chunks.get S size = .ok (none, chunks) →
      Run A S N ⟨chunks, st.handedOut⟩
  | returnBack {st : Heap} {block : FreeSpace × ℕ} {chunks : Chunks} :
      Run A S N st → block ∈ st.handedOut →
      st.chunks.returnBack S (block.1.begin.chunks * chunkSize) block.2 = .ok chunks →
      Run A S N ⟨chunks, st.handedOut.erase block⟩

/-- What a run preserves: the free list against the handed-out blocks, and that every block has
the chunks its size asks for. -/
structure Inv (N : ℕ) (st : Heap) : Prop where
  freeList : FreeList N st.chunks.freeChunks st.held
  blocks : ∀ b ∈ st.handedOut, 0 < b.1.count ∧ chunksFor b.2 = b.1.count

private theorem held_erase {st : Heap} {block : FreeSpace × ℕ} (h : block ∈ st.handedOut) :
    st.held.Perm (block.1.span :: (st.handedOut.erase block).map fun b => b.1.span) :=
  (List.perm_cons_erase h).map fun b : FreeSpace × ℕ => b.1.span

/-- Returning a handed-out block succeeds and keeps the invariant. -/
theorem Inv.returnBack (h : Inv N st) (S : Superslice) {block : FreeSpace × ℕ}
    (hb : block ∈ st.handedOut) :
    ∃ chunks, st.chunks.returnBack S (block.1.begin.chunks * chunkSize) block.2 = .ok chunks ∧
      Inv N ⟨chunks, st.handedOut.erase block⟩ := by
  obtain ⟨hpos, hsize⟩ := h.blocks block hb
  obtain ⟨v', hret, hinv⟩ :=
    returnBack_spec S (h.freeList.perm_held (held_erase hb)) hpos hsize
  exact ⟨⟨v'⟩, hret, hinv, fun b hmem => h.blocks b (List.mem_of_mem_erase hmem)⟩

/-- Asking for a block succeeds and keeps the invariant, whether one is found or not. -/
theorem Inv.get (h : Inv N st) (S : Superslice) {size : ℕ} (hsize : 1 ≤ size) :
    (st.chunks.get S size = .ok (none, st.chunks)) ∨
    ∃ space chunks, st.chunks.get S size = .ok (some space, chunks) ∧
      Inv N ⟨chunks, (space, size) :: st.handedOut⟩ := by
  rcases get_spec S h.freeList with ⟨hnone, -⟩ | ⟨lo, e, hi, v', -, -, -, hsome, hinv⟩
  · exact Or.inl hnone
  · refine Or.inr ⟨_, _, hsome, hinv, ?_⟩
    intro b hb
    rcases List.mem_cons.mp hb with rfl | hb
    · exact ⟨chunksFor_pos hsize, rfl⟩
    · exact h.blocks b hb

/-- The invariant holds in every state of every run. -/
theorem Run.inv (hN : 1 ≤ N) (hword : N < usizeLimit) (h : Run A S N st) : Inv N st := by
  induction h with
  -- one free space, or no memory for the list and no manager
  | new hnew =>
    rcases new_spec A S hN hword with hnone | ⟨v, hsome, hinv⟩
    · rw [hnone] at hnew
      cases hnew
    · rw [hsome] at hnew
      cases hnew
      exact ⟨hinv, by simp⟩
  -- the operation is a function: what it did is what the lemma about it says
  | @get st size space chunks _ hsize hget ih =>
    rcases ih.get S hsize with hnone | ⟨space', chunks', hsome, hinv⟩
    · rw [hnone] at hget
      cases hget
    · rw [hsome] at hget
      cases hget
      exact hinv
  | @getNone st size chunks _ hsize hget ih =>
    rcases ih.get S hsize with hnone | ⟨space', chunks', hsome, hinv⟩
    · rw [hnone] at hget
      cases hget
      exact ih
    · rw [hsome] at hget
      cases hget
  | @returnBack st block chunks _ hb hret ih =>
    obtain ⟨chunks', hret', hinv⟩ := ih.returnBack S hb
    rw [hret'] at hret
    cases hret
    exact hinv

/-! ## The partition -/

/-- The chunks `[0, N)`, partitioned into sorted, maximal free spaces and handed-out blocks. -/
structure Partitioned (N : ℕ) (st : Heap) : Prop where
  inside : ∀ e ∈ st.free, 1 ≤ e.count ∧ e.begin.chunks + e.count ≤ N
  sorted : st.free.Pairwise fun a b =>
    a.count < b.count ∨ a.count = b.count ∧ a.begin.chunks ≤ b.begin.chunks
  disjoint : st.free.Pairwise fun a b =>
    a.begin.chunks + a.count ≤ b.begin.chunks ∨ b.begin.chunks + b.count ≤ a.begin.chunks
  coalesced : st.free.Pairwise fun a b =>
    a.begin.chunks + a.count ≠ b.begin.chunks ∧ b.begin.chunks + b.count ≠ a.begin.chunks
  tiled : Tiles N (st.free.map FreeSpace.span ++ st.handedOut.map fun b => b.1.span)

theorem Inv.partitioned (h : Inv N st) : Partitioned N st where
  inside e he := ⟨h.freeList.positive e he, h.freeList.stop_le he⟩
  sorted := h.freeList.sorted.imp fun hab => FreeSpace.compare_isLE_iff.mp hab
  disjoint := h.freeList.pairwise_apart
  coalesced := h.freeList.coalesced.imp fun hab =>
    ⟨fun heq => hab (Or.inl heq), fun heq => hab (Or.inr heq)⟩
  tiled := h.freeList.tiles

/-- **Heap partition**: in every state of every run of `Chunks` over `N` chunks, free spaces and
handed-out blocks tile `[0, N)`, the free ones sorted and nowhere adjacent; and no operation that
the run may do next panics. -/
theorem heap_partition (hN : 1 ≤ N) (hword : N < usizeLimit) (h : Run A S N st) :
    Partitioned N st ∧
    (∀ size, 1 ≤ size → ∃ r, st.chunks.get S size = .ok r) ∧
    ∀ b ∈ st.handedOut, ∃ chunks,
      st.chunks.returnBack S (b.1.begin.chunks * chunkSize) b.2 = .ok chunks := by
  have hinv := h.inv hN hword
  refine ⟨hinv.partitioned, ?_, ?_⟩
  · intro size hsize
    rcases hinv.get S hsize with hnone | ⟨space, chunks, hsome, -⟩
    · exact ⟨_, hnone⟩
    · exact ⟨_, hsome⟩
  · intro b hb
    obtain ⟨chunks, hret, -⟩ := hinv.returnBack S hb
    exact ⟨chunks, hret⟩

/-- Taking two chunks and then one out of four, and returning the first block. -/
private def exampleHeap : Heap :=
  ⟨⟨⟨4, [⟨⟨3⟩, 1⟩, ⟨⟨0⟩, 2⟩]⟩⟩, [(⟨⟨2⟩, 1⟩, 8)]⟩

private theorem exampleHeap_run : Run .exact .linear 4 exampleHeap := by
  have h₀ : Run .exact .linear 4 ⟨⟨⟨4, [⟨⟨0⟩, 4⟩]⟩⟩, []⟩ := .new (by decide)
  have h₁ : Run .exact .linear 4 ⟨⟨⟨4, [⟨⟨2⟩, 2⟩]⟩⟩, [(⟨⟨0⟩, 2⟩, 9)]⟩ :=
    .get h₀ (by decide) (by decide)
  have h₂ : Run .exact .linear 4 ⟨⟨⟨4, [⟨⟨3⟩, 1⟩]⟩⟩, [(⟨⟨2⟩, 1⟩, 8), (⟨⟨0⟩, 2⟩, 9)]⟩ :=
    .get h₁ (by decide) (by decide)
  have hback : ((⟨⟨0⟩, 2⟩, 9) : FreeSpace × ℕ) ∈
      [((⟨⟨2⟩, 1⟩, 8) : FreeSpace × ℕ), (⟨⟨0⟩, 2⟩, 9)] := by decide
  exact .returnBack h₂ hback (by decide)

theorem heap_partition_example : Partitioned 4 exampleHeap :=
  (heap_partition (by decide) (by decide) exampleHeap_run).1

end Heap

end ShmemUtils.Allocator
