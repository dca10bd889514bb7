import ShmemUtils.Allocator.BestFit

/-!
# Self-checks of the free chunks manager

`free_space` and `self_check` of `src/allocator/chunks.rs`, which are compiled for its tests. In
every run that takes blocks of at least one byte and returns them, the self-check passes; and while
a free space is left, `free_space` is the greatest size that `get` can still serve. On an empty list
it reports 0, and a `get` of 0 bytes finds nothing.
-/

namespace ShmemUtils.Allocator

namespace Chunks

/-- How much space is available, in bytes. -/
def freeSpace (self : Chunks) : Checked ℕ :=
  Usize.mul ((self.freeChunks.items.getLast?.map FreeSpace.count).getD 0) chunkSize

/-- The first loop of `self_check`: neighbours in the list are in order. -/
def countsAscend : List FreeSpace → Bool
  | current :: next :: rest => decide (current.count ≤ next.count) && countsAscend (next :: rest)
  | _ => true

/-- One turn of its second loop: `left` against everything behind it. -/
def differsFrom (left : FreeSpace) : List FreeSpace → Checked Bool
  | [] => .ok true
  | right :: rest => do
    if left = right then return false
    else if ← FreeSpace.areContiguous left right then return false
    else differsFrom left rest

def allDiffer : List FreeSpace → Checked Bool
  | [] => .ok true
  | left :: rest => do
    if ← differsFrom left rest then allDiffer rest else return false

/-- `self_check`: whether all of its assertions hold. Of an empty list there is nothing to
assert. -/
def selfCheck (self : Chunks) : Checked Bool :=
  if countsAscend self.freeChunks.items then allDiffer self.freeChunks.items else .ok false

theorem countsAscend_of_pairwise {items : List FreeSpace}
    (h : items.Pairwise fun a b => a.count ≤ b.count) : countsAscend items = true := by
  induction items with
  | nil => rfl
  | cons current items ih =>
    obtain ⟨hcurrent, hrest⟩ := List.pairwise_cons.mp h
    cases items with
    | nil => rfl
    | cons next rest => simp [countsAscend, hcurrent next List.mem_cons_self, ih hrest]

theorem differsFrom_eq {left : FreeSpace} {items : List FreeSpace}
    (hleft : left.span.stop < usizeLimit)
    (h : ∀ right ∈ items, left ≠ right ∧ left.span.stop ≠ right.span.start) :
    differsFrom left items = .ok true := by
  induction items with
  | nil => rfl
  | cons right rest ih =>
    obtain ⟨hne, hstop⟩ := h right List.mem_cons_self
    have hrest := ih fun x hx => h x (List.mem_cons_of_mem _ hx)
    simp [differsFrom, hne, FreeSpace.areContiguous_eq hleft, hstop, hrest]

theorem allDiffer_eq {items : List FreeSpace} (hword : ∀ e ∈ items, e.span.stop < usizeLimit)
    (h : items.Pairwise fun left right => left ≠ right ∧ left.span.stop ≠ right.span.start) :
    allDiffer items = .ok true := by
  induction items with
  | nil => rfl
  | cons left rest ih =>
    obtain ⟨hleft, hrest⟩ := List.pairwise_cons.mp h
    have hdiffers := differsFrom_eq (hword left List.mem_cons_self) hleft
    simp [allDiffer, hdiffers, ih (fun e he => hword e (List.mem_cons_of_mem _ he)) hrest]

end Chunks

namespace FreeList

variable {N size : ℕ} {v : FixesSortedVec FreeSpace} {held : List Library.Span}

/-- The self-check passes on every manager that keeps its invariant. -/
theorem selfCheck_eq (h : FreeList N v held) : Chunks.selfCheck ⟨v⟩ = .ok true := by
  have hword : ∀ e ∈ v.items, e.span.stop < usizeLimit := fun e he =>
    lt_of_le_of_lt (h.stop_le he) h.word
  have hcounts : v.items.Pairwise fun a b => a.count ≤ b.count := by
    refine h.sorted.imp fun hab => ?_
    rcases FreeSpace.compare_isLE_iff.mp hab with hlt | ⟨heq, -⟩ <;> omega
  have hdiffer : v.items.Pairwise fun left right =>
      left ≠ right ∧ left.span.stop ≠ right.span.start := by
    refine h.nodup.imp₂ (fun left right hne hsep => ⟨hne, fun hstop => ?_⟩) h.coalesced
    exact hsep (Or.inl hstop)
  rw [Chunks.selfCheck, if_pos (Chunks.countsAscend_of_pairwise hcounts),
    Chunks.allDiffer_eq hword hdiffer]

/-- The last entry is a largest one. -/
theorem le_getLast (h : FreeList N v held) {last : FreeSpace} (hlast : v.items.getLast? = some last)
    {e : FreeSpace} (he : e ∈ v.items) : e.count ≤ last.count := by
  obtain ⟨items, hitems⟩ := List.getLast?_eq_some_iff.mp hlast
  have hsorted := h.sorted
  rw [hitems] at hsorted he
  rcases List.mem_append.mp he with he | he
  · have hle := (List.pairwise_append.mp hsorted).2.2 e he last List.mem_cons_self
    rcases FreeSpace.compare_isLE_iff.mp hle with hlt | ⟨heq, -⟩ <;> omega
  · rw [List.mem_singleton.mp he]

/-- What `free_space` reports, and what `get` makes of it: there is a free space that is large
enough exactly when the list is not empty and the size is at most what is reported. -/
theorem freeSpace_eq (h : FreeList N v held) (hbytes : N * chunkSize < usizeLimit) :
    ∃ bytes, Chunks.freeSpace ⟨v⟩ = .ok bytes ∧
      ∀ size, (∃ e ∈ v.items, chunksFor size ≤ e.count) ↔ v.items ≠ [] ∧ size ≤ bytes := by
  cases hlast : v.items.getLast? with
  | none =>
    have hnil : v.items = [] := List.getLast?_eq_none_iff.mp hlast
    refine ⟨0, by simp [Chunks.freeSpace, hnil, Usize.mul, usizeLimit], fun size => ?_⟩
    simp [hnil]
  | some last =>
    have hmem : last ∈ v.items := List.mem_of_getLast? hlast
    have hstop := h.stop_le hmem
    have hfits : last.count * chunkSize < usizeLimit := by
      rw [FreeSpace.span_stop] at hstop
      exact lt_of_le_of_lt (Nat.mul_le_mul_right chunkSize (by omega)) hbytes
    refine ⟨last.count * chunkSize, by simp [Chunks.freeSpace, hlast, Usize.mul_eq hfits],
      fun size => ?_⟩
    have hround : chunksFor size ≤ last.count ↔ size ≤ last.count * chunkSize := by
      simp only [chunksFor, chunkSize, alignment]
      omega
    rw [← hround]
    constructor
    · rintro ⟨e, he, hsize⟩
      exact ⟨List.ne_nil_of_mem he, hsize.trans (h.le_getLast hlast he)⟩
    · rintro ⟨-, hsize⟩
      exact ⟨last, hmem, hsize⟩

end FreeList

namespace Heap

variable {A : VecAllocator} {S : Superslice} {N : ℕ} {st : Heap}

/-- What a take of `size` bytes does where `bytes` are reported free. -/
def Expected (S : Superslice) (st : Heap) (bytes size : ℕ) : Prop :=
  if st.free ≠ [] ∧ size ≤ bytes then
    ∃ space chunks, st.chunks.get S size = .ok (some space, chunks) ∧
      size ≤ space.count * chunkSize ∧ space.count * chunkSize < size + chunkSize ∧
      chunks.selfCheck = .ok true
  else st.chunks.get S size = .ok (none, st.chunks)

theorem Inv.expected (h : Inv N st) {bytes size : ℕ}
    (hbytes : (∃ e ∈ st.free, chunksFor size ≤ e.count) ↔ st.free ≠ [] ∧ size ≤ bytes) :
    Expected S st bytes size := by
  unfold Expected
  split
  · next henough =>
    obtain ⟨e, he, hsize⟩ := hbytes.mpr henough
    rcases @get_spec N _ _ S size h.freeList with
      ⟨-, hshort⟩ | ⟨_, _, _, v', -, -, -, hsome, hinv⟩
    · exact absurd hsize (not_le.mpr (hshort e he))
    · refine ⟨_, _, hsome, le_chunksFor_mul size, ?_, hinv.selfCheck_eq⟩
      simp only [chunksFor, chunkSize, alignment]
      omega
  · next hshort =>
    rcases @get_spec N _ _ S size h.freeList with
      ⟨hnone, -⟩ | ⟨lo, e, hi, _, heq, -, hsize, -⟩
    · exact hnone
    · exact absurd (hbytes.mp ⟨e, by simp [free, heq], hsize⟩) hshort

/-- **The self-checks pass**, in every state that is reached by takes of at least one byte and by
returns, and after the next take or return; and the next take, of any size, succeeds exactly when a
free space is left and the size is at most what `free_space` reports. -/
theorem self_checks_pass (hN : 1 ≤ N) (hbytes : N * chunkSize < usizeLimit) (h : Run A S N st) :
    st.chunks.selfCheck = .ok true ∧
    (∃ bytes, st.chunks.freeSpace = .ok bytes ∧ ∀ size, Expected S st bytes size) ∧
    ∀ b ∈ st.handedOut, ∃ chunks,
      st.chunks.returnBack S (b.1.begin.chunks * chunkSize) b.2 = .ok chunks ∧
      chunks.selfCheck = .ok true := by
  have hword : N < usizeLimit := by
    have hle : N * 1 ≤ N * chunkSize := Nat.mul_le_mul_left N (by decide)
    omega
  have hinv := h.inv hN hword
  refine ⟨hinv.freeList.selfCheck_eq, ?_, fun b hb => ?_⟩
  · obtain ⟨bytes, hfree, hiff⟩ := hinv.freeList.freeSpace_eq hbytes
    exact ⟨bytes, hfree, fun size => hinv.expected (hiff size)⟩
  · obtain ⟨chunks, hret, hinv'⟩ := hinv.returnBack S hb
    exact ⟨chunks, hret, hinv'.freeList.selfCheck_eq⟩

/-- Six chunks, of which three and one were taken, and the three were returned. -/
private def checkedHeap : Heap :=
  ⟨⟨⟨6, [⟨⟨4⟩, 2⟩, ⟨⟨0⟩, 3⟩]⟩⟩, [(⟨⟨3⟩, 1⟩, 8)]⟩

private theorem checkedHeap_run : Run .exact .linear 6 checkedHeap := by
  have h₀ : Run .exact .linear 6 ⟨⟨⟨6, [⟨⟨0⟩, 6⟩]⟩⟩, []⟩ := .new (by decide)
  have h₁ : Run .exact .linear 6 ⟨⟨⟨6, [⟨⟨3⟩, 3⟩]⟩⟩, [(⟨⟨0⟩, 3⟩, 20)]⟩ :=
    .get h₀ (by decide) (by decide)
  have h₂ : Run .exact .linear 6 ⟨⟨⟨6, [⟨⟨4⟩, 2⟩]⟩⟩, [(⟨⟨3⟩, 1⟩, 8), (⟨⟨0⟩, 3⟩, 20)]⟩ :=
    .get h₁ (by decide) (by decide)
  exact .returnBack h₂ (List.mem_cons_of_mem _ List.mem_cons_self) (by decide)

/-- Twenty-four bytes are reported, and a take of so many succeeds. -/
theorem self_checks_pass_example :
    checkedHeap.chunks.selfCheck = .ok true ∧
    checkedHeap.chunks.freeSpace = .ok 24 ∧ Expected .linear checkedHeap 24 24 ∧
    ∃ chunks, checkedHeap.chunks.returnBack .linear 24 8 = .ok chunks ∧
      chunks.selfCheck = .ok true := by
  obtain ⟨hcheck, ⟨bytes, hfree, hexpected⟩, hreturn⟩ :=
    self_checks_pass (by decide) (by decide) checkedHeap_run
  have hbytes : bytes = 24 := by
    have hfree' : checkedHeap.chunks.freeSpace = .ok 24 := by decide
    rw [hfree'] at hfree
    cases hfree
    rfl
  subst hbytes
  exact ⟨hcheck, hfree, hexpected 24, hreturn (⟨⟨3⟩, 1⟩, 8) (by decide)⟩

end Heap

end ShmemUtils.Allocator
