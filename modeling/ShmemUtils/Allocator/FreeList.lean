import ShmemUtils.Allocator.Chunks

/-!
# The free list partitions the heap

`FreeList N v held` is the invariant of the manager: its entries are non-empty, sorted and nowhere
adjacent, and together with the spans `held` by somebody else they tile `[0, N)`. A block on its
way back into the list counts as held until it is pushed, so that merging it with a neighbour is
one step of arithmetic on the tiling (`Tiles.join`), whichever neighbour is found first.

- `insertChunkAndMerge_spec`: a held block goes back into the list.
- `get_spec`: a block of the required count leaves the list, or no entry is large enough.
- `returnBack_spec`: bytes to chunks, and back into the list.
-/

namespace ShmemUtils.Allocator

open ShmemUtils.Library

/-- The number of chunks that hold `size` bytes: the quotient, rounded up. -/
def chunksFor (size : ℕ) : ℕ := (size + (chunkSize - 1)) / chunkSize

theorem chunksFor_pos {size : ℕ} (h : 0 < size) : 0 < chunksFor size := by
  simp only [chunksFor, chunkSize, alignment]
  omega

theorem le_chunksFor_mul (size : ℕ) : size ≤ chunksFor size * chunkSize := by
  simp only [chunksFor, chunkSize, alignment]
  omega

/-- Both places that round up agree: `get` and `return_back` fail only beyond the word. -/
theorem roundUp_eq (size : ℕ) :
    (if size % chunkSize = 0 then some (size / chunkSize)
      else Usize.checkedAdd (size / chunkSize) 1) = some (chunksFor size) ∨
    (if size % chunkSize = 0 then some (size / chunkSize)
      else Usize.checkedAdd (size / chunkSize) 1) = none ∧ usizeLimit ≤ chunksFor size := by
  by_cases hmod : size % chunkSize = 0
  · left
    rw [if_pos hmod]
    simp only [chunksFor, chunkSize, alignment] at *
    congr 1
    omega
  · have hceil : chunksFor size = size / chunkSize + 1 := by
      simp only [chunksFor, chunkSize, alignment] at *
      omega
    rw [if_neg hmod, hceil, Usize.checkedAdd]
    split
    · exact Or.inl rfl
    · exact Or.inr ⟨rfl, by omega⟩

/-- The two spaces are not adjacent, so there is nothing to coalesce. -/
def Separate (a b : FreeSpace) : Prop := ¬ a.span.Adjacent b.span

theorem Separate.symm {a b : FreeSpace} (h : Separate a b) : Separate b a :=
  fun hadj => h hadj.symm

instance : Std.TransOrd FreeSpace :=
  inferInstanceAs (Std.TransCmp (compareLex (compareOn FreeSpace.count)
    (compareOn fun s : FreeSpace => s.relativeBeginning.chunks)))

/-- The manager's invariant, relative to the spans that are held outside of its list. -/
structure FreeList (N : ℕ) (v : FixesSortedVec FreeSpace) (held : List Span) : Prop where
  positive : ∀ e ∈ v.items, 0 < e.count
  sorted : FixesSortedVec.Sorted v.items
  coalesced : v.items.Pairwise Separate
  tiles : Tiles N (v.items.map FreeSpace.span ++ held)
  room : N ≤ v.capacity
  word : N < usizeLimit

namespace FreeList

variable {N : ℕ} {v : FixesSortedVec FreeSpace} {held held' : List Span} {chunk : FreeSpace}

theorem perm_held (h : FreeList N v held) (hp : held.Perm held') : FreeList N v held' :=
  { h with tiles := h.tiles.perm (hp.append_left _) }

/-- Only the cover of the held spans matters. -/
theorem of_tiles (h : FreeList N v held) (ht : Tiles N (v.items.map FreeSpace.span ++ held')) :
    FreeList N v held' :=
  { h with tiles := ht }

theorem stop_le (h : FreeList N v held) {e : FreeSpace} (he : e ∈ v.items) : e.span.stop ≤ N :=
  h.tiles.stop_le (List.mem_append_left _ (List.mem_map_of_mem he)) (h.positive e he)

theorem held_stop_le (h : FreeList N v held) {s : Span} (hs : s ∈ held) (hpos : 0 < s.len) :
    s.stop ≤ N :=
  h.tiles.stop_le (List.mem_append_right _ hs) hpos

/-- A free entry and a held span share no chunk. -/
theorem apart_held (h : FreeList N v held) {e : FreeSpace} (he : e ∈ v.items) {s : Span}
    (hs : s ∈ held) (hpos : 0 < s.len) : e.span.Apart s := by
  by_contra hna
  obtain ⟨i, hei, hsi⟩ := Span.exists_contains_of_not_apart (h.positive e he) hpos hna
  have hle := h.tiles.cover_le_one i
  have hfree : 0 < cover (v.items.map FreeSpace.span) i :=
    cover_pos_iff.mpr ⟨e.span, List.mem_map_of_mem he, hei⟩
  have hheld : 0 < cover held i := cover_pos_iff.mpr ⟨s, hs, hsi⟩
  rw [cover_append] at hle
  omega

theorem pairwise_apart (h : FreeList N v held) :
    v.items.Pairwise fun a b => a.span.Apart b.span := by
  have hc : ∀ i, cover (v.items.map FreeSpace.span) i ≤ 1 := fun i => by
    have := h.tiles.cover_le_one i
    rw [cover_append] at this
    omega
  have hp : ∀ s ∈ v.items.map FreeSpace.span, 0 < s.len := by
    intro s hs
    obtain ⟨e, he, rfl⟩ := List.mem_map.mp hs
    exact h.positive e he
  exact List.pairwise_map.mp (pairwise_apart_of_cover_le_one hc hp)

/-- With a non-empty chunk outside, the list has room for one more entry. -/
theorem length_lt_capacity (h : FreeList N v (chunk.span :: held)) (hpos : 0 < chunk.count) :
    v.items.length < v.capacity := by
  have hstop : ∀ s ∈ chunk.span :: v.items.map FreeSpace.span, s.stop ≤ N := by
    intro s hs
    rcases List.mem_cons.mp hs with rfl | hs
    · exact h.held_stop_le List.mem_cons_self hpos
    · obtain ⟨e, he, rfl⟩ := List.mem_map.mp hs
      exact h.stop_le he
  have hcover : ∀ i, cover (chunk.span :: v.items.map FreeSpace.span) i ≤ 1 := by
    intro i
    have := h.tiles.cover_le_one i
    rw [cover_append, cover_cons] at this
    rw [cover_cons]
    omega
  have hlen : ∀ s ∈ chunk.span :: v.items.map FreeSpace.span, 0 < s.len := by
    intro s hs
    rcases List.mem_cons.mp hs with rfl | hs
    · exact hpos
    · obtain ⟨e, he, rfl⟩ := List.mem_map.mp hs
      exact h.positive e he
  have hle := length_le hstop hcover hlen
  have hroom := h.room
  simp only [List.length_cons, List.length_map] at hle
  omega

/-- Taking an entry out hands it to the outside. -/
theorem take {c : ℕ} {lo hi : List FreeSpace} {e : FreeSpace}
    (h : FreeList N ⟨c, lo ++ e :: hi⟩ held) : FreeList N ⟨c, lo ++ hi⟩ (e.span :: held) := by
  have hsub : (lo ++ hi).Sublist (lo ++ e :: hi) :=
    (List.Sublist.refl lo).append (List.sublist_cons_self e hi)
  refine ⟨fun x hx => h.positive x (hsub.subset hx), h.sorted.sublist hsub,
    h.coalesced.sublist hsub, h.tiles.perm ?_, h.room, h.word⟩
  simp only [List.map_append, List.map_cons, List.append_assoc, List.cons_append]
  -- the entry moves past the rest of the list, to the front of the held spans
  exact List.Perm.append_left _ (List.perm_middle.symm)

/-- A held span can be cut in two. -/
theorem cut_held {e : FreeSpace} {k : ℕ} (h : FreeList N v (e.span :: held)) (hk : k ≤ e.count) :
    FreeList N v (⟨e.relativeBeginning.chunks + k, e.count - k⟩ ::
      ⟨e.relativeBeginning.chunks, k⟩ :: held) := by
  have he : e.span = ⟨e.relativeBeginning.chunks, k + (e.count - k)⟩ := by
    rw [FreeSpace.span, Span.mk.injEq]
    omega
  have hwhole := h.tiles.perm List.perm_middle
  rw [he] at hwhole
  -- both parts move past the free spaces, where the second one comes first
  refine h.of_tiles (hwhole.cut.perm ((List.Perm.swap _ _ _).trans ?_))
  exact (List.Perm.cons _ List.perm_middle.symm).trans List.perm_middle.symm

/-- Releasing a held span makes exactly its chunks free. -/
theorem positions_release {v' : FixesSortedVec FreeSpace} {s : Span}
    (h : FreeList N v (s :: held)) (h' : FreeList N v' held) :
    positions (v'.items.map FreeSpace.span) =
      positions (v.items.map FreeSpace.span) ∪ {i | s.Contains i} := by
  ext i
  have hbefore := h.tiles i
  have hafter := h'.tiles i
  rw [cover_append, cover_cons] at hbefore
  rw [cover_append] at hafter
  rw [Set.mem_union, mem_positions_iff, mem_positions_iff, Set.mem_ofPred_eq]
  by_cases hs : s.Contains i
  · rw [if_pos hs] at hbefore
    simp only [hs, or_true, iff_true]
    omega
  · rw [if_neg hs] at hbefore
    simp only [hs, or_false]
    omega

end FreeList

/-! ## Merging -/

/-- What a merge yields covers exactly what the two merged spaces covered. -/
theorem merge_tiles {N : ℕ} {e chunk merged : FreeSpace} {l : List Span}
    (ht : Tiles N (e.span :: chunk.span :: l)) (he : e.span.stop < usizeLimit)
    (hc : chunk.span.stop < usizeLimit) (hcount : e.count + chunk.count < usizeLimit)
    (hm : e.merge chunk = .ok (some merged)) :
    Tiles N (merged.span :: l) ∧ merged.count = e.count + chunk.count := by
  rw [FreeSpace.merge_eq he hc hcount, Except.ok.injEq] at hm
  split at hm
  · next hadj =>
    obtain rfl := Option.some.inj hm
    refine ⟨Tiles.join (a := e.count) (b := chunk.count) ?_, rfl⟩
    have hchunk : chunk.span = ⟨e.relativeBeginning.chunks + e.count, chunk.count⟩ := by
      rw [← FreeSpace.span_stop, hadj]
      rfl
    rw [← hchunk]
    exact ht
  · split at hm
    · next hadj =>
      obtain rfl := Option.some.inj hm
      refine ⟨?_, rfl⟩
      have he' : e.span = ⟨chunk.relativeBeginning.chunks + chunk.count, e.count⟩ := by
        rw [← FreeSpace.span_stop, hadj]
        rfl
      have hswap : Tiles N (chunk.span :: e.span :: l) := ht.perm (List.Perm.swap _ _ _)
      rw [he'] at hswap
      have hjoin := hswap.join
      rw [Nat.add_comm] at hjoin
      exact hjoin
    · simp at hm

/-- `find_and_merge` finds a free chunk that merges, or there is no adjacent one. -/
theorem findAndMerge_spec (chunk : FreeSpace) (hc : chunk.span.stop < usizeLimit) :
    ∀ {items : List FreeSpace},
      (∀ e ∈ items, e.span.stop < usizeLimit ∧ e.count + chunk.count < usizeLimit) →
      (Chunks.findAndMerge items chunk = .ok none ∧ ∀ e ∈ items, Separate e chunk) ∨
      ∃ lo e hi merged, items = lo ++ e :: hi ∧ e.merge chunk = .ok (some merged) ∧
        Chunks.findAndMerge items chunk = .ok (some (lo.length, merged))
  | [], _ => Or.inl ⟨rfl, by simp⟩
  | e :: items, hw => by
    obtain ⟨he, hcount⟩ := hw e List.mem_cons_self
    have hmerge := FreeSpace.merge_eq he hc hcount
    by_cases hadj : e.span.Adjacent chunk.span
    · right
      -- adjacent on one side or the other, so this entry is the one that merges
      obtain ⟨merged, hsome⟩ : ∃ merged, e.merge chunk = .ok (some merged) := by
        rw [hmerge]
        rcases hadj with hadj | hadj
        · exact ⟨_, by rw [if_pos hadj]⟩
        · by_cases hfirst : e.span.stop = chunk.span.start
          · exact ⟨_, by rw [if_pos hfirst]⟩
          · exact ⟨_, by rw [if_neg hfirst, if_pos hadj]⟩
      exact ⟨[], e, items, merged, rfl, hsome, by simp [Chunks.findAndMerge, hsome]⟩
    · have hnone : e.merge chunk = .ok none := by
        rw [hmerge, if_neg fun h => hadj (Or.inl h), if_neg fun h => hadj (Or.inr h)]
      rcases findAndMerge_spec chunk hc fun x hx => hw x (List.mem_cons_of_mem _ hx) with
        ⟨hrest, hsep⟩ | ⟨lo, x, hi, merged, rfl, hx, hrest⟩
      · left
        refine ⟨by simp [Chunks.findAndMerge, hnone, hrest], ?_⟩
        intro x hx
        rcases List.mem_cons.mp hx with rfl | hx
        · exact hadj
        · exact hsep x hx
      · right
        exact ⟨e :: lo, x, hi, merged, rfl, hx, by simp [Chunks.findAndMerge, hnone, hrest]⟩

/-- The loop ends with a chunk that is adjacent to nothing that is left in the list. -/
theorem mergeWhileAdjacent_spec {N : ℕ} {held : List Span} :
    ∀ (turns : ℕ) {v : FixesSortedVec FreeSpace} {chunk : FreeSpace},
      v.items.length ≤ turns → FreeList N v (chunk.span :: held) → 0 < chunk.count →
      ∃ v' chunk', Chunks.mergeWhileAdjacent turns v chunk = .ok (v', chunk') ∧
        FreeList N v' (chunk'.span :: held) ∧ 0 < chunk'.count ∧
        ∀ e ∈ v'.items, Separate e chunk'
  | 0, v, chunk, hlen, h, hpos => by
    have hnil : v.items = [] := List.eq_nil_of_length_eq_zero (by omega)
    exact ⟨v, chunk, rfl, h, hpos, by simp [hnil]⟩
  | turns + 1, ⟨c, items⟩, chunk, hlen, h, hpos => by
    have hchunk : chunk.span.stop ≤ N := h.held_stop_le List.mem_cons_self hpos
    have hword := h.word
    have hw : ∀ e ∈ items, e.span.stop < usizeLimit ∧ e.count + chunk.count < usizeLimit := by
      intro e he
      have hstop := h.stop_le he
      have hapart := h.apart_held he (List.mem_cons_self) hpos
      simp only [Span.Apart, FreeSpace.span_stop, FreeSpace.span_start] at hapart hstop hchunk ⊢
      omega
    rcases findAndMerge_spec chunk (by omega) hw with
      ⟨hfind, hsep⟩ | ⟨lo, e, hi, merged, rfl, hmerge, hfind⟩
    · exact ⟨⟨c, items⟩, chunk, by simp [Chunks.mergeWhileAdjacent, hfind], h, hpos, hsep⟩
    · obtain ⟨he, hcount⟩ := hw e (by simp)
      have htaken := h.take
      obtain ⟨htiles, hmcount⟩ :=
        merge_tiles (l := (lo ++ hi).map FreeSpace.span ++ held)
          (htaken.tiles.perm (by
            refine List.perm_middle.trans (List.Perm.cons _ ?_)
            exact List.perm_middle))
          he (by omega) hcount hmerge
      have hnext : FreeList N ⟨c, lo ++ hi⟩ (merged.span :: held) :=
        htaken.of_tiles (htiles.perm List.perm_middle.symm)
      obtain ⟨v', chunk', hrun, hinv, hpos', hsep⟩ :=
        mergeWhileAdjacent_spec turns (by simp at hlen ⊢; omega) hnext (by omega)
      refine ⟨v', chunk', ?_, hinv, hpos', hsep⟩
      simp [Chunks.mergeWhileAdjacent, hfind, FixesSortedVec.pop_append, hrun]

/-- Pushing a chunk that is adjacent to no entry. -/
theorem push_spec {N : ℕ} {held : List Span} {v : FixesSortedVec FreeSpace} {chunk : FreeSpace}
    (S : Superslice) (h : FreeList N v (chunk.span :: held)) (hpos : 0 < chunk.count)
    (hsep : ∀ e ∈ v.items, Separate e chunk) :
    ∃ v', v.push S chunk = .ok v' ∧ FreeList N v' held := by
  obtain ⟨lo, hi, heq, hpush, hsorted⟩ :=
    FixesSortedVec.push_eq S chunk h.sorted (h.length_lt_capacity hpos)
  refine ⟨_, hpush, ?_, hsorted, ?_, ?_, h.room, h.word⟩
  · intro e he
    rcases List.mem_append.mp he with he | he
    · exact h.positive e (by simp [heq, he])
    · rcases List.mem_cons.mp he with rfl | he
      · exact hpos
      · exact h.positive e (by simp [heq, he])
  · apply pairwise_insert_of_symm Separate.symm
    · rw [← heq]
      exact h.coalesced
    · intro e he
      exact (hsep e (heq ▸ he)).symm
  · have htiles := h.tiles
    rw [heq] at htiles
    refine htiles.perm ?_
    simp only [List.map_append, List.map_cons, List.append_assoc, List.cons_append]
    exact List.Perm.append_left _ List.perm_middle

/-- **Putting a block back**: whatever merges on the way, the held block becomes free. -/
theorem insertChunkAndMerge_spec {N : ℕ} {held : List Span} {v : FixesSortedVec FreeSpace}
    {chunk : FreeSpace} (S : Superslice) (h : FreeList N v (chunk.span :: held))
    (hpos : 0 < chunk.count) :
    ∃ v', Chunks.insertChunkAndMerge S ⟨v⟩ chunk = .ok ⟨v'⟩ ∧ FreeList N v' held := by
  unfold Chunks.insertChunkAndMerge
  by_cases hnil : v.items = []
  · obtain ⟨v', hpush, hinv⟩ := push_spec S h hpos (by simp [hnil])
    exact ⟨v', by simp [hnil, hpush], hinv⟩
  · obtain ⟨v₁, chunk₁, hrun, hinv₁, hpos₁, hsep₁⟩ :=
      mergeWhileAdjacent_spec v.items.length (le_refl _) h hpos
    obtain ⟨v', hpush, hinv⟩ := push_spec S hinv₁ hpos₁ hsep₁
    exact ⟨v', by simp [hnil, hrun, hpush], hinv⟩

/-! ## The operations -/

/-- **A new manager** is one free space; it fails only when the vector cannot be allocated. -/
theorem new_spec {N : ℕ} (A : VecAllocator) (S : Superslice) (hN : 0 < N)
    (hword : N < usizeLimit) :
    Chunks.new A S N = .ok none ∨
      ∃ v, Chunks.new A S N = .ok (some ⟨v⟩) ∧ FreeList N v [] := by
  unfold Chunks.new FixesSortedVec.new
  cases hcap : A.withCapacityIn N with
  | none => exact Or.inl rfl
  | some c =>
    right
    let whole : FreeSpace := ⟨RelativeBeginning.zero, N⟩
    have hempty : FreeList N ⟨c, []⟩ [whole.span] :=
      ⟨by simp, List.Pairwise.nil, List.Pairwise.nil, tiles_single N, A.capacity_ge hcap, hword⟩
    obtain ⟨v, hpush, hinv⟩ := push_spec S hempty hN (by simp)
    refine ⟨v, ?_, hinv⟩
    simp only [Option.map_some, FreeSpace.new_eq hN, checked_ok_bind]
    rw [hpush]
    rfl

private theorem pairwise_count_le {items : List FreeSpace} (h : FixesSortedVec.Sorted items) :
    items.Pairwise fun a b => a.count ≤ b.count := by
  refine h.imp ?_
  intro a b hab
  rcases FreeSpace.compare_isLE_iff.mp hab with hlt | ⟨heq, -⟩ <;> omega

/-- Where the search for `k` chunks splits the list: what stands before is too short, the rest is
not. -/
theorem FreeList.lowerBoundBy_count {N k : ℕ} {held : List Span} {v : FixesSortedVec FreeSpace}
    (S : Superslice) (h : FreeList N v held) :
    ∃ lo hi, v.items = lo ++ hi ∧ (∀ e ∈ lo, e.count < k) ∧ (∀ e ∈ hi, k ≤ e.count) ∧
      S.lowerBoundBy v.items (fun e => compare e.count k) = lo.length := by
  have hmono : v.items.Pairwise fun a b =>
      (compare b.count k == .lt) = true → (compare a.count k == .lt) = true := by
    refine (pairwise_count_le h.sorted).imp ?_
    intro a b hab hb
    rw [beq_iff_eq, Nat.compare_eq_lt] at hb ⊢
    omega
  obtain ⟨lo, hi, heq, hlo, hhi⟩ :=
    exists_partition (fun e : FreeSpace => compare e.count k == .lt) hmono
  refine ⟨lo, hi, heq, fun e he => ?_, fun e he => ?_, ?_⟩
  · simpa [Nat.compare_eq_lt] using hlo e he
  · simpa [Nat.compare_eq_lt] using hhi e he
  · rw [heq]
    exact S.lowerBoundBy_eq lo hi _ (fun e he => by simpa using hlo e he)
      fun e he => by simpa using hhi e he

/-- **Taking a block**: either every entry is too small and nothing changes, or a block of exactly
the required count is cut from the front of the first entry that is large enough. -/
theorem get_spec {N : ℕ} {held : List Span} {v : FixesSortedVec FreeSpace} (S : Superslice)
    {size : ℕ} (h : FreeList N v held) :
    (Chunks.get S ⟨v⟩ size = .ok (none, ⟨v⟩) ∧ ∀ e ∈ v.items, e.count < chunksFor size) ∨
    ∃ lo e hi v', v.items = lo ++ e :: hi ∧ (∀ x ∈ lo, x.count < chunksFor size) ∧
      chunksFor size ≤ e.count ∧
      Chunks.get S ⟨v⟩ size = .ok (some ⟨e.relativeBeginning, chunksFor size⟩, ⟨v'⟩) ∧
      FreeList N v' (⟨e.relativeBeginning.chunks, chunksFor size⟩ :: held) := by
  have hword := h.word
  rcases roundUp_eq size with hround | ⟨hround, hbig⟩
  · obtain ⟨lo, hi, heq, hlo, hhi, hidx⟩ := h.lowerBoundBy_count S (k := chunksFor size)
    cases hi with
    | nil =>
      left
      rw [List.append_nil] at heq
      refine ⟨?_, heq ▸ hlo⟩
      simp only [Chunks.get, hround, hidx]
      rw [if_pos (by rw [heq])]
    | cons e hi =>
      right
      have hge : chunksFor size ≤ e.count := hhi e List.mem_cons_self
      obtain ⟨c, items⟩ := v
      subst heq
      have hstop : e.span.stop ≤ N := h.stop_le (by simp)
      have hlt : ¬ lo.length ≥ (lo ++ e :: hi).length := by simp
      have hpop := FixesSortedVec.pop_append c lo hi e
      rcases Nat.lt_or_eq_of_le hge with hgt | heqc
      · -- the entry is larger: the rest goes back into the list
        have hsplit := FreeSpace.split_eq_some hgt (by omega)
        let unused : FreeSpace :=
          ⟨⟨e.relativeBeginning.chunks + chunksFor size⟩, e.count - chunksFor size⟩
        have hcut : FreeList N ⟨c, lo ++ hi⟩
            (unused.span :: ⟨e.relativeBeginning.chunks, chunksFor size⟩ :: held) :=
          h.take.cut_held hge
        obtain ⟨v', hins, hinv⟩ := insertChunkAndMerge_spec S hcut (Nat.sub_pos_of_lt hgt)
        refine ⟨lo, e, hi, v', rfl, hlo, hge, ?_, hinv⟩
        simp only [Chunks.get, hround, hidx]
        rw [if_neg hlt, hpop]
        simp only [checked_ok_bind, hsplit]
        rw [hins]
        rfl
      · -- the entry is taken whole
        refine ⟨lo, e, hi, ⟨c, lo ++ hi⟩, rfl, hlo, hge, ?_, ?_⟩
        · simp only [Chunks.get, hround, hidx]
          rw [if_neg hlt, hpop, heqc]
          simp only [checked_ok_bind, FreeSpace.split_eq_none]
          rfl
        · rw [heqc]
          exact h.take
  · -- more chunks than a word can count, so more than any entry has
    left
    refine ⟨by simp only [Chunks.get, hround], ?_⟩
    intro e he
    have hstop := h.stop_le he
    rw [FreeSpace.span_stop] at hstop
    omega

/-- **Returning a block**: any size that rounds up to the block's own count frees exactly its
chunks. -/
theorem returnBack_spec {N : ℕ} {held : List Span} {v : FixesSortedVec FreeSpace}
    (S : Superslice) {block : Span} {size : ℕ} (h : FreeList N v (block :: held))
    (hpos : 0 < block.len) (hsize : chunksFor size = block.len) :
    ∃ v', Chunks.returnBack S ⟨v⟩ (block.start * chunkSize) size = .ok ⟨v'⟩ ∧
      FreeList N v' held := by
  have hstop : block.stop ≤ N := h.held_stop_le List.mem_cons_self hpos
  have hword := h.word
  have hround : (if size % chunkSize = 0 then some (size / chunkSize)
      else Usize.checkedAdd (size / chunkSize) 1) = some block.len := by
    rcases roundUp_eq size with hround | ⟨-, hbig⟩
    · rw [hround, hsize]
    · simp only [Span.stop] at hstop
      omega
  have haligned : block.start * chunkSize % chunkSize = 0 := Nat.mul_mod_left _ _
  have hbegin : RelativeBeginning.fromBytes (block.start * chunkSize) = ⟨block.start⟩ := by
    simp [RelativeBeginning.fromBytes, chunkSize, alignment]
  let chunk : FreeSpace := ⟨⟨block.start⟩, block.len⟩
  have hchunk : FreeList N v (chunk.span :: held) := h
  obtain ⟨v', hins, hinv⟩ := insertChunkAndMerge_spec S hchunk hpos
  refine ⟨v', ?_, hinv⟩
  simp only [Chunks.returnBack, hround, haligned, hbegin, FreeSpace.new_eq hpos]
  simpa using hins

end ShmemUtils.Allocator
