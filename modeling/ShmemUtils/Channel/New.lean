import ShmemUtils.Allocator.Bounds

/-!
# Making a channel

`Channel::new` takes two blocks from the allocator: the buffer of the queue, and the box that
`Inner` is moved into. When there is no room for the second one, `alloc_collections` drops the
value that was to be moved, and with it the mutex, in the process that has just created it, and the
queue.
-/

namespace ShmemUtils.Channel

open ShmemUtils.Allocator ShmemUtils.Library

/-- `alloc_collections::raw_vec::Error` -/
inductive RawVecError where
  | capacityOverflow
  | allocation (source : AllocationError)
deriving DecidableEq

/-- What `alloc_collections` asks the allocator for. -/
structure Collections where
  -- the buffer of a deque: no layout when the capacity overflows, and no block when it needs none
  buffer : ℕ → Option (Option Layout)
  -- the box of `Inner`
  inner : Layout

/-- A block, with the layout that it was allocated with. -/
structure Block where
  ptr : ℕ
  layout : Layout
deriving DecidableEq

/-- What a channel owns in shared memory. -/
structure Blocks where
  queue : Option Block
  inner : Block
deriving DecidableEq

/-- `VecDeque::with_capacity_in`, once the layout is known. -/
def withCapacityIn (S : Superslice) (self : ShmemAlloc) :
    Option Layout → Checked (Except AllocationError (Option Block) × ShmemAlloc)
  | none => .ok (.ok none, self)
  | some layout => do
    let (ptr, self) ← self.alloc S layout
    return (ptr.map fun ptr => some ⟨ptr, layout⟩, self)

/-- The drop of a deque that holds no items. -/
def dropDeque (S : Superslice) (self : ShmemAlloc) : Option Block → Checked ShmemAlloc
  | none => .ok self
  | some block => self.dealloc S block.ptr block.layout

/-- `Channel::new`, as far as the allocator is concerned. -/
def new (lib : Collections) (S : Superslice) (self : ShmemAlloc) (capacity : ℕ) :
    Checked (Except RawVecError Blocks × ShmemAlloc) :=
  match lib.buffer capacity with
  | none => .ok (.error .capacityOverflow, self)
  | some layout => do
    let (queue, self) ← withCapacityIn S self layout
    match queue with
    | .error e => return (.error (.allocation e), self)
    | .ok queue =>
      let (inner, self) ← self.alloc S lib.inner
      match inner with
      | .ok ptr => return (.ok ⟨queue, ⟨ptr, lib.inner⟩⟩, self)
      -- "Inner" is dropped, and the mutex drops the queue
      | .error e => do
        let self ← dropDeque S self queue
        return (.error (.allocation e), self)

/-- What the drop of `Inner` gives back. -/
def release (S : Superslice) (self : ShmemAlloc) (blocks : Blocks) : Checked ShmemAlloc := do
  let self ← dropDeque S self blocks.queue
  self.dealloc S blocks.inner.ptr blocks.inner.layout

variable {env : Environment} {S : Superslice} {size : ℕ} {st : Arena} {blocks : Blocks}
  {live rest : List Live}

/-- The blocks are live, and the others that are live are `rest`. -/
def Blocks.Beside (blocks : Blocks) (rest live : List Live) : Prop :=
  ∃ (queue : List Live) (usable : ℕ),
    queue.map (fun b => Block.mk b.ptr b.layout) = blocks.queue.toList ∧
      live.Perm (queue ++ ⟨blocks.inner.ptr, blocks.inner.layout, usable⟩ :: rest)

/-- A live block can be given back with the layout that it was allocated with. -/
theorem dealloc_total (h : Arena.Run env S size st) {b : Live} (hlive : st.live.Perm (b :: rest)) :
    ∃ a live', st.alloc.dealloc S b.ptr b.layout = .ok a ∧ Arena.Run env S size ⟨a, live'⟩ ∧
      live'.Perm rest := by
  have hb : b ∈ st.live := hlive.mem_iff.mpr List.mem_cons_self
  have hrest : (st.live.erase b).Perm rest := by
    have herase := hlive.erase b
    rwa [List.erase_cons_head] at herase
  obtain ⟨a, hret⟩ : ∃ a, st.alloc.dealloc S b.ptr b.layout = .ok a := by
    rcases h.inv.dealloc_cases S hb rfl (Nat.le_refl _) (Or.inr rfl) with
      ⟨-, hret⟩ | ⟨i, v, -, -, hret, -⟩
    · exact ⟨_, hret⟩
    · exact ⟨_, hret⟩
  exact ⟨a, _, hret, .dealloc h hb rfl (Nat.le_refl _) (Or.inr rfl) hret, hrest⟩

/-- **The release gives both blocks back**, whatever has happened to the others. -/
theorem release_total (h : Arena.Run env S size st) (hblocks : blocks.Beside rest st.live) :
    ∃ a live', release S st.alloc blocks = .ok a ∧ Arena.Run env S size ⟨a, live'⟩ ∧
      live'.Perm rest := by
  obtain ⟨queue, usable, hqueue, hlive⟩ := hblocks
  unfold release
  cases hbuffer : blocks.queue with
  | none =>
    rw [hbuffer] at hqueue
    cases List.map_eq_nil_iff.mp hqueue
    exact dealloc_total h hlive
  | some block =>
    rw [hbuffer] at hqueue
    obtain ⟨b, rfl, rfl⟩ := List.map_eq_singleton_iff.mp hqueue
    obtain ⟨a, live', hret, hrun, hlive'⟩ := dealloc_total h hlive
    simp only [dropDeque, hret, checked_ok_bind]
    exact dealloc_total hrun hlive'

/-- An allocation comes back: with a live block, or without a change. -/
theorem alloc_total (h : Arena.Run env S size st) (layout : Layout) :
    (∃ e, st.alloc.alloc S layout = .ok (.error e, st.alloc)) ∨
    ∃ ptr usable a, st.alloc.alloc S layout = .ok (.ok ptr, a) ∧
      st.alloc.allocExcess S layout = .ok (.ok ⟨ptr, usable⟩, a) ∧
      Arena.Run env S size ⟨a, ⟨ptr, layout, usable⟩ :: st.live⟩ := by
  obtain ⟨r, a, hexcess, halloc, hsame⟩ := h.inv.allocExcess_total S layout
  cases r with
  | error e =>
    cases hsame (Or.inr ⟨e, rfl⟩)
    exact Or.inl ⟨e, halloc⟩
  | ok excess => exact Or.inr ⟨_, _, a, halloc, hexcess, .alloc h halloc hexcess⟩

/-- Giving a block back right after it was allocated leaves the free list as it was. -/
theorem entries_of_undone (h : Arena.Run env S size st) {layout : Layout} {ptr usable : ℕ}
    {a : ShmemAlloc} (hrun : st.alloc.allocExcess S layout = .ok (.ok ⟨ptr, usable⟩, a)) :
    ∃ a', a.dealloc S ptr layout = .ok a' ∧ Arena.entries a' = Arena.entries st.alloc := by
  let b : Live := ⟨ptr, layout, usable⟩
  have hinv : Arena.Inv size ⟨a, b :: st.live⟩ := h.inv.allocExcess hrun
  rcases hinv.dealloc_cases S (b := b) List.mem_cons_self rfl (Nat.le_refl _) (Or.inr rfl) with
    ⟨hdangling, hret⟩ | ⟨i, v, -, -, hret, hfree⟩
  · -- nothing was taken
    obtain ⟨r, a', hrun', -, hsame⟩ := h.inv.allocExcess_total S layout
    cases hrun'.symm.trans hrun
    exact ⟨a, hret, by rw [hsame (Or.inl hdangling.1)]⟩
  · refine ⟨_, hret, ?_⟩
    -- what is held decides the free list
    refine hfree.items_eq h.inv.freeList ?_
    rw [List.erase_cons_head]
    show positions (st.live.map (Live.span a.memoryBuffer)) = _
    rw [h.inv.memoryBuffer_of_allocExcess hrun]
    rfl

/-- **`Channel::new` comes back**: with an error, which leaves the free list exactly as it was, or
with two live blocks. -/
theorem new_total (h : Arena.Run env S size st) (lib : Collections) (capacity : ℕ) :
    (∃ e a, new lib S st.alloc capacity = .ok (.error e, a) ∧
      Arena.entries a = Arena.entries st.alloc) ∨
    ∃ blocks a live, new lib S st.alloc capacity = .ok (.ok blocks, a) ∧
      Arena.Run env S size ⟨a, live⟩ ∧ blocks.Beside st.live live := by
  unfold new
  cases hbuffer : lib.buffer capacity with
  | none => exact Or.inl ⟨_, _, rfl, rfl⟩
  | some layout =>
    cases layout with
    | none =>
      rcases alloc_total h lib.inner with ⟨e, halloc⟩ | ⟨ptr, usable, a, halloc, -, hrun⟩
      · left
        simp only [withCapacityIn, checked_ok_bind, halloc, dropDeque]
        exact ⟨_, _, rfl, rfl⟩
      · right
        simp only [withCapacityIn, checked_ok_bind, halloc]
        exact ⟨_, _, _, rfl, hrun, [], usable, rfl, .refl _⟩
    | some layout =>
      rcases alloc_total h layout with ⟨e, halloc⟩ | ⟨ptr, usable, a, halloc, hexcess, hrun⟩
      · left
        simp only [withCapacityIn, halloc, checked_ok_bind, checked_pure, Except.map]
        exact ⟨_, _, rfl, rfl⟩
      · rcases alloc_total hrun lib.inner with ⟨e, hinner⟩ | ⟨ptr', usable', a', hinner, -, hrun'⟩
        · left
          obtain ⟨a', hret, hsame⟩ := entries_of_undone h hexcess
          simp only [withCapacityIn, halloc, checked_ok_bind, checked_pure, Except.map, hinner,
            dropDeque, hret]
          exact ⟨_, _, rfl, hsame⟩
        · right
          simp only [withCapacityIn, halloc, checked_ok_bind, checked_pure, Except.map, hinner]
          exact ⟨_, _, _, rfl, hrun', [⟨ptr, layout, usable⟩], usable', rfl, .swap _ _ _⟩

end ShmemUtils.Channel
