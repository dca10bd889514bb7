import Mathlib.Logic.Relation
import ShmemUtils.Channel.New

/-!
# Many channels over one allocator

Any number of processes make and release channels over one allocator, and take blocks of their own.
`Channel::new` calls the allocator up to three times, and the drop of `Inner` twice. Each call is
one step, so that the calls of different processes come in any order; without others in between they
are `new` and `release` (`steps_of_new`, `steps_of_release`).

The drop of the mutex may leave the queue alone, whose buffer is then owned for good.

What is owned stays a permutation of the allocator's live blocks. Owners therefore never share a
byte, no call of theirs panics, and when nothing is owned any more the free list is that of a fresh
allocator.
-/

namespace ShmemUtils.Channel

open ShmemUtils.Allocator ShmemUtils.Library

/-- Who owns blocks: a call that is under way, a channel, or a client. -/
inductive Owner where
  -- `Channel::new` has the buffer of its queue, and moves `Inner` next
  | making (queue : Option Block) (inner : Layout)
  -- there was no room for `Inner`, and the queue is dropped next
  | undoing (queue : Option Block)
  | channel (blocks : Blocks)
  -- the drop of `Inner` is past the mutex
  | closing (inner : Block)
  -- the buffer of a queue that the drop of the mutex has left alone
  | leaked (queue : Option Block)
  | client (block : Block)
deriving DecidableEq

def Owner.blocks : Owner → List Block
  | .making queue _ => queue.toList
  | .undoing queue => queue.toList
  | .channel blocks => blocks.queue.toList ++ [blocks.inner]
  | .closing inner => [inner]
  | .leaked queue => queue.toList
  | .client block => [block]

structure Memory where
  alloc : ShmemAlloc
  owners : List Owner

namespace Memory

/-- Everything that is owned. -/
def blocks (m : Memory) : List Block := m.owners.flatMap Owner.blocks

/-- One call of the allocator. -/
inductive Step (S : Superslice) : Memory → Memory → Prop where
  -- `Channel::new`
  | queue {m : Memory} {lib : Collections} {capacity : ℕ} {layout : Option Layout}
      {queue : Option Block} {a : ShmemAlloc} : lib.buffer capacity = some layout →
      withCapacityIn S m.alloc layout = .ok (.ok queue, a) →
      Step S m ⟨a, .making queue lib.inner :: m.owners⟩
  | noQueue {m : Memory} {lib : Collections} {capacity : ℕ} {layout : Option Layout}
      {e : AllocationError} {a : ShmemAlloc} : lib.buffer capacity = some layout →
      withCapacityIn S m.alloc layout = .ok (.error e, a) → Step S m ⟨a, m.owners⟩
  | inner {m : Memory} {queue : Option Block} {inner : Layout} {ptr : ℕ} {a : ShmemAlloc} :
      .making queue inner ∈ m.owners → m.alloc.alloc S inner = .ok (.ok ptr, a) →
      Step S m ⟨a, .channel ⟨queue, ⟨ptr, inner⟩⟩ :: m.owners.erase (.making queue inner)⟩
  | noInner {m : Memory} {queue : Option Block} {inner : Layout} {e : AllocationError}
      {a : ShmemAlloc} : .making queue inner ∈ m.owners →
      m.alloc.alloc S inner = .ok (.error e, a) →
      Step S m ⟨a, .undoing queue :: m.owners.erase (.making queue inner)⟩
  | undo {m : Memory} {queue : Option Block} {a : ShmemAlloc} : .undoing queue ∈ m.owners →
      dropDeque S m.alloc queue = .ok a → Step S m ⟨a, m.owners.erase (.undoing queue)⟩
  -- the drop of `Inner`, where the mutex is the process's own and can be destroyed
  | dropQueue {m : Memory} {blocks : Blocks} {a : ShmemAlloc} : .channel blocks ∈ m.owners →
      dropDeque S m.alloc blocks.queue = .ok a →
      Step S m ⟨a, .closing blocks.inner :: m.owners.erase (.channel blocks)⟩
  -- and where it is not
  | keepQueue {m : Memory} {blocks : Blocks} : .channel blocks ∈ m.owners →
      Step S m ⟨m.alloc, .closing blocks.inner :: .leaked blocks.queue ::
        m.owners.erase (.channel blocks)⟩
  | freeInner {m : Memory} {inner : Block} {a : ShmemAlloc} : .closing inner ∈ m.owners →
      m.alloc.dealloc S inner.ptr inner.layout = .ok a →
      Step S m ⟨a, m.owners.erase (.closing inner)⟩
  -- anything else that uses the allocator
  | alloc {m : Memory} {layout : Layout} {ptr : ℕ} {a : ShmemAlloc} :
      m.alloc.alloc S layout = .ok (.ok ptr, a) →
      Step S m ⟨a, .client ⟨ptr, layout⟩ :: m.owners⟩
  | noAlloc {m : Memory} {layout : Layout} {e : AllocationError} {a : ShmemAlloc} :
      m.alloc.alloc S layout = .ok (.error e, a) → Step S m ⟨a, m.owners⟩
  | dealloc {m : Memory} {block : Block} {a : ShmemAlloc} : .client block ∈ m.owners →
      m.alloc.dealloc S block.ptr block.layout = .ok a →
      Step S m ⟨a, m.owners.erase (.client block)⟩

end Memory

/-! ## The allocator's side -/

variable {env : Environment} {S : Superslice} {size : ℕ} {a a' : ShmemAlloc}
  {owned rest : List Block}

def liveBlock (b : Live) : Block := ⟨b.ptr, b.layout⟩

/-- The blocks that are owned are those that are live in a run of the allocator. -/
def OwnsBlocks (env : Environment) (S : Superslice) (size : ℕ) (a : ShmemAlloc)
    (owned : List Block) : Prop :=
  ∃ live, Arena.Run env S size ⟨a, live⟩ ∧ (live.map liveBlock).Perm owned

namespace OwnsBlocks

theorem perm (h : OwnsBlocks env S size a owned) (hp : owned.Perm rest) :
    OwnsBlocks env S size a rest := by
  obtain ⟨live, hrun, hlive⟩ := h
  exact ⟨live, hrun, hlive.trans hp⟩

theorem alloc (h : OwnsBlocks env S size a owned) (layout : Layout) :
    (∃ e, a.alloc S layout = .ok (.error e, a)) ∨
    ∃ ptr a', a.alloc S layout = .ok (.ok ptr, a') ∧
      OwnsBlocks env S size a' (⟨ptr, layout⟩ :: owned) := by
  obtain ⟨live, hrun, hlive⟩ := h
  rcases alloc_total hrun layout with ⟨e, halloc⟩ | ⟨ptr, usable, a', halloc, -, hrun'⟩
  · exact Or.inl ⟨e, halloc⟩
  · exact Or.inr ⟨ptr, a', halloc, _, hrun', hlive.cons _⟩

theorem dealloc {b : Block} (h : OwnsBlocks env S size a (b :: owned)) :
    ∃ a', a.dealloc S b.ptr b.layout = .ok a' ∧ OwnsBlocks env S size a' owned := by
  obtain ⟨live, hrun, hlive⟩ := h
  obtain ⟨l, hl, rfl⟩ := List.mem_map.mp (hlive.mem_iff.mpr List.mem_cons_self)
  have herase := List.perm_cons_erase hl
  obtain ⟨a', live', hret, hrun', hlive'⟩ := dealloc_total hrun herase
  refine ⟨a', hret, live', hrun', ?_⟩
  -- the other live blocks are the ones that are still owned
  have hrest : (liveBlock l :: (live.erase l).map liveBlock).Perm (liveBlock l :: owned) :=
    (herase.map liveBlock).symm.trans hlive
  exact (hlive'.map liveBlock).trans hrest.cons_inv

theorem dropDeque {queue : Option Block} (h : OwnsBlocks env S size a (queue.toList ++ owned)) :
    ∃ a', dropDeque S a queue = .ok a' ∧ OwnsBlocks env S size a' owned := by
  cases queue with
  | none => exact ⟨a, rfl, h⟩
  | some block => exact h.dealloc

theorem withCapacityIn (h : OwnsBlocks env S size a owned) (layout : Option Layout) :
    (∃ e, withCapacityIn S a layout = .ok (.error e, a)) ∨
    ∃ queue a', withCapacityIn S a layout = .ok (.ok queue, a') ∧
      OwnsBlocks env S size a' (queue.toList ++ owned) := by
  cases layout with
  | none => exact Or.inr ⟨none, a, rfl, h⟩
  | some layout =>
    rcases h.alloc layout with ⟨e, halloc⟩ | ⟨ptr, a', halloc, howns⟩
    · left
      exact ⟨e, by simp [Channel.withCapacityIn, halloc, Except.map]⟩
    · right
      exact ⟨some ⟨ptr, layout⟩, a', by simp [Channel.withCapacityIn, halloc, Except.map], howns⟩

end OwnsBlocks

/-! ## Steps and runs -/

namespace Memory

variable {m m' : Memory} {o : Owner} {a₀ : ShmemAlloc}

/-- What a run preserves. -/
def Inv (env : Environment) (S : Superslice) (size : ℕ) (m : Memory) : Prop :=
  OwnsBlocks env S size m.alloc m.blocks

/-- The blocks of one owner, and those of the others. -/
theorem blocks_perm (ho : o ∈ m.owners) :
    m.blocks.Perm (o.blocks ++ (m.owners.erase o).flatMap Owner.blocks) := by
  have hperm := (List.perm_cons_erase ho).flatMap_right Owner.blocks
  rwa [List.flatMap_cons] at hperm

theorem Inv.of_mem (h : Inv env S size m) (ho : o ∈ m.owners) :
    OwnsBlocks env S size m.alloc (o.blocks ++ (m.owners.erase o).flatMap Owner.blocks) :=
  h.perm (blocks_perm ho)

theorem Inv.step (h : Inv env S size m) (hstep : Step S m m') : Inv env S size m' := by
  cases hstep with
  | @queue lib capacity layout queue a _ hrun =>
    rcases h.withCapacityIn layout with ⟨e, herror⟩ | ⟨queue', a', hok, howns⟩
    · cases herror.symm.trans hrun
    · cases hok.symm.trans hrun
      exact howns
  | @noQueue lib capacity layout e a _ hrun =>
    rcases h.withCapacityIn layout with ⟨e, herror⟩ | ⟨queue', a', hok, -⟩
    · cases herror.symm.trans hrun
      exact h
    · cases hok.symm.trans hrun
  | @inner queue inner ptr a ho hrun =>
    rcases (h.of_mem ho).alloc inner with ⟨e, herror⟩ | ⟨ptr', a', hok, howns⟩
    · cases herror.symm.trans hrun
    · cases hok.symm.trans hrun
      -- the box comes last among the channel's blocks
      refine howns.perm ?_
      simp only [blocks, List.flatMap_cons, Owner.blocks, List.append_assoc]
      exact List.perm_middle.symm
  | @noInner queue inner e a ho hrun =>
    rcases (h.of_mem ho).alloc inner with ⟨e, herror⟩ | ⟨ptr', a', hok, -⟩
    · cases herror.symm.trans hrun
      exact h.of_mem ho
    · cases hok.symm.trans hrun
  | @undo queue a ho hrun =>
    obtain ⟨a', hok, howns⟩ := (h.of_mem ho).dropDeque
    cases hok.symm.trans hrun
    exact howns
  | @dropQueue blocks a ho hrun =>
    have howned := h.of_mem ho
    rw [Owner.blocks, List.append_assoc] at howned
    obtain ⟨a', hok, howns⟩ := howned.dropDeque
    cases hok.symm.trans hrun
    exact howns
  | @keepQueue blocks ho =>
    -- the box of `Inner` comes first now
    refine (h.of_mem ho).perm ?_
    simp only [Memory.blocks, List.flatMap_cons, Owner.blocks, List.append_assoc,
      List.singleton_append]
    exact List.perm_middle
  | @freeInner inner a ho hrun =>
    obtain ⟨a', hok, howns⟩ := (h.of_mem ho).dealloc
    cases hok.symm.trans hrun
    exact howns
  | @alloc layout ptr a hrun =>
    rcases OwnsBlocks.alloc h layout with ⟨e, herror⟩ | ⟨ptr', a', hok, howns⟩
    · cases herror.symm.trans hrun
    · cases hok.symm.trans hrun
      exact howns
  | @noAlloc layout e a hrun =>
    rcases OwnsBlocks.alloc h layout with ⟨e, herror⟩ | ⟨ptr', a', hok, -⟩
    · cases herror.symm.trans hrun
      exact h
    · cases hok.symm.trans hrun
  | @dealloc block a ho hrun =>
    obtain ⟨a', hok, howns⟩ := (h.of_mem ho).dealloc
    cases hok.symm.trans hrun
    exact howns

/-- A memory in which nothing is owned yet. -/
def fresh (a : ShmemAlloc) : Memory := ⟨a, []⟩

theorem Inv.run (hnew : ShmemAlloc.new env S size = .ok (.ok a₀))
    (hrun : Relation.ReflTransGen (Step S) (fresh a₀) m) : Inv env S size m := by
  induction hrun with
  | refl => exact ⟨[], .new hnew, .refl _⟩
  | tail _ hstep ih => exact ih.step hstep

/-! ## Without others in between -/

/-- `Channel::new`, step by step. -/
theorem steps_of_new {lib : Collections} {capacity : ℕ} {r : Except RawVecError Blocks}
    (hnew : new lib S m.alloc capacity = .ok (r, a)) :
    Relation.ReflTransGen (Step S) m ⟨a, (r.toOption.map Owner.channel).toList ++ m.owners⟩ := by
  unfold new at hnew
  cases hbuffer : lib.buffer capacity with
  | none =>
    rw [hbuffer] at hnew
    cases hnew
    exact .refl
  | some layout =>
    rw [hbuffer] at hnew
    cases hqueue : withCapacityIn S m.alloc layout with
    | error p => simp [hqueue] at hnew
    | ok x =>
      obtain ⟨queue, a₁⟩ := x
      cases queue with
      | error e =>
        simp only [hqueue, checked_ok_bind, checked_pure] at hnew
        cases hnew
        exact .single (.noQueue hbuffer hqueue)
      | ok queue =>
        refine .head (.queue hbuffer hqueue) ?_
        cases hinner : a₁.alloc S lib.inner with
        | error p => simp [hqueue, hinner] at hnew
        | ok y =>
          obtain ⟨inner, a₂⟩ := y
          cases inner with
          | ok ptr =>
            simp only [hqueue, hinner, checked_ok_bind, checked_pure] at hnew
            cases hnew
            have hstep := Step.inner (m := ⟨a₁, .making queue lib.inner :: m.owners⟩)
              List.mem_cons_self hinner
            rw [List.erase_cons_head] at hstep
            exact .single hstep
          | error e =>
            have hstep := Step.noInner (m := ⟨a₁, .making queue lib.inner :: m.owners⟩)
              List.mem_cons_self hinner
            rw [List.erase_cons_head] at hstep
            refine .head hstep ?_
            cases hdrop : dropDeque S a₂ queue with
            | error p => simp [hqueue, hinner, hdrop] at hnew
            | ok a₃ =>
              simp only [hqueue, hinner, hdrop, checked_ok_bind, checked_pure] at hnew
              cases hnew
              have hundo := Step.undo (m := ⟨a₂, .undoing queue :: m.owners⟩)
                List.mem_cons_self hdrop
              rw [List.erase_cons_head] at hundo
              exact .single hundo

/-- The drop of `Inner` in the process that made it, step by step. -/
theorem steps_of_release {blocks : Blocks} (ho : .channel blocks ∈ m.owners)
    (hrelease : release S m.alloc blocks = .ok a) :
    Relation.ReflTransGen (Step S) m ⟨a, m.owners.erase (.channel blocks)⟩ := by
  unfold release at hrelease
  cases hdrop : dropDeque S m.alloc blocks.queue with
  | error p => simp [hdrop] at hrelease
  | ok a₁ =>
    simp only [hdrop, checked_ok_bind] at hrelease
    have hfree := Step.freeInner
      (m := ⟨a₁, .closing blocks.inner :: m.owners.erase (.channel blocks)⟩)
      List.mem_cons_self hrelease
    rw [List.erase_cons_head] at hfree
    exact .head (.dropQueue ho hdrop) (.single hfree)

/-! ## What the owners can rely on -/

/-- The bytes of a block. -/
def bytes (b : Block) : Set ℕ := Set.Ico b.ptr (b.ptr + b.layout.size)

/-- The next call of an owner comes back. -/
def Proceeds (S : Superslice) (a : ShmemAlloc) : Owner → Prop
  | .making _ inner => ∃ r a', a.alloc S inner = .ok (r, a')
  | .undoing queue => ∃ a', dropDeque S a queue = .ok a'
  | .channel blocks => ∃ a', dropDeque S a blocks.queue = .ok a'
  | .closing inner => ∃ a', a.dealloc S inner.ptr inner.layout = .ok a'
  | .leaked _ => True
  | .client block => ∃ a', a.dealloc S block.ptr block.layout = .ok a'

theorem Inv.proceeds (h : Inv env S size m) (ho : o ∈ m.owners) : Proceeds S m.alloc o := by
  have howned := h.of_mem ho
  cases o with
  | making queue inner =>
    rcases howned.alloc inner with ⟨e, hrun⟩ | ⟨ptr, a', hrun, -⟩
    · exact ⟨_, _, hrun⟩
    · exact ⟨_, _, hrun⟩
  | undoing queue =>
    obtain ⟨a', hrun, -⟩ := howned.dropDeque
    exact ⟨a', hrun⟩
  | channel blocks =>
    rw [Owner.blocks, List.append_assoc] at howned
    obtain ⟨a', hrun, -⟩ := howned.dropDeque
    exact ⟨a', hrun⟩
  | closing inner =>
    obtain ⟨a', hrun, -⟩ := howned.dealloc
    exact ⟨a', hrun⟩
  | leaked queue => trivial
  | client block =>
    obtain ⟨a', hrun, -⟩ := howned.dealloc
    exact ⟨a', hrun⟩

theorem bytes_subset_of_live {st : Arena} (h : Arena.Inv size st) {l : Live} (hl : l ∈ st.live) :
    bytes (liveBlock l) ⊆ l.bytes := by
  by_cases hsize : l.layout.size = 0
  · simp [bytes, liveBlock, hsize]
  · obtain ⟨-, husable, -, -⟩ := h.block_ok hl hsize
    exact Set.Ico_subset_Ico_right (Nat.add_le_add_left husable _)

theorem Inv.pairwise_disjoint (h : Inv env S size m) :
    m.blocks.Pairwise fun b c => Disjoint (bytes b) (bytes c) := by
  obtain ⟨live, hrun, hperm⟩ := h
  have hinv := hrun.inv
  have hlive : (live.map liveBlock).Pairwise fun b c => Disjoint (bytes b) (bytes c) := by
    refine List.pairwise_map.mpr (hinv.bytes_disjoint.imp_of_mem ?_)
    intro k l hk hl hdisjoint
    exact hdisjoint.mono (bytes_subset_of_live hinv hk) (bytes_subset_of_live hinv hl)
  exact hperm.pairwise hlive fun hdisjoint => hdisjoint.symm

theorem Inv.block_ok (h : Inv env S size m) {b : Block} (hb : b ∈ m.blocks)
    (hsize : b.layout.size ≠ 0) :
    b.ptr % b.layout.align = 0 ∧ m.alloc.memoryBuffer ≤ b.ptr ∧
      b.ptr + b.layout.size ≤ m.alloc.memoryBuffer + size := by
  obtain ⟨live, hrun, hperm⟩ := h
  obtain ⟨l, hl, rfl⟩ := List.mem_map.mp (hperm.mem_iff.mpr hb)
  obtain ⟨halign, husable, hlow, hhigh⟩ := hrun.inv.block_ok hl hsize
  exact ⟨halign, hlow, (Nat.add_le_add_left husable _).trans hhigh⟩

/-- When nothing is owned, nothing is live, and the free list is the one that `new` made. -/
theorem Inv.entries_of_no_blocks (h : Inv env S size m)
    (hnew : ShmemAlloc.new env S size = .ok (.ok a₀)) (hblocks : m.blocks = []) :
    Arena.entries m.alloc = Arena.entries a₀ := by
  obtain ⟨live, hrun, hperm⟩ := h
  rw [hblocks] at hperm
  have hlive : live = [] := List.map_eq_nil_iff.mp hperm.eq_nil
  subst hlive
  exact hrun.inv.freeList.items_eq (Arena.inv_new hnew).freeList rfl

/-- **Channels share the allocator safely**, in every state of every run: no two blocks that are
owned share a byte, and those with bytes are aligned and inside the buffer; no call panics, neither
the next call of an owner nor any allocation; and once nothing is owned, the free list is the one
that `new` made. -/
theorem owners_apart (hnew : ShmemAlloc.new env S size = .ok (.ok a₀))
    (hrun : Relation.ReflTransGen (Step S) (fresh a₀) m) :
    (m.blocks.Pairwise fun b c => Disjoint (bytes b) (bytes c)) ∧
    (∀ b ∈ m.blocks, b.layout.size ≠ 0 →
      b.ptr % b.layout.align = 0 ∧ m.alloc.memoryBuffer ≤ b.ptr ∧
        b.ptr + b.layout.size ≤ m.alloc.memoryBuffer + size) ∧
    (∀ o ∈ m.owners, Proceeds S m.alloc o) ∧
    (∀ layout, ∃ r a, m.alloc.alloc S layout = .ok (r, a)) ∧
    (m.blocks = [] → Arena.entries m.alloc = Arena.entries a₀) := by
  have hinv : Inv env S size m := .run hnew hrun
  refine ⟨hinv.pairwise_disjoint, fun b hb => hinv.block_ok hb, fun o ho => hinv.proceeds ho, ?_,
    hinv.entries_of_no_blocks hnew⟩
  intro layout
  rcases OwnsBlocks.alloc hinv layout with ⟨e, halloc⟩ | ⟨ptr, a', halloc, -⟩
  · exact ⟨_, _, halloc⟩
  · exact ⟨_, _, halloc⟩

private def oneItem : Layout := ⟨5, 2 ^ 2, ⟨2, rfl⟩, by decide⟩

private def twoItems : Layout := ⟨10, 2 ^ 2, ⟨2, rfl⟩, by decide⟩

private def innerBox : Layout := ⟨8, 2 ^ 3, ⟨3, rfl⟩, by decide⟩

private def itemBuffers : Collections where
  buffer capacity := some (if capacity = 1 then some oneItem else some twoItems)
  inner := innerBox

private def untouched : ShmemAlloc := ⟨⟨⟨6, [⟨⟨0⟩, 6⟩]⟩⟩, 4096⟩

-- two channels that were made at the same time
private def twoChannels : Memory where
  alloc := ⟨⟨⟨6, [⟨⟨5⟩, 1⟩]⟩⟩, 4096⟩
  owners :=
    [.channel ⟨some ⟨4096, twoItems⟩, ⟨4128, innerBox⟩⟩,
      .channel ⟨some ⟨4112, oneItem⟩, ⟨4120, innerBox⟩⟩]

private theorem twoChannels_run :
    Relation.ReflTransGen (Step .linear) (fresh untouched) twoChannels := by
  have h₁ : Step .linear (fresh untouched)
      ⟨⟨⟨⟨6, [⟨⟨2⟩, 4⟩]⟩⟩, 4096⟩, [.making (some ⟨4096, twoItems⟩) innerBox]⟩ :=
    .queue (show itemBuffers.buffer 2 = some (some twoItems) from rfl) (by decide)
  have h₂ : Step .linear _
      ⟨⟨⟨⟨6, [⟨⟨3⟩, 3⟩]⟩⟩, 4096⟩,
        [.making (some ⟨4112, oneItem⟩) innerBox, .making (some ⟨4096, twoItems⟩) innerBox]⟩ :=
    .queue (m := ⟨⟨⟨⟨6, [⟨⟨2⟩, 4⟩]⟩⟩, 4096⟩, [.making (some ⟨4096, twoItems⟩) innerBox]⟩)
      (show itemBuffers.buffer 1 = some (some oneItem) from rfl) (by decide)
  have h₃ : Step .linear _
      ⟨⟨⟨⟨6, [⟨⟨4⟩, 2⟩]⟩⟩, 4096⟩,
        [.channel ⟨some ⟨4112, oneItem⟩, ⟨4120, innerBox⟩⟩,
          .making (some ⟨4096, twoItems⟩) innerBox]⟩ :=
    .inner (m := ⟨⟨⟨⟨6, [⟨⟨3⟩, 3⟩]⟩⟩, 4096⟩,
      [.making (some ⟨4112, oneItem⟩) innerBox, .making (some ⟨4096, twoItems⟩) innerBox]⟩)
      (by decide) (by decide)
  have h₄ : Step .linear _ twoChannels :=
    .inner (m := ⟨⟨⟨⟨6, [⟨⟨4⟩, 2⟩]⟩⟩, 4096⟩,
      [.channel ⟨some ⟨4112, oneItem⟩, ⟨4120, innerBox⟩⟩,
        .making (some ⟨4096, twoItems⟩) innerBox]⟩)
      (by decide) (by decide)
  exact (((Relation.ReflTransGen.single h₁).tail h₂).tail h₃).tail h₄

theorem owners_apart_two_channels :
    twoChannels.blocks.Pairwise fun b c => Disjoint (bytes b) (bytes c) :=
  (owners_apart
    (show ShmemAlloc.new Arena.exampleEnvironment .linear 48 = .ok (.ok untouched) by decide)
    twoChannels_run).1

end Memory

end ShmemUtils.Channel
