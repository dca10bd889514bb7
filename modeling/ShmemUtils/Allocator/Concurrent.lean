import ShmemUtils.Allocator.Arena
import ShmemUtils.Library.Locked

/-!
# The allocator from many threads

`ShmemAlloc` is `Copy`, so any number of threads of any number of processes work on one manager
behind one mutex. `alloc_excess` and `dealloc` are taken apart here: what they find out before they
lock (`enter`), and under the guard every search, every `pop` and the `push` of the sorted vector as
a step of its own (`step`). A panic ends the critical section where it happens, since unwinding
drops the guard.

- `does_eq`: a critical section by itself is the sequential call of `ShmemAlloc`.
- `Accounts`: the blocks in the hands of the clients and those inside calls are the live blocks of
  an arena, in every state of every run.
-/

namespace ShmemUtils.Allocator.Concurrent

open ShmemUtils.Library ShmemUtils.Library.Locked

inductive Call where
  | allocExcess (layout : Layout)
  | dealloc (ptr : ℕ) (layout : Layout)
deriving DecidableEq

inductive Reply where
  | allocated (r : Except AllocationError Excess)
  | deallocated
deriving DecidableEq

/-- What is left to do once a chunk is in the list: `get` hands out the space that it has taken. -/
inductive After where
  | handOut (space : FreeSpace)
  | nothing
deriving DecidableEq

/-- The critical sections: `get`, `return_back`, and `insert_chunk_and_merge` inside both. -/
inductive Section where
  | search (layout : Layout)
  | take (requiredChunks idx : ℕ)
  | giveBack (shift size : ℕ)
  | isEmpty (after : After) (chunk : FreeSpace)
  | findAndMerge (after : After) (chunk : FreeSpace)
  | remove (after : After) (id : ℕ) (merged : FreeSpace)
  | push (after : After) (chunk : FreeSpace)
deriving DecidableEq

/-- The pointer to a space, and how much can be used there. -/
def handOut (memoryBuffer : ℕ) (chunk : FreeSpace) : Checked Reply := do
  let usableSize ← Usize.mul chunk.count chunkSize
  let ptr ← chunk.begin.intoAbsolute memoryBuffer
  return .allocated (.ok ⟨ptr, usableSize⟩)

def After.reply (memoryBuffer : ℕ) : After → Checked Reply
  | .handOut space => Concurrent.handOut memoryBuffer space
  | .nothing => .ok .deallocated

/-- A call up to its `lock()`. -/
def enter (memoryBuffer : ℕ) : Call → Section ⊕ Checked Reply
  | .allocExcess layout =>
    match ShmemAlloc.checkAlignment layout with
    | .error e => .inr (.ok (.allocated (.error e)))
    | .ok () =>
      if layout.size = 0 then .inr (.ok (.allocated (.ok ⟨layout.align, 0⟩)))
      else .inl (.search layout)
  | .dealloc ptr layout =>
    if layout.align = ptr then
      .inr (.ok .deallocated)
    else
      match ShmemAlloc.checkAlignment layout with
      | .error _ => .inr (.ok .deallocated)
      | .ok () =>
        match Usize.checkedSub ptr memoryBuffer with
        | none => .inr (.ok .deallocated)
        | some shift => .inl (.giveBack shift layout.size)

variable (S : Superslice) (memoryBuffer : ℕ)

/-- One step under the guard. -/
def step : Section → Chunks → Chunks × (Section ⊕ Checked Reply)
  | .search layout, chunks =>
    let requiredChunks :=
      if layout.size % chunkSize = 0 then some (layout.size / chunkSize)
      else Usize.checkedAdd (layout.size / chunkSize) 1
    match requiredChunks with
    | none => (chunks, .inr (.ok (.allocated (.error ⟨layout⟩))))
    | some requiredChunks =>
      let idx := S.lowerBoundBy chunks.freeChunks.items fun freeSpace =>
        compare freeSpace.count requiredChunks
      if idx ≥ chunks.freeChunks.items.length then
        (chunks, .inr (.ok (.allocated (.error ⟨layout⟩))))
      else (chunks, .inl (.take requiredChunks idx))
  | .take requiredChunks idx, chunks =>
    match chunks.freeChunks.pop idx with
    | .error p => (chunks, .inr (.error p))
    | .ok (space, freeChunks) =>
      (⟨freeChunks⟩, match space.split requiredChunks with
        | .error p => .inr (.error p)
        | .ok (space, some unused) => .inl (.isEmpty (.handOut space) unused)
        | .ok (space, none) => .inr (handOut memoryBuffer space))
  | .giveBack shift size, chunks =>
    let count :=
      if size % chunkSize = 0 then some (size / chunkSize)
      else Usize.checkedAdd (size / chunkSize) 1
    (chunks, match count with
      | none => .inr (.error .countOverflow)
      | some count =>
        if shift % chunkSize ≠ 0 then .inr (.error .unalignedShift)
        else
          match FreeSpace.new (RelativeBeginning.fromBytes shift) count with
          | .error p => .inr (.error p)
          | .ok chunk => .inl (.isEmpty .nothing chunk))
  | .isEmpty after chunk, chunks =>
    (chunks, .inl (if chunks.freeChunks.items.isEmpty then .push after chunk
      else .findAndMerge after chunk))
  | .findAndMerge after chunk, chunks =>
    (chunks, match Chunks.findAndMerge chunks.freeChunks.items chunk with
      | .error p => .inr (.error p)
      | .ok none => .inl (.push after chunk)
      | .ok (some (id, merged)) => .inl (.remove after id merged))
  | .remove after id merged, chunks =>
    match chunks.freeChunks.pop id with
    | .error p => (chunks, .inr (.error p))
    | .ok (_, freeChunks) => (⟨freeChunks⟩, .inl (.findAndMerge after merged))
  | .push after chunk, chunks =>
    match chunks.freeChunks.push S chunk with
    | .error p => (chunks, .inr (.error p))
    | .ok freeChunks => (⟨freeChunks⟩, .inr (after.reply memoryBuffer))

def code : Code Chunks Call Section (Checked Reply) where
  enter := enter memoryBuffer
  step := step S memoryBuffer

/-! ## A critical section by itself -/

/-- What the call does from here to its end, by the functions of the source. -/
def rest : Section → Chunks → Checked (Reply × Chunks)
  | .search layout, chunks => do
    let (chunk, chunks) ← chunks.get S layout.size
    match chunk with
    | some chunk =>
      let reply ← handOut memoryBuffer chunk
      return (reply, chunks)
    | none => return (.allocated (.error ⟨layout⟩), chunks)
  | .take requiredChunks idx, chunks => do
    let (space, freeChunks) ← chunks.freeChunks.pop idx
    let (space, unused) ← space.split requiredChunks
    match unused with
    | some unused =>
      let chunks ← Chunks.insertChunkAndMerge S ⟨freeChunks⟩ unused
      let reply ← handOut memoryBuffer space
      return (reply, chunks)
    | none =>
      let reply ← handOut memoryBuffer space
      return (reply, ⟨freeChunks⟩)
  | .giveBack shift size, chunks => do
    let chunks ← chunks.returnBack S shift size
    return (.deallocated, chunks)
  | .isEmpty after chunk, chunks => do
    let chunks ← chunks.insertChunkAndMerge S chunk
    let reply ← after.reply memoryBuffer
    return (reply, chunks)
  | .findAndMerge after chunk, chunks => do
    let (freeChunks, chunk) ←
      Chunks.mergeWhileAdjacent chunks.freeChunks.items.length chunks.freeChunks chunk
    let freeChunks ← freeChunks.push S chunk
    let reply ← after.reply memoryBuffer
    return (reply, ⟨freeChunks⟩)
  | .remove after id merged, chunks => do
    let (_, freeChunks) ← chunks.freeChunks.pop id
    let (freeChunks, chunk) ←
      Chunks.mergeWhileAdjacent freeChunks.items.length freeChunks merged
    let freeChunks ← freeChunks.push S chunk
    let reply ← after.reply memoryBuffer
    return (reply, ⟨freeChunks⟩)
  | .push after chunk, chunks => do
    let freeChunks ← chunks.freeChunks.push S chunk
    let reply ← after.reply memoryBuffer
    return (reply, ⟨freeChunks⟩)

/-- What the call does after a step. -/
def restAfter : Chunks × (Section ⊕ Checked Reply) → Checked (Reply × Chunks)
  | (chunks, .inl b) => rest S memoryBuffer b chunks
  | (chunks, .inr r) => do
    let reply ← r
    return (reply, chunks)

/-- A merge costs a turn of the loop and an entry of the list. -/
theorem mergeWhileAdjacent_eq (v : FixesSortedVec FreeSpace) (chunk : FreeSpace) :
    Chunks.mergeWhileAdjacent v.items.length v chunk = (do
      match ← Chunks.findAndMerge v.items chunk with
      | none => return (v, chunk)
      | some (id, merged) =>
        let (_, v) ← v.pop id
        Chunks.mergeWhileAdjacent v.items.length v merged) := by
  obtain ⟨c, items⟩ := v
  cases items with
  | nil => rfl
  | cons e items =>
    simp only [List.length_cons, Chunks.mergeWhileAdjacent]
    congr 1
    funext found
    cases found with
    | none => rfl
    | some x =>
      obtain ⟨id, merged⟩ := x
      simp only [FixesSortedVec.pop]
      cases hid : (e :: items)[id]? with
      | none => rfl
      | some x =>
        obtain ⟨hlt, -⟩ := List.getElem?_eq_some_iff.mp hid
        have hlength : ((e :: items).eraseIdx id).length = items.length := by
          rw [List.length_eraseIdx, if_pos hlt, List.length_cons, Nat.add_sub_cancel]
        simp only [checked_ok_bind, hlength]

/-- **One step of the source**: what a call does from a point is what it does after one step. -/
theorem rest_eq (b : Section) (chunks : Chunks) :
    rest S memoryBuffer b chunks = restAfter S memoryBuffer (step S memoryBuffer b chunks) := by
  cases b with
  | search layout =>
    simp only [rest, step, Chunks.get]
    generalize (if layout.size % chunkSize = 0 then some (layout.size / chunkSize)
      else Usize.checkedAdd (layout.size / chunkSize) 1) = requiredChunks
    cases requiredChunks with
    | none => rfl
    | some k =>
      dsimp only
      generalize (S.lowerBoundBy chunks.freeChunks.items fun freeSpace =>
        compare freeSpace.count k) = idx
      by_cases hidx : idx ≥ chunks.freeChunks.items.length
      · simp only [hidx, if_true]
        rfl
      · simp only [hidx, if_false, restAfter, rest, bind_assoc]
        congr 1
        funext x
        congr 1
        funext y
        obtain ⟨space, unused⟩ := y
        cases unused with
        | none => simp
        | some unused => simp [bind_assoc]
  | take requiredChunks idx =>
    simp only [rest, step]
    cases chunks.freeChunks.pop idx with
    | error p => rfl
    | ok x =>
      obtain ⟨space, v⟩ := x
      simp only [checked_ok_bind]
      cases space.split requiredChunks with
      | error p => rfl
      | ok y =>
        obtain ⟨space, unused⟩ := y
        cases unused with
        | none => rfl
        | some unused => rfl
  | giveBack shift size =>
    simp only [rest, step, Chunks.returnBack]
    generalize (if size % chunkSize = 0 then some (size / chunkSize)
      else Usize.checkedAdd (size / chunkSize) 1) = count
    cases count with
    | none => rfl
    | some count =>
      dsimp only
      by_cases hshift : shift % chunkSize ≠ 0
      · rw [if_pos hshift, if_pos hshift]
        rfl
      · rw [if_neg hshift, if_neg hshift]
        cases FreeSpace.new (RelativeBeginning.fromBytes shift) count with
        | error p => rfl
        | ok chunk => rfl
  | isEmpty after chunk =>
    simp only [rest, step, restAfter, Chunks.insertChunkAndMerge]
    split
    · simp [bind_assoc]
    · simp [bind_assoc]
  | findAndMerge after chunk =>
    simp only [rest, step]
    rw [mergeWhileAdjacent_eq]
    cases Chunks.findAndMerge chunks.freeChunks.items chunk with
    | error p => rfl
    | ok found =>
      cases found with
      | none => rfl
      | some x => simp [restAfter, rest, bind_assoc]
  | remove after id merged =>
    simp only [rest, step]
    cases chunks.freeChunks.pop id with
    | error p => rfl
    | ok x => rfl
  | push after chunk =>
    simp only [rest, step]
    cases chunks.freeChunks.push S chunk with
    | error p => rfl
    | ok v => rfl

/-- Running a critical section to its end is the rest of the call. -/
theorem rest_of_section {b : Section} {chunks chunks' : Chunks} {r : Checked Reply}
    (h : Locked.Section (code S memoryBuffer) b chunks chunks' r) :
    rest S memoryBuffer b chunks = r.map fun reply => (reply, chunks') := by
  induction h with
  | last hstep =>
    rw [rest_eq, show step S memoryBuffer _ _ = _ from hstep]
    cases r <;> rfl
  | more hstep _ ih =>
    rw [rest_eq, show step S memoryBuffer _ _ = _ from hstep]
    exact ih

/-! ## The sequential calls -/

/-- The call of `ShmemAlloc`. -/
def Call.run : Call → Chunks → Checked (Reply × Chunks)
  | .allocExcess layout, chunks => do
    let (r, self) ← ShmemAlloc.allocExcess S ⟨chunks, memoryBuffer⟩ layout
    return (.allocated r, self.freeChunks)
  | .dealloc ptr layout, chunks => do
    let self ← ShmemAlloc.dealloc S ⟨chunks, memoryBuffer⟩ ptr layout
    return (.deallocated, self.freeChunks)

/-- **A call by itself is the call of the source.** -/
theorem does_eq {call : Call} {chunks chunks' : Chunks} {r : Checked Reply}
    (h : Does (code S memoryBuffer) call chunks chunks' r) :
    call.run S memoryBuffer chunks = r.map fun reply => (reply, chunks') := by
  have henter : call.run S memoryBuffer chunks = match enter memoryBuffer call with
      | .inl b => rest S memoryBuffer b chunks
      | .inr r => r.map fun reply => (reply, chunks) := by
    cases call with
    | allocExcess layout =>
      simp only [Call.run, enter, ShmemAlloc.allocExcess]
      cases ShmemAlloc.checkAlignment layout with
      | error e => rfl
      | ok _ =>
        by_cases hsize : layout.size = 0
        · simp only [hsize, if_true]
          rfl
        · simp only [hsize, if_false, rest, bind_assoc]
          congr 1
          funext x
          obtain ⟨chunk, chunks⟩ := x
          cases chunk with
          | none => rfl
          | some chunk => simp [handOut, bind_assoc]
    | dealloc ptr layout =>
      simp only [Call.run, enter, ShmemAlloc.dealloc]
      by_cases halign : layout.align = ptr
      · simp only [halign, if_true]
        rfl
      · simp only [halign, if_false]
        cases ShmemAlloc.checkAlignment layout with
        | error e => rfl
        | ok _ =>
          cases Usize.checkedSub ptr memoryBuffer with
          | none => rfl
          | some shift => simp [rest, bind_assoc]
  cases h with
  | atOnce hr =>
    rw [henter, show enter memoryBuffer call = _ from hr]
  | locked hb hsection =>
    rw [henter, show enter memoryBuffer call = _ from hb]
    exact rest_of_section S memoryBuffer hsection

/-! ## The clients -/

/-- What a client asks for: a block of a layout, or that a block is taken back. -/
inductive Input where
  | allocExcess (layout : Layout)
  | dealloc (n : ℕ) (layout : Layout)
deriving DecidableEq

/-- The contract of `dealloc`: the alignment of the block, and a size between the one that was asked
for and the usable one. -/
def Fits (layout : Layout) (b : Live) : Prop :=
  layout.align = b.layout.align ∧ b.layout.size ≤ layout.size ∧
    (layout.size ≤ b.usable ∨ layout.size = b.layout.size)

instance (layout : Layout) (b : Live) : Decidable (Fits layout b) :=
  inferInstanceAs (Decidable (_ ∧ _))

variable {T : Type}

/-- The clients have a pool of blocks: any thread can pass any of them to `dealloc`, and whoever has
done so has it no more. -/
def clients : Callers T (List Live) Call (Checked Reply) Input where
  invoke _ i pool :=
    match i with
    | .allocExcess layout => some (pool, .allocExcess layout)
    | .dealloc n layout =>
      match pool[n]? with
      | some b => if Fits layout b then some (pool.erase b, .dealloc b.ptr layout) else none
      | none => none
  receive _ call r pool :=
    match call, r with
    | .allocExcess layout, .ok (.allocated (.ok excess)) =>
      ⟨excess.ptr, layout, excess.usable⟩ :: pool
    | _, _ => pool

/-- What a thread's call has in its hands: the block that it is to take back, or the one that it is
to hand out. -/
inductive Carries : Stage Call (Checked Reply) → Option Live → Prop where
  | idle : Carries .idle none
  | allocating {layout : Layout} : Carries (.called (.allocExcess layout)) none
  | freeing {layout : Layout} {b : Live} :
      Fits layout b → Carries (.called (.dealloc b.ptr layout)) (some b)
  | allocated {layout : Layout} {excess : Excess} :
      Carries (.done (.allocExcess layout) (.ok (.allocated (.ok excess))))
        (some ⟨excess.ptr, layout, excess.usable⟩)
  | refused {layout : Layout} {e : AllocationError} :
      Carries (.done (.allocExcess layout) (.ok (.allocated (.error e)))) none
  | freed {ptr : ℕ} {layout : Layout} :
      Carries (.done (.dealloc ptr layout) (.ok .deallocated)) none

/-- The list has the block of each thread that carries one. -/
structure Carried (stage : T → Stage Call (Checked Reply)) (inFlight : List (T × Live)) :
    Prop where
  once : (inFlight.map Prod.fst).Nodup
  some : ∀ {t b}, (t, b) ∈ inFlight → Carries (stage t) (some b)
  none : ∀ {t}, t ∉ inFlight.map Prod.fst → Carries (stage t) none

/-- The live blocks are those of the clients and those inside calls. -/
structure Accounts (capacity memoryBuffer : ℕ)
    (a : Object T Chunks (List Live) Call (Checked Reply)) (inFlight : List (T × Live)) :
    Prop where
  arena : Arena.Inv capacity ⟨⟨a.data, memoryBuffer⟩, a.books ++ inFlight.map Prod.snd⟩
  carried : Carried a.stage inFlight

section Carrying

variable {stage stage' : T → Stage Call (Checked Reply)} {inFlight : List (T × Live)} {t : T}
  {b : Live}

/-- A thread that carries nothing is not in the list. -/
theorem Carried.not_mem (h : Carried stage inFlight) (ht : ∀ b, ¬ Carries (stage t) (.some b)) :
    t ∉ inFlight.map Prod.fst := by
  intro hmem
  obtain ⟨⟨u, b⟩, hb, rfl⟩ := List.mem_map.mp hmem
  exact ht b (h.some hb)

/-- A thread that carries something is in the list with it. -/
theorem Carried.exists_mem (h : Carried stage inFlight) (ht : ¬ Carries (stage t) .none) :
    ∃ b, (t, b) ∈ inFlight ∧ Carries (stage t) (.some b) := by
  have hmem : t ∈ inFlight.map Prod.fst := by
    by_contra hnot
    exact ht (h.none hnot)
  obtain ⟨⟨u, b⟩, hb, rfl⟩ := List.mem_map.mp hmem
  exact ⟨b, hb, h.some hb⟩

variable (hothers : ∀ u, u ≠ t → stage' u = stage u)

include hothers

/-- The thread that moves has nothing before and after. -/
theorem Carried.keep (h : Carried stage inFlight) (ht : t ∉ inFlight.map Prod.fst)
    (hafter : Carries (stage' t) .none) : Carried stage' inFlight := by
  refine ⟨h.once, fun {u b} hub => ?_, fun {u} hu => ?_⟩
  · have hne : u ≠ t := by
      rintro rfl
      exact ht (List.mem_map.mpr ⟨_, hub, rfl⟩)
    rw [hothers u hne]
    exact h.some hub
  · by_cases hut : u = t
    · rw [hut]
      exact hafter
    · rw [hothers u hut]
      exact h.none hu

/-- It takes a block. -/
theorem Carried.take (h : Carried stage inFlight) (ht : t ∉ inFlight.map Prod.fst)
    (hafter : Carries (stage' t) (.some b)) : Carried stage' ((t, b) :: inFlight) := by
  refine ⟨List.nodup_cons.mpr ⟨ht, h.once⟩, fun {u b'} hub => ?_, fun {u} hu => ?_⟩
  · rcases List.mem_cons.mp hub with heq | hrest
    · cases heq
      exact hafter
    · have hne : u ≠ t := by
        rintro rfl
        exact ht (List.mem_map.mpr ⟨_, hrest, rfl⟩)
      rw [hothers u hne]
      exact h.some hrest
  · rw [List.map_cons, List.mem_cons, not_or] at hu
    rw [hothers u hu.1]
    exact h.none hu.2

variable [DecidableEq T]

/-- It lets its block go. -/
theorem Carried.drop (h : Carried stage inFlight) (hb : (t, b) ∈ inFlight)
    (hafter : Carries (stage' t) .none) : Carried stage' (inFlight.erase (t, b)) := by
  have hperm := (List.perm_cons_erase hb).map Prod.fst
  have honce := hperm.nodup_iff.mp h.once
  rw [List.map_cons, List.nodup_cons] at honce
  refine ⟨honce.2, fun {u b'} hub => ?_, fun {u} hu => ?_⟩
  · have hne : u ≠ t := by
      rintro rfl
      exact honce.1 (List.mem_map.mpr ⟨_, hub, rfl⟩)
    rw [hothers u hne]
    exact h.some (List.mem_of_mem_erase hub)
  · by_cases hut : u = t
    · rw [hut]
      exact hafter
    · rw [hothers u hut]
      refine h.none fun hmem => hu ?_
      exact (List.mem_cons.mp (hperm.mem_iff.mp hmem)).resolve_left hut

end Carrying

section Accounting

variable [DecidableEq T] {S : Superslice} {capacity memoryBuffer : ℕ}
  {a a' : Object T Chunks (List Live) Call (Checked Reply)} {inFlight : List (T × Live)}

/-- The order of the live blocks does not matter. -/
theorem arenaInv_perm {self : ShmemAlloc} {live live' : List Live}
    (h : Arena.Inv capacity ⟨self, live⟩) (hp : live.Perm live') :
    Arena.Inv capacity ⟨self, live'⟩ where
  base := h.base
  fits := h.fits
  aligned := h.aligned
  freeList := h.freeList.perm_held (hp.map _)
  blocks b hb := h.blocks b (hp.mem_iff.mpr hb)

/-- An allocation comes back, from the same buffer, and its block is live then. -/
theorem run_allocExcess (S : Superslice) {chunks : Chunks} {live : List Live} (layout : Layout)
    (h : Arena.Inv capacity ⟨⟨chunks, memoryBuffer⟩, live⟩) :
    (∃ excess chunks', (Call.allocExcess layout).run S memoryBuffer chunks =
        .ok (.allocated (.ok excess), chunks') ∧
      Arena.Inv capacity ⟨⟨chunks', memoryBuffer⟩, ⟨excess.ptr, layout, excess.usable⟩ :: live⟩) ∨
    ∃ e, (Call.allocExcess layout).run S memoryBuffer chunks =
      .ok (.allocated (.error e), chunks) := by
  obtain ⟨r, self, hrun, -, -⟩ := h.allocExcess_total S layout
  have hbuffer := h.memoryBuffer_of_allocExcess hrun
  cases r with
  | ok excess =>
    left
    refine ⟨excess, self.freeChunks, by simp [Call.run, hrun], ?_⟩
    have hinv := h.allocExcess hrun
    obtain ⟨freeChunks, buffer⟩ := self
    cases hbuffer
    exact hinv
  | error e =>
    right
    have hsame := h.allocExcess_error hrun
    subst hsame
    exact ⟨e, by simp [Call.run, hrun]⟩

/-- Taking a live block back. -/
theorem run_dealloc (S : Superslice) {chunks : Chunks} {live : List Live} {layout : Layout}
    {b : Live} (h : Arena.Inv capacity ⟨⟨chunks, memoryBuffer⟩, live⟩) (hb : b ∈ live)
    (hfits : Fits layout b) :
    ∃ chunks', (Call.dealloc b.ptr layout).run S memoryBuffer chunks = .ok (.deallocated, chunks') ∧
      Arena.Inv capacity ⟨⟨chunks', memoryBuffer⟩, live.erase b⟩ := by
  obtain ⟨halign, hlow, hhigh⟩ := hfits
  have hcases := h.dealloc_cases S hb halign hlow hhigh
  rcases hcases with ⟨-, hrun⟩ | ⟨i, v, -, -, hrun, -⟩
  · exact ⟨chunks, by simp [Call.run, hrun], h.dealloc hb halign hlow hhigh hrun⟩
  · exact ⟨⟨v⟩, by simp [Call.run, hrun], h.dealloc hb halign hlow hhigh hrun⟩

/-- What a call does to the live blocks, when it acts. -/
theorem Accounts.act (h : Accounts capacity memoryBuffer a inFlight) {t : T} {call : Call}
    {chunks' : Chunks} {r : Checked Reply} (hstage : a.stage t = .called call)
    (hdoes : Does (code S memoryBuffer) call a.data chunks' r) :
    (∃ reply, r = .ok reply ∧ call.run S memoryBuffer a.data = .ok (reply, chunks')) ∧
      ∃ inFlight', Accounts capacity memoryBuffer
        ({ a with data := chunks' }.goto t (.done call r)) inFlight' := by
  have hrun := does_eq S memoryBuffer hdoes
  have hothers : ∀ u, u ≠ t →
      ({ a with data := chunks' }.goto t (.done call r)).stage u = a.stage u :=
    fun u hu => Object.goto_stage_of_ne hu
  cases call with
  | allocExcess layout =>
    have hfree : t ∉ inFlight.map Prod.fst := h.carried.not_mem fun b hb => by
      rw [hstage] at hb
      cases hb
    rcases run_allocExcess S layout h.arena with
      ⟨excess, chunks₁, hok, hinv⟩ | ⟨e, hok⟩
    · rw [hok] at hrun
      cases r with
      | error p => cases hrun
      | ok reply =>
        cases hrun
        refine ⟨⟨_, rfl, hok⟩, (t, ⟨excess.ptr, layout, excess.usable⟩) :: inFlight, ?_,
          h.carried.take hothers hfree ?_⟩
        · exact arenaInv_perm hinv List.perm_middle.symm
        · rw [Object.goto_stage_self]
          exact .allocated
    · rw [hok] at hrun
      cases r with
      | error p => cases hrun
      | ok reply =>
        cases hrun
        refine ⟨⟨_, rfl, hok⟩, inFlight, h.arena, h.carried.keep hothers hfree ?_⟩
        rw [Object.goto_stage_self]
        exact .refused
  | dealloc ptr layout =>
    obtain ⟨b, hb, hcarries⟩ := h.carried.exists_mem (t := t) fun hnone => by
      rw [hstage] at hnone
      cases hnone
    rw [hstage] at hcarries
    cases hcarries with
    | freeing hfits =>
      have hmem : b ∈ inFlight.map Prod.snd := List.mem_map.mpr ⟨(t, b), hb, rfl⟩
      obtain ⟨chunks₁, hok, hinv⟩ :=
        run_dealloc S h.arena (List.mem_append_right a.books hmem) hfits
      rw [hok] at hrun
      cases r with
      | error p => cases hrun
      | ok reply =>
        cases hrun
        refine ⟨⟨_, rfl, hok⟩, inFlight.erase (t, b), ?_, h.carried.drop hothers hb ?_⟩
        · refine arenaInv_perm hinv ?_
          have hperm : (a.books ++ inFlight.map Prod.snd).Perm
              (b :: (a.books ++ (inFlight.erase (t, b)).map Prod.snd)) :=
            (((List.perm_cons_erase hb).map Prod.snd).append_left _).trans List.perm_middle
          simpa using hperm.erase b
        · rw [Object.goto_stage_self]
          exact .freed

/-- **Every step of the object keeps the accounts.** -/
theorem Accounts.step (h : Accounts capacity memoryBuffer a inFlight)
    {e : Event T Input Call (Checked Reply)}
    (hacts : Acts (code S memoryBuffer) clients a e a') :
    ∃ inFlight', Accounts capacity memoryBuffer a' inFlight' := by
  have hothers : ∀ u, u ≠ e.caller → a'.stage u = a.stage u := fun u hu => hacts.stage_of_ne hu
  cases hacts with
  | @invoke t i pool call hstage hinvoke =>
    have hfree : t ∉ inFlight.map Prod.fst := h.carried.not_mem fun b hb => by
      rw [hstage] at hb
      cases hb
    cases i with
    | allocExcess layout =>
      cases hinvoke
      refine ⟨inFlight, h.arena, h.carried.keep hothers hfree ?_⟩
      simp only [Event.caller, Object.goto_stage_self]
      exact .allocating
    | dealloc n layout =>
      simp only [clients] at hinvoke
      split at hinvoke
      · next b hn =>
        split at hinvoke
        · next hfits =>
          cases hinvoke
          have hb : b ∈ a.books := List.mem_of_getElem? hn
          refine ⟨(t, b) :: inFlight, ?_, h.carried.take hothers hfree ?_⟩
          · refine arenaInv_perm h.arena ?_
            exact ((List.perm_cons_erase hb).append_right _).trans List.perm_middle.symm
          · rw [Object.goto_stage_self]
            exact .freeing hfits
        · cases hinvoke
      · cases hinvoke
  | @act t call chunks' r hstage hdoes => exact (h.act hstage hdoes).2
  | @receive t call r hstage =>
    -- by what the call has in its hands
    by_cases hmem : t ∈ inFlight.map Prod.fst
    · obtain ⟨⟨u, b⟩, hb, rfl⟩ := List.mem_map.mp hmem
      have hcarries := h.carried.some hb
      rw [show a.stage u = _ from hstage] at hcarries
      cases hcarries with
      | @allocated layout excess =>
        refine ⟨inFlight.erase (u, _), ?_, h.carried.drop hothers hb ?_⟩
        · refine arenaInv_perm h.arena ?_
          exact (((List.perm_cons_erase hb).map Prod.snd).append_left _).trans List.perm_middle
        · simp only [Event.caller, Object.goto_stage_self]
          exact .idle
    · have hcarries := h.carried.none hmem
      rw [hstage] at hcarries
      refine ⟨inFlight, ?_, h.carried.keep hothers hmem ?_⟩
      · cases hcarries <;> exact h.arena
      · simp only [Event.caller, Object.goto_stage_self]
        exact .idle

omit [DecidableEq T] in
/-- Nobody has a block, and all chunks are free. -/
theorem accounts_start {env : Environment} {self : ShmemAlloc}
    (hnew : ShmemAlloc.new env S capacity = .ok (.ok self)) :
    Accounts capacity self.memoryBuffer
      (Object.start self.freeChunks [] : Object T Chunks (List Live) Call (Checked Reply)) [] where
  arena := Arena.inv_new hnew
  carried := ⟨List.nodup_nil, fun hmem => (List.not_mem_nil hmem).elim, fun _ => .idle⟩

variable {env : Environment} {self : ShmemAlloc}
  {atr : List (Object T Chunks (List Live) Call (Checked Reply) ×
    Event T Input Call (Checked Reply))}

theorem accounts_of_run (hnew : ShmemAlloc.new env S capacity = .ok (.ok self))
    (hrun : Run (Acts (code S self.memoryBuffer) clients) (Object.start self.freeChunks []) atr a) :
    Everywhere (fun a => ∃ inFlight, Accounts capacity self.memoryBuffer a inFlight) atr a :=
  hrun.everywhere' ⟨[], accounts_start hnew⟩ fun ⟨_, h⟩ hacts => h.step hacts

end Accounting

/-! ## Runs of many threads -/

/-- The sequential object: what a call leaves behind, and what it returns. -/
def Call.apply (call : Call) (chunks : Chunks) : Chunks × Checked Reply :=
  match call.run S memoryBuffer chunks with
  | .ok (reply, chunks) => (chunks, .ok reply)
  | .error p => (chunks, .error p)

/-- The threads of the clients, with an allocator. -/
abbrev State (T : Type) : Type :=
  Monitor.Config T (Chunks × List Live) (Point Call Section (Checked Reply)) Empty

/-- One atomic step of some thread. -/
abbrev Step [DecidableEq T] (self : ShmemAlloc) :
    State T → Monitor.Label T Input → State T → Prop :=
  Monitor.Step (program (code S self.memoryBuffer) clients)

/-- The calls, replies and returns of a run. -/
abbrev events (self : ShmemAlloc) (tr : List (State T × Monitor.Label T Input)) :
    List (Event T Input Call (Checked Reply)) :=
  observed (code S self.memoryBuffer) clients tr

section Runs

variable [DecidableEq T] {S : Superslice} {capacity : ℕ} {env : Environment} {self : ShmemAlloc}
  {tr : List (State T × Monitor.Label T Input)} {c : State T}

/-- The state of the object that a run of the threads stands for. -/
theorem object_of_run (hnew : ShmemAlloc.new env S capacity = .ok (.ok self))
    (hrun : Run (Step S self) (start self.freeChunks []) tr c) :
    ∃ atr a inFlight,
      Run (Acts (code S self.memoryBuffer) clients) (Object.start self.freeChunks []) atr a ∧
      Related (code S self.memoryBuffer) c a ∧ atr.map Prod.snd = events S self tr ∧
      Accounts capacity self.memoryBuffer a inFlight := by
  obtain ⟨atr, a, harun, hrel, hevents⟩ := exists_run hrun
  obtain ⟨inFlight, haccounts⟩ := (accounts_of_run hnew harun).1
  exact ⟨atr, a, inFlight, harun, hrel, hevents, haccounts⟩

/-- **The shared allocator is linearizable**: in every run of any number of threads, the calls in
the order in which they act are a sequential history of `alloc_excess` and `dealloc`; whenever the
mutex is free, the manager is what this history leaves behind; and each thread's calls act one after
the other, between their beginning and their end, and return what they return in the history. -/
theorem calls_linearizable (hnew : ShmemAlloc.new env S capacity = .ok (.ok self))
    (hrun : Run (Step S self) (start self.freeChunks []) tr c) :
    ∃ chunks, Legal (Call.apply S self.memoryBuffer) self.freeChunks (history (events S self tr))
        chunks ∧
      (c.owner = none → c.shared.1 = chunks) ∧
      ∀ t, (∃ due, due.length ≤ 1 ∧ invoked t (events S self tr) =
          due ++ (acted t (events S self tr)).map Prod.fst) ∧
        ∃ owed, owed.length ≤ 1 ∧
          acted t (events S self tr) = owed ++ received t (events S self tr) := by
  obtain ⟨atr, a, inFlight, harun, hrel, hevents, -⟩ := object_of_run hnew hrun
  have hex : Monitor.Exclusive Point.holding c :=
    hrun.invariant' (exclusive_start _ _) fun h hstep => h.step (disciplined _ _) hstep
  rw [← hevents]
  refine ⟨a.data, ?_, fun hfree => hrel.data fun t hin => ?_, fun t => ?_⟩
  · refine legal harun (accounts_of_run hnew harun) ?_
    rintro a t call chunks' r ⟨_, h⟩ hstage hdoes
    obtain ⟨⟨reply, rfl, hcall⟩, -⟩ := h.act hstage hdoes
    simp only [Call.apply, hcall]
  · cases hfree.symm.trans (hin.owner hex)
  · obtain ⟨hdue, howed⟩ := calls_in_turn harun t
    refine ⟨⟨_, ?_, hdue⟩, _, ?_, howed⟩
    · cases a.stage t <;> simp [Stage.due]
    · cases a.stage t <;> simp [Stage.owed]

/-- Sixteen bytes. -/
def exampleAlloc : ShmemAlloc := ⟨⟨⟨2, [⟨⟨0⟩, 2⟩]⟩⟩, 4096⟩

def exampleLayout : Layout := ⟨6, 2, ⟨1, rfl⟩, by decide⟩

/-- Two threads allocate; the second one waits until the first one has cut its block. -/
def exampleScript : List (Monitor.Label Bool Input) :=
  [.ask false (.allocExcess exampleLayout), .ask true (.allocExcess exampleLayout), .run false,
    .run true, .run false, .run false, .expire true, .run false, .run false, .run false, .run false,
    .run true, .run false, .run true, .run true, .run true, .run true]

theorem calls_linearizable_example : ∃ tr, ∃ c : State Bool,
    Run (Step .linear exampleAlloc) (start exampleAlloc.freeChunks []) tr c ∧
    c.owner = none ∧ c.shared.2.length = 2 ∧
    Legal (Call.apply .linear 4096) exampleAlloc.freeChunks
      (history (events .linear exampleAlloc tr)) c.shared.1 := by
  obtain ⟨tr, c, hrun, -, htest⟩ := Monitor.exists_run_of_exec
    (program (code .linear exampleAlloc.memoryBuffer) clients) (fun _ _ => true)
    (start exampleAlloc.freeChunks []) exampleScript
    (fun c => c.owner = none ∧ c.shared.2.length = 2) (by decide)
  obtain ⟨hfree, hpool⟩ := of_decide_eq_true htest
  have hnew : ShmemAlloc.new Arena.exampleEnvironment .linear 16 = .ok (.ok exampleAlloc) := by
    decide
  obtain ⟨chunks, hlegal, hsame, -⟩ := calls_linearizable hnew hrun
  refine ⟨tr, c, hrun, hfree, hpool, ?_⟩
  rw [hsame hfree]
  exact hlegal

/-- **What the clients hold is theirs**, at every step of every run, whatever the other threads are
in the middle of: their blocks are aligned, large enough and inside the buffer, and share no byte;
no call panics; and when all calls have ended, every chunk is free or in one of the blocks, and in
one only. -/
theorem blocks_at_every_step (hnew : ShmemAlloc.new env S capacity = .ok (.ok self))
    (hrun : Run (Step S self) (start self.freeChunks []) tr c) :
    (∀ b ∈ c.shared.2, b.layout.size ≠ 0 →
      b.ptr % b.layout.align = 0 ∧ b.layout.size ≤ b.usable ∧
      self.memoryBuffer ≤ b.ptr ∧ b.ptr + b.usable ≤ self.memoryBuffer + capacity) ∧
    (c.shared.2.Pairwise fun a b => Disjoint a.bytes b.bytes) ∧
    (∀ t call p, c.threads t ≠ .running (.leaving call (.error p)) ∧
      c.threads t ≠ .running (.returning call (.error p))) ∧
    ((∀ t, c.threads t = .running .idle) →
      Tiles (capacity / alignment) (c.shared.1.freeChunks.items.map FreeSpace.span ++
        c.shared.2.map (Live.span self.memoryBuffer))) := by
  obtain ⟨atr, a, inFlight, -, hrel, -, haccounts⟩ := object_of_run hnew hrun
  rw [hrel.books]
  refine ⟨fun b hb hsize => ?_, ?_, fun t call p => ?_, fun hidle => ?_⟩
  · exact haccounts.arena.block_ok (List.mem_append_left _ hb) hsize
  · exact haccounts.arena.bytes_disjoint.sublist (List.sublist_append_left _ _)
  · -- a call that has acted has a reply
    have hdone : ∀ call r, a.stage t = .done call r → r ≠ .error p := by
      rintro call r hstage rfl
      have hcarries : ∀ b, ¬ Carries (a.stage t) b := by
        rw [hstage]
        intro b hb
        cases hb
      exact hcarries _ (haccounts.carried.none (haccounts.carried.not_mem fun b => hcarries _))
    constructor
    · intro ht
      obtain ⟨l, hl, hrep⟩ := hrel.threads t
      cases ht.symm.trans hl
      generalize hstage : a.stage t = stage at hrep
      cases hrep
      exact hdone _ _ hstage rfl
    · intro ht
      obtain ⟨l, hl, hrep⟩ := hrel.threads t
      cases ht.symm.trans hl
      generalize hstage : a.stage t = stage at hrep
      cases hrep
      exact hdone _ _ hstage rfl
  · have hstages : ∀ t, a.stage t = .idle := by
      intro t
      obtain ⟨l, hl, hrep⟩ := hrel.threads t
      cases (hidle t).symm.trans hl
      generalize hstage : a.stage t = stage at hrep
      cases hrep
      rfl
    have hnone : inFlight = [] := by
      refine List.eq_nil_iff_forall_not_mem.mpr fun ⟨t, b⟩ hb => ?_
      have hcarries := haccounts.carried.some hb
      rw [hstages] at hcarries
      cases hcarries
    have hdata : c.shared.1 = a.data := hrel.data fun t ⟨o, b, hb⟩ => by
      cases (hidle t).symm.trans hb
    have htiles := haccounts.arena.freeList.tiles
    rw [hnone, List.map_nil, List.append_nil] at htiles
    rw [hdata]
    exact htiles

/-- Both blocks have been handed out, and nothing is free. -/
theorem blocks_at_every_step_example : ∃ tr, ∃ c : State Bool,
    Run (Step .linear exampleAlloc) (start exampleAlloc.freeChunks []) tr c ∧
    c.shared.2.length = 2 ∧ c.shared.2.Pairwise (fun a b => Disjoint a.bytes b.bytes) ∧
    c.shared.1.freeChunks.items = [] := by
  obtain ⟨tr, c, hrun, -, htest⟩ := Monitor.exists_run_of_exec
    (program (code .linear exampleAlloc.memoryBuffer) clients) (fun _ _ => true)
    (start exampleAlloc.freeChunks []) exampleScript
    (fun c => c.shared.2.length = 2 ∧ c.shared.1.freeChunks.items = []) (by decide)
  obtain ⟨hpool, hempty⟩ := of_decide_eq_true htest
  have hnew : ShmemAlloc.new Arena.exampleEnvironment .linear 16 = .ok (.ok exampleAlloc) := by
    decide
  exact ⟨tr, c, hrun, hpool, (blocks_at_every_step hnew hrun).2.1, hempty⟩

end Runs

/-! ## Every call ends -/

/-- How many steps a critical section has left: each merge takes a free chunk out of the list. -/
def Section.left : Section → ℕ → ℕ
  | .search _, n => 2 * n + 6
  | .take _ _, n => 2 * n + 5
  | .giveBack _ _, n => 2 * n + 5
  | .isEmpty _ _, n => 2 * n + 4
  | .findAndMerge _ _, n => 2 * n + 3
  | .remove _ _ _, n => 2 * n + 2
  | .push _ _, _ => 1

theorem Section.left_mono (b : Section) {n n' k : ℕ} (h : n' ≤ n + k) :
    b.left n' ≤ b.left n + 2 * k := by
  cases b <;> simp only [left] <;> omega

theorem length_of_pop {v v' : FixesSortedVec FreeSpace} {idx : ℕ} {e : FreeSpace}
    (h : v.pop idx = .ok (e, v')) : v'.items.length + 1 = v.items.length := by
  simp only [FixesSortedVec.pop] at h
  split at h
  · next hidx =>
    cases h
    exact List.length_eraseIdx_add_one (List.getElem?_eq_some_iff.mp hidx).1
  · cases h

theorem length_of_push {v v' : FixesSortedVec FreeSpace} {e : FreeSpace}
    (h : v.push S e = .ok v') : v'.items.length = v.items.length + 1 := by
  simp only [FixesSortedVec.push, FixesSortedVec.insert] at h
  split at h
  · cases h
  · split at h
    · next hidx =>
      cases h
      exact List.length_insertIdx_of_le_length hidx e
    · cases h

section Lengths

variable {S memoryBuffer} {b b' : Section} {chunks chunks' : Chunks} {r : Checked Reply}

/-- A step inside a critical section makes the list no longer, and the section shorter. -/
theorem length_of_more (h : step S memoryBuffer b chunks = (chunks', .inl b')) :
    chunks'.freeChunks.items.length ≤ chunks.freeChunks.items.length ∧
      b'.left chunks'.freeChunks.items.length < b.left chunks.freeChunks.items.length := by
  cases b with
  | search layout =>
    simp only [step] at h
    split at h
    · cases h
    · split at h <;> cases h
      exact ⟨le_rfl, by simp only [Section.left]; omega⟩
  | take requiredChunks idx =>
    simp only [step] at h
    split at h
    · cases h
    · next space v hpop =>
      have hlength := length_of_pop hpop
      simp only [Prod.mk.injEq] at h
      obtain ⟨rfl, h⟩ := h
      split at h <;> cases h
      simp only [Section.left]
      omega
  | giveBack shift size =>
    simp only [step, Prod.mk.injEq] at h
    obtain ⟨rfl, h⟩ := h
    split at h
    · cases h
    · split at h
      · cases h
      · split at h <;> cases h
        exact ⟨le_rfl, by simp only [Section.left]; omega⟩
  | isEmpty after chunk =>
    simp only [step, Prod.mk.injEq, Sum.inl.injEq] at h
    obtain ⟨rfl, rfl⟩ := h
    refine ⟨le_rfl, ?_⟩
    split <;> simp only [Section.left] <;> omega
  | findAndMerge after chunk =>
    simp only [step, Prod.mk.injEq] at h
    obtain ⟨rfl, h⟩ := h
    refine ⟨le_rfl, ?_⟩
    split at h <;> cases h <;> simp only [Section.left] <;> omega
  | remove after id merged =>
    simp only [step] at h
    split at h
    · cases h
    · next space v hpop =>
      have hlength := length_of_pop hpop
      cases h
      simp only [Section.left]
      omega
  | push after chunk =>
    simp only [step] at h
    split at h <;> cases h

/-- The step that ends one makes the list at most one longer. -/
theorem length_of_last (h : step S memoryBuffer b chunks = (chunks', .inr r)) :
    chunks'.freeChunks.items.length ≤ chunks.freeChunks.items.length + 1 := by
  cases b with
  | search layout =>
    simp only [step] at h
    split at h
    · cases h
      omega
    · split at h <;> cases h
      omega
  | take requiredChunks idx =>
    simp only [step] at h
    split at h
    · cases h
      omega
    · next space v hpop =>
      have hlength := length_of_pop hpop
      simp only [Prod.mk.injEq] at h
      obtain ⟨rfl, -⟩ := h
      dsimp only
      omega
  | giveBack shift size =>
    simp only [step, Prod.mk.injEq] at h
    obtain ⟨rfl, -⟩ := h
    omega
  | isEmpty after chunk =>
    cases h
  | findAndMerge after chunk =>
    simp only [step, Prod.mk.injEq] at h
    obtain ⟨rfl, -⟩ := h
    omega
  | remove after id merged =>
    simp only [step] at h
    split at h <;> cases h
    omega
  | push after chunk =>
    simp only [step] at h
    split at h
    · cases h
      omega
    · next v hpush =>
      have hlength := length_of_push S hpush
      cases h
      dsimp only
      omega

end Lengths

def measure : Measure (code S memoryBuffer) where
  left b chunks := b.left chunks.freeChunks.items.length
  growth := 2
  more h := by
    obtain ⟨hle, hlt⟩ := length_of_more h
    exact ⟨hlt, fun k => k.left_mono (k := 0) hle⟩
  last h k := k.left_mono (length_of_last h)

section Runs

variable {T : Type} [DecidableEq T] {S : Superslice} {self : ShmemAlloc}
  {tr : List (State T × Monitor.Label T Input)} {c : State T}

/-- **Every call ends**: from every state that the threads reach they can take a bounded number of
steps without a new call, in whatever order, and they can take one until all calls have returned and
the mutex is free. -/
theorem every_call_ends (hrun : Run (Step S self) (start self.freeChunks []) tr c) :
    ∃ n, ∀ tr' c', Run (Step S self) c tr' c' →
      Throughout (Monitor.Unprompted noInput) tr' →
      tr'.length ≤ n ∧ ((c'.owner = none ∧ ∀ t, c'.threads t = .running .idle) ↔
        ∀ i c'', Monitor.Unprompted noInput c' i → ¬ Step S self c' i c'') :=
  bounded_without_calls (measure S self.memoryBuffer) hrun

/-- One thread is cutting its block, and the other one waits for the mutex. -/
theorem every_call_ends_example : ∃ tr, ∃ c : State Bool,
    Run (Step .linear exampleAlloc) (start exampleAlloc.freeChunks []) tr c ∧
    c.owner = some false ∧ ∃ n, ∀ tr' c', Run (Step .linear exampleAlloc) c tr' c' →
      Throughout (Monitor.Unprompted noInput) tr' → tr'.length ≤ n := by
  obtain ⟨tr, c, hrun, -, htest⟩ := Monitor.exists_run_of_exec
    (program (code .linear exampleAlloc.memoryBuffer) clients) (fun _ _ => true)
    (start exampleAlloc.freeChunks []) (exampleScript.take 8)
    (fun c => c.owner = some false) (by decide)
  obtain ⟨n, hn⟩ := every_call_ends hrun
  exact ⟨tr, c, hrun, of_decide_eq_true htest, n, fun tr' c' hrun' hown => (hn tr' c' hrun' hown).1⟩

end Runs

end ShmemUtils.Allocator.Concurrent
