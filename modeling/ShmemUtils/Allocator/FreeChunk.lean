import ShmemUtils.Word
import ShmemUtils.Library.Spans

/-!
# Free chunks

`src/allocator/free_chunk.rs`: a run of elementary chunks of the buffer, cut by `split` and joined
to a neighbour by `merge`. Each run is read as a span of chunk indices (`FreeSpace.span`), and the
operations are characterised on spans.
-/

namespace ShmemUtils.Allocator

open ShmemUtils.Library

/-- `ShmemAlloc::ALIGNMENT` -/
def alignment : ℕ := 8

/-- `Chunks::CHUNK_SIZE` -/
def chunkSize : ℕ := alignment

/-- Relative beginning, in chunks. -/
structure RelativeBeginning where
  chunks : ℕ
deriving DecidableEq, Repr

namespace RelativeBeginning

def zero : RelativeBeginning := ⟨0⟩

-- `impl Add<usize> for RelativeBeginning`
def add (self : RelativeBeginning) (rhs : ℕ) : Checked RelativeBeginning := do
  let chunks ← Usize.add self.chunks rhs
  return ⟨chunks⟩

def fromBytes (bytes : ℕ) : RelativeBeginning := ⟨bytes / chunkSize⟩

def intoAbsolute (self : RelativeBeginning) (base : ℕ) : Checked ℕ := do
  let shift ← Usize.mul self.chunks chunkSize
  Usize.add base shift

theorem add_eq {b : RelativeBeginning} {n : ℕ} (h : b.chunks + n < usizeLimit) :
    b.add n = .ok ⟨b.chunks + n⟩ := by
  simp [add, Usize.add_eq h]

theorem intoAbsolute_eq {b : RelativeBeginning} {base : ℕ}
    (h : base + b.chunks * chunkSize < usizeLimit) :
    b.intoAbsolute base = .ok (base + b.chunks * chunkSize) := by
  have hmul : b.chunks * chunkSize < usizeLimit := by omega
  simp [intoAbsolute, Usize.mul_eq hmul, Usize.add_eq h]

end RelativeBeginning

/-- A run of `count` free chunks. -/
structure FreeSpace where
  relativeBeginning : RelativeBeginning
  count : ℕ
deriving DecidableEq, Repr

namespace FreeSpace

-- a debug build asserts that the count is not zero
def new (shift : RelativeBeginning) (count : ℕ) : Checked FreeSpace :=
  if count = 0 then .error .emptySpace else .ok ⟨shift, count⟩

def begin (self : FreeSpace) : RelativeBeginning := self.relativeBeginning

/-- Checks whether `left` ends where `right` begins. -/
def areContiguous (left right : FreeSpace) : Checked Bool := do
  let stop ← left.relativeBeginning.add left.count
  return stop == right.relativeBeginning

/-- Splits the space into the required one and what is left unused, if anything is. -/
def split (self : FreeSpace) (requiredChunks : ℕ) : Checked (FreeSpace × Option FreeSpace) :=
  match Usize.checkedSub self.count requiredChunks with
  | none => .error .notEnoughChunks
  | some unusedChunks =>
    if unusedChunks = 0 then
      .ok (self, none)
    else do
      let beginning ← self.relativeBeginning.add requiredChunks
      return (⟨self.relativeBeginning, requiredChunks⟩, some ⟨beginning, unusedChunks⟩)

/-- Merges the space with an adjacent one. -/
def merge (self other : FreeSpace) : Checked (Option FreeSpace) := do
  if ← areContiguous self other then
    let count ← Usize.add self.count other.count
    return some ⟨self.relativeBeginning, count⟩
  else if ← areContiguous other self then
    let count ← Usize.add self.count other.count
    return some ⟨other.relativeBeginning, count⟩
  else
    return none

-- by count, then by beginning
instance : Ord FreeSpace where
  compare a b := (compare a.count b.count).then
    (compare a.relativeBeginning.chunks b.relativeBeginning.chunks)

/-- The order of the source, spelled out. -/
theorem compare_isLE_iff {a b : FreeSpace} : (compare a b).isLE = true ↔
    a.count < b.count ∨
      a.count = b.count ∧ a.relativeBeginning.chunks ≤ b.relativeBeginning.chunks := by
  change ((compare a.count b.count).then
    (compare a.relativeBeginning.chunks b.relativeBeginning.chunks)).isLE = true ↔ _
  rcases Nat.lt_trichotomy a.count b.count with hlt | heq | hgt
  · simp [Nat.compare_eq_lt.mpr hlt, hlt, Ordering.then]
  · simp [heq, Ordering.then, Nat.isLE_compare]
  · have hne : ¬ a.count < b.count := by omega
    have hne' : a.count ≠ b.count := by omega
    simp [Nat.compare_eq_gt.mpr hgt, hne, hne', Ordering.then]

/-! ## Spaces as spans of chunk indices -/

def span (self : FreeSpace) : Span := ⟨self.relativeBeginning.chunks, self.count⟩

@[simp] theorem span_len (s : FreeSpace) : s.span.len = s.count := rfl

theorem span_start (s : FreeSpace) : s.span.start = s.relativeBeginning.chunks := rfl

theorem span_stop (s : FreeSpace) : s.span.stop = s.relativeBeginning.chunks + s.count := rfl

theorem span_injective : Function.Injective span := by
  rintro ⟨⟨a⟩, m⟩ ⟨⟨b⟩, n⟩ h
  simp only [span, Span.mk.injEq] at h
  obtain ⟨rfl, rfl⟩ := h
  rfl

/-! ## What the operations do, inside the word -/

theorem new_eq {shift : RelativeBeginning} {count : ℕ} (h : 0 < count) :
    new shift count = .ok ⟨shift, count⟩ := if_neg (by omega)

theorem areContiguous_eq {left right : FreeSpace} (h : left.span.stop < usizeLimit) :
    areContiguous left right = .ok (decide (left.span.stop = right.span.start)) := by
  have hb : ∀ a b : ℕ, ((⟨a⟩ : RelativeBeginning) == ⟨b⟩) = decide (a = b) := by
    intro a b
    by_cases hab : a = b <;> simp [hab]
  rw [span_stop] at h
  rw [areContiguous, RelativeBeginning.add_eq h, checked_ok_bind, checked_pure, span_stop,
    span_start,
    ← hb]

/-- Cutting a space that is larger than required. -/
theorem split_eq_some {s : FreeSpace} {k : ℕ} (hk : k < s.count) (h : s.span.stop < usizeLimit) :
    s.split k = .ok (⟨s.relativeBeginning, k⟩,
      some ⟨⟨s.relativeBeginning.chunks + k⟩, s.count - k⟩) := by
  rw [span_stop] at h
  have hadd : s.relativeBeginning.chunks + k < usizeLimit := by omega
  have hne : s.count - k ≠ 0 := by omega
  simp [split, Usize.checkedSub_eq hk.le, hne, RelativeBeginning.add_eq hadd]

/-- A space of exactly the required size is handed out whole. -/
theorem split_eq_none (s : FreeSpace) : s.split s.count = .ok (s, none) := by
  simp [split, Usize.checkedSub_eq (le_refl s.count)]

/-- The three outcomes of `merge`: the neighbour ends where this space begins, the other way
round, or the two are not adjacent. -/
theorem merge_eq {s t : FreeSpace} (hs : s.span.stop < usizeLimit) (ht : t.span.stop < usizeLimit)
    (hcount : s.count + t.count < usizeLimit) :
    s.merge t = .ok (
      if s.span.stop = t.span.start then some ⟨s.relativeBeginning, s.count + t.count⟩
      else if t.span.stop = s.span.start then some ⟨t.relativeBeginning, s.count + t.count⟩
      else none) := by
  unfold merge
  rw [areContiguous_eq hs, areContiguous_eq ht, Usize.add_eq hcount]
  by_cases h₁ : s.span.stop = t.span.start
  · simp [h₁]
  · by_cases h₂ : t.span.stop = s.span.start <;> simp [h₁, h₂]

end FreeSpace

end ShmemUtils.Allocator
