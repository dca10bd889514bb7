import Mathlib

/-!
# Machine words and panics

The arithmetic of `usize` as the crate uses it on a 64-bit target, and the panics its code can
reach. A plain `+` or `*` that leaves the word is recorded as a panic: a debug build stops there,
and a release build goes on with the wrapped value. A result proved to be `.ok` is therefore the
same in both.
-/

namespace ShmemUtils

/-- One past the greatest `usize`. -/
def usizeLimit : ℕ := 2 ^ 64

/-- The ways in which the modelled code can panic. -/
inductive Panic where
  -- `attempt to add with overflow`, `attempt to multiply with overflow`
  | overflow
  -- `debug_assert_ne!(count, 0)` in `FreeSpace::new`
  | emptySpace
  -- `expect("Not enough chunks at the first place")` in `FreeSpace::split`
  | notEnoughChunks
  -- `assert_ne!(self.0.capacity(), self.0.len())` in `FixesSortedVec::push`
  | noSpareCapacity
  -- an index past the end, in `Vec::insert` or `Vec::remove`
  | indexOutOfBounds
  -- `expect("Should be ok")` in `Chunks::return_back`
  | countOverflow
  -- `assert_eq!(shift % Self::CHUNK_SIZE, 0)` in `Chunks::return_back`
  | unalignedShift
  -- `expect("Should be well-formed")` in `ShmemAlloc::new`
  | notWellFormed
deriving DecidableEq, Repr

/-- The result of code that may panic. -/
abbrev Checked (α : Type) : Type := Except Panic α

namespace Usize

def add (a b : ℕ) : Checked ℕ :=
  if a + b < usizeLimit then .ok (a + b) else .error .overflow

def mul (a b : ℕ) : Checked ℕ :=
  if a * b < usizeLimit then .ok (a * b) else .error .overflow

def checkedAdd (a b : ℕ) : Option ℕ :=
  if a + b < usizeLimit then some (a + b) else none

def checkedSub (a b : ℕ) : Option ℕ :=
  if b ≤ a then some (a - b) else none

/-- `fetch_add` and `fetch_sub` wrap around in every build. -/
def wrappingAdd (a b : ℕ) : ℕ := (a + b) % usizeLimit

def wrappingSub (a b : ℕ) : ℕ := (a + usizeLimit - b) % usizeLimit

theorem add_eq {a b : ℕ} (h : a + b < usizeLimit) : add a b = .ok (a + b) := if_pos h

theorem mul_eq {a b : ℕ} (h : a * b < usizeLimit) : mul a b = .ok (a * b) := if_pos h

theorem checkedAdd_eq {a b : ℕ} (h : a + b < usizeLimit) : checkedAdd a b = some (a + b) :=
  if_pos h

theorem checkedSub_eq {a b : ℕ} (h : b ≤ a) : checkedSub a b = some (a - b) := if_pos h

/-- Wrapping around is arithmetic modulo the word. -/
theorem wrappingAdd_modEq {a b x : ℕ} (h : a ≡ x [MOD usizeLimit]) :
    wrappingAdd a b ≡ x + b [MOD usizeLimit] :=
  (Nat.mod_modEq _ _).trans (h.add_right b)

theorem wrappingSub_modEq {a b x : ℕ} (hb : b ≤ usizeLimit) (h : a ≡ x + b [MOD usizeLimit]) :
    wrappingSub a b ≡ x [MOD usizeLimit] := by
  refine Nat.ModEq.add_right_cancel' b ?_
  calc wrappingSub a b + b
      ≡ a + usizeLimit - b + b [MOD usizeLimit] := (Nat.mod_modEq _ _).add_right b
    _ = a + usizeLimit := by omega
    _ ≡ a [MOD usizeLimit] := Nat.add_modEq_right
    _ ≡ x + b [MOD usizeLimit] := h

end Usize

/-! ## Sequencing -/

@[simp] theorem checked_ok_bind {α β : Type} (a : α) (f : α → Checked β) :
    (Except.ok a : Checked α) >>= f = f a := rfl

@[simp] theorem checked_error_bind {α β : Type} (e : Panic) (f : α → Checked β) :
    (Except.error e : Checked α) >>= f = .error e := rfl

@[simp] theorem checked_pure {α : Type} (a : α) : (pure a : Checked α) = .ok a := rfl

end ShmemUtils
