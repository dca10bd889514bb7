import ShmemUtils.Word
import ShmemUtils.Library.SortedList

/-!
# Sorted vector of a fixed capacity

`src/allocator/chunks/sorted_vec.rs`. The vector is `alloc_collections::Vec`, modelled by its
capacity and its items; the binary searches are those of `superslice::Ext`, taken by their
documented contract (`Superslice`).
-/

namespace ShmemUtils.Allocator

open ShmemUtils.Library

/-- The searches of `superslice::Ext`, by their documentation: on a slice that the comparison cuts
in two, the index of the first element of the second part. -/
structure Superslice where
  lowerBoundBy : {α : Type} → List α → (α → Ordering) → ℕ
  upperBound : {α : Type} → [Ord α] → List α → α → ℕ
  -- the first element that does not compare `Less`
  lowerBoundBy_eq : ∀ {α : Type} (lo hi : List α) (f : α → Ordering),
    (∀ x ∈ lo, f x = .lt) → (∀ x ∈ hi, f x ≠ .lt) → lowerBoundBy (lo ++ hi) f = lo.length
  -- the first element that is greater than the given one
  upperBound_eq : ∀ {α : Type} [Ord α] (lo hi : List α) (item : α),
    (∀ x ∈ lo, compare x item ≠ .gt) → (∀ x ∈ hi, compare x item = .gt) →
      upperBound (lo ++ hi) item = lo.length

private theorem takeWhile_append_of_split {α : Type} (p : α → Bool) {lo hi : List α}
    (hlo : ∀ x ∈ lo, p x = true) (hhi : ∀ x ∈ hi, p x = false) :
    (lo ++ hi).takeWhile p = lo := by
  rw [List.takeWhile_append_of_pos hlo]
  cases hi with
  | nil => simp
  | cons a hi => simp [hhi a List.mem_cons_self]

/-- Searching from the front meets the contract. -/
def Superslice.linear : Superslice where
  lowerBoundBy l f := (l.takeWhile fun x => f x == .lt).length
  upperBound l item := (l.takeWhile fun x => compare x item != .gt).length
  lowerBoundBy_eq lo hi f hlo hhi := by
    rw [takeWhile_append_of_split _ (by simpa using hlo) (by simpa using hhi)]
  upperBound_eq lo hi item hlo hhi := by
    rw [takeWhile_append_of_split _ (by simpa using hlo) (by simpa using hhi)]

/-- `Vec::with_capacity_in` of an allocator: the capacity obtained, or `none` for an error. The
vector can hold at least what was asked for. -/
structure VecAllocator where
  withCapacityIn : ℕ → Option ℕ
  capacity_ge : ∀ {n c : ℕ}, withCapacityIn n = some c → n ≤ c

/-- The allocator that gives a vector exactly the capacity it asks for. -/
def VecAllocator.exact : VecAllocator where
  withCapacityIn n := some n
  capacity_ge h := by
    cases h
    exact Nat.le_refl _

/-- A vector that is kept sorted and never reallocated. -/
structure FixesSortedVec (α : Type) where
  capacity : ℕ
  items : List α
deriving DecidableEq, Repr

namespace FixesSortedVec

variable {α : Type}

def new (A : VecAllocator) (capacity : ℕ) : Option (FixesSortedVec α) :=
  (A.withCapacityIn capacity).map fun c => ⟨c, []⟩

-- `Vec::insert`, which panics past the end
def insert (self : FixesSortedVec α) (idx : ℕ) (item : α) : Checked (FixesSortedVec α) :=
  if idx ≤ self.items.length then
    .ok { self with items := self.items.insertIdx idx item }
  else
    .error .indexOutOfBounds

def push [Ord α] (S : Superslice) (self : FixesSortedVec α) (item : α) :
    Checked (FixesSortedVec α) :=
  if self.capacity = self.items.length then
    .error .noSpareCapacity
  else
    let idx := S.upperBound self.items item
    self.insert idx item

-- `Vec::remove` panics past the end
def pop (self : FixesSortedVec α) (index : ℕ) : Checked (α × FixesSortedVec α) :=
  match self.items[index]? with
  | some item => .ok (item, { self with items := self.items.eraseIdx index })
  | none => .error .indexOutOfBounds

def Sorted [Ord α] (items : List α) : Prop := items.Pairwise fun a b => (compare a b).isLE

theorem pop_append (c : ℕ) (lo hi : List α) (x : α) :
    pop ⟨c, lo ++ x :: hi⟩ lo.length = .ok (x, ⟨c, lo ++ hi⟩) := by
  simp [pop, eraseIdx_append_length]

private theorem isLE_iff_ne_gt {o : Ordering} : o.isLE = true ↔ o ≠ .gt := by
  cases o <;> simp

/-- Where `push` finds the place for its item. -/
theorem upperBound_split [Ord α] [Std.TransOrd α] (S : Superslice) {items : List α} (item : α)
    (hs : Sorted items) :
    ∃ lo hi, items = lo ++ hi ∧ (∀ x ∈ lo, (compare x item).isLE = true) ∧
      (∀ x ∈ hi, compare x item = .gt) ∧ S.upperBound items item = lo.length := by
  have hmono : items.Pairwise fun a b =>
      (compare b item).isLE = true → (compare a item).isLE = true :=
    hs.imp fun hab hb => Std.TransCmp.isLE_trans hab hb
  obtain ⟨lo, hi, heq, hlo, hhi⟩ := exists_partition (fun x => (compare x item).isLE) hmono
  have hgt : ∀ x ∈ hi, compare x item = .gt := by
    intro x hx
    have := hhi x hx
    cases hc : compare x item <;> simp_all
  refine ⟨lo, hi, heq, hlo, hgt, ?_⟩
  rw [heq]
  exact S.upperBound_eq lo hi item (fun x hx => isLE_iff_ne_gt.mp (hlo x hx)) hgt

/-- Behind what is not greater and in front of what is, an item keeps the order. -/
theorem sorted_insert [Ord α] [Std.TransOrd α] {lo hi : List α} {item : α}
    (hs : Sorted (lo ++ hi)) (hlo : ∀ x ∈ lo, (compare x item).isLE = true)
    (hgt : ∀ x ∈ hi, compare x item = .gt) : Sorted (lo ++ item :: hi) := by
  refine pairwise_insert hs hlo fun y hy => ?_
  have hswap : compare item y = (compare y item).swap := Std.OrientedCmp.eq_swap
  rw [hswap, hgt y hy]
  rfl

theorem insert_append (c : ℕ) (lo hi : List α) (item : α) :
    insert ⟨c, lo ++ hi⟩ lo.length item = .ok ⟨c, lo ++ item :: hi⟩ := by
  simp [insert, insertIdx_append_length]

/-- With capacity to spare, `push` puts the item behind every item that is not greater. -/
theorem push_eq [Ord α] [Std.TransOrd α] (S : Superslice) {v : FixesSortedVec α} (item : α)
    (hs : Sorted v.items) (hroom : v.items.length < v.capacity) :
    ∃ lo hi, v.items = lo ++ hi ∧ v.push S item = .ok { v with items := lo ++ item :: hi } ∧
      Sorted (lo ++ item :: hi) := by
  obtain ⟨c, items⟩ := v
  obtain ⟨lo, hi, rfl, hlo, hgt, hidx⟩ := upperBound_split S item hs
  refine ⟨lo, hi, rfl, ?_, sorted_insert hs hlo hgt⟩
  rw [push, if_neg hroom.ne', hidx, insert_append]

/-! ## Pushing many items -/

/-- The pushes of a list of items, one after the other. -/
def pushAll [Ord α] (S : Superslice) (self : FixesSortedVec α) :
    List α → Checked (FixesSortedVec α)
  | [] => .ok self
  | item :: items => do
    let self ← self.push S item
    self.pushAll S items

section Stable

variable [Ord α]

/-- `slice::sort`, which is stable. -/
def sort (items : List α) : List α := items.mergeSort fun a b => (compare a b).isLE

@[simp] theorem length_sort (items : List α) : (sort items).length = items.length :=
  List.length_mergeSort items

theorem sort_of_sorted {items : List α} (hs : Sorted items) : sort items = items :=
  List.mergeSort_of_pairwise hs

variable [Std.TransOrd α]

private theorem isLE_total (a b : α) : ((compare a b).isLE || (compare b a).isLE) = true := by
  have hswap : compare b a = (compare a b).swap := Std.OrientedCmp.eq_swap
  rw [hswap]
  cases compare a b <;> rfl

private theorem isLE_chain (a b c : α) (hab : (compare a b).isLE = true)
    (hbc : (compare b c).isLE = true) : (compare a c).isLE = true :=
  Std.TransCmp.isLE_trans hab hbc

theorem sorted_sort (items : List α) : Sorted (sort items) :=
  List.pairwise_mergeSort isLE_chain isLE_total items

theorem sort_append_sort (items items' : List α) :
    sort (sort items ++ items') = sort (items ++ items') :=
  mergeSort_append_mergeSort isLE_chain isLE_total items items'

/-- The place of `push` is behind everything tied with the item, as in a stable sort. -/
theorem insert_eq_sort {lo hi : List α} {item : α} (hs : Sorted (lo ++ item :: hi))
    (hgt : ∀ x ∈ hi, compare x item = .gt) : lo ++ item :: hi = sort (lo ++ hi ++ [item]) := by
  refine eq_mergeSort isLE_chain isLE_total hs fun x => ?_
  simp only [List.filter_append, List.filter_cons, List.filter_nil, List.append_assoc]
  split
  · next htied =>
    -- nothing behind the item is tied with it
    have hnil : hi.filter (tied (fun a b => (compare a b).isLE) x) = [] := by
      refine List.filter_eq_nil_iff.mpr fun y hy hxy => ?_
      have hle : (compare y item).isLE = true :=
        isLE_chain y x item (tied_iff.mp hxy).2 (tied_iff.mp htied).1
      rw [hgt y hy] at hle
      cases hle
    rw [hnil, List.nil_append]
  · rw [List.append_nil]

/-- `push` sorts its item in, stably, and panics exactly on a full vector. -/
theorem push_sort (S : Superslice) {v : FixesSortedVec α} (item : α) (hs : Sorted v.items) :
    v.push S item = if v.capacity = v.items.length then .error .noSpareCapacity
      else .ok ⟨v.capacity, sort (v.items ++ [item])⟩ := by
  obtain ⟨c, items⟩ := v
  obtain ⟨lo, hi, rfl, hlo, hgt, hidx⟩ := upperBound_split S item hs
  rw [push, hidx, insert_append, insert_eq_sort (sorted_insert hs hlo hgt) hgt]

theorem pushAll_sort (S : Superslice) (items : List α) {v : FixesSortedVec α}
    (hs : Sorted v.items) (hle : v.items.length ≤ v.capacity) :
    v.pushAll S items = if v.items.length + items.length ≤ v.capacity
      then .ok ⟨v.capacity, sort (v.items ++ items)⟩ else .error .noSpareCapacity := by
  induction items generalizing v with
  | nil =>
    rw [pushAll, List.append_nil, sort_of_sorted hs, List.length_nil, Nat.add_zero, if_pos hle]
  | cons item items ih =>
    rw [pushAll, push_sort S item hs]
    by_cases hfull : v.capacity = v.items.length
    · rw [if_pos hfull, checked_error_bind, if_neg]
      rw [List.length_cons]
      omega
    · have hlen : (sort (v.items ++ [item])).length = v.items.length + 1 := by simp
      have hroom : (sort (v.items ++ [item])).length ≤ v.capacity := by omega
      rw [if_neg hfull, checked_ok_bind, ih (sorted_sort _) hroom, hlen, sort_append_sort,
        List.append_assoc, List.singleton_append, List.length_cons, Nat.add_assoc,
        Nat.add_comm 1]

/-- **A fixed vector is a stable sort.** Pushed one by one into an empty vector, items that fit
end up as `sort` arranges them, ties in the order of their pushes; the first item that does not fit
panics. -/
theorem pushes_sort_stably (S : Superslice) (v : FixesSortedVec α) (items : List α)
    (hempty : v.items = []) :
    v.pushAll S items = if items.length ≤ v.capacity then .ok ⟨v.capacity, sort items⟩
      else .error .noSpareCapacity := by
  rw [pushAll_sort S items (by simp [hempty, Sorted]) (by simp [hempty]), hempty]
  simp

end Stable

/-- A number with a mark that the order does not see. -/
private structure Marked where
  number : ℕ
  mark : Bool
deriving DecidableEq

private instance : Ord Marked := ⟨compareOn Marked.number⟩

private instance : Std.TransOrd Marked := inferInstanceAs (Std.TransCmp (compareOn Marked.number))

private theorem sort_marked :
    sort [(⟨7, true⟩ : Marked), ⟨2, true⟩, ⟨7, false⟩, ⟨2, false⟩] =
      [⟨2, true⟩, ⟨2, false⟩, ⟨7, true⟩, ⟨7, false⟩] := by
  have hle (a b : Marked) : (compare a b).isLE = decide (a.number ≤ b.number) := by
    rw [show compare a b = compare a.number b.number from rfl, Bool.eq_iff_iff, Nat.isLE_compare,
      decide_eq_true_iff]
  simp [sort, List.mergeSort, hle]

/-- Of two sevens and two twos, the marked ones were pushed first and stay in front. -/
theorem pushes_sort_stably_example :
    pushAll .linear ⟨4, []⟩ [(⟨7, true⟩ : Marked), ⟨2, true⟩, ⟨7, false⟩, ⟨2, false⟩] =
      .ok ⟨4, [⟨2, true⟩, ⟨2, false⟩, ⟨7, true⟩, ⟨7, false⟩]⟩ ∧
    pushAll .linear ⟨3, []⟩ [(⟨7, true⟩ : Marked), ⟨2, true⟩, ⟨7, false⟩, ⟨2, false⟩] =
      .error .noSpareCapacity := by
  constructor
  · rw [pushes_sort_stably .linear ⟨4, []⟩ _ rfl, sort_marked]
    rfl
  · rw [pushes_sort_stably .linear ⟨3, []⟩ _ rfl]
    rfl

end FixesSortedVec

end ShmemUtils.Allocator
