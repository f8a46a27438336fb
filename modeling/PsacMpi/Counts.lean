import Mathlib.Algebra.Order.BigOperators.Group.List
import Mathlib.Algebra.Order.Ring.Nat
import Mathlib.Data.List.GetD

namespace PsacMpi.Counts

variable {T : Type}

def INT_MAX : Nat := 2147483647

/-- The type the code keeps a count in. Counts are never negative, so `int` holds those up to
`INT_MAX`; `exact` reads the counts without a limit. -/
inductive CountType
  | int
  | exact
deriving DecidableEq, Repr

namespace CountType

def Fits : CountType → Nat → Prop
  | int, n => n ≤ INT_MAX
  | exact, _ => True

instance : (c : CountType) → (n : Nat) → Decidable (c.Fits n)
  | int, n => inferInstanceAs (Decidable (n ≤ INT_MAX))
  | exact, _ => inferInstanceAs (Decidable True)

@[simp] theorem fits_int (n : Nat) : int.Fits n ↔ n ≤ INT_MAX := Iff.rfl

@[simp] theorem fits_exact (n : Nat) : exact.Fits n := trivial

theorem Fits.mono {c : CountType} {m n : Nat} (h : c.Fits n) (hm : m ≤ n) : c.Fits m := by
  cases c
  · exact Nat.le_trans hm h
  · trivial

@[simp] theorem fits_zero (c : CountType) : c.Fits 0 := by cases c <;> simp

def wrap : CountType → Nat → Nat
  | int, n => n % 2 ^ 32
  | exact, n => n

/-- A length stored into a count (`int local_size = std::distance(begin, end)`): `none` where the
wrapped value is negative as an `int`, which no count of MPI or `resize` accepts. -/
def ofSize (c : CountType) (n : Nat) : Option Nat := if c.Fits (c.wrap n) then some (c.wrap n) else none

/-- `a + b` on counts: `none` where `int` overflows, which C++ leaves undefined. -/
def add (c : CountType) (a b : Nat) : Option Nat := if c.Fits (a + b) then some (a + b) else none

/-- `std::accumulate(first, last, acc)` over counts. -/
def accumulate (c : CountType) : Nat → List Nat → Option Nat
  | acc, [] => some acc
  | acc, x :: xs => c.add acc x >>= fun s ↦ c.accumulate s xs

def exclScan (c : CountType) : Nat → List Nat → Option (List Nat)
  | _, [] => some []
  | sum, x :: xs => c.add sum x >>= fun s ↦ (sum :: ·) <$> c.exclScan s xs

theorem add_eq_some {c : CountType} {a b k : Nat} (h : c.add a b = some k) : k = a + b := by
  unfold add at h
  split_ifs at h
  exact (Option.some.inj h).symm

@[simp] theorem ofSize_exact (n : Nat) : exact.ofSize n = some n := rfl

theorem wrap_of_fits {c : CountType} {n : Nat} (h : c.Fits n) : c.wrap n = n := by
  cases c
  · exact Nat.mod_eq_of_lt (lt_of_le_of_lt h (by decide))
  · rfl

theorem wrap_le (c : CountType) (n : Nat) : c.wrap n ≤ n := by
  cases c
  · exact Nat.mod_le _ _
  · exact le_rfl

theorem ofSize_of_fits {c : CountType} {n : Nat} (h : c.Fits n) : c.ofSize n = some n := by
  rw [ofSize, wrap_of_fits h, if_pos h]

theorem accumulate_eq (c : CountType) {acc : Nat} (hacc : c.Fits acc) (xs : List Nat) :
    c.accumulate acc xs = if c.Fits (acc + xs.sum) then some (acc + xs.sum) else none := by
  induction xs generalizing acc with
  | nil => simp [accumulate, hacc]
  | cons x xs ih =>
    by_cases hx : c.Fits (acc + x)
    · simp [accumulate, add, hx, ih hx, Nat.add_assoc]
    · have hall : ¬ c.Fits (acc + (x + xs.sum)) := fun h ↦ hx (h.mono (by omega))
      simp [accumulate, add, hx, hall]

end CountType

/-- Modelled from the spec: `excl_prefix_sum` of `parallel_utils.hpp`, which is not among the
sources, overwrites each element with the sum of the elements before it; `sum` is that running
total. -/
def exclPrefixSumFrom [Add T] : T → List T → List T
  | _, [] => []
  | sum, x :: xs => sum :: exclPrefixSumFrom (sum + x) xs

def exclPrefixSum [AddMonoid T] (xs : List T) : List T := exclPrefixSumFrom 0 xs

@[simp] theorem length_exclPrefixSumFrom [Add T] (s : T) (xs : List T) :
    (exclPrefixSumFrom s xs).length = xs.length := by
  induction xs generalizing s <;> simp [exclPrefixSumFrom, *]

@[simp] theorem length_exclPrefixSum [AddMonoid T] (xs : List T) :
    (exclPrefixSum xs).length = xs.length := length_exclPrefixSumFrom 0 xs

theorem getElem_exclPrefixSumFrom [AddMonoid T] (s : T) (xs : List T) (i : Nat)
    (h : i < (exclPrefixSumFrom s xs).length) :
    (exclPrefixSumFrom s xs)[i] = s + (xs.take i).sum := by
  induction xs generalizing s i with
  | nil => simp at h
  | cons x xs ih =>
    cases i with
    | zero => simp [exclPrefixSumFrom]
    | succ i => simp [exclPrefixSumFrom, ih, add_assoc]

theorem getElem?_exclPrefixSumFrom [AddMonoid T] (s : T) (xs : List T) {i : Nat}
    (h : i < xs.length) : (exclPrefixSumFrom s xs)[i]? = some (s + (xs.take i).sum) := by
  rw [List.getElem?_eq_getElem (by simpa using h), getElem_exclPrefixSumFrom]

theorem getElem_exclPrefixSum [AddMonoid T] (xs : List T) (i : Nat)
    (h : i < (exclPrefixSum xs).length) : (exclPrefixSum xs)[i] = (xs.take i).sum := by
  simp [exclPrefixSum, getElem_exclPrefixSumFrom]

namespace CountType

theorem exclScan_eq (c : CountType) {s : Nat} (hs : c.Fits s) (xs : List Nat) :
    c.exclScan s xs = if c.Fits (s + xs.sum) then some (exclPrefixSumFrom s xs) else none := by
  induction xs generalizing s with
  | nil => simp [exclScan, exclPrefixSumFrom, hs]
  | cons x xs ih =>
    by_cases hx : c.Fits (s + x)
    · simp [exclScan, add, hx, ih hx, exclPrefixSumFrom, ← Nat.add_assoc]
    · have hall : ¬ c.Fits (s + (x + xs.sum)) := fun h ↦ hx (h.mono (by omega))
      simp [exclScan, add, hx, hall]

end CountType

/-- Modelled from the spec: `get_displacements` of `parallel_utils.hpp`, which is not among the
sources, returns the exclusive prefix sums of a vector of counts, in the counts' own type. -/
def getDisplacements (c : CountType) (counts : List Nat) : Option (List Nat) := c.exclScan 0 counts

theorem getDisplacements_eq (c : CountType) (counts : List Nat) :
    getDisplacements c counts =
      if c.Fits counts.sum then some (exclPrefixSum counts) else none := by
  simp [getDisplacements, CountType.exclScan_eq c c.fits_zero, exclPrefixSum]

theorem accumulate_zero_eq (c : CountType) (xs : List Nat) :
    c.accumulate 0 xs = if c.Fits xs.sum then some xs.sum else none := by
  simp [CountType.accumulate_eq c c.fits_zero]

theorem sum_range_succ_map (f : Nat → Nat) (i : Nat) :
    ((List.range (i + 1)).map f).sum = ((List.range i).map f).sum + f i := by
  simp [List.range_succ]

theorem sum_range_map_mono (f : Nat → Nat) {i i' : Nat} (h : i ≤ i') :
    ((List.range i).map f).sum ≤ ((List.range i').map f).sum := by
  have := List.monotone_sum_take ((List.range i').map f) h
  simp only [← List.map_take, List.take_range, Nat.min_eq_left h, Nat.min_self] at this
  exact this

end PsacMpi.Counts
