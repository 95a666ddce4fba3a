/-!
# Sorted lists — a stable order by a key

Listings and edits are handled in the order of a key. `sortBy` keeps the
given order among elements whose keys compare equal. `binarySearch` looks for
a key in a list that is in the order of its keys.
-/

namespace ModuleAssets

/-- Puts `x` before the first element it does not come after. -/
def insertBy {α : Type} (le : α → α → Bool) (x : α) : List α → List α
  | [] => [x]
  | y :: ys => if le x y then x :: y :: ys else y :: insertBy le x ys

/-- The elements in the order `le`, equal ones as they came. -/
def sortBy {α : Type} (le : α → α → Bool) : List α → List α
  | [] => []
  | x :: xs => insertBy le x (sortBy le xs)

/-- The index that a search comes to among the `size` elements from `base` on.
They are halved until one is left, which is in the upper half unless the
element in the middle compares greater. -/
def searchFrom {α : Type} (order : α → Ordering) (xs : List α) (base size : Nat) : Nat :=
  if size ≤ 1 then base
  else
    let middle := base + size / 2
    searchFrom order xs (if xs[middle]?.any (order · == .gt) then base else middle)
      (size - size / 2)
termination_by size

/-- The index of an element that compares equal, or else the one at which such
an element would have to be put in. -/
def binarySearch {α : Type} (order : α → Ordering) (xs : List α) : Except Nat Nat :=
  let index := searchFrom order xs 0 xs.length
  match xs[index]?.map order with
  | some .eq => .ok index
  | some .lt => .error (index + 1)
  | some .gt | none => .error index

/-- The order of texts by their characters' code points, which is also the
order of their UTF-8 bytes. -/
def charsLe : List Char → List Char → Bool
  | [], _ => true
  | _ :: _, [] => false
  | a :: as, b :: bs => a < b || (a == b && charsLe as bs)

/-- The order of texts by their bytes. -/
def textLe (a b : String) : Bool :=
  charsLe a.toList b.toList

end ModuleAssets
