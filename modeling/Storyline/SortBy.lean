/-!
# Sorting by a key

Insertion into a list sorted by a key.  An element goes behind those with the
same key, so that sorting keeps the order of elements that it cannot tell apart.
-/

namespace Storyline

def insertBy {α : Type} (key : α → Nat) (a : α) : List α → List α
  | [] => [a]
  | b :: rest => if key a < key b then a :: b :: rest else b :: insertBy key a rest

def sortBy {α : Type} (key : α → Nat) (as : List α) : List α :=
  as.foldl (fun sorted a ↦ insertBy key a sorted) []

end Storyline
