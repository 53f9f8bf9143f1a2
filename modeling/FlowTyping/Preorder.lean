/-
  Depth-first order

  `preorder next bound seen stack` lists the items that `next` leads to from
  the items of `stack`, an item before what it leads to, the first branch
  before the second, and each item once. `bound` limits the number of items
  listed; with as many as there are items nothing is cut off.
-/
namespace FlowTyping

/-- Depth-first preorder of the items reachable from `stack`, skipping those in `seen`. -/
def preorder {α : Type} [DecidableEq α] (next : α → List α) : Nat → List α → List α → List α
  | 0, _, _ => []
  | bound + 1, seen, stack =>
    match stack.dropWhile (seen.contains ·) with
    | [] => []
    | item :: rest => item :: preorder next bound (item :: seen) (next item ++ rest)

end FlowTyping
