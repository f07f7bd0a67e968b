import Playbook.Node.Basic

/-!
Merge keys: a mapping may take over the pairs of others. What it takes over comes before its own
pairs, and so gives way to them; of several mappings in a list, an earlier one prevails.
-/

namespace Playbook

namespace Node

abbrev Pairs := List (Node × Node)

/-- A node that cannot be merged, in the mapping that starts at `start`. -/
def cannotMerge (start : Mark) (found : Node) (problem : Shape → Problem) : Diagnostic :=
  .within .values .mapping start (problem found.shape) found.start

mutual

/-- The pairs of a mapping, with those it takes over in front. -/
def flatPairs : Node → Except Diagnostic Pairs
  | .mapping head pairs => do
      let merged ← mergedPairs head.span.start pairs
      return merged ++ pairs.filter (·.1.tag != .merge)
  | _ => .ok []

/-- The pairs that the merge keys among some pairs take over. -/
def mergedPairs (start : Mark) : List (Node × Node) → Except Diagnostic Pairs
  | [] => .ok []
  | (key, value) :: rest =>
      if key.tag == .merge then do
        let merged ←
          match value with
          | .mapping head pairs => flatPairs (.mapping head pairs)
          | .sequence _ items => do
              let groups ← mergedItems start items
              pure groups.reverse.flatten
          | .scalar head text style =>
              .error (cannotMerge start (.scalar head text style) .expectedMergeSource)
        return merged ++ (← mergedPairs start rest)
      else mergedPairs start rest

/-- The pairs of each mapping in a list. -/
def mergedItems (start : Mark) : List Node → Except Diagnostic (List Pairs)
  | [] => .ok []
  | item :: rest =>
      match item.shape with
      | .mapping => do
          let pairs ← flatPairs item
          return pairs :: (← mergedItems start rest)
      | _ => .error (cannotMerge start item .expectedMergeItem)

end

end Node

end Playbook
