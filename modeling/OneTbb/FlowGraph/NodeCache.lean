import Mathlib.Logic.Basic

/-!
# Caches of predecessors and successors

A cache of predecessors is a queue of the nodes a receiver may pull from, and a cache of
successors a list of the nodes a sender puts to. What the nodes answer is a parameter, one
answer for each node that is asked.
-/

namespace OneTbb.FlowGraph.NodeCache

variable {ι α σ : Type*}

/-- The loop of `node_cache::remove`: each node is popped, and pushed again unless it is the one
to remove. -/
def removeLoop [DecidableEq ι] (n : ι) : Nat → List ι → List ι
  | 0, cache => cache
  | _ + 1, [] => []
  | k + 1, s :: cache => if s = n then cache else removeLoop n k (cache ++ [s])

/-- `node_cache::remove` -/
def remove [DecidableEq ι] (n : ι) (cache : List ι) : List ι :=
  removeLoop n cache.length cache

/-- `get_item_impl` of `predecessor_cache`: a node without an item gets the edge back, and a node
with one stays in the cache. The item, if there is one, and the cache. -/
def getItem : List ι → List (Option α) → Option α × List ι
  | [], _ => (none, [])
  | src :: cache, some x :: _ => (some x, cache ++ [src])
  | _ :: cache, answers => getItem cache answers.tail

/-- `try_reserve_impl` of `reservable_predecessor_cache` when nothing is reserved: the node that
reserved an item, with the item, and the cache -/
def tryReserve : List ι → List (Option α) → Option (ι × α) × List ι
  | [], _ => (none, [])
  | pred :: cache, some x :: _ => (some (pred, x), cache ++ [pred])
  | _ :: cache, answers => tryReserve cache answers.tail

/-- The node that reserved an item stays in the cache. -/
theorem tryReserve_ne_nil {cache : List ι} {answers : List (Option α)} {r : ι × α}
    (h : (tryReserve cache answers).1 = some r) : (tryReserve cache answers).2 ≠ [] := by
  fun_induction tryReserve cache answers with
  | case1 => cases h
  | case2 => simp
  | case3 _ _ _ _ ih => exact ih h

/-- What a successor answers to a message: it accepts it, rejects it and registers the sender as
a predecessor, or only rejects it. -/
inductive Answer where
  | accepts
  | registers
  | declines
  deriving DecidableEq, Repr

/-- `try_put_task_impl` of `broadcast_cache`: whether a successor accepted, and the cache without
those that registered the sender -/
def tryPutTask : List σ → List Answer → Bool × List σ
  | [], _ => (false, [])
  | r :: successors, answers =>
    let rest := tryPutTask successors answers.tail
    match answers.head? with
    | some .accepts => (true, r :: rest.2)
    | some .registers => rest
    | _ => (rest.1, r :: rest.2)

/-- `register_successor`; a successor with a priority goes to the front -/
def registerSuccessor (r : σ) (priority : Bool) (successors : List σ) : List σ :=
  if priority then r :: successors else successors ++ [r]

end OneTbb.FlowGraph.NodeCache
