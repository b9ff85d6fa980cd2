import Mathlib.Data.List.Count
import Mathlib.Data.Prod.Basic

/-!
# A task that gives its completion away and then throws

A task of a group keeps a list of who is to be notified when it is finished: the
successors that depend on it and the threads that wait for it. A task that calls
`transfer_this_task_completion_to` hands its list to the recipient and leaves a
marker in its place. When its body throws, the dispatcher calls `cancel` on it.
-/

namespace OneTbb.TaskGroup

open Function

/-- A node of a notification list. Notifying it releases a dependency of the successor,
or the wait context of the waiter. -/
inductive NotifyNode where
  | successor (task : Nat)
  | waiter (thread : Nat)
  deriving DecidableEq, Repr

/-- `m_notify_list_head`: a list of nodes or a marker. -/
inductive ListHead where
  | nodes (list : List NotifyNode)
  | completed
  | transferred
  | canceled
  deriving DecidableEq, Repr

/-- `task_dynamic_state` -/
structure DynamicState where
  notifyListHead : ListHead := .nodes []
  newCompletionPoint : Option Nat := none
  deriving DecidableEq, Repr

/-- A task group. A task has a dynamic state once somebody has asked for it, and
`notified` are the nodes notified so far, each with the task that did it. -/
structure Group where
  dynamicState : Nat → Option DynamicState
  cancelled : Bool
  exception : Option Nat
  notified : List (Nat × NotifyNode)

namespace Group

variable (g : Group) (i j : Nat)

/-- `get_dynamic_state` -/
def getDynamicState : DynamicState := (g.dynamicState i).getD {}

def setDynamicState (d : DynamicState) : Group :=
  { g with dynamicState := update g.dynamicState i (some d) }

/-- `fetch_list_and_notify_all`. A marker that is taken for a node is dereferenced,
which has no meaning. -/
def fetchListAndNotifyAll (flag : ListHead) : Option Group :=
  match (g.getDynamicState i).notifyListHead with
  | .nodes list => some { g.setDynamicState i { g.getDynamicState i with notifyListHead := flag } with
      notified := g.notified ++ list.map (i, ·) }
  | _ => none

/-- `cancel_and_try_get_successor` -/
def cancelAndTryGetSuccessor : Option Group :=
  if (g.dynamicState i).isNone then some g else g.fetchListAndNotifyAll i .canceled

/-- Where a registration with a task leads: along at most `fuel` transfers. -/
def completionPoint : Nat → Nat → Nat
  | 0, i => i
  | fuel + 1, i =>
    match g.getDynamicState i with
    | ⟨.transferred, some k⟩ => completionPoint fuel k
    | _ => i

/-- `add_successor` and `wait_for_completion`, for a node of the new successor or waiter.
A task that is finished takes no nodes. -/
def register (fuel : Nat) (node : NotifyNode) : Group :=
  let k := g.completionPoint fuel i
  match (g.getDynamicState k).notifyListHead with
  | .nodes list => g.setDynamicState k
      { g.getDynamicState k with notifyListHead := .nodes (node :: list) }
  | _ => g

variable {g i j} {fuel : Nat}

theorem setDynamicState_self (d : DynamicState) : (g.setDynamicState i d).dynamicState i = some d :=
  update_self ..

theorem setDynamicState_of_ne (d : DynamicState) (h : j ≠ i) :
    (g.setDynamicState i d).dynamicState j = g.dynamicState j := update_of_ne h ..

/-! ## A task with a dynamic state -/

/-- The list of the task is a marker. -/
def Marked (g : Group) (i : Nat) : Prop :=
  ∃ d, g.dynamicState i = some d ∧ d.notifyListHead = .transferred

theorem Marked.getDynamicState (h : g.Marked i) :
    (g.getDynamicState i).notifyListHead = .transferred := by
  obtain ⟨d, hd, hhead⟩ := h
  rw [Group.getDynamicState, hd]
  exact hhead

theorem Marked.register (h : g.Marked i) (k : Nat) (node : NotifyNode) :
    (g.register k fuel node).Marked i := by
  unfold Group.register
  dsimp only
  split
  case h_1 list hlist =>
    have hne : i ≠ g.completionPoint fuel k := by
      rintro rfl
      rw [h.getDynamicState] at hlist
      cases hlist
    obtain ⟨d, hd, hhead⟩ := h
    exact ⟨d, (setDynamicState_of_ne _ hne).trans hd, hhead⟩
  case h_2 => exact h

theorem Marked.registers (h : g.Marked i) (k fuel : Nat) (after : List NotifyNode) :
    (after.foldl (fun g node => g.register k fuel node) g).Marked i := by
  induction after generalizing g with
  | nil => exact h
  | cons node rest ih => exact ih (h.register k node)

theorem Marked.cancel (h : g.Marked i) : g.cancelAndTryGetSuccessor i = none := by
  obtain ⟨d, hd, -⟩ := id h
  rw [cancelAndTryGetSuccessor, hd, fetchListAndNotifyAll, h.getDynamicState]
  rfl

/-- Only the task's own list has been changed since, and it is a list. -/
structure Untransferred (g g' : Group) (i : Nat) : Prop where
  others : ∀ k, k ≠ i → g'.dynamicState k = g.dynamicState k
  list : ∃ list, (g'.getDynamicState i).notifyListHead = .nodes list
  notified : g'.notified = g.notified

theorem Untransferred.register {g' : Group} (h : Untransferred g g' i) (node : NotifyNode) :
    Untransferred g (g'.register i fuel node) i := by
  obtain ⟨list, hlist⟩ := h.list
  have hpoint : g'.completionPoint fuel i = i := by
    cases fuel with
    | zero => rfl
    | succ fuel =>
      unfold completionPoint
      split
      case h_1 k hk =>
        rw [hk] at hlist
        cases hlist
      case h_2 => rfl
  unfold Group.register
  dsimp only
  rw [hpoint, hlist]
  refine ⟨fun k hk => (setDynamicState_of_ne _ hk).trans (h.others k hk), ⟨node :: list, ?_⟩,
    h.notified⟩
  rw [getDynamicState, setDynamicState_self]
  rfl

theorem Untransferred.registers {g' : Group} (h : Untransferred g g' i) (fuel : Nat)
    (after : List NotifyNode) :
    Untransferred g (after.foldl (fun g node => g.register i fuel node) g') i := by
  induction after generalizing g' with
  | nil => exact h
  | cons node rest ih => exact ih (h.register node)

end Group

end OneTbb.TaskGroup
