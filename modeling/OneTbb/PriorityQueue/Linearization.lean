import OneTbb.PriorityQueue.Heap
import Mathlib.Algebra.Order.Group.Multiset
import Mathlib.Tactic.Abel

/-!
# Batches of `concurrent_priority_queue` are linearizable

The elements in front of `mark` are those of the abstract queue. The pushes of
the elements behind it have been answered, but take effect only when they are
needed: right before the pop that takes the last element, or when the last
element is put into the heap, or at the end. So a sequential order of the
operations grows along with the two passes.
-/

namespace OneTbb.PriorityQueue

open List Function Queue Nat

open BinaryHeap Segment

variable {α ι : Type*} {comp : α → α → Bool}

/-! ## Sequential executions -/

/-- The element an operation stores, if it is a push that does not throw. -/
def Operation.pushed : Operation α → Option α
  | .push elem false | .pushRvalue elem false => some elem
  | _ => none

/-- The answer to a push that does not throw. -/
def Outcome.pushed : Outcome α := ⟨.succeeded, none⟩

variable {h : Handling ι α} {w : ι × Operation α} {x : α}

theorem Performs.of_pushed {operation : Operation α} {x : α} (h : operation.pushed = some x)
    (s : Multiset α) : Performs comp s operation Outcome.pushed (x ::ₘ s) := by
  cases operation with
  | push elem throws =>
    cases throws with
    | false =>
      obtain rfl := Option.some.inj h
      exact .push s elem
    | true => cases h
  | pushRvalue elem throws =>
    cases throws with
    | false =>
      obtain rfl := Option.some.inj h
      exact .pushRvalue s elem
    | true => cases h
  | pop => cases h

theorem Sequential.append {s t u : Multiset α} {xs ys : List (ι × Operation α × Outcome α)}
    (h : Sequential comp s xs t) (h' : Sequential comp t ys u) :
    Sequential comp s (xs ++ ys) u := by
  induction h with
  | nil s => exact h'
  | cons hperf _ ih => exact .cons hperf (ih h')

theorem Sequential.single {s t : Multiset α} {op : ι} {operation : Operation α}
    {outcome : Outcome α} (h : Performs comp s operation outcome t) :
    Sequential comp s [(op, operation, outcome)] t := .cons h (.nil t)

/-- A pushed operation with its answer. -/
def answered (w : ι × Operation α) : ι × Operation α × Outcome α := (w.1, w.2, Outcome.pushed)

/-- The elements of pushes that wait to take effect. -/
def elements (waiting : List (ι × Operation α)) : List α :=
  waiting.filterMap fun w => w.2.pushed

theorem elements_cons (h : w.2.pushed = some x) (waiting : List (ι × Operation α)) :
    (elements (w :: waiting) : Multiset α) = x ::ₘ elements waiting := by
  simp [elements, h]

theorem Sequential.pushAll {waiting : List (ι × Operation α)}
    (h : ∀ w ∈ waiting, w.2.pushed ≠ none) (s : Multiset α) :
    Sequential comp s (waiting.map answered) (s + (elements waiting : Multiset α)) := by
  induction waiting generalizing s with
  | nil => simpa [elements] using Sequential.nil s
  | cons w rest ih =>
    obtain ⟨x, hx⟩ := Option.ne_none_iff_exists'.mp (h w mem_cons_self)
    have hrest := ih (fun w' hw' => h w' (mem_cons_of_mem _ hw')) (x ::ₘ s)
    have hsum : x ::ₘ s + (elements rest : Multiset α) = s + (elements (w :: rest) : Multiset α) := by
      rw [elements_cons hx, Multiset.add_cons, Multiset.cons_add]
    rw [hsum] at hrest
    exact .cons (.of_pushed hx s) hrest

/-- An element that waits comes from one of the waiting pushes. -/
theorem exists_waiting {waiting : List (ι × Operation α)} {m : Multiset α}
    (h : (elements waiting : Multiset α) = x ::ₘ m) :
    ∃ w rest, w.2.pushed = some x ∧ waiting.Perm (w :: rest) ∧
      (elements rest : Multiset α) = m := by
  have hmem : x ∈ elements waiting := by
    rw [← Multiset.mem_coe, h]
    exact Multiset.mem_cons_self _ _
  obtain ⟨w, hw, hx⟩ := mem_filterMap.mp hmem
  obtain ⟨before, behind, rfl⟩ := append_of_mem hw
  refine ⟨w, before ++ behind, hx, perm_middle, ?_⟩
  apply (Multiset.cons_inj_right x).mp
  rw [← h, ← elements_cons hx]
  exact Multiset.coe_eq_coe.mpr (perm_middle.symm.filterMap _)

/-! ## The order behind a state of the handler -/

/-- `order` is an execution that explains the heap in front of `mark`, and
`waiting` are the pushes of the elements behind it. -/
structure Linearized (comp : α → α → Bool) (start : Multiset α) (q : Queue α)
    (order : List (ι × Operation α × Outcome α)) (waiting : List (ι × Operation α)) : Prop where
  mark_le : q.mark ≤ q.dataSize
  size : q.size = q.dataSize
  heap : IsHeap comp q.data q.mark
  run : Sequential comp start order (cells q.data 0 q.mark)
  pushes : ∀ w ∈ waiting, w.2.pushed ≠ none
  rest : cells q.data q.mark q.dataSize = elements waiting

section Steps

variable {start : Multiset α} {q : Queue α} {order : List (ι × Operation α × Outcome α)}
  {waiting : List (ι × Operation α)}

theorem Linearized.push (h : Linearized comp start q order waiting) (hx : w.2.pushed = some x) :
    Linearized comp start { q.pushBack x with size := q.size + 1 } order (w :: waiting) where
  mark_le := le_succ_of_le h.mark_le
  size := congrArg (· + 1) h.size
  heap := by
    have hle := h.mark_le
    exact h.heap.congr fun i hi => update_of_ne (by omega) _ _
  run := by
    have hle := h.mark_le
    have hsame : cells (update q.data q.dataSize x) 0 q.mark = cells q.data 0 q.mark :=
      cells_congr fun i _ hi => update_of_ne (by omega) _ _
    simpa only [pushBack, hsame] using h.run
  pushes := by
    intro w' hw'
    rcases mem_cons.mp hw' with rfl | hw'
    · rw [hx]
      exact Option.some_ne_none x
    · exact h.pushes w' hw'
  rest := by
    have hsame : cells (update q.data q.dataSize x) q.mark q.dataSize =
        cells q.data q.mark q.dataSize :=
      cells_congr fun i _ hi => update_of_ne (by omega) _ _
    simp only [pushBack]
    rw [cells_succ _ h.mark_le, update_self, hsame, h.rest,
      elements_cons hx]

/-- An operation that leaves the queue as it is. -/
theorem Linearized.idle (h : Linearized comp start q order waiting)
    {e : ι × Operation α × Outcome α}
    (he : Performs comp (cells q.data 0 q.mark) e.2.1 e.2.2 (cells q.data 0 q.mark)) :
    Linearized comp start q (order ++ [e]) waiting :=
  { h with run := h.run.append (.single he) }

/-- What is not below the top of the heap may be pushed and popped at once. -/
theorem Linearized.performs_pop (swo : StrictWeak comp)
    (h : Linearized comp start q order waiting)
    (hx : 0 < q.mark → comp (q.data 0) x = true) :
    Performs comp (x ::ₘ cells q.data 0 q.mark) .pop ⟨.succeeded, some x⟩
      (cells q.data 0 q.mark) := by
  refine .pop _ x fun y hy => ?_
  rcases Multiset.mem_cons.mp hy with rfl | hy
  · exact swo.irrefl _
  · obtain ⟨i, _, hi, rfl⟩ := exists_of_mem_cells hy
    refine Bool.eq_false_iff.mpr fun hxy => ?_
    have htop := h.heap.top swo i hi
    rw [swo.trans (hx (by omega)) hxy] at htop
    cases htop

theorem Queue.cells_last (q : Queue α) {lo : Nat} (h : lo < q.dataSize) :
    cells q.data lo q.dataSize = q.back ::ₘ cells q.data lo (q.dataSize - 1) := by
  rw [show q.dataSize = q.dataSize - 1 + 1 by omega, cells_succ _ (by omega)]
  rfl

theorem Linearized.popLast (swo : StrictWeak comp) (h : Linearized comp start q order waiting)
    (hlast : q.lastIsHigher comp = true) (op : ι) :
    ∃ w rest, waiting.Perm (w :: rest) ∧
      Linearized comp start { q.popBack with size := q.size - 1 }
        (order ++ [answered w, (op, .pop, ⟨.succeeded, some q.back⟩)]) rest := by
  simp only [lastIsHigher, Bool.and_eq_true, decide_eq_true_eq] at hlast
  obtain ⟨hlt, hcomp⟩ := hlast
  obtain ⟨w, rest, hx, hperm, hrest⟩ := exists_waiting (h.rest.symm.trans (q.cells_last hlt))
  refine ⟨w, rest, hperm, ?_⟩
  constructor
  case mark_le =>
    simp only [popBack]
    omega
  case size =>
    have := h.size
    simp only [popBack]
    omega
  case heap => exact h.heap
  case run =>
    exact h.run.append (.cons (.of_pushed hx _) (.single (h.performs_pop swo fun _ => hcomp)))
  case pushes => exact fun w' hw' => h.pushes w' (hperm.mem_iff.mpr (mem_cons_of_mem _ hw'))
  case rest => exact hrest.symm

theorem cells_top (data : Nat → α) {n : Nat} (h : 0 < n) :
    cells data 0 n = data 0 ::ₘ cells data 1 n := by
  rw [← cells_append data (zero_le 1) h, cells_succ data (Nat.le_refl 0), cells_self,
    Multiset.cons_add, Multiset.zero_add]

theorem Linearized.performs_popTop (swo : StrictWeak comp)
    (h : Linearized comp start q order waiting) (hpos : 0 < q.mark) :
    Performs comp (cells q.data 0 q.mark) .pop ⟨.succeeded, some (q.data 0)⟩
      (cells q.data 1 q.mark) := by
  have htop := cells_top q.data hpos
  rw [htop]
  refine .pop _ _ fun y hy => ?_
  rw [← htop] at hy
  obtain ⟨i, _, hi, rfl⟩ := exists_of_mem_cells hy
  exact h.heap.top swo i hi

/-- The top of the heap is taken by a pop, and no element waits behind the heap. -/
theorem Linearized.popTop (swo : StrictWeak comp) (h : Linearized comp start q order waiting)
    (hmark : q.mark = q.dataSize) (hpos : 0 < q.mark) (op : ι) :
    Linearized comp start { q.reheap comp with size := q.size - 1 }
      (order ++ [(op, .pop, ⟨.succeeded, some (q.data 0)⟩)]) waiting := by
  obtain ⟨hm, hs, hheap, hbehind, hcells⟩ := reheap_spec swo h.heap h.mark_le hpos
  have hmin : min q.mark (q.dataSize - 1) = q.dataSize - 1 := by omega
  rw [hmin] at hm hheap hcells
  have hsucc : q.dataSize = q.dataSize - 1 + 1 := by omega
  have htop := cells_top q.data hpos
  -- the last element is put into the heap it comes from
  have hleft : cells (q.reheap comp).data 0 (q.dataSize - 1) = cells q.data 1 q.mark := by
    apply (Multiset.cons_inj_right (q.data 0)).mp
    rw [hcells, ← htop, hmark, back]
    nth_rewrite 3 [hsucc]
    exact (cells_succ q.data (zero_le _)).symm
  constructor
  case mark_le => exact le_of_eq (hm.trans hs.symm)
  case size =>
    have := h.size
    simp only [hs]
    omega
  case heap =>
    simp only [hm]
    exact hheap
  case run =>
    refine h.run.append (.single ?_)
    simp only [hm, hleft]
    exact h.performs_popTop swo hpos
  case pushes => exact h.pushes
  case rest =>
    have hnone := h.rest
    rw [hmark, cells_self] at hnone
    simp only [hm, hs, cells_self, hnone]

/-- The top of the heap is taken by a pop, and the last element is put into the
heap. -/
theorem Linearized.popTopPush (swo : StrictWeak comp) (h : Linearized comp start q order waiting)
    (hmark : q.mark < q.dataSize) (hpos : 0 < q.mark) (op : ι) :
    ∃ w rest, waiting.Perm (w :: rest) ∧
      Linearized comp start { q.reheap comp with size := q.size - 1 }
        (order ++ [(op, .pop, ⟨.succeeded, some (q.data 0)⟩), answered w]) rest := by
  obtain ⟨hm, hs, hheap, hbehind, hcells⟩ := reheap_spec swo h.heap h.mark_le hpos
  have hmin : min q.mark (q.dataSize - 1) = q.mark := by omega
  rw [hmin] at hm hheap hcells hbehind
  have htop := cells_top q.data hpos
  have hlast := q.cells_last hmark
  obtain ⟨w, rest, hx, hperm, hrest⟩ := exists_waiting (h.rest.symm.trans hlast)
  have hleft : cells (q.reheap comp).data 0 q.mark = q.back ::ₘ cells q.data 1 q.mark := by
    apply (Multiset.cons_inj_right (q.data 0)).mp
    rw [hcells, htop, Multiset.cons_swap]
  refine ⟨w, rest, hperm, ?_⟩
  constructor
  case mark_le =>
    simp only [hm, hs]
    omega
  case size =>
    have := h.size
    simp only [hs]
    omega
  case heap =>
    simp only [hm]
    exact hheap
  case run =>
    refine h.run.append (.cons (h.performs_popTop swo hpos) (.single ?_))
    simp only [hm, hleft]
    exact .of_pushed hx _
  case pushes => exact fun w' hw' => h.pushes w' (hperm.mem_iff.mpr (mem_cons_of_mem _ hw'))
  case rest =>
    simp only [hm, hs, hrest]
    exact cells_congr fun i hi _ => hbehind i hi

/-- With nothing in front of `mark`, the first element is one that waits. -/
theorem Queue.reheap_unmarked (comp : α → α → Bool) (q : Queue α) (hmark : q.mark = 0)
    (hpos : 0 < q.dataSize) :
    (q.reheap comp).mark = 0 ∧ (q.reheap comp).dataSize = q.dataSize - 1 ∧
      cells q.data 0 q.dataSize =
        q.data 0 ::ₘ cells (q.reheap comp).data 0 (q.dataSize - 1) := by
  have hdown : pushDown comp q.mark (q.dataSize - 1) q.data 0 = (q.data, 0) := by
    rw [pushDown, dif_neg (by omega)]
  refine ⟨by simp [reheap, hmark], rfl, ?_⟩
  rw [q.cells_last hpos]
  simp only [reheap]
  rw [hdown]
  by_cases hlast : q.dataSize - 1 = 0
  · rw [back, hlast, cells_self, cells_self]
  · rw [if_pos (Ne.symm hlast), cells_update q.data (zero_le 0) (Nat.pos_of_ne_zero hlast)]
    rfl

theorem Linearized.popFirst (swo : StrictWeak comp) (h : Linearized comp start q order waiting)
    (hmark : q.mark = 0) (hpos : 0 < q.dataSize) (op : ι) :
    ∃ w rest, waiting.Perm (w :: rest) ∧
      Linearized comp start { q.reheap comp with size := q.size - 1 }
        (order ++ [answered w, (op, .pop, ⟨.succeeded, some (q.data 0)⟩)]) rest := by
  obtain ⟨hm, hs, hcells⟩ := q.reheap_unmarked comp hmark hpos
  have hrest := h.rest.symm
  rw [hmark, hcells] at hrest
  obtain ⟨w, rest, hx, hperm, hrest⟩ := exists_waiting hrest
  have hnone : ∀ data : Nat → α, cells data 0 q.mark = 0 := by
    intro data
    rw [hmark, cells_self]
  have hpop := h.performs_pop swo (x := q.data 0) (by omega)
  have hrun := h.run
  rw [hnone] at hpop hrun
  refine ⟨w, rest, hperm, ?_⟩
  constructor
  case mark_le => exact le_trans (le_of_eq hm) (zero_le _)
  case size =>
    have := h.size
    simp only [hs]
    omega
  case heap =>
    simp only [hm]
    exact isHeap_of_le_one (zero_le 1)
  case run =>
    simp only [hm, cells_self]
    exact hrun.append (.cons (.of_pushed hx _) (.single hpop))
  case pushes => exact fun w' hw' => h.pushes w' (hperm.mem_iff.mpr (mem_cons_of_mem _ hw'))
  case rest =>
    simp only [hm, hs]
    exact hrest.symm

end Steps

/-! ## The two passes -/

/-- All operations with an outcome, in the order in which they take effect if
the waiting ones do so last. -/
def entries (order : List (ι × Operation α × Outcome α)) (waiting : List (ι × Operation α)) :
    List (ι × Operation α × Outcome α) := order ++ waiting.map answered

/-- The operations `done` so far have an outcome, or are postponed pops. -/
structure Progress (comp : α → α → Bool) (start : Multiset α) (done : List (ι × Operation α))
    (pops : List ι) (q : Queue α) (written : List (ι × Outcome α))
    (order : List (ι × Operation α × Outcome α)) (waiting : List (ι × Operation α)) : Prop where
  linearized : Linearized comp start q order waiting
  operations : List.Perm ((entries order waiting).map (fun e => (e.1, e.2.1)) ++
    pops.map fun op => (op, Operation.pop)) done
  outcomes : List.Perm ((entries order waiting).map fun e => (e.1, e.2.2)) written

section Passes

variable {start : Multiset α} {done : List (ι × Operation α)} {pops : List ι} {q q' : Queue α}
  {written : List (ι × Outcome α)} {order order' : List (ι × Operation α × Outcome α)}
  {waiting waiting' rest : List (ι × Operation α)} {op : ι} {operation : Operation α}
  {outcome : Outcome α}

variable (order)

theorem entries_push (w : ι × Operation α) (waiting : List (ι × Operation α)) :
    (entries order (w :: waiting)).Perm (entries order waiting ++ [answered w]) := by
  unfold entries
  rw [append_assoc]
  exact (perm_append_singleton _ _).symm.append_left order

theorem entries_idle (e : ι × Operation α × Outcome α) (waiting : List (ι × Operation α)) :
    (entries (order ++ [e]) waiting).Perm (entries order waiting ++ [e]) := by
  unfold entries
  rw [append_assoc, append_assoc]
  exact perm_append_comm.append_left order

theorem entries_waiting (h : waiting.Perm (w :: rest)) :
    (entries (order ++ [answered w]) rest).Perm (entries order waiting) := by
  unfold entries
  rw [append_assoc]
  exact (h.symm.map answered).append_left order

/-- A waiting push takes effect right before a pop. -/
theorem entries_pushPop (e : ι × Operation α × Outcome α) (h : waiting.Perm (w :: rest)) :
    (entries (order ++ [answered w, e]) rest).Perm (entries order waiting ++ [e]) := by
  rw [append_cons]
  exact (entries_idle _ _ _).trans ((entries_waiting _ h).append_right _)

/-- A waiting push takes effect right after a pop. -/
theorem entries_popPush (e : ι × Operation α × Outcome α) (h : waiting.Perm (w :: rest)) :
    (entries (order ++ [e, answered w]) rest).Perm (entries order waiting ++ [e]) := by
  rw [append_cons]
  exact (entries_waiting _ h).trans (entries_idle _ _ _)

variable {order}

theorem Progress.answer (h : Progress comp start done pops q written order waiting)
    (hl : Linearized comp start q' order' waiting')
    (hp : (entries order' waiting').Perm (entries order waiting ++ [(op, operation, outcome)])) :
    Progress comp start (done ++ [(op, operation)]) pops q' (written ++ [(op, outcome)]) order'
      waiting' where
  linearized := hl
  operations := by
    have hmap := (hp.map fun e => (e.1, e.2.1)).append_right (pops.map fun op => (op, Operation.pop))
    rw [map_append, append_assoc] at hmap
    refine hmap.trans ((perm_append_comm.append_left _).trans ?_)
    rw [← append_assoc]
    exact h.operations.append_right _
  outcomes := by
    have hmap := hp.map fun e => (e.1, e.2.2)
    rw [map_append] at hmap
    exact hmap.trans (h.outcomes.append_right _)

theorem Progress.answerPop (h : Progress comp start done (op :: pops) q written order waiting)
    (hl : Linearized comp start q' order' waiting')
    (hp : (entries order' waiting').Perm (entries order waiting ++ [(op, .pop, outcome)])) :
    Progress comp start done pops q' (written ++ [(op, outcome)]) order' waiting' where
  linearized := hl
  operations := by
    have hmap := (hp.map fun e => (e.1, e.2.1)).append_right (pops.map fun op => (op, Operation.pop))
    rw [map_append, append_assoc] at hmap
    exact hmap.trans h.operations
  outcomes := by
    have hmap := hp.map fun e => (e.1, e.2.2)
    rw [map_append] at hmap
    exact hmap.trans (h.outcomes.append_right _)

theorem Progress.postpone (h : Progress comp start done pops q written order waiting) (op : ι) :
    Progress comp start (done ++ [(op, .pop)]) (op :: pops) q written order waiting where
  linearized := h.linearized
  operations := by
    refine perm_middle.trans ((perm_append_singleton _ _).symm.trans ?_)
    exact h.operations.append_right _
  outcomes := h.outcomes

/-- The handler stands for some execution of the operations `done`. -/
def Explained (comp : α → α → Bool) (start : Multiset α) (done : List (ι × Operation α))
    (pops : List ι) (h : Handling ι α) : Prop :=
  ∃ order waiting, Progress comp start done pops h.queue h.written order waiting

theorem Explained.handlePush {elem : α} {throws : Bool} (hex : Explained comp start done pops h)
    (hpushed : throws = false → operation.pushed = some elem)
    (hfailed : throws = true → ∀ s, Performs comp s operation ⟨.failed, none⟩ s) :
    Explained comp start (done ++ [(op, operation)]) pops (h.handlePush op elem throws) := by
  obtain ⟨order, waiting, hprog⟩ := hex
  cases throws with
  | true =>
    exact ⟨_, _, hprog.answer (hprog.linearized.idle (hfailed rfl _)) (entries_idle _ _ _)⟩
  | false =>
    have hl := hprog.linearized.push (w := (op, operation)) (hpushed rfl)
    exact ⟨_, _, hprog.answer hl (entries_push order (op, operation) waiting)⟩

theorem Explained.firstPass (swo : StrictWeak comp)
    (hex : Explained comp start done h.popList h) (e : ι × Operation α) :
    Explained comp start (done ++ [e]) (h.firstPass comp e).popList (h.firstPass comp e) := by
  obtain ⟨op, operation⟩ := e
  cases operation with
  | push elem throws =>
    have hpops : (h.handlePush op elem throws).popList = h.popList := by
      unfold Handling.handlePush
      split <;> rfl
    simp only [Handling.firstPass, hpops]
    refine hex.handlePush (fun hf => ?_) fun ht s => ?_
    · rw [hf, Operation.pushed]
    · rw [ht]
      exact .pushThrows s elem
  | pushRvalue elem throws =>
    have hpops : (h.handlePush op elem throws).popList = h.popList := by
      unfold Handling.handlePush
      split <;> rfl
    simp only [Handling.firstPass, hpops]
    refine hex.handlePush (fun hf => ?_) fun ht s => ?_
    · rw [hf, Operation.pushed]
    · rw [ht]
      exact .pushRvalueThrows s elem
  | pop =>
    obtain ⟨order, waiting, hprog⟩ := hex
    simp only [Handling.firstPass]
    split
    case isTrue hlast =>
      obtain ⟨w, rest, hperm, hl⟩ := hprog.linearized.popLast swo hlast op
      exact ⟨_, _, hprog.answer hl (entries_pushPop _ _ hperm)⟩
    case isFalse => exact ⟨_, _, hprog.postpone op⟩

theorem Explained.secondPass (swo : StrictWeak comp)
    (hex : Explained comp start done (op :: pops) h) :
    Explained comp start done pops (h.secondPass comp op) := by
  obtain ⟨order, waiting, hprog⟩ := hex
  have hl := hprog.linearized
  have hmark := hl.mark_le
  unfold Handling.secondPass
  split
  case isTrue hempty =>
    have hnone : cells h.queue.data 0 h.queue.mark = 0 := by
      rw [show h.queue.mark = 0 by omega, cells_self]
    refine ⟨_, _, hprog.answerPop (hl.idle ?_) (entries_idle _ _ _)⟩
    rw [hnone]
    exact .popEmpty
  case isFalse hne =>
    split
    case isTrue hlast =>
      obtain ⟨w, rest, hperm, hl'⟩ := hl.popLast swo hlast op
      exact ⟨_, _, hprog.answerPop hl' (entries_pushPop _ _ hperm)⟩
    case isFalse =>
      rcases Nat.eq_zero_or_pos h.queue.mark with hzero | hpos
      · obtain ⟨w, rest, hperm, hl'⟩ := hl.popFirst swo hzero (Nat.pos_of_ne_zero hne) op
        exact ⟨_, _, hprog.answerPop hl' (entries_pushPop _ _ hperm)⟩
      · rcases eq_or_lt_of_le hmark with heq | hlt
        · exact ⟨_, _, hprog.answerPop (hl.popTop swo heq hpos op) (entries_idle _ _ _)⟩
        · obtain ⟨w, rest, hperm, hl'⟩ := hl.popTopPush swo hlt hpos op
          exact ⟨_, _, hprog.answerPop hl' (entries_popPush _ _ hperm)⟩

theorem explained_firstPass (swo : StrictWeak comp) (opList : List (ι × Operation α))
    (hex : Explained comp start done h.popList h) :
    Explained comp start (done ++ opList) (opList.foldl (Handling.firstPass comp) h).popList
      (opList.foldl (Handling.firstPass comp) h) := by
  induction opList generalizing h done with
  | nil => simpa using hex
  | cons e rest ih =>
    rw [append_cons, foldl_cons]
    exact ih (hex.firstPass swo e)

theorem explained_secondPass (swo : StrictWeak comp) (hex : Explained comp start done pops h) :
    Explained comp start done [] (pops.foldl (Handling.secondPass comp) h) := by
  induction pops generalizing h with
  | nil => exact hex
  | cons op rest ih => exact ih (hex.secondPass swo)

end Passes

/-! ## Batches -/

/-- The queue between two batches: `mark` and `my_size` are the size of the
vector, which is a heap. -/
structure Queue.Heaped (comp : α → α → Bool) (q : Queue α) : Prop where
  mark : q.mark = q.dataSize
  size : q.size = q.dataSize
  heap : IsHeap comp q.data q.dataSize

/-- The elements of the queue. -/
def Queue.contents (q : Queue α) : Multiset α := cells q.data 0 q.dataSize

/-- The outcomes are those of a sequential execution from `start` to the
elements of the queue. -/
def Linearizable (comp : α → α → Bool) (start : Multiset α) (opList : List (ι × Operation α))
    (q : Queue α) (written : List (ι × Outcome α)) : Prop :=
  ∃ order : List (ι × Operation α × Outcome α),
    (order.map fun e => (e.1, e.2.1)).Perm opList ∧
    (order.map fun e => (e.1, e.2.2)).Perm written ∧ Sequential comp start order q.contents

/-- The waiting pushes take effect, and the rest of the vector is made a heap. -/
theorem Explained.finish (swo : StrictWeak comp) {start : Multiset α}
    {opList : List (ι × Operation α)}
    (hex : Explained comp start opList [] h) {q : Queue α}
    (hq : q = if h.queue.mark < h.queue.dataSize then h.queue.heapify comp else h.queue) :
    Linearizable comp start opList q h.written ∧ q.Heaped comp := by
  obtain ⟨order, waiting, hl, hoperations, houtcomes⟩ := hex
  have hmark := hl.mark_le
  have hrun : Sequential comp start (entries order waiting) h.queue.contents := by
    have hall := hl.run.append (.pushAll hl.pushes _)
    rwa [← hl.rest, cells_append _ (zero_le _) hmark] at hall
  rw [map_nil, append_nil] at hoperations
  split at hq
  case isTrue hlt =>
    obtain ⟨hm, hd, hs, hheap, hcells⟩ := heapify_spec swo hl.heap hlt
    subst hq
    refine ⟨⟨_, hoperations, houtcomes, ?_⟩, hm.trans hd.symm, ?_, ?_⟩
    · rw [contents, hd, hcells]
      exact hrun
    · exact hs.trans (hl.size.trans hd.symm)
    · rw [hd]
      exact hheap
  case isFalse hge =>
    have heq : h.queue.mark = h.queue.dataSize := by omega
    subst hq
    refine ⟨⟨_, hoperations, houtcomes, hrun⟩, heq, hl.size, ?_⟩
    rw [← heq]
    exact hl.heap

/-- What `handle_operations` writes for a batch are the outcomes of some
sequential execution of the operations on an abstract priority queue, which
leaves the elements of the vector. Afterwards the whole vector is a heap again. -/
theorem handleOperations_linearizable {comp : α → α → Bool} (swo : StrictWeak comp) {q : Queue α}
    (hq : q.Heaped comp) (opList : List (ι × Operation α)) :
    Linearizable comp q.contents opList (handleOperations comp q opList).1
        (handleOperations comp q opList).2 ∧
      (handleOperations comp q opList).1.Heaped comp := by
  have hstart : Explained comp q.contents ([] : List (ι × Operation α))
      (⟨q, [], []⟩ : Handling ι α).popList ⟨q, [], []⟩ := by
    refine ⟨[], [], ⟨le_of_eq hq.mark, hq.size, hq.heap.mono (le_of_eq hq.mark), ?_, ?_,
      ?_⟩, .refl _, .refl _⟩
    · rw [hq.mark]
      exact .nil _
    · simp
    · rw [hq.mark, cells_self]
      rfl
  have hfirst := explained_firstPass swo opList hstart
  rw [nil_append] at hfirst
  exact (explained_secondPass swo hfirst).finish swo rfl

/-- `std::less` on natural numbers. -/
def less (a b : Nat) : Bool := decide (a < b)

theorem less_strictWeak : StrictWeak less := strictWeak_lt

/-- A queue with one element. -/
def oneElement : Queue Nat := ⟨fun _ => 5, 1, 1, 1⟩

/-- Two pushes followed by two pops. -/
def twoPushesTwoPops : List (Nat × Operation Nat) :=
  [(0, .push 10 false), (1, .push 7 false), (2, .pop), (3, .pop)]

/-- The first pop gets the smaller one of the pushed elements. -/
theorem handleOperations_linearizable_reordered :
    (handleOperations less oneElement twoPushesTwoPops).2 =
        [(0, ⟨.succeeded, none⟩), (1, ⟨.succeeded, none⟩), (2, ⟨.succeeded, some 7⟩),
          (3, ⟨.succeeded, some 10⟩)] ∧
      Linearizable less oneElement.contents twoPushesTwoPops
        (handleOperations less oneElement twoPushesTwoPops).1
        (handleOperations less oneElement twoPushesTwoPops).2 :=
  ⟨by decide, (handleOperations_linearizable less_strictWeak
    ⟨rfl, rfl, BinaryHeap.isHeap_of_le_one (Nat.le_refl 1)⟩ twoPushesTwoPops).1⟩

end OneTbb.PriorityQueue
