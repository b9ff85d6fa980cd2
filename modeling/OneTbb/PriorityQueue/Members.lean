import OneTbb.PriorityQueue.Linearization
import OneTbb.Library.Transition

/-!
# Constructing, assigning and swapping priority queues

Several queues exist at the same time, each with its own comparator and
allocator. The members that hand a representation from one queue to another
treat the vector, the counters and the comparator differently: the counters of a
queue that is moved from stay, and an assignment or a swap leaves the comparators
where they are. Concurrent pushes and pops reach a queue as the batches of its
aggregator. Only the construction of a pushed element may throw.
-/

namespace OneTbb.PriorityQueue

open Function Option List Relation

open BinaryHeap Segment

variable {ι A α : Type*}

/-- A comparator object. -/
abbrev Comparator (α : Type*) := { comp : α → α → Bool // StrictWeak comp }

/-- What `std::allocator_traits` says of the allocator type. -/
structure AllocatorTraits (A : Type*) where
  selectOnCopy : A → A
  propagateOnCopy : Bool
  propagateOnMove : Bool
  propagateOnSwap : Bool

/-- A `concurrent_priority_queue`. The allocator is the one of its vector. -/
structure Cpq (A α : Type*) where
  queue : Queue α
  compare : Comparator α
  alloc : A

/-- The queues that exist. -/
abbrev Queues (A α : Type*) := Nat → Option (Cpq A α)

/-- The counters over a vector with the elements of a range, before `heapify`. -/
def Queue.ofRange [Inhabited α] (range : List α) (size : Nat) : Queue α where
  data i := range.getD i default
  dataSize := range.length
  mark := 0
  size := size

/-- A queue whose vector has been moved from. Nothing is left when the memory has
been handed over. When the elements have been moved one by one, `left` says
whether the vector was cleared or still has elements, and which values they have. -/
def Queue.movedFrom (q : Queue α) (handedOver : Bool) (left : Option (Nat → α)) : Queue α :=
  match handedOver, left with
  | false, some data => { q with data := data }
  | _, _ => { q with dataSize := 0 }

/-- The calls of members, with the queues they are made on. -/
inductive Event (ι A α : Type*) where
  /-- The constructors of an empty queue. -/
  | construct (i : Nat) (compare : Comparator α) (alloc : A)
  /-- The constructors from a range or an initializer list. -/
  | constructRange (i : Nat) (compare : Comparator α) (alloc : A) (range : List α)
  | copyConstruct (i other : Nat) (alloc : Option A)
  | moveConstruct (i other : Nat) (alloc : Option A) (left : Option (Nat → α))
  | copyAssign (i other : Nat)
  | moveAssign (i other : Nat) (left : Option (Nat → α))
  | assign (i : Nat) (range : List α)
  | clear (i : Nat)
  | swap (i other : Nat)
  /-- A batch of pushes and pops. -/
  | operations (i : Nat) (opList : List (ι × Operation α))
  | destroy (i : Nat)

/-- A constructor that reads nothing of another queue. -/
def Queues.create (s : Queues A α) (i : Nat) (made : Cpq A α) : Option (Queues A α) :=
  match s i with
  | none => some (update s i (some made))
  | some _ => none

/-- A member that changes only its own queue. -/
def Queues.modify (s : Queues A α) (i : Nat) (f : Cpq A α → Cpq A α) : Option (Queues A α) :=
  (s i).map fun q => update s i (some (f q))

/-- A constructor or another member that reads the queue `other` too. -/
def Queues.modifyFrom (s : Queues A α) (i other : Nat) (f : Cpq A α → Cpq A α → Cpq A α)
    (g : Cpq A α → Cpq A α → Cpq A α) : Option (Queues A α) :=
  -- `this != &other`
  if i = other then (s i).map fun _ => s
  else
    match s i, s other with
    | some q, some o =>
      some (update (update s other (some (g q o))) i (some (f q o)))
    | _, _ => none

variable [Inhabited α] [DecidableEq A]

/-- The constructor from a range. -/
def Cpq.ofRange (compare : Comparator α) (alloc : A) (range : List α) : Cpq A α where
  queue := { (Queue.ofRange range 0).heapify compare.1 with size := range.length }
  compare := compare
  alloc := alloc

/-- A call of a member. -/
def step (traits : AllocatorTraits A) (s : Queues A α) :
    Event ι A α → Option (Queues A α)
  | .construct i compare alloc => s.create i ⟨.ofRange [] 0, compare, alloc⟩
  | .constructRange i compare alloc range => s.create i (.ofRange compare alloc range)
  | .copyConstruct i other alloc =>
    (s other).bind fun o =>
      s.create i { o with alloc := alloc.getD (traits.selectOnCopy o.alloc) }
  | .moveConstruct i other alloc left =>
    (s other).bind fun o =>
      let made := { o with alloc := alloc.getD o.alloc }
      (s.create i made).map fun t =>
        update t other
          (some { o with queue := o.queue.movedFrom (decide (made.alloc = o.alloc)) left })
  | .copyAssign i other =>
    s.modifyFrom i other
      (fun q o => { q with
        queue := o.queue
        alloc := if traits.propagateOnCopy then o.alloc else q.alloc })
      (fun _ o => o)
  | .moveAssign i other left =>
    s.modifyFrom i other
      (fun q o => { q with
        queue := o.queue
        alloc := if traits.propagateOnMove then o.alloc else q.alloc })
      (fun q o => { o with
        queue := o.queue.movedFrom (traits.propagateOnMove || decide (q.alloc = o.alloc)) left })
  | .assign i range =>
    s.modify i fun q =>
      { q with queue := (Queue.ofRange range range.length).heapify q.compare.1 }
  | .clear i =>
    s.modify i fun q => { q with queue := { q.queue with dataSize := 0, mark := 0, size := 0 } }
  | .swap i other =>
    s.modifyFrom i other
      (fun q o => { q with
        queue := o.queue
        alloc := if traits.propagateOnSwap then o.alloc else q.alloc })
      (fun q o => { o with
        queue := q.queue
        alloc := if traits.propagateOnSwap then q.alloc else o.alloc })
  | .operations i opList =>
    s.modify i fun q => { q with queue := (handleOperations q.compare.1 q.queue opList).1 }
  | .destroy i => (s i).map fun _ => update s i none

/-- `try_pop` without other operations in its batch. -/
def tryPop (comp : α → α → Bool) (q : Queue α) : Option α × Queue α :=
  let handled := handleOperations comp q [((), .pop)]
  (handled.2.findSome? fun w => w.2.elem, handled.1)

/-- The elements that `n` calls of `try_pop` return. -/
def pops (comp : α → α → Bool) : Nat → Queue α → List α
  | 0, _ => []
  | n + 1, q => (tryPop comp q).1.toList ++ pops comp n (tryPop comp q).2

/-! ## Successive pops -/

section Pops

variable {comp : α → α → Bool} {q : Queue α}

omit [Inhabited α] [DecidableEq A]

theorem Queue.card_contents (q : Queue α) : Multiset.card q.contents = q.dataSize := by
  simp [Queue.contents, cells]

theorem Queue.Heaped.linearized (h : q.Heaped comp) :
    Linearized comp q.contents q ([] : List (ι × Operation α × Outcome α)) [] where
  mark_le := h.mark.le
  size := h.size
  heap := h.heap.mono h.mark.le
  run := h.mark ▸ .nil _
  pushes := by simp
  rest := by
    rw [h.mark, cells_self]
    rfl

/-- Both passes over a batch, from a heap on. -/
theorem Queue.Heaped.passes (swo : StrictWeak comp) (h : q.Heaped comp)
    (opList : List (ι × Operation α)) :
    let first := opList.foldl (Handling.firstPass comp) ⟨q, [], []⟩
    Explained comp q.contents opList [] (first.popList.foldl (Handling.secondPass comp) first) := by
  have hnone : Explained comp q.contents [] [] (⟨q, [], []⟩ : Handling ι α) :=
    ⟨[], [], h.linearized, .refl _, .refl _⟩
  exact explained_secondPass swo (explained_firstPass (h := ⟨q, [], []⟩) swo opList hnone)

/-- The only operation of a batch is performed on the elements of the queue. -/
theorem handleOperations_single (swo : StrictWeak comp) (h : q.Heaped comp) (op : ι)
    (operation : Operation α) :
    ∃ outcome, (handleOperations comp q [(op, operation)]).2 = [(op, outcome)] ∧
      Performs comp q.contents operation outcome
        (handleOperations comp q [(op, operation)]).1.contents := by
  obtain ⟨order, hoperations, houtcomes, hrun⟩ :=
    ((h.passes swo [(op, operation)]).finish swo rfl).1
  obtain ⟨⟨op', operation', outcome⟩, rfl, hentry⟩ :=
    map_eq_singleton_iff.mp (perm_singleton.mp hoperations)
  cases hentry
  refine ⟨outcome, (singleton_perm.mp houtcomes).symm, ?_⟩
  cases hrun with
  | cons hperf hrest =>
    cases hrest
    exact hperf

theorem tryPop_heaped (swo : StrictWeak comp) (h : q.Heaped comp) :
    (tryPop comp q).2.Heaped comp :=
  ((h.passes swo _).finish swo rfl).2

/-- A pop takes an element that no other one is higher than, unless there is none. -/
theorem tryPop_cases (swo : StrictWeak comp) (h : q.Heaped comp) :
    (∃ x, (tryPop comp q).1 = some x ∧ q.contents = x ::ₘ (tryPop comp q).2.contents ∧
        ∀ y ∈ q.contents, comp x y = false) ∨
      (tryPop comp q).1 = none ∧ q.contents = 0 ∧ (tryPop comp q).2.contents = 0 := by
  obtain ⟨outcome, hwritten, hperf⟩ := handleOperations_single swo h () .pop
  have helem : (tryPop comp q).1 = outcome.elem := by
    rw [tryPop, hwritten]
    obtain ⟨status, elem⟩ := outcome
    cases elem <;> rfl
  rw [helem]
  change Performs comp q.contents .pop outcome (tryPop comp q).2.contents at hperf
  generalize q.contents = s at hperf
  generalize (tryPop comp q).2.contents = t at hperf
  cases hperf with
  | pop _ x hhigh => exact .inl ⟨x, rfl, rfl, hhigh⟩
  | popEmpty => exact .inr ⟨rfl, rfl, rfl⟩

/-- Successive pops return the elements in non-increasing order, and enough of
them return all. -/
structure Queue.PopsInOrder (comp : α → α → Bool) (q : Queue α) : Prop where
  inOrder : ∀ n, (pops comp n q).Pairwise fun a b => comp a b = false
  count : ∀ n, (pops comp n q).length = min n q.dataSize
  all : (pops comp q.dataSize q : Multiset α) = q.contents

theorem pops_spec (swo : StrictWeak comp) (n : Nat) (h : q.Heaped comp) :
    (pops comp n q).Pairwise (fun a b => comp a b = false) ∧
      (pops comp n q : Multiset α) ≤ q.contents ∧
      (pops comp n q).length = min n (Multiset.card q.contents) := by
  induction n generalizing q with
  | zero => exact ⟨.nil, Multiset.zero_le _, (Nat.zero_min _).symm⟩
  | succ n ih =>
    obtain ⟨hsorted, hle, hlength⟩ := ih (tryPop_heaped swo h)
    obtain ⟨x, hx, hcontents, hhigh⟩ | ⟨hx, hcontents, hrest⟩ := tryPop_cases swo h
    · have hmem : ∀ y ∈ pops comp n (tryPop comp q).2, comp x y = false := by
        intro y hy
        apply hhigh
        rw [hcontents]
        exact Multiset.mem_cons_of_mem (Multiset.mem_of_le hle hy)
      rw [pops, hx, toList_some, singleton_append, hcontents]
      refine ⟨pairwise_cons.mpr ⟨hmem, hsorted⟩, ?_, ?_⟩
      · exact Multiset.cons_le_cons x hle
      · rw [length_cons, hlength, Multiset.card_cons, Nat.succ_min_succ]
    · rw [pops, hx, toList_none, nil_append, hcontents]
      rw [hrest] at hle hlength
      refine ⟨hsorted, hle, ?_⟩
      simpa using hlength

theorem Queue.Heaped.popsInOrder (swo : StrictWeak comp) (h : q.Heaped comp) :
    q.PopsInOrder comp where
  inOrder n := (pops_spec swo n h).1
  count n := by
    rw [(pops_spec swo n h).2.2, q.card_contents]
  all := by
    obtain ⟨-, hle, hlength⟩ := pops_spec swo q.dataSize h
    apply Multiset.eq_of_le_of_card_le hle
    rw [Multiset.coe_card, hlength, q.card_contents, Nat.min_self]

end Pops

/-! ## The representation along calls -/

/-- Every queue has its size in its counters and is a heap under its own comparator. -/
def Represented (s : Queues A α) : Prop :=
  ∀ i q, s i = some q → q.queue.Heaped q.compare.1

/-- What moving from a queue has to find: no element, or elements that are moved
one by one and leave values that are a heap. -/
def Queue.LeavesHeap (comp : α → α → Bool) (handedOver : Bool) (left : Option (Nat → α))
    (q : Queue α) : Prop :=
  q.dataSize = 0 ∨ handedOver = false ∧ ∃ data, left = some data ∧ IsHeap comp data q.dataSize

/-- The elements of `o` are a heap under the comparator of `q`. -/
def Cpq.Fits (q o : Cpq A α) : Prop := IsHeap q.compare.1 o.queue.data o.queue.dataSize

/-- The calls that keep the representation: a queue is moved from only when that
leaves a heap, and receives the elements of another one only when they are a heap
under its own comparator. -/
def Careful (traits : AllocatorTraits A) (s : Queues A α) : Event ι A α → Prop
  | .moveConstruct _ other alloc left => ∀ o, s other = some o →
      o.queue.LeavesHeap o.compare.1 (decide (alloc.getD o.alloc = o.alloc)) left
  | .copyAssign i other => i ≠ other → ∀ q o, s i = some q → s other = some o → q.Fits o
  | .moveAssign i other left => i ≠ other → ∀ q o, s i = some q → s other = some o →
      q.Fits o ∧ o.queue.LeavesHeap o.compare.1
        (traits.propagateOnMove || decide (q.alloc = o.alloc)) left
  | .swap i other => i ≠ other → ∀ q o, s i = some q → s other = some o → q.Fits o ∧ o.Fits q
  | _ => True

section Calls

omit [Inhabited α] [DecidableEq A]

variable {s t : Queues A α} {i other : Nat} {a b : Cpq A α}

theorem Queue.Heaped.movedFrom_iff {comp : α → α → Bool} {q : Queue α} (h : q.Heaped comp)
    (handedOver : Bool) (left : Option (Nat → α)) :
    (q.movedFrom handedOver left).Heaped comp ↔ q.LeavesHeap comp handedOver left := by
  have hempty : ({ q with dataSize := 0 } : Queue α).Heaped comp ↔ q.dataSize = 0 := by
    constructor
    · intro hq
      exact h.mark.symm.trans hq.mark
    · intro hzero
      exact ⟨h.mark.trans hzero, h.size.trans hzero, isHeap_of_le_one (Nat.zero_le 1)⟩
  match handedOver, left with
  | true, _ =>
    refine hempty.trans ⟨.inl, ?_⟩
    rintro (hzero | ⟨⟨⟩, -⟩)
    exact hzero
  | false, none =>
    refine hempty.trans ⟨.inl, ?_⟩
    rintro (hzero | ⟨-, data, ⟨⟩, -⟩)
    exact hzero
  | false, some data =>
    constructor
    · intro hq
      exact .inr ⟨rfl, data, rfl, hq.heap⟩
    · rintro (hzero | ⟨-, _, ⟨⟩, hheap⟩)
      · refine ⟨h.mark, h.size, isHeap_of_le_one ?_⟩
        exact le_of_eq hzero |>.trans (Nat.zero_le 1)
      · exact ⟨h.mark, h.size, hheap⟩

/-- A queue that takes over the representation of `o` is a heap when the elements fit. -/
theorem Queue.Heaped.fits_iff {q o : Cpq A α} (h : o.queue.Heaped o.compare.1) :
    o.queue.Heaped q.compare.1 ↔ q.Fits o :=
  ⟨Queue.Heaped.heap, fun hheap => ⟨h.mark, h.size, hheap⟩⟩

theorem Represented.update_iff (h : Represented s) :
    Represented (update s i (some a)) ↔ a.queue.Heaped a.compare.1 := by
  constructor
  · intro hrep
    exact hrep i a (update_self ..)
  · intro ha j q hq
    by_cases hj : j = i
    · subst hj
      rw [update_self] at hq
      cases hq
      exact ha
    · rw [update_of_ne hj] at hq
      exact h j q hq

theorem Represented.update_two_iff (h : Represented s) (hne : i ≠ other) :
    Represented (update (update s other (some b)) i (some a)) ↔
      a.queue.Heaped a.compare.1 ∧ b.queue.Heaped b.compare.1 := by
  constructor
  · intro hrep
    refine ⟨hrep i a (update_self ..), hrep other b ?_⟩
    rw [update_of_ne (Ne.symm hne), update_self]
  · rintro ⟨ha, hb⟩
    exact (h.update_iff.mpr hb).update_iff.mpr ha

theorem Queues.create_eq_some (h : s.create i a = some t) :
    s i = none ∧ t = update s i (some a) := by
  unfold Queues.create at h
  split at h
  case h_1 hnone => exact ⟨hnone, (Option.some.inj h).symm⟩
  case h_2 => cases h

theorem Queues.modify_eq_some {f : Cpq A α → Cpq A α} (h : s.modify i f = some t) :
    ∃ q, s i = some q ∧ t = update s i (some (f q)) := by
  obtain ⟨q, hq, rfl⟩ := map_eq_some_iff.mp h
  exact ⟨q, hq, rfl⟩

/-- A member on one queue that makes a heap of it. -/
theorem Represented.modify {f : Cpq A α → Cpq A α} (h : Represented s)
    (ht : s.modify i f = some t)
    (hf : ∀ q, q.queue.Heaped q.compare.1 → (f q).queue.Heaped (f q).compare.1) :
    Represented t := by
  obtain ⟨q, hq, rfl⟩ := Queues.modify_eq_some ht
  exact h.update_iff.mpr (hf q (h i q hq))

theorem Represented.modifyFrom_iff {f g : Cpq A α → Cpq A α → Cpq A α} (h : Represented s)
    (ht : s.modifyFrom i other f g = some t) :
    Represented t ↔ (i ≠ other → ∀ q o, s i = some q → s other = some o →
      (f q o).queue.Heaped (f q o).compare.1 ∧ (g q o).queue.Heaped (g q o).compare.1) := by
  unfold Queues.modifyFrom at ht
  split at ht
  case isTrue heq =>
    obtain ⟨_, -, rfl⟩ := map_eq_some_iff.mp ht
    exact ⟨fun _ hne => absurd heq hne, fun _ => h⟩
  case isFalse hne =>
    split at ht
    case h_1 q o hq ho =>
      cases ht
      rw [h.update_two_iff hne]
      constructor
      · rintro hboth - q' o' hq' ho'
        cases hq.symm.trans hq'
        cases ho.symm.trans ho'
        exact hboth
      · intro hall
        exact hall hne q o hq ho
    case h_2 => cases ht

end Calls

theorem Queue.ofRange_heapify {comp : α → α → Bool} (swo : StrictWeak comp) (range : List α)
    (size : Nat) :
    ((Queue.ofRange range size).heapify comp).mark = range.length ∧
      ((Queue.ofRange range size).heapify comp).dataSize = range.length ∧
      ((Queue.ofRange range size).heapify comp).size = size ∧
      IsHeap comp ((Queue.ofRange range size).heapify comp).data range.length := by
  cases range with
  | nil => exact ⟨rfl, rfl, rfl, isHeap_of_le_one (Nat.zero_le 1)⟩
  | cons x rest =>
    obtain ⟨hmark, hdata, hsize, hheap, -⟩ :=
      Queue.heapify_spec (q := Queue.ofRange (x :: rest) size) swo
        (isHeap_of_le_one (Nat.zero_le 1)) (Nat.succ_pos _)
    exact ⟨hmark, hdata, hsize, hheap⟩

variable {traits : AllocatorTraits A} {s t : Queues A α}

/-- A call keeps the representation of all queues if and only if it is careful. -/
theorem Represented.step_iff (h : Represented s) {event : Event ι A α}
    (ht : step traits s event = some t) : Represented t ↔ Careful traits s event := by
  cases event with
  | construct i compare alloc =>
    obtain ⟨-, rfl⟩ := Queues.create_eq_some ht
    rw [h.update_iff]
    exact iff_of_true ⟨rfl, rfl, isHeap_of_le_one (Nat.zero_le 1)⟩ trivial
  | constructRange i compare alloc range =>
    obtain ⟨-, rfl⟩ := Queues.create_eq_some ht
    obtain ⟨hmark, hdata, -, hheap⟩ := Queue.ofRange_heapify compare.2 range 0
    rw [h.update_iff]
    refine iff_of_true ⟨hmark.trans hdata.symm, hdata.symm, ?_⟩ trivial
    exact hheap.mono (le_of_eq hdata)
  | copyConstruct i other alloc =>
    obtain ⟨o, ho, hcreate⟩ := bind_eq_some_iff.mp ht
    obtain ⟨-, rfl⟩ := Queues.create_eq_some hcreate
    exact iff_of_true (h.update_iff.mpr (h other o ho)) trivial
  | moveConstruct i other alloc left =>
    obtain ⟨o, ho, hmap⟩ := bind_eq_some_iff.mp ht
    obtain ⟨u, hcreate, rfl⟩ := map_eq_some_iff.mp hmap
    obtain ⟨-, rfl⟩ := Queues.create_eq_some hcreate
    have hmade : Represented
        (update s i (some { o with alloc := alloc.getD o.alloc })) :=
      h.update_iff.mpr (h other o ho)
    rw [hmade.update_iff, (h other o ho).movedFrom_iff]
    constructor
    · intro hleaves o' ho'
      cases ho.symm.trans ho'
      exact hleaves
    · intro hcareful
      exact hcareful o ho
  | copyAssign i other =>
    rw [h.modifyFrom_iff ht]
    refine forall_congr' fun hne => forall₄_congr fun q o hq ho => ?_
    rw [and_iff_left (h other o ho)]
    exact (h other o ho).fits_iff
  | moveAssign i other left =>
    rw [h.modifyFrom_iff ht]
    refine forall_congr' fun hne => forall₄_congr fun q o hq ho => ?_
    exact and_congr (h other o ho).fits_iff ((h other o ho).movedFrom_iff _ _)
  | assign i range =>
    refine iff_of_true (h.modify ht ?_) trivial
    intro q _
    obtain ⟨hmark, hdata, hsize, hheap⟩ := Queue.ofRange_heapify q.compare.2 range range.length
    exact ⟨hmark.trans hdata.symm, hsize.trans hdata.symm, hheap.mono (le_of_eq hdata)⟩
  | clear i =>
    refine iff_of_true (h.modify ht ?_) trivial
    intro q _
    exact ⟨rfl, rfl, isHeap_of_le_one (Nat.zero_le 1)⟩
  | swap i other =>
    rw [h.modifyFrom_iff ht]
    refine forall_congr' fun hne => forall₄_congr fun q o hq ho => ?_
    exact and_congr (h other o ho).fits_iff (h i q hq).fits_iff
  | operations i opList =>
    refine iff_of_true (h.modify ht ?_) trivial
    intro q hq
    exact ((hq.passes q.compare.2 opList).finish q.compare.2 rfl).2
  | destroy i =>
    obtain ⟨_, -, rfl⟩ := map_eq_some_iff.mp ht
    refine iff_of_true ?_ trivial
    intro j q hq
    by_cases hj : j = i
    · subst hj
      rw [update_self] at hq
      cases hq
    · rw [update_of_ne hj] at hq
      exact h j q hq

/-! ## Runs -/

/-- A careful call. -/
def CarefulStep (ι : Type*) (traits : AllocatorTraits A) (s t : Queues A α) : Prop :=
  ∃ event : Event ι A α, Careful traits s event ∧ step traits s event = some t

/-- No queue has been constructed yet. -/
def Queues.initial (A α : Type*) : Queues A α := fun _ => none

/-- Along careful calls each queue, one that has been moved from included, has its
size in both counters and is a heap under its own comparator, so that pops return
its elements in non-increasing order. A call that is not careful breaks this. -/
theorem queues_represented_of_careful
    (run : ReflTransGen (CarefulStep ι traits) (Queues.initial A α) s) :
    (∀ i q, s i = some q →
        (q.queue.mark = q.queue.dataSize ∧ q.queue.size = q.queue.dataSize) ∧
        IsHeap q.compare.1 q.queue.data q.queue.dataSize ∧ q.queue.PopsInOrder q.compare.1) ∧
      ∀ (event : Event ι A α) t, step traits s event = some t →
        (Represented t ↔ Careful traits s event) := by
  have hinit : Represented (Queues.initial A α) := by
    intro i q hq
    cases hq
  have hrep : Represented s := by
    refine Transition.run_preserves ?_ run hinit
    rintro s t hs ⟨event, hcareful, ht⟩
    exact (hs.step_iff ht).mpr hcareful
  constructor
  · intro i q hq
    have hheaped := hrep i q hq
    exact ⟨⟨hheaped.mark, hheaped.size⟩, hheaped.heap, hheaped.popsInOrder q.compare.2⟩
  · intro event t ht
    exact hrep.step_iff ht

/-! ## Concrete queues -/

/-- A comparator object that prefers greater numbers. -/
def lessThan : Comparator Nat := ⟨less, less_strictWeak⟩

/-- A comparator object that prefers smaller numbers. -/
def greaterThan : Comparator Nat :=
  ⟨fun a b => less b a, ⟨less_strictWeak.irrefl, fun h h' => less_strictWeak.trans h' h,
    fun h h' h₂ h₃ => less_strictWeak.incomp_trans h₂ h₃ h h'⟩⟩

/-- An allocator without state. -/
def stateless : AllocatorTraits Unit := ⟨id, false, false, false⟩

/-- The calls made one after the other on no queue at all. -/
def callsOf (events : List (Event Unit Unit Nat)) : Option (Queues Unit Nat) :=
  events.foldlM (step stateless) (Queues.initial Unit Nat)

/-- A queue made from a range is assigned to another one with the same comparator. -/
theorem queues_represented_of_careful_assigned :
    ∃ (s : Queues Unit Nat) (q : Cpq Unit Nat),
      ReflTransGen (CarefulStep Unit stateless) (Queues.initial Unit Nat) s ∧
        s 1 = some q ∧ q.queue.size = 3 ∧ pops q.compare.1 3 q.queue = [9, 7, 5] ∧
        q.queue.PopsInOrder q.compare.1 := by
  have hmade : ReflTransGen (CarefulStep Unit stateless) (Queues.initial Unit Nat) _ :=
    .single ⟨.constructRange 0 lessThan () [5, 7, 9], trivial, rfl⟩
  have hempty := hmade.tail ⟨.construct 1 lessThan (), trivial, rfl⟩
  have hfits : ∀ q o : Cpq Unit Nat, some ⟨.ofRange [] 0, lessThan, ()⟩ = some q →
      some (.ofRange lessThan () [5, 7, 9]) = some o → q.Fits o := by
    rintro q o ⟨⟩ ⟨⟩
    exact (Queue.ofRange_heapify less_strictWeak [5, 7, 9] 0).2.2.2
  have run := hempty.tail ⟨.copyAssign 1 0, fun _ => hfits, rfl⟩
  refine ⟨_, _, run, rfl, rfl, by decide +kernel, ?_⟩
  exact ((queues_represented_of_careful run).1 1 _ rfl).2.2

/-- A queue that has been moved from keeps its counters: it claims two elements
and has none. A queue that is assigned the elements of one with another comparator,
or swapped with it, returns an element before a higher one. -/
theorem not_queues_represented :
    ((callsOf [.constructRange 0 lessThan () [5, 7], .moveConstruct 1 0 none none]).bind
        fun s => (s 0).map fun q => (q.queue.mark, q.queue.size, q.queue.dataSize)) =
        some (2, 2, 0) ∧
      ((callsOf [.constructRange 0 lessThan () [5, 7, 9], .construct 1 greaterThan (),
        .copyAssign 1 0]).bind fun s => (s 1).map fun q => pops q.compare.1 3 q.queue) =
        some [9, 5, 7] ∧
      ((callsOf [.constructRange 0 lessThan () [5, 7, 9], .construct 1 greaterThan (),
        .swap 1 0]).bind fun s => (s 1).map fun q => pops q.compare.1 3 q.queue) =
        some [9, 5, 7] ∧
      greaterThan.1 9 5 = true := by
  decide +kernel

end OneTbb.PriorityQueue
