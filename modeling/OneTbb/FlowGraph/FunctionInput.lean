import OneTbb.FlowGraph.ItemQueue
import OneTbb.FlowGraph.NodeCache
import OneTbb.Library.Positions
import OneTbb.Library.Transition

/-!
# `function_input_base`

The operations of a node with a concurrency limit are handled one at a time by its
aggregator. A body is known to the node from the operation that creates its task, or
takes a place for it, to the operation that follows its end. In between the scheduler
begins it at any time, and in any order with the others.
-/

namespace OneTbb.FlowGraph.FunctionInput

open List Multiset

variable {α ι : Type*}

/-- How far a body has come: its task exists, it runs, or it has returned and its completion has
not been handled yet. -/
inductive Phase where
  | created
  | running
  | finished
  deriving DecidableEq, Repr

structure State (α ι : Type*) where
  /-- `my_queue`, which a node with the policy `rejecting` does not have -/
  queue : Option (ItemBuffer α)
  /-- `my_concurrency` -/
  concurrency : Nat
  /-- `my_predecessors` -/
  predecessors : List ι
  forwarderBusy : Bool
  /-- the bodies the node knows of, with their messages -/
  tasks : List (α × Phase)
  /-- the forwarding tasks that are spawned or running -/
  forwarders : Nat
  /-- the messages that were accepted, in order -/
  accepted : List α
  /-- the messages that got a task or a place, in order -/
  started : List α
  /-- the messages whose bodies began, in order -/
  begun : List α

namespace State

/-- A new node with the policy `queueing`. -/
def initial : State α ι := ⟨some .initial, 0, [], false, [], 0, [], [], []⟩

/-- What is in the queue. -/
def queued (s : State α ι) : List α := (s.queue.map ItemBuffer.contents).getD []

/-- The number of bodies that run. -/
def running (s : State α ι) : Nat := s.tasks.countP fun t => t.2 = .running

/-- The messages whose bodies have not begun. -/
def waiting (s : State α ι) : List α := (s.tasks.filter fun t => t.2 = .created).map Prod.fst

variable (W : SizeType)

/-- `++my_concurrency` with `create_body_task`, on an active graph -/
def start (s : State α ι) (x : α) : State α ι :=
  { s with
    concurrency := (s.concurrency + 1) % 2 ^ W.bits
    tasks := s.tasks ++ [(x, .created)]
    started := s.started ++ [x] }

/-- `perform_queued_requests`, with the answers of the predecessors; whether there is a task -/
def performQueuedRequests (s : State α ι) (answers : List (Option α)) : Bool × State α ι :=
  match s.queue with
  | some queue =>
    if queue.bufferEmpty then (false, s)
    else
      match queue.front with
      | none => (false, s)
      | some x => (true, { s.start W x with queue := some (queue.destroyFront W) })
  | none =>
    match NodeCache.getItem s.predecessors answers with
    | (none, cache) => (false, { s with predecessors := cache })
    | (some x, cache) =>
      (true, { s.start W x with predecessors := cache, accepted := s.accepted ++ [x] })

/-- `internal_try_put_task`, or nothing if the push does not return normally -/
def internalTryPutTask (limit : Nat) (s : State α ι) (x : α) : Option (State α ι) :=
  if s.concurrency < limit then some { s.start W x with accepted := s.accepted ++ [x] }
  else
    match s.queue with
    | none => some s
    | some queue => (queue.pushBack W x).map fun queue =>
      { s with queue := some queue, accepted := s.accepted ++ [x] }

/-- The operation `app_body_bypass` -/
def appBodyBypass (limit : Nat) (s : State α ι) (answers : List (Option α)) : State α ι :=
  let s := { s with concurrency := (s.concurrency + 2 ^ W.bits - 1) % 2 ^ W.bits }
  if s.concurrency < limit then (s.performQueuedRequests W answers).2 else s

/-- `internal_forward`; the forwarding task ends when there is nothing to start -/
def internalForward (limit : Nat) (s : State α ι) (answers : List (Option α)) : State α ι :=
  let r := if s.concurrency < limit then s.performQueuedRequests W answers else (false, s)
  if r.1 then r.2 else { r.2 with forwarderBusy := false, forwarders := r.2.forwarders - 1 }

/-- The operation `reg_pred` -/
def regPred (s : State α ι) (src : ι) : State α ι :=
  let s := { s with predecessors := s.predecessors ++ [src] }
  if s.forwarderBusy then s else { s with forwarderBusy := true, forwarders := s.forwarders + 1 }

/-- The operation `occupy_concurrency` of a lightweight node, whose caller runs the body if there
is a place and puts the message otherwise -/
def occupyConcurrency (limit : Nat) (s : State α ι) (x : α) : State α ι :=
  if s.concurrency < limit then { s.start W x with accepted := s.accepted ++ [x] } else s

end State

/-- What the node or the scheduler does next. Bodies are given by their position. -/
inductive Event (α ι : Type*) where
  | tryPut (x : α)
  | occupy (x : α)
  | beginBody (i : Nat)
  | endBody (i : Nat)
  | appBody (i : Nat) (answers : List (Option α))
  | regPred (src : ι)
  | remPred (src : ι)
  | tryFwd (answers : List (Option α))

/-- One event in a node with a limit, if it can happen and returns. -/
def State.step [DecidableEq ι] (W : SizeType) (limit : Nat) (s : State α ι) :
    Event α ι → Option (State α ι)
  | .tryPut x => s.internalTryPutTask W limit x
  | .occupy x => some (s.occupyConcurrency W limit x)
  | .beginBody i =>
    match s.tasks[i]? with
    | some (x, .created) =>
      some { s with tasks := s.tasks.set i (x, .running), begun := s.begun ++ [x] }
    | _ => none
  | .endBody i =>
    match s.tasks[i]? with
    | some (x, .running) => some { s with tasks := s.tasks.set i (x, .finished) }
    | _ => none
  | .appBody i answers =>
    match s.tasks[i]? with
    | some (_, .finished) =>
      some ({ s with tasks := s.tasks.eraseIdx i }.appBodyBypass W limit answers)
    | _ => none
  | .regPred src => some (s.regPred src)
  | .remPred src => some { s with predecessors := NodeCache.remove src s.predecessors }
  | .tryFwd answers =>
    if 0 < s.forwarders then some (s.internalForward W limit answers) else none

/-! ## What every event keeps -/

/-- The places are taken by the bodies the node knows of, and the accepted messages have started
in order up to those in the queue, into which no others went. -/
structure Counted (W : SizeType) (limit : Nat) (s : State α ι) (q : List α) : Prop where
  queue : ∃ b, s.queue = some b ∧ b.Contains W q ∧ b.tail ≤ s.accepted.length
  concurrency_eq : s.concurrency = s.tasks.length
  concurrency_le : s.concurrency ≤ limit
  accepted_eq : s.accepted = s.started ++ q
  started_eq : (s.begun : Multiset α) + s.waiting = s.started
  in_order : limit = 1 → s.begun ++ s.waiting = s.started

variable {W : SizeType} {limit : Nat} {s : State α ι} {q : List α} {x : α} {i : Nat}

theorem Counted.queued_eq (h : Counted W limit s q) : s.queued = q := by
  obtain ⟨b, hb, hq, -⟩ := h.queue
  rw [State.queued, hb]
  exact hq.contents_eq

theorem Counted.initial : Counted W limit (State.initial : State α ι) [] where
  queue := ⟨_, rfl, ItemBuffer.Contains.initial, le_rfl⟩
  concurrency_eq := rfl
  concurrency_le := Nat.zero_le _
  accepted_eq := rfl
  started_eq := rfl
  in_order _ := rfl

/-- A message that starts waits for its body to begin. -/
theorem Counted.start (h : Counted W limit s q) (hroom : s.concurrency < limit)
    (hlimit : limit < 2 ^ W.bits) {b : ItemBuffer α} {q' accepted : List α}
    (hb : b.Contains W q') (htail : b.tail ≤ accepted.length)
    (haccepted : accepted = s.started ++ [x] ++ q') :
    Counted W limit { s.start W x with queue := some b, accepted := accepted } q' := by
  have hwaiting : ({ s.start W x with queue := some b, accepted := accepted }).waiting =
      s.waiting ++ [x] := by
    simp [State.waiting, State.start]
  constructor
  case queue => exact ⟨b, rfl, hb, htail⟩
  case concurrency_eq =>
    have hcount := h.concurrency_eq
    simp only [State.start, length_append, length_singleton]
    rw [Nat.mod_eq_of_lt (by omega), hcount]
  case concurrency_le =>
    simp only [State.start]
    rw [Nat.mod_eq_of_lt (by omega)]
    exact hroom
  case accepted_eq => exact haccepted
  case started_eq =>
    rw [hwaiting, ← coe_add, ← add_assoc]
    change (s.begun : Multiset α) + s.waiting + _ = ((s.started ++ [x] : List α) : Multiset α)
    rw [h.started_eq, coe_add]
  case in_order =>
    intro hone
    rw [hwaiting, ← append_assoc]
    exact congrArg (· ++ [x]) (h.in_order hone)

/-- The messages in the queue wait for a place. -/
structure Inv (W : SizeType) (limit : Nat) (s : State α ι) (q : List α) : Prop
    extends Counted W limit s q where
  full : q ≠ [] → s.concurrency = limit

theorem Inv.internalTryPutTask (h : Inv W limit s q) (hlimit : limit < 2 ^ W.bits)
    {t : State α ι} (ht : s.internalTryPutTask W limit x = some t)
    (hword : t.accepted.length < 2 ^ W.bits) : ∃ q', Inv W limit t q' := by
  obtain ⟨b, hb, hq, htail⟩ := h.queue
  have hmore : (s.accepted ++ [x]).length = s.accepted.length + 1 := by simp
  unfold State.internalTryPutTask at ht
  split at ht
  case isTrue hroom =>
    obtain rfl : q = [] := by
      by_contra hne
      exact ne_of_lt hroom (h.full hne)
    have haccepted : s.accepted ++ [x] = s.started ++ [x] ++ [] := by
      rw [h.accepted_eq, append_nil, append_nil]
    have hstart := h.toCounted.start hroom hlimit hq (by omega) haccepted
    cases ht
    refine ⟨[], ?_, fun hne => absurd rfl hne⟩
    rw [← hb] at hstart
    exact hstart
  case isFalse hfull =>
    rw [hb] at ht
    obtain ⟨b', hb', rfl⟩ := Option.map_eq_some_iff.mp ht
    change (s.accepted ++ [x]).length < _ at hword
    obtain ⟨hq', htail'⟩ := hq.pushBack (by omega) hb'
    refine ⟨q ++ [x], ⟨⟨b', rfl, hq', ?_⟩, h.concurrency_eq, h.concurrency_le, ?_,
      h.started_eq, h.in_order⟩, fun _ => ?_⟩
    · change b'.tail ≤ (s.accepted ++ [x]).length
      omega
    · change s.accepted ++ [x] = s.started ++ (q ++ [x])
      rw [h.accepted_eq, append_assoc]
    · exact le_antisymm h.concurrency_le (Nat.le_of_not_lt hfull)

theorem Inv.occupyConcurrency (h : Inv W limit s q) (hlimit : limit < 2 ^ W.bits) (x : α)
    (hword : (s.occupyConcurrency W limit x).accepted.length < 2 ^ W.bits) :
    ∃ q', Inv W limit (s.occupyConcurrency W limit x) q' := by
  by_cases hroom : s.concurrency < limit
  · refine h.internalTryPutTask hlimit (x := x) ?_ hword
    rw [State.internalTryPutTask, State.occupyConcurrency, if_pos hroom, if_pos hroom]
  · rw [State.occupyConcurrency, if_neg hroom]
    exact ⟨q, h⟩

/-- When one place is free, the first message of the queue takes it. -/
theorem Counted.performQueuedRequests (h : Counted W limit s q)
    (hroom : s.concurrency < limit) (hlimit : limit < 2 ^ W.bits)
    (hlast : q ≠ [] → s.concurrency + 1 = limit) (answers : List (Option α)) :
    ∃ q', Inv W limit (s.performQueuedRequests W answers).2 q' := by
  obtain ⟨b, hb, hq, htail⟩ := h.queue
  unfold State.performQueuedRequests
  rw [hb]
  cases q with
  | nil =>
    dsimp only
    rw [if_pos (hq.bufferEmpty_iff.mpr rfl)]
    exact ⟨[], h, fun hne => absurd rfl hne⟩
  | cons x rest =>
    have hne : ¬ b.bufferEmpty = true := by
      rw [hq.bufferEmpty_iff]
      exact cons_ne_nil _ _
    dsimp only
    rw [if_neg hne, hq.front_cons]
    have haccepted : s.accepted = s.started ++ [x] ++ rest := by
      rw [h.accepted_eq, append_assoc, singleton_append]
    refine ⟨rest, h.start hroom hlimit hq.destroyFront htail haccepted, fun _ => ?_⟩
    change (s.concurrency + 1) % 2 ^ W.bits = limit
    rw [hlast (cons_ne_nil _ _), Nat.mod_eq_of_lt hlimit]

theorem Inv.congr {t : State α ι} (h : Inv W limit s q) (hqueue : t.queue = s.queue)
    (hconcurrency : t.concurrency = s.concurrency) (htasks : t.tasks = s.tasks)
    (haccepted : t.accepted = s.accepted) (hstarted : t.started = s.started)
    (hbegun : t.begun = s.begun) : Inv W limit t q := by
  have hwaiting : t.waiting = s.waiting := by rw [State.waiting, htasks, State.waiting]
  constructor
  case toCounted =>
    constructor
    case queue => rw [hqueue, haccepted]; exact h.queue
    case concurrency_eq => rw [hconcurrency, htasks]; exact h.concurrency_eq
    case concurrency_le => rw [hconcurrency]; exact h.concurrency_le
    case accepted_eq => rw [haccepted, hstarted]; exact h.accepted_eq
    case started_eq => rw [hbegun, hwaiting, hstarted]; exact h.started_eq
    case in_order => rw [hbegun, hwaiting, hstarted]; exact h.in_order
  case full => rw [hconcurrency]; exact h.full

theorem Inv.internalForward (h : Inv W limit s q) (hlimit : limit < 2 ^ W.bits)
    (answers : List (Option α)) :
    ∃ q', Inv W limit (s.internalForward W limit answers) q' := by
  have hperform : ∃ q', Inv W limit (if s.concurrency < limit then
      s.performQueuedRequests W answers else (false, s)).2 q' := by
    split
    case isTrue hroom =>
      apply h.toCounted.performQueuedRequests hroom hlimit
      intro hne
      exact absurd (h.full hne) (ne_of_lt hroom)
    case isFalse => exact ⟨q, h⟩
  unfold State.internalForward
  dsimp only
  generalize (if s.concurrency < limit then s.performQueuedRequests W answers
    else (false, s)) = r at hperform
  obtain ⟨q', hq'⟩ := hperform
  split
  case isTrue => exact ⟨q', hq'⟩
  case isFalse => exact ⟨q', hq'.congr rfl rfl rfl rfl rfl rfl⟩

theorem Inv.beginBody (h : Inv W limit s q) (hi : s.tasks[i]? = some (x, .created)) :
    Inv W limit { s with
      tasks := s.tasks.set i (x, .running), begun := s.begun ++ [x] } q := by
  obtain ⟨before, after, htasks, -, hset⟩ := Positions.exists_split hi
  have hold : s.waiting = (before.filter fun t => t.2 = .created).map Prod.fst ++
      x :: (after.filter fun t => t.2 = .created).map Prod.fst := by
    simp [State.waiting, htasks]
  have hnew : ({ s with tasks := s.tasks.set i (x, .running), begun := s.begun ++ [x] } :
      State α ι).waiting = (before.filter fun t => t.2 = .created).map Prod.fst ++
        (after.filter fun t => t.2 = .created).map Prod.fst := by
    simp [State.waiting, hset]
  refine ⟨⟨h.queue, ?_, h.concurrency_le, h.accepted_eq, ?_, fun hone => ?_⟩, h.full⟩
  · rw [length_set]
    exact h.concurrency_eq
  · rw [hnew, ← h.started_eq, hold, coe_add, coe_add, coe_eq_coe,
      append_assoc, singleton_append]
    exact perm_middle.symm.append_left s.begun
  · -- there is no other body
    have hcount := h.concurrency_eq
    have hle := h.concurrency_le
    have hlength : s.tasks.length = before.length + (after.length + 1) := by
      rw [htasks, length_append, length_cons]
    obtain rfl : before = [] := eq_nil_of_length_eq_zero (by omega)
    obtain rfl : after = [] := eq_nil_of_length_eq_zero (by omega)
    rw [hnew, ← h.in_order hone, hold]
    simp

/-- A body that has begun is not among those that wait. -/
theorem waiting_of_not_created {t : State α ι} {phase : Phase} (hi : s.tasks[i]? = some (x, phase))
    (hphase : phase ≠ .created)
    (ht : t.tasks = s.tasks.eraseIdx i ∨ t.tasks = s.tasks.set i (x, .finished)) :
    t.waiting = s.waiting := by
  obtain ⟨before, after, htasks, herase, hset⟩ := Positions.exists_split hi
  unfold State.waiting
  rcases ht with ht | ht
  · rw [ht, herase, htasks]
    simp [hphase]
  · rw [ht, hset, htasks]
    simp [hphase]

theorem Inv.endBody (h : Inv W limit s q) (hi : s.tasks[i]? = some (x, .running)) :
    Inv W limit { s with tasks := s.tasks.set i (x, .finished) } q := by
  have hwaiting : ({ s with tasks := s.tasks.set i (x, .finished) } : State α ι).waiting =
      s.waiting := waiting_of_not_created hi (by decide) (.inr rfl)
  refine ⟨⟨h.queue, ?_, h.concurrency_le, h.accepted_eq, ?_, fun hone => ?_⟩, h.full⟩
  · rw [length_set]
    exact h.concurrency_eq
  · rw [hwaiting]
    exact h.started_eq
  · rw [hwaiting]
    exact h.in_order hone

theorem Inv.appBody (h : Inv W limit s q) (hlimit : limit < 2 ^ W.bits)
    (hi : s.tasks[i]? = some (x, .finished)) (answers : List (Option α)) :
    ∃ q', Inv W limit
      ({ s with tasks := s.tasks.eraseIdx i }.appBodyBypass W limit answers) q' := by
  have hcount := h.concurrency_eq
  have hle := h.concurrency_le
  obtain ⟨hlt, -⟩ := List.getElem?_eq_some_iff.mp hi
  have hdecrement : (s.concurrency + 2 ^ W.bits - 1) % 2 ^ W.bits = s.concurrency - 1 := by
    rw [show s.concurrency + 2 ^ W.bits - 1 = s.concurrency - 1 + 2 ^ W.bits by omega,
      Nat.add_mod_right, Nat.mod_eq_of_lt (by omega)]
  have hwaiting : ({ s with
      tasks := s.tasks.eraseIdx i, concurrency := s.concurrency - 1 } : State α ι).waiting =
      s.waiting := waiting_of_not_created hi (by decide) (.inl rfl)
  have hfreed : Counted W limit { s with
      tasks := s.tasks.eraseIdx i, concurrency := s.concurrency - 1 } q := by
    refine ⟨h.queue, ?_, le_trans (Nat.sub_le _ _) hle, h.accepted_eq, ?_, fun hone => ?_⟩
    · rw [length_eraseIdx_of_lt hlt]
      exact congrArg (· - 1) hcount
    · rw [hwaiting]
      exact h.started_eq
    · rw [hwaiting]
      exact h.in_order hone
  unfold State.appBodyBypass
  dsimp only
  rw [hdecrement, if_pos (by omega)]
  apply hfreed.performQueuedRequests (by dsimp only; omega) hlimit
  intro hne
  have := h.full hne
  dsimp only
  omega

theorem Inv.step [DecidableEq ι] (h : Inv W limit s q) (hlimit : limit < 2 ^ W.bits)
    {event : Event α ι} {t : State α ι} (ht : s.step W limit event = some t)
    (hword : t.accepted.length < 2 ^ W.bits) : ∃ q', Inv W limit t q' := by
  cases event with
  | tryPut x => exact h.internalTryPutTask hlimit ht hword
  | occupy x =>
    cases ht
    exact h.occupyConcurrency hlimit x hword
  | beginBody i =>
    simp only [State.step] at ht
    split at ht
    case h_1 x hi =>
      cases ht
      exact ⟨q, h.beginBody hi⟩
    case h_2 => cases ht
  | endBody i =>
    simp only [State.step] at ht
    split at ht
    case h_1 x hi =>
      cases ht
      exact ⟨q, h.endBody hi⟩
    case h_2 => cases ht
  | appBody i answers =>
    simp only [State.step] at ht
    split at ht
    case h_1 x hi =>
      cases ht
      exact h.appBody hlimit hi answers
    case h_2 => cases ht
  | regPred src =>
    cases ht
    refine ⟨q, ?_⟩
    unfold State.regPred
    dsimp only
    split
    case isTrue => exact h.congr rfl rfl rfl rfl rfl rfl
    case isFalse => exact h.congr rfl rfl rfl rfl rfl rfl
  | remPred src =>
    cases ht
    exact ⟨q, h.congr rfl rfl rfl rfl rfl rfl⟩
  | tryFwd answers =>
    simp only [State.step] at ht
    split at ht
    case isTrue =>
      cases ht
      exact h.internalForward hlimit answers
    case isFalse => cases ht

/-- One event, while the messages accepted can be counted. After them `my_tail` of the queue would
be zero again. -/
def Step [DecidableEq ι] (W : SizeType) (limit : Nat) (s t : State α ι) : Prop :=
  ∃ event, s.step W limit event = some t ∧ t.accepted.length < 2 ^ W.bits

/-- In every run of a node with the policy `queueing` the places taken are the bodies that have
a task or a place and whose end has not been handled, at most as many as the limit. The accepted
messages get their tasks in order, each body begins once, in this order if the limit is one. The
queue has messages only while all places are taken, and none when there is no body. -/
theorem functionInput_starts_each_once [DecidableEq ι] (hlimit : limit < 2 ^ W.bits)
    (hpos : 1 ≤ limit) (run : Relation.ReflTransGen (Step W limit) State.initial s) :
    s.running ≤ s.concurrency ∧ s.concurrency = s.tasks.length ∧ s.concurrency ≤ limit ∧
      s.accepted = s.started ++ s.queued ∧ (s.begun : Multiset α) + s.waiting = s.started ∧
      (limit = 1 → s.begun ++ s.waiting = s.started) ∧
      (s.queued ≠ [] → s.concurrency = limit) ∧ (s.tasks = [] → s.queued = []) := by
  have hinv : ∃ q, Inv W limit s q := by
    refine Transition.run_preserves (P := fun s => ∃ q, Inv W limit s q) ?_ run
      ⟨[], Counted.initial, fun hne => absurd rfl hne⟩
    rintro u v ⟨q, hq⟩ ⟨event, hv, hword⟩
    exact hq.step hlimit hv hword
  obtain ⟨q, h⟩ := hinv
  rw [h.queued_eq]
  have hcount := h.concurrency_eq
  refine ⟨?_, hcount, h.concurrency_le, h.accepted_eq, h.started_eq, h.in_order, h.full, ?_⟩
  · rw [hcount]
    exact countP_le_length
  · intro hnone
    by_contra hne
    have := h.full hne
    rw [hcount, hnone, length_nil] at this
    omega

/-- The second message waits in the queue for the only place. -/
theorem functionInput_starts_each_once_queued :
    ∃ s : State Nat Nat, [Event.tryPut 0, .tryPut 1].foldlM (State.step .word64 1) State.initial =
        some s ∧ s.queued = [1] ∧ s.concurrency = 1 := by
  refine ⟨_, rfl, by decide +kernel, ?_⟩
  have h := @functionInput_starts_each_once Nat Nat .word64 1 _ _ (by decide) (by decide)
    (.tail (.single ⟨.tryPut 0, rfl, by decide⟩) ⟨.tryPut 1, rfl, by decide⟩)
  exact h.2.2.2.2.2.2.1 (by decide +kernel)

/-- With two places the body of the second message may begin first, and while it runs alone both
places are taken. -/
theorem functionInput_second_first :
    ∃ s : State Nat Nat, [Event.tryPut 0, .tryPut 1, .beginBody 1].foldlM
        (State.step .word64 2) State.initial = some s ∧
      s.accepted = [0, 1] ∧ s.begun = [1] ∧ s.running = 1 ∧ s.concurrency = 2 :=
  ⟨_, rfl, rfl, rfl, rfl, rfl⟩

end OneTbb.FlowGraph.FunctionInput
