import Mathlib.Data.List.Nodup
import Mathlib.Data.List.Perm.Subperm
import OneTbb.BoundedQueue.Capacity

/-!
# Runs of `concurrent_bounded_queue` within its capacity

The invariant holds in every run without `abort` whose counters stay below half
the range of `size_t`. A single thread that pushes and pops again and again gets
the counters to any value below that, and from there on a push may pass the
capacity check although the queue is full.
-/

namespace OneTbb.BoundedQueue

open Function Relation State List Option Config

variable {T α : Type*} [DecidableEq T] {c : Config} {s t : State T α}

/-- An event other than a call of `abort`. -/
def CalmStep (c : Config) (s t : State T α) : Prop :=
  ∃ event : Event T α, (∀ i, event ≠ .call i .abort) ∧ step c s event = some t

/-- Such an event when both counters are below half the range. -/
def CapacityStep (c : Config) (s t : State T α) : Prop := s.InRange c ∧ CalmStep c s t

theorem Inv.step (h : Inv c s) (hstep : CapacityStep c s t) : Inv c t := by
  obtain ⟨hrange, event, hevent, ht⟩ := hstep
  cases event with
  | advance i => exact h.advance hrange ht
  | call i operation =>
    simp only [BoundedQueue.step] at ht
    split at ht
    case h_1 last hp =>
      cases ht
      cases operation with
      | abort => exact absurd rfl (hevent i)
      | push value | tryPush value | pop | tryPop =>
        refine h.quiet (.refl s) trivial ?_
        rintro ticket ⟨⟩
    case h_2 => cases ht

omit [DecidableEq T] in
/-- The items that are in the queue: a push has passed the capacity check for
them, by a thread that has not constructed it yet or at the ticket of a
constructed one, and no pop has claimed them. -/
def State.Holds (s : State T α) : T ⊕ Nat → Prop
  | .inl i => ∃ ticket, (s.phase i).passed = some ticket ∧ s.head ≤ ticket
  | .inr ticket => (s.items ticket).isSome ∧ s.head ≤ ticket

/-- The ticket of an item. -/
def State.ticketOf (s : State T α) : T ⊕ Nat → Nat
  | .inl i => (s.phase i).passed.getD 0
  | .inr ticket => ticket

omit [DecidableEq T] in
theorem Phase.claim_of_passed {p : Phase α} {ticket : Nat} (h : p.passed = some ticket) :
    p.claim = some ticket := by
  cases p <;> first | exact h | cases h

variable {last : Option (Outcome α)} {i : T}

omit [DecidableEq T] in
theorem Inv.passed_lt (h : Inv c s) {ticket : Nat}
    (hpassed : (s.phase i).passed = some ticket) : ticket < s.head + c.capacity := by
  have hok := h.ok i
  cases hp : s.phase i <;> rw [hp] at hpassed hok <;>
    first | cases hpassed; exact hok | cases hpassed

omit [DecidableEq T] in
theorem Inv.ticketOf_range (h : Inv c s) {x : T ⊕ Nat} (hx : s.Holds x) :
    s.head ≤ s.ticketOf x ∧ s.ticketOf x < s.head + c.capacity := by
  cases x with
  | inl i =>
    obtain ⟨ticket, hpassed, hle⟩ := hx
    have hticket : s.ticketOf (.inl i) = ticket := by
      rw [ticketOf, hpassed, getD_some]
    rw [hticket]
    exact ⟨hle, h.passed_lt hpassed⟩
  | inr ticket => exact ⟨hx.2, (h.item ticket hx.1).2⟩

omit [DecidableEq T] in
theorem Inv.ticketOf_inj (h : Inv c s) {x y : T ⊕ Nat} (hx : s.Holds x) (hy : s.Holds y)
    (heq : s.ticketOf x = s.ticketOf y) : x = y := by
  have hclaim : ∀ i, s.Holds (.inl i) → (s.phase i).claim = some (s.ticketOf (.inl i)) := by
    rintro i ⟨ticket, hpassed, -⟩
    rw [ticketOf, hpassed, getD_some]
    exact Phase.claim_of_passed hpassed
  have hfresh : ∀ i, s.Holds (.inl i) → ¬ s.Holds (.inr (s.ticketOf (.inl i))) := by
    rintro i hi ⟨hsome, -⟩
    rw [h.claim_fresh i _ (hclaim i hi)] at hsome
    cases hsome
  match x, y with
  | .inl i, .inl j => exact congrArg _ (h.claim_inj i j _ (hclaim i hx) (heq ▸ hclaim j hy))
  | .inl i, .inr ticket =>
    obtain rfl : s.ticketOf (.inl i) = ticket := heq
    exact absurd hy (hfresh i hx)
  | .inr ticket, .inl j =>
    obtain rfl : ticket = s.ticketOf (.inl j) := heq
    exact absurd hx (hfresh j hy)
  | .inr ticket, .inr ticket' => exact congrArg _ heq

omit [DecidableEq T] in
theorem Inv.length_le (h : Inv c s) {l : List (T ⊕ Nat)} (hnodup : l.Nodup)
    (hl : ∀ x ∈ l, s.Holds x) : l.length ≤ c.capacity := by
  have hinj : (l.map s.ticketOf).Nodup := by
    apply hnodup.map_on
    intro x hx y hy heq
    exact h.ticketOf_inj (hl x hx) (hl y hy) heq
  have hrange : l.map s.ticketOf ⊆ range' s.head c.capacity := by
    intro ticket hmem
    obtain ⟨x, hx, rfl⟩ := mem_map.mp hmem
    rw [mem_range'_1]
    exact h.ticketOf_range (hl x hx)
  have hle := (hinj.subperm hrange).length_le
  rwa [length_map, length_range'] at hle

/-- In every run without `abort` in which the counters stay below half the range
of `size_t` before each step: the items in the queue are never more than its
capacity; a push waits exactly if no pop has the ticket that makes room for it,
and goes on only after a pop has got that ticket; and `try_push` fails only in a
state in which all tickets that there is room for are taken. -/
theorem boundedQueue_within_capacity
    (run : ReflTransGen (CapacityStep c) (initial : State T α) s) :
    (∀ l : List (T ⊕ Nat), l.Nodup → (∀ x ∈ l, s.Holds x) → l.length ≤ c.capacity) ∧
      (∀ i value oldAbort ticket w, s.phase i = .pushWait value oldAbort ticket w →
        ∀ t, s.InRange c → s.advance c i = some t → t.phase i = .pushTurn value ticket →
          c.capacity ≤ ticket ∧ ticket - c.capacity < s.head) ∧
      (∀ i value oldAbort ticket, s.phase i = .pushCheck value oldAbort ticket →
        ∀ t, s.InRange c → s.advance c i = some t → t.phase i = .pushWait value oldAbort ticket .prepare →
          c.capacity ≤ ticket ∧ s.head ≤ ticket - c.capacity) ∧
      ∀ i value ticket, s.phase i = .tryPushCheck value ticket →
        ∀ t, s.InRange c → s.advance c i = some t → t.phase i = .idle (some .full) →
          s.head + c.capacity ≤ s.tail := by
  have h : Inv c s := Transition.run_preserves (fun _ _ h hstep => h.step hstep) run (.initial c)
  refine ⟨fun l hnodup hl => h.length_le hnodup hl, ?_, ?_, ?_⟩
  · intro i value oldAbort ticket w hp t hrange ht hturn
    have hok := h.ok i
    rw [hp] at hok
    have hcapacity : c.capacity ≤ ticket := hok.2.1
    have hroom := (h.pushWait hrange hp ht).2 hturn
    exact ⟨hcapacity, by omega⟩
  · intro i value oldAbort ticket hp t hrange ht hwait
    have hlt : ticket < s.tail := h.claim_lt i ticket (by rw [hp]; rfl)
    have hwaits := pushWaits_iff hrange.1 (lt_trans hlt hrange.2)
    simp only [advance, hp] at ht
    split at ht
    case isTrue hfull =>
      have := hwaits.mp hfull
      exact ⟨by omega, by omega⟩
    case isFalse =>
      cases ht
      rw [goto_phase_self] at hwait
      cases hwait
  · intro i value ticket hp t hrange ht hfail
    have hok := h.ok i
    rw [hp] at hok
    have hle : ticket ≤ s.tail := hok
    have hfull := isFull_iff hrange.1 (lt_of_le_of_lt hle hrange.2)
    simp only [advance, hp] at ht
    split at ht
    case isTrue hyes => exact le_trans (hfull.mp hyes) hle
    case isFalse =>
      cases ht
      rw [goto_phase_self] at hfail
      cases hfail

/-- A queue for one item on a platform with 64 bits. -/
def single : Config := ⟨64, 1, by decide, by decide⟩

/-- The first push of a queue for one item is within its capacity, and the second one has to
wait for a pop. -/
theorem boundedQueue_within_capacity_single :
    ∃ s t : State Nat Nat, ReflTransGen (CapacityStep single) initial s ∧
      s.Holds (.inl 0) ∧
      (∀ l : List (Nat ⊕ Nat), l.Nodup → (∀ x ∈ l, s.Holds x) → l.length ≤ 1) ∧
      s.advance single 1 = some t ∧ t.phase 1 = .pushWait 6 0 1 .prepare ∧ s.head ≤ 0 := by
  have hcall : ReflTransGen (CapacityStep single) (initial : State Nat Nat) _ :=
    .single ⟨⟨by decide, by decide⟩, .call 0 (.push 5), by rintro _ ⟨⟩, rfl⟩
  have hstart := hcall.tail ⟨⟨by decide, by decide⟩, .advance 0, by rintro _ ⟨⟩, rfl⟩
  have hticket := hstart.tail ⟨⟨by decide, by decide⟩, .advance 0, by rintro _ ⟨⟩, rfl⟩
  have hcheck := hticket.tail ⟨⟨by decide, by decide⟩, .advance 0, by rintro _ ⟨⟩, rfl⟩
  have hcall' := hcheck.tail ⟨⟨by decide, by decide⟩, .call 1 (.push 6), by rintro _ ⟨⟩, rfl⟩
  have hstart' := hcall'.tail ⟨⟨by decide, by decide⟩, .advance 1, by rintro _ ⟨⟩, rfl⟩
  have hticket' := hstart'.tail ⟨⟨by decide, by decide⟩, .advance 1, by rintro _ ⟨⟩, rfl⟩
  obtain ⟨hholds, -, hwait, -⟩ := boundedQueue_within_capacity hticket'
  exact ⟨_, _, hticket', ⟨0, rfl, Nat.le_refl 0⟩, hholds, rfl, rfl,
    (hwait 1 6 0 1 rfl _ ⟨by decide, by decide⟩ rfl rfl).2⟩

/-! ## Past half the range -/

/-- The queue is empty after `n` pushes and pops, and nobody uses it. -/
structure Rested (n : Nat) (s : State T α) : Prop where
  head : s.head = n
  tail : s.tail = n
  idle : ∀ i, ∃ last, s.phase i = .idle last
  waitset : ∀ tag, s.waitset tag = []
  turns : ∀ ticket, n ≤ ticket → ticket < n + nQueue →
    s.microTail (index ticket) = turn ticket ∧ s.microHead (index ticket) = turn ticket

/-- A push that finds room, its turn and nobody who waits. -/
theorem foldlM_push (value : α) (hp : s.phase i = .idle last)
    (hroom : c.pushWaits s.head s.tail = false)
    (hturn : s.microTail (index s.tail) = turn s.tail) (hwaitset : s.waitset .items = []) :
    (.call i (.push value) :: replicate 7 (.advance i)).foldlM (step c) s =
      some ({ s with
        tail := s.tail + 1
        items := update s.items s.tail (some value)
        microTail := update s.microTail (index s.tail) (turn s.tail + nQueue)
        published := s.published ++ [(s.tail, value)] }.goto i (.idle (some .pushed))) := by
  simp [replicate, step, hp, goto, Call.start, advance, hroom, hturn, hwaitset]

/-- A pop that finds an item, its turn and nobody who waits. -/
theorem foldlM_pop {value : α} (hp : s.phase i = .idle last)
    (hthere : c.popWaits s.tail s.head = false)
    (hturn : s.microHead (index s.head) = turn s.head)
    (harrived : c.word (s.microTail (index s.head)) ≠ c.word (turn s.head))
    (hitem : s.items s.head = some value) (hwaitset : s.waitset .slots = []) :
    (.call i .pop :: replicate 8 (.advance i)).foldlM (step c) s =
      some ({ s with
        head := s.head + 1
        microHead := update s.microHead (index s.head) (turn s.head + nQueue)
        delivered := s.delivered ++ [(s.head, value)] }.goto i (.idle (some (.popped value)))) := by
  simp [replicate, step, hp, goto, Call.start, advance, hthere, hturn, harrived,
    hitem, hwaitset]

theorem calmRun_of_foldlM {events : List (Event T α)}
    (hcalm : ∀ event ∈ events, ∀ i, event ≠ .call i .abort)
    (h : events.foldlM (step c) s = some t) : ReflTransGen (CalmStep c) s t := by
  induction events generalizing s with
  | nil =>
    cases h
    exact .refl
  | cons event rest ih =>
    rw [foldlM_cons] at h
    obtain ⟨u, hu, hrest⟩ := bind_eq_some_iff.mp h
    exact .head ⟨event, hcalm event mem_cons_self, hu⟩
      (ih (fun e he => hcalm e (mem_cons_of_mem _ he)) hrest)

theorem Config.eight_le_half (c : Config) : 8 ≤ c.half :=
  Nat.pow_le_pow_right (i := 3) (n := 2) (by decide) (Nat.le_sub_one_of_lt c.three_lt)

/-- A push and a pop of the same thread leave a queue at rest. -/
theorem Rested.next (hcapacity : 0 < c.capacity) {n : Nat} (hn : n + 1 < c.half)
    (h : Rested n s) (i : T) (value : α) :
    ∃ t, ReflTransGen (CalmStep c) s t ∧ Rested (n + 1) t := by
  obtain ⟨last, hp⟩ := h.idle i
  obtain ⟨rfl, htail, hidle, hwaitset, hturns⟩ := h
  obtain ⟨hturn, hturn'⟩ := hturns s.head le_rfl (Nat.lt_add_of_pos_right (by decide))
  have hroom : c.pushWaits s.head s.tail = false := by
    rw [← Bool.not_eq_true, pushWaits_iff (by omega) (by omega)]
    omega
  have hthere : c.popWaits (s.tail + 1) s.head = false := by
    rw [popWaits, decide_eq_false_iff_not, signed_of_range (by omega) (by omega),
      signed_of_range (by omega) (by omega)]
    omega
  have harrived : c.word (turn s.head + nQueue : Nat) ≠ c.word (turn s.head) := by
    have hhalf := c.eight_le_half
    have hle : turn s.head ≤ s.head := Nat.div_mul_le_self _ _
    rw [word_of_range (by simp only [nQueue]; omega), word_of_range (by omega)]
    simp [nQueue]
  have hpush := foldlM_push value hp hroom (by rw [htail]; exact hturn) (hwaitset .items)
  rw [htail] at hpush
  generalize hu : goto _ i _ = u at hpush
  have hmicro : u.microTail = update s.microTail (index s.head) (turn s.head + nQueue) := by
    rw [← hu]
    rfl
  have hhead : u.head = s.head := by rw [← hu]; rfl
  have hphase : u.phase i = .idle (some .pushed) := by
    rw [← hu]
    exact goto_phase_self ..
  have hitem : u.items u.head = some value := by
    rw [← hu]
    exact update_self ..
  have hpop := foldlM_pop (c := c) hphase (by rw [← hu]; exact htail ▸ hthere)
    (by rw [← hu]; exact hturn')
    (by rw [hmicro, hhead, update_self]; exact harrived) hitem
    (by rw [← hu]; exact hwaitset .slots)
  rw [hhead] at hpop
  refine ⟨_, (calmRun_of_foldlM ?_ hpush).trans (calmRun_of_foldlM ?_ hpop), ?_⟩
  · simp [replicate]
  · simp [replicate]
  · refine ⟨rfl, by rw [← hu]; rfl, ?_, ?_, ?_⟩
    · intro j
      by_cases hj : j = i
      · subst hj
        exact ⟨_, goto_phase_self ..⟩
      · obtain ⟨last', hlast⟩ := hidle j
        refine ⟨last', ?_⟩
        rw [goto_phase_of_ne _ _ hj, ← hlast, ← hu]
        exact goto_phase_of_ne _ _ hj
    · intro tag
      rw [← hu]
      exact hwaitset tag
    · intro ticket hle hlt
      have hmicro' : u.microHead = s.microHead := by rw [← hu]; rfl
      simp only [goto, hmicro, hmicro']
      by_cases hlast : ticket < s.head + nQueue
      · obtain ⟨h₁, h₂⟩ := hturns ticket (by omega) hlast
        have hne : index ticket ≠ index s.head := by
          simp only [index, nQueue] at hlast ⊢
          omega
        rw [update_of_ne hne, update_of_ne hne]
        exact ⟨h₁, h₂⟩
      · obtain rfl : ticket = s.head + nQueue := by omega
        have hindex : index (s.head + nQueue) = index s.head := by
          simp only [index, nQueue]
          omega
        have hturn₈ : turn (s.head + nQueue) = turn s.head + nQueue := by
          simp only [turn, nQueue]
          omega
        rw [hindex, update_self, update_self, hturn₈]
        exact ⟨rfl, rfl⟩

omit [DecidableEq T] in
theorem Rested.initial : Rested 0 (initial : State T α) where
  head := rfl
  tail := rfl
  idle _ := ⟨none, rfl⟩
  waitset _ := rfl
  turns := by
    intro ticket _ hlt
    have hturn : turn ticket = 0 := by
      simp only [turn, nQueue] at hlt ⊢
      omega
    rw [hturn]
    exact ⟨rfl, rfl⟩

/-- The counters of a queue at rest get to any value below half the range. -/
theorem exists_rested (hcapacity : 0 < c.capacity) (i : T) (value : α) {n : Nat}
    (hn : n < c.half) :
    ∃ t : State T α, ReflTransGen (CalmStep c) initial t ∧ Rested n t := by
  induction n with
  | zero => exact ⟨_, .refl, Rested.initial⟩
  | succ n ih =>
    obtain ⟨s, hs, hrested⟩ := ih (by omega)
    obtain ⟨t, ht, hnext⟩ := hrested.next hcapacity hn i value
    exact ⟨t, hs.trans ht, hnext⟩

theorem foldlM_ticket (value : α) (hp : s.phase i = .idle last) :
    [.call i (.push value), .advance i, .advance i].foldlM (step c) s =
      some ({ s with tail := s.tail + 1 }.goto i (.pushCheck value s.abortCounter s.tail)) := by
  simp [step, hp, goto, Call.start, advance]

/-- A push takes its ticket and passes the capacity check. -/
theorem foldlM_enter (value : α)
    (hp : s.phase i = .idle last) (hroom : c.pushWaits s.head s.tail = false) :
    [.call i (.push value), .advance i, .advance i, .advance i].foldlM (step c) s =
      some ({ s with tail := s.tail + 1 }.goto i (.pushTurn value s.tail)) := by
  simp [step, hp, goto, Call.start, advance, hroom]

/-- Two pushes have passed the capacity check of a queue for one item, and no pop
has claimed their items: the ticket of the second one is so large that its target
is negative as `ptrdiff_t`. -/
theorem not_boundedQueue_within_capacity :
    ∃ s : State Nat Nat, ReflTransGen (CalmStep single) initial s ∧
      s.Holds (.inl 0) ∧ s.Holds (.inl 2) ∧ single.capacity = 1 := by
  obtain ⟨s, hs, h⟩ := exists_rested (T := Nat) (c := single) (n := 2 ^ 63 - 1) (by decide) 0 0
    (by decide)
  obtain ⟨last₀, hp₀⟩ := h.idle 0
  obtain ⟨last₁, hp₁⟩ := h.idle 1
  obtain ⟨last₂, hp₂⟩ := h.idle 2
  have henter := foldlM_enter (c := single) 5 hp₀ (by rw [h.head, h.tail]; decide)
  generalize hu : goto _ 0 _ = u at henter
  have hphase : u.phase = update s.phase 0 (.pushTurn 5 s.tail) := by
    rw [← hu]
    rfl
  have hidle₁ : u.phase 1 = .idle last₁ := by
    rw [hphase, update_of_ne (by decide), hp₁]
  have hticket := foldlM_ticket (c := single) 6 hidle₁
  generalize hv : goto _ 1 _ = v at hticket
  have hphase' : v.phase = update u.phase 1 (.pushCheck 6 u.abortCounter u.tail) := by
    rw [← hv]
    rfl
  have hidle₂ : v.phase 2 = .idle last₂ := by
    rw [hphase', update_of_ne (by decide), hphase, update_of_ne (by decide), hp₂]
  have hhead : v.head = s.tail := by
    rw [← hv, ← hu]
    exact h.head.trans h.tail.symm
  have htail : v.tail = s.tail + 2 := by
    rw [← hv, ← hu]
    rfl
  have hlast := foldlM_enter (c := single) 7 hidle₂ (by rw [hhead, htail, h.tail]; decide)
  refine ⟨_, ((hs.trans (calmRun_of_foldlM (by simp) henter)).trans
    (calmRun_of_foldlM (by simp) hticket)).trans (calmRun_of_foldlM (by simp) hlast),
    ⟨s.tail, ?_, le_of_eq hhead⟩, ⟨v.tail, ?_, ?_⟩, rfl⟩
  · rw [goto_phase_of_ne _ _ (by decide)]
    show (v.phase 0).passed = some s.tail
    rw [hphase', update_of_ne (by decide), hphase, update_self]
    rfl
  · rw [goto_phase_self]
    rfl
  · show v.head ≤ v.tail
    omega

end OneTbb.BoundedQueue
