import OneTbb.BoundedQueue.Model

/-!
# The capacity of `concurrent_bounded_queue`

Without `abort`, the counters only grow. As long as they stay below half the
range of `size_t`, what the code compares is what it means, so a push that has
passed its check has a ticket below `head_counter + my_capacity`. A thread that
is woken up has been taken out of the waiting set by a pop whose ticket is not
below the target of the push.
-/

namespace OneTbb.BoundedQueue

open Function Option State List Config

variable {T α : Type*}

/-! ## Words -/

namespace Config

variable {c : Config}

/-- Half of the range of a word. -/
def half (c : Config) : Nat := 2 ^ (c.bits - 1)

theorem two_pow_bits (c : Config) : 2 ^ c.bits = 2 * c.half := by
  have h := c.three_lt
  obtain ⟨b, hb⟩ := Nat.exists_eq_add_of_lt h
  rw [half, hb, Nat.add_sub_cancel, pow_succ, mul_comm]

theorem signed_of_range {x : Int} (h : -(c.half : Int) ≤ x) (h' : x < c.half) :
    c.signed x = x := by
  rw [signed, two_pow_bits]
  apply Int.bmod_eq_of_le <;> omega

theorem word_of_range {n : Nat} (h : n < 2 * c.half) : c.word n = n := by
  rw [word, two_pow_bits, Int.emod_eq_of_lt (by omega) (by omega)]
  exact Int.toNat_natCast n

theorem pushWaits_iff {head ticket : Nat} (hhead : head < c.half) (hticket : ticket < c.half) :
    c.pushWaits head ticket = true ↔ head + c.capacity ≤ ticket := by
  have hcapacity : c.capacity < c.half := c.capacity_lt
  rw [pushWaits, decide_eq_true_iff, signed_of_range (by omega) (by omega),
    signed_of_range (by omega) (by omega)]
  omega

theorem isFull_iff {head ticket : Nat} (hhead : head < c.half) (hticket : ticket < c.half) :
    c.isFull head ticket = true ↔ head + c.capacity ≤ ticket := by
  rw [isFull, decide_eq_true_iff, signed_of_range (by omega) (by omega)]
  omega

end Config

/-! ## The invariant -/

/-- The ticket of a push whose item is not constructed yet. -/
def Phase.claim : Phase α → Option Nat
  | .pushCheck _ _ ticket | .pushWait _ _ ticket _ | .pushTurn _ ticket | .pushConstruct _ ticket
  | .abortTurn ticket | .abortPublish ticket => some ticket
  | _ => none

/-- The ticket of a push that has passed the capacity check and whose item is
not constructed yet. -/
def Phase.passed : Phase α → Option Nat
  | .pushTurn _ ticket | .pushConstruct _ ticket => some ticket
  | _ => none

/-- The abort counter that `pop` compares with. -/
def PopKind.Calm : PopKind → Prop
  | .pop oldAbort => oldAbort = 0
  | .tryPop => True

/-- What is known of a thread that waits for room for its ticket. -/
def Waiting.Ok (c : Config) (s : State T α) (i : T) (ticket : Nat) : Waiting → Prop
  | .prepare | .cancel .again => True
  | .cancel .thrown => False
  | .cancel .done => ticket < s.head + c.capacity
  | _ => (i, ticket - c.capacity) ∈ s.waitset .slots ∨ ticket < s.head + c.capacity

/-- What is known of a thread when nobody aborts. -/
def Phase.Ok (c : Config) (s : State T α) (i : T) : Phase α → Prop
  | .pushTicket _ oldAbort => oldAbort = 0
  | .pushCheck _ oldAbort _ => oldAbort = 0
  | .pushWait _ oldAbort ticket w => oldAbort = 0 ∧ c.capacity ≤ ticket ∧ w.Ok c s i ticket
  | .tryPushCheck _ ticket => ticket ≤ s.tail
  | .tryPushClaim _ ticket => ticket ≤ s.tail ∧ ticket < s.head + c.capacity
  | .pushTurn _ ticket | .pushConstruct _ ticket => ticket < s.head + c.capacity
  | .abortTurn _ | .abortPublish _ | .popGiveBack _ => False
  | .popTicket oldAbort => oldAbort = 0
  | .popCheck oldAbort target => oldAbort = 0 ∧ target < s.head
  | .popWait oldAbort target w => oldAbort = 0 ∧ target < s.head ∧ w ≠ .cancel .thrown
  | .popTurn kind ticket | .popArrive kind ticket | .popRead kind ticket
  | .popFinish kind ticket _ => kind.Calm ∧ ticket < s.head
  | .notify .slots ticket _ | .notifyLock .slots ticket _ => ticket < s.head
  | .abortCount | .abortCheck _ | .abortLock _ => False
  | _ => True

/-- The invariant of runs without `abort`. -/
structure Inv (c : Config) (s : State T α) : Prop where
  abortCounter : s.abortCounter = 0
  aborted : ∀ i, s.aborted i = false
  ok : ∀ i, (s.phase i).Ok c s i
  claim_lt : ∀ i ticket, (s.phase i).claim = some ticket → ticket < s.tail
  claim_inj : ∀ i j ticket, (s.phase i).claim = some ticket → (s.phase j).claim = some ticket →
    i = j
  claim_fresh : ∀ i ticket, (s.phase i).claim = some ticket → s.items ticket = none
  item : ∀ ticket, (s.items ticket).isSome → ticket < s.tail ∧ ticket < s.head + c.capacity

theorem Inv.initial (c : Config) : Inv c (State.initial : State T α) where
  abortCounter := rfl
  aborted _ := rfl
  ok _ := trivial
  claim_lt := by rintro i ticket ⟨⟩
  claim_inj := by rintro i j ticket ⟨⟩
  claim_fresh := by rintro i ticket ⟨⟩
  item := by rintro ticket ⟨⟩

/-! ## What other threads see of a step -/

/-- The counters grow, and a node that leaves the waiting set has room. -/
structure Grows (s u : State T α) (others : T → Prop) : Prop where
  head : s.head ≤ u.head
  tail : s.tail ≤ u.tail
  waitset : ∀ j, others j → ∀ context, (j, context) ∈ s.waitset .slots →
    (j, context) ∈ u.waitset .slots ∨ context < u.head

variable {c : Config} {s u : State T α} {i j : T} {p : Phase α}

theorem Waiting.Ok.mono {others : T → Prop} (hgrows : Grows s u others) (hj : others j)
    {ticket : Nat} (hticket : c.capacity ≤ ticket) {w : Waiting} (h : w.Ok c s j ticket) :
    w.Ok c u j ticket := by
  have hhead := hgrows.head
  have hroom : ticket < s.head + c.capacity → ticket < u.head + c.capacity := by omega
  have hstay : (j, ticket - c.capacity) ∈ s.waitset .slots ∨ ticket < s.head + c.capacity →
      (j, ticket - c.capacity) ∈ u.waitset .slots ∨ ticket < u.head + c.capacity := by
    rintro (hmem | hlt)
    · refine (hgrows.waitset j hj _ hmem).imp_right ?_
      omega
    · exact .inr (hroom hlt)
  match w, h with
  | .prepare, _ | .cancel .again, _ => trivial
  | .cancel .done, h => exact hroom h
  | .checkAbort _, h | .checkCounter _, h | .commit _, h | .asleep, h => exact hstay h

theorem Phase.Ok.mono {others : T → Prop} (hgrows : Grows s u others) (hj : others j)
    (h : p.Ok c s j) : p.Ok c u j := by
  have hhead := hgrows.head
  have htail := hgrows.tail
  cases p with
  | pushWait value oldAbort ticket w => exact ⟨h.1, h.2.1, h.2.2.mono hgrows hj h.2.1⟩
  | tryPushCheck value ticket => exact le_trans h htail
  | tryPushClaim value ticket => exact ⟨le_trans h.1 htail, lt_of_lt_of_le h.2 (by omega)⟩
  | pushTurn value ticket | pushConstruct value ticket => exact lt_of_lt_of_le h (by omega)
  | popCheck oldAbort target => exact ⟨h.1, lt_of_lt_of_le h.2 hhead⟩
  | popWait oldAbort target w => exact ⟨h.1, lt_of_lt_of_le h.2.1 hhead, h.2.2⟩
  | popTurn kind ticket | popArrive kind ticket | popRead kind ticket
  | popFinish kind ticket found =>
    exact ⟨h.1, lt_of_lt_of_le h.2 hhead⟩
  | notify tag ticket outcome | notifyLock tag ticket outcome =>
    cases tag with
    | slots => exact lt_of_lt_of_le h hhead
    | items => trivial
  | _ => exact h

variable [DecidableEq T]

@[simp] theorem State.goto_phase_self (s : State T α) (i : T) (p : Phase α) :
    (s.goto i p).phase i = p := update_self ..

theorem State.goto_phase_of_ne (s : State T α) (p : Phase α) (h : j ≠ i) :
    (s.goto i p).phase j = s.phase j := update_of_ne h ..

theorem Phase.Ok.goto {q : Phase α} (h : q.Ok c u j) : q.Ok c (u.goto i p) j := by
  have hgrows : Grows u (u.goto i p) fun _ => True :=
    ⟨le_rfl, le_rfl, fun _ _ _ hmem => .inl hmem⟩
  exact h.mono hgrows trivial

/-- What a step of thread `i` to phase `p` has to keep. -/
structure Step (c : Config) (s u : State T α) (i : T) (p : Phase α) : Prop where
  phase : u.phase = s.phase
  abortCounter : u.abortCounter = s.abortCounter
  aborted : ∀ j, s.aborted j = false → u.aborted j = false
  grows : Grows s u (· ≠ i)
  ok : p.Ok c u i
  claim : ∀ ticket, p.claim = some ticket →
    (s.phase i).claim = some ticket ∧ u.items ticket = s.items ticket ∨
      ticket = s.tail ∧ ticket < u.tail ∧ u.items ticket = s.items ticket
  item : ∀ ticket, u.items ticket = s.items ticket ∨
    (s.phase i).claim = some ticket ∧ p.claim = none ∧ ticket < u.head + c.capacity

theorem Inv.goto (h : Inv c s) (hstep : Step c s u i p) : Inv c (u.goto i p) := by
  have hphase : ∀ j, j ≠ i → (u.goto i p).phase j = s.phase j := by
    intro j hj
    rw [goto_phase_of_ne u p hj, hstep.phase]
  have htail : s.tail ≤ (u.goto i p).tail := hstep.grows.tail
  have hclaimed : ∀ ticket, p.claim = some ticket →
      (∀ j, j ≠ i → (s.phase j).claim ≠ some ticket) ∧ ticket < u.tail ∧
        u.items ticket = none := by
    intro ticket hp
    obtain ⟨hold, hitem⟩ | ⟨rfl, hlt, hitem⟩ := hstep.claim ticket hp
    · refine ⟨?_, lt_of_lt_of_le (h.claim_lt i ticket hold) htail,
        hitem.trans (h.claim_fresh i ticket hold)⟩
      intro j hj hclaim
      exact hj (h.claim_inj j i ticket hclaim hold)
    · refine ⟨?_, hlt, hitem.trans ?_⟩
      · intro j _ hclaim
        exact lt_irrefl _ (h.claim_lt j _ hclaim)
      · by_contra hsome
        exact lt_irrefl _ (h.item _ (isSome_iff_ne_none.mpr hsome)).1
  have hother : ∀ j ticket, j ≠ i → (s.phase j).claim = some ticket → u.items ticket = none := by
    intro j ticket hj hclaim
    obtain heq | ⟨hold, -, -⟩ := hstep.item ticket
    · exact heq.trans (h.claim_fresh j ticket hclaim)
    · exact absurd (h.claim_inj j i ticket hclaim hold) hj
  refine ⟨hstep.abortCounter.trans h.abortCounter, fun j => hstep.aborted j (h.aborted j), ?_, ?_,
    ?_, ?_, ?_⟩
  · intro j
    by_cases hj : j = i
    · subst hj
      rw [goto_phase_self]
      exact hstep.ok.goto
    · rw [hphase j hj]
      exact ((h.ok j).mono hstep.grows hj).goto
  · intro j ticket hclaim
    by_cases hj : j = i
    · subst hj
      rw [goto_phase_self] at hclaim
      exact (hclaimed ticket hclaim).2.1
    · rw [hphase j hj] at hclaim
      exact lt_of_lt_of_le (h.claim_lt j ticket hclaim) htail
  · intro j k ticket hclaimj hclaimk
    by_cases hj : j = i <;> by_cases hk : k = i
    · rw [hj, hk]
    · subst hj
      rw [goto_phase_self] at hclaimj
      rw [hphase k hk] at hclaimk
      exact absurd hclaimk ((hclaimed ticket hclaimj).1 k hk)
    · subst hk
      rw [goto_phase_self] at hclaimk
      rw [hphase j hj] at hclaimj
      exact absurd hclaimj ((hclaimed ticket hclaimk).1 j hj)
    · rw [hphase j hj] at hclaimj
      rw [hphase k hk] at hclaimk
      exact h.claim_inj j k ticket hclaimj hclaimk
  · intro j ticket hclaim
    by_cases hj : j = i
    · subst hj
      rw [goto_phase_self] at hclaim
      exact (hclaimed ticket hclaim).2.2
    · rw [hphase j hj] at hclaim
      exact hother j ticket hj hclaim
  · intro ticket hsome
    have hhead : s.head ≤ u.head := hstep.grows.head
    obtain heq | ⟨hold, -, hlt⟩ := hstep.item ticket
    · have hsome' : (u.items ticket).isSome := hsome
      rw [heq] at hsome'
      obtain ⟨h₁, h₂⟩ := h.item ticket hsome'
      exact ⟨lt_of_lt_of_le h₁ htail, lt_of_lt_of_le h₂ (Nat.add_le_add_right hhead _)⟩
    · exact ⟨lt_of_lt_of_le (h.claim_lt i ticket hold) htail, hlt⟩

/-! ## Steps -/

/-- Two states that differ only in what the capacity does not depend on. -/
structure Same (s u : State T α) : Prop where
  phase : u.phase = s.phase
  abortCounter : u.abortCounter = s.abortCounter
  aborted : ∀ j, s.aborted j = false → u.aborted j = false
  head : u.head = s.head
  tail : u.tail = s.tail
  items : u.items = s.items
  waitset : u.waitset .slots = s.waitset .slots

omit [DecidableEq T] in
theorem Same.refl (s : State T α) : Same s s := ⟨rfl, rfl, fun _ h => h, rfl, rfl, rfl, rfl⟩

omit [DecidableEq T] in
theorem Same.grows (h : Same s u) (others : T → Prop) : Grows s u others := by
  refine ⟨le_of_eq h.head.symm, le_of_eq h.tail.symm, fun j _ context hmem => ?_⟩
  left
  rwa [h.waitset]

/-- A step that changes nothing but the phase of its thread. -/
theorem Inv.quiet (h : Inv c s) (hsame : Same s u) (hok : p.Ok c s i)
    (hclaim : ∀ ticket, p.claim = some ticket → (s.phase i).claim = some ticket) :
    Inv c (u.goto i p) := by
  have hitems : ∀ ticket, u.items ticket = s.items ticket := congrFun hsame.items
  refine h.goto ⟨hsame.phase, hsame.abortCounter, hsame.aborted, hsame.grows _, ?_, ?_, ?_⟩
  · exact hok.mono (hsame.grows fun _ => True) trivial
  · intro ticket hp
    exact .inl ⟨hclaim ticket hp, hitems ticket⟩
  · intro ticket
    exact .inl (hitems ticket)

theorem Inv.takeTail (h : Inv c s) (hok : p.Ok c { s with tail := s.tail + 1 } i)
    (hclaim : p.claim = some s.tail) : Inv c ({ s with tail := s.tail + 1 }.goto i p) := by
  refine h.goto ⟨rfl, rfl, fun _ h => h, ⟨le_rfl, Nat.le_succ _, fun _ _ _ h => .inl h⟩,
    hok, ?_, fun _ => .inl rfl⟩
  intro ticket hp
  cases hclaim.symm.trans hp
  exact .inr ⟨rfl, Nat.lt_succ_self _, rfl⟩

theorem Inv.takeHead (h : Inv c s) (hok : p.Ok c { s with head := s.head + 1 } i)
    (hclaim : p.claim = none) : Inv c ({ s with head := s.head + 1 }.goto i p) := by
  refine h.goto ⟨rfl, rfl, fun _ h => h, ⟨Nat.le_succ _, le_rfl, fun _ _ _ h => .inl h⟩,
    hok, ?_, fun _ => .inl rfl⟩
  intro ticket hp
  rw [hclaim] at hp
  cases hp

theorem Inv.changeWaitset (h : Inv c s) {nodes : Tag → List (T × Nat)} {epoch : Tag → Nat}
    (hstay : ∀ j, j ≠ i → ∀ context, (j, context) ∈ s.waitset .slots →
      (j, context) ∈ nodes .slots ∨ context < s.head)
    (hok : p.Ok c { s with waitset := nodes, epoch := epoch } i)
    (hclaim : ∀ ticket, p.claim = some ticket → (s.phase i).claim = some ticket) :
    Inv c ({ s with waitset := nodes, epoch := epoch }.goto i p) := by
  refine h.goto ⟨rfl, rfl, fun _ h => h, ⟨le_rfl, le_rfl, hstay⟩, hok, ?_,
    fun _ => .inl rfl⟩
  intro ticket hp
  exact .inl ⟨hclaim ticket hp, rfl⟩

theorem State.mem_leave (hj : j ≠ i) {context : Nat} {tag : Tag}
    (h : (j, context) ∈ s.waitset tag) : (j, context) ∈ (s.leave tag i).waitset tag := by
  show _ ∈ update s.waitset tag _ tag
  rw [update_self, mem_filter]
  exact ⟨h, decide_eq_true hj⟩

theorem State.not_mem_of_isWaiting {tag : Tag} (h : s.isWaiting tag i = false) (context : Nat) :
    (i, context) ∉ s.waitset tag := by
  intro hmem
  have hwaits : s.isWaiting tag i = true :=
    any_eq_true.mpr ⟨(i, context), hmem, decide_eq_true rfl⟩
  rw [h] at hwaits
  cases hwaits

/-- The counters are below half the range of a word. -/
def State.InRange (c : Config) (s : State T α) : Prop := s.head < c.half ∧ s.tail < c.half

/-- A push that waits for room. It goes on only when there is room for its ticket. -/
theorem Inv.pushWait (h : Inv c s) (hrange : s.InRange c) {value : α} {oldAbort ticket : Nat}
    {w : Waiting} (hp : s.phase i = .pushWait value oldAbort ticket w) {t : State T α}
    (ht : s.advance c i = some t) :
    Inv c t ∧ (t.phase i = .pushTurn value ticket → ticket < s.head + c.capacity) := by
  have hlt : ticket < s.tail := h.claim_lt i ticket (by rw [hp]; rfl)
  obtain ⟨rfl, hcapacity, hw⟩ : oldAbort = 0 ∧ c.capacity ≤ ticket ∧ w.Ok c s i ticket := by
    have := h.ok i
    rwa [hp] at this
  have hwaits := pushWaits_iff hrange.1 (lt_trans hlt hrange.2)
  have hclaim : ∀ w' k, (Phase.pushWait value 0 ticket w').claim = some k →
      (s.phase i).claim = some k := by
    intro w' k hk
    rw [hp]
    exact hk
  -- the thread goes on waiting in the same waiting set
  have hstay : ∀ w', w'.Ok c s i ticket →
      Inv c (s.goto i (.pushWait value 0 ticket w')) ∧
        ((s.goto i (.pushWait value 0 ticket w')).phase i = .pushTurn value ticket →
          ticket < s.head + c.capacity) := by
    intro w' hw'
    refine ⟨h.quiet (.refl s) ⟨rfl, hcapacity, hw'⟩ (hclaim w'), ?_⟩
    rw [goto_phase_self]
    rintro ⟨⟩
  rw [State.advance, hp] at ht
  cases w with
  | prepare =>
    cases ht
    constructor
    · refine h.changeWaitset ?_ ⟨rfl, hcapacity, .inl ?_⟩ (hclaim _)
      · intro j _ context hmem
        left
        rw [update_self]
        exact mem_append_left _ hmem
      · have hword : c.word ((ticket : Int) - c.capacity) = ticket - c.capacity := by
          rw [← Int.natCast_sub hcapacity]
          apply word_of_range
          have := hrange.2
          omega
        rw [hword]
        show _ ∈ update s.waitset .slots _ .slots
        rw [update_self]
        exact mem_append_right _ (mem_singleton.mpr rfl)
    · rw [goto_phase_self]
      rintro ⟨⟩
  | checkAbort epoch =>
    simp only [State.waitStep, h.abortCounter, ne_eq, not_true_eq_false, if_false,
      map_some, Option.some.injEq] at ht
    subst ht
    exact hstay _ hw
  | checkCounter epoch =>
    cases hmissing : c.pushWaits s.head ticket with
    | true =>
      simp only [State.waitStep, hmissing, if_true, map_some, Option.some.injEq] at ht
      subst ht
      exact hstay _ hw
    | false =>
      simp only [State.waitStep, hmissing, Bool.false_eq_true, if_false, map_some,
        Option.some.injEq] at ht
      subst ht
      apply hstay
      show ticket < s.head + c.capacity
      rw [hmissing] at hwaits
      have := mt hwaits.mpr Bool.false_ne_true
      omega
  | commit epoch =>
    by_cases hepoch : epoch = s.epoch .slots
    · simp only [State.waitStep, hepoch, if_true, map_some, Option.some.injEq] at ht
      subst ht
      exact hstay _ hw
    · simp only [State.waitStep, hepoch, if_false, map_some, Option.some.injEq] at ht
      subst ht
      exact hstay _ trivial
  | asleep =>
    cases hin : s.isWaiting .slots i with
    | true => simp [State.waitStep, hin] at ht
    | false =>
      simp only [State.waitStep, hin, h.aborted i, Bool.false_eq_true, if_false,
        map_some, Option.some.injEq] at ht
      subst ht
      have hroom : ticket < s.head + c.capacity :=
        hw.resolve_left (not_mem_of_isWaiting hin _)
      refine ⟨h.quiet (.refl s) hroom ?_, fun _ => hroom⟩
      intro k hk
      rw [hp]
      exact hk
  | cancel after =>
    have hleave : ∀ j, j ≠ i → ∀ context, (j, context) ∈ s.waitset .slots →
        (j, context) ∈ (s.leave .slots i).waitset .slots ∨ context < s.head :=
      fun j hj context hmem => .inl (mem_leave hj hmem)
    cases after with
    | again =>
      cases ht
      refine ⟨h.changeWaitset hleave ⟨rfl, hcapacity, trivial⟩ (hclaim _), ?_⟩
      rw [goto_phase_self]
      rintro ⟨⟩
    | done =>
      cases ht
      have hroom : ticket < s.head + c.capacity := hw
      refine ⟨h.changeWaitset hleave hroom ?_, fun _ => hroom⟩
      intro k hk
      rw [hp]
      exact hk
    | thrown => exact hw.elim

theorem Inv.popWait (h : Inv c s) {oldAbort target : Nat} {w : Waiting}
    (hp : s.phase i = .popWait oldAbort target w) {t : State T α}
    (ht : s.advance c i = some t) : Inv c t := by
  obtain ⟨rfl, htarget, hw⟩ : oldAbort = 0 ∧ target < s.head ∧ w ≠ .cancel .thrown := by
    have := h.ok i
    rwa [hp] at this
  have hstay : ∀ {u : State T α} {w'}, Same s u → w' ≠ .cancel .thrown →
      Inv c (u.goto i (.popWait 0 target w')) := by
    intro u w' hsame hw'
    refine h.quiet hsame ⟨rfl, htarget, hw'⟩ ?_
    rintro k ⟨⟩
  have hdone : ∀ {u : State T α}, Same s u → Inv c (u.goto i (.popTurn (.pop 0) target)) := by
    intro u hsame
    refine h.quiet hsame ⟨rfl, htarget⟩ ?_
    rintro k ⟨⟩
  have hother : ∀ nodes, Same s { s with waitset := update s.waitset .items nodes } :=
    fun _ => ⟨rfl, rfl, fun _ h => h, rfl, rfl, rfl, rfl⟩
  rw [State.advance, hp] at ht
  cases w with
  | prepare =>
    cases ht
    exact hstay (hother _) (by rintro ⟨⟩)
  | checkAbort epoch =>
    simp only [State.waitStep, h.abortCounter, ne_eq, not_true_eq_false, if_false,
      map_some, Option.some.injEq] at ht
    subst ht
    exact hstay (.refl s) (by rintro ⟨⟩)
  | checkCounter epoch =>
    cases hmissing : c.popWaits s.tail target with
    | true =>
      simp only [State.waitStep, hmissing, if_true, map_some, Option.some.injEq] at ht
      subst ht
      exact hstay (.refl s) (by rintro ⟨⟩)
    | false =>
      simp only [State.waitStep, hmissing, Bool.false_eq_true, if_false, map_some,
        Option.some.injEq] at ht
      subst ht
      exact hstay (.refl s) (by rintro ⟨⟩)
  | commit epoch =>
    by_cases hepoch : epoch = s.epoch .items
    · simp only [State.waitStep, hepoch, if_true, map_some, Option.some.injEq] at ht
      subst ht
      exact hstay (.refl s) (by rintro ⟨⟩)
    · simp only [State.waitStep, hepoch, if_false, map_some, Option.some.injEq] at ht
      subst ht
      exact hstay (.refl s) (by rintro ⟨⟩)
  | asleep =>
    cases hin : s.isWaiting .items i with
    | true => simp [State.waitStep, hin] at ht
    | false =>
      simp only [State.waitStep, hin, h.aborted i, Bool.false_eq_true, if_false,
        map_some, Option.some.injEq] at ht
      subst ht
      exact hdone (.refl s)
  | cancel after =>
    cases after with
    | again =>
      cases ht
      exact hstay (hother _) (by rintro ⟨⟩)
    | done =>
      cases ht
      exact hdone (hother _)
    | thrown => exact absurd rfl hw

/-- The critical section of a notification: the nodes it takes out have room. -/
theorem Inv.notifyLock (h : Inv c s) (hrange : s.InRange c) {tag : Tag} {ticket : Nat}
    {outcome : Outcome α} (hp : s.phase i = .notifyLock tag ticket outcome) :
    Inv c ((s.release tag fun n => decide (c.word ticket < n.2)).goto i
      (.idle (some outcome))) := by
  have hok := h.ok i
  rw [hp] at hok
  cases tag with
  | items =>
    refine h.quiet ⟨rfl, rfl, fun _ h => h, rfl, rfl, rfl, rfl⟩ trivial ?_
    rintro k ⟨⟩
  | slots =>
    have hticket : ticket < s.head := hok
    have hword : c.word ticket = ticket := by
      apply word_of_range
      have := hrange.1
      omega
    refine h.changeWaitset ?_ trivial ?_
    · intro j _ context hmem
      rw [update_self, mem_filter, hword, decide_eq_true_iff]
      by_cases hle : ticket < context
      · exact .inl ⟨hmem, hle⟩
      · right
        omega
    · rintro k ⟨⟩

/-- A phase without a claim. -/
theorem claim_of_none {p q : Phase α} (hq : q.claim = none) :
    ∀ ticket, q.claim = some ticket → p.claim = some ticket := by
  intro ticket hclaim
  rw [hq] at hclaim
  cases hclaim

/-- A thread that is about to wait has not been aborted. -/
theorem same_notAborted : Same s { s with aborted := update s.aborted i false } := by
  refine ⟨rfl, rfl, fun j hj => ?_, rfl, rfl, rfl, rfl⟩
  by_cases hji : j = i
  · subst hji
    exact update_self ..
  · exact (update_of_ne hji ..).trans hj

section Cases

variable {value : α} {oldAbort ticket target : Nat} {t : State T α}

theorem Inv.pushCheck (h : Inv c s) (hrange : s.InRange c)
    (hp : s.phase i = .pushCheck value oldAbort ticket) (ht : s.advance c i = some t) :
    Inv c t := by
  have hok := h.ok i
  rw [hp] at hok
  rw [State.advance, hp] at ht
  have hlt : ticket < s.tail := h.claim_lt i ticket (by rw [hp]; rfl)
  have hwaits := pushWaits_iff hrange.1 (lt_trans hlt hrange.2)
  have hclaim : ∀ q : Phase α, q.claim = some ticket →
      ∀ k, q.claim = some k → (s.phase i).claim = some k := by
    intro q hq k hk
    rw [hp, ← hk, hq]
    rfl
  dsimp only at ht
  split at ht
  case isTrue hfull =>
    cases ht
    have hle := hwaits.mp hfull
    exact h.quiet same_notAborted ⟨hok, by omega, trivial⟩ (hclaim _ rfl)
  case isFalse hroom =>
    cases ht
    have hlt' : ticket < s.head + c.capacity := by
      have := mt hwaits.mpr hroom
      omega
    exact h.quiet (.refl s) hlt' (hclaim _ rfl)

theorem Inv.tryPushCheck (h : Inv c s) (hrange : s.InRange c)
    (hp : s.phase i = .tryPushCheck value ticket) (ht : s.advance c i = some t) : Inv c t := by
  have hok := h.ok i
  rw [hp] at hok
  rw [State.advance, hp] at ht
  have hfull := isFull_iff hrange.1 (lt_of_le_of_lt hok hrange.2)
  dsimp only at ht
  split at ht
  case isTrue =>
    cases ht
    exact h.quiet (.refl s) trivial (claim_of_none rfl)
  case isFalse hroom =>
    cases ht
    have := mt hfull.mpr hroom
    exact h.quiet (.refl s) ⟨hok, by omega⟩ (claim_of_none rfl)

theorem Inv.tryPushClaim (h : Inv c s) (hrange : s.InRange c)
    (hp : s.phase i = .tryPushClaim value ticket) (ht : s.advance c i = some t) : Inv c t := by
  have hok := h.ok i
  rw [hp] at hok
  rw [State.advance, hp] at ht
  obtain ⟨hle, hroom⟩ := hok
  have htail := hrange.2
  have hword : c.word s.tail = c.word ticket ↔ s.tail = ticket := by
    rw [word_of_range (by omega), word_of_range (by omega)]
  simp only [hword] at ht
  split at ht
  case isTrue heq =>
    cases ht
    refine h.takeTail ?_ rfl
    rw [heq]
    exact hroom
  case isFalse =>
    cases ht
    exact h.quiet (.refl s) (Nat.le_refl s.tail) (claim_of_none rfl)

theorem Inv.pushTurn (h : Inv c s) (hp : s.phase i = .pushTurn value ticket)
    (ht : s.advance c i = some t) : Inv c t := by
  have hok := h.ok i
  rw [hp] at hok
  rw [State.advance, hp] at ht
  dsimp only at ht
  split at ht
  case isTrue =>
    cases ht
    refine h.quiet (.refl s) hok ?_
    rw [hp]
    exact fun _ hk => hk
  case isFalse => cases ht

/-- Only the push that has the ticket constructs its item. -/
theorem Inv.pushConstruct (h : Inv c s) (hp : s.phase i = .pushConstruct value ticket)
    (ht : s.advance c i = some t) : Inv c t := by
  have hok := h.ok i
  rw [hp] at hok
  rw [State.advance, hp] at ht
  cases ht
  refine h.goto ⟨rfl, rfl, fun _ h => h, ⟨le_rfl, le_rfl,
    fun _ _ _ h => .inl h⟩, trivial, by rintro k ⟨⟩, ?_⟩
  intro k
  by_cases hk : k = ticket
  · subst hk
    exact .inr ⟨by rw [hp]; rfl, rfl, hok⟩
  · exact .inl (update_of_ne hk ..)

theorem Inv.popCheck (h : Inv c s) (hp : s.phase i = .popCheck oldAbort target)
    (ht : s.advance c i = some t) : Inv c t := by
  have hok := h.ok i
  rw [hp] at hok
  rw [State.advance, hp] at ht
  dsimp only at ht
  split at ht
  case isTrue =>
    cases ht
    exact h.quiet same_notAborted ⟨hok.1, hok.2, by rintro ⟨⟩⟩ (claim_of_none rfl)
  case isFalse =>
    cases ht
    exact h.quiet (.refl s) hok (claim_of_none rfl)

theorem Inv.tryPopClaim (h : Inv c s) (hp : s.phase i = .tryPopClaim ticket)
    (ht : s.advance c i = some t) : Inv c t := by
  rw [State.advance, hp] at ht
  dsimp only at ht
  split at ht
  case isTrue =>
    cases ht
    exact h.takeHead ⟨trivial, Nat.lt_succ_self _⟩ rfl
  case isFalse =>
    cases ht
    exact h.quiet (.refl s) trivial (claim_of_none rfl)

theorem Inv.popRead {kind : PopKind} (h : Inv c s) (hp : s.phase i = .popRead kind ticket)
    (ht : s.advance c i = some t) : Inv c t := by
  have hok := h.ok i
  rw [hp] at hok
  rw [State.advance, hp] at ht
  dsimp only at ht
  split at ht
  case h_1 =>
    cases ht
    exact h.quiet ⟨rfl, rfl, fun _ h => h, rfl, rfl, rfl, rfl⟩ hok (claim_of_none rfl)
  case h_2 =>
    cases ht
    exact h.quiet (.refl s) hok (claim_of_none rfl)

theorem Inv.popFinish {kind : PopKind} {found : Option α} (h : Inv c s)
    (hp : s.phase i = .popFinish kind ticket found) (ht : s.advance c i = some t) : Inv c t := by
  have hok := h.ok i
  rw [hp] at hok
  rw [State.advance, hp] at ht
  match found, kind, hok, ht with
  | some value, _, hok, ht =>
    cases ht
    exact h.quiet ⟨rfl, rfl, fun _ h => h, rfl, rfl, rfl, rfl⟩ hok.2 (claim_of_none rfl)
  | none, .pop oldAbort, hok, ht =>
    cases ht
    exact h.quiet ⟨rfl, rfl, fun _ h => h, rfl, rfl, rfl, rfl⟩ hok.1 (claim_of_none rfl)
  | none, .tryPop, hok, ht =>
    cases ht
    exact h.quiet ⟨rfl, rfl, fun _ h => h, rfl, rfl, rfl, rfl⟩ trivial (claim_of_none rfl)

theorem Inv.notify {tag : Tag} {outcome : Outcome α} (h : Inv c s)
    (hp : s.phase i = .notify tag ticket outcome) (ht : s.advance c i = some t) : Inv c t := by
  have hok := h.ok i
  rw [hp] at hok
  rw [State.advance, hp] at ht
  dsimp only at ht
  split at ht
  case isTrue =>
    cases ht
    exact h.quiet (.refl s) trivial (claim_of_none rfl)
  case isFalse =>
    cases ht
    refine h.quiet (.refl s) ?_ (claim_of_none rfl)
    cases tag <;> exact hok

end Cases

theorem Inv.advance (h : Inv c s) (hrange : s.InRange c) {t : State T α}
    (ht : s.advance c i = some t) : Inv c t := by
  have hok := h.ok i
  obtain ⟨p, hp⟩ : ∃ p, s.phase i = p := ⟨_, rfl⟩
  rw [hp] at hok
  have hstep := ht
  rw [State.advance, hp] at ht
  cases p with
  | idle last => cases ht
  | pushStart value =>
    cases ht
    exact h.quiet (.refl s) h.abortCounter (claim_of_none rfl)
  | pushTicket value oldAbort =>
    cases ht
    exact h.takeTail hok rfl
  | pushCheck value oldAbort ticket => exact h.pushCheck hrange hp hstep
  | pushWait value oldAbort ticket w => exact (h.pushWait hrange hp hstep).1
  | tryPushLoad value =>
    cases ht
    exact h.quiet (.refl s) (Nat.le_refl s.tail) (claim_of_none rfl)
  | tryPushCheck value ticket => exact h.tryPushCheck hrange hp hstep
  | tryPushClaim value ticket => exact h.tryPushClaim hrange hp hstep
  | pushTurn value ticket => exact h.pushTurn hp hstep
  | pushConstruct value ticket => exact h.pushConstruct hp hstep
  | pushPublish value ticket =>
    cases ht
    exact h.quiet ⟨rfl, rfl, fun _ h => h, rfl, rfl, rfl, rfl⟩ trivial (claim_of_none rfl)
  | abortTurn ticket | abortPublish ticket | popGiveBack target | abortCount | abortCheck tag
  | abortLock tag =>
    exact hok.elim
  | popStart =>
    cases ht
    exact h.quiet (.refl s) h.abortCounter (claim_of_none rfl)
  | popTicket oldAbort =>
    cases ht
    exact h.takeHead ⟨hok, Nat.lt_succ_self _⟩ rfl
  | popCheck oldAbort target => exact h.popCheck hp hstep
  | popWait oldAbort target w => exact h.popWait hp hstep
  | tryPopLoad =>
    cases ht
    exact h.quiet (.refl s) trivial (claim_of_none rfl)
  | tryPopCheck ticket =>
    dsimp only at ht
    split at ht <;> obtain rfl := Option.some.inj ht <;>
      exact h.quiet (.refl s) trivial (claim_of_none rfl)
  | tryPopClaim ticket => exact h.tryPopClaim hp hstep
  | popTurn kind ticket =>
    dsimp only at ht
    split at ht
    case isTrue =>
      cases ht
      exact h.quiet (.refl s) hok (claim_of_none rfl)
    case isFalse => cases ht
  | popArrive kind ticket =>
    dsimp only at ht
    split at ht
    case isTrue => cases ht
    case isFalse =>
      cases ht
      exact h.quiet (.refl s) hok (claim_of_none rfl)
  | popRead kind ticket => exact h.popRead hp hstep
  | popFinish kind ticket found => exact h.popFinish hp hstep
  | notify tag ticket outcome => exact h.notify hp hstep
  | notifyLock tag ticket outcome =>
    cases ht
    exact h.notifyLock hrange hp

end OneTbb.BoundedQueue
