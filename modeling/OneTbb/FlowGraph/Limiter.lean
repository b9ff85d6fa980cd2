import OneTbb.Library.Transition
import OneTbb.Library.Positions
import Mathlib.Algebra.Order.Ring.Int
import Mathlib.Tactic.Ring

/-!
# `limiter_node`

A put takes a try under the lock, calls the successors without it, and turns the
try into a count when they accept. Decrement messages change the count in between.
-/

namespace OneTbb.FlowGraph.Limiter

open Positions Nat

/-- The width of `size_t` and the threshold of the node. -/
structure Config where
  bits : Nat
  threshold : Nat
  threshold_lt : threshold < 2 ^ bits

/-- A call of `try_put_task_impl` or `forward_task` that is under way. -/
inductive Activity where
  /-- calls the successors with a put message -/
  | putting
  | putAccepted
  | putRejected
  /-- a forwarding task before its first lock -/
  | forwarding
  | reserving
  /-- calls the successors with a reserved message -/
  | offering
  | forwardAccepted
  | forwardFailed
  deriving DecidableEq, Repr

/-- Whether the call has a part in `my_tries`. -/
def Activity.holdsTry : Activity → Bool
  | .forwarding => false
  | _ => true

/-- Whether the successors have the message, but the count does not. -/
def Activity.isAccepted : Activity → Bool
  | .putAccepted | .forwardAccepted => true
  | _ => false

structure State where
  /-- `my_count` -/
  count : Nat
  /-- `my_tries` -/
  tries : Nat
  /-- `my_future_decrement` -/
  futureDecrement : Nat
  /-- whether there are predecessors and successors -/
  predecessors : Bool
  successors : Bool
  activities : List Activity
  /-- the number of messages passed to the successors -/
  passed : Nat
  /-- what decrement messages freed, less what they took -/
  granted : Int
  deriving DecidableEq, Repr

def State.initial : State := ⟨0, 0, 0, false, false, [], 0, 0⟩

variable (c : Config)

/-- The conversion of a `long long` to `size_t`. -/
def Config.toSize (delta : Int) : Nat := (delta % 2 ^ c.bits).toNat

/-- `my_count + my_tries < my_threshold` -/
def State.belowThreshold (s : State) : Bool := (s.count + s.tries) % 2 ^ c.bits < c.threshold

/-- `check_conditions` -/
def State.checkConditions (s : State) : Bool :=
  s.belowThreshold c && s.predecessors && s.successors

/-- A forwarding task is spawned or returned. -/
def State.spawn (s : State) (needed : Bool) : State :=
  if needed then { s with activities := s.activities ++ [.forwarding] } else s

/-- The locked part of `decrement_counter` -/
def State.decrementCounter (s : State) (delta₀ : Int) : State :=
  let delta := if 0 < delta₀ ∧ c.threshold < c.toSize delta₀ then (c.threshold : Int) else delta₀
  if 0 < delta ∧ s.count < c.toSize delta then
    if 0 < s.tries then
      { s with
        futureDecrement := (s.futureDecrement + (c.toSize delta - s.count)) % 2 ^ c.bits
        count := 0
        granted := s.granted + c.toSize delta }
    else { s with count := 0, granted := s.granted + s.count }
  else if delta < 0 ∧ (c.threshold + 2 ^ c.bits - s.count) % 2 ^ c.bits < c.toSize (-delta) then
    { s with count := c.threshold, granted := s.granted - (c.threshold - s.count) }
  else
    let count := (s.count + 2 ^ c.bits - c.toSize delta) % 2 ^ c.bits
    { s with count := count, granted := s.granted + (s.count - count) }

/-- The locked part after the successors accepted a message -/
def State.recordPass (s : State) : State :=
  let count := (s.count + 1) % 2 ^ c.bits
  if s.futureDecrement = 0 then { s with count := count, tries := s.tries - 1 }
  else if s.futureDecrement < count then
    { s with count := count - s.futureDecrement, futureDecrement := 0, tries := s.tries - 1 }
  else
    { s with count := 0, futureDecrement := s.futureDecrement - count, tries := s.tries - 1 }

/-- What happens at the node. -/
inductive Action where
  /-- `try_put_task_impl` starts -/
  | put
  /-- a decrement message -/
  | decrement (delta : Int)
  /-- the call at a position goes on, with the answer it gets and whether the graph is active -/
  | advance (i : Nat) (accepted active : Bool)
  | registerSuccessor (active : Bool)
  | registerPredecessor (active : Bool)
  /-- edges are removed, or found to be empty by a failed reservation -/
  | edges (predecessors successors : Bool)
  deriving DecidableEq, Repr

/-- The call at a position goes on. -/
def State.advance (s : State) (i : Nat) (accepted active : Bool) : Option State :=
  match s.activities[i]? with
  | none => none
  | some .putting =>
    some (if accepted then
      { s with passed := s.passed + 1, activities := s.activities.set i .putAccepted }
    else { s with activities := s.activities.set i .putRejected })
  | some .putAccepted =>
    some { s.recordPass c with activities := s.activities.eraseIdx i }
  | some .putRejected =>
    let t := { s with tries := s.tries - 1, activities := s.activities.eraseIdx i }
    some (t.spawn (t.checkConditions c && active))
  | some .forwarding =>
    some (if s.checkConditions c then
      { s with tries := s.tries + 1, activities := s.activities.set i .reserving }
    else { s with activities := s.activities.eraseIdx i })
  | some .reserving =>
    some { s with activities :=
      s.activities.set i (if accepted then .offering else .forwardFailed) }
  | some .offering =>
    some (if accepted then
      { s with passed := s.passed + 1, activities := s.activities.set i .forwardAccepted }
    else { s with activities := s.activities.set i .forwardFailed })
  | some .forwardAccepted =>
    let t := { s.recordPass c with activities := s.activities.eraseIdx i }
    some (t.spawn (t.checkConditions c && active))
  | some .forwardFailed =>
    let t := { s with tries := s.tries - 1, activities := s.activities.eraseIdx i }
    some (t.spawn (t.checkConditions c && active))

def State.step (s : State) : Action → Option State
  | .put =>
    some (if s.belowThreshold c then
      { s with tries := s.tries + 1, activities := s.activities ++ [.putting] } else s)
  | .decrement delta => some ((s.decrementCounter c delta).spawn true)
  | .advance i accepted active => s.advance c i accepted active
  | .registerSuccessor active =>
    some ({ s with successors := true }.spawn
      (!s.successors && s.predecessors && s.belowThreshold c && active))
  | .registerPredecessor active =>
    some ({ s with predecessors := true }.spawn
      (s.belowThreshold c && s.successors && active))
  | .edges predecessors successors =>
    some { s with predecessors := predecessors, successors := successors }

/-- The count alone, the count with the tries, and the messages passed beyond what was granted
are at most the threshold. -/
def State.Bounded (s : State) : Prop :=
  s.count ≤ c.threshold ∧ s.count + s.tries ≤ c.threshold ∧
    (s.passed : Int) - s.granted ≤ c.threshold

instance (s : State) : Decidable (s.Bounded c) := inferInstanceAs (Decidable (_ ∧ _ ∧ _))

/-- A message that takes from the budget finds no try under way, or leaves room for all of them. -/
def State.Allows (s : State) : Action → Prop
  | .decrement delta =>
    delta < 0 → s.tries = 0 ∨ s.count + s.tries + c.toSize (-delta) ≤ c.threshold
  | _ => True

/-! ## The invariant -/

variable {c}

/-- What holds as long as no message takes from the budget of a try. -/
structure State.Inv (c : Config) (s : State) : Prop where
  tries_eq : s.tries = s.activities.countP Activity.holdsTry
  bound : s.count + s.tries ≤ c.threshold
  /-- what was passed and not granted is counted, or its call has not returned -/
  balance : (s.passed : Int) + s.futureDecrement ≤
    s.granted + s.count + s.activities.countP Activity.isAccepted

theorem Activity.isAccepted_le (l : List Activity) :
    l.countP Activity.isAccepted ≤ l.countP Activity.holdsTry := by
  apply List.countP_mono_left
  intro a _ h
  cases a <;> first | rfl | cases h

variable {s : State} {i : Nat}

theorem State.Inv.bounded {s : State} (h : s.Inv c) : s.Bounded c := by
  have hle := Activity.isAccepted_le s.activities
  have htries := h.tries_eq
  have hbound := h.bound
  have hbalance := h.balance
  refine ⟨by omega, hbound, by omega⟩

theorem State.Inv.initial : State.initial.Inv c where
  tries_eq := rfl
  bound := zero_le _
  balance := by decide

theorem State.Inv.spawn (h : s.Inv c) (needed : Bool) : (s.spawn needed).Inv c := by
  unfold State.spawn
  split
  case isFalse => exact h
  case isTrue =>
    constructor
    case tries_eq => simpa [Activity.holdsTry] using h.tries_eq
    case bound => exact h.bound
    case balance => simpa [Activity.isAccepted] using h.balance

theorem State.Inv.belowThreshold (h : s.Inv c) (hlow : s.belowThreshold c = true) :
    s.count + s.tries < c.threshold := by
  have hlt := c.threshold_lt
  have hbound := h.bound
  simpa [State.belowThreshold, mod_eq_of_lt (show s.count + s.tries < 2 ^ c.bits by omega)]
    using hlow

theorem State.recordPass_spec (h : s.count + 1 < 2 ^ c.bits) :
    (s.recordPass c).tries = s.tries - 1 ∧ (s.recordPass c).count ≤ s.count + 1 ∧
      (s.recordPass c).count + s.futureDecrement = s.count + 1 + (s.recordPass c).futureDecrement ∧
      (s.recordPass c).passed = s.passed ∧ (s.recordPass c).granted = s.granted := by
  unfold State.recordPass
  rw [mod_eq_of_lt h]
  dsimp only
  split
  case isTrue => exact ⟨rfl, le_rfl, rfl, rfl, rfl⟩
  case isFalse =>
    split
    case isTrue => exact ⟨rfl, by dsimp only; omega, by dsimp only; omega, rfl, rfl⟩
    case isFalse => exact ⟨rfl, zero_le _, by dsimp only; omega, rfl, rfl⟩

/-- The successors have accepted a message, and the count is told. -/
theorem State.Inv.recordPass (h : s.Inv c) {a : Activity}
    (ha : s.activities[i]? = some a) (htry : a.holdsTry = true) (hacc : a.isAccepted = true) :
    State.Inv c { s.recordPass c with activities := s.activities.eraseIdx i } := by
  have hlt := c.threshold_lt
  have hbound := h.bound
  have hbalance := h.balance
  have htries := h.tries_eq
  have herase := countP_eraseIdx Activity.holdsTry ha
  have herase' := countP_eraseIdx Activity.isAccepted ha
  rw [htry, Bool.toNat_true] at herase
  rw [hacc, Bool.toNat_true] at herase'
  obtain ⟨htries', hcount, hfuture, hpassed, hgranted⟩ :=
    s.recordPass_spec (c := c) (by omega)
  constructor
  case tries_eq => dsimp only; omega
  case bound => dsimp only; omega
  case balance => dsimp only; omega

/-- The successors or the predecessors have refused, and the try is given back. -/
theorem State.Inv.giveBack (h : s.Inv c) {a : Activity}
    (ha : s.activities[i]? = some a) (htry : a.holdsTry = true) (hacc : a.isAccepted = false) :
    State.Inv c { s with tries := s.tries - 1, activities := s.activities.eraseIdx i } := by
  have hbound := h.bound
  have hbalance := h.balance
  have htries := h.tries_eq
  have herase := countP_eraseIdx Activity.holdsTry ha
  have herase' := countP_eraseIdx Activity.isAccepted ha
  rw [htry, Bool.toNat_true] at herase
  rw [hacc, Bool.toNat_false] at herase'
  constructor
  case tries_eq => dsimp only; omega
  case bound => dsimp only; omega
  case balance => dsimp only; omega

/-- A call goes on without the lock, with one more message passed when it is accepted. -/
theorem State.Inv.goOn (h : s.Inv c) {a b : Activity}
    (ha : s.activities[i]? = some a) (hsame : a.holdsTry = b.holdsTry)
    (hacc : a.isAccepted = false) :
    State.Inv c { s with
      passed := s.passed + b.isAccepted.toNat, activities := s.activities.set i b } := by
  have hbalance := h.balance
  have htries := h.tries_eq
  have hset := countP_set Activity.holdsTry ha b
  have hset' := countP_set Activity.isAccepted ha b
  rw [hsame] at hset
  rw [hacc, Bool.toNat_false] at hset'
  constructor
  case tries_eq => dsimp only; omega
  case bound => exact h.bound
  case balance => dsimp only; omega

theorem State.Inv.advance {s t : State} (h : s.Inv c) {accepted active : Bool}
    (ht : s.advance c i accepted active = some t) : t.Inv c := by
  unfold State.advance at ht
  split at ht
  case h_1 => cases ht
  all_goals
    rename_i ha
    injection ht with ht
    subst ht
  case h_2 =>
    cases accepted
    · exact h.goOn (b := .putRejected) ha rfl rfl
    · exact h.goOn (b := .putAccepted) ha rfl rfl
  case h_3 => exact h.recordPass ha rfl rfl
  case h_4 => exact (h.giveBack ha rfl rfl).spawn _
  case h_5 =>
    split
    case isTrue hcheck =>
      simp only [State.checkConditions, Bool.and_eq_true] at hcheck
      have hlow := h.belowThreshold hcheck.1.1
      have hset := countP_set Activity.holdsTry ha .reserving
      have hset' := countP_set Activity.isAccepted ha .reserving
      have htries := h.tries_eq
      have hbalance := h.balance
      simp only [Activity.holdsTry, Activity.isAccepted, Bool.toNat_true, Bool.toNat_false]
        at hset hset'
      constructor
      case tries_eq => dsimp only; omega
      case bound => dsimp only; omega
      case balance => dsimp only; omega
    case isFalse =>
      have herase := countP_eraseIdx Activity.holdsTry ha
      have herase' := countP_eraseIdx Activity.isAccepted ha
      simp only [Activity.holdsTry, Activity.isAccepted, Bool.toNat_false, add_zero]
        at herase herase'
      constructor
      case tries_eq => rw [herase]; exact h.tries_eq
      case bound => exact h.bound
      case balance => rw [herase']; exact h.balance
  case h_6 =>
    cases accepted
    · exact h.goOn (b := .forwardFailed) ha rfl rfl
    · exact h.goOn (b := .offering) ha rfl rfl
  case h_7 =>
    cases accepted
    · exact h.goOn (b := .forwardFailed) ha rfl rfl
    · exact h.goOn (b := .forwardAccepted) ha rfl rfl
  case h_8 => exact (h.recordPass ha rfl rfl).spawn _
  case h_9 => exact (h.giveBack ha rfl rfl).spawn _

/-! ## Decrement messages -/

theorem Config.toSize_cast (c : Config) (delta : Int) :
    (c.toSize delta : Int) = delta % (2 ^ c.bits : Nat) := by
  have hpos : 0 < 2 ^ c.bits := Nat.two_pow_pos c.bits
  have hcast : ((2 ^ c.bits : Nat) : Int) = 2 ^ c.bits := by push_cast; rfl
  rw [Config.toSize, ← hcast]
  exact Int.toNat_of_nonneg (Int.emod_nonneg delta (by omega))

theorem Config.toSize_lt (c : Config) (delta : Int) : c.toSize delta < 2 ^ c.bits := by
  have hpos : 0 < 2 ^ c.bits := Nat.two_pow_pos c.bits
  have hlt := Int.emod_lt_of_pos delta (show (0 : Int) < (2 ^ c.bits : Nat) by omega)
  rw [← c.toSize_cast] at hlt
  exact_mod_cast hlt

theorem Config.toSize_neg (c : Config) (delta : Int) :
    c.toSize (-delta) = if c.toSize delta = 0 then 0 else 2 ^ c.bits - c.toSize delta := by
  have hlt := c.toSize_lt delta
  have hcast := c.toSize_cast delta
  have hcast' := c.toSize_cast (-delta)
  have hdvd := Int.dvd_iff_emod_eq_zero (a := ((2 ^ c.bits : Nat) : Int)) (b := delta)
  rw [Int.neg_emod, Int.natAbs_natCast] at hcast'
  split at hcast'
  case isTrue hd => rw [if_pos (by have := hdvd.mp hd; omega)]; exact_mod_cast hcast'
  case isFalse hd =>
    rw [if_neg (by rw [hdvd] at hd; omega)]
    omega

theorem Config.sub_toSize (c : Config) (x : Nat) (delta : Int) :
    (x + 2 ^ c.bits - c.toSize delta) % 2 ^ c.bits = (x + c.toSize (-delta)) % 2 ^ c.bits := by
  have hlt := c.toSize_lt delta
  rw [c.toSize_neg]
  split
  case isTrue hzero => rw [hzero, Nat.sub_zero, add_mod_right, add_zero]
  case isFalse => rw [Nat.add_sub_assoc (by omega)]

theorem Config.toSize_natCast (c : Config) {n : Nat} (h : n < 2 ^ c.bits) :
    c.toSize (n : Int) = n := by
  unfold Config.toSize
  exact_mod_cast mod_eq_of_lt h

/-- A message that gives to the budget frees what is counted, or what it says. -/
theorem State.decrementCounter_of_nonneg (hcount : s.count ≤ c.threshold)
    {delta : Int} (h : 0 ≤ delta) :
    ∃ count future granted, s.decrementCounter c delta =
        { s with count := count, futureDecrement := future, granted := granted } ∧
      count ≤ s.count ∧
      (future : Int) + s.granted + s.count ≤ s.futureDecrement + granted + count := by
  have hlt := c.threshold_lt
  unfold State.decrementCounter
  dsimp only
  generalize hclamped : (if 0 < delta ∧ c.threshold < c.toSize delta then (c.threshold : Int)
    else delta) = value
  have hvalue : 0 ≤ value := by
    rw [← hclamped]
    split <;> omega
  have hpos : 0 < value ∨ c.toSize value = 0 := by
    rcases Int.lt_or_eq_of_le hvalue with hpos | rfl
    · exact .inl hpos
    · exact .inr (c.toSize_natCast (Nat.two_pow_pos _))
  split
  case isTrue hmore =>
    split
    case isTrue =>
      refine ⟨_, _, _, rfl, zero_le _, ?_⟩
      have := mod_le (s.futureDecrement + (c.toSize value - s.count)) (2 ^ c.bits)
      omega
    case isFalse => exact ⟨_, _, _, rfl, zero_le _, by omega⟩
  case isFalse hmore =>
    rw [if_neg (by omega)]
    have hle : c.toSize value ≤ s.count := by
      rcases hpos with hpos | hzero
      · exact Nat.le_of_not_lt fun hlt' => hmore ⟨hpos, hlt'⟩
      · omega
    have hmod : (s.count + 2 ^ c.bits - c.toSize value) % 2 ^ c.bits =
        s.count - c.toSize value := by
      rw [show s.count + 2 ^ c.bits - c.toSize value = s.count - c.toSize value + 2 ^ c.bits by
        omega, add_mod_right]
      exact mod_eq_of_lt (by omega)
    rw [hmod]
    exact ⟨_, _, _, rfl, sub_le _ _, by omega⟩

/-- What a message that takes from the budget does to the count and the balance. -/
theorem State.decrementCounter_of_neg (hcount : s.count ≤ c.threshold)
    {delta : Int} (h : delta < 0) :
    s.decrementCounter c delta = { s with
      count := min c.threshold (s.count + c.toSize (-delta))
      granted := s.granted + (s.count - min c.threshold (s.count + c.toSize (-delta)) : Int) } := by
  have hlt := c.threshold_lt
  have hsub : (c.threshold + 2 ^ c.bits - s.count) % 2 ^ c.bits = c.threshold - s.count := by
    rw [show c.threshold + 2 ^ c.bits - s.count = c.threshold - s.count + 2 ^ c.bits by omega,
      add_mod_right]
    exact mod_eq_of_lt (by omega)
  unfold State.decrementCounter
  simp only [if_neg (show ¬ (0 < delta ∧ c.threshold < c.toSize delta) by omega),
    if_neg (show ¬ (0 < delta ∧ s.count < c.toSize delta) by omega), h, true_and, hsub,
    c.sub_toSize]
  split
  case isTrue hbig =>
    have hmin : min c.threshold (s.count + c.toSize (-delta)) = c.threshold := by omega
    rw [hmin]
    congr 1
    ring
  case isFalse hsmall =>
    have hmin : min c.threshold (s.count + c.toSize (-delta)) = s.count + c.toSize (-delta) := by
      omega
    rw [hmin, mod_eq_of_lt (by omega)]

/-- A message keeps the invariant if it leaves room for the tries, and breaks the bound if not. -/
theorem State.Inv.decrement (h : s.Inv c) (delta : Int) :
    (s.Allows c (.decrement delta) → (s.decrementCounter c delta).Inv c) ∧
      (¬ s.Allows c (.decrement delta) →
        c.threshold < (s.decrementCounter c delta).count + (s.decrementCounter c delta).tries) := by
  have hbound := h.bound
  have hbalance := h.balance
  rcases Int.lt_or_le delta 0 with hneg | hnonneg
  · rw [s.decrementCounter_of_neg (by omega) hneg]
    constructor
    · intro hallows
      have hroom := hallows hneg
      constructor
      case tries_eq => exact h.tries_eq
      case bound => dsimp only; omega
      case balance => dsimp only; omega
    · intro hnot
      have hroom : ¬ (s.tries = 0 ∨ s.count + s.tries + c.toSize (-delta) ≤ c.threshold) :=
        fun hroom => hnot fun _ => hroom
      dsimp only
      omega
  · obtain ⟨count, future, granted, heq, hcount, hfuture⟩ :=
      s.decrementCounter_of_nonneg (c := c) (by omega) hnonneg
    rw [heq]
    constructor
    · intro _
      constructor
      case tries_eq => exact h.tries_eq
      case bound => dsimp only; omega
      case balance => dsimp only; omega
    · intro hnot
      exact absurd (fun hneg => absurd hneg (by omega)) hnot

theorem State.Inv.step {s t : State} (h : s.Inv c) {a : Action} (ht : s.step c a = some t) :
    (s.Allows c a → t.Inv c) ∧ (¬ s.Allows c a → ¬ t.Bounded c) := by
  cases a with
  | decrement delta =>
    injection ht with ht
    subst ht
    obtain ⟨hkeeps, hbreaks⟩ := h.decrement delta
    refine ⟨fun hallows => (hkeeps hallows).spawn true, fun hnot hbounded => ?_⟩
    have hbreak := hbreaks hnot
    have hle : (s.decrementCounter c delta).count + (s.decrementCounter c delta).tries ≤
      c.threshold := hbounded.2.1
    omega
  | put =>
    injection ht with ht
    subst ht
    refine ⟨fun _ => ?_, fun hnot => absurd trivial hnot⟩
    split
    case isFalse => exact h
    case isTrue hlow =>
      have hlow' := h.belowThreshold hlow
      constructor
      case tries_eq => simpa [Activity.holdsTry] using h.tries_eq
      case bound => dsimp only; omega
      case balance => simpa [Activity.isAccepted] using h.balance
  | advance i accepted active =>
    exact ⟨fun _ => h.advance ht, fun hnot => absurd trivial hnot⟩
  | registerSuccessor active | registerPredecessor active =>
    injection ht with ht
    subst ht
    refine ⟨fun _ => State.Inv.spawn ?_ _, fun hnot => absurd trivial hnot⟩
    exact ⟨h.tries_eq, h.bound, h.balance⟩
  | edges predecessors successors =>
    injection ht with ht
    subst ht
    exact ⟨fun _ => ⟨h.tries_eq, h.bound, h.balance⟩, fun hnot => absurd trivial hnot⟩

/-! ## Runs -/

/-- A step whose message, if it takes from the budget, leaves room for the tries under way. -/
def CarefulStep (c : Config) (s t : State) : Prop := ∃ a, s.Allows c a ∧ s.step c a = some t

theorem inv_of_run (run : Relation.ReflTransGen (CarefulStep c) State.initial s) : s.Inv c := by
  apply Transition.run_preserves _ run State.Inv.initial
  rintro s t h ⟨a, hallows, ht⟩
  exact (h.step ht).1 hallows

/-- The bounds hold in every state of a run as long as no message takes from the budget of a
try under way, and break with the first message that does. -/
theorem limiter_bounded_iff (c : Config) {s t : State} {a : Action}
    (run : Relation.ReflTransGen (CarefulStep c) State.initial s) (ht : s.step c a = some t) :
    s.Bounded c ∧ (t.Bounded c ↔ s.Allows c a) := by
  have hinv := inv_of_run run
  obtain ⟨hkeeps, hbreaks⟩ := hinv.step ht
  refine ⟨hinv.bounded, fun hbounded => ?_, fun hallows => (hkeeps hallows).bounded⟩
  by_contra hnot
  exact hbreaks hnot hbounded

/-- A threshold of two, on 64 bits. -/
def thresholdTwo : Config := ⟨64, 2, by decide⟩

/-- The first put is under way. -/
def onePutting : State := { State.initial with tries := 1, activities := [.putting] }

/-- A message may take one in addition to the try under way. -/
theorem limiter_bounded_taking_one :
    ∃ t, onePutting.step thresholdTwo (.decrement (-1)) = some t ∧ t.Bounded thresholdTwo := by
  have hput : CarefulStep thresholdTwo State.initial onePutting := ⟨.put, trivial, by decide⟩
  refine ⟨_, rfl, ?_⟩
  have hallows : onePutting.Allows thresholdTwo (.decrement (-1)) :=
    fun _ => .inr (by decide +kernel)
  exact (@limiter_bounded_iff thresholdTwo onePutting _ (.decrement (-1)) (.single hput)
    rfl).2.mpr hallows

/-- A message that takes five while a try is under way fills the count, and the try comes on top. -/
theorem limiter_counts_three :
    ∃ s : State, [Action.put, .decrement (-5), .advance 0 true true, .advance 0 true true].foldlM
      (State.step thresholdTwo) State.initial = some s ∧ s.count = 3 ∧
      ¬ s.Bounded thresholdTwo :=
  ⟨_, rfl, by decide +kernel, by decide +kernel⟩

end OneTbb.FlowGraph.Limiter
