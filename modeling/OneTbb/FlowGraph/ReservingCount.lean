import OneTbb.FlowGraph.ReservingAttempts
import OneTbb.Library.Positions
import Mathlib.Algebra.BigOperators.Group.Finset.Piecewise

/-!
# The ports without inputs of a reserving `join_node`

The count is right, up to the changes that operations of ports still have to make, as long
as no removal leaves a port without inputs after an attempt has tested the count and before
it comes to this port. The port would be counted a second time.
-/

namespace OneTbb.FlowGraph.ReservingJoin

open Option Relation State NodeCache Finset

variable {ι α σ : Type*} {bits n : Nat} {s t : State ι α σ}

/-- What the count has of a port. -/
def Port.weight (p : Port ι α) : Nat :=
  match p.pending with
  | .none => if p.cache = [] then 1 else 0
  | .decrement => 1
  | .increment => 0

theorem Port.weight_le (p : Port ι α) : p.weight ≤ 1 := by
  unfold Port.weight
  split
  case h_1 => split <;> omega
  case h_2 => exact le_rfl
  case h_3 => exact Nat.zero_le _

/-- The count is that of the ports, an operation has a change to make for a reason, and the ports
an attempt has still to reserve have inputs. -/
structure Counted (n : Nat) (s : State ι α σ) : Prop where
  count_eq : s.portsWithNoInputs = ∑ i ∈ Finset.range n, (s.ports i).weight
  decrement_of : ∀ i, (s.ports i).pending = .decrement → (s.ports i).cache ≠ []
  increment_of : ∀ i, (s.ports i).pending = .increment → (s.ports i).cache = []
  inputs : ∀ call k, s.handler = .reserving call k →
    ∀ i, i < k → (s.ports i).cache ≠ [] ∧ (s.ports i).pending = .none

theorem Counted.initial (n : Nat) : Counted n (State.initial n : State ι α σ) where
  count_eq := by simp [State.initial, Port.weight]
  decrement_of _ h := by cases h
  increment_of _ _ := rfl
  inputs _ _ h := by cases h

/-- The change of one port changes the sum by its weight. -/
theorem sum_weight_setPort {i : Nat} (hi : i < n) (p : Port ι α) :
    ∑ j ∈ Finset.range n, ((s.setPort i p).ports j).weight + (s.ports i).weight =
      ∑ j ∈ Finset.range n, (s.ports j).weight + p.weight := by
  have hchange := Positions.sum_range_change (f := fun j => (s.ports j).weight)
    (g := fun j => ((s.setPort i p).ports j).weight) hi
    fun j hj => by rw [setPort_ports_of_ne _ hj]
  rwa [setPort_ports_self] at hchange

/-- A reservation under way in the second state has come as far as in the first one. -/
def Later (s t : State ι α σ) : Prop :=
  ∀ call k, t.handler = .reserving call k → ∃ k', k ≤ k' ∧ s.handler = .reserving call k'

theorem Later.of_eq (h : t.handler = s.handler) : Later s t :=
  fun _ k hs => ⟨k, le_rfl, h ▸ hs⟩

theorem Later.of_ne (h : ∀ call k, t.handler ≠ .reserving call k) : Later s t :=
  fun call k hs => absurd hs (h call k)

section

variable (h : Counted n s)
include h

/-- A port that is changed with a change of the count by the difference of the weights. -/
theorem Counted.setPort {i : Nat} (hi : i < n) {p : Port ι α}
    (hdecrement : p.pending = .decrement → p.cache ≠ [])
    (hincrement : p.pending = .increment → p.cache = [])
    (hinputs : ∀ call k, t.handler = .reserving call k → i < k →
      p.cache ≠ [] ∧ p.pending = .none)
    (hports : t.ports = (s.setPort i p).ports) (hlater : Later s t)
    (hcount : t.portsWithNoInputs + (s.ports i).weight = s.portsWithNoInputs + p.weight) :
    Counted n t := by
  have hcases : ∀ j, t.ports j = p ∧ j = i ∨ t.ports j = s.ports j ∧ j ≠ i := by
    intro j
    rw [hports]
    by_cases hj : j = i
    · rw [hj]
      exact .inl ⟨setPort_ports_self _ _ _, rfl⟩
    · exact .inr ⟨setPort_ports_of_ne _ hj _, hj⟩
  constructor
  case count_eq =>
    have hsum := sum_weight_setPort (s := s) hi p
    have hold := h.count_eq
    rw [hports]
    omega
  case decrement_of =>
    intro j
    rcases hcases j with ⟨hj, -⟩ | ⟨hj, -⟩
    · rw [hj]
      exact hdecrement
    · rw [hj]
      exact h.decrement_of j
  case increment_of =>
    intro j
    rcases hcases j with ⟨hj, -⟩ | ⟨hj, -⟩
    · rw [hj]
      exact hincrement
    · rw [hj]
      exact h.increment_of j
  case inputs =>
    intro call k hreserving j hjk
    rcases hcases j with ⟨hj, rfl⟩ | ⟨hj, -⟩
    · rw [hj]
      exact hinputs call k hreserving hjk
    · obtain ⟨k', hle, hbefore⟩ := hlater call k hreserving
      rw [hj]
      exact h.inputs call k' hbefore j (lt_of_lt_of_le hjk hle)

theorem Counted.congr (hcache : ∀ i, (t.ports i).cache = (s.ports i).cache)
    (hpending : ∀ i, (t.ports i).pending = (s.ports i).pending)
    (hcount : t.portsWithNoInputs = s.portsWithNoInputs) (hlater : Later s t) :
    Counted n t := by
  have hweight : ∀ i, (t.ports i).weight = (s.ports i).weight := by
    intro i
    rw [Port.weight, hcache, hpending, Port.weight]
  constructor
  case count_eq =>
    rw [hcount, h.count_eq]
    exact sum_congr rfl fun i _ => (hweight i).symm
  case decrement_of =>
    intro i
    rw [hpending, hcache]
    exact h.decrement_of i
  case increment_of =>
    intro i
    rw [hpending, hcache]
    exact h.increment_of i
  case inputs =>
    intro call k hreserving i hik
    obtain ⟨k', hle, hbefore⟩ := hlater call k hreserving
    rw [hcache, hpending]
    exact h.inputs call k' hbefore i (lt_of_lt_of_le hik hle)

/-! ## The operations of the ports -/

theorem Counted.regPred {i : Nat} (hi : i < n)
    (hpending : (s.ports i).pending = .none) (src : ι) : Counted n (s.regPred i src) := by
  refine h.setPort hi (fun _ => by simp) (fun hp => ?_) (fun call k hs hik => ?_) rfl
    (.of_eq rfl) ?_
  · dsimp only at hp
    split at hp <;> cases hp
  · have hne := (h.inputs call k hs i hik).1
    exact ⟨by simp, by simp [hne]⟩
  · change s.portsWithNoInputs + _ = s.portsWithNoInputs + _
    congr 1
    by_cases hcache : (s.ports i).cache = []
    · simp [Port.weight, hpending, hcache]
    · simp [Port.weight, hpending, hcache]

theorem Counted.remPred [DecidableEq ι] {i : Nat} (hi : i < n)
    (hpending : (s.ports i).pending = .none) {src : ι}
    (hcareful : ∀ call k, s.handler = .reserving call k → i < k →
      remove src (s.ports i).cache ≠ []) : Counted n (s.remPred i src) := by
  unfold State.remPred
  split
  case isTrue => exact h
  case isFalse hne =>
    refine h.setPort hi (fun hp => ?_) (fun hp => ?_) (fun call k hs hik => ?_) rfl (.of_eq rfl) ?_
    · dsimp only at hp
      split at hp <;> cases hp
    · dsimp only at hp
      split at hp
      case isTrue hempty => exact hempty
      case isFalse => cases hp
    · have hrest := hcareful call k hs hik
      exact ⟨hrest, if_neg hrest⟩
    · change s.portsWithNoInputs + _ = s.portsWithNoInputs + _
      congr 1
      by_cases hcache : remove src (s.ports i).cache = []
      · simp [Port.weight, hpending, hne, hcache]
      · simp [Port.weight, hpending, hne, hcache]

theorem Counted.settle (hn : n < 2 ^ bits) {i : Nat} (hi : i < n)
    (ht : s.settle bits i = some t) : Counted n t := by
  have hcount := h.count_eq
  have hle := Positions.sum_range_le n fun i => (s.ports i).weight_le
  -- a port an attempt has still to reserve has no change to make
  have hinputs : (s.ports i).pending ≠ .none → ∀ call k, s.handler = .reserving call k → i < k →
      (s.ports i).cache ≠ [] ∧ Pending.none = .none := by
    intro hne call k hs hik
    exact absurd (h.inputs call k hs i hik).2 hne
  unfold State.settle at ht
  dsimp only at ht
  split at ht
  case h_1 => cases ht
  case h_2 hpending =>
    cases ht
    have hcache := h.decrement_of i hpending
    have hweight : (s.ports i).weight = 1 := by rw [Port.weight, hpending]
    have hpos : 1 ≤ s.portsWithNoInputs := by
      rw [h.count_eq, ← hweight]
      exact single_le_sum (f := fun j => (s.ports j).weight)
        (fun _ _ => Nat.zero_le _) (mem_range.mpr hi)
    refine h.setPort hi (p := { s.ports i with pending := .none }) (fun hp => nomatch hp)
      (fun hp => nomatch hp) (hinputs (by rw [hpending]; simp)) rfl (.of_eq rfl) ?_
    dsimp only
    rw [hweight,
      show s.portsWithNoInputs + 2 ^ bits - 1 = s.portsWithNoInputs - 1 + 2 ^ bits by omega,
      Nat.add_mod_right, Nat.mod_eq_of_lt (by omega)]
    simp only [Port.weight, if_neg hcache]
    omega
  case h_3 hpending =>
    cases ht
    have hcache := h.increment_of i hpending
    have hweight : (s.ports i).weight = 0 := by rw [Port.weight, hpending]
    have hweight' : ({ s.ports i with pending := .none } : Port ι α).weight = 1 := by
      simp [Port.weight, hcache]
    have hsum := sum_weight_setPort (s := s) hi { s.ports i with pending := .none }
    have hle' := Positions.sum_range_le n
      fun j => ((s.setPort i { s.ports i with pending := .none }).ports j).weight_le
    refine h.setPort hi (p := { s.ports i with pending := .none }) (fun hp => nomatch hp)
      (fun hp => nomatch hp) (hinputs (by rw [hpending]; simp)) rfl (.of_eq rfl) ?_
    dsimp only
    rw [hweight, hweight', Nat.mod_eq_of_lt (by omega)]

/-! ## The steps of the handler -/

theorem Counted.resItem {k : Nat} {call : Call} (hk : k < n)
    (hs : s.handler = .reserving call (k + 1)) (hfree : (s.ports k).reserved = false)
    (hnone : (s.ports k).reservedSrc = none) (answers : List (Option α)) :
    Counted n (s.resItem call k answers) := by
  obtain ⟨hcache, hpending⟩ := h.inputs call (k + 1) hs k (Nat.lt_succ_self k)
  have hzero : (s.ports k).weight = 0 := by rw [Port.weight, hpending]; exact if_neg hcache
  unfold State.resItem
  rw [if_neg (by simp [hfree]), if_neg (by simp [hnone])]
  dsimp only
  split
  case h_1 r src x hr =>
    have hne := tryReserve_ne_nil hr
    refine h.setPort hk (p := { s.ports k with
      cache := (tryReserve (s.ports k).cache answers).2, reserved := true,
      reservedSrc := some (src, x) }) (fun _ => hne) ?_ ?_ rfl ?_ ?_
    · intro hp
      exact absurd (hpending.symm.trans hp) (by simp)
    · intro call' k' hs' hlt
      cases hs'
      omega
    · intro call' k' hs'
      cases hs'
      exact ⟨k + 1, Nat.le_succ k, hs⟩
    · rw [hzero, Port.weight, hpending]
      exact congrArg (s.portsWithNoInputs + ·) (if_neg hne).symm
  case h_2 =>
    refine h.setPort hk (p := { s.ports k with
      cache := (tryReserve (s.ports k).cache answers).2
      pending := if (tryReserve (s.ports k).cache answers).2 = [] then .increment
        else .none }) ?_ ?_ (fun _ _ hs' => nomatch hs') rfl (.of_ne fun _ _ hs' => nomatch hs') ?_
    · dsimp only
      split <;> intro hp <;> cases hp
    · dsimp only
      split
      case isTrue hempty => exact fun _ => hempty
      case isFalse => exact fun hp => nomatch hp
    · rw [hzero]
      apply congrArg (s.portsWithNoInputs + ·)
      unfold Port.weight
      by_cases hempty : (tryReserve (s.ports k).cache answers).2 = []
      · simp [hempty]
      · simp [hempty]

theorem Counted.cleared {i : Nat} {handler : Handler}
    (hhandler : ∀ call k, handler ≠ .reserving call k)
    (ht : s.relRes i = some t ∨ s.conRes i = some t) :
    Counted n { t with handler := handler } := by
  have hport : ∀ j, (t.ports j).cache = (s.ports j).cache ∧
      (t.ports j).pending = (s.ports j).pending ∧
      t.portsWithNoInputs = s.portsWithNoInputs := by
    intro j
    have hcleared : t.ports =
        (s.setPort i { s.ports i with reserved := false, reservedSrc := none }).ports ∧
        t.portsWithNoInputs = s.portsWithNoInputs := by
      rcases ht with ht | ht
      · obtain ⟨r, -, rfl⟩ := map_eq_some_iff.mp ht
        exact ⟨rfl, rfl⟩
      · obtain ⟨r, -, rfl⟩ := map_eq_some_iff.mp ht
        exact ⟨rfl, rfl⟩
    rw [hcleared.1]
    by_cases hj : j = i
    · rw [hj, setPort_ports_self]
      exact ⟨rfl, rfl, hcleared.2⟩
    · rw [setPort_ports_of_ne _ hj]
      exact ⟨rfl, rfl, hcleared.2⟩
  exact h.congr (fun j => (hport j).1) (fun j => (hport j).2.1) (hport 0).2.2 (.of_ne hhandler)

theorem Counted.finish (call : Call) : Counted n (s.finish call) := by
  cases call with
  | forward | get =>
    exact h.congr (fun _ => rfl) (fun _ => rfl) rfl (.of_ne fun _ _ hs => nomatch hs)

/-- When the count is zero and no port has been emptied without being counted, an attempt finds
inputs at every port. -/
theorem Counted.makeTuple (hzero : s.portsWithNoInputs = 0)
    (hcareful : ∀ i, i < n → (s.ports i).pending ≠ .increment) (call : Call) :
    Counted n { s with handler := .reserving call n } := by
  refine ⟨h.count_eq, h.decrement_of, h.increment_of, fun call' k hs i hik => ?_⟩
  cases hs
  have hsum := h.count_eq
  rw [hzero, eq_comm, sum_eq_zero_iff] at hsum
  have hweight := hsum i (mem_range.mpr hik)
  have hnot := hcareful i hik
  unfold Port.weight at hweight
  dsimp only
  cases hpending : (s.ports i).pending with
  | none =>
    rw [hpending] at hweight
    refine ⟨fun hempty => ?_, rfl⟩
    rw [hempty] at hweight
    cases hweight
  | decrement =>
    rw [hpending] at hweight
    cases hweight
  | increment => exact absurd hpending hnot

end

/-- No removal leaves a port without inputs while an attempt that has tested the count has still
to reserve it: neither between the test and the reservation, nor so that the test comes before
the removal is counted. -/
def Careful [DecidableEq ι] (n : Nat) (s : State ι α σ) : Event ι α σ → Prop
  | .remPred i src => ∀ call k, s.handler = .reserving call k → i < k →
      remove src (s.ports i).cache ≠ []
  | .advance _ _ => ∀ call, s.handler = .makeTuple call →
      ∀ i, i < n → (s.ports i).pending ≠ .increment
  | _ => True

theorem Counted.advance (h : Counted n s) (hsound : Sound n s) {answers : List (Option α)}
    {puts : List NodeCache.Answer} (ht : s.advance n answers puts = some t)
    (hcareful : ∀ call, s.handler = .makeTuple call →
      ∀ i, i < n → (s.ports i).pending ≠ .increment) : Counted n t := by
  have hprogress := hsound.progress
  unfold Progress at hprogress
  unfold State.advance at ht
  split at ht
  case h_1 => cases ht
  case h_2 call hs =>
    cases ht
    split
    case isTrue =>
      exact h.congr (fun _ => rfl) (fun _ => rfl) rfl (.of_ne fun _ _ hs => nomatch hs)
    case isFalse => exact h.finish call
  case h_3 call hs =>
    cases ht
    split
    case isTrue hzero => exact h.makeTuple hzero (hcareful call hs) call
    case isFalse => exact h.finish call
  case h_4 | h_5 | h_10 =>
    cases ht
    exact h.congr (fun _ => rfl) (fun _ => rfl) rfl (.of_ne fun _ _ hs => nomatch hs)
  case h_6 call k hs =>
    rw [hs] at hprogress
    have hnone := hprogress.held.free k (by omega)
    have hfree : (s.ports k).reserved = false := by
      rw [hsound.reserved_eq, hnone]
      rfl
    split at ht
    case isTrue =>
      cases ht
      exact h.resItem hprogress.le hs hfree hnone answers
    case isFalse => cases ht
  case h_7 call k hs =>
    split at ht
    case isTrue =>
      cases ht
      exact h.congr (fun _ => rfl) (fun _ => rfl) rfl (.of_ne fun _ _ hs => nomatch hs)
    case isFalse => cases ht
  case h_8 call k hs =>
    split at ht
    case isTrue =>
      split at ht
      case isTrue =>
        obtain ⟨u, hu, rfl⟩ := map_eq_some_iff.mp ht
        exact h.cleared (fun _ _ hs => nomatch hs) (.inl hu)
      case isFalse => cases ht
    case isFalse =>
      cases ht
      cases call with
      | forward =>
        exact h.congr (fun _ => rfl) (fun _ => rfl) rfl (.of_ne fun _ _ hs => nomatch hs)
      | get => exact h.congr (fun _ => rfl) (fun _ => rfl) rfl (.of_ne fun _ _ hs => nomatch hs)
  case h_9 hs =>
    cases ht
    refine h.congr (fun _ => rfl) (fun _ => rfl) rfl (.of_ne fun call k => ?_)
    dsimp only
    split <;> exact fun hs => nomatch hs
  case h_11 hs =>
    cases ht
    exact h.congr (fun _ => rfl) (fun _ => rfl) rfl (.of_ne fun _ _ hs => nomatch hs)
  case h_12 call k hs =>
    split at ht
    case isTrue =>
      obtain ⟨u, hu, rfl⟩ := map_eq_some_iff.mp ht
      exact h.cleared (fun _ _ hs => nomatch hs) (.inr hu)
    case isFalse => cases ht

theorem Counted.step [DecidableEq ι] [DecidableEq σ] (h : Counted n s) (hsound : Sound n s)
    (hn : n < 2 ^ bits) {event : Event ι α σ} (hcareful : Careful n s event)
    (ht : s.step bits n event = some t) : Counted n t := by
  cases event with
  | regPred i src =>
    obtain ⟨⟨hi, hpending⟩, ht⟩ := ite_none_right_eq_some.mp ht
    cases ht
    exact h.regPred hi hpending src
  | remPred i src =>
    obtain ⟨⟨hi, hpending⟩, ht⟩ := ite_none_right_eq_some.mp ht
    cases ht
    exact h.remPred hi hpending hcareful
  | settle i =>
    obtain ⟨hi, ht⟩ := ite_none_right_eq_some.mp ht
    exact h.settle hn hi ht
  | regSucc r priority =>
    obtain ⟨-, ht⟩ := ite_none_right_eq_some.mp ht
    cases ht
    unfold State.regSucc
    dsimp only
    split
    case isTrue => exact h.congr (fun _ => rfl) (fun _ => rfl) rfl (.of_eq rfl)
    case isFalse => exact h.congr (fun _ => rfl) (fun _ => rfl) rfl (.of_eq rfl)
  | remSucc r =>
    obtain ⟨-, ht⟩ := ite_none_right_eq_some.mp ht
    cases ht
    exact h.congr (fun _ => rfl) (fun _ => rfl) rfl (.of_eq rfl)
  | begin call =>
    obtain ⟨-, ht⟩ := ite_none_right_eq_some.mp ht
    cases ht
    exact h.congr (fun _ => rfl) (fun _ => rfl) rfl (.of_ne fun _ _ hs => nomatch hs)
  | advance answers puts => exact h.advance hsound ht hcareful

/-! ## Runs -/

section Runs

variable [DecidableEq ι] [DecidableEq σ]

def Step (bits n : Nat) (s t : State ι α σ) : Prop :=
  ∃ event, s.step bits n event = some t

def CarefulStep (bits n : Nat) (s t : State ι α σ) : Prop :=
  ∃ event, Careful n s event ∧ s.step bits n event = some t

theorem sound_of_run (run : ReflTransGen (Step bits n) (State.initial n) s) :
    Sound n s := by
  refine Transition.run_preserves ?_ run (Sound.initial n)
  rintro u v hu ⟨event, hv⟩
  exact hu.step hv

theorem counted_of_run (hn : n < 2 ^ bits)
    (run : ReflTransGen (CarefulStep bits n) (State.initial n) s) : Counted n s := by
  have hboth : Sound n s ∧ Counted n s := by
    refine Transition.run_preserves (P := fun s => Sound n s ∧ Counted n s) ?_ run
      ⟨Sound.initial n, Counted.initial n⟩
    rintro u v ⟨hsound, hcounted⟩ ⟨event, hcareful, hv⟩
    exact ⟨hsound.step hv, hcounted.step hsound hn hcareful hv⟩
  exact hboth.2

/-- In every run each attempt that has ended has consumed a reservation of every port and
delivered the tuple of their items, or has released all reservations it made, and a port has at
most one reservation. An attempt goes on when the operations of the ports have returned, and each
of its steps ends it or brings it nearer to its end. In every run without a removal that leaves a
port without inputs while an attempt that has tested the count has still to reserve it, the count
is the number of ports without inputs whenever the operations of the ports have returned. -/
theorem reservingJoin_all_or_nothing (hn : n < 2 ^ bits) (s : State ι α σ) :
    (ReflTransGen (Step bits n) (State.initial n) s →
      (∀ a ∈ s.attempts, Ended n a) ∧ (∀ i, s.outstanding i ≤ 1) ∧
      ∀ answers puts, (s.handler ≠ .idle → (∀ i, i < n → (s.ports i).pending = .none) →
          (s.advance n answers puts).isSome) ∧
        ∀ t, s.advance n answers puts = some t → s.handler.Attempting → Nearer n s t) ∧
    (ReflTransGen (CarefulStep bits n) (State.initial n) s →
      (∀ i, i < n → (s.ports i).pending = .none) →
      s.portsWithNoInputs = ((Finset.range n).filter fun i => (s.ports i).cache = []).card) := by
  constructor
  · intro run
    have h := sound_of_run run
    refine ⟨h.ended, fun i => ?_, fun answers puts => ⟨fun hhandler hpending => ?_, ?_⟩⟩
    · rw [h.outstanding_eq]
      exact Bool.toNat_le _
    · exact h.advance_isSome hhandler hpending answers puts
    · intro t ht
      exact (h.advance ht).2
  · intro run hpending
    rw [(counted_of_run hn run).count_eq, card_filter]
    apply sum_congr rfl
    intro i hi
    rw [Port.weight, hpending i (mem_range.mp hi)]

/-- Both ports have an input. The one of the first port has no item for the first attempt, and
has one for the second when it is back. -/
def failsThenDelivers : List (Event Nat Nat Nat) :=
  [.regSucc 3 false, .regPred 0 7, .settle 0, .regPred 1 8, .settle 1, .begin .forward,
    .advance [] [], .advance [] [], .advance [some 5] [], .advance [none] [], .settle 0,
    .advance [] [], .advance [] [], .advance [] [], .regPred 0 7, .settle 0, .begin .forward,
    .advance [] [], .advance [] [], .advance [some 5] [], .advance [some 6] [], .advance [] [],
    .advance [] [.accepts], .advance [] [], .advance [] [], .advance [] []]

/-- The reservation of the second port is released, and later a tuple of two items is delivered.
A port is counted no more when it has an input. -/
theorem reservingJoin_all_or_nothing_two :
    (∃ s, failsThenDelivers.foldlM (State.step 64 2) (State.initial 2) = some s ∧
      s.attempts.map (·.delivered) = [none, some [6, 5]] ∧ ∀ a ∈ s.attempts, Ended 2 a) ∧
    ∃ s : State Nat Nat Nat, ReflTransGen (CarefulStep 64 2) (State.initial 2) s ∧
      s.portsWithNoInputs = ((Finset.range 2).filter fun i => (s.ports i).cache = []).card := by
  constructor
  · have hrun : (failsThenDelivers.foldlM (State.step 64 2) (State.initial 2)).map
        (fun s => s.attempts.map (·.delivered)) = some [none, some [6, 5]] := by
      decide +kernel
    obtain ⟨s, hs, hdelivered⟩ := map_eq_some_iff.mp hrun
    refine ⟨s, hs, hdelivered, ?_⟩
    exact ((reservingJoin_all_or_nothing (by decide) s).1 (Transition.run_of_foldlM hs)).1
  · have hregistered : CarefulStep 64 2 (State.initial 2 : State Nat Nat Nat) _ :=
      ⟨.regPred 0 7, trivial, rfl⟩
    have hsettled := (ReflTransGen.single hregistered).tail ⟨.settle 0, trivial, rfl⟩
    refine ⟨_, hsettled, (reservingJoin_all_or_nothing (by decide) _).2 hsettled ?_⟩
    intro i hi
    match i, hi with
    | 0, _ | 1, _ => rfl

/-- The only input is removed after the attempt has tested the count and before it reserves the
port, which is counted twice. When the port has an input again, the count is still one, and no
tuple is built any more. -/
theorem reservingJoin_counts_twice :
    ([.regPred 0 7, .settle 0, .begin .forward, .advance [] [], .advance [] [], .remPred 0 7,
      .settle 0, .advance [] [], .settle 0, .advance [] [], .advance [] [], .regPred 0 7,
      .settle 0].foldlM (State.step 64 1) (State.initial 1 : State Nat Nat Nat)).map (fun s =>
        (s.handler, (s.ports 0).pending, (s.ports 0).cache, s.portsWithNoInputs)) =
      some (.idle, .none, [7], 1) := by
  decide +kernel

end Runs

end OneTbb.FlowGraph.ReservingJoin
