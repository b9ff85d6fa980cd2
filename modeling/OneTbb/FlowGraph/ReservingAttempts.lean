import OneTbb.FlowGraph.ReservingJoin

/-!
# The attempts of a reserving `join_node`

Whatever the ports do meanwhile, the reservations of an attempt are those of the ports the
handler has gone through. So an attempt ends with all of them consumed and the tuple
delivered, or with all of them released.
-/

namespace OneTbb.FlowGraph.ReservingJoin

open List Function State Option Handler

variable {ι α σ : Type*} {n : Nat} {s t : State ι α σ}

/-- The ports from `hi - 1` down to `lo`. -/
def portsDown (lo hi : Nat) : List Nat := (List.range' lo (hi - lo)).reverse

theorem portsDown_self (k : Nat) : portsDown k k = [] := by simp [portsDown]

theorem mem_portsDown {lo hi i : Nat} : i ∈ portsDown lo hi ↔ lo ≤ i ∧ i < hi := by
  rw [portsDown, mem_reverse, mem_range'_1]
  omega

theorem portsDown_low {lo hi : Nat} (h : lo < hi) :
    portsDown lo hi = portsDown (lo + 1) hi ++ [lo] := by
  rw [portsDown, show hi - lo = hi - (lo + 1) + 1 by omega, List.range'_succ, reverse_cons]
  rfl

theorem portsDown_high (k : Nat) : portsDown 0 (k + 1) = k :: portsDown 0 k := by
  simp [portsDown, List.range'_1_concat]

/-- An attempt that delivered its tuple and consumed all reservations, one of every port, or
released all reservations it made. -/
def Ended (n : Nat) (a : Attempt ι α) : Prop :=
  (a.delivered = some (a.made.map fun r => r.2.2).reverse ∧ a.made.map Prod.fst = portsDown 0 n ∧
    a.consumed = a.made ∧ a.released = []) ∨
  (a.delivered = none ∧ a.consumed = [] ∧ a.released = a.made.reverse)

/-- The reservations are those of the ports from `lo` up to `hi`. -/
structure Held (s : State ι α σ) (lo hi : Nat) (held : List (Reservation ι α)) : Prop where
  ports_eq : held.map Prod.fst = portsDown lo hi
  src_eq : ∀ r ∈ held, (s.ports r.1).reservedSrc = some r.2
  free : ∀ i, ¬ (lo ≤ i ∧ i < hi) → (s.ports i).reservedSrc = none

variable {rest held : List (Reservation ι α)} {k : Nat}

theorem Held.congr {lo hi : Nat} {held : List (Reservation ι α)} (h : Held s lo hi held)
    (hsrc : ∀ i, (t.ports i).reservedSrc = (s.ports i).reservedSrc) : Held t lo hi held where
  ports_eq := h.ports_eq
  src_eq r hr := (hsrc r.1).trans (h.src_eq r hr)
  free i hi := (hsrc i).trans (h.free i hi)

/-- While a tuple is built, the ports from `lo` on have been reserved. -/
structure Building (n : Nat) (s : State ι α σ) (lo : Nat) : Prop where
  le : lo ≤ n
  held : Held s lo n s.made
  consumed_eq : s.consumed = []
  released_eq : s.released = []
  out_eq : s.out = (s.made.map fun r => r.2.2).reverse
  delivered_eq : s.delivered = false

/-- While a tuple is given up, the ports from `lo` on are still reserved. -/
structure Releasing (n : Nat) (s : State ι α σ) (lo : Nat) (rest : List (Reservation ι α)) :
    Prop where
  le : lo ≤ n
  held : Held s lo n rest
  made_eq : s.made = rest ++ s.released.reverse
  consumed_eq : s.consumed = []
  delivered_eq : s.delivered = false

/-- While a delivered tuple is consumed, the ports below `hi` are still reserved. -/
structure Consuming (n : Nat) (s : State ι α σ) (hi : Nat) (rest : List (Reservation ι α)) :
    Prop where
  held : Held s 0 hi rest
  made_eq : s.made = s.consumed ++ rest
  ports_eq : s.made.map Prod.fst = portsDown 0 n
  released_eq : s.released = []
  out_eq : s.out = (s.made.map fun r => r.2.2).reverse
  delivered_eq : s.delivered = true

/-- How far the attempt under way has come. -/
def Progress (n : Nat) (s : State ι α σ) : Prop :=
  match s.handler with
  | .idle | .mayBuild _ | .makeTuple _ => Building n s n
  | .reserving _ k => Building n s k
  | .failed _ k => Building n s (k + 1)
  | .offering => Building n s 0
  | .releasing _ k => ∃ rest, Releasing n s k rest
  | .consuming _ k => ∃ rest, Consuming n s k rest

/-- What every event keeps, whatever the order of the events. -/
structure Sound (n : Nat) (s : State ι α σ) : Prop where
  reserved_eq : ∀ i, (s.ports i).reserved = (s.ports i).reservedSrc.isSome
  outstanding_eq : ∀ i, s.outstanding i = (s.ports i).reservedSrc.isSome.toNat
  ended : ∀ a ∈ s.attempts, Ended n a
  progress : Progress n s

/-- A port that is reserved joins those above it. -/
theorem Held.reserve {hi k : Nat} {r : ι × α}
    (h : Held s (k + 1) hi held) (hk : k < hi) (hnew : (t.ports k).reservedSrc = some r)
    (hother : ∀ i, i ≠ k → (t.ports i).reservedSrc = (s.ports i).reservedSrc) :
    Held t k hi (held ++ [(k, r)]) := by
  have hmem : ∀ i, i ∈ held.map Prod.fst → i ≠ k := by
    rw [h.ports_eq]
    intro i hi
    have := mem_portsDown.mp hi
    omega
  constructor
  case ports_eq => rw [map_append, h.ports_eq, portsDown_low hk]; rfl
  case src_eq =>
    intro r' hr'
    rcases mem_append.mp hr' with hold | hlast
    · rw [hother _ (hmem _ (mem_map_of_mem hold))]
      exact h.src_eq r' hold
    · rw [mem_singleton.mp hlast]
      exact hnew
  case free =>
    intro i hout
    rw [hother i (by omega)]
    exact h.free i (by omega)

/-- The lowest port is the last one that was reserved. -/
theorem Held.release {hi k : Nat} (h : Held s k hi held)
    (hk : k < hi) (hnew : (t.ports k).reservedSrc = none)
    (hother : ∀ i, i ≠ k → (t.ports i).reservedSrc = (s.ports i).reservedSrc) :
    ∃ rest r, held = rest ++ [(k, r)] ∧ (s.ports k).reservedSrc = some r ∧
      Held t (k + 1) hi rest := by
  have hports := h.ports_eq
  rw [portsDown_low hk] at hports
  obtain ⟨rest, last, rfl, hrest, hlast⟩ := map_eq_append_iff.mp hports
  obtain ⟨⟨k', r⟩, rfl, rfl⟩ := map_eq_singleton_iff.mp hlast
  refine ⟨rest, r, rfl, h.src_eq _ (by simp), hrest, fun r' hr' => ?_, fun i hout => ?_⟩
  · have hne : r'.1 ≠ k' := by
      have hmem := mem_map_of_mem (f := Prod.fst) hr'
      rw [hrest] at hmem
      have := mem_portsDown.mp hmem
      omega
    rw [hother _ hne]
    exact h.src_eq r' (mem_append_left _ hr')
  · by_cases hi : i = k'
    · rw [hi]
      exact hnew
    · rw [hother i hi]
      exact h.free i (by omega)

/-- The highest port is the first one that was reserved. -/
theorem Held.consume (h : Held s 0 (k + 1) held) (hnew : (t.ports k).reservedSrc = none)
    (hother : ∀ i, i ≠ k → (t.ports i).reservedSrc = (s.ports i).reservedSrc) :
    ∃ rest r, held = (k, r) :: rest ∧ (s.ports k).reservedSrc = some r ∧ Held t 0 k rest := by
  have hports := h.ports_eq
  rw [portsDown_high] at hports
  obtain ⟨⟨k', r⟩, rest, rfl, rfl, hrest⟩ := map_eq_cons_iff.mp hports
  refine ⟨rest, r, rfl, h.src_eq _ (by simp), hrest, fun r' hr' => ?_, fun i hout => ?_⟩
  · have hne : r'.1 ≠ k' := by
      have hmem := mem_map_of_mem (f := Prod.fst) hr'
      rw [hrest] at hmem
      have := mem_portsDown.mp hmem
      omega
    rw [hother _ hne]
    exact h.src_eq r' (mem_cons_of_mem _ hr')
  · by_cases hi : i = k'
    · rw [hi]
      exact hnew
    · rw [hother i hi]
      exact h.free i (by omega)

theorem Building.initial (n : Nat) : Building n (State.initial n : State ι α σ) n where
  le := le_rfl
  held := ⟨(portsDown_self n).symm, fun _ hr => absurd hr not_mem_nil, fun _ _ => rfl⟩
  consumed_eq := rfl
  released_eq := rfl
  out_eq := rfl
  delivered_eq := rfl

theorem Sound.initial (n : Nat) : Sound n (State.initial n : State ι α σ) where
  reserved_eq _ := rfl
  outstanding_eq _ := rfl
  ended _ ha := absurd ha not_mem_nil
  progress := Building.initial n

theorem Building.congr {lo : Nat} (h : Building n s lo)
    (hsrc : ∀ i, (t.ports i).reservedSrc = (s.ports i).reservedSrc) (hmade : t.made = s.made)
    (hconsumed : t.consumed = s.consumed) (hreleased : t.released = s.released)
    (hout : t.out = s.out) (hdelivered : t.delivered = s.delivered) : Building n t lo := by
  refine ⟨h.le, ?_, hconsumed.trans h.consumed_eq, hreleased.trans h.released_eq, ?_,
    hdelivered.trans h.delivered_eq⟩
  · rw [hmade]
    exact h.held.congr hsrc
  · rw [hout, hmade]
    exact h.out_eq

/-- The events of the ports and of the successors leave the reservations as they are. -/
theorem Sound.congr (h : Sound n s)
    (hsrc : ∀ i, (t.ports i).reservedSrc = (s.ports i).reservedSrc)
    (hreserved : ∀ i, (t.ports i).reserved = (s.ports i).reserved)
    (houtstanding : t.outstanding = s.outstanding) (hattempts : t.attempts = s.attempts)
    (hhandler : t.handler = s.handler) (hmade : t.made = s.made)
    (hconsumed : t.consumed = s.consumed) (hreleased : t.released = s.released)
    (hout : t.out = s.out) (hdelivered : t.delivered = s.delivered) : Sound n t := by
  constructor
  case reserved_eq =>
    intro i
    rw [hreserved, hsrc]
    exact h.reserved_eq i
  case outstanding_eq =>
    intro i
    rw [houtstanding, hsrc]
    exact h.outstanding_eq i
  case ended =>
    rw [hattempts]
    exact h.ended
  case progress =>
    have hprogress := h.progress
    unfold Progress at hprogress ⊢
    rw [hhandler]
    split at hprogress
    case h_1 | h_2 | h_3 | h_4 | h_5 | h_6 =>
      exact hprogress.congr hsrc hmade hconsumed hreleased hout hdelivered
    case h_7 =>
      obtain ⟨rest, hr⟩ := hprogress
      refine ⟨rest, hr.le, hr.held.congr hsrc, ?_, hconsumed.trans hr.consumed_eq,
        hdelivered.trans hr.delivered_eq⟩
      rw [hmade, hreleased]
      exact hr.made_eq
    case h_8 =>
      obtain ⟨rest, hc⟩ := hprogress
      refine ⟨rest, hc.held.congr hsrc, ?_, ?_, hreleased.trans hc.released_eq, ?_,
        hdelivered.trans hc.delivered_eq⟩
      · rw [hmade, hconsumed]
        exact hc.made_eq
      · rw [hmade]
        exact hc.ports_eq
      · rw [hout, hmade]
        exact hc.out_eq

theorem Sound.setPort (h : Sound n s) {i : Nat} {p : Port ι α}
    (hsrc : p.reservedSrc = (s.ports i).reservedSrc)
    (hreserved : p.reserved = (s.ports i).reserved) :
    Sound n (s.setPort i p) := by
  refine h.congr (fun j => ?_) (fun j => ?_) rfl rfl rfl rfl rfl rfl rfl rfl
  · by_cases hj : j = i
    · rw [hj, setPort_ports_self, hsrc]
    · rw [setPort_ports_of_ne _ hj]
  · by_cases hj : j = i
    · rw [hj, setPort_ports_self, hreserved]
    · rw [setPort_ports_of_ne _ hj]

/-! ## The steps of the handler -/

theorem Sound.moved (h : Sound n s) {handler : Handler}
    (hprogress : Progress n { s with handler := handler }) :
    Sound n { s with handler := handler } :=
  ⟨h.reserved_eq, h.outstanding_eq, h.ended, hprogress⟩

theorem Sound.finish (h : Sound n s) (hbuilding : Building n s n) (call : Call) :
    Sound n (s.finish call) := by
  cases call with
  | forward | get =>
    exact ⟨h.reserved_eq, h.outstanding_eq, h.ended,
      hbuilding.congr (fun _ => rfl) rfl rfl rfl rfl rfl⟩

theorem flags_setPort {i m : Nat} {p : Port ι α} (h : Sound n s)
    (hreserved : p.reserved = p.reservedSrc.isSome) (hm : m = p.reservedSrc.isSome.toNat) :
    (∀ j, (update s.ports i p j).reserved =
      (update s.ports i p j).reservedSrc.isSome) ∧
    ∀ j, update s.outstanding i m j =
      (update s.ports i p j).reservedSrc.isSome.toNat := by
  constructor
  · intro j
    by_cases hj : j = i
    · rw [hj, update_self]
      exact hreserved
    · rw [update_of_ne hj]
      exact h.reserved_eq j
  · intro j
    by_cases hj : j = i
    · rw [hj, update_self, update_self]
      exact hm
    · rw [update_of_ne hj, update_of_ne hj]
      exact h.outstanding_eq j

theorem Sound.resItem (h : Sound n s) (hbuilding : Building n s (k + 1)) (call : Call)
    (answers : List (Option α)) : Sound n (s.resItem call k answers) := by
  have hfree : (s.ports k).reservedSrc = none := hbuilding.held.free k (by omega)
  have hflag : (s.ports k).reserved = false := by
    rw [h.reserved_eq, hfree]
    rfl
  have hzero : s.outstanding k = 0 := by
    rw [h.outstanding_eq, hfree]
    rfl
  have hasked : ¬ (s.ports k).reservedSrc.isSome = true := by simp [hfree]
  unfold State.resItem
  rw [if_neg (by simp [hflag]), if_neg hasked]
  dsimp only
  split
  case h_1 r src x hr =>
    obtain ⟨hflags, hcounts⟩ := flags_setPort (i := k) (m := s.outstanding k + 1)
      (p := { s.ports k with
        cache := (NodeCache.tryReserve (s.ports k).cache answers).2, reserved := true,
        reservedSrc := some (src, x) }) h rfl (by rw [hzero]; rfl)
    refine ⟨hflags, hcounts, h.ended, ?_⟩
    refine ⟨by have := hbuilding.le; omega, ?_, hbuilding.consumed_eq, hbuilding.released_eq, ?_,
      hbuilding.delivered_eq⟩
    · apply hbuilding.held.reserve hbuilding.le
      · simp [State.setPort]
      · intro i hi
        simp [State.setPort, update_of_ne hi]
    · simp [hbuilding.out_eq]
  case h_2 =>
    have hset := h.setPort (i := k) (p := { s.ports k with
      cache := (NodeCache.tryReserve (s.ports k).cache answers).2
      pending := if (NodeCache.tryReserve (s.ports k).cache answers).2 = [] then .increment
        else .none }) rfl rfl
    apply hset.moved
    change Building n _ (k + 1)
    refine hbuilding.congr (fun j => ?_) rfl rfl rfl rfl rfl
    by_cases hj : j = k
    · rw [hj, setPort_ports_self, hfree]
    · rw [setPort_ports_of_ne _ hj]

theorem Building.toReleasing {lo : Nat} (h : Building n s lo) : Releasing n s lo s.made where
  le := h.le
  held := h.held
  made_eq := by rw [h.released_eq, reverse_nil, append_nil]
  consumed_eq := h.consumed_eq
  delivered_eq := h.delivered_eq

/-- The tuple is delivered when all ports are reserved. -/
theorem Building.deliver (h : Building n s 0) (hsrc : t.ports = s.ports) (hmade : t.made = s.made)
    (hconsumed : t.consumed = s.consumed) (hreleased : t.released = s.released)
    (hout : t.out = s.out) (hdelivered : t.delivered = true) : Consuming n t n t.made where
  held := by
    rw [hmade]
    exact h.held.congr fun i => by rw [hsrc]
  made_eq := by rw [hconsumed, h.consumed_eq, nil_append]
  ports_eq := by rw [hmade, h.held.ports_eq]
  released_eq := hreleased.trans h.released_eq
  out_eq := by rw [hout, hmade, h.out_eq]
  delivered_eq := hdelivered

/-- A port that gives up its reservation, by a release or a consumption. -/
theorem Sound.clearPort (h : Sound n s) (i : Nat) :
    (∀ j, (update s.ports i { s.ports i with
        reserved := false, reservedSrc := none } j).reserved =
      (update s.ports i { s.ports i with
        reserved := false, reservedSrc := none } j).reservedSrc.isSome) ∧
    ∀ j, update s.outstanding i (s.outstanding i - 1) j =
      (update s.ports i { s.ports i with
        reserved := false, reservedSrc := none } j).reservedSrc.isSome.toNat := by
  apply flags_setPort h rfl
  rw [h.outstanding_eq]
  cases (s.ports i).reservedSrc <;> rfl

theorem Sound.releasePort (h : Sound n s)
    (hreleasing : Releasing n s k rest) (hk : k < n) (call : Call) :
    ∃ t, s.relRes k = some t ∧ Sound n { t with handler := .releasing call (k + 1) } := by
  obtain ⟨rest', r, rfl, hsrc, hheld⟩ := hreleasing.held.release
    (t := s.setPort k { s.ports k with reserved := false, reservedSrc := none }) hk
    (by rw [setPort_ports_self])
    (fun i hi => by rw [setPort_ports_of_ne _ hi])
  obtain ⟨hflags, hcounts⟩ := h.clearPort k
  rw [State.relRes, hsrc, map_some]
  refine ⟨_, rfl, hflags, hcounts, h.ended, rest', hk, hheld.congr fun _ => rfl, ?_,
    hreleasing.consumed_eq, hreleasing.delivered_eq⟩
  change s.made = rest' ++ (s.released ++ [(k, r)]).reverse
  rw [hreleasing.made_eq, reverse_append, append_assoc]
  rfl

theorem Sound.consumePort (h : Sound n s) (hconsuming : Consuming n s (k + 1) rest) (call : Call) :
    ∃ t, s.conRes k = some t ∧ Sound n { t with handler := .consuming call k } := by
  obtain ⟨rest', r, rfl, hsrc, hheld⟩ := hconsuming.held.consume
    (t := s.setPort k { s.ports k with reserved := false, reservedSrc := none })
    (by rw [setPort_ports_self])
    (fun i hi => by rw [setPort_ports_of_ne _ hi])
  obtain ⟨hflags, hcounts⟩ := h.clearPort k
  rw [State.conRes, hsrc, map_some]
  refine ⟨_, rfl, hflags, hcounts, h.ended, rest', hheld.congr fun _ => rfl, ?_,
    hconsuming.ports_eq, hconsuming.released_eq, hconsuming.out_eq, hconsuming.delivered_eq⟩
  change s.made = s.consumed ++ [(k, r)] ++ rest'
  rw [hconsuming.made_eq, append_assoc]
  rfl

/-- When no port is reserved any more, the attempt has ended as it should. -/
theorem Sound.endAttempt (h : Sound n s)
    (hfree : ∀ i, (s.ports i).reservedSrc = none)
    (hended : Ended n ⟨s.made, s.consumed, s.released,
      if s.delivered then some s.out else none⟩) :
    ∀ handler, (handler = .idle ∨ ∃ call, handler = .makeTuple call) →
      Sound n { s.endAttempt with handler := handler } := by
  have hbuilding : ∀ handler, Building n { s.endAttempt with handler := handler } n := by
    intro handler
    exact ⟨le_rfl, ⟨(portsDown_self n).symm, fun _ hr => absurd hr not_mem_nil,
      fun i _ => hfree i⟩, rfl, rfl, rfl, rfl⟩
  intro handler hhandler
  refine ⟨h.reserved_eq, h.outstanding_eq, fun a ha => ?_, ?_⟩
  · rcases mem_append.mp ha with hold | hlast
    · exact h.ended a hold
    · rw [mem_singleton.mp hlast]
      exact hended
  · rcases hhandler with rfl | ⟨call, rfl⟩
    · exact hbuilding _
    · exact hbuilding _

theorem Held.all_free (h : Held s k k held) :
    held = [] ∧ ∀ i, (s.ports i).reservedSrc = none := by
  refine ⟨?_, fun i => h.free i (by omega)⟩
  have hports := h.ports_eq
  rw [portsDown_self] at hports
  exact map_eq_nil_iff.mp hports

theorem Releasing.ended (h : Releasing n s n rest) :
    Ended n ⟨s.made, s.consumed, s.released, if s.delivered then some s.out else none⟩ := by
  right
  obtain ⟨rfl, -⟩ := h.held.all_free
  refine ⟨by rw [h.delivered_eq]; rfl, h.consumed_eq, ?_⟩
  rw [h.made_eq, nil_append, reverse_reverse]

theorem Consuming.le (h : Consuming n s (k + 1) rest) :
    k < n := by
  have hmem : k ∈ rest.map Prod.fst := by
    rw [h.held.ports_eq]
    exact mem_portsDown.mpr ⟨Nat.zero_le _, Nat.lt_succ_self _⟩
  have hmade : k ∈ s.made.map Prod.fst := by
    rw [h.made_eq, map_append]
    exact mem_append_right _ hmem
  rw [h.ports_eq] at hmade
  exact (mem_portsDown.mp hmade).2

theorem Consuming.ended (h : Consuming n s 0 rest) :
    Ended n ⟨s.made, s.consumed, s.released, if s.delivered then some s.out else none⟩ := by
  left
  obtain ⟨rfl, -⟩ := h.held.all_free
  refine ⟨by rw [h.delivered_eq, if_pos rfl, h.out_eq], h.ports_eq, ?_, h.released_eq⟩
  rw [h.made_eq, append_nil]

/-- The number of steps an attempt may still need. -/
def Handler.work (n : Nat) : Handler → Nat
  | .reserving _ k => k + n + 3
  | .failed _ k => n - k + 2
  | .offering => n + 2
  | .releasing _ k => n - k + 1
  | .consuming _ k => k + 1
  | _ => 0

/-- An attempt is under way. -/
def Handler.Attempting : Handler → Prop
  | .idle | .mayBuild _ | .makeTuple _ => False
  | _ => True

/-- The attempt has ended, or is nearer to its end. -/
def Nearer (n : Nat) (s t : State ι α σ) : Prop :=
  t.attempts.length = s.attempts.length + 1 ∨ t.handler.work n < s.handler.work n

theorem Sound.resItem_nearer {call : Call} {answers : List (Option α)}
    (hs : s.handler = .reserving call (k + 1)) : Nearer n s (s.resItem call k answers) := by
  right
  rw [hs]
  unfold State.resItem
  split
  case isTrue => simp only [work]; omega
  case isFalse =>
    dsimp only
    split
    case h_1 => simp only [work]; omega
    case h_2 => simp only [work]; omega

/-- A step of the handler keeps the reservations right, and brings an attempt nearer to its
end. -/
theorem Sound.advance (h : Sound n s) {answers : List (Option α)} {puts : List NodeCache.Answer}
    (ht : s.advance n answers puts = some t) :
    Sound n t ∧ (s.handler.Attempting → Nearer n s t) := by
  have hprogress := h.progress
  unfold Progress at hprogress
  unfold State.advance at ht
  split at ht <;> rename_i hs <;> rw [hs] at hprogress
  case h_1 => cases ht
  case h_2 call | h_3 call =>
    rw [hs]
    cases ht
    refine ⟨?_, fun hattempt => hattempt.elim⟩
    split
    case isTrue => exact h.moved (hprogress.congr (fun _ => rfl) rfl rfl rfl rfl rfl)
    case isFalse => exact h.finish hprogress call
  case h_4 =>
    cases ht
    refine ⟨h.moved (hprogress.congr (fun _ => rfl) rfl rfl rfl rfl rfl), fun _ => .inr ?_⟩
    rw [hs]
    simp only [work]
    omega
  case h_5 =>
    cases ht
    refine ⟨⟨h.reserved_eq, h.outstanding_eq, h.ended, s.made,
      hprogress.deliver rfl rfl rfl rfl rfl rfl⟩, fun _ => .inr ?_⟩
    rw [hs]
    simp only [work]
    omega
  case h_6 call k =>
    split at ht
    case isTrue =>
      cases ht
      exact ⟨h.resItem hprogress call answers, fun _ => Sound.resItem_nearer hs⟩
    case isFalse => cases ht
  case h_7 call k =>
    split at ht
    case isTrue =>
      cases ht
      have hreleasing := hprogress.toReleasing
      refine ⟨h.moved ⟨s.made, hreleasing.le, hreleasing.held.congr fun _ => rfl,
        hreleasing.made_eq, hreleasing.consumed_eq, hreleasing.delivered_eq⟩, fun _ => .inr ?_⟩
      rw [hs]
      simp only [work]
      omega
    case isFalse => cases ht
  case h_8 call k =>
    obtain ⟨rest, hreleasing⟩ := hprogress
    split at ht
    case isTrue hk =>
      split at ht
      case isTrue =>
        obtain ⟨u, hu, hsound⟩ := h.releasePort hreleasing hk call
        rw [hu] at ht
        cases ht
        refine ⟨hsound, fun _ => .inr ?_⟩
        rw [hs]
        simp only [work]
        omega
      case isFalse => cases ht
    case isFalse hk =>
      obtain rfl : k = n := le_antisymm hreleasing.le (Nat.le_of_not_lt hk)
      cases ht
      have hsound := h.endAttempt hreleasing.held.all_free.2 hreleasing.ended
      refine ⟨?_, fun _ => .inl ?_⟩
      · cases call with
        | forward =>
          have hidle := hsound .idle (.inl rfl)
          exact hidle.congr (fun _ => rfl) (fun _ => rfl) rfl rfl rfl rfl rfl rfl rfl rfl
        | get => exact hsound .idle (.inl rfl)
      · cases call <;> simp [State.finish, State.endAttempt]
  case h_9 =>
    cases ht
    have hreleasing := hprogress.toReleasing
    cases hput : (NodeCache.tryPutTask s.successors puts).1 with
    | true =>
      refine ⟨⟨h.reserved_eq, h.outstanding_eq, h.ended, s.made, ?_⟩, fun _ => .inr ?_⟩
      · exact hprogress.deliver rfl rfl rfl rfl rfl rfl
      · rw [hs]
        simp only [work, if_true]
        omega
    | false =>
      refine ⟨⟨h.reserved_eq, h.outstanding_eq, h.ended, s.made, ?_⟩, fun _ => .inr ?_⟩
      · exact ⟨hreleasing.le, hreleasing.held.congr fun _ => rfl, hreleasing.made_eq,
          hreleasing.consumed_eq, rfl⟩
      · rw [hs]
        simp only [work, Bool.false_eq_true, if_false]
        omega
  case h_10 =>
    obtain ⟨rest, hconsuming⟩ := hprogress
    cases ht
    have hsound := h.endAttempt hconsuming.held.all_free.2 hconsuming.ended
    exact ⟨hsound _ (.inr ⟨_, rfl⟩), fun _ => .inl (by simp [State.endAttempt])⟩
  case h_11 =>
    obtain ⟨rest, hconsuming⟩ := hprogress
    cases ht
    have hsound := h.endAttempt hconsuming.held.all_free.2 hconsuming.ended
    exact ⟨hsound _ (.inl rfl), fun _ => .inl (by simp [State.finish, State.endAttempt])⟩
  case h_12 call k =>
    obtain ⟨rest, hconsuming⟩ := hprogress
    split at ht
    case isTrue =>
      obtain ⟨u, hu, hsound⟩ := h.consumePort hconsuming call
      rw [hu] at ht
      cases ht
      refine ⟨hsound, fun _ => .inr ?_⟩
      rw [hs]
      simp only [work]
      omega
    case isFalse => cases ht

/-- The handler calls only predecessors that keep a reservation for it, so it goes on unless an
operation of a port has not returned. -/
theorem Sound.advance_isSome (h : Sound n s) (hhandler : s.handler ≠ .idle)
    (hpending : ∀ i, i < n → (s.ports i).pending = .none) (answers : List (Option α))
    (puts : List NodeCache.Answer) : (s.advance n answers puts).isSome := by
  have hprogress := h.progress
  unfold Progress at hprogress
  unfold State.advance
  split
  case h_1 hs => exact absurd hs hhandler
  case h_2 | h_3 | h_4 | h_5 | h_9 | h_10 | h_11 => rfl
  case h_6 call k hs =>
    rw [hs] at hprogress
    rw [if_pos (hpending k hprogress.le)]
    rfl
  case h_7 call k hs =>
    rw [hs] at hprogress
    rw [if_pos (hpending k hprogress.le)]
    rfl
  case h_8 call k hs =>
    rw [hs] at hprogress
    obtain ⟨rest, hreleasing⟩ := hprogress
    split
    case isTrue hk =>
      obtain ⟨u, hu, -⟩ := h.releasePort hreleasing hk call
      rw [if_pos (hpending k hk), hu]
      rfl
    case isFalse => rfl
  case h_12 call k hs =>
    rw [hs] at hprogress
    obtain ⟨rest, hconsuming⟩ := hprogress
    obtain ⟨u, hu, -⟩ := h.consumePort hconsuming call
    rw [if_pos (hpending k hconsuming.le), hu]
    rfl

theorem Sound.step [DecidableEq ι] [DecidableEq σ] {bits : Nat} (h : Sound n s)
    {event : Event ι α σ} (ht : s.step bits n event = some t) : Sound n t := by
  cases event with
  | regPred i src =>
    obtain ⟨-, ht⟩ := ite_none_right_eq_some.mp ht
    cases ht
    exact h.setPort rfl rfl
  | remPred i src =>
    obtain ⟨-, ht⟩ := ite_none_right_eq_some.mp ht
    cases ht
    unfold State.remPred
    split
    case isTrue => exact h
    case isFalse => exact h.setPort rfl rfl
  | settle i =>
    obtain ⟨-, ht⟩ := ite_none_right_eq_some.mp ht
    have hset := h.setPort (i := i) (p := { s.ports i with pending := .none }) rfl rfl
    unfold State.settle at ht
    dsimp only at ht
    split at ht
    case h_1 => cases ht
    case h_2 | h_3 =>
      cases ht
      exact hset.congr (fun _ => rfl) (fun _ => rfl) rfl rfl rfl rfl rfl rfl rfl rfl
  | regSucc r priority =>
    obtain ⟨-, ht⟩ := ite_none_right_eq_some.mp ht
    cases ht
    unfold State.regSucc
    dsimp only
    split
    case isTrue =>
      exact h.congr (fun _ => rfl) (fun _ => rfl) rfl rfl rfl rfl rfl rfl rfl rfl
    case isFalse =>
      exact h.congr (fun _ => rfl) (fun _ => rfl) rfl rfl rfl rfl rfl rfl rfl rfl
  | remSucc r =>
    obtain ⟨-, ht⟩ := ite_none_right_eq_some.mp ht
    cases ht
    exact h.congr (fun _ => rfl) (fun _ => rfl) rfl rfl rfl rfl rfl rfl rfl rfl
  | begin call =>
    obtain ⟨⟨hidle, -⟩, ht⟩ := ite_none_right_eq_some.mp ht
    cases ht
    have hprogress := h.progress
    unfold Progress at hprogress
    rw [hidle] at hprogress
    exact h.moved (hprogress.congr (fun _ => rfl) rfl rfl rfl rfl rfl)
  | advance answers puts => exact (h.advance ht).1

end OneTbb.FlowGraph.ReservingJoin
