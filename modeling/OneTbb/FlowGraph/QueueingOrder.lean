import OneTbb.FlowGraph.QueueingJoin
import OneTbb.Library.Positions
import Mathlib.Algebra.BigOperators.Group.Finset.Piecewise

/-!
# The tuples of a queueing `join_node`

From the test of the count to the reset of a port, the front of the port stays. So the tuple
that is removed is the one that was delivered.
-/

namespace OneTbb.FlowGraph.QueueingJoin

open Function List Option Relation Handler

open ReservingJoin (Call)

variable {α σ : Type*} {W : SizeType} {n : Nat} {s t : State α σ} {q : Nat → List α} {i : Nat}

/-- The tuple was delivered, and the port has not been reset. -/
def Handler.unpopped (i : Nat) : Handler α → Bool
  | .resetCount _ => true
  | .resetPort _ k => k ≤ i
  | .resetWait _ k => k < i
  | _ => false

/-- The port is counted because the count was reset, and has not been reset. -/
def Handler.recounted (i : Nat) : Handler α → Bool
  | .resetPort _ k => k ≤ i
  | .resetWait _ k => k < i
  | _ => false

/-- The front of the port must stay. -/
def Handler.keeps (i : Nat) : Handler α → Bool
  | .getting _ _ _ _ => true
  | .offering _ => true
  | h => h.unpopped i

/-- A forwarding task runs. -/
def Handler.forwarding : Handler α → Bool
  | .mayBuild .forward | .makeTuple .forward | .getting .forward _ _ _ | .offering _
  | .resetCount .forward | .resetPort .forward _ | .resetWait .forward _ => true
  | _ => false

/-- What the count has of a port with a queue. -/
def weight (s : State α σ) (q : Nat → List α) (i : Nat) : Nat :=
  if s.handler.recounted i ∨ s.pending i ∨ q i = [] then 1 else 0

/-- The tuple under construction has the fronts of the ports from `k` on. -/
def Fronts (n : Nat) (q : Nat → List α) (k : Nat) (out : List α) : Prop :=
  out.length + k = n ∧ ∀ i, k ≤ i → i < n → out[i - k]? = (q i).head?

/-- How far the tuple under construction has come. -/
def Built (n : Nat) (q : Nat → List α) : Handler α → Prop
  | .getting _ k ok out => ok = true ∧ Fronts n q k out
  | .offering out => Fronts n q 0 out
  | _ => True

/-- What a port keeps, with its queue. -/
structure PortInv (W : SizeType) (s : State α σ) (q : Nat → List α) (i : Nat) : Prop where
  contains : (s.bufs i).Contains W (q i)
  tail_eq : (s.bufs i).tail = (s.accepted i).length
  accepted_eq : s.accepted i = s.taken i ++ q i
  delivered_eq : s.delivered.map (·[i]?) =
    (s.taken i ++ if s.handler.unpopped i then (q i).take 1 else []).map some
  pending_of : s.pending i = true → q i ≠ []
  kept : s.handler.keeps i = true → q i ≠ [] ∧ s.pending i = false

/-- What the node keeps, with the queues of the ports. -/
structure Inv (W : SizeType) (n : Nat) (s : State α σ) (q : Nat → List α) : Prop where
  ports : ∀ i, i < n → PortInv W s q i
  length_eq : ∀ out ∈ s.delivered, out.length = n
  count_eq : s.portsWithNoItems = ∑ i ∈ Finset.range n, weight s q i
  built : Built n q s.handler
  busy : s.forwarderBusy = true → 0 < s.forwarders ∨ s.handler.forwarding = true
  forwarded : s.portsWithNoItems = 0 →
    0 < s.forwarders ∨ s.handler.forwarding = true ∨ s.successors ⊆ s.declined

theorem weight_le (s : State α σ) (q : Nat → List α) (i : Nat) : weight s q i ≤ 1 := by
  unfold weight
  split <;> omega

variable {call : Call} {handler : Handler α}

theorem Handler.keeps_of_unpopped {handler : Handler α} (h : handler.unpopped i = true) :
    handler.keeps i = true := by
  unfold keeps
  split
  case h_1 | h_2 => rfl
  case h_3 => exact h

theorem Handler.unpopped_of_recounted (h : handler.recounted i = true) :
    handler.unpopped i = true := by
  cases handler with
  | resetPort call k | resetWait call k => exact h
  | idle | mayBuild | makeTuple | getting | offering | resetCount => cases h

theorem Inv.initial : Inv W n (State.initial n : State α σ) fun _ => [] where
  ports _ _ := ⟨ItemBuffer.Contains.initial, rfl, rfl, rfl, (nomatch ·), (nomatch ·)⟩
  length_eq _ h := absurd h not_mem_nil
  count_eq := by simp [State.initial, weight]
  built := trivial
  busy h := by cases h
  forwarded _ := .inr (.inr (List.Subset.refl _))

/-- A port that is left as it is, while the handler sees it as before. -/
theorem PortInv.congr {q' : Nat → List α} (h : PortInv W s q i) (hbuf : t.bufs i = s.bufs i)
    (hpending : t.pending i = s.pending i) (haccepted : t.accepted i = s.accepted i)
    (htaken : t.taken i = s.taken i) (hq : q' i = q i) (hdelivered : t.delivered = s.delivered)
    (hunpopped : t.handler.unpopped i = s.handler.unpopped i)
    (hkeeps : t.handler.keeps i = true → s.handler.keeps i = true) : PortInv W t q' i := by
  constructor
  case contains => rw [hbuf, hq]; exact h.contains
  case tail_eq => rw [hbuf, haccepted]; exact h.tail_eq
  case accepted_eq => rw [haccepted, htaken, hq]; exact h.accepted_eq
  case delivered_eq => rw [hdelivered, htaken, hunpopped, hq]; exact h.delivered_eq
  case pending_of => rw [hpending, hq]; exact h.pending_of
  case kept =>
    intro hk
    rw [hq, hpending]
    exact h.kept (hkeeps hk)

/-- The fronts of ports with items do not change when items are appended. -/
theorem Built.append (h : Built n q handler) {x : α} (hne : handler.keeps i = true → q i ≠ []) :
    Built n (update q i (q i ++ [x])) handler := by
  have hfronts : ∀ k out, q i ≠ [] → Fronts n q k out →
      Fronts n (update q i (q i ++ [x])) k out := by
    intro k out hqi hf
    refine ⟨hf.1, fun j hk hj => ?_⟩
    rw [hf.2 j hk hj]
    by_cases hji : j = i
    · rw [hji, update_self]
      cases hq : q i with
      | nil => exact absurd hq hqi
      | cons y rest => rfl
    · rw [update_of_ne hji]
  cases handler with
  | getting call k ok out => exact ⟨h.1, hfronts k out (hne rfl) h.2⟩
  | offering out => exact hfronts 0 out (hne rfl) h
  | idle | mayBuild | makeTuple | resetCount | resetPort | resetWait => trivial

section

variable (h : Inv W n s q)
include h

/-! ## The operations of the ports -/

theorem Inv.tryPutTask (hi : i < n) (hpending : s.pending i = false) {x : α}
    (ht : s.tryPutTask W i x = some t) (hword : (t.accepted i).length < 2 ^ W.bits) :
    Inv W n t (update q i (q i ++ [x])) := by
  obtain ⟨buf, hbuf, rfl⟩ := map_eq_some_iff.mp ht
  have hport := h.ports i hi
  simp only [update_self, length_append, length_singleton, ← hport.tail_eq] at hword
  obtain ⟨hcontains, htail⟩ := hport.contains.pushBack hword hbuf
  have hempty := hport.contains.bufferEmpty_iff
  constructor
  case ports =>
    intro j hj
    by_cases hji : j = i
    · subst hji
      constructor
      case contains =>
        simp only [update_self]
        exact hcontains
      case tail_eq =>
        simp only [update_self, length_append, length_singleton]
        rw [htail, hport.tail_eq]
      case accepted_eq =>
        simp only [update_self]
        rw [hport.accepted_eq, append_assoc]
      case delivered_eq =>
        have hold := hport.delivered_eq
        simp only [update_self]
        cases hunpopped : s.handler.unpopped j with
        | false =>
          rw [hunpopped] at hold
          exact hold
        | true =>
          -- the port has an item, so the put does not change its front
          rw [hunpopped] at hold
          have hne := (hport.kept (keeps_of_unpopped hunpopped)).1
          have hpos := length_pos_iff.mpr hne
          rw [hold, if_pos rfl, if_pos rfl, take_append_of_le_length hpos]
      case pending_of => simp
      case kept =>
        intro hkeeps
        have hne := (hport.kept hkeeps).1
        simp only [update_self]
        exact ⟨by simp, by rw [Bool.eq_false_iff]; exact fun he => hne (hempty.mp he)⟩
    · exact (h.ports j hj).congr (update_of_ne hji _ _) (update_of_ne hji _ _)
        (update_of_ne hji _ _) rfl (update_of_ne hji _ _) rfl rfl id
  case length_eq => exact h.length_eq
  case count_eq =>
    rw [h.count_eq]
    apply Finset.sum_congr rfl
    intro j _
    by_cases hji : j = i
    · subst hji
      simp [weight, hpending, hempty]
    · simp [weight, update_of_ne hji]
  case built => exact h.built.append fun hkeeps => (hport.kept hkeeps).1
  case busy => exact h.busy
  case forwarded => exact h.forwarded

theorem Inv.decrementPortCount (hn : n < 2 ^ W.bits) (hi : i < n)
    (hpending : s.pending i = true) : Inv W n (s.decrementPortCount W i) q := by
  have hport := h.ports i hi
  have hne := hport.pending_of hpending
  -- a port with a change to make is not one the handler has still to reset
  have hkeeps : ¬ s.handler.keeps i = true := by
    intro hk
    rw [(hport.kept hk).2] at hpending
    cases hpending
  have hrecounted : ¬ s.handler.recounted i = true :=
    fun hr => hkeeps (keeps_of_unpopped (unpopped_of_recounted hr))
  have hold := h.count_eq
  have hle := Positions.sum_range_le n (weight_le s q)
  have hsum := Positions.sum_range_change (f := weight s q)
    (g := weight (s.decrementPortCount W i) q) hi
    (fun j hj => by simp [weight, State.decrementPortCount, update_of_ne hj])
  have hbefore : weight s q i = 1 := by simp [weight, hpending]
  have hafter : weight (s.decrementPortCount W i) q i = 0 := by
    simp [weight, State.decrementPortCount, hne, hrecounted]
  have hcount : (s.portsWithNoItems + 2 ^ W.bits - 1) % 2 ^ W.bits = s.portsWithNoItems - 1 := by
    rw [show s.portsWithNoItems + 2 ^ W.bits - 1 = s.portsWithNoItems - 1 + 2 ^ W.bits by omega,
      Nat.add_mod_right, Nat.mod_eq_of_lt (by omega)]
  constructor
  case ports =>
    intro j hj
    by_cases hji : j = i
    · subst hji
      exact ⟨hport.contains, hport.tail_eq, hport.accepted_eq, hport.delivered_eq, fun _ => hne,
        fun hk => absurd hk hkeeps⟩
    · exact (h.ports j hj).congr rfl (update_of_ne hji _ _) rfl rfl rfl rfl rfl id
  case length_eq => exact h.length_eq
  case count_eq =>
    change (s.portsWithNoItems + 2 ^ W.bits - 1) % 2 ^ W.bits = _
    omega
  case built => exact h.built
  case busy =>
    intro hbusy
    rcases h.busy hbusy with hforwarders | hforwarding
    · left
      simp only [State.decrementPortCount]
      split <;> omega
    · exact .inr hforwarding
  case forwarded =>
    -- the last decrement makes a forwarding task
    intro hzero
    change (s.portsWithNoItems + 2 ^ W.bits - 1) % 2 ^ W.bits = 0 at hzero
    left
    simp only [State.decrementPortCount]
    rw [if_pos (by omega)]
    omega

/-! ## The steps of the handler -/

/-- The handler goes on without a change of the ports. -/
theorem Inv.moved (hports : t.bufs = s.bufs) (hpending : t.pending = s.pending)
    (haccepted : t.accepted = s.accepted) (htaken : t.taken = s.taken)
    (hdelivered : t.delivered = s.delivered) (hcount : t.portsWithNoItems = s.portsWithNoItems)
    (hunpopped : ∀ i, i < n → t.handler.unpopped i = s.handler.unpopped i)
    (hrecounted : ∀ i, i < n → t.handler.recounted i = s.handler.recounted i)
    (hkeeps : ∀ i, i < n → t.handler.keeps i = true → q i ≠ [] ∧ s.pending i = false)
    (hbuilt : Built n q t.handler)
    (hbusy : t.forwarderBusy = true → 0 < t.forwarders ∨ t.handler.forwarding = true)
    (hforwarded : t.portsWithNoItems = 0 →
      0 < t.forwarders ∨ t.handler.forwarding = true ∨ t.successors ⊆ t.declined) :
    Inv W n t q := by
  refine ⟨fun i hi => ?_, ?_, ?_, hbuilt, hbusy, hforwarded⟩
  · have hport := h.ports i hi
    constructor
    case contains => rw [hports]; exact hport.contains
    case tail_eq => rw [hports, haccepted]; exact hport.tail_eq
    case accepted_eq => rw [haccepted, htaken]; exact hport.accepted_eq
    case delivered_eq => rw [hdelivered, htaken, hunpopped i hi]; exact hport.delivered_eq
    case pending_of => rw [hpending]; exact hport.pending_of
    case kept => rw [hpending]; exact hkeeps i hi
  · rw [hdelivered]
    exact h.length_eq
  · rw [hcount, h.count_eq]
    apply Finset.sum_congr rfl
    intro i hi
    rw [weight, weight, hpending, hrecounted i (Finset.mem_range.mp hi)]

theorem Inv.all_have_items (hzero : s.portsWithNoItems = 0) (hi : i < n) :
    q i ≠ [] ∧ s.pending i = false := by
  have hsum := h.count_eq
  rw [hzero, eq_comm, Finset.sum_eq_zero_iff] at hsum
  have hweight := hsum i (Finset.mem_range.mpr hi)
  unfold weight at hweight
  split at hweight
  case isTrue => cases hweight
  case isFalse hnot =>
    rw [not_or, not_or] at hnot
    exact ⟨hnot.2.2, by simpa using hnot.2.1⟩

theorem Inv.getItem {k : Nat} {out : List α} {ok : Bool}
    (hs : s.handler = .getting call (k + 1) ok out) :
    Inv W n (s.getItem call k ok out) q := by
  have hbuilt := h.built
  rw [hs] at hbuilt
  obtain ⟨hok, hlength, hfronts⟩ := hbuilt
  have hk : k < n := by omega
  have hkept : ∀ i, i < n → q i ≠ [] ∧ s.pending i = false := fun i hi =>
    (h.ports i hi).kept (by rw [hs]; rfl)
  obtain ⟨x, rest, hx⟩ := exists_cons_of_ne_nil (hkept k hk).1
  have hcontains := (h.ports k hk).contains
  have hempty : ¬ (s.bufs k).bufferEmpty = true := by
    rw [hcontains.bufferEmpty_iff]
    exact (hkept k hk).1
  rw [hx] at hcontains
  unfold State.getItem
  rw [if_neg hempty, hcontains.front_cons]
  refine h.moved rfl rfl rfl rfl rfl rfl (fun _ _ => by rw [hs]; rfl) (fun _ _ => by rw [hs]; rfl)
    (fun i hi _ => hkept i hi) ⟨hok, ?_, fun i hle hi => ?_⟩ (fun hb => ?_) (fun hz => ?_)
  · rw [length_cons]
    omega
  · rcases eq_or_lt_of_le hle with rfl | hlt
    · rw [Nat.sub_self, hx]
      rfl
    · rw [show i - k = i - (k + 1) + 1 by omega, List.getElem?_cons_succ]
      exact hfronts i hlt hi
  · have hbusy := h.busy hb
    rw [hs] at hbusy
    cases call <;> exact hbusy
  · have hforwarded := h.forwarded hz
    rw [hs] at hforwarded
    cases call <;> exact hforwarded

theorem Inv.deliver {out : List α} (hfronts : Fronts n q 0 out)
    (hkept : ∀ i, i < n → q i ≠ [] ∧ s.pending i = false)
    (hunpopped : ∀ i, s.handler.unpopped i = false)
    (hrecounted : ∀ i, s.handler.recounted i = false) {successors : List σ}
    (hbusy : s.forwarderBusy = true → 0 < s.forwarders ∨ call = .forward)
    (hforwarded : s.portsWithNoItems = 0 →
      0 < s.forwarders ∨ call = .forward ∨ successors ⊆ s.declined) :
    Inv W n { s with
      successors := successors, handler := .resetCount call
      delivered := s.delivered ++ [out] } q := by
  have hforwarding : call = .forward → (resetCount call : Handler α).forwarding = true := by
    rintro rfl
    rfl
  constructor
  case ports =>
    intro i hi
    have hport := h.ports i hi
    refine ⟨hport.contains, hport.tail_eq, hport.accepted_eq, ?_, hport.pending_of,
      fun _ => hkept i hi⟩
    have hfront : out[i]? = (q i).head? := hfronts.2 i (Nat.zero_le _) hi
    have hold := hport.delivered_eq
    rw [hunpopped i, if_neg (by simp), append_nil] at hold
    obtain ⟨x, rest, hx⟩ := exists_cons_of_ne_nil (hkept i hi).1
    rw [hx] at hfront
    dsimp only
    rw [map_append, hold, hx, map_append]
    exact congrArg ((s.taken i).map some ++ ·) (congrArg (fun y => [y]) hfront)
  case length_eq =>
    intro out' hout'
    rcases mem_append.mp hout' with hold | hlast
    · exact h.length_eq out' hold
    · rw [mem_singleton.mp hlast]
      exact hfronts.1
  case count_eq =>
    dsimp only
    rw [h.count_eq]
    apply Finset.sum_congr rfl
    intro i _
    rw [weight, weight, hrecounted i]
    rfl
  case built => trivial
  case busy =>
    intro hb
    exact (hbusy hb).imp_right hforwarding
  case forwarded =>
    intro hz
    exact (hforwarded hz).imp_right (Or.imp_left hforwarding)

/-- The count is reset while no port has been reset. -/
theorem Inv.resetCount (hpos : 0 < n) (hs : s.handler = .resetCount call) :
    Inv W n { s with
      portsWithNoItems := n, declined := [], handler := .resetPort call 0 } q := by
  constructor
  case ports =>
    intro i hi
    have hport := h.ports i hi
    exact hport.congr rfl rfl rfl rfl rfl rfl (by rw [hs]; simp [unpopped])
      (fun _ => by rw [hs]; rfl)
  case length_eq => exact h.length_eq
  case count_eq => simp [weight, recounted]
  case built => trivial
  case busy =>
    intro hb
    have hbusy := h.busy hb
    rw [hs] at hbusy
    cases call <;> exact hbusy
  case forwarded =>
    intro hz
    dsimp only at hz
    omega

/-- The front of a port is removed. The port is counted before and after. -/
theorem Inv.resPort {k : Nat} (hk : k < n) (hs : s.handler = .resetPort call k) :
    Inv W n (s.resPort W call k) (update q k (q k).tail) := by
  have hport := h.ports k hk
  have hunpopped : s.handler.unpopped k = true := by rw [hs]; simp [unpopped]
  obtain ⟨x, rest, hx⟩ :=
    exists_cons_of_ne_nil (hport.kept (keeps_of_unpopped hunpopped)).1
  have hcontains := hport.contains
  rw [hx] at hcontains
  have hvalid := hcontains.destroyFront.itemValid_iff
  constructor
  case ports =>
    intro j hj
    by_cases hjk : j = k
    · subst hjk
      have hlast : (s.resPort W call j).handler.unpopped j = false := by
        simp [State.resPort, unpopped]
      constructor
      case contains =>
        simp only [State.resPort, update_self, hx, tail_cons]
        exact hcontains.destroyFront
      case tail_eq =>
        simp only [State.resPort, update_self]
        exact hport.tail_eq
      case accepted_eq =>
        simp only [State.resPort, update_self, hx, tail_cons, hcontains.front_cons]
        rw [hport.accepted_eq, hx, append_assoc]
        rfl
      case delivered_eq =>
        have hold := hport.delivered_eq
        rw [hunpopped, if_pos rfl, hx] at hold
        rw [hlast, if_neg (by simp), append_nil]
        simp only [State.resPort, update_self, hcontains.front_cons]
        exact hold
      case pending_of =>
        simp only [State.resPort, update_self, hx, tail_cons]
        exact hvalid.mp
      case kept =>
        intro hkeeps
        simp [State.resPort, keeps, unpopped] at hkeeps
    · refine (h.ports j hj).congr (update_of_ne hjk _ _) (update_of_ne hjk _ _)
        rfl (update_of_ne hjk _ _) (update_of_ne hjk _ _) rfl ?_ ?_
      · rw [hs]
        simp only [State.resPort, unpopped, decide_eq_decide]
        omega
      · rw [hs]
        simp only [State.resPort, keeps, unpopped, decide_eq_true_eq]
        omega
  case length_eq => exact h.length_eq
  case count_eq =>
    change s.portsWithNoItems = _
    rw [h.count_eq]
    apply Finset.sum_congr rfl
    intro j _
    by_cases hjk : j = k
    · subst hjk
      have hbefore : weight s q j = 1 := by simp [weight, hs, recounted]
      rw [hbefore, weight, if_pos]
      simp only [State.resPort, update_self, hx, tail_cons, hvalid]
      right
      exact (eq_or_ne rest []).symm
    · have hsame : (s.resPort W call k).handler.recounted j = s.handler.recounted j := by
        rw [hs]
        simp only [State.resPort, recounted, decide_eq_decide]
        omega
      rw [weight, weight, hsame]
      simp [State.resPort, update_of_ne hjk]
  case built => trivial
  case busy =>
    intro hb
    have hbusy := h.busy hb
    rw [hs] at hbusy
    cases call <;> exact hbusy
  case forwarded =>
    intro hz
    have hforwarded := h.forwarded hz
    rw [hs] at hforwarded
    cases call <;> exact hforwarded

theorem Inv.finish (hunpopped : ∀ i, i < n → s.handler.unpopped i = false)
    (hrecounted : ∀ i, i < n → s.handler.recounted i = false)
    (hforwarding : s.handler.forwarding = decide (call = .forward))
    (hforwarded : s.portsWithNoItems = 0 → 0 < s.forwarders ∨ s.successors ⊆ s.declined) :
    Inv W n (s.finish call) q := by
  cases call with
  | forward =>
    exact h.moved rfl rfl rfl rfl rfl rfl (fun i hi => (hunpopped i hi).symm)
      (fun i hi => (hrecounted i hi).symm) (fun _ _ => (nomatch ·)) trivial (nomatch ·)
      (fun hz => (hforwarded hz).imp_right .inr)
  | get =>
    refine h.moved rfl rfl rfl rfl rfl rfl (fun i hi => (hunpopped i hi).symm)
      (fun i hi => (hrecounted i hi).symm) (fun _ _ => (nomatch ·)) trivial (fun hb => ?_)
      (fun hz => (hforwarded hz).imp_right .inr)
    rcases h.busy hb with hforwarders | hf
    · exact .inl hforwarders
    · rw [hforwarding] at hf
      cases hf

theorem Inv.mayBuild (hs : s.handler = .mayBuild call) :
    Inv W n (if s.portsWithNoItems = 0 then { s with handler := .makeTuple call }
      else s.finish call) q := by
  have hbusy := h.busy
  have hforwarded := h.forwarded
  rw [hs] at hbusy hforwarded
  split
  case isTrue =>
    exact h.moved rfl rfl rfl rfl rfl rfl (fun _ _ => by rw [hs]; rfl)
      (fun _ _ => by rw [hs]; rfl) (fun _ _ => (nomatch ·)) trivial
      (by cases call <;> exact hbusy) (by cases call <;> exact hforwarded)
  case isFalse hne =>
    exact h.finish (fun _ _ => by rw [hs]; rfl) (fun _ _ => by rw [hs]; rfl)
      (by rw [hs]; cases call <;> rfl) (fun hz => absurd hz hne)

/-- The count is zero only if every port has an item to be read. -/
theorem Inv.makeTuple (hs : s.handler = .makeTuple call) :
    Inv W n (if s.portsWithNoItems = 0 then { s with handler := .getting call n true [] }
      else s.finish call) q := by
  have hbusy := h.busy
  have hforwarded := h.forwarded
  rw [hs] at hbusy hforwarded
  split
  case isTrue hzero =>
    exact h.moved rfl rfl rfl rfl rfl rfl (fun _ _ => by rw [hs]; rfl)
      (fun _ _ => by rw [hs]; rfl) (fun i hi _ => h.all_have_items hzero hi)
      ⟨rfl, zero_add n, fun i hle hi => absurd hle (not_le.mpr hi)⟩
      (by cases call <;> exact hbusy) (by cases call <;> exact hforwarded)
  case isFalse hne =>
    exact h.finish (fun _ _ => by rw [hs]; rfl) (fun _ _ => by rw [hs]; rfl)
      (by rw [hs]; cases call <;> rfl) (fun hz => absurd hz hne)

/-- A successor takes the tuple, or all that are left have declined it. -/
theorem Inv.offer {out : List α} (hs : s.handler = .offering out) (puts : List NodeCache.Answer) :
    let r := NodeCache.tryPutTask s.successors puts
    Inv W n (if r.1 then
      { s with
        successors := r.2, handler := .resetCount .forward, delivered := s.delivered ++ [out] }
    else { s with successors := r.2, declined := r.2 }.finish .forward) q := by
  intro r
  have hbuilt := h.built
  have hkept : ∀ i, i < n → s.handler.keeps i = true → q i ≠ [] ∧ s.pending i = false :=
    fun i hi => (h.ports i hi).kept
  rw [hs] at hbuilt hkept
  split
  case isTrue =>
    exact h.deliver hbuilt (fun i hi => hkept i hi rfl) (fun _ => by rw [hs]; rfl)
      (fun _ => by rw [hs]; rfl) (fun _ => .inr rfl) (fun _ => .inr (.inl rfl))
  case isFalse =>
    have hoffered : Inv W n { s with successors := r.2, declined := r.2 } q :=
      h.moved rfl rfl rfl rfl rfl rfl (fun _ _ => rfl) (fun _ _ => rfl)
        (fun i hi _ => hkept i hi rfl) h.built h.busy
        (fun _ => .inr (.inr (List.Subset.refl _)))
    exact hoffered.finish (fun _ _ => by rw [hs]; rfl) (fun _ _ => by rw [hs]; rfl)
      (by rw [hs]; rfl) (fun _ => .inr (List.Subset.refl _))

/-- All ports have been reset. -/
theorem Inv.resetEnd {k : Nat} (hk : ¬ k < n) (hs : s.handler = .resetPort call k) :
    Inv W n (match call with
      | .forward => { s with handler := .makeTuple .forward }
      | .get => s.finish .get) q := by
  have hforwarded := h.forwarded
  have hunpopped : ∀ i, i < n → s.handler.unpopped i = false := by
    intro i hi
    rw [hs]
    simp only [unpopped, decide_eq_false_iff_not]
    omega
  have hrecounted : ∀ i, i < n → s.handler.recounted i = false := by
    intro i hi
    rw [hs]
    simp only [recounted, decide_eq_false_iff_not]
    omega
  cases call with
  | forward =>
    exact h.moved rfl rfl rfl rfl rfl rfl (fun i hi => (hunpopped i hi).symm)
      (fun i hi => (hrecounted i hi).symm) (fun _ _ => (nomatch ·)) trivial
      (fun _ => .inr rfl) (fun _ => .inr (.inl rfl))
  | get =>
    refine h.finish hunpopped hrecounted (by rw [hs]; rfl) (fun hz => ?_)
    rw [hs] at hforwarded
    exact (hforwarded hz).imp_right (Or.resolve_left · (nomatch ·))

theorem Inv.advance (hpos : 0 < n) {puts : List NodeCache.Answer}
    (ht : s.advance W n puts = some t) : ∃ q', Inv W n t q' := by
  have hbuilt := h.built
  have hbusy := h.busy
  have hforwarded := h.forwarded
  have hkept : ∀ i, i < n → s.handler.keeps i = true → q i ≠ [] ∧ s.pending i = false :=
    fun i hi => (h.ports i hi).kept
  unfold State.advance at ht
  split at ht
  case h_1 => cases ht
  case h_2 call hs =>
    cases ht
    exact ⟨q, h.mayBuild hs⟩
  case h_3 call hs =>
    cases ht
    exact ⟨q, h.makeTuple hs⟩
  case h_4 call k ok out hs =>
    split at ht
    case isTrue => cases ht
    case isFalse =>
      cases ht
      exact ⟨q, h.getItem hs⟩
  case h_5 call out hs =>
    rw [hs] at hbuilt
    exact absurd hbuilt.1 (by simp)
  case h_6 out hs =>
    rw [hs] at hbuilt hkept
    cases ht
    exact ⟨q, h.moved rfl rfl rfl rfl rfl rfl (fun _ _ => by rw [hs]; rfl)
      (fun _ _ => by rw [hs]; rfl) (fun i hi _ => hkept i hi rfl) hbuilt.2 (fun _ => .inr rfl)
      (fun _ => .inr (.inl rfl))⟩
  case h_7 out hs =>
    rw [hs] at hbuilt hkept hbusy hforwarded
    cases ht
    refine ⟨q, h.deliver hbuilt.2 (fun i hi => hkept i hi rfl) (fun _ => by rw [hs]; rfl)
      (fun _ => by rw [hs]; rfl) (fun hb => ?_) (fun hz => ?_)⟩
    · exact (hbusy hb).imp_right (nomatch ·)
    · exact (hforwarded hz).imp_right (Or.imp_left (nomatch ·))
  case h_8 out hs =>
    cases ht
    exact ⟨q, h.offer hs puts⟩
  case h_9 call hs =>
    cases ht
    exact ⟨q, h.resetCount hpos hs⟩
  case h_10 call k hs =>
    split at ht
    case isTrue hk =>
      split at ht
      case isTrue => cases ht
      case isFalse =>
        cases ht
        exact ⟨_, h.resPort hk hs⟩
    case isFalse hk =>
      refine ⟨q, ?_⟩
      cases call <;>
        · cases ht
          exact h.resetEnd hk hs
  case h_11 call k hs =>
    split at ht
    case isTrue => cases ht
    case isFalse =>
      cases ht
      rw [hs] at hbusy hforwarded hkept
      refine ⟨q, h.moved rfl rfl rfl rfl rfl rfl (fun _ _ => by rw [hs]; rfl)
        (fun _ _ => by rw [hs]; rfl) (fun i hi hkeeps => hkept i hi hkeeps) trivial
        (by cases call <;> exact hbusy) (by cases call <;> exact hforwarded)⟩

theorem Inv.step [DecidableEq σ] (hpos : 0 < n) (hn : n < 2 ^ W.bits)
    {event : Event α σ} (ht : s.step W n event = some t)
    (hword : ∀ i < n, (t.accepted i).length < 2 ^ W.bits) : ∃ q', Inv W n t q' := by
  have hidle : s.handler.isIdle = true → s.handler = .idle := by
    cases s.handler with
    | idle => exact fun _ => rfl
    | mayBuild | makeTuple | getting | offering | resetCount | resetPort | resetWait =>
      exact (nomatch ·)
  cases event with
  | put i x =>
    obtain ⟨⟨hi, hpending⟩, ht⟩ := ite_none_right_eq_some.mp ht
    exact ⟨_, h.tryPutTask hi hpending ht (hword i hi)⟩
  | settle i =>
    obtain ⟨⟨hi, hpending⟩, ht⟩ := ite_none_right_eq_some.mp ht
    cases ht
    exact ⟨q, h.decrementPortCount hn hi hpending⟩
  | regSucc r priority =>
    obtain ⟨hs, ht⟩ := ite_none_right_eq_some.mp ht
    cases ht
    replace hs := hidle hs
    refine ⟨q, ?_⟩
    unfold State.regSucc
    dsimp only
    split
    case isTrue =>
      exact h.moved rfl rfl rfl rfl rfl rfl (fun _ _ => rfl) (fun _ _ => rfl)
        (fun i hi => (h.ports i hi).kept) h.built (fun _ => .inl (Nat.succ_pos _))
        (fun _ => .inl (Nat.succ_pos _))
    case isFalse hnot =>
      -- a busy forwarder has not begun yet
      have hbusy := h.busy
      rw [hs] at hbusy
      refine h.moved rfl rfl rfl rfl rfl rfl (fun _ _ => rfl) (fun _ _ => rfl)
        (fun i hi => (h.ports i hi).kept) h.built h.busy (fun hz => .inl ?_)
      have hb : s.forwarderBusy = true := by
        by_contra hfree
        exact hnot ⟨hz, Bool.eq_false_iff.mpr hfree⟩
      exact (hbusy hb).resolve_right (nomatch ·)
  | remSucc r =>
    obtain ⟨-, ht⟩ := ite_none_right_eq_some.mp ht
    cases ht
    refine ⟨q, h.moved rfl rfl rfl rfl rfl rfl (fun _ _ => rfl) (fun _ _ => rfl)
      (fun i hi => (h.ports i hi).kept) h.built h.busy (fun hz => ?_)⟩
    exact (h.forwarded hz).imp_right
      (Or.imp_right fun hsub => List.Subset.trans erase_subset hsub)
  | begin call =>
    cases call with
    | forward =>
      obtain ⟨⟨hs, -⟩, ht⟩ := ite_none_right_eq_some.mp ht
      cases ht
      replace hs := hidle hs
      exact ⟨q, h.moved rfl rfl rfl rfl rfl rfl (fun _ _ => by rw [hs]; rfl)
        (fun _ _ => by rw [hs]; rfl) (fun _ _ => (nomatch ·)) trivial (fun _ => .inr rfl)
        (fun _ => .inr (.inl rfl))⟩
    | get =>
      obtain ⟨hs, ht⟩ := ite_none_right_eq_some.mp ht
      cases ht
      replace hs := hidle hs
      have hbusy := h.busy
      have hforwarded := h.forwarded
      rw [hs] at hbusy hforwarded
      exact ⟨q, h.moved rfl rfl rfl rfl rfl rfl (fun _ _ => by rw [hs]; rfl)
        (fun _ _ => by rw [hs]; rfl) (fun _ _ => (nomatch ·)) trivial hbusy hforwarded⟩
  | advance puts => exact h.advance hpos ht

end

/-! ## Runs -/

section Runs

variable [DecidableEq σ]

/-- An event, while the messages accepted by each port can be counted. After them `my_tail` of a
queue would be zero again. -/
def State.next (W : SizeType) (n : Nat) (s : State α σ) (event : Event α σ) :
    Option (State α σ) :=
  (s.step W n event).filter fun t => ∀ i < n, (t.accepted i).length < 2 ^ W.bits

def Step (W : SizeType) (n : Nat) (s t : State α σ) : Prop :=
  ∃ event, s.next W n event = some t

theorem inv_of_run (hpos : 0 < n) (hn : n < 2 ^ W.bits)
    (run : ReflTransGen (Step W n) (State.initial n) s) : ∃ q, Inv W n s q := by
  refine Transition.run_preserves (P := fun s => ∃ q, Inv W n s q) ?_ run ⟨_, Inv.initial⟩
  rintro u v ⟨q, hq⟩ ⟨event, hv⟩
  obtain ⟨hstep, hword⟩ := filter_eq_some_iff.mp hv
  exact hq.step hpos hn hstep (of_decide_eq_true hword)

/-- In every run in which no port accepts `2 ^ W.bits` messages the tuples that were delivered
have one message of every port, the `k`-th tuple the `k`-th message each port accepted. When the
node is idle, a port keeps all other messages it accepted. When no operation is in progress, the
count is the number of empty ports, and if no port is empty, a forwarding task waits to run, or
every registered successor has declined the tuple at the fronts. -/
theorem queueingJoin_pairs_by_position (hpos : 0 < n) (hn : n < 2 ^ W.bits)
    (run : ReflTransGen (Step W n) (State.initial n) s) :
    (∀ out ∈ s.delivered, out.length = n) ∧
    (∀ i, i < n → s.delivered.map (·[i]?) <+: (s.accepted i).map some) ∧
    (s.handler = .idle →
      ∀ i, i < n → (s.accepted i).map some =
        s.delivered.map (·[i]?) ++ (s.bufs i).contents.map some) ∧
    (s.handler = .idle → (∀ i, i < n → s.pending i = false) →
      s.portsWithNoItems = ((Finset.range n).filter fun i => (s.bufs i).contents = []).card ∧
      ((∀ i, i < n → (s.bufs i).contents ≠ []) →
        0 < s.forwarders ∨ s.successors ⊆ s.declined)) := by
  obtain ⟨q, h⟩ := inv_of_run hpos hn run
  have hcontents : ∀ i, i < n → (s.bufs i).contents = q i :=
    fun i hi => (h.ports i hi).contains.contents_eq
  refine ⟨h.length_eq, fun i hi => ?_, fun hidle i hi => ?_, fun hidle hpending => ?_⟩
  · rw [(h.ports i hi).delivered_eq, (h.ports i hi).accepted_eq, map_append, map_append,
      prefix_append_right_inj]
    split
    case isTrue =>
      have hfront := List.take_prefix 1 (q i)
      exact hfront.map some
    case isFalse => exact nil_prefix
  · have hdelivered := (h.ports i hi).delivered_eq
    rw [hidle] at hdelivered
    rw [hdelivered, hcontents i hi, (h.ports i hi).accepted_eq, ← map_append]
    exact congrArg (List.map some) (congrArg (· ++ q i) (append_nil _).symm)
  · have hcount : s.portsWithNoItems =
        ((Finset.range n).filter fun i => (s.bufs i).contents = []).card := by
      rw [h.count_eq, Finset.card_filter]
      apply Finset.sum_congr rfl
      intro i hi
      rw [Finset.mem_range] at hi
      rw [weight, hcontents i hi, hpending i hi, hidle]
      simp [recounted]
    refine ⟨hcount, fun hitems => ?_⟩
    have hzero : s.portsWithNoItems = 0 := by
      rw [hcount, Finset.card_eq_zero, Finset.filter_eq_empty_iff]
      intro i hi
      exact hitems i (Finset.mem_range.mp hi)
    have hforwarded := h.forwarded hzero
    rw [hidle] at hforwarded
    exact hforwarded.imp_right (Or.resolve_left · (nomatch ·))

/-- Two ports, of which the first one has accepted a message more. -/
theorem queueingJoin_pairs_by_position_two :
    ∃ s : State Nat Nat, ReflTransGen (Step .word64 2) (State.initial 2) s ∧
      s.delivered = [[1, 3]] ∧ s.delivered.map (·[0]?) <+: (s.accepted 0).map some := by
  have hrun : ([Event.put 0 1, .settle 0, .put 0 2, .put 1 3, .settle 1, .begin .get,
      .advance [], .advance [], .advance [], .advance [], .advance []].foldlM
        (State.next .word64 2) (State.initial 2 : State Nat Nat)).map (·.delivered) =
      some [[1, 3]] := by
    decide +kernel
  obtain ⟨s, hs, hdelivered⟩ := map_eq_some_iff.mp hrun
  have run : ReflTransGen (Step .word64 2) (State.initial 2) s := Transition.run_of_foldlM hs
  refine ⟨s, run, hdelivered, ?_⟩
  exact (queueingJoin_pairs_by_position (by decide) (by decide) run).2.1 0 (by decide)

/-- The only successor declines the tuple and does not register the node as a predecessor. It
stays registered, the port has an item, and no forwarding task is left. -/
theorem queueingJoin_declined_stays :
    ([Event.regSucc 3 false, .put 0 1, .settle 0, .begin .forward, .advance [], .advance [],
      .advance [], .advance [], .advance [.declines]].foldlM (State.step .word64 1)
        (State.initial 1 : State Nat Nat)).map (fun s =>
          (s.handler, s.pending 0, (s.bufs 0).contents, s.successors, s.forwarders)) =
      some (.idle, false, [1], [3], 0) := by
  decide +kernel

end Runs

end OneTbb.FlowGraph.QueueingJoin
