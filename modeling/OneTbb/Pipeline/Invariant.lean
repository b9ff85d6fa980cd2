import OneTbb.Pipeline.Tickets
import OneTbb.Pipeline.Tokens

/-!
# The invariant of a pipeline

The parts of the invariant are put together here: the stage tasks carry the
items, the tokens are accounted for, every serial filter after the first one
keeps its tickets, and the calls made so far follow the places of the items.
-/

namespace OneTbb.Pipeline

open Function

open RingIndex

/-- The filters that have an input buffer of their own to wait in. -/
structure Serial (c : Chain) (f : Nat) : Prop where
  pos : 0 < f
  lt : f < c.length
  serial : c.isSerial f = true

/-- Places that exist in the chain. -/
def Place.InChain (c : Chain) : Place → Prop
  | .entering f => 0 < f ∧ f ≤ c.length
  | .ready f | .calling f => 0 < f ∧ f < c.length
  | .releasing f | .parked f => Serial c f
  | _ => True

/-- The tickets and the counters they come from. -/
structure GlobalInv (c : Chain) (g : Ghost) (buffers : Nat → InputBuffer) (items : Nat) :
    Prop where
  nodup : ∀ f, (g.tickets c f).Nodup
  born : ∀ k, g.place k ≠ .unborn ↔ k < items
  inChain : ∀ k, (g.place k).InChain c
  ordered_born : ∀ k ∈ g.ordered, g.place k ≠ .unborn
  arrived : ∀ f, ∀ k ∈ g.arrivals f, 2 * f + 1 ≤ (g.place k).rank c
  first : c.isOrdered 0 = true → g.ordered = List.range items
  highOrdered : ∀ f, c.isOrdered f = true → (∀ h, h < f → c.isOrdered h = false) →
    (buffers f).highToken = g.ordered.length % c.tokens
  highArrivals : ∀ f, Serial c f → c.isOrdered f = false →
    (buffers f).highToken = (g.arrivals f).length % c.tokens

/-- The items on which a filter has been called, in order. -/
def State.callsOf (s : State) (f : Nat) : List Nat :=
  (s.calls.filter fun e => e.1 == f).map Prod.snd

/-- The filters that have been called on an item, in order. -/
def State.filtersOf (s : State) (k : Nat) : List Nat :=
  (s.calls.filter fun e => e.2 == k).map Prod.fst

/-- Filter `f` has been called on the items of the first tickets, and these are
the items whose places say so. -/
def CalledInOrder (c : Chain) (g : Ghost) (f : Nat) (items : List Nat) : Prop :=
  ∃ n, n ≤ (g.tickets c f).length ∧ items = (g.tickets c f).take n ∧
    ∀ i k, (g.tickets c f)[i]? = some k → (i < n ↔ f < (g.place k).called c)

structure CallsInv (c : Chain) (g : Ghost) (s : State) : Prop where
  perItem : ∀ k, s.filtersOf k = List.range ((g.place k).called c)
  perFilter : ∀ f, Serial c f → CalledInOrder c g f (s.callsOf f)
  first : s.callsOf 0 = List.range s.items

structure Inv (c : Chain) (s : State) (g : Ghost) : Prop where
  carried : Carried c g s.tasks
  tokens : ∃ live lost, Tokens c g s live lost
  global : GlobalInv c g s.buffers s.items
  tickets : ∀ f, Serial c f → TicketInv c g f
  buffers : ∀ f, Serial c f → ∃ content, Represents c g f (s.buffers f) content
  calls : CallsInv c g s

variable {c : Chain} {s s' : State} {g g' : Ghost}

theorem isSerial_of_isOrdered {f : Nat} (h : c.isOrdered f = true) : c.isSerial f = true := by
  simp only [Chain.isOrdered, Chain.isSerial, decide_eq_true_eq] at h ⊢
  rw [h]
  simp

/-! ## Calls -/

/-- The order of a filter may get longer by an item it has not been called on. -/
theorem CalledInOrder.quiet {f : Nat} {items : List Nat} (h : CalledInOrder c g f items)
    (hcalled : ∀ k, f < (g'.place k).called c ↔ f < (g.place k).called c)
    (htickets : g'.tickets c f = g.tickets c f ∨
      ∃ k, g'.tickets c f = g.tickets c f ++ [k] ∧ (g'.place k).called c ≤ f) :
    CalledInOrder c g' f items := by
  obtain ⟨n, hn, htake, hiff⟩ := h
  rcases htickets with ht | ⟨k, ht, hle⟩
  · unfold CalledInOrder
    rw [ht]
    exact ⟨n, hn, htake, fun i x hx => by rw [hcalled]; exact hiff i x hx⟩
  · refine ⟨n, by simp [ht]; omega, ?_, fun i x hx => ?_⟩
    · rw [ht, List.take_append_of_le_length hn]
      exact htake
    · rw [ht] at hx
      rcases getElem?_concat hx with hx | ⟨rfl, rfl⟩
      · rw [hcalled]
        exact hiff i x hx
      · omega

theorem CallsInv.congr (h : CallsInv c g s) (hcalls : s'.calls = s.calls)
    (hitems : s'.items = s.items)
    (hcalled : ∀ k, (g'.place k).called c = (g.place k).called c)
    (htickets : ∀ f, Serial c f → g'.tickets c f = g.tickets c f ∨
      ∃ k, g'.tickets c f = g.tickets c f ++ [k] ∧ (g'.place k).called c ≤ f) :
    CallsInv c g' s' where
  perItem := by
    intro k
    rw [State.filtersOf, hcalls, hcalled]
    exact h.perItem k
  perFilter := by
    intro f hf
    rw [State.callsOf, hcalls]
    exact (h.perFilter f hf).quiet (fun k => by rw [hcalled]) (htickets f hf)
  first := by
    rw [State.callsOf, hcalls, hitems]
    exact h.first

theorem callsOf_append_self {f k : Nat} (hcalls : s'.calls = s.calls ++ [(f, k)]) :
    s'.callsOf f = s.callsOf f ++ [k] := by
  simp [State.callsOf, hcalls]

theorem callsOf_append_ne {f h k : Nat} (hcalls : s'.calls = s.calls ++ [(f, k)]) (hne : f ≠ h) :
    s'.callsOf h = s.callsOf h := by
  simp [State.callsOf, hcalls, hne]

theorem filtersOf_append_self {f k : Nat} (hcalls : s'.calls = s.calls ++ [(f, k)]) :
    s'.filtersOf k = s.filtersOf k ++ [f] := by
  simp [State.filtersOf, hcalls]

theorem filtersOf_append_ne {f k x : Nat} (hcalls : s'.calls = s.calls ++ [(f, k)])
    (hne : k ≠ x) : s'.filtersOf x = s.filtersOf x := by
  simp [State.filtersOf, hcalls, hne]

/-! ## Changes that leave the serial filters alone -/

/-- A move of an item that does not bring it into, through or out of filter `f`. -/
structure Beside (c : Chain) (p p' : Place) (f : Nat) : Prop where
  lt : p'.rank c < 2 * f + 1 ↔ p.rank c < 2 * f + 1
  eq : p'.rank c = 2 * f + 1 ↔ p.rank c = 2 * f + 1
  parked : p ≠ .parked f
  parked' : p' ≠ .parked f

theorem quiet_of_places {f : Nat} (hlow : g'.low f = g.low f)
    (htickets : g'.tickets c f = g.tickets c f ∨
      ∃ k, g'.tickets c f = g.tickets c f ++ [k] ∧ (g'.place k).rank c < 2 * f + 1)
    (hplaces : ∀ x, g'.place x = g.place x ∨ Beside c (g.place x) (g'.place x) f) :
    Quiet c g g' f := by
  refine ⟨hlow, htickets, fun x => ?_, fun x => ?_, fun x => ?_⟩
  · rcases hplaces x with he | hb
    · rw [he]
    · exact hb.lt
  · rcases hplaces x with he | hb
    · rw [he]
    · exact hb.eq
  · rcases hplaces x with he | hb
    · rw [he]
    · exact ⟨fun h => absurd h hb.parked', fun h => absurd h hb.parked⟩

theorem quiet_of_beside {k f : Nat} {p : Place} (hplace : g'.place = update g.place k p)
    (hlow : g'.low f = g.low f)
    (htickets : g'.tickets c f = g.tickets c f ∨
      ∃ k, g'.tickets c f = g.tickets c f ++ [k] ∧ (g'.place k).rank c < 2 * f + 1)
    (hb : Beside c (g.place k) p f) : Quiet c g g' f := by
  refine quiet_of_places hlow htickets fun x => ?_
  by_cases hx : x = k
  · rw [hplace, hx, update_self]
    exact .inr hb
  · rw [hplace, update_of_ne hx]
    exact .inl rfl

theorem InfoOk.move {info : TaskInfo} {k : Nat} {p : Place} (h : InfoOk c g info) :
    InfoOk c (g.move k p) info := ⟨h.ready, h.notReady⟩

theorem GlobalInv.move {buffers : Nat → InputBuffer} {items k : Nat} {p : Place}
    (h : GlobalInv c g buffers items) (hk : g.place k ≠ .unborn) (hp : p ≠ .unborn)
    (hin : p.InChain c) (hrank : ∀ f, k ∈ g.arrivals f → 2 * f + 1 ≤ p.rank c) :
    GlobalInv c (g.move k p) buffers items where
  nodup := h.nodup
  born := by
    intro x
    by_cases hx : x = k
    · subst hx
      simp only [Ghost.move, update_self]
      exact ⟨fun _ => (h.born x).mp hk, fun _ => hp⟩
    · simp only [Ghost.move, update_of_ne hx]
      exact h.born x
  inChain := by
    intro x
    by_cases hx : x = k
    · subst hx
      simpa only [Ghost.move, update_self] using hin
    · simp only [Ghost.move, update_of_ne hx]
      exact h.inChain x
  ordered_born := by
    intro x hx
    by_cases hxk : x = k
    · subst hxk
      simpa only [Ghost.move, update_self] using hp
    · simp only [Ghost.move, update_of_ne hxk]
      exact h.ordered_born x hx
  arrived := by
    intro f x hx
    by_cases hxk : x = k
    · subst hxk
      simpa only [Ghost.move, update_self] using hrank f hx
    · simp only [Ghost.move, update_of_ne hxk]
      exact h.arrived f x hx
  first := h.first
  highOrdered := h.highOrdered
  highArrivals := h.highArrivals

/-- An item moves on between the serial filters, or inside one without being
called on. -/
theorem Inv.quietMove {k : Nat} {p : Place} (h : Inv c s g) (hk : g.place k ≠ .unborn)
    (hp : p ≠ .unborn) (hin : p.InChain c) (hmono : (g.place k).rank c ≤ p.rank c)
    (hcalled : p.called c = (g.place k).called c)
    (hb : ∀ f, Serial c f → Beside c (g.place k) p f) (hbuffers : s'.buffers = s.buffers)
    (hitems : s'.items = s.items) (hcalls : s'.calls = s.calls)
    (hcarried : Carried c (g.move k p) s'.tasks)
    (htokens : ∃ live lost, Tokens c (g.move k p) s' live lost) : Inv c s' (g.move k p) where
  carried := hcarried
  tokens := htokens
  global := by
    rw [hbuffers, hitems]
    exact h.global.move hk hp hin fun f hf => Nat.le_trans (h.global.arrived f k hf) hmono
  tickets := fun f hf => (h.tickets f hf).quiet (quiet_of_beside rfl rfl (.inl rfl) (hb f hf))
  buffers := by
    intro f hf
    rw [hbuffers]
    obtain ⟨content, hrep⟩ := h.buffers f hf
    exact ⟨content, hrep.quiet (quiet_of_beside rfl rfl (.inl rfl) (hb f hf))
      fun _ _ hi => hi.move⟩
  calls := by
    refine h.calls.congr hcalls hitems (fun x => ?_) fun f _ => .inl rfl
    by_cases hx : x = k
    · subst hx
      simpa only [Ghost.move, update_self] using hcalled
    · simp only [Ghost.move, update_of_ne hx]

end OneTbb.Pipeline
