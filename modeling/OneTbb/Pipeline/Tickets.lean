import OneTbb.Pipeline.Buffer
import OneTbb.Pipeline.Places

/-!
# The order in which serial filters process the items

Filters that are serial in order hand out tickets together, filters that are
serial out of order each on their own. `TicketInv` says how the tickets of a
filter relate to the places of their items: those before `low` have passed the
filter, `low` itself may be in it, and those after it are still on their way or
parked. `Represents` says that the parked items are the contents of the buffer.
-/

namespace OneTbb.Pipeline

open Function List Ghost

open RingIndex

variable {c : Chain} {g g' : Ghost} {f : Nat} {b : InputBuffer}
  {content : Nat → Option TaskInfo}

structure TicketInv (c : Chain) (g : Ghost) (f : Nat) : Prop where
  low_le : g.low f ≤ (g.tickets c f).length
  passed : ∀ i k, (g.tickets c f)[i]? = some k →
    (i < g.low f ↔ 2 * f + 1 < (g.place k).rank c)
  parked : ∀ i k, (g.tickets c f)[i]? = some k → (g.place k).rank c = 2 * f + 1 →
    (g.place k = .parked f ↔ g.low f < i)
  mem : ∀ k, 2 * f + 1 ≤ (g.place k).rank c → k ∈ g.tickets c f

structure Represents (c : Chain) (g : Ghost) (f : Nat) (b : InputBuffer)
    (content : Nat → Option TaskInfo) : Prop where
  holds : Holds c.tokenBits b (g.low f) content
  isOrdered : b.isOrdered = c.isOrdered f
  sound : ∀ i info, content i = some info → (g.tickets c f)[i]? = some info.object ∧
    g.place info.object = .parked f ∧ InfoOk c g info
  complete : ∀ i k, (g.tickets c f)[i]? = some k → g.place k = .parked f → content i ≠ none

theorem rank_parked (c : Chain) (f : Nat) : (Place.parked f).rank c = 2 * f + 1 := rfl

theorem getElem?_concat {l : List Nat} {i k x : Nat} (h : (l ++ [k])[i]? = some x) :
    l[i]? = some x ∨ i = l.length ∧ x = k := by
  rw [List.getElem?_append] at h
  split at h
  · exact .inl h
  · right
    rw [List.getElem?_singleton] at h
    split at h
    · exact ⟨by omega, by simpa using h.symm⟩
    · cases h

theorem getElem?_concat_of_some {l : List Nat} {i x : Nat} (k : Nat) (h : l[i]? = some x) :
    (l ++ [k])[i]? = some x := by
  rw [List.getElem?_append_left (List.getElem?_eq_some_iff.mp h).1, h]

/-- A change that leaves filter `f` alone: no item comes to it, moves in it or
leaves it. The common order may get longer by an item that has not come to it. -/
structure Quiet (c : Chain) (g g' : Ghost) (f : Nat) : Prop where
  low : g'.low f = g.low f
  tickets : g'.tickets c f = g.tickets c f ∨
    ∃ k, g'.tickets c f = g.tickets c f ++ [k] ∧ (g'.place k).rank c < 2 * f + 1
  lt : ∀ k, (g'.place k).rank c < 2 * f + 1 ↔ (g.place k).rank c < 2 * f + 1
  eq : ∀ k, (g'.place k).rank c = 2 * f + 1 ↔ (g.place k).rank c = 2 * f + 1
  parked : ∀ k, g'.place k = .parked f ↔ g.place k = .parked f

theorem Quiet.getElem? (q : Quiet c g g' f) {i k : Nat} (h : (g'.tickets c f)[i]? = some k) :
    (g.tickets c f)[i]? = some k ∨
      i = (g.tickets c f).length ∧ (g'.place k).rank c < 2 * f + 1 := by
  rcases q.tickets with ht | ⟨k', ht, hlt⟩
  · exact .inl (ht ▸ h)
  · rw [ht] at h
    exact (getElem?_concat h).imp_right fun ⟨h₁, h₂⟩ => ⟨h₁, h₂ ▸ hlt⟩

theorem Quiet.getElem?_of_some (q : Quiet c g g' f) {i k : Nat}
    (h : (g.tickets c f)[i]? = some k) : (g'.tickets c f)[i]? = some k := by
  rcases q.tickets with ht | ⟨k', ht, _⟩
  · rw [ht, h]
  · rw [ht]
    exact getElem?_concat_of_some k' h

theorem TicketInv.quiet (h : TicketInv c g f) (q : Quiet c g g' f) : TicketInv c g' f where
  low_le := by
    rw [q.low]
    refine le_trans h.low_le ?_
    rcases q.tickets with ht | ⟨_, ht, _⟩ <;> simp [ht]
  passed := by
    intro i k hi
    have hlt := q.lt k
    have heq := q.eq k
    rw [q.low]
    rcases q.getElem? hi with hi | ⟨rfl, hrank⟩
    · have := h.passed i k hi
      omega
    · have := h.low_le
      omega
  parked := by
    intro i k hi hrank
    rw [q.low, q.parked]
    rcases q.getElem? hi with hi | ⟨_, hrank'⟩
    · exact h.parked i k hi ((q.eq k).mp hrank)
    · omega
  mem := by
    intro k hk
    have hlt := q.lt k
    have hmem := h.mem k (by omega)
    rcases q.tickets with ht | ⟨_, ht, _⟩ <;> simp [ht, hmem]

theorem Represents.quiet (h : Represents c g f b content) (q : Quiet c g g' f)
    (hinfo : ∀ info, g.place info.object = .parked f → InfoOk c g info → InfoOk c g' info) :
    Represents c g' f b content where
  holds := by
    rw [q.low]
    exact h.holds
  isOrdered := h.isOrdered
  sound := by
    intro i info hi
    obtain ⟨h₁, h₂, h₃⟩ := h.sound i info hi
    exact ⟨q.getElem?_of_some h₁, (q.parked _).mpr h₂, hinfo info h₂ h₃⟩
  complete := by
    intro i k hi hk
    rcases q.getElem? hi with hi | ⟨_, hrank⟩
    · exact h.complete i k hi ((q.parked k).mp hk)
    · rw [hk, rank_parked] at hrank
      omega

/-- Item `k` comes to filter `f` with ticket `i`, which may be a new one. -/
structure Enter (c : Chain) (g g' : Ghost) (f k i : Nat) (p : Place) : Prop where
  low : g'.low f = g.low f
  tickets : g'.tickets c f = g.tickets c f ∨ g'.tickets c f = g.tickets c f ++ [k]
  nodup : (g'.tickets c f).Nodup
  ticket : (g'.tickets c f)[i]? = some k
  place : g'.place = update g.place k p
  before : g.place k = .entering f
  rank : p.rank c = 2 * f + 1
  low_le : g.low f ≤ i
  parked : p = .parked f ↔ g.low f < i

theorem Enter.getElem? {k i i' x : Nat} {p : Place} (e : Enter c g g' f k i p) (hx : x ≠ k)
    (h : (g'.tickets c f)[i']? = some x) : (g.tickets c f)[i']? = some x := by
  rcases e.tickets with ht | ht
  · rwa [ht] at h
  · rw [ht] at h
    exact (getElem?_concat h).resolve_right fun h' => hx h'.2

theorem Enter.getElem?_of_some {k i i' x : Nat} {p : Place} (e : Enter c g g' f k i p)
    (h : (g.tickets c f)[i']? = some x) : (g'.tickets c f)[i']? = some x := by
  rcases e.tickets with ht | ht
  · rwa [ht]
  · rw [ht]
    exact getElem?_concat_of_some k h

theorem ticket_unique {l : List Nat} (h : l.Nodup) {i i' k : Nat} (hi : l[i]? = some k)
    (hi' : l[i']? = some k) : i = i' := by
  obtain ⟨h₁, h₂⟩ := List.getElem?_eq_some_iff.mp hi
  obtain ⟨h₃, h₄⟩ := List.getElem?_eq_some_iff.mp hi'
  exact (List.Nodup.getElem_inj_iff h).mp (h₂.trans h₄.symm)

theorem TicketInv.enter {k i : Nat} {p : Place} (h : TicketInv c g f)
    (e : Enter c g g' f k i p) : TicketInv c g' f := by
  have hp : g'.place k = p := by rw [e.place, update_self]
  have hother : ∀ x, x ≠ k → g'.place x = g.place x := fun x hx => by
    rw [e.place, update_of_ne hx]
  constructor
  · rw [e.low]
    refine le_trans h.low_le ?_
    rcases e.tickets with ht | ht <;> simp [ht]
  · intro i' x hx
    rw [e.low]
    by_cases hxk : x = k
    · subst hxk
      obtain rfl := ticket_unique e.nodup e.ticket hx
      rw [hp, e.rank]
      have := e.low_le
      omega
    · rw [hother x hxk]
      exact h.passed i' x (e.getElem? hxk hx)
  · intro i' x hx hrank
    rw [e.low]
    by_cases hxk : x = k
    · subst hxk
      obtain rfl := ticket_unique e.nodup e.ticket hx
      rw [hp]
      exact e.parked
    · rw [hother x hxk] at hrank ⊢
      exact h.parked i' x (e.getElem? hxk hx) hrank
  · intro x hx
    by_cases hxk : x = k
    · exact hxk ▸ mem_of_getElem? e.ticket
    · rw [hother x hxk] at hx
      rcases e.tickets with ht | ht <;> simp [ht, h.mem x hx]

/-- An item that may enter its filter at once does not touch the array. -/
theorem Represents.enterNow {k i : Nat} {p : Place} (h : Represents c g f b content)
    (e : Enter c g g' f k i p) (hp : p ≠ .parked f)
    (hinfo : ∀ info, info.object ≠ k → InfoOk c g info → InfoOk c g' info) :
    Represents c g' f b content where
  holds := by
    rw [e.low]
    exact h.holds
  isOrdered := h.isOrdered
  sound := by
    intro i' info hi
    obtain ⟨h₁, h₂, h₃⟩ := h.sound i' info hi
    have hne : info.object ≠ k := by
      rintro heq
      rw [heq, e.before] at h₂
      cases h₂
    refine ⟨e.getElem?_of_some h₁, ?_, hinfo info hne h₃⟩
    rw [e.place, update_of_ne hne, h₂]
  complete := by
    intro i' x hx hpark
    have hne : x ≠ k := by
      rintro rfl
      rw [e.place, update_self] at hpark
      exact hp hpark
    rw [e.place, update_of_ne hne] at hpark
    exact h.complete i' x (e.getElem? hne hx) hpark

/-- An item that has to wait is stored under its ticket. -/
theorem Represents.enterLater {k i : Nat} {b' : InputBuffer} {info : TaskInfo}
    (h : Represents c g f b content) (e : Enter c g g' f k i (.parked f))
    (hroom : Holds c.tokenBits b' (g.low f) content) (hord : b'.isOrdered = b.isOrdered)
    (hfit : i < g.low f + b'.arraySize) (hobj : info.object = k) (hv : info.isValid = true)
    (hok : InfoOk c g' info)
    (hinfo : ∀ info, info.object ≠ k → InfoOk c g info → InfoOk c g' info) :
    Represents c g' f (b'.store (i % 2 ^ c.tokenBits) info)
      (update content i (some info)) where
  holds := by
    rw [e.low]
    exact hroom.store (e.parked.mp rfl) hfit hv
  isOrdered := hord.trans h.isOrdered
  sound := by
    intro i' info' hi
    by_cases hii : i' = i
    · subst hii
      rw [update_self, Option.some.injEq] at hi
      subst hi
      exact ⟨hobj ▸ e.ticket, by rw [e.place, hobj, update_self], hok⟩
    · rw [update_of_ne hii] at hi
      obtain ⟨h₁, h₂, h₃⟩ := h.sound i' info' hi
      have hne : info'.object ≠ k := by
        rintro heq
        rw [heq, e.before] at h₂
        cases h₂
      refine ⟨e.getElem?_of_some h₁, ?_, hinfo info' hne h₃⟩
      rw [e.place, update_of_ne hne, h₂]
  complete := by
    intro i' x hx hpark
    by_cases hii : i' = i
    · simp [hii]
    · rw [update_of_ne hii]
      have hne : x ≠ k := by
        rintro rfl
        exact hii (ticket_unique e.nodup hx e.ticket)
      rw [e.place, update_of_ne hne] at hpark
      exact h.complete i' x (e.getElem? hne hx) hpark

theorem TicketInv.ticket_low (h : TicketInv c g f) {k : Nat}
    (hrank : (g.place k).rank c = 2 * f + 1) (hpark : g.place k ≠ .parked f) :
    (g.tickets c f)[g.low f]? = some k := by
  obtain ⟨i, hi⟩ := mem_iff_getElem?.mp (h.mem k (le_of_eq hrank.symm))
  have h₁ := h.passed i k hi
  have h₂ := h.parked i k hi hrank
  have h₃ : ¬ g.low f < i := fun hlt => hpark (h₂.mpr hlt)
  obtain rfl : i = g.low f := by omega
  exact hi

theorem TicketInv.unique (h : TicketInv c g f) {k k' : Nat}
    (hrank : (g.place k).rank c = 2 * f + 1) (hpark : g.place k ≠ .parked f)
    (hrank' : (g.place k').rank c = 2 * f + 1) (hpark' : g.place k' ≠ .parked f) : k = k' :=
  Option.some.inj ((h.ticket_low hrank hpark).symm.trans (h.ticket_low hrank' hpark'))

/-- The ghost state after item `k` has passed filter `f` and the item of the
next ticket, if it was parked, has been woken. -/
def Ghost.release (g : Ghost) (f k : Nat) (wakee : Option Nat) : Ghost :=
  { g with
    place := match wakee with
      | none => update g.place k (.entering (f + 1))
      | some j => update (update g.place k (.entering (f + 1))) j (.ready f)
    low := update g.low f (g.low f + 1) }

theorem Ghost.release_tickets (g : Ghost) (f k : Nat) (wakee : Option Nat) (h : Nat) :
    (g.release f k wakee).tickets c h = g.tickets c h := rfl

theorem Ghost.release_low (g : Ghost) (f k : Nat) (wakee : Option Nat) :
    (g.release f k wakee).low f = g.low f + 1 := update_self _ _ _

/-- What is known when an item leaves filter `f`. -/
structure Leaving (c : Chain) (g : Ghost) (f k : Nat) (wakee : Option Nat) : Prop where
  ticket : (g.tickets c f)[g.low f]? = some k
  nodup : (g.tickets c f).Nodup
  wake : ∀ j, wakee = some j →
    (g.tickets c f)[g.low f + 1]? = some j ∧ g.place j = .parked f
  noWake : wakee = none → ∀ j, (g.tickets c f)[g.low f + 1]? = some j → g.place j ≠ .parked f

variable {k : Nat} {wakee : Option Nat}

theorem Leaving.wake_ne (l : Leaving c g f k wakee) {j : Nat} (h : wakee = some j) : j ≠ k := by
  rintro rfl
  have := ticket_unique l.nodup l.ticket (l.wake _ h).1
  omega

theorem Leaving.place_self (l : Leaving c g f k wakee) :
    (g.release f k wakee).place k = .entering (f + 1) := by
  cases hw : wakee with
  | none => exact update_self _ _ _
  | some j =>
    simp only [release]
    rw [update_of_ne (l.wake_ne hw).symm, update_self]

theorem Leaving.place_wake {j : Nat} (h : wakee = some j) :
    (g.release f k wakee).place j = .ready f := by
  subst h
  exact update_self _ _ _

theorem Leaving.place_other {x : Nat} (hx : x ≠ k) (hw : wakee ≠ some x) :
    (g.release f k wakee).place x = g.place x := by
  cases h : wakee with
  | none => exact update_of_ne hx _ _
  | some j =>
    simp only [release]
    rw [update_of_ne (by rintro rfl; exact hw h), update_of_ne hx]

theorem TicketInv.release (h : TicketInv c g f) (l : Leaving c g f k wakee) :
    TicketInv c (g.release f k wakee) f := by
  have hlen : g.low f < (g.tickets c f).length := (List.getElem?_eq_some_iff.mp l.ticket).1
  constructor
  · rw [release_low, release_tickets]
    exact hlen
  · intro i x hx
    rw [release_low]
    rw [release_tickets] at hx
    by_cases hxk : x = k
    · subst hxk
      obtain rfl := ticket_unique l.nodup l.ticket hx
      rw [l.place_self]
      simp only [Place.rank]
      omega
    · by_cases hxw : wakee = some x
      · obtain rfl := ticket_unique l.nodup (l.wake x hxw).1 hx
        rw [Leaving.place_wake hxw]
        simp only [Place.rank]
        omega
      · rw [Leaving.place_other hxk hxw]
        have hne : i ≠ g.low f := by
          rintro rfl
          exact hxk (Option.some.inj (hx.symm.trans l.ticket))
        have := h.passed i x hx
        omega
  · intro i x hx hrank
    rw [release_low]
    rw [release_tickets] at hx
    by_cases hxk : x = k
    · subst hxk
      rw [l.place_self] at hrank
      simp only [Place.rank] at hrank
      omega
    · by_cases hxw : wakee = some x
      · obtain rfl := ticket_unique l.nodup (l.wake x hxw).1 hx
        rw [Leaving.place_wake hxw]
        simp
      · rw [Leaving.place_other hxk hxw] at hrank ⊢
        have hiff := h.parked i x hx hrank
        have hne : i = g.low f + 1 → g.place x ≠ .parked f := by
          rintro rfl
          cases hw : wakee with
          | none => exact l.noWake hw x hx
          | some j =>
            exact absurd (hw.trans (congrArg some (Option.some.inj
              ((l.wake j hw).1.symm.trans hx)))) hxw
        constructor
        · intro hp
          have := hiff.mp hp
          have : i ≠ g.low f + 1 := fun he => hne he hp
          omega
        · exact fun hlt => hiff.mpr (by omega)
  · intro x hx
    rw [release_tickets]
    by_cases hxk : x = k
    · exact hxk ▸ mem_of_getElem? l.ticket
    · by_cases hxw : wakee = some x
      · exact mem_of_getElem? (l.wake x hxw).1
      · rw [Leaving.place_other hxk hxw] at hx
        exact h.mem x hx

theorem InfoOk.release {info : TaskInfo} (h : InfoOk c g info) :
    InfoOk c (g.release f k wakee) info :=
  ⟨h.ready, h.notReady⟩

/-- Advancing `low_token` wakes the item that is parked under the next ticket. -/
theorem Represents.release {wakeInfo : TaskInfo} {b' : InputBuffer}
    (h : Represents c g f b content) (ht : TicketInv c g f) (hn : (g.tickets c f).Nodup)
    (hk : g.place k = .releasing f) (hnext : b.nextToken c.tokenBits = (wakeInfo, b')) :
    let wakee := if wakeInfo.isValid then some wakeInfo.object else none
    Leaving c g f k wakee ∧
      Represents c (g.release f k wakee) f b'
        (update content (g.low f + 1) none) ∧
      (wakeInfo.isValid = true → InfoOk c g wakeInfo) := by
  obtain ⟨hholds, hcontent, _, hord⟩ := h.holds.nextToken hnext
  have hticket : (g.tickets c f)[g.low f]? = some k :=
    ht.ticket_low (by rw [hk]; rfl) (by rw [hk]; simp)
  have hwake : ∀ j, (if wakeInfo.isValid then some wakeInfo.object else none) = some j →
      content (g.low f + 1) = some wakeInfo ∧ wakeInfo.object = j := by
    intro j hj
    split at hj
    · rename_i hv
      exact ⟨by simpa [hv] using hcontent, by simpa using hj⟩
    · cases hj
  have l : Leaving c g f k (if wakeInfo.isValid then some wakeInfo.object else none) := by
    refine ⟨hticket, hn, fun j hj => ?_, fun hj j hticket' hpark => ?_⟩
    · obtain ⟨hc, rfl⟩ := hwake j hj
      obtain ⟨h₁, h₂, _⟩ := h.sound _ _ hc
      exact ⟨h₁, h₂⟩
    · refine h.complete _ j hticket' hpark ?_
      split at hj
      · cases hj
      · rename_i hv
        simpa [hv] using hcontent
  refine ⟨l, ⟨?_, hord.trans h.isOrdered, fun i info hi => ?_, fun i x hx hpark => ?_⟩,
    fun hv => ?_⟩
  · rw [release_low]
    exact hholds
  · have hne : i ≠ g.low f + 1 := by
      rintro rfl
      simp at hi
    rw [update_of_ne hne] at hi
    obtain ⟨h₁, h₂, h₃⟩ := h.sound i info hi
    have hk' : info.object ≠ k := by
      rintro heq
      rw [heq, hk] at h₂
      cases h₂
    refine ⟨h₁, ?_, h₃.release⟩
    rw [Leaving.place_other hk', h₂]
    intro hw
    obtain ⟨h₄, _⟩ := l.wake _ hw
    exact hne (ticket_unique hn h₁ h₄)
  · rw [release_tickets] at hx
    have hxk : x ≠ k := by
      rintro rfl
      rw [l.place_self] at hpark
      cases hpark
    have hxw : (if wakeInfo.isValid then some wakeInfo.object else none) ≠ some x := by
      intro hw
      rw [Leaving.place_wake hw] at hpark
      cases hpark
    rw [Leaving.place_other hxk hxw] at hpark
    have hne : i ≠ g.low f + 1 := by
      rintro rfl
      cases hw : (if wakeInfo.isValid then some wakeInfo.object else none) with
      | none => exact l.noWake hw x hx hpark
      | some j =>
        exact hxw (hw.trans (congrArg some (Option.some.inj
          ((l.wake j hw).1.symm.trans hx))))
    rw [update_of_ne hne]
    exact h.complete i x hx hpark
  · exact (h.sound _ _ (hwake wakeInfo.object (by simp [hv])).1).2.2

end OneTbb.Pipeline
