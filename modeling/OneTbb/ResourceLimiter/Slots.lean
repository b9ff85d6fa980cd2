import OneTbb.ResourceLimiter.Body
import OneTbb.ResourceLimiter.Serving

/-!
# Where each part of a request is

A request has one part for each consumer of its node. The slot of a part says
whether a limiter has it pending or notified, whether a thread is to deliver its
notification, and whether it holds a handle. `Tracked` says that the lists of the
limiters and the notifications of the threads follow the slots.
-/

namespace OneTbb.ResourceLimiter

open Selection

inductive Slot where
  | absent
  | pending
  /-- notified by the limiter, the notification is not delivered yet -/
  | offered
  | notified
  /-- the handle is with the thread, not yet in the request -/
  | fetched
  | held
  deriving DecidableEq

/-- The limiter knows the part. -/
def Slot.isAsked : Slot → Bool
  | .pending | .offered | .notified => true
  | _ => false

/-- The part still counts in `notify_counter`. -/
def Slot.isOpen : Slot → Bool
  | .pending | .offered => true
  | _ => false

/-- The part owns a handle of its limiter. -/
def Slot.hasHandle : Slot → Bool
  | .fetched | .held => true
  | _ => false

/-- The slots of all parts of all requests. -/
abbrev Slots := Nat × Nat → Nat → Slot

variable {H : Type} {g : Graph H} {s s' : Shared H} {slots slots' : Slots} {x : ConsumerData}

/-- The request is in `m_requests`. -/
def Registered (s : Shared H) (r : Ref) : Prop :=
  ∃ d, s.requests r.key = some d ∧ d.id = r.id

/-- The part `x` of a registered request is in the slot `σ`. -/
structure Entry (g : Graph H) (s : Shared H) (slots : Slots) (σ : Slot) (x : ConsumerData) :
    Prop where
  registered : Registered s x.ref
  index : x.consumer.2 < g.size x.consumer.1
  slot : slots x.ref.key x.consumer.2 = σ

theorem Ref.data_ref (r : Ref) (i : Nat) : (r.data i).ref = r := rfl

theorem ConsumerData.data_ref (x : ConsumerData) : x.ref.data x.consumer.2 = x := rfl

/-- The notifications still to be delivered. -/
def deliveries (threads : List (Thread H)) : List ConsumerData :=
  threads.flatMap Thread.notifications

structure Tracked (g : Graph H) (s : Shared H) (threads : List (Thread H)) (slots : Slots) :
    Prop where
  pending : ∀ p x, x ∈ (s.limiters p).pending ↔
    Entry g s slots .pending x ∧ g.limiterOf x.consumer = p
  notified : ∀ p x, x ∈ (s.limiters p).notified ↔
    (Entry g s slots .offered x ∨ Entry g s slots .notified x) ∧ g.limiterOf x.consumer = p
  offered : ∀ x, x ∈ deliveries threads ↔ Entry g s slots .offered x
  nodupPending : ∀ p, (s.limiters p).pending.Nodup
  nodupNotified : ∀ p, (s.limiters p).notified.Nodup
  nodupOffered : (deliveries threads).Nodup

theorem Registered.unique {r r' : Ref} (h : Registered s r) (h' : Registered s r')
    (hk : r.key = r'.key) : r = r' := by
  obtain ⟨d, hd, hid⟩ := h
  obtain ⟨d', hd', hid'⟩ := h'
  rw [hk, hd'] at hd
  cases hd
  have hnode : r.node = r'.node := congrArg Prod.fst hk
  cases r
  cases r'
  simp only at hnode hid hid'
  rw [hnode, ← hid, hid']

/-- Registered parts that a limiter takes to be the same are the same. -/
theorem Registered.eq_of_same {y : ConsumerData} (h : Registered s x.ref)
    (h' : Registered s y.ref) (hs : y.same x = true) : y = x := by
  simp only [ConsumerData.same, decide_eq_true_eq] at hs
  obtain ⟨hu, hc⟩ := hs
  have hkey : y.ref.key = x.ref.key := by
    simp only [Ref.key, ConsumerData.ref, hu, hc]
  have href := h'.unique h hkey
  rw [← y.data_ref, ← x.data_ref, href, hc]

theorem Tracked.same_notified {threads : List (Thread H)} (h : Tracked g s threads slots) {p : Nat}
    (hx : x ∈ (s.limiters p).notified) :
    ∀ y ∈ (s.limiters p).notified, y.same x = true → y = x := by
  intro y hy hs
  have registered : ∀ z ∈ (s.limiters p).notified, Registered s z.ref := by
    intro z hz
    obtain ⟨hz | hz, _⟩ := (h.notified p z).mp hz
    · exact hz.registered
    · exact hz.registered
  exact (registered x hx).eq_of_same (registered y hy) hs

/-! ## Changing a slot -/

/-- The slots after the part `x` has moved and pending parts have been offered. -/
def Slots.move (slots : Slots) (x : ConsumerData) (σ : Slot) (moved : List ConsumerData) : Slots :=
  fun k i =>
    if k = x.ref.key ∧ i = x.consumer.2 then σ
    else if ∃ y ∈ moved, y.ref.key = k ∧ y.consumer.2 = i then .offered
    else slots k i

theorem Slots.move_self (σ : Slot) (moved : List ConsumerData) :
    slots.move x σ moved x.ref.key x.consumer.2 = σ := by
  simp [Slots.move]

/-- What a step does to the lists of limiter `p` and to the deliveries when the
part `x` moves to the slot `σ` and the parts `moved` are offered. -/
structure Moves (g : Graph H) (s s' : Shared H) (threads threads' : List (Thread H))
    (slots : Slots) (x : ConsumerData) (σ : Slot) (moved : List ConsumerData) : Prop where
  registered : ∀ r, Registered s' r ↔ Registered s r
  self : Registered s x.ref
  index : x.consumer.2 < g.size x.consumer.1
  others : ∀ p, p ≠ g.limiterOf x.consumer → s'.limiters p = s.limiters p
  movable : ∀ y ∈ moved, y ≠ x ∧ y ∈ (s.limiters (g.limiterOf x.consumer)).pending
  pending : ∀ y, y ∈ (s'.limiters (g.limiterOf x.consumer)).pending ↔
    y ≠ x ∧ y ∉ moved ∧ y ∈ (s.limiters (g.limiterOf x.consumer)).pending ∨ y = x ∧ σ = .pending
  notified : ∀ y, y ∈ (s'.limiters (g.limiterOf x.consumer)).notified ↔
    y ≠ x ∧ (y ∈ moved ∨ y ∈ (s.limiters (g.limiterOf x.consumer)).notified) ∨
      y = x ∧ (σ = .offered ∨ σ = .notified)
  offered : ∀ y, y ∈ deliveries threads' ↔
    y ≠ x ∧ (y ∈ moved ∨ y ∈ deliveries threads) ∨ y = x ∧ σ = .offered
  nodupPending : (s'.limiters (g.limiterOf x.consumer)).pending.Nodup
  nodupNotified : (s'.limiters (g.limiterOf x.consumer)).notified.Nodup
  nodupOffered : (deliveries threads').Nodup

variable {threads threads' : List (Thread H)} {σ : Slot} {moved : List ConsumerData}

/-- A part is determined by the key and the position it is stored under. -/
theorem eq_of_key {y : ConsumerData} (hx : Registered s x.ref) (hy : Registered s y.ref)
    (hk : y.ref.key = x.ref.key) (hi : y.consumer.2 = x.consumer.2) : y = x := by
  rw [← y.data_ref, ← x.data_ref, hy.unique hx hk, hi]

theorem Moves.entry_iff (h : Tracked g s threads slots)
    (m : Moves g s s' threads threads' slots x σ moved) {y : ConsumerData} {τ : Slot} :
    Entry g s' (slots.move x σ moved) τ y ↔
      y = x ∧ σ = τ ∨ y ≠ x ∧ y ∈ moved ∧ τ = .offered ∨
        y ≠ x ∧ y ∉ moved ∧ Entry g s slots τ y := by
  by_cases hyx : y = x
  · subst hyx
    constructor
    · intro he
      have := he.slot
      rw [Slots.move_self] at this
      exact .inl ⟨rfl, this⟩
    · rintro (⟨_, rfl⟩ | ⟨hne, _⟩ | ⟨hne, _⟩)
      · exact ⟨(m.registered _).mpr m.self, m.index, Slots.move_self _ _⟩
      · exact absurd rfl hne
      · exact absurd rfl hne
  · have hother : Registered s y.ref →
        ¬ (y.ref.key = x.ref.key ∧ y.consumer.2 = x.consumer.2) :=
      fun hr ⟨hk, hi⟩ => hyx (eq_of_key m.self hr hk hi)
    by_cases hmoved : y ∈ moved
    · have hentry := ((h.pending _ y).mp (m.movable y hmoved).2).1
      have hslot : slots.move x σ moved y.ref.key y.consumer.2 = .offered := by
        simp only [Slots.move]
        rw [if_neg (hother hentry.registered), if_pos ⟨y, hmoved, rfl, rfl⟩]
      constructor
      · intro he
        exact .inr (.inl ⟨hyx, hmoved, he.slot.symm.trans hslot⟩)
      · rintro (⟨heq, _⟩ | ⟨_, _, rfl⟩ | ⟨_, hno, _⟩)
        · exact absurd heq hyx
        · exact ⟨(m.registered _).mpr hentry.registered, hentry.index, hslot⟩
        · exact absurd hmoved hno
    · have hslot : Registered s y.ref →
          slots.move x σ moved y.ref.key y.consumer.2 = slots y.ref.key y.consumer.2 := by
        intro hr
        simp only [Slots.move]
        rw [if_neg (hother hr), if_neg]
        rintro ⟨z, hz, hk, hi⟩
        have hzr := ((h.pending _ z).mp (m.movable z hz).2).1.registered
        exact hmoved (eq_of_key hr hzr hk hi ▸ hz)
      constructor
      · intro he
        have hr := (m.registered _).mp he.registered
        exact .inr (.inr ⟨hyx, hmoved, hr, he.index, (hslot hr).symm.trans he.slot⟩)
      · rintro (⟨heq, _⟩ | ⟨_, hin, _⟩ | ⟨_, _, he⟩)
        · exact absurd heq hyx
        · exact absurd hin hmoved
        · exact ⟨(m.registered _).mpr he.registered, he.index,
            (hslot he.registered).trans he.slot⟩

/-- The lists follow the slots through a move. -/
theorem Tracked.move (h : Tracked g s threads slots)
    (m : Moves g s s' threads threads' slots x σ moved) :
    Tracked g s' threads' (slots.move x σ moved) := by
  have hlimiter : ∀ y ∈ moved, g.limiterOf y.consumer = g.limiterOf x.consumer :=
    fun y hy => ((h.pending _ y).mp (m.movable y hy).2).2
  constructor
  case pending =>
    intro p y
    rw [m.entry_iff h]
    by_cases hp : p = g.limiterOf x.consumer
    · subst hp
      rw [m.pending, h.pending]
      constructor
      · rintro (⟨h₁, h₂, h₃, h₄⟩ | ⟨rfl, h₁⟩)
        · exact ⟨.inr (.inr ⟨h₁, h₂, h₃⟩), h₄⟩
        · exact ⟨.inl ⟨rfl, h₁⟩, rfl⟩
      · rintro ⟨⟨rfl, h₁⟩ | ⟨_, _, h₁⟩ | ⟨h₁, h₂, h₃⟩, h₄⟩
        · exact .inr ⟨rfl, h₁⟩
        · cases h₁
        · exact .inl ⟨h₁, h₂, h₃, h₄⟩
    · rw [m.others p hp, h.pending]
      constructor
      · rintro ⟨h₁, h₂⟩
        refine ⟨.inr (.inr ⟨?_, ?_, h₁⟩), h₂⟩
        · rintro rfl
          exact hp h₂.symm
        · intro hy
          exact hp (h₂.symm.trans (hlimiter y hy))
      · rintro ⟨⟨rfl, _⟩ | ⟨_, _, h₁⟩ | ⟨_, _, h₁⟩, h₂⟩
        · exact absurd h₂.symm hp
        · cases h₁
        · exact ⟨h₁, h₂⟩
  case notified =>
    intro p y
    rw [m.entry_iff h, m.entry_iff h]
    by_cases hp : p = g.limiterOf x.consumer
    · subst hp
      rw [m.notified, h.notified]
      constructor
      · rintro (⟨h₁, h₂⟩ | ⟨rfl, h₁⟩)
        · by_cases hm : y ∈ moved
          · exact ⟨.inl (.inr (.inl ⟨h₁, hm, rfl⟩)), hlimiter y hm⟩
          · obtain ⟨h₃, h₄⟩ := h₂.resolve_left hm
            exact ⟨h₃.imp (fun h => .inr (.inr ⟨h₁, hm, h⟩))
              (fun h => .inr (.inr ⟨h₁, hm, h⟩)), h₄⟩
        · exact ⟨h₁.imp (fun h => .inl ⟨rfl, h⟩) (fun h => .inl ⟨rfl, h⟩), rfl⟩
      · rintro ⟨(⟨rfl, h₁⟩ | ⟨h₁, h₂, _⟩ | ⟨h₁, _, h₂⟩) |
          (⟨rfl, h₁⟩ | ⟨_, _, h₁⟩ | ⟨h₁, _, h₂⟩), h₃⟩
        · exact .inr ⟨rfl, .inl h₁⟩
        · exact .inl ⟨h₁, .inl h₂⟩
        · exact .inl ⟨h₁, .inr ⟨.inl h₂, h₃⟩⟩
        · exact .inr ⟨rfl, .inr h₁⟩
        · cases h₁
        · exact .inl ⟨h₁, .inr ⟨.inr h₂, h₃⟩⟩
    · rw [m.others p hp, h.notified]
      constructor
      · rintro ⟨h₁, h₂⟩
        have hyx : y ≠ x := by
          rintro rfl
          exact hp h₂.symm
        have hm : y ∉ moved := fun hy => hp (h₂.symm.trans (hlimiter y hy))
        exact ⟨h₁.imp (fun h => .inr (.inr ⟨hyx, hm, h⟩))
          (fun h => .inr (.inr ⟨hyx, hm, h⟩)), h₂⟩
      · rintro ⟨(⟨rfl, _⟩ | ⟨_, hm, _⟩ | ⟨_, _, h₁⟩) | (⟨rfl, _⟩ | ⟨_, hm, _⟩ | ⟨_, _, h₁⟩), h₂⟩
        · exact absurd h₂.symm hp
        · exact absurd (h₂.symm.trans (hlimiter y hm)) hp
        · exact ⟨.inl h₁, h₂⟩
        · exact absurd h₂.symm hp
        · exact absurd (h₂.symm.trans (hlimiter y hm)) hp
        · exact ⟨.inr h₁, h₂⟩
  case offered =>
    intro y
    rw [m.entry_iff h, m.offered, h.offered]
    constructor
    · rintro (⟨h₁, h₂⟩ | ⟨rfl, h₁⟩)
      · by_cases hm : y ∈ moved
        · exact .inr (.inl ⟨h₁, hm, rfl⟩)
        · exact .inr (.inr ⟨h₁, hm, h₂.resolve_left hm⟩)
      · exact .inl ⟨rfl, h₁⟩
    · rintro (⟨rfl, h₁⟩ | ⟨h₁, h₂, _⟩ | ⟨h₁, _, h₂⟩)
      · exact .inr ⟨rfl, h₁⟩
      · exact .inl ⟨h₁, .inl h₂⟩
      · exact .inl ⟨h₁, .inr h₂⟩
  case nodupPending =>
    intro p
    by_cases hp : p = g.limiterOf x.consumer
    · rw [hp]
      exact m.nodupPending
    · rw [m.others p hp]
      exact h.nodupPending p
  case nodupNotified =>
    intro p
    by_cases hp : p = g.limiterOf x.consumer
    · rw [hp]
      exact m.nodupNotified
    · rw [m.others p hp]
      exact h.nodupNotified p
  case nodupOffered => exact m.nodupOffered

end OneTbb.ResourceLimiter
