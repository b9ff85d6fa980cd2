import OneTbb.Library.Positions
import OneTbb.Library.Transition

/-!
# The spinning reader-writer lock

`spin_rw_mutex` keeps one word: bit 0 is `WRITER`, bit 1 is `WRITER_PENDING`, and the
bits above count the readers, `ONE_READER = 4` each. Every call is a sequence of atomic
accesses to the word, and between two accesses of a thread the others may do any of
theirs. A reader may count itself while a writer is in, and an upgrade sets `WRITER`
while other readers are in; that no writer ever shares the lock is proved from how many
threads stand where.
-/

namespace OneTbb.SpinRwMutex

/-- `s & WRITER`, on a word of two's complement that does not overflow -/
abbrev Writer (s : Int) : Prop := s % 2 = 1

/-- `s & WRITER_PENDING` -/
abbrev Pending (s : Int) : Prop := s / 2 % 2 = 1

/-- `s & BUSY` -/
abbrev Busy (s : Int) : Prop := Writer s ∨ s / 4 ≠ 0

inductive Call where
  | lock | tryLock | unlock | lockShared | tryLockShared | unlockShared | upgrade | downgrade

/-- Where a thread stands before its next access; `s` is the word as it was loaded, and
`again` tells `lock_shared`, which loops, from `try_lock_shared`. -/
inductive Point where
  | idle
  | lock
  | lockCas (s : { s : Int // ¬ Busy s })
  | lockPending
  | tryCas (s : { s : Int // ¬ Busy s })
  | writing
  | lockShared
  | sharedAdd (again : Bool)
  | sharedUndo (again : Bool)
  | reading
  | upgradeCas (s : Int)
  | upgradeWait
  | upgradeEnd
  deriving DecidableEq, Repr

/-- The next access to the word `w`: what it leaves there, and where the thread then
stands. A thread outside a call makes one; `none` is a call it must not make. -/
def Point.access (w : Int) : Point → Call → Option (Int × Point)
  | .idle, .lock | .lock, _ => some (w, if h : Busy w then
      if Pending w then .lock else .lockPending
    else .lockCas ⟨w, h⟩)
  | .lockCas s, _ => some (if w = s then (1, .writing) else (w, .lock))
  | .lockPending, _ => some (if Pending w then w else w + 2, .lock)
  | .idle, .tryLock => some (w, if h : Busy w then .idle else .tryCas ⟨w, h⟩)
  | .tryCas s, _ => some (if w = s then (1, .writing) else (w, .idle))
  | .writing, .unlock => some (w / 4 * 4, .idle)
  | .writing, .downgrade => some (w + (4 - 1), .reading)
  | .idle, .lockShared | .lockShared, _ =>
    some (w, if Writer w ∨ Pending w then .lockShared else .sharedAdd true)
  | .idle, .tryLockShared => some (w, if Writer w ∨ Pending w then .idle else .sharedAdd false)
  | .sharedAdd again, _ => some (w + 4, if Writer w then .sharedUndo again else .reading)
  | .sharedUndo again, _ => some (w - 4, if again then .lockShared else .idle)
  | .reading, .unlockShared => some (w - 4, .idle)
  | .reading, .upgrade => some (w, .upgradeCas w)
  -- a `compare_exchange_strong` that fails leaves the word it found in `s`
  | .upgradeCas s, _ => some (if s / 4 = 1 ∨ ¬ Pending s then
      if w = s then (w / 4 * 4 + 3, .upgradeWait) else (w, .upgradeCas w)
    else (w - 4, .lock))
  | .upgradeWait, _ => some (w, if w / 4 = 1 then .upgradeEnd else .upgradeWait)
  | .upgradeEnd, _ => some (w - (4 + 2), .writing)
  | _, _ => none

structure State where
  word : Int
  threads : List Point
  deriving DecidableEq, Repr

/-- Thread `e.1` makes its next access. -/
def State.step (s : State) (e : Nat × Call) : Option State := do
  let p ← s.threads[e.1]?
  let (w, q) ← p.access s.word e.2
  some ⟨w, s.threads.set e.1 q⟩

/-- The states that any number of threads reach from a new lock, in any order of their
accesses. -/
def Reachable : State → Prop :=
  Transition.Reachable (fun s => s.word = 0 ∧ ∀ p ∈ s.threads, p = .idle)
    fun s t => ∃ e, s.step e = some t

/-! ## How many threads stand where -/

/-- What a point means for the word: `waits` has set `WRITER` and waits for the readers
to leave, `upgraded` has seen them leave. -/
inductive Kind where
  | outside | asks | undoes | reads | waits | upgraded | writes
  deriving DecidableEq

def Point.kind : Point → Kind
  | .lock | .lockCas _ | .lockPending => .asks
  | .sharedUndo _ => .undoes
  | .reading | .upgradeCas _ => .reads
  | .upgradeWait => .waits
  | .upgradeEnd => .upgraded
  | .writing => .writes
  | _ => .outside

/-- The word `w` when `n k` threads are of kind `k`. An upgrade keeps `WRITER_PENDING`
set, nobody reads beside a writer, and `WRITER_PENDING` is set for somebody. -/
structure Agrees (w : Int) (n : Kind → Nat) : Prop where
  readers : w / 4 = n .undoes + n .reads + n .waits + n .upgraded
  writer : w % 2 = n .waits + n .upgraded + n .writes
  upgrade : 0 < n .waits + n .upgraded → Pending w
  exclusive : 0 < n .upgraded + n .writes → n .reads = 0
  wanted : Pending w → 0 < n .asks + n .waits + n .upgraded

theorem Agrees.access {v w : Int} {p q : Point} {call : Call} {n m : Kind → Nat}
    (h : Agrees w n) (hp : 0 < n p.kind) (haccess : p.access w call = some (v, q))
    (hm : ∀ k, m k + (decide (p.kind = k)).toNat = n k + (decide (q.kind = k)).toNat) :
    Agrees v m := by
  by_cases hstay : v = w ∧ q.kind = p.kind
  · obtain ⟨rfl, hkind⟩ := hstay
    have hsame : m = n := funext fun k => Nat.add_right_cancel (hkind ▸ hm k)
    exact hsame ▸ h
  obtain ⟨hreaders, hwriter, hupgrade, hexclusive, hwanted⟩ := h
  have hasks := hm .asks
  have hundoes := hm .undoes
  have hreads := hm .reads
  have hwaits := hm .waits
  have hupgraded := hm .upgraded
  have hwrites := hm .writes
  clear hm
  unfold Point.access at haccess
  split at haccess
  all_goals (repeat' split at haccess)
  all_goals cases haccess
  all_goals simp [Point.kind] at hstay hp hasks hundoes hreads hwaits hupgraded hwrites
  all_goals constructor <;> omega

def count (threads : List Point) (k : Kind) : Nat := threads.countP (·.kind = k)

variable {s t : State} {i j : Nat} {p : Point} {threads : List Point}

theorem count_pos (hp : threads[i]? = some p) : 0 < count threads p.kind :=
  List.countP_pos_iff.mpr ⟨p, List.mem_of_getElem? hp, decide_eq_true rfl⟩

theorem count_eq_zero {ks : List Kind} (hks : ∀ p ∈ threads, p.kind ∈ ks) (k : Kind)
    (hk : k ∉ ks) : count threads k = 0 :=
  List.countP_eq_zero.mpr fun p hp hpk => hk (of_decide_eq_true hpk ▸ hks p hp)

theorem count_set (hp : threads[i]? = some p) (q : Point) (k : Kind) :
    count (threads.set i q) k + (decide (p.kind = k)).toNat =
      count threads k + (decide (q.kind = k)).toNat :=
  Positions.countP_set _ hp q

theorem agrees_step {e : Nat × Call} (h : Agrees s.word (count s.threads))
    (hstep : s.step e = some t) : Agrees t.word (count t.threads) := by
  obtain ⟨p, hp, hrest⟩ := Option.bind_eq_some_iff.mp hstep
  obtain ⟨⟨w, q⟩, haccess, heq⟩ := Option.bind_eq_some_iff.mp hrest
  cases heq
  exact h.access (count_pos hp) haccess (count_set hp q)

theorem agrees_of_reachable (h : Reachable s) : Agrees s.word (count s.threads) := by
  obtain ⟨s₀, ⟨hword, hidle⟩, run⟩ := h
  refine Transition.run_preserves (P := fun s => Agrees s.word (count s.threads))
    (fun _ _ h ⟨_, he⟩ => agrees_step h he) run ?_
  have hks : ∀ p ∈ s₀.threads, p.kind ∈ [Kind.outside] := by
    intro p hp
    rw [hidle p hp]
    decide
  constructor <;> simp [count_eq_zero hks, hword]

/-! ## What callers rely on -/

/-- Whether a thread has the lock, for reading or writing. An `upgrade` keeps it up to
the slow path. -/
def Point.holds (p : Point) : Bool := p.kind ∈ [.reads, .waits, .upgraded, .writes]

/-- Beside a writer no other thread has the lock. -/
theorem writer_excludes_others (h : Reachable s) (hi : s.threads[i]? = some .writing)
    (hj : s.threads[j]? = some p) (hne : i ≠ j) : p.holds = false := by
  by_contra hp
  obtain ⟨-, hwriter, -, hexclusive, -⟩ := agrees_of_reachable h
  -- the threads beside the writer
  have hpos : 0 < count (s.threads.set i .idle) p.kind :=
    count_pos (i := j) (by rwa [List.getElem?_set_ne hne])
  have hwrites := count_set hi .idle .writes
  have hother := count_set hi .idle p.kind
  simp only [Point.holds, List.mem_cons, decide_eq_false_iff_not, not_not, List.not_mem_nil,
    or_false] at hp
  obtain hk | hk | hk | hk := hp
  all_goals
    rw [hk] at hpos hother
    simp [Point.kind] at hwrites hother
    omega

theorem reachable_of_foldlM (events : List (Nat × Call))
    (h : events.foldlM State.step ⟨0, [.idle, .idle]⟩ = some s) : Reachable s :=
  ⟨_, ⟨rfl, by decide⟩, Transition.run_of_foldlM h⟩

/-- The second thread has counted itself although the first one writes. -/
theorem writer_excludes_others_undo : Reachable ⟨5, [.writing, .sharedUndo true]⟩ ∧
    (Point.sharedUndo true).holds = false := by
  have h := reachable_of_foldlM (s := ⟨5, [.writing, .sharedUndo true]⟩)
    [(1, .lockShared), (0, .lock), (0, .lock), (1, .lockShared)] rfl
  exact ⟨h, writer_excludes_others h (i := 0) (j := 1) rfl rfl (by decide)⟩

/-- Between calls the word counts the readers and the writer and nothing else: no flag
is left behind, and a lock that nobody has may be destroyed. -/
theorem word_between_calls (h : Reachable s)
    (hbetween : ∀ p ∈ s.threads, p = .idle ∨ p = .reading ∨ p = .writing) :
    s.word = 4 * count s.threads .reads + count s.threads .writes := by
  obtain ⟨hreaders, hwriter, -, -, hwanted⟩ := agrees_of_reachable h
  have hks : ∀ p ∈ s.threads, p.kind ∈ [Kind.outside, .reads, .writes] := by
    intro p hp
    obtain rfl | rfl | rfl := hbetween p hp <;> decide
  simp [count_eq_zero hks] at hreaders hwriter hwanted
  omega

theorem word_between_calls_reading : Reachable ⟨8, [.reading, .reading]⟩ ∧
    (8 : Int) = 4 * count [.reading, .reading] .reads + count [.reading, .reading] .writes := by
  have h := reachable_of_foldlM (s := ⟨8, [.reading, .reading]⟩)
    [(0, .lockShared), (1, .lockShared), (0, .lockShared), (1, .lockShared)] rfl
  exact ⟨h, word_between_calls h (by decide)⟩

/-- A thread stands at `p` after its next two accesses. -/
def State.Gets (s : State) (i : Nat) (call : Call) (p : Point) : Prop :=
  ∃ t u, s.step (i, call) = some t ∧ t.step (i, call) = some u ∧ u.threads[i]? = some p

theorem State.gets {q r : Point} {v w : Int} {call : Call} (hi : s.threads[i]? = some p)
    (hfirst : p.access s.word call = some (v, q)) (hsecond : q.access v call = some (w, r)) :
    s.Gets i call r := by
  have hlt := (List.getElem?_eq_some_iff.mp hi).1
  refine ⟨⟨v, s.threads.set i q⟩, ⟨w, (s.threads.set i q).set i r⟩, ?_, ?_, ?_⟩
  · simp [step, hi, hfirst]
  · simp [step, hlt, hsecond]
  · simp [hlt]

/-- Nobody waits without a reason: `lock` gets a lock that is free, and `lock_shared` one
that no writer has or waits for. -/
theorem lock_granted (h : Reachable s) :
    (s.threads[i]? = some .lock → (∀ p ∈ s.threads, p.kind ∈ [Kind.outside, .asks]) →
      s.Gets i .lock .writing) ∧
    (s.threads[i]? = some .lockShared →
      (∀ p ∈ s.threads, p.kind ∈ [Kind.outside, .undoes, .reads]) →
      s.Gets i .lockShared .reading) := by
  obtain ⟨hreaders, hwriter, -, -, hwanted⟩ := agrees_of_reachable h
  constructor
  · intro hi hks
    simp [count_eq_zero hks] at hreaders hwriter
    have hfree : ¬ Busy s.word := by omega
    apply State.gets hi (q := .lockCas ⟨s.word, hfree⟩)
    · rw [Point.access, dif_neg hfree]
    · rw [Point.access, if_pos rfl]
  · intro hi hks
    simp [count_eq_zero hks] at hwriter hwanted
    apply State.gets hi (q := .sharedAdd true)
    · rw [Point.access, if_neg (by omega)]
    · rw [Point.access, if_neg (by omega)]

theorem lock_granted_pending : Reachable ⟨2, [.lock, .idle]⟩ ∧
    State.Gets ⟨2, [.lock, .idle]⟩ 0 .lock .writing := by
  have h := reachable_of_foldlM (s := ⟨2, [.lock, .idle]⟩) [(1, .lock), (1, .lock), (0, .lock),
    (1, .unlock), (0, .lock)] rfl
  exact ⟨h, (lock_granted h).1 rfl (by decide)⟩

/-- Each assertion of the code holds: a reader is counted, and an upgrade has both flags. -/
theorem assertions_hold (h : Reachable s) (hi : s.threads[i]? = some p) :
    (p.kind = .reads → s.word / 4 ≠ 0) ∧ (p = .upgradeEnd → Writer s.word ∧ Pending s.word) := by
  obtain ⟨hreaders, hwriter, hupgrade, -, -⟩ := agrees_of_reachable h
  have hpos := count_pos hi
  constructor
  · intro hp
    rw [hp] at hpos
    omega
  · rintro rfl
    simp only [Point.kind] at hpos
    omega

/-- Of two readers one leaves while the other upgrades. -/
theorem assertions_hold_upgradeEnd : Reachable ⟨7, [.upgradeEnd, .idle]⟩ ∧ Writer 7 ∧ Pending 7 := by
  have h := reachable_of_foldlM (s := ⟨7, [.upgradeEnd, .idle]⟩)
    [(0, .lockShared), (1, .lockShared), (0, .lockShared), (1, .lockShared), (0, .upgrade),
      (0, .upgrade), (1, .unlockShared), (0, .upgrade)] rfl
  exact ⟨h, (assertions_hold h (i := 0) rfl).2 rfl⟩

end OneTbb.SpinRwMutex
