import OneTbb.ResourceLimiter.Slots

/-!
# What a thread knows about the request it runs

At each point a thread knows the slots of the parts of its request, up to the
progress limiters and other threads make with the parts that are asked for, and
how far `notify_counter` is ahead of the parts that are still open. A request
that no thread runs waits for a notification.
-/

namespace OneTbb.ResourceLimiter

open List Option

open Selection

variable {H : Type} {g : Graph H} {s s' : Shared H} {slots slots' : Slots}

/-- The request a job is about. -/
def Job.ref : Job H → Ref
  | .requesting r _ | .task r | .starting r | .acquiring r _ | .asking r _ | .granted r _ _
  | .denied r _ | .returning r _ _ | .reasking r _ _ | .rerequesting r _ _
  | .rerequestingDenied r _ | .selfRef r | .body r | .finishing r _ | .withdrawing r _ => r

/-- The positions in a job are positions of a tuple of `n` consumers. -/
def Job.InBounds (n : Nat) : Job H → Prop
  | .requesting _ i | .acquiring _ i | .finishing _ i | .withdrawing _ i => i ≤ n
  | .asking _ i | .granted _ i _ | .denied _ i | .rerequestingDenied _ i => i < n
  | .returning _ d j => j ≤ d ∧ d < n
  | .reasking _ d j | .rerequesting _ d j => j < d ∧ d < n
  | _ => True

/-- What is known about a slot: that the part is asked for, or the slot. -/
inductive Knowledge where
  | asked
  | exactly (σ : Slot)

/-- Knowledge is kept to slots only their owner changes. -/
def Knowledge.Holds : Knowledge → Slot → Prop
  | .asked, σ => σ.isAsked = true
  | .exactly τ, σ => σ = τ ∧ τ.isOpen = false

/-- What a thread knows about the part at position `i`. -/
def Job.knows : Job H → Nat → Knowledge
  | .requesting _ i₀, i => if i < i₀ then .asked else .exactly .absent
  | .task _, _ | .starting _, _ => .exactly .notified
  | .acquiring _ i₀, i | .asking _ i₀, i => if i < i₀ then .exactly .held else .exactly .notified
  | .granted _ i₀ _, i =>
    if i < i₀ then .exactly .held else if i = i₀ then .exactly .fetched else .exactly .notified
  | .denied _ i₀, i =>
    if i < i₀ then .exactly .held else if i = i₀ then .exactly .absent else .exactly .notified
  | .returning _ d j, i =>
    if i < j then .exactly .held else if i < d then .asked
    else if i = d then .exactly .absent else .exactly .notified
  | .reasking _ d j, i | .rerequesting _ d j, i =>
    if i < j then .exactly .held else if i = j then .exactly .absent else if i < d then .asked
    else if i = d then .exactly .absent else .exactly .notified
  | .rerequestingDenied _ d, i =>
    if i < d then .asked else if i = d then .exactly .absent else .exactly .notified
  | .selfRef _, _ => .asked
  | .body _, _ => .exactly .held
  | .finishing _ j, i => if i < j then .exactly .held else .exactly .absent
  | .withdrawing _ i₀, i => if i < i₀ then .exactly .absent else .exactly .notified

/-- How far the counter is ahead of the open parts: the self reference and the
parts that are counted but not requested yet. -/
def Job.ahead (n : Nat) : Job H → Nat
  | .requesting _ i => 1 + (n - i)
  | .acquiring _ _ | .returning _ _ _ | .reasking _ _ _ | .selfRef _ => 1
  | .asking _ _ | .granted _ _ _ | .denied _ _ | .rerequesting _ _ _
  | .rerequestingDenied _ _ => 2
  | .task _ | .starting _ | .body _ | .finishing _ _ | .withdrawing _ _ => 0

/-- The number of open parts of a request. -/
def openCount (slots : Slots) (k : Nat × Nat) (n : Nat) : Nat :=
  (range n).countP fun i => (slots k i).isOpen

/-- What holds of the data of a request while the counter is ahead by `ahead`. -/
structure DataOk (slots : Slots) (k : Nat × Nat) (n ahead : Nat) (d : RequestData H) : Prop where
  counter : d.notifyCounter = ahead + openCount slots k n
  handles : ∀ i, i < n → slots k i = .held → (d.handles i).isSome = true

structure JobOk (g : Graph H) (s : Shared H) (slots : Slots) (j : Job H) : Prop where
  bounds : j.InBounds (g.size j.ref.node)
  knows : ∀ i, i < g.size j.ref.node → (j.knows i).Holds (slots j.ref.key i)
  data : ∃ d, s.requests j.ref.key = some d ∧ d.id = j.ref.id ∧
    DataOk slots j.ref.key (g.size j.ref.node) (j.ahead (g.size j.ref.node)) d

/-- A request that waits for a notification. -/
structure Waiting (g : Graph H) (slots : Slots) (k : Nat × Nat) (d : RequestData H) : Prop where
  asked : ∀ i, i < g.size k.1 → (slots k i).isAsked = true
  data : DataOk slots k (g.size k.1) 0 d
  open_pos : 0 < openCount slots k (g.size k.1)

/-- The requests that are run by threads. -/
def owners (threads : List (Thread H)) : List (Nat × Nat) :=
  threads.filterMap fun t => t.job.map fun j => j.ref.key

structure Phases (g : Graph H) (s : Shared H) (threads : List (Thread H)) (slots : Slots) :
    Prop where
  jobs : ∀ t ∈ threads, ∀ j, t.job = some j → JobOk g s slots j
  nodup : (owners threads).Nodup
  waiting : ∀ k d, s.requests k = some d → k ∉ owners threads → Waiting g slots k d

/-! ## Slots that others change -/

/-- The slot is unchanged, or the limiter has offered a pending part. -/
def Later (σ σ' : Slot) : Prop := σ' = σ ∨ σ = .pending ∧ σ' = .offered

variable {σ σ' : Slot} {k : Nat × Nat}

theorem Later.isOpen {σ σ' : Slot} (h : Later σ σ') : σ'.isOpen = σ.isOpen := by
  obtain rfl | ⟨rfl, rfl⟩ := h <;> rfl

theorem Later.isAsked (h : Later σ σ') (ha : σ.isAsked = true) :
    σ'.isAsked = true := by
  obtain rfl | ⟨rfl, rfl⟩ := h
  · exact ha
  · rfl

theorem Later.held (h : Later σ σ') (hh : σ' = .held) : σ = .held := by
  obtain rfl | ⟨rfl, rfl⟩ := h
  · exact hh
  · cases hh

theorem Knowledge.Holds.later {w : Knowledge} (h : w.Holds σ) (hl : Later σ σ') :
    w.Holds σ' := by
  cases w with
  | asked => exact hl.isAsked h
  | exactly τ =>
    obtain ⟨rfl, ho⟩ := h
    obtain rfl | ⟨rfl, rfl⟩ := hl
    · exact ⟨rfl, ho⟩
    · cases ho

theorem openCount_congr {n : Nat} (h : ∀ i, i < n → (slots' k i).isOpen = (slots k i).isOpen) :
    openCount slots' k n = openCount slots k n := by
  apply countP_congr
  intro i hi
  rw [h i (mem_range.mp hi)]

/-- Two tests that agree except at one position. -/
theorem countP_range_except {p q : Nat → Bool} {n i : Nat} (hi : i < n)
    (h : ∀ j, j < n → j ≠ i → p j = q j) :
    (range n).countP p + (q i).toNat = (range n).countP q + (p i).toNat := by
  induction n with
  | zero => omega
  | succ n ih =>
    simp only [range_succ, countP_append, countP_cons, countP_nil]
    obtain hlt | rfl := Nat.lt_succ_iff_lt_or_eq.mp hi
    · have := ih hlt fun j hj hne => h j (Nat.lt_succ_of_lt hj) hne
      rw [h n (Nat.lt_succ_self n) (Nat.ne_of_gt hlt)]
      omega
    · have heq : (range i).countP p = (range i).countP q := by
        apply countP_congr
        intro j hj
        have hj' := mem_range.mp hj
        rw [h j (Nat.lt_succ_of_lt hj') (Nat.ne_of_lt hj')]
      cases p i <;> cases q i <;> simp [heq]

theorem DataOk.later {n a : Nat} {d : RequestData H} (h : DataOk slots k n a d)
    (hl : ∀ i, i < n → Later (slots k i) (slots' k i)) : DataOk slots' k n a d where
  counter := by
    rw [openCount_congr fun i hi => (hl i hi).isOpen]
    exact h.counter
  handles := fun i hi hh => h.handles i hi ((hl i hi).held hh)

theorem JobOk.later {j : Job H} (h : JobOk g s slots j)
    (hreq : s'.requests j.ref.key = s.requests j.ref.key)
    (hl : ∀ i, Later (slots j.ref.key i) (slots' j.ref.key i)) : JobOk g s' slots' j where
  bounds := h.bounds
  knows := fun i hi => (h.knows i hi).later (hl i)
  data := by
    rw [hreq]
    obtain ⟨d, hd, hid, hok⟩ := h.data
    exact ⟨d, hd, hid, hok.later fun i _ => hl i⟩

theorem Waiting.later {d : RequestData H} (h : Waiting g slots k d)
    (hl : ∀ i, Later (slots k i) (slots' k i)) : Waiting g slots' k d where
  asked := fun i hi => (hl i).isAsked (h.asked i hi)
  data := h.data.later fun i _ => hl i
  open_pos := by
    rw [openCount_congr fun i _ => (hl i).isOpen]
    exact h.open_pos

/-! ## Steps of one thread -/

variable {xs ys : List (Thread H)} {t : Thread H}

theorem owners_append (xs ys : List (Thread H)) : owners (xs ++ ys) = owners xs ++ owners ys :=
  filterMap_append

theorem owners_cons (t : Thread H) (ys : List (Thread H)) :
    owners (t :: ys) = (t.job.map fun j => j.ref.key).toList ++ owners ys := by
  cases hj : t.job with
  | none | some j => simp [owners, hj]

/-- A thread changes its own request only and goes on with it or lets go of it. -/
theorem Phases.own {j : Job H} {ns : List ConsumerData} {j' : Option (Job H)}
    (h : Phases g s (xs ++ t :: ys) slots) (ht : t.job = some j)
    (hreq : ∀ k, k ≠ j.ref.key → s'.requests k = s.requests k)
    (hslots : ∀ k, k ≠ j.ref.key → ∀ i, Later (slots k i) (slots' k i))
    (hgo : ∀ i, j' = some i → i.ref = j.ref ∧ JobOk g s' slots' i)
    (hstop : j' = none → ∀ d, s'.requests j.ref.key = some d → Waiting g slots' j.ref.key d) :
    Phases g s' (xs ++ [⟨ns, j'⟩] ++ ys) slots' := by
  have hnodup := h.nodup
  rw [owners_append, owners_cons, ht] at hnodup
  have hfresh : j.ref.key ∉ owners xs ++ owners ys := by
    have := perm_middle.nodup_iff.mp hnodup
    exact (nodup_cons.mp this).1
  have hrest : (owners xs ++ owners ys).Nodup := by
    have := perm_middle.nodup_iff.mp hnodup
    exact (nodup_cons.mp this).2
  have howners : (owners (xs ++ [⟨ns, j'⟩] ++ ys)).Perm
      ((j'.map fun i => i.ref.key).toList ++ (owners xs ++ owners ys)) := by
    rw [owners_append, owners_append, owners_cons, ← append_assoc _ (owners xs)]
    apply Perm.append_right
    rw [show owners ([] : List (Thread H)) = [] from rfl, append_nil]
    exact perm_append_comm
  constructor
  case jobs =>
    intro u hu i hi
    obtain hu | rfl : u ∈ xs ++ ys ∨ u = ⟨ns, j'⟩ := by
      simp only [mem_append, mem_singleton] at hu ⊢
      tauto
    · have hmem : u ∈ xs ++ t :: ys := by
        simp only [mem_append, mem_cons] at hu ⊢
        tauto
      have hkey : i.ref.key ≠ j.ref.key := by
        intro he
        apply hfresh
        rw [← he, ← owners_append]
        exact mem_filterMap.mpr ⟨u, hu, by simp [hi]⟩
      exact (h.jobs u hmem i hi).later (hreq _ hkey) (hslots _ hkey)
    · exact (hgo i hi).2
  case nodup =>
    rw [howners.nodup_iff]
    cases hj' : j' with
    | none => exact hrest
    | some i =>
      have hkey := congrArg Ref.key (hgo i hj').1
      simp only [map_some, toList_some, singleton_append]
      rw [hkey]
      exact nodup_cons.mpr ⟨hfresh, hrest⟩
  case waiting =>
    intro k d hd hk
    rw [howners.mem_iff] at hk
    by_cases hkey : k = j.ref.key
    · subst hkey
      cases hj' : j' with
      | none => exact hstop hj' d hd
      | some i =>
        refine absurd (mem_append_left _ ?_) hk
        simp [hj', (hgo i hj').1]
    · rw [hreq k hkey] at hd
      refine (h.waiting k d hd ?_).later (hslots k hkey)
      intro hmem
      rw [owners_append, owners_cons, ht] at hmem
      apply hk
      simp only [map_some, toList_some, mem_append, mem_singleton] at hmem ⊢
      tauto

end OneTbb.ResourceLimiter
