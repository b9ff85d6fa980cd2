import OneTbb.Pipeline.Run

/-!
# Live tokens and the end of the input of `parallel_pipeline`

The right to call the first filter is passed on between the stage tasks. As
long as the first filter has not reported the end of the input, either some task
has that right, or no token is idle and the task that returns one takes the
right over. So the stage tasks cannot all end before the end of the input,
unless the conversion of `max_token` to `Token` leaves no token to begin with.
-/

namespace OneTbb.Pipeline

open Relation List Function StageTask Chain

open RingIndex

variable {c : Chain} {s s' : State} {g g' : Ghost} {xs ys ts : List StageTask} {t : StageTask}

/-! ## Items in the pipeline -/

/-- The last filter has been called on the item, and no stage task is busy with
it any more. -/
def State.hasLeft (c : Chain) (s : State) (k : Nat) : Bool :=
  decide (c.length - 1 ∈ s.filtersOf k ∧ k ∉ carried s.tasks)

/-- The number of items that have been produced and have not left. -/
def State.inFlight (c : Chain) (s : State) : Nat :=
  (List.range s.items).countP fun k => !s.hasLeft c k

theorem Inv.hasLeft_of_left (h : Inv c s g) {k : Nat} (hk : g.place k = .left) :
    s.hasLeft c k = true := by
  have hpos := length_pos c
  refine decide_eq_true ⟨?_, fun hmem => ?_⟩
  · rw [h.calls.perItem, hk, mem_range, Place.called]
    omega
  · obtain ⟨u, hu, info, hi, rfl⟩ := exists_of_mem_carried hmem
    have hplace := (h.carried.ok u hu info hi).1
    have hon := onTask_place hi
    rw [← hplace, hk] at hon
    cases hon

/-- Items that have not left hold a token. -/
theorem Inv.inFlight_le (h : Inv c s g) {live : Finset Nat} {lost : Nat}
    (htok : Tokens c g s live lost) : s.inFlight c ≤ live.card := by
  have hnodup : ((List.range s.items).filter fun k => !s.hasLeft c k).Nodup :=
    nodup_range.filter _
  rw [State.inFlight, countP_eq_length_filter, ← toFinset_card_of_nodup hnodup]
  apply Finset.card_le_card
  intro k hk
  obtain ⟨hrange, hnot⟩ := mem_filter.mp (mem_toFinset.mp hk)
  have hborn := (h.global.born k).mpr (mem_range.mp hrange)
  rw [htok.live_iff]
  cases hp : g.place k with
  | left => simp [h.hasLeft_of_left hp] at hnot
  | unborn => exact absurd hp hborn
  | _ => rfl

theorem Inv.inFlight_le_maxToken (h : Inv c s g) (hn : 1 ≤ c.maxToken) :
    s.inFlight c ≤ c.maxToken := by
  obtain ⟨live, lost, htok⟩ := h.tokens
  have hcap := htok.account.cap
  have hmod := Nat.mod_le c.maxToken c.tokens
  have := h.inFlight_le htok
  omega

/-! ## No call after the end of the input -/

/-- Tasks that call a serial first filter, or that may come to do so without a
look at `end_of_input`. -/
def StageTask.isSource : StageTask → Bool
  | .input | .reading | .produced _ => true
  | _ => false

/-- A serial first filter that has reported the end of the input is left alone. -/
def State.SourceDone (c : Chain) (s : State) : Prop :=
  c.isSerial 0 = true → s.endOfInput = true → ∀ t ∈ s.tasks, t.isSource = false

theorem forall_replace {P : StageTask → Prop} (h : ∀ u ∈ xs ++ t :: ys, P u)
    (hts : P t → ∀ u ∈ ts, P u) : ∀ u ∈ xs ++ ts ++ ys, P u := by
  intro u hu
  simp only [mem_append] at hu
  obtain (hu | hu) | hu := hu
  · exact h u (by simp [hu])
  · exact hts (h t (by simp)) u hu
  · exact h u (by simp [hu])

/-- A step that does not report the end of the input, of a task that spawns no
source unless it is one itself. -/
theorem State.SourceDone.retask (h : s.SourceDone c) (ht : s.tasks = xs ++ t :: ys)
    (ht' : s'.tasks = xs ++ ts ++ ys) (hend : s'.endOfInput = s.endOfInput)
    (hts : t.isSource = false → s.endOfInput = true → ∀ u ∈ ts, u.isSource = false) :
    s'.SourceDone c := by
  intro hs he
  rw [hend] at he
  have hall := h hs he
  rw [ht] at hall
  rw [ht']
  exact forall_replace hall fun hsrc => hts hsrc he

theorem State.SourceDone.drop (h : s.SourceDone c) (ht : s.tasks = xs ++ t :: ys)
    (ht' : s'.tasks = xs ++ ys) (hend : s'.endOfInput = s.endOfInput) : s'.SourceDone c := by
  have hnil : s'.tasks = xs ++ [] ++ ys := by rw [ht', append_nil]
  exact h.retask ht hnil hend (by simp)

/-- The task that reports the end of the input was the only source. -/
theorem Inv.sourceDone_endInput (h : Inv c s g) (ht : s.tasks = xs ++ .reading :: ys)
    (ht' : s'.tasks = xs ++ ys) : s'.SourceDone c := by
  intro hs _ u hu
  obtain ⟨live, lost, htok⟩ := h.tokens
  have hone := htok.account.one
  rw [ht, countP_around_one, countP_around_one] at hone
  have hreading : [reading].countP (isIdle c) = 1 := by
    simp [isIdle, hs]
  have hidle : (xs ++ ys).countP (isIdle c) = 0 := by omega
  have hprod : (xs ++ ys).countP isProduced = 0 := by omega
  rw [ht'] at hu
  have hu₁ := countP_eq_zero.mp hidle u hu
  have hu₂ := countP_eq_zero.mp hprod u hu
  cases u <;> simp_all [isSource, isIdle, isProduced]

theorem State.SourceDone.step (h : s.SourceDone c) (hinv : Inv c s g) (hstep : Step c s s') :
    s'.SourceDone c := by
  cases hstep with
  | endInput ht => exact hinv.sourceDone_endInput ht rfl
  | noInput ht hs he =>
    intro hs'
    rw [hs] at hs'
    cases hs'
  | retire ht he => exact h.drop ht rfl rfl
  | spawnParallel ht =>
    intro hs'
    obtain ⟨live, lost, htok⟩ := hinv.tokens
    have := htok.spawning .spawning (by rw [ht]; simp) rfl
    rw [this] at hs'
    cases hs'
  | recycle ht he => exact h.retask ht rfl rfl (by simp [he])
  | enterLater ht hf hs ha hlow hr | leave ht hpos => exact h.drop ht rfl rfl
  | @release xs ys f info wakee b ht hn =>
    refine h.retask ht rfl rfl fun _ _ u hu => ?_
    rcases mem_cons.mp hu with rfl | hu
    · rfl
    · unfold wake at hu
      split at hu
      · rw [mem_singleton.mp hu]
        rfl
      · cases hu
  | spawnSerial ht | beginSerial ht _ | beginParallel ht _ _ | readOnly ht _ _
  | readSerial ht _ _ | readParallel ht _ | enterParallel ht _ _ | enterNow ht _ _ _ _
  | leaveLast ht _ | beginCall ht | endCallParallel ht _ | endCallSerial ht _ =>
    exact h.retask ht rfl rfl (by simp [isSource])

/-! ## No end before the end of the input -/

/-- Tasks that have the right to call the first filter, or to pass it on. -/
def StageTask.hasRight (c : Chain) (t : StageTask) : Bool := t.isIdle c || t.isProduced

/-- Until the first filter reports the end of the input, some task has the right
to call it, or no token is idle. -/
structure State.Fed (c : Chain) (s : State) : Prop where
  tasks : s.endOfInput = false → s.tasks ≠ []
  right : s.endOfInput = false → (∃ t ∈ s.tasks, t.hasRight c = true) ∨ s.inputTokens = 0

theorem exists_replace {p : StageTask → Bool} (h : ∃ u ∈ xs ++ t :: ys, p u = true)
    (hts : p t = true → ∃ u ∈ ts, p u = true) : ∃ u ∈ xs ++ ts ++ ys, p u = true := by
  obtain ⟨u, hu, hp⟩ := h
  simp only [mem_append, mem_cons] at hu
  obtain hu | rfl | hu := hu
  · exact ⟨u, by simp [hu], hp⟩
  · obtain ⟨v, hv, hpv⟩ := hts hp
    exact ⟨v, by simp [hv], hpv⟩
  · exact ⟨u, by simp [hu], hp⟩

theorem exists_drop {p : StageTask → Bool} (h : ∃ u ∈ xs ++ t :: ys, p u = true)
    (hp : p t = false) : ∃ u ∈ xs ++ ys, p u = true := by
  have hnil : ∃ u ∈ xs ++ [] ++ ys, p u = true := exists_replace h (by simp [hp])
  rwa [append_nil] at hnil

theorem State.Fed.of_ended (he : s.endOfInput = true) : s.Fed c :=
  ⟨fun hfalse => by simp [he] at hfalse, fun hfalse => by simp [he] at hfalse⟩

/-- A step that keeps the idle tokens and does not lose the right. -/
theorem State.Fed.retask (h : s.Fed c) (ht : s.tasks = xs ++ t :: ys)
    (ht' : s'.tasks = xs ++ ts ++ ys) (hend : s'.endOfInput = s.endOfInput)
    (hin : s'.inputTokens = s.inputTokens) (hne : ts ≠ [])
    (hts : t.hasRight c = true → ∃ u ∈ ts, u.hasRight c = true) : s'.Fed c where
  tasks := by
    intro _
    rw [ht']
    simp [hne]
  right := by
    intro he
    rw [hend] at he
    rw [hin, ht']
    refine (h.right he).imp (fun hright => ?_) id
    rw [ht] at hright
    exact exists_replace hright hts

/-- A task that is about to take a token finds an idle one. -/
theorem Tokens.inputTokens_pos {live : Finset Nat} {lost : Nat} (h : Tokens c g s live lost)
    (hmax : c.maxToken % c.tokens ≠ 0) (ht : t ∈ s.tasks) (hright : t.hasRight c = true) :
    0 < s.inputTokens := by
  obtain ⟨_, hone, hcap, hsum⟩ := h.account
  have hcount : 0 < s.tasks.countP (isIdle c) ∨
      0 < s.tasks.countP isProduced := by
    rcases Bool.or_eq_true_iff.mp hright with hi | hp
    · exact .inl (countP_pos_iff.mpr ⟨t, ht, hi⟩)
    · exact .inr (countP_pos_iff.mpr ⟨t, ht, hp⟩)
  omega

/-- Taking a token passes the right on, or takes the last idle token. -/
theorem State.Fed.takeToken (hmax : c.maxToken % c.tokens ≠ 0) (hinv : Inv c s g)
    (ht : s.tasks = xs ++ t :: ys) (hright : t.hasRight c = true)
    {u : StageTask} (ht' : s'.tasks = xs ++ (u :: s.spawned) ++ ys)
    (hin : s'.inputTokens = s.takeToken c) : s'.Fed c where
  tasks := by simp [ht']
  right := by
    intro _
    obtain ⟨live, lost, htok⟩ := hinv.tokens
    have hpos := htok.inputTokens_pos hmax (by rw [ht]; simp) hright
    rcases lt_or_ge 1 s.inputTokens with hlt | hle
    · left
      refine ⟨.input, ?_, rfl⟩
      rw [ht', State.spawned, if_pos hlt]
      simp
    · right
      rcases takeToken_cases htok.account.lt with ⟨_, h₂⟩ | ⟨h₁, _⟩
      · rw [hin, State.takeToken, h₂]
        omega
      · omega

variable {info : TaskInfo} {f : Nat}

/-- The last item that returns a token takes over the right, any other one
leaves it to the task that has it. -/
theorem State.Fed.leave (h : s.Fed c)
    (ht : s.tasks = xs ++ .entering c.length info :: ys) (hpos : 0 < s.inputTokens)
    (ht' : s'.tasks = xs ++ ys) (hend : s'.endOfInput = s.endOfInput) : s'.Fed c := by
  have hright : s'.endOfInput = false → ∃ u ∈ s'.tasks, u.hasRight c = true := by
    intro he
    rw [hend] at he
    have hex := (h.right he).resolve_right (Nat.ne_of_gt hpos)
    rw [ht] at hex
    rw [ht']
    exact exists_drop hex rfl
  constructor
  case tasks =>
    intro he
    obtain ⟨u, hu, _⟩ := hright he
    exact ne_nil_of_mem hu
  case right => exact fun he => .inl (hright he)

/-- An item that is parked waits for another one that is in a task. -/
theorem Inv.enterLater_tasks_ne_nil (h : Inv c s g) (h' : Inv c s' g')
    (ht : s.tasks = xs ++ .entering f info :: ys) (hf : f < c.length)
    (hcalls : s'.calls = s.calls) (hitems : s'.items = s.items) : s'.tasks ≠ [] := by
  intro hnil
  have hk : info.object < s'.items := by
    rw [hitems]
    refine (h.global.born _).mp fun hu => ?_
    rw [(h.item ht rfl).1] at hu
    cases hu
  have hall := h'.calls.perItem info.object
  rw [h'.left_of_end hnil hk, State.filtersOf, hcalls] at hall
  have hsome := h.calls.perItem info.object
  rw [(h.item ht rfl).1] at hsome
  have := hall.symm.trans hsome
  have hlen := congrArg List.length this
  simp only [length_range, place, Place.called] at hlen
  omega

theorem State.Fed.step (hmax : c.maxToken % c.tokens ≠ 0) (h : s.Fed c) (hinv : Inv c s g)
    (hstep : Step c s s') : s'.Fed c := by
  obtain ⟨g', hinv'⟩ := hinv.step hstep
  cases hstep with
  | beginSerial ht hs =>
    exact h.retask ht rfl rfl rfl (by simp) (by simp [hasRight, isIdle, hs])
  | beginParallel ht _ _ =>
    exact h.retask ht rfl rfl rfl (by simp) (by simp [hasRight, isIdle])
  | noInput ht _ he => exact .of_ended he
  | spawnParallel ht => exact .takeToken hmax hinv ht rfl rfl rfl
  | endInput ht => exact .of_ended rfl
  | readOnly ht _ _ =>
    exact h.retask ht rfl rfl rfl (by simp) (by simp [hasRight, isIdle])
  | readSerial ht _ _ =>
    exact h.retask ht rfl rfl rfl (by simp) (by simp [hasRight, isProduced])
  | spawnSerial ht => exact .takeToken hmax hinv ht rfl rfl rfl
  | readParallel ht hs =>
    exact h.retask ht rfl rfl rfl (by simp)
      (by simp [hasRight, isIdle, isProduced, hs])
  | enterLater ht hf _ _ _ _ =>
    refine ⟨fun _ => hinv.enterLater_tasks_ne_nil hinv' ht hf rfl rfl, fun he => ?_⟩
    refine (h.right he).imp (fun hright => ?_) id
    rw [ht] at hright
    exact exists_drop hright rfl
  | leave ht hpos => exact h.leave ht hpos rfl rfl
  | leaveLast ht _ =>
    exact ⟨by simp, fun _ => .inl ⟨.recycling, by simp, rfl⟩⟩
  | retire ht he => exact .of_ended he
  | recycle ht _ =>
    exact h.retask ht rfl rfl rfl (by simp) (by simp [hasRight, isIdle])
  | _ ht =>
    exact h.retask ht rfl rfl rfl (by simp)
      (by simp [hasRight, isIdle, isProduced])

/-- A single serial filter has one task, which is an input stage task again
after each item. -/
def State.Solo (s : State) : Prop :=
  s.tasks = [.input] ∨ s.tasks = [.reading] ∨ s.tasks = [] ∧ s.endOfInput = true

theorem State.Solo.step (h : s.Solo) (hlen : c.length = 1) (hserial : c.isSerial 0 = true)
    (hstep : Step c s s') : s'.Solo := by
  have htask : ∀ {xs ys : List StageTask} {t : StageTask}, s.tasks = xs ++ t :: ys →
      xs = [] ∧ ys = [] ∧ (t = .input ∨ t = .reading) := by
    intro xs ys t ht
    have hsplit : ∀ u : StageTask, [u] = xs ++ t :: ys → xs = [] ∧ ys = [] ∧ t = u := by
      intro u hu
      cases xs with
      | nil => simpa [eq_comm, and_comm] using hu
      | cons v rest => simp at hu
    obtain h | h | ⟨h, _⟩ := h
    · obtain ⟨hx, hy, hu⟩ := hsplit _ (h.symm.trans ht)
      exact ⟨hx, hy, .inl hu⟩
    · obtain ⟨hx, hy, hu⟩ := hsplit _ (h.symm.trans ht)
      exact ⟨hx, hy, .inr hu⟩
    · simp [h] at ht
  cases hstep with
  | beginSerial ht _ =>
    obtain ⟨rfl, rfl, _⟩ := htask ht
    exact .inr (.inl rfl)
  | readOnly ht _ _ =>
    obtain ⟨rfl, rfl, _⟩ := htask ht
    exact .inl rfl
  | endInput ht =>
    obtain ⟨rfl, rfl, _⟩ := htask ht
    exact .inr (.inr ⟨rfl, rfl⟩)
  | readSerial _ _ hne => exact absurd hlen hne
  | beginParallel _ hs _ | noInput _ hs _ | readParallel _ hs => simp [hserial] at hs
  | _ ht =>
    obtain ⟨_, _, h | h⟩ := htask ht <;> cases h

/-! ## Empty buffers -/

/-- No slot of the buffer holds an item. -/
def InputBuffer.IsEmpty (b : InputBuffer) : Prop :=
  ∀ i < b.arraySize, (b.array i).isValid = false

/-- Filters that are parallel or first do not keep items in a buffer. -/
def State.Unbuffered (c : Chain) (s : State) : Prop :=
  ∀ f, ¬ Serial c f → ∀ i, ((s.buffers f).array i).isValid = false

theorem State.Unbuffered.update (h : s.Unbuffered c) {b : InputBuffer}
    (hf : Serial c f) (hb : s'.buffers = update s.buffers f b) : s'.Unbuffered c := by
  intro f' hf' i
  have hne : f' ≠ f := by
    rintro rfl
    exact hf' hf
  rw [hb, update_of_ne hne]
  exact h f' hf' i

theorem State.Unbuffered.produced (h : s.Unbuffered c) (hb : s'.buffers = c.afterProduced s) :
    s'.Unbuffered c := by
  intro f hf i
  rw [hb, afterProduced]
  split
  · by_cases h0 : f = 0
    · subst h0
      rw [update_self]
      exact h 0 hf i
    · rw [update_of_ne h0]
      exact h f hf i
  · exact h f hf i

theorem State.Unbuffered.step (h : s.Unbuffered c) (hinv : Inv c s g) (hstep : Step c s s') :
    s'.Unbuffered c := by
  cases hstep with
  | readOnly ht _ _ | readSerial ht _ _ => exact h.produced rfl
  | enterNow ht hf hs _ _ | enterLater ht hf hs _ _ _ =>
    exact h.update (hinv.serial_of_entering ht hf hs) rfl
  | release ht _ => exact h.update (hinv.inChain_of_item ht rfl) rfl
  | _ => exact h

theorem Inv.isEmpty_of_end (h : Inv c s g) (hu : s.Unbuffered c) (hend : s.tasks = []) (f : Nat) :
    (s.buffers f).IsEmpty := by
  intro i hi
  by_cases hf : Serial c f
  · obtain ⟨content, hrep⟩ := h.buffers f hf
    have hnone : ∀ j, content j = none := by
      intro j
      cases hc : content j with
      | none => rfl
      | some info => exact absurd (hrep.sound j info hc).2.1 (h.not_parked hend f _)
    -- the ticket of the window that belongs to slot `i`
    obtain ⟨j, hlow, hhigh, hslot⟩ := exists_in_window (g.low f) hi
    have := hrep.holds.slot_none j hlow hhigh (hnone j)
    rwa [hslot] at this
  · exact hu f hf i

/-! ## Runs without tokens -/

/-- The first item that comes to a filter is let in. -/
theorem assignToken_new (w : Nat) (ordered : Bool)
    (htoken : info.tokenReady = true → info.token = 0) :
    ∃ info' b, (InputBuffer.new ordered).assignToken w info = (0, info', b) ∧ b.lowToken = 0 ∧
      (∀ i, b.array i = TaskInfo.none) ∧ (info'.tokenReady = true → info'.token = 0) := by
  unfold InputBuffer.assignToken
  cases ordered with
  | false => exact ⟨_, _, rfl, rfl, fun _ => rfl, htoken⟩
  | true =>
    cases hr : info.tokenReady with
    | false => exact ⟨_, _, rfl, rfl, fun _ => rfl, fun _ => rfl⟩
    | true =>
      rw [htoken hr]
      exact ⟨_, _, rfl, rfl, fun _ => rfl, fun _ => rfl⟩

theorem newInfo_token (hhigh : (s.buffers 0).highToken = 0) :
    (c.newInfo s).tokenReady = true → (c.newInfo s).token = 0 := by
  unfold newInfo
  split
  · exact fun _ => hhigh
  · exact fun _ => rfl

/-- The only item of a pipeline comes to filter `f`. -/
structure Alone (c : Chain) (s : State) (f : Nat) (info : TaskInfo) : Prop where
  tasks : s.tasks = [.entering f info]
  new : ∀ f', f ≤ f' → s.buffers f' = InputBuffer.new (c.isOrdered f')
  token : info.tokenReady = true → info.token = 0

/-- The only item of a pipeline goes through a filter on its own. -/
theorem Alone.next (h : Alone c s f info) (hf : f < c.length) :
    ∃ s' info', ReflTransGen (Step c) s s' ∧ Alone c s' (f + 1) info' ∧
      s'.inputTokens = s.inputTokens ∧ s'.endOfInput = s.endOfInput := by
  cases hs : c.isSerial f with
  | false =>
    have h₁ := (ReflTransGen.refl).tail
      (@Step.enterParallel c s [] [] f info h.tasks hf hs)
    have h₂ := h₁.tail (@Step.beginCall c _ [] [] f info rfl)
    have h₃ := h₂.tail (@Step.endCallParallel c _ [] [] f info rfl hs)
    exact ⟨_, info, h₃, ⟨rfl, fun f' hf' => h.new f' (Nat.le_of_succ_le hf'), h.token⟩, rfl, rfl⟩
  | true =>
    obtain ⟨info', b, ha, hlow, hnone, htoken⟩ :=
      assignToken_new c.tokenBits (c.isOrdered f) h.token
    rw [← h.new f (Nat.le_refl f)] at ha
    have h₁ := (ReflTransGen.refl).tail
      (@Step.enterNow c s [] [] f info _ _ _ h.tasks hf hs ha hlow.symm)
    have h₂ := h₁.tail (@Step.beginCall c _ [] [] f info' rfl)
    have h₃ := h₂.tail (@Step.endCallSerial c _ [] [] f info' rfl hs)
    have h₄ := h₃.tail (@Step.release c _ [] [] f info' _ _ rfl rfl)
    refine ⟨_, info', h₄, ⟨?_, fun f' hf' => ?_, htoken⟩, rfl, rfl⟩
    · simp [wake, hnone, TaskInfo.none]
    · have hne : f' ≠ f := by omega
      simp only [update_of_ne hne]
      exact h.new f' (Nat.le_of_succ_le hf')

/-- The only item of a pipeline goes through all filters. -/
theorem Alone.walk (h : Alone c s f info) (hf : f ≤ c.length) :
    ∃ s' info', ReflTransGen (Step c) s s' ∧ Alone c s' c.length info' ∧
      s'.inputTokens = s.inputTokens ∧ s'.endOfInput = s.endOfInput := by
  induction hd : c.length - f generalizing f s info with
  | zero =>
    obtain rfl : f = c.length := by omega
    exact ⟨s, info, .refl, h, rfl, rfl⟩
  | succ d ih =>
    obtain ⟨s₁, info₁, hrun₁, h₁, hin₁, hend₁⟩ := h.next (by omega)
    obtain ⟨s₂, info₂, hrun₂, h₂, hin₂, hend₂⟩ := ih h₁ (by omega) (by omega)
    exact ⟨s₂, info₂, hrun₁.trans hrun₂, h₂, hin₂.trans hin₁, hend₂.trans hend₁⟩

/-- Without an idle token the first item is still taken, but no other. -/
theorem exists_alone (h0 : c.maxToken % c.tokens = 0)
    (hsolo : ¬ (c.length = 1 ∧ c.isSerial 0 = true)) :
    ∃ s info, ReflTransGen (Step c) c.start s ∧ Alone c s 1 info ∧
      s.inputTokens = c.tokens - 1 ∧ s.endOfInput = false := by
  have hW := tokens_pos c
  have htake : (0 + c.tokens - 1) % c.tokens = c.tokens - 1 := by
    rw [zero_add, Nat.mod_eq_of_lt (by omega)]
  have hspawned : ∀ s : State, s.inputTokens = 0 → s.spawned = [] := by
    intro s hs
    simp [State.spawned, hs]
  cases hs : c.isSerial 0 with
  | true =>
    have hlen : c.length ≠ 1 := fun hl => hsolo ⟨hl, hs⟩
    have h₁ := (ReflTransGen.refl).tail (@Step.beginSerial c c.start [] [] rfl hs)
    have h₂ := h₁.tail (@Step.readSerial c _ [] [] rfl hs hlen)
    have h₃ := h₂.tail (@Step.spawnSerial c _ [] [] _ rfl)
    refine ⟨_, c.newInfo { c.start with tasks := [.reading] }, h₃,
      ⟨?_, fun f' hf' => ?_, newInfo_token rfl⟩, ?_, rfl⟩
    · rw [hspawned _ h0]
      rfl
    · have hne : f' ≠ 0 := by omega
      simp only [afterProduced]
      split
      · rw [update_of_ne hne]
        rfl
      · rfl
    · simp only [State.takeToken, start, h0]
      exact htake
  | false =>
    have h₁ := (ReflTransGen.refl).tail (@Step.beginParallel c c.start [] [] rfl hs rfl)
    have h₂ := h₁.tail (@Step.spawnParallel c _ [] [] rfl)
    have h₃ := h₂.tail (@Step.readParallel c _ [] [] (by rw [hspawned _ h0]; rfl) hs)
    refine ⟨_, _, h₃, ⟨rfl, fun f' hf' => rfl, ?_⟩, ?_, rfl⟩
    · exact newInfo_token rfl
    · simp only [State.takeToken, start, h0]
      exact htake

/-- Without an idle token all tasks end after the first item. -/
theorem exists_early_end (h0 : c.maxToken % c.tokens = 0)
    (hsolo : ¬ (c.length = 1 ∧ c.isSerial 0 = true)) :
    ∃ s, ReflTransGen (Step c) c.start s ∧ s.tasks = [] ∧ s.endOfInput = false := by
  have hW := tokens_pos c
  obtain ⟨s₁, info₁, hrun₁, halone₁, hin₁, hend₁⟩ := exists_alone h0 hsolo
  obtain ⟨s₂, info₂, hrun₂, halone₂, hin₂, hend₂⟩ := halone₁.walk (length_pos c)
  have hpos : 0 < s₂.inputTokens := by omega
  exact ⟨_, (hrun₁.trans hrun₂).tail (@Step.leave c s₂ [] [] info₂ halone₂.tasks hpos), rfl,
    hend₂.trans hend₁⟩

/-! ## The token bound -/

/-- What a state of a pipeline has to do with the live tokens and the end of the
input. -/
structure State.Regulated (c : Chain) (s : State) : Prop where
  bounded : s.inFlight c ≤ c.maxToken
  exclusive : c.isSerial 0 = true → s.inCall 0 ≤ 1
  silent : c.isSerial 0 = true → s.endOfInput = true → s.inCall 0 = 0
  finished : s.tasks = [] → s.endOfInput = true ∧ ∀ f < c.length, (s.buffers f).IsEmpty

theorem Inv.reached {P : State → Prop} (h0 : P c.start)
    (hstep : ∀ s s' g, Inv c s g → P s → Step c s s' → P s')
    (hrun : ReflTransGen (Step c) c.start s) : P s :=
  Transition.run_preserves_along (Q := fun s => ∃ g, Inv c s g) (fun _ => Inv.run)
    (fun _ _ ⟨g, hinv⟩ hP hs => hstep _ _ g hinv hP hs) hrun h0

section

variable (hrun : ReflTransGen (Step c) c.start s)
include hrun

theorem sourceDone_reached : s.SourceDone c :=
  Inv.reached (fun _ he => by cases he) (fun _ _ _ hinv h hs => h.step hinv hs) hrun

theorem unbuffered_reached : s.Unbuffered c :=
  Inv.reached (fun _ _ _ => rfl) (fun _ _ _ hinv h hs => h.step hinv hs) hrun

/-- The stage tasks do not end before the end of the input. -/
theorem endOfInput_reached (hmax : c.maxToken % c.tokens ≠ 0 ∨ c.length = 1 ∧ c.isSerial 0 = true)
    (hend : s.tasks = []) : s.endOfInput = true := by
  rcases hmax with hmax | ⟨hlen, hserial⟩
  · have hfed : s.Fed c := by
      refine Inv.reached ?_ (fun _ _ _ hinv h hs => h.step hmax hinv hs) hrun
      exact ⟨fun _ => by simp [start], fun _ => .inl ⟨.input, by simp [start], rfl⟩⟩
    by_contra hne
    exact hfed.tasks (Bool.eq_false_of_not_eq_true hne) hend
  · have hsolo : s.Solo := Inv.reached (.inl rfl)
      (fun _ _ _ _ h hs => h.step hlen hserial hs) hrun
    obtain h | h | ⟨_, he⟩ := hsolo
    · simp [hend] at h
    · simp [hend] at h
    · exact he

end

theorem Inv.inCall_zero (h : Inv c s g) (hdone : s.SourceDone c) (hs : c.isSerial 0 = true)
    (he : s.endOfInput = true) : s.inCall 0 = 0 := by
  refine countP_eq_zero.mpr fun t ht hcall => ?_
  have hsource := hdone hs he t ht
  cases t with
  | reading => cases hsource
  | calling f info =>
    have hin := h.global.inChain info.object
    rw [(h.carried.ok _ ht info rfl).1] at hin
    exact absurd hin.1 (by simpa using hcall)
  | _ => cases hcall

/-- In every state of every run at most `max_token` items have been produced and
have not left, a serial first filter is in at most one call and in none after it
has reported the end of the input, and when no stage task is left the end of the
input has been reported and the buffers are empty: if and only if `max_token`
does not become zero when it is converted to `Token`, or a single serial filter
makes no use of the tokens. -/
theorem parallelPipeline_regulated_iff (c : Chain) (hn : 1 ≤ c.maxToken) :
    (∀ s, ReflTransGen (Step c) c.start s → s.Regulated c) ↔
      (c.maxToken % c.tokens ≠ 0 ∨ c.length = 1 ∧ c.isSerial 0 = true) := by
  constructor
  · intro h
    by_contra hnot
    obtain ⟨h0, hsolo⟩ := not_or.mp hnot
    obtain ⟨s, hrun, hend, he⟩ := exists_early_end (not_not.mp h0) hsolo
    have := ((h s hrun).finished hend).1
    rw [he] at this
    cases this
  · intro hmax s hrun
    obtain ⟨g, h⟩ := Inv.run hrun
    constructor
    case bounded => exact h.inFlight_le_maxToken hn
    case exclusive => exact h.inCall_le_one (length_pos c)
    case silent => exact h.inCall_zero (sourceDone_reached hrun)
    case finished =>
      intro hend
      exact ⟨endOfInput_reached hrun hmax hend, fun f _ =>
        h.isEmpty_of_end (unbuffered_reached hrun) hend f⟩

theorem parallelPipeline_regulated_overtaking :
    1 ≤ overtaking.maxToken ∧
      ∀ s, ReflTransGen (Step overtaking) overtaking.start s → s.Regulated overtaking :=
  ⟨by decide, (parallelPipeline_regulated_iff overtaking (by decide)).mpr (.inl (by decide))⟩

/-- Two filters where `unsigned long` has 32 bits, with `2 ^ 32` live tokens. -/
def narrowToken : Chain where
  filters := [.serialInOrder, .parallel]
  filters_ne_nil := by simp
  tokenBits := 32
  tokenBits_ge := overtaking.tokenBits_ge
  maxToken := 2 ^ 32

/-- The stage tasks end after one item, before the end of the input. -/
theorem narrowToken_ends_early :
    ∃ s, ReflTransGen (Step narrowToken) narrowToken.start s ∧ s.tasks = [] ∧
      s.items = 1 ∧ s.endOfInput = false ∧ ¬ s.Regulated narrowToken := by
  have h₁ := (ReflTransGen.refl).tail
    (@Step.beginSerial narrowToken narrowToken.start [] [] rfl rfl)
  have h₂ := h₁.tail (@Step.readSerial narrowToken _ [] [] rfl rfl (by decide))
  have h₃ := h₂.tail (@Step.spawnSerial narrowToken _ [] [] _ rfl)
  have h₄ := h₃.tail (@Step.enterParallel narrowToken _ [] [] _ _ rfl (by decide) rfl)
  have h₅ := h₄.tail (@Step.beginCall narrowToken _ [] [] _ _ rfl)
  have h₆ := h₅.tail (@Step.endCallParallel narrowToken _ [] [] _ _ rfl rfl)
  have h₇ := h₆.tail (@Step.leave narrowToken _ [] [] _ rfl (by decide))
  refine ⟨_, h₇, rfl, rfl, rfl, fun hreg => ?_⟩
  have := (hreg.finished rfl).1
  cases this

end OneTbb.Pipeline
