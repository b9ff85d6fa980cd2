import OneTbb.Library.Transition
import OneTbb.Pipeline.Entry

/-!
# Order and completeness of `parallel_pipeline`

Every state of every run satisfies the invariant. From it follow the order in
which the filters are called, on each item and between the items, that nothing
is left behind when all stage tasks have ended, and that some stage task can
go on as long as there is one.
-/

namespace OneTbb.Pipeline

open List Relation StageTask Place

open RingIndex

variable {c : Chain} {s s' : State} {g : Ghost} {xs ys : List StageTask}

/-! ## The invariant along a run -/

/-- No item has been produced. -/
def Ghost.initial : Ghost := ⟨fun _ => .unborn, [], fun _ => [], fun _ => 0⟩

theorem Ghost.initial_tickets (f : Nat) : Ghost.initial.tickets c f = [] := by
  simp [Ghost.tickets, Ghost.initial]

theorem Inv.initial (c : Chain) : Inv c c.start Ghost.initial where
  carried := by
    refine ⟨fun t ht info hi => ?_, ?_, fun k hk => ?_⟩
    · rw [mem_singleton.mp ht] at hi
      cases hi
    · exact nodup_nil
    · cases hk
  tokens := by
    refine ⟨∅, 0, by simp [Ghost.initial, isLive], ?_, by simp [Chain.start]⟩
    exact account_initial (lt_trans Nat.zero_lt_one (tokens_pos c)) c.maxToken
  global := by
    refine ⟨fun f => ?_, fun k => ?_, fun _ => trivial, ?_, ?_, fun _ => rfl, ?_, ?_⟩
    · rw [Ghost.initial_tickets]
      exact nodup_nil
    · simp [Ghost.initial, Chain.start]
    · simp [Ghost.initial]
    · simp [Ghost.initial]
    · exact fun _ _ _ => (Nat.zero_mod _).symm
    · exact fun _ _ _ => (Nat.zero_mod _).symm
  tickets := by
    intro f _
    constructor <;> simp [Ghost.tickets, Ghost.initial, rank]
  buffers := by
    intro f _
    have hbits := c.tokenBits_ge
    exact ⟨fun _ => none, holds_new (by omega) _, rfl, by simp,
      by simp [Ghost.initial_tickets]⟩
  calls := by
    refine ⟨fun k => rfl, fun f _ => ?_, rfl⟩
    exact ⟨0, Nat.zero_le _, rfl, by simp [Ghost.initial_tickets]⟩

theorem Inv.step (h : Inv c s g) (hstep : Step c s s') : ∃ g', Inv c s' g' := by
  cases hstep with
  | beginSerial ht hs =>
    refine ⟨g, h.idle ht rfl (by simp [info]) rfl rfl rfl rfl fun live lost htok => ?_⟩
    exact ⟨live, lost, htok.retask ht rfl rfl (by simp [isReader, hs])
      (by simp [isIdle, hs]) rfl (by simp) fun _ => rfl⟩
  | beginParallel ht hs _ =>
    refine ⟨g, h.idle ht rfl (by simp [info]) rfl rfl rfl rfl fun live lost htok => ?_⟩
    exact ⟨live, lost, htok.retask ht rfl rfl rfl rfl rfl (fun _ _ _ => hs) fun _ => rfl⟩
  | noInput ht _ _ =>
    exact ⟨g, h.endTask ht rfl rfl rfl rfl rfl fun live lost htok =>
      ⟨live, lost, htok.stop ht rfl rfl rfl rfl rfl⟩⟩
  | spawnParallel ht =>
    refine ⟨g, h.idle ht rfl ?_ rfl rfl rfl rfl fun live lost htok =>
      ⟨live, lost, htok.takeParallel ht rfl rfl⟩⟩
    intro u hu
    rcases mem_cons.mp hu with rfl | hu
    · rfl
    · exact spawned_info s u hu
  | endInput ht =>
    exact ⟨g, h.endTask ht rfl rfl rfl rfl rfl fun live lost htok =>
      ⟨live, htok.endInput ht rfl rfl⟩⟩
  | readOnly ht hs hl =>
    refine ⟨_, h.produce (p := .left) ht rfl rfl rfl rfl (.inl ⟨rfl, rfl⟩) trivial hl ?_ ?_⟩
    · intro f hser
      have := hser.pos
      have := hser.lt
      omega
    · obtain ⟨live, lost, htok⟩ := h.tokens
      refine ⟨live, lost, htok.retask ht rfl rfl (by simp [isReader, hs])
        (by simp [isIdle, hs]) rfl (by simp) fun x => ?_⟩
      by_cases hx : x = s.items
      · subst hx
        rw [h.global.unborn_items]
        simp [Ghost.birth, isLive]
      · simp [Ghost.birth, hx]
  | readSerial ht hs hl =>
    refine ⟨_, h.produce (p := .produced) ht rfl rfl rfl rfl (.inr ⟨rfl, rfl⟩) trivial rfl
      ?_ ?_⟩
    · intro f hser
      have := hser.pos
      simp only [rank]
      omega
    · obtain ⟨live, lost, htok⟩ := h.tokens
      exact ⟨_, lost, htok.readSerial ht hs rfl rfl h.global.unborn_items rfl rfl⟩
  | spawnSerial ht =>
    refine ⟨_, h.moveOn ht rfl rfl (spawned_info s) rfl rfl rfl rfl ⟨Nat.one_pos, length_pos c⟩
      (Nat.le_succ 1) rfl ?_ ?_⟩
    · intro f hser
      have := hser.pos
      refine ⟨?_, ?_, by simp [place], by simp [place]⟩ <;>
        simp only [place, rank] <;> omega
    · obtain ⟨live, lost, htok⟩ := h.tokens
      have hk := (h.item ht rfl).1
      exact ⟨live, lost, htok.takeSerial ht rfl rfl (isLive_update rfl rfl (by rw [hk]; rfl))⟩
  | readParallel ht hs =>
    refine ⟨_, h.produce (p := .entering 1) ht rfl ?_ rfl rfl (.inr ⟨rfl, rfl⟩)
      ⟨Nat.one_pos, length_pos c⟩ rfl ?_ ?_⟩
    · have h0 : c.isOrdered 0 = false := by
        cases ho : c.isOrdered 0 with
        | false => rfl
        | true => exact absurd (isSerial_of_isOrdered ho) (by simp [hs])
      simp [Chain.afterProduced, h0]
    · intro f hser
      have := hser.pos
      simp only [rank]
      omega
    · obtain ⟨live, lost, htok⟩ := h.tokens
      exact ⟨_, lost, htok.readParallel ht hs rfl rfl h.global.unborn_items rfl rfl⟩
  | @enterParallel xs ys f info ht hf hs =>
    refine ⟨_, h.moveItem ht rfl rfl rfl rfl rfl rfl rfl rfl rfl rfl ⟨?_, hf⟩ (Nat.le_succ _)
      rfl fun f' hser => ?_⟩
    · exact (h.inChain_of_item ht rfl).1
    · exact beside_of_ne (hser.ne_of_parallel hs) (by simp [place])
        (by simp [place]) le_rfl (Nat.le_succ _) (Nat.le_succ _)
  | enterNow ht hf hs ha hlow =>
    exact ⟨_, h.enterNow ht hf hs ha hlow rfl rfl rfl rfl rfl⟩
  | enterLater ht hf hs ha hlow hr =>
    exact ⟨_, h.enterLater ht hf hs ha hlow hr rfl rfl rfl rfl rfl⟩
  | leave ht hpos =>
    exact ⟨_, h.leave ht (if_neg (Nat.ne_of_gt hpos)).symm (by simp) rfl rfl rfl rfl⟩
  | leaveLast ht h0 =>
    exact ⟨_, h.leave ht (if_pos h0).symm rfl rfl rfl rfl rfl⟩
  | recycle ht _ =>
    refine ⟨g, h.idle ht rfl (by simp [info]) rfl rfl rfl rfl fun live lost htok => ?_⟩
    exact ⟨live, lost, htok.retask ht rfl rfl rfl rfl rfl (by simp) fun _ => rfl⟩
  | retire ht _ =>
    exact ⟨g, h.endTask ht rfl rfl rfl rfl rfl fun live lost htok =>
      ⟨live, lost, htok.stop ht rfl rfl rfl rfl rfl⟩⟩
  | beginCall ht => exact ⟨_, h.beginCall ht rfl rfl rfl rfl rfl⟩
  | @endCallParallel xs ys f info ht hs =>
    refine ⟨_, h.moveItem ht rfl rfl rfl rfl rfl rfl rfl rfl rfl rfl ⟨Nat.succ_pos f, ?_⟩
      (Nat.le_succ _) rfl fun f' hser => ?_⟩
    · exact (h.inChain_of_item ht rfl).2
    · exact beside_of_ne (hser.ne_of_parallel hs) (by simp [place])
        (by simp [place]) (Nat.le_succ _) (Nat.le_succ _) le_rfl
  | @endCallSerial xs ys f info ht hs =>
    have hin := h.inChain_of_item ht rfl
    exact ⟨_, h.moveItem ht rfl rfl rfl rfl rfl rfl rfl rfl rfl rfl ⟨hin.1, hin.2, hs⟩
      le_rfl rfl fun f' _ =>
        ⟨Iff.rfl, Iff.rfl, by simp [place], by simp [place]⟩⟩
  | release ht hn => exact ⟨_, h.release ht hn rfl rfl rfl rfl rfl⟩

theorem Inv.run (hrun : ReflTransGen (Step c) c.start s) : ∃ g, Inv c s g :=
  Transition.run_preserves (P := fun s => ∃ g, Inv c s g) (fun _ _ ⟨_, h⟩ hstep => h.step hstep)
    hrun ⟨_, Inv.initial c⟩

/-! ## One call at a time -/

/-- The stage tasks that are in a call of filter `f`. -/
def State.inCall (s : State) (f : Nat) : Nat :=
  s.tasks.countP fun t => match t with
    | .reading => f == 0
    | .calling f' _ => f' == f
    | _ => false

theorem countP_le_one {α : Type*} {R : α → α → Prop} {p : α → Bool} {l : List α}
    (hpair : l.Pairwise R) (hR : ∀ a ∈ l, ∀ b ∈ l, p a = true → p b = true → ¬ R a b) :
    l.countP p ≤ 1 := by
  induction l with
  | nil => exact Nat.zero_le _
  | cons a rest ih =>
    obtain ⟨ha, hrest⟩ := pairwise_cons.mp hpair
    have ih := ih hrest fun x hx y hy => hR x (mem_cons_of_mem _ hx) y
      (mem_cons_of_mem _ hy)
    rw [countP_cons]
    split
    · rename_i hpa
      have hnone : rest.countP p = 0 := countP_eq_zero.mpr fun b hb hpb =>
        hR a mem_cons_self b (mem_cons_of_mem _ hb) hpa hpb (ha b hb)
      omega
    · omega

theorem Inv.inCall_le_one (h : Inv c s g) {f : Nat} (hf : f < c.length)
    (hs : c.isSerial f = true) : s.inCall f ≤ 1 := by
  rcases Nat.eq_zero_or_pos f with rfl | hpos
  · obtain ⟨live, lost, htok⟩ := h.tokens
    refine le_trans (countP_mono_left fun t ht hcall => ?_) (htok.reading_le_one hs)
    cases t with
    | calling f' info =>
      have hin := h.global.inChain info.object
      rw [(h.carried.ok _ ht info rfl).1] at hin
      exact absurd hin.1 (by simpa using hcall)
    | reading => rfl
    | _ => cases hcall
  · -- two calls would be on one item, as only the lowest ticket is in the filter
    have hcalling : ∀ t ∈ s.tasks, (match t with
        | .reading => f == 0
        | .calling f' _ => f' == f
        | _ => false) = true → ∃ info, t.info = some info ∧ g.place info.object = .calling f := by
      intro t ht hcall
      cases t with
      | calling f' info =>
        obtain rfl : f' = f := by simpa using hcall
        exact ⟨info, rfl, (h.carried.ok _ ht info rfl).1⟩
      | reading =>
        simp only [beq_iff_eq] at hcall
        omega
      | _ => cases hcall
    refine countP_le_one (pairwise_filterMap.mp h.carried.nodup) ?_
    intro t ht u hu hct hcu hne
    obtain ⟨info, hi, hk⟩ := hcalling t ht hct
    obtain ⟨info', hi', hk'⟩ := hcalling u hu hcu
    refine hne info.object (by simp [object, hi]) info'.object
      (by simp [object, hi']) ?_
    exact (h.tickets f ⟨hpos, hf, hs⟩).unique (by rw [hk]; rfl) (by simp [hk]) (by rw [hk']; rfl)
      (by simp [hk'])

/-! ## When all tasks have ended -/

theorem Inv.onTask_of_end (h : Inv c s g) (hend : s.tasks = []) (k : Nat) :
    (g.place k).onTask = false := by
  cases hon : (g.place k).onTask with
  | false => rfl
  | true => simpa [hend, Pipeline.carried] using h.carried.covers k hon

/-- No item is parked for good: the lowest ticket of its filter would have to
be parked at an earlier filter. -/
theorem Inv.not_parked (h : Inv c s g) (hend : s.tasks = []) (f : Nat) :
    ∀ k, g.place k ≠ .parked f := by
  induction f using Nat.strongRecOn with
  | ind f ih =>
    intro k hk
    have hser : Serial c f := by
      have := h.global.inChain k
      rwa [hk] at this
    have hinv := h.tickets f hser
    obtain ⟨i, hi⟩ := mem_iff_getElem?.mp (hinv.mem k (by rw [hk]; exact le_rfl))
    have hlow : g.low f < i := (hinv.parked i k hi (by rw [hk]; rfl)).mp hk
    have hlen := (List.getElem?_eq_some_iff.mp hi).1
    obtain ⟨x, hx⟩ : ∃ x, (g.tickets c f)[g.low f]? = some x :=
      ⟨_, List.getElem?_eq_getElem (lt_trans hlow hlen)⟩
    have hpassed := hinv.passed _ x hx
    have hborn := h.global.ticket_born (mem_of_getElem? hx)
    have hoff := h.onTask_of_end hend x
    have hlt := hser.lt
    cases hp : g.place x with
    | parked f' =>
      rw [hp, rank_parked] at hpassed
      rcases lt_or_ge f' f with hlt' | hge
      · exact ih f' hlt' x hp
      · obtain rfl : f' = f := by omega
        exact absurd ((hinv.parked _ x hx (by rw [hp]; rfl)).mp hp) (lt_irrefl _)
    | left =>
      rw [hp] at hpassed
      simp only [rank] at hpassed
      omega
    | unborn => exact hborn hp
    | _ => simp [hp, onTask] at hoff

theorem Inv.left_of_end (h : Inv c s g) (hend : s.tasks = []) {k : Nat} (hk : k < s.items) :
    g.place k = .left := by
  have hborn := (h.global.born k).mpr hk
  have hoff := h.onTask_of_end hend k
  cases hp : g.place k with
  | left => rfl
  | parked f => exact absurd hp (h.not_parked hend f k)
  | unborn => exact absurd hp hborn
  | _ => simp [hp, onTask] at hoff

/-! ## Progress -/

/-- The array of a buffer has room for a new item as long as half of the range
of `Token` is enough for all items in the pipeline. -/
theorem Inv.exists_makeRoom {f token : Nat} {info info' : TaskInfo} {b : InputBuffer}
    (h : Inv c s g) (ht : s.tasks = xs ++ .entering f info :: ys) (hf : f < c.length)
    (hs : c.isSerial f = true)
    (ha : (s.buffers f).assignToken c.tokenBits info = (token, info', b))
    (hmax : c.maxToken % c.tokens ≤ 2 ^ (c.tokenBits - 1)) :
    ∃ b', MakeRoom c.tokenBits b token b' := by
  have hser := h.serial_of_entering ht hf hs
  obtain ⟨hk, hok⟩ := h.item ht rfl
  obtain ⟨content, hrep⟩ := h.buffers f hser
  obtain ⟨i, hT, htoken, _⟩ := h.ticketed (p := .parked f) hser hk hok hrep.isOrdered ha
  obtain ⟨live, lost, htok⟩ := h.tokens
  have hwin := h.window hser hT (by rw [hk]; rfl) htok
  have hcap := htok.account.cap
  have hone : 1 ≤ 2 ^ (c.tokenBits - 1) := Nat.one_le_two_pow
  rw [htoken]
  exact (hrep.holds.assignToken ha).exists_makeRoom hT.low_le (by omega)

theorem Inv.progress (h : Inv c s g) (hmax : c.maxToken % c.tokens ≤ 2 ^ (c.tokenBits - 1))
    (hne : s.tasks ≠ []) : ∃ s', Step c s s' := by
  obtain ⟨t, ys, ht⟩ := exists_cons_of_ne_nil hne
  replace ht : s.tasks = [] ++ t :: ys := ht
  cases t with
  | input =>
    cases hs : c.isSerial 0 with
    | true => exact ⟨_, .beginSerial ht hs⟩
    | false =>
      cases he : s.endOfInput with
      | false => exact ⟨_, .beginParallel ht hs he⟩
      | true => exact ⟨_, .noInput ht hs he⟩
  | spawning => exact ⟨_, .spawnParallel ht⟩
  | reading => exact ⟨_, .endInput ht⟩
  | produced info => exact ⟨_, .spawnSerial ht⟩
  | entering f info =>
    have hin := h.inChain_of_item ht rfl
    rcases lt_or_ge f c.length with hf | hge
    · cases hs : c.isSerial f with
      | false => exact ⟨_, .enterParallel ht hf hs⟩
      | true =>
        rcases ha : (s.buffers f).assignToken c.tokenBits info with ⟨token, info', b⟩
        by_cases hlow : token = b.lowToken
        · exact ⟨_, .enterNow ht hf hs ha hlow⟩
        · obtain ⟨b', hr⟩ := h.exists_makeRoom ht hf hs ha hmax
          exact ⟨_, .enterLater ht hf hs ha hlow hr⟩
    · obtain rfl : f = c.length := le_antisymm hin.2 hge
      rcases Nat.eq_zero_or_pos s.inputTokens with h0 | hpos
      · exact ⟨_, .leaveLast ht h0⟩
      · exact ⟨_, .leave ht hpos⟩
  | ready f info => exact ⟨_, .beginCall ht⟩
  | calling f info =>
    cases hs : c.isSerial f with
    | true => exact ⟨_, .endCallSerial ht hs⟩
    | false => exact ⟨_, .endCallParallel ht hs⟩
  | releasing f info =>
    rcases hn : (s.buffers f).nextToken c.tokenBits with ⟨wakee, b⟩
    exact ⟨_, .release ht hn⟩
  | recycling =>
    cases he : s.endOfInput with
    | false => exact ⟨_, .recycle ht he⟩
    | true => exact ⟨_, .retire ht he⟩

/-! ## Order and completeness -/

theorem called_le_length {p : Place} (h : p.InChain c) : p.called c ≤ c.length := by
  cases p <;> simp only [called, Place.InChain] at h ⊢
  case unborn => exact Nat.zero_le _
  case produced => exact length_pos c
  case entering => exact h.2
  case ready => exact le_of_lt h.2
  case calling => exact h.2
  case releasing => exact h.lt
  case parked => exact le_of_lt h.lt
  case left => exact le_rfl

theorem called_pos {p : Place} (h : p.InChain c) (hp : p ≠ .unborn) : 0 < p.called c := by
  cases p <;> simp only [called, Place.InChain, ne_eq, not_true_eq_false] at h hp ⊢
  case produced => exact Nat.one_pos
  case entering => exact h.1
  case ready => exact h.1
  case calling => exact Nat.succ_pos _
  case releasing => exact Nat.succ_pos _
  case parked => exact h.pos
  case left => exact length_pos c

/-- The calls of a filter in order follow the common order. -/
theorem Inv.callsOf_prefix (h : Inv c s g) {f : Nat} (hf : f < c.length)
    (ho : c.isOrdered f = true) : s.callsOf f <+: g.ordered := by
  rcases Nat.eq_zero_or_pos f with rfl | hpos
  · rw [h.calls.first, h.global.first ho]
  · obtain ⟨n, _, htake, _⟩ := h.calls.perFilter f ⟨hpos, hf, isSerial_of_isOrdered ho⟩
    rw [htake, Ghost.tickets, if_pos ho]
    exact take_prefix n _

/-- The buffer has room for each item about to enter a serial filter, or `grow`
makes it: `try_put_token` returns. -/
def State.PutsReturn (c : Chain) (s : State) : Prop :=
  ∀ f info, .entering f info ∈ s.tasks → f < c.length → c.isSerial f = true →
    ∀ token info' b, (s.buffers f).assignToken c.tokenBits info = (token, info', b) →
      ∃ b', MakeRoom c.tokenBits b token b'

/-- In every state of every run each item has been passed to the first filters
of the chain, once and in order; a serial filter is in at most one call; and the
filters in order have been called on the items in one common order. When all
stage tasks have ended, every item has been passed to all filters. If the items
in the pipeline take up at most half of the range of `Token`, then no task is
held up in `try_put_token`, and as long as a task is left some task can go on. -/
theorem parallelPipeline_orderAndCompleteness (c : Chain) {s : State}
    (run : ReflTransGen (Step c) c.start s) :
    (∀ k, k < s.items → ∃ n, 0 < n ∧ n ≤ c.length ∧ s.filtersOf k = List.range n) ∧
    (∀ k, s.items ≤ k → s.filtersOf k = []) ∧
    (∀ f, f < c.length → c.isSerial f = true → s.inCall f ≤ 1) ∧
    (∃ order : List Nat, order.Nodup ∧
      ∀ f, f < c.length → c.isOrdered f = true → s.callsOf f <+: order) ∧
    (s.tasks = [] → ∀ k, k < s.items → s.filtersOf k = List.range c.length) ∧
    (c.maxToken % c.tokens ≤ 2 ^ (c.tokenBits - 1) →
      s.PutsReturn c ∧ (s.tasks ≠ [] → ∃ s', Step c s s')) := by
  obtain ⟨g, h⟩ := Inv.run run
  refine ⟨fun k hk => ?_, fun k hk => ?_, fun f hf hs => h.inCall_le_one hf hs, ?_,
    fun hend k hk => ?_, fun hmax => ⟨fun f info hmem hf hs token info' b ha => ?_,
      fun hne => h.progress hmax hne⟩⟩
  · exact ⟨_, called_pos (h.global.inChain k) ((h.global.born k).mpr hk),
      called_le_length (h.global.inChain k), h.calls.perItem k⟩
  · have hunborn : g.place k = .unborn := by
      by_contra hne
      exact absurd ((h.global.born k).mp hne) (not_lt.mpr hk)
    rw [h.calls.perItem, hunborn]
    rfl
  · by_cases hex : ∃ f, c.isOrdered f = true
    · obtain ⟨f, hf⟩ := hex
      refine ⟨g.ordered, ?_, fun f' hlt ho => h.callsOf_prefix hlt ho⟩
      have := h.global.nodup f
      rwa [Ghost.tickets, if_pos hf] at this
    · exact ⟨[], nodup_nil, fun f _ ho => absurd ⟨f, ho⟩ hex⟩
  · rw [h.calls.perItem, h.left_of_end hend hk]
    rfl
  · obtain ⟨xs, ys, ht⟩ := append_of_mem hmem
    exact h.exists_makeRoom ht hf hs ha hmax

/-- Two filters in order with a parallel one between them and two live tokens. -/
def overtaking : Chain where
  filters := [.serialInOrder, .parallel, .serialInOrder]
  filters_ne_nil := by simp
  tokenBits := 32
  tokenBits_ge := le_rfl
  maxToken := 2

/-- The second item overtakes the first one, is parked and is woken. -/
theorem parallelPipeline_orderAndCompleteness_overtaking :
    ∃ s, ReflTransGen (Step overtaking) overtaking.start s ∧ s.tasks = [] ∧
      s.items = 2 ∧ s.callsOf 1 = [1, 0] ∧ s.callsOf 2 = [0, 1] ∧
      ∀ k, k < 2 → s.filtersOf k = [0, 1, 2] := by
  have h₁ := (ReflTransGen.refl).tail
    (@Step.beginSerial overtaking overtaking.start [] [] rfl rfl)
  have h₂ := h₁.tail (@Step.readSerial overtaking _ [] [] rfl rfl (by decide))
  have h₃ := h₂.tail (@Step.spawnSerial overtaking _ [] [] _ rfl)
  have h₄ := h₃.tail (@Step.enterParallel overtaking _ [] [.input] _ _ rfl (by decide) rfl)
  have h₅ := h₄.tail (@Step.beginSerial overtaking _ [_] [] rfl rfl)
  have h₆ := h₅.tail (@Step.readSerial overtaking _ [_] [] rfl rfl (by decide))
  have h₇ := h₆.tail (@Step.spawnSerial overtaking _ [_] [] _ rfl)
  have h₈ := h₇.tail (@Step.enterParallel overtaking _ [_] [] _ _ rfl (by decide) rfl)
  have h₉ := h₈.tail (@Step.beginCall overtaking _ [_] [] _ _ rfl)
  have h₁₀ := h₉.tail (@Step.endCallParallel overtaking _ [_] [] _ _ rfl rfl)
  have h₁₁ := h₁₀.tail (@Step.enterLater overtaking _ [_] [] _ _ _ _ _ _ rfl (by decide) rfl rfl
    (by decide) (.fits (by decide)))
  have h₁₂ := h₁₁.tail (@Step.beginCall overtaking _ [] [] _ _ rfl)
  have h₁₃ := h₁₂.tail (@Step.endCallParallel overtaking _ [] [] _ _ rfl rfl)
  have h₁₄ := h₁₃.tail (@Step.enterNow overtaking _ [] [] _ _ _ _ _ rfl (by decide) rfl rfl
    (by decide))
  have h₁₅ := h₁₄.tail (@Step.beginCall overtaking _ [] [] _ _ rfl)
  have h₁₆ := h₁₅.tail (@Step.endCallSerial overtaking _ [] [] _ _ rfl rfl)
  have h₁₇ := h₁₆.tail (@Step.release overtaking _ [] [] _ _ _ _ rfl rfl)
  have h₁₈ := h₁₇.tail (@Step.leaveLast overtaking _ [] [_] _ rfl rfl)
  have h₁₉ := h₁₈.tail (@Step.beginCall overtaking _ [_] [] _ _ rfl)
  have h₂₀ := h₁₉.tail (@Step.endCallSerial overtaking _ [_] [] _ _ rfl rfl)
  have h₂₁ := h₂₀.tail (@Step.release overtaking _ [_] [] _ _ _ _ rfl rfl)
  have h₂₂ := h₂₁.tail (@Step.leave overtaking _ [_] [] _ rfl (by decide))
  have h₂₃ := h₂₂.tail (@Step.recycle overtaking _ [] [] rfl rfl)
  have h₂₄ := h₂₃.tail (@Step.beginSerial overtaking _ [] [] rfl rfl)
  have h₂₅ := h₂₄.tail (@Step.endInput overtaking _ [] [] rfl)
  exact ⟨_, h₂₅, rfl, rfl, rfl, rfl,
    (parallelPipeline_orderAndCompleteness overtaking h₂₅).2.2.2.2.1 rfl⟩

/-- Two filters in order where `unsigned long` has 32 bits, with one live token
more than half of its range. -/
def beyondHalf : Chain where
  filters := [.serialInOrder, .serialInOrder]
  filters_ne_nil := by simp
  tokenBits := 32
  tokenBits_ge := le_rfl
  maxToken := 2 ^ 31 + 1

/-- A run in which the first filter has produced `m` items and none of them has
entered the second filter. -/
structure Produces (m : Nat) (s : State) : Prop where
  run : ReflTransGen (Step beyondHalf) beyondHalf.start s
  items : s.items = m
  inputTokens : s.inputTokens = 2 ^ 31 + 1 - m
  highToken : (s.buffers 0).highToken = m
  second : s.buffers 1 = InputBuffer.new true

theorem Produces.next {m : Nat} (h : Produces m s) (hm : m ≤ 2 ^ 31)
    (ht : s.tasks = xs ++ [.input]) :
    ∃ s', Produces (m + 1) s' ∧
      s'.tasks = xs ++ .entering 1 ⟨m, m, true, false⟩ :: if m < 2 ^ 31 then [.input] else [] := by
  obtain ⟨hrun, hitems, htokens, hhigh, hsecond⟩ := h
  have h₁ := hrun.tail (@Step.beginSerial beyondHalf s xs [] ht rfl)
  have h₂ := h₁.tail (@Step.readSerial beyondHalf _ xs [] (append_nil _) rfl (by decide))
  have h₃ := h₂.tail (@Step.spawnSerial beyondHalf _ xs [] _ (append_nil _))
  refine ⟨_, ⟨h₃, by simp [hitems], ?_, ?_, ?_⟩, ?_⟩
  · simp only [State.takeToken, Chain.tokens, beyondHalf, htokens]
    omega
  · simp only [Chain.afterProduced, Chain.tokens, Chain.isOrdered, beyondHalf, getD_cons_zero,
      decide_true, if_true, Function.update_self, hhigh]
    omega
  · simpa [Chain.afterProduced, Chain.isOrdered, beyondHalf] using hsecond
  · have hlast : 1 < 2 ^ 31 + 1 - m ↔ m < 2 ^ 31 := by omega
    simp only [State.spawned, Chain.newInfo, Chain.isOrdered, beyondHalf, getD_cons_zero,
      decide_true, if_true, htokens, hitems, hhigh, hlast, append_nil]

theorem exists_produces {m : Nat} (hm : m ≤ 2 ^ 31) :
    ∃ s xs, Produces m s ∧ s.tasks = xs ++ [.input] := by
  induction m with
  | zero => exact ⟨beyondHalf.start, [], ⟨.refl, rfl, rfl, rfl, rfl⟩, rfl⟩
  | succ m ih =>
    obtain ⟨s, xs, h, ht⟩ := ih (by omega)
    obtain ⟨s', h', ht'⟩ := h.next (by omega) ht
    rw [if_pos (by omega)] at ht'
    exact ⟨s', xs ++ [.entering 1 ⟨m, m, true, false⟩], h', by rw [ht', append_cons]⟩

/-- The last item enters the second filter before the others: no power of two
that a `Token` can hold is the size it asks for, and `grow` does not end. -/
theorem beyondHalf_grow_never_ends :
    ∃ s, ReflTransGen (Step beyondHalf) beyondHalf.start s ∧ s.items = 2 ^ 31 + 1 ∧
      ¬ s.PutsReturn beyondHalf := by
  obtain ⟨s₀, xs, h₀, ht₀⟩ := exists_produces le_rfl
  obtain ⟨s, h, ht⟩ := h₀.next le_rfl ht₀
  refine ⟨s, h.run, h.items, fun hputs => ?_⟩
  obtain ⟨b', hroom⟩ := hputs 1 ⟨2 ^ 31, 2 ^ 31, true, false⟩ (by simp [ht]) (by decide) rfl
    (2 ^ 31) _ (InputBuffer.new true) (by rw [h.second]; rfl)
  cases hroom with
  | fits hlt => exact absurd hlt (by decide)
  | grow _ hg =>
    obtain @⟨r, hd⟩ := hg
    obtain ⟨k, rfl, _, hk, hmin⟩ := hd.spec (Nat.succ_pos _) 3 (by decide) rfl
    have hle : 2 ^ k ≤ 2 ^ 31 := Nat.pow_le_pow_right (by omega) (Nat.le_of_lt_succ hk)
    exact absurd (hmin.trans hle) (by decide)

end OneTbb.Pipeline
