import OneTbb.Pipeline.Steps

/-!
# Entering and leaving a serial filter

An item that comes to a serial filter gets a ticket, unless it brings a token.
It enters the filter at once if the ticket is the lowest one and is parked
otherwise. The item that leaves wakes the one with the next ticket.
-/

namespace OneTbb.Pipeline

open Function List Place

open RingIndex

variable {c : Chain} {s s' : State} {g g' : Ghost} {xs ys ts : List StageTask} {t : StageTask}
  {f k : Nat} {p : Place} {info : TaskInfo}

/-! ## Tickets -/

/-- The ghost state after item `k` has come to filter `f`. A ticket is handed
out unless the item has a token and the filter goes by tokens. -/
def Ghost.enter (c : Chain) (g : Ghost) (f k : Nat) (tokenReady : Bool) (p : Place) : Ghost :=
  { g with
    place := update g.place k p
    ordered := if c.isOrdered f && !tokenReady then g.ordered ++ [k] else g.ordered
    arrivals :=
      if c.isOrdered f then g.arrivals
      else update g.arrivals f (g.arrivals f ++ [k]) }

/-- What is known about the ticket `i` of an item that has come to filter `f`. -/
structure Ticketed (c : Chain) (g g' : Ghost) (f k i : Nat) : Prop where
  tickets : g'.tickets c f = g.tickets c f ∨ g'.tickets c f = g.tickets c f ++ [k]
  others : ∀ h, Serial c h → h ≠ f → g'.tickets c h = g.tickets c h ∨
    f < h ∧ g'.tickets c h = g.tickets c h ++ [k]
  nodup : ∀ h, (g'.tickets c h).Nodup
  ticket : (g'.tickets c f)[i]? = some k
  low_le : g.low f ≤ i

/-- An item without a token is the first one to come to a filter in order. -/
theorem Inv.first_ordered (h : Inv c s g) (hk : g.place k = .entering f) (hlen : f ≤ c.length)
    (hno : k ∉ g.ordered) : ∀ f', f' < f → c.isOrdered f' = false := by
  intro f' hlt
  cases ho : c.isOrdered f' with
  | false => rfl
  | true =>
    refine absurd ?_ hno
    rcases Nat.eq_zero_or_pos f' with rfl | hpos
    · rw [h.global.first ho, mem_range, ← h.global.born, hk]
      simp
    · have hser : Serial c f' := ⟨hpos, by omega, isSerial_of_isOrdered ho⟩
      have hmem := (h.tickets f' hser).mem k (by rw [hk]; simp only [rank]; omega)
      simpa [Ghost.tickets, ho] using hmem

theorem Ghost.enter_tickets_unordered (hf : c.isOrdered f = false) (r : Bool) (f' : Nat) :
    (g.enter c f k r p).tickets c f' =
      if f' = f then g.tickets c f' ++ [k] else g.tickets c f' := by
  by_cases hff : f' = f
  · subst hff
    simp [Ghost.tickets, Ghost.enter, hf]
  · simp [Ghost.tickets, Ghost.enter, hf, hff]

theorem Ghost.enter_tickets_ready (hf : c.isOrdered f = true) (f' : Nat) :
    (g.enter c f k true p).tickets c f' = g.tickets c f' := by
  simp [Ghost.tickets, Ghost.enter, hf]

theorem Ghost.enter_tickets_new (hf : c.isOrdered f = true) (f' : Nat) :
    (g.enter c f k false p).tickets c f' =
      if c.isOrdered f' then g.tickets c f' ++ [k] else g.tickets c f' := by
  by_cases hf' : c.isOrdered f' = true <;> simp [Ghost.tickets, Ghost.enter, hf, hf']

/-- A filter out of order hands out its own tickets. -/
theorem Inv.ticketed_unordered (h : Inv c s g) (hser : Serial c f)
    (hk : g.place k = .entering f) (hf : c.isOrdered f = false) (r : Bool) :
    Ticketed c g (g.enter c f k r p) f k (g.arrivals f).length where
  tickets := by
    rw [Ghost.enter_tickets_unordered hf, if_pos rfl]
    exact .inr rfl
  others := by
    intro f' _ hne
    rw [Ghost.enter_tickets_unordered hf, if_neg hne]
    exact .inl rfl
  nodup := by
    intro f'
    rw [Ghost.enter_tickets_unordered hf]
    split
    · rename_i he
      subst he
      refine nodup_concat (h.global.nodup f') fun hm => ?_
      simp only [Ghost.tickets, hf, Bool.false_eq_true, if_false] at hm
      have := h.global.arrived f' k hm
      rw [hk] at this
      simp only [rank] at this
      omega
    · exact h.global.nodup f'
  ticket := by simp [Ghost.tickets, Ghost.enter, hf]
  low_le := by simpa [Ghost.tickets, hf] using (h.tickets f hser).low_le

variable {b : InputBuffer} {info' : TaskInfo} {i token : Nat}

/-- An item with a token brings its ticket to the filters in order. -/
theorem Inv.ticketed_ready (h : Inv c s g) (hser : Serial c f)
    (hk : g.place k = .entering f) (hf : c.isOrdered f = true)
    (hi : g.ordered[i]? = some k) : Ticketed c g (g.enter c f k true p) f k i := by
  have hticket : (g.tickets c f)[i]? = some k := by simpa [Ghost.tickets, hf] using hi
  refine ⟨.inl (Ghost.enter_tickets_ready hf f),
    fun f' _ _ => .inl (Ghost.enter_tickets_ready hf f'), fun f' => ?_, ?_, ?_⟩
  · rw [Ghost.enter_tickets_ready hf]
    exact h.global.nodup f'
  · rw [Ghost.enter_tickets_ready hf, hticket]
  · have := (h.tickets f hser).passed i k hticket
    rw [hk] at this
    simp only [rank] at this
    omega

/-- The first filter in order extends the common order. -/
theorem Inv.ticketed_new (h : Inv c s g) (hser : Serial c f) (hk : g.place k = .entering f)
    (hf : c.isOrdered f = true) (hno : k ∉ g.ordered) :
    Ticketed c g (g.enter c f k false p) f k g.ordered.length where
  tickets := by
    rw [Ghost.enter_tickets_new hf, if_pos hf]
    exact .inr rfl
  others := by
    intro f' _ hne
    rw [Ghost.enter_tickets_new hf]
    split
    · rename_i ho
      refine .inr ⟨?_, rfl⟩
      by_contra hle
      have := h.first_ordered hk (le_of_lt hser.lt) hno f' (by omega)
      simp [ho] at this
    · exact .inl rfl
  nodup := by
    intro f'
    rw [Ghost.enter_tickets_new hf]
    split
    · rename_i ho
      exact nodup_concat (h.global.nodup f') (by simpa [Ghost.tickets, ho] using hno)
    · exact h.global.nodup f'
  ticket := by simp [Ghost.tickets, Ghost.enter, hf]
  low_le := by simpa [Ghost.tickets, hf] using (h.tickets f hser).low_le

/-- The ticket behind the token that `try_put_token` works with. -/
theorem Inv.ticketed (h : Inv c s g)
    (hser : Serial c f) (hk : g.place info.object = .entering f) (hok : InfoOk c g info)
    (hord : (s.buffers f).isOrdered = c.isOrdered f)
    (ha : (s.buffers f).assignToken c.tokenBits info = (token, info', b)) :
    ∃ i, Ticketed c g (g.enter c f info.object info.tokenReady p) f info.object i ∧
      token = i % c.tokens ∧ info'.object = info.object ∧ info'.isValid = true ∧
      InfoOk c (g.enter c f info.object info.tokenReady p) info' := by
  rw [InputBuffer.assignToken, hord] at ha
  cases hf : c.isOrdered f with
  | false =>
    rw [hf] at ha
    cases ha
    refine ⟨_, h.ticketed_unordered hser hk hf _, h.global.highArrivals f hser hf, rfl, rfl, ?_⟩
    refine ⟨?_, ?_⟩
    · simpa [Ghost.enter, hf] using hok.ready
    · simpa [Ghost.enter, hf] using hok.notReady
  | true =>
    rw [hf] at ha
    cases hr : info.tokenReady with
    | true =>
      simp only [hr, if_true] at ha
      cases ha
      obtain ⟨i, hi, htok⟩ := hok.ready hr
      refine ⟨i, h.ticketed_ready hser hk hf hi, htok, rfl, rfl, ?_, by simp⟩
      exact fun _ => ⟨i, by simpa [Ghost.enter] using hi, htok⟩
    | false =>
      simp only [hr, if_true, Bool.false_eq_true, if_false] at ha
      cases ha
      have hno := hok.notReady hr
      have hhigh := h.global.highOrdered f hf
        (h.first_ordered hk (le_of_lt hser.lt) hno)
      refine ⟨_, h.ticketed_new hser hk hf hno, hhigh, rfl, rfl, ?_, by simp⟩
      exact fun _ => ⟨g.ordered.length, by simp [Ghost.enter, hf], hhigh⟩

theorem assignToken_buffer {w token : Nat} {b b' : InputBuffer}
    (ha : b.assignToken w info = (token, info', b')) :
    b' = { b with highToken :=
      if b.isOrdered && info.tokenReady then b.highToken else (b.highToken + 1) % 2 ^ w } := by
  unfold InputBuffer.assignToken at ha
  cases ho : b.isOrdered <;> cases hr : info.tokenReady <;> simp only [ho, hr] at ha <;>
    cases ha <;> simp [← ho]

theorem Holds.assignToken {w low token : Nat} {b b' : InputBuffer} {content : Nat → Option TaskInfo}
    (h : Holds w b low content) (ha : b.assignToken w info = (token, info', b')) :
    Holds w b' low content := by
  rw [assignToken_buffer ha]
  exact ⟨h.size, h.lowToken, h.window, h.slot_some, h.slot_none⟩

theorem Ghost.enter_ordered (r : Bool) :
    (g.enter c f k r p).ordered = g.ordered ∨
      (g.enter c f k r p).ordered = g.ordered ++ [k] ∧ c.isOrdered f = true ∧ r = false := by
  cases hf : c.isOrdered f <;> cases r <;> simp [Ghost.enter, hf]

/-- An item keeps or gets its token when it comes to a filter. -/
theorem GlobalInv.enter (h : Inv c s g) (hser : Serial c f)
    (hk : g.place info.object = .entering f) (hok : InfoOk c g info)
    (hhigh : b.highToken = if c.isOrdered f && info.tokenReady then (s.buffers f).highToken
      else ((s.buffers f).highToken + 1) % c.tokens)
    (hp : p.InChain c) (hrank : p.rank c = 2 * f + 1)
    (hnodup : ∀ f', ((g.enter c f info.object info.tokenReady p).tickets c f').Nodup) :
    GlobalInv c (g.enter c f info.object info.tokenReady p) (update s.buffers f b)
      s.items := by
  set g' := g.enter c f info.object info.tokenReady p with hg'
  have hself : g'.place info.object = p := update_self _ _ _
  have hother : ∀ x, x ≠ info.object → g'.place x = g.place x :=
    fun x hx => update_of_ne hx _ _
  have hp' : p ≠ .unborn := by
    rintro rfl
    cases hrank
  have hfirst : info.tokenReady = false → ∀ f', f' < f → c.isOrdered f' = false := fun hr =>
    h.first_ordered hk (le_of_lt hser.lt) (hok.notReady hr)
  constructor
  case nodup => exact hnodup
  case born =>
    intro x
    by_cases hx : x = info.object
    · rw [hx, hself, ← h.global.born, hk]
      simp [hp']
    · rw [hother x hx]
      exact h.global.born x
  case inChain =>
    intro x
    by_cases hx : x = info.object
    · rwa [hx, hself]
    · rw [hother x hx]
      exact h.global.inChain x
  case ordered_born =>
    intro x hx
    by_cases hxk : x = info.object
    · rwa [hxk, hself]
    · rw [hother x hxk]
      refine h.global.ordered_born x ?_
      rcases g.enter_ordered (c := c) (f := f) (k := info.object) (p := p) info.tokenReady with
        ho | ⟨ho, _⟩ <;> rw [hg', ho] at hx
      · exact hx
      · exact (mem_append.mp hx).resolve_right fun hm => hxk (mem_singleton.mp hm)
  case arrived =>
    intro f' x hx
    have hcases : x ∈ g.arrivals f' ∨ f' = f ∧ x = info.object := by
      rw [hg'] at hx
      simp only [Ghost.enter] at hx
      split at hx
      · exact .inl hx
      · by_cases hff : f' = f
        · subst hff
          rw [update_self] at hx
          exact (mem_append.mp hx).imp_right fun hm => ⟨rfl, mem_singleton.mp hm⟩
        · rw [update_of_ne hff] at hx
          exact .inl hx
    rcases hcases with hold | ⟨rfl, rfl⟩
    · have hr := h.global.arrived f' x hold
      by_cases hxk : x = info.object
      · rw [hxk, hk] at hr
        rw [hxk, hself, hrank]
        simp only [rank] at hr
        omega
      · rwa [hother x hxk]
    · rw [hself, hrank]
  case first =>
    intro h0
    rcases g.enter_ordered (c := c) (f := f) (k := info.object) (p := p) info.tokenReady with
      ho | ⟨_, _, hr⟩
    · rw [hg', ho]
      exact h.global.first h0
    · have := hfirst hr 0 hser.pos
      simp [h0] at this
  case highOrdered =>
    intro f' hf' hmin
    rcases g.enter_ordered (c := c) (f := f) (k := info.object) (p := p) info.tokenReady with
      ho | ⟨ho, hf, hr⟩
    · rw [hg', ho, ← h.global.highOrdered f' hf' hmin]
      by_cases hff : f' = f
      · subst hff
        rw [update_self, hhigh, hf']
        cases hr : info.tokenReady with
        | true => simp
        | false =>
          -- an item without a token would have lengthened the order
          have := congrArg List.length ho
          simp [Ghost.enter, hf', hr] at this
      · rw [update_of_ne hff]
    · obtain rfl : f' = f := by
        rcases Nat.lt_trichotomy f' f with hlt | he | hgt
        · have := hfirst hr f' hlt
          simp [hf'] at this
        · exact he
        · have := hmin f hgt
          simp [hf] at this
      rw [hg', ho, update_self, hhigh, h.global.highOrdered f' hf' hmin]
      simp [hr]
  case highArrivals =>
    intro f' hser' hf'
    have hold := h.global.highArrivals f' hser' hf'
    by_cases hff : f' = f
    · subst hff
      rw [update_self, hhigh, hold]
      simp [hg', Ghost.enter, hf']
    · rw [update_of_ne hff, hold]
      cases hf : c.isOrdered f <;> simp [hg', Ghost.enter, hf, hff]

/-! ## Coming to a filter -/

variable {content : Nat → Option TaskInfo} {buffers : Nat → InputBuffer}

theorem GlobalInv.ticket_born {buffers : Nat → InputBuffer} {items x : Nat}
    (h : GlobalInv c g buffers items) (hx : x ∈ g.tickets c f) : g.place x ≠ .unborn := by
  unfold Ghost.tickets at hx
  split at hx
  · exact h.ordered_born x hx
  · intro hu
    have := h.arrived f x hx
    rw [hu] at this
    simp [rank] at this

/-- The tickets from `low` on belong to different items in the pipeline. -/
theorem Inv.window {live : Finset Nat} {lost : Nat} (h : Inv c s g)
    (hser : Serial c f) (hT : Ticketed c g g' f k i) (hk : (g.place k).isLive = true)
    (htok : Tokens c g s live lost) : i < g.low f + live.card := by
  have hlive : ∀ x ∈ (g'.tickets c f).drop (g.low f), x ∈ live := by
    intro x hx
    obtain ⟨j, hj⟩ := mem_iff_getElem?.mp hx
    rw [List.getElem?_drop] at hj
    rw [htok.live_iff]
    have hold : x = k ∨ (g.tickets c f)[g.low f + j]? = some x := by
      rcases hT.tickets with he | he <;> rw [he] at hj
      · exact .inr hj
      · exact (getElem?_concat hj).symm.imp_left And.right
    rcases hold with rfl | hold
    · exact hk
    · have hrank := (h.tickets f hser).passed _ x hold
      have hborn := h.global.ticket_born (mem_of_getElem? hold)
      have hlt := hser.lt
      cases hp : g.place x <;> rw [hp] at hrank hborn <;>
        simp only [isLive, rank, ne_eq, not_true_eq_false] at hrank hborn ⊢
      omega
  have hcard : ((g'.tickets c f).drop (g.low f)).length ≤ live.card := by
    rw [← toFinset_card_of_nodup ((hT.nodup f).sublist (drop_sublist _ _))]
    exact Finset.card_le_card fun x hx => hlive x (mem_toFinset.mp hx)
  rw [length_drop] at hcard
  have hi := (List.getElem?_eq_some_iff.mp hT.ticket).1
  omega

/-- The item of a ticket comes to filter `f` and is now in it or parked. -/
theorem Inv.enterAt (h : Inv c s g) (hser : Serial c f) (hk : g.place info.object = .entering f)
    (hok : InfoOk c g info)
    (hT : Ticketed c g (g.enter c f info.object info.tokenReady p) f info.object i)
    (hhigh : b.highToken = if c.isOrdered f && info.tokenReady then (s.buffers f).highToken
      else ((s.buffers f).highToken + 1) % c.tokens)
    (hp : p.InChain c) (hrank : p.rank c = 2 * f + 1) (hcalled : p.called c = f)
    (e : Enter c g (g.enter c f info.object info.tokenReady p) f info.object i p)
    (hrep : Represents c (g.enter c f info.object info.tokenReady p) f b content)
    (hbuffers : s'.buffers = update s.buffers f b) (hitems : s'.items = s.items)
    (hcalls : s'.calls = s.calls)
    (hcarried : Carried c (g.enter c f info.object info.tokenReady p) s'.tasks)
    (htokens : ∃ live lost, Tokens c (g.enter c f info.object info.tokenReady p) s' live lost) :
    Inv c s' (g.enter c f info.object info.tokenReady p) := by
  have hself : (g.enter c f info.object info.tokenReady p).place info.object = p :=
    update_self _ _ _
  have hquiet : ∀ f', Serial c f' → f' ≠ f →
      Quiet c g (g.enter c f info.object info.tokenReady p) f' := by
    intro f' hser' hne
    refine quiet_of_beside rfl rfl ?_ ?_
    · refine (hT.others f' hser' hne).imp_right fun ⟨hlt, he⟩ => ⟨_, he, ?_⟩
      rw [hself, hrank]
      omega
    · rw [hk]
      refine beside_of_ne hne (by simp) ?_ le_rfl ?_ ?_
      · rintro rfl
        rw [rank_parked] at hrank
        omega
      · rw [hrank]
        exact Nat.le_succ _
      · rw [hrank]
        exact Nat.le_succ _
  refine ⟨hcarried, htokens, ?_, fun f' hser' => ?_, fun f' hser' => ?_, ?_⟩
  · rw [hbuffers, hitems]
    exact GlobalInv.enter h hser hk hok hhigh hp hrank hT.nodup
  · by_cases hff : f' = f
    · subst hff
      exact (h.tickets f' hser').enter e
    · exact (h.tickets f' hser').quiet (hquiet f' hser' hff)
  · rw [hbuffers]
    by_cases hff : f' = f
    · subst hff
      rw [update_self]
      exact ⟨content, hrep⟩
    · rw [update_of_ne hff]
      obtain ⟨content', hrep'⟩ := h.buffers f' hser'
      refine ⟨content', hrep'.quiet (hquiet f' hser' hff) fun info' hpark hok' => ?_⟩
      refine hok'.append (k := info.object) (fun he => ?_)
        ((Ghost.enter_ordered info.tokenReady).imp_right And.left)
      rw [he, hk] at hpark
      cases hpark
  · refine h.calls.congr hcalls hitems (fun x => ?_) fun f' hser' => ?_
    · by_cases hx : x = info.object
      · rw [hx, hself, hk, hcalled]
        rfl
      · rw [show (g.enter c f info.object info.tokenReady p).place x = g.place x from
          update_of_ne hx _ _]
    · by_cases hff : f' = f
      · subst hff
        exact hT.tickets.imp_right fun he => ⟨_, he, by rw [hself, hcalled]⟩
      · refine (hT.others f' hser' hff).imp_right fun ⟨hlt, he⟩ => ⟨_, he, ?_⟩
        rw [hself, hcalled]
        exact le_of_lt hlt

theorem Ticketed.enter {r : Bool} (hT : Ticketed c g (g.enter c f k r p) f k i)
    (hk : g.place k = .entering f) (hrank : p.rank c = 2 * f + 1)
    (hpark : p = .parked f ↔ g.low f < i) : Enter c g (g.enter c f k r p) f k i p where
  low := rfl
  tickets := hT.tickets
  nodup := hT.nodup f
  ticket := hT.ticket
  place := rfl
  before := hk
  rank := hrank
  low_le := hT.low_le
  parked := hpark

/-- The filter of an item that has come to a serial one. -/
theorem Inv.serial_of_entering (h : Inv c s g) (ht : s.tasks = xs ++ .entering f info :: ys)
    (hf : f < c.length) (hs : c.isSerial f = true) : Serial c f := by
  have hin := h.global.inChain info.object
  rw [(h.item ht rfl).1] at hin
  exact ⟨hin.1, hf, hs⟩

theorem InfoOk.enter {r : Bool} (h : InfoOk c g info') (hne : info'.object ≠ k) :
    InfoOk c (g.enter c f k r p) info' :=
  h.append hne ((Ghost.enter_ordered r).imp_right And.left)

theorem token_eq_low_iff {i w low : Nat}
    (hb : Holds w b low content) (hle : low ≤ i) (hlt : i < low + 2 ^ w) :
    i % 2 ^ w = b.lowToken ↔ i = low := by
  rw [hb.lowToken, wrap_eq_iff hle hlt]

theorem Inv.enterNow (h : Inv c s g)
    (ht : s.tasks = xs ++ .entering f info :: ys) (hf : f < c.length) (hs : c.isSerial f = true)
    (ha : (s.buffers f).assignToken c.tokenBits info = (token, info', b))
    (hlow : token = b.lowToken) (ht' : s'.tasks = xs ++ [.ready f info'] ++ ys)
    (hbuffers : s'.buffers = update s.buffers f b) (hitems : s'.items = s.items)
    (hinput : s'.inputTokens = s.inputTokens) (hcalls : s'.calls = s.calls) :
    Inv c s' (g.enter c f info.object info.tokenReady (.ready f)) := by
  have hser := h.serial_of_entering ht hf hs
  obtain ⟨hk, hok⟩ := h.item ht rfl
  change g.place info.object = .entering f at hk
  obtain ⟨content, hrep⟩ := h.buffers f hser
  obtain ⟨i, hT, htoken, hobj, hvalid, hok'⟩ :=
    h.ticketed (p := .ready f) hser hk hok hrep.isOrdered ha
  obtain ⟨live, lost, htok⟩ := h.tokens
  have hkl : (g.place info.object).isLive = true := by rw [hk]; rfl
  have hwin := h.window hser hT hkl htok
  have hb := assignToken_buffer ha
  have hholds := hrep.holds.assignToken ha
  have hi : i = g.low f := by
    rw [← token_eq_low_iff hholds hT.low_le
      (lt_trans hwin (Nat.add_lt_add_left htok.card_lt _)), ← hlow, htoken]
    rfl
  have e := hT.enter hk rfl (by simp [hi])
  have hrep' : Represents c g f b content := by
    refine ⟨hholds, ?_, hrep.sound, hrep.complete⟩
    rw [hb]
    exact hrep.isOrdered
  have hafter := hrep'.enterNow e (by simp) fun _ hne hi => hi.enter hne
  refine h.enterAt hser hk hok hT ?_ ⟨hser.pos, hf⟩ rfl rfl e hafter hbuffers hitems hcalls ?_ ?_
  · rw [hb, hrep.isOrdered]
    rfl
  · rw [ht']
    exact (h.carriedAt ht).move rfl rfl hobj (by simp) rfl (fun _ hne hi => hi.enter hne) hok'
  · exact ⟨live, lost, htok.retask ht ht' hinput rfl rfl rfl (by simp)
      (isLive_update rfl rfl hkl)⟩

theorem Inv.enterLater {b b' : InputBuffer} (h : Inv c s g)
    (ht : s.tasks = xs ++ .entering f info :: ys) (hf : f < c.length) (hs : c.isSerial f = true)
    (ha : (s.buffers f).assignToken c.tokenBits info = (token, info', b))
    (hlow : token ≠ b.lowToken) (hr : MakeRoom c.tokenBits b token b')
    (ht' : s'.tasks = xs ++ ys)
    (hbuffers : s'.buffers = update s.buffers f (b'.store token info'))
    (hitems : s'.items = s.items) (hinput : s'.inputTokens = s.inputTokens)
    (hcalls : s'.calls = s.calls) :
    Inv c s' (g.enter c f info.object info.tokenReady (.parked f)) := by
  have hser := h.serial_of_entering ht hf hs
  obtain ⟨hk, hok⟩ := h.item ht rfl
  change g.place info.object = .entering f at hk
  obtain ⟨content, hrep⟩ := h.buffers f hser
  obtain ⟨i, hT, htoken, hobj, hvalid, hok'⟩ :=
    h.ticketed (p := .parked f) hser hk hok hrep.isOrdered ha
  obtain ⟨live, lost, htok⟩ := h.tokens
  have hkl : (g.place info.object).isLive = true := by rw [hk]; rfl
  have hwin := lt_trans (h.window hser hT hkl htok) (Nat.add_lt_add_left htok.card_lt _)
  have hb := assignToken_buffer ha
  have hholds := hrep.holds.assignToken ha
  have hi : g.low f < i := by
    refine Nat.lt_of_le_of_ne hT.low_le fun he => hlow ?_
    rw [htoken]
    exact (token_eq_low_iff hholds hT.low_le hwin).mpr he.symm
  have e := hT.enter hk rfl (by simp [hi])
  obtain ⟨hholds', hfit, hhigh, hord⟩ := hholds.makeRoom hT.low_le hwin (htoken ▸ hr)
  have hord' : b'.isOrdered = (s.buffers f).isOrdered := by
    rw [hord, hb]
  have hafter := hrep.enterLater e hholds' hord' hfit hobj hvalid hok' fun _ hne hi =>
    hi.enter hne
  refine h.enterAt hser hk hok hT ?_ hser rfl rfl e hafter (htoken ▸ hbuffers) hitems hcalls ?_ ?_
  · change b'.highToken = _
    rw [hhigh, hb, hrep.isOrdered]
    rfl
  · rw [ht', ← append_nil xs]
    exact (h.carriedAt ht).drop rfl (by simp) rfl rfl fun _ hne hi => hi.enter hne
  · exact ⟨live, lost, htok.retask ht
      (show s'.tasks = xs ++ [] ++ ys by simpa using ht') hinput rfl rfl rfl (by simp)
      (isLive_update rfl rfl hkl)⟩

/-! ## Leaving a filter -/

section Release

variable {wakee : Option Nat}

theorem Leaving.place_cases (l : Leaving c g f k wakee) (hk : g.place k = .releasing f) (x : Nat) :
    (g.release f k wakee).place x = g.place x ∨
      x = k ∧ g.place x = .releasing f ∧ (g.release f k wakee).place x = .entering (f + 1) ∨
      g.place x = .parked f ∧ (g.release f k wakee).place x = .ready f := by
  by_cases hx : x = k
  · subst hx
    exact .inr (.inl ⟨rfl, hk, l.place_self⟩)
  · by_cases hw : wakee = some x
    · exact .inr (.inr ⟨(l.wake x hw).2, Leaving.place_wake hw⟩)
    · exact .inl (Leaving.place_other hx hw)

theorem Leaving.quiet (l : Leaving c g f k wakee) (hk : g.place k = .releasing f) {f' : Nat}
    (hne : f' ≠ f) : Quiet c g (g.release f k wakee) f' := by
  refine quiet_of_places (update_of_ne hne _ _) (.inl rfl) fun x => ?_
  rcases l.place_cases hk x with he | ⟨_, ho, he⟩ | ⟨ho, he⟩
  · exact .inl he
  · rw [he, ho]
    exact .inr (beside_of_ne hne (by simp) (by simp) (Nat.le_succ _) (Nat.le_succ _)
      le_rfl)
  · rw [he, ho]
    exact .inr (beside_of_ne hne (by simp [hne.symm]) (by simp) (Nat.le_succ _) le_rfl
      (Nat.le_succ _))

theorem GlobalInv.release {items : Nat}
    (h : GlobalInv c g buffers items) (l : Leaving c g f k wakee)
    (hk : g.place k = .releasing f) (hser : Serial c f)
    (hb : b.highToken = (buffers f).highToken) :
    GlobalInv c (g.release f k wakee) (update buffers f b) items := by
  have hhigh : ∀ f', (update buffers f b f').highToken = (buffers f').highToken := by
    intro f'
    by_cases hff : f' = f
    · subst hff
      rw [update_self, hb]
    · rw [update_of_ne hff]
  have hborn : ∀ x, (g.release f k wakee).place x = .unborn ↔ g.place x = .unborn := by
    intro x
    rcases l.place_cases hk x with he | ⟨_, ho, he⟩ | ⟨ho, he⟩ <;> rw [he]
    · simp [ho]
    · simp [ho]
  have hrank : ∀ x, (g.place x).rank c ≤ ((g.release f k wakee).place x).rank c := by
    intro x
    rcases l.place_cases hk x with he | ⟨_, ho, he⟩ | ⟨ho, he⟩ <;> rw [he]
    · rw [ho]
      exact Nat.le_succ _
    · rw [ho]
      exact le_rfl
  refine ⟨h.nodup, fun x => ?_, fun x => ?_, fun x hx => ?_, fun f' x hx => ?_, h.first,
    fun f' hf' hmin => ?_, fun f' hser' hf' => ?_⟩
  · rw [ne_eq, hborn]
    exact h.born x
  · rcases l.place_cases hk x with he | ⟨_, ho, he⟩ | ⟨ho, he⟩ <;> rw [he]
    · exact h.inChain x
    · exact ⟨Nat.succ_pos f, hser.lt⟩
    · exact ⟨hser.pos, hser.lt⟩
  · rw [ne_eq, hborn]
    exact h.ordered_born x hx
  · exact le_trans (h.arrived f' x hx) (hrank x)
  · rw [hhigh]
    exact h.highOrdered f' hf' hmin
  · rw [hhigh]
    exact h.highArrivals f' hser' hf'

/-- The task goes on with its item and a new task runs the item that was woken. -/
theorem Carried.release {wakeInfo : TaskInfo} (h : Carried c g (xs ++ .releasing f info :: ys))
    (hwake : wakee = if wakeInfo.isValid then some wakeInfo.object else none)
    (l : Leaving c g f info.object wakee)
    (hok : wakeInfo.isValid = true → InfoOk c g wakeInfo) :
    Carried c (g.release f info.object wakee)
      (xs ++ (.entering (f + 1) info :: wake f wakeInfo) ++ ys) := by
  obtain ⟨hk, hinfo⟩ := h.ok (.releasing f info) (by simp) info rfl
  change g.place info.object = .releasing f at hk
  have hrest := h.not_mem_rest rfl
  have hparked : ∀ x, wakee = some x → x ∉ carried (xs ++ ys) := by
    intro x hx hmem
    have hon := h.onTask_rest hmem
    rw [(l.wake x hx).2] at hon
    cases hon
  have hcar : carried (.entering (f + 1) info :: wake f wakeInfo) =
      info.object :: wakee.toList := by
    rw [hwake]
    unfold wake
    split <;> rfl
  refine h.replace ?_ (fun _ _ hi => hi.release) ?_ ?_ ?_ ?_
  · intro x hx
    refine Leaving.place_other ?_ fun hw => hparked x hw hx
    rintro rfl
    exact hrest hx
  · intro u hu i hi
    rcases mem_cons.mp hu with rfl | hu
    · cases hi
      exact ⟨l.place_self, hinfo.release⟩
    · unfold wake at hu
      split at hu
      · rename_i hv
        obtain rfl := mem_singleton.mp hu
        cases hi
        exact ⟨Leaving.place_wake (by rw [hwake, if_pos hv]), (hok hv).release⟩
      · cases hu
  · rw [hcar]
    cases hw : wakee with
    | none => simp
    | some j => simpa using (l.wake_ne hw).symm
  · intro x hx hmem
    rw [hcar] at hx
    rcases mem_cons.mp hx with rfl | hx
    · exact hrest hmem
    · exact hparked x (Option.mem_toList.mp hx) hmem
  · intro x hx
    rw [hcar]
    by_cases hxk : x = info.object
    · exact .inl (by simp [hxk])
    · by_cases hw : wakee = some x
      · exact .inl (by simp [hw])
      · rw [Leaving.place_other hxk hw] at hx
        refine .inr ((h.mem_split hx).resolve_left fun he => hxk ?_)
        exact (Option.some.inj he).symm

theorem Inv.release {wakeInfo : TaskInfo} (h : Inv c s g)
    (ht : s.tasks = xs ++ .releasing f info :: ys)
    (hn : (s.buffers f).nextToken c.tokenBits = (wakeInfo, b))
    (ht' : s'.tasks = xs ++ (.entering (f + 1) info :: wake f wakeInfo) ++ ys)
    (hbuffers : s'.buffers = update s.buffers f b) (hitems : s'.items = s.items)
    (hinput : s'.inputTokens = s.inputTokens) (hcalls : s'.calls = s.calls) :
    Inv c s' (g.release f info.object
      (if wakeInfo.isValid then some wakeInfo.object else none)) := by
  obtain ⟨hk, _⟩ := h.item ht rfl
  change g.place info.object = .releasing f at hk
  have hser : Serial c f := by
    have := h.global.inChain info.object
    rwa [hk] at this
  obtain ⟨content, hrep⟩ := h.buffers f hser
  obtain ⟨_, _, hhigh, _⟩ := hrep.holds.nextToken hn
  obtain ⟨l, hrep', hok⟩ := hrep.release (h.tickets f hser) (h.global.nodup f) hk hn
  refine ⟨?_, ?_, ?_, fun f' hser' => ?_, fun f' hser' => ?_, ?_⟩
  · rw [ht']
    exact (h.carriedAt ht).release rfl l hok
  · obtain ⟨live, lost, htok⟩ := h.tokens
    refine ⟨live, lost, htok.retask ht ht' hinput ?_ ?_ ?_ ?_ fun x => ?_⟩
    · unfold wake
      split <;> rfl
    · unfold wake
      split <;> rfl
    · unfold wake
      split <;> rfl
    · unfold wake
      split <;> simp
    · rcases l.place_cases hk x with he | ⟨_, ho, he⟩ | ⟨ho, he⟩ <;> rw [he]
      · rw [ho]
        rfl
      · rw [ho]
        rfl
  · rw [hbuffers, hitems]
    exact h.global.release l hk hser hhigh
  · by_cases hff : f' = f
    · subst hff
      exact (h.tickets f' hser').release l
    · exact (h.tickets f' hser').quiet (l.quiet hk hff)
  · rw [hbuffers]
    by_cases hff : f' = f
    · subst hff
      rw [update_self]
      exact ⟨_, hrep'⟩
    · rw [update_of_ne hff]
      obtain ⟨content', hrep''⟩ := h.buffers f' hser'
      exact ⟨content', hrep''.quiet (l.quiet hk hff) fun _ _ hi => hi.release⟩
  · refine h.calls.congr hcalls hitems (fun x => ?_) fun _ _ => .inl rfl
    rcases l.place_cases hk x with he | ⟨_, ho, he⟩ | ⟨ho, he⟩ <;> rw [he]
    · rw [ho]
      rfl
    · rw [ho]
      rfl

end Release

end OneTbb.Pipeline
