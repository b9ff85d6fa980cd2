import OneTbb.Pipeline.Invariant

/-!
# One step of a stage task keeps the invariant

There is one lemma for each kind of step: tasks that carry no item, the birth
of an item, moves beside the serial filters, entering a serial filter, the
beginning of a call, and leaving a filter or the pipeline.
-/

namespace OneTbb.Pipeline

open Function List Place Chain

open RingIndex

variable {c : Chain} {s s' : State} {g g' : Ghost} {xs ys ts : List StageTask} {t : StageTask}

theorem Inv.idleStep (h : Inv c s g) (hb : s'.buffers = s.buffers) (hi : s'.items = s.items)
    (hc : s'.calls = s.calls) (hcarried : Carried c g s'.tasks)
    (htokens : ∃ live lost, Tokens c g s' live lost) : Inv c s' g where
  carried := hcarried
  tokens := htokens
  global := by
    rw [hb, hi]
    exact h.global
  tickets := h.tickets
  buffers := by
    rw [hb]
    exact h.buffers
  calls := h.calls.congr hc hi (fun _ => rfl) fun _ _ => .inl rfl

theorem Inv.carriedAt (h : Inv c s g) (ht : s.tasks = xs ++ t :: ys) :
    Carried c g (xs ++ t :: ys) := ht ▸ h.carried

variable {info : TaskInfo} {t' : StageTask}

theorem Inv.item (h : Inv c s g) (ht : s.tasks = xs ++ t :: ys)
    (hi : t.info = some info) : g.place info.object = t.place ∧ InfoOk c g info :=
  h.carried.ok t (by rw [ht]; simp) info hi

theorem Inv.item_born (h : Inv c s g) (ht : s.tasks = xs ++ t :: ys)
    (hi : t.info = some info) : g.place info.object ≠ .unborn := by
  intro hu
  have hon := onTask_place hi
  rw [← (h.item ht hi).1, hu] at hon
  cases hon

/-! ## The birth of an item -/

/-- The ghost state after the first filter has produced an item. -/
def Ghost.birth (c : Chain) (g : Ghost) (k : Nat) (p : Place) : Ghost :=
  { g with
    place := update g.place k p
    ordered := if c.isOrdered 0 then g.ordered ++ [k] else g.ordered }

section Birth

variable {k : Nat} {p : Place}

theorem Ghost.birth_tickets (g : Ghost) (f : Nat) :
    (g.birth c k p).tickets c f = g.tickets c f ∨
      (g.birth c k p).tickets c f = g.tickets c f ++ [k] := by
  unfold Ghost.tickets Ghost.birth
  by_cases h0 : c.isOrdered 0 <;> by_cases hf : c.isOrdered f <;> simp [h0, hf]

/-- The task information of other items survives when the order gets longer. -/
theorem InfoOk.append (h : InfoOk c g info) (hne : info.object ≠ k)
    (hord : g'.ordered = g.ordered ∨ g'.ordered = g.ordered ++ [k]) : InfoOk c g' info where
  ready := by
    intro hr
    obtain ⟨i, hi, htok⟩ := h.ready hr
    rcases hord with ho | ho <;> rw [ho]
    · exact ⟨i, hi, htok⟩
    · exact ⟨i, getElem?_concat_of_some k hi, htok⟩
  notReady := by
    intro hr hmem
    rcases hord with ho | ho <;> rw [ho] at hmem
    · exact h.notReady hr hmem
    · rcases mem_append.mp hmem with hm | hm
      · exact h.notReady hr hm
      · exact hne (mem_singleton.mp hm)

theorem Ghost.birth_ordered (g : Ghost) :
    (g.birth c k p).ordered = g.ordered ∨ (g.birth c k p).ordered = g.ordered ++ [k] := by
  unfold Ghost.birth
  by_cases h0 : c.isOrdered 0 <;> simp [h0]

theorem GlobalInv.unborn_items {buffers : Nat → InputBuffer} {items : Nat}
    (h : GlobalInv c g buffers items) : g.place items = .unborn := by
  by_contra hne
  exact absurd ((h.born items).mp hne) (lt_irrefl _)

theorem nodup_concat {l : List Nat} (h : l.Nodup) (hk : k ∉ l) : (l ++ [k]).Nodup := by
  refine nodup_append.mpr ⟨h, nodup_singleton k, ?_⟩
  rintro x hx y hy rfl
  exact hk (mem_singleton.mp hy ▸ hx)

theorem GlobalInv.birth (h : GlobalInv c g s.buffers s.items) (hp : p ≠ .unborn)
    (hin : p.InChain c) :
    GlobalInv c (g.birth c s.items p) (c.afterProduced s) (s.items + 1) := by
  have hunborn := h.unborn_items
  have hself : (g.birth c s.items p).place s.items = p := update_self _ _ _
  have hother : ∀ x, x ≠ s.items → (g.birth c s.items p).place x = g.place x :=
    fun x hx => update_of_ne hx _ _
  have hfresh : s.items ∉ g.ordered := fun hm => h.ordered_born _ hm hunborn
  constructor
  case nodup =>
    intro f
    cases hf : c.isOrdered f with
    | false =>
      have := h.nodup f
      simpa [Ghost.tickets, Ghost.birth, hf] using this
    | true =>
      have hn := h.nodup f
      simp only [Ghost.tickets, hf, if_true] at hn ⊢
      rcases g.birth_ordered (c := c) (k := s.items) (p := p) with ho | ho <;> rw [ho]
      · exact hn
      · exact nodup_concat hn hfresh
  case born =>
    intro x
    by_cases hx : x = s.items
    · rw [hx, hself]
      exact ⟨fun _ => Nat.lt_succ_self _, fun _ => hp⟩
    · rw [hother x hx, h.born x]
      omega
  case inChain =>
    intro x
    by_cases hx : x = s.items
    · rwa [hx, hself]
    · rw [hother x hx]
      exact h.inChain x
  case ordered_born =>
    intro x hx
    by_cases hxk : x = s.items
    · rwa [hxk, hself]
    · rw [hother x hxk]
      refine h.ordered_born x ?_
      rcases g.birth_ordered (c := c) (k := s.items) (p := p) with ho | ho <;> rw [ho] at hx
      · exact hx
      · exact (mem_append.mp hx).resolve_right fun hm => hxk (mem_singleton.mp hm)
  case arrived =>
    intro f x hx
    have hrank := h.arrived f x hx
    by_cases hxk : x = s.items
    · rw [hxk, hunborn] at hrank
      simp [rank] at hrank
    · rwa [hother x hxk]
  case first =>
    intro h0
    rw [range_succ, ← h.first h0]
    simp [Ghost.birth, h0]
  case highOrdered =>
    intro f hf hfirst
    cases h0 : c.isOrdered 0 with
    | false =>
      have := h.highOrdered f hf hfirst
      simpa [afterProduced, Ghost.birth, h0] using this
    | true =>
      obtain rfl : f = 0 := by
        by_contra hne
        have := hfirst 0 (pos_of_ne_zero hne)
        simp [h0] at this
      have := h.highOrdered 0 h0 (by simp)
      simp [afterProduced, Ghost.birth, h0, this]
  case highArrivals =>
    intro f hf hu
    have := h.highArrivals f hf hu
    have hne : f ≠ 0 := Nat.ne_of_gt hf.pos
    cases h0 : c.isOrdered 0 <;> simpa [afterProduced, Ghost.birth, h0, hne] using this

theorem Chain.afterProduced_of_ne {f : Nat} (hf : f ≠ 0) :
    c.afterProduced s f = s.buffers f := by
  unfold afterProduced
  split
  · exact update_of_ne hf _ _
  · rfl

theorem Chain.newInfo_object : (c.newInfo s).object = s.items := by
  unfold newInfo
  split <;> rfl

theorem GlobalInv.newInfo_ok (h : GlobalInv c g s.buffers s.items) :
    InfoOk c (g.birth c s.items p) (c.newInfo s) := by
  unfold newInfo
  cases h0 : c.isOrdered 0 with
  | false =>
    refine ⟨by simp, fun _ => ?_⟩
    simp only [Ghost.birth, h0, Bool.false_eq_true, if_false]
    exact fun hm => h.ordered_born _ hm h.unborn_items
  | true =>
    refine ⟨fun _ => ⟨g.ordered.length, ?_, h.highOrdered 0 h0 (by simp)⟩, by simp⟩
    simp [Ghost.birth, h0]

/-- The first filter has produced an item, which is now at `p`. -/
theorem Inv.birth (h : Inv c s g) (hbuffers : s'.buffers = c.afterProduced s)
    (hitems : s'.items = s.items + 1) (hcalls : s'.calls = s.calls ++ [(0, s.items)])
    (hin : p.InChain c) (hcalled : p.called c = 1)
    (hrank : ∀ f, Serial c f → p.rank c < 2 * f + 1)
    (hcarried : Carried c (g.birth c s.items p) s'.tasks)
    (htokens : ∃ live lost, Tokens c (g.birth c s.items p) s' live lost) :
    Inv c s' (g.birth c s.items p) := by
  have hunborn := h.global.unborn_items
  have hself : (g.birth c s.items p).place s.items = p := update_self _ _ _
  have hp : p ≠ .unborn := by
    rintro rfl
    cases hcalled
  have hquiet : ∀ f, Serial c f → Quiet c g (g.birth c s.items p) f := by
    intro f hf
    refine quiet_of_beside rfl rfl ?_ ⟨?_, ?_, by simp [hunborn], ?_⟩
    · refine (g.birth_tickets f).imp_right fun ht => ⟨s.items, ht, ?_⟩
      rw [hself]
      exact hrank f hf
    · rw [hunborn]
      exact ⟨fun _ => Nat.succ_pos _, fun _ => hrank f hf⟩
    · rw [hunborn]
      exact ⟨fun he => absurd he (ne_of_lt (hrank f hf)), nofun⟩
    · rintro rfl
      exact absurd (hrank f hf) (lt_irrefl _)
  have hnot : ∀ info : TaskInfo, ∀ f, g.place info.object = .parked f →
      info.object ≠ s.items := by
    intro info f hpark he
    rw [he, hunborn] at hpark
    cases hpark
  refine ⟨hcarried, htokens, ?_, fun f hf => (h.tickets f hf).quiet (hquiet f hf), ?_, ?_⟩
  · rw [hbuffers, hitems]
    exact h.global.birth hp hin
  · intro f hf
    obtain ⟨content, hrep⟩ := h.buffers f hf
    rw [hbuffers, afterProduced_of_ne (Nat.ne_of_gt hf.pos)]
    exact ⟨content, hrep.quiet (hquiet f hf) fun info hpark hok =>
      hok.append (hnot info f hpark) g.birth_ordered⟩
  · refine ⟨fun x => ?_, fun f hf => ?_, ?_⟩
    · by_cases hx : x = s.items
      · subst hx
        rw [filtersOf_append_self hcalls, h.calls.perItem, hself, hunborn, hcalled]
        rfl
      · rw [filtersOf_append_ne hcalls (Ne.symm hx), h.calls.perItem]
        simp only [Ghost.birth, update_of_ne hx]
    · rw [callsOf_append_ne hcalls (ne_of_lt hf.pos)]
      have hpos := hf.pos
      refine (h.calls.perFilter f hf).quiet (fun x => ?_) ?_
      · by_cases hx : x = s.items
        · rw [hx, hself, hunborn, hcalled]
          simp only [called]
          omega
        · simp only [Ghost.birth, update_of_ne hx]
      · exact (g.birth_tickets f).imp_right fun ht => ⟨s.items, ht, by rw [hself]; omega⟩
    · rw [callsOf_append_self hcalls, h.calls.first, hitems, range_succ]

end Birth

/-! ## Moves beside the serial filters -/

section Moves

variable {k : Nat} {p : Place} {info : TaskInfo}

theorem isLive_update (hplace : g'.place = update g.place k p) (hp : p.isLive = true)
    (hk : (g.place k).isLive = true) (x : Nat) :
    (g'.place x).isLive = (g.place x).isLive := by
  by_cases hx : x = k
  · subst hx
    rw [hplace, update_self, hp, hk]
  · rw [hplace, update_of_ne hx]

theorem Inv.moveOn (h : Inv c s g) (ht : s.tasks = xs ++ t :: ys)
    (hi : t.info = some info) (hi' : t'.info = some info) (hts : ∀ u ∈ ts, u.info = none)
    (ht' : s'.tasks = xs ++ t' :: ts ++ ys) (hbuffers : s'.buffers = s.buffers)
    (hitems : s'.items = s.items) (hcalls : s'.calls = s.calls) (hin : t'.place.InChain c)
    (hmono : t.place.rank c ≤ t'.place.rank c) (hcalled : t'.place.called c = t.place.called c)
    (hb : ∀ f, Serial c f → Beside c t.place t'.place f)
    (htokens : ∃ live lost, Tokens c (g.move info.object t'.place) s' live lost) :
    Inv c s' (g.move info.object t'.place) := by
  obtain ⟨hplace, hok⟩ := h.item ht hi
  rw [← hplace] at hmono hcalled hb
  have hp : t'.place ≠ .unborn := fun he => by
    have := onTask_place hi'
    rw [he] at this
    cases this
  refine h.quietMove (h.item_born ht hi) hp hin hmono hcalled hb hbuffers hitems hcalls ?_ htokens
  rw [ht']
  exact (h.carriedAt ht).move hi hi' rfl hts rfl (fun _ _ hi => hi.move) hok.move

theorem beside_of_ne {f f' : Nat} (hne : f ≠ f') {p p' : Place} (hp : p ≠ .parked f)
    (hp' : p' ≠ .parked f) (h : 2 * f' ≤ p.rank c) (h' : p.rank c ≤ p'.rank c)
    (h'' : p'.rank c ≤ 2 * f' + 2) : Beside c p p' f :=
  ⟨by omega, by omega, hp, hp'⟩

end Moves

/-! ## The beginning of a call -/

section Call

variable {f k : Nat}

theorem called_of_rank_gt {p : Place} (h : 2 * f + 1 < p.rank c) (hf : f < c.length) :
    f < p.called c := by
  cases p <;> simp only [rank, called] at h ⊢ <;> omega

/-- The item whose call begins has the first ticket that was not called. -/
theorem CalledInOrder.next {items : List Nat} (h : CalledInOrder c g f items)
    (ht : TicketInv c g f) (hn : (g.tickets c f).Nodup) (hf : f < c.length)
    (hk : g.place k = .ready f) :
    CalledInOrder c (g.move k (.calling f)) f (items ++ [k]) := by
  obtain ⟨n, hle, htake, hiff⟩ := h
  have hticket : (g.tickets c f)[g.low f]? = some k :=
    ht.ticket_low (by rw [hk]; rfl) (by rw [hk]; simp)
  have hlen : g.low f < (g.tickets c f).length := (List.getElem?_eq_some_iff.mp hticket).1
  obtain rfl : n = g.low f := by
    have hge : ¬ g.low f < n := by
      rw [hiff _ _ hticket, hk]
      simp [called]
    by_contra hne
    have hlt : n < g.low f := by omega
    have hsome : (g.tickets c f)[n]? = some ((g.tickets c f)[n]) :=
      List.getElem?_eq_getElem (by omega)
    have := called_of_rank_gt ((ht.passed n _ hsome).mp hlt) hf
    exact absurd ((hiff n _ hsome).mpr this) (lt_irrefl n)
  refine ⟨g.low f + 1, hlen, ?_, fun i x hx => ?_⟩
  · change items ++ [k] = (g.tickets c f).take (g.low f + 1)
    rw [take_add_one, hticket, htake]
    rfl
  · by_cases hxk : x = k
    · subst hxk
      obtain rfl := ticket_unique hn hticket hx
      simp [Ghost.move, called]
    · have hne : i ≠ g.low f := by
        rintro rfl
        exact hxk (Option.some.inj (hx.symm.trans hticket))
      simp only [Ghost.move, update_of_ne hxk]
      rw [← hiff i x hx]
      omega

theorem Inv.beginCall (h : Inv c s g)
    (ht : s.tasks = xs ++ .ready f info :: ys) (ht' : s'.tasks = xs ++ [.calling f info] ++ ys)
    (hbuffers : s'.buffers = s.buffers) (hitems : s'.items = s.items)
    (hinput : s'.inputTokens = s.inputTokens)
    (hcalls : s'.calls = s.calls ++ [(f, info.object)]) :
    Inv c s' (g.move info.object (.calling f)) := by
  obtain ⟨hplace, hok⟩ := h.item ht rfl
  change g.place info.object = .ready f at hplace
  have hborn := h.item_born ht rfl
  obtain ⟨hpos, hlt⟩ : 0 < f ∧ f < c.length := by
    have := h.global.inChain info.object
    rwa [hplace] at this
  have hbeside : ∀ f', Serial c f' → Beside c (g.place info.object) (.calling f) f' := by
    intro f' _
    rw [hplace]
    exact ⟨Iff.rfl, Iff.rfl, by simp, by simp⟩
  have hother : ∀ x, x ≠ info.object → (g.move info.object (.calling f)).place x = g.place x :=
    fun x hx => update_of_ne hx _ _
  refine ⟨?_, ?_, ?_, ?_, ?_, ?_⟩
  · rw [ht']
    exact (h.carriedAt ht).move rfl rfl rfl (by simp) rfl (fun _ _ hi => hi.move) hok.move
  · obtain ⟨live, lost, htok⟩ := h.tokens
    exact ⟨live, lost, htok.retask ht ht' hinput rfl rfl rfl (by simp)
      (isLive_update rfl rfl (by rw [hplace]; rfl))⟩
  · rw [hbuffers, hitems]
    refine h.global.move hborn (by simp) ⟨hpos, hlt⟩ fun f' hf' => ?_
    have := h.global.arrived f' _ hf'
    rwa [hplace] at this
  · exact fun f' hf' =>
      (h.tickets f' hf').quiet (quiet_of_beside rfl rfl (.inl rfl) (hbeside f' hf'))
  · intro f' hf'
    rw [hbuffers]
    obtain ⟨content, hrep⟩ := h.buffers f' hf'
    exact ⟨content, hrep.quiet (quiet_of_beside rfl rfl (.inl rfl) (hbeside f' hf'))
      fun _ _ hi => hi.move⟩
  · refine ⟨fun x => ?_, fun f' hf' => ?_, ?_⟩
    · by_cases hx : x = info.object
      · subst hx
        rw [filtersOf_append_self hcalls, h.calls.perItem, hplace]
        simp [Ghost.move, called, range_succ]
      · rw [filtersOf_append_ne hcalls (Ne.symm hx), h.calls.perItem, hother x hx]
    · by_cases hff : f' = f
      · subst hff
        rw [callsOf_append_self hcalls]
        exact (h.calls.perFilter f' hf').next (h.tickets f' hf') (h.global.nodup f') hlt hplace
      · rw [callsOf_append_ne hcalls (Ne.symm hff)]
        refine (h.calls.perFilter f' hf').quiet (fun x => ?_) (.inl rfl)
        by_cases hx : x = info.object
        · subst hx
          rw [hplace]
          simp only [Ghost.move, update_self, called]
          omega
        · rw [hother x hx]
    · rw [callsOf_append_ne hcalls (Nat.ne_of_gt hpos), h.calls.first, hitems]

end Call

/-! ## Steps of a task -/

theorem Inv.idle (h : Inv c s g)
    (ht : s.tasks = xs ++ t :: ys) (hi : t.info = none) (hts : ∀ u ∈ ts, u.info = none)
    (ht' : s'.tasks = xs ++ ts ++ ys) (hbuffers : s'.buffers = s.buffers)
    (hitems : s'.items = s.items) (hcalls : s'.calls = s.calls)
    (htokens : ∀ live lost, Tokens c g s live lost → ∃ live lost, Tokens c g s' live lost) :
    Inv c s' g := by
  obtain ⟨live, lost, htok⟩ := h.tokens
  refine h.idleStep hbuffers hitems hcalls ?_ (htokens live lost htok)
  rw [ht']
  exact (h.carriedAt ht).idle hi hts

theorem Inv.endTask (h : Inv c s g) (ht : s.tasks = xs ++ t :: ys)
    (hi : t.info = none) (ht' : s'.tasks = xs ++ ys) (hbuffers : s'.buffers = s.buffers)
    (hitems : s'.items = s.items) (hcalls : s'.calls = s.calls)
    (htokens : ∀ live lost, Tokens c g s live lost → ∃ live lost, Tokens c g s' live lost) :
    Inv c s' g :=
  h.idle ht hi (by simp) (show s'.tasks = xs ++ [] ++ ys by simpa using ht') hbuffers hitems
    hcalls htokens

/-- A produced item has not left when another one does. -/
theorem Inv.produced_le {f : Nat} {live : Finset Nat} {lost : Nat}
    (h : Inv c s g) (ht : s.tasks = xs ++ .entering f info :: ys)
    (htok : Tokens c g s live lost) :
    s.tasks.countP StageTask.isProduced ≤ (live.erase info.object).card := by
  rcases Nat.eq_zero_or_pos (s.tasks.countP StageTask.isProduced) with h0 | hpos
  · omega
  · have hone := htok.account.one
    refine le_trans (show _ ≤ 1 by omega) (Finset.card_pos.mpr ?_)
    obtain ⟨t, hmem, hprod⟩ := countP_pos_iff.mp hpos
    cases t with
    | produced info' =>
      have hk := (h.item ht rfl).1
      have hk' := (h.carried.ok _ hmem info' rfl).1
      refine ⟨info'.object, Finset.mem_erase.mpr ⟨fun he => ?_, ?_⟩⟩
      · rw [he, hk] at hk'
        cases hk'
      · rw [htok.live_iff, hk']
        rfl
    | _ => cases hprod

theorem Inv.leave (h : Inv c s g) (ht : s.tasks = xs ++ .entering c.length info :: ys)
    (hts : ts = if s.inputTokens = 0 then [.recycling] else [])
    (ht' : s'.tasks = xs ++ ts ++ ys) (hin : s'.inputTokens = s.returnToken c)
    (hbuffers : s'.buffers = s.buffers) (hitems : s'.items = s.items)
    (hcalls : s'.calls = s.calls) : Inv c s' (g.move info.object .left) := by
  obtain ⟨hk, _⟩ := h.item ht rfl
  change g.place info.object = .entering c.length at hk
  obtain ⟨live, lost, htok⟩ := h.tokens
  refine h.quietMove (h.item_born ht rfl) (by simp) trivial ?_ ?_ ?_ hbuffers hitems hcalls ?_ ?_
  · rw [hk]
    exact Nat.le_succ _
  · rw [hk]
    rfl
  · intro f hser
    rw [hk]
    exact beside_of_ne (ne_of_lt hser.lt) (by simp) (by simp) le_rfl
      (Nat.le_succ _) (Nat.le_succ _)
  · rw [ht']
    refine (h.carriedAt ht).drop rfl ?_ rfl rfl fun _ _ hi => hi.move
    subst hts
    split <;> simp [StageTask.info]
  · exact ⟨_, lost, htok.giveBack ht ht' hin hts (by rw [hk]; rfl) rfl rfl (h.produced_le ht htok)⟩

theorem length_pos (c : Chain) : 0 < c.length := length_pos_iff.mpr c.filters_ne_nil

/-- The first filter has produced an item, which its task carries or has done with. -/
theorem Inv.produce {p : Place} (h : Inv c s g)
    (ht : s.tasks = xs ++ .reading :: ys) (ht' : s'.tasks = xs ++ [t'] ++ ys)
    (hbuffers : s'.buffers = c.afterProduced s) (hitems : s'.items = s.items + 1)
    (hcalls : s'.calls = s.calls ++ [(0, s.items)])
    (hnew : t'.info = none ∧ p.onTask = false ∨ t'.info = some (c.newInfo s) ∧ t'.place = p)
    (hin : p.InChain c) (hcalled : p.called c = 1)
    (hrank : ∀ f, Serial c f → p.rank c < 2 * f + 1)
    (htokens : ∃ live lost, Tokens c (g.birth c s.items p) s' live lost) :
    Inv c s' (g.birth c s.items p) := by
  refine h.birth hbuffers hitems hcalls hin hcalled hrank ?_ htokens
  rw [ht']
  refine (h.carriedAt ht).birth rfl ?_ rfl (fun _ hne hi => hi.append hne g.birth_ordered) ?_
  · rw [h.global.unborn_items]
    rfl
  · refine hnew.imp_right fun ⟨hi, hp⟩ => ⟨_, hi, ?_, hp, h.global.newInfo_ok⟩
    exact newInfo_object

theorem Inv.inChain_of_item (h : Inv c s g)
    (ht : s.tasks = xs ++ t :: ys) (hi : t.info = some info) : t.place.InChain c := by
  have hin := h.global.inChain info.object
  rwa [(h.item ht hi).1] at hin

theorem Serial.ne_of_parallel {f f' : Nat} (h : Serial c f') (hs : c.isSerial f = false) :
    f' ≠ f := by
  rintro rfl
  simp [h.serial] at hs

/-- A task moves its item on and neither takes nor returns a token. -/
theorem Inv.moveItem (h : Inv c s g)
    (ht : s.tasks = xs ++ t :: ys) (hi : t.info = some info) (hi' : t'.info = some info)
    (ht' : s'.tasks = xs ++ [t'] ++ ys) (hbuffers : s'.buffers = s.buffers)
    (hitems : s'.items = s.items) (hcalls : s'.calls = s.calls)
    (hin : s'.inputTokens = s.inputTokens)
    (hR : [t'].countP (StageTask.isReader c) = [t].countP (StageTask.isReader c))
    (hI : [t'].countP (StageTask.isIdle c) = [t].countP (StageTask.isIdle c))
    (hP : [t'].countP StageTask.isProduced = [t].countP StageTask.isProduced)
    (hchain : t'.place.InChain c) (hmono : t.place.rank c ≤ t'.place.rank c)
    (hcalled : t'.place.called c = t.place.called c)
    (hb : ∀ f, Serial c f → Beside c t.place t'.place f) :
    Inv c s' (g.move info.object t'.place) := by
  refine h.moveOn ht hi hi' (by simp) ht' hbuffers hitems hcalls hchain hmono hcalled hb ?_
  obtain ⟨live, lost, htok⟩ := h.tokens
  refine ⟨live, lost, htok.retask ht ht' hin hR hI hP ?_ (isLive_update rfl ?_ ?_)⟩
  · intro u hu hus
    rw [← mem_singleton.mp hu, hus] at hi'
    cases hi'
  · cases t' <;> first | rfl | cases hi'
  · rw [(h.item ht hi).1]
    cases t <;> first | rfl | cases hi

end OneTbb.Pipeline
