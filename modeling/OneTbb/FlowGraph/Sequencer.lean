import OneTbb.FlowGraph.Reservation

/-!
# The order of `sequencer_node`

Every stored message lies in the slot of its tag, so the messages leave in the order
of their tags. A put does not return, or throws, if the ring cannot grow to its tag.
-/

namespace OneTbb.FlowGraph.Node

open Function Option Relation

variable {α : Type*} {W : SizeType} {tag : α → Nat} {s : Node α}

/-- Messages lie in the slots of their tags, and what has left are the tags below the head. -/
def Tagged (W : SizeType) (tag : α → Nat) (s : Node α) : Prop :=
  ∃ slots, s.buf.Represents W slots ∧
    (∀ i x, slots i = .reservedItem x ↔ i = s.buf.head ∧ s.holder = some x) ∧
    (∀ i x, (slots i).item = some x → tag x = i) ∧
    s.delivered.map tag = List.range s.buf.head

theorem Tagged.initial : Tagged W tag (Node.initial : Node α) :=
  ⟨_, ItemBuffer.Represents.initial, by simp [Node.initial], by simp [Slot.item], rfl⟩

/-- Taking the item at the head away leaves the tags in place. -/
theorem item_update_noItem {slots : Nat → Slot α} (h : ∀ i x, (slots i).item = some x → tag x = i)
    (k : Nat) (i : Nat) (x : α) (hx : (update slots k .noItem i).item = some x) :
    tag x = i := by
  by_cases hik : i = k
  · rw [hik, update_self] at hx
    cases hx
  · rw [update_of_ne hik] at hx
    exact h i x hx

variable {t : Node α} {x : α}

section

variable (h : s.Tagged W tag)
include h

theorem Tagged.deliver (hnone : s.holder = none) (hvalid : s.buf.itemValid s.buf.head = true) :
    (s.deliver W (.sequencer tag)).Tagged W tag := by
  obtain ⟨slots, hrep, hreserved, htags, hleft⟩ := h
  have hnot : ∀ i x, slots i ≠ .reservedItem x := by
    intro i x hx
    have hholder := ((hreserved _ x).mp hx).2
    rw [hnone] at hholder
    cases hholder
  obtain ⟨x, hpop, hslot, hdestroy, -⟩ := hrep.popFront hvalid (hnot _)
  have hdeliver : s.deliver W (.sequencer tag) =
      { s with buf := s.buf.destroyFront W, delivered := s.delivered ++ [x] } := by
    rw [Node.deliver, take, hpop]
    rfl
  have hitem : (slots s.buf.head).item = some x := by rw [hslot]; rfl
  have htag : tag x = s.buf.head := htags _ x hitem
  rw [hdeliver]
  refine ⟨_, hdestroy, fun i y => ?_, item_update_noItem htags _, ?_⟩
  · rw [ItemBuffer.update_eq_reservedItem (hnot _) (by simp)]
    simp [hnot i y, hnone]
  · dsimp only
    rw [List.map_append, hleft, List.map_singleton, htag,
      hrep.destroyFront_eq (hrep.of_item hitem).2.1]
    exact List.range_succ.symm

theorem Tagged.forwardLoop (hnone : s.holder = none)
    (answers : List Bool) : (forwardLoop W (.sequencer tag) answers s).2.2.Tagged W tag := by
  induction answers generalizing s with
  | nil => exact h
  | cons answer rest ih =>
    unfold Node.forwardLoop
    split
    case isFalse => exact h
    case isTrue hvalid =>
      cases answer
      · exact ih h hnone
      · have hholder : (s.deliver W (.sequencer tag)).holder = s.holder := by
          unfold Node.deliver take
          cases s.buf.popFront W <;> rfl
        exact ih (h.deliver hnone hvalid) (hholder.trans hnone)

theorem Tagged.reserveFront (hflag : s.reserved = s.holder.isSome) :
    s.reserveFront.2.Tagged W tag := by
  obtain ⟨slots, hrep, hreserved, htags, hleft⟩ := h
  unfold Node.reserveFront
  split
  case isTrue => exact ⟨slots, hrep, hreserved, htags, hleft⟩
  case isFalse hcan =>
    simp only [Bool.or_eq_true, Bool.not_eq_true', not_or, Bool.not_eq_true,
      Bool.not_eq_false] at hcan
    have hnone : s.holder = none := by
      rw [hcan.1] at hflag
      simpa using hflag.symm
    split
    case h_1 => exact ⟨slots, hrep, hreserved, htags, hleft⟩
    case h_2 x hitem =>
      have hnot : ∀ i y, slots i ≠ .reservedItem y := by
        intro i y hy
        have hholder := ((hreserved _ y).mp hy).2
        rw [hnone] at hholder
        cases hholder
      obtain ⟨y, hslot, hlow, hhigh, hitem'⟩ := hrep.exists_item hcan.2 (hnot _)
      obtain rfl : y = x := some.inj (hitem'.symm.trans hitem)
      have htag : tag y = s.buf.head := htags _ y (by rw [hslot]; rfl)
      refine ⟨_, hrep.setSlot hlow hhigh (.reservedItem y), update_reserved_iff hnot y,
        fun i z hz => ?_, hleft⟩
      · by_cases hi : i = s.buf.head
        · rw [hi, update_self] at hz
          injection hz with hz
          rw [← hz, htag, hi]
        · rw [update_of_ne hi] at hz
          exact htags i z hz

theorem Tagged.internalConsume (hx : s.holder = some x) :
    (s.internalConsume W (.sequencer tag)).Tagged W tag := by
  obtain ⟨slots, hrep, hreserved, htags, hleft⟩ := h
  have hslot := (hreserved s.buf.head x).mpr ⟨rfl, hx⟩
  have hitem : (slots s.buf.head).item = some x := by rw [hslot]; rfl
  have htag : tag x = s.buf.head := htags _ x hitem
  have hin := (hrep.of_item hitem).2.1
  refine ⟨_, hrep.destroyFront hin, fun i y => ?_, item_update_noItem htags _, ?_⟩
  · simp only [Node.internalConsume, reduceCtorEq, and_false, iff_false]
    exact update_not_reserved (fun i y hi hy => hi ((hreserved i y).mp hy).1) (by simp) i y
  · simp only [Node.internalConsume, hx, toList_some, List.map_append, List.map_singleton,
      hleft, htag, hrep.destroyFront_eq hin]
    exact List.range_succ.symm

theorem Tagged.internalRelease (hx : s.holder = some x)
    (ht : s.internalRelease W (.sequencer tag) = some t) : t.Tagged W tag := by
  obtain ⟨slots, hrep, hreserved, htags, hleft⟩ := h
  have hslot := (hreserved s.buf.head x).mpr ⟨rfl, hx⟩
  obtain ⟨-, hin, hitem⟩ := hrep.of_item (x := x) (by rw [hslot]; rfl)
  unfold Node.internalRelease at ht
  rw [hitem] at ht
  injection ht with ht
  subst ht
  refine ⟨_, hrep.setSlot le_rfl hin (.hasItem x), fun i y => ?_, fun i y hy => ?_, hleft⟩
  · simp only [reduceCtorEq, and_false, iff_false]
    exact update_not_reserved (fun i y hi hy => hi ((hreserved i y).mp hy).1) (by simp) i y
  · by_cases hi : i = s.buf.head
    · rw [hi, update_self] at hy
      injection hy with hy
      rw [← hy, hi]
      exact htags _ x (by rw [hslot]; rfl)
    · rw [update_of_ne hi] at hy
      exact htags i y hy

end

/-- Whether a message with the number has left, is held, or is stored. -/
def Knows (tag : α → Nat) (s : Node α) (n : Nat) : Prop :=
  ∃ y, (y ∈ s.delivered ∨ s.holder = some y ∨ y ∈ s.buf.available) ∧ tag y = n

theorem knows_iff {slots : Nat → Slot α} (hrep : s.buf.Represents W slots)
    (hreserved : ∀ i x, slots i = .reservedItem x ↔ i = s.buf.head ∧ s.holder = some x)
    (htags : ∀ i x, (slots i).item = some x → tag x = i)
    (hleft : s.delivered.map tag = List.range s.buf.head) (n : Nat) :
    s.Knows tag n ↔ n < s.buf.head ∨ slots n ≠ .noItem := by
  have hmem : n ∈ s.delivered.map tag ↔ n < s.buf.head := by rw [hleft, List.mem_range]
  rw [List.mem_map] at hmem
  constructor
  · rintro ⟨y, hy | hy | hy, rfl⟩
    · exact .inl (hmem.mp ⟨y, hy, rfl⟩)
    · have hslot := (hreserved s.buf.head y).mpr ⟨rfl, hy⟩
      rw [htags _ y (by rw [hslot]; rfl)]
      exact .inr (by rw [hslot]; simp)
    · obtain ⟨i, hslot⟩ := hrep.mem_available.mp hy
      rw [htags i y (by rw [hslot]; rfl)]
      exact .inr (by rw [hslot]; simp)
  · rintro (hlt | hne)
    · obtain ⟨y, hy, htag⟩ := hmem.mpr hlt
      exact ⟨y, .inl hy, htag⟩
    · cases hslot : slots n with
      | noItem => exact absurd hslot hne
      | hasItem y =>
        exact ⟨y, .inr (.inr (hrep.mem_available.mpr ⟨n, hslot⟩)), htags n y (by rw [hslot]; rfl)⟩
      | reservedItem y =>
        exact ⟨y, .inr (.inl ((hreserved n y).mp hslot).2), htags n y (by rw [hslot]; rfl)⟩

section

variable (h : s.Tagged W tag)
include h

/-- A put returns if and only if the ring can grow to the tag, and then rejects the tags the
node knows. -/
theorem Tagged.sequence (htag : tag x + 1 < 2 ^ W.bits) :
    if tag x + 1 ≤ s.buf.head + W.maxArray then
      ∃ stored buf, s.buf.sequence W (tag x) x = some (stored, buf) ∧
        (stored = false ↔ s.Knows tag (tag x)) ∧ Tagged W tag { s with buf := buf }
    else s.buf.sequence W (tag x) x = none := by
  obtain ⟨slots, hrep, hreserved, htags, hleft⟩ := h
  have hknows := knows_iff hrep hreserved htags hleft (tag x)
  split
  case isFalse hfar => exact hrep.sequence_eq_none htag (by omega)
  case isTrue hfit =>
    rcases lt_or_ge (tag x) s.buf.head with hemitted | hlow
    · exact ⟨false, s.buf, if_pos hemitted, by simp [hknows, hemitted],
        slots, hrep, hreserved, htags, hleft⟩
    obtain ⟨buf, hhead, hstored, hrejected⟩ := hrep.sequence (x := x) htag hlow hfit
    by_cases hslot : slots (tag x) = .noItem
    · obtain ⟨heq, hrep'⟩ := hstored hslot
      refine ⟨true, buf, heq, ?_, _, hrep', fun i y => ?_, fun i y hy => ?_, ?_⟩
      · simp only [hknows, hslot, ne_eq, not_true_eq_false, or_false, Bool.true_eq_false,
          false_iff]
        omega
      · rw [ItemBuffer.update_eq_reservedItem (by simp [hslot]) (by simp)]
        change _ ↔ i = buf.head ∧ s.holder = some y
        rw [hhead]
        exact hreserved i y
      · by_cases hi : i = tag x
        · rw [hi, update_self] at hy
          injection hy with hy
          rw [← hy, hi]
        · rw [update_of_ne hi] at hy
          exact htags i y hy
      · change _ = List.range buf.head
        rw [hhead]
        exact hleft
    · obtain ⟨heq, hrep'⟩ := hrejected hslot
      refine ⟨false, buf, heq, by simp [hknows, hslot], slots, hrep', fun i y => ?_, htags, ?_⟩
      · change _ ↔ i = buf.head ∧ s.holder = some y
        rw [hhead]
        exact hreserved i y
      · change _ = List.range buf.head
        rw [hhead]
        exact hleft

theorem Tagged.congr (hbuf : t.buf = s.buf)
    (hholder : t.holder = s.holder) (hdelivered : t.delivered = s.delivered) :
    t.Tagged W tag := by
  unfold Tagged at *
  rw [hbuf, hholder, hdelivered]
  exact h

theorem Tagged.internalPop (hnone : s.reserved = false → s.holder = none) :
    (s.internalPop W (.sequencer tag)).2.Tagged W tag := by
  unfold Node.internalPop
  dsimp only
  split
  case isTrue => exact h
  case isFalse hcan =>
    simp only [Bool.or_eq_true, Bool.not_eq_true', not_or, Bool.not_eq_true,
      Bool.not_eq_false] at hcan
    exact h.deliver (hnone hcan.1) hcan.2

theorem Tagged.internalForwardTask
    (hnone : s.reserved = false → s.holder = none) (answers : List Bool) :
    (s.internalForwardTask W (.sequencer tag) answers).2.Tagged W tag := by
  unfold Node.internalForwardTask
  split
  case isTrue => exact h.congr rfl rfl rfl
  case isFalse hcan =>
    simp only [Bool.or_eq_true, not_or, Bool.not_eq_true] at hcan
    have hloop := h.forwardLoop (hnone hcan.1) answers
    dsimp only
    split
    case isTrue => exact hloop
    case isFalse => exact hloop.congr rfl rfl rfl

theorem Tagged.internalPush (htag : tag x + 1 < 2 ^ W.bits) {stored : Bool}
    (ht : s.internalPush W (.sequencer tag) x = some (stored, t)) : t.Tagged W tag := by
  obtain ⟨⟨stored', buf⟩, hbuf, heq⟩ := map_eq_some_iff.mp ht
  cases heq
  change s.buf.sequence W (tag x) x = some (stored', buf) at hbuf
  have hput := h.sequence htag
  split at hput
  case isTrue =>
    obtain ⟨stored'', buf', hbuf', -, htagged⟩ := hput
    rw [hbuf] at hbuf'
    cases hbuf'
    exact htagged.congr rfl rfl rfl
  case isFalse =>
    rw [hput] at hbuf
    cases hbuf

end

theorem perform_putItem (s : Node α) (x : α) :
    s.perform W (.sequencer tag) (.putItem x) =
      (s.buf.sequence W (tag x) x).map fun r => (r.1, { s with
        buf := r.2, accepted := if r.1 then s.accepted ++ [x] else s.accepted,
        tryForwarding := r.1 }) :=
  map_map _ _ _

theorem Tagged.perform (h : s.Tagged W tag) (hflag : s.reserved = s.holder.isSome) {op : Op α}
    {status : Bool} (hlegal : s.Legal op)
    (hallows : s.Allows W (.sequencer tag) op)
    (ht : s.perform W (.sequencer tag) op = some (status, t)) : t.Tagged W tag := by
  have hnone : s.reserved = false → s.holder = none := by
    intro hfree
    rw [hfree] at hflag
    simpa using hflag.symm
  cases op with
  | regSucc =>
    cases ht
    exact h.congr rfl rfl rfl
  | remSucc =>
    cases ht
    exact h
  | reqItem =>
    have hpop := h.internalPop hnone
    rw [some.inj ht] at hpop
    exact hpop
  | resItem =>
    have hreserve := h.reserveFront hflag
    rw [show s.reserveFront = (status, t) from some.inj ht] at hreserve
    exact hreserve
  | relRes =>
    obtain ⟨x, hx⟩ := ne_none_iff_exists'.mp hlegal
    obtain ⟨t', ht', heq⟩ := map_eq_some_iff.mp ht
    cases heq
    exact (h.internalRelease hx ht').congr rfl rfl rfl
  | conRes =>
    obtain ⟨x, hx⟩ := ne_none_iff_exists'.mp hlegal
    cases ht
    exact (h.internalConsume hx).congr rfl rfl rfl
  | putItem x =>
    obtain ⟨r, hr, heq⟩ := map_eq_some_iff.mp ht
    cases heq
    exact (h.internalPush (hallows) hr).congr rfl rfl rfl
  | tryFwdTask answers =>
    have hforward := h.internalForwardTask hnone answers
    rw [some.inj ht] at hforward
    exact hforward

theorem tagged_of_run (run : ReflTransGen (CarefulStep W (.sequencer tag)) Node.initial s) :
    s.Tagged W tag := by
  apply Transition.run_preserves_along (fun u hu => sound_of_run hu) _ run
    Tagged.initial
  intro u v hsound h hstep
  cases hstep with
  | perform legal allows ht => exact h.perform hsound.flag legal allows ht
  | endBatch active => exact h.congr rfl rfl rfl

/-- In every run of a `sequencer_node` the messages leave with the tags `0, 1, 2, …`, none is
lost, and a put returns with the right answer if and only if the ring can grow to its tag: the
tag is less than `W.maxArray` after the number of messages that have left. -/
theorem sequencer_in_order (run : ReflTransGen (CarefulStep W (.sequencer tag)) Node.initial s) :
    s.delivered.map tag = List.range s.delivered.length ∧ s.Conserved ∧
      ∀ x, tag x + 1 < 2 ^ W.bits →
        ((∃ status t, s.perform W (.sequencer tag) (.putItem x) = some (status, t) ∧
          (status = false ↔ s.Knows tag (tag x))) ↔
          tag x + 1 ≤ s.delivered.length + W.maxArray) := by
  have h := tagged_of_run run
  have hleft : s.delivered.map tag = List.range s.buf.head := by
    obtain ⟨slots, -, -, -, hleft⟩ := h
    exact hleft
  have hlength : s.delivered.length = s.buf.head := by
    simpa using congrArg List.length hleft
  rw [hlength]
  refine ⟨hleft, (sound_of_run run).conserved, fun x htag => ?_⟩
  have hput := h.sequence htag
  rw [perform_putItem]
  split at hput
  case isTrue hfit =>
    obtain ⟨stored, buf, heq, hknows, -⟩ := hput
    rw [heq]
    exact ⟨fun _ => hfit, fun _ => ⟨stored, _, rfl, hknows⟩⟩
  case isFalse hfar =>
    rw [hput]
    refine ⟨?_, fun hfit => absurd hfit hfar⟩
    rintro ⟨status, t, ht, -⟩
    cases ht

/-- A node that got the messages 1 and 0 has sent both in order, and rejects a second 0. -/
theorem sequencer_in_order_two :
    ∃ s : Node Nat, ReflTransGen (CarefulStep .word64 (.sequencer id)) Node.initial s ∧
      s.delivered = [0, 1] ∧
      s.delivered.map id = List.range s.delivered.length ∧
      ∃ status t, s.perform .word64 (.sequencer id) (.putItem 0) = some (status, t) ∧
        (status = false ↔ s.Knows id 0) := by
  have h₁ := ReflTransGen.single (@CarefulStep.perform Nat .word64 (.sequencer id) Node.initial _
    (.putItem 1) _ trivial (show _ < _ by decide) rfl)
  have h₂ := h₁.tail (@CarefulStep.perform Nat .word64 (.sequencer id) _ _ (.putItem 0) _ trivial
    (show _ < _ by decide) rfl)
  have h₃ := h₂.tail (@CarefulStep.perform Nat .word64 (.sequencer id) _ _ .reqItem _ trivial
    (by rintro ⟨⟩) rfl)
  have h₄ := h₃.tail (@CarefulStep.perform Nat .word64 (.sequencer id) _ _ (.tryFwdTask [true]) _
    trivial trivial rfl)
  have h := sequencer_in_order h₄
  refine ⟨_, h₄, rfl, h.1, (h.2.2 0 (by decide)).mpr ?_⟩
  exact Nat.le_add_left_of_le Nat.one_le_two_pow

/-- On 64-bit words the put of tag `2 ^ 63` into a fresh node never returns: the doubled size
of the array becomes zero, and the loop of `grow_my_array` does not end however long it runs. -/
theorem sequencer_never_returns :
    ¬ (Node.initial : Node Nat).Knows id (2 ^ 63) ∧
      (Node.initial : Node Nat).perform .word64 (.sequencer id) (.putItem (2 ^ 63)) = none ∧
      ∀ fuel, ItemBuffer.growLoop 64 (2 ^ 63 + 1) fuel 8 = none := by
  have hrep : (Node.initial : Node Nat).buf.Represents .word64 fun _ => .noItem :=
    ItemBuffer.Represents.initial
  refine ⟨?_, ?_, ?_⟩
  · rw [knows_iff hrep (by simp [Node.initial]) (by simp [Slot.item]) rfl]
    simp [Node.initial, ItemBuffer.initial]
  · rw [perform_putItem, hrep.sequence_eq_none (by decide)]
    · rfl
    · have hmax : SizeType.word64.maxArray ≤ 2 ^ 63 :=
        Nat.pow_le_pow_right (by decide) (Nat.min_le_left _ _)
      change 0 + SizeType.word64.maxArray < 2 ^ 63 + 1
      omega
  · intro fuel
    by_contra hsome
    obtain ⟨r, hr⟩ := ne_none_iff_exists'.mp hsome
    obtain ⟨hle, k, hk, rfl⟩ :=
      ItemBuffer.growLoop_pow (by decide) (.inr ⟨3, by decide, rfl⟩) hr
    have := Nat.pow_le_pow_right (show 0 < 2 by decide) (show k ≤ 63 by omega)
    omega

end OneTbb.FlowGraph.Node
