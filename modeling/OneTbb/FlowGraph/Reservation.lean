import OneTbb.FlowGraph.BufferNode

/-!
# Reserved items of the buffering nodes

As long as no `buffer_node` is asked for an item while its only item is reserved, no
tag of a `sequencer_node` is the largest number, and no put makes `my_tail` wrap around,
every accepted message has left the node, is held by the reserver, or may be got.
-/

namespace OneTbb.FlowGraph.Node

open Option Function Relation Multiset

variable {α : Type*} (W : SizeType) (kind : Kind α)

/-- A reservation is consumed or released by its holder. -/
def Legal (s : Node α) : Op α → Prop
  | .relRes | .conRes => s.holder ≠ none
  | _ => True

/-- No item is requested from a `buffer_node` that has nothing but a reserved item, and the
number after the tag of a message, or after the tail it is put at, can be represented. -/
def Allows (s : Node α) : Op α → Prop
  | .reqItem => kind = .buffer → s.holder ≠ none → s.buf.tail ≠ s.buf.head + 1
  | .putItem x =>
    match kind with
    | .buffer | .queue => s.buf.tail + 1 < 2 ^ W.bits
    | .sequencer tag => tag x + 1 < 2 ^ W.bits
    | .priority _ => True
  | _ => True

/-- A step of an operation the condition allows, or the end of a batch. -/
inductive CarefulStep : Node α → Node α → Prop
  | perform {s t : Node α} {op : Op α} {status : Bool} (legal : s.Legal op)
      (allows : s.Allows W kind op) (h : s.perform W kind op = some (status, t)) :
      CarefulStep s t
  | endBatch (s : Node α) (active : Bool) : CarefulStep s (s.endBatch kind active)

/-- Every accepted message has left, is held by the reserver, or may be got. -/
def Conserved (s : Node α) : Prop :=
  (s.accepted : Multiset α) = s.delivered + s.holder.toList + s.buf.available

/-- In a ring only the slot at the head is reserved. -/
def Windowed (s : Node α) : Prop :=
  ∃ slots, s.buf.Represents W slots ∧
    ∀ i x, slots i = .reservedItem x ↔ i = s.buf.head ∧ s.holder = some x

/-- How the items lie in the buffer. The heap of `priority_queue_node` keeps the reserved item
aside. -/
def Shape (s : Node α) : Prop :=
  match kind with
  | .priority _ => Priority.Filled W s.buf none s.buf.available ∧ s.mark ≤ s.buf.tail ∧
      s.reservedItem = s.holder
  | _ => s.Windowed W

theorem shape_iff_windowed {s : Node α} (hkind : ∀ compare, kind ≠ .priority compare) :
    s.Shape W kind ↔ s.Windowed W := by
  unfold Shape
  split
  case h_1 compare => exact absurd rfl (hkind compare)
  case h_2 => exact Iff.rfl

structure Sound (s : Node α) : Prop where
  conserved : s.Conserved
  flag : s.reserved = s.holder.isSome
  shape : s.Shape W kind

variable {W kind} {s : Node α}

theorem Sound.head_le (h : s.Sound W kind) : s.buf.head ≤ s.buf.tail := by
  have hshape := h.shape
  unfold Shape at hshape
  split at hshape
  case h_1 =>
    rw [hshape.1.head_eq]
    exact Nat.zero_le _
  case h_2 =>
    obtain ⟨slots, hrep, -⟩ := hshape
    exact hrep.head_le

theorem Sound.initial : (Node.initial : Node α).Sound W kind := by
  have hrep := @ItemBuffer.Represents.initial α W
  constructor
  case conserved => rfl
  case flag => rfl
  case shape =>
    unfold Shape
    split
    case h_1 => exact ⟨⟨rfl, ⟨_, hrep, fun i hi => absurd hi (Nat.not_lt_zero i), by simp⟩, rfl⟩,
      le_rfl, rfl⟩
    case h_2 => exact ⟨_, hrep, by simp [Node.initial]⟩

/-! ## Taking an item -/

theorem Windowed.popBack (h : s.Windowed W) (hvalid : s.buf.itemValid (s.buf.tail - 1) = true)
    (hfree : s.holder ≠ none → s.buf.tail ≠ s.buf.head + 1) :
    ∃ x, s.buf.popBack = some (x, s.buf.destroyBack) ∧
      s.buf.available = s.buf.destroyBack.available + {x} ∧
      Windowed W { s with buf := s.buf.destroyBack } := by
  obtain ⟨slots, hrep, hreserved⟩ := h
  have hnot : ∀ x, slots (s.buf.tail - 1) ≠ .reservedItem x := by
    intro x hx
    obtain ⟨hlast, hholder⟩ := (hreserved _ x).mp hx
    have hin : s.buf.tail - 1 < s.buf.tail := by
      by_contra hout
      rw [hrep.outside _ (by omega)] at hx
      cases hx
    exact hfree (by rw [hholder]; simp) (by omega)
  obtain ⟨x, hpop, hslot, hdestroy, havailable⟩ := hrep.popBack hvalid hnot
  refine ⟨x, hpop, havailable, _, hdestroy, fun i y => ?_⟩
  rw [ItemBuffer.update_eq_reservedItem hnot (by simp)]
  exact hreserved i y

theorem Windowed.popFront (h : s.Windowed W) (hvalid : s.buf.itemValid s.buf.head = true)
    (hfree : s.holder = none) :
    ∃ x, s.buf.popFront W = some (x, s.buf.destroyFront W) ∧
      s.buf.available = (s.buf.destroyFront W).available + {x} ∧
      Windowed W { s with buf := s.buf.destroyFront W } := by
  obtain ⟨slots, hrep, hreserved⟩ := h
  have hnot : ∀ i x, slots i ≠ .reservedItem x := by
    intro i x hx
    have hholder := ((hreserved _ x).mp hx).2
    rw [hfree] at hholder
    cases hholder
  obtain ⟨x, hpop, hslot, hdestroy, havailable⟩ := hrep.popFront hvalid (hnot _)
  refine ⟨x, hpop, havailable, _, hdestroy, fun i y => ?_⟩
  rw [ItemBuffer.update_eq_reservedItem (hnot _) (by simp)]
  simp [hnot i y, hfree]

/-- What is taken is not what a reserver holds, and it is gone afterwards. -/
theorem take_spec (hshape : s.Shape W kind) (hvalid : s.isItemValid kind = true)
    (hfree : s.holder ≠ none → kind = .buffer ∧ s.buf.tail ≠ s.buf.head + 1) :
    ∃ x buf mark, s.take W kind = some (x, { s with buf := buf, mark := mark }) ∧
      s.buf.available = buf.available + {x} ∧
      Shape W kind { s with buf := buf, mark := mark } := by
  have hnone : kind ≠ .buffer → s.holder = none := by
    intro hkind
    by_contra hne
    exact hkind (hfree hne).1
  cases kind with
  | buffer =>
    obtain ⟨x, hpop, havailable, hwindow⟩ :=
      Windowed.popBack hshape hvalid fun hne => (hfree hne).2
    exact ⟨x, _, s.mark, by rw [take, hpop]; rfl, havailable, hwindow⟩
  | queue | sequencer tag =>
    obtain ⟨x, hpop, havailable, hwindow⟩ :=
      Windowed.popFront hshape hvalid (hnone (by simp))
    exact ⟨x, _, s.mark, by rw [take, hpop]; rfl, havailable, hwindow⟩
  | priority compare =>
    obtain ⟨hfilled, hmark, hitem⟩ := hshape
    have hpos : 0 < s.buf.tail := by simpa [isItemValid] using hvalid
    obtain ⟨x, rest, hx, hrest, hpop, htail, hmark'⟩ := hfilled.prioPop compare hpos hmark
    refine ⟨x, _, _, by rw [take, hx]; rfl, ?_, ?_⟩
    · rw [hpop.available_eq]
      exact hrest
    · exact ⟨⟨hpop.head_eq, hpop.slots, rfl⟩, by dsimp only; omega, hitem⟩

variable {x : α} {buf : ItemBuffer α} {t : Node α}

theorem Shape.congr (h : s.Shape W kind) (hbuf : t.buf = s.buf)
    (hmark : t.mark = s.mark) (hitem : t.reservedItem = s.reservedItem)
    (hholder : t.holder = s.holder) : t.Shape W kind := by
  unfold Shape Windowed at *
  rw [hbuf, hmark, hitem, hholder]
  exact h

theorem Sound.deliver (h : s.Sound W kind) (hvalid : s.isItemValid kind = true)
    (hfree : s.holder ≠ none → kind = .buffer ∧ s.buf.tail ≠ s.buf.head + 1) :
    (s.deliver W kind).Sound W kind ∧ (s.deliver W kind).holder = s.holder := by
  obtain ⟨x, buf, mark, htake, havailable, hshape⟩ := take_spec h.shape hvalid hfree
  have hconserved := h.conserved
  rw [Node.deliver, htake]
  refine ⟨⟨?_, h.flag, hshape.congr rfl rfl rfl rfl⟩, rfl⟩
  unfold Conserved at *
  dsimp only
  rw [hconserved, havailable, ← coe_add, ← coe_singleton]
  abel

theorem Sound.internalPop (h : s.Sound W kind) (hallows : s.Allows W kind .reqItem) :
    (s.internalPop W kind).2.Sound W kind ∧ (s.internalPop W kind).2.holder = s.holder := by
  have hflag := h.flag
  unfold Node.internalPop
  split
  case h_1 =>
    dsimp only
    split
    case isTrue hvalid => exact h.deliver hvalid fun hne => ⟨rfl, hallows rfl hne⟩
    case isFalse => exact ⟨h, rfl⟩
  case h_2 =>
    split
    case isTrue => exact ⟨h, rfl⟩
    case isFalse hcan =>
      simp only [Bool.or_eq_true, Bool.not_eq_true', not_or, Bool.not_eq_true,
        Bool.not_eq_false] at hcan
      apply h.deliver hcan.2
      intro hne
      rw [hcan.1] at hflag
      exact absurd (isNone_iff_eq_none.mp (by simpa using hflag.symm)) hne

/-! ## Reservations -/

theorem holder_eq_none (h : s.Sound W kind) (hflag : s.reserved = false) : s.holder = none := by
  have := h.flag
  rw [hflag] at this
  simpa using this.symm

theorem update_reserved_iff {slots : Nat → Slot α} {head : Nat}
    (hnot : ∀ i y, slots i ≠ .reservedItem y) (x : α) (i : Nat) (y : α) :
    update slots head (.reservedItem x) i = .reservedItem y ↔
      i = head ∧ some x = some y := by
  by_cases hi : i = head
  · rw [hi, update_self]
    simp
  · rw [update_of_ne hi]
    simp [hnot i y, hi]

theorem update_not_reserved {slots : Nat → Slot α} {head : Nat} {σ : Slot α}
    (hnot : ∀ i y, i ≠ head → slots i ≠ .reservedItem y) (hσ : ∀ y, σ ≠ .reservedItem y)
    (i : Nat) (y : α) : update slots head σ i ≠ .reservedItem y := by
  by_cases hi : i = head
  · rw [hi, update_self]
    exact hσ y
  · rw [update_of_ne hi]
    exact hnot i y hi

theorem Windowed.reserveFront (h : s.Windowed W) (hfree : s.holder = none)
    (hvalid : s.buf.itemValid s.buf.head = true)
    (hitem : (s.buf.element s.buf.head).item = some x) :
    s.buf.available = (s.buf.setSlot s.buf.head (.reservedItem x)).available + {x} ∧
      Windowed W { s with
        reserved := true, holder := some x
        buf := s.buf.setSlot s.buf.head (.reservedItem x) } := by
  obtain ⟨slots, hrep, hreserved⟩ := h
  have hnot : ∀ i y, slots i ≠ .reservedItem y := by
    intro i y hy
    have hholder := ((hreserved _ y).mp hy).2
    rw [hfree] at hholder
    cases hholder
  obtain ⟨y, hslot, hlow, hhigh, hitem'⟩ := hrep.exists_item hvalid (hnot _)
  obtain rfl : y = x := some.inj (hitem'.symm.trans hitem)
  have hset := hrep.setSlot hlow hhigh (.reservedItem y)
  have hupdate := hrep.available_update hset
  rw [hslot] at hupdate
  exact ⟨by simpa using hupdate.symm, _, hset, update_reserved_iff hnot y⟩

theorem Sound.internalReserve (h : s.Sound W kind) :
    (s.internalReserve W kind).2.Sound W kind ∧
      ∀ x, s.holder = some x → (s.internalReserve W kind).2.holder = some x := by
  have hflag := h.flag
  have hconserved := h.conserved
  have hshape := h.shape
  unfold Node.internalReserve
  split
  case h_1 compare =>
    split
    case isTrue => exact ⟨h, fun x hx => hx⟩
    case isFalse hcan =>
      simp only [Bool.or_eq_true, decide_eq_true_eq, not_or, Bool.not_eq_true] at hcan
      have hnone := holder_eq_none h hcan.1
      obtain ⟨x, buf, mark, htake, havailable, hshape'⟩ :=
        @take_spec α W (.priority compare) s hshape
          (by simp only [isItemValid, decide_eq_true_eq]; omega) (fun hne => absurd hnone hne)
      rw [htake]
      refine ⟨⟨?_, rfl, ?_⟩, fun y hy => ?_⟩
      · unfold Conserved at *
        dsimp only
        rw [hconserved, havailable, hnone]
        simp only [toList_none, toList_some, coe_nil,
          coe_singleton]
        abel
      · exact ⟨hshape'.1, hshape'.2.1, rfl⟩
      · rw [hnone] at hy
        cases hy
  case h_2 hkind =>
    unfold Node.reserveFront
    split
    case isTrue => exact ⟨h, fun x hx => hx⟩
    case isFalse hcan =>
      simp only [Bool.or_eq_true, Bool.not_eq_true', not_or, Bool.not_eq_true,
        Bool.not_eq_false] at hcan
      have hnone := holder_eq_none h hcan.1
      split
      case h_1 => exact ⟨h, fun x hx => hx⟩
      case h_2 x hitem =>
        have hwindow := (shape_iff_windowed W kind hkind).mp hshape
        obtain ⟨havailable, hwindow'⟩ := hwindow.reserveFront hnone hcan.2 hitem
        refine ⟨⟨?_, rfl, ?_⟩, fun y hy => ?_⟩
        · unfold Conserved at *
          dsimp only
          rw [hconserved, havailable, hnone]
          simp only [toList_none, toList_some, coe_nil,
            coe_singleton]
          abel
        · exact (shape_iff_windowed W kind hkind).mpr hwindow'
        · rw [hnone] at hy
          cases hy

theorem Windowed.reserved_slot (h : s.Windowed W) (hx : s.holder = some x) :
    ∃ slots, s.buf.Represents W slots ∧ slots s.buf.head = .reservedItem x ∧
      s.buf.head < s.buf.tail ∧ (s.buf.element s.buf.head).item = some x ∧
      ∀ i y, i ≠ s.buf.head → slots i ≠ .reservedItem y := by
  obtain ⟨slots, hrep, hreserved⟩ := h
  have hslot := (hreserved s.buf.head x).mpr ⟨rfl, hx⟩
  obtain ⟨-, hin, hitem⟩ := hrep.of_item (x := x) (by rw [hslot]; rfl)
  exact ⟨slots, hrep, hslot, hin, hitem, fun i y hi hy => hi ((hreserved i y).mp hy).1⟩

theorem Sound.internalConsume (h : s.Sound W kind) (hx : s.holder = some x) :
    (s.internalConsume W kind).Sound W kind ∧ (s.internalConsume W kind).holder = none ∧
      (s.internalConsume W kind).delivered = s.delivered ++ [x] := by
  have hconserved := h.conserved
  unfold Conserved at hconserved
  rw [hx] at hconserved
  unfold Node.internalConsume
  rw [hx]
  split
  case h_1 compare =>
    obtain ⟨hfilled, hmark, -⟩ := h.shape
    refine ⟨⟨?_, rfl, hfilled, hmark, rfl⟩, rfl, rfl⟩
    unfold Conserved
    simpa [← coe_add] using hconserved
  case h_2 hkind =>
    obtain ⟨slots, hrep, hslot, hin, -, hnot⟩ :=
      ((shape_iff_windowed W kind hkind).mp h.shape).reserved_slot hx
    have hdestroy := hrep.destroyFront hin
    have hupdate := hrep.available_update hdestroy
    rw [hslot] at hupdate
    simp only [Slot.available_reservedItem, Slot.available_noItem, add_zero] at hupdate
    refine ⟨⟨?_, rfl, ?_⟩, rfl, rfl⟩
    · unfold Conserved
      dsimp only
      rw [hupdate]
      simpa [← coe_add] using hconserved
    · refine (shape_iff_windowed W kind hkind).mpr ⟨_, hdestroy, fun i y => ?_⟩
      simp only [reduceCtorEq, and_false, iff_false]
      exact update_not_reserved hnot (by simp) i y

theorem Sound.internalRelease (h : s.Sound W kind) (hx : s.holder = some x)
    (ht : s.internalRelease W kind = some t) :
    t.Sound W kind ∧ t.holder = none ∧ t.delivered = s.delivered ∧ x ∈ t.buf.available := by
  have hconserved := h.conserved
  unfold Conserved at hconserved
  rw [hx] at hconserved
  unfold Node.internalRelease at ht
  split at ht
  case h_1 compare =>
    obtain ⟨hfilled, hmark, hitem⟩ := h.shape
    rw [hitem, hx] at ht
    dsimp only at ht
    rw [map_eq_some_iff] at ht
    obtain ⟨buf, hpush, rfl⟩ := ht
    obtain ⟨hfilled', htail⟩ := hfilled.prioPush hpush
    have havailable := hfilled'.available_eq
    refine ⟨⟨?_, rfl, ⟨hfilled'.head_eq, hfilled'.slots, rfl⟩, ?_, rfl⟩, rfl, rfl, ?_⟩
    · unfold Conserved
      dsimp only
      rw [hconserved, havailable]
      simp only [toList_none, toList_some, coe_nil, coe_singleton]
      abel
    · dsimp only
      omega
    · dsimp only
      rw [havailable]
      simp
  case h_2 hkind =>
    obtain ⟨slots, hrep, hslot, hin, hitem, hnot⟩ :=
      ((shape_iff_windowed W kind hkind).mp h.shape).reserved_slot hx
    rw [hitem] at ht
    injection ht with ht
    subst ht
    have hset := hrep.setSlot le_rfl hin (.hasItem x)
    have hupdate := hrep.available_update hset
    rw [hslot] at hupdate
    simp only [Slot.available_reservedItem, Slot.available_hasItem, add_zero] at hupdate
    refine ⟨⟨?_, rfl, ?_⟩, rfl, rfl, ?_⟩
    · unfold Conserved
      dsimp only
      rw [hupdate, hconserved]
      simp only [toList_none, toList_some, coe_nil, coe_singleton]
      abel
    · refine (shape_iff_windowed W kind hkind).mpr ⟨_, hset, fun i y => ?_⟩
      simp only [reduceCtorEq, and_false, iff_false]
      exact update_not_reserved hnot (by simp) i y
    · dsimp only
      rw [hupdate]
      simp

/-! ## Puts -/

theorem Sound.pushed (h : s.Sound W kind) (stored : Bool)
    (havailable : buf.available = s.buf.available + if stored then {x} else 0)
    (hshape : Shape W kind { s with buf := buf }) :
    Sound W kind { s with
      buf := buf, accepted := if stored then s.accepted ++ [x] else s.accepted } := by
  have hconserved := h.conserved
  refine ⟨?_, h.flag, hshape.congr rfl rfl rfl rfl⟩
  unfold Conserved at *
  dsimp only
  rw [havailable]
  cases stored
  · simpa using hconserved
  · simp only [if_true, ← coe_add, hconserved, coe_singleton]
    abel

theorem Windowed.pushBack (h : s.Windowed W) (hword : s.buf.tail + 1 < 2 ^ W.bits)
    (hpush : s.buf.pushBack W x = some buf) :
    buf.available = s.buf.available + {x} ∧ Windowed W { s with buf := buf } := by
  obtain ⟨slots, hrep, hreserved⟩ := h
  have hhead := hrep.head_le
  have htail := hrep.tail_le
  rw [ItemBuffer.pushBack, map_eq_some_iff] at hpush
  obtain ⟨grown, hgrown, rfl⟩ := hpush
  rw [ItemBuffer.size_of_le hhead hrep.tail_lt] at hgrown
  obtain ⟨hrep', hhead', htail', hroom⟩ :=
    hrep.grow_append (fun hfull => ⟨by omega, by omega⟩) (fun hfull => by omega) hgrown
  have hempty := hrep'.outside grown.tail (.inr le_rfl)
  have happend := hrep'.append hroom (by omega) x
  have hupdate := hrep'.available_update happend
  rw [hempty] at hupdate
  refine ⟨?_, _, happend, fun i y => ?_⟩
  · rw [← hrep.available_congr hrep']
    simpa using hupdate
  · rw [ItemBuffer.update_eq_reservedItem (by simp [hempty]) (by simp)]
    change _ ↔ i = grown.head ∧ s.holder = some y
    rw [hhead']
    exact hreserved i y

theorem Windowed.sequence (h : s.Windowed W) {tag : Nat} (htag : tag + 1 < 2 ^ W.bits)
    {stored : Bool}
    (hpush : s.buf.sequence W tag x = some (stored, buf)) :
    buf.available = s.buf.available + (if stored then {x} else 0) ∧
      Windowed W { s with buf := buf } := by
  obtain ⟨slots, hrep, hreserved⟩ := h
  rcases lt_or_ge tag s.buf.head with hemitted | hlow
  · have hsequence : s.buf.sequence W tag x = some (false, s.buf) := if_pos hemitted
    rw [hsequence] at hpush
    cases hpush
    exact ⟨by simp, slots, hrep, hreserved⟩
  rcases lt_or_ge (s.buf.head + W.maxArray) (tag + 1) with hfar | hfit
  · rw [hrep.sequence_eq_none htag hfar] at hpush
    cases hpush
  obtain ⟨b', hhead, hstored, hrejected⟩ := hrep.sequence (x := x) htag hlow hfit
  by_cases hslot : slots tag = .noItem
  · obtain ⟨heq, hrep'⟩ := hstored hslot
    rw [heq] at hpush
    obtain ⟨rfl, rfl⟩ := Prod.mk.inj (some.inj hpush)
    have hupdate := hrep.available_update hrep'
    rw [hslot] at hupdate
    refine ⟨by simpa using hupdate, _, hrep', fun i y => ?_⟩
    rw [ItemBuffer.update_eq_reservedItem (by simp [hslot]) (by simp)]
    change _ ↔ i = b'.head ∧ s.holder = some y
    rw [hhead]
    exact hreserved i y
  · obtain ⟨heq, hrep'⟩ := hrejected hslot
    rw [heq] at hpush
    obtain ⟨rfl, rfl⟩ := Prod.mk.inj (some.inj hpush)
    refine ⟨by simpa using hrep.available_congr hrep', slots, hrep', fun i y => ?_⟩
    change _ ↔ i = b'.head ∧ s.holder = some y
    rw [hhead]
    exact hreserved i y

section

variable (h : s.Sound W kind)
include h

theorem Sound.internalPush (hallows : s.Allows W kind (.putItem x)) {r : Bool × Node α}
    (hpush : s.internalPush W kind x = some r) :
    r.2.Sound W kind ∧ r.2.holder = s.holder := by
  obtain ⟨⟨stored, buf⟩, hbuf, rfl⟩ := map_eq_some_iff.mp hpush
  refine ⟨?_, rfl⟩
  have hshape := h.shape
  cases kind with
  | buffer | queue =>
    obtain ⟨buf', hbuf', heq⟩ := map_eq_some_iff.mp hbuf
    cases heq
    obtain ⟨havailable, hwindow⟩ := Windowed.pushBack hshape hallows hbuf'
    exact h.pushed true havailable hwindow
  | sequencer tag =>
    obtain ⟨havailable, hwindow⟩ := Windowed.sequence hshape hallows hbuf
    exact h.pushed stored havailable hwindow
  | priority compare =>
    obtain ⟨buf', hbuf', heq⟩ := map_eq_some_iff.mp hbuf
    cases heq
    obtain ⟨hfilled, hmark, hitem⟩ := hshape
    obtain ⟨hfilled', htail⟩ := hfilled.prioPush hbuf'
    exact h.pushed true hfilled'.available_eq
      ⟨⟨hfilled'.head_eq, hfilled'.slots, rfl⟩, by dsimp only; omega, hitem⟩

/-! ## Forwarding -/

theorem Sound.forwardLoop (hnone : s.holder = none) (answers : List Bool) :
    (forwardLoop W kind answers s).2.2.Sound W kind ∧
      (Node.forwardLoop W kind answers s).2.2.holder = none := by
  induction answers generalizing s with
  | nil => exact ⟨h, hnone⟩
  | cons answer rest ih =>
    unfold Node.forwardLoop
    split
    case isFalse => exact ⟨h, hnone⟩
    case isTrue hvalid =>
      cases answer
      · exact ih h hnone
      · obtain ⟨hdeliver, hholder⟩ := h.deliver hvalid fun hne => absurd hnone hne
        exact ih hdeliver (hholder.trans hnone)

theorem Sound.congr
    (ht : t = { s with forwarderBusy := t.forwarderBusy, tryForwarding := t.tryForwarding }) :
    t.Sound W kind := by
  rw [ht]
  exact ⟨h.conserved, h.flag, h.shape.congr rfl rfl rfl rfl⟩

theorem Sound.internalForwardTask (answers : List Bool) :
    (s.internalForwardTask W kind answers).2.Sound W kind ∧
      (s.internalForwardTask W kind answers).2.holder = s.holder := by
  unfold Node.internalForwardTask
  split
  case isTrue => exact ⟨h.congr rfl, rfl⟩
  case isFalse hcan =>
    simp only [Bool.or_eq_true, not_or, Bool.not_eq_true] at hcan
    have hnone := holder_eq_none h hcan.1
    obtain ⟨hloop, hholder⟩ := h.forwardLoop hnone answers
    dsimp only
    split
    case isTrue => exact ⟨hloop, hholder.trans hnone.symm⟩
    case isFalse => exact ⟨hloop.congr rfl, hholder.trans hnone.symm⟩

theorem Sound.endBatch (active : Bool) :
    (s.endBatch kind active).Sound W kind := by
  have horder : (s.order kind).Sound W kind := by
    unfold Node.order
    split
    case h_1 compare =>
      split
      case isFalse => exact h
      case isTrue =>
        obtain ⟨hfilled, hmark, hitem⟩ := h.shape
        obtain ⟨hfilled', htail⟩ := hfilled.heapify compare s.mark
        have hconserved := h.conserved
        refine ⟨?_, h.flag, ⟨hfilled'.head_eq, hfilled'.slots, rfl⟩, ?_, hitem⟩
        · unfold Conserved at *
          dsimp only
          rw [hfilled'.available_eq]
          exact hconserved
        · dsimp only
          omega
    case h_2 => exact h
  exact horder.congr rfl

end

/-! ## Operations -/

/-- What an operation does to a message that is held by its reserver. -/
def Respects (s t : Node α) (x : α) : Op α → Prop
  | .conRes => t.holder = none ∧ t.delivered = s.delivered ++ [x]
  | .relRes => t.holder = none ∧ t.delivered = s.delivered ∧ x ∈ t.buf.available
  | _ => t.holder = some x

theorem Sound.perform (h : s.Sound W kind) {op : Op α} {status : Bool}
    (hlegal : s.Legal op) (hallows : s.Allows W kind op)
    (ht : s.perform W kind op = some (status, t)) :
    t.Sound W kind ∧ ∀ x, s.holder = some x → Respects s t x op := by
  cases op with
  | regSucc =>
    cases ht
    exact ⟨h.congr rfl, fun x hx => hx⟩
  | remSucc =>
    cases ht
    exact ⟨h, fun x hx => hx⟩
  | reqItem =>
    obtain ⟨hsound, hholder⟩ := h.internalPop hallows
    rw [some.inj ht] at hsound hholder
    exact ⟨hsound, fun x hx => hholder.trans hx⟩
  | resItem =>
    obtain ⟨hsound, hholder⟩ := h.internalReserve
    rw [some.inj ht] at hsound hholder
    exact ⟨hsound, hholder⟩
  | relRes =>
    obtain ⟨x, hx⟩ := ne_none_iff_exists'.mp hlegal
    obtain ⟨t', ht', heq⟩ := map_eq_some_iff.mp ht
    cases heq
    obtain ⟨hsound, hrest⟩ := h.internalRelease hx ht'
    refine ⟨hsound.congr rfl, fun y hy => ?_⟩
    obtain rfl : x = y := some.inj (hx.symm.trans hy)
    exact hrest
  | conRes =>
    obtain ⟨x, hx⟩ := ne_none_iff_exists'.mp hlegal
    cases ht
    obtain ⟨hsound, hrest⟩ := h.internalConsume hx
    refine ⟨hsound.congr rfl, fun y hy => ?_⟩
    obtain rfl : x = y := some.inj (hx.symm.trans hy)
    exact hrest
  | putItem x =>
    obtain ⟨r, hr, heq⟩ := map_eq_some_iff.mp ht
    cases heq
    obtain ⟨hsound, hholder⟩ := h.internalPush hallows hr
    exact ⟨hsound.congr rfl, fun y hy => hholder.trans hy⟩
  | tryFwdTask answers =>
    obtain ⟨hsound, hholder⟩ := h.internalForwardTask answers
    rw [some.inj ht] at hsound hholder
    exact ⟨hsound, fun x hx => hholder.trans hx⟩

theorem sound_of_run (run : ReflTransGen (CarefulStep W kind) Node.initial s) : s.Sound W kind := by
  apply Transition.run_preserves _ run (Sound.initial)
  intro s t h hstep
  cases hstep with
  | perform legal allows ht => exact (h.perform legal allows ht).1
  | endBatch active => exact h.endBatch active

/-- In every run that asks no `buffer_node` for an item while it has only a reserved one, puts
no message with the largest tag into a `sequencer_node` and none at the largest position into
a `buffer_node` or a `queue_node`, the head does not pass the tail, every accepted message has
left, is held or may be got, and a held message stays with its holder until it is consumed,
when it leaves, or released, when it may be got. -/
theorem reserved_belongs_to_reserver (run : ReflTransGen (CarefulStep W kind) Node.initial s) :
    s.buf.head ≤ s.buf.tail ∧ s.Conserved ∧
      ∀ x op status t, s.holder = some x → s.Legal op → s.Allows W kind op →
        s.perform W kind op = some (status, t) → Respects s t x op := by
  have h := sound_of_run run
  refine ⟨h.head_le, h.conserved, fun x op status t hx hlegal hallows ht => ?_⟩
  exact (h.perform hlegal hallows ht).2 x hx

/-- A queue keeps a reserved item from a request. -/
theorem reserved_belongs_to_reserver_queue :
    ∃ s : Node Nat, ReflTransGen (CarefulStep .word64 .queue) Node.initial s ∧
      s.holder = some 7 ∧
      ∀ status t, s.perform .word64 .queue .reqItem = some (status, t) → t.holder = some 7 := by
  have hput := ReflTransGen.single (@CarefulStep.perform Nat .word64 .queue Node.initial _
    (.putItem 7) _ trivial (by decide : 0 + 1 < 2 ^ 64) rfl)
  have hreserved := hput.tail (@CarefulStep.perform Nat .word64 .queue _ _ .resItem _ trivial
    trivial rfl)
  refine ⟨_, hreserved, rfl, fun status t ht => ?_⟩
  exact (reserved_belongs_to_reserver hreserved).2.2 7 .reqItem status t rfl trivial
    (by simp [Allows]) ht

/-- A `buffer_node` gives its only item to a request although it is reserved. The item is
delivered again when the reserver consumes it, and the head passes the tail. -/
theorem buffer_gives_reserved :
    ∃ s t : Node Nat, [.putItem 7, .resItem, .reqItem].foldlM
        (fun s op => (s.perform .word64 .buffer op).map Prod.snd) Node.initial = some s ∧
      s.holder = some 7 ∧ s.delivered = [7] ∧ s.perform .word64 .buffer .conRes = some (true, t) ∧
      t.delivered = [7, 7] ∧ t.buf.tail < t.buf.head :=
  ⟨_, _, rfl, rfl, rfl, rfl, rfl, by decide +kernel⟩

end OneTbb.FlowGraph.Node
