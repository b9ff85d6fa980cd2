import OneTbb.Library.Ring
import OneTbb.Pipeline.Model

/-!
# The input buffer as a map from tickets

Behind the wrapped tokens of an `input_buffer` stand tickets that are never
reused. `Holds b low content` says that the buffer represents the map `content`
from tickets to deferred task information, and that `low` is the ticket behind
`low_token`. All deferred tickets are greater than `low` and within one array
size of it, so that neither the wrapping of the tokens nor the growth of the
array can confuse two of them.
-/

namespace OneTbb.Pipeline

open Function Nat

open RingIndex

variable {w : Nat} {b b' : InputBuffer} {low : Nat} {content : Nat → Option TaskInfo}

structure Holds (w : Nat) (b : InputBuffer) (low : Nat) (content : Nat → Option TaskInfo) :
    Prop where
  size : ∃ j, b.arraySize = 2 ^ j ∧ j < w
  lowToken : b.lowToken = low % 2 ^ w
  window : ∀ i info, content i = some info → low < i ∧ i < low + b.arraySize
  slot_some : ∀ i info, content i = some info →
    b.array (i % b.arraySize) = info ∧ info.isValid = true
  slot_none : ∀ i, low ≤ i → i < low + b.arraySize → content i = none →
    (b.array (i % b.arraySize)).isValid = false

theorem holds_new (hw : 2 < w) (ordered : Bool) :
    Holds w (InputBuffer.new ordered) 0 fun _ => none where
  size := ⟨2, rfl, hw⟩
  lowToken := (zero_mod _).symm
  window := by simp
  slot_some := by simp
  slot_none := fun _ _ _ _ => rfl

theorem Holds.size_pos (h : Holds w b low content) : 0 < b.arraySize := by
  obtain ⟨j, hj, _⟩ := h.size
  rw [hj]
  exact Nat.two_pow_pos j

theorem Holds.slot_wrap (h : Holds w b low content) (i : Nat) :
    b.slot (i % 2 ^ w) = i % b.arraySize := by
  obtain ⟨j, hj, hlt⟩ := h.size
  rw [InputBuffer.slot, hj, and_two_pow_sub_one_eq_mod, wrap_mod (le_of_lt hlt)]

/-- A size of zero never grows, so the loop does not end from there. -/
theorem not_doubleSize_zero {minimum r : Nat} (hm : 0 < minimum) :
    ¬ DoubleSize w minimum 0 r := by
  intro h
  generalize hz : (0 : Nat) = size at h
  induction h with
  | enough hn => omega
  | double _ _ ih =>
    subst hz
    exact ih (by simp)

/-- The loop of `grow` ends in a power of two that is large enough. -/
theorem DoubleSize.spec {minimum size r : Nat} (hm : 0 < minimum)
    (h : DoubleSize w minimum size r) :
    ∀ j, j < w → size = 2 ^ j → ∃ k, r = 2 ^ k ∧ j ≤ k ∧ k < w ∧ minimum ≤ r := by
  induction h with
  | enough hn =>
    rintro j hj rfl
    exact ⟨j, rfl, le_rfl, hj, not_lt.mp hn⟩
  | double _ next ih =>
    rintro j hj rfl
    have hsucc : 2 * 2 ^ j = 2 ^ (j + 1) := (pow_succ').symm
    rcases lt_or_ge (j + 1) w with hlt | hge
    · have hmod : 2 * 2 ^ j % 2 ^ w = 2 ^ (j + 1) := by
        rw [hsucc, mod_eq_of_lt (Nat.pow_lt_pow_right (by omega) hlt)]
      obtain ⟨k, hk, hjk, hkw, hmin⟩ := ih (j + 1) hlt hmod
      exact ⟨k, hk, by omega, hkw, hmin⟩
    · obtain rfl : w = j + 1 := by omega
      rw [hsucc, mod_self] at next
      exact absurd next (not_doubleSize_zero hm)

/-- The loop of `grow` ends if half of all tokens are enough. -/
theorem exists_doubleSize {minimum : Nat} (hm : minimum ≤ 2 ^ (w - 1)) {j : Nat}
    (hj : j < w) : ∃ r, DoubleSize w minimum (2 ^ j) r := by
  induction hn : w - j generalizing j with
  | zero => omega
  | succ n ih =>
    by_cases hlt : 2 ^ j < minimum
    · have hj' : j + 1 < w := by
        have : j < w - 1 := (Nat.pow_lt_pow_iff_right (by omega)).mp (lt_of_lt_of_le hlt hm)
        omega
      obtain ⟨r, hr⟩ := ih hj' (by omega)
      refine ⟨r, DoubleSize.double hlt ?_⟩
      rwa [← pow_succ', mod_eq_of_lt (Nat.pow_lt_pow_right (by omega) hj')]
    · exact ⟨_, DoubleSize.enough hlt⟩

section

variable (h : Holds w b low content)
include h

/-- What the copying loop has put into the slots of the new window. -/
theorem copySlots_spec {k : Nat} (hk : k < w) {count : Nat}
    (hc : count ≤ 2 ^ k) {i : Nat} (hi : i < 2 ^ k) :
    copySlots w b (2 ^ k) count ((low + i) % 2 ^ k) =
      if i < count then b.array ((low + i) % b.arraySize) else TaskInfo.none := by
  -- on the number of slots copied; the slots of one window are distinct
  induction count with
  | zero => rfl
  | succ count ih =>
    have ht : (b.lowToken + count) % 2 ^ w = (low + count) % 2 ^ w := by
      rw [h.lowToken, mod_add_mod]
    have hslot : (low + count) % 2 ^ w &&& (2 ^ k - 1) = (low + count) % 2 ^ k := by
      rw [and_two_pow_sub_one_eq_mod, wrap_mod (le_of_lt hk)]
    simp only [copySlots, ht, hslot, h.slot_wrap]
    by_cases hic : i = count
    · subst hic
      simp
    · have hne : (low + i) % 2 ^ k ≠ (low + count) % 2 ^ k := fun he => hic (by
        have := slot_injective (le_add_right low i) (Nat.add_lt_add_left hi low)
          (le_add_right _ _) (Nat.add_lt_add_left (by omega) low) he
        omega)
      rw [update_of_ne hne, ih (by omega)]
      have hiff : i < count + 1 ↔ i < count := by omega
      simp only [hiff]

theorem Holds.grow {minimum : Nat} (hm : 0 < minimum) (hg : Grow w b minimum b') :
    Holds w b' low content ∧ minimum ≤ b'.arraySize ∧ b'.lowToken = b.lowToken ∧
      b'.highToken = b.highToken ∧ b'.isOrdered = b.isOrdered := by
  obtain @⟨newSize, hd⟩ := hg
  obtain ⟨j, hj, hjw⟩ := h.size
  obtain ⟨k, rfl, hjk, hkw, hmin⟩ :
      ∃ k, newSize = 2 ^ k ∧ j ≤ k ∧ k < w ∧ minimum ≤ 2 ^ k := by
    rw [hj, ← pow_succ'] at hd
    rcases lt_or_ge (j + 1) w with hlt | hge
    · rw [mod_eq_of_lt (Nat.pow_lt_pow_right (by omega) hlt)] at hd
      obtain ⟨k, rfl, hjk, hkw, hmin⟩ := hd.spec hm (j + 1) hlt rfl
      exact ⟨k, rfl, by omega, hkw, hmin⟩
    · obtain rfl : w = j + 1 := by omega
      rw [mod_self] at hd
      exact absurd hd (not_doubleSize_zero hm)
  have hle : b.arraySize ≤ 2 ^ k := hj ▸ Nat.pow_le_pow_right (by omega) hjk
  have hcopy : ∀ i, low ≤ i → i < low + 2 ^ k →
      copySlots w b (2 ^ k) b.arraySize (i % 2 ^ k) =
        if i < low + b.arraySize then b.array (i % b.arraySize) else TaskInfo.none := by
    intro i hi hi'
    obtain ⟨d, rfl⟩ := Nat.exists_eq_add_of_le hi
    rw [copySlots_spec h hkw hle (by omega)]
    simp only [Nat.add_lt_add_iff_left]
  refine ⟨⟨⟨k, rfl, hkw⟩, h.lowToken, fun i info hi => ?_, fun i info hi => ?_,
    fun i hi hi' hc => ?_⟩, hmin, rfl, rfl, rfl⟩
  · obtain ⟨h₁, h₂⟩ := h.window i info hi
    exact ⟨h₁, lt_of_lt_of_le h₂ (Nat.add_le_add_left hle low)⟩
  · obtain ⟨h₁, h₂⟩ := h.window i info hi
    obtain ⟨h₃, h₄⟩ := h.slot_some i info hi
    refine ⟨?_, h₄⟩
    simp only
    rw [hcopy i (le_of_lt h₁) (lt_of_lt_of_le h₂ (Nat.add_le_add_left hle low)),
      if_pos h₂, h₃]
  · simp only at hi' ⊢
    rw [hcopy i hi hi']
    split_ifs with hlt
    · exact h.slot_none i hi hlt hc
    · rfl

theorem Holds.distance {i : Nat} (hi : low ≤ i)
    (hi' : i < low + 2 ^ w) : b.distance w (i % 2 ^ w) = i - low := by
  rw [InputBuffer.distance, h.lowToken, wrap_sub hi hi']

theorem Holds.makeRoom {i : Nat} (hi : low ≤ i)
    (hi' : i < low + 2 ^ w) (hr : MakeRoom w b (i % 2 ^ w) b') :
    Holds w b' low content ∧ i < low + b'.arraySize ∧ b'.highToken = b.highToken ∧
      b'.isOrdered = b.isOrdered := by
  cases hr with
  | fits hd =>
    rw [h.distance hi hi'] at hd
    exact ⟨h, by omega, rfl, rfl⟩
  | grow _ hg =>
    obtain ⟨h', hmin, _, hhigh, hord⟩ := h.grow (succ_pos _) hg
    rw [h.distance hi hi'] at hmin
    exact ⟨h', by omega, hhigh, hord⟩

/-- There is room to be made if half of all tokens are enough. -/
theorem Holds.exists_makeRoom {i : Nat} (hi : low ≤ i)
    (hi' : i < low + 2 ^ (w - 1)) : ∃ b', MakeRoom w b (i % 2 ^ w) b' := by
  obtain ⟨j, hj, hjw⟩ := h.size
  have hhalf : 2 ^ (w - 1) ≤ 2 ^ w := Nat.pow_le_pow_right (by omega) (sub_le w 1)
  have hd := h.distance hi (lt_of_lt_of_le hi' (Nat.add_le_add_left hhalf low))
  rcases lt_or_ge (b.distance w (i % 2 ^ w)) b.arraySize with hlt | hge
  · exact ⟨b, MakeRoom.fits hlt⟩
  · have hjw' : j + 1 < w := by
      have hpow : 2 ^ j < 2 ^ (w - 1) := by omega
      have := (Nat.pow_lt_pow_iff_right (by omega : 1 < 2)).mp hpow
      omega
    obtain ⟨r, hr⟩ := @exists_doubleSize w (b.distance w (i % 2 ^ w) + 1) (by omega) _ hjw'
    refine ⟨_, MakeRoom.grow hge (@Grow.intro _ _ _ r ?_)⟩
    rwa [hj, ← pow_succ', mod_eq_of_lt (Nat.pow_lt_pow_right (by omega) hjw')]

theorem Holds.store {i : Nat} (hi : low < i)
    (hi' : i < low + b.arraySize) {info : TaskInfo} (hv : info.isValid = true) :
    Holds w (b.store (i % 2 ^ w) info) low (update content i (some info)) where
  size := h.size
  lowToken := h.lowToken
  window := by
    intro k info' hk
    by_cases hki : k = i
    · subst hki
      exact ⟨hi, hi'⟩
    · rw [update_of_ne hki] at hk
      exact h.window k info' hk
  slot_some := by
    intro k info' hk
    simp only [InputBuffer.store, h.slot_wrap]
    by_cases hki : k = i
    · subst hki
      simp only [update_self, Option.some.injEq] at hk
      subst hk
      exact ⟨update_self _ _ _, hv⟩
    · rw [update_of_ne hki] at hk
      obtain ⟨h₁, h₂⟩ := h.window k info' hk
      refine ⟨?_, (h.slot_some k info' hk).2⟩
      rw [update_of_ne, (h.slot_some k info' hk).1]
      exact fun he => hki (slot_injective (le_of_lt h₁) h₂ (le_of_lt hi) hi' he)
  slot_none := by
    intro k hk hk' hc
    simp only [InputBuffer.store, h.slot_wrap] at hk' ⊢
    have hki : k ≠ i := by
      rintro rfl
      simp at hc
    rw [update_of_ne hki] at hc
    rw [update_of_ne, h.slot_none k hk hk' hc]
    exact fun he => hki (slot_injective hk hk' (le_of_lt hi) hi' he)

/-- Advancing `low_token` takes out the task information of the next ticket. -/
theorem Holds.nextToken {wakee : TaskInfo} (hn : b.nextToken w = (wakee, b')) :
    Holds w b' (low + 1) (update content (low + 1) none) ∧
      content (low + 1) = (if wakee.isValid then some wakee else none) ∧
      b'.highToken = b.highToken ∧ b'.isOrdered = b.isOrdered := by
  have hlow : (b.lowToken + 1) % 2 ^ w = (low + 1) % 2 ^ w := by
    rw [h.lowToken, mod_add_mod]
  simp only [InputBuffer.nextToken, hlow, h.slot_wrap, Prod.mk.injEq] at hn
  obtain ⟨rfl, rfl⟩ := hn
  have hpos := h.size_pos
  -- the slot of the old `low` is free, and is the last one of the new window
  have hfree : (b.array (low % b.arraySize)).isValid = false := by
    refine h.slot_none low le_rfl (by omega) ?_
    cases hc : content low with
    | none => rfl
    | some info =>
      have := (h.window low info hc).1
      omega
  refine ⟨⟨h.size, rfl, fun i info hi => ?_, fun i info hi => ?_, fun i hi hi' hc => ?_⟩,
    ?_, rfl, rfl⟩
  · have hne : i ≠ low + 1 := by
      rintro rfl
      simp at hi
    rw [update_of_ne hne] at hi
    have := h.window i info hi
    simp only
    omega
  · have hne : i ≠ low + 1 := by
      rintro rfl
      simp at hi
    rw [update_of_ne hne] at hi
    obtain ⟨h₁, h₂⟩ := h.window i info hi
    refine ⟨?_, (h.slot_some i info hi).2⟩
    simp only
    rw [update_of_ne, (h.slot_some i info hi).1]
    intro he
    have := slot_injective (le_of_lt h₁) h₂ (le_succ low) (by omega) he
    omega
  · simp only at hi' ⊢
    by_cases hne : i % b.arraySize = (low + 1) % b.arraySize
    · rw [hne, update_self]
    · rw [update_of_ne hne]
      have hi₁ : i ≠ low + 1 := by
        rintro rfl
        exact hne rfl
      rw [update_of_ne hi₁] at hc
      rcases lt_or_ge i (low + b.arraySize) with hlt | hge
      · exact h.slot_none i (by omega) hlt hc
      · obtain rfl : i = low + b.arraySize := by omega
        rw [add_mod_right]
        exact hfree
  · cases hc : content (low + 1) with
    | some info =>
      obtain ⟨hs, hv⟩ := h.slot_some _ _ hc
      simp [hs, hv]
    | none =>
      rcases lt_or_ge 1 b.arraySize with hlt | hge
      · have := h.slot_none (low + 1) (by omega) (by omega) hc
        simp [this]
      · have hone : b.arraySize = 1 := by omega
        rw [hone, mod_one] at hfree
        simp [hone, mod_one, hfree]

end

end OneTbb.Pipeline
