import OneTbb.PriorityQueue.Model

/-!
# What `heapify` and `reheap` do to the vector

`heapify` makes a heap of the whole vector and keeps its elements. `reheap`
takes the top out of the heap in front of `mark` and puts the last element of
the vector in, which comes from behind the heap if there are elements there.
-/

namespace OneTbb.PriorityQueue

open Function

open BinaryHeap Segment

variable {α : Type*} {comp : α → α → Bool} {data : Nat → α} {x : α}

/-! ## `heapify` -/

theorem pushUp_isHeap (swo : StrictWeak comp) {n curPos : Nat}
    (h : Rising comp data n curPos x) (hn : curPos < n) :
    IsHeap comp (pushUp comp x data curPos) n := by
  induction data, curPos using pushUp.induct comp x with
  | case1 data =>
    rw [pushUp, dif_pos rfl]
    exact h.fill fun hpos => by omega
  | case2 data curPos hne parent hcomp ih =>
    have hlt : parent < curPos := parent_lt (Nat.pos_of_ne_zero hne)
    rw [pushUp, dif_neg hne, if_pos hcomp]
    exact ih (h.move swo (Nat.pos_of_ne_zero hne) hn hcomp) (lt_trans hlt hn)
  | case3 data curPos hne parent hcomp =>
    rw [pushUp, dif_neg hne, if_neg hcomp]
    exact h.fill fun _ => Bool.eq_false_iff.mpr hcomp

/-- Only positions up to the hole change, and the elements there are the old
ones with `x` in the place of what was at the hole. -/
theorem pushUp_cells (comp : α → α → Bool) (x : α) (data : Nat → α) (curPos : Nat) :
    (∀ i, curPos < i → pushUp comp x data curPos i = data i) ∧
      cells (pushUp comp x data curPos) 0 (curPos + 1) =
        cells (update data curPos x) 0 (curPos + 1) := by
  induction data, curPos using pushUp.induct comp x with
  | case1 data =>
    rw [pushUp, dif_pos rfl]
    exact ⟨fun i hi => update_of_ne (Nat.ne_of_gt hi) _ _, rfl⟩
  | case2 data curPos hne parent hcomp ih =>
    have hlt : parent < curPos := parent_lt (Nat.pos_of_ne_zero hne)
    rw [pushUp, dif_neg hne, if_pos hcomp]
    obtain ⟨hout, hcells⟩ := ih
    refine ⟨fun i hi => ?_, ?_⟩
    · rw [hout i (lt_trans hlt hi), update_of_ne (Nat.ne_of_gt hi)]
    · rw [← cells_move data (j := parent) ⟨Nat.zero_le _, Nat.lt_succ_self _⟩
        ⟨Nat.zero_le _, Nat.lt_succ_of_lt hlt⟩ (ne_of_lt hlt)]
      rw [← cells_append _ (Nat.zero_le _) (Nat.succ_le_succ (le_of_lt hlt)), hcells,
        ← cells_append (update (update data curPos _) parent x)
          (Nat.zero_le _) (Nat.succ_le_succ (le_of_lt hlt))]
      refine congrArg _ (cells_congr fun i hi _ => ?_)
      rw [hout i hi, update_of_ne (Nat.ne_of_gt hi)]
  | case3 data curPos hne parent hcomp =>
    rw [pushUp, dif_neg hne, if_neg hcomp]
    exact ⟨fun i hi => update_of_ne (Nat.ne_of_gt hi) _ _, rfl⟩

/-- Pushing up the element behind the heap only moves elements. -/
theorem pushUp_cells_self (data : Nat → α) {curPos n : Nat} (hn : curPos < n) :
    cells (pushUp comp (data curPos) data curPos) 0 n = cells data 0 n := by
  obtain ⟨hout, hcells⟩ := pushUp_cells comp (data curPos) data curPos
  rw [Function.update_eq_self] at hcells
  rw [← cells_append _ (Nat.zero_le _) hn, ← cells_append data (Nat.zero_le _) hn, hcells]
  exact congrArg _ (cells_congr fun i hi _ => hout i hi)

theorem heapifyLoop_spec (swo : StrictWeak comp) {count mark : Nat} (h : IsHeap comp data mark) :
    IsHeap comp (heapifyLoop comp count data mark) (mark + count) ∧
      cells (heapifyLoop comp count data mark) 0 (mark + count) = cells data 0 (mark + count) := by
  induction count generalizing data mark with
  | zero => exact ⟨h, rfl⟩
  | succ count ih =>
    have hup := pushUp_isHeap swo (h.rising (data mark)) (Nat.lt_succ_self mark)
    have hcount : mark + (count + 1) = mark + 1 + count := by omega
    obtain ⟨h₁, h₂⟩ := ih hup
    rw [heapifyLoop, hcount]
    exact ⟨h₁, h₂.trans (pushUp_cells_self data (by omega))⟩

theorem Queue.heapify_spec (swo : StrictWeak comp) {q : Queue α} (h : IsHeap comp q.data q.mark)
    (hmark : q.mark < q.dataSize) :
    (q.heapify comp).mark = q.dataSize ∧ (q.heapify comp).dataSize = q.dataSize ∧
      (q.heapify comp).size = q.size ∧ IsHeap comp (q.heapify comp).data q.dataSize ∧
      cells (q.heapify comp).data 0 q.dataSize = cells q.data 0 q.dataSize := by
  have hloop : ∀ mark, mark ≤ q.dataSize → IsHeap comp q.data mark →
      IsHeap comp (heapifyLoop comp (q.dataSize - mark) q.data mark) q.dataSize ∧
      cells (heapifyLoop comp (q.dataSize - mark) q.data mark) 0 q.dataSize =
        cells q.data 0 q.dataSize := by
    intro mark hle hheap
    have := @heapifyLoop_spec _ _ _ swo (q.dataSize - mark) _ hheap
    rwa [Nat.add_sub_cancel' hle] at this
  unfold Queue.heapify
  split
  case isTrue hzero =>
    exact ⟨Nat.max_eq_right hzero.2, rfl, rfl, hloop 1 hzero.2 (isHeap_of_le_one (Nat.le_refl 1))⟩
  case isFalse => exact ⟨Nat.max_eq_right (by omega), rfl, rfl, hloop q.mark (by omega) h⟩

/-! ## `reheap` -/

theorem higherChild_mem (data : Nat → α) (mark child : Nat) :
    higherChild comp data mark child = child ∨
      higherChild comp data mark child = child + 1 ∧ child + 1 < mark := by
  unfold higherChild
  split
  case isTrue h => exact .inr ⟨rfl, h.1⟩
  case isFalse => exact .inl rfl

theorem higherChild_above (swo : StrictWeak comp) (data : Nat → α) (mark curPos : Nat) :
    AboveChildren comp data mark curPos
      (data (higherChild comp data mark (2 * curPos + 1))) := by
  intro i hpos hi hp
  have hchild : i = 2 * curPos + 1 ∨ i = 2 * curPos + 1 + 1 := by
    unfold parent at hp
    omega
  unfold higherChild
  split
  case isTrue h =>
    obtain rfl | rfl := hchild
    · refine Bool.eq_false_iff.mpr fun hback => ?_
      have := swo.trans h.2 hback
      rw [swo.irrefl] at this
      cases this
    · exact swo.irrefl _
  case isFalse h =>
    obtain rfl | rfl := hchild
    · exact swo.irrefl _
    · exact Bool.eq_false_iff.mpr fun hcomp => h ⟨hi, hcomp⟩

/-- The assignment behind the loop of `reheap`. -/
def settle (last : Nat) (r : (Nat → α) × Nat) : Nat → α :=
  if r.2 ≠ last then update r.1 r.2 (r.1 last) else r.1

/-- What `reheap` is to do with the hole at `curPos`: it leaves a heap, changes
nothing behind it, and puts the last element in. -/
structure Reheaped (comp : α → α → Bool) (data : Nat → α) (n last curPos : Nat)
    (result : Nat → α) : Prop where
  heap : IsHeap comp result n
  behind : ∀ i, n ≤ i → result i = data i
  elements : cells result 0 n = cells (update data curPos (data last)) 0 n

/-- The last element is put into the hole. -/
theorem Reheaped.fill {n last curPos : Nat} (h : Sinking comp data n curPos (data last))
    (hcur : curPos < n) (hbelow : AboveChildren comp data n curPos (data last)) :
    Reheaped comp data n last curPos (update data curPos (data last)) :=
  ⟨h.fill hbelow, fun i hi => update_of_ne (by omega) _ _, rfl⟩

theorem Reheaped.move {n last curPos target : Nat} {result : Nat → α} (hcur : curPos < n)
    (htarget : target < n) (hlt : curPos < target) (hlast : curPos ≠ last)
    (h : Reheaped comp (update data curPos (data target)) n last target result) :
    Reheaped comp data n last curPos result := by
  obtain ⟨hheap, hbehind, helements⟩ := h
  refine ⟨hheap, fun i hi => ?_, ?_⟩
  · rw [hbehind i hi, update_of_ne (by omega)]
  · rw [helements, update_of_ne (Ne.symm hlast)]
    exact cells_move data ⟨Nat.zero_le _, hcur⟩ ⟨Nat.zero_le _, htarget⟩ (Nat.ne_of_gt hlt) _

theorem pushDown_spec (swo : StrictWeak comp) {mark last curPos : Nat} (hmark : mark ≤ last + 1)
    (hcur : curPos < min mark last)
    (h : Sinking comp data (min mark last) curPos (data last)) :
    Reheaped comp data (min mark last) last curPos
      (settle last (pushDown comp mark last data curPos)) := by
  induction data, curPos using pushDown.induct comp mark last with
  | case1 data curPos child hchild target hcomp =>
    -- the last element is above both children
    rw [pushDown, dif_pos hchild, if_pos hcomp, settle, if_pos (by simp only; omega)]
    refine .fill h hcur fun i hpos hi hp => Bool.eq_false_iff.mpr fun hx => ?_
    have := higherChild_above swo data mark curPos i hpos (by omega) hp
    rw [swo.trans hcomp hx] at this
    cases this
  | case2 data curPos child hchild target hcomp ih =>
    have hcomp' : comp (data target) (data last) = false := Bool.eq_false_iff.mpr hcomp
    have habove : AboveChildren comp data (min mark last) curPos (data target) :=
      fun i hpos hi hp => higherChild_above swo data mark curPos i hpos (by omega) hp
    have hmem : target = child ∨ target = child + 1 ∧ child + 1 < mark :=
      higherChild_mem data mark child
    have hparent : parent target = curPos := by
      unfold parent
      omega
    rw [pushDown, dif_pos hchild, if_neg hcomp]
    change Reheaped comp data _ last curPos (settle last
      (pushDown comp mark last (update data curPos (data target)) target))
    clear_value target
    rcases lt_or_ge target (min mark last) with hlt | hge
    · refine .move hcur hlt (by omega) (by omega) (ih hlt ?_)
      rw [update_of_ne (show last ≠ curPos by omega)]
      exact h.move (by omega) hlt hparent habove hcomp'
    · -- the child is the last element itself
      obtain rfl : target = last := by omega
      rw [pushDown, dif_neg (by omega), settle, if_neg (by simp)]
      exact .fill h hcur habove
  | case3 data curPos child hchild =>
    rw [pushDown, dif_neg hchild, settle, if_pos (by simp only; omega)]
    refine .fill h hcur fun i hpos hi hp => ?_
    unfold parent at hp
    omega

/-- `reheap` exchanges the top of the heap for the last element of the vector. -/
theorem Queue.reheap_spec (swo : StrictWeak comp) {q : Queue α} (h : IsHeap comp q.data q.mark)
    (hmark : q.mark ≤ q.dataSize) (hpos : 0 < q.mark) :
    (q.reheap comp).mark = min q.mark (q.dataSize - 1) ∧
      (q.reheap comp).dataSize = q.dataSize - 1 ∧
      IsHeap comp (q.reheap comp).data (min q.mark (q.dataSize - 1)) ∧
      (∀ i, min q.mark (q.dataSize - 1) ≤ i → (q.reheap comp).data i = q.data i) ∧
      q.data 0 ::ₘ cells (q.reheap comp).data 0 (min q.mark (q.dataSize - 1)) =
        q.back ::ₘ cells q.data 0 (min q.mark (q.dataSize - 1)) := by
  have hmin : (q.reheap comp).mark = min q.mark (q.dataSize - 1) := by
    simp only [Queue.reheap]
    split <;> omega
  refine ⟨hmin, rfl, ?_⟩
  change IsHeap comp (settle (q.dataSize - 1) (pushDown comp q.mark _ q.data 0)) _ ∧ _
  rcases Nat.eq_zero_or_pos (q.dataSize - 1) with hlast | hlast
  · have hdown : pushDown comp q.mark (q.dataSize - 1) q.data 0 = (q.data, 0) := by
      rw [pushDown, dif_neg (by omega)]
    have hdata : (q.reheap comp).data = q.data := by
      simp only [Queue.reheap]
      rw [hdown]
      simp [hlast]
    refine ⟨isHeap_of_le_one (by omega), fun i _ => by rw [hdata], ?_⟩
    rw [hdata, Queue.back, hlast]
  · obtain ⟨hheap, hbehind, helements⟩ := pushDown_spec swo (by omega) (by omega)
      ((h.mono (Nat.min_le_left _ _)).sinking (q.data (q.dataSize - 1)))
    refine ⟨hheap, hbehind, ?_⟩
    rw [← cells_update q.data (Nat.zero_le 0) (by omega) q.back]
    exact congrArg _ helements

end OneTbb.PriorityQueue
