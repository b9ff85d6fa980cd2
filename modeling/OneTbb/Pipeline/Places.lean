import OneTbb.Pipeline.Model
import Mathlib.Data.List.Nodup

/-!
# Where the items of a pipeline are

Every item is at one place at a time: on its way through the chain in a stage
task, parked in the input buffer of a serial filter, or gone. The rank of a
place says how far along the chain it is, with an odd number `2 * f + 1` for
the places at filter `f`.
-/

namespace OneTbb.Pipeline

open List Function StageTask

/-- The places of an item. -/
inductive Place where
  | unborn
  | produced
  | entering (f : Nat)
  | ready (f : Nat)
  | calling (f : Nat)
  | releasing (f : Nat)
  | parked (f : Nat)
  | left
  deriving DecidableEq

/-- How far along the chain a place is. -/
def Place.rank (c : Chain) : Place → Nat
  | .unborn => 0
  | .produced => 1
  | .entering f => 2 * f
  | .ready f | .calling f | .releasing f | .parked f => 2 * f + 1
  | .left => 2 * c.length + 1

/-- The number of filters that have been called on an item at a place. -/
def Place.called (c : Chain) : Place → Nat
  | .unborn => 0
  | .produced => 1
  | .entering f | .ready f | .parked f => f
  | .calling f | .releasing f => f + 1
  | .left => c.length

/-- The item is carried by a stage task. -/
def Place.onTask : Place → Bool
  | .unborn | .parked _ | .left => false
  | _ => true

/-- The item has been produced and has not left. -/
def Place.isLive : Place → Bool
  | .unborn | .left => false
  | _ => true

/-- The task information a stage task carries. -/
def StageTask.info : StageTask → Option TaskInfo
  | .produced info | .entering _ info | .ready _ info | .calling _ info
  | .releasing _ info => some info
  | .input | .spawning | .reading | .recycling => none

/-- The place of the item a stage task carries. -/
def StageTask.place : StageTask → Place
  | .produced _ => .produced
  | .entering f _ => .entering f
  | .ready f _ => .ready f
  | .calling f _ => .calling f
  | .releasing f _ => .releasing f
  | .input | .spawning | .reading | .recycling => .unborn

/-- The item a stage task carries. -/
def StageTask.object (t : StageTask) : Option Nat := t.info.map TaskInfo.object

/-- The items carried by some stage tasks. -/
def carried (tasks : List StageTask) : List Nat := tasks.filterMap object

theorem carried_append (xs ys : List StageTask) :
    carried (xs ++ ys) = carried xs ++ carried ys := filterMap_append

variable {ts : List StageTask} {info : TaskInfo} {k : Nat}

theorem mem_carried_of_info {tasks : List StageTask} {t : StageTask} {info : TaskInfo}
    (ht : t ∈ tasks) (hi : t.info = some info) : info.object ∈ carried tasks :=
  mem_filterMap.mpr ⟨t, ht, by simp [object, hi]⟩

theorem exists_of_mem_carried {tasks : List StageTask} (h : k ∈ carried tasks) :
    ∃ t ∈ tasks, ∃ info, t.info = some info ∧ info.object = k := by
  obtain ⟨t, ht, hk⟩ := mem_filterMap.mp h
  cases hi : t.info with
  | none => simp [object, hi] at hk
  | some info => exact ⟨t, ht, info, hi, by simpa [object, hi] using hk⟩

/-- The places of all items, the items with a token in the order of their
tokens, the arrivals at each serial filter out of order, and the ticket behind
each `low_token`. -/
structure Ghost where
  place : Nat → Place
  ordered : List Nat
  arrivals : Nat → List Nat
  low : Nat → Nat

/-- The items in the order in which filter `f` has to process them. -/
def Ghost.tickets (c : Chain) (g : Ghost) (f : Nat) : List Nat :=
  if c.isOrdered f then g.ordered else g.arrivals f

/-- The token of an item, once it is assigned, is its position in the common order. -/
structure InfoOk (c : Chain) (g : Ghost) (info : TaskInfo) : Prop where
  ready : info.tokenReady = true →
    ∃ i : Nat, g.ordered[i]? = some info.object ∧ info.token = i % c.tokens
  notReady : info.tokenReady = false → info.object ∉ g.ordered

/-- The stage tasks carry the items that are not parked, each one once. -/
structure Carried (c : Chain) (g : Ghost) (tasks : List StageTask) : Prop where
  ok : ∀ t ∈ tasks, ∀ info, t.info = some info →
    g.place info.object = t.place ∧ InfoOk c g info
  nodup : (carried tasks).Nodup
  covers : ∀ k, (g.place k).onTask = true → k ∈ carried tasks

variable {c : Chain} {g g' : Ghost} {xs ys : List StageTask} {t : StageTask}

theorem onTask_place {t : StageTask} (h : t.info = some info) :
    t.place.onTask = true := by
  cases t <;> first | rfl | cases h

section

variable (h : Carried c g (xs ++ t :: ys))
include h

/-- An item carried by a task is not carried by another one. -/
theorem Carried.not_mem_rest (hi : t.info = some info) : info.object ∉ carried (xs ++ ys) := by
  have hn := h.nodup
  have hobj : object t = some info.object := by simp [object, hi]
  have hcons : carried (t :: ys) = info.object :: carried ys := filterMap_cons_some hobj
  rw [carried_append, hcons] at hn
  rw [carried_append]
  exact (nodup_cons.mp (perm_middle.nodup_iff.mp hn)).1

theorem Carried.mem_split
    (hk : (g.place k).onTask = true) : t.object = some k ∨ k ∈ carried (xs ++ ys) := by
  have hm := h.covers k hk
  simp only [carried, mem_filterMap, mem_append, mem_cons] at hm ⊢
  obtain ⟨u, hu | rfl | hu, hku⟩ := hm
  · exact .inr ⟨u, .inl hu, hku⟩
  · exact .inl hku
  · exact .inr ⟨u, .inr hu, hku⟩

/-- Replacing a task by others. Only items outside of the remaining tasks may
change their place. -/
theorem Carried.replace (hplace : ∀ k ∈ carried (xs ++ ys), g'.place k = g.place k)
    (hinfo : ∀ info, info.object ∈ carried (xs ++ ys) → InfoOk c g info → InfoOk c g' info)
    (hnew : ∀ u ∈ ts, ∀ info, u.info = some info →
      g'.place info.object = u.place ∧ InfoOk c g' info)
    (hnodup : (carried ts).Nodup) (hdisj : ∀ k ∈ carried ts, k ∉ carried (xs ++ ys))
    (hcov : ∀ k, (g'.place k).onTask = true → k ∈ carried ts ∨ k ∈ carried (xs ++ ys)) :
    Carried c g' (xs ++ ts ++ ys) := by
  have hperm : (carried (xs ++ ts ++ ys)).Perm (carried ts ++ carried (xs ++ ys)) := by
    simp only [carried_append, ← append_assoc]
    exact perm_append_comm.append_right _
  have hrest : (carried (xs ++ ys)).Nodup := by
    refine h.nodup.sublist ?_
    simp only [carried_append]
    exact List.Sublist.append_left ((sublist_cons_self t ys).filterMap _) _
  refine ⟨fun u hu info hi => ?_, ?_, fun k hk => ?_⟩
  · rcases (show u ∈ ts ∨ u ∈ xs ++ ys by
        simp only [mem_append] at hu ⊢; tauto) with hu | hu
    · exact hnew u hu info hi
    · have hmem := mem_carried_of_info hu hi
      have hold : u ∈ xs ++ t :: ys := by
        simp only [mem_append, mem_cons] at hu ⊢
        tauto
      obtain ⟨h₁, h₂⟩ := h.ok u hold info hi
      exact ⟨(hplace _ hmem).trans h₁, hinfo info hmem h₂⟩
  · refine hperm.nodup_iff.mpr (nodup_append.mpr ⟨hnodup, hrest, ?_⟩)
    rintro k hk _ hk' rfl
    exact hdisj k hk hk'
  · exact hperm.mem_iff.mpr (mem_append.mpr (hcov k hk))

theorem Carried.idle
    (ht : t.info = none) (hts : ∀ u ∈ ts, u.info = none) : Carried c g (xs ++ ts ++ ys) := by
  have hnil : carried ts = [] := filterMap_eq_nil_iff.mpr fun u hu => by
    simp [object, hts u hu]
  refine h.replace (fun _ _ => rfl) (fun _ _ hi => hi) ?_ (by simp [hnil]) (by simp [hnil]) ?_
  · intro u hu info hi
    rw [hts u hu] at hi
    cases hi
  · intro k hk
    refine .inr ((h.mem_split hk).resolve_left ?_)
    simp [object, ht]

end

/-- The ghost state after an item has moved. -/
def Ghost.move (g : Ghost) (k : Nat) (p : Place) : Ghost :=
  { g with place := update g.place k p }

section

variable (h : Carried c g (xs ++ t :: ys))
include h

/-- A task moves its item on and spawns tasks that carry nothing. -/
theorem Carried.move {t' : StageTask} {info info' : TaskInfo}
    (ht : t.info = some info) (ht' : t'.info = some info')
    (hobj : info'.object = info.object) (hts : ∀ u ∈ ts, u.info = none)
    (hplace : g'.place = update g.place info.object t'.place)
    (hinfo : ∀ i, i.object ≠ info.object → InfoOk c g i → InfoOk c g' i)
    (hok : InfoOk c g' info') : Carried c g' (xs ++ t' :: ts ++ ys) := by
  have hnil : carried ts = [] := filterMap_eq_nil_iff.mpr fun u hu => by
    simp [object, hts u hu]
  have hcar : carried (t' :: ts) = [info.object] := by
    have : t'.object = some info.object := by simp [object, ht', hobj]
    rw [carried, filterMap_cons_some this]
    simpa [carried] using hnil
  have hrest := h.not_mem_rest ht
  refine h.replace ?_ ?_ ?_ (by simp [hcar]) (by simpa [hcar] using hrest) ?_
  · intro k hk
    rw [hplace, update_of_ne]
    rintro rfl
    exact hrest hk
  · exact fun i hi => hinfo i fun he => hrest (he ▸ hi)
  · intro u hu i hi
    rcases mem_cons.mp hu with rfl | hu
    · rw [ht'] at hi
      cases hi
      exact ⟨by rw [hplace, hobj, update_self], hok⟩
    · rw [hts u hu] at hi
      cases hi
  · intro k hk
    by_cases hkk : k = info.object
    · exact .inl (by simp [hcar, hkk])
    · rw [hplace, update_of_ne hkk] at hk
      refine .inr ((h.mem_split hk).resolve_left fun he => hkk ?_)
      simpa [object, ht] using he.symm

/-- A task gives up its item, which is then not on a task. -/
theorem Carried.drop {p : Place} (ht : t.info = some info)
    (hts : ∀ u ∈ ts, u.info = none) (hp : p.onTask = false)
    (hplace : g'.place = update g.place info.object p)
    (hinfo : ∀ i, i.object ≠ info.object → InfoOk c g i → InfoOk c g' i) :
    Carried c g' (xs ++ ts ++ ys) := by
  have hnil : carried ts = [] := filterMap_eq_nil_iff.mpr fun u hu => by
    simp [object, hts u hu]
  have hrest := h.not_mem_rest ht
  refine h.replace ?_ ?_ ?_ (by simp [hnil]) (by simp [hnil]) ?_
  · intro k hk
    rw [hplace, update_of_ne]
    rintro rfl
    exact hrest hk
  · exact fun i hi => hinfo i fun he => hrest (he ▸ hi)
  · intro u hu i hi
    rw [hts u hu] at hi
    cases hi
  · intro k hk
    by_cases hkk : k = info.object
    · rw [hplace, hkk, update_self, hp] at hk
      cases hk
    · rw [hplace, update_of_ne hkk] at hk
      refine .inr ((h.mem_split hk).resolve_left fun he => hkk ?_)
      simpa [object, ht] using he.symm

theorem Carried.onTask_rest (hk : k ∈ carried (xs ++ ys)) : (g.place k).onTask = true := by
  obtain ⟨u, hu, info, hi, rfl⟩ := exists_of_mem_carried hk
  have hu' : u ∈ xs ++ t :: ys := by
    simp only [mem_append, mem_cons] at hu ⊢
    tauto
  rw [(h.ok u hu' info hi).1]
  exact onTask_place hi

/-- A task comes by an item that was on no task before, or hands it on at once. -/
theorem Carried.birth {t' : StageTask} {p : Place}
    (ht : t.info = none) (hk : (g.place k).onTask = false)
    (hplace : g'.place = update g.place k p)
    (hinfo : ∀ i, i.object ≠ k → InfoOk c g i → InfoOk c g' i)
    (hnew : (t'.info = none ∧ p.onTask = false) ∨
      ∃ info, t'.info = some info ∧ info.object = k ∧ t'.place = p ∧ InfoOk c g' info) :
    Carried c g' (xs ++ [t'] ++ ys) := by
  have hrest : ∀ x ∈ carried (xs ++ ys), x ≠ k := by
    rintro x hx rfl
    rw [h.onTask_rest hx] at hk
    cases hk
  have hcov : ∀ x, x ≠ k → (g'.place x).onTask = true → x ∈ carried (xs ++ ys) := by
    intro x hx hon
    rw [hplace, update_of_ne hx] at hon
    exact (h.mem_split hon).resolve_left (by simp [object, ht])
  have hplace' : ∀ x ∈ carried (xs ++ ys), g'.place x = g.place x := fun x hx => by
    rw [hplace, update_of_ne (hrest x hx)]
  rcases hnew with ⟨hnone, hp⟩ | ⟨info, hi, hobj, hpl, hok⟩
  · have hnil : carried [t'] = [] := by simp [carried, object, hnone]
    refine h.replace hplace' (fun i hi => hinfo i (hrest _ hi)) ?_ (by simp [hnil])
      (by simp [hnil]) fun x hx => ?_
    · intro u hu i hi
      rw [mem_singleton.mp hu, hnone] at hi
      cases hi
    · by_cases hxk : x = k
      · rw [hplace, hxk, update_self, hp] at hx
        cases hx
      · exact .inr (hcov x hxk hx)
  · have hcar : carried [t'] = [k] := by simp [carried, object, hi, hobj]
    refine h.replace hplace' (fun i hi => hinfo i (hrest _ hi)) ?_ (by simp [hcar]) ?_
      fun x hx => ?_
    · intro u hu i hi'
      rw [mem_singleton.mp hu] at hi' ⊢
      obtain rfl : info = i := Option.some.inj (hi.symm.trans hi')
      rw [hplace, hobj, update_self]
      exact ⟨hpl.symm, hok⟩
    · intro x hx hx'
      rw [hcar] at hx
      exact hrest x hx' (mem_singleton.mp hx)
    · by_cases hxk : x = k
      · exact .inl (by simp [hcar, hxk])
      · exact .inr (hcov x hxk hx)

end

end OneTbb.Pipeline
