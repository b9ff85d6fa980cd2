import Mathlib.Data.List.Sort
import Mathlib.Logic.Function.Basic
import OneTbb.Library.Transition

/-!
# Global control of the scheduler

Each parameter has a storage with the live control objects in an ordered set. A new object is
compared with the active value by the preference of its parameter. When an object is destroyed,
the active value is taken from the beginning of the set, and the set has the same order for all
parameters.
-/

namespace OneTbb.GlobalControl

open List Function Option Relation

/-- `global_control::parameter`, without the handle of the scheduler, which is not public. -/
inductive Parameter where
  | maxAllowedParallelism
  | threadStackSize
  | terminateOnException
  | leavePolicy
  deriving DecidableEq, Repr

/-- `is_first_arg_preferred`. Without an override the greater value is preferred. -/
def Parameter.isFirstArgPreferred : Parameter → Nat → Nat → Bool
  | .maxAllowedParallelism, a, b => a < b
  | .threadStackSize, a, b | .terminateOnException, a, b | .leavePolicy, a, b => b < a

/-- A `global_control` object. -/
structure Control where
  address : Nat
  param : Parameter
  value : Nat
  deriving DecidableEq, Repr

/-- `control_storage_comparator` -/
def Control.Less (a b : Control) : Prop :=
  a.value < b.value ∨ a.value = b.value ∧ a.address < b.address

instance (a b : Control) : Decidable (a.Less b) := inferInstanceAs (Decidable (_ ∨ _))

/-- The order of the set. -/
def Control.InOrder (a b : Control) : Prop := ¬ b.Less a

instance (a b : Control) : Decidable (a.InOrder b) := inferInstanceAs (Decidable (¬ _))

/-- `control_storage`. What `apply_active` was last called with is the value in force. -/
structure Storage where
  activeValue : Nat
  list : List Control
  applied : Option Nat
  deriving DecidableEq, Repr

namespace Storage

def applyActive (c : Storage) (newActive : Nat) : Storage :=
  { c with activeValue := newActive, applied := some newActive }

/-- `global_control_impl::create` -/
def create (c : Storage) (gc : Control) : Storage :=
  let c' := if c.list = [] ∨ gc.param.isFirstArgPreferred gc.value c.activeValue = true then
    c.applyActive gc.value else c
  { c' with list := c'.list.orderedInsert Control.InOrder gc }

/-- The value of the first object in the set. -/
def firstValue (defaultValue : Nat) : List Control → Nat
  | [] => defaultValue
  | first :: _ => first.value

/-- `global_control_impl::destroy` -/
def destroy (defaultValue : Nat) (c : Storage) (gc : Control) : Storage :=
  let c' := { c with list := c.list.erase gc }
  let newActive := firstValue defaultValue c'.list
  if newActive ≠ c.activeValue then c'.applyActive newActive else c'

end Storage

/-- The storage before the first object. -/
def Storage.initial : Storage := { activeValue := 0, list := [], applied := none }

structure State where
  controls : Parameter → Storage

inductive Event where
  | create (gc : Control)
  | destroy (gc : Control)
  deriving DecidableEq, Repr

namespace State

def initial : State where
  controls := fun _ => Storage.initial

/-- Objects that are alive have different addresses. -/
def step (defaultValue : Parameter → Nat) (s : State) : Event → Option State
  | .create gc =>
    if ∀ other ∈ (s.controls gc.param).list, other.address ≠ gc.address then
      some ⟨update s.controls gc.param ((s.controls gc.param).create gc)⟩
    else none
  | .destroy gc =>
    if gc ∈ (s.controls gc.param).list then
      some ⟨update s.controls gc.param
        ((s.controls gc.param).destroy (defaultValue gc.param) gc)⟩
    else none

/-- Any sequence of constructions and destructions. -/
def Run (defaultValue : Parameter → Nat) (s : State) : Prop :=
  ReflTransGen (fun s s' => ∃ event, s.step defaultValue event = some s') initial s

/-- The objects that a destruction leaves have the same value, unless the least value is the
preferred one. -/
def Careful (s : State) : Event → Prop
  | .create _ => True
  | .destroy gc => gc.param = .maxAllowedParallelism ∨
      ∀ a ∈ (s.controls gc.param).list.erase gc, ∀ b ∈ (s.controls gc.param).list.erase gc,
        a.value = b.value

instance (s : State) : (event : Event) → Decidable (s.Careful event)
  | .create _ => inferInstanceAs (Decidable True)
  | .destroy _ => inferInstanceAs (Decidable (_ ∨ _))

def CarefulRun (defaultValue : Parameter → Nat) (s : State) : Prop :=
  ReflTransGen
    (fun s s' => ∃ event, s.Careful event ∧ s.step defaultValue event = some s') initial s

end State

/-- The preferred one among the values: the least for the parallelism, the greatest for the other
parameters. -/
def Parameter.preferred : Parameter → List Nat → Option Nat
  | .maxAllowedParallelism, values => values.min?
  | .threadStackSize, values | .terminateOnException, values | .leavePolicy, values => values.max?

namespace Parameter

variable {p : Parameter} {values : List Nat} {v w : Nat}

/-- No value is preferred to the preferred one. -/
theorem preferred_eq_some_iff :
    p.preferred values = some v ↔ v ∈ values ∧ ∀ w ∈ values, p.isFirstArgPreferred w v = false := by
  have hmax : values.max? = some v ↔ v ∈ values ∧ ∀ w ∈ values, decide (v < w) = false := by
    rw [List.max?_eq_some_iff]
    simp
  cases p with
  | maxAllowedParallelism =>
    rw [preferred, List.min?_eq_some_iff]
    simp [isFirstArgPreferred]
  | threadStackSize | terminateOnException | leavePolicy => exact hmax

theorem not_isFirstArgPreferred_self : p.isFirstArgPreferred v v = false := by
  cases p <;> simp [isFirstArgPreferred]

theorem not_isFirstArgPreferred_of_preferred {a : Nat} (ha : p.isFirstArgPreferred a v = true)
    (hw : p.isFirstArgPreferred w v = false) : p.isFirstArgPreferred w a = false := by
  cases p <;> simp [isFirstArgPreferred] at ha hw ⊢ <;> omega

end Parameter

namespace Control

instance : Std.Total InOrder where
  total := by
    intro a b
    unfold InOrder Less
    omega

instance : IsTrans Control InOrder where
  trans := by
    intro a b c hab hbc
    unfold InOrder Less at *
    omega

theorem value_le_of_inOrder {a b : Control} (h : a.InOrder b) : a.value ≤ b.value := by
  unfold InOrder Less at h
  omega

end Control

namespace Storage

variable {p : Parameter} {defaultValue : Nat} {c : Storage} {gc : Control}

def values (c : Storage) : List Nat := c.list.map Control.value

/-- The value in force is the preferred one of the live objects, or the default value. -/
structure Sound (p : Parameter) (defaultValue : Nat) (c : Storage) : Prop where
  sorted : c.list.Pairwise Control.InOrder
  preferred : c.list ≠ [] → c.applied = some c.activeValue ∧
    p.preferred c.values = some c.activeValue
  empty : c.list = [] → c = Storage.initial ∨ c.applied = some defaultValue

theorem values_create (c : Storage) (gc : Control) :
    (c.create gc).values.Perm (gc.value :: c.values) := by
  have hlist : (c.create gc).list = c.list.orderedInsert Control.InOrder gc := by
    unfold create
    split <;> rfl
  unfold values
  rw [hlist, ← map_cons]
  exact (perm_orderedInsert _ gc c.list).map _

theorem list_create_ne_nil : (c.create gc).list ≠ [] := by
  intro hnil
  have hlength := (values_create c gc).length_eq
  simp [values, hnil] at hlength

theorem Sound.create (h : c.Sound gc.param defaultValue) :
    (c.create gc).Sound gc.param defaultValue := by
  constructor
  case sorted =>
    have hsorted := h.sorted.orderedInsert gc
    unfold Storage.create
    split <;> exact hsorted
  case preferred =>
    intro _
    have hperm := values_create c gc
    have hmem : ∀ w, w ∈ (c.create gc).values ↔ w = gc.value ∨ w ∈ c.values := by
      intro w
      rw [hperm.mem_iff, mem_cons]
    by_cases hcond : c.list = [] ∨ gc.param.isFirstArgPreferred gc.value c.activeValue = true
    · have hactive : (c.create gc).activeValue = gc.value ∧
          (c.create gc).applied = some gc.value := by
        simp [Storage.create, hcond, applyActive]
      rw [hactive.1, hactive.2, Parameter.preferred_eq_some_iff]
      refine ⟨rfl, (hmem _).mpr (.inl rfl), fun w hw => ?_⟩
      obtain rfl | hw := (hmem w).mp hw
      · exact Parameter.not_isFirstArgPreferred_self
      · have hne : c.list ≠ [] := by
          intro hnil
          simp [values, hnil] at hw
        have hold := (Parameter.preferred_eq_some_iff.mp (h.preferred hne).2).2 w hw
        exact Parameter.not_isFirstArgPreferred_of_preferred (hcond.resolve_left hne) hold
    · have hactive : (c.create gc).activeValue = c.activeValue ∧
          (c.create gc).applied = c.applied := by
        simp [Storage.create, hcond]
      rw [not_or] at hcond
      obtain ⟨happlied, hpreferred⟩ := h.preferred hcond.1
      rw [Parameter.preferred_eq_some_iff] at hpreferred
      rw [hactive.1, hactive.2, Parameter.preferred_eq_some_iff]
      refine ⟨happlied, (hmem _).mpr (.inr hpreferred.1), fun w hw => ?_⟩
      obtain rfl | hw := (hmem w).mp hw
      · exact Bool.eq_false_iff.mpr hcond.2
      · exact hpreferred.2 w hw
  case empty => exact fun hnil => absurd hnil list_create_ne_nil

/-- After a destruction the value of the first object is in force. -/
theorem destroy_eq (defaultValue : Nat) (gc : Control) (happlied : c.applied = some c.activeValue) :
    c.destroy defaultValue gc =
      { activeValue := firstValue defaultValue (c.list.erase gc)
        list := c.list.erase gc
        applied := some (firstValue defaultValue (c.list.erase gc)) } := by
  simp only [destroy]
  split
  case isTrue => rfl
  case isFalse hsame =>
    rw [ne_eq, not_not] at hsame
    rw [hsame, ← happlied]

theorem Sound.destroy (h : c.Sound gc.param defaultValue) (hgc : gc ∈ c.list)
    (hcareful : gc.param = .maxAllowedParallelism ∨
      ∀ a ∈ c.list.erase gc, ∀ b ∈ c.list.erase gc, a.value = b.value) :
    (c.destroy defaultValue gc).Sound gc.param defaultValue := by
  obtain ⟨happlied, -⟩ := h.preferred (ne_nil_of_mem hgc)
  have hsorted : (c.list.erase gc).Pairwise Control.InOrder :=
    h.sorted.sublist erase_sublist
  rw [destroy_eq defaultValue gc happlied]
  generalize c.list.erase gc = list at hsorted hcareful
  constructor
  case sorted => exact hsorted
  case preferred =>
    intro hne
    refine ⟨rfl, ?_⟩
    cases list with
    | nil => exact absurd rfl hne
    | cons first rest =>
      rw [Parameter.preferred_eq_some_iff]
      refine ⟨mem_map_of_mem mem_cons_self, fun w hw => ?_⟩
      obtain ⟨b, hb, rfl⟩ := mem_map.mp hw
      -- the first object has the least value
      have hle : first.value ≤ b.value := by
        obtain rfl | hb := mem_cons.mp hb
        · exact le_rfl
        · exact Control.value_le_of_inOrder (rel_of_pairwise_cons hsorted hb)
      obtain hparam | hsame := hcareful
      · rw [hparam]
        exact decide_eq_false (not_lt.mpr hle)
      · rw [hsame b hb first mem_cons_self]
        exact Parameter.not_isFirstArgPreferred_self
  case empty =>
    rintro rfl
    exact .inr rfl

end Storage

namespace State

variable {defaultValue : Parameter → Nat} {s s' : State}

theorem sound_step {event : Event} (hs : ∀ p, (s.controls p).Sound p (defaultValue p))
    (hcareful : s.Careful event) (hstep : s.step defaultValue event = some s') (p : Parameter) :
    (s'.controls p).Sound p (defaultValue p) := by
  have hupdate : ∀ {q c}, c.Sound q (defaultValue q) →
      (update s.controls q c p).Sound p (defaultValue p) := by
    intro q c hc
    by_cases hp : p = q
    · subst hp
      rw [update_self]
      exact hc
    · rw [update_of_ne hp]
      exact hs p
  cases event with
  | create gc =>
    obtain ⟨-, hstep⟩ := ite_none_right_eq_some.mp hstep
    cases hstep
    exact hupdate (hs gc.param).create
  | destroy gc =>
    obtain ⟨hgc, hstep⟩ := ite_none_right_eq_some.mp hstep
    cases hstep
    exact hupdate ((hs gc.param).destroy hgc hcareful)

theorem CarefulRun.sound (run : CarefulRun defaultValue s) (p : Parameter) :
    (s.controls p).Sound p (defaultValue p) := by
  refine Transition.run_preserves (P := fun s => ∀ p, (s.controls p).Sound p (defaultValue p))
    ?_ run ?_ p
  · rintro s s' hs ⟨event, hcareful, hstep⟩
    exact sound_step hs hcareful hstep
  · intro p
    exact ⟨List.Pairwise.nil, fun hne => absurd rfl hne, fun _ => .inl rfl⟩

/-- In every sequence of careful steps the preferred value is in force while objects are alive,
and the default value when the last one is gone. Only a storage that never had an object has no
value applied. -/
theorem preferred_value_in_force (defaultValue : Parameter → Nat) {s : State}
    (run : CarefulRun defaultValue s) (p : Parameter) :
    ((s.controls p).list ≠ [] →
      (s.controls p).applied = p.preferred ((s.controls p).list.map Control.value)) ∧
      ((s.controls p).list = [] →
        s.controls p = Storage.initial ∨ (s.controls p).applied = some (defaultValue p)) := by
  have hs := run.sound p
  refine ⟨fun hne => ?_, hs.empty⟩
  obtain ⟨happlied, hpreferred⟩ := hs.preferred hne
  exact happlied.trans hpreferred.symm

/-- An object for the stack size, with its value as its address. -/
def stackSize (value : Nat) : Control := ⟨value, .threadStackSize, value⟩

theorem preferred_value_in_force_two : ∃ s, CarefulRun (fun _ => 0) s ∧
    (s.controls .threadStackSize).list ≠ [] ∧
      (s.controls .threadStackSize).applied =
        Parameter.threadStackSize.preferred
          ((s.controls .threadStackSize).list.map Control.value) := by
  have hrun : ([Event.create (stackSize 1), .create (stackSize 2),
      .destroy (stackSize 2)].foldlM
        (fun (s : State) event => if s.Careful event then s.step (fun _ => 0) event else none)
        initial).map (fun s => decide ((s.controls .threadStackSize).list ≠ [])) = some true := by
    decide +kernel
  obtain ⟨s, hs, hne⟩ := map_eq_some_iff.mp hrun
  have run : CarefulRun (fun _ => 0) s := by
    refine ReflTransGen.mono ?_ _ _ (Transition.run_of_foldlM hs)
    rintro u v ⟨event, hstep⟩
    exact ⟨event, ite_none_right_eq_some.mp hstep⟩
  exact ⟨s, run, of_decide_eq_true hne,
    (preferred_value_in_force (fun _ => 0) run .threadStackSize).1 (of_decide_eq_true hne)⟩

/-- Of the sizes 1, 2 and 3, the destruction of 3 leaves 1 in force. -/
theorem preferred_value_lost : ∃ s, Run (fun _ => 0) s ∧
    (s.controls .threadStackSize).list ≠ [] ∧
      (s.controls .threadStackSize).applied ≠
        Parameter.threadStackSize.preferred
          ((s.controls .threadStackSize).list.map Control.value) := by
  have hrun : ([Event.create (stackSize 1), .create (stackSize 2), .create (stackSize 3),
      .destroy (stackSize 3)].foldlM (fun (s : State) => s.step (fun _ => 0)) initial).map
        (fun s => s.controls .threadStackSize) =
      some { activeValue := 1, list := [stackSize 1, stackSize 2], applied := some 1 } := by
    decide +kernel
  obtain ⟨s, hs, heq⟩ := map_eq_some_iff.mp hrun
  refine ⟨s, Transition.run_of_foldlM hs, ?_, ?_⟩
  · rw [heq]
    decide
  · rw [heq]
    decide

end State

end OneTbb.GlobalControl
