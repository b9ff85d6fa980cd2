import Mathlib.Data.List.Perm.Basic
import Mathlib.Data.List.Nodup

/-!
# Footprints of steps on a memory of cells

A memory maps addresses to values and allocates addresses in increasing order.
A component owns a list of addresses. A step of it may change the cells it owns
and may allocate new ones, and the cells of everybody else stay as they are.
The rule `Footprint.lift` says that a step of one part is a step of the whole.
-/

namespace OneTbb.Cells

open List Function

variable {V : Type*}

/-- Distinct addresses that are already allocated. -/
structure Owns (own : List Nat) (next : Nat) : Prop where
  nodup : own.Nodup
  lt : ∀ i ∈ own, i < next

/-- What a step with footprint `own` does to a memory. -/
structure Footprint (σ : Nat → V) (next : Nat) (own : List Nat) (σ' : Nat → V) (next' : Nat)
    (own' : List Nat) : Prop where
  owns : Owns own' next'
  frame : ∀ i, i ∉ own → i < next → σ' i = σ i
  next_le : next ≤ next'
  fresh : ∀ i ∈ own', i ∈ own ∨ next ≤ i

variable {xs ys : List Nat} {own own' : List Nat} {next : Nat}

theorem Owns.perm {own own' : List Nat} {next : Nat} (h : Owns own next)
    (hp : own.Perm own') : Owns own' next where
  nodup := hp.nodup_iff.mp h.nodup
  lt := fun i hi => h.lt i (hp.mem_iff.mpr hi)

theorem Owns.left (h : Owns (xs ++ ys) next) :
    Owns xs next where
  nodup := (nodup_append.mp h.nodup).1
  lt := fun i hi => h.lt i (mem_append_left _ hi)

theorem Owns.right (h : Owns (xs ++ ys) next) :
    Owns ys next where
  nodup := (nodup_append.mp h.nodup).2.1
  lt := fun i hi => h.lt i (mem_append_right _ hi)

theorem Owns.disjoint {next i : Nat} (h : Owns (xs ++ ys) next) (hx : i ∈ xs) : i ∉ ys :=
  fun hy => (nodup_append.mp h.nodup).2.2 i hx i hy rfl

theorem Owns.subset (h : Owns ys next) (hs : xs.Sublist ys) : Owns xs next where
  nodup := h.nodup.sublist hs
  lt := fun i hi => h.lt i (hs.subset hi)

variable {σ σ' : Nat → V} {next next' : Nat}

/-- A step that keeps the memory may give up addresses. -/
theorem Footprint.silent (h : Owns own next)
    (hs : own'.Sublist own) : Footprint σ next own σ next own' where
  owns := h.subset hs
  frame := fun _ _ _ => rfl
  next_le := Nat.le_refl _
  fresh := fun _ hi => .inl (hs.subset hi)

theorem Footprint.write (h : Owns own next) (hs : own'.Sublist own)
    {i : Nat} (hi : i ∈ own) (v : V) :
    Footprint σ next own (update σ i v) next own' where
  owns := h.subset hs
  frame := fun _ hj _ => update_of_ne (ne_of_mem_of_not_mem hi hj).symm _ _
  next_le := Nat.le_refl _
  fresh := fun _ hj => .inl (hs.subset hj)

theorem Footprint.alloc {own : List Nat} (h : Owns own next) (v : V) :
    Footprint σ next own (update σ next v) (next + 1) (own ++ [next]) where
  owns := by
    refine ⟨nodup_append.mpr ⟨h.nodup, nodup_singleton _, ?_⟩, fun i hi => ?_⟩
    · intro i hi j hj hij
      obtain rfl : j = next := mem_singleton.mp hj
      exact Nat.lt_irrefl _ (hij ▸ h.lt i hi)
    · rcases mem_append.mp hi with hi | hi
      · exact Nat.lt_succ_of_lt (h.lt i hi)
      · exact mem_singleton.mp hi ▸ Nat.lt_succ_self _
  frame := fun _ _ hlt => update_of_ne (Nat.ne_of_lt hlt) _ _
  next_le := Nat.le_succ _
  fresh := fun i hi => (mem_append.mp hi).imp_right fun h =>
    Nat.le_of_eq (mem_singleton.mp h).symm

theorem Footprint.trans {σ'' : Nat → V} {next'' : Nat} {own own' own'' : List Nat}
    (f : Footprint σ next own σ' next' own') (g : Footprint σ' next' own' σ'' next'' own'') :
    Footprint σ next own σ'' next'' own'' where
  owns := g.owns
  frame := fun i hi hlt => by
    have hi' : i ∉ own' := fun h => (f.fresh i h).elim hi (Nat.not_le.mpr hlt)
    rw [g.frame i hi' (Nat.lt_of_lt_of_le hlt f.next_le), f.frame i hi hlt]
  next_le := Nat.le_trans f.next_le g.next_le
  fresh := fun i hi => by
    rcases g.fresh i hi with h | h
    · exact f.fresh i h
    · exact .inr (Nat.le_trans f.next_le h)

/-- The cells outside the footprint of a step keep their values. -/
theorem Footprint.agree {rest own own' : List Nat} (ho : Owns (rest ++ own) next)
    (f : Footprint σ next own σ' next' own') : ∀ i ∈ rest, σ' i = σ i :=
  fun i hi => f.frame i (ho.disjoint hi) (ho.lt i (mem_append_left _ hi))

/-- The step of a part, seen from the whole. What the part gains is fresh, so it
stays apart from the rest. -/
theorem Footprint.lift {whole whole' rest own own' : List Nat} (ho : Owns whole next)
    (hp : whole.Perm (rest ++ own)) (hp' : whole'.Perm (rest ++ own'))
    (f : Footprint σ next own σ' next' own') :
    Footprint σ next whole σ' next' whole' where
  owns := by
    have hr := ho.perm hp
    refine Owns.perm ⟨nodup_append.mpr ⟨hr.left.nodup, f.owns.nodup, ?_⟩, ?_⟩ hp'.symm
    · rintro i hi _ hj rfl
      rcases f.fresh i hj with hold | hnew
      · exact hr.disjoint hi hold
      · exact absurd (hr.left.lt i hi) (Nat.not_lt.mpr hnew)
    · intro i hi
      rcases mem_append.mp hi with h | h
      · exact Nat.lt_of_lt_of_le (hr.left.lt i h) f.next_le
      · exact f.owns.lt i h
  frame := fun i hi hlt => by
    refine f.frame i (fun h => hi (hp.mem_iff.mpr (mem_append_right _ h))) hlt
  next_le := f.next_le
  fresh := fun i hi => by
    rcases mem_append.mp (hp'.mem_iff.mp hi) with h | h
    · exact .inl (hp.mem_iff.mpr (mem_append_left _ h))
    · exact (f.fresh i h).imp_left fun h => hp.mem_iff.mpr (mem_append_right _ h)

end OneTbb.Cells
