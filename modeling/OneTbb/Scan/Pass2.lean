import OneTbb.Scan.Pass1

/-!
# What the second pass adds

Every task of the second pass covers one range and knows what comes before it.
A `sum_node` that gets an incoming sum turns its relative left sum into the
value before its right half; the nodes on the leftmost path hold such values
from the start.
-/

namespace OneTbb.Scan

open List

open Algorithms Cells

variable {R α B : Type*} (rg : Range R α) (body : Body B R) (value : α → B)

/-- The task that covers the end of the range owns the user's body. -/
def lastBody (stuffLast : Bool) : List BodyId :=
  if stuffLast then [userBody] else []

/-- `Good2 σ T r p stuff fs own`: the tasks `T` cover the range `r`, the value
before it is `p`, the final calls `fs` on it were made in either pass, and the
tasks use the bodies `own`. -/
inductive Good2 (σ : BodyId → B) :
    Pass2 R → R → B → Bool → List (R × B) → List BodyId → Prop
  | relSum {b S r p stuff} (hne : S ≠ .null) (hb : σ b = p)
      (hS : Rel rg body value σ S r) :
      Good2 σ (.sum b (some b) stuff S) r p stuff [] (b :: S.sums ++ lastBody stuff)
  | absSum {b S r p stuff fs} (hS : Abs rg body value σ S r p fs) :
      Good2 σ (.sum b none stuff S) r p stuff fs (S.sums ++ lastBody stuff)
  | final {b r p stuff} (hb : σ b = p) :
      Good2 σ (.final b r stuff) r p stuff [] (b :: lastBody stuff)
  | wait {l t r p stuff fs gs own own'} (hd : rg.isDivisible r = true)
      (hl : Good2 σ l (rg.split .split r).1 p false fs own)
      (hr : Good2 σ t (rg.split .split r).2
        (body.accumulate value p (rg.elems (rg.split .split r).1)) stuff gs own') :
      Good2 σ (.wait l t) r p stuff (fs ++ gs) (own ++ own')
  | done {r p stuff fs} (hf : Scanned rg body value p r fs)
      (hu : stuff = true → σ userBody = body.accumulate value p (rg.elems r)) :
      Good2 σ .done r p stuff fs (lastBody stuff)

variable {rg body value}

theorem Good2.frame {σ σ' : BodyId → B} {T r p stuff fs own}
    (h : Good2 rg body value σ T r p stuff fs own) (hσ : ∀ i ∈ own, σ' i = σ i) :
    Good2 rg body value σ' T r p stuff fs own := by
  induction h with
  | relSum hne hb hS =>
    exact Good2.relSum hne ((hσ _ (by simp)).trans hb)
      (hS.frame fun i hi => hσ i (by simp [hi]))
  | absSum hS => exact Good2.absSum (hS.frame fun i hi => hσ i (by simp [hi]))
  | final hb => exact Good2.final ((hσ _ (by simp)).trans hb)
  | wait hd _ _ ihl ihr =>
    exact Good2.wait hd (ihl fun i hi => hσ i (mem_append_left _ hi))
      (ihr fun i hi => hσ i (mem_append_right _ hi))
  | done hf hu =>
    exact Good2.done hf fun hs => (hσ _ (by simp [lastBody, hs])).trans (hu hs)

/-- A child that knows the value before its range. -/
theorem createChild_rel {σ : BodyId → B} {S : SumNode R} {r : R} {b : BodyId} {p : B}
    (stuff : Bool) (hb : σ b = p) (hS : Rel rg body value σ S r) :
    Good2 rg body value σ (createChild r b S (some b) stuff) r p stuff []
      (b :: S.sums ++ lastBody stuff) := by
  cases S with
  | null => exact Good2.final hb
  | node => exact Good2.relSum (by simp) hb hS

/-- The bodies and calls after one step of the second pass. -/
def StepOutcome2 (rg : Range R α) (body : Body B R) (value : α → B) (r : R) (p : B)
    (stuff : Bool) (fs : List (R × B)) (own : List BodyId) (m m' : Memory B R)
    (T' : Pass2 R) : Prop :=
  ∃ fs' own' new, Good2 rg body value m'.bodies T' r p stuff fs' own' ∧
    m'.finals = new ++ m.finals ∧ fs'.Perm (new ++ fs) ∧
    Footprint m.bodies m.next own m'.bodies m'.next own'

/-- A `sum_node` with an incoming sum. -/
theorem outcome_relSum {m : Memory B R} {r range : R} {b ls : BodyId} {lif stuff left right own p}
    (hb : m.bodies b = p)
    (hS : Rel rg body value m.bodies (.node range lif (some ls) left right) r)
    (hown : own = b :: (SumNode.node range lif (some ls) left right).sums ++ lastBody stuff)
    (ho : Owns own m.next) :
    StepOutcome2 rg body value r p stuff [] own m (joinIncoming body ls (some b) m)
      (.wait (if lif then .done
          else createChild (rg.split .split range).1 b left (some b) false)
        (createChild (rg.split .split range).2 ls right (some ls) stuff)) := by
  cases hS with
  | node hd hs hl hr =>
    have heq : own = (b :: left.sums ++ lastBody false) ++
        (ls :: right.sums ++ lastBody stuff) := by
      simp [hown, SumNode.sums, lastBody]
    rw [heq] at ho ⊢
    have hother : ∀ i, i ≠ ls → (joinIncoming body ls (some b) m).bodies i = m.bodies i :=
      fun i hi => Function.update_of_ne hi _ _
    have hleft : ∀ i ∈ b :: left.sums, i ≠ ls := by
      rintro i hi rfl
      exact ho.disjoint (mem_append_left _ hi) (by simp)
    have hright : ∀ i ∈ right.sums, i ≠ ls := by
      rintro i hi rfl
      exact (nodup_cons.mp ho.right.nodup).1 (mem_append_left _ hi)
    have hval : (joinIncoming body ls (some b) m).bodies ls =
        body.accumulate value p (rg.elems (rg.split .split r).1) := by
      simp [joinIncoming, Memory.reverseJoin, hs, hb]
    have hgl := createChild_rel false ((hother b (hleft b (by simp))).trans hb)
      (hl.frame fun i hi => hother i (hleft i (by simp [hi])))
    have hgr := createChild_rel stuff hval (hr.frame fun i hi => hother i (hright i hi))
    exact ⟨_, _, [], Good2.wait hd hgl hgr, rfl, by simp,
      Footprint.write ho (Sublist.refl _) (by simp) _⟩

/-- A `sum_node` on the leftmost path. -/
theorem outcome_absSum {m : Memory B R} {r range : R} {b ls : BodyId} {lif stuff left right own p fs}
    (hS : Abs rg body value m.bodies (.node range lif (some ls) left right) r p fs)
    (hown : own = (SumNode.node range lif (some ls) left right).sums ++ lastBody stuff)
    (ho : Owns own m.next) :
    StepOutcome2 rg body value r p stuff fs own m m
      (.wait (if lif then .done
          else createChild (rg.split .split range).1 b left none false)
        (createChild (rg.split .split range).2 ls right (some ls) stuff)) := by
  cases hS with
  | leftFinal hd hs hf hr =>
    have hgl : Good2 rg body value m.bodies .done _ p false fs (lastBody false) :=
      Good2.done hf (by simp)
    refine ⟨_, _, [], Good2.wait hd hgl (createChild_rel stuff hs hr), rfl, by simp, ?_⟩
    refine Footprint.silent ho ?_
    simp [hown, SumNode.sums, lastBody]
  | leftNode hd hs hl hr =>
    have hgl : Good2 rg body value m.bodies
        (createChild (rg.split .split r).1 b left none false) (rg.split .split r).1 p false fs
        (left.sums ++ lastBody false) := by
      cases left with
      | null => cases hl
      | node => exact Good2.absSum hl
    refine ⟨_, _, [], Good2.wait hd hgl (createChild_rel stuff hs hr), rfl, by simp, ?_⟩
    refine Footprint.silent ho ?_
    simp [hown, SumNode.sums, lastBody]

/-- A `final_sum` task. -/
theorem outcome_final (law : body.Lawful rg value) {m : Memory B R} {r : R} {b : BodyId} {stuff}
    (ho : Owns (b :: lastBody stuff) m.next) :
    StepOutcome2 rg body value r (m.bodies b) stuff [] (b :: lastBody stuff) m
      (runFinalSum body b r stuff m) .done := by
  have fp : Footprint m.bodies m.next (b :: lastBody stuff) (m.finalScan body b r).bodies
      m.next (b :: lastBody stuff) := Footprint.write ho (Sublist.refl _) (by simp) _
  have hval : (m.finalScan body b r).bodies b =
      body.accumulate value (m.bodies b) (rg.elems r) := by
    simp [Memory.finalScan, law.finalScan_eq]
  cases stuff with
  | false =>
    exact ⟨_, _, [(r, m.bodies b)], Good2.done (Scanned.single _ _) (by simp), rfl,
      by simp, fp.trans (Footprint.silent ho (sublist_cons_self _ _))⟩
  | true =>
    refine ⟨_, _, [(r, m.bodies b)], Good2.done (Scanned.single _ _) fun _ => ?_, rfl,
      by simp, fp.trans (Footprint.write ho (sublist_cons_self _ _) ?_ _)⟩
    · simp [runFinalSum, Memory.assignTo, law.assign_eq, hval]
    · simp [lastBody]

theorem Step2.outcome (law : body.Lawful rg value) {m m' : Memory B R} {T T' : Pass2 R}
    (h : Step2 rg body m T m' T') : ∀ {r p stuff fs own},
      Good2 rg body value m.bodies T r p stuff fs own → Owns own m.next →
      StepOutcome2 rg body value r p stuff fs own m m' T' := by
  induction h with
  | sum =>
    intro r p stuff fs own hg ho
    cases hg with
    | relSum _ hb hS => exact outcome_relSum hb hS rfl ho
    | absSum hS => exact outcome_absSum hS rfl ho
  | final =>
    intro r p stuff fs own hg ho
    cases hg with
    | final hb =>
      subst hb
      exact outcome_final law ho
  | finalize =>
    intro r p stuff fs own hg ho
    cases hg with
    | wait hd hl hr =>
      cases hl with
      | done hfl _ =>
        cases hr with
        | done hfr hu =>
          refine ⟨_, _, [], Good2.done (hfl.append hd hfr) fun hs => ?_, rfl,
            Perm.refl _, Footprint.silent ho (sublist_append_right _ _)⟩
          rw [hu hs, accumulate_split hd]
  | left _ ih =>
    intro r p stuff fs own hg ho
    cases hg with
    | @wait _ _ _ _ _ fs gs own own₂ hd hl hr =>
      obtain ⟨fs', own', new, hg', hfin, hperm, fp⟩ := ih hl ho.left
      have hp := @List.perm_append_comm _ own own₂
      refine ⟨fs' ++ gs, own' ++ own₂, new,
        Good2.wait hd hg' (hr.frame (fp.agree (ho.perm hp))), hfin, ?_, ?_⟩
      · rw [← append_assoc]
        exact hperm.append_right gs
      · exact Footprint.lift ho hp perm_append_comm fp
  | right _ ih =>
    intro r p stuff fs own hg ho
    cases hg with
    | @wait _ _ _ _ _ fs gs own own₂ hd hl hr =>
      obtain ⟨gs', own', new, hg', hfin, hperm, fp⟩ := ih hr ho.right
      refine ⟨fs ++ gs', own ++ own', new, Good2.wait hd (hl.frame (fp.agree ho)) hg',
        hfin, ?_, ?_⟩
      · refine (hperm.append_left fs).trans ?_
        rw [← append_assoc, ← append_assoc]
        exact perm_append_comm.append_right gs
      · exact Footprint.lift ho (Perm.refl _) (Perm.refl _) fp

/-- An upper bound on the steps that remain below a node. -/
def SumNode.work : SumNode R → Nat
  | .null => 1
  | .node _ _ _ l r => l.work + r.work + 2

/-- An upper bound on the steps of the second pass that remain. -/
def Pass2.work : Pass2 R → Nat
  | .sum _ _ _ n => n.work
  | .final .. => 1
  | .wait l r => l.work + r.work + 1
  | .done => 0

theorem createChild_work (r : R) (b : BodyId) (S : SumNode R) (inc : Option BodyId)
    (stuff : Bool) : (createChild r b S inc stuff).work = S.work := by
  cases S <;> rfl

theorem work_wait_lt (rg : Range R α) {b ls : BodyId} {inc} {stuff lif : Bool} {range : R}
    {left right : SumNode R} :
    (Pass2.wait (if lif then .done
        else createChild (rg.split .split range).1 b left inc false)
      (createChild (rg.split .split range).2 ls right (some ls) stuff)).work <
      left.work + right.work + 2 := by
  cases lif with
  | true =>
    simp only [if_true, Pass2.work, createChild_work]
    omega
  | false =>
    simp only [Bool.false_eq_true, if_false, Pass2.work, createChild_work]
    omega

/-- The second pass never gets stuck. -/
theorem Good2.progress {σ : BodyId → B} {T r p stuff fs own}
    (h : Good2 rg body value σ T r p stuff fs own) (m : Memory B R) :
    T = .done ∨ ∃ m' T', Step2 rg body m T m' T' ∧ T'.work < T.work := by
  induction h with
  | relSum hne _ hS =>
    cases hS with
    | null => exact absurd rfl hne
    | node => exact .inr ⟨_, _, Step2.sum, work_wait_lt rg⟩
  | absSum hS =>
    cases hS with
    | leftFinal | leftNode => exact .inr ⟨_, _, Step2.sum, work_wait_lt rg⟩
  | final => exact .inr ⟨_, _, Step2.final, by simp [Pass2.work]⟩
  | done => exact .inl rfl
  | wait _ _ _ ihl ihr =>
    refine .inr ?_
    rcases ihl with rfl | ⟨m', l', hl, hw⟩
    · rcases ihr with rfl | ⟨m', r', hr, hw⟩
      · exact ⟨_, _, Step2.finalize, by simp [Pass2.work]⟩
      · exact ⟨_, _, Step2.right hr, by simpa [Pass2.work] using hw⟩
    · exact ⟨_, _, Step2.left hl, by simpa [Pass2.work] using hw⟩

end OneTbb.Scan
