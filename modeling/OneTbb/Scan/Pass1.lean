import OneTbb.Library.Footprint
import OneTbb.Scan.Model

/-!
# What the first pass leaves behind

A part of the first pass works for a `Job`: a range, a body that held `entry`
when the part started, whether its calls may be final, and whether somebody
asked for the sum. A part ends in one of two ways. Run in place as a whole, it
returns nothing and its body holds everything. Otherwise it returns the nodes
`Rel` and `Abs` describe. Final tasks only occur on the leftmost path, where
sums are absolute; everywhere else a sum starts from a split-off body and is
relative to what comes before it.
-/

namespace OneTbb.Scan

open List Function OneTbb.Scan.Tree

open Algorithms Cells

variable {R α B : Type*} (rg : Range R α) (body : Body B R) (value : α → B)

/-- The final calls on the ranges `rs`, one after the other, from the value `v`. -/
def prefixes (v : B) : List R → List (R × B)
  | [] => []
  | r :: rs => (r, v) :: prefixes (body.accumulate value v (rg.elems r)) rs

/-- The final calls `fs` cover the range `r` from left to right. -/
def Scanned (v : B) (r : R) (fs : List (R × B)) : Prop :=
  ∃ rs : List R, rs.flatMap rg.elems = rg.elems r ∧ fs = prefixes rg body value v rs

variable {rg body value}

theorem accumulate_append (v : B) (xs ys : List α) :
    body.accumulate value v (xs ++ ys) =
      body.accumulate value (body.accumulate value v xs) ys :=
  foldl_append

/-- Joining on the left goes through an accumulation. -/
theorem reverseJoin_accumulate (law : body.Lawful rg value) (a b : B) (xs : List α) :
    body.reverseJoin (body.accumulate value b xs) a =
      body.accumulate value (body.reverseJoin b a) xs := by
  induction xs generalizing b with
  | nil => rfl
  | cons x xs ih =>
    have h := ih (body.reverseJoin (value x) b)
    rw [← law.assoc] at h
    exact h

theorem prefixes_append (v : B) (rs ss : List R) :
    prefixes rg body value v (rs ++ ss) = prefixes rg body value v rs ++
      prefixes rg body value (body.accumulate value v (rs.flatMap rg.elems)) ss := by
  induction rs generalizing v with
  | nil => rfl
  | cons r rs ih => simp [prefixes, ih, accumulate_append]

theorem Scanned.single (v : B) (r : R) : Scanned rg body value v r [(r, v)] :=
  ⟨[r], by simp, rfl⟩

theorem accumulate_split {r : R} (h : rg.isDivisible r = true) (v : B) :
    body.accumulate value (body.accumulate value v (rg.elems (rg.split .split r).1))
        (rg.elems (rg.split .split r).2) = body.accumulate value v (rg.elems r) := by
  rw [← accumulate_append, rg.elems_split .split r h]

theorem Scanned.append {v : B} {r : R} {fs gs : List (R × B)} (h : rg.isDivisible r = true)
    (hl : Scanned rg body value v (rg.split .split r).1 fs)
    (hr : Scanned rg body value
      (body.accumulate value v (rg.elems (rg.split .split r).1)) (rg.split .split r).2 gs) :
    Scanned rg body value v r (fs ++ gs) := by
  obtain ⟨rs, hrs, rfl⟩ := hl
  obtain ⟨ss, hss, rfl⟩ := hr
  refine ⟨rs ++ ss, ?_, ?_⟩
  · rw [flatMap_append, hrs, hss, rg.elems_split .split r h]
  · rw [prefixes_append, hrs]

/-- The sums a returned tree refers to. -/
def SumNode.sums : SumNode R → List BodyId
  | .null => []
  | .node _ _ ls l r => l.sums ++ ls.toList ++ r.sums

variable (rg body value)

/-- The nodes a part returned that did not know what comes before it: every
left sum stands for the elements of the left half, and no call was final. -/
inductive Rel (σ : BodyId → B) : SumNode R → R → Prop
  | null {r} : Rel σ .null r
  | node {r ls lt rt} (hd : rg.isDivisible r = true)
      (hs : ∀ a, body.reverseJoin (σ ls) a =
        body.accumulate value a (rg.elems (rg.split .split r).1))
      (hl : Rel σ lt (rg.split .split r).1) (hr : Rel σ rt (rg.split .split r).2) :
      Rel σ (.node r false (some ls) lt rt) r

/-- The nodes on the leftmost path: every left sum includes the initial value
`v`. The calls `fs` were final and cover the part the innermost node skips. -/
inductive Abs (σ : BodyId → B) : SumNode R → R → B → List (R × B) → Prop
  | leftFinal {r ls rt v fs} (hd : rg.isDivisible r = true)
      (hs : σ ls = body.accumulate value v (rg.elems (rg.split .split r).1))
      (hf : Scanned rg body value v (rg.split .split r).1 fs)
      (hr : Rel rg body value σ rt (rg.split .split r).2) :
      Abs σ (.node r true (some ls) .null rt) r v fs
  | leftNode {r ls lt rt v fs} (hd : rg.isDivisible r = true)
      (hs : σ ls = body.accumulate value v (rg.elems (rg.split .split r).1))
      (hl : Abs σ lt (rg.split .split r).1 v fs)
      (hr : Rel rg body value σ rt (rg.split .split r).2) :
      Abs σ (.node r false (some ls) lt rt) r v fs

variable {rg body value}

theorem Rel.frame {σ σ' : BodyId → B} {S : SumNode R} {r : R}
    (h : Rel rg body value σ S r) (hσ : ∀ i ∈ S.sums, σ' i = σ i) :
    Rel rg body value σ' S r := by
  induction h with
  | null => exact Rel.null
  | @node r ls lt rt hd hs _ _ ihl ihr =>
    have hls : σ' ls = σ ls := hσ ls (by simp [SumNode.sums])
    exact Rel.node hd (by rwa [hls]) (ihl fun i hi => hσ i (by simp [SumNode.sums, hi]))
      (ihr fun i hi => hσ i (by simp [SumNode.sums, hi]))

theorem Abs.frame {σ σ' : BodyId → B} {S : SumNode R} {r : R} {v : B} {fs : List (R × B)}
    (h : Abs rg body value σ S r v fs) (hσ : ∀ i ∈ S.sums, σ' i = σ i) :
    Abs rg body value σ' S r v fs := by
  induction h with
  | @leftFinal r ls rt v fs hd hs hf hr =>
    exact Abs.leftFinal hd ((hσ ls (by simp [SumNode.sums])).trans hs) hf
      (hr.frame fun i hi => hσ i (by simp [SumNode.sums, hi]))
  | @leftNode r ls lt rt v fs hd hs _ hr ih =>
    exact Abs.leftNode hd ((hσ ls (by simp [SumNode.sums])).trans hs)
      (ih fun i hi => hσ i (by simp [SumNode.sums, hi]))
      (hr.frame fun i hi => hσ i (by simp [SumNode.sums, hi]))

/-- What a part of the first pass was started with. -/
structure Job (B R : Type*) where
  range : R
  body : BodyId
  entry : B
  isFinal : Bool
  sumSlot : Bool

/-- The task that carries out a job. -/
def Job.task (j : Job B R) (inPlace : Bool) : StartScan R :=
  ⟨j.range, j.body, j.sumSlot, j.isFinal, inPlace⟩

/-- The node a job is split under. -/
def Job.finish (j : Job B R) (leftSum rightZombie : Option BodyId) : FinishScan R :=
  ⟨j.range, j.isFinal, leftSum, j.sumSlot, rightZombie⟩

/-- The job of the left child. -/
def Job.left (rg : Range R α) (j : Job B R) : Job B R :=
  { j with range := (rg.split .split j.range).1, sumSlot := true }

/-- The job of the right child as it is spawned. -/
def Job.right (rg : Range R α) (j : Job B R) : Job B R :=
  { j with range := (rg.split .split j.range).2 }

/-- The job of a stolen right child, on its own body. -/
def Job.stolen (rg : Range R α) (j : Job B R) (z : BodyId) (entry : B) : Job B R :=
  ⟨(rg.split .split j.range).2, z, entry, false, j.sumSlot⟩

/-- All of the part has run in place; only `finish_scan` tasks are left. -/
inductive InPlace : Tree R → Prop
  | done : InPlace (.done .null)
  | node {f l} (hz : f.rightZombie = none) (hl : InPlace l) :
      InPlace (.node f l (.done .null))

variable (rg body value)

/-- The calls of a part that ran in place: all final or none. -/
def Calls (isFinal : Bool) (v : B) (r : R) (fs : List (R × B)) : Prop :=
  if isFinal then Scanned rg body value v r fs else fs = []

/-- `Good σ j e T fs own`: the tasks `T` carry out the job `j`, the sum slot
they work for contains `e`, they have made the final calls `fs`, and they use
the bodies `own`. -/
inductive Good (σ : BodyId → B) :
    Job B R → Option BodyId → Tree R → List (R × B) → List BodyId → Prop
  | running {j} (hv : σ j.body = j.entry) :
      Good σ j none (.task (j.task false)) [] [j.body]
  | whole {j e T fs} (hT : InPlace T) (he : e = if j.sumSlot then some j.body else none)
      (hv : j.isFinal = true ∨ j.sumSlot = true →
        σ j.body = body.accumulate value j.entry (rg.elems j.range))
      (hf : Calls rg body value j.isFinal j.entry j.range fs) : Good σ j e T fs [j.body]
  | returned {j e S fs}
      (hS : j.isFinal = true ∧ Abs rg body value σ S j.range j.entry fs ∨
        j.isFinal = false ∧ Rel rg body value σ S j.range ∧ S ≠ .null ∧ fs = [])
      (he : (j.sumSlot = true ∧ ∃ s, e = some s ∧ j.body < s ∧
          σ s = body.accumulate value j.entry (rg.elems j.range)) ∨
        j.sumSlot = false ∧ e = none)
      (hle : ∀ i ∈ S.sums, j.body ≤ i) : Good σ j e (.done S) fs (S.sums ++ e.toList)
  | rightSpawned {j ls l fs own} (hd : rg.isDivisible j.range = true)
      (hl : Good σ (j.left rg) ls l fs own) :
      Good σ j none (.node (j.finish ls none) l (.spawned ((j.right rg).task false))) fs own
  | zombie {j ls l r e z ez fs gs own own'} (hd : rg.isDivisible j.range = true)
      (hz : j.body < z) (hez : ∀ a, body.reverseJoin ez a = a)
      (hl : Good σ (j.left rg) ls l fs own) (hr : Good σ (j.stolen rg z ez) e r gs own') :
      Good σ j e (.node (j.finish ls (some z)) l r) (fs ++ gs) (own ++ own')
  | inPlace {j l fs} (hd : rg.isDivisible j.range = true) (hl : InPlace l)
      (hv : σ j.body = body.accumulate value j.entry (rg.elems (j.left rg).range))
      (hf : Calls rg body value j.isFinal j.entry (j.left rg).range fs) :
      Good σ j none (.node (j.finish (some j.body) none) l (.task ((j.right rg).task true)))
        fs [j.body]

variable {rg body value}

variable {j : Job B R} {σ : BodyId → B} {m : Memory B R} {S : SumNode R}

/-- A good part reads only the bodies it uses. -/
theorem Good.frame {σ σ' : BodyId → B} {e T fs own}
    (h : Good rg body value σ j e T fs own) (hσ : ∀ i ∈ own, σ' i = σ i) :
    Good rg body value σ' j e T fs own := by
  induction h with
  | running hv => exact Good.running ((hσ _ (by simp)).trans hv)
  | whole hT he hv hf =>
    exact Good.whole hT he (fun h => (hσ _ (by simp)).trans (hv h)) hf
  | @returned j e S fs hS he hle =>
    refine Good.returned ?_ ?_ hle
    · have hσ' : ∀ i ∈ S.sums, σ' i = σ i := fun i hi => hσ i (by simp [hi])
      exact hS.imp (And.imp_right fun h => h.frame hσ')
        (And.imp_right fun h => ⟨h.1.frame hσ', h.2⟩)
    · rcases he with ⟨hj, s, rfl, hlt, hs⟩ | he
      · exact .inl ⟨hj, s, rfl, hlt, (hσ s (by simp)).trans hs⟩
      · exact .inr he
  | rightSpawned hd _ ih => exact Good.rightSpawned hd (ih hσ)
  | zombie hd hz hez _ _ ihl ihr =>
    exact Good.zombie hd hz hez (ihl fun i hi => hσ i (mem_append_left _ hi))
      (ihr fun i hi => hσ i (mem_append_right _ hi))
  | inPlace hd hl hv hf => exact Good.inPlace hd hl ((hσ _ (by simp)).trans hv) hf

theorem Good.body_le {e T fs own}
    (h : Good rg body value σ j e T fs own) : ∀ i ∈ own, j.body ≤ i := by
  induction h with
  | running | whole | inPlace => simp
  | @returned j e S fs hS he hle =>
    intro i hi
    rcases mem_append.mp hi with hi | hi
    · exact hle i hi
    · rcases he with ⟨_, s, rfl, hlt, _⟩ | ⟨_, rfl⟩
      · obtain rfl : i = s := by simpa using hi
        exact Nat.le_of_lt hlt
      · simp at hi
  | rightSpawned _ _ ih => exact ih
  | zombie _ hz _ _ _ ihl ihr =>
    intro i hi
    rcases mem_append.mp hi with hi | hi
    · exact ihl i hi
    · exact Nat.le_of_lt (Nat.lt_of_lt_of_le hz (ihr i hi))

theorem Good.slot_mem {e T fs own}
    (h : Good rg body value σ j e T fs own) : ∀ s, e = some s → s ∈ own := by
  induction h with
  | running | rightSpawned | inPlace => simp
  | whole _ he => intro s hs; rw [he] at hs; split at hs <;> simp_all
  | returned => intro s hs; simp [hs]
  | zombie _ _ _ _ _ _ ihr => exact fun s hs => mem_append_right _ (ihr s hs)

theorem Abs.sums_ne_nil {r : R} {v : B} {fs} (h : Abs rg body value σ S r v fs) : S.sums ≠ [] := by
  cases h <;> simp [SumNode.sums]

theorem Rel.sums_ne_nil {r : R} (h : Rel rg body value σ S r) (hS : S ≠ .null) : S.sums ≠ [] := by
  cases h with
  | null => exact absurd rfl hS
  | node => simp [SumNode.sums]

theorem Good.own_ne_nil {e T fs own} (h : Good rg body value σ j e T fs own) : own ≠ [] := by
  induction h with
  | running | whole | inPlace => simp
  | returned hS =>
    refine append_ne_nil_of_left_ne_nil ?_ _
    rcases hS with ⟨_, h⟩ | ⟨_, h, hne, _⟩
    · exact h.sums_ne_nil
    · exact h.sums_ne_nil hne
  | rightSpawned _ _ ih => exact ih
  | zombie _ _ _ _ _ ihl _ => exact append_ne_nil_of_left_ne_nil ihl _

theorem Good.body_lt {e T fs own} {next : BodyId}
    (h : Good rg body value σ j e T fs own) (ho : Owns own next) : j.body < next := by
  obtain ⟨i, hi⟩ := exists_mem_of_ne_nil own h.own_ne_nil
  exact Nat.lt_of_le_of_lt (h.body_le i hi) (ho.lt i hi)

/-- A sum slot that contains the job's own body says that the whole part has
run in place. This is what makes the test in `start_scan::execute` safe. -/
theorem Good.whole_of_slot {T fs own} (h : Good rg body value σ j (some j.body) T fs own) :
    InPlace T ∧ own = [j.body] ∧ Calls rg body value j.isFinal j.entry j.range fs ∧
      σ j.body = body.accumulate value j.entry (rg.elems j.range) := by
  cases h with
  | whole hT he hv hf =>
    refine ⟨hT, rfl, hf, hv (.inr ?_)⟩
    split at he
    · assumption
    · cases he
  | returned hS he hle =>
    rcases he with ⟨_, s, hs, hlt, _⟩ | ⟨_, he⟩
    · cases hs
      exact absurd hlt (Nat.lt_irrefl _)
    · cases he
  | zombie _ hz _ _ hr =>
    have hle := hr.body_le _ (hr.slot_mem _ rfl)
    exact absurd (Nat.lt_of_lt_of_le hz hle) (Nat.lt_irrefl _)

/-- The bodies and calls after one step of a part. -/
def StepOutcome (rg : Range R α) (body : Body B R) (value : α → B) (j : Job B R)
    (fs : List (R × B)) (own : List BodyId) (m m' : Memory B R) (e' : Option BodyId)
    (T' : Tree R) : Prop :=
  ∃ fs' own' new, Good rg body value m'.bodies j e' T' fs' own' ∧
    m'.finals = new ++ m.finals ∧ fs'.Perm (new ++ fs) ∧
    Footprint m.bodies m.next own m'.bodies m'.next own'

theorem StepOutcome.silent {e' T' fs own own'} (ho : Owns own m.next) (hs : own'.Sublist own)
    (h : Good rg body value m.bodies j e' T' fs own') :
    StepOutcome rg body value j fs own m m e' T' :=
  ⟨fs, own', [], h, rfl, Perm.refl _, Footprint.silent ho hs⟩

/-- Only `finish_scan` tasks are left of a part that ran in place, and they do
nothing but disappear. -/
theorem InPlace.step {m m' : Memory B R} {e e' : Option BodyId} {T T' : Tree R}
    (h : Step rg body m e T m' e' T') (hT : InPlace T) : m' = m ∧ e' = e ∧ InPlace T' := by
  induction h with
  | stolen | inPlace | runRange | split => cases hT
  | finish =>
    cases hT with
    | node hz hl =>
      cases hl
      simp only [FinishScan.joinSums, FinishScan.result, hz]
      exact ⟨trivial, trivial, InPlace.done⟩
  | left _ ih =>
    cases hT with
    | node hz hl =>
      obtain ⟨rfl, rfl, hl'⟩ := ih hl
      exact ⟨rfl, rfl, InPlace.node hz hl'⟩
  | right h _ =>
    cases hT with
    | node => cases h

/-- The call of a task that does not split, on a body that holds `v`. -/
theorem runBody_spec (law : body.Lawful rg value) (j : Job B R) (p : Bool) (m : Memory B R) :
    ∃ new, Calls rg body value j.isFinal (m.bodies j.body) j.range new ∧
      ((j.task p).runBody body m).finals = new ++ m.finals ∧
      (j.isFinal = true ∨ j.sumSlot = true → ((j.task p).runBody body m).bodies j.body =
        body.accumulate value (m.bodies j.body) (rg.elems j.range)) ∧
      ∀ own, Owns own m.next → j.body ∈ own → Footprint m.bodies m.next own
        ((j.task p).runBody body m).bodies ((j.task p).runBody body m).next own := by
  cases hf : j.isFinal with
  | true =>
    refine ⟨[(j.range, m.bodies j.body)], ?_⟩
    simp only [Calls, StartScan.runBody, Job.task, hf, Memory.finalScan]
    refine ⟨Scanned.single _ _, rfl, fun _ => ?_, fun own ho hb => ?_⟩
    · simp [law.finalScan_eq]
    · exact Footprint.write ho (Sublist.refl _) hb _
  | false =>
    refine ⟨[], by simp [Calls], ?_⟩
    cases hs : j.sumSlot with
    | true =>
      simp only [StartScan.runBody, Job.task, hf, hs, Memory.preScan]
      refine ⟨rfl, fun _ => ?_, fun own ho hb => ?_⟩
      · simp [law.preScan_eq]
      · exact Footprint.write ho (Sublist.refl _) hb _
    | false =>
      simp only [StartScan.runBody, Job.task, hf, hs]
      refine ⟨rfl, by simp, fun own ho _ => Footprint.silent ho (Sublist.refl _)⟩

theorem Calls.append {fin : Bool} {v : B} {r : R} {fs gs : List (R × B)}
    (hd : rg.isDivisible r = true)
    (hl : Calls rg body value fin v (rg.split .split r).1 fs)
    (hr : Calls rg body value fin (body.accumulate value v (rg.elems (rg.split .split r).1))
      (rg.split .split r).2 gs) : Calls rg body value fin v r (fs ++ gs) := by
  cases fin with
  | true => exact Scanned.append hd hl hr
  | false =>
    obtain rfl : fs = [] := by simpa [Calls] using hl
    exact hr

/-- A right child that is treated as stolen gets a body of its own. -/
theorem outcome_stolen (law : body.Lawful rg value) {e f l t} {fs own}
    (hg : Good rg body value m.bodies j e (.node f l (.spawned t)) fs own)
    (ho : Owns own m.next) :
    StepOutcome rg body value j fs own m (m.splitOff body t.body) e
      (.node { f with rightZombie := some m.next } l
        (.task { t with body := m.next, isFinal := false })) := by
  cases hg with
  | whole hT => cases hT
  | zombie _ _ _ _ hr => cases hr with | whole hT => cases hT
  | rightSpawned hd hl =>
    have fp := @Footprint.alloc _ m.bodies _ _ ho (body.splitOff (m.bodies j.body))
    have hlt : j.body < m.next := hl.body_lt ho
    have hl' : Good rg body value (m.splitOff body j.body).bodies (j.left rg) _ l fs own :=
      hl.frame fun i hi => update_of_ne (Nat.ne_of_lt (ho.lt i hi)) _ _
    have hr : Good rg body value (m.splitOff body j.body).bodies
        (j.stolen rg m.next (body.splitOff (m.bodies j.body))) none
        (.task ((j.stolen rg m.next (body.splitOff (m.bodies j.body))).task false)) []
        [m.next] := Good.running (update_self _ _ _)
    have hgood := Good.zombie hd hlt (fun a => law.reverseJoin_splitOff a _) hl' hr
    exact ⟨_, _, [], hgood, rfl, by simp, fp⟩

/-- A right child that finds its own body in the sum slot continues on it. -/
theorem outcome_inPlace {e f l t} {fs own}
    (hg : Good rg body value m.bodies j e (.node f l (.spawned t)) fs own)
    (ho : Owns own m.next) {isStolen : Bool} (h : treatAsStolen f t isStolen = false) :
    StepOutcome rg body value j fs own m m e (.node f l (.task { t with inPlace := true })) := by
  cases hg with
  | whole hT => cases hT
  | zombie _ _ _ _ hr => cases hr with | whole hT => cases hT
  | @rightSpawned j ls l fs own hd hl =>
    obtain rfl : ls = some j.body :=
      Decidable.not_not.mp (of_decide_eq_false (Bool.or_eq_false_iff.mp h).2)
    obtain ⟨hT, rfl, hf, hv⟩ := Good.whole_of_slot (j := j.left rg) hl
    exact StepOutcome.silent ho (Sublist.refl _) (Good.inPlace hd hT hv hf)

theorem outcome_runRange (law : body.Lawful rg value) {e t} {fs own}
    (hg : Good rg body value m.bodies j e (.task t) fs own)
    (ho : Owns own m.next) :
    StepOutcome rg body value j fs own m (t.runBody body m)
      (if t.sumSlot then some t.body else e) (.done .null) := by
  cases hg with
  | whole hT => cases hT
  | running hv =>
    obtain ⟨new, hcalls, hfin, hval, hfp⟩ := runBody_spec law j false m
    rw [hv] at hcalls hval
    refine ⟨new, [j.body], new, Good.whole InPlace.done rfl hval hcalls, hfin, by simp, ?_⟩
    exact hfp _ ho (by simp)

/-- A right child that runs its whole range on the body of its left sibling. -/
theorem outcome_runInPlace (law : body.Lawful rg value) {l : Tree R} {fs}
    (hd : rg.isDivisible j.range = true) (hl : InPlace l)
    (hv : m.bodies j.body = body.accumulate value j.entry (rg.elems (j.left rg).range))
    (hf : Calls rg body value j.isFinal j.entry (j.left rg).range fs)
    (ho : Owns [j.body] m.next) :
    StepOutcome rg body value j fs [j.body] m (((j.right rg).task true).runBody body m)
      (if j.sumSlot then some j.body else none)
      (.node (j.finish (some j.body) none) l (.done .null)) := by
  obtain ⟨new, hcalls, hfin, hval, hfp⟩ := runBody_spec law (j.right rg) true m
  simp only [Job.right, Job.left] at hcalls hval hv hf
  rw [hv] at hcalls hval
  rw [accumulate_split hd] at hval
  refine ⟨fs ++ new, [j.body], new, Good.whole (InPlace.node rfl hl) rfl hval
    (hf.append hd hcalls), hfin, perm_append_comm, hfp _ ho (by simp [Job.right])⟩

/-- What a finished part has left in its slot and in its return slot. -/
theorem Good.done_inv {e S fs own} (h : Good rg body value σ j e (.done S) fs own) :
    (j.sumSlot = true ∧ (∃ s, e = some s ∧ own = S.sums ++ [s] ∧
        σ s = body.accumulate value j.entry (rg.elems j.range)) ∨
      j.sumSlot = false ∧ e = none ∧ S.sums.Sublist own) ∧
    (j.isFinal = true ∧ (S = .null ∧ Scanned rg body value j.entry j.range fs ∨
        Abs rg body value σ S j.range j.entry fs) ∨
      j.isFinal = false ∧ Rel rg body value σ S j.range ∧ fs = []) := by
  cases h with
  | whole hT he hv hf =>
    cases hT
    constructor
    · cases hs : j.sumSlot with
      | true => exact .inl ⟨rfl, j.body, by simp [he, hs], rfl, hv (.inr hs)⟩
      | false => exact .inr ⟨rfl, by simp [he, hs], by simp [SumNode.sums]⟩
    · cases hfin : j.isFinal with
      | true => exact .inl ⟨rfl, .inl ⟨rfl, by simpa [Calls, hfin] using hf⟩⟩
      | false => exact .inr ⟨rfl, Rel.null, by simpa [Calls, hfin] using hf⟩
  | returned hS he hle =>
    constructor
    · rcases he with ⟨hj, s, rfl, _, hs⟩ | ⟨hj, rfl⟩
      · exact .inl ⟨hj, s, rfl, rfl, hs⟩
      · exact .inr ⟨hj, rfl, by simp⟩
    · exact hS.imp (And.imp_right .inr) (And.imp_right fun h => ⟨h.1, h.2.2⟩)

theorem result_zombie (j : Job B R) (ls : Option BodyId) (z : BodyId) (sl sr : SumNode R) :
    (j.finish ls (some z)).result sl sr =
      .node j.range ((j.finish ls (some z)).finalLeft sl) ls sl sr := by
  cases sr <;> rfl

/-- The node `finish_scan` returns describes its range if the parts below do. -/
theorem finish_node {s sl sr fs} (hd : rg.isDivisible j.range = true)
    (hid : j.isFinal = false → ∀ a, body.reverseJoin j.entry a = a)
    (law : body.Lawful rg value)
    (hs : σ s = body.accumulate value j.entry (rg.elems (rg.split .split j.range).1))
    (hl : j.isFinal = true ∧
        (sl = .null ∧ Scanned rg body value j.entry (rg.split .split j.range).1 fs ∨
          Abs rg body value σ sl (rg.split .split j.range).1 j.entry fs) ∨
      j.isFinal = false ∧ Rel rg body value σ sl (rg.split .split j.range).1 ∧ fs = [])
    (hr : Rel rg body value σ sr (rg.split .split j.range).2) (z : BodyId) :
    let S := (j.finish (some s) (some z)).result sl sr
    j.isFinal = true ∧ Abs rg body value σ S j.range j.entry fs ∨
      j.isFinal = false ∧ Rel rg body value σ S j.range ∧ S ≠ .null ∧ fs = [] := by
  simp only [result_zombie]
  rcases hl with ⟨hf, ⟨rfl, hsc⟩ | habs⟩ | ⟨hf, hrel, hfs⟩
  · have hlif : (j.finish (some s) (some z)).finalLeft .null = true := hf
    rw [hlif]
    exact .inl ⟨hf, Abs.leftFinal hd hs hsc hr⟩
  · cases sl with
    | null => cases habs
    | node => exact .inl ⟨hf, Abs.leftNode hd hs habs hr⟩
  · refine .inr ⟨hf, ?_, by simp, hfs⟩
    have hlif : (j.finish (some s) (some z)).finalLeft sl = false := by
      cases sl with
      | null => exact hf
      | node => rfl
    rw [hlif]
    refine Rel.node hd (fun a => ?_) hrel hr
    rw [hs, reverseJoin_accumulate law, hid hf]

/-- `finish_scan::execute` after a stolen right child. -/
theorem outcome_finish_zombie (law : body.Lawful rg value) {e ls sl sr} {z : BodyId}
    {ez fs gs own own'} (hd : rg.isDivisible j.range = true)
    (hz : j.body < z) (hez : ∀ a, body.reverseJoin ez a = a)
    (hl : Good rg body value m.bodies (j.left rg) ls (.done sl) fs own)
    (hr : Good rg body value m.bodies (j.stolen rg z ez) e (.done sr) gs own')
    (ho : Owns (own ++ own') m.next)
    (hid : j.isFinal = false → ∀ a, body.reverseJoin j.entry a = a) :
    StepOutcome rg body value j (fs ++ gs) (own ++ own') m
      ((j.finish ls (some z)).joinSums body e m) e
      (.done ((j.finish ls (some z)).result sl sr)) := by
  have hle : ∀ i ∈ own ++ own', j.body ≤ i := (Good.zombie hd hz hez hl hr).body_le
  have hlelt : ∀ i ∈ own', j.body < i := fun i hi => Nat.lt_of_lt_of_le hz (hr.body_le i hi)
  obtain ⟨hslot, hleft⟩ := hl.done_inv
  obtain ⟨s, rfl, rfl, hs⟩ : ∃ s, ls = some s ∧ own = sl.sums ++ [s] ∧ _ :=
    (hslot.resolve_right fun h => absurd h.1 (by simp [Job.left])).2
  obtain ⟨hslot', hright⟩ := hr.done_inv
  obtain ⟨hrel, rfl⟩ : Rel rg body value m.bodies sr (rg.split .split j.range).2 ∧ gs = [] :=
    (hright.resolve_left fun h => absurd h.1 (by simp [Job.stolen])).2
  have hsums : ((j.finish (some s) (some z)).result sl sr).sums = sl.sums ++ [s] ++ sr.sums := by
    rw [result_zombie]
    rfl
  rw [append_nil]
  rcases hslot' with ⟨hj, s', rfl, rfl, hs'⟩ | ⟨hj, rfl, hsub⟩
  · -- the sum slot is joined with the left sum, which nobody else uses
    have hj : j.sumSlot = true := hj
    have hmem : (j.finish (some s) (some z)).joinSums body (some s') m =
        m.reverseJoin body s' s := by
      simp [FinishScan.joinSums, Job.finish, hj]
    rw [hmem]
    have hother : ∀ i ∈ sl.sums ++ [s] ++ sr.sums,
        (m.reverseJoin body s' s).bodies i = m.bodies i := by
      intro i hi
      refine update_of_ne ?_ _ _
      rintro rfl
      rw [← append_assoc] at ho
      exact ho.disjoint hi (by simp)
    have hval : (m.reverseJoin body s' s).bodies s' =
        body.accumulate value j.entry (rg.elems j.range) := by
      simp only [Memory.reverseJoin, update_self, hs, hs', Job.left, Job.stolen]
      rw [reverseJoin_accumulate law, hez, accumulate_split hd]
    have hS := finish_node hd hid law ((hother s (by simp)).trans hs)
      (hleft.imp (And.imp_right (Or.imp_right fun h => h.frame fun i hi => hother i (by simp [hi])))
        (And.imp_right (And.imp_left fun h => h.frame fun i hi => hother i (by simp [hi]))))
      (hrel.frame fun i hi => hother i (by simp [hi])) z
    have hge : ∀ i ∈ ((j.finish (some s) (some z)).result sl sr).sums, j.body ≤ i := by
      intro i hi
      rw [hsums] at hi
      exact hle i ((Sublist.append_left (sublist_append_left _ _) _).subset hi)
    have hgood := Good.returned hS (.inl ⟨hj, s', rfl, hlelt s' (by simp), hval⟩) hge
    have heq : ((j.finish (some s) (some z)).result sl sr).sums ++ (some s').toList =
        sl.sums ++ [s] ++ (sr.sums ++ [s']) := by
      simp [hsums]
    rw [heq] at hgood
    exact ⟨fs, _, [], hgood, rfl, Perm.refl _,
      Footprint.write ho (Sublist.refl _) (by simp) _⟩
  · have hj : j.sumSlot = false := hj
    have hmem : (j.finish (some s) (some z)).joinSums body none m = m := by
      simp [FinishScan.joinSums, Job.finish]
    rw [hmem]
    refine StepOutcome.silent ho ?_ (Good.returned (e := none)
      (finish_node hd hid law hs hleft hrel z) (.inr ⟨hj, rfl⟩) ?_)
    · rw [hsums]
      simpa using hsub
    · intro i hi
      rw [hsums] at hi
      exact hle i ((Sublist.append_left hsub _).subset hi)

theorem outcome_finish (law : body.Lawful rg value) {e f sl sr} {fs own}
    (hg : Good rg body value m.bodies j e (.node f (.done sl) (.done sr)) fs own)
    (ho : Owns own m.next)
    (hid : j.isFinal = false → ∀ a, body.reverseJoin j.entry a = a) :
    StepOutcome rg body value j fs own m (f.joinSums body e m) e
      (.done (f.result sl sr)) := by
  cases hg with
  | zombie hd hz hez hl hr => exact outcome_finish_zombie law hd hz hez hl hr ho hid
  | whole hT he hv hf =>
    obtain ⟨hm, _, hT'⟩ := InPlace.step (@Step.finish _ _ _ rg body m e _ _ _) hT
    rw [hm]
    exact StepOutcome.silent ho (Sublist.refl _) (Good.whole hT' he hv hf)

theorem outcome_left {m m' : Memory B R} {e f l r s l'}
    (h : Step rg body m f.leftSum l m' s l')
    (ih : ∀ {j : Job B R} {fs own}, Good rg body value m.bodies j f.leftSum l fs own →
      Owns own m.next → (j.isFinal = false → ∀ a, body.reverseJoin j.entry a = a) →
      StepOutcome rg body value j fs own m m' s l') {fs own}
    (hg : Good rg body value m.bodies j e (.node f l r) fs own) (ho : Owns own m.next)
    (hid : j.isFinal = false → ∀ a, body.reverseJoin j.entry a = a) :
    StepOutcome rg body value j fs own m m' e (.node { f with leftSum := s } l' r) := by
  cases hg with
  | whole hT he hv hf =>
    cases hT with
    | node hz hl =>
      obtain ⟨rfl, rfl, hl'⟩ := InPlace.step h hl
      exact StepOutcome.silent ho (Sublist.refl _)
        (Good.whole (InPlace.node hz hl') he hv hf)
  | inPlace hd hl hv hf =>
    obtain ⟨rfl, rfl, hl'⟩ := InPlace.step h hl
    exact StepOutcome.silent ho (Sublist.refl _) (Good.inPlace hd hl' hv hf)
  | rightSpawned hd hl =>
    obtain ⟨fs', own', new, hg', hfin, hperm, fp⟩ := ih hl ho hid
    exact ⟨fs', own', new, Good.rightSpawned hd hg', hfin, hperm, fp⟩
  | @zombie _ _ _ _ _ z ez fs gs own own₂ hd hz hez hl hr =>
    obtain ⟨fs', own', new, hg', hfin, hperm, fp⟩ := ih hl ho.left hid
    have hp := @List.perm_append_comm _ own own₂
    have hr' := hr.frame (fp.agree (ho.perm hp))
    refine ⟨fs' ++ gs, own' ++ own₂, new, Good.zombie hd hz hez hg' hr', hfin, ?_, ?_⟩
    · rw [← append_assoc]
      exact hperm.append_right gs
    · exact Footprint.lift ho hp perm_append_comm fp

theorem outcome_right (law : body.Lawful rg value) {m m' : Memory B R} {e f l r e' r'}
    (h : Step rg body m e r m' e' r')
    (ih : ∀ {j : Job B R} {fs own}, Good rg body value m.bodies j e r fs own →
      Owns own m.next → (j.isFinal = false → ∀ a, body.reverseJoin j.entry a = a) →
      StepOutcome rg body value j fs own m m' e' r') {fs own}
    (hg : Good rg body value m.bodies j e (.node f l r) fs own) (ho : Owns own m.next) :
    StepOutcome rg body value j fs own m m' e' (.node f l r') := by
  cases hg with
  | whole hT =>
    cases hT with
    | node => cases h
  | rightSpawned => cases h
  | inPlace hd hl hv hf =>
    cases h with
    | runRange => exact outcome_runInPlace law hd hl hv hf ho
    | split hp => cases hp
  | @zombie _ _ _ _ _ z ez fs gs own own₂ hd hz hez hl hr =>
    obtain ⟨gs', own', new, hg', hfin, hperm, fp⟩ := ih hr ho.right fun _ => hez
    refine ⟨fs ++ gs', own ++ own', new,
      Good.zombie hd hz hez (hl.frame (fp.agree ho)) hg', hfin, ?_, ?_⟩
    · refine (hperm.append_left fs).trans ?_
      rw [← append_assoc, ← append_assoc]
      exact perm_append_comm.append_right gs
    · exact Footprint.lift ho (Perm.refl _) (Perm.refl _) fp

theorem Step.outcome (law : body.Lawful rg value) {m m' : Memory B R} {e e' T T'}
    (h : Step rg body m e T m' e' T') : ∀ {j : Job B R} {fs own},
      Good rg body value m.bodies j e T fs own → Owns own m.next →
      (j.isFinal = false → ∀ a, body.reverseJoin j.entry a = a) →
      StepOutcome rg body value j fs own m m' e' T' := by
  -- the induction is on the position of the task in the tree
  induction h with
  | stolen => exact fun hg ho _ => outcome_stolen law hg ho
  | inPlace _ h => exact fun hg ho _ => outcome_inPlace hg ho h
  | runRange => exact fun hg ho _ => outcome_runRange law hg ho
  | split hp hd =>
    intro j fs own hg ho _
    cases hg with
    | whole hT => cases hT
    | running hv =>
      exact StepOutcome.silent ho (Sublist.refl _)
        (Good.rightSpawned hd (Good.running (j := j.left rg) hv))
  | finish => exact fun hg ho hid => outcome_finish law hg ho hid
  | left h ih => exact fun hg ho hid => outcome_left h ih hg ho hid
  | right h ih => exact fun hg ho _ => outcome_right law h ih hg ho

theorem Good.slot_none {e T fs own}
    (h : Good rg body value σ j e T fs own) (hj : j.sumSlot = false) : e = none := by
  induction h with
  | running | rightSpawned | inPlace => rfl
  | whole _ he => simpa [hj] using he
  | returned _ he => exact (he.resolve_left fun h => by simp [hj] at h).2
  | zombie _ _ _ _ _ _ ihr => exact ihr hj

/-- The steps that remain when no task splits its range again. -/
def Tree.work : Tree R → Nat
  | .spawned _ => 2
  | .task _ => 1
  | .done _ => 0
  | .node _ l r => l.work + r.work + 1

theorem InPlace.progress (rg : Range R α) (body : Body B R) {T : Tree R} (h : InPlace T) :
    T = .done .null ∨ ∀ m e, ∃ m' e' T', Step rg body m e T m' e' T' ∧ T'.work < T.work := by
  induction h with
  | done => exact .inl rfl
  | node hz _ ih =>
    refine .inr fun m e => ?_
    rcases ih with rfl | ih
    · exact ⟨_, _, _, Step.finish, by simp [work]⟩
    · obtain ⟨m', e', l', hl, hw⟩ := ih m _
      exact ⟨_, _, _, Step.left hl, by simpa [work] using hw⟩

/-- A part that has not finished has a task that can be executed. -/
theorem Good.progress {e T fs own} (h : Good rg body value σ j e T fs own) (m : Memory B R) :
    (∃ S, T = .done S) ∨ ∃ m' e' T', Step rg body m e T m' e' T' ∧ T'.work < T.work := by
  induction h with
  | running => exact .inr ⟨_, _, _, Step.runRange, by simp [work]⟩
  | whole hT => exact (hT.progress rg body).imp (fun h => ⟨_, h⟩) fun h => h m _
  | returned => exact .inl ⟨_, rfl⟩
  | @rightSpawned j ls l fs own =>
    refine .inr ?_
    cases h : treatAsStolen (j.finish ls none) ((j.right rg).task false) false with
    | true => exact ⟨_, _, _, Step.stolen false h, by simp [work]⟩
    | false => exact ⟨_, _, _, Step.inPlace false h, by simp [work]⟩
  | zombie _ _ _ _ _ ihl ihr =>
    refine .inr ?_
    rcases ihl with ⟨sl, rfl⟩ | ⟨m', s, l', hl, hw⟩
    · rcases ihr with ⟨sr, rfl⟩ | ⟨m', e', r', hr, hw⟩
      · exact ⟨_, _, _, Step.finish, by simp [work]⟩
      · exact ⟨_, _, _, Step.right hr, by simpa [work] using hw⟩
    · exact ⟨_, _, _, Step.left hl, by simpa [work] using hw⟩
  | inPlace => exact .inr ⟨_, _, _, Step.right Step.runRange, by simp [work]⟩

end OneTbb.Scan
