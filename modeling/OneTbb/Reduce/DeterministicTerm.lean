import OneTbb.Library.Footprint
import OneTbb.Reduce.Deterministic

/-!
# `parallel_deterministic_reduce` computes one term

A task with a given range and partition object leaves a term in its body that depends only on the
term it finds there. The tree of a run always consists of parts of that term, whatever the order in
which threads take their steps.
-/

namespace OneTbb.Reduce.Deterministic

open List

open Algorithms Cells

variable {R α B : Type*} {rg : Range R α} {body : SplittingBody B R} {init : B}

/-- A task for `r` that finds the term `t` in its body leaves the term `t'`. -/
inductive Denotes (rg : Range R α) : R → Partition → Term R → Term R → Prop
  | leaf {r p t} (h : Task.divides rg r p = false) : Denotes rg r p t (.call t r)
  | node {r p t left right} (h : Task.divides rg r p = true)
      (hl : Denotes rg (rg.split p.getSplit r).1 (p.split p.getSplit).1 (.splitSource t) left)
      (hr : Denotes rg (rg.split p.getSplit r).2 (p.split p.getSplit).2 (.splitOff t) right) :
      Denotes rg r p t (.join left right)

variable {p : Partition} {σ : BodyId → B} {m m' : Memory B} {T T' : Tree R}

theorem Denotes.unique {r : R} {p : Partition} {t t₁ t₂ : Term R} (h₁ : Denotes rg r p t t₁)
    (h₂ : Denotes rg r p t t₂) : t₁ = t₂ := by
  induction h₁ generalizing t₂ with
  | leaf h =>
    cases h₂ with
    | leaf => rfl
    | node h' => simp [h] at h'
  | node h _ _ ihl ihr =>
    cases h₂ with
    | leaf h' => simp [h] at h'
    | node _ hl hr => rw [ihl hl, ihr hr]

/-- One if the subtree still holds a reference of the node above it. -/
def Tree.pending : Tree R → Nat
  | .done => 0
  | _ => 1

/-- The addresses of the bodies split off below. -/
def Tree.rightBodies : Tree R → List BodyId
  | .node n l r => n.rightBody :: (l.rightBodies ++ r.rightBodies)
  | _ => []

/-- The addresses a subtree on the body `b` works on. -/
def Tree.own (T : Tree R) (b : BodyId) : List BodyId := b :: T.rightBodies

/-- The subtree does the work of a task for `r` and `p` that found the term `t` in body `b`. -/
inductive Good (rg : Range R α) (body : SplittingBody B R) (init : B) (σ : BodyId → B) :
    Tree R → BodyId → R → Partition → Term R → Prop
  | task {b r p t phase} (hv : σ b = t.interp body init) :
      Good rg body init σ (.task ⟨r, p, b⟩ phase) b r p t
  | folding {b r p t t'} (ht : Denotes rg r p t t') (hv : σ b = t'.interp body init) :
      Good rg body init σ .folding b r p t
  | done {b r p t t'} (ht : Denotes rg r p t t') (hv : σ b = t'.interp body init) :
      Good rg body init σ .done b r p t
  | node {c z l rt b r p t} (h : Task.divides rg r p = true) (hc : c = l.pending + rt.pending)
      (hl : Good rg body init σ l b (rg.split p.getSplit r).1 (p.split p.getSplit).1
        (.splitSource t))
      (hr : Good rg body init σ rt z (rg.split p.getSplit r).2 (p.split p.getSplit).2
        (.splitOff t)) :
      Good rg body init σ (.node ⟨c, b, z⟩ l rt) b r p t

theorem Good.done_inv {b r p t} (h : Good rg body init σ .done b r p t) :
    ∃ t', Denotes rg r p t t' ∧ σ b = t'.interp body init := by
  cases h with
  | done ht hv => exact ⟨_, ht, hv⟩

/-- A thread that is folding has left the term of its subtree. -/
theorem Good.done_of_folding {b r p t}
    (h : Good rg body init σ .folding b r p t) : Good rg body init σ .done b r p t := by
  cases h with
  | folding ht hv => exact .done ht hv

/-- The addresses of a node are those of its left part and those of its right part. -/
theorem node_perm (c : Nat) (b z : BodyId) (l r : Tree R) :
    ((Tree.node ⟨c, b, z⟩ l r).own b).Perm (l.own b ++ r.own z) :=
  (@List.perm_middle _ z l.rightBodies r.rightBodies).symm.cons b

/-- `Good` reads memory only at the subtree's own addresses. -/
theorem Good.frame {σ σ' : BodyId → B} {T : Tree R} {b r p t} (h : Good rg body init σ T b r p t)
    (hσ : ∀ i ∈ T.own b, σ' i = σ i) : Good rg body init σ' T b r p t := by
  induction h with
  | task hv => exact .task ((hσ _ mem_cons_self).trans hv)
  | folding ht hv => exact .folding ht ((hσ _ mem_cons_self).trans hv)
  | done ht hv => exact .done ht ((hσ _ mem_cons_self).trans hv)
  | @node c z l rt b r p t h hc _ _ ihl ihr =>
    have hperm := node_perm c b z l rt
    refine .node h hc (ihl fun i hi => hσ i ?_) (ihr fun i hi => hσ i ?_)
    · exact hperm.mem_iff.mpr (mem_append_left _ hi)
    · exact hperm.mem_iff.mpr (mem_append_right _ hi)

/-- Only the release of a reference finishes a subtree. -/
theorem Step.pending (h : Step rg body m T m' T') :
    T.pending = 1 ∧ T'.pending = 1 := by
  cases h <;> exact ⟨rfl, rfl⟩

/-- A step keeps a subtree good and touches no memory of others. -/
structure StepOutcome (rg : Range R α) (body : SplittingBody B R) (init : B) (m : Memory B)
    (T : Tree R) (m' : Memory B) (T' : Tree R) (b : BodyId) (r : R) (p : Partition)
    (t : Term R) : Prop where
  good : Good rg body init m'.bodies T' b r p t
  footprint : Footprint m.bodies m.next (T.own b) m'.bodies m'.next (T'.own b)

/-- A task that offers work splits its body. -/
theorem outcome_offerWork {m : Memory B} {b r p t}
    (h : Task.divides rg r p = true) (hv : m.bodies b = t.interp body init) (hb : b < m.next) :
    StepOutcome rg body init m (.task ⟨r, p, b⟩ .executing) (m.splitBody body b)
      (.node ⟨2, b, m.next⟩ (.task ((Task.mk r p b).leftChild rg) .executing)
        (.task ((Task.mk r p b).rightChild rg m.next) .spawned)) b r p t := by
  constructor
  case good =>
    refine .node h rfl (.task ?_) (.task ?_)
    · show (m.splitBody body b).bodies b = _
      simp [Memory.splitBody, Function.update_of_ne (ne_of_lt hb), hv, Term.interp]
    · show (m.splitBody body b).bodies m.next = _
      simp [Memory.splitBody, hv, Term.interp]
  case footprint =>
    have howns : Owns [b] m.next := ⟨nodup_singleton b, by simpa using hb⟩
    have hwrite := Footprint.write (σ := m.bodies) howns (Sublist.refl _)
      (mem_singleton_self b) (body.splitOff (m.bodies b)).1
    exact hwrite.trans (Footprint.alloc howns _)

theorem outcome_join {m : Memory B} {n : TreeNode} {b r p t}
    (hg : Good rg body init m.bodies (.node n .done .done) b r p t)
    (ho : Owns ((Tree.node n .done .done : Tree R).own b) m.next) :
    StepOutcome rg body init m (.node n .done .done) (n.join body m) .folding b r p t := by
  cases hg with
  | @node c z _ _ _ _ _ _ h hc hl hr =>
    obtain ⟨left, hleft, hvl⟩ := hl.done_inv
    obtain ⟨right, hright, hvr⟩ := hr.done_inv
    constructor
    case good =>
      refine .folding (.node h hleft hright) ?_
      simp [TreeNode.join, hvl, hvr, Term.interp]
    case footprint =>
      exact Footprint.write ho ((nil_sublist _).cons_cons b) mem_cons_self _

theorem Step.outcome (h : Step rg body m T m' T') :
    ∀ {b r p t}, Good rg body init m.bodies T b r p t → Owns (T.own b) m.next →
      StepOutcome rg body init m T m' T' b r p t := by
  -- the induction is on the position of the thread in the tree
  induction h with
  | start =>
    intro b r p t hg ho
    cases hg with
    | task hv => exact ⟨.task hv, Footprint.silent ho (Sublist.refl _)⟩
  | offerWork h =>
    intro b r p t hg ho
    cases hg with
    | task hv => exact outcome_offerWork h hv (ho.lt b mem_cons_self)
  | runBody h =>
    intro b r p t hg ho
    cases hg with
    | task hv =>
      refine ⟨.folding (.leaf h) ?_, Footprint.write ho (Sublist.refl _)
        mem_cons_self _⟩
      simp [Memory.runBody, hv, Term.interp]
  | releaseLeft =>
    intro b r p t hg ho
    cases hg with
    | node h hc hl hr =>
      refine ⟨.node h ?_ hl.done_of_folding hr, Footprint.silent ho (Sublist.refl _)⟩
      simp [hc, Tree.pending]
  | releaseRight =>
    intro b r p t hg ho
    cases hg with
    | node h hc hl hr =>
      refine ⟨.node h ?_ hl hr.done_of_folding, Footprint.silent ho (Sublist.refl _)⟩
      simp [hc, Tree.pending]
  | join => exact fun hg ho => outcome_join hg ho
  | @left n l rt m' l' hstep ih =>
    intro b r p t hg ho
    cases hg with
    | @node c z _ _ _ _ _ _ h hc hl hr =>
      have hperm := (node_perm c b z l rt).trans perm_append_comm
      have hperm' := (node_perm c b z l' rt).trans perm_append_comm
      have o := ih hl (ho.perm hperm).right
      have hc' : c = l'.pending + rt.pending := by rw [hc, hstep.pending.1, hstep.pending.2]
      refine ⟨.node h hc' o.good (hr.frame ?_), Footprint.lift ho hperm hperm' o.footprint⟩
      exact o.footprint.agree (ho.perm hperm)
  | @right n l rt m' rt' hstep ih =>
    intro b r p t hg ho
    cases hg with
    | @node c z _ _ _ _ _ _ h hc hl hr =>
      have hperm := node_perm c b z l rt
      have hperm' := node_perm c b z l rt'
      have o := ih hr (ho.perm hperm).right
      have hc' : c = l.pending + rt'.pending := by rw [hc, hstep.pending.1, hstep.pending.2]
      refine ⟨.node h hc' (hl.frame ?_) o.good, Footprint.lift ho hperm hperm' o.footprint⟩
      exact o.footprint.agree (ho.perm hperm)

theorem Good.progress {T : Tree R} {b r p t} (h : Good rg body init σ T b r p t) (m : Memory B) :
    T = .done ∨ T = .folding ∨ ∃ m' T', Step rg body m T m' T' := by
  induction h with
  | @task b r p t phase hv =>
    refine .inr (.inr ?_)
    cases phase with
    | spawned => exact ⟨_, _, .start⟩
    | executing =>
      cases hd : Task.divides rg r p with
      | false => exact ⟨_, _, .runBody hd⟩
      | true => exact ⟨_, _, .offerWork hd⟩
  | folding => exact .inr (.inl rfl)
  | done => exact .inl rfl
  | node _ hc _ _ ihl ihr =>
    refine .inr (.inr ?_)
    rcases ihl with rfl | rfl | ⟨m', l', hl⟩
    · rcases ihr with rfl | rfl | ⟨m', r', hr⟩
      · exact ⟨_, _, .join hc⟩
      · exact ⟨_, _, .releaseRight⟩
      · exact ⟨_, _, .right hr⟩
    · exact ⟨_, _, .releaseLeft⟩
    · exact ⟨_, _, .left hl⟩

/-- The term that a reduction of `range` leaves in the user's body. -/
def Result (rg : Range R α) (range : R) (p : Partition) (term : Term R) : Prop :=
  if rg.empty range = true then term = .initial else Denotes rg range p .initial term

theorem Result.unique {range : R} {t₁ t₂ : Term R} (h₁ : Result rg range p t₁)
    (h₂ : Result rg range p t₂) : t₁ = t₂ := by
  unfold Result at h₁ h₂
  split at h₁
  case isTrue hempty =>
    rw [if_pos hempty] at h₂
    rw [h₁, h₂]
  case isFalse hempty =>
    rw [if_neg hempty] at h₂
    exact h₁.unique h₂

/-- Before the `wait_node` is released the tree is good for the whole range. -/
def StateInv (rg : Range R α) (body : SplittingBody B R) (init : B) (range : R) (p : Partition)
    (s : State B R) : Prop :=
  (s.waitRefCount = 1 ∧ s.tree ≠ .done ∧ rg.empty range = false ∧
      Owns (s.tree.own userBody) s.mem.next ∧
      Good rg body init s.mem.bodies s.tree userBody range p .initial) ∨
    (s.waitRefCount = 0 ∧ s.tree = .done ∧
      ∃ term, Result rg range p term ∧ s.mem.bodies userBody = term.interp body init)

theorem stateInv_run (range : R) (p : Partition) :
    StateInv rg body init range p (run rg init range p) := by
  simp only [run]
  split
  case isTrue hempty =>
    exact .inr ⟨rfl, rfl, .initial, by rw [Result, if_pos hempty], rfl⟩
  case isFalse hempty =>
    refine .inl ⟨rfl, by rintro ⟨⟩, Bool.eq_false_iff.mpr hempty, ⟨nodup_singleton _, ?_⟩,
      .task rfl⟩
    intro i hi
    obtain rfl := mem_singleton.mp hi
    exact Nat.lt_succ_self _

theorem stateInv_step (range : R) (p : Partition) (s s' : State B R)
    (hs : StateInv rg body init range p s) (h : StateStep rg body s s') :
    StateInv rg body init range p s' := by
  cases h with
  | @tree m T m' T' w h =>
    obtain ⟨hw, -, hne, ho, hg⟩ | ⟨-, rfl, -⟩ := hs
    · have o := h.outcome hg ho
      refine .inl ⟨hw, ?_, hne, o.footprint.owns, o.good⟩
      rintro rfl
      exact absurd h.pending.2 Nat.zero_ne_one
    · exact absurd h.pending.1 Nat.zero_ne_one
  | release =>
    obtain ⟨hw, -, hne, -, hg⟩ | ⟨-, hdone, -⟩ := hs
    · obtain ⟨term, hterm, hv⟩ := hg.done_of_folding.done_inv
      refine .inr ⟨Nat.sub_eq_zero_of_le (le_of_eq hw), rfl, term, ?_, hv⟩
      rw [Result, if_neg (Bool.eq_false_iff.mp hne)]
      exact hterm
    · cases hdone

/-- The number of steps from the execution of a task to the release of the reference above it. -/
inductive Cost (rg : Range R α) : R → Partition → Nat → Prop
  | leaf {r p} (h : Task.divides rg r p = false) : Cost rg r p 2
  | node {r p a b} (h : Task.divides rg r p = true)
      (hl : Cost rg (rg.split p.getSplit r).1 (p.split p.getSplit).1 a)
      (hr : Cost rg (rg.split p.getSplit r).2 (p.split p.getSplit).2 b) :
      Cost rg r p (a + b + 4)

theorem Denotes.exists_cost {r : R} {t t' : Term R} (h : Denotes rg r p t t') :
    ∃ n, Cost rg r p n := by
  induction h with
  | leaf h => exact ⟨2, .leaf h⟩
  | node h _ _ ihl ihr =>
    obtain ⟨a, ha⟩ := ihl
    obtain ⟨b, hb⟩ := ihr
    exact ⟨_, .node h ha hb⟩

/-- The number of steps that are left below a node. -/
inductive Work (rg : Range R α) : Tree R → Nat → Prop
  | spawned {t n} (h : Cost rg t.range t.partition n) : Work rg (.task t .spawned) (n + 1)
  | executing {t n} (h : Cost rg t.range t.partition n) : Work rg (.task t .executing) n
  | folding : Work rg .folding 1
  | done : Work rg .done 0
  | node {n l r a b} (hl : Work rg l a) (hr : Work rg r b) : Work rg (.node n l r) (a + b + 2)

/-- Every step is one of those left. -/
theorem Step.work (h : Step rg body m T m' T') :
    ∀ {n}, Work rg T n → ∃ k, Work rg T' k ∧ n = k + 1 := by
  induction h with
  | start =>
    intro n hn
    cases hn with
    | spawned h => exact ⟨_, .executing h, rfl⟩
  | offerWork h =>
    intro n hn
    cases hn with
    | executing hcost =>
      cases hcost with
      | leaf h' => simp [h] at h'
      | node _ hl hr => exact ⟨_, .node (.executing hl) (.spawned hr), rfl⟩
  | runBody h =>
    intro n hn
    cases hn with
    | executing hcost =>
      cases hcost with
      | leaf => exact ⟨1, .folding, rfl⟩
      | node h' => simp [h] at h'
  | releaseLeft =>
    intro n hn
    cases hn with
    | node hl hr =>
      cases hl with
      | folding => exact ⟨_, .node .done hr, by omega⟩
  | releaseRight =>
    intro n hn
    cases hn with
    | node hl hr =>
      cases hr with
      | folding => exact ⟨_, .node hl .done, by omega⟩
  | join =>
    intro n hn
    cases hn with
    | node hl hr =>
      cases hl with
      | done =>
        cases hr with
        | done => exact ⟨1, .folding, rfl⟩
  | left _ ih =>
    intro n hn
    cases hn with
    | node hl hr =>
      obtain ⟨k, hk, rfl⟩ := ih hl
      exact ⟨_, .node hk hr, by omega⟩
  | right _ ih =>
    intro n hn
    cases hn with
    | node hl hr =>
      obtain ⟨k, hk, rfl⟩ := ih hr
      exact ⟨_, .node hl hk, by omega⟩

theorem StateStep.work {s s' : State B R} {n : Nat} (h : StateStep rg body s s')
    (hn : Work rg s.tree n) : ∃ k, Work rg s'.tree k ∧ n = k + 1 := by
  cases h with
  | tree h => exact h.work hn
  | release =>
    cases hn with
    | folding => exact ⟨0, .done, rfl⟩

/-- A range that is split up at some point leaves a bounded number of steps at the start. -/
theorem Result.exists_work (init : B) {range : R} {term : Term R}
    (h : Result rg range p term) : ∃ n, Work rg (run rg init range p).tree n := by
  simp only [run]
  rw [Result] at h
  split
  case isTrue => exact ⟨0, .done⟩
  case isFalse hempty =>
    rw [if_neg hempty] at h
    obtain ⟨n, hn⟩ := h.exists_cost
    exact ⟨n + 1, .spawned hn⟩

theorem Work.no_infinite_run {f : Nat → State B R} {n : Nat} (hn : Work rg (f 0).tree n)
    (hf : ∀ k, StateStep rg body (f k) (f (k + 1))) : False := by
  have hleft : ∀ k, ∃ j, Work rg (f k).tree j ∧ n = j + k := by
    intro k
    induction k with
    | zero => exact ⟨n, hn, rfl⟩
    | succ k ih =>
      obtain ⟨j, hj, hsum⟩ := ih
      obtain ⟨i, hi, rfl⟩ := (hf k).work hj
      exact ⟨i, hi, by omega⟩
  obtain ⟨j, -, hsum⟩ := hleft (n + 1)
  omega

section

variable {partitioner : Partitioner} {maxConcurrency : Nat} {range : R} {s : State B R}

section

variable (h : Run rg partitioner maxConcurrency body init range s)
include h

theorem Run.stateInv :
    StateInv rg body init range (partitioner.root maxConcurrency) s :=
  Transition.run_preserves (stateInv_step range _) h (stateInv_run range _)

theorem Run.result (hret : s.Returned) :
    ∃ term, Result rg range (partitioner.root maxConcurrency) term ∧
      s.mem.bodies userBody = term.interp body init := by
  obtain ⟨hw, -⟩ | ⟨-, -, hres⟩ := h.stateInv
  · exact absurd (hw.symm.trans hret) Nat.one_ne_zero
  · exact hres

theorem Run.progress (hret : ¬ s.Returned) : ∃ s', StateStep rg body s s' := by
  obtain ⟨m, T, w⟩ := s
  obtain ⟨-, hdone, -, -, hg⟩ | ⟨hw, -⟩ := h.stateInv
  · obtain h | rfl | ⟨m', T', hstep⟩ := hg.progress m
    · exact absurd h hdone
    · exact ⟨_, .release⟩
    · exact ⟨_, .tree hstep⟩
  · exact absurd hw hret

end

end

/-- Two runs on the same range with the same partitioner and concurrency return the value of one
term, whatever the body and the schedules. The term depends on the range and the partitioner only.
A run is never stuck before it returns, and it is finite when the range is split up at some
point. -/
theorem parallelDeterministicReduce_oneTerm (rg : Range R α) (partitioner : Partitioner)
    (maxConcurrency : Nat) (body : SplittingBody B R) (init : B) (range : R) {s s' : State B R}
    (hrun : Run rg partitioner maxConcurrency body init range s)
    (hrun' : Run rg partitioner maxConcurrency body init range s') :
    (s.Returned → s'.Returned → ∃ term : Term R,
      (∀ other, Result rg range (partitioner.root maxConcurrency) other ↔ other = term) ∧
      s.mem.bodies userBody = term.interp body init ∧
      s'.mem.bodies userBody = term.interp body init) ∧
    (¬ s.Returned → ∃ t, StateStep rg body s t) ∧
    ((∃ term, Result rg range (partitioner.root maxConcurrency) term) →
      ¬ ∃ f : Nat → State B R, f 0 = run rg init range (partitioner.root maxConcurrency) ∧
        ∀ k, StateStep rg body (f k) (f (k + 1))) := by
  refine ⟨fun hret hret' => ?_, hrun.progress, ?_⟩
  · obtain ⟨term, hterm, hv⟩ := hrun.result hret
    obtain ⟨term', hterm', hv'⟩ := hrun'.result hret'
    obtain rfl := hterm.unique hterm'
    refine ⟨term, fun other => ⟨fun h => h.unique hterm, ?_⟩, hv, hv'⟩
    rintro rfl
    exact hterm
  · rintro ⟨term, hterm⟩ ⟨f, hstart, hf⟩
    obtain ⟨n, hn⟩ := hterm.exists_work init
    rw [← hstart] at hn
    exact hn.no_infinite_run hf

/-- A reduction by subtraction, which is not associative. -/
def subtractBody : SplittingBody Int (List Nat) :=
  lambdaReduceBody 0 (fun r value => r.foldl (fun a i => a - i) value) fun a b => a - b

/-- The right child may run before or after the left one. -/
theorem parallelDeterministicReduce_oneTerm_subtract : ∃ s s' : State Int (List Nat),
    Run listRange .simplePartitioner 1 subtractBody 10 [1, 2] s ∧ s.Returned ∧
      Run listRange .simplePartitioner 1 subtractBody 10 [1, 2] s' ∧ s'.Returned ∧
      s.mem.bodies userBody = s'.mem.bodies userBody := by
  have hstart := ((Relation.ReflTransGen.refl
    (a := run listRange 10 [1, 2] .simple) (r := StateStep listRange subtractBody)).tail
    (.tree .start)).tail (.tree (.offerWork rfl))
  have hright := ((((((hstart.tail (.tree (.right .start))).tail
    (.tree (.right (.runBody rfl)))).tail (.tree .releaseRight)).tail
    (.tree (.left (.runBody rfl)))).tail (.tree .releaseLeft)).tail (.tree (.join rfl))).tail
    .release
  have hleft := ((((((hstart.tail (.tree (.left (.runBody rfl)))).tail
    (.tree .releaseLeft)).tail (.tree (.right .start))).tail
    (.tree (.right (.runBody rfl)))).tail (.tree .releaseRight)).tail (.tree (.join rfl))).tail
    .release
  obtain ⟨term, -, hv, hv'⟩ :=
    (parallelDeterministicReduce_oneTerm listRange .simplePartitioner 1 subtractBody 10 [1, 2]
      hright hleft).1 rfl rfl
  exact ⟨_, _, hright, rfl, hleft, rfl, hv.trans hv'.symm⟩

end OneTbb.Reduce.Deterministic
