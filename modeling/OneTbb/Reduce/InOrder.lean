import OneTbb.Library.Footprint
import OneTbb.Reduce.Model

/-!
# `parallel_reduce` folds its subranges from left to right

`Good` describes a subtree that works on one body: which iterations it is
responsible for, which subranges it has run so far, in order, and what its
body holds. A right child is in one of three situations. Not started, it
owns nothing. Started while its left sibling was still running, it owns a
zombie that holds an identity followed by its own work. Started later, it
continues on the body of its finished sibling.
-/

namespace OneTbb.Reduce

open List Function

open Algorithms Cells

variable {R α B : Type*} {rg : Range R α} {body : Body B R}

/-- Running ranges on a joined body is running them on its second part. -/
theorem foldl_call_join (law : body.Lawful) (rs : List R) (a b : B) :
    rs.foldl body.call (body.join a b) = body.join a (rs.foldl body.call b) := by
  induction rs generalizing b with
  | nil => rfl
  | cons r rs ih =>
    simp only [foldl_cons]
    rw [← ih, law.call_eq (body.join a b) b, law.join_assoc, ← law.call_eq]

/-- One if the subtree still holds a reference of the node above it. -/
def Tree.pending : Tree R → Nat
  | .done => 0
  | _ => 1

/-- The addresses of the zombies in use below. -/
def Tree.zombies : Tree R → List BodyId
  | .node n l r => n.rightZombie.toList ++ (l.zombies ++ r.zombies)
  | _ => []

/-- The addresses a subtree on the body `b` works on. -/
def Tree.own (T : Tree R) (b : BodyId) : List BodyId := b :: T.zombies

@[simp] theorem zombies_afterBack (t : StartReduce R) (pool : List R) :
    (afterBack t pool).zombies = [] := by
  cases pool <;> rfl

/-- `Good rg body σ T b v xs rs`: the subtree `T` entered body `b` when it held
`v`, is responsible for the iterations `xs`, and has run the subranges `rs`. -/
inductive Good (rg : Range R α) (body : Body B R) (σ : BodyId → B) :
    Tree R → BodyId → B → List α → List R → Prop
  | spawned {t b v} (hb : t.myBody = b) (hr : t.isRightChild = false) (hv : σ b = v) :
      Good rg body σ (.task t .spawned) b v (rg.elems t.myRange) []
  | splitting {t b v} (hb : t.myBody = b) (hv : σ b = v) :
      Good rg body σ (.task t .splitting) b v (rg.elems t.myRange) []
  | balancing {t b v pool rs} (hb : t.myBody = b) (hp : pool ≠ [])
      (hv : σ b = rs.foldl body.call v) :
      Good rg body σ (.task t (.balancing pool)) b v
        (rs.flatMap rg.elems ++ pool.reverse.flatMap rg.elems) rs
  | folding {b v rs} (hv : σ b = rs.foldl body.call v) :
      Good rg body σ .folding b v (rs.flatMap rg.elems) rs
  | done {b v rs} (hv : σ b = rs.foldl body.call v) :
      Good rg body σ .done b v (rs.flatMap rg.elems) rs
  | rightSpawned {n l t b v xs rs} (hz : n.rightZombie = none) (hb : n.leftBody = b)
      (ht : t.myBody = b) (hr : t.isRightChild = true) (hc : n.refCount = l.pending + 1)
      (hl : Good rg body σ l b v xs rs) :
      Good rg body σ (.node n l (.task t .spawned)) b v (xs ++ rg.elems t.myRange) rs
  | zombie {n l r b z v e xs ys rs ss} (hz : n.rightZombie = some z) (hb : n.leftBody = b)
      (hc : n.refCount = l.pending + r.pending) (he : ∀ a, body.join a e = a)
      (hl : Good rg body σ l b v xs rs) (hr : Good rg body σ r z e ys ss) :
      Good rg body σ (.node n l r) b v (xs ++ ys) (rs ++ ss)
  | inPlace {n r b v ys rs ss} (hz : n.rightZombie = none) (hb : n.leftBody = b)
      (hc : n.refCount = r.pending)
      (hr : Good rg body σ r b (rs.foldl body.call v) ys ss) :
      Good rg body σ (.node n .done r) b v (rs.flatMap rg.elems ++ ys) (rs ++ ss)

theorem own_left_subset (n : ReductionTreeNode) (l r : Tree R) (b : BodyId) :
    l.own b ⊆ (Tree.node n l r).own b := by
  intro i hi
  rcases mem_cons.mp hi with rfl | h
  · exact mem_cons_self
  · simp [Tree.own, Tree.zombies, h]

/-- `Good` reads memory only at the subtree's own addresses. -/
theorem Good.frame {σ σ' : BodyId → B} {T : Tree R} {b v xs rs}
    (h : Good rg body σ T b v xs rs)
    (hσ : ∀ i ∈ T.own b, σ' i = σ i) : Good rg body σ' T b v xs rs := by
  induction h with
  | spawned hb hr hv => exact Good.spawned hb hr ((hσ _ mem_cons_self).trans hv)
  | splitting hb hv => exact Good.splitting hb ((hσ _ mem_cons_self).trans hv)
  | balancing hb hp hv => exact Good.balancing hb hp ((hσ _ mem_cons_self).trans hv)
  | folding hv => exact Good.folding ((hσ _ mem_cons_self).trans hv)
  | done hv => exact Good.done ((hσ _ mem_cons_self).trans hv)
  | rightSpawned hz hb ht hr hc _ ih =>
    refine Good.rightSpawned hz hb ht hr hc (ih fun i hi => hσ i ?_)
    exact own_left_subset _ _ _ _ hi
  | zombie hz hb hc he _ _ ihl ihr =>
    refine Good.zombie hz hb hc he (ihl fun i hi => hσ i ?_) (ihr fun i hi => hσ i ?_)
    · exact own_left_subset _ _ _ _ hi
    · rcases mem_cons.mp hi with rfl | h
      · simp [Tree.own, Tree.zombies, hz]
      · simp [Tree.own, Tree.zombies, h]
  | inPlace hz hb hc _ ih =>
    refine Good.inPlace hz hb hc (ih fun i hi => hσ i ?_)
    rcases mem_cons.mp hi with rfl | h
    · exact mem_cons_self
    · simp [Tree.own, Tree.zombies, h]

variable {n : ReductionTreeNode} {m m' : Memory B R} {T T' l : Tree R} {σ : BodyId → B}

/-- A right child that has not started leaves its node without a zombie. -/
theorem Good.rightSpawned_inv {t : StartReduce R} {b v xs rs}
    (h : Good rg body σ (.node n l (.task t .spawned)) b v xs rs)
    (hr : t.isRightChild = true) :
    n.rightZombie = none ∧ n.leftBody = b ∧ t.myBody = b ∧ n.refCount = l.pending + 1 ∧
      ∃ ys, xs = ys ++ rg.elems t.myRange ∧ Good rg body σ l b v ys rs := by
  cases h with
  | rightSpawned hz hb ht _ hc hl => exact ⟨hz, hb, ht, hc, _, rfl, hl⟩
  | zombie _ _ _ _ _ h' | inPlace _ _ _ h' => cases h' with | spawned _ h _ => rw [hr] at h; cases h

theorem Good.done_inv {b v xs rs} (h : Good rg body σ .done b v xs rs) :
    xs = rs.flatMap rg.elems ∧ σ b = rs.foldl body.call v := by
  cases h with
  | done hv => exact ⟨rfl, hv⟩

/-- A thread that is folding has accumulated everything of its subtree. -/
theorem Good.done_of_folding {b v xs rs}
    (h : Good rg body σ .folding b v xs rs) : Good rg body σ .done b v xs rs := by
  cases h with
  | folding hv => exact Good.done hv

/-- What one step does to a good subtree: it stays good for the same
iterations, the calls made are the subranges it gained, and memory that
belongs to others is not touched. -/
structure StepOutcome (rg : Range R α) (body : Body B R) (m : Memory B R) (T : Tree R)
    (m' : Memory B R) (T' : Tree R) (b : BodyId) (v : B) (xs : List α) (rs : List R) :
    Prop where
  good : ∃ rs' new, Good rg body m'.bodies T' b v xs rs' ∧
    m'.calls = new ++ m.calls ∧ rs'.Perm (new ++ rs)
  footprint : Footprint m.bodies m.next (T.own b) m'.bodies m'.next (T'.own b)

theorem own_sublist (h : T'.zombies = T.zombies) (b : BodyId) :
    (T'.own b).Sublist (T.own b) := by
  rw [Tree.own, Tree.own, h]

/-- A step that only moves control keeps the calls and the memory. -/
theorem StepOutcome.silent {b v xs rs}
    (hg : Good rg body m.bodies T' b v xs rs) (ho : Owns (T.own b) m.next)
    (hz : T'.zombies = T.zombies) : StepOutcome rg body m T m T' b v xs rs where
  good := ⟨rs, [], hg, rfl, Perm.refl _⟩
  footprint := Footprint.silent ho (own_sublist hz b)

theorem StepOutcome.call {b v xs rs r}
    (hg : Good rg body (m.runBody body b r).bodies T' b v xs (rs ++ [r]))
    (ho : Owns (T.own b) m.next) (hz : T'.zombies = T.zombies) :
    StepOutcome rg body m T (m.runBody body b r) T' b v xs rs where
  good := ⟨rs ++ [r], [r], hg, rfl, perm_append_comm⟩
  footprint := Footprint.write ho (own_sublist hz b) mem_cons_self _

theorem runBody_self (m : Memory B R) (b : BodyId) (r : R) :
    (m.runBody body b r).bodies b = body.call (m.bodies b) r :=
  update_self _ _ _

/-- Only the release of a reference finishes a subtree. -/
theorem Step.pending (h : Step rg body m T m' T') :
    T.pending = 1 ∧ T'.pending = 1 := by
  cases h with
  | @runBack t pool r => cases pool <;> exact ⟨rfl, rfl⟩
  | _ => exact ⟨rfl, rfl⟩

/-- The step of a part, seen from the whole tree. -/
theorem StepOutcome.lift {T c T' c' : Tree R} {b b' : BodyId}
    {v v' xs ys rs ss rest} (front back : List R) (hrs : rs = front ++ ss ++ back)
    (ho : Owns (T.own b) m.next) (hp : (T.own b).Perm (rest ++ c.own b'))
    (hp' : (T'.own b).Perm (rest ++ c'.own b'))
    (o : StepOutcome rg body m c m' c' b' v' ys ss)
    (hg : ∀ ss', Good rg body m'.bodies c' b' v' ys ss' →
      Good rg body m'.bodies T' b v xs (front ++ ss' ++ back)) :
    StepOutcome rg body m T m' T' b v xs rs where
  good := by
    obtain ⟨ss', new, hc, hcalls, hperm⟩ := o.good
    refine ⟨front ++ ss' ++ back, new, hg ss' hc, hcalls, ?_⟩
    rw [hrs, ← append_assoc, ← append_assoc]
    refine Perm.append_right back ((hperm.append_left front).trans ?_)
    rw [← append_assoc]
    exact perm_append_comm.append_right ss
  footprint := Footprint.lift ho hp hp' o.footprint

theorem node_perm_left (n : ReductionTreeNode) (l r : Tree R) (b : BodyId) :
    ((Tree.node n l r).own b).Perm ((n.rightZombie.toList ++ r.zombies) ++ l.own b) := by
  refine (Perm.cons b ?_).trans perm_middle.symm
  rw [append_assoc]
  exact perm_append_comm.append_left _

theorem node_perm_right {z : BodyId} (hz : n.rightZombie = some z) (l r : Tree R) (b : BodyId) :
    ((Tree.node n l r).own b).Perm (l.own b ++ r.own z) := by
  rw [Tree.own, Tree.zombies, hz]
  exact (@List.perm_middle _ z l.zombies r.zombies).symm.cons b

/-- The addresses of a node whose right part continues on the left body. -/
theorem node_perm_inPlace (hz : n.rightZombie = none) (r : Tree R) (b : BodyId) :
    ((Tree.node n .done r).own b).Perm ([] ++ r.own b) := by
  simp [Tree.own, Tree.zombies, hz]

theorem outcome_left {l l' r : Tree R} (h : Step rg body m l m' l')
    (ih : ∀ {b v xs rs}, Good rg body m.bodies l b v xs rs → Owns (l.own b) m.next →
      StepOutcome rg body m l m' l' b v xs rs) {b v xs rs}
    (hg : Good rg body m.bodies (.node n l r) b v xs rs)
    (ho : Owns ((Tree.node n l r).own b) m.next) :
    StepOutcome rg body m (.node n l r) m' (.node n l' r) b v xs rs := by
  have hp := node_perm_left n l r b
  have hp' := node_perm_left n l' r b
  have hpend : l'.pending = l.pending := h.pending.2.trans h.pending.1.symm
  cases hg with
  | rightSpawned hz hb ht hr hc hl =>
    refine StepOutcome.lift [] [] (by simp) ho hp hp'
      (ih hl (ho.perm hp).right) fun ss' hl' => ?_
    simpa using Good.rightSpawned hz hb ht hr (hpend ▸ hc) hl'
  | @zombie _ _ _ _ z _ e _ ys rs ss hz hb hc he hl hr =>
    have o := ih hl (ho.perm hp).right
    -- the right part's addresses are not the left part's
    have hagree := o.footprint.agree
      (ho.perm ((node_perm_right hz l r b).trans perm_append_comm))
    exact StepOutcome.lift [] ss (by simp) ho hp hp' o fun ss' hl' =>
      Good.zombie hz hb (hpend ▸ hc) he hl' (hr.frame fun i hi => hagree i hi)
  | inPlace => exact absurd h.pending.1 (by simp [Tree.pending])

theorem outcome_right {l r r' : Tree R} (h : Step rg body m r m' r')
    (ih : ∀ {b v xs rs}, Good rg body m.bodies r b v xs rs → Owns (r.own b) m.next →
      StepOutcome rg body m r m' r' b v xs rs) {b v xs rs}
    (hg : Good rg body m.bodies (.node n l r) b v xs rs)
    (ho : Owns ((Tree.node n l r).own b) m.next) :
    StepOutcome rg body m (.node n l r) m' (.node n l r') b v xs rs := by
  have hpend : r'.pending = r.pending := h.pending.2.trans h.pending.1.symm
  cases hg with
  | rightSpawned hz hb ht hr hc hl =>
    cases h with
    | start hnr => rw [hr] at hnr; cases hnr
  | @zombie _ _ _ _ z _ e _ ys rs ss hz hb hc he hl hr =>
    have hp := node_perm_right hz l r b
    have o := ih hr (ho.perm hp).right
    refine StepOutcome.lift rs [] (by simp) ho hp
      (node_perm_right hz l r' b) o fun ss' hr' => ?_
    have hl' : Good rg body m'.bodies l b _ _ rs :=
      hl.frame fun i hi => o.footprint.agree (ho.perm hp) i hi
    simpa using Good.zombie hz hb (hpend ▸ hc) he hl' hr'
  | @inPlace _ _ _ _ ys rs ss hz hb hc hr =>
    refine StepOutcome.lift rs [] (by simp) ho
      (node_perm_inPlace hz r b) (node_perm_inPlace hz r' b)
      (ih hr (ho.perm (node_perm_inPlace hz r b)).right) fun ss' hr' => ?_
    simpa using Good.inPlace hz hb (hpend ▸ hc) hr'

/-- A right child that starts while its left sibling holds a reference gets a
body of its own. -/
theorem outcome_startSplit (law : body.Lawful) {t : StartReduce R} (hr : t.isRightChild = true)
    {b v xs rs}
    (hg : Good rg body m.bodies (.node n l (.task t .spawned)) b v xs rs)
    (ho : Owns ((Tree.node n l (.task t .spawned)).own b) m.next) :
    StepOutcome rg body m (.node n l (.task t .spawned)) (m.newZombie body t.myBody)
      (.node { n with rightZombie := some m.next } l
        (.task { t with myBody := m.next } .splitting)) b v xs rs := by
  obtain ⟨hz, hb, ht, hc, ys, rfl, hl⟩ := hg.rightSpawned_inv hr
  have hold : ∀ i ∈ l.own b, (m.newZombie body t.myBody).bodies i = m.bodies i := fun i hi =>
    update_of_ne (Nat.ne_of_lt (ho.lt i (own_left_subset _ _ _ _ hi))) _ _
  constructor
  · refine ⟨rs, [], ?_, rfl, Perm.refl _⟩
    have hid : ∀ a, body.join a ((m.newZombie body t.myBody).bodies m.next) = a := by
      intro a
      simp [Memory.newZombie, law.join_splitOff]
    have hright : Good rg body (m.newZombie body t.myBody).bodies
        (.task { t with myBody := m.next } .splitting) m.next _ (rg.elems t.myRange) [] :=
      Good.splitting rfl rfl
    simpa using Good.zombie (n := { n with rightZombie := some m.next }) rfl hb hc hid
      (hl.frame hold) hright
  · have hown : (Tree.node n l (.task t .spawned)).own b = l.own b := by
      simp [Tree.own, Tree.zombies, hz]
    rw [hown] at ho ⊢
    exact @Footprint.lift _ _ _ _ _ _ _ [] _ _ ho (Perm.refl _)
      (node_perm_right rfl l _ b) (Footprint.alloc ho _)

/-- The reference count of a node falls from two exactly when its left part is done. -/
theorem done_of_refCount_ne {c : Nat} (hc : c = l.pending + 1) (h : c ≠ 2) :
    l = .done := by
  cases l with
  | done => rfl
  | _ => exact absurd hc h

/-- The last thread to leave a node joins the zombie into the left body. -/
theorem outcome_join (law : body.Lawful)
    {b v xs rs} (hg : Good rg body m.bodies (.node n .done .done) b v xs rs)
    (ho : Owns ((Tree.node n .done .done : Tree R).own b) m.next) :
    StepOutcome rg body m (.node n .done .done) (n.join body m) .folding b v xs rs := by
  have hsub : ((Tree.folding : Tree R).own b).Sublist ((Tree.node n .done .done : Tree R).own b) :=
    (nil_sublist _).cons_cons b
  cases hg with
  | @zombie _ _ _ _ z _ e _ ys rs ss hz hb hc he hl hr =>
    obtain ⟨rfl, hvl⟩ := hl.done_inv
    obtain ⟨rfl, hvr⟩ := hr.done_inv
    subst hb
    have hjoin : n.join body m = { m with
        bodies := update m.bodies n.leftBody
          (body.join (m.bodies n.leftBody) (m.bodies z)) } := by
      simp [ReductionTreeNode.join, hz]
    have hval : (n.join body m).bodies n.leftBody = (rs ++ ss).foldl body.call v := by
      rw [hjoin]
      simp only [update_self]
      rw [hvl, hvr, ← foldl_call_join law, he, foldl_append]
    rw [← flatMap_append]
    refine ⟨⟨rs ++ ss, [], Good.folding hval, by rw [hjoin]; rfl, Perm.refl _⟩, ?_⟩
    rw [hjoin]
    exact Footprint.write ho hsub mem_cons_self _
  | @inPlace _ _ _ _ ys rs ss hz hb hc hr =>
    obtain ⟨rfl, hvr⟩ := hr.done_inv
    have hjoin : n.join body m = m := by simp [ReductionTreeNode.join, hz]
    rw [hjoin, ← flatMap_append]
    have hgood : Good rg body m.bodies .folding b v ((rs ++ ss).flatMap rg.elems)
        (rs ++ ss) := Good.folding (hvr.trans (foldl_append ..).symm)
    exact ⟨⟨rs ++ ss, [], hgood, rfl, Perm.refl _⟩, Footprint.silent ho hsub⟩

theorem Step.outcome (law : body.Lawful)
    (h : Step rg body m T m' T') : ∀ {b v xs rs}, Good rg body m.bodies T b v xs rs →
      Owns (T.own b) m.next → StepOutcome rg body m T m' T' b v xs rs := by
  -- the induction is on the position of the thread in the tree
  induction h with
  | start h =>
    intro b v xs rs hg ho
    cases hg with
    | spawned hb _ hv => exact StepOutcome.silent (Good.splitting hb hv) ho rfl
  | startSplit hr _ => exact fun hg ho => outcome_startSplit law hr hg ho
  | @startInPlace n l t hr h =>
    intro b v xs rs hg ho
    obtain ⟨hz, hb, ht, hc, ys, rfl, hl⟩ := hg.rightSpawned_inv hr
    obtain rfl := done_of_refCount_ne hc h
    obtain ⟨rfl, hv⟩ := hl.done_inv
    refine StepOutcome.silent ?_ ho rfl
    simpa using Good.inPlace (r := .task t .splitting) hz hb hc (Good.splitting ht hv)
  | @offerSplit t so h =>
    intro b v xs rs hg ho
    cases hg with
    | splitting hb hv =>
      refine StepOutcome.silent ?_ ho rfl
      rw [← rg.elems_split so _ h]
      exact Good.rightSpawned rfl hb hb rfl rfl (Good.splitting hb hv)
  | @runRange t =>
    intro b v xs rs hg ho
    cases hg with
    | splitting hb hv =>
      subst hb hv
      refine StepOutcome.call ?_ ho rfl
      have hgood : Good rg body (m.runBody body t.myBody t.myRange).bodies .folding
          t.myBody (m.bodies t.myBody) ([t.myRange].flatMap rg.elems) [t.myRange] :=
        Good.folding (runBody_self m t.myBody t.myRange)
      simpa using hgood
  | @makePool t h =>
    intro b v xs rs hg ho
    cases hg with
    | splitting hb hv =>
      refine StepOutcome.silent ?_ ho rfl
      have hgood : Good rg body m.bodies (.task t (.balancing [t.myRange])) b v
          ([].flatMap rg.elems ++ [t.myRange].reverse.flatMap rg.elems) [] :=
        Good.balancing hb (cons_ne_nil _ _) hv
      simpa using hgood
  | @splitToFill t pool r hsize h =>
    intro b v xs rs hg ho
    cases hg with
    | balancing hb hp hv =>
      refine StepOutcome.silent ?_ ho rfl
      have hgood := @Good.balancing _ _ _ rg _ _ t b v
        (pool ++ [(rg.split .split r).2, (rg.split .split r).1]) rs hb (by simp) hv
      simpa [← rg.elems_split .split r h] using hgood
  | @offerFront t r pool h =>
    intro b v xs rs hg ho
    cases hg with
    | balancing hb hp hv =>
      refine StepOutcome.silent ?_ ho rfl
      have hl := @Good.balancing _ _ _ rg _ _ { t with isRightChild := false } b v pool rs
        hb h hv
      have hgood := Good.rightSpawned (n := ⟨2, t.myBody, none⟩)
        (t := ⟨r, t.myBody, true⟩) rfl hb hb rfl rfl hl
      simpa [offerWork] using hgood
  | @runBack t pool r =>
    intro b v xs rs hg ho
    cases hg with
    | balancing hb hp hv =>
      subst hb
      refine StepOutcome.call ?_ ho (zombies_afterBack t pool)
      have hv' : (m.runBody body t.myBody r).bodies t.myBody =
          (rs ++ [r]).foldl body.call v := by
        rw [runBody_self, hv, foldl_append]
        rfl
      cases pool with
      | nil => simpa [afterBack] using @Good.folding _ _ _ rg _ _ _ _ _ hv'
      | cons p ps =>
        have hgood := @Good.balancing _ _ _ rg _ _ t _ _ _ _ rfl (cons_ne_nil p ps) hv'
        simpa [afterBack] using hgood
  | @releaseLeft n r =>
    intro b v xs rs hg ho
    refine StepOutcome.silent ?_ ho rfl
    cases hg with
    | rightSpawned hz hb ht hr hc hl =>
      exact Good.rightSpawned hz hb ht hr (by simp [hc, Tree.pending]) hl.done_of_folding
    | zombie hz hb hc he hl hr =>
      exact Good.zombie hz hb (by simp [hc, Tree.pending]) he hl.done_of_folding hr
  | @releaseRight n l =>
    intro b v xs rs hg ho
    refine StepOutcome.silent ?_ ho rfl
    cases hg with
    | zombie hz hb hc he hl hr =>
      exact Good.zombie hz hb (by simp [hc, Tree.pending]) he hl hr.done_of_folding
    | inPlace hz hb hc hr =>
      exact Good.inPlace hz hb (by simp [hc, Tree.pending]) hr.done_of_folding
  | join h => exact fun hg ho => outcome_join law hg ho
  | left h ih => exact fun hg ho => outcome_left h ih hg ho
  | right h ih => exact fun hg ho => outcome_right h ih hg ho

end OneTbb.Reduce
