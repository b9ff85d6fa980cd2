import OneTbb.Library.Transition
import OneTbb.Scan.Pass2

/-!
# Whole runs of `parallel_scan`

The invariants of the two passes are put together along `start_scan::run`.
-/

namespace OneTbb.Scan

open Relation List

open Algorithms Cells

variable {R α B : Type*} {rg : Range R α} {body : Body B R} {value : α → B}

/-- The final calls cover the range in order and the user's body has the total. -/
def Complete (rg : Range R α) (body : Body B R) (value : α → B) (init : B) (range : R)
    (m : Memory B R) : Prop :=
  ∃ rs : List R, rs.flatMap rg.elems = rg.elems range ∧
    m.finals.Perm (prefixes rg body value init rs) ∧
    m.bodies userBody = body.accumulate value init (rg.elems range)

/-- The job of the whole first pass. -/
def rootJob (init : B) (range : R) : Job B R := ⟨range, tempBody, init, true, false⟩

/-- What holds in each stage of `start_scan::run`. -/
def StateInv (rg : Range R α) (body : Body B R) (value : α → B) (init : B) (range : R)
    (s : State B R) : Prop :=
  match s.stage with
  | .pass1 T => ∃ fs own, Good rg body value s.mem.bodies (rootJob init range) none T fs own ∧
      Owns (own ++ [userBody]) s.mem.next ∧ s.mem.finals.Perm fs
  | .pass2 T => ∃ fs own, Good2 rg body value s.mem.bodies T range init true fs own ∧
      Owns own s.mem.next ∧ s.mem.finals.Perm fs
  | .returned => Complete rg body value init range s.mem

theorem stateInv_run (law : body.Lawful rg value) (init : B) (range : R) :
    StateInv rg body value init range (run rg body init range) := by
  unfold run
  split
  · rename_i he
    refine ⟨[], ?_, List.Perm.refl _, ?_⟩
    · simp [rg.elems_empty range he]
    · rw [rg.elems_empty range he]
      rfl
  · refine ⟨[], [tempBody], Good.running (j := rootJob init range) ?_, ?_, List.Perm.refl _⟩
    · simp [Memory.reverseJoin, Memory.splitOff, rootJob, tempBody, userBody,
        law.reverseJoin_splitOff]
    · constructor
      · simp [tempBody, userBody]
      · simp [Memory.reverseJoin, Memory.splitOff, tempBody, userBody]

/-- A first pass that returns no root has run everything in place. -/
theorem complete_noRoot (law : body.Lawful rg value) {m : Memory B R} {init : B} {range : R}
    {fs own} (hg : Good rg body value m.bodies (rootJob init range) none (.done .null) fs own)
    (hp : m.finals.Perm fs) :
    Complete rg body value init range (m.assignTo body tempBody userBody) := by
  cases hg with
  | returned hS =>
    rcases hS with ⟨_, h⟩ | ⟨h, _⟩
    · cases h
    · cases h
  | whole hT _ hv hf =>
    obtain ⟨rs, hrs, rfl⟩ : Scanned rg body value init range fs := hf
    refine ⟨rs, hrs, hp, ?_⟩
    have hval : m.bodies tempBody = body.accumulate value init (rg.elems range) :=
      hv (.inl rfl)
    simp [Memory.assignTo, law.assign_eq, hval]

theorem good2_root {m : Memory B R} {init : B} {range : R} {S : SumNode R} {fs own}
    (hg : Good rg body value m.bodies (rootJob init range) none (.done S) fs own)
    (hS : S ≠ .null) (ho : Owns (own ++ [userBody]) m.next) :
    Good2 rg body value m.bodies (.sum tempBody none true S) range init true fs
        (S.sums ++ lastBody true) ∧ Owns (S.sums ++ lastBody true) m.next := by
  obtain ⟨hslot, hret⟩ := hg.done_inv
  obtain ⟨_, habs⟩ := hret.resolve_right fun h => absurd h.1 (by simp [rootJob])
  obtain ⟨_, _, hsub⟩ := hslot.resolve_left fun h => absurd h.1 (by simp [rootJob])
  exact ⟨Good2.absSum (habs.resolve_left fun h => hS h.1),
    ho.subset (hsub.append_right [userBody])⟩

theorem stateInv_step (law : body.Lawful rg value) (init : B) (range : R) (s t : State B R)
    (hs : StateInv rg body value init range s) (h : StateStep rg body s t) :
    StateInv rg body value init range t := by
  cases h with
  | pass1 h =>
    obtain ⟨fs, own, hg, ho, hp⟩ := hs
    obtain ⟨fs', own', new, hg', hfin, hperm, fp⟩ :=
      h.outcome law hg ho.left (by simp [rootJob])
    obtain rfl := hg'.slot_none rfl
    have hcomm := @List.perm_append_comm _ own [userBody]
    refine ⟨fs', own', hg', (Footprint.lift ho hcomm perm_append_comm fp).owns, ?_⟩
    simp only at hp ⊢
    rw [hfin]
    exact (hp.append_left new).trans hperm.symm
  | noRoot =>
    obtain ⟨fs, own, hg, _, hp⟩ := hs
    exact complete_noRoot law hg hp
  | root =>
    obtain ⟨fs, own, hg, ho, hp⟩ := hs
    obtain ⟨hg', ho'⟩ := good2_root hg (by simp) ho
    exact ⟨fs, _, hg', ho', hp⟩
  | pass2 h =>
    obtain ⟨fs, own, hg, ho, hp⟩ := hs
    obtain ⟨fs', own', new, hg', hfin, hperm, fp⟩ := h.outcome law hg ho
    refine ⟨fs', own', hg', fp.owns, ?_⟩
    simp only at hp ⊢
    rw [hfin]
    exact (hp.append_left new).trans hperm.symm
  | finished =>
    obtain ⟨fs, own, hg, _, hp⟩ := hs
    cases hg with
    | done hf hu =>
      obtain ⟨rs, hrs, rfl⟩ := hf
      exact ⟨rs, hrs, hp, hu rfl⟩

/-- From every state of the second pass the scan can be completed. -/
theorem pass2_can_return (law : body.Lawful rg value) {init : B} {range : R}
    (T : Pass2 R) (m : Memory B R)
    (hs : StateInv rg body value init range ⟨m, .pass2 T⟩) :
    ∃ t, ReflTransGen (StateStep rg body) ⟨m, .pass2 T⟩ t ∧ t.stage = .returned := by
  induction hn : T.work using Nat.strongRecOn generalizing T m with
  | _ n ih =>
    obtain ⟨fs, own, hg, _, _⟩ := id hs
    rcases hg.progress m with rfl | ⟨m', T', hstep, hlt⟩
    · exact ⟨_, ReflTransGen.single StateStep.finished, rfl⟩
    · have hs' := stateInv_step law init range _ _ hs (StateStep.pass2 hstep)
      obtain ⟨t, hrun, hret⟩ := ih T'.work (hn ▸ hlt) T' m' hs' rfl
      exact ⟨t, hrun.head (StateStep.pass2 hstep), hret⟩

/-- From every state of the first pass the scan can be completed. -/
theorem pass1_can_return (law : body.Lawful rg value) {init : B} {range : R}
    (T : Tree R) (m : Memory B R)
    (hs : StateInv rg body value init range ⟨m, .pass1 T⟩) :
    ∃ t, ReflTransGen (StateStep rg body) ⟨m, .pass1 T⟩ t ∧ t.stage = .returned := by
  induction hn : T.work using Nat.strongRecOn generalizing T m with
  | _ n ih =>
    obtain ⟨fs, own, hg, _, _⟩ := id hs
    rcases hg.progress m with ⟨S, rfl⟩ | ⟨m', e', T', hstep, hlt⟩
    · cases S with
      | null => exact ⟨_, ReflTransGen.single StateStep.noRoot, rfl⟩
      | node =>
        have hs' := stateInv_step law init range _ _ hs StateStep.root
        obtain ⟨t, hrun, hret⟩ := pass2_can_return law _ m hs'
        exact ⟨t, hrun.head StateStep.root, hret⟩
    · have hs' := stateInv_step law init range _ _ hs (StateStep.pass1 hstep)
      obtain ⟨t, hrun, hret⟩ := ih T'.work (hn ▸ hlt) T' m' hs' rfl
      exact ⟨t, hrun.head (StateStep.pass1 hstep), hret⟩

/-- Every tree of splits, every stealing pattern and every order of the tasks
makes the same final calls as a serial scan of some tiling of the range, and
leaves the total in the user's body. No run gets stuck before it has. -/
theorem parallelScan_scheduleIndependent (law : body.Lawful rg value) (init : B) (range : R)
    {s : State B R}
    (h : ReflTransGen (StateStep rg body) (run rg body init range) s) :
    (s.stage = .returned → ∃ rs : List R, rs.flatMap rg.elems = rg.elems range ∧
        s.mem.finals.Perm (prefixes rg body value init rs) ∧
        s.mem.bodies userBody = body.accumulate value init (rg.elems range)) ∧
      ∃ t, ReflTransGen (StateStep rg body) s t ∧ t.stage = .returned := by
  have hinv := Transition.run_preserves (stateInv_step law init range) h
    (stateInv_run law init range)
  obtain ⟨m, stage⟩ := s
  cases stage with
  | pass1 T => exact ⟨nofun, pass1_can_return law T m hinv⟩
  | pass2 T => exact ⟨nofun, pass2_can_return law T m hinv⟩
  | returned => exact ⟨fun _ => hinv, _, ReflTransGen.refl, rfl⟩

/-- The body that collects the elements it has seen. -/
def listBody : Body (List Nat) (List Nat) where
  preScan b r := b ++ r
  finalScan b r := b ++ r
  splitOff _ := []
  reverseJoin b a := a ++ b
  assign _ b := b

theorem accumulate_listBody (b xs : List Nat) :
    listBody.accumulate (fun x => [x]) b xs = b ++ xs := by
  induction xs generalizing b with
  | nil => simp [Body.accumulate]
  | cons x xs ih =>
    have h := ih (b ++ [x])
    rw [append_assoc] at h
    exact h

theorem listBody_lawful : listBody.Lawful listRange (fun x => [x]) where
  assoc := append_assoc
  reverseJoin_splitOff := fun a _ => append_nil a
  preScan_eq := fun b r => (accumulate_listBody b r).symm
  finalScan_eq := fun b r => (accumulate_listBody b r).symm
  assign_eq := fun _ _ => rfl

/-- A run in which the right child is stolen and scanned by the second pass. -/
theorem parallelScan_scheduleIndependent_stolen :
    ∃ s, ReflTransGen (StateStep listRange listBody)
        (run listRange listBody [0] [1, 2]) s ∧ s.stage = .returned ∧
      s.mem.finals = [([2], [0, 1]), ([1], [0])] ∧
      s.mem.bodies userBody = listBody.accumulate (fun x => [x]) [0] [1, 2] := by
  have hrun := (((((((((ReflTransGen.refl
    (a := run listRange listBody [0] [1, 2]) (r := StateStep listRange listBody)).tail
    (.pass1 (.split rfl rfl))).tail (.pass1 (.stolen true rfl))).tail
    (.pass1 (.right .runRange))).tail (.pass1 (.left .runRange))).tail
    (.pass1 .finish)).tail .root).tail (.pass2 .sum)).tail
    (.pass2 (.right .final))).tail (.pass2 .finalize) |>.tail .finished
  obtain ⟨_, _, _, htotal⟩ := (parallelScan_scheduleIndependent listBody_lawful _ _ hrun).1 rfl
  exact ⟨_, hrun, rfl, rfl, htotal⟩

end OneTbb.Scan
