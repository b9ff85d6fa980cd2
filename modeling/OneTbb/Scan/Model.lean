import OneTbb.Algorithms.Range

/-!
# The two passes of `parallel_scan`

The first pass splits the range into a tree of `start_scan` tasks under
`finish_scan` tasks and returns a tree of `sum_node`s for the parts it could
not finish. The second pass runs that tree. Bodies (`final_sum` objects) are
known by address in both passes, because a right child may work on the body of
its left sibling and the second pass reuses the bodies of the first one.

Stealing, the answers of `should_execute_range` and the order in which ready
tasks run are choices of the step relations.
-/

namespace OneTbb.Scan

open Function

open Algorithms

variable {R α B : Type*}

/-- The operations of a scan body. -/
structure Body (B R : Type*) where
  /-- `operator()(range, pre_scan_tag)` -/
  preScan : B → R → B
  /-- `operator()(range, final_scan_tag)` -/
  finalScan : B → R → B
  /-- `Body(Body&, split)` -/
  splitOff : B → B
  /-- `this.reverse_join(lhs)` -/
  reverseJoin : B → B → B
  /-- `this.assign(rhs)` -/
  assign : B → B → B

/-- The value `b` joined with the values of the elements `xs`, in order. -/
def Body.accumulate (body : Body B R) (value : α → B) (b : B) (xs : List α) : B :=
  xs.foldl (fun a x => body.reverseJoin (value x) a) b

/-- The documented contract: `reverse_join` is associative, joining to a
split-off body changes nothing, and both scans accumulate the elements of their
range. -/
structure Body.Lawful (rg : Range R α) (value : α → B) (body : Body B R) : Prop where
  assoc : ∀ a b c, body.reverseJoin c (body.reverseJoin b a) =
    body.reverseJoin (body.reverseJoin c b) a
  reverseJoin_splitOff : ∀ a b, body.reverseJoin (body.splitOff b) a = a
  preScan_eq : ∀ b r, body.preScan b r = body.accumulate value b (rg.elems r)
  finalScan_eq : ∀ b r, body.finalScan b r = body.accumulate value b (rg.elems r)
  assign_eq : ∀ a b, body.assign a b = b

/-- The address of a body. -/
abbrev BodyId := Nat

/-- The bodies, the next unused address, and for every call made with
`final_scan_tag`, the latest first, its range and the value of the body it was
made on. -/
structure Memory (B R : Type*) where
  bodies : BodyId → B
  next : BodyId
  finals : List (R × B)

/-- A call with `pre_scan_tag`. -/
def Memory.preScan (body : Body B R) (m : Memory B R) (i : BodyId) (r : R) : Memory B R :=
  { m with bodies := update m.bodies i (body.preScan (m.bodies i) r) }

/-- A call with `final_scan_tag`. -/
def Memory.finalScan (body : Body B R) (m : Memory B R) (i : BodyId) (r : R) :
    Memory B R :=
  { m with
    bodies := update m.bodies i (body.finalScan (m.bodies i) r)
    finals := (r, m.bodies i) :: m.finals }

/-- The construction of a `final_sum` from another body. -/
def Memory.splitOff (body : Body B R) (m : Memory B R) (i : BodyId) : Memory B R :=
  { m with
    bodies := update m.bodies m.next (body.splitOff (m.bodies i))
    next := m.next + 1 }

/-- `final_sum::reverse_join` -/
def Memory.reverseJoin (body : Body B R) (m : Memory B R) (i lhs : BodyId) : Memory B R :=
  { m with bodies := update m.bodies i (body.reverseJoin (m.bodies i) (m.bodies lhs)) }

/-- `final_sum::assign_to` -/
def Memory.assignTo (body : Body B R) (m : Memory B R) (i dst : BodyId) : Memory B R :=
  { m with bodies := update m.bodies dst (body.assign (m.bodies dst) (m.bodies i)) }

/-- The fields of `start_scan`. `sumSlot` says that `m_sum_slot` is not null:
the slot itself is the one of the node the task works for. `inPlace` is set
while a right child runs that is not treated as stolen. -/
structure StartScan (R : Type*) where
  range : R
  body : BodyId
  sumSlot : Bool
  isFinal : Bool
  inPlace : Bool

/-- A `finish_scan` with the `sum_node` it completes. -/
structure FinishScan (R : Type*) where
  range : R
  leftIsFinal : Bool
  leftSum : Option BodyId
  sumSlot : Bool
  rightZombie : Option BodyId

/-- The `sum_node`s a part of the first pass returns, `null` for none. -/
inductive SumNode (R : Type*) where
  | null
  | node (range : R) (leftIsFinal : Bool) (leftSum : Option BodyId) (left right : SumNode R)

/-- The tasks of the first pass. -/
inductive Tree (R : Type*) where
  /-- a right child that has not been executed -/
  | spawned (t : StartScan R)
  | task (t : StartScan R)
  /-- a finished part and what it left in its return slot -/
  | done (returned : SumNode R)
  | node (f : FinishScan R) (left right : Tree R)

/-- `treat_as_stolen` of a right child under `f`. -/
def treatAsStolen (f : FinishScan R) (t : StartScan R) (isStolen : Bool) : Bool :=
  isStolen || decide (f.leftSum ≠ some t.body)

/-- The call a `start_scan` makes that does not split. -/
def StartScan.runBody (body : Body B R) (t : StartScan R) (m : Memory B R) : Memory B R :=
  if t.isFinal then m.finalScan body t.body t.range
  else if t.sumSlot then m.preScan body t.body t.range
  else m

/-- The branch of `start_scan::execute` that splits. The running task becomes
the left child and writes its sum into the new node, the right child keeps the
slot of the task. -/
def StartScan.splitTask (rg : Range R α) (t : StartScan R) : Tree R :=
  .node ⟨t.range, t.isFinal, none, t.sumSlot, none⟩
    (.task { t with range := (rg.split .split t.range).1, sumSlot := true })
    (.spawned { t with range := (rg.split .split t.range).2 })

/-- What `finish_scan::execute` does to the bodies. `slot` is the content of
its sum slot. -/
def FinishScan.joinSums (body : Body B R) (f : FinishScan R) (slot : Option BodyId)
    (m : Memory B R) : Memory B R :=
  match f.rightZombie, f.sumSlot, slot, f.leftSum with
  | some _, true, some s, some ls => m.reverseJoin body s ls
  | _, _, _, _ => m

/-- `m_left_is_final` after `finish_scan::execute`. -/
def FinishScan.finalLeft (f : FinishScan R) : SumNode R → Bool
  | .null => f.leftIsFinal
  | .node .. => false

/-- What `finish_scan::execute` returns. -/
def FinishScan.result (f : FinishScan R) (left right : SumNode R) : SumNode R :=
  match f.rightZombie, right with
  | none, .null => .null
  | _, _ => .node f.range (f.finalLeft left) f.leftSum left right

/-- A step of the first pass. `Step rg body m e T m' e' T'` also says how the
content of the sum slot `T` works for changes from `e` to `e'`. -/
inductive Step (rg : Range R α) (body : Body B R) :
    Memory B R → Option BodyId → Tree R → Memory B R → Option BodyId → Tree R → Prop
  | stolen {m e f l t} (isStolen : Bool) (h : treatAsStolen f t isStolen = true) :
      Step rg body m e (.node f l (.spawned t)) (m.splitOff body t.body) e
        (.node { f with rightZombie := some m.next } l
          (.task { t with body := m.next, isFinal := false }))
  | inPlace {m e f l t} (isStolen : Bool) (h : treatAsStolen f t isStolen = false) :
      Step rg body m e (.node f l (.spawned t)) m e
        (.node f l (.task { t with inPlace := true }))
  | runRange {m e t} :
      Step rg body m e (.task t) (t.runBody body m)
        (if t.sumSlot then some t.body else e) (.done .null)
  | split {m e t} (hp : t.inPlace = false) (h : rg.isDivisible t.range = true) :
      Step rg body m e (.task t) m e (t.splitTask rg)
  | finish {m e f sl sr} :
      Step rg body m e (.node f (.done sl) (.done sr)) (f.joinSums body e m) e
        (.done (f.result sl sr))
  | left {m e f l r m' s l'} (h : Step rg body m f.leftSum l m' s l') :
      Step rg body m e (.node f l r) m' e (.node { f with leftSum := s } l' r)
  | right {m e f l r m' e' r'} (h : Step rg body m e r m' e' r') :
      Step rg body m e (.node f l r) m' e' (.node f l r')

/-- The tasks of the second pass. `stuffLast` says that `m_stuff_last` is the
user's body. -/
inductive Pass2 (R : Type*) where
  /-- a `sum_node` that has not been executed -/
  | sum (body : BodyId) (incoming : Option BodyId) (stuffLast : Bool) (n : SumNode R)
  /-- a `final_sum` task -/
  | final (body : BodyId) (range : R) (stuffLast : Bool)
  /-- a `sum_node` waiting for its children -/
  | wait (left right : Pass2 R)
  | done

/-- `sum_node::create_child` -/
def createChild (range : R) (body : BodyId) (child : SumNode R) (incoming : Option BodyId)
    (stuffLast : Bool) : Pass2 R :=
  match child with
  | .null => .final body range stuffLast
  | .node .. => .sum body incoming stuffLast child

/-- `m_left_sum->reverse_join(*m_incoming)` -/
def joinIncoming (body : Body B R) (leftSum : BodyId) (incoming : Option BodyId)
    (m : Memory B R) : Memory B R :=
  match incoming with
  | none => m
  | some i => m.reverseJoin body leftSum i

/-- The address of the user's body. -/
def userBody : BodyId := 0

/-- The address of `temp_body`. -/
def tempBody : BodyId := 1

/-- `final_sum::execute` -/
def runFinalSum (body : Body B R) (i : BodyId) (range : R) (stuffLast : Bool)
    (m : Memory B R) : Memory B R :=
  let m' := m.finalScan body i range
  if stuffLast then m'.assignTo body i userBody else m'

/-- A step of the second pass. -/
inductive Step2 (rg : Range R α) (body : Body B R) :
    Memory B R → Pass2 R → Memory B R → Pass2 R → Prop
  | sum {m b inc stuff range lif ls left right} :
      Step2 rg body m (.sum b inc stuff (.node range lif (some ls) left right))
        (joinIncoming body ls inc m)
        (.wait (if lif then .done else createChild (rg.split .split range).1 b left inc false)
          (createChild (rg.split .split range).2 ls right (some ls) stuff))
  | final {m b range stuff} :
      Step2 rg body m (.final b range stuff) (runFinalSum body b range stuff m) .done
  | finalize {m} : Step2 rg body m (.wait .done .done) m .done
  | left {m l r m' l'} (h : Step2 rg body m l m' l') :
      Step2 rg body m (.wait l r) m' (.wait l' r)
  | right {m l r m' r'} (h : Step2 rg body m r m' r') :
      Step2 rg body m (.wait l r) m' (.wait l r')

/-- Where `start_scan::run` stands. -/
inductive Stage (R : Type*) where
  | pass1 (t : Tree R)
  | pass2 (t : Pass2 R)
  | returned

structure State (B R : Type*) where
  mem : Memory B R
  stage : Stage R

/-- The state in which `start_scan::run` waits for the first pass. -/
def run (rg : Range R α) (body : Body B R) (init : B) (range : R) : State B R :=
  let mem : Memory B R := ⟨fun _ => init, tempBody, []⟩
  if rg.empty range = true then ⟨mem, .returned⟩
  else
    ⟨(mem.splitOff body userBody).reverseJoin body tempBody userBody,
      .pass1 (.task ⟨range, tempBody, false, true, false⟩)⟩

/-- The second pass starts when the first one returns a root node. -/
inductive StateStep (rg : Range R α) (body : Body B R) : State B R → State B R → Prop
  | pass1 {m t m' e t'} (h : Step rg body m none t m' e t') :
      StateStep rg body ⟨m, .pass1 t⟩ ⟨m', .pass1 t'⟩
  | noRoot {m} :
      StateStep rg body ⟨m, .pass1 (.done .null)⟩ ⟨m.assignTo body tempBody userBody, .returned⟩
  | root {m range lif ls left right} :
      StateStep rg body ⟨m, .pass1 (.done (.node range lif ls left right))⟩
        ⟨m, .pass2 (.sum tempBody none true (.node range lif ls left right))⟩
  | pass2 {m t m' t'} (h : Step2 rg body m t m' t') :
      StateStep rg body ⟨m, .pass2 t⟩ ⟨m', .pass2 t'⟩
  | finished {m} : StateStep rg body ⟨m, .pass2 .done⟩ ⟨m, .returned⟩

end OneTbb.Scan
