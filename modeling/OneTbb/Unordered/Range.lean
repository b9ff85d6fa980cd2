import Mathlib.Data.List.Infix
import OneTbb.HashMap.Range

/-!
# Parallel iteration over the unordered containers

All elements are in one list that is ordered by the reversed bits of their hash
values. For each bucket that is initialized there is a dummy node in front of its
elements. A range is divided at the first element behind the dummy node of the
bucket in its middle, or of the next ancestor of it that is initialized.
-/

namespace OneTbb.Unordered

open List Nat

variable {ν : Type*}

/-- `reverse_bits` -/
def reverseBits (bits n : Nat) : Nat := (BitVec.ofNat bits n).reverse.toNat

/-- `get_parent` clears the most significant bit that is set. -/
def getParent (bucket : Nat) : Nat := bucket % 2 ^ bucket.log2

/-- A container that does not change. A pointer to a node is given by the nodes
that are linked from it on, so a null pointer is the empty list. -/
structure Table (ν : Type*) where
  bits : Nat
  orderKey : ν → Nat
  /-- the nodes from `my_head` on -/
  nodes : List ν
  /-- `my_segments` -/
  segments : Nat → List ν
  /-- `my_bucket_count` -/
  bucketCount : Nat
  nodup : nodes.Nodup
  key_lt : ∀ x ∈ nodes, orderKey x < 2 ^ bits
  sorted : nodes.Pairwise fun x y => orderKey x ≤ orderKey y
  bucketCount_eq : ∃ k < bits, bucketCount = 2 ^ k
  /-- the dummy node of a bucket that is initialized -/
  dummy : ∀ bucket x rest, segments bucket = x :: rest →
    x :: rest <:+ nodes ∧ orderKey x = reverseBits bits bucket
  /-- an insertion initializes its bucket and all ancestors of it first -/
  initialized : (∃ x ∈ nodes, orderKey x % 2 = 1) → segments 0 ≠ []

namespace Table

variable (t : Table ν)

/-- `is_dummy` -/
def isDummy (x : ν) : Bool := decide (t.orderKey x % 2 = 0)

/-- `first_value_node` -/
def firstValueNode (p : List ν) : List ν := p.dropWhile t.isDummy

/-- `operator++` of an iterator -/
def next (p : List ν) : List ν := t.firstValueNode p.tail

/-- The elements in the order of the list. -/
def values : List ν := t.nodes.filter fun x => !t.isDummy x

/-- The loop that looks for a bucket that is initialized, with the number of its
rounds. The parent of the first bucket is not defined. -/
def findBucket : Nat → Nat → Option Nat
  | 0, _ => none
  | rounds + 1, bucket =>
    if t.segments bucket ≠ [] then some bucket
    else if bucket = 0 then none
    else findBucket rounds (getParent bucket)

/-- The key of the node a range begins or ends at. -/
def keyOf (p : List ν) : Nat := (p.head?.map t.orderKey).getD (2 ^ t.bits - 1)

end Table

/-- Pointers are compared. -/
def same [DecidableEq ν] (p q : List ν) : Bool := decide (p.head? = q.head?)

variable [DecidableEq ν]

/-- What a loop from one pointer to another visits, unless it gets to a null pointer. -/
def iterate (t : Table ν) : Nat → List ν → List ν → Option (List ν)
  | 0, p, stop => if same p stop then some [] else none
  | fuel + 1, p, stop =>
    if same p stop then some []
    else
      match p with
      | [] => none
      | x :: _ => (iterate t fuel (t.next p) stop).map (x :: ·)

/-- `const_range_type` -/
structure ConstRange (ν : Type*) where
  myBegin : List ν
  myEnd : List ν
  myMidpoint : List ν

namespace ConstRange

/-- `empty` -/
def empty (r : ConstRange ν) : Bool := same r.myBegin r.myEnd

/-- `is_divisible` -/
def isDivisible (r : ConstRange ν) : Bool := !same r.myMidpoint r.myEnd

/-- The key in the middle of a range. -/
def middleKey (t : Table ν) (r : ConstRange ν) : Nat :=
  (t.keyOf r.myBegin +
    (t.keyOf r.myEnd + 2 ^ t.bits - t.keyOf r.myBegin) % 2 ^ t.bits / 2) % 2 ^ t.bits

/-- The bucket the search of `set_midpoint` ends with. -/
def middleBucket (t : Table ν) (r : ConstRange ν) : Option Nat :=
  t.findBucket (t.bits + 1) (reverseBits t.bits (r.middleKey t) % t.bucketCount)

/-- The node that `set_midpoint` stores. -/
def midpoint (t : Table ν) (r : ConstRange ν) : List ν :=
  if r.empty then r.myEnd
  else
    match r.middleBucket t with
    | some bucket =>
      if t.keyOf r.myBegin < reverseBits t.bits bucket then
        t.firstValueNode (t.segments bucket)
      else r.myEnd
    | none => r.myEnd

/-- `set_midpoint` -/
def setMidpoint (t : Table ν) (r : ConstRange ν) : ConstRange ν :=
  { r with myMidpoint := r.midpoint t }

/-- The constructor from a container. -/
def range (t : Table ν) : ConstRange ν := setMidpoint t ⟨t.firstValueNode t.nodes, [], []⟩

/-- The splitting constructor: the range after it, and the new one. -/
def split (t : Table ν) (r : ConstRange ν) : ConstRange ν × ConstRange ν :=
  (setMidpoint t { r with myEnd := r.myMidpoint },
    setMidpoint t { r with myBegin := r.myMidpoint })

/-- What a body visits that goes from `begin` to `end`. -/
def elems (t : Table ν) (fuel : Nat) (r : ConstRange ν) : List ν :=
  (iterate t fuel (t.firstValueNode r.myBegin) (t.firstValueNode r.myEnd)).getD []

end ConstRange

/-! ## Reversed bits -/

section Bits

variable {bits m n : Nat}

theorem testBit_reverseBits (bits n i : Nat) :
    (reverseBits bits n).testBit i = (decide (i < bits) && n.testBit (bits - 1 - i)) := by
  rw [reverseBits, BitVec.testBit_toNat, BitVec.getLsbD_reverse, BitVec.getMsbD_eq_getLsbD]
  by_cases hi : i < bits
  · rw [BitVec.getLsbD_ofNat, decide_eq_true hi, decide_eq_true (by omega : bits - 1 - i < bits)]
    simp
  · simp [hi]

theorem reverseBits_lt (bits n : Nat) : reverseBits bits n < 2 ^ bits := BitVec.isLt _

/-- Reversing the first bits of a reversed key clears the last bits of the key. -/
theorem reverseBits_mod_le {key k bucket : Nat}
    (h : ∀ i, bucket.testBit i = true → (reverseBits bits key % 2 ^ k).testBit i = true) :
    reverseBits bits bucket ≤ key := by
  apply le_of_testBit
  intro i hi
  rw [testBit_reverseBits, Bool.and_eq_true, decide_eq_true_iff] at hi
  have hbit := h _ hi.2
  rw [testBit_mod_two_pow, testBit_reverseBits, Bool.and_eq_true, Bool.and_eq_true] at hbit
  have hback : bits - 1 - (bits - 1 - i) = i := by omega
  rw [← hback]
  exact hbit.2.2

theorem getParent_testBit {bucket i : Nat} (h : (getParent bucket).testBit i = true) :
    bucket.testBit i = true := by
  rw [getParent, testBit_mod_two_pow, Bool.and_eq_true] at h
  exact h.2

theorem getParent_lt {bucket k : Nat} (h : bucket < 2 ^ (k + 1)) : getParent bucket < 2 ^ k := by
  rcases Nat.eq_zero_or_pos bucket with rfl | hpos
  · rw [getParent, zero_mod]
    exact Nat.two_pow_pos k
  · have hlog : bucket.log2 ≤ k := le_of_lt_succ ((log2_lt (Nat.ne_of_gt hpos)).mpr h)
    exact lt_of_lt_of_le (mod_lt _ (Nat.two_pow_pos _))
      (Nat.pow_le_pow_right (by decide) hlog)

end Bits

omit [DecidableEq ν] in
/-- The search for a bucket that is initialized ends with an ancestor. -/
theorem Table.findBucket_spec {t : Table ν} (h : t.segments 0 ≠ []) {k bucket : Nat}
    (hlt : bucket < 2 ^ k) :
    ∃ found, t.findBucket (k + 1) bucket = some found ∧ t.segments found ≠ [] ∧
      ∀ i, found.testBit i = true → bucket.testBit i = true := by
  induction k generalizing bucket with
  | zero =>
    obtain rfl : bucket = 0 := by omega
    exact ⟨0, by rw [findBucket, if_pos h], h, fun _ hi => hi⟩
  | succ k ih =>
    by_cases hhere : t.segments bucket ≠ []
    · exact ⟨bucket, by rw [findBucket, if_pos hhere], hhere, fun _ hi => hi⟩
    · have hne : bucket ≠ 0 := by
        rintro rfl
        exact hhere h
      obtain ⟨found, hfound, hinit, hbits⟩ := ih (getParent_lt hlt)
      refine ⟨found, ?_, hinit, fun i hi => getParent_testBit (hbits i hi)⟩
      rw [findBucket, if_neg hhere, if_neg hne, hfound]

/-! ## Pointers into the list -/

namespace Table

variable {t : Table ν} {p q : List ν}

omit [DecidableEq ν]

/-- The pointer is null or points to an element. -/
def AtValue (t : Table ν) (p : List ν) : Prop := ∀ x ∈ p.head?, t.isDummy x = false

theorem AtValue.firstValueNode (h : t.AtValue p) : t.firstValueNode p = p := by
  cases p with
  | nil => rfl
  | cons x rest =>
    apply dropWhile_cons_of_neg
    rw [h x rfl]
    exact Bool.false_ne_true

theorem atValue_firstValueNode (p : List ν) : t.AtValue (t.firstValueNode p) := by
  intro x hx
  have hnot := List.head?_dropWhile_not t.isDummy p
  rwa [show (p.dropWhile t.isDummy).head? = some x from hx] at hnot

/-- Looking for an element stops in front of one. -/
theorem firstValueNode_append (h : t.AtValue q) (p : List ν) :
    t.firstValueNode (p ++ q) = t.firstValueNode p ++ q := by
  induction p with
  | nil => exact h.firstValueNode
  | cons x rest ih =>
    rw [Table.firstValueNode, Table.firstValueNode, cons_append, dropWhile_cons,
      dropWhile_cons]
    split
    · exact ih
    · rfl

theorem filter_firstValueNode (p : List ν) :
    (t.firstValueNode p).filter (fun x => !t.isDummy x) = p.filter fun x => !t.isDummy x := by
  induction p with
  | nil => rfl
  | cons x rest ih =>
    rw [Table.firstValueNode, dropWhile_cons, filter_cons]
    cases hx : t.isDummy x with
    | true => exact ih
    | false => simp [hx]

theorem keyOf_le_keyOf (hp : p <:+ t.nodes) (hq : q <:+ p) : t.keyOf p ≤ t.keyOf q := by
  cases q with
  | nil =>
    cases p with
    | nil => exact le_rfl
    | cons x rest =>
      exact le_sub_one_of_lt (t.key_lt x (hp.subset mem_cons_self))
  | cons y after =>
    cases p with
    | nil => exact absurd (eq_nil_of_suffix_nil hq) (cons_ne_nil _ _)
    | cons x rest =>
      show t.orderKey x ≤ t.orderKey y
      rcases mem_cons.mp (hq.subset mem_cons_self) with rfl | hy
      · exact le_rfl
      · exact rel_of_pairwise_cons (t.sorted.sublist hp.sublist) hy

end Table

theorem same_iff {t : Table ν} {p q : List ν} (hp : p <:+ t.nodes) (hq : q <:+ p) :
    same p q = true ↔ p = q := by
  rw [same, decide_eq_true_iff]
  refine ⟨fun heq => ?_, congrArg _⟩
  obtain ⟨before, rfl⟩ := hq
  cases before with
  | nil => rfl
  | cons x rest =>
    have hnodup := hp.sublist.nodup t.nodup
    rw [cons_append, nodup_cons] at hnodup
    rw [cons_append, List.head?_cons] at heq
    exact absurd (mem_append_right _ (mem_of_head? heq.symm)) hnodup.1

variable {t : Table ν}

/-- A loop goes through the elements between two pointers. -/
theorem iterate_eq {part stop : List ν} (hp : part ++ stop <:+ t.nodes)
    (hstart : t.AtValue (part ++ stop)) (hstop : t.AtValue stop) {fuel : Nat}
    (hfuel : part.length ≤ fuel) :
    iterate t fuel (part ++ stop) stop = some (part.filter fun x => !t.isDummy x) := by
  induction fuel generalizing part with
  | zero =>
    obtain rfl := length_eq_zero_iff.mp (le_zero.mp hfuel)
    simp [iterate, same]
  | succ fuel ih =>
    match part with
    | [] => simp [iterate, same]
    | x :: rest =>
      have hdiff : same (x :: (rest ++ stop)) stop = false := by
        rw [← Bool.not_eq_true, same_iff (p := x :: (rest ++ stop)) hp
          (suffix_append (x :: rest) stop)]
        intro heq
        have hlength := congrArg List.length heq
        rw [length_cons, length_append] at hlength
        omega
      have hvalue : t.isDummy x = false := hstart x rfl
      have hnext : t.next (x :: (rest ++ stop)) = t.firstValueNode rest ++ stop :=
        Table.firstValueNode_append hstop rest
      have hsuffix : t.firstValueNode rest ++ stop <:+ t.nodes := by
        rw [← hnext]
        exact (dropWhile_suffix _).trans ((suffix_cons x _).trans hp)
      have hlength : (t.firstValueNode rest).length ≤ fuel :=
        le_trans (dropWhile_suffix _).length_le (le_of_succ_le_succ hfuel)
      have htail := ih hsuffix (hnext ▸ Table.atValue_firstValueNode _) hlength
      rw [cons_append, iterate, hdiff, hnext]
      simp [htail, Table.filter_firstValueNode, hvalue]

/-! ## Ranges -/

namespace ConstRange

variable {r : ConstRange ν}

/-- What holds of every range that splitting makes. -/
structure Ok (t : Table ν) (r : ConstRange ν) : Prop where
  begins : r.myBegin <:+ t.nodes
  ends : r.myEnd <:+ r.myBegin
  beginValue : t.AtValue r.myBegin
  endValue : t.AtValue r.myEnd
  /-- only the range of an empty container is empty -/
  ne : t.values ≠ [] → r.myBegin ≠ r.myEnd
  midpoint : r.myMidpoint = r.midpoint t

theorem Ok.exists_elems (h : r.Ok t) : ∃ part, r.myBegin = part ++ r.myEnd ∧
    iterate t t.nodes.length (t.firstValueNode r.myBegin) (t.firstValueNode r.myEnd) =
      some (part.filter fun x => !t.isDummy x) := by
  obtain ⟨part, hpart⟩ := h.ends
  refine ⟨part, hpart.symm, ?_⟩
  have hbegins := h.begins
  have hvalue := h.beginValue
  rw [h.beginValue.firstValueNode, h.endValue.firstValueNode, ← hpart]
  rw [← hpart] at hbegins hvalue
  apply iterate_eq hbegins hvalue h.endValue
  have := hbegins.length_le
  rw [length_append] at this
  omega

theorem Ok.elems_eq (h : r.Ok t) {part : List ν} (hpart : r.myBegin = part ++ r.myEnd) :
    r.elems t t.nodes.length = part.filter fun x => !t.isDummy x := by
  obtain ⟨part', hpart', helems⟩ := h.exists_elems
  obtain rfl := append_cancel_right (hpart.symm.trans hpart')
  rw [elems, helems, Option.getD_some]

theorem Ok.elems_ne_nil (h : r.Ok t) (hvalues : t.values ≠ []) :
    r.elems t t.nodes.length ≠ [] := by
  obtain ⟨part, hpart⟩ := h.ends
  rw [h.elems_eq hpart.symm]
  match part with
  | [] => exact absurd hpart.symm (h.ne hvalues)
  | x :: rest =>
    have hvalue : t.isDummy x = false := h.beginValue x (by rw [← hpart]; rfl)
    simp [hvalue]

omit [DecidableEq ν] in
/-- Half the way between two keys. -/
theorem half_way {low high bound : Nat} (hle : low ≤ high) (hlt : high < bound) :
    (low + (high + bound - low) % bound / 2) % bound = low + (high - low) / 2 := by
  have hsub : high + bound - low = high - low + bound := by omega
  rw [hsub, add_mod_right, mod_eq_of_lt (by omega : high - low < bound),
    mod_eq_of_lt (by omega)]

/-- The search for the middle bucket ends, and its dummy node is not behind the middle. -/
theorem Ok.middleBucket_spec (h : r.Ok t) (hne : r.myBegin ≠ r.myEnd) :
    ∃ bucket x rest, r.middleBucket t = some bucket ∧ t.segments bucket = x :: rest ∧
      t.orderKey x = reverseBits t.bits bucket ∧ x :: rest <:+ t.nodes ∧
      t.orderKey x ≤ t.keyOf r.myBegin + (t.keyOf r.myEnd - t.keyOf r.myBegin) / 2 := by
  obtain ⟨y, after, hbegin⟩ : ∃ y after, r.myBegin = y :: after := by
    apply exists_cons_of_ne_nil
    intro hnil
    have hends := h.ends
    rw [hnil] at hends hne
    exact hne (eq_nil_of_suffix_nil hends).symm
  have hvalue : t.isDummy y = false := h.beginValue y (by rw [hbegin]; rfl)
  have hmem : y ∈ t.nodes := h.begins.subset (by rw [hbegin]; exact mem_cons_self)
  have hzero : t.segments 0 ≠ [] := by
    apply t.initialized
    refine ⟨y, hmem, ?_⟩
    have := of_decide_eq_false hvalue
    omega
  obtain ⟨k, hk, hcount⟩ := t.bucketCount_eq
  have hend : t.keyOf r.myEnd < 2 ^ t.bits := by
    have hpos := Nat.two_pow_pos t.bits
    cases hcase : r.myEnd with
    | nil => exact sub_lt hpos Nat.one_pos
    | cons z rest =>
      refine t.key_lt z (h.begins.subset (h.ends.subset ?_))
      rw [hcase]
      exact mem_cons_self
  have hle := Table.keyOf_le_keyOf h.begins h.ends
  have hkey : r.middleKey t = t.keyOf r.myBegin + (t.keyOf r.myEnd - t.keyOf r.myBegin) / 2 :=
    half_way hle hend
  have hlt : reverseBits t.bits (r.middleKey t) % t.bucketCount < 2 ^ t.bits := by
    exact lt_of_le_of_lt (mod_le _ _) (reverseBits_lt _ _)
  obtain ⟨bucket, hfound, hinit, hbits⟩ := Table.findBucket_spec hzero hlt
  obtain ⟨x, rest, hx⟩ := exists_cons_of_ne_nil hinit
  obtain ⟨hsuffix, hdummy⟩ := t.dummy bucket x rest hx
  refine ⟨bucket, x, rest, hfound, hx, hdummy, hsuffix, ?_⟩
  rw [hdummy, ← hkey]
  rw [hcount] at hbits
  exact reverseBits_mod_le hbits

theorem Ok.midpoint_spec (h : r.Ok t) :
    r.myEnd <:+ r.myMidpoint ∧ r.myMidpoint <:+ r.myBegin ∧ t.AtValue r.myMidpoint ∧
      (r.myMidpoint = r.myEnd ∨ r.myMidpoint ≠ r.myBegin) := by
  rw [h.midpoint]
  have hend : r.myEnd <:+ r.myEnd ∧ r.myEnd <:+ r.myBegin ∧ t.AtValue r.myEnd ∧
      (r.myEnd = r.myEnd ∨ r.myEnd ≠ r.myBegin) :=
    ⟨suffix_refl _, h.ends, h.endValue, .inl rfl⟩
  have hempty : r.empty = true ↔ r.myBegin = r.myEnd := same_iff h.begins h.ends
  unfold ConstRange.midpoint
  split
  case isTrue => exact hend
  case isFalse hsome =>
    obtain ⟨bucket, x, rest, hbucket, hx, hdummy, hsuffix, hmiddle⟩ :=
      h.middleBucket_spec (mt hempty.mpr hsome)
    rw [hbucket]
    simp only
    split
    case isFalse => exact hend
    case isTrue hlt =>
      rw [hx]
      rw [← hdummy] at hlt
      -- the dummy node is behind the beginning, since its key is greater
      have hbehind : x :: rest <:+ r.myBegin ∧ x :: rest ≠ r.myBegin := by
        have hnot : ¬ r.myBegin <:+ x :: rest := by
          intro hsuf
          exact not_lt.mpr (Table.keyOf_le_keyOf hsuffix hsuf) hlt
        refine ⟨(suffix_or_suffix_of_suffix hsuffix h.begins).resolve_right hnot, ?_⟩
        rintro heq
        exact hnot (heq ▸ suffix_refl _)
      -- it is not behind the end, since its key is not greater than the middle
      have hbefore : r.myEnd <:+ x :: rest := by
        rcases suffix_or_suffix_of_suffix (h.ends.trans h.begins) hsuffix with hyes | hno
        · exact hyes
        · have hle : t.keyOf r.myEnd ≤ t.orderKey x :=
            Table.keyOf_le_keyOf (h.ends.trans h.begins) hno
          omega
      obtain ⟨before, hbefore⟩ := hbefore
      have hvalue : t.firstValueNode (x :: rest) = t.firstValueNode before ++ r.myEnd := by
        rw [← hbefore]
        exact Table.firstValueNode_append h.endValue before
      refine ⟨hvalue ▸ suffix_append _ _, (dropWhile_suffix _).trans hbehind.1,
        Table.atValue_firstValueNode _, .inr ?_⟩
      intro heq
      have hle := (dropWhile_suffix t.isDummy (l := x :: rest)).length_le
      rw [show (x :: rest).dropWhile t.isDummy = r.myBegin from heq] at hle
      exact hbehind.2 (hbehind.1.eq_of_length_le hle)

/-- The parts of a divisible range, on both sides of its midpoint. -/
theorem Ok.parts (h : r.Ok t) (hdiv : r.isDivisible = true) :
    ∃ first second, r.myBegin = first ++ r.myMidpoint ∧ r.myMidpoint = second ++ r.myEnd ∧
      r.myMidpoint ≠ r.myEnd ∧ r.myMidpoint ≠ r.myBegin := by
  obtain ⟨hend, hbegin, -, hcase⟩ := h.midpoint_spec
  have hne : r.myMidpoint ≠ r.myEnd := by
    intro heq
    rw [isDivisible, (same_iff (hbegin.trans h.begins) hend).mpr heq] at hdiv
    cases hdiv
  obtain ⟨first, hfirst⟩ := hbegin
  obtain ⟨second, hsecond⟩ := hend
  exact ⟨first, second, hfirst.symm, hsecond.symm, hne, hcase.resolve_left hne⟩

theorem Ok.split (h : r.Ok t) (hdiv : r.isDivisible = true) :
    Ok t (r.split t).1 ∧ Ok t (r.split t).2 := by
  obtain ⟨hend, hbegin, hvalue, -⟩ := h.midpoint_spec
  obtain ⟨-, -, -, -, hneEnd, hneBegin⟩ := h.parts hdiv
  constructor
  · exact ⟨h.begins, hbegin, h.beginValue, hvalue, fun _ => hneBegin.symm, rfl⟩
  · exact ⟨hbegin.trans h.begins, hend, hvalue, h.endValue, fun _ => hneEnd, rfl⟩

theorem Ok.elems_split (h : r.Ok t) (hdiv : r.isDivisible = true) :
    r.elems t t.nodes.length =
      (r.split t).1.elems t t.nodes.length ++ (r.split t).2.elems t t.nodes.length := by
  obtain ⟨first, second, hfirst, hsecond, -, -⟩ := h.parts hdiv
  obtain ⟨hleft, hright⟩ := h.split hdiv
  have hwhole : r.myBegin = (first ++ second) ++ r.myEnd := by
    rw [hfirst, hsecond, append_assoc]
  rw [h.elems_eq hwhole, hleft.elems_eq hfirst, hright.elems_eq hsecond, filter_append]

theorem ok_range : Ok t (range t) := by
  have hsuffix : t.firstValueNode t.nodes <:+ t.nodes := dropWhile_suffix _
  refine ⟨hsuffix, nil_suffix, Table.atValue_firstValueNode _, by rintro x ⟨⟩, ?_, rfl⟩
  intro hvalues hnil
  have hfilter := t.filter_firstValueNode t.nodes
  rw [show t.firstValueNode t.nodes = [] from hnil] at hfilter
  exact hvalues hfilter.symm

theorem elems_range : (range t).elems t t.nodes.length = t.values := by
  rw [ok_range.elems_eq (append_nil _).symm]
  exact t.filter_firstValueNode t.nodes

theorem Ok.empty_iff (h : r.Ok t) : r.empty = true ↔ t.values = [] := by
  rw [empty, same_iff h.begins h.ends]
  constructor
  · intro heq
    by_contra hvalues
    exact h.ne hvalues heq
  · intro hvalues
    obtain ⟨part, hpart⟩ := h.ends
    match part with
    | [] => exact hpart.symm
    | x :: rest =>
      have hbegin : x ∈ r.myBegin := by
        rw [← hpart]
        exact mem_cons_self
      have hvalue : t.isDummy x = false := h.beginValue x (by rw [← hpart]; rfl)
      have hmem : x ∈ t.values := mem_filter.mpr ⟨h.begins.subset hbegin, by simp [hvalue]⟩
      rw [hvalues] at hmem
      cases hmem

theorem Ok.not_divisible (h : r.Ok t) (hempty : r.empty = true) : r.isDivisible = false := by
  by_contra hdiv
  rw [Bool.not_eq_false] at hdiv
  obtain ⟨first, second, hfirst, hsecond, hne, -⟩ := h.parts hdiv
  have hends := (same_iff h.begins h.ends).mp hempty
  have hlength := congrArg length hends
  rw [hfirst, hsecond, length_append, length_append] at hlength
  have hnil : second = [] := eq_nil_of_length_eq_zero (by omega)
  exact hne (by rw [hsecond, hnil, nil_append])

end ConstRange

/-- The ranges of every tree of splits, in order, go through all elements of the
container, and none of them is empty unless the container is. The search for a
midpoint always ends. -/
theorem constRange_tiles (t : Table ν) {tree : SplitTree}
    (hvalid : tree.Valid ConstRange.isDivisible (ConstRange.split t) (ConstRange.range t)) :
    (tree.leaves (ConstRange.split t) (ConstRange.range t)).flatMap
        (ConstRange.elems t t.nodes.length) = t.values ∧
      ∀ part ∈ tree.parts (ConstRange.split t) (ConstRange.range t),
        iterate t t.nodes.length (t.firstValueNode part.2.myBegin)
            (t.firstValueNode part.2.myEnd) = some (part.2.elems t t.nodes.length) ∧
          (part.2.empty = true ↔ t.values = []) ∧
          (part.2.empty = true → part.2.isDivisible = false) ∧
          (t.values ≠ [] → part.2.elems t t.nodes.length ≠ []) ∧
          (part.2.empty = false → (part.2.middleBucket t).isSome) := by
  constructor
  · rw [SplitTree.flatMap_leaves (fun _ => ConstRange.Ok.split)
      (fun _ => ConstRange.Ok.elems_split) ConstRange.ok_range hvalid, ConstRange.elems_range]
  · intro part hmem
    obtain ⟨hok, -⟩ := SplitTree.inv_of_mem_parts (fun _ => ConstRange.Ok.split)
      ConstRange.ok_range hvalid hmem
    refine ⟨?_, hok.empty_iff, hok.not_divisible, hok.elems_ne_nil, ?_⟩
    · obtain ⟨rest, hrest, helems⟩ := hok.exists_elems
      rw [helems, hok.elems_eq hrest]
    · intro hempty
      have hne : part.2.myBegin ≠ part.2.myEnd := by
        intro heq
        rw [ConstRange.empty, (same_iff hok.begins hok.ends).mpr heq] at hempty
        cases hempty
      obtain ⟨bucket, _, _, hbucket, -⟩ := hok.middleBucket_spec hne
      rw [hbucket]
      rfl

open HashMap (MapRange) in
/-- The ranges that splitting makes of the range of a `concurrent_hash_map` or of an
unordered container, in order, go through the nodes in the order of the
iterators, each exactly once. A range is empty only if the container is, and is
not divisible then. So a container that is not empty has at most as many ranges
as elements, and splitting ends. -/
theorem hash_ranges_tile {μ : Type*} [DecidableEq μ] (m : HashMap.Table μ) (grainsize : Nat)
    (hgrain : 0 < grainsize) (mapTree : SplitTree)
    (hmap : mapTree.Valid MapRange.isDivisible (MapRange.split m) (MapRange.range m grainsize))
    (t : Table ν) (tree : SplitTree)
    (hvalid : tree.Valid ConstRange.isDivisible (ConstRange.split t) (ConstRange.range t)) :
    ((mapTree.leaves (MapRange.split m) (MapRange.range m grainsize)).flatMap
          (MapRange.elems m m.nodes.length) = m.nodes ∧
        (∀ part ∈ mapTree.parts (MapRange.split m) (MapRange.range m grainsize),
          HashMap.iterate m m.nodes.length part.2.myBegin part.2.myEnd =
              some (part.2.elems m m.nodes.length) ∧
            (part.2.empty = true ↔ m.nodes = []) ∧
            (part.2.empty = true → part.2.isDivisible = false) ∧
            (m.nodes ≠ [] → part.2.elems m m.nodes.length ≠ [])) ∧
        (m.nodes ≠ [] →
          (mapTree.leaves (MapRange.split m) (MapRange.range m grainsize)).length ≤
            m.nodes.length)) ∧
      (tree.leaves (ConstRange.split t) (ConstRange.range t)).flatMap
          (ConstRange.elems t t.nodes.length) = t.values ∧
        (∀ part ∈ tree.parts (ConstRange.split t) (ConstRange.range t),
          iterate t t.nodes.length (t.firstValueNode part.2.myBegin)
              (t.firstValueNode part.2.myEnd) = some (part.2.elems t t.nodes.length) ∧
            (part.2.empty = true ↔ t.values = []) ∧
            (part.2.empty = true → part.2.isDivisible = false) ∧
            (t.values ≠ [] → part.2.elems t t.nodes.length ≠ []) ∧
            (part.2.empty = false → (part.2.middleBucket t).isSome)) ∧
        (t.values ≠ [] →
          (tree.leaves (ConstRange.split t) (ConstRange.range t)).length ≤ t.values.length) := by
  obtain ⟨hmapElems, hmapParts⟩ := HashMap.mapRange_tiles m hgrain hmap
  obtain ⟨helems, hparts⟩ := constRange_tiles t hvalid
  refine ⟨⟨hmapElems, hmapParts, ?_⟩, helems, hparts, ?_⟩
  · intro hnodes
    have hle := SplitTree.length_leaves_le fun q hq =>
      (hmapParts _ (SplitTree.mem_parts_of_mem_leaves hq)).2.2.2 hnodes
    rwa [hmapElems] at hle
  · intro hvalues
    have hle := SplitTree.length_leaves_le fun q hq =>
      (hparts _ (SplitTree.mem_parts_of_mem_leaves hq)).2.2.2.1 hvalues
    rwa [helems] at hle

/-- Two buckets, the first with two nodes. -/
def twoBuckets : HashMap.Table Nat where
  bits := 64
  mask := 1
  mask_lt := by decide
  nodeList p := if p = (0, 0) then some [1, 2] else some [3]
  nodup := by decide

/-- Two buckets with one element each. The nodes are given by their order keys. -/
def twoElements : Table Nat where
  bits := 4
  orderKey := id
  nodes := [0, 3, 8, 9]
  segments bucket := if bucket = 0 then [0, 3, 8, 9] else if bucket = 1 then [8, 9] else []
  bucketCount := 2
  nodup := by decide
  key_lt := by decide
  sorted := by decide
  bucketCount_eq := ⟨1, by decide, rfl⟩
  dummy := by
    intro bucket x rest hx
    split at hx
    case isTrue hzero =>
      cases hx
      subst hzero
      exact ⟨suffix_refl _, by decide⟩
    case isFalse =>
      split at hx
      case isTrue hone =>
        cases hx
        subst hone
        exact ⟨⟨[0, 3], rfl⟩, by decide⟩
      case isFalse => cases hx
  initialized _ := by decide

open HashMap (MapRange) in
/-- Both containers are divided once. -/
theorem hash_ranges_tile_once :
    (MapRange.split twoBuckets (MapRange.range twoBuckets 1)).1.elems twoBuckets 3 = [1, 2] ∧
      (ConstRange.split twoElements (ConstRange.range twoElements)).1.elems twoElements 4 = [3] ∧
      (SplitTree.leaves (ConstRange.split twoElements) (.node .leaf .leaf)
        (ConstRange.range twoElements)).length ≤ twoElements.values.length := by
  refine ⟨by decide, by decide, ?_⟩
  exact (hash_ranges_tile twoBuckets 1 (by decide) (.node .leaf .leaf)
    ⟨by decide, trivial, trivial⟩ twoElements (.node .leaf .leaf)
    ⟨by decide, trivial, trivial⟩).2.2.2 (by decide)

end OneTbb.Unordered
