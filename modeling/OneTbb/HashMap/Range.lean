import Mathlib.Data.Nat.Bitwise
import OneTbb.Library.SplitTree

/-!
# Parallel iteration over `concurrent_hash_map`

The buckets are spread over segments that double in size. A bucket is empty, or
it has not been rehashed yet, or it has a list of nodes. An iterator goes
through the buckets in the order of their indices, from segment to segment. A
range is divided at the first node at or behind its middle bucket.
-/

namespace OneTbb.HashMap

open List Nat

variable {ν : Type*}

/-- `segment_index_of` -/
def segmentIndexOf (index : Nat) : Nat := (index ||| 1).log2

/-- `segment_base`: the last bit of `1 << k` is cleared. -/
def segmentBase (k : Nat) : Nat := 2 ^ k / 2 * 2

/-- The address of a bucket: its segment and its place there. -/
abbrev BucketPtr := Nat × Nat

/-- `get_bucket` -/
def getBucket (h : Nat) : BucketPtr := (segmentIndexOf h, h - segmentBase (segmentIndexOf h))

/-- `k & (k - 2)` in a word of `bits` bits -/
def segmentTest (bits k : Nat) : Nat := k &&& (k + 2 ^ bits - 2) % 2 ^ bits

/-- A table that does not change. A pointer to a node is given by the nodes that
are linked from it on, and `rehash_req_flag` by `none`. -/
structure Table (ν : Type*) where
  bits : Nat
  mask : Nat
  mask_lt : mask < 2 ^ bits
  /-- `node_list` of the buckets -/
  nodeList : BucketPtr → Option (List ν)
  /-- each node is in one list only -/
  nodup : ((range (mask + 1)).flatMap fun k => (nodeList (getBucket k)).getD []).Nodup

namespace Table

variable (t : Table ν)

/-- The nodes in the bucket with an index. -/
def bucketNodes (k : Nat) : List ν := (t.nodeList (getBucket k)).getD []

/-- The nodes in the buckets with the indices `lo ≤ k < hi`. -/
def between (lo hi : Nat) : List ν := (range' lo (hi - lo)).flatMap t.bucketNodes

end Table

/-- `hash_map_iterator` -/
structure Iterator (ν : Type*) where
  /-- `my_index` -/
  index : Nat
  /-- `my_bucket` -/
  bucket : Option BucketPtr
  /-- `my_node` -/
  node : List ν

namespace Iterator

/-- The loop of `advance_to_next_bucket`, with the number of its rounds that are left. -/
def advanceLoop (t : Table ν) : Nat → Nat → BucketPtr → Iterator ν
  | 0, k, _ => ⟨k, none, []⟩
  | rounds + 1, k, bucket =>
    let bucket := if segmentTest t.bits k ≠ 0 then (bucket.1, bucket.2 + 1) else getBucket k
    match t.nodeList bucket with
    | some (x :: rest) => ⟨k, some bucket, x :: rest⟩
    | _ => advanceLoop t rounds (k + 1) bucket

/-- `advance_to_next_bucket` from a bucket with an index -/
def advanceToNextBucket (t : Table ν) (index : Nat) (bucket : BucketPtr) : Iterator ν :=
  advanceLoop t (t.mask - index) (index + 1) bucket

/-- The constructor from a bucket and the pointer that is stored in it. -/
def make (t : Table ν) (index : Nat) (bucket : Option BucketPtr) (node : Option (List ν)) :
    Iterator ν :=
  match node, bucket with
  | some (x :: rest), _ => ⟨index, bucket, x :: rest⟩
  | _, some b => advanceToNextBucket t index b
  | _, none => ⟨index, none, []⟩

/-- `operator++` -/
def next (t : Table ν) (it : Iterator ν) : Iterator ν :=
  match it.node.tail, it.bucket with
  | [], some b => advanceToNextBucket t it.index b
  | [], none => it
  | x :: rest, _ => { it with node := x :: rest }

/-- `operator==` -/
def same [DecidableEq ν] (it other : Iterator ν) : Bool :=
  decide (it.node.head? = other.node.head?)

/-- `begin()` -/
def first (t : Table ν) : Iterator ν := make t 0 (some (getBucket 0)) (t.nodeList (getBucket 0))

/-- `end()` -/
def last (t : Table ν) : Iterator ν := make t (t.mask + 1) none (some [])

end Iterator

variable [DecidableEq ν]

/-- What a loop from one iterator to another visits, unless it gets to a null pointer. -/
def iterate (t : Table ν) : Nat → Iterator ν → Iterator ν → Option (List ν)
  | 0, it, stop => if it.same stop then some [] else none
  | fuel + 1, it, stop =>
    if it.same stop then some []
    else
      match it.node with
      | [] => none
      | x :: _ => (iterate t fuel (it.next t) stop).map (x :: ·)

/-- `hash_map_range` -/
structure MapRange (ν : Type*) where
  myBegin : Iterator ν
  myEnd : Iterator ν
  myMidpoint : Iterator ν
  grainsize : Nat

namespace MapRange

/-- The middle of the indices of a range. -/
def middle (r : MapRange ν) : Nat := r.myBegin.index + (r.myEnd.index - r.myBegin.index) / 2

/-- The iterator that `set_midpoint` stores. -/
def midpoint (t : Table ν) (r : MapRange ν) : Iterator ν :=
  if r.grainsize < r.myEnd.index - r.myBegin.index then
    .make t r.middle (some (getBucket r.middle)) (t.nodeList (getBucket r.middle))
  else r.myEnd

/-- `set_midpoint` -/
def setMidpoint (t : Table ν) (r : MapRange ν) : MapRange ν :=
  { r with myMidpoint := r.midpoint t }

/-- The constructor from a map. -/
def range (t : Table ν) (grainsize : Nat) : MapRange ν :=
  setMidpoint t ⟨.first t, .last t, .last t, grainsize⟩

/-- `empty` -/
def empty (r : MapRange ν) : Bool := r.myBegin.same r.myEnd

/-- `is_divisible` -/
def isDivisible (r : MapRange ν) : Bool := !r.myMidpoint.same r.myEnd

/-- The splitting constructor: the range after it, and the new one. -/
def split (t : Table ν) (r : MapRange ν) : MapRange ν × MapRange ν :=
  (setMidpoint t { r with myEnd := r.myMidpoint },
    setMidpoint t { r with myBegin := r.myMidpoint, myMidpoint := r.myEnd })

/-- What a body visits that goes from `begin` to `end`. -/
def elems (t : Table ν) (fuel : Nat) (r : MapRange ν) : List ν :=
  (iterate t fuel r.myBegin r.myEnd).getD []

end MapRange

/-! ## Addresses of buckets -/

theorem or_one (k : Nat) : k ||| 1 = 2 * (k / 2) + 1 := by
  have hlow : ∀ a, 2 * a ||| 1 = 2 * a + 1 := fun a =>
    (two_pow_add_eq_or_of_lt (i := 1) (b := 1) (by decide) a).symm
  rcases mod_two_eq_zero_or_one k with h | h
  · have heven : k = 2 * (k / 2) := by omega
    conv_lhs => rw [heven]
    exact hlow _
  · have hodd : k = 2 * (k / 2) ||| 1 := by
      rw [hlow]
      omega
    conv_lhs => rw [hodd]
    rw [Nat.or_assoc, Nat.or_self]
    exact hlow _

theorem segmentIndexOf_eq_iff {k s : Nat} :
    segmentIndexOf k = s ↔ 2 ^ s ≤ 2 * (k / 2) + 1 ∧ 2 * (k / 2) + 1 < 2 ^ (s + 1) := by
  rw [segmentIndexOf, or_one]
  exact log2_eq_iff (succ_ne_zero _)

/-- The test finds every index at which a segment begins. -/
theorem segmentTest_two_pow {bits s : Nat} (hs : 0 < s) (hlt : 2 ^ s < 2 ^ bits) :
    segmentTest bits (2 ^ s) = 0 := by
  have htwo : 2 ≤ 2 ^ s := Nat.pow_le_pow_right (n := 2) (by decide) hs
  have hsub : (2 ^ s + 2 ^ bits - 2) % 2 ^ bits = 2 ^ s - 2 := by
    have hsplit : 2 ^ s + 2 ^ bits - 2 = (2 ^ s - 2) + 2 ^ bits := by omega
    rw [hsplit, add_mod_right, mod_eq_of_lt (by omega)]
  rw [segmentTest, hsub, two_pow_and, testBit_lt_two_pow (by omega)]
  rfl

/-- Behind a bucket at which no segment begins, the next address is that of the next bucket. -/
theorem getBucket_succ {bits k : Nat} (hk : k + 1 < 2 ^ bits)
    (htest : segmentTest bits (k + 1) ≠ 0) :
    getBucket (k + 1) = ((getBucket k).1, (getBucket k).2 + 1) := by
  obtain ⟨hle, hlt⟩ := segmentIndexOf_eq_iff.mp (rfl : segmentIndexOf (k + 1) = _)
  have hbase : segmentBase (segmentIndexOf (k + 1)) ≤ k ∧
      segmentIndexOf k = segmentIndexOf (k + 1) := by
    generalize segmentIndexOf (k + 1) = s at hle hlt
    cases s with
    | zero =>
      refine ⟨by simp [segmentBase], segmentIndexOf_eq_iff.mpr ⟨?_, ?_⟩⟩
      · exact succ_le_succ (zero_le _)
      · rw [zero_add, Nat.pow_one] at hlt ⊢
        omega
    | succ s =>
      -- otherwise a segment begins here, and the test says so
      have hne : k + 1 ≠ 2 ^ (s + 1) := by
        intro heq
        rw [heq] at htest hk
        exact htest (segmentTest_two_pow (succ_pos s) hk)
      rw [pow_succ 2 s] at hne hle
      rw [segmentIndexOf_eq_iff, segmentBase, pow_succ 2 (s + 1), pow_succ 2 s]
      rw [pow_succ 2 (s + 1), pow_succ 2 s] at hlt
      omega
  rw [getBucket, getBucket, hbase.2]
  congr 1
  omega

/-! ## Iterators -/

namespace Table

variable {t : Table ν}

omit [DecidableEq ν]

theorem between_append {lo mid hi : Nat} (h : lo ≤ mid) (h' : mid ≤ hi) :
    t.between lo hi = t.between lo mid ++ t.between mid hi := by
  have hsum : hi - lo = (mid - lo) + (hi - mid) := by omega
  have hmid : lo + 1 * (mid - lo) = mid := by omega
  rw [between, between, between, ← flatMap_append, hsum, ← range'_append, hmid]

theorem between_succ {lo hi : Nat} (h : lo < hi) :
    t.between lo hi = t.bucketNodes lo ++ t.between (lo + 1) hi := by
  have hsum : hi - lo = hi - (lo + 1) + 1 := by omega
  rw [between, hsum, range'_succ, flatMap_cons]
  rfl

theorem between_eq_nil {lo hi : Nat} (h : ∀ k, lo ≤ k → k < hi → t.bucketNodes k = []) :
    t.between lo hi = [] := by
  rw [between, flatMap_eq_nil_iff]
  intro k hk
  rw [mem_range'_1] at hk
  exact h k hk.1 (by omega)

/-- All nodes of the table. -/
def nodes (t : Table ν) : List ν := t.between 0 (t.mask + 1)

theorem nodup_nodes : t.nodes.Nodup := by
  rw [nodes, between, Nat.sub_zero, ← range_eq_range']
  exact t.nodup

/-- Different buckets have different nodes. -/
theorem not_mem_bucketNodes {j k : Nat} (hlt : j < k) (hk : k ≤ t.mask) {x : ν}
    (hx : x ∈ t.bucketNodes j) : x ∉ t.bucketNodes k := by
  intro hx'
  have hnodup := t.nodup_nodes
  rw [nodes, between_append (zero_le k) (le_succ_of_le hk), nodup_append] at hnodup
  refine hnodup.2.2 x ?_ x ?_ rfl
  · exact mem_flatMap.mpr ⟨j, mem_range'_1.mpr ⟨zero_le _, by omega⟩, hx⟩
  · exact mem_flatMap.mpr ⟨k, mem_range'_1.mpr ⟨le_rfl, by omega⟩, hx'⟩

end Table

namespace Iterator

variable {t : Table ν} {it stop : Iterator ν}

/-- The iterator is at the first node of a bucket, or at the end. -/
structure Stands (t : Table ν) (it : Iterator ν) : Prop where
  index_le : it.index ≤ t.mask + 1
  bucket : it.index ≤ t.mask → it.bucket = some (getBucket it.index) ∧ it.node ≠ []
  node : it.node = if it.index ≤ t.mask then t.bucketNodes it.index else []

omit [DecidableEq ν]

theorem Stands.bucketNodes_ne_nil (h : it.Stands t) (hle : it.index ≤ t.mask) :
    t.bucketNodes it.index ≠ [] := by
  have hne := (h.bucket hle).2
  rwa [h.node, if_pos hle] at hne

/-- The iterator is at the first node at or behind a bucket. -/
structure Finds (t : Table ν) (k : Nat) (it : Iterator ν) : Prop where
  stands : it.Stands t
  le_index : k ≤ it.index
  skipped : ∀ j, k ≤ j → j < it.index → t.bucketNodes j = []

/-- An iterator that stands further on is not overtaken. -/
theorem Finds.index_le {k : Nat} (h : it.Finds t k) (hstop : stop.Stands t)
    (hk : k ≤ stop.index) : it.index ≤ stop.index := by
  by_contra hlt
  have hle := h.stands.index_le
  have hmask : stop.index ≤ t.mask := by omega
  exact hstop.bucketNodes_ne_nil hmask (h.skipped stop.index hk (by omega))

theorem advanceLoop_finds {rounds k : Nat} (hrounds : rounds + (k + 1) = t.mask + 1) :
    (advanceLoop t rounds (k + 1) (getBucket k)).Finds t (k + 1) := by
  induction rounds generalizing k with
  | zero =>
    refine ⟨⟨by simp only [advanceLoop]; omega, ?_, ?_⟩, le_rfl, ?_⟩
    · intro hle
      simp only [advanceLoop] at hle
      omega
    · rw [if_neg (by simp only [advanceLoop]; omega)]
      rfl
    · intro j hle hlt
      simp only [advanceLoop] at hlt
      omega
  | succ rounds ih =>
    have hbucket : (if segmentTest t.bits (k + 1) ≠ 0 then
        ((getBucket k).1, (getBucket k).2 + 1) else getBucket (k + 1)) = getBucket (k + 1) := by
      have hmask := t.mask_lt
      split
      case isTrue htest => exact (getBucket_succ (by omega) htest).symm
      case isFalse => rfl
    have hrest := ih (k := k + 1) (by omega)
    simp only [advanceLoop, hbucket]
    split
    case h_1 x rest hnodes =>
      have hnodes' : t.bucketNodes (k + 1) = x :: rest := by
        rw [Table.bucketNodes, hnodes, Option.getD_some]
      refine ⟨⟨by simp only; omega, fun _ => ⟨rfl, cons_ne_nil _ _⟩, ?_⟩, le_rfl, ?_⟩
      · rw [if_pos (by simp only; omega), hnodes']
      · intro j hle hlt
        simp only at hlt
        omega
    case h_2 hinvalid =>
      refine ⟨hrest.stands, le_of_succ_le hrest.le_index, ?_⟩
      intro j hle hlt
      rcases eq_or_lt_of_le hle with rfl | hle
      · rw [Table.bucketNodes]
        match hlist : t.nodeList (getBucket (k + 1)) with
        | none | some [] => rfl
        | some (x :: rest) => exact absurd hlist (hinvalid x rest)
      · exact hrest.skipped j hle hlt

theorem advanceToNextBucket_finds {k : Nat} (hk : k ≤ t.mask) :
    (advanceToNextBucket t k (getBucket k)).Finds t (k + 1) :=
  advanceLoop_finds (by omega)

theorem make_finds {k : Nat} (hk : k ≤ t.mask) :
    (make t k (some (getBucket k)) (t.nodeList (getBucket k))).Finds t k := by
  match hlist : t.nodeList (getBucket k) with
  | some (x :: rest) =>
    refine ⟨⟨le_succ_of_le hk, fun _ => ⟨rfl, cons_ne_nil _ _⟩, ?_⟩, le_rfl, ?_⟩
    · show _ = if k ≤ t.mask then t.bucketNodes k else []
      rw [if_pos hk, Table.bucketNodes, hlist]
      rfl
    · intro j hle hlt
      exact absurd hlt (not_lt.mpr hle)
  | some [] | none =>
    have hfinds := advanceToNextBucket_finds hk
    refine ⟨hfinds.stands, le_of_succ_le hfinds.le_index, ?_⟩
    intro j hle hlt
    rcases eq_or_lt_of_le hle with rfl | hle
    · rw [Table.bucketNodes, hlist]
      rfl
    · exact hfinds.skipped j hle hlt

theorem first_finds : (first t).Finds t 0 := make_finds (zero_le _)

theorem last_stands : (last t).Stands t := by
  refine ⟨le_rfl, fun hle => absurd hle (not_succ_le_self _), ?_⟩
  exact (if_neg (not_succ_le_self t.mask)).symm

theorem Stands.node_eq (h : it.Stands t) (hstop : stop.Stands t)
    (heq : it.index = stop.index) : it.node = stop.node := by
  rw [h.node, hstop.node, heq]

/-- In an empty table an iterator can only be at the end. -/
theorem Stands.mask_lt (h : it.Stands t) (hnodes : t.nodes = []) : t.mask < it.index := by
  by_contra hle
  rw [Nat.not_lt] at hle
  have hnil := (t.between_append (zero_le _) h.index_le).symm.trans hnodes
  have hrest := (append_eq_nil_iff.mp hnil).2
  rw [t.between_succ (by omega)] at hrest
  exact h.bucketNodes_ne_nil hle (append_eq_nil_iff.mp hrest).1

/-- A node of a bucket is not the one that a later iterator is at. -/
theorem Stands.head_ne (hstop : stop.Stands t) {k : Nat} (hk : k < stop.index) {x : ν}
    (hx : x ∈ t.bucketNodes k) : some x ≠ stop.node.head? := by
  intro heq
  by_cases hle : stop.index ≤ t.mask
  · rw [hstop.node, if_pos hle] at heq
    exact t.not_mem_bucketNodes hk hle hx (mem_of_head? heq.symm)
  · rw [hstop.node, if_neg hle] at heq
    cases heq

end Iterator

open Iterator

variable {t : Table ν} {it stop : Iterator ν}

/-- A loop that is inside a bucket goes through the rest of it and then through the
buckets in front of the end. -/
theorem iterate_inside (hstop : stop.Stands t) {fuel k : Nat} {chain : List ν}
    (hk : k < stop.index) (hle : k ≤ t.mask) (hnodes : chain <:+ t.bucketNodes k)
    (hchain : chain ≠ []) (hfuel : (chain ++ t.between (k + 1) stop.index).length ≤ fuel) :
    iterate t fuel ⟨k, some (getBucket k), chain⟩ stop =
      some (chain ++ t.between (k + 1) stop.index) := by
  induction fuel generalizing k chain with
  | zero =>
    rw [le_zero, length_eq_zero_iff, append_eq_nil_iff] at hfuel
    exact absurd hfuel.1 hchain
  | succ fuel ih =>
    match chain with
    | [] => exact absurd rfl hchain
    | x :: rest =>
      have hx : x ∈ t.bucketNodes k := hnodes.subset mem_cons_self
      have hsame : Iterator.same ⟨k, some (getBucket k), x :: rest⟩ stop = false :=
        decide_eq_false (hstop.head_ne hk hx)
      have hlength : (rest ++ t.between (k + 1) stop.index).length ≤ fuel :=
        le_of_succ_le_succ hfuel
      suffices hnext : iterate t fuel (Iterator.next t ⟨k, some (getBucket k), x :: rest⟩) stop =
          some (rest ++ t.between (k + 1) stop.index) by
        rw [iterate, hsame]
        simp [hnext]
      match rest with
      | y :: rest' =>
        exact ih hk hle ((suffix_cons x _).trans hnodes) (cons_ne_nil _ _) hlength
      | [] =>
        have hfinds := advanceToNextBucket_finds hle
        have hindex := hfinds.index_le hstop hk
        show iterate t fuel (advanceToNextBucket t k (getBucket k)) stop = _
        generalize advanceToNextBucket t k (getBucket k) = found at hfinds hindex
        have hskip : t.between (k + 1) stop.index = t.between found.index stop.index := by
          rw [t.between_append hfinds.le_index hindex, t.between_eq_nil hfinds.skipped,
            nil_append]
        rcases eq_or_lt_of_le hindex with heq | hlt
        · have hthere : found.same stop = true := by
            rw [Iterator.same, hfinds.stands.node_eq hstop heq, decide_eq_true_iff]
          have hnil : t.between (k + 1) stop.index = [] := by
            rw [hskip, heq]
            exact t.between_eq_nil fun j h h' => absurd h' (not_lt.mpr h)
          rw [hnil]
          cases fuel <;> simp [iterate, hthere]
        · have hmask : found.index ≤ t.mask := by
            have := hstop.index_le
            omega
          obtain ⟨hbucket, hne⟩ := hfinds.stands.bucket hmask
          have hnode := hfinds.stands.node
          rw [if_pos hmask] at hnode
          have hfound : found = ⟨found.index, some (getBucket found.index), found.node⟩ := by
            rw [← hbucket]
          rw [nil_append, hskip, t.between_succ hlt, ← hnode] at hlength ⊢
          rw [hfound]
          exact ih hlt hmask (hnode ▸ suffix_refl _) hne hlength

/-- A loop from one standing iterator to another goes through the buckets between them. -/
theorem iterate_between (h : it.Stands t) (hstop : stop.Stands t) (hle : it.index ≤ stop.index)
    {fuel : Nat} (hfuel : (t.between it.index stop.index).length ≤ fuel) :
    iterate t fuel it stop = some (t.between it.index stop.index) := by
  rcases eq_or_lt_of_le hle with heq | hlt
  · have hthere : it.same stop = true := by
      rw [Iterator.same, h.node_eq hstop heq, decide_eq_true_iff]
    have hnil : t.between it.index stop.index = [] := by
      rw [heq]
      exact t.between_eq_nil fun j h h' => absurd h' (not_lt.mpr h)
    rw [hnil]
    cases fuel <;> simp [iterate, hthere]
  · have hmask : it.index ≤ t.mask := by
      have := hstop.index_le
      omega
    obtain ⟨hbucket, hne⟩ := h.bucket hmask
    have hnode := h.node
    rw [if_pos hmask] at hnode
    have hit : it = ⟨it.index, some (getBucket it.index), it.node⟩ := by
      rw [← hbucket]
    rw [t.between_succ hlt, ← hnode] at hfuel ⊢
    rw [hit]
    exact iterate_inside hstop hlt hmask (hnode ▸ suffix_refl _) hne hfuel

/-! ## Ranges -/

namespace MapRange

variable {r : MapRange ν}

/-- What holds of every range that splitting makes. -/
structure Ok (t : Table ν) (r : MapRange ν) : Prop where
  grainsize : 0 < r.grainsize
  stands : r.myBegin.Stands t
  ends : r.myEnd.Stands t
  le : r.myBegin.index ≤ r.myEnd.index
  /-- only the range of an empty table is empty -/
  lt : t.nodes ≠ [] → r.myBegin.index < r.myEnd.index
  midpoint : r.myMidpoint = r.midpoint t

theorem Ok.iterate (h : r.Ok t) :
    HashMap.iterate t t.nodes.length r.myBegin r.myEnd =
      some (t.between r.myBegin.index r.myEnd.index) := by
  apply iterate_between h.stands h.ends h.le
  rw [Table.nodes, t.between_append (zero_le _) h.stands.index_le,
    t.between_append h.le h.ends.index_le, length_append, length_append]
  omega

theorem Ok.elems_eq (h : r.Ok t) :
    r.elems t t.nodes.length = t.between r.myBegin.index r.myEnd.index := by
  rw [elems, h.iterate, Option.getD_some]

theorem Ok.elems_ne_nil (h : r.Ok t) (hnodes : t.nodes ≠ []) : r.elems t t.nodes.length ≠ [] := by
  have hlt := h.lt hnodes
  have hmask : r.myBegin.index ≤ t.mask := by
    have := h.ends.index_le
    omega
  rw [h.elems_eq, t.between_succ hlt]
  exact append_ne_nil_of_left_ne_nil (h.stands.bucketNodes_ne_nil hmask) _

theorem Ok.midpoint_inside (h : r.Ok t) (hdiv : r.isDivisible = true) :
    r.myMidpoint.Stands t ∧ r.myBegin.index < r.myMidpoint.index ∧
      r.myMidpoint.index < r.myEnd.index := by
  have hdiff : r.myMidpoint.same r.myEnd = false := by
    simpa [isDivisible] using hdiv
  have hmid := h.midpoint
  unfold MapRange.midpoint at hmid
  split at hmid
  case isTrue hgrain =>
    have hpos := h.grainsize
    have hends := h.ends.index_le
    have hmiddle : r.myBegin.index < r.middle ∧ r.middle < r.myEnd.index := by
      rw [middle]
      omega
    have hfinds : r.myMidpoint.Finds t r.middle := by
      rw [hmid]
      exact make_finds (by omega)
    have hle := hfinds.index_le h.ends (by omega)
    have hlow := hfinds.le_index
    refine ⟨hfinds.stands, by omega, ?_⟩
    rcases eq_or_lt_of_le hle with heq | hlt
    · rw [Iterator.same, hfinds.stands.node_eq h.ends heq, decide_eq_false_iff_not] at hdiff
      exact absurd rfl hdiff
    · exact hlt
  case isFalse =>
    rw [hmid, Iterator.same, decide_eq_false_iff_not] at hdiff
    exact absurd rfl hdiff

theorem Ok.split (h : r.Ok t) (hdiv : r.isDivisible = true) :
    Ok t (r.split t).1 ∧ Ok t (r.split t).2 := by
  obtain ⟨hmid, hlow, hhigh⟩ := h.midpoint_inside hdiv
  have hok : ∀ q : MapRange ν, 0 < q.grainsize → q.myBegin.Stands t → q.myEnd.Stands t →
      q.myBegin.index < q.myEnd.index → Ok t (setMidpoint t q) := by
    intro q hgrain hstands hends hlt
    exact ⟨hgrain, hstands, hends, le_of_lt hlt, fun _ => hlt, rfl⟩
  exact ⟨hok _ h.grainsize h.stands hmid hlow, hok _ h.grainsize hmid h.ends hhigh⟩

theorem Ok.elems_split (h : r.Ok t) (hdiv : r.isDivisible = true) :
    r.elems t t.nodes.length =
      (r.split t).1.elems t t.nodes.length ++ (r.split t).2.elems t t.nodes.length := by
  obtain ⟨-, hlow, hhigh⟩ := h.midpoint_inside hdiv
  obtain ⟨hfirst, hsecond⟩ := h.split hdiv
  rw [h.elems_eq, hfirst.elems_eq, hsecond.elems_eq]
  exact t.between_append (le_of_lt hlow) (le_of_lt hhigh)

omit [DecidableEq ν] in
theorem ok_range {grainsize : Nat} (hgrain : 0 < grainsize) : Ok t (range t grainsize) := by
  have hfirst := Iterator.first_finds (t := t)
  refine ⟨hgrain, hfirst.stands, last_stands, hfirst.stands.index_le, ?_, rfl⟩
  intro hnodes
  rcases eq_or_lt_of_le hfirst.stands.index_le with heq | hlt
  · refine absurd (t.between_eq_nil fun k _ hk => hfirst.skipped k (zero_le _) ?_) hnodes
    omega
  · exact hlt

theorem Ok.empty_iff (h : r.Ok t) : r.empty = true ↔ t.nodes = [] := by
  constructor
  · intro hempty
    by_contra hnodes
    have hlt := h.lt hnodes
    have hmask : r.myBegin.index ≤ t.mask := by
      have := h.ends.index_le
      omega
    obtain ⟨x, rest, hx⟩ := exists_cons_of_ne_nil (h.stands.bucketNodes_ne_nil hmask)
    have hnode := h.stands.node
    rw [if_pos hmask] at hnode
    rw [empty, Iterator.same, decide_eq_true_iff, hnode, hx] at hempty
    exact h.ends.head_ne hlt (by simp [hx]) hempty
  · intro hnodes
    have hbegin := h.stands.mask_lt hnodes
    have hle := h.le
    rw [empty, Iterator.same, h.stands.node, h.ends.node, if_neg (by omega), if_neg (by omega),
      decide_eq_true_iff]

theorem Ok.not_divisible (h : r.Ok t) (hempty : r.empty = true) : r.isDivisible = false := by
  by_contra hdiv
  rw [Bool.not_eq_false] at hdiv
  obtain ⟨hmid, -, hhigh⟩ := h.midpoint_inside hdiv
  have hend := hmid.mask_lt (h.empty_iff.mp hempty)
  have hlast := h.ends.index_le
  omega

end MapRange

/-- The ranges of every tree of splits, in order, go through all nodes of the table,
and none of them is empty unless the table is. -/
theorem mapRange_tiles (t : Table ν) {grainsize : Nat} (hgrain : 0 < grainsize)
    {tree : SplitTree}
    (hvalid : tree.Valid MapRange.isDivisible (MapRange.split t) (MapRange.range t grainsize)) :
    (tree.leaves (MapRange.split t) (MapRange.range t grainsize)).flatMap
        (MapRange.elems t t.nodes.length) = t.nodes ∧
      ∀ part ∈ tree.parts (MapRange.split t) (MapRange.range t grainsize),
        iterate t t.nodes.length part.2.myBegin part.2.myEnd =
            some (part.2.elems t t.nodes.length) ∧
          (part.2.empty = true ↔ t.nodes = []) ∧
          (part.2.empty = true → part.2.isDivisible = false) ∧
          (t.nodes ≠ [] → part.2.elems t t.nodes.length ≠ []) := by
  have hrange := MapRange.ok_range (t := t) hgrain
  constructor
  · rw [SplitTree.flatMap_leaves (fun _ => MapRange.Ok.split) (fun _ => MapRange.Ok.elems_split)
      hrange hvalid, hrange.elems_eq]
    have hfirst := Iterator.first_finds (t := t)
    calc
      t.between (first t).index (t.mask + 1) =
          t.between 0 (first t).index ++ t.between (first t).index (t.mask + 1) := by
        rw [t.between_eq_nil hfirst.skipped, nil_append]
      _ = t.nodes := (t.between_append (zero_le _) hfirst.stands.index_le).symm
  · intro part hmem
    obtain ⟨hok, -⟩ := SplitTree.inv_of_mem_parts (fun _ => MapRange.Ok.split) hrange hvalid hmem
    exact ⟨hok.iterate.trans (congrArg some hok.elems_eq.symm), hok.empty_iff, hok.not_divisible,
      hok.elems_ne_nil⟩

end OneTbb.HashMap
