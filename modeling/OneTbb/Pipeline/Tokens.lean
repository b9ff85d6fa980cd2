import OneTbb.Pipeline.Places
import Mathlib.Data.Finset.Card

/-!
# The live tokens of a pipeline

`input_tokens` counts the idle tokens modulo the number of tokens. It adds up
with the tokens in use to `max_token`, and at most one stage task is between
taking an idle token and passing on the right to take the next one. Both facts
together bound the number of items in the pipeline, which keeps wrapped token
numbers apart, and make the calls of a serial first filter exclusive.
-/

namespace OneTbb.Pipeline

open List Function StageTask

/-- `t` idle tokens, `H` held ones, `A` tasks about to take a token and `P`
tasks that have produced an item but not taken its token, out of `K`. A
multiple of the number of tokens `W` behaves as if it was one. -/
structure Account (W K t H A P : Nat) : Prop where
  lt : t < W
  one : A + P ≤ 1
  cap : H + A ≤ max K 1
  sum : t + H = K + P ∨ K = 0 ∧ t + H = W + P

variable {W K t H A P : Nat}

theorem takeToken_cases (ht : t < W) :
    0 < t ∧ (t + W - 1) % W = t - 1 ∨ t = 0 ∧ (t + W - 1) % W = W - 1 := by
  rcases Nat.eq_zero_or_pos t with rfl | hpos
  · exact .inr ⟨rfl, by rw [zero_add, Nat.mod_eq_of_lt (by omega)]⟩
  · refine .inl ⟨hpos, ?_⟩
    rw [show t + W - 1 = t - 1 + W by omega, Nat.add_mod_right, Nat.mod_eq_of_lt (by omega)]

theorem returnToken_cases (ht : t < W) :
    t + 1 < W ∧ (t + 1) % W = t + 1 ∨ t + 1 = W ∧ (t + 1) % W = 0 := by
  rcases lt_or_ge (t + 1) W with hlt | hge
  · exact .inl ⟨hlt, Nat.mod_eq_of_lt hlt⟩
  · obtain rfl : W = t + 1 := by omega
    exact .inr ⟨rfl, Nat.mod_self _⟩

theorem account_initial (hW : 0 < W) (n : Nat) : Account W (n % W) (n % W) 0 1 0 := by
  have := Nat.mod_lt n hW
  exact ⟨this, le_rfl, by omega, .inl rfl⟩

/-- A serial first filter takes the token of the item it has produced. -/
theorem Account.takeSerial (h : Account W K t H A 1) :
    Account W K ((t + W - 1) % W) H (A + if 1 < t then 1 else 0) 0 := by
  obtain ⟨hlt, hone, hcap, hsum⟩ := h
  rcases takeToken_cases hlt with ⟨h₁, h₂⟩ | ⟨h₁, h₂⟩ <;> rw [h₂] <;>
    exact ⟨by omega, by split <;> omega, by split <;> omega, by omega⟩

/-- A parallel first filter takes a token before it is called. -/
theorem Account.takeParallel (h : Account W K t H (A + 1) P) :
    Account W K ((t + W - 1) % W) (H + 1) (A + if 1 < t then 1 else 0) P := by
  obtain ⟨hlt, hone, hcap, hsum⟩ := h
  rcases takeToken_cases hlt with ⟨h₁, h₂⟩ | ⟨h₁, h₂⟩ <;> rw [h₂] <;>
    exact ⟨by omega, by split <;> omega, by split <;> omega, by omega⟩

theorem Account.giveBack (h : Account W K t (H + 1) A P) (hK : K < W) (hP : P ≤ H) :
    Account W K ((t + 1) % W) H (A + if t = 0 then 1 else 0) P := by
  obtain ⟨hlt, hone, hcap, hsum⟩ := h
  rcases returnToken_cases hlt with ⟨h₁, h₂⟩ | ⟨h₁, h₂⟩ <;> rw [h₂] <;>
    exact ⟨by omega, by split <;> omega, by split <;> omega, by omega⟩

theorem Account.produce (h : Account W K t H (A + 1) P) :
    Account W K t (H + 1) A (P + 1) := by
  obtain ⟨hlt, hone, hcap, hsum⟩ := h
  exact ⟨hlt, by omega, by omega, by omega⟩

theorem Account.stop (h : Account W K t H (A + 1) P) : Account W K t H A P := by
  obtain ⟨hlt, hone, hcap, hsum⟩ := h
  exact ⟨hlt, by omega, by omega, hsum⟩

theorem Account.congr {H' A' P' : Nat} (h : Account W K t H A P) (hH : H' = H) (hA : A' = A)
    (hP : P' = P) : Account W K t H' A' P' := by
  rwa [hH, hA, hP]

/-- Tasks that may still take a token. -/
def StageTask.isIdle (c : Chain) : StageTask → Bool
  | .input | .spawning | .recycling => true
  | .reading => c.isSerial 0
  | _ => false

/-- Tasks that hold a token for the item they are about to produce. -/
def StageTask.isReader (c : Chain) : StageTask → Bool
  | .reading => !c.isSerial 0
  | _ => false

def StageTask.isProduced : StageTask → Bool
  | .produced _ => true
  | _ => false

/-- The accounting of a state. `lost` tokens were taken by calls of a parallel
first filter that reported the end of the input. -/
structure Tokens (c : Chain) (g : Ghost) (s : State) (live : Finset Nat) (lost : Nat) :
    Prop where
  live_iff : ∀ k, k ∈ live ↔ (g.place k).isLive = true
  account : Account c.tokens (c.maxToken % c.tokens) s.inputTokens
    (live.card + s.tasks.countP (isReader c) + lost)
    (s.tasks.countP (isIdle c)) (s.tasks.countP isProduced)
  spawning : ∀ t ∈ s.tasks, t = .spawning → c.isSerial 0 = false

variable {c : Chain} {s s' : State} {g g' : Ghost} {xs ys ts : List StageTask} {t : StageTask}
  {live : Finset Nat} {lost : Nat}

theorem tokens_pos (c : Chain) : 1 < c.tokens :=
  Nat.one_lt_two_pow (by have := c.tokenBits_ge; omega)

/-- Fewer items are in the pipeline than there are tokens. -/
theorem Tokens.card_lt (h : Tokens c g s live lost) : live.card < c.tokens := by
  have hcap := h.account.cap
  have hW := tokens_pos c
  have hK := Nat.mod_lt c.maxToken (lt_trans Nat.zero_lt_one hW)
  omega

theorem Tokens.reading_le_one (h : Tokens c g s live lost) (hs : c.isSerial 0 = true) :
    s.tasks.countP (· matches .reading) ≤ 1 := by
  refine le_trans (countP_mono_left fun t _ ht => ?_)
    (le_trans (Nat.le_add_right _ _) h.account.one)
  cases t <;> simp_all [isIdle]

/-! ## Counting tasks -/

theorem countP_around (p : StageTask → Bool) (xs ts ys : List StageTask) :
    (xs ++ ts ++ ys).countP p = (xs ++ ys).countP p + ts.countP p := by
  simp only [countP_append]
  omega

theorem countP_around_one (p : StageTask → Bool) (xs : List StageTask) (t : StageTask)
    (ys : List StageTask) :
    (xs ++ t :: ys).countP p = (xs ++ ys).countP p + [t].countP p := by
  have := countP_around p xs [t] ys
  simpa using this

theorem spawned_countP_idle (c : Chain) (s : State) :
    s.spawned.countP (isIdle c) = if 1 < s.inputTokens then 1 else 0 := by
  unfold State.spawned
  split <;> rfl

theorem spawned_info (s : State) : ∀ u ∈ s.spawned, u.info = none := by
  unfold State.spawned
  split <;> simp [info]

/-- Replacing a task by tasks that count the same. -/
theorem Tokens.retask (h : Tokens c g s live lost) (ht : s.tasks = xs ++ t :: ys)
    (ht' : s'.tasks = xs ++ ts ++ ys) (hin : s'.inputTokens = s.inputTokens)
    (hR : ts.countP (isReader c) = [t].countP (isReader c))
    (hI : ts.countP (isIdle c) = [t].countP (isIdle c))
    (hP : ts.countP isProduced = [t].countP isProduced)
    (hsp : ∀ u ∈ ts, u = .spawning → c.isSerial 0 = false)
    (hlive : ∀ k, (g'.place k).isLive = (g.place k).isLive) : Tokens c g' s' live lost where
  live_iff := fun k => by
    rw [hlive]
    exact h.live_iff k
  account := by
    have ha := h.account
    rw [ht, countP_around_one, countP_around_one, countP_around_one] at ha
    rw [ht', hin, countP_around, countP_around, countP_around, hR, hI, hP]
    exact ha
  spawning := by
    intro u hu hus
    rw [ht'] at hu
    simp only [mem_append] at hu
    rcases hu with (hu | hu) | hu
    · exact h.spawning u (by rw [ht]; simp [hu]) hus
    · exact hsp u hu hus
    · exact h.spawning u (by rw [ht]; simp [hu]) hus

theorem Tokens.spawning_of (h : Tokens c g s live lost) (ht : s.tasks = xs ++ t :: ys)
    (hsp : ∀ u ∈ ts, u ≠ .spawning) :
    ∀ u ∈ xs ++ ts ++ ys, u = .spawning → c.isSerial 0 = false := by
  intro u hu hus
  simp only [mem_append] at hu
  rcases hu with (hu | hu) | hu
  · exact h.spawning u (by rw [ht]; simp [hu]) hus
  · exact absurd hus (hsp u hu)
  · exact h.spawning u (by rw [ht]; simp [hu]) hus

theorem spawned_ne_spawning (s : State) : ∀ u ∈ s.spawned, u ≠ .spawning := by
  unfold State.spawned
  split <;> simp

/-! ## Tasks without an item -/

/-- An idle task that ends gives up its right to a token. -/
theorem Tokens.stop (h : Tokens c g s live lost) (ht : s.tasks = xs ++ t :: ys)
    (ht' : s'.tasks = xs ++ ys) (hin : s'.inputTokens = s.inputTokens)
    (hidle : t.isIdle c = true) (hreader : t.isReader c = false)
    (hprod : t.isProduced = false) : Tokens c g s' live lost where
  live_iff := h.live_iff
  account := by
    have ha := h.account
    rw [ht, countP_around_one, countP_around_one, countP_around_one] at ha
    simp only [countP_cons, countP_nil, hidle, hreader, hprod] at ha
    rw [ht', hin]
    simpa using ha.stop
  spawning := by
    have := h.spawning_of ht (show ∀ u ∈ ([] : List StageTask), u ≠ .spawning by simp)
    rw [ht']
    simpa using this

theorem spawned_countP_other (c : Chain) (s : State) :
    s.spawned.countP (isReader c) = 0 ∧ s.spawned.countP isProduced = 0 := by
  unfold State.spawned
  split <;> exact ⟨rfl, rfl⟩

theorem Tokens.takeParallel (h : Tokens c g s live lost) (ht : s.tasks = xs ++ .spawning :: ys)
    (ht' : s'.tasks = xs ++ (.reading :: s.spawned) ++ ys)
    (hin : s'.inputTokens = s.takeToken c) : Tokens c g s' live lost where
  live_iff := h.live_iff
  account := by
    have hpar := h.spawning .spawning (by rw [ht]; simp) rfl
    obtain ⟨hr, hp⟩ := spawned_countP_other c s
    have ha := h.account
    rw [ht, countP_around_one, countP_around_one, countP_around_one] at ha
    rw [ht', hin, countP_around, countP_around, countP_around]
    refine ha.takeParallel.congr ?_ ?_ ?_ <;>
      simp [isReader, isIdle, isProduced, hpar,
        spawned_countP_idle, hr, hp]
    omega
  spawning := by
    rw [ht']
    exact h.spawning_of ht fun u hu => by
      rcases mem_cons.mp hu with rfl | hu
      · simp
      · exact spawned_ne_spawning s u hu

theorem Tokens.endInput (h : Tokens c g s live lost) (ht : s.tasks = xs ++ .reading :: ys)
    (ht' : s'.tasks = xs ++ ys) (hin : s'.inputTokens = s.inputTokens) :
    ∃ lost', Tokens c g s' live lost' := by
  cases hs : c.isSerial 0 with
  | true =>
    exact ⟨lost, h.stop ht ht' hin (by simp [isIdle, hs])
      (by simp [isReader, hs]) rfl⟩
  | false =>
    refine ⟨lost + 1, h.live_iff, ?_, ?_⟩
    · have ha := h.account
      rw [ht, countP_around_one, countP_around_one, countP_around_one] at ha
      rw [ht', hin]
      refine ha.congr ?_ ?_ ?_ <;>
        simp [isReader, isIdle, isProduced, hs]
      omega
    · have := h.spawning_of ht (show ∀ u ∈ ([] : List StageTask), u ≠ .spawning by simp)
      rw [ht']
      simpa using this

/-! ## Items that take and return tokens -/

section Items

variable {k : Nat} {p : Place} {info : TaskInfo}

section

variable (h : Tokens c g s live lost)
include h

theorem Tokens.live_insert
    (hplace : g'.place = update g.place k p) (hp : p.isLive = true) (x : Nat) :
    x ∈ insert k live ↔ (g'.place x).isLive = true := by
  by_cases hx : x = k
  · subst hx
    simp [hplace, hp]
  · rw [hplace, update_of_ne hx, ← h.live_iff x]
    simp [hx]

theorem Tokens.live_erase
    (hplace : g'.place = update g.place k p) (hp : p.isLive = false) (x : Nat) :
    x ∈ live.erase k ↔ (g'.place x).isLive = true := by
  by_cases hx : x = k
  · subst hx
    simp [hplace, hp]
  · rw [hplace, update_of_ne hx, ← h.live_iff x]
    simp [hx]

theorem Tokens.card_insert (hk : g.place k = .unborn) :
    (insert k live).card = live.card + 1 := by
  refine Finset.card_insert_of_notMem fun hmem => ?_
  have := (h.live_iff k).mp hmem
  rw [hk] at this
  cases this

theorem Tokens.card_erase (hk : (g.place k).isLive = true) :
    live.card = (live.erase k).card + 1 :=
  (Finset.card_erase_add_one ((h.live_iff k).mpr hk)).symm

theorem Tokens.readSerial (ht : s.tasks = xs ++ .reading :: ys)
    (hs : c.isSerial 0 = true) (ht' : s'.tasks = xs ++ [.produced info] ++ ys)
    (hin : s'.inputTokens = s.inputTokens) (hk : g.place k = .unborn)
    (hplace : g'.place = update g.place k p) (hp : p.isLive = true) :
    Tokens c g' s' (insert k live) lost where
  live_iff := h.live_insert hplace hp
  account := by
    have ha := h.account
    rw [ht, countP_around_one, countP_around_one, countP_around_one] at ha
    simp only [countP_cons, countP_nil, isIdle, hs, if_true] at ha
    rw [ht', hin, countP_around, countP_around, countP_around, h.card_insert hk]
    refine ha.produce.congr ?_ ?_ ?_ <;>
      simp [isReader, isIdle, isProduced, hs]
    omega
  spawning := by
    rw [ht']
    exact h.spawning_of ht (by simp)

/-- A parallel first filter produces the item whose token was taken before. -/
theorem Tokens.readParallel {n : Nat} (ht : s.tasks = xs ++ .reading :: ys)
    (hs : c.isSerial 0 = false) (ht' : s'.tasks = xs ++ [.entering n info] ++ ys)
    (hin : s'.inputTokens = s.inputTokens) (hk : g.place k = .unborn)
    (hplace : g'.place = update g.place k p) (hp : p.isLive = true) :
    Tokens c g' s' (insert k live) lost where
  live_iff := h.live_insert hplace hp
  account := by
    have ha := h.account
    rw [ht, countP_around_one, countP_around_one, countP_around_one] at ha
    rw [ht', hin, countP_around, countP_around, countP_around, h.card_insert hk]
    refine ha.congr ?_ ?_ ?_ <;>
      simp [isReader, isIdle, isProduced, hs]
    omega
  spawning := by
    rw [ht']
    exact h.spawning_of ht (by simp)

theorem Tokens.takeSerial {n : Nat} (ht : s.tasks = xs ++ .produced info :: ys)
    (ht' : s'.tasks = xs ++ (.entering n info :: s.spawned) ++ ys)
    (hin : s'.inputTokens = s.takeToken c)
    (hlive : ∀ k, (g'.place k).isLive = (g.place k).isLive) : Tokens c g' s' live lost where
  live_iff := fun k => by
    rw [hlive]
    exact h.live_iff k
  account := by
    obtain ⟨hr, hp⟩ := spawned_countP_other c s
    have ha := h.account
    rw [ht, countP_around_one, countP_around_one, countP_around_one] at ha
    have hnone : (xs ++ ys).countP isProduced = 0 := by
      have := ha.one
      simp only [countP_cons, countP_nil, isProduced, if_true] at this
      omega
    simp only [hnone, countP_cons, countP_nil, isProduced, if_true] at ha
    rw [ht', hin, countP_around, countP_around, countP_around, hnone]
    refine ha.takeSerial.congr ?_ ?_ ?_ <;>
      simp [isReader, isIdle, isProduced,
        spawned_countP_idle, hr, hp]
  spawning := by
    rw [ht']
    exact h.spawning_of ht fun u hu => by
      rcases mem_cons.mp hu with rfl | hu
      · simp
      · exact spawned_ne_spawning s u hu

theorem Tokens.giveBack {n : Nat}
    (ht : s.tasks = xs ++ .entering n info :: ys) (ht' : s'.tasks = xs ++ ts ++ ys)
    (hin : s'.inputTokens = s.returnToken c)
    (hts : ts = if s.inputTokens = 0 then [.recycling] else [])
    (hk : (g.place k).isLive = true) (hplace : g'.place = update g.place k p)
    (hp : p.isLive = false)
    (hprod : s.tasks.countP isProduced ≤ (live.erase k).card) :
    Tokens c g' s' (live.erase k) lost where
  live_iff := h.live_erase hplace hp
  account := by
    have ha := h.account
    rw [ht, countP_around_one] at hprod
    rw [ht, countP_around_one, countP_around_one, countP_around_one, h.card_erase hk] at ha
    simp only [countP_cons, countP_nil, isReader, isIdle,
      isProduced, Bool.false_eq_true, if_false, add_zero] at ha hprod
    rw [Nat.add_right_comm _ 1, Nat.add_right_comm _ 1] at ha
    have hK := Nat.mod_lt c.maxToken (lt_trans Nat.zero_lt_one (tokens_pos c))
    rw [ht', hin, countP_around, countP_around, countP_around]
    refine (ha.giveBack hK (by omega)).congr ?_ ?_ ?_ <;> subst hts <;> split <;>
      simp [isReader, isIdle, isProduced]
  spawning := by
    rw [ht']
    refine h.spawning_of ht ?_
    subst hts
    split <;> simp

end

end Items

end OneTbb.Pipeline
