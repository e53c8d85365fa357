import Mathlib.Data.Rat.Floor
import Std.Data.ExtTreeMap

/-!
The rate limiter: a token bucket for each actor, in exact tokens and seconds. Callers read the clock
before they take the lock, so their instants need not be in order; a bucket goes back to an earlier
instant, and is then refilled for the time in between once more.
-/

namespace Quiver.Server

open Std (ExtTreeMap)

structure RateLimitConfig where
  requestsPerSecond : Nat
  burst : Nat

namespace RateLimitConfig

def enabled (config : RateLimitConfig) : Bool := 0 < config.requestsPerSecond

def capacity (config : RateLimitConfig) : Nat := if 0 < config.burst then config.burst else config.requestsPerSecond

end RateLimitConfig

inductive RateDecision where
  | allowed (limit remaining resetSecs : Nat)
  | limited (retryAfterSecs limit : Nat)
  deriving DecidableEq, Repr

def RateDecision.isAllowed : RateDecision → Bool
  | .allowed .. => true
  | .limited .. => false

/-- The tokens left, and the instant of the last refill. -/
structure Bucket where
  tokens : ℚ
  last : ℚ
  deriving DecidableEq

namespace Bucket

/-- Refill for the elapsed time, capped at the capacity. An instant before the last one gives
nothing. -/
def refill (config : RateLimitConfig) (b : Bucket) (now : ℚ) : Bucket where
  tokens := min (b.tokens + max 0 (now - b.last) * config.requestsPerSecond) config.capacity
  last := now

def consume (config : RateLimitConfig) (b : Bucket) : Bucket × RateDecision :=
  if 1 ≤ b.tokens then
    let left := b.tokens - 1
    ({ b with tokens := left },
      .allowed config.capacity left.floor.toNat ((config.capacity - left) / config.requestsPerSecond).ceil.toNat)
  else (b, .limited (max ((1 - b.tokens) / config.requestsPerSecond).ceil.toNat 1) config.capacity)

end Bucket

structure RateLimiter where
  config : RateLimitConfig
  buckets : ExtTreeMap String Bucket := ∅

namespace RateLimiter

/-- The bucket of an actor; a new one is full. -/
def bucket (rl : RateLimiter) (actor : String) (now : ℚ) : Bucket :=
  (rl.buckets[actor]?).getD ⟨rl.config.capacity, now⟩

def checkAt (rl : RateLimiter) (actor : String) (now : ℚ) : RateLimiter × RateDecision :=
  if rl.config.enabled then
    let (bucket, decision) := ((rl.bucket actor now).refill rl.config now).consume rl.config
    ({ rl with buckets := rl.buckets.insert actor bucket }, decision)
  else (rl, .allowed 0 0 0)

/-- The decisions on an actor's calls among those of all actors, with the instants of the calls. -/
def decisions (rl : RateLimiter) (actor : String) : List (String × ℚ) → List (ℚ × RateDecision)
  | [] => []
  | (who, now) :: calls =>
    let (rl', decision) := rl.checkAt who now
    if who = actor then (now, decision) :: rl'.decisions actor calls else rl'.decisions actor calls

/-- The number of admitted calls of an actor with an instant from `start` to `stop`. -/
def admittedIn (rl : RateLimiter) (actor : String) (calls : List (String × ℚ)) (start stop : ℚ) : Nat :=
  (rl.decisions actor calls).countP fun call => call.2.isAllowed && decide (start ≤ call.1) && decide (call.1 ≤ stop)

end RateLimiter

variable {config : RateLimitConfig} {r r' : RateLimiter} {actor other : String} {now start stop : ℚ}

theorem checkAt_config (r : RateLimiter) (actor : String) (now : ℚ) : (r.checkAt actor now).1.config = r.config := by
  unfold RateLimiter.checkAt
  split <;> rfl

theorem checkAt_other (differ : other ≠ actor) : (r.checkAt other now).1.buckets[actor]? = r.buckets[actor]? := by
  unfold RateLimiter.checkAt
  split
  · simp only [ExtTreeMap.getElem?_insert, Std.compare_eq_iff_eq]
    rw [if_neg differ]
  · rfl

theorem checkAt_congr (now : ℚ) (config : r.config = r'.config) (same : r.buckets[actor]? = r'.buckets[actor]?) :
    (r.checkAt actor now).2 = (r'.checkAt actor now).2 ∧
      (r.checkAt actor now).1.buckets[actor]? = (r'.checkAt actor now).1.buckets[actor]? := by
  unfold RateLimiter.checkAt RateLimiter.bucket
  rw [config, same]
  split
  · simp
  · exact ⟨rfl, same⟩

theorem decisions_isolated (calls : List (String × ℚ)) (sameConfig : r.config = r'.config)
    (same : r.buckets[actor]? = r'.buckets[actor]?) :
    r.decisions actor calls = r'.decisions actor (calls.filter (·.1 = actor)) := by
  induction calls generalizing r r' with
  | nil => rfl
  | cons call calls ih =>
    obtain ⟨who, now⟩ := call
    by_cases mine : who = actor
    · subst mine
      obtain ⟨decision, bucket⟩ := checkAt_congr now sameConfig same
      rw [List.filter_cons_of_pos (by simp)]
      simp only [RateLimiter.decisions, if_true, decision]
      rw [ih ((checkAt_config ..).trans (sameConfig.trans (checkAt_config ..).symm)) bucket]
    · rw [List.filter_cons_of_neg (by simpa using mine)]
      simp only [RateLimiter.decisions, mine, if_false]
      exact ih ((checkAt_config ..).trans sameConfig) ((checkAt_other mine).trans same)

/-- A bucket that admitted `count` calls from `start` to `stop` has had the tokens for them: those it
was full of, and those it was refilled with since. -/
structure Bucket.Spent (config : RateLimitConfig) (start stop : ℚ) (count : Nat) (b : Bucket) : Prop where
  nonneg : 0 ≤ b.tokens
  capped : b.tokens ≤ config.capacity
  before : b.last < start → count = 0
  within : start ≤ b.last → b.last ≤ stop →
    count + b.tokens ≤ config.capacity + config.requestsPerSecond * (b.last - start)
  total : (count : ℚ) ≤ config.capacity + config.requestsPerSecond * (stop - start)

theorem Bucket.spent_full (config : RateLimitConfig) (window : start ≤ stop) (now : ℚ) :
    Spent config start stop 0 ⟨config.capacity, now⟩ := by
  have rate : (0 : ℚ) ≤ config.requestsPerSecond := Nat.cast_nonneg _
  have capacity : (0 : ℚ) ≤ config.capacity := Nat.cast_nonneg _
  refine ⟨capacity, le_refl _, fun _ => rfl, fun after _ => ?_, ?_⟩
  · have refilled := mul_nonneg rate (sub_nonneg.mpr after)
    push_cast
    linarith
  · have refilled := mul_nonneg rate (sub_nonneg.mpr window)
    push_cast
    linarith

theorem Bucket.Spent.refill {b : Bucket} {count : Nat} (spent : b.Spent config start stop count) (later : b.last ≤ now) :
    (b.refill config now).tokens ≤ b.tokens + config.requestsPerSecond * (now - b.last) ∧
      0 ≤ (b.refill config now).tokens ∧ (b.refill config now).tokens ≤ config.capacity := by
  have elapsed : max 0 (now - b.last) = now - b.last := max_eq_right (sub_nonneg.mpr later)
  have gained : 0 ≤ (now - b.last) * (config.requestsPerSecond : ℚ) :=
    mul_nonneg (sub_nonneg.mpr later) (Nat.cast_nonneg _)
  simp only [Bucket.refill, elapsed]
  refine ⟨?_, le_min ?_ (Nat.cast_nonneg _), min_le_right _ _⟩
  · rw [mul_comm (config.requestsPerSecond : ℚ)]
    exact min_le_left _ _
  · linarith [spent.nonneg]

theorem Bucket.Spent.call {b : Bucket} {count : Nat} (spent : b.Spent config start stop count) (later : b.last ≤ now) :
    ((b.refill config now).consume config).1.Spent config start stop (count +
      if ((b.refill config now).consume config).2.isAllowed && decide (start ≤ now) && decide (now ≤ stop) then 1 else 0) ∧
      ((b.refill config now).consume config).1.last = now := by
  obtain ⟨gained, nonneg, capped⟩ := spent.refill later
  have rate : (0 : ℚ) ≤ config.requestsPerSecond := Nat.cast_nonneg _
  -- Before the window nothing was admitted in it, and the tokens are at most a full bucket.
  have inside : start ≤ now → now ≤ stop →
      count + (b.refill config now).tokens ≤ config.capacity + config.requestsPerSecond * (now - start) := by
    intro after before
    by_cases outside : b.last < start
    · have refilled := mul_nonneg rate (sub_nonneg.mpr after)
      rw [spent.before outside]
      push_cast
      linarith
    · have held := spent.within (not_lt.mp outside) (le_trans later before)
      have split : (config.requestsPerSecond : ℚ) * (now - start) =
          config.requestsPerSecond * (now - b.last) + config.requestsPerSecond * (b.last - start) := by ring
      linarith
  have growth : now ≤ stop → (config.requestsPerSecond : ℚ) * (now - start) ≤ config.requestsPerSecond * (stop - start) :=
    fun before => mul_le_mul_of_nonneg_left (by linarith) rate
  have none : now < start → count = 0 := fun outside => spent.before (lt_of_le_of_lt later outside)
  unfold Bucket.consume
  split
  case isTrue enough =>
    refine ⟨⟨?_, ?_, fun outside => ?_, fun after before => ?_, ?_⟩, rfl⟩
    · exact sub_nonneg.mpr enough
    · exact le_trans (sub_le_self _ zero_le_one) capped
    · have outside : now < start := outside
      simp [none outside, not_le.mpr outside]
    · have after : start ≤ now := after
      have before : now ≤ stop := before
      have held := inside after before
      simp only [RateDecision.isAllowed, after, before, decide_true, Bool.and_self, if_true]
      push_cast
      change (count : ℚ) + 1 + ((b.refill config now).tokens - 1) ≤ _ + _ * (now - start)
      linarith
    · by_cases counts : start ≤ now ∧ now ≤ stop
      · have held := inside counts.1 counts.2
        have most := growth counts.2
        simp only [RateDecision.isAllowed, counts.1, counts.2, decide_true, Bool.and_self, if_true]
        push_cast
        linarith
      · have skipped : (decide (start ≤ now) && decide (now ≤ stop)) = false := by simpa using counts
        simpa [RateDecision.isAllowed, skipped] using spent.total
  case isFalse =>
    refine ⟨⟨nonneg, capped, fun outside => ?_, fun after before => ?_, ?_⟩, rfl⟩
    · simpa [RateDecision.isAllowed] using none outside
    · have held := inside after before
      simpa [RateDecision.isAllowed, Bucket.refill] using held
    · simpa [RateDecision.isAllowed] using spent.total

theorem admitted_in_order (r : RateLimiter) (actor : String) (count : Nat) (enabled : r.config.enabled = true)
    {instants : List ℚ} (inOrder : instants.Pairwise (· ≤ ·))
    (spent : ∀ now, (r.bucket actor now).Spent r.config start stop count)
    (later : ∀ b, r.buckets[actor]? = some b → ∀ now ∈ instants, b.last ≤ now) :
    ((count + r.admittedIn actor (instants.map fun now => (actor, now)) start stop : Nat) : ℚ) ≤
      r.config.capacity + r.config.requestsPerSecond * (stop - start) := by
  induction instants generalizing r count with
  | nil => exact (spent 0).total
  | cons now instants ih =>
    obtain ⟨first, rest⟩ := List.pairwise_cons.mp inOrder
    have notBefore : (r.bucket actor now).last ≤ now := by
      unfold RateLimiter.bucket
      cases found : r.buckets[actor]? with
      | none => exact le_refl now
      | some b => exact later b found now (List.mem_cons_self ..)
    obtain ⟨after, isNow⟩ := (spent now).call notBefore
    have checked : r.checkAt actor now =
        let out := ((r.bucket actor now).refill r.config now).consume r.config
        ({ r with buckets := r.buckets.insert actor out.1 }, out.2) := by
      unfold RateLimiter.checkAt
      rw [if_pos enabled]
    generalize ((r.bucket actor now).refill r.config now).consume r.config = out at after isNow checked
    have held := ih { r with buckets := r.buckets.insert actor out.1 } _ enabled rest
      (fun instant => by simpa [RateLimiter.bucket] using after) fun b found instant member => by
        simp only [ExtTreeMap.getElem?_insert_self, Option.some.injEq] at found
        rw [← found, isNow]
        exact first instant member
    refine le_trans (le_of_eq (congrArg Nat.cast ?_)) held
    simp only [RateLimiter.admittedIn, List.map_cons, RateLimiter.decisions, if_true, checked, List.countP_cons,
      Bool.and_eq_true, decide_eq_true_eq]
    omega

theorem filter_eq_map (actor : String) (calls : List (String × ℚ)) :
    calls.filter (·.1 = actor) = ((calls.filter (·.1 = actor)).map Prod.snd).map fun now => (actor, now) := by
  have each : (calls.filter (·.1 = actor)).map ((fun now => (actor, now)) ∘ Prod.snd) =
      (calls.filter (·.1 = actor)).map id := by
    refine List.map_congr_left fun call member => ?_
    have mine : call.1 = actor := by simpa using (List.mem_filter.mp member).2
    rw [← mine]
    rfl
  rw [List.map_map, each, List.map_id]

/-- What is decided on an actor's calls does not depend on the calls of others; and if the instants of
its own come in order, at most a full bucket and the refill of a window are admitted in the window. -/
theorem rate_limit_bound (config : RateLimitConfig) (enabled : config.enabled = true) (actor : String)
    (calls : List (String × ℚ)) :
    (RateLimiter.mk config ∅).decisions actor calls =
        (RateLimiter.mk config ∅).decisions actor (calls.filter (·.1 = actor)) ∧
      (((calls.filter (·.1 = actor)).map Prod.snd).Pairwise (· ≤ ·) → ∀ start length : ℚ, 0 ≤ length →
        ((RateLimiter.mk config ∅).admittedIn actor calls start (start + length) : ℚ) ≤
          config.capacity + config.requestsPerSecond * length) := by
  have isolated : (RateLimiter.mk config ∅).decisions actor calls = _ := decisions_isolated calls rfl rfl
  refine ⟨isolated, fun inOrder start length nonneg => ?_⟩
  have window : start ≤ start + length := le_add_of_nonneg_right nonneg
  have bound := admitted_in_order ⟨config, ∅⟩ actor 0 enabled inOrder
    (fun now => Bucket.spent_full config window now) fun b found => by simp at found
  rw [← filter_eq_map, Nat.zero_add, add_sub_cancel_left] at bound
  unfold RateLimiter.admittedIn at bound ⊢
  rw [isolated]
  exact bound

def onePerSecond : RateLimitConfig := ⟨1, 1⟩

theorem rate_limit_bound_one : onePerSecond.enabled = true ∧
    ([(0 : ℚ), 0, 1] : List ℚ).Pairwise (· ≤ ·) ∧
    ((RateLimiter.mk onePerSecond ∅).admittedIn "a" [("a", 0), ("b", 5), ("a", 0), ("a", 1)] 0 (0 + 1) : ℚ) ≤
      onePerSecond.capacity + onePerSecond.requestsPerSecond * 1 := by
  have inOrder : ([(0 : ℚ), 0, 1] : List ℚ).Pairwise (· ≤ ·) := by decide +kernel
  exact ⟨rfl, inOrder, (rate_limit_bound onePerSecond rfl "a" [("a", 0), ("b", 5), ("a", 0), ("a", 1)]).2
    inOrder 0 1 zero_le_one⟩

/-- A call that read the clock first and gets the lock second sets the bucket back by ten seconds. The
next call is refilled for them again: two are admitted at one instant, with a capacity of one. -/
theorem late_call_refills_twice :
    ¬ ((RateLimiter.mk onePerSecond ∅).admittedIn "a" [("a", 10), ("a", 0), ("a", 10)] 10 (10 + 0) : ℚ) ≤
      onePerSecond.capacity + onePerSecond.requestsPerSecond * 0 := by
  decide +kernel

end Quiver.Server
