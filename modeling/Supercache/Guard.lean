import Supercache.Schedule
import Mathlib.Data.Rat.Floor
import Mathlib.Tactic.Linarith
import Mathlib.Tactic.Positivity
import Mathlib.Tactic.FieldSimp

/-!
The guard in front of a data source: a circuit breaker and a rate limit. A
breaker that has been open long enough becomes half-open and admits one trial;
the outcome of the trial, or of any load still under way, closes or reopens it.
Times are in nanoseconds and tokens are exact numbers.
-/
namespace Supercache

structure GuardConfig where
  /-- Permits per second, no limit when zero or less. -/
  rateLimitRPS : ℚ
  burst : ℤ
  /-- No breaker when zero or less. -/
  failureThreshold : ℤ
  openTimeout : ℤ

inductive BreakerState where
  | stateClosed
  | stateOpen
  | stateHalfOpen
deriving DecidableEq

inductive GuardError where
  | contextDone
  | rateLimited
  | circuitOpen
deriving DecidableEq

structure Guard where
  cfg : GuardConfig
  tokens : ℚ
  lastRefill : ℤ
  consecutiveFails : ℕ
  state : BreakerState
  openedAt : ℤ
  probeInFlight : Bool
  limited : ℕ
  opens : ℕ

namespace Guard

open BreakerState

def new (cfg : GuardConfig) (now : ℤ) : Guard where
  cfg := { cfg with openTimeout := if cfg.openTimeout ≤ 0 then 30000000000 else cfg.openTimeout }
  tokens :=
    if 0 < cfg.rateLimitRPS then
      if cfg.burst ≤ 0 then
        -- a conversion to int drops the fraction
        if ⌊cfg.rateLimitRPS⌋ < 1 then 1 else ⌊cfg.rateLimitRPS⌋
      else cfg.burst
    else 0
  lastRefill := now
  consecutiveFails := 0
  state := stateClosed
  openedAt := 0
  probeInFlight := false
  limited := 0
  opens := 0

def checkBreaker (now : ℤ) (g : Guard) : Guard × Option GuardError :=
  if g.cfg.failureThreshold ≤ 0 then (g, none)
  else
    match g.state with
    | stateClosed => (g, none)
    | stateOpen =>
      if now - g.openedAt < g.cfg.openTimeout then (g, some .circuitOpen)
      else ({ g with state := stateHalfOpen, probeInFlight := true }, none)
    | stateHalfOpen =>
      if g.probeInFlight then (g, some .circuitOpen) else ({ g with probeInFlight := true }, none)

def capacity (cfg : GuardConfig) : ℚ :=
  if cfg.burst ≤ 0 then if cfg.rateLimitRPS < 1 then 1 else cfg.rateLimitRPS else cfg.burst

def refilled (g : Guard) (now : ℤ) : ℚ :=
  let tokens := g.tokens + ((now - g.lastRefill : ℤ) : ℚ) / 1000000000 * g.cfg.rateLimitRPS
  if capacity g.cfg < tokens then capacity g.cfg else tokens

def takeToken (now : ℤ) (g : Guard) : Guard × Option GuardError :=
  if g.cfg.rateLimitRPS ≤ 0 then (g, none)
  else if g.refilled now < 1 then
    ({ g with lastRefill := now, tokens := g.refilled now }, some .rateLimited)
  else ({ g with lastRefill := now, tokens := g.refilled now - 1 }, none)

def releaseProbeSlot (g : Guard) : Guard :=
  if g.cfg.failureThreshold ≤ 0 then g
  else if g.state = stateHalfOpen then { g with probeInFlight := false }
  else g

def rejected (g : Guard) : Guard := { g with limited := g.limited + 1 }.releaseProbeSlot

def allow (now : ℤ) (g : Guard) : Guard × Option GuardError :=
  match g.checkBreaker now with
  | (g, some err) => (g, some err)
  | (g, none) =>
    match g.takeToken now with
    | (g, some err) => (g.rejected, some err)
    | (g, none) => (g, none)

def allowContext (now : ℤ) (done : Bool) (g : Guard) : Guard × Option GuardError :=
  if done then (g, some .contextDone) else g.allow now

def onSuccess (g : Guard) : Guard :=
  if g.cfg.failureThreshold ≤ 0 then g
  else { g with consecutiveFails := 0, probeInFlight := false, state := stateClosed }

def onFailure (now : ℤ) (g : Guard) : Guard :=
  if g.cfg.failureThreshold ≤ 0 then g
  else
    let fails := g.consecutiveFails + 1
    let g' := { g with consecutiveFails := fails, probeInFlight := false }
    if g.state = stateHalfOpen ∨ g.cfg.failureThreshold ≤ fails then
      { g' with state := stateOpen, openedAt := now, opens := g.opens + 1 }
    else g'

section Steps

variable (now : ℤ) (g : Guard)

/-- A token leaves the breaker alone. -/
theorem takeToken_breaker : (g.takeToken now).1.state = g.state ∧
    (g.takeToken now).1.probeInFlight = g.probeInFlight ∧ (g.takeToken now).1.cfg = g.cfg := by
  unfold takeToken
  split
  · exact ⟨rfl, rfl, rfl⟩
  · split <;> exact ⟨rfl, rfl, rfl⟩

theorem rejected_breaker : g.rejected.state = g.state ∧ g.rejected.cfg = g.cfg ∧
    (0 < g.cfg.failureThreshold → g.state = stateHalfOpen → g.rejected.probeInFlight = false) := by
  unfold rejected releaseProbeSlot
  by_cases hoff : g.cfg.failureThreshold ≤ 0
  · rw [if_pos hoff]
    exact ⟨rfl, rfl, fun hon => absurd hoff (not_le.mpr hon)⟩
  · rw [if_neg hoff]
    by_cases htrial : g.state = stateHalfOpen
    · rw [if_pos htrial]
      exact ⟨rfl, rfl, fun _ _ => rfl⟩
    · rw [if_neg htrial]
      exact ⟨rfl, rfl, fun _ hhalf => absurd hhalf htrial⟩

/-- All that a check of the breaker can do. -/
theorem checkBreaker_cases : ((g.checkBreaker now).1 = g ∧
      ((g.checkBreaker now).2 = none → g.state = stateHalfOpen → g.cfg.failureThreshold ≤ 0)) ∨
    ((g.checkBreaker now).2 = none ∧
      (g.checkBreaker now).1 = { g with state := stateHalfOpen, probeInFlight := true } ∧
      (g.state = stateHalfOpen → g.probeInFlight = false)) := by
  unfold checkBreaker
  by_cases hoff : g.cfg.failureThreshold ≤ 0
  · rw [if_pos hoff]
    exact Or.inl ⟨rfl, fun _ _ => hoff⟩
  · rw [if_neg hoff]
    cases hstate : g.state with
    | stateClosed => exact Or.inl ⟨rfl, fun _ h => by simp at h⟩
    | stateOpen =>
      simp only
      split
      · exact Or.inl ⟨rfl, fun h _ => by simp at h⟩
      · exact Or.inr ⟨rfl, rfl, fun h => by simp at h⟩
    | stateHalfOpen =>
      simp only
      by_cases hprobe : g.probeInFlight
      · rw [if_pos hprobe]
        exact Or.inl ⟨rfl, fun h _ => by simp at h⟩
      · rw [if_neg hprobe]
        refine Or.inr ⟨rfl, ?_, fun _ => Bool.eq_false_iff.mpr hprobe⟩
        rw [← hstate]

/-- An outcome ends a half-open period. -/
theorem onSuccess_breaker (h : 0 < g.cfg.failureThreshold) :
    g.onSuccess.state ≠ stateHalfOpen ∧ g.onSuccess.cfg = g.cfg := by
  simp [onSuccess, not_le.mpr h]

theorem onFailure_breaker (h : 0 < g.cfg.failureThreshold) :
    (g.onFailure now).state ≠ stateHalfOpen ∧ (g.onFailure now).cfg = g.cfg := by
  unfold onFailure
  rw [if_neg (not_le.mpr h)]
  simp only
  split
  · simp
  next hstay =>
    exact ⟨fun hhalf => hstay (Or.inl hhalf), rfl⟩

end Steps

section Allow

variable (now : ℤ) (g : Guard)

def probing (g : Guard) : Prop := g.state = stateHalfOpen ∧ g.probeInFlight = true

def takesSlot (g : Guard) (now : ℤ) : Prop :=
  0 < g.cfg.failureThreshold ∧
    (g.state = stateOpen ∧ g.cfg.openTimeout ≤ now - g.openedAt ∨
      g.state = stateHalfOpen ∧ g.probeInFlight = false)

/-- The breaker lets a caller through. -/
def passes (g : Guard) (now : ℤ) : Prop :=
  g.cfg.failureThreshold ≤ 0 ∨ g.state = stateClosed ∨ g.takesSlot now

def hasToken (g : Guard) (now : ℤ) : Prop := g.cfg.rateLimitRPS ≤ 0 ∨ 1 ≤ g.refilled now

instance : Decidable g.probing := inferInstanceAs (Decidable (_ ∧ _))

instance : Decidable (g.takesSlot now) := inferInstanceAs (Decidable (_ ∧ _))

instance : Decidable (g.passes now) := inferInstanceAs (Decidable (_ ∨ _))

instance : Decidable (g.hasToken now) := inferInstanceAs (Decidable (_ ∨ _))

theorem checkBreaker_ok : (g.checkBreaker now).2 = none ↔ g.passes now := by
  unfold checkBreaker passes takesSlot
  by_cases hoff : g.cfg.failureThreshold ≤ 0
  · simp [hoff]
  · rw [if_neg hoff]
    cases hstate : g.state with
    | stateClosed => simp
    | stateOpen =>
      simp only
      split
      · simp only [reduceCtorEq, false_iff, false_or, true_and, false_and, or_false]
        omega
      · simp
        omega
    | stateHalfOpen =>
      simp only
      split
      · simp_all
      · simp_all

/-- A trial is under way after the check if it began there or before. -/
theorem probing_checkBreaker : (g.checkBreaker now).1.probing ↔ g.takesSlot now ∨ g.probing := by
  unfold checkBreaker takesSlot probing
  by_cases hoff : g.cfg.failureThreshold ≤ 0
  · simp [hoff, not_lt.mpr hoff]
  · rw [if_neg hoff]
    cases hstate : g.state with
    | stateClosed => simp [hstate]
    | stateOpen =>
      simp only
      split
      · simp [hstate]
        omega
      · simp
        omega
    | stateHalfOpen =>
      simp only
      split
      · simp_all
      · simp_all

theorem takeToken_ok : (g.takeToken now).2 = none ↔ g.hasToken now := by
  unfold takeToken hasToken
  split
  · simp_all
  · split
    · simp_all
    · simp_all

/-- Taking a token depends on nothing the check of the breaker changes. -/
theorem hasToken_checkBreaker : (g.checkBreaker now).1.hasToken now ↔ g.hasToken now := by
  rcases g.checkBreaker_cases now with ⟨hsame, -⟩ | ⟨-, hprobe, -⟩
  · rw [hsame]
  · rw [hprobe]
    rfl

theorem allow_ok : (g.allow now).2 = none ↔ g.passes now ∧ g.hasToken now := by
  rw [← g.checkBreaker_ok now, ← g.hasToken_checkBreaker now, ← takeToken_ok]
  unfold allow
  split
  next hcheck =>
    simp [hcheck]
  next hcheck =>
    rw [hcheck]
    split
    next htoken =>
      simp [htoken]
    next htoken =>
      simp [htoken]

/-- An admitted caller leaves a trial under way if it began one or if there was one. -/
theorem probing_allow_of_ok (hok : (g.allow now).2 = none) :
    (g.allow now).1.probing ↔ g.takesSlot now ∨ g.probing := by
  rw [← probing_checkBreaker]
  unfold allow at hok ⊢
  split at hok
  · simp at hok
  next g' hcheck =>
    rw [hcheck]
    obtain ⟨hstate, hprobe, -⟩ := g'.takeToken_breaker now
    split at hok
    · simp at hok
    next htoken =>
      rw [htoken] at hstate hprobe
      rw [probing, probing, hstate, hprobe]

theorem probing_rejected : g.rejected.probing ↔ g.cfg.failureThreshold ≤ 0 ∧ g.probing := by
  unfold rejected releaseProbeSlot probing
  by_cases hoff : g.cfg.failureThreshold ≤ 0
  · simp [hoff]
  · rw [if_neg hoff]
    by_cases htrial : g.state = stateHalfOpen
    · simp [hoff, htrial]
    · simp [htrial]

theorem cfg_checkBreaker : (g.checkBreaker now).1.cfg = g.cfg := by
  rcases g.checkBreaker_cases now with ⟨hsame, -⟩ | ⟨-, hprobe, -⟩
  · rw [hsame]
  · rw [hprobe]

/-- A refused caller leaves no trial under way that was not there. -/
theorem not_probing_allow_of_refused (hfree : ¬ g.probing) (hno : (g.allow now).2 ≠ none) :
    ¬ (g.allow now).1.probing := by
  have hcheck := g.probing_checkBreaker now
  have hcfg := g.cfg_checkBreaker now
  have hcases := g.checkBreaker_cases now
  unfold allow at hno ⊢
  split
  next heq =>
    rcases hcases with ⟨hsame, -⟩ | ⟨hok, -⟩
    · rw [heq] at hsame
      rwa [hsame]
    · simp [heq] at hok
  next g' heq =>
    rw [heq] at hcheck hcfg
    obtain ⟨hstate, hprobe, hcfg'⟩ := g'.takeToken_breaker now
    split
    next g'' err htoken =>
      rw [htoken] at hstate hprobe hcfg'
      rw [probing_rejected, hcfg', hcfg]
      rintro ⟨hoff, hstuck⟩
      -- without a breaker no trial begins
      rw [probing, hstate, hprobe] at hstuck
      rcases hcheck.mp hstuck with htakes | hold
      · exact absurd hoff (not_le.mpr htakes.1)
      · exact hfree hold
    next htoken =>
      simp [heq, htoken] at hno

theorem cfg_allow : (g.allow now).1.cfg = g.cfg := by
  have hcfg := g.cfg_checkBreaker now
  unfold allow
  split
  next heq =>
    rwa [heq] at hcfg
  next g' heq =>
    rw [heq] at hcfg
    obtain ⟨-, -, hcfg'⟩ := g'.takeToken_breaker now
    split
    next g'' err htoken =>
      rw [htoken] at hcfg'
      exact (g''.rejected_breaker.2.1.trans hcfg').trans hcfg
    next htoken =>
      rw [htoken] at hcfg'
      exact hcfg'.trans hcfg

/-- The outcome of an admitted caller ends the trial it began. -/
theorem not_probing_reported (hfree : ¬ g.probing) (hok : (g.allow now).2 = none) :
    ¬ (g.allow now).1.onSuccess.probing ∧ ∀ later, ¬ ((g.allow now).1.onFailure later).probing := by
  by_cases hon : 0 < (g.allow now).1.cfg.failureThreshold
  · exact ⟨fun h => ((g.allow now).1.onSuccess_breaker hon).1 h.1,
      fun later h => ((g.allow now).1.onFailure_breaker later hon).1 h.1⟩
  · have hoff := not_lt.mp hon
    have hnot : ¬ (g.allow now).1.probing := by
      rw [probing_allow_of_ok now g hok]
      rintro (htakes | hold)
      · rw [cfg_allow] at hoff
        exact absurd htakes.1 (not_lt.mpr hoff)
      · exact hfree hold
    simp only [onSuccess, onFailure, hoff, if_true]
    exact ⟨hnot, fun _ => hnot⟩

variable (done : Bool)

theorem allowContext_ok :
    (g.allowContext now done).2 = none ↔ done = false ∧ g.passes now ∧ g.hasToken now := by
  rw [← allow_ok]
  cases done <;> simp [allowContext]

theorem not_probing_allowContext_of_refused (hfree : ¬ g.probing)
    (hno : (g.allowContext now done).2 ≠ none) : ¬ (g.allowContext now done).1.probing := by
  cases done with
  | true => exact hfree
  | false => exact g.not_probing_allow_of_refused now hfree hno

theorem allowContext_eq_allow (hok : (g.allowContext now done).2 = none) :
    g.allowContext now done = g.allow now := by
  rw [allowContext_ok] at hok
  rw [allowContext, hok.1]
  rfl

theorem one_le_capacity (cfg : GuardConfig) : 1 ≤ capacity cfg := by
  unfold capacity
  by_cases hburst : cfg.burst ≤ 0
  · rw [if_pos hburst]
    split
    · exact le_rfl
    · linarith
  · rw [if_neg hburst]
    exact_mod_cast (by omega : (1 : ℤ) ≤ cfg.burst)

/-- Tokens come back with time. -/
theorem exists_hasToken : ∃ due, ∀ now, due ≤ now → g.hasToken now := by
  by_cases hrps : g.cfg.rateLimitRPS ≤ 0
  · exact ⟨0, fun _ _ => Or.inl hrps⟩
  · have hpos : 0 < g.cfg.rateLimitRPS := not_le.mp hrps
    refine ⟨g.lastRefill + ⌈(1 - g.tokens) * 1000000000 / g.cfg.rateLimitRPS⌉, fun now hnow => ?_⟩
    have hceil := Int.le_ceil ((1 - g.tokens) * 1000000000 / g.cfg.rateLimitRPS)
    have helapsed : (1 - g.tokens) * 1000000000 / g.cfg.rateLimitRPS ≤
        ((now - g.lastRefill : ℤ) : ℚ) := hceil.trans (by exact_mod_cast (by omega))
    rw [div_le_iff₀ hpos] at helapsed
    have htokens : 1 ≤ g.tokens +
        ((now - g.lastRefill : ℤ) : ℚ) / 1000000000 * g.cfg.rateLimitRPS := by
      linarith
    refine Or.inr ?_
    simp only [refilled]
    split
    · exact one_le_capacity g.cfg
    · exact htokens

/-- A guard with no trial under way admits a caller in time. -/
theorem exists_allow (hfree : ¬ g.probing) : ∃ due, ∀ now, due ≤ now → (g.allow now).2 = none := by
  obtain ⟨due, htoken⟩ := g.exists_hasToken
  have hpasses : ∀ now, g.openedAt + g.cfg.openTimeout ≤ now → g.passes now := by
    intro now hnow
    by_cases hon : 0 < g.cfg.failureThreshold
    · cases hstate : g.state with
      | stateClosed => exact Or.inr (Or.inl hstate)
      | stateOpen => exact Or.inr (Or.inr ⟨hon, Or.inl ⟨hstate, by omega⟩⟩)
      | stateHalfOpen =>
        refine Or.inr (Or.inr ⟨hon, Or.inr ⟨hstate, Bool.eq_false_iff.mpr fun hprobe => ?_⟩⟩)
        exact hfree ⟨hstate, hprobe⟩
    · exact Or.inl (not_lt.mp hon)
  refine ⟨max due (g.openedAt + g.cfg.openTimeout), fun now hnow => ?_⟩
  exact (g.allow_ok now).mpr ⟨hpasses now (by omega), htoken now (by omega)⟩

end Allow

end Guard

end Supercache
