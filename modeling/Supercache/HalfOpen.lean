import Supercache.Guard

/-!
Any number of callers of one guard, step by step: the check of the breaker, the token, the release
of a trial that was refused a token, and the report. At most one trial of a half-open period is
under way as long as no caller of another period releases the slot.
-/
namespace Supercache.HalfOpen

open BreakerState Schedule

inductive Caller where
  | start
  | checked (period : Option ℕ)
  | limited (period : Option ℕ)
  | admitted (period : Option ℕ)
  | done
deriving DecidableEq

structure Sys where
  guard : Guard
  /-- How many half-open periods have begun. -/
  period : ℕ
  callers : List Caller

structure Turn where
  who : ℕ
  now : ℤ
  success : Bool

def advance (now : ℤ) (success : Bool) (g : Guard) (period : ℕ) :
    Caller → Guard × ℕ × Caller
  | .start =>
    let (g', err) := g.checkBreaker now
    let period :=
      if g.state ≠ stateHalfOpen ∧ g'.state = stateHalfOpen then period + 1 else period
    (g', period, if err.isSome then .done
      else .checked (if g'.state = stateHalfOpen then some period else none))
  | .checked since =>
    let (g, err) := g.takeToken now
    (g, period, if err.isSome then .limited since else .admitted since)
  | .limited _ => (g.rejected, period, .done)
  | .admitted _ => (if success then g.onSuccess else g.onFailure now, period, .done)
  | .done => (g, period, .done)

def step (s : Sys) (t : Turn) : Sys :=
  match s.callers[t.who]? with
  | none => s
  | some c =>
    let (guard, period, c) := advance t.now t.success s.guard s.period c
    ⟨guard, period, s.callers.set t.who c⟩

def Caller.onTrial (period : ℕ) : Caller → Bool
  | .checked since => since = some period
  | .admitted since => since = some period
  | _ => false

/-- While the breaker is half-open, at most one trial of the period is under way. -/
def OneTrial (s : Sys) : Prop :=
  s.guard.state = stateHalfOpen → s.callers.countP (Caller.onTrial s.period) ≤ 1

instance (s : Sys) : Decidable (OneTrial s) := by
  unfold OneTrial
  infer_instance

def Caller.ownSlot (s : Sys) : Caller → Bool
  | .limited since => s.guard.state ≠ stateHalfOpen ∨ since = some s.period
  | _ => true

/-- The turn releases no slot of a half-open period other than the caller's own. -/
def OwnSlot (s : Sys) (t : Turn) : Prop :=
  ∀ c, s.callers[t.who]? = some c → c.ownSlot s = true

instance (s : Sys) (t : Turn) : Decidable (OwnSlot s t) :=
  decidable_of_iff (∀ c ∈ s.callers[t.who]?, c.ownSlot s = true) Iff.rfl

def Caller.holds (period : ℕ) : Caller → Bool
  | .checked since => since = some period
  | .limited since => since = some period
  | .admitted since => since = some period
  | _ => false

def Caller.upTo (period : ℕ) : Caller → Prop
  | .checked since => ∀ p ∈ since, p ≤ period
  | .limited since => ∀ p ∈ since, p ≤ period
  | .admitted since => ∀ p ∈ since, p ≤ period
  | _ => True

/-- The slot is marked as taken while somebody holds it, and by one caller only. -/
structure Inv (s : Sys) : Prop where
  breaker : 0 < s.guard.cfg.failureThreshold
  upTo : ∀ c ∈ s.callers, c.upTo s.period
  holders : s.guard.state = stateHalfOpen →
    s.callers.countP (Caller.holds s.period) ≤ if s.guard.probeInFlight then 1 else 0

theorem Caller.upTo.mono {c : Caller} {m n : ℕ} (h : c.upTo m) (hmn : m ≤ n) : c.upTo n := by
  cases c with
  | checked since | limited since | admitted since => exact fun p hp => (h p hp).trans hmn
  | start | done => trivial

/-- Nobody holds the slot of a period that has not begun. -/
theorem countP_holds_succ {callers : List Caller} {period : ℕ}
    (h : ∀ c ∈ callers, c.upTo period) : callers.countP (Caller.holds (period + 1)) = 0 := by
  refine List.countP_eq_zero.mpr fun c hc hholds => ?_
  have hle := h c hc
  cases c with
  | checked since | limited since | admitted since =>
    have hsince : since = some (period + 1) := by simpa [Caller.holds] using hholds
    exact absurd (hle (period + 1) hsince) (by omega)
  | start | done => simp [Caller.holds] at hholds

theorem Caller.holds_of_onTrial {period : ℕ} {c : Caller} (h : c.onTrial period = true) :
    c.holds period = true := by
  cases c with
  | checked since | admitted since => exact h
  | limited since | start | done => simp [Caller.onTrial] at h

theorem Inv.oneTrial {s : Sys} (h : Inv s) : OneTrial s := by
  intro hhalf
  have hholders := h.holders hhalf
  have hmono : s.callers.countP (Caller.onTrial s.period) ≤
      s.callers.countP (Caller.holds s.period) :=
    List.countP_mono_left fun c _ => Caller.holds_of_onTrial
  have hone : (if s.guard.probeInFlight = true then 1 else 0) ≤ 1 := by split <;> omega
  omega

section Step

variable {s : Sys} {t : Turn} {c : Caller} {i : ℕ}

theorem upTo_set {period : ℕ} (h : ∀ c ∈ s.callers, c.upTo period) {c : Caller}
    (hc : c.upTo period) : ∀ c' ∈ s.callers.set i c, c'.upTo period := by
  intro c' hc'
  rcases List.mem_or_eq_of_mem_set hc' with hmem | rfl
  · exact h c' hmem
  · exact hc

/-- Holders after one caller moves on. -/
theorem countP_set_le (hi : s.callers[i]? = some c) (c' : Caller) (period : ℕ) :
    (s.callers.set i c').countP (Caller.holds period) + (if c.holds period then 1 else 0) =
      s.callers.countP (Caller.holds period) + if c'.holds period then 1 else 0 := by
  obtain ⟨hlt, rfl⟩ := List.getElem?_eq_some_iff.mp hi
  rw [List.countP_set hlt]
  have hpos : (if Caller.holds period s.callers[i] = true then 1 else 0) ≤
      s.callers.countP (Caller.holds period) := by
    by_cases hholds : Caller.holds period s.callers[i]
    · rw [if_pos hholds]
      exact List.countP_pos_iff.mpr ⟨_, List.getElem_mem hlt, hholds⟩
    · rw [if_neg hholds]
      omega
  omega

/-- The check of the breaker marks the slot it takes. -/
theorem inv_start (h : Inv s) (hc : s.callers[t.who]? = some .start) : Inv (step s t) := by
  have hcount := countP_set_le hc
  simp only [step, hc, advance]
  rcases s.guard.checkBreaker_cases t.now with ⟨hsame, hrefused⟩ | ⟨hok, hprobe, hfree⟩
  · -- the breaker is left as it is, so nobody is admitted to a trial
    have hperiod : (if s.guard.state ≠ stateHalfOpen ∧ s.guard.state = stateHalfOpen
        then s.period + 1 else s.period) = s.period := if_neg fun hboth => hboth.1 hboth.2
    rw [hsame, hperiod]
    generalize hnew : (if (s.guard.checkBreaker t.now).2.isSome then Caller.done
      else .checked (if s.guard.state = stateHalfOpen then some s.period else none)) = c
    have hnothing : s.guard.state = stateHalfOpen → c = .done := by
      intro hhalf
      rw [← hnew]
      cases herr : (s.guard.checkBreaker t.now).2 with
      | none => exact absurd (hrefused herr hhalf) (not_le.mpr h.breaker)
      | some err => rfl
    refine ⟨h.breaker, upTo_set h.upTo ?_, fun hhalf => ?_⟩
    · by_cases hhalf : s.guard.state = stateHalfOpen
      · rw [hnothing hhalf]
        trivial
      · rw [← hnew]
        split
        · trivial
        · exact fun p hp => by simp at hp
    · have hle := h.holders hhalf
      have hsum := hcount .done s.period
      rw [hnothing hhalf]
      simp only [Caller.holds, Bool.false_eq_true, if_false] at hsum ⊢
      omega
  · rw [hprobe, hok]
    simp only [Option.isSome_none, Bool.false_eq_true, if_false, if_true, and_true]
    by_cases hhalf : s.guard.state = stateHalfOpen
    · -- the slot was free, so nobody held it
      have hle := h.holders hhalf
      have hsum := hcount (.checked (some s.period)) s.period
      rw [hfree hhalf] at hle
      simp only [hhalf, ne_eq, not_true_eq_false, if_false]
      refine ⟨h.breaker, upTo_set h.upTo fun p hp => by simp_all, fun _ => ?_⟩
      simp only [Caller.holds, Bool.false_eq_true, if_false, decide_true, if_true] at hsum hle ⊢
      omega
    · -- a new period begins
      have hnone := countP_holds_succ h.upTo
      have hsum := hcount (.checked (some (s.period + 1))) (s.period + 1)
      simp only [hhalf, ne_eq, not_false_eq_true, if_true]
      refine ⟨h.breaker, upTo_set (fun c hc => (h.upTo c hc).mono (Nat.le_succ _))
        fun p hp => by simp_all, fun _ => ?_⟩
      simp only [Caller.holds, Bool.false_eq_true, if_false, decide_true, if_true] at hsum ⊢
      omega

theorem inv_checked {since : Option ℕ} (h : Inv s)
    (hc : s.callers[t.who]? = some (.checked since)) : Inv (step s t) := by
  obtain ⟨hstate, hprobe, hcfg⟩ := s.guard.takeToken_breaker t.now
  have hsince := h.upTo _ (List.mem_of_getElem? hc)
  have hcount := countP_set_le hc
  simp only [step, hc, advance]
  generalize hnew : (if (s.guard.takeToken t.now).2.isSome then Caller.limited since
    else .admitted since) = c
  have hsame : c.upTo s.period ∧ c.holds s.period = Caller.holds s.period (.checked since) := by
    rw [← hnew]
    split
    · exact ⟨hsince, rfl⟩
    · exact ⟨hsince, rfl⟩
  refine ⟨hcfg ▸ h.breaker, upTo_set h.upTo hsame.1, fun hhalf => ?_⟩
  have hle := h.holders (hstate ▸ hhalf)
  have hsum := hcount c s.period
  rw [hsame.2] at hsum
  simp only [hprobe]
  omega

theorem inv_limited {since : Option ℕ} (h : Inv s) (hown : OwnSlot s t)
    (hc : s.callers[t.who]? = some (.limited since)) : Inv (step s t) := by
  obtain ⟨hstate, hcfg, hrelease⟩ := s.guard.rejected_breaker
  have hsum := countP_set_le hc .done s.period
  simp only [step, hc, advance]
  refine ⟨hcfg ▸ h.breaker, upTo_set h.upTo trivial, fun hhalf => ?_⟩
  -- the caller that releases the slot is the one that held it
  rw [hstate] at hhalf
  have hle := h.holders hhalf
  have hsince : since = some s.period := by
    simpa [Caller.ownSlot, hhalf] using hown (.limited since) hc
  rw [hsince] at hsum
  simp only [Caller.holds, Bool.false_eq_true, if_false, decide_true, if_true] at hsum
  simp only [hrelease h.breaker hhalf, Bool.false_eq_true, if_false]
  split at hle <;> omega

theorem inv_admitted {since : Option ℕ} (h : Inv s)
    (hc : s.callers[t.who]? = some (.admitted since)) : Inv (step s t) := by
  have hended : ∀ g : Guard,
      g = (if t.success then s.guard.onSuccess else s.guard.onFailure t.now) →
      g.state ≠ stateHalfOpen ∧ g.cfg = s.guard.cfg := by
    rintro g rfl
    split
    · exact s.guard.onSuccess_breaker h.breaker
    · exact s.guard.onFailure_breaker t.now h.breaker
  obtain ⟨hstate, hcfg⟩ := hended _ rfl
  simp only [step, hc, advance]
  exact ⟨hcfg ▸ h.breaker, upTo_set h.upTo trivial, fun hhalf => absurd hhalf hstate⟩

theorem inv_step (h : Inv s) (hown : OwnSlot s t) : Inv (step s t) := by
  cases hc : s.callers[t.who]? with
  | none => simpa only [step, hc] using h
  | some c =>
    cases c with
    | start => exact inv_start h hc
    | checked since => exact inv_checked h hc
    | limited since => exact inv_limited h hown hc
    | admitted since => exact inv_admitted h hc
    | done =>
      have hsum := countP_set_le hc .done s.period
      simp only [step, hc, advance]
      refine ⟨h.breaker, upTo_set h.upTo trivial, fun hhalf => ?_⟩
      have hle := h.holders hhalf
      simp only
      omega

end Step

def initial (cfg : GuardConfig) (now : ℤ) (callers : ℕ) : Sys :=
  ⟨Guard.new cfg now, 0, List.replicate callers .start⟩

/-- In every interleaving of any number of callers in which a slot is released only by a caller
admitted in the same half-open period, at most one trial is under way while the breaker is
half-open. -/
theorem one_trial_at_a_time (cfg : GuardConfig) (hbreaker : 0 < cfg.failureThreshold) (now : ℤ)
    (callers : ℕ) (turns : List Turn) (hrun : Along step OwnSlot (initial cfg now callers) turns) :
    OneTrial (turns.foldl step (initial cfg now callers)) := by
  have hstart : Inv (initial cfg now callers) := by
    refine ⟨hbreaker, fun c hc => ?_, fun hhalf => absurd hhalf (by simp [initial, Guard.new])⟩
    rw [(List.mem_replicate.mp hc).2]
    trivial
  exact (Along.invariant (fun s t h hown => inv_step h hown) hstart hrun).oneTrial

/-- A trial is refused a token and gives back its slot; the next caller gets it. -/
theorem one_trial_after_refusal :
    let s := initial ⟨1, 1, 1, 10⟩ 0 3
    let turns : List Turn := [⟨0, 0, true⟩, ⟨0, 0, true⟩, ⟨0, 0, false⟩, ⟨1, 10, true⟩,
      ⟨1, 10, true⟩, ⟨1, 10, true⟩, ⟨2, 10, true⟩]
    (turns.foldl step s).guard.state = stateHalfOpen ∧ OneTrial (turns.foldl step s) :=
  ⟨by decide +kernel, one_trial_at_a_time ⟨1, 1, 1, 10⟩ (by decide) 0 3 _ (by decide +kernel)⟩

/-- The first caller passes the breaker while it is closed and is refused a token after it has
become half-open. Its release frees the slot of the trial under way, and a second trial is
admitted. -/
theorem two_trials_at_once :
    let s := initial ⟨1, 2, 1, 10⟩ 0 4
    let turns : List Turn := [⟨0, 0, true⟩, ⟨1, 0, true⟩, ⟨1, 0, true⟩, ⟨1, 0, false⟩,
      ⟨2, 10, true⟩, ⟨2, 10, true⟩, ⟨0, 10, true⟩, ⟨0, 10, true⟩, ⟨3, 10, true⟩]
    ¬ OneTrial (turns.foldl step s) := by
  decide +kernel

end Supercache.HalfOpen
