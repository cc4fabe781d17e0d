import Supercache.Guard
import Supercache.TokenBucket

/-!
How many loads the guard's rate limit lets through. The guard is a token bucket whose times are
seconds. A new guard starts with the whole tokens of its burst, which may be less than the
bucket can hold, and the bound on every window is the bucket's.
-/
namespace Supercache.Guard

open TokenBucket

def seconds (t : ℤ) : ℚ := (t : ℚ) / 1000000000

def bucket (g : Guard) : Bucket ℚ := ⟨g.tokens, seconds g.lastRefill⟩

def granted (g : Guard) : List ℤ → List ℤ
  | [] => []
  | now :: times =>
    let rest := (g.takeToken now).1.granted times
    if (g.takeToken now).2 = none then now :: rest else rest

def afterCalls (g : Guard) (times : List ℤ) : Guard :=
  times.foldl (fun g now => (g.takeToken now).1) g

section Steps

variable {g : Guard}

theorem seconds_le {a b : ℤ} : seconds a ≤ seconds b ↔ a ≤ b := by
  unfold seconds
  rw [div_le_div_iff_of_pos_right (by norm_num)]
  exact Int.cast_le

theorem refilled_eq (g : Guard) (now : ℤ) :
    g.refilled now = g.bucket.refill (capacity g.cfg) g.cfg.rateLimitRPS (seconds now) := by
  have hsub : ((now - g.lastRefill : ℤ) : ℚ) / 1000000000 = seconds now - seconds g.lastRefill := by
    unfold seconds
    push_cast
    ring
  unfold refilled Bucket.refill
  rw [hsub]
  simp only [bucket]
  split
  next hfull =>
    rw [min_eq_right hfull.le]
  next hroom =>
    rw [min_eq_left (not_lt.mp hroom)]

/-- Taking a token is the bucket's call. -/
theorem takeToken_eq (g : Guard) (now : ℤ) (hr : 0 < g.cfg.rateLimitRPS) :
    (g.takeToken now).1.bucket =
        (g.bucket.take (capacity g.cfg) g.cfg.rateLimitRPS (seconds now)).1 ∧
      ((g.takeToken now).2 = none ↔
        (g.bucket.take (capacity g.cfg) g.cfg.rateLimitRPS (seconds now)).2 = true) ∧
      (g.takeToken now).1.cfg = g.cfg ∧ (g.takeToken now).1.lastRefill = now := by
  unfold takeToken Bucket.take
  rw [if_neg (not_le.mpr hr), ← refilled_eq]
  split
  · exact ⟨rfl, by simp, rfl, rfl⟩
  · exact ⟨rfl, by simp, rfl, rfl⟩

theorem granted_eq (hr : 0 < g.cfg.rateLimitRPS) (times : List ℤ) : (g.granted times).map seconds =
      g.bucket.granted (capacity g.cfg) g.cfg.rateLimitRPS (times.map seconds) := by
  induction times generalizing g with
  | nil => rfl
  | cons now times ih =>
    obtain ⟨hbucket, hgranted, hcfg, -⟩ := takeToken_eq g now hr
    have hrest := ih (hcfg.symm ▸ hr)
    rw [hcfg, hbucket] at hrest
    simp only [granted, List.map_cons, Bucket.granted, ← hrest, hgranted]
    split <;> rfl

end Steps

section Runs

structure Metered (cfg : GuardConfig) (g : Guard) : Prop where
  cfg_eq : g.cfg = cfg
  within : g.bucket.Within (capacity cfg)

variable {cfg : GuardConfig} {g : Guard}

/-- The first tokens are whole and no more than the bucket holds. -/
theorem within_new (hr : 0 < cfg.rateLimitRPS) (created : ℤ) :
    (new cfg created).bucket.Within (capacity cfg) := by
  have hfloor := Int.floor_le cfg.rateLimitRPS
  have hone := one_le_capacity cfg
  unfold bucket new capacity at *
  simp only [hr, if_true]
  by_cases hburst : cfg.burst ≤ 0
  · simp only [hburst, if_true] at hone ⊢
    by_cases hslow : ⌊cfg.rateLimitRPS⌋ < 1
    · rw [if_pos hslow]
      exact ⟨by norm_num, hone⟩
    · have hfast : (1 : ℚ) ≤ ⌊cfg.rateLimitRPS⌋ := by exact_mod_cast not_lt.mp hslow
      rw [if_neg hslow, if_neg (not_lt.mpr (hfast.trans hfloor))]
      exact ⟨by linarith, hfloor⟩
  · simp only [hburst, if_false] at hone ⊢
    exact ⟨by linarith, le_rfl⟩

theorem Metered.takeToken (h : Metered cfg g) (hr : 0 < cfg.rateLimitRPS) {now : ℤ}
    (hnow : g.lastRefill ≤ now) : Metered cfg (g.takeToken now).1 := by
  obtain ⟨hbucket, -, hcfg, -⟩ := takeToken_eq g now (h.cfg_eq ▸ hr)
  refine ⟨hcfg.trans h.cfg_eq, ?_⟩
  rw [hbucket, h.cfg_eq]
  exact h.within.take hr.le (seconds_le.mpr hnow)

/-- Calls in the order of time keep the level in bounds. -/
theorem Metered.afterCalls (h : Metered cfg g) (hr : 0 < cfg.rateLimitRPS) {times : List ℤ}
    (hsorted : (g.lastRefill :: times).Pairwise (· ≤ ·)) : Metered cfg (g.afterCalls times) := by
  induction times generalizing g with
  | nil => exact h
  | cons now times ih =>
    obtain ⟨hfirst, hrest⟩ := List.pairwise_cons.mp hsorted
    obtain ⟨-, -, -, hlast⟩ := takeToken_eq g now (h.cfg_eq ▸ hr)
    exact ih (h.takeToken hr (hfirst now List.mem_cons_self)) (by rwa [hlast])

theorem lastRefill_afterCalls (hr : 0 < g.cfg.rateLimitRPS) (before : List ℤ) (now : ℤ) :
    (g.afterCalls (before ++ [now])).lastRefill = now := by
  have hcfg : (g.afterCalls before).cfg = g.cfg := by
    unfold afterCalls
    induction before generalizing g with
    | nil => rfl
    | cons first before ih =>
      have hstep := (takeToken_eq g first hr).2.2.1
      exact (ih (hstep.symm ▸ hr)).trans hstep
  unfold afterCalls at hcfg ⊢
  rw [List.foldl_append]
  exact (takeToken_eq _ now (hcfg.symm ▸ hr)).2.2.2

theorem capacity_eq (cfg : GuardConfig) :
    capacity cfg = if 0 < cfg.burst then (cfg.burst : ℚ) else max 1 cfg.rateLimitRPS := by
  unfold capacity
  by_cases hburst : 0 < cfg.burst
  · rw [if_neg (by omega), if_pos hburst]
  · rw [if_pos (by omega), if_neg hburst]
    by_cases hslow : cfg.rateLimitRPS < 1
    · rw [if_pos hslow]
      rw [max_eq_left hslow.le]
    · rw [if_neg hslow]
      rw [max_eq_right (not_lt.mp hslow)]

/-- In every window the limit grants at most the burst and what the rate allows in that time. A call
is refused only if there is less than one token, so a call is granted if none was made in the time
that one token takes. -/
theorem rate_limit_bound (cfg : GuardConfig) (hr : 0 < cfg.rateLimitRPS) (created : ℤ)
    (times : List ℤ) (hsorted : (created :: times).Pairwise (· ≤ ·)) (t0 t1 : ℚ) (h : t0 ≤ t1) :
    (inWindow t0 t1 (((new cfg created).granted times).map seconds) : ℚ) ≤
        (if 0 < cfg.burst then (cfg.burst : ℚ) else max 1 cfg.rateLimitRPS) +
          cfg.rateLimitRPS * (t1 - t0) ∧
      (∀ before now after, times = before ++ now :: after →
        (((new cfg created).afterCalls before).takeToken now).2 ≠ none →
          ((new cfg created).afterCalls before).refilled now < 1) ∧
      ∀ before last now after, times = before ++ last :: now :: after →
        1 / cfg.rateLimitRPS ≤ seconds now - seconds last →
          (((new cfg created).afterCalls (before ++ [last])).takeToken now).2 = none := by
  let start := new cfg created
  have hr' : 0 < start.cfg.rateLimitRPS := hr
  have hstart : Metered start.cfg start := ⟨rfl, within_new hr created⟩
  refine ⟨?_, ?_, ?_⟩
  · have hsorted' : (start.bucket.last :: times.map seconds).Pairwise (· ≤ ·) :=
      List.pairwise_map.mpr (hsorted.imp fun hle => seconds_le.mpr hle)
    rw [granted_eq hr', ← capacity_eq cfg]
    exact hstart.within.inWindow_le_cap hr.le hsorted' h
  · intro before now after _ hrefused
    by_contra htoken
    exact hrefused ((takeToken_ok now _).mpr (Or.inr (not_lt.mp htoken)))
  · intro before last now after htimes hpause
    have hprefix : (created :: (before ++ [last])).Pairwise (· ≤ ·) := by
      rw [htimes, List.append_cons before last (now :: after)] at hsorted
      exact hsorted.sublist ((List.sublist_append_left _ _).cons_cons created)
    have hmetered := hstart.afterCalls hr' hprefix
    have hlast : (start.afterCalls (before ++ [last])).bucket.last = seconds last :=
      congrArg seconds (lastRefill_afterCalls hr' before last)
    refine (takeToken_eq _ now (hmetered.cfg_eq.symm ▸ hr')).2.1.mpr ?_
    rw [hmetered.cfg_eq]
    refine hmetered.within.take_granted_of_pause (one_le_capacity _) ?_
    rw [hlast]
    exact (div_le_iff₀ hr).mp hpause

/-- Two calls at once, of which a bucket of one token grants the first, and a third one when the
next token is there. -/
theorem rate_limit_bound_pause :
    0 < (2 : ℚ) ∧ [0, 0, 0, 500000000].Pairwise (· ≤ · : ℤ → ℤ → Prop) ∧
      (inWindow 0 1 (((new ⟨2, 1, 0, 0⟩ 0).granted [0, 0, 500000000]).map seconds) : ℚ) ≤
        1 + 2 * (1 - 0) ∧
      (((new ⟨2, 1, 0, 0⟩ 0).afterCalls [0, 0]).takeToken 500000000).2 = none := by
  have hsorted : [0, 0, 0, 500000000].Pairwise (· ≤ · : ℤ → ℤ → Prop) := by decide
  have hall := rate_limit_bound ⟨2, 1, 0, 0⟩ (by norm_num) 0 [0, 0, 500000000] hsorted 0 1
    (by norm_num)
  refine ⟨by norm_num, hsorted, by simpa using hall.1, ?_⟩
  exact hall.2.2 [0] 0 500000000 [] rfl (by norm_num [seconds])

end Runs

end Supercache.Guard
