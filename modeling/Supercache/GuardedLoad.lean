import Supercache.Guard

/-!
A load behind two guards, the global one and the one of its keyspace. The global
guard is asked first; if the other then refuses, the call ends without a word to
the first, and a trial it had been granted is never ended. In a sequence of loads
in which this does not happen, the global guard admits a load again in time.
-/
namespace Supercache.GuardedLoad

open BreakerState Schedule

inductive Outcome where
  | found
  | notFound
  | failed
deriving DecidableEq

/-- A load: when it asks the global guard and then the other, whether its context is done at
either time, what the data source answers, and when it reports to the one and to the other. -/
structure Load where
  now : ℤ
  done : Bool
  nowAfter : ℤ
  doneAfter : Bool
  outcome : Outcome
  later : ℤ
  laterAfter : ℤ

inductive Result where
  | unavailable (err : GuardError)
  | loaded
  | notFound
  | failed
deriving DecidableEq

def loadThrough (c : Load) (global : Option Guard) (ks : Guard) : Option Guard × Guard × Result :=
  let asked := global.map (Guard.allowContext c.now c.done)
  match asked.bind Prod.snd with
  | some err => (asked.map Prod.fst, ks, .unavailable err)
  | none =>
    let global := asked.map Prod.fst
    match ks.allowContext c.nowAfter c.doneAfter with
    | (ks, some err) => (global, ks, .unavailable err)
    | (ks, none) =>
      match c.outcome with
      | .notFound => (global.map Guard.onSuccess, ks.onSuccess, .notFound)
      | .failed => (global.map (Guard.onFailure c.later), ks.onFailure c.laterAfter, .failed)
      | .found => (global.map Guard.onSuccess, ks.onSuccess, .loaded)

/-- No guard is left with a trial under way that was not there before the call. -/
def Released (c : Load) (global : Option Guard) (ks : Guard) : Prop :=
  (∀ g g', global = some g → (loadThrough c global ks).1 = some g' → ¬ g.probing → ¬ g'.probing) ∧
    (¬ ks.probing → ¬ (loadThrough c global ks).2.1.probing)

/-- If the global guard grants the call a trial, the keyspace's guard admits it too. -/
def BothAdmit (c : Load) (global : Option Guard) (ks : Guard) : Prop :=
  ∀ g, global = some g → c.done = false → g.takesSlot c.now → g.hasToken c.now →
    c.doneAfter = false ∧ ks.passes c.nowAfter ∧ ks.hasToken c.nowAfter

/-- All the ways a call can end: refused by the global guard, refused by the other, or with an
outcome reported to both. -/
inductive Ended (c : Load) (global : Option Guard) (ks : Guard) :
    Option Guard × Guard × Result → Prop
  | refused (g : Guard) (err : GuardError) (hg : global = some g)
    (herr : (g.allowContext c.now c.done).2 = some err) :
    Ended c global ks (some (g.allowContext c.now c.done).1, ks, .unavailable err)
  | stopped (err : GuardError) (hg : ∀ g, global = some g → (g.allowContext c.now c.done).2 = none)
    (herr : (ks.allowContext c.nowAfter c.doneAfter).2 = some err) :
    Ended c global ks (global.map fun g => (g.allowContext c.now c.done).1,
      (ks.allowContext c.nowAfter c.doneAfter).1, .unavailable err)
  | succeeded (r : Result) (hg : ∀ g, global = some g → (g.allowContext c.now c.done).2 = none)
    (hks : (ks.allowContext c.nowAfter c.doneAfter).2 = none) :
    Ended c global ks (global.map fun g => (g.allowContext c.now c.done).1.onSuccess,
      (ks.allowContext c.nowAfter c.doneAfter).1.onSuccess, r)
  | failed (hg : ∀ g, global = some g → (g.allowContext c.now c.done).2 = none)
    (hks : (ks.allowContext c.nowAfter c.doneAfter).2 = none) :
    Ended c global ks (global.map fun g => (g.allowContext c.now c.done).1.onFailure c.later,
      (ks.allowContext c.nowAfter c.doneAfter).1.onFailure c.laterAfter, .failed)

/-- A load ends in one of the four ways. -/
theorem loadThrough_ended (c : Load) (global : Option Guard) (ks : Guard) :
    Ended c global ks (loadThrough c global ks) := by
  unfold loadThrough
  simp only
  split
  next err hasked =>
    cases global with
    | none => simp at hasked
    | some g => exact .refused g err rfl hasked
  next hasked =>
    have hg : ∀ g, global = some g → (g.allowContext c.now c.done).2 = none := by
      rintro g rfl
      exact hasked
    split
    next ks' err heq =>
      have hstop := Ended.stopped err hg (congrArg Prod.snd heq)
      rw [heq] at hstop
      rw [Option.map_map]
      exact hstop
    next ks' heq =>
      have hks : (ks.allowContext c.nowAfter c.doneAfter).2 = none := congrArg Prod.snd heq
      have hsucceeded := fun r => Ended.succeeded (c := c) r hg hks
      have hfailed := Ended.failed (c := c) hg hks
      rw [heq] at hsucceeded hfailed
      simp only [Option.map_map]
      cases c.outcome with
      | notFound => exact hsucceeded .notFound
      | failed => exact hfailed
      | found => exact hsucceeded .loaded

section Released

variable {c : Load} {global : Option Guard} {ks : Guard}

/-- A report ends the trial that the guard granted. -/
theorem not_probing_reported {g : Guard} {now : ℤ} {done : Bool}
    (hok : (g.allowContext now done).2 = none) (hfree : ¬ g.probing) :
    ¬ (g.allowContext now done).1.onSuccess.probing ∧
      ∀ later, ¬ ((g.allowContext now done).1.onFailure later).probing := by
  have hallow := g.allowContext_eq_allow now done hok
  rw [hallow] at hok ⊢
  exact g.not_probing_reported now hfree hok

/-- Every exit after both guards admitted reports to both. -/
theorem released_of_bothAdmit (h : BothAdmit c global ks) : Released c global ks := by
  have hended := loadThrough_ended c global ks
  unfold Released
  generalize loadThrough c global ks = res at hended ⊢
  cases hended with
  | refused g err hg herr =>
    subst hg
    refine ⟨fun g₀ g' hg₀ hg' hfree => ?_, id⟩
    cases hg₀
    cases hg'
    exact g.not_probing_allowContext_of_refused c.now c.done hfree (by simp [herr])
  | stopped err hg herr =>
    refine ⟨fun g g' heq hg' hfree => ?_, fun hfree => ?_⟩
    · subst heq
      cases hg'
      have hok := hg g rfl
      have hallow := g.allowContext_eq_allow c.now c.done hok
      change ¬ (g.allowContext c.now c.done).1.probing
      rw [hallow] at hok ⊢
      rw [g.probing_allow_of_ok c.now hok]
      -- a trial was granted, so the other guard should have admitted the call
      rintro (htakes | hold)
      · obtain ⟨hdone, -, htoken⟩ := (g.allowContext_ok c.now c.done).mp (hg g rfl)
        have hboth := h g rfl hdone htakes htoken
        exact absurd ((ks.allowContext_ok c.nowAfter c.doneAfter).mpr hboth) (by simp [herr])
      · exact hfree hold
    · exact ks.not_probing_allowContext_of_refused c.nowAfter c.doneAfter hfree (by simp [herr])
  | succeeded r hg hks =>
    refine ⟨fun g g' heq hg' hfree => ?_, fun hfree => (not_probing_reported hks hfree).1⟩
    subst heq
    cases hg'
    exact (not_probing_reported (hg g rfl) hfree).1
  | failed hg hks =>
    refine ⟨fun g g' heq hg' hfree => ?_, fun hfree => (not_probing_reported hks hfree).2 _⟩
    subst heq
    cases hg'
    exact (not_probing_reported (hg g rfl) hfree).2 _

/-- A trial is left behind when the other guard refuses. -/
theorem bothAdmit_of_released (h : Released c global ks) : BothAdmit c global ks := by
  rintro g rfl hdone htakes htoken
  by_contra hrefused
  rw [← ks.allowContext_ok c.nowAfter c.doneAfter] at hrefused
  have hok : (g.allowContext c.now c.done).2 = none :=
    (g.allowContext_ok c.now c.done).mpr ⟨hdone, Or.inr (Or.inr htakes), htoken⟩
  have hfree : ¬ g.probing := by
    rintro ⟨hhalf, hprobe⟩
    rcases htakes.2 with ⟨hopen, -⟩ | ⟨-, hfalse⟩
    · simp [hhalf] at hopen
    · simp [hprobe] at hfalse
  have hended := loadThrough_ended c (some g) ks
  have hglobal := h.1 g
  generalize loadThrough c (some g) ks = res at hended hglobal
  cases hended with
  | refused g' err hg herr =>
    cases hg
    simp [hok] at herr
  | stopped err hg herr =>
    refine hglobal _ rfl rfl hfree ?_
    have hallow := g.allowContext_eq_allow c.now c.done hok
    change (g.allowContext c.now c.done).1.probing
    rw [hallow] at hok ⊢
    exact (g.probing_allow_of_ok c.now hok).mpr (Or.inl htakes)
  | succeeded r hg hks => exact hrefused hks
  | failed hg hks => exact hrefused hks

end Released

theorem global_none (c : Load) (ks : Guard) : (loadThrough c none ks).1 = none := by
  have hended := loadThrough_ended c none ks
  generalize loadThrough c none ks = res at hended ⊢
  cases hended with
  | refused g err hg => simp at hg
  | stopped => rfl
  | succeeded => rfl
  | failed => rfl

structure Sys where
  global : Option Guard
  keyspaces : List Guard

structure Turn where
  keyspace : ℕ
  load : Load

def step (s : Sys) (t : Turn) : Sys :=
  match s.keyspaces[t.keyspace]? with
  | none => s
  | some ks =>
    let (global, ks, _) := loadThrough t.load s.global ks
    ⟨global, s.keyspaces.set t.keyspace ks⟩

def TurnAdmits (s : Sys) (t : Turn) : Prop :=
  ∀ ks, s.keyspaces[t.keyspace]? = some ks → BothAdmit t.load s.global ks

/-- No trial of the global guard is under way. -/
def GlobalFree (s : Sys) : Prop := ∀ g, s.global = some g → ¬ g.probing

theorem globalFree_step {s : Sys} {t : Turn} (h : GlobalFree s) (hpass : TurnAdmits s t) :
    GlobalFree (step s t) := by
  unfold step
  cases hks : s.keyspaces[t.keyspace]? with
  | none => exact h
  | some ks =>
    intro g' hg'
    have hrel := (released_of_bothAdmit (hpass ks hks)).1
    cases hglobal : s.global with
    | none =>
      have hnone : (loadThrough t.load s.global ks).1 = none := by
        rw [hglobal]
        exact global_none t.load ks
      have habsurd : some g' = none := hg'.symm.trans hnone
      simp at habsurd
    | some g => exact hrel g g' hglobal hg' (h g hglobal)

/-- A call leaves behind no trial that it began exactly if the keyspace's guard admits it whenever
the global guard grants it a trial. In a sequence of loads that all do so, the global guard admits
a load again in time. -/
theorem load_releases_trials (s : Sys) :
    (∀ (c : Load) (ks : Guard), Released c s.global ks ↔ BothAdmit c s.global ks) ∧
    ∀ turns : List Turn, GlobalFree s → Along step TurnAdmits s turns →
      ∀ g, (turns.foldl step s).global = some g →
        ∃ due, ∀ now, due ≤ now → (g.allow now).2 = none := by
  refine ⟨fun c ks => ⟨bothAdmit_of_released, released_of_bothAdmit⟩, ?_⟩
  intro turns hfree hrun g hg
  exact g.exists_allow (Along.invariant (fun s t h hpass => globalFree_step h hpass) hfree
    hrun g hg)

def opened (at_ timeout : ℤ) : Guard :=
  (Guard.new ⟨0, 0, 1, timeout⟩ 0).onFailure at_

/-- A trial of both guards fails, and one later succeeds. -/
theorem load_releases_trials_twice :
    let s : Sys := ⟨some (opened 0 10), [opened 0 10]⟩
    let turns : List Turn :=
      [⟨0, 10, false, 11, false, .failed, 12, 13⟩, ⟨0, 23, false, 24, false, .found, 25, 26⟩]
    ∀ g, (turns.foldl step s).global = some g →
      ∃ due, ∀ now, due ≤ now → (g.allow now).2 = none :=
  (load_releases_trials _).2 _ (by rintro g ⟨⟩; decide +kernel)
    ⟨by rintro ks ⟨⟩ g ⟨⟩; decide +kernel, by rintro ks ⟨⟩ g ⟨⟩; decide +kernel, trivial⟩

/-- The keyspace's guard opened later than the global one. The call that begins the trial of the
global guard is refused by the other, and from then on the global guard refuses every call. -/
theorem trial_never_ends :
    let c : Load := ⟨10, false, 11, false, .found, 12, 13⟩
    ¬ Released c (some (opened 0 10)) (opened 5 10) ∧
      ∀ g, (loadThrough c (some (opened 0 10)) (opened 5 10)).1 = some g →
        ∀ now, (g.allow now).2 = some .circuitOpen := by
  intro c
  constructor
  · intro h
    exact absurd (bothAdmit_of_released h _ rfl rfl (by decide +kernel) (by decide +kernel))
      (by decide +kernel)
  · rintro g ⟨⟩ now
    rfl

end Supercache.GuardedLoad
