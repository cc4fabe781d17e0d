import Supercache.OwnerCalls
import Supercache.Schedule

/-!
One put against one not-found load of the same key. The put's value is safe as
long as the negative entry is not applied, with a version of its own above the
put's, between the two sections of the put.
-/
namespace Supercache.PutNegative

open Wire Lru Owner Schedule

structure Sys where
  ks : KsRuntime
  put : Put
  negative : Negative

structure Calls where
  key : Bytes
  value : Bytes
  ttl : ℤ
  negativeTTL : ℤ

inductive Who where
  | put
  | negative

def step (c : Calls) (s : Sys) (t : Turn Who) : Sys :=
  match t.who with
  | .put =>
    let (ks, put) := putLocalApply c.key c.value c.ttl t.now t.walk s.ks s.put
    { s with ks := ks, put := put }
  | .negative =>
    let (ks, negative) := storeNegative c.key c.negativeTTL t.now t.walk s.ks s.negative
    { s with ks := ks, negative := negative }

/-- The byte budget does not get in the way: the value alone fits, and nothing is
evicted. -/
structure Ample (c : Calls) (s : Sys) (t : Turn Who) : Prop where
  fits : Store.tooBig (s.ks.store.env t.now) (c.key.length + (c.value.length + 64)) = false
  calm : (step c s t).ks.store.cache.evictions = s.ks.store.cache.evictions

instance (c : Calls) (s : Sys) (t : Turn Who) : Decidable (Ample c s t) :=
  decidable_of_iff (_ ∧ _) ⟨fun h => ⟨h.1, h.2⟩, fun h => ⟨h.1, h.2⟩⟩

def Fresh (now : ℤ) : Put → Prop
  | .minted ent | .finished ent _ => ent.expired now = false
  | _ => True

instance (now : ℤ) (p : Put) : Decidable (Fresh now p) := by
  unfold Fresh
  split <;> infer_instance

/-- The put does not mint at the end of the version range, and a negative entry
applied while the put is between its two sections has a lower version. -/
structure InOrder (c : Calls) (s : Sys) (t : Turn Who) : Prop where
  mint : t.who = .put → s.put = .start → s.ks.counter t.now c.key + 1 < 2 ^ 64
  apply : t.who = .negative → ∀ neg ent, s.negative = .minted neg → s.put = .minted ent →
    neg.version < ent.version

/-- A put on its way is above everything stored; a put that is done is stored. -/
def Safe (c : Calls) (s : Sys) : Prop :=
  match s.put with
  | .start => True
  | .minted ent => ent.value = c.value ∧ ent.flags = 0 ∧
      Below ent.version (s.ks.store.lookup c.key)
  | .finished ent false => ent.value = c.value ∧ ent.flags = 0 ∧
      s.ks.store.lookup c.key = some (LruItem.new ent)
  | _ => False

theorem tidy_stored {now : ℤ} {ent : Entry} (hx : ent.expired now = false) :
    Tidy now (· = some (LruItem.new ent)) where
  flush := by
    intro it hit
    rw [Option.some.injEq] at hit
    subst hit
    rfl
  expire := by
    intro it hexp hit
    rw [Option.some.injEq] at hit
    subst hit
    exact absurd (hexp.symm.trans hx) (by simp)

/-- Looking at the store keeps a put safe. -/
theorem Safe.tidy {c : Calls} {s : Sys} {now : ℤ} (h : Safe c s) (hfresh : Fresh now s.put)
    {ks : KsRuntime} (hlook : ∀ Q, Tidy now Q → Q (s.ks.store.lookup c.key) →
      Q (ks.store.lookup c.key)) (negative : Negative) : Safe c ⟨ks, s.put, negative⟩ := by
  unfold Safe at h ⊢
  cases hput : s.put with
  | start => trivial
  | minted ent =>
    simp only [hput] at h ⊢
    exact ⟨h.1, h.2.1, hlook _ (tidy_below now ent.version) h.2.2⟩
  | finished ent failed =>
    cases failed with
    | false =>
      simp only [hput, Fresh] at h hfresh ⊢
      exact ⟨h.1, h.2.1, hlook _ (tidy_stored hfresh) h.2.2⟩
    | true => simp only [hput] at h
  | rejected ent => simp only [hput] at h
  | recheck ent => simp only [hput] at h

/-- What every turn of a run has to meet. -/
structure Unhindered (c : Calls) (s : Sys) (t : Turn Who) : Prop where
  ample : Ample c s t
  fresh : Fresh t.now s.put
  inOrder : InOrder c s t

section Turns

variable {c : Calls} {s : Sys} {t : Turn Who} (hsafe : Safe c s) (hturn : Unhindered c s t)
include hsafe hturn

/-- A section of the put. -/
theorem safe_put (hwho : t.who = .put) : Safe c (step c s t) := by
  obtain ⟨ample, -, hmint, -⟩ := hturn
  have hcalm := ample.calm
  simp only [step, hwho] at hcalm ⊢
  cases hput : s.put with
  | start =>
    refine ⟨rfl, rfl, below_nextVersion ?_ t.walk⟩
    have := hmint hwho hput
    omega
  | minted ent =>
    simp only [Safe, hput] at hsafe
    obtain ⟨hvalue, hflags, hbelow⟩ := hsafe
    have hfits : Store.tooBig (s.ks.store.env t.now) (entryCost c.key ent) = false := by
      have := ample.fits
      rwa [← hvalue] at this
    have hplan := Store.acceptIfNewer_of_newer (s.ks.store.env t.now) c.key hfits hbelow
    have hok : (s.ks.store.perform t.now c.key (Store.acceptIfNewer c.key ent)).2 = true := by
      rw [Memory.perform_ret, hplan]
    simp only [hput, putLocalApply] at hcalm
    simp only [putLocalApply, hok, if_true]
    refine ⟨hvalue, hflags, ?_⟩
    rw [s.ks.store.lookup_perform_of_evictions_eq hcalm]
    simp only [Memory.expected, if_true, hplan]
    exact Store.result_replace _ _ _
  | finished ent failed =>
    simp only [Safe, hput] at hsafe
    simp only [putLocalApply, Safe]
    exact hsafe
  | rejected ent => simp only [Safe, hput] at hsafe
  | recheck ent => simp only [Safe, hput] at hsafe

/-- A section of the load that found nothing. -/
theorem safe_negative (hwho : t.who = .negative) : Safe c (step c s t) := by
  have hfresh := hturn.fresh
  have hcalm := hturn.ample.calm
  have happly := hturn.inOrder.apply hwho
  simp only [step, hwho] at hcalm ⊢
  cases hneg : s.negative with
  | start =>
    simp only [storeNegative]
    split
    · exact hsafe.tidy hfresh (fun Q _ hQ => hQ) _
    · exact hsafe.tidy hfresh
        (fun Q hQ => hQ.looks ((looking_peek c.key).lookup s.ks.store t.now c.key c.key)) _
  | peeked =>
    exact hsafe.tidy hfresh (fun Q hQ => hQ.nextVersion t.walk c.key 0 s.ks) _
  | minted neg =>
    simp only [hneg, storeNegative] at hcalm
    have hlook := s.ks.store.lookup_perform_of_evictions_eq hcalm c.key
    simp only [Memory.expected, if_true] at hlook
    simp only [storeNegative]
    unfold Safe at hsafe ⊢
    cases hput : s.put with
    | start => trivial
    | minted ent =>
      simp only [hput] at hsafe ⊢
      refine ⟨hsafe.1, hsafe.2.1, ?_⟩
      rcases Store.acceptNegative_result (s.ks.store.env t.now) c.key neg
        (s.ks.store.lookup c.key) with hsame | ⟨it, hit, hentry⟩
      · rw [hlook, hsame]
        exact hsafe.2.2
      · rw [hlook, hit]
        intro it' heq
        rw [Option.some.injEq] at heq
        subst heq
        have hlt := happly neg ent hneg hput
        rw [← hentry] at hlt
        exact hlt
    | finished ent failed =>
      cases failed with
      | false =>
        -- a negative entry never replaces a live positive one
        simp only [hput, Fresh] at hsafe hfresh ⊢
        refine ⟨hsafe.1, hsafe.2.1, ?_⟩
        have hflag : ∀ flag, ent.has flag = false := by simp [Entry.has, hsafe.2.1]
        have hkeep := Store.acceptNegative_of_positive (s.ks.store.env t.now) (LruItem.new ent)
          c.key (e := neg) hfresh (hflag _) (hflag _)
        rw [hlook, hsafe.2.2, hkeep]
        rfl
      | true => simp only [hput] at hsafe
    | rejected ent => simp only [hput] at hsafe
    | recheck ent => simp only [hput] at hsafe
  | finished => exact hsafe.tidy hfresh (fun Q _ hQ => hQ) _

theorem safe_step : Safe c (step c s t) := by
  cases hwho : t.who with
  | put => exact safe_put hsafe hturn hwho
  | negative => exact safe_negative hsafe hturn hwho

end Turns

/-- In every interleaving of a put with a not-found load in which the negative
entry is never applied above a put under way, a put that reports success is what
a later read returns. -/
theorem put_survives (c : Calls) (ks : KsRuntime) (turns : List (Turn Who))
    (hrun : Along (step c) (Unhindered c) ⟨ks, .start, .start⟩ turns) (ent : Entry)
    (hnil : (turns.foldl (step c) ⟨ks, .start, .start⟩).put = .finished ent false) (now : ℤ)
    (hnow : ent.expired now = false) :
    ent.value = c.value ∧ ent.isNegative = false ∧
      ((turns.foldl (step c) ⟨ks, .start, .start⟩).ks.store.perform now c.key
        (Store.get c.key)).2 = some ent := by
  have hsafe : Safe c (turns.foldl (step c) ⟨ks, .start, .start⟩) :=
    hrun.invariant (fun s t h hm => safe_step h hm) trivial
  simp only [Safe, hnil] at hsafe
  obtain ⟨hvalue, hflags, hstored⟩ := hsafe
  refine ⟨hvalue, by simp [Entry.isNegative, Entry.has, hflags], ?_⟩
  have ht : ent.isTombstone = false := by simp [Entry.isTombstone, Entry.has, hflags]
  rw [Memory.perform_ret, hstored,
    Store.get_of_live (Memory.env _ now) (LruItem.new ent) c.key hnow ht]
  rfl

/-- The negative entry is minted before the put and applied between the put's two
sections; both calls finish. -/
theorem put_survives_older_negative :
    let c : Calls := ⟨[107], [7], 0, 50⟩
    let ks : KsRuntime := ⟨Memory.newMemory 1000 0, ∅, 0⟩
    let walk : Walk := ⟨[], []⟩
    let turns : List (Turn Who) := [⟨.negative, 1, walk⟩, ⟨.negative, 2, walk⟩, ⟨.put, 3, walk⟩,
      ⟨.negative, 4, walk⟩, ⟨.put, 5, walk⟩]
    let s := turns.foldl (step c) ⟨ks, .start, .start⟩
    s.put = .finished ⟨[7], 2, 0, 0⟩ false ∧ s.negative = .finished ∧
      (s.ks.store.perform 6 c.key (Store.get c.key)).2 = some ⟨[7], 2, 0, 0⟩ := by
  intro c ks walk turns s
  have hdone : s.put = .finished ⟨[7], 2, 0, 0⟩ false ∧ s.negative = .finished := by
    decide +kernel
  have hbetween : ((turns.take 3).foldl (step c) ⟨ks, .start, .start⟩).negative =
      .minted ⟨[], 1, 52, flagNegative⟩ ∧
      ((turns.take 3).foldl (step c) ⟨ks, .start, .start⟩).put = .minted ⟨[7], 2, 0, 0⟩ := by
    decide +kernel
  have hrun : Along (step c) (Unhindered c) ⟨ks, .start, .start⟩ turns := by
    refine ⟨⟨by decide +kernel, by decide +kernel, (fun h => nomatch h), fun _ _ _ h => nomatch h⟩,
      ⟨by decide +kernel, by decide +kernel, (fun h => nomatch h), fun _ _ _ h => nomatch h⟩,
      ⟨by decide +kernel, by decide +kernel, fun _ _ => by decide +kernel, fun h => nomatch h⟩,
      ⟨by decide +kernel, by decide +kernel, (fun h => nomatch h), fun _ neg ent hneg hput => ?_⟩,
      ⟨by decide +kernel, by decide +kernel, fun _ _ => by decide +kernel, fun h => nomatch h⟩,
      trivial⟩
    cases hbetween.1.symm.trans hneg
    cases hbetween.2.symm.trans hput
    decide
  exact ⟨hdone.1, hdone.2, (put_survives c ks turns hrun ⟨[7], 2, 0, 0⟩ hdone.1 6 rfl).2.2⟩

/-- The negative entry is minted after the put and applied before it: the put
reports success and a read finds the negative entry. -/
theorem put_lost_to_negative :
    let c : Calls := ⟨[107], [7], 0, 50⟩
    let ks : KsRuntime := ⟨Memory.newMemory 1000 0, ∅, 0⟩
    let walk : Walk := ⟨[], []⟩
    let s := [⟨.put, 1, walk⟩, ⟨.negative, 2, walk⟩, ⟨.negative, 3, walk⟩, ⟨.negative, 4, walk⟩,
      ⟨.put, 5, walk⟩, ⟨.put, 6, walk⟩].foldl (step c) ⟨ks, .start, .start⟩
    s.put = .finished ⟨[7], 1, 0, 0⟩ false ∧ s.negative = .finished ∧
      (s.ks.store.perform 7 c.key (Store.get c.key)).2 = some ⟨[], 2, 53, flagNegative⟩ :=
  ⟨rfl, rfl, rfl⟩

end Supercache.PutNegative
