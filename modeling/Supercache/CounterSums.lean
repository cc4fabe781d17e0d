import Supercache.MachineInt
import Supercache.Ops
import Supercache.PlainResults
import Supercache.Schedule

/-!
A counter in a store without byte limit holds the sum of the deltas that were applied. The
test for overflow is made in 64-bit integers and is exact. A refused call changes nothing. The
version of the entry counts the applied calls, modulo `2 ^ 64`.
-/
namespace Supercache.Counter

open Wire Lru Store Schedule MachineInt

section Machine

def addInt64 (cur delta : Int64) : Option Int64 :=
  if 0 < delta ∧ Int64.maxValue - delta < cur then none
  else if delta < 0 ∧ cur < Int64.minValue - delta then none
  else some (cur + delta)

theorem add_eq {cur delta : ℤ} (hcur : InRange cur) (hdelta : InRange delta) :
    add cur delta = if InRange (cur + delta) then some (cur + delta) else none := by
  have hlow := hcur.1
  have hhigh := hcur.2
  have hdlow := hdelta.1
  have hdhigh := hdelta.2
  unfold add minInt64 maxInt64
  by_cases hin : InRange (cur + delta)
  · have hslow := hin.1
    have hshigh := hin.2
    rw [if_pos hin, if_neg (by omega), if_neg (by omega)]
  · rw [if_neg hin]
    unfold InRange at hin
    by_cases hpos : 0 < delta
    · rw [if_pos (by omega)]
    · rw [if_neg (by omega), if_pos (by omega)]

theorem decode_encode_of_inRange {t : ℤ} (h : InRange t) : decode (encode t) = some t := by
  have hhigh := h.2
  exact decode_encode t h.1 (by unfold maxInt64; omega)

/-- Neither of the two tests overflows itself, and so the sum does not wrap. -/
theorem map_addInt64 (cur delta : Int64) :
    (addInt64 cur delta).map Int64.toInt = add cur.toInt delta.toInt := by
  have hcur := inRange_toInt cur
  have hdelta := inRange_toInt delta
  have hlow := hdelta.1
  have hhigh := hdelta.2
  have hmax : Int64.maxValue.toInt = 2 ^ 63 - 1 := Int64.toInt_maxValue
  have hmin : Int64.minValue.toInt = -2 ^ 63 := Int64.toInt_minValue
  have hover : (0 < delta ∧ Int64.maxValue - delta < cur) ↔
      0 < delta.toInt ∧ maxInt64 - delta.toInt < cur.toInt := by
    simp only [Int64.lt_iff_toInt_lt, Int64.toInt_zero]
    refine and_congr_right fun hpos => ?_
    rw [toInt_sub (by unfold InRange; omega), hmax, maxInt64]
  have hunder : (delta < 0 ∧ cur < Int64.minValue - delta) ↔
      delta.toInt < 0 ∧ cur.toInt < minInt64 - delta.toInt := by
    simp only [Int64.lt_iff_toInt_lt, Int64.toInt_zero]
    refine and_congr_right fun hneg => ?_
    rw [toInt_sub (by unfold InRange; omega), hmin, minInt64]
  have hsum := add_eq hcur hdelta
  unfold addInt64
  unfold add at hsum ⊢
  by_cases hfirst : 0 < delta.toInt ∧ maxInt64 - delta.toInt < cur.toInt
  · rw [if_pos (hover.mpr hfirst), if_pos hfirst, Option.map_none]
  · rw [if_neg (fun h => hfirst (hover.mp h)), if_neg hfirst]
    rw [if_neg hfirst] at hsum
    by_cases hsecond : delta.toInt < 0 ∧ cur.toInt < minInt64 - delta.toInt
    · rw [if_pos (hunder.mpr hsecond), if_pos hsecond, Option.map_none]
    · rw [if_neg (fun h => hsecond (hunder.mp h)), if_neg hsecond, Option.map_some]
      rw [if_neg hsecond] at hsum
      have hin : InRange (cur.toInt + delta.toInt) := by
        by_contra hout
        rw [if_neg hout] at hsum
        simp at hsum
      rw [toInt_add hin]

end Machine

section Calls

structure Increment where
  delta : Int64
  version : ℕ
  expireAt : ℤ
  now : ℤ

def Increment.op (key : Bytes) (c : Increment) : Op :=
  ⟨c.now, key, .plain (.cIncr c.delta.toInt c.version c.expireAt)⟩

def incr (key : Bytes) (m : Mem) (c : Increment) : Mem := (step m (c.op key)).1

/-- The name has no counter yet, or one that holds `t` after `n` applied calls. -/
inductive At (key : Bytes) (m : Mem) : ℤ → ℕ → Prop
  | absent (h : m.lookup key = none) : At key m 0 0
  | held (it : LruItem) (t : ℤ) (n : ℕ) (h : m.lookup key = some it)
    (ht : it.entry.isTombstone = false) (hhas : it.entry.has flagCounter = true)
    (hvalue : it.entry.value = encode t) (hrange : InRange t)
    (hversion : it.entry.version = n % 2 ^ 64) : At key m t n

def versionOf (m : Mem) (key : Bytes) : ℕ := ((m.lookup key).map fun it => it.entry.version).getD 0

variable {key : Bytes} {m : Mem} {t : ℤ} {n : ℕ}

theorem At.versionOf_eq (h : At key m t n) : versionOf m key = n % 2 ^ 64 := by
  cases h with
  | absent h => simp [versionOf, h]
  | held it t n h ht hhas hvalue hrange hversion => simp [versionOf, h, hversion]

theorem at_of_entry {it : LruItem} (h : m.lookup key = some it)
    (hflags : it.entry.flags = flagCounter) (hvalue : it.entry.value = encode t)
    (hrange : InRange t) (hversion : it.entry.version = n % 2 ^ 64) : At key m t n := by
  refine .held it t n h ?_ ?_ hvalue hrange hversion
  · rw [Entry.isTombstone, Entry.has, hflags]
    decide
  · rw [Entry.has, hflags]
    decide

/-- What a call answers and leaves under its name, by its plan. -/
theorem step_eq (key : Bytes) (hmax : m.cache.maxBytes ≤ 0) (c : Increment) :
    (step m (c.op key)).2 = .counted
        ((cIncr key c.delta.toInt c.version c.expireAt (m.env c.now) (m.lookup key)).ret
          ((incr key m c).lookup key).isSome) ∧ (incr key m c).lookup key =
        (cIncr key c.delta.toInt c.version c.expireAt (m.env c.now) (m.lookup key)).act.result
          (m.lookup key) := by
  refine ⟨rfl, ?_⟩
  have hlookup := m.lookup_perform_of_unbounded hmax c.now key ((c.op key).call.verb key) key
  rw [Memory.expected, if_pos rfl] at hlookup
  exact hlookup

/-- An increment whose sum is in range is applied, any other changes nothing. -/
theorem At.advance (h : At key m t n) (hmax : m.cache.maxBytes ≤ 0) {c : Increment}
    (hlive : ∀ it ∈ m.lookup key, it.entry.expired c.now = false) :
    ((incr key m c).lookup key).isSome = true ∧ ((InRange (t + c.delta.toInt) ∧
        (step m (c.op key)).2 = .counted (t + c.delta.toInt, true, false) ∧
        At key (incr key m c) (t + c.delta.toInt) (n + 1)) ∨
      (¬ InRange (t + c.delta.toInt) ∧ (step m (c.op key)).2 = .counted (t, false, true) ∧
        (incr key m c).lookup key = m.lookup key)) := by
  obtain ⟨hret, hlookup⟩ := step_eq key hmax c
  rw [hret]
  cases h with
  | absent hnone =>
    rw [hnone] at hlookup ⊢
    have hafter : (incr key m c).lookup key =
        some (fresh ⟨encode c.delta.toInt, 1, c.expireAt, flagCounter⟩) := hlookup
    refine ⟨by rw [hafter]; rfl, .inl ⟨by rw [Int.zero_add]; exact inRange_toInt _, ?_, ?_⟩⟩
    · rw [hafter, Int.zero_add]
      rfl
    · rw [Int.zero_add]
      exact at_of_entry hafter rfl rfl (inRange_toInt _) rfl
  | held it t n hit ht hhas hvalue hrange hversion =>
    have hexp := hlive it hit
    have hentry : entry it = it.entry := rfl
    have henv : (m.env c.now).now = c.now := rfl
    have hdecode : decode it.entry.value = some t := by rw [hvalue, decode_encode_of_inRange hrange]
    have hadd := add_eq hrange (inRange_toInt c.delta)
    by_cases hin : InRange (t + c.delta.toInt)
    · rw [if_pos hin] at hadd
      simp only [hit, cIncr, hentry, henv, hexp, ht, hhas, hdecode, hadd, Bool.false_eq_true,
        Bool.not_true, if_false] at hlookup ⊢
      have hafter : (incr key m c).lookup key = some (put it (rewritten it.entry
          (encode (t + c.delta.toInt)) (bump it.entry.version) flagCounter c.expireAt)) := hlookup
      have hbump : bump it.entry.version = (n + 1) % 2 ^ 64 := by
        rw [hversion, bump, Nat.mod_add_mod]
      exact ⟨by rw [hafter]; rfl, .inl ⟨hin, trivial, at_of_entry hafter rfl rfl hin hbump⟩⟩
    · rw [if_neg hin] at hadd
      simp only [hit, cIncr, hentry, henv, hexp, ht, hhas, hdecode, hadd, Bool.false_eq_true,
        Bool.not_true, if_false] at hlookup ⊢
      exact ⟨by rw [hlookup]; rfl, .inr ⟨hin, rfl, hlookup⟩⟩

theorem At.congr {m' : Mem} (h : At key m t n) (heq : m'.lookup key = m.lookup key) :
    At key m' t n := by
  cases h with
  | absent hnone => exact .absent (heq.trans hnone)
  | held it t n hit ht hhas hvalue hrange hversion =>
    exact .held it t n (heq.trans hit) ht hhas hvalue hrange hversion

theorem incr_maxBytes (key : Bytes) (m : Mem) (c : Increment) :
    (incr key m c).cache.maxBytes = m.cache.maxBytes :=
  congrArg Env.maxBytes (m.perform_env c.now key ((c.op key).call.verb key) c.now)

end Calls

section Runs

def applied : Ret → Bool
  | .counted (_, ok, _) => ok
  | _ => false

def total (key : Bytes) (m : Mem) (calls : List Increment) : ℤ :=
  (List.zipWith (fun c a => if applied a then c.delta.toInt else 0) calls
    (answers m (calls.map (Increment.op key)))).sum

/-- The entry under the name has not expired when the call looks at it. -/
def Unexpired (key : Bytes) (m : Mem) (c : Increment) : Prop :=
  ∀ it ∈ m.lookup key, it.entry.expired c.now = false

instance Unexpired.decidable (key : Bytes) (m : Mem) (c : Increment) :
    Decidable (Unexpired key m c) :=
  inferInstanceAs (Decidable (∀ it ∈ m.lookup key, it.entry.expired c.now = false))

variable {key : Bytes} {m : Mem}

theorem total_cons (c : Increment) (calls : List Increment) : total key m (c :: calls) =
      (if applied (step m (c.op key)).2 then c.delta.toInt else 0) +
        total key (incr key m c) calls := by
  simp [total, answers, incr]

theorem run_eq (key : Bytes) (m : Mem) (calls : List Increment) :
    run m (calls.map (Increment.op key)) = calls.foldl (incr key) m := by
  rw [run, List.foldl_map]
  rfl

theorem At.next {t : ℤ} {n : ℕ} (h : At key m t n) (hmax : m.cache.maxBytes ≤ 0) {c : Increment}
    (hlive : Unexpired key m c) : ∃ n', At key (incr key m c)
      (t + if applied (step m (c.op key)).2 then c.delta.toInt else 0) n' := by
  rcases (h.advance hmax hlive).2 with ⟨-, hret, hat⟩ | ⟨-, hret, hsame⟩
  · rw [hret, applied, if_pos rfl]
    exact ⟨n + 1, hat⟩
  · rw [hret, applied, if_neg (by simp), Int.add_zero]
    exact ⟨n, h.congr hsame⟩

theorem at_run {t : ℤ} {n : ℕ} (h : At key m t n) (hmax : m.cache.maxBytes ≤ 0)
    {calls : List Increment} (hlive : Along (incr key) (Unexpired key) m calls) :
    (calls.foldl (incr key) m).cache.maxBytes ≤ 0 ∧
      ∃ n', At key (calls.foldl (incr key) m) (t + total key m calls) n' := by
  induction calls generalizing m t n with
  | nil => exact ⟨hmax, n, by simpa [total, answers] using h⟩
  | cons c calls ih =>
    obtain ⟨n', hnext⟩ := h.next hmax hlive.1
    rw [total_cons, ← Int.add_assoc]
    exact ih hnext (by rwa [incr_maxBytes]) hlive.2

theorem At.cGet_eq {t : ℤ} {n : ℕ} {now : ℤ} (h : At key m t n)
    (hsome : (m.lookup key).isSome = true)
    (hlive : ∀ it ∈ m.lookup key, it.entry.expired now = false) :
    (step m ⟨now, key, .plain .cGet⟩).2 = .optInt (some t) := by
  cases h with
  | absent hnone =>
    rw [hnone] at hsome
    cases hsome
  | held it t n hit ht hhas hvalue hrange hversion =>
    have hexp := hlive it hit
    have hentry : entry it = it.entry := rfl
    have henv : (m.env now).now = now := rfl
    have hdecode : decode it.entry.value = some t := by rw [hvalue, decode_encode_of_inRange hrange]
    change Ret.optInt ((cGet (m.env now) (m.lookup key)).ret _) = _
    simp only [hit, cGet, readLive, hentry, henv, hexp, ht, hhas, hdecode, Bool.false_eq_true,
      Bool.not_true, or_self, if_false, Plan.skip]

/-- Every call is applied exactly when the sum stays a signed 64-bit integer. Applied, it raises
the version by one, modulo `2 ^ 64`, and refused, it leaves the entry as it is. A read then
finds the sum of the applied deltas. -/
theorem counter_exact (key : Bytes) (m : Mem) (hmax : m.cache.maxBytes ≤ 0)
    (hnone : m.lookup key = none) (calls : List Increment)
    (hlive : Along (incr key) (Unexpired key) m calls) :
    (∀ pre c post, calls = pre ++ c :: post →
      let before := run m (pre.map (Increment.op key))
      let after := step before (c.op key)
      (InRange (total key m pre + c.delta.toInt) →
        after.2 = .counted (total key m pre + c.delta.toInt, true, false) ∧
        versionOf after.1 key = (versionOf before key + 1) % 2 ^ 64) ∧
      (¬ InRange (total key m pre + c.delta.toInt) →
        after.2 = .counted (total key m pre, false, true) ∧
        after.1.lookup key = before.lookup key)) ∧
    (calls ≠ [] → ∀ now,
      (∀ it ∈ (run m (calls.map (Increment.op key))).lookup key,
        it.entry.expired now = false) →
      (step (run m (calls.map (Increment.op key))) ⟨now, key, .plain .cGet⟩).2 =
        .optInt (some (total key m calls))) ∧
    ∀ cur delta : Int64, (addInt64 cur delta).map Int64.toInt = add cur.toInt delta.toInt := by
  have hstart : At key m 0 0 := .absent hnone
  refine ⟨?_, ?_, map_addInt64⟩
  · rintro pre c post rfl
    obtain ⟨hpre, hc⟩ := hlive.of_append
    obtain ⟨hmaxn, n, hat⟩ := at_run hstart hmax hpre
    rw [Int.zero_add] at hat
    rw [run_eq]
    rcases (hat.advance hmaxn hc).2 with ⟨hin, hret, hnext⟩ | ⟨hin, hret, hsame⟩
    · refine ⟨fun _ => ⟨hret, ?_⟩, fun hout => absurd hin hout⟩
      rw [hat.versionOf_eq, Nat.mod_add_mod]
      exact hnext.versionOf_eq
    · exact ⟨fun h => absurd h hin, fun _ => ⟨hret, hsame⟩⟩
  · intro hne now hnow
    obtain ⟨pre, c, rfl⟩ := (List.eq_nil_or_concat' calls).resolve_left hne
    obtain ⟨-, n, hat⟩ := at_run hstart hmax hlive
    rw [Int.zero_add] at hat
    rw [run_eq] at hnow ⊢
    refine hat.cGet_eq ?_ hnow
    -- every call leaves a counter behind, so the last one does
    obtain ⟨hpre, hc⟩ := hlive.of_append
    obtain ⟨hmaxn, n', hbefore⟩ := at_run hstart hmax hpre
    rw [List.foldl_append]
    exact (hbefore.advance hmaxn hc).1

def extremes : List Increment :=
  [⟨Int64.maxValue, 1, 0, 0⟩, ⟨1, 2, 0, 5⟩, ⟨Int64.minValue, 3, 0, 6⟩]

/-- The largest amount, one that would overflow, and the smallest. -/
theorem counter_exact_extremes :
    (answers (Memory.newMemory 0 0) (extremes.map (Increment.op [1]))).map applied =
        [true, false, true] ∧
      (step (run (Memory.newMemory 0 0) (extremes.map (Increment.op [1])))
        ⟨7, [1], .plain .cGet⟩).2 = .optInt (some (-1)) := by
  have hread := (counter_exact [1] (Memory.newMemory 0 0) (by decide) (by decide) extremes
    (by decide +kernel)).2.1 (by decide) 7 (by decide +kernel)
  have htotal : total [1] (Memory.newMemory 0 0) extremes = -1 := by decide +kernel
  rw [htotal] at hread
  exact ⟨by decide +kernel, hread⟩

end Runs

section Wrap

variable {key : Bytes} {m : Mem}

def touch : Increment := ⟨0, 0, 0, 0⟩

theorem expireAt_cIncr {env : Env} {old : Option LruItem} (delta : ℤ) (version : ℕ)
    (hold : ∀ it ∈ old, it.entry.expireAt = 0) :
    ∀ it ∈ (cIncr key delta version 0 env old).act.result old, it.entry.expireAt = 0 := by
  intro it hit
  unfold cIncr at hit
  cases old with
  | none =>
    cases hit
    rfl
  | some a =>
    have ha : a.entry.expireAt = 0 := hold a rfl
    simp only at hit
    split_ifs at hit
    · cases hit
      rfl
    · exact hold it hit
    · cases hit
      rfl
    · exact hold it hit
    · split at hit
      · exact hold it hit
      · split at hit
        · exact hold it hit
        · cases hit
          exact ha

theorem at_touches (hmax : m.cache.maxBytes ≤ 0) {n : ℕ} (h : At key m 0 n)
    (hexp : ∀ it ∈ m.lookup key, it.entry.expireAt = 0) (k : ℕ) :
    Along (incr key) (Unexpired key) m (List.replicate k touch) ∧
      At key ((List.replicate k touch).foldl (incr key) m) 0 (n + k) := by
  induction k generalizing m n with
  | zero => exact ⟨trivial, h⟩
  | succ k ih =>
    have hlive : Unexpired key m touch := by
      intro it hit
      simp [Entry.expired, hexp it hit]
    have hafter : ∀ it ∈ (incr key m touch).lookup key, it.entry.expireAt = 0 := by
      rw [(step_eq key hmax touch).2]
      exact expireAt_cIncr _ _ hexp
    have hnext : At key (incr key m touch) 0 (n + 1) := by
      rcases (h.advance hmax hlive).2 with ⟨-, -, hat⟩ | ⟨hout, -⟩
      · exact hat
      · exact absurd (by decide) hout
    obtain ⟨hrun, hat⟩ := ih (by rwa [incr_maxBytes]) hnext hafter
    exact ⟨⟨hlive, hrun⟩, by rwa [Nat.add_assoc, Nat.add_comm 1] at hat⟩

/-- In a new store the version after `k` calls is `k` modulo `2 ^ 64`, and one more is applied. -/
theorem touches_newMemory (key : Bytes) (k : ℕ) :
    Along (incr key) (Unexpired key) (Memory.newMemory 0 0) (List.replicate k touch ++ [touch]) ∧
      (step (run (Memory.newMemory 0 0) ((List.replicate k touch).map (Increment.op key)))
        (touch.op key)).2 = .counted (0, true, false) ∧
      versionOf (run (Memory.newMemory 0 0) ((List.replicate k touch).map (Increment.op key))) key =
        k % 2 ^ 64 := by
  have hmax : (Memory.newMemory 0 0 : Mem).cache.maxBytes ≤ 0 := Int.le_refl 0
  have hstart : At key (Memory.newMemory 0 0) 0 0 := .absent rfl
  have hnone : ∀ it ∈ (Memory.newMemory 0 0 : Mem).lookup key, it.entry.expireAt = 0 := by
    rw [show (Memory.newMemory 0 0 : Mem).lookup key = none from rfl]
    exact fun it hit => absurd hit (Option.not_mem_none it)
  obtain ⟨hall, -⟩ := at_touches hmax hstart hnone (k + 1)
  obtain ⟨hrun, hat⟩ := at_touches hmax hstart hnone k
  rw [List.replicate_succ'] at hall
  rw [Nat.zero_add] at hat
  refine ⟨hall, ?_, by rw [run_eq, hat.versionOf_eq]⟩
  rw [run_eq]
  rcases (hat.advance (at_run hstart hmax hrun).1 hall.of_append.2).2 with
    ⟨-, hret, -⟩ | ⟨hout, -⟩
  · exact hret
  · exact absurd (by decide) hout

/-- After `2 ^ 64 - 1` applied calls the next one is applied and sets the version back to zero. -/
theorem not_version_succ : ∃ calls : List Increment,
    Along (incr [1]) (Unexpired [1]) (Memory.newMemory 0 0) (calls ++ [touch]) ∧
      (step (run (Memory.newMemory 0 0) (calls.map (Increment.op [1]))) (touch.op [1])).2 =
        .counted (0, true, false) ∧
      versionOf (run (Memory.newMemory 0 0) (calls.map (Increment.op [1]))) [1] = 2 ^ 64 - 1 ∧
      versionOf (run (Memory.newMemory 0 0) ((calls ++ [touch]).map (Increment.op [1]))) [1] =
        0 := by
  obtain ⟨hrun, hret, hbefore⟩ := touches_newMemory [1] (2 ^ 64 - 1)
  obtain ⟨-, -, hafter⟩ := touches_newMemory [1] (2 ^ 64 - 1 + 1)
  rw [List.replicate_succ'] at hafter
  exact ⟨_, hrun, hret, hbefore, hafter⟩

end Wrap

end Supercache.Counter
