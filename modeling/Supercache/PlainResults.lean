import Supercache.PlainModes

/-!
What the calls of the modes without a cached value leave at their key, whatever was
there: the same item, or one with the flag of the mode and new bytes, which the
operation made from nothing or from the bytes of a live entry of that mode.
-/
namespace Supercache

open Wire Lru

/-- What a call leaves at its key comes from its plan, unless it is evicted. -/
theorem Memory.forall_lookup_perform {α ρ : Type} [Stored α] {P : α → Prop} (m : Memory α) (now : ℤ)
    (key : Bytes) {v : Verb α ρ}
    (h : ∀ a ∈ (v (m.env now) (m.lookup key)).act.result (m.lookup key), P a) :
    ∀ a ∈ (m.perform now key v).1.lookup key, P a := by
  intro a ha
  rcases m.lookup_perform now key v key with heq | ⟨hnone, -⟩
  · rw [heq, Memory.expected, if_pos rfl] at ha
    exact h a ha
  · rw [hnone] at ha
    simp at ha

def Memory.live {α : Type} [Stored α] (m : Memory α) (key : Bytes) (now : ℤ) : Bool :=
  (m.lookup key).any fun a => !(entry a).expired now

theorem Memory.live_iff {α : Type} [Stored α] {m : Memory α} {key : Bytes} {now : ℤ} :
    m.live key now = true ↔ ∃ a, m.lookup key = some a ∧ (entry a).expired now = false := by
  simp [Memory.live, Option.any_eq_true]

/-- A call on another key leaves the item or evicts it. -/
theorem Memory.lookup_perform_of_ne {α ρ : Type} [Stored α] (m : Memory α) (now : ℤ)
    {key k : Bytes} (hne : key ≠ k) (v : Verb α ρ) {a : α}
    (h : (m.perform now key v).1.lookup k = some a) : m.lookup k = some a := by
  rcases m.lookup_perform now key v k with heq | ⟨hnone, -⟩
  · rw [heq, Memory.expected, if_neg hne.symm] at h
    exact h
  · rw [hnone] at h
    simp at h

namespace Store

variable {α ρ : Type} [Stored α] {flag : ℕ} {key : Bytes} {version : ℕ} {expireAt : ℤ} {env : Env}
  {old : Option α} {a' : α}

inductive Written (flag : ℕ) (makes : Option Bytes → Bytes → Prop) (old : Option α) (a' : α) : Prop
  | kept (h : old = some a')
  | new (h : makes none (entry a').value) (hflags : (entry a').flags = flag)
  | amended (a : α) (hold : old = some a) (ht : (entry a).isTombstone = false)
    (hhas : (entry a).has flag = true) (h : makes (some (entry a).value) (entry a').value)
    (hflags : (entry a').flags = flag)

theorem result_readLive {miss : ρ} {f : Entry → ρ}
    (h : (readLive flag miss f env old).act.result old = some a') : old = some a' := by
  unfold readLive at h
  split at h
  · exact h
  · split at h
    · simp [Plan.drop, Act.result] at h
    · split at h <;> exact h

omit [Stored α] in
theorem result_delete : (delete env old).act.result old = none := by
  cases old <;> rfl

theorem result_deleteIfVersion
    (h : (deleteIfVersion key version env old).act.result old = some a') :
    old = some a' ∨ entry a' = tombstone env version := by
  cases old with
  | none =>
    rw [← Option.some.inj h]
    exact .inr (Stored.entry_fresh _)
  | some a =>
    simp only [deleteIfVersion] at h
    split at h
    · exact .inl h
    · rw [← Option.some.inj h]
      exact .inr (Stored.entry_put a _)

/-- The bytes made from those of a live entry. -/
theorem written_amended {op : Option Bytes → Outcome ρ} {a : α}
    (ht : (entry a).isTombstone = false) (hhas : (entry a).has flag = true) {blob : Bytes}
    {r : Bool → ρ} (hop : op (some (entry a).value) = .commit blob r)
    (h : (writeOver key a blob flag expireAt clamped).result (some a) = some a') :
    Written flag (fun cur blob => ∃ r, op cur = .commit blob r) (some a) a' := by
  rw [← Option.some.inj h]
  refine .amended a rfl ht hhas ?_ (by rw [Stored.entry_put]; rfl)
  rw [Stored.entry_put]
  exact ⟨r, hop⟩

/-- A mutation leaves the item or commits new bytes. -/
theorem written_mutatePlain {refused : ρ} {op : Option Bytes → Outcome ρ}
    (h : (mutatePlain flag key version expireAt refused op env old).act.result old = some a') :
    Written flag (fun cur blob => ∃ r, op cur = .commit blob r) old a' := by
  cases hop : op none with
  | refuse r =>
    simp only [mutatePlain, hop] at h
    rcases old with _ | a
    · simp only at h
      simp [Plan.drop, Act.result] at h
    · simp only at h
      split at h
      · simp [Plan.drop, Act.result] at h
      · by_cases ht : (entry a).isTombstone
        · rw [if_pos ht] at h
          split at h <;> exact .kept h
        · rw [if_neg ht] at h
          by_cases hhas : (entry a).has flag
          · rw [if_pos hhas] at h
            split at h
            · exact .kept h
            next hcommit =>
              exact written_amended (Bool.not_eq_true _ ▸ ht) hhas hcommit h
          · rw [if_neg hhas] at h
            exact .kept h
  | commit blob r =>
    simp only [mutatePlain, hop] at h
    have hfresh : some (fresh (⟨blob, 1, expireAt, flag⟩ : Entry)) = some a' →
        Written flag (fun cur blob => ∃ r, op cur = .commit blob r) old a' := by
      intro hnew
      rw [← Option.some.inj hnew]
      exact .new (by rw [Stored.entry_fresh]; exact ⟨r, hop⟩) (by rw [Stored.entry_fresh])
    rcases old with _ | a
    · simp only at h
      exact hfresh h
    · simp only at h
      split at h
      · exact hfresh h
      · by_cases ht : (entry a).isTombstone
        · rw [if_pos ht] at h
          split at h
          · exact .kept h
          · rw [← Option.some.inj h]
            exact .new (by rw [Stored.entry_put]; exact ⟨r, hop⟩) (by rw [Stored.entry_put]; rfl)
        · rw [if_neg ht] at h
          by_cases hhas : (entry a).has flag
          · rw [if_pos hhas] at h
            split at h
            · exact .kept h
            next hcommit =>
              exact written_amended (Bool.not_eq_true _ ▸ ht) hhas hcommit h
          · rw [if_neg hhas] at h
            exact .kept h

inductive Outcome.Answers : Outcome ρ → ρ → Prop
  | refuse (r : ρ) : Answers (.refuse r) r
  | commit (blob : Bytes) (r : Bool → ρ) (still : Bool) : Answers (.commit blob r) (r still)

/-- A mutation answers what its operation answers, unless the name is refused to it. -/
theorem answers_mutatePlain (key : Bytes) (version : ℕ) (expireAt : ℤ) (refused : ρ)
    (op : Option Bytes → Outcome ρ) (env : Env) (old : Option α) (still : Bool) :
    (mutatePlain flag key version expireAt refused op env old).ret still = refused ∨
      (op none).Answers ((mutatePlain flag key version expireAt refused op env old).ret still) ∨
      ∃ a, old = some a ∧ (entry a).has flag = true ∧ (op (some (entry a).value)).Answers
        ((mutatePlain flag key version expireAt refused op env old).ret still) := by
  unfold mutatePlain
  dsimp only
  rcases old with _ | a
  · dsimp only
    refine .inr (.inl ?_)
    cases op none with
    | refuse r => exact .refuse r
    | commit blob r => exact .commit blob r still
  · dsimp only
    split
    · refine .inr (.inl ?_)
      cases op none with
      | refuse r => exact .refuse r
      | commit blob r => exact .commit blob r still
    · split
      · split
        · exact .inl rfl
        · refine .inr (.inl ?_)
          cases op none with
          | refuse r => exact .refuse r
          | commit blob r => exact .commit blob r still
      · by_cases hhas : (entry a).has flag
        · rw [if_pos hhas]
          refine .inr (.inr ⟨a, rfl, hhas, ?_⟩)
          cases op (some (entry a).value) with
          | refuse r => exact .refuse r
          | commit blob r => exact .commit blob r still
        · rw [if_neg hhas]
          exact .inl rfl

/-- The bytes that a mutation of a name gets to see: none where there is no entry or one that
has expired, those of the entry where it is of the mode. -/
inductive Sees (flag : ℕ) (now : ℤ) : Option α → Option Bytes → Prop
  | missing : Sees flag now none none
  | lapsed (a : α) (hexp : (entry a).expired now = true) : Sees flag now (some a) none
  | live (a : α) (hexp : (entry a).expired now = false) (ht : (entry a).isTombstone = false)
    (hhas : (entry a).has flag = true) : Sees flag now (some a) (some (entry a).value)

section Sees

variable (key : Bytes) (version : ℕ) (expireAt : ℤ) (refused : ρ) {op : Option Bytes → Outcome ρ}
  {cur : Option Bytes}

/-- A refused mutation leaves the live entry. -/
theorem mutatePlain_of_refuse (hsees : Sees flag env.now old cur) {r : ρ}
    (hop : op cur = .refuse r) :
    (mutatePlain flag key version expireAt refused op env old).ret = (fun _ => r) ∧
      ∀ a, (mutatePlain flag key version expireAt refused op env old).act.result old = some a →
        old = some a ∧ cur = some (entry a).value := by
  cases hsees with
  | missing => simp [mutatePlain, hop, Plan.drop, Act.result]
  | lapsed a hexp => simp [mutatePlain, hop, hexp, Plan.drop, Act.result]
  | live a hexp ht hhas =>
    simp only [mutatePlain, hop, hexp, ht, hhas, if_true, Bool.false_eq_true, if_false, Plan.skip,
      Act.result, Option.some.injEq, true_and]
    rintro a' rfl
    exact ⟨rfl, rfl⟩

/-- A mutation that is carried out leaves its bytes under the flag. -/
theorem mutatePlain_of_commit (hsees : Sees flag env.now old cur) {blob : Bytes} {r : Bool → ρ}
    (hop : op cur = .commit blob r) :
    (mutatePlain flag key version expireAt refused op env old).ret = r ∧
      ∃ a, (mutatePlain flag key version expireAt refused op env old).act.result old = some a ∧
        (entry a).value = blob ∧ (entry a).flags = flag := by
  cases hsees with
  | missing =>
    simp only [mutatePlain, hop]
    exact ⟨trivial, _, rfl, by rw [Stored.entry_fresh], by rw [Stored.entry_fresh]⟩
  | lapsed a hexp =>
    simp only [mutatePlain, hop, hexp, if_true]
    exact ⟨trivial, _, rfl, by rw [Stored.entry_fresh], by rw [Stored.entry_fresh]⟩
  | live a hexp ht hhas =>
    simp only [mutatePlain, hop, hexp, ht, hhas, if_true, Bool.false_eq_true, if_false]
    exact ⟨trivial, _, rfl, by rw [Stored.entry_put]; rfl, by rw [Stored.entry_put]; rfl⟩

end Sees

/-- A removal leaves the item or commits new bytes. -/
theorem written_removePlain {op : Bytes → Option Bytes}
    (h : (removePlain flag key version expireAt op env old).act.result old = some a') :
    Written flag (fun cur blob => ∃ b, cur = some b ∧ op b = some blob) old a' := by
  unfold removePlain at h
  rcases old with _ | a
  · simp only at h
    exact .kept h
  · simp only at h
    split at h
    · simp [Plan.drop, Act.result] at h
    · by_cases ht : (entry a).isTombstone
      · rw [if_pos ht] at h
        split at h <;> exact .kept h
      · rw [if_neg ht] at h
        by_cases hlacks : (!(entry a).has flag)
        · rw [if_pos hlacks] at h
          exact .kept h
        · rw [if_neg hlacks] at h
          rcases hop : op (entry a).value with _ | blob
          · simp only [hop] at h
            exact .kept h
          · simp only [hop] at h
            simp only [writeOver, Act.result, Option.map_some, Option.some.injEq] at h
            rw [← h]
            refine .amended a rfl (Bool.not_eq_true _ ▸ ht) (by simpa using hlacks) ?_
              (by rw [Stored.entry_put]; rfl)
            rw [Stored.entry_put]
            exact ⟨_, rfl, hop⟩

theorem written_plainInstall {gate : Entry → Option Tally} {blob : Bytes}
    (h : (plainInstall gate flag key blob version expireAt env old).act.result old = some a') :
    Written flag (fun cur b => cur = none ∧ b = blob) old a' := by
  have hinstall : some (fresh (⟨blob, version, expireAt, flag⟩ : Entry)) = some a' →
      Written flag (fun cur b => cur = none ∧ b = blob) old a' := by
    intro hnew
    rw [← Option.some.inj hnew]
    exact .new (by rw [Stored.entry_fresh]; exact ⟨rfl, rfl⟩) (by rw [Stored.entry_fresh])
  unfold plainInstall at h
  split at h
  · exact hinstall h
  · split at h
    · exact hinstall h
    · split at h
      · exact .kept h
      · exact hinstall h

end Store

end Supercache
