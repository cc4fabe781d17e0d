import Supercache.Latest

/-!
Announcing the state of a register. After its write a writer reads the version, later the content,
and sends the pair, whose halves may belong to different states. Still, once every writer is done,
the newest announcement is the last state: the last writer reads both after all writes.
-/
namespace Supercache.Announce

open Latest

variable {C : Type}

inductive Phase (C : Type) where
  | idle
  | wrote
  | read (version : ℕ)
  | taken (msg : ℕ × C)
  | done (announced : Bool)

def Phase.isIdle : Phase C → Bool
  | .idle => true
  | _ => false

/-- An announcement that is older than the register, or is its state. -/
def Behind (msg : ℕ × C) (cur : Option (ℕ × C)) : Prop :=
  ∃ c, cur = some c ∧ msg.1 ≤ c.1 ∧ (msg.1 = c.1 → msg = c)

def Moved (init cur : Option (ℕ × C)) : Prop :=
  ∃ c, cur = some c ∧ ∀ c₀, init = some c₀ → c₀.1 < c.1

namespace Phase

def Sound (cur : Option (ℕ × C)) : Phase C → Prop
  | read version => ∃ c, cur = some c ∧ version ≤ c.1
  | taken msg => Behind msg cur
  | _ => True

def Passed : Phase C → Prop
  | read _ | taken _ | done true => True
  | _ => False

def Covers (c : ℕ × C) : Phase C → Prop
  | wrote => True
  | read version => version = c.1
  | taken msg => msg = c
  | _ => False

end Phase

structure Inv (init cur : Option (ℕ × C)) (phases : List (Phase C)) (sent : List (ℕ × C)) :
    Prop where
  progress : cur = init ∨ Moved init cur
  behind : ∀ msg ∈ sent, Behind msg cur
  sound : ∀ p ∈ phases, p.Sound cur
  wrote : .wrote ∈ phases → Moved init cur ∨ init = none
  passed : ∀ p ∈ phases, p.Passed → Moved init cur
  covered : Moved init cur → ∀ c, cur = some c →
    c ∈ sent ∨ ∃ (i : ℕ) (p : Phase C), phases[i]? = some p ∧ p.Covers c

section Raise

variable {cur : Option (ℕ × C)} {c : ℕ × C}

theorem Behind.raise {msg : ℕ × C} (h : Behind msg cur) (hnew : ∀ c₀, cur = some c₀ → c₀.1 < c.1) :
    Behind msg (some c) := by
  obtain ⟨c₀, hc₀, hle, -⟩ := h
  have hlt := hle.trans_lt (hnew c₀ hc₀)
  exact ⟨c, rfl, hlt.le, fun heq => absurd heq hlt.ne⟩

theorem Phase.Sound.raise {p : Phase C} (h : p.Sound cur)
    (hnew : ∀ c₀, cur = some c₀ → c₀.1 < c.1) : p.Sound (some c) := by
  cases p with
  | read version =>
    obtain ⟨c₀, hc₀, hle⟩ := h
    exact ⟨c, rfl, hle.trans (hnew c₀ hc₀).le⟩
  | taken msg => exact Behind.raise h hnew
  | idle | wrote | done => trivial

end Raise

variable {α : Type} {xs : List α} {y x : α} {i : ℕ} {f : α → Bool} {msgs : List (ℕ × C)}

theorem forall_mem_set {P : α → Prop} (h : ∀ x ∈ xs, P x) (hy : P y) : ∀ x ∈ xs.set i y, P x := by
  intro x hx
  rcases List.mem_or_eq_of_mem_set hx with hx | rfl
  · exact h x hx
  · exact hy

theorem countP_set_le (hi : xs[i]? = some x) (hy : f y = true → f x = true) :
    (xs.set i y).countP f ≤ xs.countP f := by
  obtain ⟨hlt, hget⟩ := List.getElem?_eq_some_iff.mp hi
  rw [List.countP_set hlt, hget]
  cases hfy : f y with
  | false => simp only [Bool.false_eq_true, if_false, Nat.add_zero, Nat.sub_le]
  | true =>
    have hpos : 0 < xs.countP f := List.countP_pos_iff.mpr ⟨x, List.mem_of_getElem? hi, hy hfy⟩
    simp only [hy hfy, if_true]
    omega

theorem countP_set_succ (hi : xs[i]? = some x) (hx : f x = true) (hy : f y = false) :
    (xs.set i y).countP f + 1 = xs.countP f := by
  obtain ⟨hlt, hget⟩ := List.getElem?_eq_some_iff.mp hi
  have hpos : 0 < xs.countP f := List.countP_pos_iff.mpr ⟨x, List.mem_of_getElem? hi, hx⟩
  rw [List.countP_set hlt, hget]
  simp only [hx, hy, if_true, Bool.false_eq_true, if_false]
  omega

namespace Inv

variable {init cur : Option (ℕ × C)} {phases : List (Phase C)} {sent : List (ℕ × C)} {i : ℕ}
  {p q : Phase C}

theorem start (init : Option (ℕ × C)) (hidle : ∀ p ∈ phases, p = .idle) :
    Inv init init phases [] where
  progress := Or.inl rfl
  behind := by simp
  sound p hp := by rw [hidle p hp]; trivial
  wrote h := nomatch hidle _ h
  passed p hp h := by rw [hidle p hp] at h; exact h.elim
  covered := by
    rintro ⟨c, hc, hlt⟩
    exact absurd (hlt c hc) (lt_irrefl _)

variable (h : Inv init cur phases sent)
include h

/-- A writer moves on while the register stays. -/
theorem advance (hi : phases[i]? = some p) (hsound : q.Sound cur)
    (hwrote : q = .wrote → Moved init cur ∨ init = none) (hpassed : q.Passed → Moved init cur)
    (hcovers : Moved init cur → ∀ c, cur = some c → p.Covers c → c ∈ sent ∨ q.Covers c) :
    Inv init cur (phases.set i q) sent where
  progress := h.progress
  behind := h.behind
  sound := forall_mem_set h.sound hsound
  wrote := by
    intro hmem
    rcases List.mem_or_eq_of_mem_set hmem with hmem | heq
    · exact h.wrote hmem
    · exact hwrote heq.symm
  passed := forall_mem_set h.passed hpassed
  covered := by
    intro hmoved c hc
    have hlt : i < phases.length := (List.getElem?_eq_some_iff.mp hi).1
    rcases h.covered hmoved c hc with hmem | ⟨j, r, hj, hr⟩
    · exact Or.inl hmem
    · by_cases hij : i = j
      · subst hij
        obtain rfl := Option.some.inj (hi.symm.trans hj)
        refine (hcovers hmoved c hc hr).imp_right fun hq => ⟨i, q, ?_, hq⟩
        simp [hlt]
      · exact Or.inr ⟨j, r, by rw [List.getElem?_set_ne hij, hj], hr⟩

/-- A writer writes the register under a new version. -/
theorem write (hi : phases[i]? = some p) {c : ℕ × C}
    (hnew : ∀ c₀, cur = some c₀ → c₀.1 < c.1) : Inv init (some c) (phases.set i .wrote) sent := by
  have hmoved : Moved init (some c) := by
    refine ⟨c, rfl, fun c₀ hc₀ => ?_⟩
    rcases h.progress with hcur | ⟨c₁, hc₁, hlt⟩
    · exact hnew c₀ (hcur.trans hc₀)
    · exact (hlt c₀ hc₀).trans (hnew c₁ hc₁)
  exact {
    progress := Or.inr hmoved
    behind := fun msg hmsg => (h.behind msg hmsg).raise hnew
    sound := forall_mem_set (fun r hr => (h.sound r hr).raise hnew) trivial
    wrote := fun _ => Or.inl hmoved
    passed := fun _ _ _ => hmoved
    covered := fun _ _ _ =>
      Or.inr ⟨i, .wrote, by simp [(List.getElem?_eq_some_iff.mp hi).1], trivial⟩ }

theorem post {msg : ℕ × C} (hmsg : Behind msg cur) :
    Inv init cur phases (msg :: sent) where
  progress := h.progress
  behind := List.forall_mem_cons.mpr ⟨hmsg, h.behind⟩
  sound := h.sound
  wrote := h.wrote
  passed := h.passed
  covered hmoved c hc := (h.covered hmoved c hc).imp_left (List.mem_cons_of_mem msg)

/-- A register that holds something when a writer has written has moved. -/
theorem moved_of_wrote (hwrote : .wrote ∈ phases) {c : ℕ × C}
    (hc : cur = some c) : Moved init cur := by
  rcases h.wrote hwrote with hmoved | hinit
  · exact hmoved
  · exact ⟨c, hc, fun c₀ hc₀ => absurd (hinit.symm.trans hc₀) (by simp)⟩

/-- Once all writers are done and the register was written, its state is among the
announcements, and is the newest of them. -/
theorem final (hdone : ∀ p ∈ phases, ∃ b, p = .done b)
    (hchanged : cur ≠ init) : ∃ c, cur = some c ∧ c ∈ sent ∧ (∀ c₀, init = some c₀ → c₀.1 < c.1) ∧
      ∀ msg ∈ sent, msg.1 ≤ c.1 ∧ (msg.1 = c.1 → msg = c) := by
  have hmoved := h.progress.resolve_left hchanged
  have ⟨c, hc, hlt⟩ := hmoved
  refine ⟨c, hc, ?_, hlt, ?_⟩
  · rcases h.covered hmoved c hc with hmem | ⟨i, p, hi, hcov⟩
    · exact hmem
    · obtain ⟨b, rfl⟩ := hdone p (List.mem_of_getElem? hi)
      exact hcov.elim
  · intro msg hmsg
    obtain ⟨c', hc', hle⟩ := h.behind msg hmsg
    obtain rfl := Option.some.inj (hc.symm.trans hc')
    exact hle

end Inv

/-- A holder that keeps the newest announcement ends with the state of the register,
whatever the order and the number of deliveries. -/
theorem newest_of_final {sent : List (ℕ × C)} {held : Option (ℕ × C)} {c : ℕ × C} (hc : c ∈ sent)
    (hle : ∀ msg ∈ sent, msg.1 ≤ c.1 ∧ (msg.1 = c.1 → msg = c))
    (hheld : ∀ w, held = some w → w.1 < c.1) (hsame : ∀ msg, msg ∈ msgs ↔ msg ∈ sent) :
    msgs.foldl (latest Prod.fst) held = some c :=
  foldl_latest_eq_of_max Prod.fst ((hsame c).mpr hc) hheld
    (fun msg hmsg => (hle msg ((hsame msg).mp hmsg)).1)
    fun msg hmsg => (hle msg ((hsame msg).mp hmsg)).2

/-- A holder that has the state of the register keeps it. -/
theorem foldl_latest_of_behind {cur : Option (ℕ × C)} (h : ∀ msg ∈ msgs, Behind msg cur) :
    msgs.foldl (latest Prod.fst) cur = cur := by
  cases cur with
  | none =>
    have hnil : msgs = [] := List.eq_nil_iff_forall_not_mem.mpr fun msg hmsg => by
      obtain ⟨c, hc, -⟩ := h msg hmsg
      exact absurd hc (by simp)
    rw [hnil]
    rfl
  | some c =>
    rw [foldl_latest_some]
    refine newest_eq_of_max Prod.fst (List.mem_cons_self ..) ?_ ?_ <;>
      refine List.forall_mem_cons.mpr ⟨by simp, fun msg hmsg => ?_⟩ <;>
      obtain ⟨c', hc', hle, heq⟩ := h msg hmsg <;>
      obtain rfl := Option.some.inj hc'
    · exact hle
    · exact heq

structure Ledger (log : List (ℕ × C)) (cur : Option (ℕ × C)) : Prop where
  current : ∀ c, cur = some c → c ∈ log
  behind : ∀ c ∈ log, Behind c cur
  unique : ∀ c ∈ log, ∀ c' ∈ log, c.1 = c'.1 → c = c'

namespace Ledger

variable {log : List (ℕ × C)} {cur : Option (ℕ × C)}

theorem start (cur : Option (ℕ × C)) : Ledger cur.toList cur where
  current c hc := by simp [hc]
  behind c hc := ⟨c, Option.mem_toList.mp hc, le_rfl, fun _ => rfl⟩
  unique c hc c' hc' _ :=
    Option.some.inj ((Option.mem_toList.mp hc).symm.trans (Option.mem_toList.mp hc'))

/-- The register stays. -/
theorem keep (h : Ledger log cur) : Ledger (cur.toList ++ log) cur := by
  have hmem : ∀ c, c ∈ cur.toList ++ log ↔ c ∈ log := by
    intro c
    simp only [List.mem_append, Option.mem_toList, or_iff_right_iff_imp]
    exact h.current c
  exact {
    current := fun c hc => (hmem c).mpr (h.current c hc)
    behind := fun c hc => h.behind c ((hmem c).mp hc)
    unique := fun c hc c' hc' => h.unique c ((hmem c).mp hc) c' ((hmem c').mp hc') }

/-- The register is written under a new version. -/
theorem write (h : Ledger log cur) {c : ℕ × C} (hnew : ∀ c₀, cur = some c₀ → c₀.1 < c.1) :
    Ledger (c :: log) (some c) := by
  have hlt : ∀ c' ∈ log, c'.1 < c.1 := by
    intro c' hc'
    obtain ⟨c₀, hc₀, hle, -⟩ := h.behind c' hc'
    exact hle.trans_lt (hnew c₀ hc₀)
  refine ⟨?_, ?_, ?_⟩
  · rintro c' hc'
    exact List.mem_cons.mpr (Or.inl (Option.some.inj hc').symm)
  · exact List.forall_mem_cons.mpr ⟨⟨c, rfl, le_rfl, fun _ => rfl⟩,
      fun c' hc' => (h.behind c' hc').raise hnew⟩
  · intro a ha b hb heq
    rcases List.mem_cons.mp ha with rfl | ha' <;> rcases List.mem_cons.mp hb with rfl | hb'
    · rfl
    · exact absurd heq (hlt b hb').ne'
    · exact absurd heq (hlt a ha').ne
    · exact h.unique a ha' b hb' heq

end Ledger

end Supercache.Announce
