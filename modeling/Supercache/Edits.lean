import Supercache.ByteMap

/-!
Edits of a map, one key at a time. After a run of edits a key holds what the
last edit that touches it leaves there, so two runs of the same edits end alike
exactly when, key by key, their last edits have the same effect.
-/
namespace Supercache.Edits

open Wire ByteMap

variable {V : Type}

inductive Edit (V : Type) where
  | put (k : Bytes) (v : V)
  | del (k : Bytes)

namespace Edit

def key : Edit V → Bytes
  | put k _ => k
  | del k => k

def value : Edit V → Option V
  | put _ v => some v
  | del _ => none

def apply (m : Map V) : Edit V → Map V
  | put k v => m.insert k v
  | del k => m.erase k

theorem getElem?_apply (m : Map V) (e : Edit V) (k : Bytes) :
    (e.apply m)[k]? = if e.key = k then e.value else m[k]? := by
  by_cases hk : e.key = k
  · rw [if_pos hk]
    cases e <;> simp_all [apply, key, value]
  · rw [if_neg hk]
    cases e <;> simp_all [apply, key, Std.ExtTreeMap.getElem?_insert, Std.ExtTreeMap.getElem?_erase]

end Edit

def applyAll (m : Map V) (es : List (Edit V)) : Map V := es.foldl Edit.apply m

def lastEffect (k : Bytes) (es : List (Edit V)) : Option (Option V) :=
  ((es.filter fun e => e.key = k).getLast?).map Edit.value

theorem lastEffect_append_singleton (k : Bytes) (es : List (Edit V)) (e : Edit V) :
    lastEffect k (es ++ [e]) = if e.key = k then some e.value else lastEffect k es := by
  unfold lastEffect
  by_cases hk : e.key = k <;> simp [List.filter_append, hk]

theorem getElem?_applyAll (m : Map V) (es : List (Edit V)) (k : Bytes) :
    (applyAll m es)[k]? = (lastEffect k es).getD m[k]? := by
  induction es using List.reverseRecOn with
  | nil => simp [applyAll, lastEffect]
  | append_singleton es e ih =>
    have hstep : applyAll m (es ++ [e]) = e.apply (applyAll m es) := by simp [applyAll]
    rw [hstep, Edit.getElem?_apply, lastEffect_append_singleton, ih]
    split <;> rfl

theorem lastEffect_eq_none_iff (k : Bytes) (es : List (Edit V)) :
    lastEffect k es = none ↔ ∀ e ∈ es, e.key ≠ k := by
  simp [lastEffect]

/-- Two runs of the same edits end alike exactly when their last edits do, key by key. -/
theorem applyAll_eq_iff (m : Map V) {es es' : List (Edit V)} (hsame : ∀ e, e ∈ es ↔ e ∈ es') :
    (∀ k : Bytes, (applyAll m es)[k]? = (applyAll m es')[k]?) ↔
      ∀ k, lastEffect k es = lastEffect k es' := by
  refine forall_congr' fun k => ?_
  rw [getElem?_applyAll, getElem?_applyAll]
  have hnone : lastEffect k es = none ↔ lastEffect k es' = none := by
    simp only [lastEffect_eq_none_iff, hsame]
  cases h : lastEffect k es with
  | none => simp [hnone.mp h]
  | some x =>
    cases h' : lastEffect k es' with
    | none => simp [hnone.mpr h'] at h
    | some x' => simp

end Supercache.Edits
