import Mathlib.Data.List.Basic

/-!
Runs of a step function under a schedule, with conditions on the turns. A
condition may look at the state a turn is taken in; what every turn that meets
the condition preserves, every run that meets it all along preserves.
-/
namespace Supercache.Schedule

variable {S T : Type} (step : S → T → S)

def Along (P : S → T → Prop) : S → List T → Prop
  | _, [] => True
  | s, t :: ts => P s t ∧ Along P (step s t) ts

instance Along.decidable {P : S → T → Prop} [∀ s t, Decidable (P s t)] :
    ∀ s ts, Decidable (Along step P s ts)
  | _, [] => .isTrue trivial
  | s, t :: ts => @instDecidableAnd _ _ _ (Along.decidable (step s t) ts)

variable {step} {P Q : S → T → Prop} {I : S → Prop} {s : S}

variable {ts pre post : List T}

theorem Along.invariant (hstep : ∀ s t, I s → P s t → I (step s t)) (hs : I s)
    (hrun : Along step P s ts) : I (ts.foldl step s) := by
  induction ts generalizing s with
  | nil => exact hs
  | cons t ts ih => exact ih (hstep s t hs hrun.1) hrun.2

theorem Along.and (hP : Along step P s ts) (hQ : Along step Q s ts) :
    Along step (fun s t => P s t ∧ Q s t) s ts := by
  induction ts generalizing s with
  | nil => trivial
  | cons t ts ih => exact ⟨⟨hP.1, hQ.1⟩, ih hP.2 hQ.2⟩

/-- What holds of every turn of a schedule holds of it in any state. -/
theorem Along.and_forall {R : T → Prop} (hrun : Along step P s ts) (hall : ∀ t ∈ ts, R t) :
    Along step (fun s t => R t ∧ P s t) s ts := by
  induction ts generalizing s with
  | nil => trivial
  | cons t ts ih =>
    obtain ⟨ht, hts⟩ := List.forall_mem_cons.mp hall
    exact ⟨⟨ht, hrun.1⟩, ih hrun.2 hts⟩

/-- What an invariant gives at each turn holds along the run. -/
theorem Along.derive (hstep : ∀ s t, I s → P s t → I (step s t))
    (hturn : ∀ s t, I s → P s t → Q s t) (hs : I s) (hrun : Along step P s ts) :
    Along step Q s ts := by
  induction ts generalizing s with
  | nil => trivial
  | cons t ts ih => exact ⟨hturn s t hs hrun.1, ih (hstep s t hs hrun.1) hrun.2⟩

theorem Along.append_iff : Along step P s (pre ++ post) ↔
    Along step P s pre ∧ Along step P (pre.foldl step s) post := by
  induction pre generalizing s with
  | nil => simp [Along]
  | cons t pre ih => rw [List.cons_append, Along, Along, ih, and_assoc, List.foldl_cons]

/-- What held along a run held when any of its turns was taken. -/
theorem Along.of_append {t : T} (hrun : Along step P s (pre ++ t :: post)) :
    Along step P s pre ∧ P (pre.foldl step s) t := by
  obtain ⟨hpre, hpost⟩ := Along.append_iff.mp hrun
  exact ⟨hpre, hpost.1⟩

end Supercache.Schedule
