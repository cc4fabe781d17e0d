import Mathlib

/-!
Keeping the newest of a stream of messages. A message replaces the one held
only when its key is strictly greater, so what is held at the end has the
greatest key of all messages seen. If messages of that key are equal, the
outcome does not depend on the order of the messages or on repetitions.
-/
namespace Supercache.Latest

variable {M K : Type} [LinearOrder K] (key : M → K)

def latest (held : Option M) (msg : M) : Option M :=
  match held with
  | none => some msg
  | some w => if key w < key msg then some msg else some w

def newest (msgs : List M) : Option M := msgs.foldl (latest key) none

theorem foldl_latest_some (msgs : List M) (w : M) :
    msgs.foldl (latest key) (some w) = newest key (w :: msgs) := rfl

theorem newest_append_singleton (msgs : List M) (msg : M) :
    newest key (msgs ++ [msg]) = latest key (newest key msgs) msg := by
  simp [newest, List.foldl_append]

/-- Some message is held, and none seen has a greater key. -/
theorem newest_cons (msgs : List M) (msg : M) :
    ∃ w, newest key (msg :: msgs) = some w ∧ w ∈ msg :: msgs ∧
      ∀ m ∈ msg :: msgs, key m ≤ key w := by
  induction msgs generalizing msg with
  | nil => exact ⟨msg, rfl, by simp, by simp⟩
  | cons next rest ih =>
    have hfold : newest key (msg :: next :: rest) =
        newest key ((if key msg < key next then next else msg) :: rest) := by
      rw [← foldl_latest_some, ← foldl_latest_some, List.foldl_cons]
      simp only [latest]
      split <;> rfl
    obtain ⟨w, hw, hmem, hmax⟩ := ih (if key msg < key next then next else msg)
    have hhead := hmax _ (List.mem_cons_self ..)
    refine ⟨w, hfold.trans hw, ?_, ?_⟩
    · rcases List.mem_cons.mp hmem with rfl | hrest
      · split <;> simp
      · simp [hrest]
    · intro m hm
      simp only [List.mem_cons] at hm
      by_cases hlt : key msg < key next
      · rw [if_pos hlt] at hhead
        rcases hm with rfl | rfl | hm
        · exact hlt.le.trans hhead
        · exact hhead
        · exact hmax m (List.mem_cons_of_mem _ hm)
      · rw [if_neg hlt] at hhead
        rcases hm with rfl | rfl | hm
        · exact hhead
        · exact (not_lt.mp hlt).trans hhead
        · exact hmax m (List.mem_cons_of_mem _ hm)

variable {msgs : List M} {w : M}

theorem newest_eq_some (h : newest key msgs = some w) : w ∈ msgs ∧ ∀ m ∈ msgs, key m ≤ key w := by
  cases msgs with
  | nil => simp [newest] at h
  | cons msg rest =>
    obtain ⟨w', hw', hmem, hmax⟩ := newest_cons key rest msg
    rw [hw', Option.some.injEq] at h
    subst h
    exact ⟨hmem, hmax⟩

theorem newest_eq_none : newest key msgs = none ↔ msgs = [] := by
  cases msgs with
  | nil => simp [newest]
  | cons msg rest =>
    obtain ⟨w, hw, -⟩ := newest_cons key rest msg
    simp [hw]

/-- A message with the greatest key is the one held, when no other message shares that key. -/
theorem newest_eq_of_max (hw : w ∈ msgs) (hmax : ∀ m ∈ msgs, key m ≤ key w)
    (huniq : ∀ m ∈ msgs, key m = key w → m = w) : newest key msgs = some w := by
  cases h : newest key msgs with
  | none =>
    rw [(newest_eq_none key).mp h] at hw
    simp at hw
  | some w' =>
    obtain ⟨hmem, hmax'⟩ := newest_eq_some key h
    rw [huniq w' hmem (le_antisymm (hmax w' hmem) (hmax' w hw))]

/-- The same for a holder that starts with something older. -/
theorem foldl_latest_eq_of_max {held : Option M} (hw : w ∈ msgs)
    (hheld : ∀ v, held = some v → key v < key w) (hmax : ∀ m ∈ msgs, key m ≤ key w)
    (huniq : ∀ m ∈ msgs, key m = key w → m = w) : msgs.foldl (latest key) held = some w := by
  cases held with
  | none => exact newest_eq_of_max key hw hmax huniq
  | some v =>
    have hv := hheld v rfl
    rw [foldl_latest_some]
    refine newest_eq_of_max key (List.mem_cons_of_mem v hw) ?_ ?_
    · exact List.forall_mem_cons.mpr ⟨hv.le, hmax⟩
    · exact List.forall_mem_cons.mpr ⟨fun heq => absurd heq hv.ne, huniq⟩

/-- The outcome depends only on which messages were seen. -/
theorem newest_congr {xs ys : List M} (h : ∀ m, m ∈ xs ↔ m ∈ ys)
    (huniq : ∀ m ∈ xs, ∀ m' ∈ xs, key m = key m' → m = m') : newest key xs = newest key ys := by
  cases hx : newest key xs with
  | none =>
    rw [(newest_eq_none key).mp hx] at h
    have hnil : ys = [] := List.eq_nil_iff_forall_not_mem.mpr fun m hm => by
      simpa using (h m).mpr hm
    rw [hnil]
    rfl
  | some w =>
    obtain ⟨hmem, hmax⟩ := newest_eq_some key hx
    refine (newest_eq_of_max key ((h w).mp hmem) (fun m hm => hmax m ((h m).mpr hm)) ?_).symm
    exact fun m hm hkey => huniq m ((h m).mpr hm) w hmem hkey

end Supercache.Latest
