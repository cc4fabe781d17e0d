import Supercache.JsonRoundTrip

/-!
Laws of reading, writing and deleting at a path. A path is followed one step at
a time: a step names a child of an array or an object, and writing puts another
child in its place. The laws are proved for one step, and by induction on the
path for the whole walk.
-/
namespace Supercache.JsonX

open Wire JsonText

section Fields

theorem lookupField_insertField (k k' : Text) (x : Json) (fs : List (Text × Json)) :
    lookupField k' (insertField k x fs) = if k' = k then some x else lookupField k' fs := by
  induction fs with
  | nil => rfl
  | cons f rest ih =>
    simp only [insertField]
    split
    · rfl
    next heq =>
      obtain rfl : k = f.1 := Std.LawfulEqCmp.eq_of_compare heq
      by_cases hk : k' = f.1 <;> simp [lookupField, hk]
    next hgt =>
      have hne : k ≠ f.1 := by
        intro heq
        have hself : compare f.1 f.1 = .eq := Std.ReflCmp.compare_self
        rw [heq, hself] at hgt
        contradiction
      by_cases hk : k' = f.1
      · subst hk
        simp [lookupField, hne.symm]
      · simp only [lookupField, hk, if_false, ih]

theorem lookupField_eraseField (k k' : Text) (fs : List (Text × Json)) :
    lookupField k' (eraseField k fs) = if k' = k then none else lookupField k' fs := by
  induction fs with
  | nil => simp [eraseField, lookupField]
  | cons f rest ih =>
    unfold eraseField at ih ⊢
    by_cases hf : f.1 = k
    · rw [List.filter_cons_of_neg (by simpa using hf), ih]
      by_cases hk : k' = k
      · simp [hk]
      · have hne : k' ≠ f.1 := hf ▸ hk
        simp only [hk, if_false, lookupField, hne]
    · rw [List.filter_cons_of_pos (by simpa using hf)]
      by_cases hk : k' = f.1
      · subst hk
        simp [lookupField, hf]
      · simp only [lookupField, hk, if_false, ih]

theorem insertField_insertField (k : Text) (x y : Json) (fs : List (Text × Json)) :
    insertField k y (insertField k x fs) = insertField k y fs := by
  induction fs with
  | nil => simp [insertField, Std.ReflCmp.compare_self]
  | cons f rest ih =>
    simp only [insertField]
    split
    · simp [insertField, Std.ReflCmp.compare_self]
    · simp [insertField, Std.ReflCmp.compare_self]
    next hgt =>
      simp only [insertField, hgt, ih]

/-- Writing what is there changes nothing, where the keys are in order. -/
theorem Sorted.insertField_of_lookup {fs : List (Text × Json)} (h : Sorted fs) {k : Text}
    {x : Json} (hx : lookupField k fs = some x) : insertField k x fs = fs := by
  induction fs with
  | nil => simp [lookupField] at hx
  | cons f rest ih =>
    obtain ⟨hfirst, hrest⟩ := List.pairwise_cons.mp h
    by_cases hk : k = f.1
    · subst hk
      simp only [lookupField, if_true, Option.some.injEq] at hx
      subst hx
      simp only [insertField, Std.ReflCmp.compare_self]
    · simp only [lookupField, hk, if_false] at hx
      have hgt : compare k f.1 = .gt :=
        Std.OrientedCmp.gt_of_lt (hfirst _ (lookupField_mem hx))
      simp only [insertField, hgt, ih hrest hx]

end Fields

section Elements

variable {α : Type}

def elemAt (xs : List α) (n : ℤ) : Option α := if n < 0 then none else xs[n.toNat]?

def putElem (xs : List α) (n : ℤ) (x : α) : List α :=
  if n.toNat < xs.length then xs.set n.toNat x else xs ++ [x]

variable {n : ℤ} {xs : List α}

theorem elemAt_eq_some_iff {x : α} : elemAt xs n = some x ↔ 0 ≤ n ∧ xs[n.toNat]? = some x := by
  unfold elemAt
  by_cases hn : n < 0
  · simp [hn]
  · simp [hn, not_lt.mp hn]

theorem elemAt_eq_none_iff : elemAt xs n = none ↔ n < 0 ∨ (xs.length : ℤ) ≤ n := by
  unfold elemAt
  by_cases hn : n < 0
  · simp [hn]
  · rw [if_neg hn, List.getElem?_eq_none_iff]
    omega

theorem elemAt_putElem (hn : 0 ≤ n ∧ n ≤ xs.length) (x : α) (m : ℤ) :
    elemAt (putElem xs n x) m = if m = n then some x else elemAt xs m := by
  unfold elemAt putElem
  by_cases hm : m < 0
  · have hne : m ≠ n := by omega
    simp [hm, hne]
  · have hiff : m = n ↔ n.toNat = m.toNat := by omega
    by_cases hlt : n.toNat < xs.length
    · simp only [hm, if_false, hlt, if_true, List.getElem?_set, hiff]
    · have hlen : n.toNat = xs.length := by omega
      rw [if_neg hm, if_neg hm, if_neg hlt, List.getElem?_append]
      by_cases hmn : m = n
      · have hlast : m.toNat - xs.length = 0 := by omega
        rw [if_pos hmn, if_neg (by omega), hlast, List.getElem?_cons_zero]
      · rw [if_neg hmn]
        split
        · rfl
        · rw [List.getElem?_eq_none (by simp; omega), List.getElem?_eq_none (by omega)]

theorem putElem_putElem (hn : 0 ≤ n ∧ n ≤ xs.length) (x y : α) :
    putElem (putElem xs n x) n y = putElem xs n y := by
  by_cases hlt : n.toNat < xs.length
  · simp [putElem, hlt]
  · have hlen : n.toNat = xs.length := by omega
    simp [putElem, hlen]

/-- Without one of them, the elements after it move down. -/
theorem elemAt_eraseIdx (xs : List α) (hn : 0 ≤ n) (m : ℤ) :
    elemAt (xs.eraseIdx n.toNat) m = elemAt xs (if m < n then m else m + 1) := by
  unfold elemAt
  by_cases hm : m < 0
  · have hlt : m < n := by omega
    simp [hm, hlt]
  · by_cases hlt : m < n
    · have hlt' : m.toNat < n.toNat := by omega
      simp [hm, hlt, List.getElem?_eraseIdx, hlt']
    · have hlt' : ¬ m.toNat < n.toNat := by omega
      have hsucc : (m + 1).toNat = m.toNat + 1 := by omega
      have hm' : ¬ m + 1 < 0 := by omega
      simp only [hm, hlt, if_false, List.getElem?_eraseIdx, hlt', hm', hsucc]

end Elements

section Steps

def child : Json → Seg → Option Json
  | .arr xs, .index n => elemAt xs n
  | .obj fs, .key k => lookupField k fs
  | _, _ => none

def replace : Json → Seg → Json → Json
  | .arr xs, .index n, x => .arr (putElem xs n x)
  | .obj fs, .key k, x => .obj (insertField k x fs)
  | d, _, _ => d

def remove : Json → Seg → Json
  | .arr xs, .index n => .arr (xs.eraseIdx n.toNat)
  | .obj fs, .key k => .obj (eraseField k fs)
  | d, _ => d

def Room : Json → Seg → Prop
  | .arr xs, .index n => n = xs.length
  | .obj _, .key _ => True
  | _, _ => False

def refusal : Json → Seg → Err
  | .arr _, .index _ => .index
  | _, _ => .type

/-- A step that a write can take, to a child or to the place for one. -/
def Takes (d : Json) (s : Seg) : Prop := (∃ x, child d s = some x) ∨ Room d s

theorem get_cons (d : Json) (s : Seg) (rest : Path) :
    get d (s :: rest) = (child d s).bind (get · rest) := by
  cases s with
  | index n =>
    cases d with
    | arr xs =>
      simp only [get, child, elemAt]
      split <;> rfl
    | _ => rfl
  | key k => cases d <;> rfl

variable {d : Json} {s : Seg}

theorem setRec_of_child {x : Json} (h : child d s = some x) (rest : Path) (v : Json) :
    setRec (s :: rest) d v = (setRec rest x v).map (replace d s) := by
  cases s with
  | index n =>
    cases d with
    | arr xs =>
      obtain ⟨hn, hx⟩ := elemAt_eq_some_iff.mp h
      have hlt : n.toNat < xs.length := (List.getElem?_eq_some_iff.mp hx).1
      simp only [setRec, not_lt.mpr hn, if_false, hx]
      congr 1
      funext y
      simp only [replace, putElem, hlt, if_true]
    | _ => simp [child] at h
  | key k =>
    cases d with
    | obj fs =>
      simp only [child] at h
      simp only [setRec, h]
      rfl
    | _ => simp [child] at h

theorem setRec_of_room (h : child d s = none) (hroom : Room d s) (rest : Path) (v : Json) :
    setRec (s :: rest) d v = (createPath rest v).map (replace d s) := by
  cases s with
  | index n =>
    cases d with
    | arr xs =>
      have hn : n = xs.length := hroom
      subst hn
      simp only [setRec, Int.toNat_natCast, List.getElem?_length, if_true]
      rw [if_neg (by omega)]
      congr 1
      funext y
      simp [replace, putElem]
    | _ => exact hroom.elim
  | key k =>
    cases d with
    | obj fs =>
      simp only [child] at h
      simp only [setRec, h]
      rfl
    | _ => exact hroom.elim

theorem setRec_of_refused (h : ¬ Takes d s) (rest : Path) (v : Json) :
    setRec (s :: rest) d v = .error (refusal d s) := by
  obtain ⟨hchild, hroom⟩ := not_or.mp h
  cases s with
  | index n =>
    cases d with
    | arr xs =>
      simp only [setRec, refusal]
      by_cases hn : n < 0
      · rw [if_pos hn]
      · rw [if_neg hn]
        have hnone : xs[n.toNat]? = none := by
          refine Option.eq_none_iff_forall_ne_some.mpr fun x hx => hchild ⟨x, ?_⟩
          exact elemAt_eq_some_iff.mpr ⟨not_lt.mp hn, hx⟩
        have hlen : n ≠ xs.length := hroom
        simp only [hnone, hlen, if_false]
    | _ => rfl
  | key k =>
    cases d with
    | obj fs => exact (hroom trivial).elim
    | _ => rfl

theorem delRec_last (d : Json) (s : Seg) : delRec [s] d = (child d s).map fun _ => remove d s := by
  cases s with
  | index n =>
    cases d with
    | arr xs =>
      simp only [delRec, child, elemAt]
      split
      · rfl
      · cases h : xs[n.toNat]? <;> simp [remove]
    | _ => rfl
  | key k =>
    cases d with
    | obj fs =>
      simp only [delRec, child]
      cases h : lookupField k fs <;> simp [remove]
    | _ => rfl

theorem delRec_cons {rest : Path} (hrest : rest ≠ []) (d : Json) (s : Seg) :
    delRec (s :: rest) d = (child d s).bind fun x => (delRec rest x).map (replace d s) := by
  cases s with
  | index n =>
    cases d with
    | arr xs =>
      simp only [delRec, child, elemAt]
      split
      · rfl
      · cases h : xs[n.toNat]? with
        | none => rfl
        | some x =>
          have hlt : n.toNat < xs.length := (List.getElem?_eq_some_iff.mp h).1
          simp only [Option.bind_some]
          congr 1
          funext y
          simp only [replace, putElem, hlt, if_true]
    | _ => rfl
  | key k =>
    cases d with
    | obj fs =>
      simp only [delRec, child]
      cases h : lookupField k fs with
      | none => rfl
      | some x =>
        simp only [hrest, if_false, Option.bind_some]
        rfl
    | _ => rfl

theorem Takes.index {xs : List Json} {n : ℤ} (h : Takes (.arr xs) (.index n)) :
    0 ≤ n ∧ n ≤ xs.length := by
  rcases h with ⟨x, hx⟩ | hroom
  · obtain ⟨hn, hx⟩ := elemAt_eq_some_iff.mp hx
    have hlt : n.toNat < xs.length := (List.getElem?_eq_some_iff.mp hx).1
    omega
  · have hlen : n = xs.length := hroom
    omega

/-- A written child is read back, and the other children are as before. -/
theorem child_replace (h : Takes d s) (x : Json) (s' : Seg) :
    child (replace d s x) s' = if s' = s then some x else child d s' := by
  cases s with
  | index n =>
    cases d with
    | arr xs =>
      cases s' with
      | key k => rfl
      | index m => simp only [replace, child, elemAt_putElem h.index, Seg.index.injEq]
    | _ => rcases h with ⟨y, hy⟩ | hroom <;> simp_all [child, Room]
  | key k =>
    cases d with
    | obj fs =>
      cases s' with
      | index m => rfl
      | key k' => simp only [replace, child, lookupField_insertField, Seg.key.injEq]
    | _ => rcases h with ⟨y, hy⟩ | hroom <;> simp_all [child, Room]

theorem replace_replace (h : Takes d s) (x y : Json) :
    replace (replace d s x) s y = replace d s y := by
  cases s with
  | index n =>
    cases d with
    | arr xs => simp only [replace, putElem_putElem h.index]
    | _ => rfl
  | key k =>
    cases d with
    | obj fs => simp only [replace, insertField_insertField]
    | _ => rfl

/-- What is left of an object without one of its keys. -/
theorem child_remove_key (fs : List (Text × Json)) (k : Text) (s : Seg) :
    child (remove (.obj fs) (.key k)) s = if s = .key k then none else child (.obj fs) s := by
  cases s with
  | index n => simp [remove, child]
  | key k' => simp only [remove, child, lookupField_eraseField, Seg.key.injEq]

end Steps

section Documents

inductive InOrder : Json → Prop
  | null : InOrder .null
  | bool (b : Bool) : InOrder (.bool b)
  | num (lit : Bytes) : InOrder (.num lit)
  | str (s : Text) : InOrder (.str s)
  | arr (xs : List Json) (h : ∀ x ∈ xs, InOrder x) : InOrder (.arr xs)
  | obj (fs : List (Text × Json)) (hsorted : Sorted fs) (h : ∀ f ∈ fs, InOrder f.2) :
    InOrder (.obj fs)

variable {d x : Json} {s : Seg}

/-- What the decoder returns is in order. -/
theorem inOrder_of_decode {b : Bytes} (h : decode b = some d) : InOrder d := by
  have hfits : Fits maxNestingDepth d := storable_of_decode h
  generalize maxNestingDepth = depth at hfits
  clear h
  induction hfits with
  | null => exact .null
  | bool _ b => exact .bool b
  | num _ lit _ => exact .num lit
  | str _ s => exact .str s
  | arr _ xs _ ih => exact .arr xs ih
  | obj _ fs hsorted _ ih => exact .obj fs hsorted ih

theorem InOrder.child (h : InOrder d) (hx : child d s = some x) : InOrder x := by
  cases h with
  | arr xs h =>
    cases s with
    | index n =>
      exact h x (List.mem_of_getElem? (elemAt_eq_some_iff.mp hx).2)
    | key k => simp [JsonX.child] at hx
  | obj fs _ h =>
    cases s with
    | index n => simp [JsonX.child] at hx
    | key k => exact h _ (lookupField_mem hx)
  | _ => cases s <;> simp [JsonX.child] at hx

theorem InOrder.replace_child (h : InOrder d) (hx : JsonX.child d s = some x) :
    replace d s x = d := by
  cases h with
  | arr xs h =>
    cases s with
    | index n =>
      obtain ⟨hlt, hget⟩ := List.getElem?_eq_some_iff.mp (elemAt_eq_some_iff.mp hx).2
      simp only [replace, putElem, hlt, if_true, ← hget, List.set_getElem_self]
    | key k => rfl
  | obj fs hsorted h =>
    cases s with
    | index n => rfl
    | key k => simp only [replace, Sorted.insertField_of_lookup hsorted hx]
  | _ => cases s <;> rfl

end Documents

section Writing

/-- Where a value can be written: every step of the path is a key of an object or
an index of an array. Past the first step that names nothing yet, a key that is
missing or the index after the last, only keys may follow. -/
inductive Writable : Json → Path → Prop
  | here (d : Json) : Writable d []
  | key {fs : List (Text × Json)} {k : Text} {x : Json} {rest : Path}
      (hx : lookupField k fs = some x) (h : Writable x rest) :
      Writable (.obj fs) (.key k :: rest)
  | index {xs : List Json} {i : ℕ} {x : Json} {rest : Path}
      (hx : xs[i]? = some x) (h : Writable x rest) : Writable (.arr xs) (.index i :: rest)
  | newKey {fs : List (Text × Json)} {k : Text} {rest : Path} (hk : lookupField k fs = none)
      (h : ∀ s ∈ rest, ∃ k, s = .key k) : Writable (.obj fs) (.key k :: rest)
  | append {xs : List Json} {rest : Path} (h : ∀ s ∈ rest, ∃ k, s = .key k) :
      Writable (.arr xs) (.index xs.length :: rest)

variable {d v r x : Json} {s : Seg} {rest p q : Path}

theorem writable_of_child (hx : child d s = some x) : Writable d (s :: rest) ↔ Writable x rest := by
  constructor
  · intro h
    cases h with
    | key hk h =>
      rw [child, hk, Option.some.injEq] at hx
      exact hx ▸ h
    | index hi h =>
      have hx := (elemAt_eq_some_iff.mp hx).2
      rw [Int.toNat_natCast, hi, Option.some.injEq] at hx
      exact hx ▸ h
    | newKey hk => simp [child, hk] at hx
    | append => simp [child, elemAt] at hx
  · intro h
    cases s with
    | index n =>
      cases d with
      | arr xs =>
        obtain ⟨hn, hx⟩ := elemAt_eq_some_iff.mp hx
        obtain ⟨i, rfl⟩ := Int.eq_ofNat_of_zero_le hn
        exact .index hx h
      | _ => simp [child] at hx
    | key k =>
      cases d with
      | obj fs => exact .key hx h
      | _ => simp [child] at hx

theorem writable_of_room (hx : child d s = none) (hroom : Room d s) :
    Writable d (s :: rest) ↔ ∀ t ∈ rest, ∃ k, t = .key k := by
  constructor
  · intro h
    cases h with
    | key hk => simp [child, hk] at hx
    | index hi => simp [child, elemAt, hi] at hx
    | newKey _ h => exact h
    | append h => exact h
  · intro h
    cases s with
    | index n =>
      cases d with
      | arr xs =>
        obtain rfl : n = xs.length := hroom
        exact .append h
      | _ => exact hroom.elim
    | key k =>
      cases d with
      | obj fs => exact .newKey hx h
      | _ => exact hroom.elim

theorem Writable.takes (h : Writable d (s :: rest)) : Takes d s := by
  cases h with
  | key hk => exact .inl ⟨_, hk⟩
  | @index xs i x rest hi =>
    exact .inl ⟨x, elemAt_eq_some_iff.mpr ⟨Int.natCast_nonneg i, hi⟩⟩
  | newKey => exact .inr trivial
  | append => exact .inr rfl

theorem exists_ok_map {ε α β : Type} (e : Except ε α) (f : α → β) :
    (∃ r, e.map f = .ok r) ↔ ∃ r, e = .ok r := by
  cases e <;> simp [Except.map]

theorem createPath_ok_iff (p : Path) (v : Json) :
    (∃ r, createPath p v = .ok r) ↔ ∀ s ∈ p, ∃ k, s = .key k := by
  induction p with
  | nil => simp [createPath]
  | cons s rest ih =>
    cases s with
    | index n => simp [createPath]
    | key k =>
      rw [createPath, exists_ok_map, ih]
      simp

theorem setRec_ok_iff (p : Path) (d v : Json) : (∃ r, setRec p d v = .ok r) ↔ Writable d p := by
  induction p generalizing d with
  | nil => simp [setRec, Writable.here]
  | cons s rest ih =>
    by_cases h : Takes d s
    · cases hx : child d s with
      | some x => rw [setRec_of_child hx, exists_ok_map, ih, writable_of_child hx]
      | none =>
        have hroom : Room d s := h.resolve_left (by simp [hx])
        rw [setRec_of_room hx hroom, exists_ok_map, createPath_ok_iff, writable_of_room hx hroom]
    · rw [setRec_of_refused h]
      constructor
      · rintro ⟨r, hr⟩
        simp at hr
      · intro hw
        exact absurd hw.takes h

theorem createPath_eq (p : Path) (v : Json) : createPath p v = setRec p (.obj []) v := by
  cases p with
  | nil => rfl
  | cons s rest => cases s <;> rfl

/-- A step of a write goes to the child, or to an empty object in the place for one. -/
theorem setRec_of_takes (h : Takes d s) (rest : Path) (v : Json) : setRec (s :: rest) d v =
    (setRec rest ((child d s).getD (.obj [])) v).map (replace d s) := by
  cases hx : child d s with
  | some x => exact setRec_of_child hx rest v
  | none =>
    rw [setRec_of_room hx (h.resolve_left (by simp [hx])), createPath_eq]
    rfl

/-- What a successful write did at the first step of its path. -/
theorem setRec_cons_ok (h : setRec (s :: rest) d v = .ok r) : Takes d s ∧
    ∃ y, setRec rest ((child d s).getD (.obj [])) v = .ok y ∧ replace d s y = r := by
  by_cases htakes : Takes d s
  · rw [setRec_of_takes htakes] at h
    exact ⟨htakes, ok_of_map h⟩
  · rw [setRec_of_refused htakes] at h
    simp at h

/-- The value written is read back. -/
theorem get_setRec (h : setRec p d v = .ok r) : get r p = some v := by
  induction p generalizing d r with
  | nil =>
    simp only [setRec, Except.ok.injEq] at h
    rw [← h, get]
  | cons s rest ih =>
    obtain ⟨htakes, y, hy, rfl⟩ := setRec_cons_ok h
    rw [get_cons, child_replace htakes, if_pos rfl, Option.bind_some]
    exact ih hy

/-- Paths that part: neither goes on from the other. -/
def Apart (p q : Path) : Prop := ¬ p <+: q ∧ ¬ q <+: p

theorem not_apart_nil (q : Path) : ¬ Apart [] q := fun h => h.1 List.nil_prefix

/-- Paths that part do so at the first step or after it. -/
theorem Apart.cons (h : Apart (s :: rest) q) :
    ∃ t tail, q = t :: tail ∧ (t ≠ s ∨ t = s ∧ Apart rest tail) := by
  cases q with
  | nil => exact (h.2 List.nil_prefix).elim
  | cons t tail =>
    refine ⟨t, tail, rfl, ?_⟩
    by_cases hts : t = s
    · subst hts
      refine .inr ⟨rfl, fun hp => h.1 ?_, fun hp => h.2 ?_⟩
      · exact (List.prefix_cons_inj t).mpr hp
      · exact (List.prefix_cons_inj t).mpr hp
    · exact .inl hts

/-- Paths that part from the written one read as before. -/
theorem get_setRec_apart (h : setRec p d v = .ok r) (hpq : Apart p q) : get r q = get d q := by
  induction p generalizing d r q with
  | nil => exact (not_apart_nil q hpq).elim
  | cons s rest ih =>
    obtain ⟨htakes, y, hy, rfl⟩ := setRec_cons_ok h
    obtain ⟨t, tail, rfl, hts | ⟨rfl, htail⟩⟩ := hpq.cons
    · rw [get_cons, get_cons, child_replace htakes, if_neg hts]
    · rw [get_cons, get_cons, child_replace htakes, if_pos rfl, Option.bind_some, ih hy htail]
      cases child d t with
      | some x => rfl
      | none =>
        -- nothing is found in the empty object
        cases tail with
        | nil => exact (htail.2 List.nil_prefix).elim
        | cons u tail => cases u <;> rfl

/-- A second write at the path hides the first one. -/
theorem setRec_setRec (p : Path) (d v w : Json) :
    (setRec p d v).bind (setRec p · w) = setRec p d w := by
  induction p generalizing d with
  | nil => rfl
  | cons s rest ih =>
    by_cases htakes : Takes d s
    · -- after the first write the step names what was put there
      have hback : ∀ y : Json, setRec (s :: rest) (replace d s y) w =
          (setRec rest y w).map (replace d s) := by
        intro y
        have hchild : child (replace d s y) s = some y := by rw [child_replace htakes, if_pos rfl]
        rw [setRec_of_child hchild]
        congr 1
        funext z
        exact replace_replace htakes y z
      rw [setRec_of_takes htakes, setRec_of_takes htakes, ← ih]
      cases setRec rest ((child d s).getD (.obj [])) v with
      | error e => rfl
      | ok y => exact hback y
    · rw [setRec_of_refused htakes, setRec_of_refused htakes]
      rfl

/-- Writing the value that is there changes nothing. -/
theorem setRec_get (hd : InOrder d) (hx : get d p = some x) : setRec p d x = .ok d := by
  induction p generalizing d with
  | nil =>
    rw [get, Option.some.injEq] at hx
    rw [setRec, hx]
  | cons s rest ih =>
    rw [get_cons] at hx
    obtain ⟨y, hy, hx⟩ := Option.bind_eq_some_iff.mp hx
    rw [setRec_of_child hy, ih (hd.child hy) hx, Except.map, hd.replace_child hy]

/-- The empty document refuses every step, so the guard of `set` adds nothing. -/
theorem set_eq_setRec (d : Json) (p : Path) (v : Json) : set d p v = setRec p d v := by
  unfold set
  cases p with
  | nil => rfl
  | cons s rest =>
    rw [if_neg (List.cons_ne_nil s rest)]
    split
    · cases s <;> rfl
    · rfl

end Writing

section Deleting

variable {q p : Path} {d r : Json} {s : Seg}

theorem del_eq_delRec (d : Json) (hp : p ≠ []) : del d p = delRec p d := by
  unfold del
  rw [if_neg hp]
  cases p with
  | nil => exact (hp rfl).elim
  | cons s rest =>
    split
    · cases s <;> rfl
    · rfl

/-- What `del` hands back: the new root, or the document it was given, and
whether a node was removed. -/
def delReturn (d : Json) (p : Path) : Json × Bool := ((del d p).getD d, (del d p).isSome)

theorem isSome_delRec (hp : p ≠ []) (d : Json) : (delRec p d).isSome = (get d p).isSome := by
  induction p generalizing d with
  | nil => exact (hp rfl).elim
  | cons s rest ih =>
    by_cases hrest : rest = []
    · subst hrest
      rw [delRec_last, get_cons]
      cases child d s <;> rfl
    · rw [delRec_cons hrest, get_cons]
      cases child d s with
      | none => rfl
      | some x =>
        rw [Option.bind_some, Option.isSome_map, ih hrest]
        rfl

theorem get_append (d : Json) (p q : Path) : get d (p ++ q) = (get d p).bind (get · q) := by
  induction p generalizing d with
  | nil => rfl
  | cons s rest ih =>
    rw [List.cons_append, get_cons, get_cons]
    cases child d s with
    | none => rfl
    | some x => exact ih x

/-- A deletion below `q` reaches the node at `q`, takes a child of it away and
leaves every path that parts from `q` as it was. -/
theorem get_delRec (h : delRec (q ++ [s]) d = some r) :
    ∃ x, get d q = some x ∧ (∃ y, child x s = some y) ∧ get r q = some (remove x s) ∧
      ∀ path, Apart q path → get r path = get d path := by
  induction q generalizing d r with
  | nil =>
    rw [List.nil_append, delRec_last] at h
    obtain ⟨y, hy, rfl⟩ := Option.map_eq_some_iff.mp h
    exact ⟨d, rfl, ⟨y, hy⟩, rfl, fun path hpath => (not_apart_nil path hpath).elim⟩
  | cons t rest ih =>
    rw [List.cons_append, delRec_cons (by simp)] at h
    obtain ⟨z, hz, h⟩ := Option.bind_eq_some_iff.mp h
    obtain ⟨z', hz', rfl⟩ := Option.map_eq_some_iff.mp h
    obtain ⟨x, hx, hy, hget, hframe⟩ := ih hz'
    have htakes : Takes d t := .inl ⟨z, hz⟩
    refine ⟨x, ?_, hy, ?_, fun path hpath => ?_⟩
    · rw [get_cons, hz, Option.bind_some, hx]
    · rw [get_cons, child_replace htakes, if_pos rfl, Option.bind_some, hget]
    · obtain ⟨t', tail, rfl, hne | ⟨rfl, htail⟩⟩ := hpath.cons
      · rw [get_cons, get_cons, child_replace htakes, if_neg hne]
      · rw [get_cons, get_cons, child_replace htakes, if_pos rfl, hz, Option.bind_some,
          Option.bind_some, hframe tail htail]

/-- Paths that part from `q ++ [s]` part from `q`, stop at it or leave it by another step. -/
theorem Apart.append {path : Path} (h : Apart (q ++ [s]) path) :
    Apart q path ∨ ∃ t tail, path = q ++ t :: tail ∧ t ≠ s := by
  by_cases hq : q <+: path
  · obtain ⟨tail, rfl⟩ := hq
    cases tail with
    | nil => exact (h.2 (by simp)).elim
    | cons t tail =>
      refine .inr ⟨t, tail, rfl, fun hts => h.1 ?_⟩
      exact ⟨tail, by simp [hts]⟩
  · refine .inl ⟨hq, fun hp => h.2 (hp.trans (List.prefix_append q [s]))⟩

theorem get_delRec_key {k : Text} (h : delRec (q ++ [.key k]) d = some r) :
    get r (q ++ [.key k]) = none ∧
      ∀ path, Apart (q ++ [.key k]) path → get r path = get d path := by
  obtain ⟨x, hx, ⟨y, hy⟩, hr, hframe⟩ := get_delRec h
  cases x with
  | obj fs =>
    constructor
    · rw [get_append, hr, Option.bind_some, get_cons, child_remove_key, if_pos rfl,
        Option.bind_none]
    · intro path hpath
      rcases hpath.append with hpath | ⟨t, tail, rfl, hts⟩
      · exact hframe path hpath
      · rw [get_append, get_append, hr, hx, Option.bind_some, Option.bind_some, get_cons,
          get_cons, child_remove_key, if_neg hts]
  | _ => simp [child] at hy

/-- After a deletion at an index the later elements move up. -/
theorem get_delRec_index {i : ℤ} (h : delRec (q ++ [.index i]) d = some r) :
    (∃ xs ys, get d q = some (.arr xs) ∧ get r q = some (.arr ys) ∧ ys.length + 1 = xs.length) ∧
      (∀ (j : ℤ) tail, j < i → get r (q ++ .index j :: tail) = get d (q ++ .index j :: tail)) ∧
      (∀ (j : ℤ) tail, i ≤ j →
        get r (q ++ .index j :: tail) = get d (q ++ .index (j + 1) :: tail)) ∧
      ∀ path, Apart q path → get r path = get d path := by
  obtain ⟨x, hx, ⟨y, hy⟩, hr, hframe⟩ := get_delRec h
  cases x with
  | arr xs =>
    obtain ⟨hi, hy⟩ := elemAt_eq_some_iff.mp hy
    have hlt : i.toNat < xs.length := (List.getElem?_eq_some_iff.mp hy).1
    -- below `q` both sides go through one step of the array
    have hstep : ∀ (j : ℤ) tail, get r (q ++ .index j :: tail) =
        get d (q ++ .index (if j < i then j else j + 1) :: tail) := by
      intro j tail
      have hchild : child (remove (.arr xs) (.index i)) (.index j) =
          child (.arr xs) (.index (if j < i then j else j + 1)) := elemAt_eraseIdx xs hi j
      rw [get_append, get_append, hr, hx, Option.bind_some, Option.bind_some, get_cons,
        get_cons, hchild]
    refine ⟨⟨xs, _, hx, hr, ?_⟩, fun j tail hj => ?_, fun j tail hj => ?_, hframe⟩
    · rw [List.length_eraseIdx_of_lt hlt]
      omega
    · rw [hstep, if_pos hj]
    · rw [hstep, if_neg (not_lt.mpr hj)]
  | _ => simp [child] at hy

end Deleting

section Bounds

variable {d x y v r : Json} {D n : ℕ} {s : Seg} {p : Path}

/-- A part of a value lies one level deeper. -/
theorem fits_child (h : Fits (n + 1) d) (hx : child d s = some x) : Fits n x := by
  cases h with
  | arr n xs h =>
    cases s with
    | index i => exact h x (List.mem_of_getElem? (elemAt_eq_some_iff.mp hx).2)
    | key k => simp [child] at hx
  | obj n fs _ h =>
    cases s with
    | index i => simp [child] at hx
    | key k => exact h _ (lookupField_mem hx)
  | _ => cases s <;> simp [child] at hx

theorem fits_replace (h : Fits (n + 1) d) (s : Seg) (hy : Fits n y) :
    Fits (n + 1) (replace d s y) := by
  cases h with
  | arr n xs h =>
    cases s with
    | index i =>
      refine .arr n _ fun z hz => ?_
      unfold putElem at hz
      split at hz
      · rcases List.mem_or_eq_of_mem_set hz with hz | rfl
        · exact h z hz
        · exact hy
      · rcases List.mem_append.mp hz with hz | hz
        · exact h z hz
        · rw [List.mem_singleton.mp hz]
          exact hy
    | key k => exact .arr n xs h
  | obj n fs hsorted h =>
    cases s with
    | index i => exact .obj n fs hsorted h
    | key k =>
      refine .obj n _ (hsorted.insertField k y) fun f hf => ?_
      rcases mem_insertField hf with rfl | hf
      · exact hy
      · exact h f hf
  | num _ lit h => exact .num _ lit h
  | null | bool | str => constructor

theorem fits_remove (h : Fits D d) (s : Seg) : Fits D (remove d s) := by
  cases h with
  | arr n xs h =>
    cases s with
    | index i => exact .arr n _ fun z hz => h z (List.mem_of_mem_eraseIdx hz)
    | key k => exact .arr n xs h
  | obj n fs hsorted h =>
    cases s with
    | index i => exact .obj n fs hsorted h
    | key k => exact .obj n _ (hsorted.filter _) fun f hf => h f (List.mem_of_mem_filter hf)
  | num _ lit h => exact .num _ lit h
  | null | bool | str => constructor

/-- A write keeps the bound when the value fits below the end of the path. -/
theorem fits_setRec (hv : Fits n v) (hd : p ≠ [] → Fits D d) (hle : p.length + n ≤ D)
    (h : setRec p d v = .ok r) : Fits D r := by
  induction p generalizing d r D with
  | nil =>
    rw [setRec, Except.ok.injEq] at h
    rw [← h]
    exact hv.mono (by simpa using hle)
  | cons s rest ih =>
    rw [List.length_cons] at hle
    obtain ⟨D, rfl⟩ : ∃ m, D = m + 1 := ⟨D - 1, by omega⟩
    have hd := hd (List.cons_ne_nil s rest)
    obtain ⟨-, y, hy, rfl⟩ := setRec_cons_ok h
    refine fits_replace hd s (ih (fun hrest => ?_) (by omega) hy)
    cases hx : child d s with
    | some x => exact fits_child hd hx
    | none =>
      have hpos := List.length_pos_of_ne_nil hrest
      exact Fits.mono (.obj 0 [] List.Pairwise.nil nofun) (by omega)

theorem storable_set (hd : Storable d) (hv : Storable v)
    (hle : p.length + depth v ≤ maxNestingDepth) (h : set d p v = .ok r) : Storable r := by
  rw [set_eq_setRec] at h
  exact fits_setRec (Fits.depth hv) (fun _ => hd) hle h

theorem fits_delRec (hd : Fits D d) (h : delRec p d = some r) : Fits D r := by
  induction p generalizing d r D with
  | nil => simp [delRec] at h
  | cons s rest ih =>
    by_cases hrest : rest = []
    · rw [hrest, delRec_last] at h
      obtain ⟨-, -, rfl⟩ := Option.map_eq_some_iff.mp h
      exact fits_remove hd s
    · rw [delRec_cons hrest] at h
      obtain ⟨x, hx, h⟩ := Option.bind_eq_some_iff.mp h
      obtain ⟨y, hy, rfl⟩ := Option.map_eq_some_iff.mp h
      cases D with
      | zero => cases hd <;> cases s <;> simp [child] at hx
      | succ n => exact fits_replace hd s (ih (fits_child hd hx) hy)

theorem storable_del (hd : Storable d) (h : del d p = some r) : Storable r := by
  unfold del at h
  split at h
  · rw [← Option.some.inj h]
    exact Fits.mono (.obj 0 [] List.Pairwise.nil nofun) (by decide)
  · split at h
    · simp at h
    · exact fits_delRec hd h

end Bounds

end Supercache.JsonX
