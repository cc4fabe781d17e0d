import Supercache.MachineInt
import Supercache.ZSetQueries

/-!
Windows of lists, sorted sets and bitmaps in 64-bit integers. The three clamps are one program,
run on any arithmetic that is right where its results fit. The bounds never leave the range of the
machine, so the window is the one that the exact integers give.
-/
namespace Supercache.MachineRanges

open Wire MachineInt

def counted (a : Arith) (n x : Int64) : Option Int64 := if x < 0 then a.add n x else some x

def lowered (a : Arith) (n x : Int64) : Option Int64 := if n ≤ x then a.sub n 1 else some x

def clamp (a : Arith) (n start stop : Int64) : Option (Option (Int64 × Int64)) :=
  if n = 0 then some none
  else do
    let start ← counted a n start
    let stop ← counted a n stop
    let start := if start < 0 then 0 else start
    let stop ← lowered a n stop
    if stop < start ∨ n ≤ start then some none else some (some (start, stop))

/-- The loop over a window, with as many turns as it may take. An index outside the list fails. -/
def collect {α : Type} (a : Arith) (items : List α) (stop : Int64) : ℕ → Int64 → Option (List α)
  | 0, _ => none
  | turns + 1, i =>
    if i ≤ stop then do
      let x ← if i < 0 then none else items[i.toInt.toNat]?
      let next ← a.add i 1
      let rest ← collect a items stop turns next
      some (x :: rest)
    else some []

def slice {α : Type} (a : Arith) (items : List α) (start stop : Int64) : Option (List α) := do
  match ← clamp a (Int64.ofNat items.length) start stop with
  | none => some []
  | some (start, stop) =>
    let last ← a.sub stop start
    let cap ← a.add last 1
    -- a slice is not made with a negative capacity
    if cap < 0 then none else collect a items stop (items.length + 1) start

def listRange (a : Arith) (l : ListX.Items) (start stop : Int64) : Option (List Bytes) :=
  slice a l start stop

def zsetRange (a : Arith) (z : ZSet.Scores) (start stop : Int64) :
    Option (List (Bytes × UInt64)) :=
  slice a (ZSet.ordered z) start stop

def normalizeByteRange (a : Arith) (n start stop : Int64) : Option (Int64 × Int64 × Bool) := do
  match ← clamp a n start stop with
  | none => some (0, 0, true)
  | some (start, stop) => some (start, stop, false)

def low (n : ℕ) (start : Int64) : ℤ := max (fromEnd n start.toInt) 0

def high (n : ℕ) (stop : Int64) : ℤ := min (fromEnd n stop.toInt) (n - 1)

def positions (n : ℕ) (start stop : Int64) : List ℕ :=
  (List.range n).filter fun i : ℕ => low n start ≤ (i : ℤ) ∧ (i : ℤ) ≤ high n stop

section Clamp

variable (a : Arith) {n : ℕ} {start stop : Int64}

theorem exists_counted (hn : n < 2 ^ 63) (x : Int64) :
    ∃ y, counted a (Int64.ofNat n) x = some y ∧ y.toInt = fromEnd n x.toInt := by
  have hlen := Int64.toInt_ofNat_of_lt hn
  obtain ⟨hlow, hhigh⟩ := inRange_toInt x
  unfold counted fromEnd
  simp only [Int64.lt_iff_toInt_lt, Int64.toInt_zero]
  by_cases hneg : x.toInt < 0
  · simp only [if_pos hneg]
    obtain ⟨y, hy, hval⟩ := a.exists_add (x := Int64.ofNat n) (y := x)
      (by rw [hlen]; exact ⟨by omega, by omega⟩)
    exact ⟨y, hy, by rw [hval, hlen]⟩
  · simp only [if_neg hneg]
    exact ⟨x, rfl, rfl⟩

theorem exists_lowered (hn : n < 2 ^ 63) (x : Int64) :
    ∃ y, lowered a (Int64.ofNat n) x = some y ∧ y.toInt = min x.toInt (n - 1) := by
  have hlen := Int64.toInt_ofNat_of_lt hn
  unfold lowered
  simp only [Int64.le_iff_toInt_le, hlen]
  by_cases hle : ↑n ≤ x.toInt
  · rw [if_pos hle]
    obtain ⟨y, hy, hval⟩ := a.exists_sub (x := Int64.ofNat n) (y := 1)
      (by rw [hlen, Int64.toInt_one]; exact ⟨by omega, by omega⟩)
    refine ⟨y, hy, ?_⟩
    rw [hval, hlen, Int64.toInt_one]
    omega
  · rw [if_neg hle]
    exact ⟨x, rfl, by omega⟩

/-- The clamp computes the exact bounds. -/
theorem exists_clamp (hn : n < 2 ^ 63) (start stop : Int64) :
    ∃ w, clamp a (Int64.ofNat n) start stop = some w ∧ w.map (fun w => (w.1.toInt, w.2.toInt)) =
        if high n stop < low n start then none else some (low n start, high n stop) := by
  have hlen := Int64.toInt_ofNat_of_lt hn
  unfold clamp low high
  by_cases hzero : Int64.ofNat n = 0
  · have hn0 : n = 0 := by
      have := congrArg Int64.toInt hzero
      rw [hlen, Int64.toInt_zero] at this
      omega
    refine ⟨none, if_pos hzero, ?_⟩
    rw [if_pos (by omega)]
    rfl
  · obtain ⟨first, hfirst, hstart⟩ := exists_counted a hn start
    obtain ⟨last, hlast, hstop⟩ := exists_counted a hn stop
    obtain ⟨last', hlast', hstop'⟩ := exists_lowered a hn last
    have hraise : (if first < 0 then 0 else first).toInt = max (fromEnd n start.toInt) 0 := by
      rw [← hstart]
      by_cases hneg : first < 0
      · rw [if_pos hneg]
        rw [Int64.lt_iff_toInt_lt, Int64.toInt_zero] at hneg
        rw [Int64.toInt_zero]
        omega
      · rw [if_neg hneg]
        rw [Int64.lt_iff_toInt_lt, Int64.toInt_zero] at hneg
        omega
    rw [hstop] at hstop'
    simp only [hzero, if_false, hfirst, hlast, hlast', Option.bind_eq_bind, Option.bind_some]
    generalize (if first < 0 then 0 else first) = first' at hraise ⊢
    simp only [Int64.lt_iff_toInt_lt, Int64.le_iff_toInt_le, hlen, hraise, hstop']
    split
    · refine ⟨none, rfl, ?_⟩
      rw [if_pos (by omega)]
      rfl
    · refine ⟨some (first', last'), rfl, ?_⟩
      rw [if_neg (by omega), Option.map_some, hraise, hstop']

end Clamp

section Slice

variable {α : Type} (a : Arith) (items : List α)

variable (hn : items.length < 2 ^ 63)
include hn

/-- The loop ends and has collected the elements from `i` to `stop`. -/
theorem collect_eq {stop : Int64} (hstop : stop.toInt < items.length)
    (turns : ℕ) (i : Int64) (hi : 0 ≤ i.toInt) (hend : i.toInt ≤ stop.toInt + 1)
    (hturns : stop.toInt + 1 < i.toInt + turns) : collect a items stop turns i =
      some ((items.drop i.toInt.toNat).take (stop.toInt + 1 - i.toInt).toNat) := by
  induction turns generalizing i with
  | zero => omega
  | succ turns ih =>
    simp only [collect, Int64.le_iff_toInt_le, Int64.lt_iff_toInt_lt, Int64.toInt_zero]
    by_cases hin : i.toInt ≤ stop.toInt
    · rw [if_pos hin]
      have hlt : i.toInt.toNat < items.length := by omega
      obtain ⟨next, hnext, hval⟩ := a.exists_add (x := i) (y := 1)
        (by rw [Int64.toInt_one]; exact ⟨by omega, by omega⟩)
      rw [Int64.toInt_one] at hval
      have hrest := ih next (by omega) (by omega) (by omega)
      have hsucc : next.toInt.toNat = i.toInt.toNat + 1 := by omega
      have hcount : (stop.toInt + 1 - i.toInt).toNat = (stop.toInt + 1 - next.toInt).toNat + 1 := by
        omega
      rw [if_neg (by omega), List.getElem?_eq_getElem hlt, hnext]
      simp only [Option.bind_eq_bind, Option.bind_some, hrest]
      rw [List.drop_eq_getElem_cons hlt, hcount, List.take_succ_cons, hsucc]
    · rw [if_neg hin]
      have hnone : (stop.toInt + 1 - i.toInt).toNat = 0 := by omega
      rw [hnone, List.take_zero]

/-- Neither a sum leaves the range of the machine nor an index the list, and the window is the one
in exact integers. -/
theorem slice_eq (start stop : Int64) : slice a items start stop =
      some ((positions items.length start stop).filterMap fun i => items[i]?) := by
  obtain ⟨w, hw, hval⟩ := exists_clamp a hn start stop
  have hhigh : high items.length stop < items.length := by
    unfold high
    omega
  have hlow : 0 ≤ low items.length start := by
    unfold low
    omega
  unfold slice
  rw [hw]
  simp only [Option.bind_eq_bind, Option.bind_some]
  by_cases hempty : high items.length stop < low items.length start
  · rw [if_pos hempty] at hval
    cases w with
    | some w => simp at hval
    | none =>
      have hnone : positions items.length start stop = [] := by
        refine List.filter_eq_nil_iff.mpr fun i _ => ?_
        rw [decide_eq_true_iff]
        omega
      rw [hnone, List.filterMap_nil]
  · rw [if_neg hempty] at hval
    cases w with
    | none => simp at hval
    | some w =>
      obtain ⟨first, last⟩ := w
      rw [Option.map_some, Option.some.injEq, Prod.mk.injEq] at hval
      obtain ⟨hfirst, hlast⟩ := hval
      dsimp only at hfirst hlast
      obtain ⟨size, hsize, hsizeVal⟩ := a.exists_sub (x := last) (y := first)
        ⟨by omega, by omega⟩
      obtain ⟨cap, hcap, hcapVal⟩ := a.exists_add (x := size) (y := 1)
        (by rw [Int64.toInt_one]; exact ⟨by omega, by omega⟩)
      rw [Int64.toInt_one] at hcapVal
      have hpos : ¬ cap < 0 := by
        rw [Int64.lt_iff_toInt_lt, Int64.toInt_zero]
        omega
      have hcount : (last.toInt + 1 - first.toInt).toNat =
          last.toInt.toNat - first.toInt.toNat + 1 := by omega
      have hpositions : positions items.length start stop =
          List.range' first.toInt.toNat (last.toInt.toNat - first.toInt.toNat + 1) :=
        filter_range (by omega) (by omega) (by intro r; omega)
      simp only [hsize, hcap, Option.bind_some, hpos, if_false]
      rw [collect_eq a items hn (by omega) _ first (by omega) (by omega) (by omega), hcount,
        hpositions, filterMap_range' items _ _ (by omega)]

/-- The window is the one of the exact model. -/
theorem slice_eq_rangeOf (start stop : Int64) :
    slice a items start stop = some (rangeOf items start.toInt stop.toInt) := by
  rw [slice_eq a items hn, rangeOf_eq_filter]
  congr 2
  refine List.filter_congr fun i hi => ?_
  rw [List.mem_range] at hi
  rw [decide_eq_decide]
  unfold low high Within
  omega

end Slice

/-- For every length and every two machine integers the three functions take the positions from the
lower bound to the upper one, with sums that wrap and with sums that fail. -/
theorem ranges_agree (a : Arith) (n : ℕ) (hn : n < 2 ^ 63) (start stop : Int64) :
    (∀ l : ListX.Items, l.length = n → listRange a l start stop =
      some ((positions n start stop).filterMap fun i => l[i]?)) ∧
    (∀ z : ZSet.Scores, z.size = n → zsetRange a z start stop =
      some ((positions n start stop).filterMap fun i => (ZSet.ordered z)[i]?)) ∧
    ∃ lo hi empty, normalizeByteRange a (Int64.ofNat n) start stop = some (lo, hi, empty) ∧
      (empty = true ↔ high n stop < low n start) ∧
      (empty = false → lo.toInt = low n start ∧ hi.toInt = high n stop) := by
  refine ⟨fun l hl => ?_, fun z hz => ?_, ?_⟩
  · subst hl
    exact slice_eq a l hn start stop
  · have hlen : (ZSet.ordered z).length = n := by
      rw [(ZSet.ordered_perm z).length_eq, Std.ExtTreeMap.length_toList, hz]
    subst hlen
    exact slice_eq a (ZSet.ordered z) hn start stop
  · obtain ⟨w, hw, hval⟩ := exists_clamp a hn start stop
    unfold normalizeByteRange
    rw [hw]
    cases w with
    | none =>
      refine ⟨0, 0, true, rfl, ?_, fun h => absurd h (by simp)⟩
      by_cases hempty : high n stop < low n start
      · rw [if_pos hempty] at hval
        simp [hempty]
      · simp [hempty] at hval
    | some w =>
      refine ⟨w.1, w.2, false, rfl, ?_⟩
      by_cases hempty : high n stop < low n start
      · simp [hempty] at hval
      · rw [if_neg hempty] at hval
        rw [Option.map_some, Option.some.injEq, Prod.mk.injEq] at hval
        exact ⟨by simp [hempty], fun _ => hval⟩

/-- From the most negative bound to the most positive one. -/
theorem ranges_agree_extremes :
    3 < 2 ^ 63 ∧ listRange checked [[1], [2], [3]] Int64.minValue Int64.maxValue =
      some [[1], [2], [3]] := by
  refine ⟨by decide, ?_⟩
  rw [(ranges_agree checked 3 (by decide) Int64.minValue Int64.maxValue).1 [[1], [2], [3]] rfl]
  decide +kernel

end Supercache.MachineRanges
