import Supercache.CountMin
import Supercache.SnapshotCodecs

/-!
The bytes of a sketch are a Count-Min grid. The cells of different rows and columns do not
overlap, so adding to the cells of an item one after the other adds to exactly these cells.
-/
namespace Supercache.CmsX

open Wire CountMin

section Cells

variable {sketch : Bytes} {off off' : ℕ}

theorem getElem?_putCell (h : off + 8 ≤ sketch.length) (v j : ℕ) : (putCell sketch off v)[j]? =
      if off ≤ j ∧ j < off + 8 then (leBytes 8 v)[j - off]? else sketch[j]? := by
  have htake : (sketch.take off).length = off := List.length_take_of_le (by omega)
  have hleft : (sketch.take off ++ leBytes 8 v).length = off + 8 := by
    rw [List.length_append, htake, leBytes_length]
  unfold putCell
  by_cases hlow : j < off
  · rw [if_neg (by omega), List.getElem?_append_left (by omega),
      List.getElem?_append_left (by omega), List.getElem?_take_of_lt hlow]
  · by_cases hhigh : j < off + 8
    · rw [if_pos ⟨by omega, hhigh⟩, List.getElem?_append_left (by omega),
        List.getElem?_append_right (by omega), htake]
    · rw [if_neg (by omega), List.getElem?_append_right (by omega), hleft, List.getElem?_drop]
      congr 1
      omega

theorem cell_congr {sketch' : Bytes} (h : ∀ i < 8, sketch[off + i]? = sketch'[off' + i]?) :
    cell sketch off = cell sketch' off' := by
  unfold cell
  congr 1
  refine List.ext_getElem? fun i => ?_
  rw [List.getElem?_take, List.getElem?_take, List.getElem?_drop, List.getElem?_drop]
  split
  · exact h i ‹_›
  · rfl

theorem cell_putCell_self (h : off + 8 ≤ sketch.length) {v : ℕ} (hv : v < 2 ^ 64) :
    cell (putCell sketch off v) off = v := by
  have hbytes : cell (putCell sketch off v) off = cell (leBytes 8 v) 0 := by
    refine cell_congr fun i hi => ?_
    rw [getElem?_putCell h, if_pos ⟨by omega, by omega⟩]
    congr 1
    omega
  rw [hbytes, cell, List.drop_zero, List.take_of_length_le (leBytes_length 8 v).le, leNat_leBytes]
  exact Nat.mod_eq_of_lt hv

theorem cell_lt (sketch : Bytes) (off : ℕ) : cell sketch off < 2 ^ 64 := by
  have hlen : ((sketch.drop off).take 8).length ≤ 8 := List.length_take_le _ _
  calc cell sketch off < 256 ^ ((sketch.drop off).take 8).length := leNat_lt _
    _ ≤ 256 ^ 8 := Nat.pow_le_pow_right (by norm_num) hlen
    _ = 2 ^ 64 := by norm_num

end Cells

section Grid

instance nonempty_rows : Nonempty (Fin depth) := ⟨⟨0, by decide⟩⟩

def grid (sketch : Bytes) : Grid (Fin depth) (Fin width) := fun row col =>
  cell sketch (cellOff row col)

def hashes (item : Bytes) (row : Fin depth) : Fin width := ⟨column item row, column_lt item row⟩

def addCells (item : Bytes) (d : ℕ) (rows : List ℕ) (sketch : Bytes) : Bytes :=
  rows.foldl (fun s row => putCell s (cellOff row (column item row))
    (cell s (cellOff row (column item row)) + d)) sketch

/-- Every cell after the loop over the rows, each of which is visited once. -/
theorem cell_addCells {item : Bytes} {d : ℕ} {rows : List ℕ} (hnodup : rows.Nodup)
    (hrows : ∀ row ∈ rows, row < depth) {sketch : Bytes} (hsize : sketch.length = denseSize)
    (hfit : ∀ row ∈ rows, cell sketch (cellOff row (column item row)) + d < 2 ^ 64)
    {row col : ℕ} (hcol : col < width) : cell (addCells item d rows sketch) (cellOff row col) =
      cell sketch (cellOff row col) + if row ∈ rows ∧ column item row = col then d else 0 := by
  induction rows generalizing sketch with
  | nil => simp [addCells]
  | cons r rows ih =>
    obtain ⟨hr, hrows⟩ := List.forall_mem_cons.mp hrows
    obtain ⟨hrfit, hfit⟩ := List.forall_mem_cons.mp hfit
    obtain ⟨hnew, hnodup⟩ := List.nodup_cons.mp hnodup
    have hoff : cellOff r (column item r) + 8 ≤ sketch.length :=
      hsize ▸ cellOff_le hr (column_lt item r)
    -- the write in row `r` leaves the cells of the other rows as they are
    have hother : ∀ row col, col < width → ¬ (r = row ∧ column item r = col) →
        cell (putCell sketch (cellOff r (column item r))
          (cell sketch (cellOff r (column item r)) + d)) (cellOff row col) =
        cell sketch (cellOff row col) := by
      intro row col hcol hne
      have hr := column_lt item r
      refine cell_congr fun i hi => ?_
      rw [getElem?_putCell hoff, if_neg]
      unfold cellOff
      unfold width at hcol hr ⊢
      omega
    have hrest : ∀ row ∈ rows, r ≠ row := fun row hrow heq => hnew (heq ▸ hrow)
    rw [addCells, List.foldl_cons]
    refine (ih hnodup hrows ((putCell_length sketch _ hoff).trans hsize) ?_).trans ?_
    · intro row hrow
      rw [hother row _ (column_lt item row) fun h => hrest row hrow h.1]
      exact hfit row hrow
    · by_cases hself : r = row ∧ column item r = col
      · obtain ⟨rfl, rfl⟩ := hself
        rw [cell_putCell_self hoff hrfit, if_neg fun h => hnew h.1, if_pos ⟨by simp, rfl⟩]
        rfl
      · rw [hother row col hcol hself]
        congr 1
        refine if_congr ?_ rfl rfl
        rw [List.mem_cons]
        constructor
        · exact fun h => ⟨.inr h.1, h.2⟩
        · rintro ⟨rfl | hrow, hc⟩
          · exact absurd ⟨rfl, hc⟩ hself
          · exact ⟨hrow, hc⟩

end Grid

section Refinement

variable {sketch item : Bytes} {n : ℕ}

theorem delta_eq (n : ℕ) : delta n = max n 1 := by
  unfold delta
  split <;> omega

/-- Some cell of the item has no room for the amount. -/
def Full (sketch item : Bytes) (n : ℕ) : Prop :=
  ∃ row col, (columns item)[row]? = some col ∧ 2 ^ 64 - 1 < cell sketch (cellOff row col) + max n 1

theorem full_iff (hn : n < 2 ^ 64) : Full sketch item n ↔
      ((offsets item).any fun off => 2 ^ 64 - 1 - delta n < cell sketch off) = true := by
  have hlen : (columns item).length = depth := by simp [columns]
  rw [offsets_eq, List.any_map, List.any_eq_true]
  constructor
  · rintro ⟨row, col, hcol, hlt⟩
    obtain ⟨hrow, -⟩ := List.getElem?_eq_some_iff.mp hcol
    rw [getElem?_columns item (hlen ▸ hrow), Option.some.injEq] at hcol
    refine ⟨row, List.mem_range.mpr (hlen ▸ hrow), decide_eq_true ?_⟩
    dsimp only
    rw [hcol, delta_eq]
    omega
  · rintro ⟨row, hrow, hlt⟩
    have hroom : 2 ^ 64 - 1 - delta n < cell sketch (cellOff row (column item row)) :=
      of_decide_eq_true hlt
    refine ⟨row, column item row, getElem?_columns item (List.mem_range.mp hrow), ?_⟩
    rw [delta_eq] at hroom
    omega

/-- What a call does, case by case. -/
theorem incr_cases (sketch item : Bytes) (hn : n < 2 ^ 64) :
    (sketch.length ≠ denseSize ∧ incr sketch item n = (sketch, some .size)) ∨
      (sketch.length = denseSize ∧ item = [] ∧ incr sketch item n = (sketch, some .empty)) ∨
      (sketch.length = denseSize ∧ item ≠ [] ∧ Full sketch item n ∧
        incr sketch item n = (sketch, some .overflow)) ∨
      (sketch.length = denseSize ∧ item ≠ [] ∧ ¬ Full sketch item n ∧
        incr sketch item n = (addCells item (delta n) (List.range depth) sketch, none)) := by
  by_cases hsize : sketch.length = denseSize
  · by_cases hitem : item = []
    · refine .inr (.inl ⟨hsize, hitem, ?_⟩)
      rw [incr, if_neg (not_not.mpr hsize), if_pos hitem]
    · rw [incr, if_neg (not_not.mpr hsize), if_neg hitem]
      by_cases hfull : Full sketch item n
      · refine .inr (.inr (.inl ⟨hsize, hitem, hfull, ?_⟩))
        rw [if_pos ((full_iff hn).mp hfull)]
      · refine .inr (.inr (.inr ⟨hsize, hitem, hfull, ?_⟩))
        rw [if_neg fun h => hfull ((full_iff hn).mpr h)]
        simp only [offsets_eq, List.foldl_map, addCells]
  · refine .inl ⟨hsize, ?_⟩
    rw [incr, if_pos hsize]

/-- A call succeeds exactly on a sketch of the right size with room in all cells of its item. -/
theorem incr_ok_iff (hn : n < 2 ^ 64) : (incr sketch item n).2 = none ↔
      sketch.length = denseSize ∧ item ≠ [] ∧ ¬ Full sketch item n := by
  rcases incr_cases sketch item hn with ⟨hsize, heq⟩ | ⟨-, hitem, heq⟩ | ⟨-, -, hfull, heq⟩ |
    ⟨hsize, hitem, hroom, heq⟩
  · simp [heq, hsize]
  · rw [heq]
    simp [hitem]
  · simp [heq, hfull]
  · simp [heq, hsize, hitem, hroom]

theorem incr_overflow_iff (hn : n < 2 ^ 64) : (incr sketch item n).2 = some .overflow ↔
      sketch.length = denseSize ∧ item ≠ [] ∧ Full sketch item n := by
  rcases incr_cases sketch item hn with ⟨hsize, heq⟩ | ⟨-, hitem, heq⟩ |
    ⟨hsize, hitem, hfull, heq⟩ |
    ⟨-, -, hroom, heq⟩
  · simp [heq, hsize]
  · rw [heq]
    simp [hitem]
  · simp [heq, hsize, hitem, hfull]
  · simp [heq, hroom]

theorem unchanged_of_fault (hn : n < 2 ^ 64) (h : (incr sketch item n).2 ≠ none) :
    (incr sketch item n).1 = sketch := by
  rcases incr_cases sketch item hn with ⟨-, heq⟩ | ⟨-, -, heq⟩ | ⟨-, -, -, heq⟩ | ⟨-, -, -, heq⟩
  · rw [heq]
  · rw [heq]
  · rw [heq]
  · rw [heq] at h
    exact absurd rfl h

/-- A call without error found room in all cells and added to all of them. -/
theorem incr_spec (hn : n < 2 ^ 64) (h : (incr sketch item n).2 = none) :
    sketch.length = denseSize ∧ item ≠ [] ∧
      (∀ row ∈ List.range depth, cell sketch (cellOff row (column item row)) + delta n < 2 ^ 64) ∧
      (incr sketch item n).1 = addCells item (delta n) (List.range depth) sketch := by
  obtain ⟨hsize, hitem, hroom⟩ := (incr_ok_iff hn).mp h
  refine ⟨hsize, hitem, fun row hrow => ?_, ?_⟩
  · by_contra hfull
    refine hroom ⟨row, _, getElem?_columns item (List.mem_range.mp hrow), ?_⟩
    rw [← delta_eq]
    omega
  · rcases incr_cases sketch item hn with ⟨-, heq⟩ | ⟨-, -, heq⟩ | ⟨-, -, -, heq⟩ | ⟨-, -, -, heq⟩
    · simp [heq] at h
    · simp [heq] at h
    · simp [heq] at h
    · rw [heq]

theorem addCells_length (item : Bytes) (d : ℕ) {rows : List ℕ} (hrows : ∀ row ∈ rows, row < depth)
    (hsize : sketch.length = denseSize) : (addCells item d rows sketch).length = denseSize := by
  induction rows generalizing sketch with
  | nil => exact hsize
  | cons r rows ih =>
    obtain ⟨hr, hrows⟩ := List.forall_mem_cons.mp hrows
    have hoff : cellOff r (column item r) + 8 ≤ sketch.length :=
      hsize ▸ cellOff_le hr (column_lt item r)
    exact ih hrows ((putCell_length sketch _ hoff).trans hsize)

/-- A call without error adds its amount to the cells of its item. -/
theorem grid_incr (hn : n < 2 ^ 64) (h : (incr sketch item n).2 = none) :
    grid (incr sketch item n).1 = add hashes item (delta n) (grid sketch) := by
  obtain ⟨hsize, -, hfit, heq⟩ := incr_spec hn h
  funext row col
  rw [grid, heq, cell_addCells List.nodup_range (fun row hrow => List.mem_range.mp hrow) hsize hfit
    col.isLt]
  have hmem : row.val ∈ List.range depth := List.mem_range.mpr row.isLt
  simp only [add, grid, hmem, true_and, hashes, Fin.ext_iff]

theorem le_foldl_min {f : ℕ → ℕ} {xs : List ℕ} {m b : ℕ} :
    b ≤ xs.foldl (fun m x => min m (f x)) m ↔ b ≤ m ∧ ∀ x ∈ xs, b ≤ f x := by
  induction xs generalizing m with
  | nil => simp
  | cons x xs ih =>
    rw [List.foldl_cons, ih, le_min_iff, List.forall_mem_cons]
    tauto

/-- The estimate of the code is that of the grid. -/
theorem query_eq (hsize : sketch.length = denseSize) (hitem : item ≠ []) :
    query sketch item = CountMin.query hashes (grid sketch) item := by
  have hle : ∀ b, b ≤ query sketch item ↔
      b ≤ 2 ^ 64 - 1 ∧ ∀ row : Fin depth, b ≤ grid sketch row (hashes item row) := by
    intro b
    rw [query, if_neg (by simp [hsize, hitem]), le_foldl_min, offsets_eq]
    simp only [List.mem_map, List.mem_range, forall_exists_index, and_imp,
      forall_apply_eq_imp_iff₂]
    exact and_congr_right fun _ => ⟨fun h row => h row row.isLt, fun h row hrow => h ⟨row, hrow⟩⟩
  refine le_antisymm (le_query _ _ ((hle _).mp le_rfl).2) ((hle _).mpr ⟨?_, fun row => ?_⟩)
  · obtain ⟨row, hrow⟩ := exists_query hashes (grid sketch) item
    have hlt := cell_lt sketch (cellOff row (hashes item row))
    rw [hrow, grid]
    omega
  · exact query_le _ _ item row

theorem query_nil (sketch : Bytes) : query sketch [] = 0 := by
  simp [query]

end Refinement

section Runs

def record (s : Bytes × List (Bytes × ℕ)) (call : Bytes × ℕ) : Bytes × List (Bytes × ℕ) :=
  let r := incr s.1 call.1 call.2
  (r.1, if r.2 = none then s.2 ++ [(call.1, delta call.2)] else s.2)

theorem record_fst (s : Bytes × List (Bytes × ℕ)) (call : Bytes × ℕ) :
    (record s call).1 = (incr s.1 call.1 call.2).1 :=
  rfl

theorem record_of_ok {s : Bytes × List (Bytes × ℕ)} {call : Bytes × ℕ}
    (h : (incr s.1 call.1 call.2).2 = none) :
    record s call = ((incr s.1 call.1 call.2).1, s.2 ++ [(call.1, delta call.2)]) := by
  simp only [record, h, if_true]

theorem record_of_fault {s : Bytes × List (Bytes × ℕ)} {call : Bytes × ℕ} (hn : call.2 < 2 ^ 64)
    (h : (incr s.1 call.1 call.2).2 ≠ none) : record s call = s := by
  simp only [record, h, if_false, unchanged_of_fault hn h]

structure Sound (s : Bytes × List (Bytes × ℕ)) : Prop where
  size : s.1.length = denseSize
  items : ∀ a ∈ s.2, a.1 ≠ []
  counts : Counts hashes s.2 (grid s.1)

theorem cell_new (off : ℕ) : cell new off = 0 := by
  have hzeros : ∀ n, leNat (List.replicate n 0) = 0 := by
    intro n
    induction n with
    | zero => rfl
    | succ n ih => simp [List.replicate_succ, leNat, ih]
  rw [cell, new, List.drop_replicate, List.take_replicate, hzeros]

theorem sound_new : Sound (new, []) where
  size := by rw [new, List.length_replicate]
  items a ha := absurd ha List.not_mem_nil
  counts := by
    have hgrid : grid new = fun _ _ => 0 := by
      funext row col
      exact cell_new _
    rw [hgrid]
    exact .empty

theorem Sound.record {s : Bytes × List (Bytes × ℕ)} (h : Sound s) {call : Bytes × ℕ}
    (hn : call.2 < 2 ^ 64) : Sound (record s call) := by
  by_cases hok : (incr s.1 call.1 call.2).2 = none
  · rw [record_of_ok hok]
    obtain ⟨-, hitem, -, heq⟩ := incr_spec hn hok
    refine ⟨?_, ?_, ?_⟩
    · rw [heq]
      exact addCells_length _ _ (fun row hrow => List.mem_range.mp hrow) h.size
    · exact List.forall_mem_append.mpr
        ⟨h.items, List.forall_mem_singleton.mpr hitem⟩
    · rw [grid_incr hn hok]
      exact h.counts.add _ _
  · rw [record_of_fault hn hok]
    exact h

theorem sound_run {calls : List (Bytes × ℕ)} (hcalls : ∀ call ∈ calls, call.2 < 2 ^ 64)
    {s : Bytes × List (Bytes × ℕ)} (h : Sound s) : Sound (calls.foldl record s) := by
  induction calls generalizing s with
  | nil => exact h
  | cons call calls ih =>
    obtain ⟨hn, hcalls⟩ := List.forall_mem_cons.mp hcalls
    exact ih hcalls (h.record hn)

/-- No cell is above the total, so there is room as long as the total stays in range. -/
theorem Sound.not_full {s : Bytes × List (Bytes × ℕ)} (h : Sound s) {item : Bytes} {n : ℕ}
    (hroom : (s.2.map Prod.snd).sum + max n 1 < 2 ^ 64) : ¬ Full s.1 item n := by
  rintro ⟨row, col, hcol, hfull⟩
  obtain ⟨hrow, -⟩ := List.getElem?_eq_some_iff.mp hcol
  have hdepth : row < depth := by simpa [columns] using hrow
  rw [getElem?_columns item hdepth, Option.some.injEq] at hcol
  have hle : grid s.1 ⟨row, hdepth⟩ (hashes item ⟨row, hdepth⟩) ≤
      ∑ col, grid s.1 ⟨row, hdepth⟩ col :=
    Finset.single_le_sum (fun _ _ => Nat.zero_le _) (Finset.mem_univ _)
  rw [h.counts.rows] at hle
  have hcell : cell s.1 (cellOff row col) ≤ (s.2.map Prod.snd).sum := hcol ▸ hle
  omega

/-- Every cell of an item counts what was added for it. -/
theorem Sound.full {s : Bytes × List (Bytes × ℕ)} (h : Sound s) {item : Bytes} {n : ℕ}
    (hover : 2 ^ 64 - 1 < seen s.2 item + max n 1) : Full s.1 item n := by
  have hrow : 0 < depth := by decide
  have hlow : seen s.2 item ≤ cell s.1 (cellOff 0 (column item 0)) := h.counts.low item ⟨0, hrow⟩
  exact ⟨0, column item 0, getElem?_columns item hrow, by omega⟩

/-- The estimate of an item is at least what was successfully added for it, and every row sums up
to all that was. A call succeeds exactly on a sketch of the right size, a non-empty item and
cells with room; it then raises the estimate of its item by its amount and lowers none. A call
overflows exactly when one of the cells has no room, and then changes nothing. -/
theorem sketch_counts (calls : List (Bytes × ℕ)) (hcalls : ∀ call ∈ calls, call.2 < 2 ^ 64) :
    (∀ x, seen (calls.foldl record (new, [])).2 x ≤ query (calls.foldl record (new, [])).1 x) ∧
      (∀ row < depth, ∑ col ∈ Finset.range width,
          cell (calls.foldl record (new, [])).1 (cellOff row col) =
        ((calls.foldl record (new, [])).2.map Prod.snd).sum) ∧
      (∀ sketch x n, n < 2 ^ 64 → ((incr sketch x n).2 = none ↔
        sketch.length = denseSize ∧ x ≠ [] ∧ ¬ Full sketch x n)) ∧
      (∀ sketch x n, n < 2 ^ 64 → (incr sketch x n).2 = none →
        query (incr sketch x n).1 x = query sketch x + max n 1 ∧
          ∀ y, query sketch y ≤ query (incr sketch x n).1 y) ∧
      ∀ sketch x n, n < 2 ^ 64 →
        ((incr sketch x n).2 = some .overflow ↔
          sketch.length = denseSize ∧ x ≠ [] ∧ Full sketch x n) ∧
        ((incr sketch x n).2 = some .overflow → (incr sketch x n).1 = sketch) := by
  have hsound := sound_run hcalls sound_new
  refine ⟨fun x => ?_, fun row hrow => ?_, fun sketch x n hn => incr_ok_iff hn,
    fun sketch x n hn hok => ?_, fun sketch x n hn => ⟨incr_overflow_iff hn, fun hover => ?_⟩⟩
  · by_cases hx : x = []
    · have hnone : seen (calls.foldl record (new, [])).2 x = 0 := by
        rw [seen, List.filter_eq_nil_iff.mpr]
        · rfl
        · intro a ha
          simpa [hx] using hsound.items a ha
      omega
    · rw [query_eq hsound.size hx]
      exact hsound.counts.seen_le_query x
  · rw [Finset.sum_range]
    exact hsound.counts.rows ⟨row, hrow⟩
  · obtain ⟨hsize, hitem, -, heq⟩ := incr_spec hn hok
    have hsize' : (incr sketch x n).1.length = denseSize := by
      rw [heq]
      exact addCells_length _ _ (fun row hrow => List.mem_range.mp hrow) hsize
    refine ⟨?_, fun y => ?_⟩
    · rw [query_eq hsize' hitem, query_eq hsize hitem, grid_incr hn hok, query_add_self,
        delta_eq]
    · by_cases hy : y = []
      · rw [hy, query_nil]
        exact Nat.zero_le _
      · rw [query_eq hsize' hy, query_eq hsize hy, grid_incr hn hok]
        exact query_le_query_add hashes _ x y _
  · refine unchanged_of_fault hn ?_
    rw [hover]
    exact Option.some_ne_none _

/-- Two calls succeed and a third overflows. -/
theorem sketch_counts_two :
    let s₁ := record (new, []) ([1], 3)
    let s₂ := record s₁ ([2], 0)
    let s₃ := record s₂ ([1], 2 ^ 64 - 1)
    s₁.2 = [([1], 3)] ∧ query s₁.1 [1] = query new [1] + 3 ∧
      s₂.2 = [([1], 3), ([2], 1)] ∧ query s₁.1 [1] ≤ query s₂.1 [1] ∧
      (incr s₂.1 [1] (2 ^ 64 - 1)).2 = some .overflow ∧ s₃ = s₂ ∧
      3 ≤ query s₃.1 [1] ∧
      ∀ row < depth, ∑ col ∈ Finset.range width, cell s₃.1 (cellOff row col) = 4 := by
  intro s₁ s₂ s₃
  obtain ⟨hseen, hrows, hok, hraise, hover⟩ :=
    sketch_counts [([1], 3), ([2], 0), ([1], 2 ^ 64 - 1)] (by decide)
  have hsound₁ : Sound s₁ := sound_new.record (by decide)
  have hsound₂ : Sound s₂ := hsound₁.record (by decide)
  have hfirst : (incr new [1] 3).2 = none :=
    (hok new [1] 3 (by decide)).mpr ⟨sound_new.size, by decide, sound_new.not_full (by decide)⟩
  have hs₁ : s₁ = ((incr new [1] 3).1, [([1], 3)]) := record_of_ok hfirst
  have hlog₁ : s₁.2 = [([1], 3)] := congrArg Prod.snd hs₁
  have hsecond : (incr s₁.1 [2] 0).2 = none := by
    refine (hok s₁.1 [2] 0 (by decide)).mpr ⟨hsound₁.size, by decide, hsound₁.not_full ?_⟩
    rw [hlog₁]
    decide
  have hs₂ : s₂ = ((incr s₁.1 [2] 0).1, s₁.2 ++ [([2], 1)]) := record_of_ok hsecond
  have hlog₂ : s₂.2 = [([1], 3), ([2], 1)] := by
    rw [hs₂, hlog₁]
    rfl
  have hthird : (incr s₂.1 [1] (2 ^ 64 - 1)).2 = some .overflow := by
    refine (hover s₂.1 [1] (2 ^ 64 - 1) (by decide)).1.mpr
      ⟨hsound₂.size, by decide, hsound₂.full ?_⟩
    rw [hlog₂]
    decide
  have hs₃ : s₃ = s₂ := by
    refine record_of_fault (by decide) ?_
    rw [hthird]
    exact Option.some_ne_none _
  have hrun : [([1], 3), ([2], 0), ([1], 2 ^ 64 - 1)].foldl record (new, []) = s₃ := by
    rw [List.foldl_cons, List.foldl_cons, List.foldl_cons, List.foldl_nil]
  have htotal : seen [([1], 3), ([2], 1)] [1] = 3 := by decide
  rw [hrun, hs₃, hlog₂] at hseen hrows
  have hbytes₁ : s₁.1 = (incr new [1] 3).1 := record_fst (new, []) ([1], 3)
  have hbytes₂ : s₂.1 = (incr s₁.1 [2] 0).1 := record_fst s₁ ([2], 0)
  have hmax : max 3 1 = 3 := rfl
  have hraise₁ : query s₁.1 [1] = query new [1] + 3 := by
    rw [hbytes₁, (hraise new [1] 3 (by decide) hfirst).1, hmax]
  have hraise₂ : query s₁.1 [1] ≤ query s₂.1 [1] := by
    rw [hbytes₂]
    exact (hraise s₁.1 [2] 0 (by decide) hsecond).2 [1]
  refine ⟨hlog₁, hraise₁, hlog₂, hraise₂, hthird, hs₃, ?_, ?_⟩
  · rw [hs₃, ← htotal]
    exact hseen [1]
  · rw [hs₃]
    exact hrows

end Runs

end Supercache.CmsX
