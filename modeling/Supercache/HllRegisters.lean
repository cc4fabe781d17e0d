import Supercache.ByteBits
import Supercache.SnapshotCodecs

/-!
The registers of a HyperLogLog sketch, six bits each. They determine the bytes, and adding an item
takes the maximum with its rank in one of them. So the bytes depend on the set of the items alone,
and merging two sketches is adding the items of both.
-/
namespace Supercache.HllX

open Wire ByteBits

section Packed

variable {regs : Bytes} {i : ℕ}

theorem testBit_byte (regs : Bytes) (j n : ℕ) :
    (regs.getD j 0).toNat.testBit n = (decide (n < 8) && bit regs (8 * j + n)) := by
  by_cases hn : n < 8
  · rw [← getLsbD_getD regs j n hn]
    simp [hn, BitVec.getLsbD]
  · have hlt : (regs.getD j 0).toNat < 2 ^ n :=
      lt_of_lt_of_le (regs.getD j 0).toNat_lt (Nat.pow_le_pow_right (by norm_num) (by omega))
    rw [Nat.testBit_lt_two_pow hlt]
    simp [hn]

/-- A register is a window of six bits. -/
theorem testBit_getReg (hi : i < registers) (hsize : regs.length = denseSize) {k : ℕ}
    (hk : k < 6) : (getReg regs i).testBit k = bit regs (6 * i + k) := by
  have hmod : (64 : ℕ) = 2 ^ 6 := rfl
  rw [getReg, if_neg (by simp [hsize]; omega)]
  simp only [hmod, Nat.testBit_mod_two_pow, Nat.testBit_or, Nat.testBit_div_two_pow,
    Nat.testBit_mul_two_pow, testBit_byte, hk, decide_true, Bool.true_and]
  unfold regBits
  by_cases hlow : k + i * 6 % 8 < 8
  · have hhere : 8 * (i * 6 / 8) + (k + i * 6 % 8) = 6 * i + k := by omega
    have hnext : ¬ k ≥ 8 - i * 6 % 8 := by omega
    simp only [hlow, hhere, hnext, decide_true, decide_false, Bool.true_and, Bool.false_and,
      Bool.or_false]
  · have hthere : 8 * (i * 6 / 8 + 1) + (k - (8 - i * 6 % 8)) = 6 * i + k := by omega
    have hnext : k ≥ 8 - i * 6 % 8 := by omega
    have hbound : k - (8 - i * 6 % 8) < 8 := by omega
    simp only [hlow, hthere, hnext, hbound, decide_true, decide_false, Bool.true_and,
      Bool.false_and, Bool.false_or]

theorem getReg_lt (regs : Bytes) (i : ℕ) : getReg regs i < 2 ^ 6 := by
  unfold getReg
  split
  · norm_num
  · exact Nat.mod_lt _ (by norm_num)

theorem getLsbD_write {b : UInt8} {m w k : ℕ} (hk : k < 8) :
    ((b &&& ~~~UInt8.ofNat m) ||| UInt8.ofNat w).toBitVec.getLsbD k =
      ((b.toBitVec.getLsbD k && !m.testBit k) || w.testBit k) := by
  have hof : ∀ m : ℕ, (UInt8.ofNat m).toBitVec.getLsbD k = m.testBit k := by
    intro m
    rw [UInt8.toBitVec_ofNat', BitVec.getLsbD_ofNat]
    simp [hk]
  simp only [UInt8.toBitVec_or, UInt8.toBitVec_and, UInt8.toBitVec_not, BitVec.getLsbD_or,
    BitVec.getLsbD_and, BitVec.getLsbD_not, hof, hk, decide_true, Bool.true_and]

/-- Writing a register writes its window. -/
theorem bit_setReg (hi : i < registers) (hsize : regs.length = denseSize) (v n : ℕ) :
    bit (setReg regs i v) n =
      if 6 * i ≤ n ∧ n < 6 * i + 6 then v.testBit (n - 6 * i) else bit regs n := by
  by_cases hn : n < 8 * regs.length
  · have hmod : (64 : ℕ) = 2 ^ 6 := rfl
    have hmask : (0x3f : ℕ) = 2 ^ 6 - 1 := rfl
    have hk : n % 8 < 8 := Nat.mod_lt n (by norm_num)
    rw [setReg, if_neg (by simp [hsize]; omega)]
    simp only [hmask, hmod]
    unfold regBits
    rw [bit_modify (by rwa [List.length_modify])]
    by_cases hnext : n / 8 = i * 6 / 8 + 1
    · -- the part of the window that is in the second byte
      have hback : 8 * (i * 6 / 8 + 1) + n % 8 = n := by omega
      rw [if_pos hnext, getLsbD_write hk, getLsbD_getD _ _ _ hk, hback, bit_modify hn,
        if_neg (by omega)]
      simp only [Nat.testBit_div_two_pow, Nat.testBit_two_pow_sub_one, Nat.testBit_mod_two_pow]
      by_cases hwindow : 6 * i ≤ n ∧ n < 6 * i + 6
      · have hinside : n - 6 * i < 6 := by omega
        have hindex : n % 8 + (8 - i * 6 % 8) = n - 6 * i := by omega
        simp [hwindow, hinside, hindex]
      · have houtside : ¬ n % 8 + (8 - i * 6 % 8) < 6 := by omega
        simp [hwindow, houtside]
    · rw [if_neg hnext, bit_modify hn]
      by_cases hhere : n / 8 = i * 6 / 8
      · -- the part in the first byte
        have hback : 8 * (i * 6 / 8) + n % 8 = n := by omega
        rw [if_pos hhere, getLsbD_write hk, getLsbD_getD _ _ _ hk, hback]
        simp only [Nat.testBit_mul_two_pow, Nat.testBit_two_pow_sub_one, Nat.testBit_mod_two_pow]
        by_cases hwindow : 6 * i ≤ n ∧ n < 6 * i + 6
        · have hinside : n - 6 * i < 6 := by omega
          have hstart : i * 6 % 8 ≤ n % 8 := by omega
          have hindex : n % 8 - i * 6 % 8 = n - 6 * i := by omega
          simp [hwindow, hinside, hstart, hindex]
        · have houtside : ¬ (i * 6 % 8 ≤ n % 8 ∧ n % 8 - i * 6 % 8 < 6) := by omega
          by_cases hstart : i * 6 % 8 ≤ n % 8
          · have hlate : ¬ n % 8 - i * 6 % 8 < 6 := fun h => houtside ⟨hstart, h⟩
            simp [hwindow, hstart, hlate]
          · simp [hwindow, hstart]
      · rw [if_neg hhere, if_neg (by omega)]
  · have hwindow : ¬ (6 * i ≤ n ∧ n < 6 * i + 6) := by
      unfold registers at hi
      unfold denseSize at hsize
      omega
    rw [if_neg hwindow, bit_of_length_le (by rw [setReg_length]; omega),
      bit_of_length_le (by omega)]

theorem getReg_of_ge (hi : registers ≤ i) : getReg regs i = 0 := by
  rw [getReg, if_pos (.inl hi)]

/-- A register that was written reads back, and the others are as they were. -/
theorem getReg_setReg (hi : i < registers) (hsize : regs.length = denseSize) {v : ℕ} (hv : v < 64)
    (j : ℕ) : getReg (setReg regs i v) j = if j = i then v else getReg regs j := by
  have hsize' : (setReg regs i v).length = denseSize := (setReg_length regs i v).trans hsize
  by_cases hj : j < registers
  · refine Nat.eq_of_testBit_eq fun k => ?_
    by_cases hk : k < 6
    · rw [testBit_getReg hj hsize' hk, bit_setReg hi hsize]
      by_cases hji : j = i
      · have hindex : 6 * j + k - 6 * i = k := by omega
        rw [if_pos (by omega), if_pos hji, hindex]
      · rw [if_neg (by omega), if_neg hji, testBit_getReg hj hsize hk]
    · have hzero : ∀ w < 64, Nat.testBit w k = false := fun w hw =>
        Nat.testBit_lt_two_pow
          (lt_of_lt_of_le hw (Nat.pow_le_pow_right (n := 2) (by norm_num) (by omega : 6 ≤ k)))
      rw [hzero _ (getReg_lt _ _)]
      split
      · rw [hzero v hv]
      · rw [hzero _ (getReg_lt _ _)]
  · rw [getReg_of_ge (by omega), if_neg (by omega), getReg_of_ge (by omega)]

/-- The registers determine the bytes. -/
theorem eq_of_getReg_eq {regs' : Bytes} (hsize : regs.length = denseSize)
    (hsize' : regs'.length = denseSize) (h : ∀ i < registers, getReg regs i = getReg regs' i) :
    regs = regs' := by
  refine eq_of_bit_eq (hsize.trans hsize'.symm) fun n hn => ?_
  have hreg : n / 6 < registers := by
    unfold denseSize at hsize
    unfold registers
    omega
  have hbit : n % 6 < 6 := Nat.mod_lt n (by norm_num)
  have hindex : 6 * (n / 6) + n % 6 = n := Nat.div_add_mod n 6
  have hread := congrArg (fun r => r.testBit (n % 6)) (h (n / 6) hreg)
  rwa [testBit_getReg hreg hsize hbit, testBit_getReg hreg hsize' hbit, hindex] at hread

end Packed

section Join

def index (item : Bytes) : ℕ := (Fnv.mix64 (Fnv.hash64a item) >>> 50).toNat

def rank (item : Bytes) : ℕ :=
  let w := Fnv.mix64 (Fnv.hash64a item) <<< 14
  let rho := if w = 0 then 51 else leadingZeros w + 1
  if 63 < rho then 63 else rho

theorem add_eq (regs item : Bytes) : add regs item =
      if regs.length ≠ denseSize ∨ item = [] then regs
      else if getReg regs (index item) < rank item then setReg regs (index item) (rank item)
      else regs := rfl

theorem index_lt (item : Bytes) : index item < registers := by
  have hlt := (Fnv.mix64 (Fnv.hash64a item)).toNat_lt
  unfold index registers
  rw [UInt64.toNat_shiftRight]
  change _ >>> 50 < _
  rw [Nat.shiftRight_eq_div_pow]
  omega

theorem rank_lt (item : Bytes) : rank item < 64 := by
  have hcap : ∀ rho, (if 63 < rho then 63 else rho) < 64 := by
    intro rho
    split <;> omega
  unfold rank
  exact hcap _

/-- The maximum with the rank of the item, in its register. -/
theorem getReg_add {regs item : Bytes} (hsize : regs.length = denseSize) (hitem : item ≠ [])
    (i : ℕ) :
    getReg (add regs item) i = max (getReg regs i) (if index item = i then rank item else 0) := by
  rw [add_eq, if_neg (by simp [hsize, hitem])]
  by_cases hlt : getReg regs (index item) < rank item
  · rw [if_pos hlt, getReg_setReg (index_lt item) hsize (rank_lt item)]
    by_cases hi : i = index item
    · subst hi
      simp [hlt.le]
    · simp [hi, Ne.symm hi]
  · rw [if_neg hlt]
    by_cases hi : index item = i
    · subst hi
      simp [Nat.not_lt.mp hlt]
    · simp [hi]

def highest (items : Finset Bytes) (i : ℕ) : ℕ := (items.filter fun x => index x = i).sup rank

theorem highest_insert (items : Finset Bytes) (x : Bytes) (i : ℕ) :
    highest (insert x items) i = max (if index x = i then rank x else 0) (highest items i) := by
  unfold highest
  rw [Finset.filter_insert]
  split
  · rw [Finset.sup_insert]
  · simp

theorem highest_union (items items' : Finset Bytes) (i : ℕ) :
    highest (items ∪ items') i = max (highest items i) (highest items' i) := by
  unfold highest
  rw [Finset.filter_union, Finset.sup_union]

theorem add_size {regs : Bytes} (hsize : regs.length = denseSize) (items : List Bytes) :
    (items.foldl add regs).length = denseSize := by
  induction items generalizing regs with
  | nil => exact hsize
  | cons x items ih => exact ih ((add_length regs x).trans hsize)

theorem getReg_foldl_add {regs : Bytes} (hsize : regs.length = denseSize) {items : List Bytes}
    (hitems : ∀ x ∈ items, x ≠ []) (i : ℕ) :
    getReg (items.foldl add regs) i = max (getReg regs i) (highest items.toFinset i) := by
  induction items generalizing regs with
  | nil => simp [highest]
  | cons x items ih =>
    obtain ⟨hx, hitems⟩ := List.forall_mem_cons.mp hitems
    rw [List.foldl_cons, ih ((add_length regs x).trans hsize) hitems, getReg_add hsize hx,
      List.toFinset_cons, highest_insert, max_assoc]

theorem new_length : new.length = denseSize := by
  rw [new, List.length_replicate]

theorem getReg_new (i : ℕ) : getReg new i = 0 := by
  have hbyte : ∀ j, new.getD j 0 = 0 := by
    intro j
    rw [new, List.getD_eq_getElem?_getD, List.getElem?_replicate]
    split <;> rfl
  unfold getReg
  split
  · rfl
  · simp only [hbyte]
    simp

theorem getReg_adds {items : List Bytes} (hitems : ∀ x ∈ items, x ≠ []) (i : ℕ) :
    getReg (items.foldl add new) i = highest items.toFinset i := by
  rw [getReg_foldl_add new_length hitems, getReg_new, Nat.zero_max]

def mergeReg (src dst : Bytes) (i : ℕ) : Bytes :=
  let a := getReg dst i
  let b := getReg src i
  if a < b then setReg dst i b else dst

def merge (dst src : Bytes) : Option Bytes :=
  if dst.length ≠ denseSize ∨ src.length ≠ denseSize then none
  else some ((List.range registers).foldl (mergeReg src) dst)

theorem mergeReg_length (src dst : Bytes) (i : ℕ) : (mergeReg src dst i).length = dst.length := by
  unfold mergeReg
  dsimp only
  split
  · exact setReg_length dst i _
  · rfl

theorem getReg_mergeReg (src : Bytes) {dst : Bytes} (hsize : dst.length = denseSize) {i : ℕ}
    (hi : i < registers) (j : ℕ) : getReg (mergeReg src dst i) j =
      if j = i then max (getReg dst j) (getReg src j) else getReg dst j := by
  unfold mergeReg
  by_cases hlt : getReg dst i < getReg src i
  · rw [if_pos hlt, getReg_setReg hi hsize (getReg_lt src i)]
    by_cases hj : j = i
    · rw [if_pos hj, if_pos hj, hj, max_eq_right hlt.le]
    · rw [if_neg hj, if_neg hj]
  · rw [if_neg hlt]
    by_cases hj : j = i
    · rw [if_pos hj, hj, max_eq_left (Nat.not_lt.mp hlt)]
    · rw [if_neg hj]

/-- The loop over the registers, each of which is visited once. -/
theorem getReg_foldl_mergeReg (src : Bytes) {is : List ℕ} (hnodup : is.Nodup)
    (his : ∀ i ∈ is, i < registers) {dst : Bytes} (hsize : dst.length = denseSize) (j : ℕ) :
    getReg (is.foldl (mergeReg src) dst) j =
      if j ∈ is then max (getReg dst j) (getReg src j) else getReg dst j := by
  induction is generalizing dst with
  | nil => simp
  | cons i is ih =>
    obtain ⟨hi, his⟩ := List.forall_mem_cons.mp his
    obtain ⟨hnew, hnodup⟩ := List.nodup_cons.mp hnodup
    rw [List.foldl_cons, ih hnodup his ((mergeReg_length src dst i).trans hsize),
      getReg_mergeReg src hsize hi]
    by_cases hji : j = i
    · subst hji
      simp [hnew]
    · simp [hji]

theorem foldl_mergeReg_length (src : Bytes) (is : List ℕ) (dst : Bytes) :
    (is.foldl (mergeReg src) dst).length = dst.length := by
  induction is generalizing dst with
  | nil => rfl
  | cons i is ih => exact (ih _).trans (mergeReg_length src dst i)

/-- The sketch of some items depends on the set of them alone: each register holds the greatest
rank of the items that it is the register of. Merging two sketches gives the sketch of the
items of both. A register that was written reads back and no other changes. -/
theorem registers_join :
    (∀ items : List Bytes, (∀ x ∈ items, x ≠ []) → ∀ i < registers,
      getReg (items.foldl add new) i = (items.toFinset.filter fun x => index x = i).sup rank) ∧
    (∀ items items' : List Bytes, (∀ x ∈ items, x ≠ []) → items.toFinset = items'.toFinset →
      items.foldl add new = items'.foldl add new) ∧
    (∀ items items' both : List Bytes, (∀ x ∈ items, x ≠ []) → (∀ x ∈ items', x ≠ []) →
      both.toFinset = items.toFinset ∪ items'.toFinset →
        merge (items.foldl add new) (items'.foldl add new) = some (both.foldl add new)) ∧
    ∀ (regs : Bytes) (i v : ℕ), regs.length = denseSize → i < registers → v < 64 →
      getReg (setReg regs i v) i = v ∧ ∀ j, j ≠ i → getReg (setReg regs i v) j = getReg regs j := by
  have hsame : ∀ items items' : List Bytes, (∀ x ∈ items, x ≠ []) →
      items.toFinset = items'.toFinset → ∀ x ∈ items', x ≠ [] := by
    intro items items' hitems heq x hx
    exact hitems x (List.mem_toFinset.mp (heq ▸ List.mem_toFinset.mpr hx))
  refine ⟨fun items hitems i _ => getReg_adds hitems i, fun items items' hitems heq => ?_,
    fun items items' both hitems hitems' heq => ?_, fun regs i v hsize hi hv =>
    ⟨?_, fun j hj => ?_⟩⟩
  · refine eq_of_getReg_eq (add_size new_length items) (add_size new_length items') fun i _ => ?_
    rw [getReg_adds hitems, getReg_adds (hsame items items' hitems heq), heq]
  · have hboth : ∀ x ∈ both, x ≠ [] := by
      intro x hx
      have hmem := List.mem_toFinset.mpr hx
      rw [heq, Finset.mem_union, List.mem_toFinset, List.mem_toFinset] at hmem
      exact hmem.elim (hitems x) (hitems' x)
    have hsize := add_size new_length items
    rw [merge, if_neg (by simp [hsize, add_size new_length items']), Option.some.injEq]
    refine eq_of_getReg_eq ((foldl_mergeReg_length _ _ _).trans hsize) (add_size new_length both)
      fun i hi => ?_
    rw [getReg_foldl_mergeReg _ List.nodup_range (fun i hi => List.mem_range.mp hi) hsize,
      if_pos (List.mem_range.mpr hi), getReg_adds hitems, getReg_adds hitems',
      getReg_adds hboth, heq,
      highest_union]
  · rw [getReg_setReg hi hsize hv, if_pos rfl]
  · rw [getReg_setReg hi hsize hv, if_neg hj]

end Join

end Supercache.HllX
