import Supercache.ByteBits
import Supercache.ClampedRanges
import Supercache.Sketches

/-!
A bitmap as the infinite sequence of its bits, the most significant bit of each byte first and
zero past the end of the buffer. Setting a bit updates the sequence at one offset whether or
not the buffer has to grow, and the two scans count and find bits of the sequence.
-/
namespace Supercache.BitmapX

open Wire ByteBits

section Sequence

def bits (buf : Bytes) (o : ℕ) : Bool := bit buf (8 * (o / 8) + (7 - o % 8))

variable {o : ℕ} {buf : Bytes}

theorem bits_of_length_le (h : 8 * buf.length ≤ o) : bits buf o = false :=
  bit_of_length_le (by omega)

theorem lt_of_bits (h : bits buf o = true) : o < 8 * buf.length := by
  by_contra hle
  rw [bits_of_length_le (Nat.not_lt.mp hle)] at h
  exact absurd h (by simp)

theorem getLsbD_one_shiftLeft : ∀ s < 8, ∀ k < 8,
    ((1 : UInt8) <<< UInt8.ofNat s).toBitVec.getLsbD k = decide (k = s) := by
  decide

/-- A mask of one bit picks that bit. -/
theorem and_one_shiftLeft (b : UInt8) {s : ℕ} (hs : s < 8) :
    (b &&& (1 <<< UInt8.ofNat s) != 0) = b.toBitVec.getLsbD s := by
  have hbit : ∀ k < 8, (b &&& (1 <<< UInt8.ofNat s)).toBitVec.getLsbD k =
      (b.toBitVec.getLsbD k && decide (k = s)) := by
    intro k hk
    rw [UInt8.toBitVec_and, BitVec.getLsbD_and, getLsbD_one_shiftLeft s hs k hk]
  cases hb : b.toBitVec.getLsbD s with
  | true =>
    rw [bne_iff_ne]
    intro hzero
    have hset := hbit s hs
    rw [hzero, hb] at hset
    simp at hset
  | false =>
    rw [bne_eq_false_iff_eq]
    refine UInt8.toBitVec_inj.mp (BitVec.eq_of_getLsbD_eq fun k hk => ?_)
    rw [hbit k hk]
    by_cases hks : k = s
    · rw [hks, hb]
      simp
    · simp [hks]

theorem encodedLen_of_fits (h : o / 8 + 1 ≤ 2 ^ 63 - 1) : encodedLen o = some (o / 8 + 1) :=
  if_neg (Nat.not_lt.mpr h)

theorem bits_append_zeros (buf : Bytes) (n o : ℕ) :
    bits (buf ++ List.replicate n 0) o = bits buf o := by
  have hbyte : ∀ j, (buf ++ List.replicate n 0).getD j 0 = buf.getD j 0 := by
    intro j
    simp only [List.getD_eq_getElem?_getD, List.getElem?_append, List.getElem?_replicate]
    split
    · rfl
    · rw [List.getElem?_eq_none (by omega)]
      split <;> rfl
  rw [bits, bit, hbyte, bits, bit]

theorem getLsbD_write (x : UInt8) (o : ℕ) (b : Bool) {k : ℕ} (hk : k < 8) :
    (if b then x ||| bitMask o else x &&& ~~~(bitMask o)).toBitVec.getLsbD k =
      if k = 7 - o % 8 then b else x.toBitVec.getLsbD k := by
  have hmask : (bitMask o).toBitVec.getLsbD k = decide (k = 7 - o % 8) :=
    getLsbD_one_shiftLeft _ (by omega) k hk
  cases b with
  | true =>
    rw [if_pos rfl, UInt8.toBitVec_or, BitVec.getLsbD_or, hmask]
    split <;> simp_all
  | false =>
    rw [if_neg (by simp), UInt8.toBitVec_and, BitVec.getLsbD_and, UInt8.toBitVec_not,
      BitVec.getLsbD_not, hmask]
    split <;> simp_all

theorem bits_modify (ho : o / 8 < buf.length) (b : Bool) (n : ℕ) :
    bits (buf.modify (o / 8) fun x => if b then x ||| bitMask o else x &&& ~~~(bitMask o)) n =
      if n = o then b else bits buf n := by
  have hdiv : (8 * (n / 8) + (7 - n % 8)) / 8 = n / 8 := by omega
  have hmod : (8 * (n / 8) + (7 - n % 8)) % 8 = 7 - n % 8 := by omega
  by_cases hn : n < 8 * buf.length
  · rw [bits, bit_modify (by omega), hdiv, hmod]
    by_cases hbyte : n / 8 = o / 8
    · rw [if_pos hbyte, getLsbD_write _ _ _ (by omega), getLsbD_getD _ _ _ (by omega), ← hbyte]
      exact if_congr (by omega) rfl rfl
    · rw [if_neg hbyte, if_neg (by rintro rfl; exact hbyte rfl), bits]
  · rw [bits_of_length_le (by rw [List.length_modify]; omega), if_neg (by omega),
      bits_of_length_le (by omega)]

/-- Setting a bit changes the sequence at its offset only. -/
theorem bits_set (buf : Bytes) (h : o / 8 + 1 ≤ 2 ^ 63 - 1) (b : Bool) :
    bits (set buf o b) = Function.update (bits buf) o b := by
  funext n
  rw [set, encodedLen_of_fits h]
  rw [bits_modify (by rw [List.length_append, List.length_replicate]; omega), bits_append_zeros,
    Function.update_apply]

end Sequence

section Scans

variable {buf : Bytes} {lo hi : ℕ}

/-- The offsets of one byte. -/
theorem countP_byte (buf : Bytes) (j : ℕ) :
    (List.range' (8 * j) 8).countP (bits buf) = onesCount (buf.getD j 0) := by
  have hbits : ∀ s < 8, bits buf (8 * j + s) = (buf.getD j 0).toBitVec.getLsbD (7 - s) := by
    intro s hs
    have hdiv : (8 * j + s) / 8 = j := by omega
    have hmod : (8 * j + s) % 8 = s := by omega
    rw [bits, hdiv, hmod, getLsbD_getD _ _ _ (by omega)]
  have hones : onesCount (buf.getD j 0) =
      (List.range 8).countP fun s => (buf.getD j 0).toBitVec.getLsbD s := by
    rw [onesCount, List.countP_eq_length_filter]
    congr 1
    refine List.filter_congr fun s hs => ?_
    exact and_one_shiftLeft _ (List.mem_range.mp hs)
  have hreverse : (List.range 8).map (fun s => 7 - s) = (List.range 8).reverse := by decide
  calc (List.range' (8 * j) 8).countP (bits buf)
      = (List.range 8).countP fun s => (buf.getD j 0).toBitVec.getLsbD (7 - s) := by
        rw [List.range'_eq_map_range, List.countP_map]
        exact List.countP_congr fun s hs => by simp [hbits s (List.mem_range.mp hs)]
    _ = ((List.range 8).map fun s => 7 - s).countP fun s => (buf.getD j 0).toBitVec.getLsbD s := by
        rw [List.countP_map]
        rfl
    _ = onesCount (buf.getD j 0) := by rw [hreverse, List.countP_reverse, hones]

/-- The loop over the bytes counts the bits at their offsets. -/
theorem sum_onesCount (buf : Bytes) (lo k : ℕ) (h : lo + k ≤ buf.length) :
    (((buf.drop lo).take k).map onesCount).sum =
      (List.range' (8 * lo) (8 * k)).countP (bits buf) := by
  induction k with
  | zero => simp
  | succ k ih =>
    have hlt : lo + k < buf.length := by omega
    have hsplit : (buf.drop lo).take (k + 1) = (buf.drop lo).take k ++ [buf.getD (lo + k) 0] := by
      rw [List.take_add_one, List.getElem?_drop, List.getD_eq_getElem _ _ hlt,
        List.getElem?_eq_getElem hlt, Option.toList_some]
    have hoffsets : List.range' (8 * lo) (8 * (k + 1)) =
        List.range' (8 * lo) (8 * k) ++ List.range' (8 * (lo + k)) 8 := by
      rw [Nat.mul_add, Nat.mul_add, List.range'_append_1]
    rw [hsplit, hoffsets, List.map_append, List.sum_append, ih (by omega), List.countP_append,
      countP_byte]
    simp

def window (n : ℕ) (start stop : ℤ) : Finset ℕ :=
  (Finset.range (8 * n)).filter fun o => Within n start stop (o / 8)

variable {start stop : ℤ} {o : ℕ}

theorem mem_window {n : ℕ} : o ∈ window n start stop ↔ Within n start stop (o / 8) := by
  rw [window, Finset.mem_filter, Finset.mem_range]
  exact ⟨fun h => h.2, fun h => ⟨by have := h.1; omega, h⟩⟩

/-- The count is that of the set bits of the window. -/
theorem count_eq (buf : Bytes) (start stop : ℤ) : count buf start stop =
      ((window buf.length start stop).filter fun o => bits buf o = true).card := by
  unfold count normalizeByteRange
  cases hrange : clampRange buf.length start stop with
  | none =>
    symm
    rw [Finset.card_eq_zero, Finset.filter_eq_empty_iff]
    exact fun o ho => absurd (mem_window.mp ho) (not_within_of_clampRange hrange _)
  | some range =>
    obtain ⟨lo, hi⟩ := range
    obtain ⟨hle, hlt, hwithin⟩ := within_of_clampRange hrange
    dsimp only
    rw [sum_onesCount buf lo (hi - lo + 1) (by omega), List.countP_eq_length_filter,
      ← List.toFinset_card_of_nodup (List.Nodup.filter _ (List.nodup_range' _))]
    congr 1
    ext o
    rw [List.mem_toFinset, List.mem_filter, List.mem_range'_1, Finset.mem_filter, mem_window,
      hwithin]
    exact and_congr_left fun _ => by omega

/-- The loop over the bytes with that over the bits of each is one walk over the offsets. -/
theorem findSome?_bytes (p : ℕ → Bool) (lo n : ℕ) :
    ((List.range' lo n).findSome? fun i =>
      ((List.range 8).find? fun s => p (i * 8 + s)).map fun s => i * 8 + s) =
      (List.range' (lo * 8) (n * 8)).find? p := by
  induction n generalizing lo with
  | zero => rfl
  | succ n ih =>
    have hsplit : List.range' (lo * 8) ((n + 1) * 8) =
        List.range' (lo * 8) 8 ++ List.range' ((lo + 1) * 8) (n * 8) := by
      rw [Nat.add_mul lo, Nat.one_mul, List.range'_append_1]
      congr 1
      omega
    have hbyte : (List.range' (lo * 8) 8).find? p =
        ((List.range 8).find? fun s => p (lo * 8 + s)).map fun s => lo * 8 + s := by
      rw [List.range'_eq_map_range, List.find?_map]
      rfl
    rw [hsplit, List.find?_append, hbyte, ← ih (lo + 1), List.range'_succ, List.findSome?_cons]
    cases (List.range 8).find? fun s => p (lo * 8 + s) with
    | none => rfl
    | some s => rfl

theorem pos_of_range {buf : Bytes} {lo hi : ℕ} (b : Bool)
    (h : clampRange buf.length start stop = some (lo, hi)) : pos buf b start stop =
      (List.range' (lo * 8) ((hi - lo + 1) * 8)).find? fun o => bits buf o == b := by
  have hbyte (i : ℕ) : ((List.range 8).find? fun s =>
      (buf.getD i 0 &&& (1 <<< UInt8.ofNat (7 - s)) != 0) == b) =
      (List.range 8).find? fun s => bits buf (i * 8 + s) == b := by
    refine List.find?_congr fun s hs => ?_
    have hs8 := List.mem_range.mp hs
    have hoff : 8 * ((i * 8 + s) / 8) + (7 - (i * 8 + s) % 8) = 8 * i + (7 - s) := by omega
    rw [and_one_shiftLeft _ (by omega), getLsbD_getD _ _ _ (by omega), bits, hoff]
  rw [pos, normalizeByteRange, h]
  simp only [hbyte]
  exact findSome?_bytes (fun o => bits buf o == b) lo (hi - lo + 1)

/-- The position is that of the first such bit of the window. -/
theorem pos_eq_some_iff (buf : Bytes) (b : Bool) (start stop : ℤ) (o : ℕ) :
    pos buf b start stop = some o ↔ o ∈ window buf.length start stop ∧ bits buf o = b ∧
        ∀ o' ∈ window buf.length start stop, bits buf o' = b → o ≤ o' := by
  cases hrange : clampRange buf.length start stop with
  | none =>
    refine iff_of_false (by simp [pos, normalizeByteRange, hrange]) fun h => ?_
    exact not_within_of_clampRange hrange _ (mem_window.mp h.1)
  | some range =>
    obtain ⟨lo, hi⟩ := range
    obtain ⟨hle, hlt, hwithin⟩ := within_of_clampRange hrange
    rw [pos_of_range b hrange]
    simp only [List.find?_range'_eq_some, mem_window, hwithin, List.mem_range'_1]
    constructor
    · rintro ⟨hb, hin, hleast⟩
      refine ⟨by omega, by simpa using hb, fun o' hin' hb' => ?_⟩
      by_contra hbefore
      have hnot := hleast o' (by omega) (by omega)
      simp [hb'] at hnot
    · rintro ⟨hin, hb, hleast⟩
      refine ⟨by simpa using hb, by omega, fun j hj hbefore => ?_⟩
      rw [Bool.not_eq_true', beq_eq_false_iff_ne]
      intro hb'
      have hle' := hleast j (by omega) hb'
      omega

theorem pos_eq_none_iff (buf : Bytes) (b : Bool) (start stop : ℤ) :
    pos buf b start stop = none ↔ ∀ o ∈ window buf.length start stop, bits buf o ≠ b := by
  cases hrange : clampRange buf.length start stop with
  | none =>
    refine iff_of_true (by simp [pos, normalizeByteRange, hrange]) fun o ho => ?_
    exact absurd (mem_window.mp ho) (not_within_of_clampRange hrange _)
  | some range =>
    obtain ⟨lo, hi⟩ := range
    obtain ⟨hle, hlt, hwithin⟩ := within_of_clampRange hrange
    rw [pos_of_range b hrange]
    simp only [List.find?_eq_none, mem_window, hwithin, List.mem_range'_1, beq_iff_eq]
    exact forall_congr' fun o => imp_congr_left (by omega)

end Scans

section Writes

def lastWrite (writes : List (ℕ × Bool)) (o : ℕ) : Option Bool :=
  (writes.reverse.find? fun w => w.1 = o).map Prod.snd

theorem lastWrite_snoc (writes : List (ℕ × Bool)) (w : ℕ × Bool) (o : ℕ) :
    lastWrite (writes ++ [w]) o = if w.1 = o then some w.2 else lastWrite writes o := by
  rw [lastWrite, List.reverse_append, List.reverse_singleton, List.singleton_append,
    List.find?_cons]
  by_cases hw : w.1 = o <;> simp [hw, lastWrite]

variable {writes : List (ℕ × Bool)}

/-- The sequence holds at each offset what was last written there. -/
theorem bits_writes (h : ∀ w ∈ writes, w.1 / 8 + 1 ≤ 2 ^ 63 - 1) (o : ℕ) :
    bits (writes.foldl (fun buf w => set buf w.1 w.2) []) o = (lastWrite writes o).getD false := by
  induction writes using List.reverseRecOn with
  | nil => exact bits_of_length_le (Nat.zero_le o)
  | append_singleton writes w ih =>
    obtain ⟨hwrites, hw⟩ := List.forall_mem_append.mp h
    rw [List.foldl_append, List.foldl_cons, List.foldl_nil,
      bits_set _ (hw w (List.mem_singleton_self w)), Function.update_apply, lastWrite_snoc,
      ih hwrites]
    by_cases ho : o = w.1
    · rw [if_pos ho, if_pos ho.symm, Option.getD_some]
    · rw [if_neg ho, if_neg (Ne.symm ho)]

theorem mem_of_lastWrite {o : ℕ} {b : Bool} (h : lastWrite writes o = some b) :
    o ∈ writes.map Prod.fst := by
  obtain ⟨w, hw, -⟩ := Option.map_eq_some_iff.mp h
  have hoff : w.1 = o := by simpa using List.find?_some hw
  exact List.mem_map.mpr ⟨w, List.mem_reverse.mp (List.mem_of_find?_eq_some hw), hoff⟩

/-- Setting a bit updates the sequence of bits at its offset, counting counts the one bits of the
window and searching finds the least offset of the window with the bit. After any sequence of
writes to an empty buffer the count is the number of offsets whose last write was a one. -/
theorem bitmap_semantics :
    (∀ (buf : Bytes) (o : ℕ) (b : Bool), o / 8 + 1 ≤ 2 ^ 63 - 1 →
      bits (set buf o b) = Function.update (bits buf) o b) ∧
    (∀ (buf : Bytes) (start stop : ℤ), count buf start stop =
      ((window buf.length start stop).filter fun o => bits buf o = true).card) ∧
    (∀ (buf : Bytes) (b : Bool) (start stop : ℤ),
      (∀ o, pos buf b start stop = some o ↔
        o ∈ window buf.length start stop ∧ bits buf o = b ∧
          ∀ o' ∈ window buf.length start stop, bits buf o' = b → o ≤ o') ∧
      (pos buf b start stop = none ↔ ∀ o ∈ window buf.length start stop, bits buf o ≠ b)) ∧
    ∀ writes : List (ℕ × Bool), (∀ w ∈ writes, w.1 / 8 + 1 ≤ 2 ^ 63 - 1) →
      count (writes.foldl (fun buf w => set buf w.1 w.2) []) 0 (-1) =
        ((writes.map Prod.fst).toFinset.filter fun o => lastWrite writes o = some true).card := by
  refine ⟨fun buf o b h => bits_set buf h b, count_eq,
    fun buf b start stop => ⟨pos_eq_some_iff buf b start stop, pos_eq_none_iff buf b start stop⟩,
    fun writes h => ?_⟩
  rw [count_eq]
  congr 1
  ext o
  rw [Finset.mem_filter, Finset.mem_filter, mem_window, within_all, List.mem_toFinset]
  constructor
  · rintro ⟨-, hbit⟩
    rw [bits_writes h] at hbit
    have hlast : lastWrite writes o = some true := by
      cases hw : lastWrite writes o with
      | none =>
        rw [hw] at hbit
        simp at hbit
      | some b =>
        rw [hw, Option.getD_some] at hbit
        rw [hbit]
    exact ⟨mem_of_lastWrite hlast, hlast⟩
  · rintro ⟨-, hlast⟩
    have hbit : bits (writes.foldl (fun buf w => set buf w.1 w.2) []) o = true := by
      rw [bits_writes h, hlast, Option.getD_some]
    have hlt := lt_of_bits hbit
    exact ⟨by omega, hbit⟩

end Writes

end Supercache.BitmapX
