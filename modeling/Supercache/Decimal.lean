import Mathlib

/-!
Decimal numerals as bytes: the numeral of a number, and the value of a string of
digits. A numeral has the value it was made from and no leading zero.
-/
namespace Supercache.Decimal

def numeral (n : ℕ) : List UInt8 := (Nat.toDigits 10 n).map fun c => UInt8.ofNat c.toNat

def value (ds : List UInt8) : ℕ := ds.foldl (fun n c => n * 10 + (c.toNat - 0x30)) 0

theorem toNat_of_mem_toDigits {n : ℕ} {c : Char} (hc : c ∈ Nat.toDigits 10 n) :
    0x30 ≤ c.toNat ∧ c.toNat ≤ 0x39 := by
  have hdigit := Nat.isDigit_of_mem_toDigits (by decide) le_rfl hc
  simp only [Char.isDigit, Bool.and_eq_true, decide_eq_true_eq, ge_iff_le,
    UInt32.le_iff_toNat_le] at hdigit
  exact hdigit

theorem numeral_ne_nil (n : ℕ) : numeral n ≠ [] := by
  rw [numeral, ne_eq, List.map_eq_nil_iff]
  exact List.ne_nil_of_length_pos Nat.length_toDigits_pos

theorem mem_numeral {n : ℕ} {b : UInt8} (hb : b ∈ numeral n) : 0x30 ≤ b ∧ b ≤ 0x39 := by
  obtain ⟨c, hc, rfl⟩ := List.mem_map.mp hb
  obtain ⟨hlo, hhi⟩ := toNat_of_mem_toDigits hc
  have hval : (UInt8.ofNat c.toNat).toNat = c.toNat :=
    UInt8.toNat_ofNat_of_lt' (show c.toNat < 256 by omega)
  rw [UInt8.le_iff_toNat_le, UInt8.le_iff_toNat_le, hval]
  exact ⟨hlo, hhi⟩

/-- A numeral has the value it was written for. -/
theorem value_numeral (n : ℕ) : value (numeral n) = n := by
  have hfold : ∀ (l : List Char) (acc : ℕ), (∀ c ∈ l, c.toNat ≤ 0x39) →
      (l.map fun c => UInt8.ofNat c.toNat).foldl (fun n c => n * 10 + (c.toNat - 0x30)) acc =
        l.foldl (fun n c => 10 * n + (c.toNat - '0'.toNat)) acc := by
    intro l
    induction l with
    | nil => exact fun _ _ => rfl
    | cons c l ih =>
      intro acc hl
      obtain ⟨hc, hl⟩ := List.forall_mem_cons.mp hl
      have hval : (UInt8.ofNat c.toNat).toNat = c.toNat :=
        UInt8.toNat_ofNat_of_lt' (show c.toNat < 256 by omega)
      rw [List.map_cons, List.foldl_cons, List.foldl_cons, ih _ hl, hval, Nat.mul_comm acc 10]
      rfl
  rw [value, numeral, hfold _ _ fun c hc => (toNat_of_mem_toDigits hc).2,
    ← Nat.ofDigitChars_eq_foldl, Nat.ofDigitChars_ten_toDigits]

theorem head_toDigits {n : ℕ} (hn : n ≠ 0) : ∃ c t, Nat.toDigits 10 n = c :: t ∧ c ≠ '0' := by
  induction n using Nat.strong_induction_on with
  | _ n ih =>
    by_cases hlt : n < 10
    · refine ⟨n.digitChar, [], Nat.toDigits_of_lt_base hlt, fun h => hn ?_⟩
      exact Nat.digitChar_eq_zero.mp h
    · obtain ⟨c, t, hc, hne⟩ := ih (n / 10) (by omega) (by omega)
      refine ⟨c, t ++ [(n % 10).digitChar], ?_, hne⟩
      rw [Nat.toDigits_of_base_le (by decide) (by omega), hc, List.cons_append]

/-- Only the numeral of zero starts with a zero. -/
theorem head_numeral {n : ℕ} (hn : n ≠ 0) : ∃ b t, numeral n = b :: t ∧ b ≠ 0x30 := by
  obtain ⟨c, t, hc, hne⟩ := head_toDigits hn
  have hmem : c ∈ Nat.toDigits 10 n := by
    rw [hc]
    exact List.mem_cons_self
  refine ⟨UInt8.ofNat c.toNat, t.map fun c => UInt8.ofNat c.toNat, by rw [numeral, hc]; rfl, ?_⟩
  intro h
  have hval : (UInt8.ofNat c.toNat).toNat = c.toNat :=
    UInt8.toNat_ofNat_of_lt' (show c.toNat < 256 by have := toNat_of_mem_toDigits hmem; omega)
  rw [h] at hval
  exact hne (Char.toNat_inj.mp hval.symm)

end Supercache.Decimal
