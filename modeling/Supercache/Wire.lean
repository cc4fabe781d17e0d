import Mathlib

/-!
Byte strings and the two number formats of the wire: base-128 varints and fixed-width
little-endian words. A varint holds a 64-bit value, so the reader stops after ten bytes and
refuses a tenth byte above one. Records are read until the input is used up.
-/
namespace Supercache.Wire

abbrev Bytes := List UInt8

def ascii (s : String) : Bytes := s.toList.map fun c => UInt8.ofNat c.toNat

def leBytes : ℕ → ℕ → Bytes
  | 0, _ => []
  | w + 1, n => UInt8.ofNat (n % 256) :: leBytes w (n / 256)

def leNat : Bytes → ℕ
  | [] => 0
  | b :: rest => b.toNat + 256 * leNat rest

@[simp]
theorem leBytes_length (w n : ℕ) : (leBytes w n).length = w := by
  induction w generalizing n with
  | zero => rfl
  | succ w ih => simp [leBytes, ih]

theorem leNat_leBytes (w n : ℕ) : leNat (leBytes w n) = n % 256 ^ w := by
  induction w generalizing n with
  | zero => simp [leBytes, leNat, Nat.mod_one]
  | succ w ih =>
    have hdigit : (UInt8.ofNat (n % 256)).toNat = n % 256 := by
      simp [UInt8.toNat_ofNat']
    rw [leBytes, leNat, ih, hdigit, pow_succ, Nat.mul_comm (256 ^ w) 256, Nat.mod_mul]

theorem leNat_lt (b : Bytes) : leNat b < 256 ^ b.length := by
  induction b with
  | nil => simp [leNat]
  | cons c rest ih =>
    have hc := c.toNat_lt
    simp only [leNat, List.length_cons, pow_succ]
    omega

theorem leBytes_leNat (b : Bytes) : leBytes b.length (leNat b) = b := by
  induction b with
  | nil => rfl
  | cons c rest ih =>
    have hc := c.toNat_lt
    have hlow : (c.toNat + 256 * leNat rest) % 256 = c.toNat := by omega
    have hhigh : (c.toNat + 256 * leNat rest) / 256 = leNat rest := by omega
    simp only [List.length_cons, leBytes, leNat, hlow, hhigh, ih, UInt8.ofNat_toNat]

def putGroups : ℕ → ℕ → Bytes
  | 0, _ => []
  | fuel + 1, x =>
    if x < 0x80 then [UInt8.ofNat x]
    else UInt8.ofNat (x % 128 + 128) :: putGroups fuel (x / 128)

def putUvarint (x : ℕ) : Bytes := putGroups 10 x

def uvarintFrom (i x : ℕ) : Bytes → Option (ℕ × Bytes)
  | [] => none
  | b :: rest =>
    if i = 10 then none
    else if b.toNat < 0x80 then
      if i = 9 ∧ 1 < b.toNat then none else some (x + b.toNat * 2 ^ (7 * i), rest)
    else uvarintFrom (i + 1) (x + (b.toNat - 128) * 2 ^ (7 * i)) rest

def uvarint (b : Bytes) : Option (ℕ × Bytes) := uvarintFrom 0 0 b

def sizeGroups : ℕ → ℕ → ℕ
  | 0, _ => 0
  | fuel + 1, x => if x < 0x80 then 1 else 1 + sizeGroups fuel (x / 128)

def uvarintSize (x : ℕ) : ℕ := sizeGroups 10 x

theorem putGroups_length (fuel x : ℕ) : (putGroups fuel x).length = sizeGroups fuel x := by
  induction fuel generalizing x with
  | zero => rfl
  | succ fuel ih =>
    unfold putGroups sizeGroups
    split
    · rfl
    · rw [List.length_cons, ih, Nat.add_comm]

@[simp]
theorem putUvarint_length (x : ℕ) : (putUvarint x).length = uvarintSize x :=
  putGroups_length 10 x

theorem putUvarint_ne_nil (x : ℕ) : putUvarint x ≠ [] := by
  unfold putUvarint putGroups
  split <;> simp

/-- Reading back the groups of `x` from position `i` adds `x` at that position. -/
private theorem uvarintFrom_putGroups (fuel i acc x : ℕ) (rest : Bytes)
    (hfuel : fuel + i = 10) (hx : x * 2 ^ (7 * i) < 2 ^ 64) (hpos : 0 < fuel) :
    uvarintFrom i acc (putGroups fuel x ++ rest) = some (acc + x * 2 ^ (7 * i), rest) := by
  induction fuel generalizing i acc x with
  | zero => omega
  | succ fuel ih =>
    have hi : i ≠ 10 := by omega
    unfold putGroups
    by_cases hsmall : x < 0x80
    · have hb : (UInt8.ofNat x).toNat = x := by
        rw [UInt8.toNat_ofNat']
        omega
      have hlast : ¬ (i = 9 ∧ 1 < x) := by
        rintro ⟨rfl, hone⟩
        norm_num at hx
        omega
      simp [hsmall, uvarintFrom, hi, hb, hlast]
    · have hb : (UInt8.ofNat (x % 128 + 128)).toNat = x % 128 + 128 := by
        rw [UInt8.toNat_ofNat']
        omega
      have hnine : i ≠ 9 := by
        rintro rfl
        norm_num at hx
        omega
      have hsplit : x * 2 ^ (7 * i) =
          x % 128 * 2 ^ (7 * i) + x / 128 * 2 ^ (7 * (i + 1)) := by
        have hpow : 2 ^ (7 * (i + 1)) = 128 * 2 ^ (7 * i) := by
          rw [Nat.mul_add, pow_add]
          ring
        rw [hpow]
        nth_rewrite 1 [← Nat.mod_add_div x 128]
        ring
      have hnext := ih (i + 1) (acc + x % 128 * 2 ^ (7 * i)) (x / 128)
        (by omega) (by omega) (by omega)
      simp only [hsmall, if_false, List.cons_append, uvarintFrom, hi, hb,
        show ¬ (x % 128 + 128 < 0x80) by omega, show x % 128 + 128 - 128 = x % 128 by omega]
      rw [hnext, hsplit, Nat.add_assoc]

/-- The varint of a 64-bit value reads back, whatever follows it. -/
theorem uvarint_putUvarint (x : ℕ) (rest : Bytes) (hx : x < 2 ^ 64) :
    uvarint (putUvarint x ++ rest) = some (x, rest) := by
  have h := uvarintFrom_putGroups 10 0 0 x rest (by omega) (by simpa using hx) (by omega)
  simpa [uvarint, putUvarint] using h

private theorem uvarintFrom_lt (b : Bytes) (i x n : ℕ) (rest : Bytes) (hi : i ≤ 10)
    (h : uvarintFrom i x b = some (n, rest)) (hx : x < 2 ^ (7 * i)) : n < 2 ^ 64 := by
  induction b generalizing i x with
  | nil => simp [uvarintFrom] at h
  | cons c tail ih =>
    have hc := c.toNat_lt
    have hpow : 2 ^ (7 * (i + 1)) = 128 * 2 ^ (7 * i) := by
      rw [Nat.mul_add, pow_add]
      ring
    -- a group below 128 keeps the partial value inside the groups read so far
    have hgroup : ∀ g : ℕ, g < 128 → x + g * 2 ^ (7 * i) < 2 ^ (7 * (i + 1)) := by
      intro g hg
      have := Nat.mul_le_mul_right (2 ^ (7 * i)) (Nat.le_of_lt_succ hg)
      omega
    unfold uvarintFrom at h
    split_ifs at h with hten hsmall hlast
    · simp only [Option.some.injEq, Prod.mk.injEq] at h
      obtain ⟨rfl, -⟩ := h
      by_cases hnine : i = 9
      · subst hnine
        have hone : c.toNat ≤ 1 := by omega
        norm_num at hx ⊢
        omega
      · have hle : 2 ^ (7 * (i + 1)) ≤ 2 ^ 64 := Nat.pow_le_pow_right (by omega) (by omega)
        exact (hgroup _ hsmall).trans_le hle
    · exact ih (i + 1) _ (by omega) h (hgroup _ (by omega))

variable {b rest item : Bytes} {n : ℕ}

/-- What the varint reader returns fits 64 bits. -/
theorem uvarint_lt (h : uvarint b = some (n, rest)) : n < 2 ^ 64 :=
  uvarintFrom_lt b 0 0 n rest (by omega) h (by simp)

private theorem uvarintFrom_append (b : Bytes) (i x n : ℕ) (rest t : Bytes)
    (h : uvarintFrom i x b = some (n, rest)) : uvarintFrom i x (b ++ t) = some (n, rest ++ t) := by
  induction b generalizing i x with
  | nil => simp [uvarintFrom] at h
  | cons c tail ih =>
    rw [List.cons_append]
    unfold uvarintFrom at h ⊢
    split_ifs at h ⊢
    · obtain ⟨rfl, rfl⟩ := Prod.mk.inj (Option.some.inj h)
      rfl
    · exact ih _ _ h

/-- A varint ends with itself, whatever follows. -/
theorem uvarint_append (h : uvarint b = some (n, rest)) (t : Bytes) :
    uvarint (b ++ t) = some (n, rest ++ t) :=
  uvarintFrom_append b 0 0 n rest t h

def putBlob (b : Bytes) : Bytes := putUvarint b.length ++ b

def blob (b : Bytes) : Option (Bytes × Bytes) :=
  match uvarint b with
  | none => none
  | some (n, rest) => if rest.length < n then none else some (rest.take n, rest.drop n)

@[simp]
theorem putBlob_length (b : Bytes) : (putBlob b).length = uvarintSize b.length + b.length := by
  simp [putBlob]

theorem blob_putBlob (b rest : Bytes) (hb : b.length < 2 ^ 64) :
    blob (putBlob b ++ rest) = some (b, rest) := by
  have hread : uvarint (putBlob b ++ rest) = some (b.length, b ++ rest) := by
    rw [putBlob, List.append_assoc, uvarint_putUvarint _ _ hb]
  simp [blob, hread]

theorem blob_length_lt (h : blob b = some (item, rest)) : item.length < 2 ^ 64 := by
  unfold blob at h
  rcases hread : uvarint b with _ | ⟨n, tail⟩
  · simp [hread] at h
  · simp only [hread] at h
    split_ifs at h
    simp only [Option.some.injEq, Prod.mk.injEq] at h
    obtain ⟨rfl, -⟩ := h
    have := uvarint_lt hread
    simp only [List.length_take]
    omega

theorem blob_append (h : blob b = some (item, rest)) (t : Bytes) :
    blob (b ++ t) = some (item, rest ++ t) := by
  unfold blob at h
  rcases hread : uvarint b with _ | ⟨n, tail⟩
  · simp [hread] at h
  · simp only [hread] at h
    split_ifs at h with hshort
    obtain ⟨rfl, rfl⟩ := Prod.mk.inj (Option.some.inj h)
    have hle : n ≤ tail.length := by omega
    have hlong : ¬ (tail ++ t).length < n := by
      rw [List.length_append]
      omega
    simp only [blob, uvarint_append hread, hlong, if_false, List.take_append_of_le_length hle,
      List.drop_append_of_le_length hle]

def readAll {α : Type*} (read : Bytes → Option (α × Bytes)) : ℕ → Bytes → Option (List α)
  | _, [] => some []
  | 0, _ :: _ => none
  | fuel + 1, c :: b =>
    match read (c :: b) with
    | none => none
    | some (a, rest) => (readAll read fuel rest).map (a :: ·)

section ReadAll

variable {α : Type*} {read : Bytes → Option (α × Bytes)} {write : α → Bytes}

/-- Records written one after another read back in order. -/
theorem readAll_flatMap (xs : List α) (fuel : ℕ)
    (hread : ∀ x ∈ xs, ∀ rest, read (write x ++ rest) = some (x, rest))
    (hne : ∀ x ∈ xs, write x ≠ []) (hfuel : (xs.flatMap write).length ≤ fuel) :
    readAll read fuel (xs.flatMap write) = some xs := by
  induction xs generalizing fuel with
  | nil => cases fuel <;> rfl
  | cons x xs ih =>
    obtain ⟨c, tail, hx⟩ := List.exists_cons_of_ne_nil (hne x (by simp))
    have hlen : (write x).length + (xs.flatMap write).length ≤ fuel := by
      simpa using hfuel
    cases fuel with
    | zero => simp [hx] at hlen
    | succ fuel =>
      have hcons : (x :: xs).flatMap write = c :: (tail ++ xs.flatMap write) := by
        simp [hx]
      have hstep := hread x (by simp) (xs.flatMap write)
      rw [hx, List.cons_append] at hstep
      have htail := ih fuel (fun y hy => hread y (by simp [hy])) (fun y hy => hne y (by simp [hy]))
        (by
          rw [hx, List.length_cons] at hlen
          omega)
      simp only [hcons, readAll, hstep, htail, Option.map_some]

/-- Every record of a successful read was returned by the record reader. -/
theorem readAll_forall {P : α → Prop} (hread : ∀ b x rest, read b = some (x, rest) → P x)
    (fuel : ℕ) (b : Bytes) (xs : List α) (h : readAll read fuel b = some xs) : ∀ x ∈ xs, P x := by
  induction fuel generalizing b xs with
  | zero => cases b <;> simp_all [readAll]
  | succ fuel ih =>
    cases b with
    | nil => simp_all [readAll]
    | cons c b =>
      unfold readAll at h
      rcases hstep : read (c :: b) with _ | ⟨a, rest⟩
      · simp [hstep] at h
      · simp only [hstep] at h
        obtain ⟨ys, hys, rfl⟩ := Option.map_eq_some_iff.mp h
        intro x hx
        rcases List.mem_cons.mp hx with rfl | hx
        · exact hread _ _ _ hstep
        · exact ih rest ys hys x hx

end ReadAll

end Supercache.Wire
