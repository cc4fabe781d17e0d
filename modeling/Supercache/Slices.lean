import Supercache.Wire

/-!
Programs over slices of bytes in which every access is checked. A cut outside the slice leaves a
program without an outcome, and so does a loop that has not ended within its bound. The rules
below show which outcome a program has, up to the text of an error.
-/
namespace Supercache.Slices

open Wire

abbrev Checked (α : Type) : Type := ExceptT String Option α

variable {α β σ : Type}

def crash : Checked α := ExceptT.mk none

def index (b : Bytes) (i : ℕ) : Checked UInt8 :=
  match b[i]? with
  | none => crash
  | some x => pure x

def cut (b : Bytes) (lo hi : ℕ) : Checked Bytes :=
  if lo ≤ hi ∧ hi ≤ b.length then pure ((b.take hi).drop lo) else crash

def initial (b : Bytes) (n : ℕ) : Checked Bytes := cut b 0 n

def tail (b : Bytes) (n : ℕ) : Checked Bytes := cut b n b.length

def orThrow (e : String) : Option α → Checked α
  | none => throw e
  | some a => pure a

/-- The program ends, with the value if there is one and else with some error. -/
def Ends (p : Checked α) (o : Option α) : Prop := ∃ r, p.run = some r ∧ r.toOption = o

section Rules

variable {p : Checked α} {f : α → Checked β} {o : Option α} {g : α → Option β}

theorem ends_pure (a : α) : Ends (pure a : Checked α) (some a) := ⟨.ok a, rfl, rfl⟩

theorem ends_throw (e : String) : Ends (throw e : Checked α) none := ⟨.error e, rfl, rfl⟩

theorem ends_orThrow (e : String) (o : Option α) : Ends (orThrow e o) o := by
  cases o with
  | none => exact ends_throw e
  | some a => exact ends_pure a

variable {b : Bytes} {a : α} {n : ℕ}

theorem ends_some_iff : Ends p (some a) ↔ p.run = some (.ok a) := by
  constructor
  · rintro ⟨r, hrun, hr⟩
    cases r with
    | error e => cases hr
    | ok a' =>
      obtain rfl := Option.some.inj hr
      exact hrun
  · intro hrun
    exact ⟨.ok a, hrun, rfl⟩

theorem Ends.isSome (hp : Ends p o) : p.run.isSome = true := by
  obtain ⟨r, hrun, -⟩ := hp
  rw [hrun]
  rfl

theorem Ends.eq_some (hp : Ends p o) (hrun : p.run = some (.ok a)) : o = some a := by
  obtain ⟨r, hrun', hr⟩ := hp
  obtain rfl : .ok a = r := Option.some.inj (hrun.symm.trans hrun')
  exact hr.symm

theorem Ends.bind (hp : Ends p o) (hf : ∀ a, o = some a → Ends (f a) (g a)) :
    Ends (p >>= f) (o.bind g) := by
  obtain ⟨r, hrun, hr⟩ := hp
  have hbind : (p >>= f).run = p.run >>= ExceptT.bindCont f := rfl
  cases r with
  | error e =>
    obtain rfl : none = o := hr
    exact ⟨.error e, by rw [hbind, hrun]; rfl, rfl⟩
  | ok a =>
    obtain rfl : some a = o := hr
    obtain ⟨r, hrun', hr'⟩ := hf a rfl
    exact ⟨r, by rw [hbind, hrun]; exact hrun', hr'⟩

/-- A test that ends the program with an error. -/
theorem ends_ite {c : Prop} [Decidable c] {e : String} {q : Checked α} (hq : ¬ c → Ends q o) :
    Ends (if c then throw e else q) (if c then none else o) := by
  by_cases hc : c
  · rw [if_pos hc, if_pos hc]
    exact ends_throw e
  · rw [if_neg hc, if_neg hc]
    exact hq hc

/-- Where the first program ends with a value, the second one takes over. -/
theorem Ends.then {o : Option β} (hp : Ends p (some a)) (hf : Ends (f a) o) : Ends (p >>= f) o :=
  hp.bind (g := fun _ => o) fun _ ha => Option.some.inj ha ▸ hf

theorem ends_index {i : ℕ} {x : UInt8} (h : b[i]? = some x) : Ends (index b i) (some x) := by
  rw [index, h]
  exact ends_pure x

theorem ends_cut {lo hi : ℕ} (hlo : lo ≤ hi) (hhi : hi ≤ b.length) :
    Ends (cut b lo hi) (some ((b.take hi).drop lo)) := by
  rw [cut, if_pos ⟨hlo, hhi⟩]
  exact ends_pure _

theorem ends_initial (h : n ≤ b.length) : Ends (initial b n) (some (b.take n)) :=
  ends_cut (Nat.zero_le n) h

theorem ends_tail (h : n ≤ b.length) : Ends (tail b n) (some (b.drop n)) := by
  have hcut := ends_cut h (Nat.le_refl b.length)
  rwa [List.take_length] at hcut

end Rules

section Varint

def binaryUvarintFrom (i x : ℕ) : Bytes → ℕ × ℤ
  | [] => (0, 0)
  | b :: rest =>
    if i = 10 then (0, -(i + 1))
    else if b.toNat < 0x80 then
      if i = 9 ∧ 1 < b.toNat then (0, -(i + 1)) else (x + b.toNat * 2 ^ (7 * i), i + 1)
    else binaryUvarintFrom (i + 1) (x + (b.toNat - 128) * 2 ^ (7 * i)) rest

def binaryUvarint (b : Bytes) : ℕ × ℤ := binaryUvarintFrom 0 0 b

/-- The slice reader of varints is the list reader. -/
theorem binaryUvarintFrom_spec (b : Bytes) (i x : ℕ) :
    (uvarintFrom i x b = none ∧ (binaryUvarintFrom i x b).2 ≤ 0) ∨
      ∃ n w, 0 < w ∧ w ≤ b.length ∧ uvarintFrom i x b = some (n, b.drop w) ∧
        binaryUvarintFrom i x b = (n, (i : ℤ) + w) := by
  induction b generalizing i x with
  | nil => exact .inl ⟨rfl, Int.le_refl 0⟩
  | cons c rest ih =>
    unfold uvarintFrom binaryUvarintFrom
    by_cases hten : i = 10
    · rw [if_pos hten, if_pos hten]
      exact .inl ⟨rfl, by dsimp only; omega⟩
    · rw [if_neg hten, if_neg hten]
      by_cases hsmall : c.toNat < 0x80
      · rw [if_pos hsmall, if_pos hsmall]
        by_cases hlast : i = 9 ∧ 1 < c.toNat
        · rw [if_pos hlast, if_pos hlast]
          exact .inl ⟨rfl, by dsimp only; omega⟩
        · rw [if_neg hlast, if_neg hlast]
          exact .inr ⟨_, 1, Nat.one_pos, by simp, rfl, rfl⟩
      · rw [if_neg hsmall, if_neg hsmall]
        rcases ih (i + 1) (x + (c.toNat - 128) * 2 ^ (7 * i)) with h | ⟨n, w, hpos, hle, hread, hw⟩
        · exact .inl h
        · refine .inr ⟨n, w + 1, by omega, by simpa using hle, hread, ?_⟩
          rw [hw]
          push_cast
          rw [Int.add_assoc, Int.add_comm 1]

theorem binaryUvarint_spec (b : Bytes) : (uvarint b = none ∧ (binaryUvarint b).2 ≤ 0) ∨
      ∃ n w, 0 < w ∧ w ≤ b.length ∧ uvarint b = some (n, b.drop w) ∧
        binaryUvarint b = (n, (w : ℤ)) := by
  rcases binaryUvarintFrom_spec b 0 0 with h | ⟨n, w, hpos, hle, hread, hw⟩
  · exact .inl h
  · exact .inr ⟨n, w, hpos, hle, hread, by rw [binaryUvarint, hw, Int.natCast_zero, Int.zero_add]⟩

variable {b rest : Bytes}

theorem uvarint_length_lt {n : ℕ} (h : uvarint b = some (n, rest)) : rest.length < b.length := by
  rcases binaryUvarint_spec b with ⟨hnone, -⟩ | ⟨n', w, hpos, hle, hread, -⟩
  · rw [hnone] at h
    cases h
  · rw [hread] at h
    obtain ⟨-, rfl⟩ := Prod.mk.inj (Option.some.inj h)
    rw [List.length_drop]
    omega

theorem blob_length_rest_lt {item : Bytes} (h : blob b = some (item, rest)) :
    rest.length < b.length := by
  unfold blob at h
  rcases hread : uvarint b with _ | ⟨n, tail⟩
  · simp only [hread] at h
    cases h
  · simp only [hread] at h
    have hlt := uvarint_length_lt hread
    split at h
    · cases h
    · obtain ⟨-, rfl⟩ := Prod.mk.inj (Option.some.inj h)
      rw [List.length_drop]
      omega

def readUvarint (bad : String) (b : Bytes) : Checked (ℕ × Bytes) :=
  if (binaryUvarint b).2 ≤ 0 then throw bad
  else do
    let rest ← tail b (binaryUvarint b).2.toNat
    pure ((binaryUvarint b).1, rest)

theorem ends_readUvarint (bad : String) (b : Bytes) : Ends (readUvarint bad b) (uvarint b) := by
  unfold readUvarint
  rcases binaryUvarint_spec b with ⟨hnone, hw⟩ | ⟨n, w, hpos, hle, hread, hw⟩
  · rw [if_pos hw, hnone]
    exact ends_throw bad
  · rw [hw, if_neg (by dsimp only; omega), hread]
    exact (ends_tail hle).then (ends_pure _)

def readItem (bad truncated : String) (b : Bytes) : Checked (Bytes × Bytes) := do
  let (n, b) ← readUvarint bad b
  if b.length < n then throw truncated
  else do
    let item ← initial b n
    let rest ← tail b n
    pure (item, rest)

theorem blob_eq (b : Bytes) : blob b = (uvarint b).bind fun p =>
    if p.2.length < p.1 then none else some (p.2.take p.1, p.2.drop p.1) := by
  unfold blob
  cases uvarint b <;> rfl

theorem ends_readItem (bad truncated : String) (b : Bytes) :
    Ends (readItem bad truncated b) (blob b) := by
  rw [blob_eq]
  refine (ends_readUvarint bad b).bind ?_
  rintro ⟨n, rest⟩ -
  by_cases hshort : rest.length < n
  · dsimp only
    rw [if_pos hshort, if_pos hshort]
    exact ends_throw truncated
  · dsimp only
    rw [if_neg hshort, if_neg hshort]
    have hle : n ≤ rest.length := by omega
    exact (ends_initial hle).then ((ends_tail hle).then (ends_pure _))

end Varint

section Loop

def consumeAll (body : σ → Bytes → Checked (σ × Bytes)) : ℕ → σ → Bytes → Checked σ
  | _, s, [] => pure s
  | 0, _, _ :: _ => crash
  | bound + 1, s, c :: b => do
    let (s, rest) ← body s (c :: b)
    consumeAll body bound s rest

structure Collects (body : σ → Bytes → Checked (σ × Bytes)) (read : Bytes → Option (α × Bytes))
    (add : σ → α → Option σ) : Prop where
  ends : ∀ s b, b ≠ [] →
    Ends (body s b) ((read b).bind fun p => (add s p.1).map fun s => (s, p.2))
  shrinks : ∀ b a rest, read b = some (a, rest) → rest.length < b.length

/-- The loop ends within as many rounds as there are bytes, with the records collected. -/
theorem Collects.ends_consumeAll {body : σ → Bytes → Checked (σ × Bytes)}
    {read : Bytes → Option (α × Bytes)} {add : σ → α → Option σ} (h : Collects body read add)
    (bound : ℕ) (s : σ) (b : Bytes) (hbound : b.length ≤ bound) :
    Ends (consumeAll body bound s b) ((readAll read bound b).bind fun xs => xs.foldlM add s) := by
  induction bound generalizing s b with
  | zero =>
    obtain rfl : b = [] := List.length_eq_zero_iff.mp (by omega)
    exact ends_pure s
  | succ bound ih =>
    cases b with
    | nil => exact ends_pure s
    | cons c b =>
      have hbody := h.ends s (c :: b) (by simp)
      unfold consumeAll readAll
      cases hread : read (c :: b) with
      | none =>
        rw [hread] at hbody
        exact hbody.bind (g := fun _ => none) fun p hp => by cases hp
      | some p =>
        obtain ⟨a, rest⟩ := p
        have hlt := h.shrinks _ _ _ hread
        rw [hread, Option.bind_some] at hbody
        cases hadd : add s a with
        | none =>
          have hnone : ((readAll read bound rest).map (a :: ·)).bind (fun xs => xs.foldlM add s) =
              none := by
            cases readAll read bound rest <;> simp [hadd]
          rw [hadd] at hbody
          rw [hnone]
          exact hbody.bind (g := fun _ => none) fun p hp => by cases hp
        | some s' =>
          have hsome : ((readAll read bound rest).map (a :: ·)).bind (fun xs => xs.foldlM add s) =
              (readAll read bound rest).bind fun xs => xs.foldlM add s' := by
            cases readAll read bound rest <;> simp [hadd]
          rw [hadd] at hbody
          rw [hsome]
          exact hbody.then (ih s' rest (by rw [List.length_cons] at hlt hbound; omega))

end Loop

end Supercache.Slices
