import Supercache.Decimal
import Supercache.JsonGrammar

/-!
The texts of paths. A path is empty or a dollar sign and segments: a dot and an
identifier, a decimal index in brackets, or a string literal in brackets. The
parser accepts exactly these and returns their segments; every path whose indexes
are indexes has a text.
-/
namespace Supercache.JsonX

open Wire JsonText

section Grammar

inductive SegText : Bytes → Seg → Prop
  | ident (c : UInt8) (cs : Bytes) (hc : isIdentStart c = true)
      (hcs : ∀ x ∈ cs, isIdentCont x = true) :
      SegText (0x2E :: c :: cs) (.key (asciiText (c :: cs)))
  | index (ds : Bytes) (hds : IsInt ds) (hlt : digitsVal ds < 2 ^ 63) :
    SegText (0x5B :: (ds ++ [0x5D])) (.index (digitsVal ds))
  | literal (body : Bytes) (hbody : StrBody body) :
    SegText (0x5B :: 0x22 :: (body ++ [0x22, 0x5D])) (.key (literalText body))

inductive SegsText : Bytes → Path → Prop
  | nil : SegsText [] []
  | cons {b rest : Bytes} {s : Seg} {p : Path} (hs : SegText b s) (h : SegsText rest p) :
    SegsText (b ++ rest) (s :: p)

inductive PathText : Bytes → Path → Prop
  | empty : PathText [] []
  | root {b : Bytes} {p : Path} (h : SegsText b p) : PathText (0x24 :: b) p

/-- A segment starts with a dot or a bracket, which no identifier goes on with. -/
theorem SegsText.head {b : Bytes} {p : Path} (h : SegsText b p) :
    ∀ c t, b = c :: t → isIdentCont c = false := by
  cases h with
  | nil => exact nofun
  | cons hs h =>
    intro c t heq
    cases hs with
    | ident =>
      rw [List.cons_append, List.cons.injEq] at heq
      rw [← heq.1]
      decide
    | index =>
      rw [List.cons_append, List.cons.injEq] at heq
      rw [← heq.1]
      decide
    | literal =>
      rw [List.cons_append, List.cons.injEq] at heq
      rw [← heq.1]
      decide

end Grammar

section Parsing

theorem takeWhile_append_stop {f : UInt8 → Bool} {pre : Bytes} (hpre : ∀ x ∈ pre, f x = true)
    (rest : Bytes) (hrest : ∀ c t, rest = c :: t → f c = false) :
    (pre ++ rest).takeWhile f = pre ∧ (pre ++ rest).dropWhile f = rest := by
  rw [List.takeWhile_append_of_pos hpre, List.dropWhile_append_of_pos hpre]
  cases rest with
  | nil => simp
  | cons c t => simp [hrest c t rfl]

theorem isDigit_iff (c : UInt8) : isDigit c = true ↔ ¬ c.toNat < 0x30 ∧ ¬ 0x39 < c.toNat := by
  have hlo : (0x30 : UInt8).toNat = 0x30 := rfl
  have hhi : (0x39 : UInt8).toNat = 0x39 := rfl
  simp only [isDigit, Bool.and_eq_true, decide_eq_true_eq, UInt8.le_iff_toNat_le, hlo, hhi, not_lt]

/-- A digit other than zero is in the range that the parser of indexes tests. -/
theorem index_range {c : UInt8} (hc : c ≠ 0x30) : ¬ (c < 0x31 ∨ 0x39 < c) ↔ isDigit c = true := by
  have hne : c.toNat ≠ 0x30 := fun heq => hc (UInt8.toNat_inj.mp heq)
  have hlo : (0x31 : UInt8).toNat = 0x31 := rfl
  have hhi : (0x39 : UInt8).toNat = 0x39 := rfl
  rw [isDigit_iff, UInt8.lt_iff_toNat_lt, UInt8.lt_iff_toNat_lt, hlo, hhi]
  omega

theorem parseIndex_append {ds : Bytes} (hds : IsInt ds) (hlt : digitsVal ds < 2 ^ 63)
    (rest : Bytes) : parseIndex (ds ++ 0x5D :: rest) = some (digitsVal ds, 0x5D :: rest) := by
  cases hds with
  | zero => rfl
  | digits c ds hc h =>
    have hrange := (index_range hc).mpr (h.2 c List.mem_cons_self)
    obtain ⟨htake, hdrop⟩ := takeWhile_append_stop h.2 (0x5D :: rest)
      fun c t heq => by rw [← (List.cons.inj heq).1]; decide
    rw [List.cons_append] at htake hdrop
    simp only [List.cons_append, parseIndex, if_neg hc, if_neg hrange, htake, hdrop, if_pos hlt]

/-- What the parser of indexes accepts is a decimal without leading zeros. -/
theorem isInt_of_parseIndex {b rest : Bytes} {n : ℕ} (h : parseIndex b = some (n, rest)) :
    ∃ ds, IsInt ds ∧ n = digitsVal ds ∧ n < 2 ^ 63 ∧ b = ds ++ rest := by
  cases b with
  | nil => simp [parseIndex] at h
  | cons c b =>
    simp only [parseIndex] at h
    by_cases hc : c = 0x30
    · rw [if_pos hc] at h
      simp only [Option.some.injEq, Prod.mk.injEq] at h
      refine ⟨[0x30], .zero, ?_, ?_, ?_⟩
      · rw [← h.1]
        decide
      · rw [← h.1]
        decide
      · rw [hc, h.2]
        rfl
    · rw [if_neg hc] at h
      by_cases hout : c < 0x31 ∨ 0x39 < c
      · simp [hout] at h
      · rw [if_neg hout] at h
        by_cases hlt : digitsVal (List.takeWhile isDigit (c :: b)) < 2 ^ 63
        · rw [if_pos hlt] at h
          simp only [Option.some.injEq, Prod.mk.injEq] at h
          have hdigit : isDigit c = true := (index_range hc).mp hout
          refine ⟨(c :: b).takeWhile isDigit, ?_, h.1.symm, h.1 ▸ hlt, ?_⟩
          · rw [List.takeWhile_cons_of_pos hdigit]
            refine .digits c _ hc ⟨List.cons_ne_nil _ _, ?_⟩
            exact List.forall_mem_cons.mpr ⟨hdigit, fun x hx => List.mem_takeWhile_imp hx⟩
          · rw [← h.2, List.takeWhile_append_dropWhile]
        · rw [if_neg hlt] at h
          simp at h

/-- Every text of segments is parsed to them. -/
theorem SegsText.parses {b : Bytes} {p : Path} (h : SegsText b p) {fuel : ℕ}
    (hfuel : b.length ≤ fuel) : parseSegs fuel b = some p := by
  induction h generalizing fuel with
  | nil => cases fuel <;> rfl
  | @cons b rest s p hs h ih =>
    rw [List.length_append] at hfuel
    cases hs with
    | ident c cs hc hcs =>
      simp only [List.length_cons] at hfuel
      obtain ⟨fuel, rfl⟩ : ∃ f, fuel = f + 1 := ⟨fuel - 1, by omega⟩
      obtain ⟨htake, hdrop⟩ := takeWhile_append_stop hcs rest h.head
      simp only [List.cons_append, parseSegs, if_true, hc, htake, hdrop]
      rw [ih (by omega)]
      rfl
    | index ds hds hlt =>
      rw [List.length_cons] at hfuel
      obtain ⟨fuel, rfl⟩ : ∃ f, fuel = f + 1 := ⟨fuel - 1, by omega⟩
      have hparse := parseIndex_append hds hlt rest
      obtain ⟨c, t, rfl, hc⟩ := hds.head
      have hquote : c ≠ 0x22 := by
        rintro rfl
        revert hc
        decide
      simp only [List.cons_append, List.append_assoc, List.nil_append, parseSegs,
        if_neg (show (0x5B : UInt8) ≠ 0x2E by decide), if_true]
      split
      next heq =>
        simp at heq
      next tail heq =>
        exact absurd (List.cons.inj heq).1 hquote
      · rw [List.cons_append] at hparse
        rw [hparse]
        simp only
        rw [ih (by simp only [List.length_append, List.length_cons] at hfuel; omega)]
        rfl
    | literal body hbody =>
      simp only [List.length_cons, List.length_append] at hfuel
      obtain ⟨fuel, rfl⟩ : ∃ f, fuel = f + 1 := ⟨fuel - 1, by omega⟩
      have hread := readStr_literal hbody ((body ++ 0x22 :: 0x5D :: rest).length + 1)
        (0x5D :: rest) (by rw [List.length_append]; omega)
      simp only [List.cons_append, List.append_assoc, List.nil_append, parseSegs,
        if_neg (show (0x5B : UInt8) ≠ 0x2E by decide), if_true, hread]
      rw [ih (by omega)]
      rfl

/-- What the parser of segments accepts is a text of them. -/
theorem segsText_of_parseSegs {fuel : ℕ} {b : Bytes} {p : Path} (h : parseSegs fuel b = some p) :
    SegsText b p := by
  induction fuel generalizing b p with
  | zero =>
    cases b with
    | nil =>
      rw [parseSegs, Option.some.injEq] at h
      rw [← h]
      exact .nil
    | cons c rest => simp [parseSegs] at h
  | succ fuel ih =>
    cases b with
    | nil =>
      rw [parseSegs, Option.some.injEq] at h
      rw [← h]
      exact .nil
    | cons c rest =>
      simp only [parseSegs] at h
      by_cases hdot : c = 0x2E
      · rw [if_pos hdot] at h
        subst hdot
        split at h
        · simp at h
        next c tail =>
          by_cases hc : isIdentStart c
          · rw [if_pos hc] at h
            obtain ⟨p', hp', rfl⟩ := Option.map_eq_some_iff.mp h
            have hseg := SegText.ident c (tail.takeWhile isIdentCont) hc fun x hx =>
              List.mem_takeWhile_imp hx
            have htext := SegsText.cons hseg (ih hp')
            simp only [List.cons_append, List.takeWhile_append_dropWhile] at htext
            exact htext
          · simp [hc] at h
      · rw [if_neg hdot] at h
        by_cases hopen : c = 0x5B
        · rw [if_pos hopen] at h
          subst hopen
          split at h
          · simp at h
          next tail =>
            split at h
            next k tail' hread =>
              obtain ⟨p', hp', rfl⟩ := Option.map_eq_some_iff.mp h
              obtain ⟨body, hbody, rfl, rfl⟩ := literal_of_readStr hread
              have htext := SegsText.cons (SegText.literal body hbody) (ih hp')
              simpa only [List.cons_append, List.append_assoc, List.nil_append] using htext
            · simp at h
          · split at h
            next n tail' hindex =>
              obtain ⟨p', hp', rfl⟩ := Option.map_eq_some_iff.mp h
              obtain ⟨ds, hds, rfl, hlt, rfl⟩ := isInt_of_parseIndex hindex
              have htext := SegsText.cons (SegText.index ds hds hlt) (ih hp')
              simp only [List.cons_append, List.append_assoc, List.nil_append] at htext
              exact htext
            · simp at h
        · simp [hopen] at h

theorem parsePath_iff (b : Bytes) (p : Path) : parsePath b = some p ↔ PathText b p := by
  constructor
  · intro h
    cases b with
    | nil =>
      rw [parsePath, Option.some.injEq] at h
      rw [← h]
      exact .empty
    | cons c rest =>
      simp only [parsePath] at h
      by_cases hc : c = 0x24
      · rw [if_pos hc] at h
        rw [hc]
        exact .root (segsText_of_parseSegs h)
      · simp [hc] at h
  · intro h
    cases h with
    | empty => rfl
    | root h =>
      rw [parsePath, if_pos rfl]
      exact h.parses le_rfl

end Parsing

section Rendering

def renderSeg : Seg → Bytes
  | .key k => 0x5B :: (encodeStr k ++ [0x5D])
  | .index n => 0x5B :: (Decimal.numeral n.toNat ++ [0x5D])

def render (p : Path) : Bytes := 0x24 :: p.flatMap renderSeg

def Seg.Named : Seg → Prop
  | .key _ => True
  | .index n => 0 ≤ n ∧ n < 2 ^ 63

theorem isInt_numeral (n : ℕ) : IsInt (Decimal.numeral n) := by
  by_cases hn : n = 0
  · subst hn
    exact .zero
  · obtain ⟨c, t, heq, hc⟩ := Decimal.head_numeral hn
    have hdigits : ∀ x ∈ Decimal.numeral n, isDigit x = true := by
      intro x hx
      obtain ⟨hlo, hhi⟩ := Decimal.mem_numeral hx
      simp [isDigit, hlo, hhi]
    rw [heq] at hdigits ⊢
    exact .digits c t hc ⟨List.cons_ne_nil c t, hdigits⟩

theorem segText_render {s : Seg} (hs : s.Named) : SegText (renderSeg s) s := by
  cases s with
  | key k =>
    obtain ⟨hbody, htext⟩ := strBody_escaped k
    have hseg := SegText.literal (k.flatMap escChar) hbody
    rw [htext] at hseg
    simpa [renderSeg, encodeStr] using hseg
  | index n =>
    have hval : digitsVal (Decimal.numeral n.toNat) = n.toNat := Decimal.value_numeral n.toNat
    have hn : ((digitsVal (Decimal.numeral n.toNat) : ℕ) : ℤ) = n := by
      rw [hval]
      exact Int.toNat_of_nonneg hs.1
    have hlt : digitsVal (Decimal.numeral n.toNat) < 2 ^ 63 := by
      have := hs.2
      omega
    have hseg := SegText.index (Decimal.numeral n.toNat) (isInt_numeral n.toNat) hlt
    rw [hn] at hseg
    exact hseg

theorem segsText_render {p : Path} (hp : ∀ s ∈ p, s.Named) : SegsText (p.flatMap renderSeg) p := by
  induction p with
  | nil => exact .nil
  | cons s p ih =>
    obtain ⟨hs, hp⟩ := List.forall_mem_cons.mp hp
    rw [List.flatMap_cons]
    exact .cons (segText_render hs) (ih hp)

theorem SegsText.named {b : Bytes} {p : Path} (h : SegsText b p) : ∀ s ∈ p, s.Named := by
  induction h with
  | nil => exact nofun
  | cons hs _ ih =>
    refine List.forall_mem_cons.mpr ⟨?_, ih⟩
    cases hs with
    | ident => trivial
    | index ds _ hlt => exact ⟨Int.natCast_nonneg _, by exact_mod_cast hlt⟩
    | literal => trivial

/-- The parser accepts exactly the texts of paths and returns their segments. A path
has a text when its indexes are those of the language, whatever its keys. -/
theorem parsePath_exact (b : Bytes) (p : Path) :
    (parsePath b = some p ↔ PathText b p) ∧
      ((∀ s ∈ p, s.Named) → parsePath (render p) = some p) ∧
      ((∃ b', parsePath b' = some p) ↔ ∀ s ∈ p, s.Named) := by
  have hrender : (∀ s ∈ p, s.Named) → parsePath (render p) = some p := fun hp =>
    (parsePath_iff _ p).mpr (.root (segsText_render hp))
  refine ⟨parsePath_iff b p, hrender, fun ⟨b', hb'⟩ => ?_, fun hp => ⟨render p, hrender hp⟩⟩
  cases (parsePath_iff b' p).mp hb' with
  | empty => exact nofun
  | root h => exact h.named

example : parsePath (ascii "$.a[\"b\"][10]") =
    some [.key ['a'], .key ['b'], .index 10] := by decide +kernel

end Rendering

end Supercache.JsonX
