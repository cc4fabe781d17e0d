import Supercache.JsonX

/-!
The reader of JSON texts, and which value each text spells. What is not UTF-8 inside a string
literal is no error. A text that spells a value is read whole to that value, whatever follows; and
whatever the reader returns is spelt by the text it took, nested no deeper than the reader's
bound.
-/
namespace Supercache.JsonX

open Wire JsonText

def literalText (body : Bytes) : Text :=
  ((readStr (body.length + 1) (body ++ [0x22])).map Prod.fst).getD []

end Supercache.JsonX

namespace Supercache.JsonText

open Wire JsonX

/-- A reader whose value is mapped passes on the same rest. -/
theorem read_of_map {α β : Type} {o : Option (α × Bytes)} {g : α × Bytes → β × Bytes} {f : α → β}
    {y : β} {rest : Bytes} (h : o.map g = some (y, rest)) (hg : ∀ x r, g (x, r) = (f x, r)) :
    ∃ x, o = some (x, rest) ∧ f x = y := by
  obtain ⟨⟨x, r⟩, ho, hpe⟩ := Option.map_eq_some_iff.mp h
  obtain ⟨hy, rfl⟩ := Prod.mk.inj ((hg x r).symm.trans hpe)
  exact ⟨x, ho, hy⟩

section Strings

def Plain (c : UInt8) : Prop := 0x20 ≤ c ∧ c ≠ 0x22 ∧ c ≠ 0x5C

def IsEscape (e : UInt8) : Prop :=
  e = 0x22 ∨ e = 0x5C ∨ e = 0x2F ∨ e = 0x62 ∨ e = 0x66 ∨ e = 0x6E ∨ e = 0x72 ∨ e = 0x74

def IsHex (c : UInt8) : Prop := hexVal c ≠ none

inductive StrBody : Bytes → Prop
  | nil : StrBody []
  | plain (c : UInt8) (b : Bytes) (hc : Plain c) (h : StrBody b) : StrBody (c :: b)
  | escape (e : UInt8) (b : Bytes) (he : IsEscape e) (h : StrBody b) : StrBody (0x5C :: e :: b)
  | unicode (d₁ d₂ d₃ d₄ : UInt8) (b : Bytes) (h₁ : IsHex d₁) (h₂ : IsHex d₂) (h₃ : IsHex d₃)
      (h₄ : IsHex d₄) (h : StrBody b) : StrBody (0x5C :: 0x75 :: d₁ :: d₂ :: d₃ :: d₄ :: b)

variable {b rest pre : Bytes} {c ch : Char}

theorem StrBody.plain_append (hpre : ∀ c ∈ pre, Plain c) (h : StrBody b) : StrBody (pre ++ b) := by
  induction pre with
  | nil => exact h
  | cons c pre ih =>
    obtain ⟨hc, hpre⟩ := List.forall_mem_cons.mp hpre
    exact .plain c _ hc (ih hpre)

theorem StrBody.of_plain_append (hpre : ∀ c ∈ pre, Plain c) (h : StrBody (pre ++ b)) :
    StrBody b := by
  induction pre with
  | nil => exact h
  | cons c pre ih =>
    obtain ⟨hc, hpre⟩ := List.forall_mem_cons.mp hpre
    rw [List.cons_append] at h
    refine ih hpre ?_
    generalize pre ++ b = rest at h
    cases h with
    | plain _ _ _ h => exact h
    | escape => exact absurd rfl hc.2.2
    | unicode => exact absurd rfl hc.2.2

/-- The bytes of a character after its first are no ASCII. -/
theorem utf8_tail (c : Char) : ∀ b ∈ (String.utf8EncodeChar c).tail, 0x80 ≤ b := by
  have hbyte : ∀ n : ℕ, n < 64 → (0x80 : UInt8) ≤ UInt8.ofNat (n + 128) := by
    intro n hn
    have hval : (UInt8.ofNat (n + 128)).toNat = n + 128 := UInt8.toNat_ofNat_of_lt'
      (show n + 128 < 256 by omega)
    rw [UInt8.le_iff_toNat_le, hval]
    exact Nat.le_add_left 128 n
  have hmod : ∀ n : ℕ, (0x80 : UInt8) ≤ UInt8.ofNat (n % 64 + 128) := fun n =>
    hbyte _ (Nat.mod_lt n (by omega))
  intro b hb
  simp only [String.utf8EncodeChar] at hb
  split at hb
  · simp at hb
  · split at hb
    · simp only [List.tail_cons, List.mem_singleton] at hb
      rw [hb]
      exact hmod _
    · split at hb
      · simp only [List.tail_cons, List.mem_cons, List.not_mem_nil, or_false] at hb
        rcases hb with rfl | rfl <;> exact hmod _
      · simp only [List.tail_cons, List.mem_cons, List.not_mem_nil, or_false] at hb
        rcases hb with rfl | rfl | rfl <;> exact hmod _

theorem plain_of_high {b : UInt8} (h : 0x80 ≤ b) : Plain b := by
  refine ⟨UInt8.le_trans (by decide) h, ?_, ?_⟩ <;> rintro rfl <;> exact absurd h (by decide)

/-- The bytes of a character that starts plainly are plain. -/
theorem plain_of_utf8 {b : UInt8} {t : Bytes} (henc : String.utf8EncodeChar c = b :: t)
    (hb : Plain b) : ∀ x ∈ String.utf8EncodeChar c, Plain x := by
  have htail := utf8_tail c
  rw [henc] at htail ⊢
  exact List.forall_mem_cons.mpr ⟨hb, fun x hx => plain_of_high (htail x hx)⟩

theorem utf8_ne_nil (c : Char) : String.utf8EncodeChar c ≠ [] := by
  intro h
  have hlen := String.length_utf8EncodeChar c
  have hpos := Char.utf8Size_pos c
  rw [h, List.length_nil] at hlen
  omega

/-- What is decoded as a character is its text. -/
theorem utf8_prefix_of_decode (h : b.toByteArray.utf8DecodeChar? 0 = some c) :
    String.utf8EncodeChar c <+: b := by
  obtain ⟨l, hl⟩ := ByteArray.exists_of_utf8DecodeChar?_eq_some h
  have hlist := congrArg (fun a => a.data.toList) hl
  simp only [ByteArray.toList_data_append, List.toList_data_toByteArray] at hlist
  exact ⟨l.data.toList, hlist.symm⟩

theorem decodeRune_utf8 (c : Char) (tail : Bytes) :
    decodeRune (String.utf8EncodeChar c ++ tail) = (c, c.utf8Size) := by
  unfold decodeRune
  rw [List.toByteArray_append, ByteArray.utf8DecodeChar?_utf8EncodeChar_append]

/-- The character at the front of a string literal and the bytes it takes. Neither
depends on what follows the literal. -/
theorem decodeRune_body {c : UInt8} (hc : Plain c) (b : Bytes) :
    ∃ ch pre b', c :: b = pre ++ b' ∧ pre ≠ [] ∧ (∀ x ∈ pre, Plain x) ∧
      ∀ rest, decodeRune (c :: b ++ 0x22 :: rest) = (ch, pre.length) := by
  by_cases hchar : ∃ ch, String.utf8EncodeChar ch <+: c :: b
  · obtain ⟨ch, b', hb'⟩ := hchar
    obtain ⟨x, t, henc⟩ := List.exists_cons_of_ne_nil (utf8_ne_nil ch)
    have hx : x = c := by
      rw [henc, List.cons_append, List.cons.injEq] at hb'
      exact hb'.1
    refine ⟨ch, String.utf8EncodeChar ch, b', hb'.symm, utf8_ne_nil ch,
      plain_of_utf8 henc (hx ▸ hc), fun rest => ?_⟩
    rw [← hb', List.append_assoc, decodeRune_utf8, String.length_utf8EncodeChar]
  · refine ⟨replacementChar, [c], b, rfl, by simp, by simpa using hc, fun rest => ?_⟩
    have hnone : (c :: b ++ 0x22 :: rest).toByteArray.utf8DecodeChar? 0 = none := by
      refine Option.eq_none_iff_forall_ne_some.mpr fun ch hch => hchar ⟨ch, ?_⟩
      obtain ⟨l, hl⟩ := utf8_prefix_of_decode hch
      rcases List.append_eq_append_iff.mp hl with ⟨as, has, -⟩ | ⟨bs, hbs, hrest⟩
      · exact ⟨as, has.symm⟩
      · cases bs with
        | nil => exact ⟨[], by simpa using hbs⟩
        | cons x bs =>
          -- a character that went past the literal would contain the closing quote
          rw [List.cons_append, List.cons.injEq] at hrest
          have hquote : (0x22 : UInt8) ∈ (String.utf8EncodeChar ch).tail := by
            rw [hbs, ← hrest.1, List.cons_append, List.tail_cons]
            simp
          exact absurd (utf8_tail ch _ hquote) (by decide)
    unfold decodeRune
    rw [hnone]
    rfl

/-- The bytes of the character at the front. -/
theorem decodeRune_front {c : UInt8} (hc : Plain c) (b : Bytes) :
    ∃ pre, pre <+: c :: b ∧ (decodeRune (c :: b)).2 = pre.length ∧ ∀ x ∈ pre, Plain x := by
  unfold decodeRune
  split
  next ch hch =>
    obtain ⟨x, t, henc⟩ := List.exists_cons_of_ne_nil (utf8_ne_nil ch)
    have hpre := utf8_prefix_of_decode hch
    have hx : x = c := by
      obtain ⟨l, hl⟩ := hpre
      rw [henc, List.cons_append, List.cons.injEq] at hl
      exact hl.1
    exact ⟨String.utf8EncodeChar ch, hpre, (String.length_utf8EncodeChar ch).symm,
      plain_of_utf8 henc (hx ▸ hc)⟩
  · exact ⟨[c], ⟨b, rfl⟩, rfl, by simpa using hc⟩

theorem readU4_some {n : ℕ} (h : readU4 b = some (n, rest)) :
    ∃ d₁ d₂ d₃ d₄, b = d₁ :: d₂ :: d₃ :: d₄ :: rest ∧ IsHex d₁ ∧ IsHex d₂ ∧ IsHex d₃ ∧
    IsHex d₄ := by
  unfold readU4 at h
  split at h
  next d₁ d₂ d₃ d₄ rest' =>
    split at h
    next h₁ h₂ h₃ h₄ =>
      rw [Option.some.injEq, Prod.mk.injEq] at h
      rw [← h.2]
      exact ⟨d₁, d₂, d₃, d₄, rfl, by simp [IsHex, h₁], by simp [IsHex, h₂], by simp [IsHex, h₃],
        by simp [IsHex, h₄]⟩
    · simp at h
  · simp at h

theorem readU4_of_hex {d₁ d₂ d₃ d₄ : UInt8} (h₁ : IsHex d₁) (h₂ : IsHex d₂) (h₃ : IsHex d₃)
    (h₄ : IsHex d₄) : ∃ n, ∀ rest, readU4 (d₁ :: d₂ :: d₃ :: d₄ :: rest) = some (n, rest) := by
  obtain ⟨n₁, h₁⟩ := Option.ne_none_iff_exists'.mp h₁
  obtain ⟨n₂, h₂⟩ := Option.ne_none_iff_exists'.mp h₂
  obtain ⟨n₃, h₃⟩ := Option.ne_none_iff_exists'.mp h₃
  obtain ⟨n₄, h₄⟩ := Option.ne_none_iff_exists'.mp h₄
  exact ⟨((n₁ * 16 + n₂) * 16 + n₃) * 16 + n₄, fun rest => by simp only [readU4, h₁, h₂, h₃, h₄]⟩

/-- What is read is an escape of the grammar. -/
theorem readUnicode_some (h : readUnicode b = some (ch, rest)) :
    ∃ pre, b = pre ++ rest ∧ ∀ body, StrBody body → StrBody (0x5C :: 0x75 :: (pre ++ body)) := by
  unfold readUnicode at h
  rcases hhi : readU4 b with _ | ⟨hi, rest₁⟩
  · simp [hhi] at h
  · simp only [hhi] at h
    obtain ⟨d₁, d₂, d₃, d₄, rfl, h₁, h₂, h₃, h₄⟩ := readU4_some hhi
    have hone : ∃ pre, d₁ :: d₂ :: d₃ :: d₄ :: rest₁ = pre ++ rest₁ ∧
        ∀ body, StrBody body → StrBody (0x5C :: 0x75 :: (pre ++ body)) :=
      ⟨[d₁, d₂, d₃, d₄], rfl, fun body hbody => .unicode d₁ d₂ d₃ d₄ body h₁ h₂ h₃ h₄ hbody⟩
    split at h
    · rw [Option.some.injEq, Prod.mk.injEq] at h
      rw [← h.2]
      exact hone
    · split at h
      · split at h
        next lo rest₂ hlo =>
          split at h
          · -- both halves of a surrogate pair
            obtain ⟨e₁, e₂, e₃, e₄, rfl, h₁', h₂', h₃', h₄'⟩ := readU4_some hlo
            rw [Option.some.injEq, Prod.mk.injEq] at h
            rw [← h.2]
            refine ⟨[d₁, d₂, d₃, d₄, 0x5C, 0x75, e₁, e₂, e₃, e₄], rfl, fun body hbody => ?_⟩
            exact .unicode d₁ d₂ d₃ d₄ _ h₁ h₂ h₃ h₄
              (.unicode e₁ e₂ e₃ e₄ body h₁' h₂' h₃' h₄' hbody)
          · rw [Option.some.injEq, Prod.mk.injEq] at h
            rw [← h.2]
            exact hone
        · rw [Option.some.injEq, Prod.mk.injEq] at h
          rw [← h.2]
          exact hone
      · rw [Option.some.injEq, Prod.mk.injEq] at h
        rw [← h.2]
        exact hone

theorem readEscape_some (h : readEscape b = some (ch, rest)) :
    ∃ pre, b = pre ++ rest ∧ ∀ body, StrBody body → StrBody (0x5C :: (pre ++ body)) := by
  cases b with
  | nil => simp [readEscape] at h
  | cons e b =>
    by_cases hu : e = 0x75
    · subst hu
      obtain ⟨pre, hpre, hbody⟩ := readUnicode_some (b := b) (by simpa [readEscape] using h)
      exact ⟨0x75 :: pre, by rw [hpre]; rfl, hbody⟩
    · have hescape : IsEscape e ∧ b = rest := by
        unfold IsEscape
        simp only [readEscape, hu, if_false] at h
        split_ifs at h <;> simp_all
      exact ⟨[e], by rw [hescape.2]; rfl, fun body hbody => .escape e body hescape.1 hbody⟩

/-- What the reader of string literals accepts is one, up to its closing quote. -/
theorem strBody_of_readStr {fuel : ℕ} {s : Text} (h : readStr fuel b = some (s, rest)) :
    ∃ body, StrBody body ∧ b = body ++ 0x22 :: rest := by
  induction fuel generalizing b s with
  | zero => simp [readStr] at h
  | succ fuel ih =>
    cases b with
    | nil => simp [readStr] at h
    | cons c b =>
      simp only [readStr] at h
      by_cases hq : c = 0x22
      · rw [if_pos hq] at h
        rw [Option.some.injEq, Prod.mk.injEq] at h
        exact ⟨[], .nil, by rw [hq, h.2]; rfl⟩
      · rw [if_neg hq] at h
        split at h
        next hc =>
          rcases hescape : readEscape b with _ | ⟨ch, rest'⟩
          · simp [hescape] at h
          · simp only [hescape] at h
            obtain ⟨s', hp, -⟩ := read_of_map h fun _ _ => rfl
            obtain ⟨pre, hpre, hbody⟩ := readEscape_some hescape
            obtain ⟨body, hstr, hb⟩ := ih hp
            refine ⟨0x5C :: (pre ++ body), hbody body hstr, ?_⟩
            rw [hc, hpre, hb]
            simp
        next hb =>
          split at h
          · simp at h
          next hlo =>
            obtain ⟨s', hp, -⟩ := read_of_map h fun _ _ => rfl
            obtain ⟨body, hstr, hbody⟩ := ih hp
            have hc : Plain c := ⟨UInt8.not_lt.mp hlo, hq, hb⟩
            obtain ⟨pre, ⟨tail, htail⟩, hlen, hplain⟩ := decodeRune_front hc b
            refine ⟨pre ++ body, hstr.plain_append hplain, ?_⟩
            rw [hlen, ← htail, List.drop_left] at hbody
            rw [← htail, hbody, List.append_assoc]

/-- The escape at the front of a string literal and the bytes it takes. Neither
depends on what follows the literal. -/
theorem readEscape_body (h : StrBody (0x5C :: b)) :
    ∃ ch pre b', b = pre ++ b' ∧ pre ≠ [] ∧ StrBody b' ∧
      ∀ rest, readEscape (b ++ 0x22 :: rest) = some (ch, b' ++ 0x22 :: rest) := by
  cases h with
  | plain _ _ hc => exact absurd rfl hc.2.2
  | escape e b he h =>
    rcases he with rfl | rfl | rfl | rfl | rfl | rfl | rfl | rfl <;>
      exact ⟨_, [_], b, rfl, by simp, h, fun rest => rfl⟩
  | unicode d₁ d₂ d₃ d₄ b h₁ h₂ h₃ h₄ h =>
    obtain ⟨hi, hhi⟩ := readU4_of_hex h₁ h₂ h₃ h₄
    have hescape : ∀ rest, readEscape (0x75 :: d₁ :: d₂ :: d₃ :: d₄ :: b ++ 0x22 :: rest) =
        readUnicode (d₁ :: d₂ :: d₃ :: d₄ :: (b ++ 0x22 :: rest)) := fun rest => rfl
    simp only [hescape]
    -- the escape alone, when no second half of a pair stands after it
    have hone : ∀ ch, (∀ rest, readUnicode (d₁ :: d₂ :: d₃ :: d₄ :: (b ++ 0x22 :: rest)) =
        some (ch, b ++ 0x22 :: rest)) → ∃ ch pre b', 0x75 :: d₁ :: d₂ :: d₃ :: d₄ :: b = pre ++ b' ∧
          pre ≠ [] ∧ StrBody b' ∧
          ∀ rest, readUnicode (d₁ :: d₂ :: d₃ :: d₄ :: (b ++ 0x22 :: rest)) =
            some (ch, b' ++ 0x22 :: rest) :=
      fun ch hch => ⟨ch, [0x75, d₁, d₂, d₃, d₄], b, rfl, by simp, h, hch⟩
    by_cases hlone : hi < 0xD800 ∨ 0xE000 ≤ hi
    · exact hone (Char.ofNat hi) fun rest => by simp only [readUnicode, hhi, if_pos hlone]
    · cases h with
      | nil =>
        refine hone replacementChar fun rest => ?_
        simp [readUnicode, hhi, hlone]
      | plain c b hc h =>
        refine hone replacementChar fun rest => ?_
        simp [readUnicode, hhi, hlone, hc.2.2]
      | escape e b he h =>
        have hu : e ≠ 0x75 := by
          rintro rfl
          unfold IsEscape at he
          revert he
          decide
        refine hone replacementChar fun rest => ?_
        simp [readUnicode, hhi, hlone, hu]
      | unicode e₁ e₂ e₃ e₄ b h₁' h₂' h₃' h₄' h' =>
        obtain ⟨lo, hlo⟩ := readU4_of_hex h₁' h₂' h₃' h₄'
        by_cases hpair : hi < 0xDC00 ∧ 0xDC00 ≤ lo ∧ lo < 0xE000
        · refine ⟨Char.ofNat (0x10000 + (hi - 0xD800) * 0x400 + (lo - 0xDC00)),
            [0x75, d₁, d₂, d₃, d₄, 0x5C, 0x75, e₁, e₂, e₃, e₄], b, rfl, by simp, h', fun rest => ?_⟩
          simp only [readUnicode, List.cons_append, hhi, if_neg hlone, hlo, if_pos hpair]
        · refine hone replacementChar fun rest => ?_
          simp only [readUnicode, List.cons_append, hhi, if_neg hlone, hlo, if_neg hpair]

/-- A string literal is read whole, to the same text whatever follows it. -/
theorem readStr_of_strBody {body : Bytes} (h : StrBody body) :
    ∃ s, ∀ fuel rest, body.length < fuel →
      readStr fuel (body ++ 0x22 :: rest) = some (s, rest) := by
  induction hn : body.length using Nat.strong_induction_on generalizing body with
  | _ n ih =>
    cases body with
    | nil =>
      refine ⟨[], fun fuel rest hfuel => ?_⟩
      obtain ⟨fuel, rfl⟩ := Nat.exists_eq_succ_of_ne_zero (Nat.ne_zero_of_lt hfuel)
      rfl
    | cons c b =>
      rw [List.length_cons] at hn
      by_cases hc : c = 0x5C
      · subst hc
        obtain ⟨ch, pre, b', hb, hne, hstr, hread⟩ := readEscape_body h
        have hlen : b.length = pre.length + b'.length := by rw [hb, List.length_append]
        have hpos : 0 < pre.length := List.length_pos_iff.mpr hne
        obtain ⟨s, hs⟩ := ih b'.length (by omega) hstr rfl
        refine ⟨ch :: s, fun fuel rest hfuel => ?_⟩
        obtain ⟨fuel, rfl⟩ := Nat.exists_eq_succ_of_ne_zero (Nat.ne_zero_of_lt hfuel)
        have hrest := hs fuel rest (by omega)
        simp only [List.cons_append, readStr, hread, hrest]
        rfl
      · have hplain : Plain c := by
          cases h with
          | plain _ _ hplain => exact hplain
          | escape => exact absurd rfl hc
          | unicode => exact absurd rfl hc
        obtain ⟨ch, pre, b', hb, hne, hpre, hread⟩ := decodeRune_body hplain b
        have hlen : b.length + 1 = pre.length + b'.length := by
          rw [← List.length_append, ← hb, List.length_cons]
        have hpos : 0 < pre.length := List.length_pos_iff.mpr hne
        have hstr : StrBody b' := StrBody.of_plain_append hpre (hb ▸ h)
        obtain ⟨s, hs⟩ := ih b'.length (by omega) hstr rfl
        refine ⟨ch :: s, fun fuel rest hfuel => ?_⟩
        obtain ⟨fuel, rfl⟩ := Nat.exists_eq_succ_of_ne_zero (Nat.ne_zero_of_lt hfuel)
        have hrest := hs fuel rest (by omega)
        have hdrop : (c :: (b ++ 0x22 :: rest)).drop pre.length = b' ++ 0x22 :: rest := by
          rw [← List.cons_append, hb, List.append_assoc, List.drop_left]
        have hread := hread rest
        rw [List.cons_append] at hread
        simp only [List.cons_append, readStr, if_neg hplain.2.1, if_neg hc,
          if_neg (UInt8.not_lt.mpr hplain.1), hread, hdrop, hrest]
        rfl

theorem readStr_literal {body : Bytes} (hbody : StrBody body) (fuel : ℕ) (rest : Bytes)
    (hfuel : body.length < fuel) :
    readStr fuel (body ++ 0x22 :: rest) = some (literalText body, rest) := by
  obtain ⟨s, hs⟩ := readStr_of_strBody hbody
  have htext : literalText body = s := by
    rw [literalText, hs (body.length + 1) [] (Nat.lt_succ_self _)]
    rfl
  rw [htext]
  exact hs fuel rest hfuel

end Strings

section Numbers

def Digits (ds : Bytes) : Prop := ds ≠ [] ∧ ∀ c ∈ ds, isDigit c = true

inductive IsInt : Bytes → Prop
  | zero : IsInt [0x30]
  | digits (c : UInt8) (ds : Bytes) (hc : c ≠ 0x30) (h : Digits (c :: ds)) : IsInt (c :: ds)

inductive IsFrac : Bytes → Prop
  | none : IsFrac []
  | digits (ds : Bytes) (h : Digits ds) : IsFrac (0x2E :: ds)

inductive IsExp : Bytes → Prop
  | none : IsExp []
  | digits (c : UInt8) (ds : Bytes) (hc : c = 0x65 ∨ c = 0x45) (h : Digits ds) : IsExp (c :: ds)
  | signed (c s : UInt8) (ds : Bytes) (hc : c = 0x65 ∨ c = 0x45) (hs : s = 0x2B ∨ s = 0x2D)
    (h : Digits ds) : IsExp (c :: s :: ds)

def IsNumber (lit : Bytes) : Prop :=
  ∃ sign int frac exp, (sign = [] ∨ sign = [0x2D]) ∧ IsInt int ∧ IsFrac frac ∧ IsExp exp ∧
    lit = sign ++ int ++ frac ++ exp

def NoDigit (rest : Bytes) : Prop := ∀ c t, rest = c :: t → isDigit c = false

variable {rest b exp int frac lit ds : Bytes}

theorem readDigits_append (h : Digits ds) (hrest : NoDigit rest) :
    readDigits (ds ++ rest) = some (ds, rest) := by
  have htake : rest.takeWhile isDigit = [] := by
    cases rest with
    | nil => rfl
    | cons c t => rw [List.takeWhile_cons, hrest c t rfl, if_neg Bool.false_ne_true]
  have hdrop : rest.dropWhile isDigit = rest := by
    cases rest with
    | nil => rfl
    | cons c t => rw [List.dropWhile_cons, hrest c t rfl, if_neg Bool.false_ne_true]
  unfold readDigits
  rw [List.takeWhile_append_of_pos h.2, htake, List.append_nil, List.dropWhile_append_of_pos h.2,
    hdrop]
  split
  · exact absurd rfl h.1
  · rfl

theorem digits_of_readDigits (h : readDigits b = some (ds, rest)) : Digits ds ∧ b = ds ++ rest := by
  unfold readDigits at h
  split at h
  · simp at h
  next hne =>
    simp only [Option.some.injEq, Prod.mk.injEq] at h
    rw [← h.1, ← h.2, List.takeWhile_append_dropWhile]
    exact ⟨⟨hne, fun c hc => List.mem_takeWhile_imp hc⟩, rfl⟩

theorem readInt_append (h : IsInt int) (hrest : NoDigit rest) :
    readInt (int ++ rest) = some (int, rest) := by
  cases h with
  | zero => simp [readInt]
  | digits c ds hc h =>
    simp only [List.cons_append, readInt, if_neg hc]
    exact readDigits_append h hrest

theorem isInt_of_readInt (h : readInt b = some (int, rest)) : IsInt int ∧ b = int ++ rest := by
  cases b with
  | nil => simp [readInt] at h
  | cons c t =>
    simp only [readInt] at h
    by_cases hc : c = 0x30
    · rw [if_pos hc] at h
      simp only [Option.some.injEq, Prod.mk.injEq] at h
      rw [← h.1, ← h.2, hc]
      exact ⟨.zero, rfl⟩
    · rw [if_neg hc] at h
      obtain ⟨hds, heq⟩ := digits_of_readDigits h
      refine ⟨?_, heq⟩
      cases int with
      | nil => exact absurd rfl hds.1
      | cons d ds =>
        rw [List.cons_append, List.cons.injEq] at heq
        rw [heq.1] at hc
        exact .digits d ds hc hds

theorem readFrac_append (h : IsFrac frac) (hrest : NoDigit rest) (hdot : ∀ t, rest ≠ 0x2E :: t) :
    readFrac (frac ++ rest) = some (frac, rest) := by
  cases h with
  | none =>
    cases rest with
    | nil => rfl
    | cons c t =>
      have hc : c ≠ 0x2E := fun hc => hdot t (by rw [hc])
      simp [readFrac, hc]
  | digits ds h => simp [readFrac, readDigits_append h hrest]

theorem isFrac_of_readFrac (h : readFrac b = some (frac, rest)) :
    IsFrac frac ∧ b = frac ++ rest := by
  cases b with
  | nil =>
    simp only [readFrac, Option.some.injEq, Prod.mk.injEq] at h
    rw [← h.1, ← h.2]
    exact ⟨.none, rfl⟩
  | cons c t =>
    simp only [readFrac] at h
    by_cases hc : c = 0x2E
    · rw [if_pos hc] at h
      obtain ⟨ds, hp, rfl⟩ := read_of_map h fun _ _ => rfl
      obtain ⟨hds, heq⟩ := digits_of_readDigits hp
      rw [hc, heq]
      exact ⟨.digits ds hds, rfl⟩
    · rw [if_neg hc] at h
      simp only [Option.some.injEq, Prod.mk.injEq] at h
      rw [← h.1, ← h.2]
      exact ⟨.none, rfl⟩

theorem readExp_append (h : IsExp exp) (hrest : NoDigit rest)
    (hexp : ∀ c t, rest = c :: t → c ≠ 0x65 ∧ c ≠ 0x45) :
    readExp (exp ++ rest) = some (exp, rest) := by
  cases h with
  | none =>
    cases rest with
    | nil => rfl
    | cons c t =>
      obtain ⟨hc, hc'⟩ := hexp c t rfl
      simp [readExp, hc, hc']
  | digits c ds hc h =>
    cases ds with
    | nil => exact absurd rfl h.1
    | cons d ds =>
      have hd : isDigit d = true := h.2 d List.mem_cons_self
      have hsign : ¬ (d = 0x2B ∨ d = 0x2D) := by
        rintro (rfl | rfl) <;> simp [isDigit] at hd
      simp only [List.cons_append, readExp, if_pos hc, if_neg hsign]
      rw [← List.cons_append, readDigits_append h hrest]
      rfl
  | signed c s ds hc hs h =>
    simp only [List.cons_append, readExp, if_pos hc, if_pos hs, readDigits_append h hrest]
    rfl

theorem isExp_of_readExp (h : readExp b = some (exp, rest)) : IsExp exp ∧ b = exp ++ rest := by
  cases b with
  | nil =>
    simp only [readExp, Option.some.injEq, Prod.mk.injEq] at h
    rw [← h.1, ← h.2]
    exact ⟨.none, rfl⟩
  | cons c t =>
    simp only [readExp] at h
    by_cases hc : c = 0x65 ∨ c = 0x45
    · rw [if_pos hc] at h
      split at h
      · simp at h
      · split at h
        next s t' hs =>
          obtain ⟨ds, hp, rfl⟩ := read_of_map (f := (c :: s :: ·)) h fun _ _ => rfl
          obtain ⟨hds, heq⟩ := digits_of_readDigits hp
          rw [heq]
          exact ⟨.signed c s ds hc hs hds, rfl⟩
        · obtain ⟨ds, hp, rfl⟩ := read_of_map h fun _ _ => rfl
          obtain ⟨hds, heq⟩ := digits_of_readDigits hp
          rw [heq]
          exact ⟨.digits c ds hc hds, rfl⟩
    · rw [if_neg hc] at h
      simp only [Option.some.injEq, Prod.mk.injEq] at h
      rw [← h.1, ← h.2]
      exact ⟨.none, rfl⟩

def Stops (rest : Bytes) : Prop :=
  ∀ c t, rest = c :: t → isDigit c = false ∧ c ≠ 0x2E ∧ c ≠ 0x65 ∧ c ≠ 0x45

theorem Stops.noDigit (h : Stops rest) : NoDigit rest :=
  fun c t heq => (h c t heq).1

theorem IsExp.noDigit (h : IsExp exp) (hrest : Stops rest) : NoDigit (exp ++ rest) := by
  have hletter : ∀ {c : UInt8}, c = 0x65 ∨ c = 0x45 → isDigit c = false := by
    rintro c (rfl | rfl) <;> decide
  cases h with
  | none => exact hrest.noDigit
  | digits c ds hc =>
    intro c' t heq
    rw [List.cons_append, List.cons.injEq] at heq
    rw [← heq.1]
    exact hletter hc
  | signed c s ds hc =>
    intro c' t heq
    rw [List.cons_append, List.cons.injEq] at heq
    rw [← heq.1]
    exact hletter hc

theorem IsExp.no_dot (h : IsExp exp) (hrest : Stops rest) (t : Bytes) :
    exp ++ rest ≠ 0x2E :: t := by
  have hletter : ∀ {c : UInt8}, c = 0x65 ∨ c = 0x45 → c ≠ 0x2E := by
    rintro c (rfl | rfl) <;> decide
  cases h with
  | none =>
    intro heq
    exact (hrest _ _ heq).2.1 rfl
  | digits c ds hc =>
    intro heq
    rw [List.cons_append, List.cons.injEq] at heq
    exact hletter hc heq.1
  | signed c s ds hc =>
    intro heq
    rw [List.cons_append, List.cons.injEq] at heq
    exact hletter hc heq.1

theorem IsFrac.noDigit (h : IsFrac frac) (hrest : NoDigit rest) : NoDigit (frac ++ rest) := by
  cases h with
  | none => exact hrest
  | digits ds h =>
    intro c t heq
    rw [List.cons_append, List.cons.injEq] at heq
    rw [← heq.1]
    decide

theorem IsInt.head (h : IsInt int) : ∃ c t, int = c :: t ∧ isDigit c = true := by
  cases h with
  | zero => exact ⟨0x30, [], rfl, by decide⟩
  | digits c ds _ h => exact ⟨c, ds, rfl, h.2 c List.mem_cons_self⟩

theorem IsNumber.head (h : IsNumber lit) : ∃ c t, lit = c :: t ∧ (c = 0x2D ∨ isDigit c = true) := by
  obtain ⟨sign, int, frac, exp, hsign, hint, -, -, rfl⟩ := h
  rcases hsign with rfl | rfl
  · obtain ⟨c, t, rfl, hc⟩ := hint.head
    exact ⟨c, t ++ frac ++ exp, rfl, Or.inr hc⟩
  · exact ⟨0x2D, int ++ frac ++ exp, rfl, Or.inl rfl⟩

/-- A number literal is read back whole. -/
theorem readNumber_append (h : IsNumber lit) (hrest : Stops rest) :
    readNumber (lit ++ rest) = some (lit, rest) := by
  obtain ⟨sign, int, frac, exp, hsign, hint, hfrac, hexp, rfl⟩ := h
  have hexpRest := hexp.noDigit hrest
  have hletters : ∀ c t, rest = c :: t → c ≠ 0x65 ∧ c ≠ 0x45 :=
    fun c t heq => (hrest c t heq).2.2
  have hint' : readInt (int ++ (frac ++ (exp ++ rest))) = some (int, frac ++ (exp ++ rest)) :=
    readInt_append hint (hfrac.noDigit hexpRest)
  have hfrac' : readFrac (frac ++ (exp ++ rest)) = some (frac, exp ++ rest) :=
    readFrac_append hfrac hexpRest (hexp.no_dot hrest)
  have hexp' : readExp (exp ++ rest) = some (exp, rest) :=
    readExp_append hexp hrest.noDigit hletters
  rcases hsign with rfl | rfl
  · obtain ⟨c, t, rfl, hc⟩ := hint.head
    have hminus : c ≠ 0x2D := by
      rintro rfl
      simp [isDigit] at hc
    simp only [List.nil_append, List.append_assoc]
    unfold readNumber
    split
    next heq =>
      split at heq
      next hm =>
        exact absurd (List.cons.inj hm).1 hminus
      · simp only [Prod.mk.injEq] at heq
        rw [← heq.1, ← heq.2]
        simp only [hint', hfrac', hexp', Option.map_some, List.nil_append, List.append_assoc]
  · simp [readNumber, hint', hfrac', hexp']

/-- What is read is a number of the grammar. -/
theorem isNumber_of_readNumber (h : readNumber b = some (lit, rest)) :
    IsNumber lit ∧ b = lit ++ rest := by
  unfold readNumber at h
  split at h
  next sign b' heq =>
    have hsign : (sign = [] ∨ sign = [0x2D]) ∧ b = sign ++ b' := by
      split at heq
      · rw [← (Prod.mk.inj heq).1, ← (Prod.mk.inj heq).2]
        exact ⟨.inr rfl, rfl⟩
      · rw [← (Prod.mk.inj heq).1, ← (Prod.mk.inj heq).2]
        exact ⟨.inl rfl, rfl⟩
    rcases hint : readInt b' with _ | ⟨int, b₁⟩
    · simp [hint] at h
    · simp only [hint] at h
      rcases hfrac : readFrac b₁ with _ | ⟨frac, b₂⟩
      · simp [hfrac] at h
      · simp only [hfrac] at h
        obtain ⟨exp, hp, rfl⟩ := read_of_map h fun _ _ => rfl
        obtain ⟨hint, heq₁⟩ := isInt_of_readInt hint
        obtain ⟨hfrac, heq₂⟩ := isFrac_of_readFrac hfrac
        obtain ⟨hexp, heq₃⟩ := isExp_of_readExp hp
        refine ⟨⟨sign, int, frac, exp, hsign.1, hint, hfrac, hexp, rfl⟩, ?_⟩
        rw [hsign.2, heq₁, heq₂, heq₃]
        simp only [List.append_assoc]

end Numbers

section Spaces

def Ws (w : Bytes) : Prop := ∀ c ∈ w, isSpace c = true

structure Elem where
  before : Bytes
  text : Bytes
  after : Bytes

def Elem.bytes (e : Elem) : Bytes := e.before ++ (e.text ++ e.after)

def Elem.Spaced (e : Elem) : Prop := Ws e.before ∧ Ws e.after

/-- A member of an object: white space, what the quotes of the key enclose, white
space, and after the colon the value. -/
structure Member where
  before : Bytes
  key : Bytes
  after : Bytes
  value : Elem

def Member.bytes (m : Member) : Bytes :=
  m.before ++ 0x22 :: (m.key ++ 0x22 :: (m.after ++ 0x3A :: m.value.bytes))

def Member.Spaced (m : Member) : Prop :=
  Ws m.before ∧ StrBody m.key ∧ Ws m.after ∧ m.value.Spaced

def commas (bs : List Bytes) : Bytes := [0x2C].intercalate bs

theorem commas_singleton (b : Bytes) : commas [b] = b := List.intercalate_singleton

theorem commas_cons_cons (b c : Bytes) (bs : List Bytes) :
    commas (b :: c :: bs) = b ++ 0x2C :: commas (c :: bs) := by
  simp [commas, List.intercalate_cons_cons]

theorem commas_map_cons {α : Type} (f : α → Bytes) (a : α) {as : List α} (has : as ≠ []) :
    commas ((a :: as).map f) = f a ++ 0x2C :: commas (as.map f) := by
  obtain ⟨a', as, rfl⟩ := List.exists_cons_of_ne_nil has
  exact commas_cons_cons (f a) (f a') (as.map f)

/-- Texts with commas start as the first one does. -/
theorem commas_cons (b : Bytes) (bs : List Bytes) : ∃ tail, commas (b :: bs) = b ++ tail := by
  cases bs with
  | nil => exact ⟨[], by rw [commas_singleton, List.append_nil]⟩
  | cons c bs => exact ⟨_, commas_cons_cons b c bs⟩

variable {w b rest : Bytes} {c : UInt8}

theorem skipWs_cons (t : Bytes) (h : isSpace c = false) : skipWs (c :: t) = c :: t := by
  rw [skipWs, List.dropWhile_cons, h, if_neg Bool.false_ne_true]

theorem isSpace_of_number (h : c = 0x2D ∨ isDigit c = true) :
    isSpace c = false ∧ c ≠ 0x5D ∧ c ≠ 0x7B ∧ c ≠ 0x5B ∧ c ≠ 0x22 ∧ c ≠ 0x74 ∧ c ≠ 0x66 ∧
    c ≠ 0x6E := by
  rcases h with rfl | h
  · decide
  · have hrange : 0x30 ≤ c ∧ c ≤ 0x39 := by simpa [isDigit] using h
    refine ⟨?_, ?_, ?_, ?_, ?_, ?_, ?_, ?_⟩
    · simp only [isSpace, Bool.or_eq_false_iff, beq_eq_false_iff_ne]
      refine ⟨⟨⟨?_, ?_⟩, ?_⟩, ?_⟩ <;> · rintro rfl; exact absurd hrange.1 (by decide)
    all_goals
      rintro rfl
      revert hrange
      decide

theorem ws_nil : Ws [] := nofun

theorem skipWs_append (hw : Ws w) (b : Bytes) : skipWs (w ++ b) = skipWs b :=
  List.dropWhile_append_of_pos hw

theorem skipWs_skipWs (b : Bytes) : skipWs (skipWs b) = skipWs b :=
  List.dropWhile_idempotent isSpace b

/-- The white space at the front and the rest. -/
theorem exists_skipWs (b : Bytes) : ∃ w, Ws w ∧ b = w ++ skipWs b :=
  ⟨b.takeWhile isSpace, fun _ hc => List.mem_takeWhile_imp hc,
    (List.takeWhile_append_dropWhile).symm⟩

/-- A byte after white space, where the reader skips to it. -/
theorem exists_ws (h : skipWs b = c :: rest) : ∃ w, Ws w ∧ b = w ++ c :: rest := by
  obtain ⟨w, hw, heq⟩ := exists_skipWs b
  exact ⟨w, hw, h ▸ heq⟩

theorem skipWs_after (hw : Ws w) (hc : isSpace c = false) (rest : Bytes) :
    skipWs (w ++ c :: rest) = c :: rest := by
  rw [skipWs_append hw]
  exact skipWs_cons rest hc

theorem stops_nil : Stops [] := nofun

theorem stops_cons (hc : c = 0x2C ∨ c = 0x5D ∨ c = 0x7D) (t : Bytes) : Stops (c :: t) := by
  intro c' t' heq
  rw [List.cons.injEq] at heq
  rw [← heq.1]
  rcases hc with rfl | rfl | rfl <;> decide

theorem Stops.ws {rest : Bytes} (hw : Ws w) (hrest : Stops rest) : Stops (w ++ rest) := by
  cases w with
  | nil => exact hrest
  | cons c w =>
    intro c' t heq
    rw [List.cons_append, List.cons.injEq] at heq
    have hc := hw c List.mem_cons_self
    rw [← heq.1]
    simp only [isSpace, Bool.or_eq_true, beq_iff_eq] at hc
    rcases hc with ((rfl | rfl) | rfl) | rfl <;> decide

theorem Elem.bytes_append (e : Elem) (rest : Bytes) :
    e.bytes ++ rest = e.before ++ (e.text ++ (e.after ++ rest)) := by
  simp [Elem.bytes]

theorem Member.bytes_append (m : Member) (rest : Bytes) : m.bytes ++ rest =
      m.before ++ 0x22 :: (m.key ++ 0x22 :: (m.after ++ 0x3A :: (m.value.bytes ++ rest))) := by
  simp [Member.bytes]

end Spaces

def words : List (Bytes × Json) :=
  [(ascii "null", .null), (ascii "true", .bool true), (ascii "false", .bool false)]

theorem mem_words {w : Bytes} {v : Json} : (w, v) ∈ words ↔ w = ascii "null" ∧ v = .null ∨
    w = ascii "true" ∧ v = .bool true ∨ w = ascii "false" ∧ v = .bool false := by
  simp only [words, List.mem_cons, Prod.mk.injEq, List.not_mem_nil, or_false]

/-- The text spells the value and nests at most `d` deep. Where an object repeats a
key its last member counts. -/
inductive Spells : ℕ → Bytes → Json → Prop
  | word (d : ℕ) (w : Bytes) (v : Json) (h : (w, v) ∈ words) : Spells d w v
  | num (d : ℕ) (lit : Bytes) (h : IsNumber lit) : Spells d lit (.num lit)
  | str (d : ℕ) (body : Bytes) (h : StrBody body) :
    Spells d (0x22 :: (body ++ [0x22])) (.str (literalText body))
  | emptyArr (d : ℕ) (w : Bytes) (hw : Ws w) : Spells (d + 1) (0x5B :: (w ++ [0x5D])) (.arr [])
  | arr (d : ℕ) (ps : List (Elem × Json)) (hne : ps ≠ []) (hspaced : ∀ p ∈ ps, p.1.Spaced)
      (h : ∀ p ∈ ps, Spells d p.1.text p.2) :
      Spells (d + 1) (0x5B :: (commas (ps.map fun p => p.1.bytes) ++ [0x5D]))
        (.arr (ps.map Prod.snd))
  | emptyObj (d : ℕ) (w : Bytes) (hw : Ws w) : Spells (d + 1) (0x7B :: (w ++ [0x7D])) (.obj [])
  | obj (d : ℕ) (ps : List (Member × Json)) (hne : ps ≠ []) (hspaced : ∀ p ∈ ps, p.1.Spaced)
      (h : ∀ p ∈ ps, Spells d p.1.value.text p.2) :
      Spells (d + 1) (0x7B :: (commas (ps.map fun p => p.1.bytes) ++ [0x7D]))
        (.obj ((ps.map fun p => (literalText p.1.key, p.2)).foldl
          (fun fs f => insertField f.1 f.2 fs) []))

variable {d fuel : ℕ} {b rest t w : Bytes} {c : UInt8} {v : Json}

theorem Spells.mono {d' : ℕ} (h : Spells d t v) (hle : d ≤ d') : Spells d' t v := by
  induction h generalizing d' with
  | word _ w v h => exact .word d' w v h
  | num _ lit h => exact .num d' lit h
  | str _ body h => exact .str d' body h
  | emptyArr d w hw =>
    obtain ⟨d', rfl⟩ : ∃ e, d' = e + 1 := ⟨d' - 1, by omega⟩
    exact .emptyArr d' w hw
  | arr d ps hne hspaced _ ih =>
    obtain ⟨d', rfl⟩ : ∃ e, d' = e + 1 := ⟨d' - 1, by omega⟩
    exact .arr d' ps hne hspaced fun p hp => ih p hp (by omega)
  | emptyObj d w hw =>
    obtain ⟨d', rfl⟩ : ∃ e, d' = e + 1 := ⟨d' - 1, by omega⟩
    exact .emptyObj d' w hw
  | obj d ps hne hspaced _ ih =>
    obtain ⟨d', rfl⟩ : ∃ e, d' = e + 1 := ⟨d' - 1, by omega⟩
    exact .obj d' ps hne hspaced fun p hp => ih p hp (by omega)

/-- A value starts with a byte that is no white space and closes nothing. -/
theorem Spells.head (h : Spells d t v) :
    ∃ c tail, t = c :: tail ∧ isSpace c = false ∧ c ≠ 0x5D ∧ c ≠ 0x7D := by
  cases h with
  | word _ _ _ h =>
    rcases mem_words.mp h with ⟨rfl, -⟩ | ⟨rfl, -⟩ | ⟨rfl, -⟩ <;> exact ⟨_, _, rfl, by decide⟩
  | num _ _ h =>
    obtain ⟨c, tail, heq, hc⟩ := h.head
    refine ⟨c, tail, heq, (isSpace_of_number hc).1, ?_, ?_⟩ <;> rintro rfl <;>
      simp [isDigit] at hc
  | _ => exact ⟨_, _, rfl, by decide⟩

section Writing

/-- The text is read whole, as the value, from any input that starts with it. -/
def ReadAs (d : ℕ) (t : Bytes) (v : Json) : Prop :=
  ∀ fuel w rest, 2 * t.length ≤ fuel → Ws w → Stops rest →
    parseValue fuel d (w ++ (t ++ rest)) = some (v, rest)

/-- It is enough to read the text where the white space ends, with some fuel. -/
theorem Spells.readAs_of_front (h : Spells d t v)
    (hread : ∀ fuel w rest, 2 * t.length ≤ fuel + 1 → Stops rest →
      skipWs (w ++ (t ++ rest)) = t ++ rest →
      parseValue (fuel + 1) d (w ++ (t ++ rest)) = some (v, rest)) : ReadAs d t v := by
  intro fuel w rest hfuel hw hrest
  obtain ⟨c, tail, rfl, hc, -⟩ := h.head
  obtain ⟨fuel, rfl⟩ : ∃ f, fuel = f + 1 := by
    rw [List.length_cons] at hfuel
    exact ⟨fuel - 1, by omega⟩
  exact hread fuel w rest hfuel hrest (skipWs_after hw hc _)

theorem ReadAs.elem {e : Elem} (h : ReadAs d e.text v) (hspaced : e.Spaced) (fuel : ℕ)
    (hfuel : 2 * e.bytes.length ≤ fuel) (c : UInt8) (hc : c = 0x2C ∨ c = 0x5D ∨ c = 0x7D)
    (rest : Bytes) : parseValue fuel d (e.bytes ++ c :: rest) = some (v, e.after ++ c :: rest) := by
  rw [Elem.bytes_append]
  refine h fuel e.before _ ?_ hspaced.1 ((stops_cons hc rest).ws hspaced.2)
  simp only [Elem.bytes, List.length_append] at hfuel
  omega

/-- The elements of an array, one after another. -/
theorem readAs_elems {ps : List (Elem × Json)} (hne : ps ≠ []) (hspaced : ∀ p ∈ ps, p.1.Spaced)
    (h : ∀ p ∈ ps, ReadAs d p.1.text p.2) (fuel : ℕ) (rest : Bytes)
    (hfuel : 2 * (commas (ps.map fun p => p.1.bytes)).length < fuel) :
    parseElems fuel d (commas (ps.map fun p => p.1.bytes) ++ 0x5D :: rest) =
      some (ps.map Prod.snd, rest) := by
  induction ps generalizing fuel with
  | nil => exact absurd rfl hne
  | cons p ps ih =>
    obtain ⟨fuel, rfl⟩ : ∃ f, fuel = f + 1 := ⟨fuel - 1, by omega⟩
    obtain ⟨hsp, hsps⟩ := List.forall_mem_cons.mp hspaced
    obtain ⟨hp, hps⟩ := List.forall_mem_cons.mp h
    cases ps with
    | nil =>
      rw [List.map_singleton, commas_singleton] at hfuel ⊢
      have hv := hp.elem hsp fuel (by omega) 0x5D (by decide) rest
      simp only [parseElems, hv, skipWs_after hsp.2 (show isSpace 0x5D = false by decide),
        List.map_singleton]
    | cons p' ps =>
      rw [commas_map_cons _ p (List.cons_ne_nil p' ps)] at hfuel ⊢
      rw [List.length_append, List.length_cons] at hfuel
      have hv := hp.elem hsp fuel (by omega) 0x2C (by decide)
        (commas ((p' :: ps).map fun p => p.1.bytes) ++ 0x5D :: rest)
      simp only [List.append_assoc, List.cons_append, parseElems, hv,
        skipWs_after hsp.2 (show isSpace 0x2C = false by decide),
        ih (List.cons_ne_nil p' ps) hsps hps fuel (by omega), Option.map_some]
      rfl

/-- The members of an object, one after another. -/
theorem readAs_members {ps : List (Member × Json)} (hne : ps ≠ [])
    (hspaced : ∀ p ∈ ps, p.1.Spaced) (h : ∀ p ∈ ps, ReadAs d p.1.value.text p.2) (fuel : ℕ)
    (rest : Bytes) (hfuel : 2 * (commas (ps.map fun p => p.1.bytes)).length < fuel) :
    parseMembers fuel d (commas (ps.map fun p => p.1.bytes) ++ 0x7D :: rest) =
      some (ps.map fun p => (literalText p.1.key, p.2), rest) := by
  induction ps generalizing fuel with
  | nil => exact absurd rfl hne
  | cons p ps ih =>
    obtain ⟨fuel, rfl⟩ : ∃ f, fuel = f + 1 := ⟨fuel - 1, by omega⟩
    obtain ⟨⟨hbefore, hkey, hafter, hsp⟩, hsps⟩ := List.forall_mem_cons.mp hspaced
    obtain ⟨hp, hps⟩ := List.forall_mem_cons.mp h
    have hlen : p.1.value.bytes.length ≤ p.1.bytes.length := by
      simp only [Member.bytes, List.length_append, List.length_cons]
      omega
    have hread : ∀ tail, readStr
        ((p.1.key ++ 0x22 :: (p.1.after ++ 0x3A :: (p.1.value.bytes ++ tail))).length + 1)
        (p.1.key ++ 0x22 :: (p.1.after ++ 0x3A :: (p.1.value.bytes ++ tail))) =
          some (literalText p.1.key, p.1.after ++ 0x3A :: (p.1.value.bytes ++ tail)) :=
      fun tail => readStr_literal hkey _ _ (by rw [List.length_append]; omega)
    cases ps with
    | nil =>
      rw [List.map_singleton, commas_singleton] at hfuel ⊢
      have hv := hp.elem hsp fuel (by omega) 0x7D (by decide) rest
      simp only [Member.bytes_append, parseMembers,
        skipWs_after hbefore (show isSpace 0x22 = false by decide), hread,
        skipWs_after hafter (show isSpace 0x3A = false by decide), hv,
        skipWs_after hsp.2 (show isSpace 0x7D = false by decide), List.map_singleton]
    | cons p' ps =>
      rw [commas_map_cons _ p (List.cons_ne_nil p' ps)] at hfuel ⊢
      rw [List.length_append, List.length_cons] at hfuel
      have hv := hp.elem hsp fuel (by omega) 0x2C (by decide)
        (commas ((p' :: ps).map fun p => p.1.bytes) ++ 0x7D :: rest)
      have hfs := ih (List.cons_ne_nil p' ps) hsps hps fuel (by omega)
      simp only [List.append_assoc, List.cons_append, Member.bytes_append, parseMembers,
        skipWs_after hbefore (show isSpace 0x22 = false by decide), hread,
        skipWs_after hafter (show isSpace 0x3A = false by decide), hv,
        skipWs_after hsp.2 (show isSpace 0x2C = false by decide), hfs, Option.map_some]
      rfl

/-- What stands inside the brackets does not start with the closing one. -/
theorem skipWs_elems {ps : List (Elem × Json)} (hne : ps ≠ []) (hspaced : ∀ p ∈ ps, p.1.Spaced)
    (h : ∀ p ∈ ps, Spells d p.1.text p.2) (rest : Bytes) :
    ∃ c t, skipWs (commas (ps.map fun p => p.1.bytes) ++ rest) = c :: t ∧ c ≠ 0x5D := by
  obtain ⟨p, ps, rfl⟩ := List.exists_cons_of_ne_nil hne
  obtain ⟨tail, htail⟩ := commas_cons p.1.bytes (ps.map fun p => p.1.bytes)
  obtain ⟨c, t, heq, hspace, hc, -⟩ := (h p List.mem_cons_self).head
  refine ⟨c, t ++ (p.1.after ++ (tail ++ rest)), ?_, hc⟩
  rw [List.map_cons, htail, List.append_assoc, Elem.bytes_append, heq, List.cons_append,
    skipWs_after (hspaced p List.mem_cons_self).1 hspace]

theorem skipWs_members {ps : List (Member × Json)} (hne : ps ≠ [])
    (hspaced : ∀ p ∈ ps, p.1.Spaced) (rest : Bytes) :
    ∃ t, skipWs (commas (ps.map fun p => p.1.bytes) ++ rest) = 0x22 :: t := by
  obtain ⟨p, ps, rfl⟩ := List.exists_cons_of_ne_nil hne
  obtain ⟨tail, htail⟩ := commas_cons p.1.bytes (ps.map fun p => p.1.bytes)
  rw [List.map_cons, htail, List.append_assoc, Member.bytes_append,
    skipWs_after (hspaced p List.mem_cons_self).1 (by decide)]
  exact ⟨_, rfl⟩

theorem parseElems_skipWs (fuel d : ℕ) (b : Bytes) :
    parseElems fuel d (skipWs b) = parseElems fuel d b := by
  have hvalue : ∀ fuel, parseValue fuel d (skipWs b) = parseValue fuel d b := by
    intro fuel
    cases fuel with
    | zero => rfl
    | succ fuel => rw [parseValue, parseValue, skipWs_skipWs]
  cases fuel with
  | zero => rfl
  | succ fuel => rw [parseElems, parseElems, hvalue]

theorem parseMembers_skipWs (fuel d : ℕ) (b : Bytes) :
    parseMembers fuel d (skipWs b) = parseMembers fuel d b := by
  cases fuel with
  | zero => rfl
  | succ fuel => rw [parseMembers, parseMembers, skipWs_skipWs]

theorem readWord_append (w : Bytes) (v : Json) (rest : Bytes) :
    readWord w v (w ++ rest) = some (v, rest) := by
  simp [readWord]

/-- Every text is read whole to the value it spells; the induction is on the spelling. -/
theorem Spells.readAs (h : Spells d t v) : ReadAs d t v := by
  induction h with
  | word d t v h =>
    refine (Spells.word d t v h).readAs_of_front fun fuel w rest _ _ hskip => ?_
    rw [parseValue, hskip]
    rcases mem_words.mp h with ⟨rfl, rfl⟩ | ⟨rfl, rfl⟩ | ⟨rfl, rfl⟩
    · exact readWord_append (ascii "null") .null rest
    · exact readWord_append (ascii "true") (.bool true) rest
    · exact readWord_append (ascii "false") (.bool false) rest
  | num d lit h =>
    refine (Spells.num d lit h).readAs_of_front fun fuel w rest _ hrest hskip => ?_
    have hread := readNumber_append h hrest
    obtain ⟨c, t, rfl, hc⟩ := h.head
    obtain ⟨-, -, h₁, h₂, h₃, h₄, h₅, h₆⟩ := isSpace_of_number hc
    rw [List.cons_append] at hread
    rw [parseValue, hskip, List.cons_append]
    simp only [if_neg h₁, if_neg h₂, if_neg h₃, if_neg h₄, if_neg h₅, if_neg h₆, hread,
      Option.map_some]
  | str d body h =>
    refine (Spells.str d body h).readAs_of_front fun fuel w rest _ _ hskip => ?_
    have hread := readStr_literal h ((body ++ 0x22 :: rest).length + 1) rest
      (by rw [List.length_append]; omega)
    rw [parseValue, hskip]
    simp only [List.cons_append, List.append_assoc, List.nil_append, hread]
    rfl
  | emptyArr d w' hw' =>
    refine (Spells.emptyArr d w' hw').readAs_of_front fun fuel w rest _ _ hskip => ?_
    rw [parseValue, hskip]
    simp only [List.cons_append, List.append_assoc, List.nil_append,
      skipWs_after hw' (show isSpace 0x5D = false by decide)]
    rfl
  | arr d ps hne hspaced h ih =>
    refine (Spells.arr d ps hne hspaced h).readAs_of_front fun fuel w rest hfuel _ hskip => ?_
    rw [List.length_cons, List.length_append, List.length_singleton] at hfuel
    have hxs := readAs_elems hne hspaced ih fuel rest (by omega)
    obtain ⟨c, t, hopen, hc⟩ := skipWs_elems hne hspaced h (0x5D :: rest)
    rw [← parseElems_skipWs, hopen] at hxs
    rw [parseValue, hskip]
    simp only [List.cons_append, List.append_assoc, List.nil_append, hopen]
    rw [if_neg (by decide), if_pos trivial, if_neg (by omega), Nat.add_sub_cancel]
    split
    next hm =>
      exact absurd (List.cons.inj hm).1 hc
    · rw [hxs]
      rfl
  | emptyObj d w' hw' =>
    refine (Spells.emptyObj d w' hw').readAs_of_front fun fuel w rest _ _ hskip => ?_
    rw [parseValue, hskip]
    simp only [List.cons_append, List.append_assoc, List.nil_append,
      skipWs_after hw' (show isSpace 0x7D = false by decide)]
    rfl
  | obj d ps hne hspaced h ih =>
    refine (Spells.obj d ps hne hspaced h).readAs_of_front fun fuel w rest hfuel _ hskip => ?_
    rw [List.length_cons, List.length_append, List.length_singleton] at hfuel
    have hfs := readAs_members hne hspaced ih fuel rest (by omega)
    obtain ⟨t, hopen⟩ := skipWs_members hne hspaced (0x7D :: rest)
    rw [← parseMembers_skipWs, hopen] at hfs
    rw [parseValue, hskip]
    simp only [List.cons_append, List.append_assoc, List.nil_append, hopen]
    rw [if_pos trivial, if_neg (by omega), Nat.add_sub_cancel]
    split
    next hm =>
      exact absurd (List.cons.inj hm).1 (by decide)
    · rw [hfs]
      rfl

end Writing

section Reading

def ElemsAt (d : ℕ) (xs : List Json) (b rest : Bytes) : Prop :=
  ∃ ps : List (Elem × Json), ps ≠ [] ∧ (∀ p ∈ ps, p.1.Spaced) ∧
    (∀ p ∈ ps, Spells d p.1.text p.2) ∧ xs = ps.map Prod.snd ∧
    b = commas (ps.map fun p => p.1.bytes) ++ 0x5D :: rest

def MembersAt (d : ℕ) (fs : List (Text × Json)) (b rest : Bytes) : Prop :=
  ∃ ps : List (Member × Json), ps ≠ [] ∧ (∀ p ∈ ps, p.1.Spaced) ∧
    (∀ p ∈ ps, Spells d p.1.value.text p.2) ∧ fs = (ps.map fun p => (literalText p.1.key, p.2)) ∧
    b = commas (ps.map fun p => p.1.bytes) ++ 0x7D :: rest

/-- What is read with some amount of fuel is spelt by the text in front of what is
left. -/
structure Spelt (fuel : ℕ) : Prop where
  value : ∀ {d b v rest}, parseValue fuel d b = some (v, rest) →
    ∃ w t, Ws w ∧ Spells d t v ∧ b = w ++ (t ++ rest)
  elems : ∀ {d b xs rest}, parseElems fuel d b = some (xs, rest) → ElemsAt d xs b rest
  members : ∀ {d b fs rest}, parseMembers fuel d b = some (fs, rest) →
    MembersAt d fs b rest

/-- A literal is taken up to its closing quote, as the text it stands for. -/
theorem literal_of_readStr {s : Text} (h : readStr (b.length + 1) b = some (s, rest)) :
    ∃ body, StrBody body ∧ s = literalText body ∧ b = body ++ 0x22 :: rest := by
  obtain ⟨body, hbody, rfl⟩ := strBody_of_readStr h
  rw [readStr_literal hbody _ _ (by rw [List.length_append]; omega), Option.some.injEq,
    Prod.mk.injEq] at h
  exact ⟨body, hbody, h.1.symm, rfl⟩

theorem readWord_eq {v' : Json} (h : readWord w v b = some (v', rest)) :
    v' = v ∧ b = w ++ rest := by
  unfold readWord at h
  by_cases hpre : List.isPrefixOf w b
  · rw [if_pos hpre] at h
    simp only [Option.some.injEq, Prod.mk.injEq] at h
    obtain ⟨tail, rfl⟩ := List.isPrefixOf_iff_prefix.mp hpre
    exact ⟨h.1.symm, by rw [← h.2, List.drop_left]⟩
  · simp [hpre] at h

/-- One more element, given what less fuel reads. -/
theorem Spelt.elems_succ (ih : Spelt fuel) {xs : List Json}
    (h : parseElems (fuel + 1) d b = some (xs, rest)) : ElemsAt d xs b rest := by
  simp only [parseElems] at h
  rcases hx : parseValue fuel d b with _ | ⟨x, rest₁⟩
  · simp [hx] at h
  · simp only [hx] at h
    obtain ⟨w, t, hw, ht, rfl⟩ := ih.value hx
    split at h
    next rest₂ hskip =>
      obtain ⟨w', hw', rfl⟩ := exists_ws hskip
      obtain ⟨xs', hp, rfl⟩ := read_of_map h fun _ _ => rfl
      obtain ⟨ps, hne, hspaced, hvalue, hxs, rfl⟩ := ih.elems hp
      refine ⟨(⟨w, t, w'⟩, x) :: ps, List.cons_ne_nil _ _,
        List.forall_mem_cons.mpr ⟨⟨hw, hw'⟩, hspaced⟩, List.forall_mem_cons.mpr ⟨ht, hvalue⟩,
        congrArg (x :: ·) hxs, ?_⟩
      rw [commas_map_cons _ _ hne]
      simp [Elem.bytes]
    next rest₂ hskip =>
      obtain ⟨w', hw', rfl⟩ := exists_ws hskip
      obtain ⟨rfl, rfl⟩ := Prod.mk.inj (Option.some.inj h)
      refine ⟨[(⟨w, t, w'⟩, x)], List.cons_ne_nil _ _, List.forall_mem_singleton.mpr ⟨hw, hw'⟩,
        List.forall_mem_singleton.mpr ht, rfl, ?_⟩
      rw [List.map_singleton, commas_singleton]
      simp [Elem.bytes]
    · simp at h

/-- One more member, given what less fuel reads. -/
theorem Spelt.members_succ (ih : Spelt fuel) {fs : List (Text × Json)}
    (h : parseMembers (fuel + 1) d b = some (fs, rest)) : MembersAt d fs b rest := by
  simp only [parseMembers] at h
  split at h
  next rest₁ hskip₁ =>
    obtain ⟨w₁, hw₁, rfl⟩ := exists_ws hskip₁
    rcases hk : readStr (rest₁.length + 1) rest₁ with _ | ⟨k, rest₂⟩
    · simp [hk] at h
    · simp only [hk] at h
      obtain ⟨body, hbody, rfl, rfl⟩ := literal_of_readStr hk
      split at h
      next rest₃ hskip₂ =>
        obtain ⟨w₂, hw₂, rfl⟩ := exists_ws hskip₂
        rcases hv : parseValue fuel d rest₃ with _ | ⟨v, rest₄⟩
        · simp [hv] at h
        · simp only [hv] at h
          obtain ⟨w, t, hw, ht, rfl⟩ := ih.value hv
          split at h
          next rest₅ hskip₃ =>
            obtain ⟨w', hw', rfl⟩ := exists_ws hskip₃
            obtain ⟨fs', hp, rfl⟩ := read_of_map h fun _ _ => rfl
            obtain ⟨ps, hne, hspaced, hvalue, hfs, rfl⟩ := ih.members hp
            refine ⟨(⟨w₁, body, w₂, w, t, w'⟩, v) :: ps, List.cons_ne_nil _ _,
              List.forall_mem_cons.mpr ⟨⟨hw₁, hbody, hw₂, hw, hw'⟩, hspaced⟩,
              List.forall_mem_cons.mpr ⟨ht, hvalue⟩, congrArg ((literalText body, v) :: ·) hfs, ?_⟩
            rw [commas_map_cons _ _ hne]
            simp [Member.bytes, Elem.bytes]
          next rest₅ hskip₃ =>
            obtain ⟨w', hw', rfl⟩ := exists_ws hskip₃
            obtain ⟨rfl, rfl⟩ := Prod.mk.inj (Option.some.inj h)
            refine ⟨[(⟨w₁, body, w₂, w, t, w'⟩, v)], List.cons_ne_nil _ _,
              List.forall_mem_singleton.mpr ⟨hw₁, hbody, hw₂, hw, hw'⟩,
              List.forall_mem_singleton.mpr ht, rfl, ?_⟩
            rw [List.map_singleton, commas_singleton]
            simp [Member.bytes, Elem.bytes]
          · simp at h
      · simp at h
  · simp at h

/-- The cases of a value, by its first byte. -/
theorem Spelt.value_succ (ih : Spelt fuel) (h : parseValue (fuel + 1) d b = some (v, rest)) :
    ∃ w t, Ws w ∧ Spells d t v ∧ b = w ++ (t ++ rest) := by
  obtain ⟨w, hw, heq⟩ := exists_skipWs b
  -- it is enough to find the text where the white space ends
  have hsuff : (∃ t, Spells d t v ∧ skipWs b = t ++ rest) →
      ∃ w t, Ws w ∧ Spells d t v ∧ b = w ++ (t ++ rest) :=
    fun ⟨t, ht, hskip⟩ => ⟨w, t, hw, ht, hskip ▸ heq⟩
  apply hsuff
  simp only [parseValue] at h
  split at h
  · simp at h
  next c tail hskip =>
    rw [hskip]
    by_cases hc : c = 0x7B
    · rw [if_pos hc] at h
      subst hc
      by_cases hd : d = 0
      · simp [hd] at h
      · rw [if_neg hd] at h
        obtain ⟨d, rfl⟩ : ∃ d', d = d' + 1 := ⟨d - 1, by omega⟩
        split at h
        next rest' hclose =>
          obtain ⟨w', hw', rfl⟩ := exists_ws hclose
          obtain ⟨rfl, rfl⟩ := Prod.mk.inj (Option.some.inj h)
          exact ⟨_, .emptyObj d w' hw', by simp⟩
        · obtain ⟨⟨fs, r⟩, hp, hpe⟩ := Option.map_eq_some_iff.mp h
          obtain ⟨rfl, rfl⟩ := Prod.mk.inj hpe
          rw [Nat.add_sub_cancel, parseMembers_skipWs] at hp
          obtain ⟨ps, hne, hspaced, hvalue, rfl, rfl⟩ := ih.members hp
          exact ⟨_, .obj d ps hne hspaced hvalue, by simp⟩
    · rw [if_neg hc] at h
      by_cases hc : c = 0x5B
      · rw [if_pos hc] at h
        subst hc
        by_cases hd : d = 0
        · simp [hd] at h
        · rw [if_neg hd] at h
          obtain ⟨d, rfl⟩ : ∃ d', d = d' + 1 := ⟨d - 1, by omega⟩
          split at h
          next rest' hclose =>
            obtain ⟨w', hw', rfl⟩ := exists_ws hclose
            obtain ⟨rfl, rfl⟩ := Prod.mk.inj (Option.some.inj h)
            exact ⟨_, .emptyArr d w' hw', by simp⟩
          · obtain ⟨xs, hp, rfl⟩ := read_of_map h fun _ _ => rfl
            rw [Nat.add_sub_cancel, parseElems_skipWs] at hp
            obtain ⟨ps, hne, hspaced, hvalue, rfl, rfl⟩ := ih.elems hp
            exact ⟨_, .arr d ps hne hspaced hvalue, by simp⟩
      · rw [if_neg hc] at h
        by_cases hc : c = 0x22
        · rw [if_pos hc] at h
          subst hc
          obtain ⟨s, hp, rfl⟩ := read_of_map h fun _ _ => rfl
          obtain ⟨body, hbody, rfl, rfl⟩ := literal_of_readStr hp
          exact ⟨_, .str d body hbody, by simp⟩
        · rw [if_neg hc] at h
          split at h
          · obtain ⟨rfl, heq'⟩ := readWord_eq h
            exact ⟨_, .word d _ _ (by simp [words]), heq'⟩
          · split at h
            · obtain ⟨rfl, heq'⟩ := readWord_eq h
              exact ⟨_, .word d _ _ (by simp [words]), heq'⟩
            · split at h
              · obtain ⟨rfl, heq'⟩ := readWord_eq h
                exact ⟨_, .word d _ _ (by simp [words]), heq'⟩
              · obtain ⟨lit, hp, rfl⟩ := read_of_map h fun _ _ => rfl
                obtain ⟨hlit, heq'⟩ := isNumber_of_readNumber hp
                exact ⟨lit, .num d lit hlit, heq'⟩

theorem spelt (fuel : ℕ) : Spelt fuel := by
  induction fuel with
  | zero => exact ⟨nofun, nofun, nofun⟩
  | succ fuel ih => exact ⟨ih.value_succ, ih.elems_succ, ih.members_succ⟩

end Reading

end Supercache.JsonText
