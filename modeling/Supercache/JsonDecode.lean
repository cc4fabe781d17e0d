import Supercache.JsonGrammar
import Supercache.JsonMode

/-!
What the decoder accepts. It takes one value and then looks whether more follows,
but a closing bracket or brace does not count as more: such a text is accepted
although it is no JSON text. It refuses what nests too deep.
-/
namespace Supercache.JsonX

open Wire JsonText

section Texts

/-- One value that nests at most `d` deep, with white space around it. -/
def IsTextWithin (d : ℕ) (b : Bytes) : Prop :=
  ∃ w t w', Ws w ∧ IsValue d t ∧ Ws w' ∧ b = w ++ (t ++ w')

/-- One value with white space around it. -/
def IsText (b : Bytes) : Prop := ∃ d, IsTextWithin d b

/-- One value, and after it a closing bracket or brace. -/
def Overclosed (b : Bytes) : Prop :=
  ∃ w t w' c tail, Ws w ∧ IsValue maxNestingDepth t ∧ Ws w' ∧ (c = 0x5D ∨ c = 0x7D) ∧
    b = w ++ (t ++ (w' ++ c :: tail))

variable {w t rest b : Bytes} {d : ℕ} {v : Json}

theorem stops_of_ws (hw : Ws w) : Stops w := by
  rw [← List.append_nil w]
  exact stops_nil.ws hw

theorem skipWs_ws (hw : Ws w) : skipWs w = [] := by
  rw [← List.append_nil w, skipWs_append hw]
  rfl

theorem ws_of_skipWs (h : skipWs b = []) : Ws b := by
  obtain ⟨w, hw, heq⟩ := exists_skipWs b
  rw [h, List.append_nil] at heq
  rw [heq]
  exact hw

/-- A value at the front is what is read, and the reader goes no further. -/
theorem readValue_of_spells (hw : Ws w) (ht : Spells d t v) (hrest : Stops rest) :
    readValue d (w ++ (t ++ rest)) = some (v, rest) := by
  refine ht.readAs _ w rest ?_ hw hrest
  simp only [List.length_append]
  omega

theorem ne_nil_of_isValue (ht : IsValue d t) : w ++ (t ++ rest) ≠ [] := by
  obtain ⟨c, tail, rfl, -⟩ := ht.head
  simp

/-- The accepted texts, by the grammar alone. -/
theorem decode_isSome_iff (b : Bytes) :
    (decode b).isSome = true ↔ IsTextWithin maxNestingDepth b ∨ Overclosed b := by
  constructor
  · intro h
    unfold decode at h
    split at h
    · simp at h
    · rcases hval : readValue maxNestingDepth b with _ | ⟨v, rest⟩
      · simp [hval] at h
      · simp only [hval] at h
        obtain ⟨w, t, hw, hspells, heq⟩ := (spelt _).value hval
        have ht := hspells.isValue
        rcases hskip : skipWs rest with _ | ⟨c, tail⟩
        · simp only [hskip] at h
          exact .inl ⟨w, t, rest, hw, ht, ws_of_skipWs hskip, heq⟩
        · simp only [hskip] at h
          by_cases hc : c = 0x5D ∨ c = 0x7D
          · rw [if_pos hc] at h
            obtain ⟨w', hw', rfl⟩ := exists_ws hskip
            exact .inr ⟨w, t, w', c, tail, hw, ht, hw', hc, heq⟩
          · simp [hc] at h
  · rintro (⟨w, t, w', hw, ht, hw', rfl⟩ | ⟨w, t, w', c, tail, hw, ht, hw', hc, rfl⟩)
    · obtain ⟨v, hspells⟩ := ht.spells
      have hv := readValue_of_spells hw hspells (stops_of_ws hw')
      simp only [decode, if_neg (ne_nil_of_isValue ht), hv, skipWs_ws hw', Option.isSome_some]
    · have hspace : isSpace c = false := by rcases hc with rfl | rfl <;> decide
      obtain ⟨v, hspells⟩ := ht.spells
      have hv := readValue_of_spells hw hspells ((stops_cons (.inr hc) tail).ws hw')
      simp only [decode, if_neg (ne_nil_of_isValue ht), hv, skipWs_after hw' hspace, if_pos hc,
        Option.isSome_some]

/-- Two values at the front of one input are the same and end at the same place. -/
theorem front_unique {d' : ℕ} {w' t' rest' : Bytes} {v' : Json} (hw : Ws w) (ht : Spells d t v)
    (hrest : Stops rest) (hw' : Ws w') (ht' : Spells d' t' v') (hrest' : Stops rest')
    (heq : w ++ (t ++ rest) = w' ++ (t' ++ rest')) : v = v' ∧ rest = rest' := by
  have hv := readValue_of_spells hw (ht.mono (Nat.le_max_left d d')) hrest
  have hv' := readValue_of_spells hw' (ht'.mono (Nat.le_max_right d d')) hrest'
  rw [heq, hv', Option.some.injEq, Prod.mk.injEq] at hv
  exact ⟨hv.1.symm, hv.2.symm⟩

theorem Overclosed.not_isText (h : Overclosed b) : ¬ IsText b := by
  rintro ⟨d, w₂, t₂, w₂', hw₂, ht₂, hw₂', heq₂⟩
  obtain ⟨w, t, w', c, tail, hw, ht, hw', hc, heq⟩ := h
  obtain ⟨v, hv⟩ := ht.spells
  obtain ⟨v₂, hv₂⟩ := ht₂.spells
  obtain ⟨-, hrest⟩ := front_unique hw hv ((stops_cons (.inr hc) tail).ws hw') hw₂ hv₂
    (stops_of_ws hw₂') (heq ▸ heq₂)
  have hspace : isSpace c = true := hw₂' c (by rw [← hrest]; simp)
  rcases hc with rfl | rfl <;> simp [isSpace] at hspace

end Texts

end Supercache.JsonX

namespace Supercache.Store

open Wire JsonText JsonX

section Accepted

variable {key : Bytes} {version : ℕ} {expireAt : ℤ} {env : Env} {old : Option LruItem}
  {still : Bool}

theorem decode_of_jSet {path raw : Bytes} {maxValue : ℤ}
    (h : ((jSet key path raw version expireAt maxValue env old).ret still).1 = true) :
    (decode raw).isSome = true := by
  cases hraw : decode raw with
  | none => simp [jSet, hraw, Plan.skip] at h
  | some val => rfl

theorem decode_of_jInstall {blob : Bytes}
    (h : (jInstall key blob version expireAt env old).ret still = true) :
    (decode blob).isSome = true := by
  cases hblob : decode blob with
  | none => simp [jInstall, hblob, Plan.skip] at h
  | some doc => rfl

/-- The decoder takes exactly the JSON texts where no closing bracket or brace
follows a value and nothing nests too deep; there, so do the calls that store. -/
theorem decode_exact_iff (b : Bytes) :
    (((decode b).isSome = true ↔ IsText b) ↔
      ¬ Overclosed b ∧ (IsText b → IsTextWithin maxNestingDepth b)) ∧
    (¬ Overclosed b → ∀ key path version expireAt maxValue env old still,
      (((jSet key path b version expireAt maxValue env old).ret still).1 = true → IsText b) ∧
      ((jInstall key b version expireAt env old).ret still = true → IsText b)) := by
  have hiff := decode_isSome_iff b
  have hclosed : Overclosed b → ¬ IsText b := Overclosed.not_isText
  have hwithin : IsTextWithin maxNestingDepth b → IsText b := fun h => ⟨maxNestingDepth, h⟩
  refine ⟨by tauto, fun hopen key path version expireAt maxValue env old still => ?_⟩
  have htext : (decode b).isSome = true → IsText b := fun h =>
    hwithin ((hiff.mp h).resolve_right hopen)
  exact ⟨fun h => htext (decode_of_jSet h), fun h => htext (decode_of_jInstall h)⟩

theorem isNumber_one : IsNumber (ascii "1") := by
  have hdigits : Digits [0x31] := ⟨List.cons_ne_nil _ _, by simp [isDigit]⟩
  exact ⟨[], [0x31], [], [], .inl rfl, .digits 0x31 [] (by decide) hdigits, .none, .none, by decide⟩

/-- The text of one digit. -/
theorem decode_exact_one :
    ¬ Overclosed (ascii "1") ∧ IsTextWithin maxNestingDepth (ascii "1") ∧
      ((decode (ascii "1")).isSome = true ↔ IsText (ascii "1")) := by
  have hopen : ¬ Overclosed (ascii "1") := by
    rintro ⟨w, t, w', c, tail, -, -, -, hc, heq⟩
    have hmem : c ∈ ascii "1" := by rw [heq]; simp
    have hone : ascii "1" = [0x31] := by decide
    rw [hone, List.mem_singleton] at hmem
    rcases hc with rfl | rfl <;> simp at hmem
  have hvalue : IsValue maxNestingDepth (ascii "1") := .num _ _ isNumber_one
  have hwithin : IsTextWithin maxNestingDepth (ascii "1") :=
    ⟨[], ascii "1", [], nofun, hvalue, nofun, (List.append_nil (ascii "1")).symm⟩
  exact ⟨hopen, hwithin, (decode_exact_iff (ascii "1")).1.mpr ⟨hopen, fun _ => hwithin⟩⟩

/-- A number and a closing bracket are accepted, and installed. -/
theorem decode_overclosed :
    (decode (ascii "1 ]")).isSome = true ∧ ¬ IsText (ascii "1 ]") ∧
      (jInstall (ascii "k") (ascii "1 ]") 1 0 ⟨0, 0, 0⟩ none).ret true = true := by
  have hclosed : Overclosed (ascii "1 ]") :=
    ⟨[], ascii "1", [0x20], 0x5D, [], nofun, .num _ _ isNumber_one, by simp [Ws, isSpace], .inl rfl,
      by decide⟩
  have hsome : (decode (ascii "1 ]")).isSome = true := (decode_isSome_iff _).mpr (.inr hclosed)
  obtain ⟨doc, hdoc⟩ := Option.isSome_iff_exists.mp hsome
  refine ⟨hsome, hclosed.not_isText, ?_⟩
  simp [jInstall, hdoc]

end Accepted

end Supercache.Store
