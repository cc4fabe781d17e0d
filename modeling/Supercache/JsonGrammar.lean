import Supercache.JsonRoundTrip

/-!
The grammar of JSON texts, and the reader held to it. The reader takes a value
from the front of the input exactly when one of the grammar stands there after
white space, nested no deeper than the reader's bound.
-/
namespace Supercache.JsonText

open Wire JsonX

inductive IsValue : ℕ → Bytes → Prop
  | word (d : ℕ) (w : Bytes) (h : w = ascii "null" ∨ w = ascii "true" ∨ w = ascii "false") :
    IsValue d w
  | num (d : ℕ) (lit : Bytes) (h : IsNumber lit) : IsValue d lit
  | str (d : ℕ) (body : Bytes) (h : StrBody body) : IsValue d (0x22 :: (body ++ [0x22]))
  | emptyArr (d : ℕ) (w : Bytes) (hw : Ws w) : IsValue (d + 1) (0x5B :: (w ++ [0x5D]))
  | arr (d : ℕ) (es : List Elem) (hne : es ≠ []) (hspaced : ∀ e ∈ es, e.Spaced)
      (h : ∀ e ∈ es, IsValue d e.text) :
      IsValue (d + 1) (0x5B :: (commas (es.map Elem.bytes) ++ [0x5D]))
  | emptyObj (d : ℕ) (w : Bytes) (hw : Ws w) : IsValue (d + 1) (0x7B :: (w ++ [0x7D]))
  | obj (d : ℕ) (ms : List Member) (hne : ms ≠ []) (hspaced : ∀ m ∈ ms, m.Spaced)
      (h : ∀ m ∈ ms, IsValue d m.value.text) :
      IsValue (d + 1) (0x7B :: (commas (ms.map Member.bytes) ++ [0x7D]))

variable {d : ℕ} {t : Bytes}

/-- What spells a value is in the grammar. -/
theorem Spells.isValue {v : Json} (h : Spells d t v) : IsValue d t := by
  induction h with
  | word d w v h =>
    refine .word d w ?_
    exact (mem_words.mp h).imp And.left (Or.imp And.left And.left)
  | num d lit h => exact .num d lit h
  | str d body h => exact .str d body h
  | emptyArr d w hw => exact .emptyArr d w hw
  | arr d ps hne hspaced _ ih =>
    have harr := IsValue.arr d (ps.map Prod.fst) (by simpa using hne)
      (List.forall_mem_map.mpr hspaced) (List.forall_mem_map.mpr ih)
    rwa [List.map_map] at harr
  | emptyObj d w hw => exact .emptyObj d w hw
  | obj d ps hne hspaced _ ih =>
    have hobj := IsValue.obj d (ps.map Prod.fst) (by simpa using hne)
      (List.forall_mem_map.mpr hspaced) (List.forall_mem_map.mpr ih)
    rwa [List.map_map] at hobj

/-- Values for all parts of a text, when each part has one. -/
theorem exists_values {α : Type} {R : α → Json → Prop} {as : List α} (h : ∀ a ∈ as, ∃ v, R a v) :
    ∃ ps : List (α × Json), ps.map Prod.fst = as ∧ ∀ p ∈ ps, R p.1 p.2 := by
  induction as with
  | nil => exact ⟨[], rfl, nofun⟩
  | cons a as ih =>
    obtain ⟨⟨v, hv⟩, has⟩ := List.forall_mem_cons.mp h
    obtain ⟨ps, rfl, hps⟩ := ih has
    exact ⟨(a, v) :: ps, rfl, List.forall_mem_cons.mpr ⟨hv, hps⟩⟩

/-- Every text of the grammar spells a value. -/
theorem IsValue.spells (h : IsValue d t) : ∃ v, Spells d t v := by
  induction h with
  | word d w h =>
    rcases h with rfl | rfl | rfl
    · exact ⟨.null, .word d _ _ (by simp [words])⟩
    · exact ⟨.bool true, .word d _ _ (by simp [words])⟩
    · exact ⟨.bool false, .word d _ _ (by simp [words])⟩
  | num d lit h => exact ⟨_, .num d lit h⟩
  | str d body h => exact ⟨_, .str d body h⟩
  | emptyArr d w hw => exact ⟨_, .emptyArr d w hw⟩
  | arr d es hne hspaced _ ih =>
    obtain ⟨ps, rfl, hps⟩ := exists_values ih
    have harr := Spells.arr d ps (by simpa using hne) (List.forall_mem_map.mp hspaced) hps
    rw [List.map_map]
    exact ⟨_, harr⟩
  | emptyObj d w hw => exact ⟨_, .emptyObj d w hw⟩
  | obj d ms hne hspaced _ ih =>
    obtain ⟨ps, rfl, hps⟩ := exists_values ih
    have hobj := Spells.obj d ps (by simpa using hne) (List.forall_mem_map.mp hspaced) hps
    rw [List.map_map]
    exact ⟨_, hobj⟩

/-- A value starts with a byte that is no white space and closes nothing. -/
theorem IsValue.head (h : IsValue d t) :
    ∃ c tail, t = c :: tail ∧ isSpace c = false ∧ c ≠ 0x5D ∧ c ≠ 0x7D := by
  obtain ⟨v, hv⟩ := h.spells
  exact hv.head

end Supercache.JsonText
