import Supercache.JsonReader

/-!
What the JSON writer puts out is read back unchanged. A value fits a nesting bound when its
numbers are number literals, its objects are in key order and it nests no deeper. Everything the
reader returns fits its bound, and everything that fits is read back.
-/
namespace Supercache.JsonText

open Wire JsonX

section Strings

theorem hexVal_hexDigit : ∀ n, n < 16 → hexVal (hexDigit n) = some n := by decide

theorem readU4_escUnicode (n : ℕ) (hn : n < 65536) (tail : Bytes) :
    readU4 ((escUnicode n).drop 2 ++ tail) = some (n, tail) := by
  have h₁ := hexVal_hexDigit (n / 4096 % 16) (Nat.mod_lt _ (by omega))
  have h₂ := hexVal_hexDigit (n / 256 % 16) (Nat.mod_lt _ (by omega))
  have h₃ := hexVal_hexDigit (n / 16 % 16) (Nat.mod_lt _ (by omega))
  have h₄ := hexVal_hexDigit (n % 16) (Nat.mod_lt _ (by omega))
  simp only [escUnicode, List.drop_succ_cons, List.drop_zero, List.cons_append, List.nil_append,
    readU4, h₁, h₂, h₃, h₄, Option.some.injEq, Prod.mk.injEq, and_true]
  omega

theorem readStr_escUnicode (c : Char) (hc : c.toNat < 0xD800) (fuel : ℕ) (tail : Bytes) :
    readStr (fuel + 1) (escUnicode c.toNat ++ tail) =
      (readStr fuel tail).map fun p => (c :: p.1, p.2) := by
  have hread : readUnicode ((escUnicode c.toNat).drop 2 ++ tail) = some (c, tail) := by
    simp only [readUnicode, readU4_escUnicode c.toNat (by omega) tail, hc, true_or, if_true,
      Char.ofNat_toNat]
  have hescape : readEscape (0x75 :: ((escUnicode c.toNat).drop 2 ++ tail)) = some (c, tail) := by
    simpa [readEscape] using hread
  have hsplit : escUnicode c.toNat ++ tail =
      0x5C :: 0x75 :: ((escUnicode c.toNat).drop 2 ++ tail) := rfl
  rw [hsplit]
  simp only [readStr, hescape]
  rfl

/-- The first byte of a character that is written as it is. -/
theorem utf8_head (c : Char) (h : 0x20 ≤ c.toNat) (hq : c ≠ '"') (hb : c ≠ '\\') :
    ∃ b t, String.utf8EncodeChar c = b :: t ∧ 0x20 ≤ b ∧ b ≠ 0x22 ∧ b ≠ 0x5C := by
  have hq' : c.toNat ≠ 0x22 := fun h => hq (Char.toNat_inj.mp h)
  have hb' : c.toNat ≠ 0x5C := fun h => hb (Char.toNat_inj.mp h)
  have hbyte : ∀ n : ℕ, n < 256 → 0x20 ≤ n → n ≠ 0x22 → n ≠ 0x5C →
      0x20 ≤ UInt8.ofNat n ∧ UInt8.ofNat n ≠ 0x22 ∧ UInt8.ofNat n ≠ 0x5C := by
    intro n hlt hlo hq hb
    have hn : (UInt8.ofNat n).toNat = n := UInt8.toNat_ofNat_of_lt' hlt
    refine ⟨UInt8.le_iff_toNat_le.mpr (by rw [hn]; exact hlo), fun h => hq ?_, fun h => hb ?_⟩
    · rw [← hn, h]
      rfl
    · rw [← hn, h]
      rfl
  have hval : c.val.toNat = c.toNat := rfl
  unfold String.utf8EncodeChar
  simp only [hval]
  split
  · exact ⟨_, _, rfl, hbyte _ (by omega) h hq' hb'⟩
  · split
    · exact ⟨_, _, rfl, hbyte _ (by omega) (by omega) (by omega) (by omega)⟩
    · split
      · exact ⟨_, _, rfl, hbyte _ (by omega) (by omega) (by omega) (by omega)⟩
      · exact ⟨_, _, rfl, hbyte _ (by omega) (by omega) (by omega) (by omega)⟩

theorem readStr_utf8 (c : Char) (h : 0x20 ≤ c.toNat) (hq : c ≠ '"') (hb : c ≠ '\\') (fuel : ℕ)
    (tail : Bytes) : readStr (fuel + 1) (String.utf8EncodeChar c ++ tail) =
      (readStr fuel tail).map fun p => (c :: p.1, p.2) := by
  obtain ⟨b, t, heq, hlo, hq', hb'⟩ := utf8_head c h hq hb
  have hrune := decodeRune_utf8 c tail
  have hdrop : (String.utf8EncodeChar c ++ tail).drop c.utf8Size = tail := by
    rw [← String.length_utf8EncodeChar c, List.drop_left]
  rw [heq, List.cons_append] at hrune hdrop
  rw [heq, List.cons_append]
  simp only [readStr, if_neg hq', if_neg hb', if_neg (UInt8.not_lt.mpr hlo), hrune, hdrop]

theorem readStr_escape (c : Char) (e : UInt8) (fuel : ℕ) (tail : Bytes)
    (h : readEscape (e :: tail) = some (c, tail)) :
    readStr (fuel + 1) ([0x5C, e] ++ tail) = (readStr fuel tail).map fun p => (c :: p.1, p.2) := by
  simp only [List.cons_append, List.nil_append, readStr, h]
  rfl

/-- One character is read back from its text. -/
theorem readStr_escChar (c : Char) (fuel : ℕ) (tail : Bytes) :
    readStr (fuel + 1) (escChar c ++ tail) = (readStr fuel tail).map fun p => (c :: p.1, p.2) := by
  have hcontrol : ∀ {n : ℕ} {e : UInt8}, c.toNat = n →
      readEscape (e :: tail) = some (Char.ofNat n, tail) →
      readStr (fuel + 1) ([0x5C, e] ++ tail) = (readStr fuel tail).map fun p =>
      (c :: p.1, p.2) := by
    intro n e hn he
    refine readStr_escape c e fuel tail ?_
    rw [he, ← hn, Char.ofNat_toNat]
  unfold escChar
  by_cases hq : c = '"'
  · rw [if_pos hq]
    exact readStr_escape c _ fuel tail (by rw [hq]; rfl)
  · rw [if_neg hq]
    by_cases hb : c = '\\'
    · rw [if_pos hb]
      exact readStr_escape c _ fuel tail (by rw [hb]; rfl)
    · rw [if_neg hb]
      split
      · exact hcontrol ‹_› rfl
      · split
        · exact hcontrol ‹_› rfl
        · split
          · exact hcontrol ‹_› rfl
          · split
            · exact hcontrol ‹_› rfl
            · split
              · exact hcontrol ‹_› rfl
              · split
                · exact readStr_escUnicode c (by omega) fuel tail
                · split
                  · exact readStr_escUnicode c (by omega) fuel tail
                  · exact readStr_utf8 c (by omega) hq hb fuel tail

theorem escChar_ne_nil (c : Char) : escChar c ≠ [] := by
  unfold escChar
  repeat' split
  all_goals first
    | exact List.cons_ne_nil _ _
    | exact fun h => absurd (congrArg List.length h) (by
        rw [String.length_utf8EncodeChar]
        exact c.utf8Size_pos.ne')

theorem length_le_flatMap_escChar (s : Text) : s.length ≤ (s.flatMap escChar).length := by
  induction s with
  | nil => exact Nat.le_refl _
  | cons c s ih =>
    have hpos : 0 < (escChar c).length := List.length_pos_iff.mpr (escChar_ne_nil c)
    simp only [List.flatMap_cons, List.length_cons, List.length_append]
    omega

theorem readStr_flatMap (s : Text) (fuel : ℕ) (rest : Bytes) (hfuel : s.length < fuel) :
    readStr fuel (s.flatMap escChar ++ 0x22 :: rest) = some (s, rest) := by
  induction s generalizing fuel with
  | nil =>
    obtain ⟨fuel, rfl⟩ := Nat.exists_eq_add_of_lt hfuel
    simp [readStr]
  | cons c s ih =>
    obtain ⟨fuel, rfl⟩ : ∃ f, fuel = f + 1 := ⟨fuel - 1, by omega⟩
    rw [List.flatMap_cons, List.append_assoc, readStr_escChar,
      ih fuel (by rw [List.length_cons] at hfuel; omega)]
    rfl

/-- A string literal is read back, with the reader's own fuel. -/
theorem readStr_encodeStr (s : Text) (rest : Bytes) :
    readStr ((s.flatMap escChar ++ 0x22 :: rest).length + 1) (s.flatMap escChar ++ 0x22 :: rest) =
      some (s, rest) := by
  refine readStr_flatMap s _ rest ?_
  have hlen := length_le_flatMap_escChar s
  rw [List.length_append]
  omega

/-- The text of a key is a string literal for it. -/
theorem strBody_escaped (k : Text) :
    StrBody (k.flatMap escChar) ∧ literalText (k.flatMap escChar) = k := by
  have hread := readStr_encodeStr k []
  obtain ⟨body, hbody, heq⟩ := strBody_of_readStr hread
  obtain rfl := List.append_cancel_right heq
  refine ⟨hbody, ?_⟩
  rw [readStr_literal hbody _ _ (by rw [List.length_append]; omega), Option.some.injEq,
    Prod.mk.injEq] at hread
  exact hread.1

end Strings

section Fields

def Sorted (fs : List (Text × Json)) : Prop := fs.Pairwise fun a b => compare a.1 b.1 = .lt

variable {fs : List (Text × Json)} {k : Text} {f : Text × Json}

theorem mem_insertField {v : Json} (h : f ∈ insertField k v fs) : f = (k, v) ∨ f ∈ fs := by
  induction fs with
  | nil => exact Or.inl (List.mem_singleton.mp h)
  | cons f' rest ih =>
    simp only [insertField] at h
    split at h
    · exact List.mem_cons.mp h
    · rcases List.mem_cons.mp h with h | h
      · exact Or.inl h
      · exact Or.inr (List.mem_cons_of_mem _ h)
    · rcases List.mem_cons.mp h with h | h
      · exact Or.inr (List.mem_cons.mpr (Or.inl h))
      · exact (ih h).imp_right (List.mem_cons_of_mem _)

theorem Sorted.insertField (h : Sorted fs) (k : Text) (v : Json) : Sorted (insertField k v fs) := by
  induction fs with
  | nil => exact List.pairwise_singleton _ _
  | cons f' rest ih =>
    obtain ⟨hfirst, hrest⟩ := List.pairwise_cons.mp h
    simp only [JsonText.insertField]
    split
    next hlt =>
      refine List.pairwise_cons.mpr ⟨fun f hf => ?_, h⟩
      rcases List.mem_cons.mp hf with rfl | hf
      · exact hlt
      · exact Std.TransCmp.lt_trans hlt (hfirst f hf)
    next heq =>
      refine List.pairwise_cons.mpr ⟨fun f hf => ?_, hrest⟩
      rw [Std.LawfulEqCmp.eq_of_compare heq]
      exact hfirst f hf
    next hgt =>
      refine List.pairwise_cons.mpr ⟨fun f hf => ?_, ih hrest⟩
      rcases mem_insertField hf with rfl | hf
      · exact Std.OrientedCmp.lt_of_gt hgt
      · exact hfirst f hf

/-- A key after all others goes to the end. -/
theorem insertField_of_last (v : Json) (h : ∀ f ∈ fs, compare f.1 k = .lt) :
    insertField k v fs = fs ++ [(k, v)] := by
  induction fs with
  | nil => rfl
  | cons f rest ih =>
    have hgt : compare k f.1 = .gt := Std.OrientedCmp.gt_of_lt (h f List.mem_cons_self)
    simp only [insertField, hgt, List.cons_append]
    rw [ih fun f' hf' => h f' (List.mem_cons_of_mem _ hf')]

/-- Fields that come in key order are kept as they come. -/
theorem foldl_insertField_of_sorted (fs acc : List (Text × Json)) (h : Sorted (acc ++ fs)) :
    fs.foldl (fun fs f => insertField f.1 f.2 fs) acc = acc ++ fs := by
  induction fs generalizing acc with
  | nil => exact (List.append_nil acc).symm
  | cons f rest ih =>
    have hlast : ∀ g ∈ acc, compare g.1 f.1 = .lt := fun g hg =>
      (List.pairwise_append.mp h).2.2 g hg f List.mem_cons_self
    have hsplit : acc ++ f :: rest = acc ++ [f] ++ rest := by simp
    rw [List.foldl_cons, insertField_of_last f.2 hlast, hsplit]
    exact ih (acc ++ [f]) (hsplit ▸ h)

theorem foldl_insertField_sorted (fs acc : List (Text × Json)) (h : Sorted acc) :
    Sorted (fs.foldl (fun fs f => insertField f.1 f.2 fs) acc) := by
  induction fs generalizing acc with
  | nil => exact h
  | cons f rest ih => exact ih _ (h.insertField f.1 f.2)

theorem mem_foldl_insertField {acc : List (Text × Json)}
    (h : f ∈ fs.foldl (fun fs f => insertField f.1 f.2 fs) acc) : f ∈ fs ∨ f ∈ acc := by
  induction fs generalizing acc with
  | nil => exact Or.inr h
  | cons g rest ih =>
    rcases ih h with hf | hf
    · exact Or.inl (List.mem_cons_of_mem _ hf)
    · exact (mem_insertField hf).imp (fun heq => by rw [heq]; exact List.mem_cons_self) id

end Fields

/-- A value with number literals and ordered objects that nests at most `d` deep. -/
inductive Fits : ℕ → Json → Prop
  | null (d : ℕ) : Fits d .null
  | bool (d : ℕ) (b : Bool) : Fits d (.bool b)
  | num (d : ℕ) (lit : Bytes) (h : IsNumber lit) : Fits d (.num lit)
  | str (d : ℕ) (s : Text) : Fits d (.str s)
  | arr (d : ℕ) (xs : List Json) (h : ∀ x ∈ xs, Fits d x) : Fits (d + 1) (.arr xs)
  | obj (d : ℕ) (fs : List (Text × Json)) (hsorted : Sorted fs) (h : ∀ f ∈ fs, Fits d f.2) :
    Fits (d + 1) (.obj fs)

section Write

variable {d : ℕ} {v : Json} {t : Bytes}

theorem encodeElems_eq (x : Json) (xs : List Json) :
    encode x ++ encodeElems xs = commas ((x :: xs).map encode) ++ [0x5D] := by
  induction xs generalizing x with
  | nil => rw [encodeElems, List.map_singleton, commas_singleton]
  | cons y ys ih =>
    rw [commas_map_cons encode x (List.cons_ne_nil y ys), encodeElems, ih y, List.append_assoc,
      List.cons_append]

def member (f : Text × Json) : Member := ⟨[], f.1.flatMap escChar, [], [], encode f.2, []⟩

theorem encodeMembers_eq (f : Text × Json) (fs : List (Text × Json)) :
    encodeStr f.1 ++ 0x3A :: (encode f.2 ++ encodeMembers fs) =
      commas ((f :: fs).map fun f => (member f).bytes) ++ [0x7D] := by
  have hbytes : ∀ f rest, (member f).bytes ++ rest = encodeStr f.1 ++ 0x3A ::
    (encode f.2 ++ rest) := by
    intro f rest
    simp [member, Member.bytes, Elem.bytes, encodeStr]
  induction fs generalizing f with
  | nil => rw [encodeMembers, List.map_singleton, commas_singleton, hbytes]
  | cons g fs ih =>
    rw [commas_map_cons _ f (List.cons_ne_nil g fs), encodeMembers, ih g, List.append_assoc,
      List.cons_append, hbytes]

/-- What the writer puts out for a value that fits spells it. -/
theorem Fits.spells (h : Fits d v) : Spells d (encode v) v := by
  induction h with
  | null d => exact .word d _ _ (by simp [words, encode])
  | bool d b =>
    refine .word d _ _ ?_
    cases b with
    | false => simp [words, encode]
    | true => simp [words, encode]
  | num d lit hlit =>
    rw [encode]
    exact .num d lit hlit
  | str d s =>
    obtain ⟨hbody, htext⟩ := strBody_escaped s
    have hstr := Spells.str d _ hbody
    rwa [htext] at hstr
  | arr d xs _ ih =>
    cases xs with
    | nil =>
      rw [encode]
      exact .emptyArr d [] ws_nil
    | cons x xs =>
      have harr := Spells.arr d ((x :: xs).map fun x => (⟨[], encode x, []⟩, x)) (by simp)
        (List.forall_mem_map.mpr fun x _ => ⟨ws_nil, ws_nil⟩) (List.forall_mem_map.mpr ih)
      simp only [List.map_map, Function.comp_def, Elem.bytes, List.nil_append, List.append_nil,
        List.map_id'] at harr
      rwa [encode, encodeElems_eq]
  | obj d fs hsorted _ ih =>
    cases fs with
    | nil =>
      rw [encode]
      exact .emptyObj d [] ws_nil
    | cons f fs =>
      have hobj := Spells.obj d ((f :: fs).map fun f => (member f, f.2)) (by simp)
        (List.forall_mem_map.mpr fun f _ =>
        ⟨ws_nil, (strBody_escaped f.1).1, ws_nil, ws_nil, ws_nil⟩)
        (List.forall_mem_map.mpr ih)
      have hkey : ∀ f : Text × Json, (literalText (member f).key, f.2) = f := fun f =>
        congrArg (·, f.2) (strBody_escaped f.1).2
      simp only [List.map_map, Function.comp_def, hkey, List.map_id',
        foldl_insertField_of_sorted _ [] hsorted, List.nil_append] at hobj
      rwa [encode, encodeMembers_eq]

end Write

section Read

theorem Spells.fits {d : ℕ} {t : Bytes} {v : Json} (h : Spells d t v) : Fits d v := by
  induction h with
  | word d w v h =>
    rcases mem_words.mp h with ⟨-, rfl⟩ | ⟨-, rfl⟩ | ⟨-, rfl⟩
    · exact .null d
    · exact .bool d true
    · exact .bool d false
  | num d lit h => exact .num d lit h
  | str d body _ => exact .str d _
  | emptyArr d => exact .arr d [] nofun
  | arr d ps _ _ _ ih => exact .arr d _ (List.forall_mem_map.mpr ih)
  | emptyObj d => exact .obj d [] List.Pairwise.nil nofun
  | obj d ps _ _ _ ih =>
    refine .obj d _ (foldl_insertField_sorted _ [] List.Pairwise.nil) fun f hf => ?_
    rcases mem_foldl_insertField hf with hf | hf
    · obtain ⟨p, hp, rfl⟩ := List.mem_map.mp hf
      exact ih p hp
    · simp at hf

end Read

section Depth

mutual

def depth : Json → ℕ
  | .arr xs => depthElems xs + 1
  | .obj fs => depthMembers fs + 1
  | _ => 0

def depthElems : List Json → ℕ
  | [] => 0
  | x :: xs => max (depth x) (depthElems xs)

def depthMembers : List (Text × Json) → ℕ
  | [] => 0
  | (_, v) :: fs => max (depth v) (depthMembers fs)

end

theorem depth_le_depthElems {x : Json} {xs : List Json} (h : x ∈ xs) : depth x ≤ depthElems xs := by
  induction xs with
  | nil => simp at h
  | cons y ys ih =>
    rw [depthElems]
    rcases List.mem_cons.mp h with rfl | h
    · exact Nat.le_max_left _ _
    · exact (ih h).trans (Nat.le_max_right _ _)

theorem depth_le_depthMembers {f : Text × Json} {fs : List (Text × Json)} (h : f ∈ fs) :
    depth f.2 ≤ depthMembers fs := by
  induction fs with
  | nil => simp at h
  | cons g gs ih =>
    rw [depthMembers]
    rcases List.mem_cons.mp h with rfl | h
    · exact Nat.le_max_left _ _
    · exact (ih h).trans (Nat.le_max_right _ _)

variable {d : ℕ} {v : Json}

theorem Fits.mono {d' : ℕ} (h : Fits d v) (hle : d ≤ d') : Fits d' v := (h.spells.mono hle).fits

/-- A value that fits some bound fits its own depth. -/
theorem Fits.depth (h : Fits d v) : Fits (depth v) v := by
  induction h with
  | null => exact .null _
  | bool _ b => exact .bool _ b
  | num _ lit h => exact .num _ lit h
  | str _ s => exact .str _ s
  | arr d xs _ ih =>
    rw [JsonText.depth]
    exact .arr _ xs fun x hx => (ih x hx).mono (depth_le_depthElems hx)
  | obj d fs hsorted _ ih =>
    rw [JsonText.depth]
    exact .obj _ fs hsorted fun f hf => (ih f hf).mono (depth_le_depthMembers hf)

end Depth

end Supercache.JsonText

namespace Supercache.JsonX

open Wire JsonText

def Storable (doc : Json) : Prop := Fits maxNestingDepth doc

variable {doc : Json}

theorem decode_encode (h : Storable doc) : decode (encode doc) = some doc := by
  have hread := h.spells.readAs (2 * (JsonText.encode doc).length) [] [] le_rfl ws_nil stops_nil
  rw [List.append_nil, List.nil_append] at hread
  obtain ⟨c, t, heq, -⟩ := h.spells.head
  have hne : JsonText.encode doc ≠ [] := by
    rw [heq]
    exact List.cons_ne_nil c t
  simp only [decode, encode, if_neg hne, readValue, hread]
  rfl

theorem storable_of_decode {b : Bytes} (h : decode b = some doc) : Storable doc := by
  unfold decode at h
  split at h
  · simp at h
  · rcases hread : readValue maxNestingDepth b with _ | ⟨v, rest⟩
    · simp [hread] at h
    · simp only [hread] at h
      obtain ⟨-, t, -, ht, -⟩ := (spelt _).value hread
      have hfit : Storable v := ht.fits
      split at h
      · rw [← Option.some.inj h]
        exact hfit
      · split at h
        · rw [← Option.some.inj h]
          exact hfit
        · simp at h

section Paths

theorem lookupField_mem {fs : List (Text × Json)} {k : Text} {v : Json}
    (h : lookupField k fs = some v) : (k, v) ∈ fs := by
  induction fs with
  | nil => simp [lookupField] at h
  | cons f rest ih =>
    simp only [lookupField] at h
    by_cases hk : k = f.1
    · rw [if_pos hk] at h
      rw [hk, ← Option.some.inj h]
      exact List.mem_cons_self
    · rw [if_neg hk] at h
      exact List.mem_cons_of_mem _ (ih h)

theorem ok_of_map {ε α β : Type} {e : Except ε α} {f : α → β} {r : β} (h : e.map f = .ok r) :
    ∃ a, e = .ok a ∧ f a = r := by
  cases e with
  | error _ => cases h
  | ok a => exact ⟨a, rfl, Except.ok.inj h⟩

end Paths

end Supercache.JsonX
