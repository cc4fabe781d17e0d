import Supercache.Wire

/-!
The shell's splitting of a line into arguments. The line is gone through byte by byte, though
white space is a notion of characters: two of the bytes that continue a character are the numbers
of white space, and a bare word that has one comes apart. Inside double quotes every string comes
through.
-/
namespace Supercache.Tokenize

open Wire

def isSpace (r : ℕ) : Bool :=
  if r ≤ 0xFF then [0x09, 0x0A, 0x0B, 0x0C, 0x0D, 0x20, 0x85, 0xA0].contains r
  else r == 0x1680 || 0x2000 ≤ r && r ≤ 0x200A ||
    [0x2028, 0x2029, 0x202F, 0x205F, 0x3000].contains r

def singleQuote : UInt8 := 0x27

def doubleQuote : UInt8 := 0x22

def backslash : UInt8 := 0x5C

structure State where
  args : List Bytes
  cur : Bytes
  inSingle : Bool
  inDouble : Bool
  escaped : Bool
  started : Bool

namespace State

def flush (s : State) : State :=
  if s.started then { s with args := s.args ++ [s.cur], cur := [], started := false } else s

def writeByte (s : State) (c : UInt8) : State := { s with cur := s.cur ++ [c], started := true }

end State

def step (s : State) (c : UInt8) : State :=
  if s.escaped then { s.writeByte c with escaped := false }
  else if c == backslash && !s.inSingle then { s with escaped := true, started := true }
  else if s.inSingle then if c = singleQuote then { s with inSingle := false } else s.writeByte c
  else if s.inDouble then if c = doubleQuote then { s with inDouble := false } else s.writeByte c
  else if c = singleQuote then { s with inSingle := true, started := true }
  else if c = doubleQuote then { s with inDouble := true, started := true }
  else if isSpace c.toNat then s.flush
  else s.writeByte c

def tokenize (line : Bytes) : Except String (List Bytes) :=
  let s := line.foldl step ⟨[], [], false, false, false, false⟩
  if s.escaped then .error "trailing backslash"
  else if s.inSingle || s.inDouble then .error "unclosed quote"
  else .ok s.flush.args

section Machine

variable {args : List Bytes} {cur text word : Bytes} {started : Bool} {c : UInt8}

def open_ (args : List Bytes) (cur : Bytes) (started : Bool) : State :=
  ⟨args, cur, false, false, false, started⟩

def quoted (args : List Bytes) (cur : Bytes) : State := ⟨args, cur, false, true, false, true⟩

def Reads (text word : Bytes) : Prop :=
  ∀ args, text.foldl step (open_ args [] false) = open_ args word true

theorem step_space : step (open_ args cur true) 0x20 = open_ (args ++ [cur]) [] false := by
  simp [step, open_, backslash, singleQuote, doubleQuote, isSpace, State.flush]

variable {texts words : List Bytes}

/-- Texts that are each read as a word are read as their words. -/
theorem foldl_intercalate (h : List.Forall₂ Reads texts words) (args : List Bytes) :
    (([0x20] : Bytes).intercalate texts).foldl step (open_ args [] false) =
      open_ (args ++ words.dropLast) (words.getLast?.getD []) !words.isEmpty := by
  induction h generalizing args with
  | nil => simp
  | @cons text word texts words hread hrest ih =>
    cases hrest with
    | nil => simpa using hread args
    | @cons text' word' texts words hread' hrest' =>
      rw [List.intercalate_cons_cons, List.foldl_append, List.foldl_append, hread, List.foldl_cons,
        List.foldl_nil, step_space, ih]
      simp [List.getLast?_cons]

theorem tokenize_of_reads (h : List.Forall₂ Reads texts words) :
    tokenize (([0x20] : Bytes).intercalate texts) = .ok words := by
  have hrun := foldl_intercalate h []
  unfold open_ at hrun
  unfold tokenize
  rw [hrun]
  cases words using List.reverseRecOn with
  | nil => rfl
  | append_singleton words word => simp [State.flush]

/-- A byte with no meaning of its own. -/
structure Bare (c : UInt8) : Prop where
  backslash : c ≠ backslash
  singleQuote : c ≠ singleQuote
  doubleQuote : c ≠ doubleQuote

theorem step_bare (hc : Bare c) : step (open_ args cur started) c =
    if isSpace c.toNat then (open_ args cur started).flush else open_ args (cur ++ [c]) true := by
  simp only [step, open_, beq_eq_false_iff_ne.mpr hc.backslash, hc.singleQuote, hc.doubleQuote,
    Bool.false_and, Bool.false_eq_true, if_false]
  rfl

theorem foldl_bare (hbare : ∀ c ∈ text, Bare c ∧ isSpace c.toNat = false) (args : List Bytes)
    (cur : Bytes) : text.foldl step (open_ args cur true) = open_ args (cur ++ text) true := by
  induction text generalizing cur with
  | nil => simp
  | cons c text ih =>
    obtain ⟨⟨hc, hspace⟩, hrest⟩ := List.forall_mem_cons.mp hbare
    rw [List.foldl_cons, step_bare hc, hspace, if_neg Bool.false_ne_true, ih hrest,
      List.append_assoc, List.singleton_append]

/-- A word without white space, as the loop sees it. -/
theorem reads_bare (hne : text ≠ []) (hbare : ∀ c ∈ text, Bare c ∧ isSpace c.toNat = false) :
    Reads text text := by
  intro args
  cases text with
  | nil => exact absurd rfl hne
  | cons c text =>
    obtain ⟨⟨hc, hspace⟩, hrest⟩ := List.forall_mem_cons.mp hbare
    rw [List.foldl_cons, step_bare hc, hspace, if_neg Bool.false_ne_true, foldl_bare hrest,
      List.nil_append, List.singleton_append]

/-- No argument has a byte that the loop takes for white space. -/
def Spaceless (s : State) : Prop :=
  (∀ arg ∈ s.args, ∀ c ∈ arg, isSpace c.toNat = false) ∧ ∀ c ∈ s.cur, isSpace c.toNat = false

theorem Spaceless.flush {s : State} (h : Spaceless s) : Spaceless s.flush := by
  unfold State.flush
  split
  · refine ⟨fun arg harg => ?_, List.forall_mem_nil _⟩
    rcases List.mem_append.mp harg with hold | hnew
    · exact h.1 arg hold
    · exact List.mem_singleton.mp hnew ▸ h.2
  · exact h

/-- A line without quotes and backslashes gives arguments without white space. -/
theorem spaceless_foldl (hbare : ∀ c ∈ text, Bare c) (h : Spaceless (open_ args cur started)) :
    ∃ args' cur' started', text.foldl step (open_ args cur started) = open_ args' cur' started' ∧
      Spaceless (open_ args' cur' started') := by
  induction text generalizing args cur started with
  | nil => exact ⟨args, cur, started, rfl, h⟩
  | cons c text ih =>
    obtain ⟨hc, hrest⟩ := List.forall_mem_cons.mp hbare
    rw [List.foldl_cons, step_bare hc]
    cases hspace : isSpace c.toNat with
    | true =>
      have hflush := h.flush
      rw [if_pos rfl]
      cases started with
      | true => exact ih hrest hflush
      | false => exact ih hrest h
    | false =>
      rw [if_neg Bool.false_ne_true]
      refine ih hrest ⟨h.1, fun b hb => ?_⟩
      rcases List.mem_append.mp hb with hold | hnew
      · exact h.2 b hold
      · exact List.mem_singleton.mp hnew ▸ hspace

theorem spaceless_of_tokenize {args : List Bytes} (hbare : ∀ c ∈ text, Bare c)
    (h : tokenize text = .ok args) : ∀ arg ∈ args, ∀ c ∈ arg, isSpace c.toNat = false := by
  have hstart : Spaceless (open_ [] [] false) := ⟨List.forall_mem_nil _, List.forall_mem_nil _⟩
  obtain ⟨args', cur', started', hrun, hspaceless⟩ := spaceless_foldl hbare hstart
  unfold open_ at hrun
  unfold tokenize at h
  rw [hrun] at h
  simp only [Bool.false_eq_true, if_false, Bool.or_self] at h
  cases h
  exact hspaceless.flush.1

end Machine

section Texts

def utf8 (text : List Char) : Bytes := text.flatMap String.utf8EncodeChar

structure Plain (c : Char) : Prop where
  space : isSpace c.toNat = false
  backslash : c.toNat ≠ backslash.toNat
  singleQuote : c.toNat ≠ singleQuote.toNat
  doubleQuote : c.toNat ≠ doubleQuote.toNat

structure Word where
  chars : List Char
  ne_nil : chars ≠ []
  plain : ∀ c ∈ chars, Plain c

def wordLine (words : List Word) : List Char := [' '].intercalate (words.map Word.chars)

def escape (single : Bool) (c : Char) : List Char :=
  if c.toNat = backslash.toNat ∨ c.toNat = doubleQuote.toNat ∨
      single = true ∧ c.toNat = singleQuote.toNat then [Char.ofNat 0x5C, c]
  else [c]

def quote (single : Bool) (text : List Char) : List Char :=
  Char.ofNat 0x22 :: (text.flatMap (escape single) ++ [Char.ofNat 0x22])

def quotedLine (single : Bool) (texts : List (List Char)) : List Char :=
  [' '].intercalate (texts.map (quote single))

theorem utf8_append (a b : List Char) : utf8 (a ++ b) = utf8 a ++ utf8 b := List.flatMap_append

theorem utf8_intercalate (texts : List (List Char)) :
    utf8 ([' '].intercalate texts) = ([0x20] : Bytes).intercalate (texts.map utf8) := by
  induction texts with
  | nil => rfl
  | cons text texts ih =>
    cases texts with
    | nil => simp
    | cons text' texts =>
      rw [List.intercalate_cons_cons, utf8_append, utf8_append, ih]
      simp only [List.map_cons, List.intercalate_cons_cons]
      rfl

variable {b : UInt8} {c : Char} {args : List Bytes}

/-- A byte below 0x80 stands for itself. -/
theorem ascii_of_mem (hb : b ∈ String.utf8EncodeChar c) (hlow : b.toNat < 0x80) :
    c.toNat = b.toNat ∧ String.utf8EncodeChar c = [b] := by
  have hval : c.val.toNat = c.toNat := rfl
  unfold String.utf8EncodeChar at hb ⊢
  simp only [hval] at hb ⊢
  by_cases hascii : c.toNat ≤ 127
  · rw [if_pos hascii] at hb
    rw [List.mem_singleton] at hb
    subst hb
    rw [if_pos hascii]
    refine ⟨?_, rfl⟩
    rw [UInt8.toNat_ofNat']
    omega
  · rw [if_neg hascii] at hb
    -- all bytes of a longer encoding are above
    exfalso
    have hhigh : ∀ n : ℕ, 0x80 ≤ n → n < 0x100 → 0x80 ≤ (UInt8.ofNat n).toNat := by
      intro n hn hlt
      rw [UInt8.toNat_ofNat']
      omega
    split at hb
    · simp only [List.mem_cons, List.not_mem_nil, or_false] at hb
      rcases hb with rfl | rfl <;> exact absurd hlow (not_lt.mpr (hhigh _ (by omega) (by omega)))
    · split at hb
      · simp only [List.mem_cons, List.not_mem_nil, or_false] at hb
        rcases hb with rfl | rfl | rfl <;>
          exact absurd hlow (not_lt.mpr (hhigh _ (by omega) (by omega)))
      · simp only [List.mem_cons, List.not_mem_nil, or_false] at hb
        rcases hb with rfl | rfl | rfl | rfl <;>
          exact absurd hlow (not_lt.mpr (hhigh _ (by omega) (by omega)))

theorem isSpace_of_high (hhigh : 0x80 ≤ b.toNat) :
    isSpace b.toNat = true ↔ b = 0x85 ∨ b = 0xA0 := by
  have hlt := b.toNat_lt
  have hsame : ∀ c : UInt8, b = c ↔ b.toNat = c.toNat := fun c => UInt8.toNat_inj.symm
  rw [isSpace, if_pos (by omega), hsame, hsame]
  simp only [List.contains_cons, List.contains_nil, Bool.or_eq_true, beq_iff_eq, Bool.or_false]
  have h85 : (0x85 : UInt8).toNat = 0x85 := rfl
  have hA0 : (0xA0 : UInt8).toNat = 0xA0 := rfl
  omega

/-- The bytes of a plain character mean nothing, except that two of them count as white space. -/
theorem bare_of_plain (hc : Plain c) (hb : b ∈ String.utf8EncodeChar c) :
    Bare b ∧ (isSpace b.toNat = true ↔ b = 0x85 ∨ b = 0xA0) := by
  by_cases hlow : b.toNat < 0x80
  · obtain ⟨heq, -⟩ := ascii_of_mem hb hlow
    refine ⟨⟨?_, ?_, ?_⟩, ?_⟩
    · rintro rfl
      exact hc.backslash heq
    · rintro rfl
      exact hc.singleQuote heq
    · rintro rfl
      exact hc.doubleQuote heq
    · rw [← heq, hc.space]
      refine ⟨fun h => absurd h Bool.false_ne_true, ?_⟩
      rintro (rfl | rfl) <;> exact absurd hlow (by decide)
  · refine ⟨⟨?_, ?_, ?_⟩, isSpace_of_high (not_lt.mp hlow)⟩ <;>
      rintro rfl <;> exact absurd (by decide) hlow

theorem step_writes {cur : Bytes} (hback : b ≠ backslash) (hquote : b ≠ doubleQuote) :
    step (quoted args cur) b = quoted args (cur ++ [b]) := by
  simp only [step, quoted, beq_eq_false_iff_ne.mpr hback, hquote, Bool.false_and,
    Bool.false_eq_true, if_false, if_true]
  rfl

theorem foldl_writes {text : Bytes} (h : ∀ b ∈ text, b ≠ backslash ∧ b ≠ doubleQuote) (cur : Bytes)
    : text.foldl step (quoted args cur) = quoted args (cur ++ text) := by
  induction text generalizing cur with
  | nil => simp
  | cons b text ih =>
    obtain ⟨hb, hrest⟩ := List.forall_mem_cons.mp h
    rw [List.foldl_cons, step_writes hb.1 hb.2, ih hrest, List.append_assoc, List.singleton_append]

/-- Inside double quotes an escaped character gives the character. -/
theorem foldl_escape (single : Bool) (args : List Bytes) (cur : Bytes) (c : Char) :
    (utf8 (escape single c)).foldl step (quoted args cur) =
      quoted args (cur ++ String.utf8EncodeChar c) := by
  unfold escape
  split
  next hc =>
    have hlow : c.toNat < 0x80 := by
      have hb : backslash.toNat = 0x5C := rfl
      have hd : doubleQuote.toNat = 0x22 := rfl
      have hs : singleQuote.toNat = 0x27 := rfl
      omega
    have henc : String.utf8EncodeChar c = [UInt8.ofNat c.toNat] := by
      have hle : c.val.toNat ≤ 0x7f := Nat.le_of_lt_succ hlow
      rw [String.utf8EncodeChar, if_pos hle]
      rfl
    have hback : String.utf8EncodeChar (Char.ofNat 0x5C) = [backslash] := by decide
    simp only [utf8, List.flatMap_cons, List.flatMap_nil, henc, hback, List.append_nil]
    rfl
  next hc =>
    have hutf : utf8 [c] = String.utf8EncodeChar c := by simp [utf8]
    rw [hutf]
    refine foldl_writes (fun b hb => ?_) cur
    by_cases hlow : b.toNat < 0x80
    · obtain ⟨heq, -⟩ := ascii_of_mem hb hlow
      refine ⟨?_, ?_⟩
      · rintro rfl
        exact hc (Or.inl heq)
      · rintro rfl
        exact hc (Or.inr (Or.inl heq))
    · refine ⟨?_, ?_⟩ <;> rintro rfl <;> exact absurd (by decide) hlow

theorem foldl_escapes (single : Bool) (args : List Bytes) (text : List Char) (cur : Bytes) :
    (utf8 (text.flatMap (escape single))).foldl step (quoted args cur) =
      quoted args (cur ++ utf8 text) := by
  induction text generalizing cur with
  | nil => simp [utf8]
  | cons c text ih =>
    rw [List.flatMap_cons, utf8_append, List.foldl_append, foldl_escape, ih, List.append_assoc]
    rfl

theorem reads_quote (single : Bool) (text : List Char) :
    Reads (utf8 (quote single text)) (utf8 text) := by
  intro args
  have hquote : utf8 [Char.ofNat 0x22] = [doubleQuote] := by decide
  have hopen : [doubleQuote].foldl step (open_ args [] false) = quoted args [] := rfl
  have hclose : ∀ cur, [doubleQuote].foldl step (quoted args cur) = open_ args cur true :=
    fun _ => rfl
  rw [quote, ← List.singleton_append, utf8_append, utf8_append, hquote, List.foldl_append,
    List.foldl_append, hopen, foldl_escapes, hclose, List.nil_append]

theorem bare_intercalate {texts : List Bytes} (h : ∀ text ∈ texts, ∀ b ∈ text, Bare b) :
    ∀ b ∈ ([0x20] : Bytes).intercalate texts, Bare b := by
  induction texts with
  | nil => exact List.forall_mem_nil _
  | cons text texts ih =>
    obtain ⟨htext, hrest⟩ := List.forall_mem_cons.mp h
    cases texts with
    | nil => simpa using htext
    | cons text' texts =>
      rw [List.intercalate_cons_cons]
      intro b hb
      rcases List.mem_append.mp hb with hb | hb
      · rcases List.mem_append.mp hb with hb | hb
        · exact htext b hb
        · rw [List.mem_singleton] at hb
          subst hb
          exact ⟨by decide, by decide, by decide⟩
      · exact ih hrest b hb

variable (words : List Word)

theorem utf8_wordLine : utf8 (wordLine words) =
    ([0x20] : Bytes).intercalate (words.map fun w => utf8 w.chars) := by
  rw [wordLine, utf8_intercalate, List.map_map]
  rfl

theorem Word.bare (w : Word) : ∀ b ∈ utf8 w.chars,
    Bare b ∧ (isSpace b.toNat = true ↔ b = 0x85 ∨ b = 0xA0) := by
  intro b hb
  obtain ⟨c, hc, hbc⟩ := List.mem_flatMap.mp hb
  exact bare_of_plain (w.plain c hc) hbc

theorem Word.utf8_ne_nil (w : Word) : utf8 w.chars ≠ [] := by
  obtain ⟨c, rest, hc⟩ := List.exists_cons_of_ne_nil w.ne_nil
  have hlen : 0 < (String.utf8EncodeChar c).length := by
    rw [String.length_utf8EncodeChar]
    exact Char.utf8Size_pos c
  rw [hc, utf8, List.flatMap_cons]
  exact List.append_ne_nil_of_left_ne_nil (List.ne_nil_of_length_pos hlen) _

end Texts

/-- Bare words come back as they are exactly if none of them has a byte 0x85 or 0xA0, and quoted
texts always do. -/
theorem tokenize_words_iff (words : List Word) (single : Bool) (texts : List (List Char)) :
    (tokenize (utf8 (wordLine words)) = .ok (words.map fun w => utf8 w.chars) ↔
      ∀ w ∈ words, 0x85 ∉ utf8 w.chars ∧ 0xA0 ∉ utf8 w.chars) ∧
    tokenize (utf8 (quotedLine single texts)) = .ok (texts.map utf8) := by
  refine ⟨⟨fun h w hw => ?_, fun h => ?_⟩, ?_⟩
  · have hbare : ∀ b ∈ utf8 (wordLine words), Bare b := by
      rw [utf8_wordLine]
      refine bare_intercalate (List.forall_mem_map.mpr fun w _ b hb => (w.bare b hb).1)
    have hspaceless := spaceless_of_tokenize hbare h (utf8 w.chars) (List.mem_map_of_mem hw)
    have hnot : ∀ b ∈ utf8 w.chars, ¬ (b = 0x85 ∨ b = 0xA0) := by
      intro b hb
      rw [← (w.bare b hb).2, hspaceless b hb]
      exact Bool.false_ne_true
    exact ⟨fun hmem => hnot _ hmem (Or.inl rfl), fun hmem => hnot _ hmem (Or.inr rfl)⟩
  · rw [utf8_wordLine]
    refine tokenize_of_reads (List.forall₂_same.mpr (List.forall_mem_map.mpr fun w hw => ?_))
    refine reads_bare w.utf8_ne_nil fun b hb => ⟨(w.bare b hb).1, ?_⟩
    rw [Bool.eq_false_iff, Ne, (w.bare b hb).2]
    rintro (rfl | rfl)
    · exact (h w hw).1 hb
    · exact (h w hw).2 hb
  · rw [quotedLine, utf8_intercalate, List.map_map]
    exact tokenize_of_reads
      (List.forall₂_map_left_iff.mpr (List.forall₂_map_right_iff.mpr
        (List.forall₂_same.mpr fun text _ => reads_quote single text)))

def accented : Word where
  chars := [Char.ofNat 0xE0]
  ne_nil := by decide
  plain := List.forall_mem_singleton.mpr ⟨by decide, by decide, by decide, by decide⟩

/-- Its second byte is taken for a space and lost. -/
theorem accented_word_split :
    utf8 accented.chars = [0xC3, 0xA0] ∧
      tokenize (utf8 (wordLine [accented])) = .ok [[0xC3]] ∧
      tokenize (utf8 (wordLine [accented])) ≠ .ok [utf8 accented.chars] := by
  have hsplit : tokenize (utf8 (wordLine [accented])) = .ok [[0xC3]] := rfl
  refine ⟨by decide, hsplit, fun h => ?_⟩
  cases hsplit.symm.trans h

end Supercache.Tokenize
