import Supercache.Cursor
import Supercache.Decimal
import Supercache.Snapshots

/-!
The ids of a stream. They are ordered by milliseconds, then by sequence number, and
the log remembers the last one it gave out, whatever happened to its entry. So a new
id is above all earlier ones, until the sequence number of one millisecond wraps.
-/
namespace Supercache.Stream

open Wire

section Ids

abbrev Id := ℕ ×ₗ ℕ

def Entry.id (e : Entry) : Id := toLex (e.ms, e.seq)

def Log.last (l : Log) : Id := toLex (l.lastMs, l.lastSeq)

theorem idLt_iff (a b : ℕ × ℕ) : idLt a b = true ↔ toLex a < toLex b := by
  rw [Prod.Lex.toLex_lt_toLex]
  simp [idLt]

theorem parseUint_decimal {n : ℕ} (h : n < 2 ^ 64) : parseUint (decimal n) = some n := by
  have hdigits : (decimal n).all isDigit = true := by
    rw [List.all_eq_true]
    intro c hc
    obtain ⟨hlo, hhi⟩ := Decimal.mem_numeral hc
    simp [isDigit, hlo, hhi]
  have hvalue : (decimal n).foldl (fun n c => n * 10 + (c.toNat - 0x30)) 0 = n :=
    Decimal.value_numeral n
  have hne : decimal n ≠ [] := Decimal.numeral_ne_nil n
  rw [parseUint, if_neg (by simp [hne, hdigits]), hvalue]
  exact if_pos h

theorem dash_notMem_decimal (n : ℕ) : 0x2D ∉ decimal n := by
  intro h
  exact absurd (Decimal.mem_numeral h).1 (by decide)

/-- An id is read back from its text. -/
theorem parseID_formatID {ms seq : ℕ} (hms : ms < 2 ^ 64) (hseq : seq < 2 ^ 64) :
    parseID (formatID ms seq) = some (ms, seq) := by
  have hdigits : ∀ c ∈ decimal ms, (c != 0x2D) = true := by
    intro c hc
    rw [bne_iff_ne]
    rintro rfl
    exact dash_notMem_decimal ms hc
  have hdrop : (formatID ms seq).dropWhile (· != 0x2D) = 0x2D :: decimal seq := by
    rw [formatID, List.dropWhile_append_of_pos hdigits]
    rfl
  have htake : (formatID ms seq).takeWhile (· != 0x2D) = decimal ms := by
    rw [formatID, List.takeWhile_append_of_pos hdigits]
    simp
  simp only [parseID, hdrop, htake, parseUint_decimal hms, parseUint_decimal hseq]

end Ids

section Ordered

/-- The entries are in the order of their ids, up to the last id given out. -/
structure Log.Ordered (l : Log) : Prop where
  ascending : Cursor.Ascending Entry.id l.entries
  le_last : ∀ e ∈ l.entries, e.id ≤ l.last

variable {l : Log}

theorem ordered_new : new.Ordered := ⟨List.Pairwise.nil, List.forall_mem_nil _⟩

/-- The next id counts on within the last millisecond, or starts a later one. -/
theorem Log.mint_cases (l : Log) (now : ℕ) :
    l.mint now = (l.lastMs, (l.lastSeq + 1) % 2 ^ 64) ∨ l.lastMs < now ∧ l.mint now = (now, 0) := by
  rcases Nat.lt_trichotomy now l.lastMs with hlt | rfl | hgt
  · simp [Log.mint, hlt]
  · simp [Log.mint]
  · have hne : now ≠ l.lastMs := by omega
    simp [Log.mint, hgt, hgt.le.not_gt, hne]

/-- The next id is above the last one, unless its sequence number wraps. -/
theorem Log.last_lt_mint (l : Log) (now : ℕ) (h : l.lastSeq + 1 < 2 ^ 64) :
    l.last < toLex (l.mint now) := by
  rw [Log.last, Prod.Lex.toLex_lt_toLex]
  rcases l.mint_cases now with heq | ⟨hlt, heq⟩
  · rw [heq, Nat.mod_eq_of_lt h]
    exact .inr ⟨rfl, Nat.lt_succ_self _⟩
  · rw [heq]
    exact .inl hlt

theorem Log.mint_seq_le (l : Log) (now : ℕ) : (l.mint now).2 ≤ l.lastSeq + 1 := by
  rcases l.mint_cases now with heq | ⟨-, heq⟩
  · rw [heq]
    exact Nat.mod_le _ _
  · rw [heq]
    exact Nat.zero_le _

/-- Entries were added above the last id, and some may have been removed. -/
structure Log.Leads (l : Log) (added : List Entry) (l' : Log) : Prop where
  entries : l'.entries ⊆ l.entries ++ added
  fresh : ∀ e ∈ added, l.last < e.id
  last_le : l.last ≤ l'.last

theorem Log.Leads.refl (l : Log) : l.Leads [] l :=
  ⟨fun _ he => List.mem_append_left [] he, List.forall_mem_nil _, le_rfl⟩

variable {l' l₁ l₂ l₃ : Log} {payload id : Bytes} {now : ℕ} {autoTrim : ℤ}

theorem Log.Leads.trans {added added' : List Entry} (h : l₁.Leads added l₂)
    (h' : l₂.Leads added' l₃) : l₁.Leads (added ++ added') l₃ := by
  refine ⟨fun e he => ?_, fun e he => ?_, h.last_le.trans h'.last_le⟩
  · rcases List.mem_append.mp (h'.entries he) with hold | hnew
    · rw [← List.append_assoc]
      exact List.mem_append_left _ (h.entries hold)
    · exact List.mem_append_right _ (List.mem_append_right _ hnew)
  · rcases List.mem_append.mp he with hold | hnew
    · exact h.fresh e hold
    · exact lt_of_le_of_lt h.last_le (h'.fresh e hnew)

structure Log.Trims (l l' : Log) : Prop where
  lastMs : l'.lastMs = l.lastMs
  lastSeq : l'.lastSeq = l.lastSeq
  sublist : l'.entries.Sublist l.entries

theorem Log.Trims.refl (l : Log) : l.Trims l := ⟨rfl, rfl, List.Sublist.refl _⟩

theorem Log.Trims.trans (h : l₁.Trims l₂) (h' : l₂.Trims l₃) : l₁.Trims l₃ :=
  ⟨h'.lastMs.trans h.lastMs, h'.lastSeq.trans h.lastSeq, h'.sublist.trans h.sublist⟩

theorem Log.trims_trim (l : Log) (maxLen : ℤ) : l.Trims (l.trim maxLen) := by
  unfold Log.trim
  split
  · exact .refl l
  · exact ⟨rfl, rfl, List.drop_sublist _ _⟩

theorem Log.trims_ite (l : Log) (c : Prop) [Decidable c] (maxLen : ℤ) :
    l.Trims (if c then l.trim maxLen else l) := by
  split
  · exact l.trims_trim maxLen
  · exact .refl l

theorem Log.trims_del (l : Log) (ms seq : ℕ) : l.Trims (l.del ms seq) :=
  ⟨rfl, rfl, List.filter_sublist⟩

theorem Log.Trims.last_eq (h : l.Trims l') : l'.last = l.last := by
  rw [Log.last, Log.last, h.lastMs, h.lastSeq]

theorem Log.Trims.ordered (h : l.Trims l') (ho : l.Ordered) : l'.Ordered where
  ascending := List.Pairwise.sublist h.sublist ho.ascending
  le_last e he := by
    rw [h.last_eq]
    exact ho.le_last e (h.sublist.subset he)

theorem Log.Trims.leads (h : l.Trims l') : l.Leads [] l' :=
  ⟨fun _ he => List.mem_append_left [] (h.sublist.subset he), List.forall_mem_nil _, h.last_eq.ge⟩

def Log.pushed (l : Log) (payload : Bytes) (now : ℕ) : Log where
  lastMs := (l.mint now).1
  lastSeq := (l.mint now).2
  entries := l.entries ++ [⟨(l.mint now).1, (l.mint now).2, payload⟩]

/-- An append adds the entry before it trims. -/
theorem Log.trims_append (h : l.append payload now autoTrim = some (id, l')) :
    id = formatID (l.mint now).1 (l.mint now).2 ∧ (l.pushed payload now).Trims l' := by
  unfold Log.append at h
  split at h
  · simp at h
  · rw [Option.some.injEq, Prod.mk.injEq] at h
    obtain ⟨hid, hl⟩ := h
    refine ⟨hid.symm, ?_⟩
    rw [← hl]
    exact ((l.pushed payload now).trims_ite (0 < autoTrim) autoTrim).trans (Log.trims_ite _ _ _)

/-- One append, as long as the sequence number does not wrap. -/
theorem Log.Ordered.append (ho : l.Ordered) (hseq : l.lastSeq + 1 < 2 ^ 64)
    (h : l.append payload now autoTrim = some (id, l')) :
    l'.Ordered ∧ l.Leads [⟨(l.mint now).1, (l.mint now).2, payload⟩] l' ∧ l.last < l'.last ∧
      l'.lastSeq ≤ l.lastSeq + 1 := by
  obtain ⟨-, htrims⟩ := l.trims_append h
  have hlt := l.last_lt_mint now hseq
  have hpushed : (l.pushed payload now).Ordered := by
    constructor
    · refine List.pairwise_append.mpr ⟨ho.ascending, List.pairwise_singleton _ _, ?_⟩
      intro e he e' he'
      rw [List.mem_singleton.mp he']
      exact lt_of_le_of_lt (ho.le_last e he) hlt
    · intro e he
      rcases List.mem_append.mp he with hold | hnew
      · exact (lt_of_le_of_lt (ho.le_last e hold) hlt).le
      · rw [List.mem_singleton.mp hnew]
        exact le_rfl
  have hlast : l.last < l'.last := by
    rw [htrims.last_eq]
    exact hlt
  refine ⟨htrims.ordered hpushed, ⟨htrims.sublist.subset, ?_, hlast.le⟩, hlast, ?_⟩
  · exact List.forall_mem_singleton.mpr hlt
  · rw [htrims.lastSeq]
    exact l.mint_seq_le now

end Ordered

section Runs

inductive LogOp where
  | append (payload : Bytes) (now : ℕ) (autoTrim : ℤ)
  | del (ms seq : ℕ)
  | trim (maxLen : ℤ)
  | codec

def LogOp.Fits : LogOp → Prop
  | append payload now _ => payload.length < 2 ^ 64 ∧ now < 2 ^ 64
  | _ => True

def LogOp.isAppend : LogOp → Bool
  | append _ _ _ => true
  | _ => false

def Log.step (l : Log) : LogOp → Option (Option Bytes × Log)
  | .append payload now autoTrim =>
    match l.append payload now autoTrim with
    | none => some (none, l)
    | some (id, l') => some (some id, l')
  | .del ms seq => some (none, l.del ms seq)
  | .trim maxLen => some (none, l.trim maxLen)
  | .codec => (decodeSnapshot l.encode).map fun l' => (none, l')

def Log.run : Log → List LogOp → Option (List Bytes × Log)
  | l, [] => some ([], l)
  | l, op :: ops =>
    match l.step op with
    | none => none
    | some (id, l') => (Log.run l' ops).map fun r => (id.toList ++ r.1, r.2)

structure Stepped (l : Log) (grown : ℕ) (id : Option Bytes) (l' : Log) : Prop where
  valid : l'.Valid
  ordered : l'.Ordered
  lastSeq_le : l'.lastSeq ≤ l.lastSeq + grown
  last_le : l.last ≤ l'.last
  fresh : ∀ b ∈ id, parseID b = some (l'.lastMs, l'.lastSeq) ∧ l.last < l'.last

variable {l : Log}

theorem Log.Trims.stepped {l' : Log} (h : l.Trims l') (hv : l'.Valid) (ho : l.Ordered) :
    Stepped l 0 none l' :=
  ⟨hv, h.ordered ho, h.lastSeq.le, h.last_eq.ge, fun _ => nofun⟩

/-- One step on a log with room. -/
theorem Log.step_spec (hv : l.Valid) (ho : l.Ordered) {op : LogOp} (hfits : op.Fits)
    (hroom : l.lastSeq + op.isAppend.toNat < 2 ^ 64) :
    ∃ id l', l.step op = some (id, l') ∧ Stepped l op.isAppend.toNat id l' := by
  cases op with
  | append payload now autoTrim =>
    cases happend : l.append payload now autoTrim with
    | none =>
      refine ⟨none, l, by simp only [Log.step, happend], ?_⟩
      exact ⟨hv, ho, Nat.le_add_right _ _, le_rfl, fun _ => nofun⟩
    | some r =>
      obtain ⟨id, l'⟩ := r
      obtain ⟨hord, -, hlt, hseq⟩ := ho.append hroom happend
      obtain ⟨hid, htrims⟩ := l.trims_append happend
      have hvalid := hv.append hfits.2 hfits.1 happend
      refine ⟨some id, l', by simp only [Log.step, happend], hvalid, hord, hseq, hlt.le, ?_⟩
      intro b hb
      rw [← Option.some.inj hb, hid, htrims.lastMs, htrims.lastSeq]
      obtain ⟨hms, hseq⟩ := hv.toFits.mint hfits.2
      exact ⟨parseID_formatID hms hseq, hlt⟩
  | del ms seq => exact ⟨none, _, rfl, (l.trims_del ms seq).stepped (hv.del ms seq) ho⟩
  | trim maxLen => exact ⟨none, _, rfl, (l.trims_trim maxLen).stepped (hv.trim maxLen) ho⟩
  | codec =>
    refine ⟨none, l, ?_, (Log.Trims.refl l).stepped hv ho⟩
    rw [Log.step, decodeSnapshot_encode hv]
    rfl

/-- A whole run, with its ids in order. -/
theorem Log.run_spec (hv : l.Valid) (ho : l.Ordered) {ops : List LogOp}
    (hfits : ∀ op ∈ ops, op.Fits) (hroom : l.lastSeq + ops.countP LogOp.isAppend < 2 ^ 64) :
    ∃ (ids : List Bytes) (l' : Log) (keys : List (ℕ × ℕ)), l.run ops = some (ids, l') ∧
      l'.Valid ∧ l'.Ordered ∧
      ids.map parseID = keys.map some ∧ keys.Pairwise (fun a b => toLex a < toLex b) ∧
      ∀ k ∈ keys, l.last < toLex k := by
  induction ops generalizing l with
  | nil => exact ⟨[], l, [], rfl, hv, ho, rfl, List.Pairwise.nil, List.forall_mem_nil _⟩
  | cons op ops ih =>
    obtain ⟨hop, hops⟩ := List.forall_mem_cons.mp hfits
    have hcount : (op :: ops).countP LogOp.isAppend =
        ops.countP LogOp.isAppend + op.isAppend.toNat := by
      rw [List.countP_cons]
      cases op.isAppend <;> rfl
    rw [hcount] at hroom
    obtain ⟨id, l₁, hstep, h⟩ := Log.step_spec hv ho hop (by omega)
    have hseq := h.lastSeq_le
    obtain ⟨ids, l', keys, hrun, hv', ho', hkeys, hasc, habove⟩ :=
      ih h.valid h.ordered hops (by omega)
    have hlater : ∀ k ∈ keys, l.last < toLex k := fun k hk => lt_of_le_of_lt h.last_le (habove k hk)
    cases id with
    | none =>
      exact ⟨ids, l', keys, by simp [Log.run, hstep, hrun], hv', ho', hkeys, hasc, hlater⟩
    | some b =>
      obtain ⟨hparse, hlt⟩ := h.fresh b rfl
      refine ⟨b :: ids, l', (l₁.lastMs, l₁.lastSeq) :: keys, by simp [Log.run, hstep, hrun],
        hv', ho',
        ?_, List.pairwise_cons.mpr ⟨habove, hasc⟩, List.forall_mem_cons.mpr ⟨hlt, hlater⟩⟩
      rw [List.map_cons, List.map_cons, hparse, hkeys]

/-- The ids that one log returns only ever increase, whatever the clock does and
whatever is removed, and the entries stay in their order. -/
theorem Log.run_increasing (ops : List LogOp) (hfits : ∀ op ∈ ops, op.Fits)
    (hfew : ops.countP LogOp.isAppend < 2 ^ 64 - 1) :
    ∃ ids l, new.run ops = some (ids, l) ∧
      (∃ keys : List (ℕ × ℕ), ids.map parseID = keys.map some ∧
        keys.Pairwise fun a b => toLex a < toLex b) ∧
      (l.entries.Pairwise fun a b => toLex (a.ms, a.seq) < toLex (b.ms, b.seq)) ∧
      (∀ e ∈ l.entries, toLex (e.ms, e.seq) ≤ toLex (l.lastMs, l.lastSeq)) ∧
      l.entries.length ≤ 4096 := by
  have hroom : new.lastSeq + ops.countP LogOp.isAppend < 2 ^ 64 := by
    rw [show new.lastSeq = 0 from rfl]
    omega
  obtain ⟨ids, l, keys, hrun, hv, ho, hkeys, hasc, -⟩ :=
    Log.run_spec Log.Valid.new ordered_new hfits hroom
  exact ⟨ids, l, hrun, ⟨keys, hkeys, hasc⟩, ho.ascending, ho.le_last, hv.length⟩

/-- The clock goes back between two appends. -/
theorem Log.run_increasing_backwards :
    ∃ ids l, new.run [.append [] 7 0, .append [1] 5 1, .del 7 1, .codec, .append [2] 6 0] =
        some (ids, l) ∧
      (∃ keys : List (ℕ × ℕ), ids.map parseID = keys.map some ∧
        keys.Pairwise fun a b => toLex a < toLex b) ∧
      (l.entries.Pairwise fun a b => toLex (a.ms, a.seq) < toLex (b.ms, b.seq)) ∧
      (∀ e ∈ l.entries, toLex (e.ms, e.seq) ≤ toLex (l.lastMs, l.lastSeq)) ∧
      l.entries.length ≤ 4096 :=
  Log.run_increasing [.append [] 7 0, .append [1] 5 1, .del 7 1, .codec, .append [2] 6 0]
    (by simp [LogOp.Fits]) (by decide)

end Runs

end Supercache.Stream
