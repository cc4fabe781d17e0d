import Supercache.Slices
import Supercache.SnapshotCodecs

/-!
The snapshots of a stream log and of a vector set. Both decoders are given with their cuts, and
none of them goes outside the input. A log or a set is read back from its snapshot, the
snapshot of a set has at most the size that is computed for it, and nothing may follow a
snapshot that is accepted.
-/
namespace Supercache

open Wire FloatBits Slices ByteMap

namespace Stream

def errBadBlob : String := "stream: bad blob"

def entriesSlices : ℕ → Bytes → Checked (List Entry)
  | 0, p => if p.length ≠ 0 then throw errBadBlob else pure []
  | n + 1, p => do
    let (ms, p) ← readUvarint errBadBlob p
    let (seq, p) ← readUvarint errBadBlob p
    let (payload, p) ← readItem errBadBlob errBadBlob p
    let es ← entriesSlices n p
    pure (⟨ms, seq, payload⟩ :: es)

def decodeSnapshotSlices (blob : Bytes) : Checked Log :=
  if blob.length < 1 then throw errBadBlob
  else do
    let c ← index blob 0
    if c ≠ prefixSnapshot then throw errBadBlob
    else do
      let p ← tail blob 1
      let (lastMs, p) ← readUvarint errBadBlob p
      let (lastSeq, p) ← readUvarint errBadBlob p
      let (n, p) ← readUvarint errBadBlob p
      if hardCap < n then throw errBadBlob
      else do
        let es ← entriesSlices n p
        pure ⟨lastMs, lastSeq, es⟩

theorem readEntry_eq (b : Bytes) : readEntry b = (uvarint b).bind fun x =>
    (uvarint x.2).bind fun y => (blob y.2).bind fun z => some (⟨x.1, y.1, z.1⟩, z.2) := by
  unfold readEntry
  cases uvarint b with
  | none => rfl
  | some x =>
    cases hy : uvarint x.2 with
    | none => simp [hy]
    | some y => cases hz : blob y.2 <;> simp [hy, hz]

theorem readEntries_succ (n : ℕ) (b : Bytes) : readEntries (n + 1) b = (uvarint b).bind fun x =>
    (uvarint x.2).bind fun y => (blob y.2).bind fun z => (readEntries n z.2).bind fun es =>
      some (⟨x.1, y.1, z.1⟩ :: es) := by
  have hstep : readEntries (n + 1) b =
      (readEntry b).bind fun p => (readEntries n p.2).bind fun es => some (p.1 :: es) := by
    rw [readEntries]
    cases readEntry b with
    | none => rfl
    | some p => exact Option.map_eq_bind
  rw [hstep, readEntry_eq]
  simp only [Option.bind_assoc, Option.bind_some]

theorem decodeSnapshot_cons (c : UInt8) (b : Bytes) :
    decodeSnapshot (c :: b) = if c ≠ prefixSnapshot then none else (uvarint b).bind fun x =>
      (uvarint x.2).bind fun y => (uvarint y.2).bind fun z => if hardCap < z.1 then none
        else (readEntries z.1 z.2).bind fun es => some ⟨x.1, y.1, es⟩ := by
  rw [decodeSnapshot]
  congr 1
  cases uvarint b with
  | none => rfl
  | some x =>
    cases hy : uvarint x.2 with
    | none => simp [hy]
    | some y =>
      cases hz : uvarint y.2 with
      | none => simp [hy, hz]
      | some z => simp [hy, hz, Option.map_eq_bind]

theorem ends_entriesSlices (n : ℕ) (p : Bytes) : Ends (entriesSlices n p) (readEntries n p) := by
  induction n generalizing p with
  | zero =>
    cases p with
    | nil => exact ends_pure []
    | cons c p => exact ends_throw errBadBlob
  | succ n ih =>
    rw [readEntries_succ]
    refine (ends_readUvarint _ p).bind fun x _ => (ends_readUvarint _ x.2).bind fun y _ => ?_
    exact (ends_readItem _ _ y.2).bind fun z _ => (ih z.2).bind fun es _ => ends_pure _

theorem ends_decodeSnapshotSlices (b : Bytes) :
    Ends (decodeSnapshotSlices b) (decodeSnapshot b) := by
  unfold decodeSnapshotSlices
  cases b with
  | nil => exact ends_throw errBadBlob
  | cons c b =>
    rw [if_neg (by simp), decodeSnapshot_cons]
    refine (ends_index rfl).then (ends_ite fun _ => (ends_tail (by simp)).then ?_)
    refine (ends_readUvarint _ _).bind fun x _ => (ends_readUvarint _ _).bind fun y _ => ?_
    refine (ends_readUvarint _ _).bind fun z _ => ends_ite fun _ => ?_
    exact (ends_entriesSlices _ _).bind fun es _ => ends_pure _

variable {b t : Bytes}

/-- Nothing may follow the last entry. -/
theorem readEntries_append {n : ℕ} {es : List Entry} (h : readEntries n b = some es) (ht : t ≠ []) :
    readEntries n (b ++ t) = none := by
  induction n generalizing b es with
  | zero =>
    have hne : b ++ t ≠ [] := fun hnil => ht (List.append_eq_nil_iff.mp hnil).2
    rw [readEntries, if_neg hne]
  | succ n ih =>
    rw [readEntries_succ] at h
    obtain ⟨x, hx, h⟩ := Option.bind_eq_some_iff.mp h
    obtain ⟨y, hy, h⟩ := Option.bind_eq_some_iff.mp h
    obtain ⟨z, hz, h⟩ := Option.bind_eq_some_iff.mp h
    obtain ⟨es, hes, -⟩ := Option.bind_eq_some_iff.mp h
    rw [readEntries_succ, uvarint_append hx, Option.bind_some, uvarint_append hy, Option.bind_some,
      blob_append hz, Option.bind_some, ih hes]
    rfl

theorem decodeSnapshot_append {l : Log} (h : decodeSnapshot b = some l) (ht : t ≠ []) :
    decodeSnapshot (b ++ t) = none := by
  cases b with
  | nil => cases h
  | cons c b =>
    rw [decodeSnapshot_cons] at h
    rw [List.cons_append, decodeSnapshot_cons]
    by_cases hc : c ≠ prefixSnapshot
    · rw [if_pos hc]
    · rw [if_neg hc] at h ⊢
      obtain ⟨x, hx, h⟩ := Option.bind_eq_some_iff.mp h
      obtain ⟨y, hy, h⟩ := Option.bind_eq_some_iff.mp h
      obtain ⟨z, hz, h⟩ := Option.bind_eq_some_iff.mp h
      rw [uvarint_append hx, Option.bind_some, uvarint_append hy, Option.bind_some,
        uvarint_append hz, Option.bind_some]
      by_cases hcap : hardCap < z.1
      · rw [if_pos hcap]
      · rw [if_neg hcap] at h ⊢
        obtain ⟨es, hes, -⟩ := Option.bind_eq_some_iff.mp h
        rw [readEntries_append hes ht]
        rfl

end Stream

namespace VecSet

def errBadBlob : String := "vecset: bad blob"

def floatsSlices (blob : Bytes) : ℕ → ℕ → Checked (List UInt32)
  | 0, _ => pure []
  | n + 1, off => do
    let word ← cut blob off (off + 4)
    if !isFinite32 (UInt32.ofNat (leNat word)) then throw errBadBlob
    else do
      let vec ← floatsSlices blob n (off + 4)
      pure (UInt32.ofNat (leNat word) :: vec)

def recordsSlices (blob : Bytes) : ℕ → VSet → ℕ → Checked VSet
  | 0, s, off => if off ≠ blob.length then throw errBadBlob else pure s
  | count + 1, s, off =>
    if blob.length ≤ off then throw errBadBlob
    else do
      let len ← index blob off
      let off := off + 1
      let idLen := len.toNat
      if idLen < 1 ∨ maxMemberLen < idLen ∨ blob.length < off + idLen + 4 * s.dim then
        throw errBadBlob
      else do
        let id ← cut blob off (off + idLen)
        let off := off + idLen
        let vec ← floatsSlices blob s.dim off
        let s ← orThrow "vecset: full" (s.add id vec)
        recordsSlices blob count s (off + 4 * s.dim)

def decodeSnapshotSlices (blob : Bytes) : Checked VSet :=
  if blob.length < 5 then throw errBadBlob
  else do
    let c ← index blob 0
    if c ≠ prefixSnapshot then throw errBadBlob
    else do
      let d ← cut blob 1 3
      let n ← cut blob 3 5
      if !validDim (leNat d) ∨ maxMembers < leNat n then throw errBadBlob
      else recordsSlices blob (leNat n) (newSet (leNat d)) 5

def worstEncodedSize (dim count idLen : ℤ) : ℤ :=
  let dim := if dim < minDim then (maxDim : ℤ) else dim
  let idLen := if idLen < 1 then (maxMemberLen : ℤ) else idLen
  let count := if count < 0 then (maxMembers : ℤ) else count
  5 + count * (1 + idLen + 4 * dim)

def VSet.longest (s : VSet) : ℕ := (s.vals.toList.map fun e => e.1.length).foldr max 0

theorem takeVec_succ_drop (n off : ℕ) (b : Bytes) : takeVec (n + 1) (b.drop off) =
      UInt32.ofNat (leNat ((b.take (off + 4)).drop off)) :: takeVec n (b.drop (off + 4)) := by
  rw [takeVec, List.drop_drop, List.drop_take, Nat.add_sub_cancel_left]

variable {s s' : VSet} {b blob t : Bytes} {n off : ℕ}

theorem ends_floatsSlices (h : off + 4 * n ≤ blob.length) : Ends (floatsSlices blob n off)
      (if !finite (takeVec n (blob.drop off)) then none else some (takeVec n (blob.drop off))) := by
  induction n generalizing off with
  | zero => exact ends_pure []
  | succ n ih =>
    have hrest : Ends (floatsSlices blob n (off + 4)) _ := ih (by omega)
    rw [takeVec_succ_drop]
    refine (ends_cut (by omega) (by omega)).then ?_
    generalize UInt32.ofNat (leNat ((blob.take (off + 4)).drop off)) = x
    generalize takeVec n (blob.drop (off + 4)) = vec at hrest ⊢
    rw [finite, List.all_cons, ← finite]
    cases hx : isFinite32 x with
    | false => exact ends_throw errBadBlob
    | true =>
      have hvec := hrest.bind (f := fun v => pure (x :: v)) (g := fun v => some (x :: v))
        fun v _ => ends_pure _
      cases hfinite : finite vec <;> rw [hfinite] at hvec <;> exact hvec

theorem dim_of_add {member : Bytes} {vec : List UInt32} (h : s.add member vec = some s') :
    s'.dim = s.dim := by
  unfold VSet.add at h
  split_ifs at h
  rw [← Option.some.inj h]

/-- One record, and the others after it. -/
theorem readRecords_cons (count : ℕ) (s : VSet) (len : UInt8) (b : Bytes) :
    readRecords (count + 1) s (len :: b) =
      if len.toNat < 1 ∨ b.length < len.toNat + 4 * s.dim then none
      else (if !finite (takeVec s.dim (b.drop len.toNat)) then none
        else some (takeVec s.dim (b.drop len.toNat))).bind fun vec =>
          (s.add (b.take len.toNat) vec).bind fun s' =>
            readRecords count s' (b.drop (len.toNat + 4 * s'.dim)) := by
  rw [readRecords]
  dsimp only
  split
  · rfl
  · split
    · rfl
    · rw [Option.bind_some]
      cases s.add (b.take len.toNat) (takeVec s.dim (b.drop len.toNat)) <;> rfl

/-- The loop over slices reads the records. -/
theorem ends_recordsSlices (count : ℕ) (s : VSet) (h : off ≤ blob.length) :
    Ends (recordsSlices blob count s off) (readRecords count s (blob.drop off)) := by
  induction count generalizing s off with
  | zero =>
    have hdrop : blob.drop off = [] ↔ off = blob.length := by
      rw [List.drop_eq_nil_iff]
      omega
    rw [readRecords, recordsSlices]
    by_cases hend : off = blob.length
    · rw [if_pos (hdrop.mpr hend), if_neg (not_not_intro hend)]
      exact ends_pure s
    · rw [if_neg (fun hnil => hend (hdrop.mp hnil)), if_pos hend]
      exact ends_throw errBadBlob
  | succ count ih =>
    rw [recordsSlices]
    by_cases hend : blob.length ≤ off
    · rw [if_pos hend, List.drop_of_length_le hend]
      exact ends_throw errBadBlob
    · have hoff : off < blob.length := by omega
      rw [if_neg hend, List.drop_eq_getElem_cons hoff, readRecords_cons]
      refine (ends_index (List.getElem?_eq_getElem hoff)).then ?_
      generalize blob[off] = len
      have hlen := len.toNat_lt
      have hmax : maxMemberLen = 255 := rfl
      by_cases hbad : len.toNat < 1 ∨ (blob.drop (off + 1)).length < len.toNat + 4 * s.dim
      · rw [if_pos hbad, if_pos (by rw [List.length_drop] at hbad; omega)]
        exact ends_throw errBadBlob
      · rw [if_neg hbad]
        rw [List.length_drop] at hbad
        rw [if_neg (by omega)]
        have hid : (blob.take (off + 1 + len.toNat)).drop (off + 1) =
            (blob.drop (off + 1)).take len.toNat := by
          rw [List.drop_take, Nat.add_sub_cancel_left]
        refine (ends_cut (by omega) (by omega)).then ?_
        rw [hid, List.drop_drop]
        refine (ends_floatsSlices (by omega)).bind fun vec _ => ?_
        refine (ends_orThrow _ _).bind fun s' hadd => ?_
        have hdim := dim_of_add hadd
        rw [List.drop_drop, ← Nat.add_assoc]
        exact ih s' (by omega)

theorem ends_decodeSnapshotSlices (b : Bytes) :
    Ends (decodeSnapshotSlices b) (decodeSnapshot b) := by
  rcases b with _ | ⟨c, _ | ⟨d₀, _ | ⟨d₁, _ | ⟨n₀, _ | ⟨n₁, rest⟩⟩⟩⟩⟩
  case cons.cons.cons.cons.cons =>
    have hlong : ¬ (c :: d₀ :: d₁ :: n₀ :: n₁ :: rest).length < 5 := by simp
    rw [decodeSnapshotSlices, if_neg hlong, decodeSnapshot]
    refine (ends_index rfl).then (ends_ite fun _ => ?_)
    refine (ends_cut (by omega) (by omega)).then ((ends_cut (by omega) (by omega)).then ?_)
    exact ends_ite fun _ => ends_recordsSlices _ _ (by omega)
  all_goals exact ends_throw errBadBlob

/-- Bytes behind a vector do not change it. -/
theorem takeVec_append (h : 4 * n ≤ b.length) (t : Bytes) : takeVec n (b ++ t) = takeVec n b := by
  induction n generalizing b with
  | zero => rfl
  | succ n ih =>
    rw [takeVec, takeVec, List.take_append_of_le_length (by omega),
      List.drop_append_of_le_length (by omega), ih (by rw [List.length_drop]; omega)]

/-- Nothing may follow the last record. -/
theorem readRecords_append {count : ℕ} (h : readRecords count s b = some s') (ht : t ≠ []) :
    readRecords count s (b ++ t) = none := by
  induction count generalizing s b with
  | zero =>
    have hne : b ++ t ≠ [] := fun hnil => ht (List.append_eq_nil_iff.mp hnil).2
    rw [readRecords, if_neg hne]
  | succ count ih =>
    cases b with
    | nil => cases h
    | cons len b =>
      rw [readRecords_cons] at h
      rw [List.cons_append, readRecords_cons]
      by_cases hbad : len.toNat < 1 ∨ b.length < len.toNat + 4 * s.dim
      · rw [if_pos hbad] at h
        cases h
      · rw [if_neg hbad] at h
        have hlong : ¬ (len.toNat < 1 ∨ (b ++ t).length < len.toNat + 4 * s.dim) := by
          rw [List.length_append]
          omega
        have hvec : takeVec s.dim ((b ++ t).drop len.toNat) = takeVec s.dim (b.drop len.toNat) := by
          rw [List.drop_append_of_le_length (by omega),
            takeVec_append (by rw [List.length_drop]; omega)]
        obtain ⟨vec, hfinite, h⟩ := Option.bind_eq_some_iff.mp h
        obtain ⟨s₁, hadd, h⟩ := Option.bind_eq_some_iff.mp h
        have hdim := dim_of_add hadd
        rw [if_neg hlong, hvec, hfinite, Option.bind_some, List.take_append_of_le_length (by omega),
          hadd, Option.bind_some, List.drop_append_of_le_length (by omega), ih h]

theorem decodeSnapshot_append (h : decodeSnapshot b = some s) (ht : t ≠ []) :
    decodeSnapshot (b ++ t) = none := by
  unfold decodeSnapshot at h
  split at h
  next c d₀ d₁ n₀ n₁ rest =>
    simp only [List.cons_append, decodeSnapshot]
    dsimp only at h
    split_ifs at h ⊢
    exact readRecords_append h ht
  · cases h

theorem length_records_le {dim longest : ℕ} (es : List (Bytes × List UInt32))
    (hes : ∀ e ∈ es, e.1.length ≤ longest ∧ e.2.length = dim) :
    (es.flatMap fun e => UInt8.ofNat e.1.length :: (e.1 ++ putVec e.2)).length ≤
      es.length * (1 + longest + 4 * dim) := by
  induction es with
  | nil => simp
  | cons e es ih =>
    obtain ⟨⟨hlen, hdim⟩, hrest⟩ := List.forall_mem_cons.mp hes
    have htail := ih hrest
    rw [List.flatMap_cons, List.length_append, List.length_cons, List.length_append,
      length_putVec, hdim, List.length_cons, Nat.succ_mul es.length]
    omega

theorem VSet.length_le_longest (s : VSet) {e : Bytes × List UInt32} (he : e ∈ s.vals.toList) :
    e.1.length ≤ s.longest := by
  have hmax : ∀ ns : List ℕ, ∀ n ∈ ns, n ≤ ns.foldr max 0 := by
    intro ns
    induction ns with
    | nil => simp
    | cons m ns ih =>
      refine List.forall_mem_cons.mpr ⟨Nat.le_max_left _ _, fun n hn => ?_⟩
      exact (ih n hn).trans (Nat.le_max_right _ _)
  exact hmax _ _ (List.mem_map.mpr ⟨e, he, rfl⟩)

/-- The snapshot of a set is no longer than computed from its members. -/
theorem encode_length_le (h : s.Valid) :
    (s.encode.length : ℤ) ≤ worstEncodedSize s.dim s.card s.longest := by
  have hdim := h.dim
  rw [validDim, Bool.and_eq_true, decide_eq_true_eq, decide_eq_true_eq] at hdim
  have hrecords := length_records_le s.vals.toList
    fun e he => ⟨s.length_le_longest he, (h.records e he).dim⟩
  rw [Std.ExtTreeMap.length_toList] at hrecords
  have hlength : s.encode.length ≤ 5 + s.card * (1 + s.longest + 4 * s.dim) := by
    rw [VSet.encode, List.length_cons, List.length_append, List.length_append, leBytes_length,
      leBytes_length, VSet.card]
    omega
  have hdims : ¬ (s.dim : ℤ) < minDim := by omega
  have hcount : ¬ (s.card : ℤ) < 0 := by omega
  simp only [worstEncodedSize, hdims, hcount, if_false]
  by_cases hempty : (s.longest : ℤ) < 1
  · -- only an empty set has no longest member, and then the replaced bound counts for nothing
    have hnil : s.vals.toList = [] := by
      refine List.eq_nil_iff_forall_not_mem.mpr fun e he => ?_
      have hpos := (h.records e he).pos
      have hle := s.length_le_longest he
      omega
    have hcard : s.card = 0 := by rw [VSet.card, ← Std.ExtTreeMap.length_toList, hnil,
      List.length_nil]
    rw [hcard] at hlength ⊢
    omega
  · rw [if_neg hempty]
    exact_mod_cast hlength

end VecSet

/-- A stream log and a vector set are read back from their snapshots, and the snapshot of a set
has at most the size that is computed for it. Both decoders end on every input without reading
outside it, and refuse whatever is followed by more bytes. -/
theorem snapshots_exact :
    (∀ l : Stream.Log, l.Valid → (Stream.decodeSnapshotSlices l.encode).run = some (.ok l)) ∧
    (∀ s : VecSet.VSet, s.Valid →
      (VecSet.decodeSnapshotSlices s.encode).run = some (.ok s) ∧
        (s.encode.length : ℤ) ≤ VecSet.worstEncodedSize s.dim s.card s.longest) ∧
    (∀ b, ((Stream.decodeSnapshotSlices b).run).isSome = true ∧
      ((VecSet.decodeSnapshotSlices b).run).isSome = true) ∧
    ∀ b t, t ≠ [] →
      (∀ l l', (Stream.decodeSnapshotSlices b).run = some (.ok l) →
        (Stream.decodeSnapshotSlices (b ++ t)).run ≠ some (.ok l')) ∧
      ∀ s s', (VecSet.decodeSnapshotSlices b).run = some (.ok s) →
        (VecSet.decodeSnapshotSlices (b ++ t)).run ≠ some (.ok s') := by
  refine ⟨fun l hl => ?_, fun s hs => ⟨?_, VecSet.encode_length_le hs⟩, fun b => ?_, fun b t ht =>
    ⟨fun l l' hrun hrun' => ?_, fun s s' hrun hrun' => ?_⟩⟩
  · have hends := Stream.ends_decodeSnapshotSlices l.encode
    rw [Stream.decodeSnapshot_encode hl] at hends
    exact ends_some_iff.mp hends
  · have hends := VecSet.ends_decodeSnapshotSlices s.encode
    rw [VecSet.decodeSnapshot_encode hs] at hends
    exact ends_some_iff.mp hends
  · exact ⟨(Stream.ends_decodeSnapshotSlices b).isSome, (VecSet.ends_decodeSnapshotSlices b).isSome⟩
  · have hnone := Stream.decodeSnapshot_append
      ((Stream.ends_decodeSnapshotSlices b).eq_some hrun) ht
    rw [(Stream.ends_decodeSnapshotSlices (b ++ t)).eq_some hrun'] at hnone
    cases hnone
  · have hnone := VecSet.decodeSnapshot_append
      ((VecSet.ends_decodeSnapshotSlices b).eq_some hrun) ht
    rw [(VecSet.ends_decodeSnapshotSlices (b ++ t)).eq_some hrun'] at hnone
    cases hnone

end Supercache
