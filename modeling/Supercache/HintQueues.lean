import Supercache.HintNames

/-!
What holds of a queue of hints after any calls. The order lists the identities that have a hint,
each once, within the cap. Beside the pool goes a log of the calls made for an identity since it
last entered: the queued hint is one of them, and none of them is newer. Calls that a queued
delete turned away count only if no name has a zero byte.
-/
namespace Supercache.Hints

open Wire ByteMap

def rank (e : Entry) : ℕ := 2 * e.version + if e.isTombstone then 1 else 0

theorem hintNewer_iff (a b : Entry) : hintNewer a b = true ↔ rank b < rank a := by
  unfold hintNewer rank
  by_cases hne : a.version ≠ b.version
  · rw [if_pos hne]
    rw [decide_eq_true_iff]
    split <;> split <;> omega
  · rw [if_neg hne]
    rw [not_not] at hne
    cases a.isTombstone <;> cases b.isTombstone <;> simp [hne]

theorem not_hintNewer_iff (a b : Entry) : hintNewer a b = false ↔ rank a ≤ rank b := by
  rw [← not_lt, ← hintNewer_iff, Bool.not_eq_true]

namespace PeerHintQ

/-- The order lists the identities of the queued hints, each once, up to the cap. -/
structure Sound (hintMax : ℕ) (q : PeerHintQ) : Prop where
  nodup : q.order.Nodup
  mem_iff : ∀ id : Bytes, id ∈ q.order ↔ ∃ h, q.items[id]? = some h
  own : ∀ (id : Bytes) (h : FanoutHint), q.items[id]? = some h → h.id = id
  length_le : q.order.length ≤ hintMax

variable {hintMax : ℕ} {q : PeerHintQ} {h : FanoutHint} {id : Bytes}

theorem Sound.empty (hintMax : ℕ) : empty.Sound hintMax where
  nodup := List.nodup_nil
  mem_iff id := by simp [PeerHintQ.empty]
  own id h hid := (PeerHintQ.empty.filed id h hid).2
  length_le := Nat.zero_le _

theorem Sound.dropAdds (hq : q.Sound hintMax) (h : FanoutHint) : (q.dropAdds h).Sound hintMax := by
  have hown := fun id x hx => ((q.dropAdds h).filed id x hx).2
  unfold PeerHintQ.dropAdds at hown ⊢
  by_cases htomb : h.ent.isTombstone
  · rw [if_pos htomb]
    simp only [htomb, if_true] at hown
    refine ⟨hq.nodup.filter _, fun id => ?_, hown, ?_⟩
    · rw [List.mem_filter, Std.ExtTreeMap.contains_eq_isSome_getElem?, Option.isSome_iff_exists]
      refine ⟨And.right, fun hmem => ⟨?_, hmem⟩⟩
      obtain ⟨x, hx⟩ := hmem
      rw [Std.ExtTreeMap.getElem?_filter'] at hx
      exact (q.filed id x (Option.filter_eq_some_iff.mp hx).1).1
    · exact (List.length_filter_le _ _).trans hq.length_le
  · rw [if_neg htomb]
    exact hq

theorem Sound.pop (hq : q.Sound hintMax) (id : Bytes) : (q.pop id).Sound hintMax where
  nodup := hq.nodup.erase id
  mem_iff k := by
    simp only [PeerHintQ.pop, hq.nodup.mem_erase_iff, getElem?_erase, hq.mem_iff k]
    by_cases hk : id = k
    · simp [hk]
    · simp [hk, Ne.symm hk]
  own k x hx := ((q.pop id).filed k x hx).2
  length_le := (List.length_erase_le).trans hq.length_le

/-- Making room keeps the order and the hints together. -/
theorem makeRoom_spec {order : List Bytes} {items : Map FanoutHint} (hmax : 1 ≤ hintMax)
    (hnodup : order.Nodup) (hmem : ∀ id, id ∈ order ↔ ∃ h, items[id]? = some h) :
    (makeRoom hintMax order items).1 <:+ order ∧ (makeRoom hintMax order items).1.length < hintMax ∧
      ∀ id, id ∈ (makeRoom hintMax order items).1 ↔
        ∃ h, (makeRoom hintMax order items).2[id]? = some h := by
  obtain ⟨horder, hitems⟩ := makeRoom_eq hintMax order items
  rw [horder]
  refine ⟨List.drop_suffix _ _, by rw [List.length_drop]; omega, fun id => ?_⟩
  have hparts := List.take_append_drop (order.length + 1 - hintMax) order
  have happart := List.disjoint_of_nodup_append (hparts ▸ hnodup)
  rw [hitems]
  by_cases hdropped : id ∈ overflow hintMax order
  · rw [if_pos hdropped]
    simpa using happart hdropped
  · rw [if_neg hdropped]
    rw [← hmem, ← List.mem_append.trans (or_iff_right hdropped), overflow, hparts]

/-- Filing a hint keeps order and map in step. -/
theorem Sound.file (hq : q.Sound hintMax) (hmax : 1 ≤ hintMax) (h : FanoutHint) :
    (q.file hintMax h).Sound hintMax := by
  have hown := fun id x hx => ((q.file hintMax h).filed id x hx).2
  unfold PeerHintQ.file at hown ⊢
  by_cases hthere : h.id ∈ q.items
  · rw [dif_pos hthere]
    have hold := Std.ExtTreeMap.getElem?_eq_some_getElem hthere
    by_cases hnewer : hintNewer h.ent q.items[h.id].ent
    · rw [if_pos hnewer]
      simp only [hthere, hnewer, dif_pos, if_true] at hown
      refine ⟨hq.nodup, fun id => ?_, hown, hq.length_le⟩
      rw [hq.mem_iff, getElem?_insert]
      by_cases hid : h.id = id
      · subst hid
        simp [hold]
      · rw [if_neg hid]
    · rw [if_neg hnewer]
      exact hq
  · rw [dif_neg hthere]
    simp only [hthere, dif_neg, not_false_eq_true] at hown
    obtain ⟨hsuffix, hlen, hmem⟩ := makeRoom_spec hmax hq.nodup hq.mem_iff
    have habsent : h.id ∉ (makeRoom hintMax q.order q.items).1 := by
      intro hin
      obtain ⟨x, hx⟩ := (hmem h.id).mp hin
      have hq' := (makeRoom_subset hintMax hx).1
      exact hthere (Std.ExtTreeMap.mem_iff_isSome_getElem?.mpr (by rw [hq']; rfl))
    refine ⟨?_, fun id => ?_, hown, ?_⟩
    · refine (hsuffix.sublist.nodup hq.nodup).append (List.nodup_singleton _) ?_
      exact List.disjoint_singleton.mpr habsent
    · simp only [List.mem_append, List.mem_singleton, hmem id, getElem?_insert]
      by_cases hid : h.id = id
      · simp [hid]
      · simp [hid, Ne.symm hid]
    · simp only [List.length_append, List.length_singleton]
      omega

theorem Sound.enqueue (hq : q.Sound hintMax) (hmax : 1 ≤ hintMax) (h : FanoutHint) :
    (q.enqueue hintMax h).Sound hintMax := by
  simp only [PeerHintQ.enqueue]
  split
  · exact hq.dropAdds h
  · exact (hq.dropAdds h).file hmax h

/-- Under its own identity a hint is queued after the call, or one that is not older. -/
theorem file_self (q : PeerHintQ) (hintMax : ℕ) (h : FanoutHint) :
    (q.items[h.id]? = none ∧ (q.file hintMax h).items[h.id]? = some h) ∨
      ∃ old, q.items[h.id]? = some old ∧
        (hintNewer h.ent old.ent = true ∧ (q.file hintMax h).items[h.id]? = some h ∨
          hintNewer h.ent old.ent = false ∧ (q.file hintMax h).items[h.id]? = some old) := by
  unfold file
  by_cases hmem : h.id ∈ q.items
  · rw [dif_pos hmem]
    have hold := Std.ExtTreeMap.getElem?_eq_some_getElem hmem
    refine Or.inr ⟨_, hold, ?_⟩
    by_cases hnewer : hintNewer h.ent q.items[h.id].ent
    · rw [if_pos hnewer]
      exact Or.inl ⟨hnewer, by simp only [getElem?_insert, if_true]⟩
    · rw [if_neg hnewer]
      exact Or.inr ⟨Bool.eq_false_iff.mpr hnewer, hold⟩
  · rw [dif_neg hmem]
    refine Or.inl ⟨?_, by simp only [getElem?_insert, if_true]⟩
    exact Std.ExtTreeMap.getElem?_eq_none hmem

/-- A hint for a queued identity does not change the order. -/
theorem order_file_of_mem (hmem : h.id ∈ q.items) : (q.file hintMax h).order = q.order := by
  unfold file
  rw [dif_pos hmem]
  split <;> rfl

theorem order_file_of_not_mem (hmem : h.id ∉ q.items) :
    (q.file hintMax h).order = (makeRoom hintMax q.order q.items).1 ++ [h.id] := by
  unfold file
  rw [dif_neg hmem]

/-- Every queued item-add is newer than a queued delete of its filter. -/
def Outlived (q : PeerHintQ) : Prop :=
  ∀ (i j : Bytes) (add del : FanoutHint), q.items[i]? = some add → q.items[j]? = some del →
    add.isBloomAdd = true → del.isBloomAdd = false → del.ent.isTombstone = true →
    del.ks = add.ks → del.key = add.key → del.ent.version < add.ent.version

theorem tombstone_id (ks key : Bytes) :
    hintID ks key ⟨[], 0, 0, flagTombstone⟩ = ks ++ 0 :: key := by
  have hflag : (flagTombstone &&& flagBloomAdd != 0) = false := by decide
  have hadd : ¬ (⟨[], 0, 0, flagTombstone⟩ : Entry).has flagBloomAdd = true :=
    Bool.eq_false_iff.mp hflag
  rw [hintID, if_neg hadd]

theorem deleted_iff : q.deleted h = true ↔
    h.isBloomAdd = true ∧ ∃ del, q.items[h.name]? = some del ∧
      del.ent.isTombstone = true ∧ h.ent.version ≤ del.ent.version := by
  unfold deleted
  rw [tombstone_id, Bool.and_eq_true, Option.any_eq_true]
  simp only [Bool.and_eq_true, decide_eq_true_eq]
  rfl

/-- No item-add of the filter is left after its delete is taken in. -/
theorem not_add_of_dropAdds (htomb : h.ent.isTombstone = true) {x : FanoutHint}
    (hx : (q.dropAdds h).items[id]? = some x) (hks : x.ks = h.ks) (hkey : x.key = h.key) :
    x.isBloomAdd = false := by
  rw [dropAdds, if_pos htomb, Std.ExtTreeMap.getElem?_filter'] at hx
  have hkept := (Option.filter_eq_some_iff.mp hx).2
  rw [addOf, hks, hkey] at hkept
  simpa [FanoutHint.isBloomAdd] using hkept

theorem Outlived.of_subset {q' : PeerHintQ} (hq : q.Outlived)
    (hsub : ∀ (id : Bytes) (x : FanoutHint), q'.items[id]? = some x → q.items[id]? = some x) :
    q'.Outlived := fun i j add del hadd hdel => hq i j add del (hsub i add hadd) (hsub j del hdel)

/-- A delete drops what it outlives before it is queued. -/
theorem Outlived.enqueue (hq : q.Outlived) (hintMax : ℕ) (h : FanoutHint) :
    (q.enqueue hintMax h).Outlived := by
  have hdrop : (q.dropAdds h).Outlived := hq.of_subset fun id x hx => dropAdds_subset hx
  simp only [PeerHintQ.enqueue]
  by_cases hdeleted : (q.dropAdds h).deleted h
  · rw [if_pos hdeleted]
    exact hdrop
  · rw [if_neg hdeleted]
    intro i j add del hadd hdel hisAdd hnotAdd htomb hks hkey
    rcases file_subset hintMax hadd with ⟨rfl, rfl⟩ | haddOld
    · rcases file_subset hintMax hdel with ⟨rfl, -⟩ | hdelOld
      · rw [hisAdd] at hnotAdd
        cases hnotAdd
      · -- the delete did not turn the item-add away
        by_contra hle
        refine hdeleted (deleted_iff.mpr ⟨hisAdd, del, ?_, htomb, not_lt.mp hle⟩)
        have hid := ((q.dropAdds add).filed j del hdelOld).2
        rw [FanoutHint.id_of_not_add hnotAdd, FanoutHint.name, hks, hkey] at hid
        rwa [FanoutHint.name, hid]
    · rcases file_subset hintMax hdel with ⟨rfl, -⟩ | hdelOld
      · -- a delete leaves no item-adds of its filter
        rw [not_add_of_dropAdds htomb haddOld hks.symm hkey.symm] at hisAdd
        cases hisAdd
      · exact hdrop i j add del haddOld hdelOld hisAdd hnotAdd htomb hks hkey

end PeerHintQ

def FanoutHint.ZeroFree (h : FanoutHint) : Prop := 0 ∉ h.ks ∧ 0 ∉ h.key

section Names

variable {a b : FanoutHint}

theorem split_unique {s t u v : Bytes} (hs : 0 ∉ s) (ht : 0 ∉ t) (h : s ++ 0 :: u = t ++ 0 :: v) :
    s = t ∧ u = v := by
  induction s generalizing t with
  | nil =>
    cases t with
    | nil => exact ⟨rfl, (List.cons.inj h).2⟩
    | cons y t =>
      obtain ⟨hy, -⟩ := List.cons.inj h
      exact absurd (hy ▸ List.mem_cons_self) ht
  | cons x s ih =>
    cases t with
    | nil =>
      obtain ⟨hx, -⟩ := List.cons.inj h
      exact absurd (hx ▸ List.mem_cons_self) hs
    | cons y t =>
      obtain ⟨rfl, hrest⟩ := List.cons.inj h
      obtain ⟨rfl, huv⟩ := ih (fun hmem => hs (List.mem_cons_of_mem _ hmem))
        (fun hmem => ht (List.mem_cons_of_mem _ hmem)) hrest
      exact ⟨rfl, huv⟩

/-- An identity that is the name of a hint belongs to that name. -/
theorem name_of_id_eq_name (ha : a.ZeroFree) (hb : b.ZeroFree) (h : a.id = b.name) :
    a.isBloomAdd = false ∧ a.ks = b.ks ∧ a.key = b.key := by
  cases hadd : a.isBloomAdd with
  | true =>
    rw [FanoutHint.id_of_add hadd, FanoutHint.name, FanoutHint.name, List.append_assoc] at h
    have hkey := (split_unique ha.1 hb.1 h).2
    exact absurd (hkey ▸ List.mem_append_right a.key List.mem_cons_self) hb.2
  | false =>
    rw [FanoutHint.id_of_not_add hadd] at h
    exact ⟨rfl, split_unique ha.1 hb.1 h⟩

/-- Without zero bytes in the names, hints with one identity are alike. -/
theorem alike_of_zeroFree (ha : a.ZeroFree) (hb : b.ZeroFree) (hid : a.id = b.id) : Alike a b := by
  cases hbdd : b.isBloomAdd with
  | false =>
    have hname := hid.trans (FanoutHint.id_of_not_add hbdd)
    obtain ⟨-, hks, hkey⟩ := name_of_id_eq_name ha hb hname
    exact alike_of_name_eq hks hkey hid
  | true =>
    cases hadd : a.isBloomAdd with
    | false =>
      have hname := hid.symm.trans (FanoutHint.id_of_not_add hadd)
      obtain ⟨-, hks, hkey⟩ := name_of_id_eq_name hb ha hname
      exact alike_of_name_eq hks.symm hkey.symm hid
    | true =>
      have hsplit := hid
      rw [FanoutHint.id_of_add hadd, FanoutHint.id_of_add hbdd, FanoutHint.name, FanoutHint.name,
        List.append_assoc, List.append_assoc] at hsplit
      obtain ⟨hks, hrest⟩ := split_unique ha.1 hb.1 hsplit
      exact alike_of_name_eq hks (split_unique ha.2 hb.2 hrest).1 hid

end Names

section Log

abbrev Noted := FanoutHint × Bool

def note (q : PeerHintQ) (h : FanoutHint) (log : Bytes → List Noted) (id : Bytes) : List Noted :=
  if id = h.id then
    (if id ∈ (q.dropAdds h).items then log id else []) ++ [(h, (q.dropAdds h).deleted h)]
  else log id

/-- The queue is sound, and what is queued under an identity is a newest of the calls in its log.
The calls that were turned away are among these only if `all` says so. -/
structure Kept (all : Prop) (hintMax : ℕ) (q : PeerHintQ) (log : Bytes → List Noted) : Prop where
  sound : q.Sound hintMax
  outlived : q.Outlived
  zeroFree : all → ∀ (id : Bytes) (h : FanoutHint), q.items[id]? = some h → h.ZeroFree
  noted : ∀ (id : Bytes) (h : FanoutHint), q.items[id]? = some h → (h, false) ∈ log id
  newest : ∀ (id : Bytes) (h : FanoutHint), q.items[id]? = some h →
    ∀ c ∈ log id, c.2 = false ∨ all → hintNewer c.1.ent h.ent = false

variable {all : Prop} {hintMax : ℕ} {q : PeerHintQ} {log : Bytes → List Noted}

theorem Kept.empty (all : Prop) (hintMax : ℕ) (log : Bytes → List Noted) :
    Kept all hintMax .empty log := by
  have hnone : ∀ (id : Bytes) (h : FanoutHint), ¬ PeerHintQ.empty.items[id]? = some h := by
    intro id h
    simp [PeerHintQ.empty]
  exact ⟨.empty hintMax, fun i j add del hadd => absurd hadd (hnone i add),
    fun _ id h hid => absurd hid (hnone id h), fun id h hid => absurd hid (hnone id h),
    fun id h hid => absurd hid (hnone id h)⟩

theorem Kept.pop (hk : Kept all hintMax q log) (id : Bytes) : Kept all hintMax (q.pop id) log := by
  have hsub : ∀ (k : Bytes) (x : FanoutHint), (q.pop id).items[k]? = some x →
      q.items[k]? = some x := by
    intro k x hx
    simp only [PeerHintQ.pop, getElem?_erase] at hx
    split at hx
    · cases hx
    · exact hx
  exact ⟨hk.sound.pop id, hk.outlived.of_subset hsub,
    fun ha k x hx => hk.zeroFree ha k x (hsub k x hx),
    fun k x hx => hk.noted k x (hsub k x hx), fun k x hx => hk.newest k x (hsub k x hx)⟩

theorem not_hintNewer_trans {a b c : Entry} (hab : hintNewer a b = false)
    (hbc : hintNewer b c = false) : hintNewer a c = false := by
  rw [not_hintNewer_iff] at *
  exact hab.trans hbc

theorem not_hintNewer_of_hintNewer {a b : Entry} (h : hintNewer a b = true) :
    hintNewer b a = false := by
  rw [not_hintNewer_iff]
  exact ((hintNewer_iff a b).mp h).le

/-- Where names have no zero bytes, a call that a delete turns away is not newer than what is
queued. -/
theorem Kept.turned_away (hk : Kept all hintMax q log) (hall : all) {h old : FanoutHint}
    (hzero : h.ZeroFree) (hdel : q.deleted h = true) (hold : q.items[h.id]? = some old) :
    hintNewer h.ent old.ent = false := by
  obtain ⟨hadd, del, hitem, htomb, hle⟩ := PeerHintQ.deleted_iff.mp hdel
  have hfree := hk.zeroFree hall
  obtain ⟨hnot, hks, hkey⟩ :=
    name_of_id_eq_name (hfree _ del hitem) hzero (q.filed h.name del hitem).2
  have halike := alike_of_zeroFree (hfree _ old hold) hzero (q.filed h.id old hold).2
  have hlt := hk.outlived h.id h.name old del hold hitem (halike.2.2.1.trans hadd) hnot htomb
    (hks.trans halike.1.symm) (hkey.trans halike.2.1.symm)
  rw [not_hintNewer_iff, rank, rank]
  split <;> split <;> omega

theorem Kept.dropAdds (hk : Kept all hintMax q log) (h : FanoutHint) :
    Kept all hintMax (q.dropAdds h) log where
  sound := hk.sound.dropAdds h
  outlived := hk.outlived.of_subset fun _ _ hx => PeerHintQ.dropAdds_subset hx
  zeroFree ha id x hx := hk.zeroFree ha id x (PeerHintQ.dropAdds_subset hx)
  noted id x hx := hk.noted id x (PeerHintQ.dropAdds_subset hx)
  newest id x hx := hk.newest id x (PeerHintQ.dropAdds_subset hx)

/-- What a queue must have of what is under the identity of a call. -/
theorem Kept.of_self {q' : PeerHintQ} {h : FanoutHint} (hk : Kept all hintMax q log)
    (hsound : q'.Sound hintMax) (houtlived : q'.Outlived) (hzero : all → h.ZeroFree)
    (hsub : ∀ (id : Bytes) (x : FanoutHint), q'.items[id]? = some x →
      (x = h ∧ id = h.id) ∨ (q.dropAdds h).items[id]? = some x)
    (hself : ∀ x, q'.items[h.id]? = some x → (x, false) ∈ note q h log h.id ∧
      ∀ c ∈ note q h log h.id, c.2 = false ∨ all → hintNewer c.1.ent x.ent = false) :
    Kept all hintMax q' (note q h log) := by
  have hk' := hk.dropAdds h
  have hother : ∀ id x, q'.items[id]? = some x → id ≠ h.id →
      (q.dropAdds h).items[id]? = some x ∧ note q h log id = log id := by
    intro id x hx hne
    exact ⟨(hsub id x hx).resolve_left fun hboth => hne hboth.2, if_neg hne⟩
  refine ⟨hsound, houtlived, fun ha id x hx => ?_, fun id x hx => ?_, fun id x hx => ?_⟩
  · rcases hsub id x hx with ⟨rfl, -⟩ | hold
    · exact hzero ha
    · exact hk'.zeroFree ha id x hold
  · by_cases hid : id = h.id
    · exact hid ▸ (hself x (hid ▸ hx)).1
    · obtain ⟨hold, hlog⟩ := hother id x hx hid
      exact hlog ▸ hk'.noted id x hold
  · by_cases hid : id = h.id
    · exact hid ▸ (hself x (hid ▸ hx)).2
    · obtain ⟨hold, hlog⟩ := hother id x hx hid
      exact hlog ▸ hk'.newest id x hold

/-- The queued hint is a newest one after one more call. -/
theorem Kept.enqueue (hk : Kept all hintMax q log) (hmax : 1 ≤ hintMax) {h : FanoutHint}
    (hzero : all → h.ZeroFree) : Kept all hintMax (q.enqueue hintMax h) (note q h log) := by
  have hk' := hk.dropAdds h
  have hmem : ∀ {x}, (q.dropAdds h).items[h.id]? = some x → h.id ∈ (q.dropAdds h).items := by
    intro x hx
    exact Std.ExtTreeMap.mem_iff_isSome_getElem?.mpr (by rw [hx]; rfl)
  have hsound := hk.sound.enqueue hmax h
  have houtlived := hk.outlived.enqueue hintMax h
  simp only [PeerHintQ.enqueue] at hsound houtlived ⊢
  by_cases hdel : (q.dropAdds h).deleted h
  · -- turned away
    rw [if_pos hdel] at hsound houtlived ⊢
    refine hk.of_self hsound houtlived hzero (fun id x hx => Or.inr hx) fun x hx => ?_
    have hlog : note q h log h.id = log h.id ++ [(h, true)] := by
      rw [note, if_pos rfl, if_pos (hmem hx), hdel]
    rw [hlog]
    refine ⟨List.mem_append_left _ (hk'.noted h.id x hx), fun c hc hcounts => ?_⟩
    rcases List.mem_append.mp hc with hc | hc
    · exact hk'.newest h.id x hx c hc hcounts
    · rw [List.mem_singleton] at hc
      subst hc
      have hall : all := hcounts.resolve_left (by simp)
      exact hk'.turned_away hall (hzero hall) hdel hx
  · rw [if_neg hdel] at hsound houtlived ⊢
    refine hk.of_self hsound houtlived hzero (fun id x hx => PeerHintQ.file_subset hintMax hx)
      fun x hx => ?_
    have hfalse : (q.dropAdds h).deleted h = false := Bool.eq_false_iff.mpr hdel
    rcases (q.dropAdds h).file_self hintMax h with ⟨hnone, hfiled⟩ | ⟨old, hold, hcase⟩
    · -- the identity enters the queue
      cases hfiled.symm.trans hx
      have hout : h.id ∉ (q.dropAdds h).items := by
        rw [Std.ExtTreeMap.mem_iff_isSome_getElem?, hnone]
        exact Bool.false_ne_true
      rw [note, if_pos rfl, if_neg hout, hfalse]
      refine ⟨by simp, fun c hc _ => ?_⟩
      rw [List.nil_append, List.mem_singleton] at hc
      rw [hc]
      exact hintNewer_self _
    · rw [note, if_pos rfl, if_pos (hmem hold), hfalse]
      rcases hcase with ⟨hnewer, hfiled⟩ | ⟨hnot, hfiled⟩
      · cases hfiled.symm.trans hx
        refine ⟨List.mem_append_right _ List.mem_cons_self, fun c hc hcounts => ?_⟩
        rcases List.mem_append.mp hc with hc | hc
        · exact not_hintNewer_trans (hk'.newest h.id old hold c hc hcounts)
            (not_hintNewer_of_hintNewer hnewer)
        · rw [List.mem_singleton] at hc
          rw [hc]
          exact hintNewer_self _
      · have hsame : old = x := Option.some.inj (hfiled.symm.trans hx)
        subst hsame
        refine ⟨List.mem_append_left _ (hk'.noted h.id old hold), fun c hc hcounts => ?_⟩
        rcases List.mem_append.mp hc with hc | hc
        · exact hk'.newest h.id old hold c hc hcounts
        · rw [List.mem_singleton] at hc
          rw [hc]
          exact hnot

end Log

section Calls

inductive Call where
  | enqueueHint (h : FanoutHint)
  | popHint (addr id : Bytes)

def Call.ZeroFree : Call → Prop
  | .enqueueHint h => h.ZeroFree
  | .popHint _ _ => True

structure Logged where
  pool : FanoutPool
  log : Bytes → Bytes → List Noted

def Logged.step (s : Logged) : Call → Logged
  | .enqueueHint h =>
    -- such a call does not reach a queue
    if s.pool.hintsDisabled || s.pool.closed || h.peer.addr.isEmpty then s
    else ⟨s.pool.enqueueHint h, fun addr =>
      if h.peer.addr = addr then note (s.pool.queue addr) h (s.log addr) else s.log addr⟩
  | .popHint addr id => ⟨s.pool.popHint addr id, s.log⟩

def Logged.start (hintsDisabled closed : Bool) (hintMax : ℕ) : Logged :=
  ⟨⟨hintsDisabled, closed, hintMax, ∅⟩, fun _ _ => []⟩

/-- Every queue of the pool agrees with its log. -/
structure Logged.Agrees (all : Prop) (hintMax : ℕ) (s : Logged) : Prop where
  hintMax_eq : s.pool.hintMax = hintMax
  kept : ∀ addr, Kept all hintMax (s.pool.queue addr) (s.log addr)

variable {all : Prop} {hintMax : ℕ} {s : Logged}

theorem Logged.agrees_start (all : Prop) (hintsDisabled closed : Bool) (hintMax : ℕ) :
    (start hintsDisabled closed hintMax).Agrees all hintMax := by
  refine ⟨rfl, fun addr => ?_⟩
  have hqueue : (start hintsDisabled closed hintMax).pool.queue addr = .empty := by
    simp [start, FanoutPool.queue]
  rw [hqueue]
  exact Kept.empty _ hintMax _

/-- One call keeps the queues and their logs in agreement. -/
theorem Logged.Agrees.step (hs : s.Agrees all hintMax) (hmax : 1 ≤ hintMax) {t : Call}
    (hzero : all → t.ZeroFree) : (s.step t).Agrees all hintMax := by
  cases t with
  | enqueueHint h =>
    simp only [Logged.step]
    by_cases hshut : (s.pool.hintsDisabled || s.pool.closed || List.isEmpty h.peer.addr) = true
    · rw [if_pos hshut]
      exact hs
    · rw [if_neg hshut]
      refine ⟨?_, fun addr => ?_⟩
      · rw [← hs.hintMax_eq]
        simp only [FanoutPool.enqueueHint]
        split <;> rfl
      · rw [FanoutPool.queue_enqueueHint (Bool.eq_false_iff.mpr hshut)]
        by_cases haddr : h.peer.addr = addr
        · simp only [haddr, if_true, hs.hintMax_eq]
          exact (hs.kept addr).enqueue hmax hzero
        · simp only [haddr, if_false]
          exact hs.kept addr
  | popHint addr id =>
    refine ⟨?_, fun k => ?_⟩
    · rw [← hs.hintMax_eq]
      simp only [Logged.step, FanoutPool.popHint]
      split
      · rfl
      · split <;> rfl
    · simp only [Logged.step]
      rw [FanoutPool.queue_popHint]
      split
      · split
        · exact Kept.empty all hintMax _
        · exact (hs.kept k).pop id
      · exact hs.kept k

theorem Logged.Agrees.foldl (hs : s.Agrees all hintMax) (hmax : 1 ≤ hintMax) {calls : List Call}
    (hzero : all → ∀ t ∈ calls, t.ZeroFree) : (calls.foldl Logged.step s).Agrees all hintMax := by
  induction calls generalizing s with
  | nil => exact hs
  | cons t calls ih =>
    exact ih (hs.step hmax fun ha => (List.forall_mem_cons.mp (hzero ha)).1) fun ha =>
      (List.forall_mem_cons.mp (hzero ha)).2

theorem order_ne_nil_of_popHint {p : FanoutPool} {addr id : Bytes} {q : PeerHintQ}
    (hq : (p.popHint addr id).hints[addr]? = some q) : q.order ≠ [] := by
  unfold FanoutPool.popHint at hq
  cases hold : p.hints[addr]? with
  | none =>
    simp only [hold] at hq
    cases hq
  | some old =>
    simp only [hold] at hq
    by_cases hnil : (old.pop id).order = []
    · rw [if_pos hnil] at hq
      simp only [getElem?_erase, if_true] at hq
      cases hq
    · rw [if_neg hnil] at hq
      simp only [getElem?_insert, if_true] at hq
      cases hq
      exact hnil

end Calls

/-- After any calls every queue is sound, and what is queued under an identity is a newest of the
calls for it since it entered, those aside that a queued delete has turned away; these count too if
no name has a zero byte. No empty queue is left behind by a pop. -/
theorem hint_queues_sound (hintsDisabled closed : Bool) (hintMax : ℕ) (hmax : 1 ≤ hintMax)
    (calls : List Call) :
    let s := calls.foldl Logged.step (Logged.start hintsDisabled closed hintMax)
    (∀ (addr : Bytes) (q : PeerHintQ), s.pool.hints[addr]? = some q → q.Sound hintMax ∧
      ∀ (id : Bytes) (h : FanoutHint), q.items[id]? = some h → (h, false) ∈ s.log addr id ∧
        ∀ c ∈ s.log addr id, c.2 = false ∨ (∀ t ∈ calls, t.ZeroFree) →
          hintNewer c.1.ent h.ent = false) ∧
    ∀ (addr id : Bytes) (q : PeerHintQ), (s.pool.popHint addr id).hints[addr]? = some q →
      q.order ≠ [] := by
  intro s
  refine ⟨fun addr q hq => ?_, fun addr id q hq => order_ne_nil_of_popHint hq⟩
  have hagrees : s.Agrees (∀ t ∈ calls, t.ZeroFree) hintMax :=
    Logged.Agrees.foldl (Logged.agrees_start _ hintsDisabled closed hintMax) hmax fun hall => hall
  have hqueue : s.pool.queue addr = q := by
    rw [FanoutPool.queue, hq]
    rfl
  have hkept := hqueue ▸ hagrees.kept addr
  exact ⟨hkept.sound, fun id h hid => ⟨hkept.noted id h hid, hkept.newest id h hid⟩⟩

/-- Two hints for one key and hints for two more keys, with room for two. -/
theorem hint_queues_sound_capped :
    let peer : Peer := ⟨[98], [1]⟩
    let calls : List Call := [.enqueueHint ⟨peer, [100], [107, 1], ⟨[97], 1, 0, 0⟩, 1⟩,
      .enqueueHint ⟨peer, [100], [107, 1], ⟨[98], 2, 0, 0⟩, 1⟩,
      .enqueueHint ⟨peer, [100], [107, 2], ⟨[99], 1, 0, 0⟩, 1⟩,
      .enqueueHint ⟨peer, [100], [107, 3], ⟨[100], 1, 0, 0⟩, 1⟩]
    let s := calls.foldl Logged.step (Logged.start false false 2)
    1 ≤ 2 ∧ (s.pool.queue [1]).order = [[100, 0, 107, 2], [100, 0, 107, 3]] ∧
      ∀ q, s.pool.hints[([1] : Bytes)]? = some q → q.Sound 2 := by
  intro peer calls s
  refine ⟨by decide, by decide +kernel, fun q hq => ?_⟩
  exact ((hint_queues_sound false false 2 (by decide) calls).1 [1] q hq).1

/-- An item-add that the delete of its filter turns away is newer than the hint that is queued under
its identity, which is for another key. -/
theorem turned_away_newer :
    let peer : Peer := ⟨[98], [1]⟩
    let del : FanoutHint := ⟨peer, [107], [97], ⟨[], 5, 0, flagTombstone⟩, 1⟩
    let put : FanoutHint := ⟨peer, [107], [97, 0, 120], ⟨[118], 1, 0, 0⟩, 1⟩
    let add : FanoutHint := ⟨peer, [107], [97], ⟨[120], 3, 0, flagBloomAdd⟩, 1⟩
    let s := [.enqueueHint del, .enqueueHint put, .enqueueHint add].foldl Logged.step
      (Logged.start false false 4096)
    s.pool.queued [1] add.id = some put ∧ s.log [1] add.id = [(put, false), (add, true)] ∧
      hintNewer add.ent put.ent = true := by
  decide +kernel

end Supercache.Hints
