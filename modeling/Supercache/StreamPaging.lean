import Supercache.Ops
import Supercache.PlainResults
import Supercache.StreamLog

/-!
Paging through a stream of the store: from the start, and then each time after the
last id of the page before, until a page is empty. Other calls come between the
pages. A stream whose ids are in order is visited completely; a snapshot is installed
whatever the order of its ids is, and then entries can be passed over.
-/
namespace Supercache

open Wire Lru Store

section Live

/-- The item is a stream with this log, alive until `T`. -/
structure Streams (T : ℤ) (lg : Stream.Log) (it : LruItem) : Prop where
  has : it.entry.has flagStream = true
  live : it.entry.isTombstone = false
  lasts : Entry.Lasts T it.entry.expireAt
  log : Stream.decodeSnapshot it.entry.value = some lg

def StreamAt (m : Mem) (key : Bytes) (T : ℤ) (lg : Stream.Log) : Prop :=
  ∃ it, m.lookup key = some it ∧ Streams T lg it

variable {T : ℤ} {lg : Stream.Log} {it : LruItem} (key : Bytes) (env : Env)

variable {expireAt now : ℤ}

variable (h : Streams T lg it)
include h

theorem Streams.expired (hnow : now < T) : it.entry.expired now = false :=
  Entry.expired_of_lasts h.lasts hnow

theorem Streams.pinned (hnow : now < T) : it.entry.pinned now = true :=
  Entry.pinned_of_flags (by decide) h.has (h.expired hnow)

/-- The stream with another log written over it. -/
theorem Streams.rewritten {lg' : Stream.Log} (hv : lg'.Valid) {version : ℕ}
    (hexp : Entry.Lasts T expireAt) :
    Streams T lg' (put it (Store.rewritten it.entry lg'.encode version flagStream expireAt)) where
  has := by
    rw [Entry.has_of_flags (show _ = flagStream from rfl)]
    decide
  live := by
    rw [Entry.isTombstone, Entry.has_of_flags (show _ = flagStream from rfl)]
    decide
  lasts := h.lasts.extend hexp
  log := Stream.decodeSnapshot_encode hv

theorem Streams.xAdd (hnow : env.now < T) {payload : Bytes} (version : ℕ)
    (maxValue autoTrim : ℤ) {nowMilli : ℕ} (hpayload : payload.length < 2 ^ 64)
    (hmilli : nowMilli < 2 ^ 64) (hexp : Entry.Lasts T expireAt) :
    ∃ it' lg', (xAdd key payload version expireAt maxValue autoTrim nowMilli env
        (some it)).act.result (some it) = some it' ∧ Streams T lg' it' ∧
      (lg' = lg ∨ ∃ id, lg.append payload nowMilli autoTrim = some (id, lg')) := by
  simp only [Store.xAdd, mutatePlain, entry, h.expired hnow, h.live, h.has, sxApply, h.log,
    Bool.false_eq_true, if_false, if_true]
  cases happend : lg.append payload nowMilli autoTrim with
  | none => exact ⟨it, lg, rfl, h, .inl rfl⟩
  | some r =>
    obtain ⟨id, lg'⟩ := r
    have hv := (Stream.valid_of_decodeSnapshot h.log).append hmilli hpayload happend
    by_cases hlimit : overLimit maxValue lg'.encode.length = true
    · simp only [hlimit, if_true]
      exact ⟨it, lg, rfl, h, .inl rfl⟩
    · simp only [hlimit, Bool.false_eq_true, if_false]
      exact ⟨_, lg', rfl, h.rewritten hv hexp, .inr ⟨id, rfl⟩⟩

/-- A removal that maps logs to trimmed ones. -/
theorem Streams.removed (hnow : env.now < T) (version : ℕ)
    (hexp : Entry.Lasts T expireAt) {f : Stream.Log → Stream.Log} (hv : (f lg).Valid) :
    ∃ it', (removePlain flagStream key version expireAt (fun blob =>
        (Stream.decodeSnapshot blob).map fun lg => (f lg).encode) env (some it)).act.result
          (some it) = some it' ∧ Streams T (f lg) it' := by
  simp only [removePlain, entry, h.expired hnow, h.live, h.has, h.log, Option.map_some,
    Bool.false_eq_true, if_false, Bool.not_true]
  exact ⟨_, rfl, h.rewritten hv hexp⟩

end Live

section Between

/-- What can come between two pages: calls that write the stream and keep it alive,
and anything on other keys. -/
inductive Between (T : ℤ) (key : Bytes) : Op → Prop
  | add {now : ℤ} {payload : Bytes} {version : ℕ} {expireAt maxValue autoTrim : ℤ} {nowMilli : ℕ}
    (hnow : now < T) (hpayload : payload.length < 2 ^ 64) (hmilli : nowMilli < 2 ^ 64)
    (hexp : Entry.Lasts T expireAt) :
    Between T key
      ⟨now, key, .plain (.xAdd payload version expireAt maxValue autoTrim nowMilli)⟩
  | del {now : ℤ} {id : Bytes} {version : ℕ} {expireAt : ℤ} (hnow : now < T)
    (hexp : Entry.Lasts T expireAt) :
    Between T key ⟨now, key, .plain (.xDel id version expireAt)⟩
  | trim {now maxLen : ℤ} {version : ℕ} {expireAt : ℤ} (hnow : now < T)
    (hexp : Entry.Lasts T expireAt) :
    Between T key ⟨now, key, .plain (.xTrim maxLen version expireAt)⟩
  | elsewhere {op : Op} (hnow : op.now < T) (hkey : op.key ≠ key) : Between T key op

def Op.adds (key : Bytes) (op : Op) : Bool :=
  op.key == key &&
    match op.call with
    | .plain (.xAdd ..) => true
    | _ => false

theorem countP_adds_cons (key : Bytes) (op : Op) (ops : List Op) :
    (op :: ops).countP (Op.adds key) = (op.adds key).toNat + ops.countP (Op.adds key) := by
  rw [List.countP_cons, Nat.add_comm]
  cases op.adds key <;> rfl

structure Moved (lg : Stream.Log) (n : ℕ) (added : List Stream.Entry) (lg' : Stream.Log) :
    Prop where
  ordered : lg'.Ordered
  leads : lg.Leads added lg'
  lastSeq_le : lg'.lastSeq ≤ lg.lastSeq + n
  length_le : added.length ≤ n

variable {lg : Stream.Log} {m : Mem}

theorem Moved.refl (ho : lg.Ordered) (n : ℕ) : Moved lg n [] lg :=
  ⟨ho, .refl lg, Nat.le_add_right _ _, Nat.zero_le n⟩

theorem Moved.of_trims {lg' : Stream.Log} (h : lg.Trims lg') (ho : lg.Ordered) :
    Moved lg 0 [] lg' :=
  ⟨h.ordered ho, h.leads, h.lastSeq.le, le_rfl⟩

theorem Moved.trans {lg₁ lg₂ : Stream.Log} {n n' : ℕ} {added added' : List Stream.Entry}
    (h : Moved lg n added lg₁) (h' : Moved lg₁ n' added' lg₂) :
    Moved lg (n + n') (added ++ added') lg₂ where
  ordered := h'.ordered
  leads := h.leads.trans h'.leads
  lastSeq_le := by
    have := h.lastSeq_le
    have := h'.lastSeq_le
    omega
  length_le := by
    rw [List.length_append]
    exact Nat.add_le_add h.length_le h'.length_le

variable {T : ℤ} {lg : Stream.Log} {key : Bytes}

/-- The stream is spared by evictions, so what a plan leaves is what is there. -/
theorem streamAt_perform {ρ : Type} {v : Verb LruItem ρ} (m : Mem) {now : ℤ} (hnow : now < T)
    {it it' : LruItem} (hit : m.lookup key = some it)
    (hresult : (v (m.env now) (some it)).act.result (some it) = some it') (h : Streams T lg it') :
    StreamAt (m.perform now key v).1 key T lg := by
  refine ⟨it', m.lookup_perform_of_pinned ?_ (h.pinned hnow), h⟩
  rw [Memory.expected, if_pos rfl, hit]
  exact hresult

/-- A call between two pages. -/
theorem StreamAt.step (h : StreamAt m key T lg) (ho : lg.Ordered) {op : Op} (hop : Between T key op)
    (hroom : lg.lastSeq + (op.adds key).toNat < 2 ^ 64) :
    ∃ added lg', StreamAt (step m op).1 key T lg' ∧ Moved lg (op.adds key).toNat added lg' := by
  obtain ⟨it, hit, hs⟩ := h
  cases hop with
  | @add now payload version expireAt maxValue autoTrim nowMilli hnow hpayload hmilli hexp =>
    have hadds : (Op.adds key ⟨now, key, .plain
        (.xAdd payload version expireAt maxValue autoTrim nowMilli)⟩).toNat = 1 := by
      simp [Op.adds]
    rw [hadds] at hroom ⊢
    obtain ⟨it', lg', hresult, hs', rfl | ⟨id, happend⟩⟩ := hs.xAdd key (m.env now) hnow
      version maxValue autoTrim hpayload hmilli hexp
    · exact ⟨[], lg', streamAt_perform m hnow hit hresult hs', Moved.refl ho 1⟩
    · obtain ⟨hord, hleads, -, hseq⟩ := ho.append hroom happend
      exact ⟨_, lg', streamAt_perform m hnow hit hresult hs', hord, hleads, hseq, le_rfl⟩
  | @del now id version expireAt hnow hexp =>
    have hadds : (Op.adds key ⟨now, key, .plain (.xDel id version expireAt)⟩).toNat = 0 := by
      simp [Op.adds]
    rw [hadds]
    cases hid : Stream.parseID id with
    | none =>
      refine ⟨[], lg, streamAt_perform m hnow hit ?_ hs, Moved.refl ho 0⟩
      simp only [PlainCall.verb, Call.verb, Verb.map, xDel, hid]
      rfl
    | some k =>
      obtain ⟨ms, seq⟩ := k
      have hv := (Stream.valid_of_decodeSnapshot hs.log).del ms seq
      obtain ⟨it', hresult, hs'⟩ := hs.removed (f := fun lg => lg.del ms seq) key (m.env now) hnow
        version hexp hv
      refine ⟨[], _, streamAt_perform m hnow hit ?_ hs', Moved.of_trims (lg.trims_del ms seq) ho⟩
      simp only [PlainCall.verb, Call.verb, Verb.map, xDel, hid]
      exact hresult
  | @trim now maxLen version expireAt hnow hexp =>
    have hadds : (Op.adds key ⟨now, key, .plain (.xTrim maxLen version expireAt)⟩).toNat = 0 := by
      simp [Op.adds]
    rw [hadds]
    by_cases hneg : maxLen < 0
    · refine ⟨[], lg, streamAt_perform m hnow hit ?_ hs, Moved.refl ho 0⟩
      simp only [PlainCall.verb, Call.verb, Verb.map, xTrim, if_pos hneg]
      rfl
    · have hv := (Stream.valid_of_decodeSnapshot hs.log).trim maxLen
      obtain ⟨it', hresult, hs'⟩ := hs.removed (f := fun lg => lg.trim maxLen) key (m.env now) hnow
        version hexp hv
      refine ⟨[], _, streamAt_perform m hnow hit ?_ hs', Moved.of_trims (lg.trims_trim maxLen) ho⟩
      simp only [PlainCall.verb, Call.verb, Verb.map, xTrim, if_neg hneg]
      exact hresult
  | elsewhere hnow hkey =>
    refine ⟨[], lg, ⟨it, m.lookup_perform_of_pinned ?_ (hs.pinned hnow), hs⟩, Moved.refl ho _⟩
    rw [Memory.expected, if_neg hkey.symm]
    exact hit

theorem StreamAt.run (h : StreamAt m key T lg) (ho : lg.Ordered) {ops : List Op}
    (hops : ∀ op ∈ ops, Between T key op) (hroom : lg.lastSeq + ops.countP (Op.adds key) < 2 ^ 64) :
    ∃ added lg', StreamAt (run m ops) key T lg' ∧
      Moved lg (ops.countP (Op.adds key)) added lg' := by
  induction ops generalizing m lg with
  | nil => exact ⟨[], lg, h, Moved.refl ho 0⟩
  | cons op ops ih =>
    obtain ⟨hop, hops⟩ := List.forall_mem_cons.mp hops
    rw [countP_adds_cons] at hroom ⊢
    obtain ⟨added, lg₁, h₁, hmoved⟩ := h.step ho hop (by omega)
    have hseq := hmoved.lastSeq_le
    obtain ⟨added', lg₂, h₂, hmoved'⟩ := ih h₁ hmoved.ordered hops (by omega)
    exact ⟨added ++ added', lg₂, h₂, hmoved.trans hmoved'⟩

end Between

section Pages

def shown (e : Stream.Entry) : Bytes × Bytes := (Stream.formatID e.ms e.seq, e.payload)

/-- Pages of the stream at the given times, each from after the last id of the one
before, until one is empty; the calls of the script come after each page. The result
is nothing if the fuel ends or a page is refused. -/
def xPages (key : Bytes) (count : ℤ) (times : ℕ → ℤ) :
    ℕ → List (List Op) → ℕ → Mem → Bytes → Option (List (List (Bytes × Bytes)) × Mem)
  | 0, _, _, _, _ => none
  | fuel + 1, script, i, m, start =>
    match m.perform (times i) key (xRange start [0x2B] count false) with
    | (m, .ok (some page)) =>
      match page.getLast? with
      | none => some ([], m)
      | some last =>
        (xPages key count times fuel script.tail (i + 1) (run m (script.headD []))
          (0x28 :: last.1)).map fun r => (page :: r.1, r.2)
    | _ => none

inductive Starts : Bytes → WithBot Stream.Id → Prop
  | first : Starts [0x2D] ⊥
  | next (e : Stream.Entry) (he : e.Fits) :
    Starts (0x28 :: Stream.formatID e.ms e.seq) (e.id : WithBot Stream.Id)

def boundOf : WithBot Stream.Id → Stream.Bound
  | none => .min
  | some k => .at (ofLex k).1 (ofLex k).2 true

variable {cursor : WithBot Stream.Id} {count : ℤ} {start : Bytes} {m : Mem} {size n : ℕ}
  {lg' : Stream.Log} {last : Stream.Entry} {added : List Stream.Entry} {script : List (List Op)}

theorem Starts.parseBound (h : Starts start cursor) :
    Stream.parseBound start true = some (boundOf cursor) := by
  cases h with
  | first => rfl
  | next e he =>
    have hne : Stream.formatID e.ms e.seq ≠ [] := by simp [Stream.formatID]
    have hdash : (Stream.formatID e.ms e.seq).contains 0x2D = true := by simp [Stream.formatID]
    rw [Stream.parseBound, if_neg (by simp [hne]), if_neg (by simp [hne])]
    simp only [List.head?_cons, BEq.rfl, if_true, List.tail_cons, hne, Bool.not_true,
      Bool.false_eq_true, or_self, and_false, if_false, hdash,
      Stream.parseID_formatID he.ms he.seq]
    rfl

variable {T : ℤ} {lg : Stream.Log} {key : Bytes}

theorem clampCount_pos (h : 1 ≤ count) : 1 ≤ Stream.clampCount count := by
  unfold Stream.clampCount
  split
  · omega
  · split
    · decide
    · omega

theorem range_eq_page (lg : Stream.Log) (cursor : WithBot Stream.Id) (h : 1 ≤ count) :
    lg.range (boundOf cursor) .max count false =
      Cursor.page Stream.Entry.id (Stream.clampCount count) cursor lg.entries := by
  have hinside : ∀ e : Stream.Entry, (!((boundOf cursor).below e || Stream.Bound.max.above e)) =
      decide (cursor < (e.id : WithBot Stream.Id)) := by
    intro e
    cases cursor with
    | bot => simp [boundOf, Stream.Bound.below, Stream.Bound.above]
    | coe k =>
      have hlt : Stream.idLt (ofLex k) (e.ms, e.seq) = true ↔ k < e.id :=
        Stream.idLt_iff (ofLex k) (e.ms, e.seq)
      rw [Bool.eq_iff_iff, decide_eq_true_eq, WithBot.coe_lt_coe]
      simpa [boundOf, Stream.Bound.below, Stream.Bound.above] using hlt
  simp only [Stream.Log.range, hinside, Bool.false_eq_true, if_false]
  rw [if_pos (show 0 < Stream.clampCount count from clampCount_pos h)]
  rfl

/-- A page of a live stream, which changes nothing about the stream. -/
theorem StreamAt.page (h : StreamAt m key T lg) {now : ℤ} (hnow : now < T)
    (hstart : Starts start cursor) (hcount : 1 ≤ count) :
    ∃ m', m.perform now key (xRange start [0x2B] count false) =
        (m', .ok (some ((Cursor.page Stream.Entry.id (Stream.clampCount count) cursor
          lg.entries).map shown))) ∧ StreamAt m' key T lg := by
  obtain ⟨it, hit, hs⟩ := h
  have hstop : Stream.parseBound [0x2B] false = some .max := rfl
  have hx : it.entry.expired (m.env now).now = false := hs.expired hnow
  have hplan : xRange start [0x2B] count false (m.env now) (some it) =
      Plan.skip (.ok (some ((Cursor.page Stream.Entry.id (Stream.clampCount count) cursor
          lg.entries).map shown))) := by
    simp only [xRange, hstart.parseBound, hstop, liveStream, readLive, entry, hx, hs.live, hs.has,
      Bool.false_eq_true, if_false, Bool.not_true, or_self, hs.log, Option.map_some,
      range_eq_page lg cursor hcount]
    rfl
  refine ⟨(m.perform now key (xRange start [0x2B] count false)).1, Prod.ext rfl ?_, ?_⟩
  · rw [Memory.perform_ret, hit, hplan]
    rfl
  · exact streamAt_perform m hnow hit (by rw [hplan]; rfl) hs

/-- One pass over the pages: what it was shown, from which logs, and the log at the end. -/
structure Pass (size : ℕ) (cursor : WithBot Stream.Id) (lg : Stream.Log) (n : ℕ)
    (views pages : List (List Stream.Entry)) (final : Stream.Log) : Prop where
  paged : Cursor.Paged Stream.Entry.id size cursor views pages
  ascending : ∀ xs ∈ views, Cursor.Ascending Stream.Entry.id xs
  extending : views.Pairwise (Cursor.Extends Stream.Entry.id)
  final : views.getLast? = some final.entries
  leads : ∃ added : List Stream.Entry, added.length ≤ n ∧ (∀ e ∈ added, lg.last < e.id) ∧
    ∀ xs ∈ views, xs ⊆ lg.entries ++ added

theorem Pass.done (ho : lg.Ordered) (hnil : Cursor.page Stream.Entry.id size cursor lg.entries = [])
    (n : ℕ) : Pass size cursor lg n [lg.entries] [] lg where
  paged := .done hnil
  ascending := List.forall_mem_singleton.mpr ho.ascending
  extending := List.pairwise_singleton _ _
  final := rfl
  leads := ⟨[], Nat.zero_le n, List.forall_mem_nil _,
    List.forall_mem_singleton.mpr (List.subset_append_left _ _)⟩

/-- One more page in front of a pass. -/
theorem Pass.more (ho : lg.Ordered)
    (hlast : (Cursor.page Stream.Entry.id size cursor lg.entries).getLast? = some last) {n' : ℕ}
    {final : Stream.Log} (hmoved : Moved lg n added lg') {views pages : List (List Stream.Entry)}
    (h : Pass size last.id lg' n' views pages final) :
    Pass size cursor lg (n + n') (lg.entries :: views)
      (Cursor.page Stream.Entry.id size cursor lg.entries :: pages) final := by
  obtain ⟨later, hlen, hfresh, hviews⟩ := h.leads
  -- whatever a later page sees was there or came after the last id of now
  have hall : ∀ xs ∈ views, xs ⊆ lg.entries ++ (added ++ later) := by
    intro xs hxs e he
    rw [← List.append_assoc]
    rcases List.mem_append.mp (hviews xs hxs he) with hold | hnew
    · exact List.mem_append_left _ (hmoved.leads.entries hold)
    · exact List.mem_append_right _ hnew
  have hnew : ∀ e ∈ added ++ later, lg.last < e.id := by
    intro e he
    rcases List.mem_append.mp he with he | he
    · exact hmoved.leads.fresh e he
    · exact lt_of_le_of_lt hmoved.leads.last_le (hfresh e he)
  constructor
  · exact .more hlast h.paged
  · exact List.forall_mem_cons.mpr ⟨ho.ascending, h.ascending⟩
  · refine List.pairwise_cons.mpr ⟨fun xs hxs e he => ?_, h.extending⟩
    rcases List.mem_append.mp (hall xs hxs he) with hold | hnew'
    · exact .inl hold
    · exact .inr fun x hx => lt_of_le_of_lt (ho.le_last x hx) (hnew e hnew')
  · rw [List.getLast?_cons_of_ne_nil h.paged.ne_nil]
    exact h.final
  · refine ⟨added ++ later, ?_, hnew, List.forall_mem_cons.mpr ⟨?_, hall⟩⟩
    · rw [List.length_append]
      exact Nat.add_le_add hmoved.length_le hlen
    · exact List.subset_append_left _ _

/-- The entries left to visit, after a page and the calls that follow it. -/
theorem length_after_moved
    (hlast : (Cursor.page Stream.Entry.id size cursor lg.entries).getLast? = some last)
    (hmoved : Moved lg n added lg') : (Cursor.after Stream.Entry.id last.id lg'.entries).length <
      (Cursor.after Stream.Entry.id cursor lg.entries).length + n := by
  obtain ⟨hmem, hafter⟩ := Cursor.mem_of_mem_page (List.mem_of_getLast? hlast)
  have hfewer := Cursor.length_after_lt hmem hafter
  have hsub : Cursor.after Stream.Entry.id last.id lg'.entries ⊆
      Cursor.after Stream.Entry.id last.id lg.entries ++ added := by
    intro e he
    obtain ⟨hin, hgt⟩ := Cursor.mem_after.mp he
    rcases List.mem_append.mp (hmoved.leads.entries hin) with hold | hnew
    · exact List.mem_append_left _ (Cursor.mem_after.mpr ⟨hold, hgt⟩)
    · exact List.mem_append_right _ hnew
  have hnodup : (Cursor.after Stream.Entry.id last.id lg'.entries).Nodup :=
    hmoved.ordered.ascending.after.imp fun {a b} hlt heq => by
      rw [heq] at hlt
      exact lt_irrefl _ hlt
  have hlen := (List.subperm_of_subset hnodup hsub).length_le
  rw [List.length_append] at hlen
  have := hmoved.length_le
  omega

theorem countP_script (p : Op → Bool) (script : List (List Op)) :
    script.flatten.countP p = (script.headD []).countP p + script.tail.flatten.countP p := by
  cases script with
  | nil => rfl
  | cons ops script =>
    rw [List.flatten_cons, List.countP_append]
    rfl

theorem headD_tail_of_flatten (h : script.flatten = []) :
    script.headD [] = [] ∧ script.tail.flatten = [] := by
  cases script with
  | nil => exact ⟨rfl, rfl⟩
  | cons ops script => exact List.append_eq_nil_iff.mp h

theorem StreamAt.unique (h : StreamAt m key T lg) (h' : StreamAt m key T lg') : lg = lg' := by
  obtain ⟨it, hit, hs⟩ := h
  obtain ⟨it', hit', hs'⟩ := h'
  obtain rfl := Option.some.inj (hit.symm.trans hit')
  exact Option.some.inj (hs.log.symm.trans hs'.log)

/-- The loop of pages is a pass over the logs it meets. -/
theorem xPages_pass (hcount : 1 ≤ count) {times : ℕ → ℤ} (htimes : ∀ i, times i < T) {fuel : ℕ}
    (hscript : ∀ ops ∈ script, ∀ op ∈ ops, Between T key op) (h : StreamAt m key T lg)
    (ho : lg.Ordered) (hstart : Starts start cursor) (i : ℕ)
    (hroom : lg.lastSeq + script.flatten.countP (Op.adds key) < 2 ^ 64)
    (hfuel : (Cursor.after Stream.Entry.id cursor lg.entries).length +
      script.flatten.countP (Op.adds key) < fuel) :
    ∃ views pages final m', xPages key count times fuel script i m start =
        some (pages.map (List.map shown), m') ∧ StreamAt m' key T final ∧
      Pass (Stream.clampCount count) cursor lg (script.flatten.countP (Op.adds key)) views pages
        final ∧ (script.flatten = [] → final = lg) := by
  induction fuel generalizing script m lg start cursor i with
  | zero => exact absurd hfuel (Nat.not_lt_zero _)
  | succ fuel ih =>
    obtain ⟨m₁, hperform, h₁⟩ := h.page (htimes i) hstart hcount
    rw [countP_script] at hroom hfuel ⊢
    cases hlast : (Cursor.page Stream.Entry.id (Stream.clampCount count) cursor
        lg.entries).getLast? with
    | none =>
      have hnil := List.getLast?_eq_none_iff.mp hlast
      refine ⟨[lg.entries], [], lg, m₁, ?_, h₁, Pass.done ho hnil _, fun _ => rfl⟩
      simp only [xPages, hperform, List.getLast?_map, hlast]
      rfl
    | some last =>
      have hhead : ∀ op ∈ script.headD [], Between T key op := by
        cases script with
        | nil => exact List.forall_mem_nil _
        | cons ops script => exact hscript ops List.mem_cons_self
      obtain ⟨added, lg', h₂, hmoved⟩ := h₁.run ho hhead (by omega)
      have hseq := hmoved.lastSeq_le
      have hleft := length_after_moved hlast hmoved
      have hfits := (Stream.valid_of_decodeSnapshot h.choose_spec.2.log).entries last
        (Cursor.mem_of_mem_page (List.mem_of_getLast? hlast)).1
      obtain ⟨views, pages, final, m', hpages, hfinal, hpass, hsame⟩ :=
        ih (fun ops hops => hscript ops (List.mem_of_mem_tail hops)) h₂ hmoved.ordered
          (Starts.next last hfits) (i + 1) (by omega) (by omega)
      refine ⟨_, _, final, m', ?_, hfinal, hpass.more ho hlast hmoved, fun hnil => ?_⟩
      · simp only [xPages, hperform, List.getLast?_map, hlast, Option.map_some, shown]
        rw [hpages]
        rfl
      · obtain ⟨hops, htail⟩ := headD_tail_of_flatten hnil
        rw [hops] at h₂
        rw [hsame htail]
        exact h₂.unique h₁

end Pages

section History

inductive Serves (key : Bytes) : Op → Prop
  | add (now : ℤ) {payload : Bytes} (version : ℕ) (expireAt maxValue autoTrim : ℤ) {nowMilli : ℕ}
    (hpayload : payload.length < 2 ^ 64) (hmilli : nowMilli < 2 ^ 64) :
    Serves key ⟨now, key, .plain (.xAdd payload version expireAt maxValue autoTrim nowMilli)⟩
  | del (now : ℤ) (id : Bytes) (version : ℕ) (expireAt : ℤ) :
    Serves key ⟨now, key, .plain (.xDel id version expireAt)⟩
  | trim (now maxLen : ℤ) (version : ℕ) (expireAt : ℤ) :
    Serves key ⟨now, key, .plain (.xTrim maxLen version expireAt)⟩
  | install (now : ℤ) (blob : Bytes) (version : ℕ) (expireAt : ℤ) :
    Serves key ⟨now, key, .plain (.sxInstall blob version expireAt)⟩
  | range (now : ℤ) (start stop : Bytes) (count : ℤ) (rev : Bool) :
    Serves key ⟨now, key, .plain (.xRange start stop count rev)⟩
  | len (now : ℤ) : Serves key ⟨now, key, .plain .xLen⟩
  | has (now : ℤ) : Serves key ⟨now, key, .plain .hasStream⟩
  | delete (now : ℤ) : Serves key ⟨now, key, .plain .delete⟩
  | deleteIfVersion (now : ℤ) (version : ℕ) :
    Serves key ⟨now, key, .plain (.deleteIfVersion version)⟩
  | elsewhere {op : Op} (hkey : op.key ≠ key) : Serves key op

/-- The log has its ids in order and room for so many more. -/
def Roomy (n : ℕ) (lg : Stream.Log) : Prop := lg.Ordered ∧ lg.lastSeq + n < 2 ^ 64

/-- If the call installs a snapshot of the stream, its ids are in order. -/
def Op.InOrder (key : Bytes) (n : ℕ) (op : Op) : Prop :=
  op.key = key → ∀ blob version expireAt, op.call = .plain (.sxInstall blob version expireAt) →
    ∀ lg ∈ Stream.decodeSnapshot blob, Roomy n lg

def StreamTidy (n : ℕ) (it : LruItem) : Prop :=
  it.entry.has flagStream = true → ∀ lg ∈ Stream.decodeSnapshot it.entry.value, Roomy n lg

variable {n n' : ℕ} {lg lg' : Stream.Log} {m : Mem} {payload : Bytes} {autoTrim : ℤ}
  {old : Option LruItem}

theorem Roomy.mono (hle : n ≤ n') (h : Roomy n' lg) : Roomy n lg :=
  ⟨h.1, lt_of_le_of_lt (Nat.add_le_add_left hle _) h.2⟩

theorem roomy_new (h : n < 2 ^ 64) : Roomy n Stream.new :=
  ⟨Stream.ordered_new, by rw [show Stream.new.lastSeq = 0 from rfl]; omega⟩

theorem Roomy.append (h : Roomy (n + 1) lg) {id : Bytes} {now : ℕ}
    (happend : lg.append payload now autoTrim = some (id, lg')) : Roomy n lg' := by
  obtain ⟨hord, hroom⟩ := h
  obtain ⟨hord', -, -, hseq⟩ := hord.append (by omega) happend
  exact ⟨hord', by omega⟩

theorem Roomy.of_trims (h : Roomy n lg) (htrims : lg.Trims lg') : Roomy n lg' :=
  ⟨htrims.ordered h.1, by rw [htrims.lastSeq]; exact h.2⟩

variable {key : Bytes}

/-- The item of a mutation of the mode, in terms of what it wrote. -/
theorem streamTidy_of_written (hle : n ≤ n') {makes : Option Bytes → Bytes → Prop} {it' : LruItem}
    (h : Written flagStream makes old it') (hold : ∀ it ∈ old, StreamTidy n' it)
    (hnew : ∀ blob, makes none blob → ∀ lg ∈ Stream.decodeSnapshot blob, Roomy n lg)
    (hover : ∀ b blob, makes (some b) blob → (∀ lg ∈ Stream.decodeSnapshot b, Roomy n' lg) →
      ∀ lg ∈ Stream.decodeSnapshot blob, Roomy n lg) : StreamTidy n it' := by
  intro hhas lg hlg
  cases h with
  | kept h => exact (hold it' h hhas lg hlg).mono hle
  | new h hflags => exact hnew _ h lg hlg
  | amended it hit ht hflag h hflags => exact hover _ _ h (hold it hit hflag) lg hlg

theorem roomy_of_sxApply {maxValue : ℤ} {nowMilli : ℕ} {cur : Option Bytes} {blob : Bytes}
    {r : Bool → XAdded} (hpayload : payload.length < 2 ^ 64) (hmilli : nowMilli < 2 ^ 64)
    (h : sxApply payload maxValue autoTrim nowMilli cur = .commit blob r)
    (hcur : ∀ lg, (cur = none ∧ lg = Stream.new ∨
      ∃ b, cur = some b ∧ Stream.decodeSnapshot b = some lg) → Roomy (n + 1) lg ∧ lg.Valid) :
    ∀ lg ∈ Stream.decodeSnapshot blob, Roomy n lg := by
  obtain ⟨lg, id, lg', hlg, happend, rfl, -⟩ := log_of_sxApply h
  obtain ⟨hroomy, hv⟩ := hcur lg hlg
  rw [Stream.decodeSnapshot_encode (hv.append hmilli hpayload happend)]
  intro lg'' hlg''
  rw [← Option.some.inj hlg'']
  exact hroomy.append happend

theorem streamTidy_of_removed {version : ℕ} {expireAt : ℤ} {env : Env} {it : LruItem}
    (hold : ∀ it ∈ old, StreamTidy n it) {f : Stream.Log → Stream.Log}
    (h : (removePlain flagStream key version expireAt (fun blob =>
      (Stream.decodeSnapshot blob).map fun lg => (f lg).encode) env old).act.result old = some it)
    (htrims : ∀ lg : Stream.Log, lg.Trims (f lg))
    (hvalid : ∀ {lg : Stream.Log}, lg.Valid → (f lg).Valid) : StreamTidy n it := by
  refine streamTidy_of_written le_rfl (written_removePlain h) hold ?_ ?_
  · rintro blob ⟨b, hb, -⟩
    simp at hb
  · rintro b blob ⟨b', hb', hblob⟩ hb lg hlg
    obtain rfl := Option.some.inj hb'
    obtain ⟨lg₀, hlg₀, rfl⟩ := Option.map_eq_some_iff.mp hblob
    rw [Stream.decodeSnapshot_encode (hvalid (Stream.valid_of_decodeSnapshot hlg₀))] at hlg
    rw [← Option.some.inj hlg]
    exact (hb lg₀ hlg₀).of_trims (htrims lg₀)

theorem Memory.forall_lookup_map {α ρ τ : Type} [Stored α] {P : α → Prop} (m : Memory α) (now : ℤ)
    (key : Bytes) (v : Verb α ρ) {f : ρ → τ}
    (h : ∀ a, (v (m.env now) (m.lookup key)).act.result (m.lookup key) = some a → P a) :
    ∀ a ∈ (m.perform now key (v.map f)).1.lookup key, P a := m.forall_lookup_perform now key h

/-- Every call that a stream gets keeps its ids in order. -/
theorem streamTidy_step {op : Op} (hop : Serves key op) (hroom : n + (op.adds key).toNat < 2 ^ 64)
    (hin : op.InOrder key n) (h : ∀ it ∈ m.lookup key, StreamTidy (n + (op.adds key).toNat) it) :
    ∀ it ∈ (step m op).1.lookup key, StreamTidy n it := by
  have hkept : ∀ it ∈ m.lookup key, StreamTidy n it := fun it hit hhas lg hlg =>
    (h it hit hhas lg hlg).mono (Nat.le_add_right n _)
  cases hop with
  | @add now payload version expireAt maxValue autoTrim nowMilli hpayload hmilli =>
    have hadds : (Op.adds key ⟨now, key, .plain
        (.xAdd payload version expireAt maxValue autoTrim nowMilli)⟩).toNat = 1 := by
      simp [Op.adds]
    rw [hadds] at hroom h
    refine m.forall_lookup_map now key
      (xAdd key payload version expireAt maxValue autoTrim nowMilli) fun it hwritten => ?_
    refine streamTidy_of_written (Nat.le_add_right n 1) (written_mutatePlain hwritten) h ?_ ?_
    · rintro blob ⟨r, hr⟩
      exact roomy_of_sxApply hpayload hmilli hr fun lg hlg => by
        rcases hlg with ⟨-, rfl⟩ | ⟨b, hb, -⟩
        · exact ⟨roomy_new hroom, Stream.Log.Valid.new⟩
        · simp at hb
    · rintro b blob ⟨r, hr⟩ hb
      exact roomy_of_sxApply hpayload hmilli hr fun lg hlg => by
        rcases hlg with ⟨hnone, -⟩ | ⟨b', hb', hlg⟩
        · simp at hnone
        · obtain rfl := Option.some.inj hb'
          exact ⟨hb lg hlg, Stream.valid_of_decodeSnapshot hlg⟩
  | del now id version expireAt =>
    refine m.forall_lookup_map now key (xDel key id version expireAt) fun it hwritten => ?_
    unfold xDel at hwritten
    rcases hid : Stream.parseID id with _ | ⟨ms, seq⟩
    · simp only [hid] at hwritten
      exact hkept it hwritten
    · simp only [hid] at hwritten
      exact streamTidy_of_removed hkept hwritten (fun lg => lg.trims_del ms seq) fun hv =>
        hv.del ms seq
  | trim now maxLen version expireAt =>
    refine m.forall_lookup_map now key (xTrim key maxLen version expireAt) fun it hwritten => ?_
    unfold xTrim at hwritten
    split at hwritten
    · exact hkept it hwritten
    · exact streamTidy_of_removed hkept hwritten (fun lg => lg.trims_trim maxLen) fun hv =>
        hv.trim maxLen
  | install now blob version expireAt =>
    refine m.forall_lookup_map now key (sxInstall key blob version expireAt) fun it hwritten => ?_
    unfold sxInstall at hwritten
    split at hwritten
    · refine streamTidy_of_written le_rfl (written_plainInstall hwritten) hkept ?_ ?_
      · rintro b ⟨-, rfl⟩
        exact hin rfl b version expireAt rfl
      · rintro b b' ⟨hb, -⟩
        simp at hb
    · exact hkept it hwritten
  | range now start stop count rev =>
    refine m.forall_lookup_map now key (xRange start stop count rev) fun it hread => ?_
    unfold xRange at hread
    split at hread
    · exact hkept it (result_readLive hread)
    · exact hkept it hread
  | len now =>
    exact m.forall_lookup_map now key xLen fun it hread => hkept it (result_readLive hread)
  | has now =>
    exact m.forall_lookup_map now key hasStream fun it hread => hkept it (result_readLive hread)
  | delete now =>
    refine m.forall_lookup_map now key Store.delete fun it hdrop => ?_
    rw [result_delete] at hdrop
    simp at hdrop
  | deleteIfVersion now version =>
    refine m.forall_lookup_map now key (Store.deleteIfVersion key version) fun it hdrop => ?_
    rcases result_deleteIfVersion hdrop with hold | htomb
    · exact hkept it hold
    · intro hhas
      have hflags : it.entry.flags = flagTombstone := by
        rw [show it.entry = _ from htomb]
        rfl
      rw [Entry.has_of_flags hflags] at hhas
      exact absurd hhas (by decide)
  | elsewhere hkey => exact fun it hit => hkept it (m.lookup_perform_of_ne op.now hkey _ hit)

theorem streamTidy_run {ops : List Op} (hops : ∀ op ∈ ops, Serves key op)
    (hroom : n + ops.countP (Op.adds key) < 2 ^ 64)
    (hin : ∀ op ∈ ops, op.InOrder key (n + ops.countP (Op.adds key)))
    (h : ∀ it ∈ m.lookup key, StreamTidy (n + ops.countP (Op.adds key)) it) :
    ∀ it ∈ (run m ops).lookup key, StreamTidy n it := by
  induction ops generalizing m with
  | nil => exact h
  | cons op ops ih =>
    obtain ⟨hop, hops⟩ := List.forall_mem_cons.mp hops
    rw [countP_adds_cons, ← Nat.add_assoc] at hroom hin h
    obtain ⟨hin₀, hin⟩ := List.forall_mem_cons.mp hin
    have hle : n + ops.countP (Op.adds key) ≤
        n + (op.adds key).toNat + ops.countP (Op.adds key) := by omega
    refine ih hops (by omega) (fun o ho hkey b v x hcall lg hlg => ?_) ?_
    · exact (hin o ho hkey b v x hcall lg hlg).mono hle
    · refine streamTidy_step hop (by omega) (fun hkey b v x hcall lg hlg => ?_) fun it hit => ?_
      · exact (hin₀ hkey b v x hcall lg hlg).mono hle
      · rw [Nat.add_right_comm]
        exact h it hit

/-- Paging through a stream visits everything, once and in order, if the snapshots
that were installed had their ids in order and no sequence number wraps. -/
theorem xPages_complete (m : Mem) (key : Bytes) (hnew : m.lookup key = none) (history : List Op)
    (hserves : ∀ op ∈ history, Serves key op) (T : ℤ) (lg : Stream.Log)
    (hlive : StreamAt (run m history) key T lg) (count : ℤ) (hcount : 1 ≤ count) (times : ℕ → ℤ)
    (htimes : ∀ i, times i < T) (script : List (List Op))
    (hscript : ∀ ops ∈ script, ∀ op ∈ ops, Between T key op)
    (hfew : (history ++ script.flatten).countP (Op.adds key) < 2 ^ 64)
    (hin : ∀ op ∈ history, op.InOrder key ((history ++ script.flatten).countP (Op.adds key))) :
    ∃ (pages : List (List Stream.Entry)) (final : Stream.Log) (m' : Mem),
      xPages key count times (lg.entries.length + script.flatten.countP (Op.adds key) + 1) script 0
        (run m history) [0x2D] = some (pages.map (List.map shown), m') ∧
      StreamAt m' key T final ∧
      (pages.flatten.Pairwise fun a b => toLex (a.ms, a.seq) < toLex (b.ms, b.seq)) ∧
      (∀ e ∈ final.entries, e ∈ pages.flatten) ∧
      (∀ e ∈ pages.flatten, e ∈ lg.entries ∨ toLex (lg.lastMs, lg.lastSeq) < toLex (e.ms, e.seq)) ∧
      pages.length ≤ pages.flatten.length ∧
      (script.flatten = [] → pages.flatten = lg.entries) := by
  rw [List.countP_append, Nat.add_comm] at hfew hin
  have hnone : ∀ it ∈ m.lookup key,
      StreamTidy (script.flatten.countP (Op.adds key) + history.countP (Op.adds key)) it := by
    intro it hit
    rw [hnew] at hit
    simp at hit
  obtain ⟨it, hit, hs⟩ := hlive
  obtain ⟨ho, hroom⟩ := streamTidy_run hserves hfew hin hnone it hit hs.has lg hs.log
  have hall : (Cursor.after Stream.Entry.id ⊥ lg.entries).length ≤ lg.entries.length :=
    List.length_filter_le _ _
  obtain ⟨views, pages, final, m', hpages, hfinal, hpass, hsame⟩ :=
    xPages_pass hcount htimes hscript ⟨it, hit, hs⟩ ho .first 0 hroom (Nat.lt_succ_of_le
      (Nat.add_le_add_right hall _))
  have hasc := hpass.paged.ascending hpass.ascending
  have hcomplete : ∀ e ∈ final.entries, e ∈ pages.flatten := fun e he =>
    hpass.paged.complete (clampCount_pos hcount) hpass.ascending hpass.extending hpass.final he
      (WithBot.bot_lt_coe _)
  obtain ⟨added, hlen, hfresh, hviews⟩ := hpass.leads
  have hfrom : ∀ e ∈ pages.flatten, e ∈ lg.entries ∨ e ∈ added := by
    intro e he
    obtain ⟨xs, hxs, hmem⟩ := hpass.paged.mem_views he
    exact List.mem_append.mp (hviews xs hxs hmem)
  refine ⟨pages, final, m', hpages, hfinal, hasc, hcomplete, fun e he => ?_, hpass.paged.length_le,
    fun hnil => ?_⟩
  · exact (hfrom e he).imp_right (hfresh e)
  · rw [hnil] at hlen
    obtain rfl := List.length_eq_zero_iff.mp (Nat.le_zero.mp hlen)
    rw [hsame hnil] at hcomplete
    refine hasc.ext ho.ascending fun e => ⟨fun he => ?_, hcomplete e⟩
    exact (hfrom e he).resolve_right (List.not_mem_nil)

def holdsStream (m : Mem) (key : Bytes) (lg : Stream.Log) : Bool :=
  (m.lookup key).any fun it => it.entry.has flagStream && !it.entry.isTombstone &&
    it.entry.expireAt == 0 && Stream.decodeSnapshot it.entry.value == some lg

theorem streamAt_of_holdsStream (T : ℤ) (h : holdsStream m key lg = true) :
    StreamAt m key T lg := by
  obtain ⟨it, hit, h⟩ := (Option.any_eq_true _ _).mp h
  simp only [Bool.and_eq_true, Bool.not_eq_true', beq_iff_eq] at h
  obtain ⟨⟨⟨hhas, ht⟩, hexp⟩, hlog⟩ := h
  exact ⟨it, hit, hhas, ht, .inl hexp, hlog⟩

/-- Two entries and a third one between the pages. -/
theorem xPages_complete_three :
    let add (payload : Bytes) : Op := ⟨1, [0x6B], .plain (.xAdd payload 1 0 0 0 5)⟩
    ∃ (pages : List (List Stream.Entry)) (final : Stream.Log) (m' : Mem),
      xPages [0x6B] 1 (fun _ => 2) 4 [[add [3]]] 0 (run (Memory.newMemory 0 0) [add [1], add [2]])
        [0x2D] = some (pages.map (List.map shown), m') ∧
      StreamAt m' [0x6B] 9 final ∧
      (pages.flatten.Pairwise fun a b => toLex (a.ms, a.seq) < toLex (b.ms, b.seq)) ∧
      (∀ e ∈ final.entries, e ∈ pages.flatten) ∧
      (∀ e ∈ pages.flatten, e ∈ [⟨5, 0, [1]⟩, ⟨5, 1, [2]⟩] ∨ toLex (5, 1) < toLex (e.ms, e.seq)) ∧
      pages.length ≤ pages.flatten.length ∧
      ([[add [3]]].flatten = [] → pages.flatten = [⟨5, 0, [1]⟩, ⟨5, 1, [2]⟩]) := by
  intro add
  refine xPages_complete (Memory.newMemory 0 0) [0x6B] rfl [add [1], add [2]] ?_ 9
    ⟨5, 1, [⟨5, 0, [1]⟩, ⟨5, 1, [2]⟩]⟩ (streamAt_of_holdsStream 9 (by decide +kernel)) 1 (by decide)
    (fun _ => 2) (fun _ => by decide) [[add [3]]] ?_ (by decide) ?_
  · simp only [List.forall_mem_cons]
    exact ⟨.add 1 1 0 0 0 (by decide) (by decide), .add 1 1 0 0 0 (by decide) (by decide),
      List.forall_mem_nil _⟩
  · simp only [List.forall_mem_singleton]
    exact .add (by decide) (by decide) (by decide) (.inl rfl)
  · intro op hop hkey b v x hcall
    simp only [add, List.mem_cons, List.not_mem_nil, or_false] at hop
    rcases hop with rfl | rfl <;> simp at hcall

/-- A snapshot with its ids out of order is installed, and the second entry is never
visited although it stays. -/
theorem xPages_out_of_order :
    let lg : Stream.Log := ⟨5, 0, [⟨5, 0, [1]⟩, ⟨3, 0, [2]⟩]⟩
    let m := run (Memory.newMemory 0 0) [⟨1, [0x6B], .plain (.sxInstall lg.encode 1 0)⟩]
    StreamAt m [0x6B] 9 lg ∧ ∃ r, xPages [0x6B] 1 (fun _ => 2) 3 [] 0 m [0x2D] = some r ∧
      r.1 = [[shown ⟨5, 0, [1]⟩]] ∧ StreamAt r.2 [0x6B] 9 lg := by
  intro lg m
  refine ⟨streamAt_of_holdsStream 9 (by decide +kernel), ?_⟩
  have hpages : (xPages [0x6B] 1 (fun _ => 2) 3 [] 0 m [0x2D]).any (fun r =>
      r.1 == [[shown ⟨5, 0, [1]⟩]] && holdsStream r.2 [0x6B] lg) = true := by decide +kernel
  obtain ⟨r, hr, h⟩ := (Option.any_eq_true _ _).mp hpages
  rw [Bool.and_eq_true, beq_iff_eq] at h
  exact ⟨r, hr, h.1, streamAt_of_holdsStream 9 h.2⟩

end History

end Supercache
