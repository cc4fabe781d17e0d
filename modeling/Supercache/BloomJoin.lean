import Supercache.Ops

/-!
Bloom filters as sets of bits. An add and a merge each set some bits and clear
none, so after a run of them exactly the bits are set that one of them sets.
What was added or merged tests positive from then on, and the bits do not
depend on the order of the operations or on how often each of them arrived.
-/
namespace Supercache

open Wire Lru

namespace Bloom

def bitOf (b : UInt8) (j : ℕ) : Bool := b &&& (1 <<< UInt8.ofNat j) != 0

theorem bitOf_or (a b : UInt8) (j : ℕ) : bitOf (a ||| b) j = (bitOf a j || bitOf b j) := by
  unfold bitOf
  rw [or_and_distrib, Bool.eq_iff_iff]
  simp only [bne_iff_ne, ne_eq, UInt8.or_eq_zero_iff, Bool.or_eq_true]
  tauto

theorem bitOf_mask : ∀ l < 8, ∀ j < 8, bitOf (1 <<< UInt8.ofNat l) j = decide (j = l) := by
  decide

theorem bitOf_eq_testBit (b : UInt8) : ∀ j < 8, bitOf b j = b.toNat.testBit j := by
  have hall : ∀ n < 256, ∀ j < 8, bitOf (UInt8.ofNat n) j = n.testBit j := by decide +kernel
  intro j hj
  have hb := hall b.toNat b.toNat_lt j hj
  rwa [UInt8.ofNat_toNat] at hb

theorem byte_ext {a b : UInt8} (h : ∀ j < 8, bitOf a j = bitOf b j) : a = b := by
  apply UInt8.toNat_inj.mp
  apply Nat.eq_of_testBit_eq
  intro j
  by_cases hj : j < 8
  · rw [← bitOf_eq_testBit a j hj, ← bitOf_eq_testBit b j hj]
    exact h j hj
  · have hpow : (2 : ℕ) ^ 8 ≤ 2 ^ j := Nat.pow_le_pow_right (by omega) (by omega)
    rw [Nat.testBit_lt_two_pow (a.toNat_lt.trans_le hpow),
      Nat.testBit_lt_two_pow (b.toNat_lt.trans_le hpow)]

theorem testBit_eq (bits : Bytes) (i : ℕ) : testBit bits i = bitOf (bits.getD (i / 8) 0) (i % 8) :=
  rfl

/-- Bit sets of one length with the same bits are equal. -/
theorem bits_ext {a b : Bytes} (hlen : a.length = b.length) (h : ∀ i, testBit a i = testBit b i) :
    a = b := by
  refine List.ext_getElem hlen fun n ha hb => byte_ext fun j hj => ?_
  have hi := h (8 * n + j)
  rw [testBit_eq, testBit_eq, show (8 * n + j) / 8 = n by omega, show (8 * n + j) % 8 = j by omega,
    List.getD_eq_getElem _ _ ha, List.getD_eq_getElem _ _ hb] at hi
  exact hi

theorem testBit_setBit_eq (bits : Bytes) {idx : ℕ} (hidx : idx / 8 < bits.length) (i : ℕ) :
    testBit (setBit bits idx) i = (testBit bits i || decide (i = idx)) := by
  rw [testBit_eq, testBit_eq, setBit, List.getD_eq_getElem?_getD, List.getElem?_modify,
    List.getD_eq_getElem?_getD]
  by_cases hbyte : idx / 8 = i / 8
  · rw [← hbyte, List.getElem?_eq_getElem hidx]
    simp only [if_true, Option.map_eq_map, Option.map_some, Option.getD_some]
    rw [bitOf_or, bitOf_mask _ (Nat.mod_lt _ (by decide)) _ (Nat.mod_lt _ (by decide))]
    congr 1
    exact decide_eq_decide.mpr (by omega)
  · have hne : i ≠ idx := fun heq => hbyte (by rw [heq])
    simp [hbyte, hne]

theorem testBit_foldl_setBit_eq (idxs : List ℕ) (bits : Bytes)
    (hin : ∀ idx ∈ idxs, idx / 8 < bits.length) (i : ℕ) :
    testBit (idxs.foldl setBit bits) i = (testBit bits i || decide (i ∈ idxs)) := by
  induction idxs generalizing bits with
  | nil => simp
  | cons idx rest ih =>
    obtain ⟨hidx, hrest⟩ := List.forall_mem_cons.mp hin
    rw [List.foldl_cons, ih, testBit_setBit_eq bits hidx, Bool.or_assoc]
    · congr 1
      simp only [List.mem_cons, Bool.decide_or]
    · simpa only [setBit_length] using hrest

def Shape (m k : ℕ) : Prop := 8 ≤ m ∧ 1 ≤ k

instance (m k : ℕ) : Decidable (Shape m k) := inferInstanceAs (Decidable (_ ∧ _))

theorem open_eq_some_iff {m k : ℕ} {bits : Bytes} {f : Filter} :
    open_ m k bits = some f ↔ Shape m k ∧ bits.length = (m + 7) / 8 ∧ f = ⟨bits, m, k⟩ := by
  unfold open_ Shape
  split
  · simp only [reduceCtorEq, false_iff]
    omega
  · split
    · simp_all
    · simp only [Option.some.injEq]
      constructor
      · rintro rfl
        exact ⟨by omega, by omega, rfl⟩
      · rintro ⟨-, -, rfl⟩
        rfl

inductive Edit where
  | add (item : Bytes)
  | merge (bits : Bytes)

def Edit.sets (m k : ℕ) : Edit → ℕ → Bool
  | add item, i => i ∈ indexes m k item
  | merge bits, i => testBit bits i

def Edit.fits (m : ℕ) : Edit → Prop
  | add _ => True
  | merge bits => bits.length = (m + 7) / 8

def Edit.contains (m k : ℕ) (item : Bytes) : Edit → Prop
  | add item' => item' = item
  | merge bits => ∃ f, open_ m k bits = some f ∧ f.test item = true

def Edit.apply (m k : ℕ) (f : Filter) : Edit → Filter
  | add item => f.add item
  | merge bits => f.merge ⟨bits, m, k⟩

variable {m k : ℕ} {bits : Bytes}

theorem length_apply (m k : ℕ) (bits : Bytes) (e : Edit) :
    (e.apply m k ⟨bits, m, k⟩).bits.length = bits.length := by
  cases e with
  | add item => exact Filter.add_length _ item
  | merge other => exact Filter.merge_length _ _

/-- An edit sets its bits and clears none. -/
theorem testBit_apply (hshape : Shape m k) (hlen : bits.length = (m + 7) / 8) {e : Edit}
    (hfits : e.fits m) (i : ℕ) :
    testBit (e.apply m k ⟨bits, m, k⟩).bits i = (testBit bits i || e.sets m k i) := by
  unfold Shape at hshape
  cases e with
  | add item =>
    refine testBit_foldl_setBit_eq _ bits (fun idx hidx => ?_) i
    have hlt : idx < m := indexes_lt (by omega) k item idx hidx
    omega
  | merge other =>
    have hother : bits.length = other.length := hlen.trans (Eq.symm hfits)
    have hmerge : (Filter.merge ⟨bits, m, k⟩ ⟨other, m, k⟩).bits =
        List.zipWith (· ||| ·) bits other := by
      simp [Filter.merge, hother]
    rw [Edit.apply, hmerge, Edit.sets, testBit_eq, testBit_eq, testBit_eq, ← bitOf_or]
    congr 1
    have hzip : (List.zipWith (· ||| ·) bits other).length = bits.length := by simp [← hother]
    by_cases hi : i / 8 < bits.length
    · rw [List.getD_eq_getElem bits _ hi, List.getD_eq_getElem other _ (by omega),
        List.getD_eq_getElem (List.zipWith _ _ _) _ (by omega), List.getElem_zipWith]
    · rw [List.getD_eq_default bits _ (by omega), List.getD_eq_default other _ (by omega),
        List.getD_eq_default (List.zipWith _ _ _) _ (by omega)]
      rfl

/-- An item whose bits an edit sets is in every filter that has them. -/
theorem test_of_contains (hshape : Shape m k) (hlen : bits.length = (m + 7) / 8) {e : Edit}
    {item : Bytes} (hitem : e.contains m k item)
    (hsets : ∀ i, e.sets m k i = true → testBit bits i = true) :
    Filter.test ⟨bits, m, k⟩ item = true := by
  unfold Shape at hshape
  have hne : bits ≠ [] := by
    rw [← List.length_pos_iff]
    omega
  simp only [Filter.test, hne, ne_eq, not_false_eq_true, decide_true, Bool.true_and,
    List.all_eq_true]
  intro idx hidx
  refine hsets idx ?_
  cases e with
  | add item' =>
    rw [show item' = item from hitem]
    simpa [Edit.sets] using hidx
  | merge other =>
    obtain ⟨f, hopen, htest⟩ := hitem
    obtain ⟨-, -, rfl⟩ := open_eq_some_iff.mp hopen
    simp only [Filter.test, Bool.and_eq_true, List.all_eq_true] at htest
    exact htest.2 idx hidx

structure Op where
  edit : Edit
  now : ℤ
  version : ℕ
  expireAt : ℤ

def Op.verb (key : Bytes) (m k : ℕ) (op : Op) : Verb LruItem Bool :=
  match op.edit with
  | .add item => Store.bloomAdd key item m k op.version op.expireAt
  | .merge bits => Store.bloomMerge key bits m k op.version op.expireAt

def step (key : Bytes) (m k : ℕ) (s : Mem) (op : Op) : Mem :=
  (s.perform op.now key (op.verb key m k)).1

def run (key : Bytes) (m k : ℕ) (s : Mem) (ops : List Op) : Mem := ops.foldl (step key m k) s

def answers (key : Bytes) (m k : ℕ) : Mem → List Op → List Bool
  | _, [] => []
  | s, op :: ops =>
    (s.perform op.now key (op.verb key m k)).2 :: answers key m k (step key m k s op) ops

def stored (s : Mem) (key : Bytes) : Option Bytes := (s.lookup key).map fun it => it.entry.value

/-- A live filter of the given shape that lasts until `T`. -/
structure Holds (T : ℤ) (m k : ℕ) (bits : Bytes) (it : LruItem) : Prop where
  lasts : Entry.Lasts T it.entry.expireAt
  live : it.entry.isTombstone = false
  flag : it.entry.has flagBloom = true
  value : it.entry.value = bits
  length : bits.length = (m + 7) / 8

/-- The call comes before `T`, brings nothing that expires by then and fits the shape. -/
structure Timely (T : ℤ) (m : ℕ) (op : Op) : Prop where
  now : op.now < T
  lasts : Entry.Lasts T op.expireAt
  fits : op.edit.fits m

def zeros (m : ℕ) : Bytes := List.replicate ((m + 7) / 8) 0

section Step

variable {T : ℤ} {op : Op} {it : LruItem} (key : Bytes) (env : Env)

theorem open_of_length (hshape : Shape m k) (hlen : bits.length = (m + 7) / 8) :
    open_ m k bits = some ⟨bits, m, k⟩ :=
  open_eq_some_iff.mpr ⟨hshape, hlen, rfl⟩

theorem open_of_not_shape (hshape : ¬ Shape m k) (bits : Bytes) : open_ m k bits = none := by
  cases hopen : open_ m k bits with
  | none => rfl
  | some f => exact absurd (open_eq_some_iff.mp hopen).1 hshape

/-- Both calls apply their edit to the filter they find or start. -/
theorem verb_eq_mutate (hshape : Shape m k) (hfits : op.edit.fits m) (old : Option LruItem) :
    op.verb key m k env old =
      Store.bloomMutate key m k op.version op.expireAt (fun f => op.edit.apply m k f) env old := by
  unfold Op.verb
  cases hedit : op.edit with
  | add item => rfl
  | merge other =>
    rw [hedit] at hfits
    simp only [Store.bloomMerge, open_of_length hshape hfits]
    rfl

/-- A first call stores what its edit makes of the empty filter. -/
theorem result_of_none (hshape : Shape m k) (h : Timely T m op) :
    ∃ it, (op.verb key m k env none).act.result none = some it ∧
      Holds T m k (op.edit.apply m k ⟨zeros m, m, k⟩).bits it ∧
      ∀ still, (op.verb key m k env none).ret still = still := by
  have hopen : open_ m k (List.replicate ((m + 7) / 8) 0) = some ⟨zeros m, m, k⟩ :=
    open_of_length hshape (List.length_replicate ..)
  have hlen : (op.edit.apply m k ⟨zeros m, m, k⟩).bits.length = (m + 7) / 8 :=
    (length_apply m k (zeros m) op.edit).trans (List.length_replicate ..)
  have hflag : (flagBloom &&& flagBloom != 0) = true := by decide
  have hlive : (flagBloom &&& flagTombstone != 0) = false := by decide
  rw [verb_eq_mutate key env hshape h.fits]
  simp only [Store.bloomMutate, hopen]
  exact ⟨_, rfl, ⟨h.lasts, hlive, hflag, rfl, hlen⟩, fun still => rfl⟩

/-- A later call amends the bits in place. -/
theorem result_of_holds (hshape : Shape m k) (h : Timely T m op) (hit : Holds T m k bits it)
    (hnow : env.now = op.now) :
    ∃ it', (op.verb key m k env (some it)).act.result (some it) = some it' ∧
      Holds T m k (op.edit.apply m k ⟨bits, m, k⟩).bits it' ∧
      ∀ still, (op.verb key m k env (some it)).ret still = true := by
  have hx : it.entry.expired env.now = false :=
    Entry.expired_of_lasts hit.lasts (by rw [hnow]; exact h.now)
  have hopen : open_ m k it.entry.value = some ⟨bits, m, k⟩ := by
    rw [hit.value]
    exact open_of_length hshape hit.length
  have hlen := (length_apply m k bits op.edit).trans hit.length
  rw [verb_eq_mutate key env hshape h.fits]
  simp only [Store.bloomMutate, entry, hx, hit.live, hit.flag, hopen, Bool.false_eq_true, if_false,
    Bool.not_true]
  exact ⟨_, rfl, ⟨hit.lasts, hit.live, hit.flag, rfl, hlen⟩, fun _ => trivial⟩

/-- No filter has such a shape, so no call does anything. -/
theorem refused_of_not_shape (hshape : ¬ Shape m k) :
    (op.verb key m k env none).act.result none = none ∧
      ∀ still, (op.verb key m k env none).ret still = false := by
  unfold Op.verb
  cases op.edit with
  | add item =>
    simp only [Store.bloomAdd, Store.bloomMutate, open_of_not_shape hshape]
    exact ⟨rfl, fun _ => rfl⟩
  | merge other =>
    simp only [Store.bloomMerge, open_of_not_shape hshape]
    exact ⟨rfl, fun _ => rfl⟩

end Step

/-- The name is free or holds a live filter of the shape that lasts until `T`. -/
def Ready (T : ℤ) (m k : ℕ) (old : Option LruItem) : Prop :=
  ∀ it, old = some it → Shape m k ∧ Holds T m k it.entry.value it

def bitsOf (m : ℕ) (old : Option LruItem) : Bytes :=
  (old.map fun it => it.entry.value).getD (zeros m)

section Run

variable {T : ℤ} {key : Bytes} {s : Mem} {op : Op} {ops : List Op}

theorem length_bitsOf {old : Option LruItem} (hready : Ready T m k old) :
    (bitsOf m old).length = (m + 7) / 8 := by
  cases old with
  | none => exact List.length_replicate ..
  | some it => exact (hready it rfl).2.length

section

variable (hmax : s.cache.maxBytes ≤ 0)
include hmax

theorem step_maxBytes (op : Op) : (step key m k s op).cache.maxBytes ≤ 0 :=
  (congrArg Env.maxBytes (s.perform_env op.now key (op.verb key m k) 0)).trans_le hmax

theorem lookup_of_not_shape (hshape : ¬ Shape m k)
    (hready : Ready T m k (s.lookup key)) : (step key m k s op).lookup key = s.lookup key := by
  have hnone : s.lookup key = none :=
    Option.eq_none_iff_forall_ne_some.mpr fun it hit => hshape (hready it hit).1
  have hlook := s.lookup_perform_of_unbounded hmax op.now key (op.verb key m k) key
  simp only [Memory.expected, if_true] at hlook
  rw [hnone] at hlook ⊢
  exact hlook.trans (refused_of_not_shape key (s.env op.now) hshape).1

theorem step_spec (hshape : Shape m k) (h : Timely T m op)
    (hready : Ready T m k (s.lookup key)) : ∃ it, (step key m k s op).lookup key = some it ∧
      Holds T m k (op.edit.apply m k ⟨bitsOf m (s.lookup key), m, k⟩).bits it ∧
      (s.perform op.now key (op.verb key m k)).2 = true := by
  have hlook := s.lookup_perform_of_unbounded hmax op.now key (op.verb key m k) key
  simp only [Memory.expected, if_true] at hlook
  rw [Memory.perform_ret]
  unfold step
  rw [hlook]
  cases hold : s.lookup key with
  | none =>
    obtain ⟨it, hresult, hholds, hret⟩ := result_of_none key (s.env op.now) hshape h
    refine ⟨it, hresult, hholds, ?_⟩
    rw [hret, hresult]
    rfl
  | some it =>
    obtain ⟨it', hresult, hholds, hret⟩ :=
      result_of_holds key (s.env op.now) hshape h (hready it hold).2 rfl
    exact ⟨it', hresult, hholds, hret _⟩

theorem ready_step (h : Timely T m op)
    (hready : Ready T m k (s.lookup key)) : Ready T m k ((step key m k s op).lookup key) := by
  by_cases hshape : Shape m k
  · obtain ⟨it, hit, hholds, -⟩ := step_spec hmax hshape h hready
    intro it' hit'
    obtain rfl := Option.some.inj (hit.symm.trans hit')
    exact ⟨hshape, hholds.value ▸ hholds⟩
  · rw [lookup_of_not_shape hmax hshape hready]
    exact hready

end

theorem ready_run (hmax : s.cache.maxBytes ≤ 0) (hops : ∀ op ∈ ops, Timely T m op)
    (hready : Ready T m k (s.lookup key)) : Ready T m k ((run key m k s ops).lookup key) := by
  induction ops generalizing s with
  | nil => exact hready
  | cons op ops ih =>
    obtain ⟨hop, hrest⟩ := List.forall_mem_cons.mp hops
    exact ih (step_maxBytes hmax op) hrest (ready_step hmax hop hready)

theorem stored_run_of_not_shape (hshape : ¬ Shape m k) (hmax : s.cache.maxBytes ≤ 0)
    (hops : ∀ op ∈ ops, Timely T m op) (hready : Ready T m k (s.lookup key)) :
    stored (run key m k s ops) key = stored s key := by
  induction ops generalizing s with
  | nil => rfl
  | cons op ops ih =>
    obtain ⟨hop, hrest⟩ := List.forall_mem_cons.mp hops
    refine (ih (step_maxBytes hmax op) hrest (ready_step hmax hop hready)).trans ?_
    rw [stored, lookup_of_not_shape hmax hshape hready, stored]

theorem answers_eq (hmax : s.cache.maxBytes ≤ 0) (hops : ∀ op ∈ ops, Timely T m op)
    (hready : Ready T m k (s.lookup key)) :
    answers key m k s ops = ops.map fun _ => decide (8 ≤ m ∧ 1 ≤ k) := by
  induction ops generalizing s with
  | nil => rfl
  | cons op ops ih =>
    obtain ⟨hop, hrest⟩ := List.forall_mem_cons.mp hops
    rw [answers, ih (step_maxBytes hmax op) hrest (ready_step hmax hop hready),
      List.map_cons]
    congr 1
    by_cases hshape : Shape m k
    · obtain ⟨it, -, -, hret⟩ := step_spec hmax hshape hop hready
      exact hret.trans (decide_eq_true hshape).symm
    · have hnone : s.lookup key = none :=
        Option.eq_none_iff_forall_ne_some.mpr fun it hit => hshape (hready it hit).1
      rw [Memory.perform_ret, hnone, (refused_of_not_shape key (s.env op.now) hshape).2]
      exact (decide_eq_false hshape).symm

section

variable (hshape : Shape m k) (hmax : s.cache.maxBytes ≤ 0)
  (hops : ∀ op ∈ ops, Timely T m op) (hready : Ready T m k (s.lookup key))
include hshape hmax hops hready

/-- After a run the bits set are those set before and those one of the calls sets. -/
theorem testBit_run (i : ℕ) : testBit (bitsOf m ((run key m k s ops).lookup key)) i =
      (testBit (bitsOf m (s.lookup key)) i || ops.any fun op => op.edit.sets m k i) := by
  induction ops generalizing s with
  | nil => simp [run]
  | cons op ops ih =>
    obtain ⟨hop, hrest⟩ := List.forall_mem_cons.mp hops
    obtain ⟨it, hit, hholds, -⟩ := step_spec hmax hshape hop hready
    have hlen : (bitsOf m (s.lookup key)).length = (m + 7) / 8 := length_bitsOf hready
    have hbits : bitsOf m ((step key m k s op).lookup key) =
        (op.edit.apply m k ⟨bitsOf m (s.lookup key), m, k⟩).bits := by
      rw [hit]
      exact hholds.value
    rw [run, List.foldl_cons, List.any_cons, ← Bool.or_assoc]
    refine (ih (step_maxBytes hmax op) hrest (ready_step hmax hop hready)).trans ?_
    rw [hbits, testBit_apply hshape hlen hop.fits]

theorem stored_run (hsome : ops ≠ [] ∨ (s.lookup key).isSome = true) :
    stored (run key m k s ops) key = some (bitsOf m ((run key m k s ops).lookup key)) := by
  induction ops generalizing s with
  | nil =>
    obtain ⟨it, hit⟩ := Option.isSome_iff_exists.mp (hsome.resolve_left fun hne => hne rfl)
    simp [run, stored, bitsOf, hit]
  | cons op ops ih =>
    obtain ⟨hop, hrest⟩ := List.forall_mem_cons.mp hops
    obtain ⟨it, hit, -⟩ := step_spec hmax hshape hop hready
    exact ih (step_maxBytes hmax op) hrest (ready_step hmax hop hready)
      (Or.inr (by rw [hit]; rfl))

/-- An item that one of the calls brought tests positive. -/
theorem test_run (hop : op ∈ ops) {item : Bytes} (hitem : op.edit.contains m k item) {now : ℤ}
    (hnow : now < T) :
    ((run key m k s ops).perform now key (Store.bloomTest item m k)).2 = true := by
  have hstored := stored_run hshape hmax hops hready (Or.inl (List.ne_nil_of_mem hop))
  have hafter := ready_run hmax hops hready
  have hbits := testBit_run hshape hmax hops hready
  rw [Memory.perform_ret]
  cases hlook : (run key m k s ops).lookup key with
  | none => simp [stored, hlook] at hstored
  | some it =>
    rw [hlook] at hafter hbits
    have hit := (hafter it rfl).2
    have hopen : open_ m k (entry it).value = some ⟨it.entry.value, m, k⟩ :=
      open_of_length hshape hit.length
    rw [Store.bloomTest_of_live _ item (Entry.expired_of_lasts hit.lasts hnow) hit.live hit.flag
      hopen]
    refine test_of_contains hshape hit.length hitem fun i hsets => ?_
    have hany : (ops.any fun op => op.edit.sets m k i) = true :=
      List.any_eq_true.mpr ⟨op, hop, hsets⟩
    exact (hbits i).trans (by rw [hany, Bool.or_true])

end

end Run

/-- In every run of adds and merges of one shape on a name, in a store without a byte budget and
with nothing expiring before `T`: every call is accepted, if filters of the shape exist; every
item added or merged in tests positive; and any other run of the same calls, in any order and with
any repetitions, leaves the same bits. -/
theorem filters_join (m k : ℕ) (key : Bytes) (T : ℤ) (s : Mem) (hmax : s.cache.maxBytes ≤ 0)
    (hready : Ready T m k (s.lookup key)) (ops : List Op) (hops : ∀ op ∈ ops, Timely T m op) :
    answers key m k s ops = (ops.map fun _ => decide (8 ≤ m ∧ 1 ≤ k)) ∧
    (8 ≤ m → 1 ≤ k → ∀ op ∈ ops, ∀ item, op.edit.contains m k item → ∀ now < T,
      ((run key m k s ops).perform now key (Store.bloomTest item m k)).2 = true) ∧
    ∀ (s' : Mem) (ops' : List Op), s'.cache.maxBytes ≤ 0 → Ready T m k (s'.lookup key) →
      (∀ op ∈ ops', Timely T m op) → stored s' key = stored s key →
      (∀ e, (∃ op ∈ ops', op.edit = e) ↔ ∃ op ∈ ops, op.edit = e) →
      stored (run key m k s' ops') key = stored (run key m k s ops) key := by
  refine ⟨answers_eq hmax hops hready, fun hm hk op hop item hitem now hnow =>
    test_run ⟨hm, hk⟩ hmax hops hready hop hitem hnow, ?_⟩
  intro s' ops' hmax' hready' hops' hsame hedits
  by_cases hshape : Shape m k
  · have hbits : bitsOf m (s'.lookup key) = bitsOf m (s.lookup key) :=
      congrArg (Option.getD · (zeros m)) hsame
    have hsomes : (s'.lookup key).isSome = (s.lookup key).isSome := by
      simpa [stored] using congrArg Option.isSome hsame
    have hany : ∀ i, (ops'.any fun op => op.edit.sets m k i) =
        ops.any fun op => op.edit.sets m k i := by
      intro i
      rw [Bool.eq_iff_iff, List.any_eq_true, List.any_eq_true]
      constructor
      · rintro ⟨op, hop, hsets⟩
        obtain ⟨op', hop', heq⟩ := (hedits op.edit).mp ⟨op, hop, rfl⟩
        exact ⟨op', hop', heq ▸ hsets⟩
      · rintro ⟨op, hop, hsets⟩
        obtain ⟨op', hop', heq⟩ := (hedits op.edit).mpr ⟨op, hop, rfl⟩
        exact ⟨op', hop', heq ▸ hsets⟩
    have hempty : ops' = [] ↔ ops = [] := by
      simp only [List.eq_nil_iff_forall_not_mem]
      constructor
      · intro hnone op hop
        obtain ⟨op', hop', -⟩ := (hedits op.edit).mpr ⟨op, hop, rfl⟩
        exact hnone op' hop'
      · intro hnone op hop
        obtain ⟨op', hop', -⟩ := (hedits op.edit).mp ⟨op, hop, rfl⟩
        exact hnone op' hop'
    by_cases hsome : ops ≠ [] ∨ (s.lookup key).isSome = true
    · have hsome' : ops' ≠ [] ∨ (s'.lookup key).isSome = true := by
        rwa [hsomes, ne_eq, hempty]
      rw [stored_run hshape hmax hops hready hsome, stored_run hshape hmax' hops' hready' hsome']
      congr 1
      refine bits_ext ?_ fun i => ?_
      · rw [length_bitsOf (ready_run hmax' hops' hready'),
          length_bitsOf (ready_run hmax hops hready)]
      · rw [testBit_run hshape hmax' hops' hready', testBit_run hshape hmax hops hready,
          hbits, hany]
    · rw [not_or, not_not] at hsome
      rw [hempty.mpr hsome.1, hsome.1]
      exact hsame
  · rw [stored_run_of_not_shape hshape hmax' hops' hready',
      stored_run_of_not_shape hshape hmax hops hready, hsame]

/-- An add and a merge, then the same with the merge first and repeated. -/
theorem filters_join_twice :
    let s : Mem := Memory.newMemory 0 0
    let add : Op := ⟨.add [7], 1, 1, 0⟩
    let merge : Op := ⟨.merge [255, 0], 2, 2, 0⟩
    ((run [1] 16 2 s [add, merge]).perform 3 [1] (Store.bloomTest [7] 16 2)).2 = true ∧
      stored (run [1] 16 2 s [merge, add, merge]) [1] =
        stored (run [1] 16 2 s [add, merge]) [1] := by
  intro s add merge
  have hready : Ready 9 16 2 (s.lookup [1]) := by
    rintro it ⟨⟩
  have hadd : Timely 9 16 add := ⟨by decide, Or.inl rfl, trivial⟩
  have hmerge : Timely 9 16 merge := ⟨by decide, Or.inl rfl, rfl⟩
  have hjoin := filters_join 16 2 [1] 9 s (by decide) hready [add, merge] (by simp [hadd, hmerge])
  refine ⟨hjoin.2.1 (by decide) (by decide) add (by simp) [7] rfl 3 (by decide), ?_⟩
  refine hjoin.2.2 s [merge, add, merge] (by decide) hready (by simp [hadd, hmerge]) rfl ?_
  intro e
  simp only [List.mem_cons, List.not_mem_nil, or_false, exists_eq_or_imp, exists_eq_left]
  tauto

end Bloom

end Supercache
