import Supercache.Wire

/-!
The stored envelope: a value with its version, expiry and flag bits. The flags
say what the value is; fan-out flags mark an entry that carries one operation
of a structured mode instead of a value. Times are nanoseconds, and an expiry
of zero means none.
-/
namespace Supercache

open Wire

def flagNegative : ℕ := 2 ^ 0
def flagTombstone : ℕ := 2 ^ 1
def flagBloom : ℕ := 2 ^ 2
def flagBloomAdd : ℕ := 2 ^ 3
def flagSet : ℕ := 2 ^ 4
def flagSetAdd : ℕ := 2 ^ 5
def flagSetRemove : ℕ := 2 ^ 6
def flagZSet : ℕ := 2 ^ 7
def flagZSetAdd : ℕ := 2 ^ 8
def flagZSetRem : ℕ := 2 ^ 9
def flagGeo : ℕ := 2 ^ 10
def flagGeoAdd : ℕ := 2 ^ 11
def flagGeoRem : ℕ := 2 ^ 12
def flagList : ℕ := 2 ^ 13
def flagHash : ℕ := 2 ^ 16
def flagHashSet : ℕ := 2 ^ 17
def flagHashDel : ℕ := 2 ^ 18
def flagCounter : ℕ := 2 ^ 19
def flagJSON : ℕ := 2 ^ 20
def flagBitmap : ℕ := 2 ^ 23
def flagHLL : ℕ := 2 ^ 25
def flagTopK : ℕ := 2 ^ 27
def flagCMS : ℕ := 2 ^ 29
def flagVectorSet : ℕ := 2 ^ 31
def flagStream : ℕ := 2 ^ 32

def bump (version : ℕ) : ℕ := (version + 1) % 2 ^ 64

structure Entry where
  value : Bytes
  version : ℕ
  expireAt : ℤ
  flags : ℕ
deriving DecidableEq, Repr

namespace Entry

def has (e : Entry) (flag : ℕ) : Bool := e.flags &&& flag != 0

def isNegative (e : Entry) : Bool := e.has flagNegative

def isTombstone (e : Entry) : Bool := e.has flagTombstone

def expired (e : Entry) (now : ℤ) : Bool := e.expireAt ≠ 0 && e.expireAt ≤ now

def cost (e : Entry) : ℕ := e.value.length + 64

def pinnedFlags : List ℕ :=
  [flagTombstone, flagBloom, flagSet, flagZSet, flagGeo, flagList, flagHash, flagCounter, flagJSON,
    flagBitmap, flagHLL, flagTopK, flagCMS, flagVectorSet, flagStream]

def pinned (now : ℤ) (e : Entry) : Bool := pinnedFlags.any e.has && !e.expired now

def extend (old expireAt : ℤ) : ℤ := if expireAt ≠ 0 then expireAt else old

/-- An expiry that does not come before the time `T`. -/
def Lasts (T expireAt : ℤ) : Prop := expireAt = 0 ∨ T ≤ expireAt

variable {e : Entry} {now T : ℤ}

theorem Lasts.extend {old expireAt : ℤ} (hold : Lasts T old) (h : Lasts T expireAt) :
    Lasts T (Entry.extend old expireAt) := by
  unfold Entry.extend
  split
  · exact h
  · exact hold

theorem expired_of_lasts (h : Lasts T e.expireAt) (hnow : now < T) : e.expired now = false := by
  rcases h with hzero | hlate
  · simp [expired, hzero]
  · have hlt : ¬ e.expireAt ≤ now := by omega
    simp [expired, hlt]

theorem lasts_of_not_expired (h : e.expired now = false) : Lasts (now + 1) e.expireAt := by
  unfold Lasts
  simp only [expired, Bool.and_eq_false_iff, decide_eq_false_iff_not] at h
  omega

theorem expired_of_le {later : ℤ} (hle : now ≤ later) (h : e.expired later = false) :
    e.expired now = false := by
  simp only [expired, Bool.and_eq_false_iff, decide_eq_false_iff_not] at h ⊢
  omega

theorem pinned_of_flags {flag : ℕ} (hpin : flag ∈ pinnedFlags) (hflag : e.has flag = true)
    (hnow : e.expired now = false) : e.pinned now = true := by
  simp only [pinned, Bool.and_eq_true, hnow, Bool.not_false, and_true]
  exact List.any_eq_true.mpr ⟨flag, hpin, hflag⟩

theorem pinned_of_isTombstone (ht : e.isTombstone = true) (hnow : e.expired now = false) :
    e.pinned now = true := by
  have hmem : flagTombstone ∈ pinnedFlags := by simp [pinnedFlags]
  exact pinned_of_flags hmem ht hnow

end Entry

def entryCost (key : Bytes) (e : Entry) : ℕ := key.length + e.cost

end Supercache
