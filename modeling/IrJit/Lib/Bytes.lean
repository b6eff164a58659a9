import Mathlib.Data.BitVec
import Mathlib.Tactic.Common

/-!
# Lib.Bytes — a byte-addressed memory with little-endian accesses

An access is an address and a number of bytes.  Addresses wrap, so whether a byte belongs to an access is
asked of its distance from the address.
-/

namespace IrJit

/-- Memory: one byte at every address. -/
def Memory : Type := BitVec 64 → BitVec 8

namespace Memory

/-- Byte `k` of a value. -/
def byte (v : BitVec 64) (k : ℕ) : BitVec 8 := v.extractLsb' (8 * k) 8

/-- Is `x` one of the `n` bytes at `a`? -/
def Within (a : BitVec 64) (n : ℕ) (x : BitVec 64) : Prop := (x - a).toNat < n

instance (a : BitVec 64) (n : ℕ) (x : BitVec 64) : Decidable (Within a n x) :=
  inferInstanceAs (Decidable (_ < _))

/-- The low `n` bytes of `v` at `a`. -/
def write (m : Memory) (a : BitVec 64) (n : ℕ) (v : BitVec 64) : Memory := fun x =>
  if Within a n x then byte v (x - a).toNat else m x

/-- The `n` bytes at `a` are the low bytes of `v`. -/
def Holds (m : Memory) (a : BitVec 64) (n : ℕ) (v : BitVec 64) : Prop :=
  ∀ x, Within a n x → m x = byte v (x - a).toNat

/-- Two accesses share no byte. -/
def Separate (a : BitVec 64) (n : ℕ) (b : BitVec 64) (m : ℕ) : Prop :=
  ∀ x, Within a n x → ¬ Within b m x

/-- The `n` bytes at `a` taken from `old`, the others from `m`. -/
def restore (old : Memory) (a : BitVec 64) (n : ℕ) (m : Memory) : Memory := fun x =>
  if Within a n x then old x else m x

variable {m m' old : Memory} {a b x : BitVec 64} {n k : ℕ} {v w : BitVec 64}

theorem write_of_within (h : Within a n x) : write m a n v x = byte v (x - a).toNat := if_pos h

theorem write_of_not_within (h : ¬ Within a n x) : write m a n v x = m x := if_neg h

theorem Within.mono (h : Within a n x) (hk : n ≤ k) : Within a k x := lt_of_lt_of_le h hk

theorem Separate.symm (h : Separate a n b k) : Separate b k a n := fun x hb ha => h x ha hb

/-- What was written is there. -/
theorem holds_write (hk : n ≤ k) : Holds (write m a k v) a n v :=
  fun _ hx => write_of_within (hx.mono hk)

/-- Memories that agree on the bytes hold the same. -/
theorem Holds.congr (h : Holds m a n v) (hm : ∀ x, Within a n x → m' x = m x) : Holds m' a n v := by
  intro x hx
  rw [hm x hx]
  exact h x hx

/-- Values with the same low bytes are held together. -/
theorem Holds.of_bytes (h : Holds m a n v) (hv : ∀ k < n, byte w k = byte v k) : Holds m a n w := by
  intro x hx
  rw [h x hx, hv _ hx]

theorem Holds.mono (h : Holds m a k v) (hn : n ≤ k) : Holds m a n v := fun x hx => h x (hx.mono hn)

/-- Writing back what is held changes nothing. -/
theorem write_eq_self (h : Holds m a n v) : write m a n v = m := by
  funext x
  by_cases hx : Within a n x
  · rw [write_of_within hx, h x hx]
  · rw [write_of_not_within hx]

theorem restore_of_within (h : Within a n x) : restore old a n m x = old x := if_pos h

theorem restore_of_not_within (h : ¬ Within a n x) : restore old a n m x = m x := if_neg h

/-- Restoring undoes a write. -/
theorem restore_write_self : restore m a n (write m a n v) = m := by
  funext x
  by_cases hx : Within a n x
  · rw [restore_of_within hx]
  · rw [restore_of_not_within hx, write_of_not_within hx]

/-- A write elsewhere and a restoration commute. -/
theorem restore_write_of_apart (h : Separate a n b k) :
    restore old a n (write m b k v) = write (restore old a n m) b k v := by
  funext x
  by_cases hx : Within a n x
  · rw [restore_of_within hx, write_of_not_within (h x hx), restore_of_within hx]
  · rw [restore_of_not_within hx]
    by_cases hb : Within b k x
    · rw [write_of_within hb, write_of_within hb]
    · rw [write_of_not_within hb, write_of_not_within hb, restore_of_not_within hx]

/-- A write over the restored bytes does not see the restoration. -/
theorem write_restore (h : n ≤ k) : write (restore old a n m) a k v = write m a k v := by
  funext x
  by_cases hx : Within a k x
  · rw [write_of_within hx, write_of_within hx]
  · rw [write_of_not_within hx, write_of_not_within hx]
    exact restore_of_not_within fun hn => hx (hn.mono h)

/-- What is held elsewhere is held after a restoration. -/
theorem Holds.restore (h : Holds m b k v) (hap : Separate a n b k) : Holds (restore old a n m) b k v :=
  h.congr fun x hx => restore_of_not_within (hap.symm x hx)

end Memory

end IrJit
