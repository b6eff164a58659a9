import Mathlib.Algebra.Order.Ring.Int
import Mathlib.Data.List.Nodup
import Mathlib.Data.Set.Insert
import Mathlib.Logic.Function.Basic
import Mathlib.Tactic.Common

/-!
# Helper.SparseSet — sets in two arrays that check each other (`ir_private.h`, 495–582)

The arrays lie in one block of memory: the dense one at `data` and behind it, the sparse one before `data`.
-/

namespace IrJit.Helper

/-- A `uint32_t` as an `int32_t`. -/
def asInt (x : ℕ) : ℤ := (x : ℤ).bmod (2 ^ 32)

/-- `x - 1`. -/
def decr (x : ℕ) : ℕ := if x = 0 then 2 ^ 32 - 1 else x - 1

theorem asInt_of_lt {x : ℕ} (hx : x < 2 ^ 31) : asInt x = x := by
  unfold asInt
  apply Int.bmod_eq_of_le_mul_two
  · omega
  · push_cast
    omega

theorem decr_of_pos {x : ℕ} (hx : 0 < x) : decr x = x - 1 := if_neg (by omega)

/-- `ir_sparse_set`; `data i` is `data[i]`. -/
structure SparseSet where
  size : ℕ
  len : ℕ
  data : ℤ → ℕ

/-- `IR_SPARSE_SET_SPARSE(set, n)` is `data[sparseIndex n]`. -/
def sparseIndex (n : ℕ) : ℤ := -1 - asInt n

namespace SparseSet

/-- `ir_sparse_set_init`, on a new block of memory. -/
def init (memory : ℤ → ℕ) (size : ℕ) : SparseSet := ⟨size, 0, memory⟩

variable (set : SparseSet)

/-- `ir_sparse_set_clear`. -/
def clear : SparseSet := { set with len := 0 }

/-- `ir_sparse_set_in`. -/
def contains (n : ℕ) : Bool :=
  let idx := set.data (sparseIndex n)
  idx < set.len && set.data idx = n

/-- `ir_sparse_set_add`. -/
def add (n : ℕ) : SparseSet :=
  let idx := set.len
  { set with
    len := set.len + 1
    data := Function.update (Function.update set.data idx n) (sparseIndex n) idx }

/-- `ir_sparse_set_del`. -/
def del (n : ℕ) : SparseSet :=
  let last := set.data (decr set.len)
  if last ≠ n then
    let idx := set.data (sparseIndex n)
    { set with
      len := decr set.len
      data := Function.update (Function.update set.data idx last) (sparseIndex last) idx }
  else { set with len := decr set.len }

/-- `ir_sparse_set_pop`; `-1` is a `uint32_t`. -/
def pop : ℕ × SparseSet :=
  if set.len > 0 then (set.data (decr set.len), { set with len := decr set.len }) else (2 ^ 32 - 1, set)

/-- What `IR_SPARSE_SET_FOREACH` goes through. -/
def dense : List ℕ := (List.range set.len).map fun i : ℕ => set.data i

/-- The calls on a set. -/
inductive Call
  | add (n : ℕ)
  | del (n : ℕ)
  | pop
  | clear

/-- The set after a call. -/
def call : Call → SparseSet
  | .add n => set.add n
  | .del n => set.del n
  | .pop => set.pop.2
  | .clear => set.clear

/-- The set after some calls. -/
def run (set : SparseSet) : List Call → SparseSet
  | [] => set
  | c :: calls => run (set.call c) calls

/-- What a call does with the elements; `pop` takes the one that it returns. -/
def effect (s : Set ℕ) : Call → Set ℕ
  | .add n => insert n s
  | .del n => s \ {n}
  | .pop => s \ {set.pop.1}
  | .clear => ∅

/-- The elements after some calls. -/
def elements (set : SparseSet) (s : Set ℕ) : List Call → Set ℕ
  | [] => s
  | c :: calls => elements (set.call c) (set.effect s c) calls

/-- What is added is absent and less than the size, what is deleted is present. -/
def Fits (set : SparseSet) (s : Set ℕ) : List Call → Prop
  | [] => True
  | .add n :: calls => (n < set.size ∧ n ∉ s) ∧ Fits (set.add n) (insert n s) calls
  | .del n :: calls => n ∈ s ∧ Fits (set.del n) (s \ {n}) calls
  | .pop :: calls => Fits set.pop.2 (s \ {set.pop.1}) calls
  | .clear :: calls => Fits set.clear ∅ calls

/-- `contains` decides the set, the dense prefix has each element once, and `pop` returns one of them unless there
is none. -/
structure Serves (set : SparseSet) (s : Set ℕ) : Prop where
  bounded : ∀ n ∈ s, n < set.size
  contains : ∀ n < set.size, set.contains n = true ↔ n ∈ s
  dense : ∀ n, n ∈ set.dense ↔ n ∈ s
  nodup : set.dense.Nodup
  empty : s = ∅ → set.pop.1 = 2 ^ 32 - 1
  pop : s ≠ ∅ → set.pop.1 ∈ s

/-! ## What the two arrays represent -/

/-- An element stands where the sparse array says. -/
structure Represents (set : SparseSet) (s : Set ℕ) : Prop where
  size_le : set.size ≤ 2 ^ 31
  bounded : ∀ n ∈ s, n < set.size
  mem : ∀ i < set.len, set.data i ∈ s
  stands : ∀ i < set.len, set.data (sparseIndex (set.data i)) = i
  found : ∀ n ∈ s, ∃ i < set.len, set.data i = n

variable {set} {s : Set ℕ} {n m : ℕ}

theorem sparseIndex_of_lt (h : n < 2 ^ 31) : sparseIndex n = -1 - (n : ℤ) := by
  unfold sparseIndex
  rw [asInt_of_lt h]

/-- The sparse array has no word of the dense one. -/
theorem Represents.index_ne (R : Represents set s) (h : n < set.size) (i : ℕ) : sparseIndex n ≠ i := by
  rw [sparseIndex_of_lt (h.trans_le R.size_le)]
  omega

theorem Represents.index_inj (R : Represents set s) (hm : m < set.size) (hn : n < set.size)
    (h : sparseIndex m = sparseIndex n) : m = n := by
  rw [sparseIndex_of_lt (hm.trans_le R.size_le), sparseIndex_of_lt (hn.trans_le R.size_le)] at h
  omega

/-- The place of a member. -/
theorem Represents.place (R : Represents set s) (hn : n ∈ s) :
    set.data (sparseIndex n) < set.len ∧ set.data (set.data (sparseIndex n)) = n := by
  obtain ⟨i, hi, rfl⟩ := R.found n hn
  rw [R.stands i hi]
  exact ⟨hi, rfl⟩

theorem Represents.contains_iff (R : Represents set s) : set.contains n = true ↔ n ∈ s := by
  unfold SparseSet.contains
  rw [Bool.and_eq_true, decide_eq_true_iff, decide_eq_true_iff]
  refine ⟨fun h => ?_, fun h => R.place h⟩
  rw [← h.2]
  exact R.mem _ h.1

/-- Two places with one element are one. -/
theorem Represents.inj (R : Represents set s) {i j : ℕ} (hi : i < set.len) (hj : j < set.len)
    (h : set.data i = set.data j) : i = j := by
  rw [← R.stands i hi, ← R.stands j hj, h]

theorem represents_init (memory : ℤ → ℕ) {size : ℕ} (h : size ≤ 2 ^ 31) : Represents (init memory size) ∅ where
  size_le := h
  bounded := fun _ hn => hn.elim
  mem := fun i hi => absurd hi (Nat.not_lt_zero i)
  stands := fun i hi => absurd hi (Nat.not_lt_zero i)
  found := fun _ hn => hn.elim

theorem Represents.clear (R : Represents set s) : Represents set.clear ∅ where
  size_le := R.size_le
  bounded := fun _ hn => hn.elim
  mem := fun i hi => absurd hi (Nat.not_lt_zero i)
  stands := fun i hi => absurd hi (Nat.not_lt_zero i)
  found := fun _ hn => hn.elim

theorem add_data (set : SparseSet) (n : ℕ) : (set.add n).data =
    Function.update (Function.update set.data set.len n) (sparseIndex n) set.len := rfl

theorem Represents.add (R : Represents set s) (hn : n < set.size) (habsent : n ∉ s) :
    Represents (set.add n) (insert n s) := by
  have hnew : (set.add n).data set.len = n := by
    rw [add_data, Function.update_of_ne (R.index_ne hn _).symm, Function.update_self]
  have hplace : (set.add n).data (sparseIndex n) = set.len := by
    rw [add_data, Function.update_self]
  have hold : ∀ j : ℤ, j ≠ set.len → j ≠ sparseIndex n → (set.add n).data j = set.data j := by
    intro j hlen hsparse
    rw [add_data, Function.update_of_ne hsparse, Function.update_of_ne hlen]
  have hdense : ∀ i < set.len, (set.add n).data i = set.data i := fun i hi =>
    hold i (Int.ofNat_inj.not.2 (ne_of_lt hi)) (R.index_ne hn i).symm
  refine ⟨R.size_le, fun m hm => ?_, fun i hi => ?_, fun i hi => ?_, fun m hm => ?_⟩
  · rcases Set.mem_insert_iff.1 hm with rfl | hm
    · exact hn
    · exact R.bounded m hm
  · rcases Nat.lt_succ_iff_lt_or_eq.1 hi with hi | rfl
    · rw [hdense i hi]
      exact Set.mem_insert_of_mem n (R.mem i hi)
    · rw [hnew]
      exact Set.mem_insert n s
  · rcases Nat.lt_succ_iff_lt_or_eq.1 hi with hi | rfl
    · have hmem := R.mem i hi
      have hne : set.data i ≠ n := fun h => habsent (h ▸ hmem)
      have hlt := R.bounded _ hmem
      rw [hdense i hi, hold _ (R.index_ne hlt _) fun h => hne (R.index_inj hlt hn h), R.stands i hi]
    · rw [hnew, hplace]
  · rcases Set.mem_insert_iff.1 hm with rfl | hm
    · exact ⟨set.len, Nat.lt_succ_self _, hnew⟩
    · obtain ⟨i, hi, rfl⟩ := R.found m hm
      exact ⟨i, Nat.lt_succ_of_lt hi, hdense i hi⟩

/-- Without the last element. -/
theorem Represents.dropLast (R : Represents set s) (h : 0 < set.len) :
    Represents { set with len := set.len - 1 } (s \ {set.data (set.len - 1 : ℕ)}) where
  size_le := R.size_le
  bounded := fun m hm => R.bounded m hm.1
  mem := by
    intro i hi
    have hi : i < set.len - 1 := hi
    refine ⟨R.mem i (by omega), fun heq => ?_⟩
    have hsame := R.inj (by omega) (by omega) heq
    omega
  stands := by
    intro i hi
    have hi : i < set.len - 1 := hi
    exact R.stands i (by omega)
  found := by
    rintro m ⟨hm, hne⟩
    obtain ⟨i, hi, rfl⟩ := R.found m hm
    refine ⟨i, ?_, rfl⟩
    have hlast : i ≠ set.len - 1 := by
      rintro rfl
      exact hne rfl
    show i < set.len - 1
    omega

/-- The last element moves into the hole. -/
theorem del_data (hne : set.data (decr set.len) ≠ n) : (set.del n).data =
    Function.update (Function.update set.data (set.data (sparseIndex n)) (set.data (decr set.len)))
      (sparseIndex (set.data (decr set.len))) (set.data (sparseIndex n)) := by
  unfold SparseSet.del
  rw [if_pos hne]

theorem del_len : (set.del n).len = decr set.len := by
  unfold SparseSet.del
  dsimp only
  split_ifs <;> rfl

theorem del_size : (set.del n).size = set.size := by
  unfold SparseSet.del
  dsimp only
  split_ifs <;> rfl

theorem Represents.del (R : Represents set s) (hn : n ∈ s) : Represents (set.del n) (s \ {n}) := by
  obtain ⟨hplace, hat⟩ := R.place hn
  have hdecr : decr set.len = set.len - 1 := decr_of_pos (by omega)
  by_cases hlast : set.data (set.len - 1 : ℕ) = n
  · have hdel : set.del n = { set with len := set.len - 1 } := by
      unfold SparseSet.del
      rw [hdecr, if_neg (not_not.2 hlast)]
    rw [hdel, ← hlast]
    exact R.dropLast (by omega)
  · have hmem := R.mem (set.len - 1) (by omega)
    have hlt := R.bounded _ hmem
    have hother : set.data (decr set.len) ≠ n := by
      rw [hdecr]
      exact hlast
    have hdata := del_data hother
    rw [hdecr] at hdata
    have hlen : (set.del n).len = set.len - 1 := by rw [del_len, hdecr]
    have hhole : set.data (sparseIndex n) ≠ set.len - 1 := by
      intro h
      rw [h] at hat
      exact hlast hat
    have hmoved : (set.del n).data (set.data (sparseIndex n)) = set.data (set.len - 1 : ℕ) := by
      rw [hdata, Function.update_of_ne (R.index_ne hlt _).symm, Function.update_self]
    have hmovedPlace : (set.del n).data (sparseIndex (set.data (set.len - 1 : ℕ))) =
        set.data (sparseIndex n) := by
      rw [hdata, Function.update_self]
    have hold : ∀ j : ℤ, j ≠ set.data (sparseIndex n) → j ≠ sparseIndex (set.data (set.len - 1 : ℕ)) →
        (set.del n).data j = set.data j := by
      intro j hhole hsparse
      rw [hdata, Function.update_of_ne hsparse, Function.update_of_ne hhole]
    have hdense : ∀ i : ℕ, i ≠ set.data (sparseIndex n) → (set.del n).data i = set.data i := by
      intro i hi
      exact hold i (Int.ofNat_inj.not.2 hi) (R.index_ne hlt i).symm
    have hother : ∀ i < set.len, i ≠ set.data (sparseIndex n) → set.data i ≠ n := by
      intro i hi hne heq
      exact hne (R.inj hi hplace (heq.trans hat.symm))
    refine ⟨?_, fun m hm => ?_, fun i hi => ?_, fun i hi => ?_, fun m hm => ?_⟩
    · rw [del_size]
      exact R.size_le
    · rw [del_size]
      exact R.bounded m hm.1
    · rw [hlen] at hi
      by_cases hi' : i = set.data (sparseIndex n)
      · rw [hi', hmoved]
        exact ⟨hmem, hlast⟩
      · rw [hdense i hi']
        exact ⟨R.mem i (by omega), hother i (by omega) hi'⟩
    · rw [hlen] at hi
      by_cases hi' : i = set.data (sparseIndex n)
      · rw [hi', hmoved, hmovedPlace]
      · have hi : i < set.len := by omega
        have helem := R.bounded _ (R.mem i hi)
        have hapart : sparseIndex (set.data i) ≠ sparseIndex (set.data (set.len - 1 : ℕ)) := by
          intro h
          have hsame := R.inj hi (by omega) (R.index_inj helem hlt h)
          omega
        rw [hdense i hi', hold _ (R.index_ne helem _) hapart, R.stands i hi]
    · obtain ⟨i, hi, rfl⟩ := R.found m hm.1
      rw [hlen]
      by_cases hi' : i = set.len - 1
      · subst hi'
        exact ⟨_, by omega, hmoved⟩
      · have hne : i ≠ set.data (sparseIndex n) := by
          rintro rfl
          exact hm.2 hat
        exact ⟨i, by omega, hdense i hne⟩

/-- `pop` takes the last element. -/
theorem Represents.pop (R : Represents set s) : Represents set.pop.2 (s \ {set.pop.1}) := by
  unfold SparseSet.pop
  by_cases h : set.len > 0
  · rw [if_pos h, decr_of_pos h]
    exact R.dropLast h
  · rw [if_neg h]
    have hs : s \ {2 ^ 32 - 1} = s := by
      apply Set.sdiff_singleton_eq_self
      intro hmem
      obtain ⟨i, hi, -⟩ := R.found _ hmem
      omega
    rw [hs]
    exact R

/-- Every call has its effect on the elements. -/
theorem Represents.run {calls : List Call} (R : Represents set s) (h : set.Fits s calls) :
    Represents (set.run calls) (set.elements s calls) := by
  induction calls generalizing set s with
  | nil => exact R
  | cons c calls ih =>
    cases c with
    | add n => exact ih (R.add h.1.1 h.1.2) h.2
    | del n => exact ih (R.del h.1) h.2
    | pop => exact ih R.pop h
    | clear => exact ih R.clear h

theorem Represents.serves (R : Represents set s) : Serves set s where
  bounded := R.bounded
  contains := fun _ _ => R.contains_iff
  dense := by
    intro n
    unfold SparseSet.dense
    rw [List.mem_map]
    constructor
    · rintro ⟨i, hi, rfl⟩
      exact R.mem i (List.mem_range.1 hi)
    · intro hn
      obtain ⟨i, hi, hin⟩ := R.found n hn
      exact ⟨i, List.mem_range.2 hi, hin⟩
  nodup := by
    unfold SparseSet.dense
    apply List.Nodup.map_on ?_ List.nodup_range
    intro i hi j hj h
    exact R.inj (List.mem_range.1 hi) (List.mem_range.1 hj) h
  empty := by
    rintro rfl
    unfold SparseSet.pop
    refine congrArg Prod.fst (if_neg fun h => ?_)
    exact (R.mem 0 h).elim
  pop := by
    intro hne
    obtain ⟨n, hn⟩ := Set.nonempty_iff_ne_empty.2 hne
    have hlen : set.len > 0 := (Nat.zero_le _).trans_lt (R.place hn).1
    unfold SparseSet.pop
    rw [if_pos hlen, decr_of_pos hlen]
    exact R.mem _ (by omega)

end SparseSet

/-! ## Every run -/

/-- Over every run of calls, on whatever memory, for elements less than a size of at most `2 ^ 31`. -/
theorem contains_run (memory : ℤ → ℕ) {size : ℕ} (calls : List SparseSet.Call) (hsize : size ≤ 2 ^ 31)
    (h : (SparseSet.init memory size).Fits ∅ calls) :
    SparseSet.Serves ((SparseSet.init memory size).run calls) ((SparseSet.init memory size).elements ∅ calls) :=
  ((SparseSet.represents_init memory hsize).run h).serves

/-- The sparse array has zeros only, so that every number seems to stand in the first place. -/
theorem contains_run_del :
    SparseSet.Serves ((SparseSet.init (fun _ => 0) 8).run [.add 5, .add 0, .add 7, .del 5, .pop])
      ((SparseSet.init (fun _ => 0) 8).elements ∅ [.add 5, .add 0, .add 7, .del 5, .pop]) := by
  refine contains_run (fun _ => 0) _ (by decide) ?_
  simp [SparseSet.Fits, SparseSet.add, SparseSet.init]

/-- Behind the first `2 ^ 31` numbers the sparse array runs into the dense one. -/
theorem not_contains_run : ¬∀ (memory : ℤ → ℕ) (size : ℕ) (calls : List SparseSet.Call), size < 2 ^ 32 →
    (SparseSet.init memory size).Fits ∅ calls → SparseSet.Serves ((SparseSet.init memory size).run calls)
      ((SparseSet.init memory size).elements ∅ calls) := by
  intro h
  have hserves := h (fun _ => 0) 0xffffffff [.add 0xfffffffe, .add 5] (by decide) (by
    simp [SparseSet.Fits, SparseSet.add, SparseSet.init])
  have hin := (hserves.contains 0xfffffffe (by decide)).2 (by
    simp [SparseSet.elements, SparseSet.effect])
  exact absurd hin (by decide)

end IrJit.Helper
