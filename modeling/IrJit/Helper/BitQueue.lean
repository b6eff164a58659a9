import Mathlib.Order.Bounds.Basic
import IrJit.Helper.SparseSet
import IrJit.Lib.FirstBit

/-!
# Helper.BitQueue — bit sets that are taken apart from below (`ir_private.h`, 301–340 and 584–656)

Words have 64 bits, as on every host but x86-32.  A member is a number of type `uint32_t`, `pop` returns an `int`.
-/

namespace IrJit.Helper

/-- `ir_bitset_base_t`. -/
abbrev Word : Type := BitVec 64

/-- `ir_bitset_len`; the sum is a `uint32_t`. -/
def bitsetLen (n : ℕ) : ℕ := (n + 63) % 2 ^ 32 / 64

/-- `ir_bitset_ntz`. -/
def ntz (x : Word) : ℕ := x.ctz.toNat

/-- `ir_bitqueue`; `set` is what memory has from the first word on. -/
structure Bitqueue where
  len : ℕ
  pos : ℕ
  set : ℕ → Word

namespace Bitqueue

/-- `ir_bitqueue_init`; `memory` is what stands behind the words. -/
def init (memory : ℕ → Word) (n : ℕ) : Bitqueue where
  len := bitsetLen n
  pos := decr (bitsetLen n)
  set := fun i => if i < bitsetLen n then 0 else memory i

variable (q : Bitqueue)

/-- `ir_bitqueue_grow`. -/
def grow (n : ℕ) : Bitqueue :=
  let len := bitsetLen n
  if len > q.len then
    { q with
      len := len
      set := fun i => if q.len ≤ i ∧ i < len then 0 else q.set i }
  else q

/-- `ir_bitqueue_clear`. -/
def clear : Bitqueue :=
  { q with
    pos := decr q.len
    set := fun i => if i < q.len then 0 else q.set i }

/-- The loop of `ir_bitqueue_pop`, at word `i`. -/
def popFrom (i : ℕ) : ℤ × Bitqueue :=
  let x := q.set i
  if x ≠ 0 then
    (asInt (64 * i + ntz x), { q with set := Function.update q.set i (x &&& (x - 1#64)), pos := i })
  else if i + 1 < q.len then popFrom (i + 1)
  else (-1, { q with pos := decr q.len })
termination_by q.len - i

/-- `ir_bitqueue_pop`. -/
def pop : ℤ × Bitqueue := q.popFrom q.pos

/-- `ir_bitqueue_add`. -/
def add (n : ℕ) : Bitqueue :=
  let i := n / 64
  { q with
    set := Function.update q.set i (q.set i ||| 1#64 <<< (n % 64))
    pos := if i < q.pos then i else q.pos }

/-- `ir_bitqueue_del`. -/
def del (n : ℕ) : Bitqueue :=
  { q with set := Function.update q.set (n / 64) (q.set (n / 64) &&& ~~~(1#64 <<< (n % 64))) }

/-- `ir_bitqueue_in`. -/
def contains (n : ℕ) : Bool := (q.set (n / 64) &&& 1#64 <<< (n % 64)) ≠ 0

/-- The calls on a queue. -/
inductive Call
  | add (n : ℕ)
  | del (n : ℕ)
  | pop
  | grow (n : ℕ)
  | clear

/-- The queue after a call. -/
def call : Call → Bitqueue
  | .add n => q.add n
  | .del n => q.del n
  | .pop => q.pop.2
  | .grow n => q.grow n
  | .clear => q.clear

/-- The queue after some calls. -/
def run (q : Bitqueue) : List Call → Bitqueue
  | [] => q
  | c :: calls => run (q.call c) calls

/-- Members have a word; the number that a queue grows to is a `uint32_t` that is at most `limit`. -/
def Fits (limit : ℕ) (q : Bitqueue) : List Call → Prop
  | [] => True
  | .add n :: calls => n < 64 * q.len ∧ Fits limit (q.add n) calls
  | .del n :: calls => n < 64 * q.len ∧ Fits limit (q.del n) calls
  | .pop :: calls => Fits limit q.pop.2 calls
  | .grow n :: calls => n ≤ limit ∧ Fits limit (q.grow n) calls
  | .clear :: calls => Fits limit q.clear calls

end Bitqueue

/-! ## Sets of numbers -/

section Sets

/-- What a call is for. -/
def Bitqueue.Call.effect (s : Set ℕ) : Bitqueue.Call → Set ℕ
  | .add n => insert n s
  | .del n => s \ {n}
  | .pop => {m ∈ s | ¬IsLeast s m}
  | .grow _ => s
  | .clear => ∅

/-- The set after some calls. -/
def members (s : Set ℕ) : List Bitqueue.Call → Set ℕ
  | [] => s
  | c :: calls => members (c.effect s) calls

/-- The queue holds the set, no bit lies in a word below `pos`, and `pop` takes the least member, or says that there
is none. -/
structure Serves (q : Bitqueue) (s : Set ℕ) : Prop where
  bounded : ∀ m ∈ s, m < 64 * q.len
  contains : ∀ m < 64 * q.len, q.contains m = true ↔ m ∈ s
  below : ∀ i < q.pos, q.set i = 0
  empty : q.pop.1 = -1 ↔ s = ∅
  least : ∀ m, IsLeast s m → q.pop.1 = m ∧ q.pop.2.len = q.len ∧
    ∀ k < 64 * q.len, q.pop.2.contains k = true ↔ k ∈ s ∧ k ≠ m

end Sets

/-! ## Words -/

section Words

variable {x : Word} {q : Bitqueue} {n m : ℕ}

theorem getLsbD_one_shift (k i : ℕ) : (1#64 <<< k).getLsbD i = decide (i = k ∧ i < 64) := by
  rw [BitVec.getLsbD_shiftLeft, BitVec.getLsbD_one]
  by_cases hi : i < 64
  · by_cases hk : i < k
    · have hne : i ≠ k := by omega
      simp [hk, hne]
    · by_cases he : i = k
      · subst he
        simp [hi]
      · have hsub : i - k ≠ 0 := by omega
        simp [hi, hk, he, hsub]
  · simp [hi]

/-- A bit of a word, as `ir_bitset_in` reads it. -/
theorem and_one_shift_ne_zero (x : Word) {k : ℕ} (hk : k < 64) : x &&& 1#64 <<< k ≠ 0 ↔ x.getLsbD k = true := by
  constructor
  · intro hne
    by_contra hbit
    refine hne (BitVec.eq_of_getLsbD_eq fun i hi => ?_)
    rw [BitVec.getLsbD_and, getLsbD_one_shift]
    by_cases he : i = k
    · subst he
      simp [Bool.eq_false_iff.2 hbit]
    · simp [he]
  · intro hbit hzero
    have h0 : (x &&& 1#64 <<< k).getLsbD k = false := by
      rw [hzero]
      exact BitVec.getLsbD_zero
    rw [BitVec.getLsbD_and, getLsbD_one_shift, hbit, decide_eq_true ⟨rfl, hk⟩] at h0
    exact Bool.noConfusion h0

theorem zero_bit (k : ℕ) : (0 : Word).getLsbD k = false := BitVec.getLsbD_zero

theorem contains_iff : q.contains n = true ↔ (q.set (n / 64)).getLsbD (n % 64) = true := by
  unfold Bitqueue.contains
  rw [decide_eq_true_iff]
  exact and_one_shift_ne_zero _ (Nat.mod_lt _ (by decide))

/-- Two numbers with one word and one bit. -/
theorem eq_of_div_mod (hdiv : m / 64 = n / 64) (hmod : m % 64 = n % 64) : m = n := by omega

theorem contains_add : (q.add n).contains m = true ↔ m = n ∨ q.contains m = true := by
  rw [contains_iff, contains_iff]
  unfold Bitqueue.add
  dsimp only
  by_cases hdiv : m / 64 = n / 64
  · rw [hdiv, Function.update_self, BitVec.getLsbD_or, getLsbD_one_shift, Bool.or_eq_true,
      decide_eq_true_iff, or_comm]
    refine or_congr ⟨fun h => eq_of_div_mod hdiv h.1, fun h => ⟨by rw [h], Nat.mod_lt _ (by decide)⟩⟩ Iff.rfl
  · rw [Function.update_of_ne hdiv]
    refine ⟨Or.inr, fun h => h.resolve_left ?_⟩
    rintro rfl
    exact hdiv rfl

theorem contains_del : (q.del n).contains m = true ↔ q.contains m = true ∧ m ≠ n := by
  rw [contains_iff, contains_iff]
  unfold Bitqueue.del
  dsimp only
  by_cases hdiv : m / 64 = n / 64
  · have hlt : m % 64 < 64 := Nat.mod_lt _ (by decide)
    rw [hdiv, Function.update_self, BitVec.getLsbD_and, BitVec.getLsbD_not, getLsbD_one_shift, Bool.and_eq_true]
    refine and_congr Iff.rfl ?_
    rw [decide_eq_true hlt, Bool.true_and, Bool.not_eq_true', decide_eq_false_iff_not]
    exact not_congr ⟨fun h => eq_of_div_mod hdiv h.1, fun h => ⟨by rw [h], hlt⟩⟩
  · rw [Function.update_of_ne hdiv]
    refine ⟨fun h => ⟨h, ?_⟩, And.left⟩
    rintro rfl
    exact hdiv rfl

end Words

/-! ## What a queue represents -/

/-- The words of a queue hold the set, and none below `pos` has a bit. -/
structure Represents (q : Bitqueue) (s : Set ℕ) : Prop where
  pos_lt : q.pos < q.len
  len_le : q.len ≤ 2 ^ 25
  bounded : ∀ m ∈ s, m < 64 * q.len
  contains : ∀ m < 64 * q.len, q.contains m = true ↔ m ∈ s
  below : ∀ i < q.pos, q.set i = 0

section Pop

variable {q : Bitqueue} {s : Set ℕ} {i : ℕ}

/-- A bit in a word is a member. -/
theorem Represents.mem_of_bit (R : Represents q s) (hi : i < q.len) {k : ℕ} (hk : k < 64)
    (hbit : (q.set i).getLsbD k = true) : 64 * i + k ∈ s := by
  have hdiv : (64 * i + k) / 64 = i := by omega
  have hmod : (64 * i + k) % 64 = k := by omega
  refine (R.contains _ (by omega)).1 (contains_iff.2 ?_)
  rw [hdiv, hmod]
  exact hbit

theorem Represents.bit_of_mem (R : Represents q s) {m : ℕ} (hm : m ∈ s) : (q.set (m / 64)).getLsbD (m % 64) = true :=
  contains_iff.1 ((R.contains m (R.bounded m hm)).2 hm)

/-- No member lies in a word without bits. -/
theorem Represents.le_of_below (R : Represents q s) (hbelow : ∀ j < i, q.set j = 0) {m : ℕ} (hm : m ∈ s) :
    i ≤ m / 64 := by
  by_contra hlt
  have hbit := R.bit_of_mem hm
  rw [hbelow _ (by omega), zero_bit] at hbit
  exact Bool.false_ne_true hbit

/-- The first word with a bit has the least member. -/
theorem Represents.least_of_word (R : Represents q s) (hi : i < q.len) (hbelow : ∀ j < i, q.set j = 0)
    (hx : q.set i ≠ 0) : IsLeast s (64 * i + ntz (q.set i)) := by
  refine ⟨R.mem_of_bit hi (LowestBit.ctz_lt hx) (BitVec.getLsbD_true_ctz_of_ne_zero hx), fun m hm => ?_⟩
  have hword := R.le_of_below hbelow hm
  have hbit := R.bit_of_mem hm
  by_cases hsame : m / 64 = i
  · rw [hsame] at hbit
    have hle := LowestBit.ctz_le_of_getLsbD hbit
    unfold ntz
    omega
  · have hlt : (q.set i).ctz.toNat < 64 := LowestBit.ctz_lt hx
    unfold ntz
    omega

/-- Where the loop ends: at the first word with a bit, or behind the last word. -/
theorem popFrom_cases (hi : i < q.len) (hbelow : ∀ j < i, q.set j = 0) :
    (∃ j < q.len, (∀ k < j, q.set k = 0) ∧ q.set j ≠ 0 ∧
      q.popFrom i = (asInt (64 * j + ntz (q.set j)),
        { q with set := Function.update q.set j (q.set j &&& (q.set j - 1#64)), pos := j })) ∨
    (∀ k < q.len, q.set k = 0) ∧
      q.popFrom i = (-1, { q with pos := decr q.len }) := by
  induction i using Bitqueue.popFrom.induct q with
  | case1 i x hx =>
    left
    refine ⟨i, hi, hbelow, hx, ?_⟩
    rw [Bitqueue.popFrom]
    exact if_pos hx
  | case2 i x hx hnext ih =>
    have hzero : q.set i = 0 := not_not.1 hx
    rw [Bitqueue.popFrom, if_neg hx, if_pos hnext]
    refine ih hnext fun j hj => ?_
    rcases Nat.lt_succ_iff_lt_or_eq.1 hj with hj | rfl
    · exact hbelow j hj
    · exact hzero
  | case3 i x hx hend =>
    right
    have hzero : q.set i = 0 := not_not.1 hx
    rw [Bitqueue.popFrom, if_neg hx, if_neg hend]
    refine ⟨fun k hk => ?_, rfl⟩
    rcases Nat.lt_or_ge k i with hlt | hge
    · exact hbelow k hlt
    · obtain rfl : k = i := by omega
      exact hzero

/-- Taking the lowest bit of the first word that has one. -/
theorem Represents.take (R : Represents q s) (hi : i < q.len) (hbelow : ∀ j < i, q.set j = 0) (hx : q.set i ≠ 0) :
    Represents { q with set := Function.update q.set i (q.set i &&& (q.set i - 1#64)), pos := i }
      (s \ {64 * i + ntz (q.set i)}) where
  pos_lt := hi
  len_le := R.len_le
  bounded := fun m hm => R.bounded m hm.1
  below := by
    intro j hj
    exact (Function.update_of_ne (ne_of_lt hj) _ _).trans (hbelow j hj)
  contains := by
    intro m hm
    have hlt : ntz (q.set i) < 64 := LowestBit.ctz_lt hx
    have hold := R.contains m hm
    rw [contains_iff] at hold ⊢
    rw [Set.mem_sdiff, ← hold, Set.mem_singleton_iff]
    dsimp only
    by_cases hword : m / 64 = i
    · rw [hword, Function.update_self, LowestBit.getLsbD_and_pred hx, Bool.and_eq_true, decide_eq_true_iff]
      refine and_congr Iff.rfl (not_congr ⟨fun h => ?_, fun h => ?_⟩)
      · have hntz : ntz (q.set i) = (q.set i).ctz.toNat := rfl
        omega
      · have hntz : ntz (q.set i) = (q.set i).ctz.toNat := rfl
        omega
    · rw [Function.update_of_ne hword]
      refine ⟨fun h => ⟨h, ?_⟩, And.left⟩
      rintro rfl
      omega

/-- `pop` takes the least member, if there is one. -/
theorem Represents.pop (R : Represents q s) :
    (∃ m, IsLeast s m ∧ q.pop.1 = m ∧ Represents q.pop.2 (s \ {m}) ∧ q.pop.2.len = q.len) ∨
    s = ∅ ∧ q.pop.1 = -1 ∧ Represents q.pop.2 ∅ := by
  have hlen := R.len_le
  have hpos := R.pos_lt
  rcases popFrom_cases R.pos_lt R.below with ⟨j, hj, hbelow, hx, hpop⟩ | ⟨hzero, hpop⟩
  · left
    have hleast := R.least_of_word hj hbelow hx
    have hlt : ntz (q.set j) < 64 := LowestBit.ctz_lt hx
    have hint : asInt (64 * j + ntz (q.set j)) = ((64 * j + ntz (q.set j) : ℕ) : ℤ) := asInt_of_lt (by omega)
    unfold Bitqueue.pop
    rw [hpop]
    dsimp only
    exact ⟨64 * j + ntz (q.set j), hleast, hint, R.take hj hbelow hx, rfl⟩
  · right
    have hs : s = ∅ := by
      apply Set.eq_empty_of_forall_notMem
      intro m hm
      have hbit := R.bit_of_mem hm
      have hlt := R.bounded m hm
      rw [hzero _ (by omega), zero_bit] at hbit
      exact Bool.false_ne_true hbit
    unfold Bitqueue.pop
    rw [hpop]
    refine ⟨hs, rfl, ?_⟩
    subst hs
    dsimp only
    rw [decr_of_pos (by omega)]
    exact { pos_lt := Nat.sub_lt (by omega) one_pos
            len_le := hlen
            bounded := R.bounded
            contains := R.contains
            below := fun i hi => hzero i (by dsimp only at hi; omega) }

end Pop

section Calls

variable {q : Bitqueue} {s : Set ℕ} {n : ℕ}

theorem represents_init (memory : ℕ → Word) (hn : 1 ≤ n) (hmax : n ≤ 2 ^ 31) : Represents (.init memory n) ∅ := by
  have hlen : bitsetLen n = (n + 63) / 64 := by
    unfold bitsetLen
    rw [Nat.mod_eq_of_lt (by omega)]
  have hzero : ∀ i < bitsetLen n, (Bitqueue.init memory n).set i = 0 := fun i hi => if_pos hi
  have hpos : (Bitqueue.init memory n).pos = bitsetLen n - 1 := decr_of_pos (by omega)
  refine ⟨?_, ?_, fun m hm => hm.elim, fun m hm => ?_, fun i hi => hzero i ?_⟩
  · rw [hpos]
    show bitsetLen n - 1 < bitsetLen n
    omega
  · show bitsetLen n ≤ 2 ^ 25
    omega
  · have hm : m < 64 * bitsetLen n := hm
    rw [contains_iff, hzero _ (by omega), zero_bit]
    exact ⟨fun h => Bool.noConfusion h, fun h => h.elim⟩
  · rw [hpos] at hi
    omega

theorem Represents.add (R : Represents q s) (hn : n < 64 * q.len) : Represents (q.add n) (insert n s) where
  pos_lt := by
    have := R.pos_lt
    show (if n / 64 < q.pos then n / 64 else q.pos) < q.len
    split_ifs
    · omega
    · exact R.pos_lt
  len_le := R.len_le
  bounded := by
    intro m hm
    rcases Set.mem_insert_iff.1 hm with rfl | hm
    · exact hn
    · exact R.bounded m hm
  contains := by
    intro m hm
    rw [contains_add, Set.mem_insert_iff]
    exact or_congr Iff.rfl (R.contains m hm)
  below := by
    intro i hi
    have hi : i < if n / 64 < q.pos then n / 64 else q.pos := hi
    have hne : i ≠ n / 64 ∧ i < q.pos := by
      split_ifs at hi
      · omega
      · omega
    exact (Function.update_of_ne hne.1 _ _).trans (R.below i hne.2)

theorem Represents.del (R : Represents q s) : Represents (q.del n) (s \ {n}) where
  pos_lt := R.pos_lt
  len_le := R.len_le
  bounded := fun m hm => R.bounded m hm.1
  contains := by
    intro m hm
    rw [contains_del, Set.mem_sdiff, Set.mem_singleton_iff]
    exact and_congr (R.contains m hm) Iff.rfl
  below := by
    intro i hi
    have hzero := R.below i hi
    show Function.update q.set _ _ i = 0
    by_cases hword : i = n / 64
    · subst hword
      rw [Function.update_self, hzero]
      exact BitVec.zero_and
    · rw [Function.update_of_ne hword, hzero]

theorem Represents.grow (R : Represents q s) (hmax : n ≤ 2 ^ 31) : Represents (q.grow n) s := by
  have hlen : bitsetLen n ≤ 2 ^ 25 := by
    unfold bitsetLen
    omega
  have hpos := R.pos_lt
  unfold Bitqueue.grow
  dsimp only
  by_cases hgt : bitsetLen n > q.len
  · rw [if_pos hgt]
    refine ⟨lt_trans R.pos_lt hgt, hlen, fun m hm => lt_trans (R.bounded m hm) (by dsimp only; omega), fun m hm => ?_,
      fun i hi => ?_⟩
    · rw [contains_iff]
      dsimp only at hm ⊢
      by_cases hold : m < 64 * q.len
      · rw [if_neg (by omega), ← contains_iff]
        exact R.contains m hold
      · rw [if_pos (by omega), zero_bit]
        exact ⟨fun h => Bool.noConfusion h, fun h => absurd (R.bounded m h) hold⟩
    · dsimp only at hi ⊢
      rw [if_neg (by omega)]
      exact R.below i hi
  · rw [if_neg hgt]
    exact R

theorem Represents.clear (R : Represents q s) : Represents q.clear ∅ := by
  have hpos := R.pos_lt
  have hlen := R.len_le
  have hpred : q.clear.pos = q.len - 1 := decr_of_pos (by omega)
  have hzero : ∀ i < q.len, q.clear.set i = 0 := fun i hi => if_pos hi
  refine ⟨?_, R.len_le, fun m hm => hm.elim, fun m hm => ?_, fun i hi => hzero i ?_⟩
  · rw [hpred]
    exact Nat.sub_lt (by omega) one_pos
  · have hm : m < 64 * q.len := hm
    rw [contains_iff, hzero _ (by omega), zero_bit]
    exact ⟨fun h => Bool.noConfusion h, fun h => h.elim⟩
  · rw [hpred] at hi
    omega

/-- Without its least member, if it has one. -/
theorem sep_not_least {m : ℕ} (h : IsLeast s m) : {k ∈ s | ¬IsLeast s k} = s \ {m} := by
  ext k
  rw [Set.mem_sep_iff, Set.mem_sdiff, Set.mem_singleton_iff]
  refine and_congr Iff.rfl (not_congr ⟨fun hk => hk.unique h, ?_⟩)
  rintro rfl
  exact h

/-- Every call has its effect on the set. -/
theorem Represents.run {calls : List Bitqueue.Call} {limit : ℕ} (hlimit : limit ≤ 2 ^ 31) (R : Represents q s)
    (h : q.Fits limit calls) : Represents (q.run calls) (members s calls) := by
  induction calls generalizing q s with
  | nil => exact R
  | cons c calls ih =>
    cases c with
    | add n => exact ih (R.add h.1) h.2
    | del n => exact ih R.del h.2
    | grow n => exact ih (R.grow (h.1.trans hlimit)) h.2
    | clear => exact ih R.clear h
    | pop =>
      rcases R.pop with ⟨m, hleast, -, hrep, -⟩ | ⟨rfl, -, hrep⟩
      · have heffect : Bitqueue.Call.effect s .pop = s \ {m} := sep_not_least hleast
        rw [members, heffect]
        exact ih hrep h
      · have heffect : Bitqueue.Call.effect (∅ : Set ℕ) .pop = ∅ := Set.sep_empty _
        rw [members, heffect]
        exact ih hrep h

theorem Represents.serves (R : Represents q s) : Serves q s where
  bounded := R.bounded
  contains := R.contains
  below := R.below
  empty := by
    rcases R.pop with ⟨m, hleast, hpop, -, -⟩ | ⟨hs, hpop, -⟩
    · rw [hpop]
      refine ⟨fun h => by omega, ?_⟩
      rintro rfl
      exact hleast.1.elim
    · exact ⟨fun _ => hs, fun _ => hpop⟩
  least := by
    intro m hm
    rcases R.pop with ⟨m', hleast, hpop, hrep, hlen⟩ | ⟨rfl, -, -⟩
    · obtain rfl := hm.unique hleast
      refine ⟨hpop, hlen, fun k hk => ?_⟩
      rw [← hlen] at hk
      rw [hrep.contains k hk]
      exact Iff.rfl
    · exact hm.1.elim

end Calls

/-! ## Every run -/

/-- Over every run of calls, from a queue for at most `2 ^ 31` numbers, `pop` takes the least member. -/
theorem pop_least (memory : ℕ → Word) {n : ℕ} (calls : List Bitqueue.Call) (hn : 1 ≤ n) (hmax : n ≤ 2 ^ 31)
    (h : (Bitqueue.init memory n).Fits (2 ^ 31) calls) :
    Serves ((Bitqueue.init memory n).run calls) (members ∅ calls) :=
  ((represents_init memory hn hmax).run le_rfl h).serves

/-- Five calls on a queue for 100 numbers, which grows to 200. -/
theorem pop_least_five :
    Serves ((Bitqueue.init (fun _ => 0) 100).run [.add 70, .add 3, .grow 200, .add 170, .pop])
      (members ∅ [.add 70, .add 3, .grow 200, .add 170, .pop]) := by
  refine pop_least (fun _ => 0) _ (by decide) (by decide) ?_
  simp only [Bitqueue.Fits]
  decide

/-- The member `2 ^ 31` is no `int`. -/
theorem not_pop_least : ¬∀ (memory : ℕ → Word) (n : ℕ) (calls : List Bitqueue.Call), 1 ≤ n → n < 2 ^ 32 →
    (Bitqueue.init memory n).Fits (2 ^ 32 - 1) calls →
      Serves ((Bitqueue.init memory n).run calls) (members ∅ calls) := by
  intro h
  have hlen : bitsetLen 0x80000001 = 0x2000001 := by decide
  have hserves := h (fun _ => 0) 0x80000001 [.add 0x80000000] (by decide) (by decide) (by
    simp only [Bitqueue.Fits]
    decide)
  have hpos : ((Bitqueue.init (fun _ => 0) 0x80000001).add 0x80000000).pos = 0x2000000 := by
    simp [Bitqueue.add, Bitqueue.init, hlen, decr]
  have hset : ((Bitqueue.init (fun _ => 0) 0x80000001).add 0x80000000).set 0x2000000 = 1 := by
    simp [Bitqueue.add, Bitqueue.init]
  have hpop : ((Bitqueue.init (fun _ => 0) 0x80000001).add 0x80000000).pop.1 = -0x80000000 := by
    have hntz : ntz 1 = 0 := Nat.le_zero.1 (LowestBit.ctz_le_of_getLsbD (by decide))
    rw [Bitqueue.pop, hpos, Bitqueue.popFrom, hset, if_pos (by decide), hntz]
    decide
  have hleast : IsLeast (members ∅ [.add 0x80000000]) 0x80000000 := by
    simp [members, Bitqueue.Call.effect]
  have hmember := (hserves.least _ hleast).1
  rw [Bitqueue.run, Bitqueue.run, Bitqueue.call, hpop] at hmember
  exact absurd hmember (by decide)

/-! ## Worklists -/

/-- What the loop `while ((i = ir_bitqueue_pop(q)) >= 0)` gets, in at most so many rounds. -/
def Bitqueue.drain : ℕ → Bitqueue → Option (List ℤ)
  | 0, _ => none
  | rounds + 1, q => if q.pop.1 < 0 then some [] else (drain rounds q.pop.2).map fun l => q.pop.1 :: l

theorem Represents.drain {q : Bitqueue} {s : Set ℕ} {lo rounds : ℕ} (R : Represents q s) (hlo : ∀ m ∈ s, lo ≤ m)
    (hrounds : 2 ^ 31 - lo < rounds) : ∃ l : List ℕ, q.drain rounds = some (l.map fun m => (m : ℤ)) ∧
      l.Pairwise (· < ·) ∧ ∀ m, m ∈ l ↔ m ∈ s := by
  induction rounds generalizing q s lo with
  | zero => omega
  | succ rounds ih =>
    rw [Bitqueue.drain]
    rcases R.pop with ⟨m, hleast, hpop, hrep, -⟩ | ⟨rfl, hpop, -⟩
    · have hm := R.bounded m hleast.1
      have hlen := R.len_le
      have hle := hlo m hleast.1
      have hrest : ∀ k ∈ s \ {m}, m + 1 ≤ k := fun k hk => lt_of_le_of_ne (hleast.2 hk.1) (Ne.symm hk.2)
      obtain ⟨l, hl, hsorted, hmem⟩ := ih hrep hrest (by omega)
      refine ⟨m :: l, ?_, List.pairwise_cons.2 ⟨fun k hk => hrest k ((hmem k).1 hk), hsorted⟩, fun k => ?_⟩
      · rw [hpop, if_neg (by omega), hl]
        rfl
      · rw [List.mem_cons, hmem, Set.mem_sdiff, Set.mem_singleton_iff]
        by_cases hk : k = m
        · simp [hk, hleast.1]
        · simp [hk]
    · exact ⟨[], by rw [hpop]; rfl, List.Pairwise.nil, fun m => by simp⟩

/-- After every run of calls a loop that takes the members out of the queue ends: it gets each member once, in
ascending order. -/
theorem drain_members (memory : ℕ → Word) {n : ℕ} (calls : List Bitqueue.Call) (hn : 1 ≤ n) (hmax : n ≤ 2 ^ 31)
    (h : (Bitqueue.init memory n).Fits (2 ^ 31) calls) :
    ∃ l : List ℕ, ((Bitqueue.init memory n).run calls).drain (2 ^ 31 + 1) = some (l.map fun m => (m : ℤ)) ∧
      l.Pairwise (· < ·) ∧ ∀ m, m ∈ l ↔ m ∈ members ∅ calls :=
  ((represents_init memory hn hmax).run le_rfl h).drain (fun m _ => Nat.zero_le m) (by omega)

theorem drain_members_two :
    ∃ l : List ℕ, ((Bitqueue.init (fun _ => 0) 100).run [.add 70, .add 3]).drain (2 ^ 31 + 1) =
      some (l.map fun m => (m : ℤ)) ∧ l.Pairwise (· < ·) ∧ ∀ m, m ∈ l ↔ m ∈ members ∅ [.add 70, .add 3] := by
  refine drain_members (fun _ => 0) _ (by decide) (by decide) ?_
  simp only [Bitqueue.Fits]
  decide

end IrJit.Helper
