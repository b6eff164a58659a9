import IrJit.Builder.Predicates

/-!
# Builder.PredicatesChain — what every call of the builder keeps

Operands come before their instruction, so the walk from `ctx->control` ends, and it does not begin at an `IF`.
-/

namespace IrJit.Predicates

open Mem (Insn Ctx)

/-! ## Results of the walk -/

section Walk

variable {C : Ctx} {c limit : ℤ} {fuel n : ℕ} {prev : Option Insn}

/-- `IR_TRUE` or `IR_FALSE`. -/
def known (b : Bool) : ℤ := if b then irTrue else irFalse

theorem known_neg (b : Bool) : known b < 0 := by cases b <;> decide

/-- The guard, and the projection of a branch, behind which the condition is known. -/
def guardOp (b : Bool) : IrOp := if b then .guard else .guardNot

def projOp (b : Bool) : IrOp := if b then .ifTrue else .ifFalse

/-- The walk stops with a result at a guard, or at the branch of a projection. -/
theorem verdict_known {b : Bool} {insn : Insn} (hc : 0 ≤ c) (h : verdict c insn prev = some (known b)) :
    insn.op2 = c ∧ (insn.op = guardOp b ∨ insn.op = .ifOp ∧ ∃ p, prev = some p ∧ p.op = projOp b) := by
  unfold verdict at h
  have hne : c ≠ known b := by
    have := known_neg b
    omega
  split_ifs at h with h1 h2 h3 h4 h5 h6 h7 h8 h9
  · cases b with
    | false => exact ⟨h2, Or.inl h1⟩
    | true => exact absurd (Option.some.inj h) (by decide)
  · cases b with
    | false => exact absurd (Option.some.inj h) (by decide)
    | true => exact ⟨h4, Or.inl h3⟩
  · cases b with
    | false => exact absurd (Option.some.inj h) (by decide)
    | true =>
      obtain ⟨p, hp, hop⟩ := (Option.any_eq_true _ _).1 h7
      exact ⟨h6, Or.inr ⟨h5, p, hp, of_decide_eq_true hop⟩⟩
  · cases b with
    | false =>
      obtain ⟨p, hp, hop⟩ := (Option.any_eq_true _ _).1 h8
      exact ⟨h6, Or.inr ⟨h5, p, hp, of_decide_eq_true hop⟩⟩
    | true => exact absurd (Option.some.inj h) (by decide)
  · exact absurd (Option.some.inj h) hne

/-- The walk has the condition itself for a result, or a constant. -/
theorem verdict_cases {insn : Insn} {r : ℤ} (h : verdict c insn prev = some r) : r = c ∨ ∃ b, r = known b := by
  unfold verdict at h
  split_ifs at h
  · exact Or.inr ⟨false, (Option.some.inj h).symm⟩
  · exact Or.inr ⟨true, (Option.some.inj h).symm⟩
  · exact Or.inr ⟨true, (Option.some.inj h).symm⟩
  · exact Or.inr ⟨false, (Option.some.inj h).symm⟩
  · exact Or.inl (Option.some.inj h).symm

theorem check_cases (c limit : ℤ) (fuel n : ℕ) (prev : Option Insn) :
    checkDominatingPredicates C c limit fuel n prev = c ∨
      ∃ b, checkDominatingPredicates C c limit fuel n prev = known b := by
  induction fuel generalizing n prev with
  | zero => exact Or.inl rfl
  | succ fuel ih =>
    rw [checkDominatingPredicates]
    split_ifs with hle
    · exact Or.inl rfl
    · cases hverdict : verdict c (C.base n) prev with
      | none => exact ih _ _
      | some r => exact verdict_cases hverdict

/-- The walk ends where it meets a join. -/
theorem verdict_join {insn : Insn} (h : isJoin insn.op = true) : verdict c insn prev = some c := by
  simp only [isJoin, Bool.or_eq_true, decide_eq_true_eq] at h
  rcases h with (h | h) | h
  · simp [verdict, h]
  · simp [verdict, h]
  · simp [verdict, h]

theorem known_ne (hc : 0 ≤ c) (b : Bool) : c ≠ known b := by
  have hneg := known_neg b
  omega

/-- The walk does not stop at once where it has a constant for a result. -/
theorem check_known {b : Bool} (hc : 0 ≤ c) (h : checkDominatingPredicates C c limit fuel n prev = known b) :
    limit < n ∧ ∃ rounds, fuel = rounds + 1 ∧ n ∈ walked C c limit fuel n prev ∧
      (verdict c (C.base n) prev = some (known b) ∨ verdict c (C.base n) prev = none ∧
        checkDominatingPredicates C c limit rounds (C.base n).op1.toNat (some (C.base n)) = known b ∧
          ∀ m ∈ walked C c limit rounds (C.base n).op1.toNat (some (C.base n)), m ∈ walked C c limit fuel n prev) := by
  cases fuel with
  | zero => exact absurd h (known_ne hc b)
  | succ fuel =>
    rw [checkDominatingPredicates] at h
    rw [walked]
    by_cases hle : (n : ℤ) ≤ limit
    · rw [if_pos hle] at h
      exact absurd h (known_ne hc b)
    · rw [if_neg hle] at h
      rw [if_neg hle]
      refine ⟨by omega, fuel, rfl, ?_⟩
      cases hverdict : verdict c (C.base n) prev with
      | some r =>
        rw [hverdict] at h
        exact ⟨List.mem_singleton_self n, Or.inl (congrArg some h)⟩
      | none =>
        rw [hverdict] at h
        exact ⟨List.mem_cons_self, Or.inr ⟨rfl, h, fun m hm => List.mem_cons_of_mem n hm⟩⟩

end Walk

/-! ## What every call keeps -/

section Chained

/-- Operands come before their instruction, and only the projections of an `IF` follow it. -/
structure Chained (C : Ctx) : Prop where
  two_le : 2 ≤ C.insnsCount
  zero : (C.base 0).op = .nop
  const : ∀ r < 0, (C.base r).op.isConstOp = true ∨ (C.base r).op.isSymConst = true
  start : (C.base 1).op = .start
  control : C.control ≠ 0 → IsRef C C.control ∧ (C.base C.control).op ≠ .ifOp
  before : ∀ n : ℕ, IsRef C n → isJoin (C.base n).op = false → (C.base n).op1 < n
  tested : ∀ n : ℕ, IsRef C n → tests (C.base n).op = true → (C.base n).op2 < n
  proj : ∀ n : ℕ, IsRef C n → follows (C.base n).op = true → (C.base (C.base n).op1).op = .ifOp →
    (C.base n).op = .ifTrue ∨ (C.base n).op = .ifFalse

variable {C : Ctx}

theorem isJoin_of_follows {op : IrOp} (h : follows op = true) : isJoin op = false := by
  unfold follows at h
  rw [Bool.and_eq_true, Bool.not_eq_true'] at h
  exact h.2

/-- A new instruction, which may become the control. -/
theorem Chained.emitted (h : Chained C) {extra control : ℕ} {insn : Insn}
    (hop1 : isJoin insn.op = false → insn.op1 < C.insnsCount) (hop2 : tests insn.op = true → insn.op2 < C.insnsCount)
    (hproj : follows insn.op = true → (C.base insn.op1).op = .ifOp → insn.op = .ifTrue ∨ insn.op = .ifFalse)
    (hcontrol : control = 0 ∨ control = C.control ∨ control = C.insnsCount ∧ insn.op ≠ .ifOp) :
    Chained { emit C extra insn with control := control } := by
  have htwo := h.two_le
  have hold : ∀ r : ℤ, r < C.insnsCount → (emit C extra insn).base r = C.base r := by
    intro r hr
    show (if _ then _ else if _ then _ else _) = _
    rw [if_neg (by omega), if_neg (by omega)]
  have hnew : (emit C extra insn).base C.insnsCount = insn := if_pos rfl
  have hnop : ∀ n : ℕ, C.insnsCount < n → n < C.insnsCount + 1 + extra →
      (emit C extra insn).base n = node .nop .void 0 0 0 := by
    intro n hgt hlt
    show (if _ then _ else if _ then _ else _) = _
    rw [if_neg (by omega), if_pos (by omega)]
  have hcount : (emit C extra insn).insnsCount = C.insnsCount + 1 + extra := rfl
  refine ⟨?_, ?_, ?_, ?_, fun hne => ?_, fun n hn hjoin => ?_, fun n hn htest => ?_, fun n hn hfollows hif => ?_⟩
  · show 2 ≤ C.insnsCount + 1 + extra
    omega
  · show ((emit C extra insn).base 0).op = .nop
    rw [hold 0 (by omega)]
    exact h.zero
  · intro r hr
    show ((emit C extra insn).base r).op.isConstOp = true ∨ _
    rw [hold r (by omega)]
    exact h.const r hr
  · show ((emit C extra insn).base 1).op = .start
    rw [hold 1 (by omega)]
    exact h.start
  · rcases hcontrol with rfl | rfl | ⟨rfl, hop⟩
    · exact absurd rfl hne
    · obtain ⟨⟨hpos, hlt⟩, hop⟩ := h.control hne
      refine ⟨⟨hpos, show C.control < C.insnsCount + 1 + extra by omega⟩, ?_⟩
      show ((emit C extra insn).base C.control).op ≠ .ifOp
      rw [hold _ (by omega)]
      exact hop
    · refine ⟨⟨show 0 < C.insnsCount by omega, show C.insnsCount < C.insnsCount + 1 + extra by omega⟩, ?_⟩
      show ((emit C extra insn).base C.insnsCount).op ≠ .ifOp
      rw [hnew]
      exact hop
  · change ((emit C extra insn).base n).op1 < n
    replace hjoin : isJoin ((emit C extra insn).base n).op = false := hjoin
    obtain ⟨hpos, hlt⟩ : 0 < n ∧ n < C.insnsCount + 1 + extra := hn
    rcases Nat.lt_trichotomy n C.insnsCount with hlt' | rfl | hgt
    · rw [hold n (by omega)] at hjoin ⊢
      exact h.before n ⟨hpos, hlt'⟩ hjoin
    · rw [hnew] at hjoin ⊢
      exact hop1 hjoin
    · rw [hnop n hgt hlt]
      exact Int.natCast_pos.2 hpos
  · change ((emit C extra insn).base n).op2 < n
    replace htest : tests ((emit C extra insn).base n).op = true := htest
    obtain ⟨hpos, hlt⟩ : 0 < n ∧ n < C.insnsCount + 1 + extra := hn
    rcases Nat.lt_trichotomy n C.insnsCount with hlt' | rfl | hgt
    · rw [hold n (by omega)] at htest ⊢
      exact h.tested n ⟨hpos, hlt'⟩ htest
    · rw [hnew] at htest ⊢
      exact hop2 htest
    · rw [hnop n hgt hlt]
      exact Int.natCast_pos.2 hpos
  · change ((emit C extra insn).base n).op = .ifTrue ∨ ((emit C extra insn).base n).op = .ifFalse
    replace hfollows : follows ((emit C extra insn).base n).op = true := hfollows
    replace hif : ((emit C extra insn).base ((emit C extra insn).base n).op1).op = .ifOp := hif
    obtain ⟨hpos, hlt⟩ : 0 < n ∧ n < C.insnsCount + 1 + extra := hn
    have hjoin := isJoin_of_follows hfollows
    rcases Nat.lt_trichotomy n C.insnsCount with hlt' | rfl | hgt
    · rw [hold n (by omega)] at hjoin hfollows hif ⊢
      have hlt1 := h.before n ⟨hpos, hlt'⟩ hjoin
      rw [hold _ (by omega)] at hif
      exact h.proj n ⟨hpos, hlt'⟩ hfollows hif
    · rw [hnew] at hjoin hfollows hif ⊢
      rw [hold _ (hop1 hjoin)] at hif
      exact hproj hfollows hif
    · rw [hnop n hgt hlt] at hfollows
      cases hfollows

/-- An instruction that changes, or that is taken out. -/
theorem Chained.set (h : Chained C) {ref : ℕ} {insn : Insn} (hpos : 0 < ref)
    (hop : insn.op = (C.base ref).op ∨ 1 < ref ∧ insn.op = .nop) (hop1 : isJoin insn.op = false → insn.op1 < ref)
    (hop2 : tests insn.op = true → insn.op2 < ref)
    (hproj : follows insn.op = true → (C.base insn.op1).op = .ifOp → insn.op = .ifTrue ∨ insn.op = .ifFalse) :
    Chained { C with base := Function.update C.base ref insn } := by
  have hif : ∀ r : ℤ, (Function.update C.base ref insn r).op = .ifOp → (C.base r).op = .ifOp := by
    intro r hr
    by_cases heq : r = ref
    · rw [heq, Function.update_self] at hr
      rcases hop with hop | ⟨-, hop⟩
      · rw [heq, ← hop, hr]
      · rw [hop] at hr
        cases hr
    · rw [Function.update_of_ne heq] at hr
      exact hr
  have hlow : ∀ r : ℤ, r < ref → Function.update C.base ref insn r = C.base r := fun r hr =>
    Function.update_of_ne (by omega) _ _
  refine ⟨h.two_le, ?_, fun r hr => ?_, ?_, fun hne => ?_, fun n hn hjoin => ?_, fun n hn htest => ?_,
    fun n hn hfollows hop1if => ?_⟩
  · dsimp only
    rw [hlow 0 (by omega)]
    exact h.zero
  · dsimp only
    rw [hlow r (by omega)]
    exact h.const r hr
  · dsimp only
    by_cases hone : (1 : ℤ) = ref
    · rcases hop with hop | ⟨hgt, -⟩
      · rw [hone, Function.update_self, hop, ← hone]
        exact h.start
      · omega
    · rw [Function.update_of_ne hone]
      exact h.start
  · obtain ⟨hcontrol, hnot⟩ := h.control hne
    exact ⟨hcontrol, fun hcif => hnot (hif _ hcif)⟩
  · dsimp only at hjoin ⊢
    by_cases hnr : (n : ℤ) = ref
    · rw [hnr, Function.update_self] at hjoin ⊢
      exact hop1 hjoin
    · rw [Function.update_of_ne hnr] at hjoin ⊢
      exact h.before n hn hjoin
  · dsimp only at htest ⊢
    by_cases hnr : (n : ℤ) = ref
    · rw [hnr, Function.update_self] at htest ⊢
      exact hop2 htest
    · rw [Function.update_of_ne hnr] at htest ⊢
      exact h.tested n hn htest
  · dsimp only at hfollows hop1if ⊢
    by_cases hnr : (n : ℤ) = ref
    · rw [hnr, Function.update_self] at hfollows hop1if ⊢
      exact hproj hfollows (hif _ hop1if)
    · rw [Function.update_of_ne hnr] at hfollows hop1if ⊢
      exact h.proj n hn hfollows (hif _ hop1if)

/-- Operands that nothing is said of. -/
theorem Chained.setFree (h : Chained C) {ref : ℕ} {insn : Insn} (href : IsRef C ref) (hop : insn.op = (C.base ref).op)
    (htests : tests insn.op = false) (hop1 : isJoin insn.op = false → insn.op1 = (C.base ref).op1) :
    Chained { C with base := Function.update C.base ref insn } := by
  refine h.set href.1 (Or.inl hop) (fun hjoin => ?_) (fun htest => ?_) fun hfollows hif => ?_
  · rw [hop1 hjoin]
    exact h.before ref href (hop ▸ hjoin)
  · exact absurd (htests.symm.trans htest) Bool.false_ne_true
  · rw [hop1 (isJoin_of_follows hfollows)] at hif
    rw [hop] at hfollows ⊢
    exact h.proj ref href hfollows hif

/-- An instruction that is taken out. -/
theorem Chained.remove (h : Chained C) {ref : ℕ} (href : 1 < ref) :
    Chained { C with base := Function.update C.base ref (node .nop .void 0 0 0) } :=
  h.set (by omega) (Or.inr ⟨href, rfl⟩) (fun _ => show (0 : ℤ) < ref by omega)
    (fun htest => absurd htest Bool.false_ne_true) fun hfollows => absurd hfollows Bool.false_ne_true

/-- An instruction that follows another one than before. -/
theorem Chained.redirect (h : Chained C) {n : ℕ} {op1 : ℤ} (hn : IsRef C n) (hlt : op1 < n)
    (hif : (C.base op1).op ≠ .ifOp) : Chained { C with base := Function.update C.base n { C.base n with op1 := op1 } } :=
  h.set hn.1 (Or.inl rfl) (fun _ => hlt) (h.tested n hn) fun _ hop => absurd hop hif

/-- What follows an instruction within a block may follow the one before it. -/
theorem Chained.back (h : Chained C) {ref : ℕ} (href : IsRef C ref) (hfollows : follows (C.base ref).op = true)
    (htrue : (C.base ref).op ≠ .ifTrue) (hfalse : (C.base ref).op ≠ .ifFalse) :
    (C.base ref).op1 < ref ∧ (C.base (C.base ref).op1).op ≠ .ifOp := by
  refine ⟨h.before ref href (isJoin_of_follows hfollows), fun hif => ?_⟩
  rcases h.proj ref href hfollows hif with hop | hop
  · exact htrue hop
  · exact hfalse hop

/-- A store follows something else than an `IF`. -/
theorem Chained.store (h : Chained C) {ref : ℕ} (href : IsRef C ref) (hcls : (C.base ref).op.cls = .store) :
    1 < ref ∧ (C.base ref).op1 < ref ∧ (C.base (C.base ref).op1).op ≠ .ifOp := by
  have hfollows : follows (C.base ref).op = true := by
    revert hcls
    cases (C.base ref).op <;> first | exact fun _ => rfl | exact fun hcls => nomatch hcls
  have hone : ref ≠ 1 := by
    rintro rfl
    rw [Nat.cast_one, h.start] at hcls
    cases hcls
  have hpos := href.1
  refine ⟨by omega, h.back href hfollows ?_ ?_⟩
  · intro hop
    rw [hop] at hcls
    cases hcls
  · intro hop
    rw [hop] at hcls
    cases hcls

/-- Another control, an instruction before. -/
theorem Chained.withControl (h : Chained C) {op1 : ℤ} {count : ℕ} (hlt : op1 < count) (hcount : count ≤ C.insnsCount)
    (htwo : 2 ≤ count) (hif : (C.base op1).op ≠ .ifOp) :
    Chained { C with control := op1.toNat, insnsCount := count } := by
  refine ⟨htwo, h.zero, h.const, h.start, fun hne => ?_, fun n hn => h.before n ⟨hn.1, hn.2.trans_le hcount⟩,
    fun n hn => h.tested n ⟨hn.1, hn.2.trans_le hcount⟩, fun n hn => h.proj n ⟨hn.1, hn.2.trans_le hcount⟩⟩
  have hne : op1.toNat ≠ 0 := hne
  refine ⟨⟨Nat.pos_of_ne_zero hne, show op1.toNat < count by omega⟩, ?_⟩
  show (C.base (op1.toNat : ℕ)).op ≠ .ifOp
  rw [Int.toNat_of_nonneg (by omega)]
  exact hif

/-- The start of a block. -/
theorem Chained.opened (h : Chained C) {op : IrOp} {op1 op2 op3 : ℤ} {extra : ℕ}
    (hop1 : isJoin op = false → op1 < C.insnsCount) (htests : tests op = false)
    (hproj : (C.base op1).op = .ifOp → op = .ifTrue ∨ op = .ifFalse ∨ isJoin op = true) :
    Chained (block C op op1 op2 op3 extra) := by
  refine h.emitted hop1 (fun htest => absurd (htests.symm.trans htest) Bool.false_ne_true) (fun hfollows hif => ?_)
    (Or.inr (Or.inr ⟨rfl, ?_⟩))
  · rcases hproj hif with hop | hop | hjoin
    · exact Or.inl hop
    · exact Or.inr hop
    · exact absurd ((isJoin_of_follows hfollows).symm.trans hjoin) Bool.false_ne_true
  · rintro rfl
    cases htests

/-- An instruction behind the control. -/
theorem Chained.behind (h : Chained C) (hcontrol : C.control ≠ 0) {extra control : ℕ} {insn : Insn}
    (hop1 : insn.op1 = C.control) (hop2 : tests insn.op = true → insn.op2 < C.insnsCount)
    (hnew : control = 0 ∨ control = C.insnsCount ∧ insn.op ≠ .ifOp) :
    Chained { emit C extra insn with control := control } := by
  obtain ⟨⟨-, hlt⟩, hif⟩ := h.control hcontrol
  refine h.emitted (fun _ => ?_) hop2 (fun _ hop => ?_) (hnew.imp_right Or.inr)
  · rw [hop1]
    exact Int.ofNat_lt.2 hlt
  · rw [hop1] at hop
    exact absurd hop hif

end Chained

/-! ## All contexts -/

section All

variable {C : Ctx} {c : ℤ}

theorem check_lt {count : ℕ} {limit : ℤ} {fuel n : ℕ} {prev : Option Insn} (h : c < count) :
    checkDominatingPredicates C c limit fuel n prev < count := by
  rcases check_cases (C := C) c limit fuel n prev with heq | ⟨b, heq⟩
  · rw [heq]
    exact h
  · rw [heq]
    have hneg := known_neg b
    omega

theorem guardCondition_lt {count : ℕ} {r : ℤ} (h : c < count) (hr : guardCondition C c = some r) : r < count := by
  unfold guardCondition at hr
  split_ifs at hr
  · obtain rfl := Option.some.inj hr
    exact (known_neg false).trans_le (Int.natCast_nonneg count)
  · obtain rfl := Option.some.inj hr
    exact check_lt h

theorem guardNotCondition_lt {count : ℕ} {r : ℤ} (h : c < count) (hr : guardNotCondition C c = some r) : r < count := by
  unfold guardNotCondition at hr
  split_ifs at hr
  · obtain rfl := Option.some.inj hr
    exact (known_neg true).trans_le (Int.natCast_nonneg count)
  · obtain rfl := Option.some.inj hr
    exact check_lt h

theorem known_lt (b : Bool) (count : ℕ) : known b < count := (known_neg b).trans_le (Int.natCast_nonneg count)

/-- A comparison is an instruction. -/
theorem Chained.compared (h : Chained C) (hc : c < C.insnsCount)
    (hop : (C.base c).op = .ne ∨ (C.base c).op = .eq) : (C.base c).op1 < C.insnsCount := by
  have hpos : 0 < c := by
    rcases Int.lt_trichotomy c 0 with hneg | rfl | hpos
    · rcases h.const c hneg with hconst | hconst
      · rcases hop with hop | hop
        · rw [hop] at hconst
          cases hconst
        · rw [hop] at hconst
          cases hconst
      · rcases hop with hop | hop
        · rw [hop] at hconst
          cases hconst
        · rw [hop] at hconst
          cases hconst
    · rw [h.zero] at hop
      rcases hop with hop | hop
      · cases hop
      · cases hop
    · exact hpos
  lift c to ℕ using hpos.le
  have hjoin : isJoin (C.base c).op = false := by
    rcases hop with hop | hop
    · rw [hop]
      rfl
    · rw [hop]
      rfl
  have hlt := h.before c ⟨by omega, by omega⟩ hjoin
  omega

theorem Chained.foldCondition_lt (h : Chained C) (hc : c < C.insnsCount) : foldCondition C c < C.insnsCount := by
  unfold foldCondition
  dsimp only
  split_ifs with h1 h2 h3 h4 h5 h6
  · exact known_lt true _
  · exact h.compared hc (Or.inl h1.1)
  · exact hc
  · exact h.compared hc (Or.inr h4.1)
  · exact known_lt false _
  · exact hc
  · exact hc

theorem Chained.ifCondition_lt (h : Chained C) (hc : c < C.insnsCount) : ifCondition C c < C.insnsCount := by
  unfold ifCondition
  dsimp only
  split_ifs
  · exact known_lt true _
  · exact known_lt false _
  · exact check_lt (h.foldCondition_lt hc)

/-- A guard behind the control. -/
theorem Chained.guarded (h : Chained C) (hcontrol : C.control ≠ 0) {b : Bool} {r addr : ℤ} (hr : r < C.insnsCount) :
    Chained (effect C (guardOp b) .void r addr 0) := by
  have hop : guardOp b ≠ .ifOp := by
    cases b with
    | true => decide
    | false => decide
  exact h.behind hcontrol rfl (fun _ => hr) (Or.inr ⟨rfl, hop⟩)

theorem Built.chained (h : Built C) : Chained C := by
  induction h with
  | @start C hcount hzero hconst =>
    have hbase : ∀ r : ℤ, r ≠ 1 → (irStart C).base r = C.base r := by
      intro r hr
      show (if _ then _ else if _ then _ else _) = _
      rw [hcount, if_neg (by omega), if_neg (by omega)]
    have hone : (irStart C).base 1 = node .start .void 0 0 0 := by
      show (if _ then _ else _) = _
      rw [hcount]
      exact if_pos rfl
    have htwo : (irStart C).insnsCount = 2 := by
      show C.insnsCount + 1 + 0 = 2
      omega
    have honly : ∀ n : ℕ, IsRef (irStart C) n → n = 1 := by
      intro n hn
      have hlt := hn.2
      have hpos := hn.1
      omega
    refine ⟨by omega, ?_, fun r hr => ?_, ?_, fun _ => ?_, fun n hn hjoin => ?_, fun n hn htest => ?_,
      fun n hn hfollows => ?_⟩
    · rw [hbase 0 (by decide)]
      exact hzero
    · rw [hbase r (by omega)]
      exact hconst r hr
    · rw [hone]
      rfl
    · have hcontrol : (irStart C).control = 1 := hcount
      rw [hcontrol]
      refine ⟨⟨Nat.one_pos, by omega⟩, ?_⟩
      rw [Nat.cast_one, hone]
      decide
    · obtain rfl := honly n hn
      rw [Nat.cast_one, hone] at hjoin
      cases hjoin
    · obtain rfl := honly n hn
      rw [Nat.cast_one, hone] at htest
      cases htest
    · obtain rfl := honly n hn
      rw [Nat.cast_one, hone] at hfollows
      cases hfollows
  | @data C extra insn _ hop hop1 ih =>
    refine ih.emitted (fun _ => hop1) (fun htest => ?_) (fun hfollows _ => ?_) (Or.inr (Or.inl rfl))
    · simp only [tests, Bool.or_eq_true, decide_eq_true_eq] at htest
      rcases htest with (h | h) | h
      · rw [h] at hop
        cases hop
      · rw [h] at hop
        cases hop
      · rw [h] at hop
        cases hop
    · unfold follows at hfollows
      rw [hop] at hfollows
      cases hfollows
  | @effect C op type op2 op3 extra _ hcontrol hop ih =>
    have htests : tests op = false := by
      cases op <;> first | rfl | cases hop
    refine ih.behind hcontrol rfl (fun htest => absurd (htests.symm.trans htest) Bool.false_ne_true)
      (Or.inr ⟨rfl, ?_⟩)
    rintro (rfl : op = .ifOp)
    cases htests
  | @guard C snapshot condition addr _ _ _ hcontrol hlt ih ihs =>
    unfold irGuard
    split
    · exact ih
    · next r hr => exact ihs.guarded hcontrol (b := true) (guardCondition_lt hlt hr)
  | @guardNot C snapshot condition addr _ _ _ hcontrol hlt ih ihs =>
    unfold irGuardNot
    split
    · exact ih
    · next r hr => exact ihs.guarded hcontrol (b := false) (guardNotCondition_lt hlt hr)
  | @ifOp C condition _ hcontrol hlt ih => exact ih.behind hcontrol rfl (fun _ => ih.ifCondition_lt hlt) (Or.inl rfl)
  | @endBlock C op op2 op3 _ hcontrol hcls hif ih =>
    have htests : tests op = false := by
      cases op <;> first | rfl | exact absurd rfl hif | cases hcls
    exact ih.behind hcontrol rfl (fun htest => absurd (htests.symm.trans htest) Bool.false_ne_true) (Or.inl rfl)
  | @terminate C op op2 _ hcontrol hcls ih =>
    have htests : tests op = false := by
      cases op <;> first | rfl | cases hcls
    have hemit : Chained { emit C 0 (node op .void C.control op2 (C.base 1).op1) with control := 0 } :=
      ih.behind hcontrol rfl (fun htest => absurd (htests.symm.trans htest) Bool.false_ne_true) (Or.inl rfl)
    have htwo : 2 ≤ (emit C 0 (node op .void C.control op2 (C.base 1).op1)).insnsCount := hemit.two_le
    have hone : IsRef (emit C 0 (node op .void C.control op2 (C.base 1).op1)) 1 := ⟨Nat.one_pos, by omega⟩
    refine hemit.setFree hone rfl ?_ fun hjoin => ?_
    · show tests _ = false
      rw [hemit.start]
      rfl
    · replace hjoin : isJoin _ = false := hjoin
      rw [hemit.start] at hjoin
      cases hjoin
  | @begin C src _ hsrc ih =>
    unfold irBegin
    split_ifs with hlast
    · obtain ⟨hne, hcount, hend⟩ := hlast
      obtain ⟨href, -, -⟩ := hsrc.resolve_left hne
      have hfollows : follows (C.base src).op = true := by
        rw [hend]
        rfl
      obtain ⟨hlt, hif⟩ := ih.back href hfollows (by rw [hend]; decide) (by rw [hend]; decide)
      have hone : src ≠ 1 := by
        rintro rfl
        have hstart := ih.start
        rw [Nat.cast_one] at hend
        rw [hend] at hstart
        cases hstart
      have hpos := href.1
      exact ih.withControl (by omega) (by omega) (by omega) hif
    · refine ih.opened (fun _ => ?_) rfl fun hif => ?_
      · have htwo := ih.two_le
        rcases hsrc with rfl | ⟨href, -⟩
        · rw [Nat.cast_zero]
          omega
        · exact Int.ofNat_lt.2 href.2
      · rcases hsrc with rfl | ⟨-, -, hnot⟩
        · rw [Nat.cast_zero, ih.zero] at hif
          cases hif
        · exact absurd hif hnot
  | @entry C src num _ href hsrc ih =>
    refine ih.opened (fun _ => Int.ofNat_lt.2 href.2) rfl fun hif => ?_
    rw [hif] at hsrc
    rcases hsrc with hcls | hop | hop
    · cases hcls
    · cases hop
    · cases hop
  | @ifProj C op ifRef prb _ href _ hop ih =>
    refine ih.opened (fun _ => Int.ofNat_lt.2 href.2) ?_ fun _ => ?_
    · rcases hop with rfl | rfl
      · rfl
      · rfl
    · rcases hop with rfl | rfl
      · exact Or.inl rfl
      · exact Or.inr (Or.inl rfl)
  | @caseProj C op switchRef op2 op3 _ href hswitch hop ih =>
    refine ih.opened (fun _ => Int.ofNat_lt.2 href.2) ?_ fun hif => ?_
    · rcases hop with rfl | rfl | rfl
      · rfl
      · rfl
      · rfl
    · rw [hswitch] at hif
      cases hif
  | @join C op op1 op2 op3 extra _ hop ih =>
    have hjoin : isJoin op = true := by
      rcases hop with rfl | rfl
      · rfl
      · rfl
    refine ih.opened (fun h => absurd (h.symm.trans hjoin) Bool.false_ne_true) ?_ fun _ => Or.inr (Or.inr hjoin)
    rcases hop with rfl | rfl
    · rfl
    · rfl
  | setOps _ href htests ih => exact ih.setFree href rfl htests fun _ => rfl
  | @setJoin C ref op1 _ href hop ih =>
    refine ih.setFree href rfl ?_ fun hjoin => ?_
    · show tests (C.base ref).op = false
      rcases hop with hop | hop
      · rw [hop]
        rfl
      · rw [hop]
        rfl
    · replace hjoin : isJoin (C.base ref).op = false := hjoin
      rcases hop with hop | hop
      · rw [hop] at hjoin
        cases hjoin
      · rw [hop] at hjoin
        cases hjoin
  | @dropLast C ref _ href hcls hcontrol ih =>
    obtain ⟨hone, hlt, hif⟩ := ih.store href hcls
    have htwo := ih.two_le
    have hcount : (C.base ref).op1 < C.insnsCount := hlt.trans (Int.ofNat_lt.2 href.2)
    exact (ih.withControl hcount le_rfl htwo hif).remove hone
  | @dropBefore C ref n _ href hcls _ hn hfollows hop1 ih =>
    obtain ⟨hone, hlt, hif⟩ := ih.store href hcls
    have hnlt := ih.before n hn (isJoin_of_follows hfollows)
    exact (ih.redirect hn (by omega) hif).remove hone

end All

/-! ## The end of the walk -/

section Ends

variable {C : Ctx} {c limit : ℤ} {n : ℕ} {prev : Option Insn}

/-- Where the walk goes on it comes to a smaller reference. -/
theorem Chained.descends (h : Chained C) (hpos : 0 < n) (hn : n < C.insnsCount)
    (hverdict : verdict c (C.base n) prev = none) : (C.base n).op1.toNat < n := by
  have hjoin : isJoin (C.base n).op = false := by
    by_contra hne
    rw [verdict_join (Bool.not_eq_false _ ▸ hne)] at hverdict
    cases hverdict
  have hlt := h.before n ⟨hpos, hn⟩ hjoin
  omega

/-- The walk from a reference does not need more rounds than the reference says. -/
theorem Chained.check_fuel (h : Chained C) (hlimit : 0 ≤ limit) {fuel fuel' : ℕ} (hn : n < C.insnsCount)
    (hfuel : n < fuel) (hfuel' : n < fuel') :
    checkDominatingPredicates C c limit fuel n prev = checkDominatingPredicates C c limit fuel' n prev := by
  induction fuel generalizing fuel' n prev with
  | zero => exact absurd hfuel (Nat.not_lt_zero n)
  | succ fuel ih =>
    obtain ⟨rounds, rfl⟩ : ∃ rounds, fuel' = rounds + 1 := ⟨fuel' - 1, by omega⟩
    rw [checkDominatingPredicates, checkDominatingPredicates]
    split_ifs with hle
    · rfl
    · cases hverdict : verdict c (C.base n) prev with
      | some r => rfl
      | none =>
        have hlt := h.descends (by omega) hn hverdict
        exact ih (by omega) (by omega) (by omega)

/-- A test of something else. -/
theorem verdict_of_ne {insn : Insn} (h : tests insn.op = true → insn.op2 ≠ c) :
    verdict c insn prev = none ∨ verdict c insn prev = some c := by
  unfold verdict
  split_ifs with h1 h2 h3 h4 h5 h6
  · exact absurd h2 (h (by rw [h1]; rfl))
  · exact Or.inl rfl
  · exact absurd h4 (h (by rw [h3]; rfl))
  · exact Or.inl rfl
  · exact absurd h6 (h (by rw [h5]; rfl))
  · exact absurd h6 (h (by rw [h5]; rfl))
  · exact absurd h6 (h (by rw [h5]; rfl))
  · exact Or.inl rfl
  · exact Or.inr rfl
  · exact Or.inl rfl

/-- Nothing before a condition tests it. -/
theorem Chained.check_late (h : Chained C) {fuel : ℕ} (hn : n < C.insnsCount) (hc : n ≤ c) :
    checkDominatingPredicates C c 1 fuel n prev = c := by
  induction fuel generalizing n prev with
  | zero => rfl
  | succ fuel ih =>
    rw [checkDominatingPredicates]
    split_ifs with hle
    · rfl
    · have hpos : 0 < n := by omega
      have hne : tests (C.base n).op = true → (C.base n).op2 ≠ c := by
        intro htest heq
        have hlt := h.tested n ⟨hpos, hn⟩ htest
        omega
      have hcases : verdict c (C.base n) prev = none ∨ verdict c (C.base n) prev = some c := verdict_of_ne hne
      rcases hcases with hverdict | hverdict
      · have hlt := h.descends hpos hn hverdict
        rw [hverdict]
        exact ih (by omega) (by omega)
      · rw [hverdict]

theorem Chained.control_lt (h : Chained C) : C.control < C.insnsCount := by
  have htwo := h.two_le
  by_cases hzero : C.control = 0
  · omega
  · exact (h.control hzero).1.2

end Ends

end IrJit.Predicates
