import IrJit.Consts.Table

/-!
# Consts.Interner — the constants as an interner

An `Interner` has the constants made so far by number (constant `n` is the reference `-n`), which
of them `ir_unique_const_addr` made, and which of them the chains link, the newest first.  Looking
a key up finds the newest linked constant that holds it.  `Rep` relates a context to its interner,
and every call of the code is the step of the interner (`step_rep`).
-/

namespace IrJit.Consts

open HashChain

/-- What a call asks for: one of the constants every context has, or a pair `(optx, val)`. -/
inductive Key
  | null
  | bool (b : Bool)
  | word (optx : BitVec 32) (val : BitVec 64)
  deriving DecidableEq

/-- The key of a call of `ir_const_ex`. -/
def keyOf (val : BitVec 64) (type : IrType) (optx : BitVec 32) : Key :=
  if type = .bool then .bool (val ≠ 0)
  else if type = .addr ∧ val = 0 then .null
  else .word optx val

/-- What a call is for: to look a key up, or to make a constant of its own for an address. -/
inductive Request
  | intern (key : Key)
  | fresh (addr : BitVec 64)
  deriving DecidableEq

/-- The request of a call: `ir_unique_const_addr` makes a constant of its own, every other function
looks one up. -/
def Call.request : Call → Request
  | .i8 c => .intern (keyOf (c.signExtend 64) .i8 (irOpt IrType.i8.ctorIdx .i8))
  | .i16 c => .intern (keyOf (c.signExtend 64) .i16 (irOpt IrType.i16.ctorIdx .i16))
  | .i32 c => .intern (keyOf (c.signExtend 64) .i32 (irOpt IrType.i32.ctorIdx .i32))
  | .i64 c => .intern (keyOf c .i64 (irOpt IrType.i64.ctorIdx .i64))
  | .u8 c => .intern (keyOf (c.setWidth 64) .u8 (irOpt IrType.u8.ctorIdx .u8))
  | .u16 c => .intern (keyOf (c.setWidth 64) .u16 (irOpt IrType.u16.ctorIdx .u16))
  | .u32 c => .intern (keyOf (c.setWidth 64) .u32 (irOpt IrType.u32.ctorIdx .u32))
  | .u64 c => .intern (keyOf c .u64 (irOpt IrType.u64.ctorIdx .u64))
  | .bool c => .intern (.bool c)
  | .char c => .intern (keyOf (c.signExtend 64) .char (irOpt IrType.char.ctorIdx .char))
  | .float c => .intern (keyOf (c.setWidth 64) .float (irOpt IrType.float.ctorIdx .float))
  | .double c => .intern (keyOf c .double (irOpt IrType.double.ctorIdx .double))
  | .addr c => .intern (keyOf c .addr (irOpt IrType.addr.ctorIdx .addr))
  | .funcAddr c proto => .intern (keyOf c .addr (irOptx .funcAddr .addr proto))
  | .func s proto => .intern (keyOf (s.signExtend 64) .addr (irOptx .func .addr proto))
  | .sym s => .intern (keyOf (s.signExtend 64) .addr (irOptx .sym .addr 0))
  | .str s => .intern (keyOf (s.signExtend 64) .addr (irOptx .str .addr 0))
  | .label s => .intern (keyOf (s.signExtend 64) .addr (irOptx .label .addr 0))
  | .const val type => .intern (keyOf val type (irOpt type.ctorIdx type))
  | .constEx val type optx => .intern (keyOf val type optx)
  | .uniqueAddr a => .fresh a

/-- The interner behind a context. -/
structure Interner where
  /-- the number of the next constant -/
  count : ℕ
  stored : ℕ → BitVec 32 × BitVec 64
  unique : ℕ → Bool
  /-- the constants that the chains link, the newest first -/
  linked : List ℕ
  mask : ℕ

namespace Interner

/-- The interner of a new context. -/
def init : Interner where
  count := 4
  stored := fun n =>
    if n = 1 then (irOpt IrOp.cAddr.ctorIdx .addr, 0)
    else (irOpt IrOp.cBool.ctorIdx .bool, if n = 3 then 1 else 0)
  unique := fun _ => false
  linked := []
  mask := constHashSize - 1

/-- The newest linked constant that holds a pair. -/
def find (T : Interner) (key : BitVec 32 × BitVec 64) : Option ℕ :=
  T.linked.find? fun n => T.stored n = key

/-- Chaining every constant again, with twice as many buckets. -/
def rehash (T : Interner) : Interner :=
  { T with
    linked := (List.range' 4 (T.count - 4)).reverse
    mask := (T.mask + 1) * 2 - 1 }

/-- A new constant, linked. -/
def link (T : Interner) (key : BitVec 32 × BitVec 64) : Interner :=
  { T with
    count := T.count + 1
    stored := Function.update T.stored T.count key
    linked := T.count :: T.linked }

/-- Making room in the buckets, then linking a new constant. -/
def append (T : Interner) (key : BitVec 32 × BitVec 64) : Interner :=
  (if T.count > T.mask then T.rehash else T).link key

/-- A new constant that is not linked. -/
def fresh (T : Interner) (addr : BitVec 64) : Interner :=
  { T with
    count := T.count + 1
    stored := Function.update T.stored T.count (irOpt IrType.addr.ctorIdx .addr, addr)
    unique := Function.update T.unique T.count true }

/-- Looking a key up, or making a constant for it. -/
def intern (T : Interner) : Key → ℕ × Interner
  | .null => (1, T)
  | .bool b => (if b then 3 else 2, T)
  | .word optx val =>
    match T.find (optx, val) with
    | some n => (n, T)
    | none => (T.count, T.append (optx, val))

/-- One call. -/
def step (T : Interner) (c : Call) : ℕ × Interner :=
  match c.request with
  | .intern key => T.intern key
  | .fresh addr => (T.count, T.fresh addr)

/-- A sequence of calls. -/
def run (T : Interner) : List Call → List ℕ × Interner
  | [] => ([], T)
  | c :: calls =>
    let (n, T) := T.step c
    let (ns, T) := run T calls
    (n :: ns, T)

end Interner

/-! ## Reading and writing the block -/

namespace Ctx

variable {ctx : Ctx} {m n : ℕ}

theorem irBase_setBase_self (ctx : Ctx) (ref : ℤ) (cell : Cell) :
    (ctx.setBase ref cell).irBase ref = cell := Function.update_self _ _ _

theorem irBase_setBase_of_ne {cell : Cell} (hn : n ≤ ctx.constsLimit) (hm : m ≤ ctx.constsLimit)
    (h : m ≠ n) : (ctx.setBase (-n) cell).irBase (-m) = ctx.irBase (-m) := by
  apply Function.update_of_ne
  show (ctx.constsLimit + -(m : ℤ)).toNat ≠ (ctx.constsLimit + -(n : ℤ)).toNat
  omega

@[simp] theorem irBase_setHash (ctx : Ctx) (hash : ℕ) (ref r : ℤ) :
    (ctx.setHash hash ref).irBase r = ctx.irBase r := rfl

end Ctx

theorem lt_grownLimit {limit : ℕ} (h : 0 < limit) : limit < grownLimit limit := by
  unfold grownLimit
  split_ifs <;> omega

/-- `memmove` keeps every constant at its reference. -/
theorem irBase_growBottom {ctx : Ctx} {n : ℕ} (h0 : 0 < n) (hn : n ≤ ctx.constsLimit) :
    (growBottom ctx).irBase (-n) = ctx.irBase (-n) := by
  have hlt := @lt_grownLimit ctx.constsLimit (by omega)
  have hi : (growBottom ctx).index (-n) = grownLimit ctx.constsLimit - n := by
    show ((grownLimit ctx.constsLimit : ℤ) + -(n : ℤ)).toNat = _
    omega
  have hj : ctx.index (-n) = ctx.constsLimit - n := by
    show ((ctx.constsLimit : ℤ) + -(n : ℤ)).toNat = _
    omega
  rw [Ctx.irBase, hi, Ctx.irBase, hj]
  show (if _ then _ else _) = _
  rw [if_pos (by omega)]
  congr 1
  omega

/-- `ir_next_const` leaves room for the new constant and every other constant where it was. -/
theorem nextConst_spec {ctx : Ctx} (h0 : 0 < ctx.constsCount)
    (hle : ctx.constsCount ≤ ctx.constsLimit) :
    ∃ ctx', nextConst ctx = (-(ctx.constsCount : ℤ), ctx') ∧
      ctx'.constsCount = ctx.constsCount + 1 ∧ ctx.constsCount + 1 ≤ ctx'.constsLimit ∧
      ctx'.constHash = ctx.constHash ∧ ctx'.constHashMask = ctx.constHashMask ∧
      ∀ m : ℕ, 0 < m → m < ctx.constsCount → ctx'.irBase (-m) = ctx.irBase (-m) := by
  refine ⟨_, rfl, rfl, ?_⟩
  by_cases hfull : ctx.constsCount ≥ ctx.constsLimit
  · have hlt := @lt_grownLimit ctx.constsLimit (by omega)
    simp only [if_pos hfull]
    refine ⟨?_, rfl, rfl, fun m hm hlt => irBase_growBottom hm (by omega)⟩
    show ctx.constsCount + 1 ≤ grownLimit ctx.constsLimit
    omega
  · simp only [if_neg hfull]
    exact ⟨by omega, trivial, trivial, fun m _ _ => rfl⟩

/-- Every function reduces to `ir_unique_const_addr` or to `ir_const_ex`. -/
theorem step_eq (ctx : Ctx) (c : Call) :
    (∃ addr, c.request = .fresh addr ∧ step ctx c = some (uniqueConstAddr ctx addr)) ∨
    (∃ val type optx, c.request = .intern (keyOf val type optx) ∧
      step ctx c = constEx ctx val type optx) := by
  cases c
  case uniqueAddr addr => exact .inl ⟨addr, rfl, rfl⟩
  case bool b =>
    refine .inr ⟨if b then 1 else 0, .bool, 0, ?_, ?_⟩
    · cases b <;> rfl
    · cases b <;> rfl
  case addr c =>
    refine .inr ⟨c, .addr, irOpt IrType.addr.ctorIdx .addr, rfl, ?_⟩
    by_cases hc : c = 0#64
    · simp [step, constAddr, constEx, hc]
    · simp [step, constAddr, const, hc]
  case funcAddr c proto =>
    refine .inr ⟨c, .addr, irOptx .funcAddr .addr proto, rfl, ?_⟩
    by_cases hc : c = 0#64
    · simp [step, constFuncAddr, constEx, hc]
    · simp [step, constFuncAddr, hc]
  all_goals exact .inr ⟨_, _, _, rfl, rfl⟩

/-! ## A context and its interner -/

/-- The bucket of a constant. -/
def Ctx.bucket (ctx : Ctx) (ref : ℤ) : ℕ :=
  hashOf (ctx.irBase ref).val (ctx.irBase ref).optx &&& ctx.constHashMask

/-- The references of some constants. -/
def refs (l : List ℕ) : List ℤ := l.map fun n : ℕ => -(n : ℤ)

theorem mem_refs {l : List ℕ} {n : ℕ} : -(n : ℤ) ∈ refs l ↔ n ∈ l := by
  simp [refs]

/-- `ctx` is a context with the interner `T`. -/
structure Rep (ctx : Ctx) (T : Interner) : Prop where
  count : ctx.constsCount = T.count
  mask : ctx.constHashMask = T.mask
  four_le : 4 ≤ T.count
  count_le : T.count ≤ ctx.constsLimit
  stored : ∀ n, 0 < n → n < T.count →
    (ctx.irBase (-n)).optx = (T.stored n).1 ∧ (ctx.irBase (-n)).val = (T.stored n).2
  bounds : ∀ n ∈ T.linked, 0 < n ∧ n < T.count
  short : T.linked.length < T.count
  chained : Chained ctx.constHash (fun r => (ctx.irBase r).prevConst) ctx.bucket (refs T.linked)

/-- Chaining constant `n` in front of its bucket. -/
theorem chained_push {ctx ctx' : Ctx} {l : List ℕ} {n : ℕ}
    (h : Chained ctx.constHash (fun r => (ctx.irBase r).prevConst) ctx.bucket (refs l))
    (hn : 0 < n) (hnew : n ∉ l)
    (hheads : ctx'.constHash = Function.update ctx.constHash (ctx'.bucket (-n)) (-n))
    (hprev : (ctx'.irBase (-n)).prevConst = ctx.constHash (ctx'.bucket (-n)))
    (hmask : ctx'.constHashMask = ctx.constHashMask)
    (hkeep : ∀ m ∈ l, ctx'.irBase (-m) = ctx.irBase (-m)) :
    Chained ctx'.constHash (fun r => (ctx'.irBase r).prevConst) ctx'.bucket (refs (n :: l)) := by
  have hkeep' : ∀ x ∈ refs l, ctx'.irBase x = ctx.irBase x := by
    intro x hx
    obtain ⟨m, hm, rfl⟩ := List.mem_map.mp hx
    exact hkeep m hm
  have hb : ∀ x ∈ refs l, ctx'.bucket x = ctx.bucket x := by
    intro x hx
    rw [Ctx.bucket, Ctx.bucket, hkeep' x hx, hmask]
  have hr : (-(n : ℤ)) ∉ refs l := fun hmem => hnew (mem_refs.mp hmem)
  have hpush := (h.congr (fun _ _ => rfl) hb).push (r := -(n : ℤ)) (by omega) hr
  rw [hheads]
  refine hpush.congr ?_ fun _ _ => rfl
  intro x hx
  rcases List.mem_cons.mp hx with rfl | hx
  · rw [Function.update_self]
    exact hprev
  · have hne : x ≠ -(n : ℤ) := by
      rintro rfl
      exact hr hx
    rw [Function.update_of_ne hne, hkeep' x hx]

namespace Rep

variable {ctx : Ctx} {T : Interner}

theorem optx_eq (R : Rep ctx T) {n : ℕ} (h0 : 0 < n) (hn : n < T.count) :
    (ctx.irBase (-n)).optx = (T.stored n).1 := (R.stored n h0 hn).1

theorem val_eq (R : Rep ctx T) {n : ℕ} (h0 : 0 < n) (hn : n < T.count) :
    (ctx.irBase (-n)).val = (T.stored n).2 := (R.stored n h0 hn).2

/-- The search loop ends, with what the interner finds. -/
theorem findConst_eq (R : Rep ctx T) (val : BitVec 64) (optx : BitVec 32) :
    findConst ctx val optx = some (((T.find (optx, val)).map fun n : ℕ => -(n : ℤ)).getD 0) := by
  have hlen : (refs T.linked).length < ctx.constsCount := by
    rw [refs, List.length_map, R.count]
    exact R.short
  unfold findConst
  rw [R.chained.walk_eq _ ?_ hlen]
  · unfold refs Interner.find
    rw [List.find?_map]
    congr 3
    apply List.find?_congr
    intro n hn
    obtain ⟨h0, hlt⟩ := R.bounds n hn
    simp only [Function.comp, R.optx_eq h0 hlt, R.val_eq h0 hlt, Prod.ext_iff, Bool.and_comm,
      Bool.decide_and]
  · intro x hx hp
    simp only [Bool.and_eq_true, decide_eq_true_eq] at hp
    rw [Ctx.bucket, hp.1, hp.2]

/-- One round of the loop of `ir_const_hash_rehash`. -/
theorem rehashStep (R : Rep ctx T) {n : ℕ} (h0 : 0 < n) (hn : n < T.count) (hnew : n ∉ T.linked)
    (hshort : T.linked.length + 1 < T.count) :
    Rep (rehashStep ctx n) { T with linked := n :: T.linked } := by
  have hle : ∀ m, m < T.count → m ≤ ctx.constsLimit := fun m hm => (hm.trans_le R.count_le).le
  have hself : (Consts.rehashStep ctx n).irBase (-n) =
      { ctx.irBase (-n) with prevConst := ctx.constHash (ctx.bucket (-n)) } := by
    unfold Consts.rehashStep
    rw [Ctx.irBase_setHash, Ctx.irBase_setBase_self]
    rfl
  have hother : ∀ m, m < T.count → m ≠ n →
      (Consts.rehashStep ctx n).irBase (-m) = ctx.irBase (-m) := fun m hm hne =>
    Ctx.irBase_setBase_of_ne (hle n hn) (hle m hm) hne
  have hbucket : (Consts.rehashStep ctx n).bucket (-n) = ctx.bucket (-n) := by
    rw [Ctx.bucket, hself]
    rfl
  refine ⟨R.count, R.mask, R.four_le, R.count_le, ?_, ?_, hshort, ?_⟩
  · intro m hm hlt
    by_cases hmn : m = n
    · subst hmn
      rw [hself]
      exact R.stored m hm hlt
    · rw [hother m hlt hmn]
      exact R.stored m hm hlt
  · intro m hm
    rcases List.mem_cons.mp hm with rfl | hm
    · exact ⟨h0, hn⟩
    · exact R.bounds m hm
  · refine chained_push R.chained h0 hnew ?_ ?_ rfl ?_
    · rw [hbucket]
      rfl
    · rw [hself, hbucket]
    · intro m hm
      refine hother m (R.bounds m hm).2 ?_
      rintro rfl
      exact hnew hm

/-- The loop of `ir_const_hash_rehash` links constants in the order of their numbers. -/
theorem rehashLoop (R : Rep ctx { T with linked := [] }) (k : ℕ) (hk : 4 + k ≤ T.count) :
    Rep ((List.range' 4 k).foldl Consts.rehashStep ctx)
      { T with linked := (List.range' 4 k).reverse } := by
  induction k with
  | zero => exact R
  | succ k ih =>
    have hn : 4 + k ∉ (List.range' 4 k).reverse := by simp
    have hlt : 4 + k < T.count := by omega
    have hlen : (List.range' 4 k).reverse.length + 1 < T.count := by simp; omega
    have hstep := (ih (by omega)).rehashStep (n := 4 + k) (by omega) hlt hn hlen
    rw [List.range'_1_concat, List.foldl_append, List.reverse_append]
    exact hstep

/-- `ir_const_hash_rehash` links every constant. -/
theorem rehash (R : Rep ctx T) : Rep (constHashRehash ctx) T.rehash := by
  have hempty : Rep
      { ctx with
        constHashMask := (ctx.constHashMask + 1) * 2 - 1
        constHash := fun _ => 0 }
      { T with
        mask := (T.mask + 1) * 2 - 1
        linked := [] } :=
    { count := R.count
      mask := by rw [R.mask]
      four_le := R.four_le
      count_le := R.count_le
      stored := R.stored
      bounds := by simp
      short := lt_of_lt_of_le (by simp) R.four_le
      chained := chained_nil }
  have h4 := R.four_le
  have hk : 4 + (T.count - 4) ≤ T.count := by omega
  have hloop := hempty.rehashLoop (T := { T with mask := (T.mask + 1) * 2 - 1 }) (T.count - 4) hk
  rw [← R.count] at hloop
  unfold constHashRehash Interner.rehash
  rw [← R.count]
  exact hloop

/-- A new constant after the others, with the chains still to be related. -/
theorem stored_append (R : Rep ctx T) {ctx' : Ctx} {cell : Cell} {key : BitVec 32 × BitVec 64}
    (hlimit : T.count + 1 ≤ ctx'.constsLimit)
    (hkeep : ∀ m : ℕ, 0 < m → m < T.count → ctx'.irBase (-m) = ctx.irBase (-m))
    (hcell : cell.optx = key.1 ∧ cell.val = key.2) (m : ℕ) (hm : 0 < m) (hlt : m < T.count + 1) :
    ((ctx'.setBase (-T.count) cell).irBase (-m)).optx =
        (Function.update T.stored T.count key m).1 ∧
      ((ctx'.setBase (-T.count) cell).irBase (-m)).val =
        (Function.update T.stored T.count key m).2 := by
  by_cases h : m = T.count
  · subst h
    rw [Ctx.irBase_setBase_self, Function.update_self]
    exact hcell
  · rw [Ctx.irBase_setBase_of_ne (by omega) (by omega) h, Function.update_of_ne h,
      hkeep m hm (by omega)]
    exact R.stored m hm (by omega)

/-- `ir_unique_const_addr`. -/
theorem fresh (R : Rep ctx T) (addr : BitVec 64) :
    ∃ ctx', uniqueConstAddr ctx addr = (-(T.count : ℤ), ctx') ∧ Rep ctx' (T.fresh addr) := by
  have h4 := R.four_le
  have hle := R.count_le
  obtain ⟨ctx', hnext, hcount, hlimit, hheads, hmask, hkeep⟩ :=
    @nextConst_spec ctx (by rw [R.count]; omega) (by rw [R.count]; exact hle)
  rw [R.count] at hnext hcount hlimit hkeep
  refine ⟨_, by rw [uniqueConstAddr, hnext], ?_⟩
  have hold : ∀ n ∈ T.linked, (ctx'.setBase (-T.count)
      { optx := irOpt IrType.addr.ctorIdx .addr, val := addr, prevConst := 0 }).irBase (-n) =
        ctx.irBase (-n) := by
    intro n hn
    obtain ⟨h0, hlt⟩ := R.bounds n hn
    rw [Ctx.irBase_setBase_of_ne (by omega) (by omega) (by omega), hkeep n h0 hlt]
  refine ⟨hcount, hmask.trans R.mask, Nat.le_succ_of_le h4, hlimit, ?_, ?_, ?_, ?_⟩
  · exact R.stored_append hlimit hkeep ⟨rfl, rfl⟩
  · exact fun n hn => ⟨(R.bounds n hn).1, Nat.lt_succ_of_lt (R.bounds n hn).2⟩
  · exact Nat.lt_succ_of_lt R.short
  · show Chained ctx'.constHash _ _ (refs T.linked)
    rw [hheads]
    refine R.chained.congr ?_ ?_
    all_goals
      intro x hx
      obtain ⟨n, hn, rfl⟩ := List.mem_map.mp hx
    · rw [hold n hn]
    · rw [Ctx.bucket, hold n hn, Ctx.bucket]
      show _ &&& ctx'.constHashMask = _
      rw [hmask]

/-- The end of `ir_const_ex`. -/
theorem link (R : Rep ctx T) (val : BitVec 64) (optx : BitVec 32) :
    ∃ ctx', linkConst ctx val optx = (-(T.count : ℤ), ctx') ∧ Rep ctx' (T.link (optx, val)) := by
  have h4 := R.four_le
  have hle := R.count_le
  let hash := hashOf val optx &&& ctx.constHashMask
  let pushed := ctx.setHash hash (-ctx.constsCount)
  have hpos : 0 < pushed.constsCount := by
    show 0 < ctx.constsCount
    rw [R.count]
    omega
  have hroom : pushed.constsCount ≤ pushed.constsLimit := by
    show ctx.constsCount ≤ ctx.constsLimit
    rw [R.count]
    exact hle
  obtain ⟨ctx', hnext, hcount, hlimit, hheads, hmask, hkeep⟩ := nextConst_spec hpos hroom
  have hpushed : pushed.constsCount = T.count := R.count
  rw [hpushed] at hnext hcount hlimit hkeep
  refine ⟨_, by rw [linkConst, hnext], ?_⟩
  have hnew : T.count ∉ T.linked := fun h => lt_irrefl _ (R.bounds _ h).2
  have hbucket : (ctx'.setBase (-T.count) ⟨optx, ctx.constHash hash, val⟩).bucket (-T.count) =
      hash := by
    rw [Ctx.bucket, Ctx.irBase_setBase_self]
    show _ &&& ctx'.constHashMask = _
    rw [hmask]
    rfl
  refine ⟨hcount, hmask.trans R.mask, Nat.le_succ_of_le h4, hlimit, ?_, ?_, ?_, ?_⟩
  · exact R.stored_append hlimit hkeep ⟨rfl, rfl⟩
  · intro n hn
    rcases List.mem_cons.mp hn with rfl | hn
    · exact ⟨by omega, Nat.lt_succ_self _⟩
    · exact ⟨(R.bounds n hn).1, Nat.lt_succ_of_lt (R.bounds n hn).2⟩
  · exact Nat.succ_lt_succ R.short
  · refine chained_push R.chained (by omega) hnew ?_ ?_ hmask ?_
    · rw [hbucket]
      show ctx'.constHash = _
      rw [hheads, ← R.count]
      rfl
    · rw [hbucket, Ctx.irBase_setBase_self]
    · intro n hn
      obtain ⟨h0, hlt⟩ := R.bounds n hn
      rw [Ctx.irBase_setBase_of_ne (by omega) (by omega) (by omega), hkeep n h0 hlt]
      rfl

/-- `ir_const_ex` returns, with the constant of the interner. -/
theorem constEx (R : Rep ctx T) (val : BitVec 64) (type : IrType) (optx : BitVec 32) :
    ∃ ctx', Consts.constEx ctx val type optx =
        some (-((T.intern (keyOf val type optx)).1 : ℤ), ctx') ∧
      Rep ctx' (T.intern (keyOf val type optx)).2 := by
  unfold Consts.constEx keyOf
  by_cases hbool : type = .bool
  · refine ⟨ctx, ?_, ?_⟩
    · by_cases hval : val = 0#64 <;> simp [hbool, hval, Interner.intern, irTrue, irFalse]
    · simp only [if_pos hbool]
      exact R
  by_cases hnull : type = .addr ∧ val = 0
  · refine ⟨ctx, ?_, ?_⟩
    · simp only [if_neg hbool, if_pos hnull]
      rfl
    · simp only [if_neg hbool, if_pos hnull]
      exact R
  simp only [if_neg hbool, if_neg hnull, R.findConst_eq, Interner.intern]
  cases hfind : T.find (optx, val) with
  | some n =>
    have hn : n ≠ 0 := by
      have hmem : n ∈ T.linked := List.mem_of_find?_eq_some hfind
      exact (R.bounds n hmem).1.ne'
    exact ⟨ctx, by simp [hn], R⟩
  | none =>
    have hroom : Rep (if ctx.constsCount > ctx.constHashMask then constHashRehash ctx else ctx)
        (if T.count > T.mask then T.rehash else T) := by
      rw [R.count, R.mask]
      split_ifs
      · exact R.rehash
      · exact R
    have hsame : (if T.count > T.mask then T.rehash else T).count = T.count := by
      split_ifs <;> rfl
    obtain ⟨ctx', hlink, R'⟩ := hroom.link val optx
    refine ⟨ctx', ?_, R'⟩
    rw [hsame] at hlink
    simp [hlink]

/-- Every call returns, with the constant of the interner. -/
theorem step (R : Rep ctx T) (c : Call) :
    ∃ ctx', Consts.step ctx c = some (-((T.step c).1 : ℤ), ctx') ∧ Rep ctx' (T.step c).2 := by
  unfold Interner.step
  rcases step_eq ctx c with ⟨addr, hreq, hstep⟩ | ⟨val, type, optx, hreq, hstep⟩
  · rw [hreq, hstep]
    obtain ⟨ctx', h, R'⟩ := R.fresh addr
    exact ⟨ctx', congrArg some h, R'⟩
  · rw [hreq, hstep]
    exact R.constEx val type optx

/-- Every sequence of calls returns, with the constants of the interner. -/
theorem run (R : Rep ctx T) (calls : List Call) :
    ∃ ctx', Consts.run ctx calls = some (refs (T.run calls).1, ctx') ∧
      Rep ctx' (T.run calls).2 := by
  induction calls generalizing ctx T with
  | nil => exact ⟨ctx, rfl, R⟩
  | cons c calls ih =>
    obtain ⟨ctx₁, hstep, R₁⟩ := R.step c
    obtain ⟨ctx₂, hrun, R₂⟩ := ih R₁
    refine ⟨ctx₂, ?_, R₂⟩
    rw [Consts.run, hstep]
    show (Consts.run ctx₁ calls).bind _ = _
    rw [hrun]
    rfl

end Rep

/-- `ir_init` makes a context with an empty interner. -/
theorem rep_init (garbage : ℕ → Cell) {constsLimit : ℕ} (insnsLimit : ℕ) (h : 4 ≤ constsLimit) :
    Rep (init garbage constsLimit insnsLimit) Interner.init := by
  refine ⟨rfl, rfl, le_rfl, h, ?_, by simp [Interner.init], by decide, chained_nil⟩
  intro n hn hlt
  have hlt : n < 4 := hlt
  have hnull : irNull = -((1 : ℕ) : ℤ) := rfl
  have hfalse : irFalse = -((2 : ℕ) : ℤ) := rfl
  have htrue : irTrue = -((3 : ℕ) : ℤ) := rfl
  have hle : ∀ {ctx : Ctx} {k : ℕ}, ctx.constsLimit = constsLimit → k ≤ 3 →
      k ≤ ctx.constsLimit := by
    intro ctx k hctx hk
    omega
  simp only [init, hnull, hfalse, htrue]
  obtain rfl | rfl | rfl : n = 1 ∨ n = 2 ∨ n = 3 := by omega
  · rw [Ctx.irBase_setBase_of_ne (hle rfl le_rfl) (hle rfl (by decide)) (by decide),
      Ctx.irBase_setBase_of_ne (hle rfl (by decide)) (hle rfl (by decide)) (by decide),
      Ctx.irBase_setBase_self]
    exact ⟨rfl, rfl⟩
  · rw [Ctx.irBase_setBase_of_ne (hle rfl le_rfl) (hle rfl (by decide)) (by decide),
      Ctx.irBase_setBase_self]
    exact ⟨rfl, rfl⟩
  · rw [Ctx.irBase_setBase_self]
    exact ⟨rfl, rfl⟩

end IrJit.Consts
