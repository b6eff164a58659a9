import IrJit.Mem.Exec

/-!
# Mem.Elim — programs with a store less

A store at the end of the chain may be left out when memory holds what it writes.  An earlier store may be
taken out of the chain when a later one writes over its bytes and nothing reads them in between: memory then
is as before it, on those bytes, until the later store.
-/

namespace IrJit.Mem.Ctx

open Memory

variable {C D : Ctx} {E : Env} {mem : ℕ → Memory}

/-- The instructions of the chain and their operands come before the end of the buffer. -/
def InBuffer (C : Ctx) : Prop :=
  ∀ n, C.OnChain n → n < C.insnsCount ∧ (C.base n).op2 < C.insnsCount ∧ (C.base n).op3 < C.insnsCount

/-- The order of construction, with what stores rely on: they have no type, and an unlabelled `BEGIN` comes
after an `END`. -/
structure Built (C : Ctx) : Prop extends C.Ordered where
  inBuffer : C.InBuffer
  op1_nonneg : ∀ n, C.OnChain n → 0 ≤ (C.base n).op1
  pos : ∀ n, C.OnChain n → 1 ≤ n
  first : (C.base 1).op = .start
  store_void : ∀ n, C.OnChain n →
    (C.base n).op = .store ∨ (C.base n).op = .vstore → (C.base n).type = .void
  begin_end : ∀ n, C.OnChain n → (C.base n).op = .beginOp → (C.base n).op2 = 0 →
    (C.base n).op1 ≠ 0 → (C.base (C.base n).op1).op = .endOp
  not_vaddr : ∀ n, C.OnChain n → (C.base n).op ≠ .vaddr

/-- Does the instruction see all of memory? -/
def Observes (C : Ctx) (insn : Insn) : Prop :=
  insn.op = .call ∨ insn.op = .guard ∨ insn.op = .guardNot ∨ C.effect insn = .anything

/-- With the same memory at the start, and the same from elsewhere, the programs `C` and `D` see the same:
the values of loads (in `E`), the memory at calls and guards, and the memory at the end. -/
structure SameSight (C D : Ctx) (E : Env) (mem mem' : ℕ → Memory) : Prop where
  run : D.Run E mem'
  given : ∀ n, D.OnChain n → D.effect (D.base n) = .anything → mem' n = mem n
  seen : ∀ n, D.OnChain n → 1 < n → D.Observes (D.base n) → mem' (D.prev n) = mem (C.prev n)
  final : mem' D.control = mem C.control

section Congr

/-- Instructions that differ in `op1` only do the same. -/
theorem Step.of_alike {n : ℕ} {m m' : Memory} (h : C.Step E n m m')
    (heffect : D.effect (D.base n) = C.effect (C.base n)) (hop : (D.base n).op = (C.base n).op)
    (htype : (D.base n).type = (C.base n).type) (hop2 : (D.base n).op2 = (C.base n).op2)
    (hop3 : (D.base n).op3 = (C.base n).op3) (hsize : D.storeSize (D.base n) = C.storeSize (C.base n)) :
    D.Step E n m m' := by
  have hloc : loc E (D.base n) = loc E (C.base n) := by
    unfold loc
    rw [hop, hop2]
  unfold Step at h ⊢
  rw [heffect, hloc, htype, hsize, hop3]
  exact h

theorem effect_congr {insn insn' : Insn} (hop : insn'.op = insn.op) (hop2 : insn'.op2 = insn.op2)
    (hpure : D.isPureCall insn' = C.isPureCall insn) : D.effect insn' = C.effect insn := by
  unfold effect
  rw [hop, hop2, hpure]

end Congr

section Emit

variable {op : IrOp} {l val : ℤ}

theorem emitStore_base_of_ne {r : ℤ} (h : r ≠ C.insnsCount) : (C.emitStore op l val).base r = C.base r :=
  Function.update_of_ne h _ _

theorem emitStore_base_count :
    (C.emitStore op l val).base C.insnsCount = ⟨op, .void, C.control, l, val, 0, 0⟩ :=
  Function.update_self _ _ _

theorem emitStore_prev_of_ne {n : ℕ} (h : n ≠ C.insnsCount) : (C.emitStore op l val).prev n = C.prev n := by
  unfold prev
  rw [emitStore_base_of_ne (by exact_mod_cast h)]

theorem emitStore_prev_count : (C.emitStore op l val).prev C.insnsCount = C.control := by
  unfold prev
  rw [emitStore_base_count]
  rfl

/-- The chain before the new store is as it was. -/
theorem OnChain.emit (hb : C.Built) {n : ℕ} (h : C.OnChain n) : (C.emitStore op l val).OnChain n := by
  have hlt := (hb.inBuffer _ (onChain_control C)).1
  have hpos := hb.pos _ (onChain_control C)
  have hstart : (C.emitStore op l val).OnChain C.control :=
    Relation.ReflTransGen.single ⟨show 1 < C.insnsCount by omega, emitStore_prev_count.symm⟩
  induction h with
  | refl => exact hstart
  | tail hab hbc ih =>
    obtain ⟨h1, rfl⟩ := hbc
    have hne := (hb.inBuffer _ hab).1.ne
    exact ih.tail ⟨h1, (emitStore_prev_of_ne hne).symm⟩

theorem OnChain.of_emit (hb : C.InBuffer) {n : ℕ} (h : (C.emitStore op l val).OnChain n) :
    n = C.insnsCount ∨ C.OnChain n := by
  induction h with
  | refl => exact Or.inl rfl
  | tail hab hbc ih =>
    obtain ⟨h1, rfl⟩ := hbc
    rcases ih with rfl | ih
    · rw [emitStore_prev_count]
      exact Or.inr (onChain_control C)
    · rw [emitStore_prev_of_ne (hb _ ih).1.ne]
      exact Or.inr (ih.prev h1)

theorem emitStore_isPureCall {insn : Insn} (h : insn.op2 < C.insnsCount) :
    (C.emitStore op l val).isPureCall insn = C.isPureCall insn := by
  unfold isPureCall
  rw [emitStore_base_of_ne h.ne]
  rfl

theorem emitStore_storeSize {insn : Insn} (h : insn.op3 < C.insnsCount) :
    (C.emitStore op l val).storeSize insn = C.storeSize insn := by
  unfold storeSize
  rw [emitStore_base_of_ne h.ne]

theorem emitStore_effect {insn : Insn} (h : insn.op2 < C.insnsCount) :
    (C.emitStore op l val).effect insn = C.effect insn :=
  effect_congr rfl rfl (emitStore_isPureCall h)

/-- An instruction of the chain does the same with the new store after it. -/
theorem emitStore_step (hb : C.InBuffer) {n : ℕ} (hn : C.OnChain n) {m m' : Memory} :
    (C.emitStore op l val).Step E n m m' ↔ C.Step E n m m' := by
  obtain ⟨hlt, hop2, hop3⟩ := hb n hn
  have hbase : (C.emitStore op l val).base n = C.base n := emitStore_base_of_ne (by exact_mod_cast hlt.ne)
  unfold Step
  rw [hbase, emitStore_effect hop2, emitStore_storeSize hop3]

/-- The new store writes its value. -/
theorem emitStore_step_count (hop : op = .store ∨ op = .vstore) (hval : val < C.insnsCount) {m m' : Memory} :
    (C.emitStore op l val).Step E C.insnsCount m m' ↔
      m' = m.write (if accessesVar op then E.varAddr l else E.val l) (C.base val).type.size (E.val val) := by
  have heffect : (C.emitStore op l val).effect ⟨op, .void, C.control, l, val, 0, 0⟩ = .write := by
    rcases hop with rfl | rfl <;> rfl
  unfold Step
  rw [emitStore_base_count, heffect, emitStore_storeSize hval]
  rfl

/-- An execution with the new store is one without it, and the store at the end. -/
theorem Run.of_emit (hb : C.Built) (hop : op = .store ∨ op = .vstore) (hval : val < C.insnsCount)
    (hrun : (C.emitStore op l val).Run E mem) :
    C.Run E mem ∧ mem C.insnsCount =
      (mem C.control).write (if accessesVar op then E.varAddr l else E.val l) (C.base val).type.size
        (E.val val) := by
  refine ⟨⟨fun n hn => ?_, fun a ha hvaddr => ?_⟩, ?_⟩
  · have hstep := hrun.step n (hn.emit hb)
    rw [emitStore_prev_of_ne (hb.inBuffer n hn).1.ne] at hstep
    exact (emitStore_step hb.inBuffer hn).mp hstep
  · have := hrun.vaddr a (show a < ((C.insnsCount + 1 : ℕ) : ℤ) by push_cast; omega)
    rw [emitStore_base_of_ne ha.ne] at this
    exact this hvaddr
  · have hstep := hrun.step C.insnsCount Relation.ReflTransGen.refl
    rw [emitStore_prev_count] at hstep
    exact (emitStore_step_count hop hval).mp hstep

theorem Run.emit (hb : C.InBuffer) (hop : op = .store ∨ op = .vstore) (hval : val < C.insnsCount)
    (hrun : C.Run E mem) (hnew : mem C.insnsCount =
      (mem C.control).write (if accessesVar op then E.varAddr l else E.val l) (C.base val).type.size
        (E.val val)) : (C.emitStore op l val).Run E mem where
  step n hn := by
    rcases hn.of_emit hb with rfl | hn
    · rw [emitStore_prev_count]
      exact (emitStore_step_count hop hval).mpr hnew
    · rw [emitStore_prev_of_ne (hb n hn).1.ne]
      exact (emitStore_step hb hn).mpr (hrun.step n hn)
  vaddr a ha hvaddr := by
    by_cases hne : a = C.insnsCount
    · rw [hne, emitStore_base_count] at hvaddr
      rcases hop with rfl | rfl <;> simp at hvaddr
    · rw [emitStore_base_of_ne hne] at hvaddr ⊢
      have ha : a < ((C.insnsCount + 1 : ℕ) : ℤ) := ha
      exact hrun.vaddr a (by omega) hvaddr

end Emit

section Dead

variable {a : BitVec 64} {k s : ℕ}

/-- What memory holds after `s` it holds at the end, when nothing in between touches it. -/
theorem Run.holds_control (ho : C.Ordered) (hrun : C.Run E mem) (hs : C.OnChain s) (hs1 : 1 ≤ s)
    {v : BitVec 64} (hold : Holds (mem s) a k v)
    (hclear : ∀ n, C.OnChain n → s < n →
      C.effect (C.base n) = .nothing ∨ C.Clear E a k (C.base n)) : Holds (mem C.control) a k v := by
  have hup : ∀ n, C.OnChain n → s ≤ n → Holds (mem n) a k v := by
    intro n
    induction n using Nat.strong_induction_on with
    | _ n ih =>
      intro hn hle
      rcases hle.lt_or_eq with hlt | rfl
      · have h1 : 1 < n := by omega
        have hprev := ih (C.prev n) (ho.prev_lt n hn h1) (hn.prev h1) (hn.le_prev ho hs h1 hlt)
        exact hprev.congr ((hrun.step n hn).keeps (hclear n hn hlt))
      · exact hold
  exact hup C.control (onChain_control C) (hs.le_control ho)

end Dead

section Delete

variable {s next : ℕ}

/-- `next` is the control instruction after `ref`, `0` at the end of the chain. -/
def NextOf (C : Ctx) (ref next : ℕ) : Prop :=
  (next = 0 ∧ ref = C.control) ∨ (C.OnChain next ∧ 1 < next ∧ C.prev next = ref)

/-- The store at `s`, which has `next` after it, may be deleted. -/
structure Deletable (C : Ctx) (s next : ℕ) : Prop where
  onChain : C.OnChain s
  one_lt : 1 < s
  store : (C.base s).op = .store ∨ (C.base s).op = .vstore
  next : C.NextOf s next

theorem Deletable.lt_next (ho : C.Ordered) (hd : C.Deletable s next) (hnext : next ≠ 0) : s < next := by
  rcases hd.next with ⟨h0, _⟩ | ⟨hn, hn1, rfl⟩
  · exact absurd h0 hnext
  · exact ho.prev_lt next hn hn1

/-- Only `next` comes right after `s`. -/
theorem Deletable.eq_next (ho : C.Ordered) (hd : C.Deletable s next) {n : ℕ} (hn : C.OnChain n)
    (hn1 : 1 < n) (hprev : C.prev n = s) : n = next := by
  have hlt := ho.prev_lt n hn hn1
  rcases hd.next with ⟨_, hs⟩ | ⟨hx, hx1, hxs⟩
  · have := hn.le_control ho
    omega
  · have hxlt := ho.prev_lt next hx hx1
    rcases Nat.lt_trichotomy n next with h | h | h
    · have := hx.le_prev ho hn hx1 h
      omega
    · exact h
    · have := hn.le_prev ho hx hn1 h
      omega

theorem deleteStore_base_self : (C.deleteStore s next).base s =
    { C.base s with op := .nop, type := .void, op1 := 0, op2 := 0, op3 := 0 } := by
  unfold deleteStore
  split_ifs
  · simp only [Function.update_self]
    by_cases hsn : s = next
    · subst hsn
      simp
    · rw [Function.update_of_ne (by exact_mod_cast hsn)]
  · simp only [Function.update_self]

theorem deleteStore_base_next (hne : next ≠ s) (hnext : next ≠ 0) :
    (C.deleteStore s next).base next = { C.base next with op1 := (C.base s).op1 } := by
  unfold deleteStore
  split_ifs
  show Function.update _ _ _ _ = _
  rw [Function.update_of_ne (by exact_mod_cast hne)]
  exact Function.update_self _ _ _

theorem deleteStore_base_of_ne {r : ℤ} (hs : r ≠ s) (hnext : next ≠ 0 → r ≠ next) :
    (C.deleteStore s next).base r = C.base r := by
  unfold deleteStore
  split_ifs with h
  · show Function.update _ _ _ _ = _
    rw [Function.update_of_ne hs]
    exact Function.update_of_ne (hnext h) _ _
  · exact Function.update_of_ne hs _ _

theorem deleteStore_insnsCount : (C.deleteStore s next).insnsCount = C.insnsCount := by
  unfold deleteStore
  split_ifs <;> rfl

theorem deleteStore_control : (C.deleteStore s next).control = if next ≠ 0 then C.control else C.prev s := by
  unfold deleteStore prev
  split_ifs <;> rfl

theorem deleteStore_prev_next (hne : next ≠ s) (hnext : next ≠ 0) :
    (C.deleteStore s next).prev next = C.prev s := by
  unfold prev
  rw [deleteStore_base_next hne hnext]

theorem deleteStore_prev_of_ne {n : ℕ} (hs : n ≠ s) (hnext : n ≠ next) :
    (C.deleteStore s next).prev n = C.prev n := by
  unfold prev
  rw [deleteStore_base_of_ne (by exact_mod_cast hs) (fun _ => by exact_mod_cast hnext)]

/-- An instruction other than the deleted one keeps all but its `op1`. -/
theorem deleteStore_alike (C : Ctx) (next : ℕ) {r : ℤ} (hs : r ≠ s) :
    ((C.deleteStore s next).base r).op = (C.base r).op ∧
    ((C.deleteStore s next).base r).type = (C.base r).type ∧
    ((C.deleteStore s next).base r).op2 = (C.base r).op2 ∧
    ((C.deleteStore s next).base r).op3 = (C.base r).op3 ∧
    ((C.deleteStore s next).base r).proto = (C.base r).proto := by
  by_cases hr : next ≠ 0 ∧ r = next
  · obtain ⟨hnext, rfl⟩ := hr
    rw [deleteStore_base_next (by exact_mod_cast hs) hnext]
    exact ⟨rfl, rfl, rfl, rfl, rfl⟩
  · rw [deleteStore_base_of_ne hs (fun h e => hr ⟨h, e⟩)]
    exact ⟨rfl, rfl, rfl, rfl, rfl⟩

theorem deleteStore_isPureCall (hd : C.Deletable s next) {insn insn' : Insn} (hop2 : insn'.op2 = insn.op2) :
    (C.deleteStore s next).isPureCall insn' = C.isPureCall insn := by
  unfold isPureCall
  rw [hop2]
  by_cases hs : insn.op2 = s
  · rw [hs, deleteStore_base_self]
    rcases hd.store with h | h <;> simp [h]
  · obtain ⟨hop, _, hop2, _, hproto⟩ := deleteStore_alike C next hs
    simp only [hop, hop2, hproto]
    unfold deleteStore
    split_ifs <;> rfl

theorem deleteStore_type (hb : C.Built) (hd : C.Deletable s next) (r : ℤ) :
    ((C.deleteStore s next).base r).type = (C.base r).type := by
  by_cases hs : r = s
  · rw [hs, deleteStore_base_self, hb.store_void s hd.onChain hd.store]
  · exact (deleteStore_alike C next hs).2.1

theorem deleteStore_effect (hd : C.Deletable s next) {n : ℕ} (hn : n ≠ s) :
    (C.deleteStore s next).effect ((C.deleteStore s next).base n) = C.effect (C.base n) := by
  obtain ⟨hop, _, hop2, _⟩ := deleteStore_alike C next (r := n) (by exact_mod_cast hn)
  exact effect_congr hop hop2 (deleteStore_isPureCall hd hop2)

theorem deleteStore_step (hb : C.Built) (hd : C.Deletable s next) {n : ℕ} (hn : n ≠ s) {m m' : Memory}
    (h : C.Step E n m m') : (C.deleteStore s next).Step E n m m' := by
  obtain ⟨hop, htype, hop2, hop3, _⟩ :=
    deleteStore_alike C next (r := n) (by exact_mod_cast hn)
  refine h.of_alike (deleteStore_effect hd hn) hop htype hop2 hop3 ?_
  unfold storeSize
  rw [hop3, deleteStore_type hb hd]

/-- The chain loses the deleted store only. -/
theorem OnChain.of_delete (ho : C.Ordered) (hd : C.Deletable s next) {n : ℕ}
    (h : (C.deleteStore s next).OnChain n) : C.OnChain n ∧ n ≠ s := by
  have hprev : C.OnChain (C.prev s) ∧ C.prev s ≠ s :=
    ⟨hd.onChain.prev hd.one_lt, (ho.prev_lt s hd.onChain hd.one_lt).ne⟩
  induction h with
  | refl =>
    rw [deleteStore_control]
    split_ifs with hnext
    · refine ⟨onChain_control C, ?_⟩
      rcases hd.next with ⟨h0, _⟩ | ⟨hx, _, _⟩
      · exact absurd h0 hnext
      · have := hx.le_control ho
        have := hd.lt_next ho hnext
        omega
    · exact hprev
  | @tail b c hab hbc ih =>
    obtain ⟨h1, rfl⟩ := hbc
    by_cases hbn : b = next
    · subst hbn
      rw [deleteStore_prev_next ih.2 (by omega)]
      exact hprev
    · rw [deleteStore_prev_of_ne ih.2 hbn]
      exact ⟨ih.1.prev h1, fun e => hbn (hd.eq_next ho ih.1 h1 e)⟩

/-- Memory without the store at `s`: after it, up to the end of the chain, its bytes are those from before
it. -/
def memWithout (C : Ctx) (E : Env) (mem : ℕ → Memory) (s n : ℕ) : Memory :=
  if s < n ∧ n < C.insnsCount then
    restore (mem (C.prev s)) (loc E (C.base s)) (C.storeSize (C.base s)) (mem n)
  else mem n

theorem memWithout_of_lt (hb : C.InBuffer) {n : ℕ} (hn : C.OnChain n) (h : s < n) :
    C.memWithout E mem s n =
      restore (mem (C.prev s)) (loc E (C.base s)) (C.storeSize (C.base s)) (mem n) :=
  if_pos ⟨h, (hb n hn).1⟩

theorem memWithout_of_le {n : ℕ} (h : n ≤ s) : C.memWithout E mem s n = mem n := if_neg (by omega)

/-- Right after the deleted store the restored memory is the one before it. -/
theorem restore_deleted (hrun : C.Run E mem) (hd : C.Deletable s next) :
    restore (mem (C.prev s)) (loc E (C.base s)) (C.storeSize (C.base s)) (mem s) = mem (C.prev s) := by
  have hstep := hrun.step s hd.onChain
  rw [hstep.write (by rcases hd.store with h | h <;> rw [h] <;> rfl)]
  exact restore_write_self

/-- Before an instruction after `s`, memory without the store is the restored one. -/
theorem memWithout_prev (hb : C.Built) (hrun : C.Run E mem) (hd : C.Deletable s next) {n : ℕ}
    (hn : C.OnChain n) (hlt : s < n) : C.memWithout E mem s ((C.deleteStore s next).prev n) =
      restore (mem (C.prev s)) (loc E (C.base s)) (C.storeSize (C.base s)) (mem (C.prev n)) := by
  have h1 := hd.one_lt
  by_cases hnext : n = next
  · subst hnext
    have hprev : C.prev n = s := by
      rcases hd.next with ⟨h0, _⟩ | ⟨_, _, h⟩
      · omega
      · exact h
    rw [deleteStore_prev_next hlt.ne' (by omega), hprev, restore_deleted hrun hd]
    exact memWithout_of_le (hb.prev_lt s hd.onChain h1).le
  · rw [deleteStore_prev_of_ne hlt.ne' hnext]
    have hle := hn.le_prev hb.toOrdered hd.onChain (by omega) hlt
    have hne : C.prev n ≠ s := fun e => hnext (hd.eq_next hb.toOrdered hn (by omega) e)
    exact memWithout_of_lt hb.inBuffer (hn.prev (by omega)) (by omega)

/-- An instruction that touches none of the restored bytes does the same on the restored memory. -/
theorem Step.restore {n k : ℕ} {a : BitVec 64} {m m' old : Memory} (h : C.Step E n m m')
    (hclear : C.effect (C.base n) = .nothing ∨ C.Clear E a k (C.base n)) :
    C.Step E n (restore old a k m) (restore old a k m') := by
  rcases hclear with he | ⟨he, hapart⟩ | ⟨he, hapart⟩
  · rw [h.nothing he]
    unfold Step
    rw [he]
  · obtain ⟨rfl, hold⟩ := h.read he
    exact (step_read he).mpr ⟨rfl, hold.restore hapart⟩
  · rw [h.write he, restore_write_of_apart hapart]
    exact (step_write he).mpr rfl

theorem step_first (hb : C.Built) {m m' : Memory} : C.Step E 1 m m' := by
  have heffect : C.effect (C.base (1 : ℕ)) = .anything := by
    unfold effect
    rw [show (C.base (1 : ℕ)).op = .start from hb.first]
    rfl
  unfold Step
  rw [heffect]
  trivial

/-- Before an instruction that comes before `s`, memory is as it was. -/
theorem memWithout_prev_of_lt (hb : C.Built) (hd : C.Deletable s next) {n : ℕ} (hn : C.OnChain n)
    (h1 : 1 < n) (hlt : n < s) :
    C.memWithout E mem s ((C.deleteStore s next).prev n) = mem (C.prev n) := by
  have hnext : n ≠ next := by
    rintro rfl
    have := hd.lt_next hb.toOrdered (by omega)
    omega
  rw [deleteStore_prev_of_ne hlt.ne hnext]
  have := hb.prev_lt n hn h1
  exact memWithout_of_le (by omega)

/-- Deleting a store that nothing reads gives an execution with the restored memory. -/
theorem Run.delete (hb : C.Built) (hrun : C.Run E mem) (hd : C.Deletable s next)
    (hclear : ∀ n, C.OnChain n → s < n → C.effect (C.base n) = .nothing ∨
      C.Clear E (loc E (C.base s)) (C.storeSize (C.base s)) (C.base n)) :
    (C.deleteStore s next).Run E (C.memWithout E mem s) where
  step n hn := by
    obtain ⟨hn, hne⟩ := hn.of_delete hb.toOrdered hd
    refine deleteStore_step hb hd hne ?_
    have hstep := hrun.step n hn
    rcases Nat.lt_or_gt_of_ne hne with hlt | hlt
    · rcases (hb.pos n hn).lt_or_eq with h1 | rfl
      · rw [memWithout_prev_of_lt hb hd hn h1 hlt, memWithout_of_le hlt.le]
        exact hstep
      · exact step_first hb
    · rw [memWithout_prev hb hrun hd hn hlt, memWithout_of_lt hb.inBuffer hn hlt]
      exact hstep.restore (hclear n hn hlt)
  vaddr a ha hvaddr := by
    by_cases hs : a = s
    · rw [hs, deleteStore_base_self] at hvaddr
      simp at hvaddr
    · rw [(deleteStore_alike C next hs).1] at hvaddr
      have hnext : next ≠ 0 → a ≠ next := by
        rintro h0 rfl
        rcases hd.next with ⟨h, _⟩ | ⟨hx, _, _⟩
        · exact h0 h
        · exact hb.not_vaddr next hx hvaddr
      rw [deleteStore_base_of_ne hs hnext]
      rw [deleteStore_insnsCount] at ha
      exact hrun.vaddr a ha hvaddr

/-- The end of the chain without the store has the restored memory, or the one before the store. -/
theorem memWithout_control (hb : C.Built) (hrun : C.Run E mem) (hd : C.Deletable s next) :
    C.memWithout E mem s (C.deleteStore s next).control =
      restore (mem (C.prev s)) (loc E (C.base s)) (C.storeSize (C.base s)) (mem C.control) := by
  rw [deleteStore_control]
  rcases hd.next with ⟨rfl, hs⟩ | ⟨hx, hx1, rfl⟩
  · rw [if_neg (by omega), ← hs, restore_deleted hrun hd]
    exact memWithout_of_le (hb.prev_lt s hd.onChain hd.one_lt).le
  · rw [if_pos (by omega)]
    have := hx.le_control hb.toOrdered
    have := hb.prev_lt next hx hx1
    exact memWithout_of_lt hb.inBuffer (onChain_control C) (by omega)

end Delete

section Same

variable {op : IrOp} {l val : ℤ} {a : BitVec 64} {s next : ℕ}

/-- A new store of what memory holds may be left out. -/
theorem sameSight_dead (hb : C.Built) (hop : op = .store ∨ op = .vstore) (hval : val < C.insnsCount)
    (hrun : (C.emitStore op l val).Run E mem)
    (hold : Holds (mem C.control) (if accessesVar op then E.varAddr l else E.val l) (C.base val).type.size
      (E.val val)) : SameSight (C.emitStore op l val) C E mem mem := by
  obtain ⟨hrunC, hnew⟩ := hrun.of_emit hb hop hval
  refine ⟨hrunC, fun _ _ _ => rfl, fun n hn _ _ => ?_, ?_⟩
  · rw [emitStore_prev_of_ne (hb.inBuffer n hn).1.ne]
  · show mem C.control = mem C.insnsCount
    rw [hnew, write_eq_self hold]

theorem not_observes_count (hop : op = .store ∨ op = .vstore) :
    ¬ (C.emitStore op l val).Observes ((C.emitStore op l val).base C.insnsCount) := by
  rw [emitStore_base_count]
  rcases hop with rfl | rfl <;> simp [Observes, effect, opEffect]

theorem observes_emitStore (hb : C.InBuffer) {n : ℕ} (hn : C.OnChain n) :
    (C.emitStore op l val).Observes ((C.emitStore op l val).base n) ↔ C.Observes (C.base n) := by
  obtain ⟨hlt, hop2, _⟩ := hb n hn
  unfold Observes
  rw [emitStore_base_of_ne (by exact_mod_cast hlt.ne), emitStore_effect hop2]

theorem observes_deleteStore (hd : C.Deletable s next) {n : ℕ} (hn : n ≠ s) :
    (C.deleteStore s next).Observes ((C.deleteStore s next).base n) ↔ C.Observes (C.base n) := by
  unfold Observes
  rw [deleteStore_effect hd hn, (deleteStore_alike C next (r := n) (by exact_mod_cast hn)).1]

theorem InBuffer.delete (hb : C.Built) (hd : C.Deletable s next) : (C.deleteStore s next).InBuffer := by
  intro n hn
  obtain ⟨hn, hne⟩ := hn.of_delete hb.toOrdered hd
  obtain ⟨_, _, hop2, hop3, _⟩ := deleteStore_alike C next (r := n) (by exact_mod_cast hne)
  rw [hop2, hop3, deleteStore_insnsCount]
  exact hb.inBuffer n hn

/-- An earlier store to bytes that the new one writes may be deleted, when nothing in between reads them or
sees all of memory. -/
theorem sameSight_delete (hb : C.Built) (hop : op = .store ∨ op = .vstore) (hval : val < C.insnsCount)
    (hrun : (C.emitStore op l val).Run E mem) (hd : C.Deletable s next)
    (hloc : loc E (C.base s) = if accessesVar op then E.varAddr l else E.val l)
    (hsize : C.storeSize (C.base s) ≤ (C.base val).type.size)
    (hclear : ∀ n, C.OnChain n → s < n → C.effect (C.base n) = .nothing ∨
      C.Clear E (loc E (C.base s)) (C.storeSize (C.base s)) (C.base n))
    (hunseen : ∀ n, C.OnChain n → s < n → ¬ C.Observes (C.base n)) :
    ∃ mem', SameSight (C.emitStore op l val) ((C.deleteStore s next).emitStore op l val) E mem mem' := by
  obtain ⟨hrunC, hnew⟩ := hrun.of_emit hb hop hval
  have hcount : (C.deleteStore s next).insnsCount = C.insnsCount := deleteStore_insnsCount
  have hrunD := hrunC.delete hb hd hclear
  have hlast : C.memWithout E mem s C.insnsCount = mem C.insnsCount := if_neg (by omega)
  -- the new store writes over the restored bytes
  have hwrite : C.memWithout E mem s (C.deleteStore s next).insnsCount =
      (C.memWithout E mem s (C.deleteStore s next).control).write
        (if accessesVar op then E.varAddr l else E.val l) ((C.deleteStore s next).base val).type.size
        (E.val val) := by
    rw [hcount, hlast, hnew, memWithout_control hb hrunC hd, deleteStore_type hb hd, hloc,
      write_restore hsize]
  -- what sees all of memory comes before the deleted store
  have hbefore : ∀ n, ((C.deleteStore s next).emitStore op l val).OnChain n →
      ((C.deleteStore s next).emitStore op l val).Observes
        (((C.deleteStore s next).emitStore op l val).base n) →
      (C.deleteStore s next).OnChain n ∧ C.OnChain n ∧ n < s := by
    intro n hn hsees
    rcases hn.of_emit (InBuffer.delete hb hd) with rfl | hn
    · exact absurd hsees (not_observes_count hop)
    · have hsees := (observes_emitStore (InBuffer.delete hb hd) hn).mp hsees
      obtain ⟨hnC, hne⟩ := hn.of_delete hb.toOrdered hd
      rw [observes_deleteStore hd hne] at hsees
      refine ⟨hn, hnC, ?_⟩
      by_contra hge
      exact hunseen n hnC (by omega) hsees
  refine ⟨C.memWithout E mem s, hrunD.emit (InBuffer.delete hb hd) hop (by rwa [hcount]) hwrite, ?_, ?_, ?_⟩
  · intro n hn heffect
    obtain ⟨_, _, hlt⟩ := hbefore n hn (Or.inr (Or.inr (Or.inr heffect)))
    exact memWithout_of_le hlt.le
  · intro n hn h1 hsees
    obtain ⟨hnD, hnC, hlt⟩ := hbefore n hn hsees
    rw [emitStore_prev_of_ne (InBuffer.delete hb hd n hnD).1.ne,
      emitStore_prev_of_ne (hb.inBuffer n hnC).1.ne]
    exact memWithout_prev_of_lt hb hd hnC h1 hlt
  · show C.memWithout E mem s (C.deleteStore s next).insnsCount = mem C.insnsCount
    rw [hcount, hlast]

end Same

end IrJit.Mem.Ctx
