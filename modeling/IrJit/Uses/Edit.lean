import IrJit.Uses.Inverse

/-!
# Uses.Edit — new instructions, deleted instructions and replaced operands

What `ir_emit`, `MAKE_NOP` and `ir_replace` do to the edges and to the use lists, list by list.  The slots of
the instructions are those that a walk from reference `1` comes to; a context is `Tight` when the walk ends
exactly at `insns_count`.
-/

namespace IrJit.Uses

open Slice

/-- The walk over the instructions goes from `a` to `b`. -/
def Reach (inputs : ℕ → ℕ) : ℕ → ℕ → Prop :=
  Relation.ReflTransGen fun a b => b = a + inputsToLen (inputs a)

namespace Insns

/-- `ir_emit2`: a new instruction at `insns_count`. -/
def emit2 (I : Insns) (op : IrOp) (op1 op2 : ℤ) : Insns where
  op := Function.update I.op I.insnsCount op
  inputsCount := Function.update I.inputsCount I.insnsCount 2
  word := Function.update (Function.update (Function.update I.word (4 * I.insnsCount + 1) op1)
    (4 * I.insnsCount + 2) op2) (4 * I.insnsCount + 3) 0
  insnsCount := I.insnsCount + 1

/-- `MAKE_NOP`. -/
def makeNop (I : Insns) (insn : ℕ) : Insns where
  op := Function.update I.op insn .nop
  inputsCount := Function.update I.inputsCount insn 0
  word := Function.update (Function.update (Function.update I.word (4 * insn + 1) 0)
    (4 * insn + 2) 0) (4 * insn + 3) 0
  insnsCount := I.insnsCount

/-- The walk ends exactly at `insns_count`. -/
def Tight (I : Insns) : Prop := Reach I.inputsCount 1 I.insnsCount

end Insns

section Reach

variable {inputs inputs' : ℕ → ℕ} {a b u v : ℕ}

theorem inputsToLen_pos (n : ℕ) : 0 < inputsToLen n := by
  unfold inputsToLen
  omega

theorem Reach.le (h : Reach inputs a b) : a ≤ b := by
  induction h with
  | refl => exact le_refl _
  | tail _ hstep ih => omega

theorem Reach.congr (h : Reach inputs a u)
    (hlen : ∀ i < u, inputsToLen (inputs' i) = inputsToLen (inputs i)) : Reach inputs' a u := by
  induction h with
  | refl => exact Relation.ReflTransGen.refl
  | @tail b c _ hstep ih =>
    have hpos := inputsToLen_pos (inputs b)
    refine (ih fun i hi => hlen i (by omega)).tail ?_
    rw [hlen b (by omega)]
    exact hstep

/-- Of two instructions the earlier one ends before the later one starts. -/
theorem Reach.apart (hu : Reach inputs a u) (hv : Reach inputs a v) (h : u < v) :
    u + inputsToLen (inputs u) ≤ v := by
  have hunique : Relator.RightUnique fun a b : ℕ => b = a + inputsToLen (inputs a) :=
    fun a b c hb hc => hb.trans hc.symm
  rcases Relation.ReflTransGen.total_of_right_unique hunique hu hv with huv | hvu
  · rcases huv.cases_head with rfl | ⟨c, rfl, hc⟩
    · omega
    · exact Reach.le hc
  · have := Reach.le hvu
    omega

theorem mem_headsFrom {count fuel : ℕ} (hfuel : count ≤ a + fuel) :
    u ∈ headsFrom inputs count fuel a ↔ Reach inputs a u ∧ u < count := by
  induction fuel generalizing a with
  | zero =>
    rw [headsFrom]
    refine ⟨fun h => absurd h (List.not_mem_nil), fun hr => ?_⟩
    have := hr.1.le
    omega
  | succ fuel ih =>
    have hpos := inputsToLen_pos (inputs a)
    rw [headsFrom]
    split_ifs with ha
    · rw [List.mem_cons, ih (by omega)]
      constructor
      · rintro (rfl | ⟨h, hlt⟩)
        · exact ⟨Relation.ReflTransGen.refl, ha⟩
        · exact ⟨Relation.ReflTransGen.head rfl h, hlt⟩
      · rintro ⟨h, hlt⟩
        rcases h.cases_head with rfl | ⟨c, rfl, hc⟩
        · exact Or.inl rfl
        · exact Or.inr ⟨hc, hlt⟩
    · refine ⟨fun h => absurd h (List.not_mem_nil), fun hr => ?_⟩
      have := hr.1.le
      omega

end Reach

namespace Insns

variable {I : Insns} {u v d : ℕ}

theorem mem_heads : u ∈ I.heads ↔ Reach I.inputsCount 1 u ∧ u < I.insnsCount :=
  mem_headsFrom (by omega)

/-- Words outside the slots of an instruction are not its inputs. -/
theorem inputs_congr {I' : Insns} (hcount : I'.inputsCount u = I.inputsCount u)
    (hword : ∀ x, 4 * u < x → x ≤ 4 * u + I.inputsCount u → I'.word x = I.word x) :
    I'.inputs u = I.inputs u := by
  unfold inputs
  rw [hcount]
  exact slice_congr fun x hle hlt => hword x (by omega) (by omega)

section Emit

variable {op : IrOp} {op1 op2 : ℤ}

theorem Tight.emit2 (h : I.Tight) : (I.emit2 op op1 op2).Tight := by
  have hold : Reach (I.emit2 op op1 op2).inputsCount 1 I.insnsCount := by
    refine Reach.congr h fun i hi => ?_
    show inputsToLen (Function.update I.inputsCount I.insnsCount 2 i) = _
    rw [Function.update_of_ne (by omega)]
  refine hold.tail ?_
  show I.insnsCount + 1 =
    I.insnsCount + inputsToLen (Function.update I.inputsCount I.insnsCount 2 I.insnsCount)
  rw [Function.update_self]
  rfl

theorem mem_heads_emit2 (h : I.Tight) :
    u ∈ (I.emit2 op op1 op2).heads ↔ u ∈ I.heads ∨ u = I.insnsCount := by
  have hlen : ∀ i < I.insnsCount, inputsToLen ((I.emit2 op op1 op2).inputsCount i) =
      inputsToLen (I.inputsCount i) := by
    intro i hi
    show inputsToLen (Function.update I.inputsCount I.insnsCount 2 i) = _
    rw [Function.update_of_ne (by omega)]
  rw [mem_heads, mem_heads]
  show _ ∧ u < I.insnsCount + 1 ↔ _
  constructor
  · rintro ⟨hreach, hlt⟩
    rcases Nat.lt_or_ge u I.insnsCount with hu | hu
    · exact Or.inl ⟨hreach.congr fun i hi => (hlen i (by omega)).symm, hu⟩
    · exact Or.inr (by omega)
  · rintro (⟨hreach, hu⟩ | rfl)
    · exact ⟨hreach.congr fun i hi => hlen i (by omega), by omega⟩
    · exact ⟨Reach.congr h fun i hi => hlen i hi, by omega⟩

theorem inputs_emit2_of_heads (h : I.Tight) (hu : u ∈ I.heads) :
    (I.emit2 op op1 op2).inputs u = I.inputs u := by
  obtain ⟨hreach, hlt⟩ := mem_heads.mp hu
  have hapart := hreach.apart h hlt
  unfold inputsToLen at hapart
  refine inputs_congr (Function.update_of_ne (by omega) _ _) fun x hx hx' => ?_
  show Function.update _ _ _ x = _
  rw [Function.update_of_ne (by omega), Function.update_of_ne (by omega), Function.update_of_ne (by omega)]

theorem inputs_emit2_self : (I.emit2 op op1 op2).inputs I.insnsCount = [op1, op2] := by
  unfold inputs
  rw [show (I.emit2 op op1 op2).inputsCount I.insnsCount = 2 from Function.update_self _ _ _]
  simp [slice, List.range', Insns.emit2]

/-- The new instruction adds its edges. -/
theorem edgeCount_emit2 (h : I.Tight) : (I.emit2 op op1 op2).edgeCount d u =
    I.edgeCount d u + if u = I.insnsCount then [op1, op2].count (d : ℤ) else 0 := by
  unfold edgeCount
  by_cases hu : u = I.insnsCount
  · subst hu
    have hnot : I.insnsCount ∉ I.heads := fun hmem => by
      have := (mem_heads.mp hmem).2
      omega
    rw [if_pos ((mem_heads_emit2 h).mpr (Or.inr rfl)), if_neg hnot, inputs_emit2_self, if_pos rfl,
      Nat.zero_add]
  · rw [if_neg hu, Nat.add_zero]
    by_cases hmem : u ∈ I.heads
    · rw [if_pos ((mem_heads_emit2 h).mpr (Or.inl hmem)), if_pos hmem, inputs_emit2_of_heads h hmem]
    · have hmem' : u ∉ (I.emit2 op op1 op2).heads := fun hmem' =>
        ((mem_heads_emit2 h).mp hmem').elim hmem hu
      rw [if_neg hmem', if_neg hmem]

end Emit

section Nop

variable {n : ℕ}

theorem inputsToLen_makeNop (hn : I.inputsCount n < 4) (i : ℕ) :
    inputsToLen ((I.makeNop n).inputsCount i) = inputsToLen (I.inputsCount i) := by
  show inputsToLen (Function.update I.inputsCount n 0 i) = _
  by_cases hi : i = n
  · subst hi
    rw [Function.update_self]
    unfold inputsToLen
    omega
  · rw [Function.update_of_ne hi]

theorem Tight.makeNop (h : I.Tight) (hn : I.inputsCount n < 4) : (I.makeNop n).Tight :=
  Reach.congr h fun i _ => inputsToLen_makeNop hn i

theorem mem_heads_makeNop (hn : I.inputsCount n < 4) : u ∈ (I.makeNop n).heads ↔ u ∈ I.heads := by
  rw [mem_heads, mem_heads]
  exact ⟨fun ⟨h, hlt⟩ => ⟨h.congr fun i _ => (inputsToLen_makeNop hn i).symm, hlt⟩,
    fun ⟨h, hlt⟩ => ⟨h.congr fun i _ => inputsToLen_makeNop hn i, hlt⟩⟩

theorem inputs_makeNop_of_ne (hn : n ∈ I.heads) (hu : u ∈ I.heads) (hne : u ≠ n) :
    (I.makeNop n).inputs u = I.inputs u := by
  obtain ⟨hreach, _⟩ := mem_heads.mp hu
  obtain ⟨hreachn, _⟩ := mem_heads.mp hn
  refine inputs_congr (Function.update_of_ne hne _ _) fun x hx hx' => ?_
  have hout : x < 4 * n ∨ 4 * n + 3 < x := by
    rcases Nat.lt_or_gt_of_ne hne with hlt | hlt
    · have := hreach.apart hreachn hlt
      unfold inputsToLen at this
      omega
    · omega
  show Function.update _ _ _ x = _
  rw [Function.update_of_ne (by omega), Function.update_of_ne (by omega), Function.update_of_ne (by omega)]

/-- A deleted instruction has no edges. -/
theorem edgeCount_makeNop (hn : n ∈ I.heads) (hcount : I.inputsCount n < 4) :
    (I.makeNop n).edgeCount d u = if u = n then 0 else I.edgeCount d u := by
  unfold edgeCount
  by_cases hu : u = n
  · subst hu
    have hnil : (I.makeNop u).inputs u = [] := by
      unfold inputs
      rw [show (I.makeNop u).inputsCount u = 0 from Function.update_self _ _ _]
      rfl
    rw [if_pos ((mem_heads_makeNop hcount).mpr hn), hnil, if_pos rfl]
    rfl
  · rw [if_neg hu]
    by_cases hmem : u ∈ I.heads
    · rw [if_pos ((mem_heads_makeNop hcount).mpr hmem), if_pos hmem, inputs_makeNop_of_ne hn hmem hu]
    · rw [if_neg (fun h => hmem ((mem_heads_makeNop hcount).mp h)), if_neg hmem]

end Nop

end Insns

section Edges

variable {ctx : Ctx} {d u : ℕ}

/-- An operand is an edge. -/
theorem Insns.edgeCount_pos {I : Insns} {j : ℕ} (hu : u ∈ I.heads) (h1 : 1 ≤ j) (hj : j ≤ I.inputsCount u)
    (hop : I.insnOp u j = d) : 0 < I.edgeCount d u := by
  unfold edgeCount
  rw [if_pos hu, List.count_pos_iff]
  exact mem_slice.mpr ⟨4 * u + j, by omega, by omega, hop⟩

/-- The first two operands are two edges. -/
theorem Insns.two_le_edgeCount {I : Insns} (hu : u ∈ I.heads) (hinputs : 2 ≤ I.inputsCount u)
    (h1 : I.insnOp u 1 = d) (h2 : I.insnOp u 2 = d) : 2 ≤ I.edgeCount d u := by
  unfold edgeCount
  rw [if_pos hu, Insns.inputs]
  obtain ⟨k, hk⟩ := Nat.exists_eq_add_of_le hinputs
  have hw1 : I.word (4 * u + 1) = d := h1
  have hw2 : I.word (4 * u + 1 + 1) = d := h2
  rw [hk, show 2 + k = k + 1 + 1 by omega, slice_succ, slice_succ, hw1, hw2, List.count_cons_self,
    List.count_cons_self]
  omega

theorem Inverse.mem_uses (V : Inverse ctx) {j : ℕ} (hd : 0 < d) (hu : u ∈ ctx.insns.heads) (h1 : 1 ≤ j)
    (hj : j ≤ ctx.insns.inputsCount u) (hop : ctx.insns.insnOp u j = d) : u ∈ ctx.uses d := by
  rw [← List.count_pos_iff, V.count d u hd]
  exact Insns.edgeCount_pos hu h1 hj hop

theorem Insns.mem_heads_of_edgeCount {I : Insns} (h : 0 < I.edgeCount d u) : u ∈ I.heads := by
  by_contra hu
  rw [Insns.edgeCount, if_neg hu] at h
  omega

theorem Inverse.mem_heads (V : Inverse ctx) (hd : 0 < d) (h : u ∈ ctx.uses d) : u ∈ ctx.insns.heads := by
  apply Insns.mem_heads_of_edgeCount
  rw [← V.count d u hd]
  exact List.count_pos_iff.mpr h

/-- The list operations do not look at the instructions. -/
theorem useListAdd_withInsns (ctx : Ctx) (I : Insns) (d ref : ℕ) :
    (useListAdd { ctx with insns := I } d ref).2 = { (useListAdd ctx d ref).2 with insns := I } := by
  unfold useListAdd
  dsimp only
  split_ifs <;> rfl

theorem useListRemoveOne_withInsns (ctx : Ctx) (I : Insns) (d ref : ℕ) :
    useListRemoveOne { ctx with insns := I } d ref = { useListRemoveOne ctx d ref with insns := I } := by
  unfold useListRemoveOne
  dsimp only
  split <;> rfl

theorem useListAdd_insns (ctx : Ctx) (d ref : ℕ) : (useListAdd ctx d ref).2.insns = ctx.insns := by
  unfold useListAdd
  dsimp only
  split_ifs <;> rfl

theorem useListRemoveOne_insns (ctx : Ctx) (d ref : ℕ) : (useListRemoveOne ctx d ref).insns = ctx.insns := by
  unfold useListRemoveOne
  dsimp only
  split <;> rfl

/-- `ir_update_op` that removes an edge. -/
theorem updateOp_zero {j : ℕ} (h : 0 < ctx.insns.insnOp u j) : updateOp ctx u j 0 =
    { useListRemoveOne ctx (ctx.insns.insnOp u j).toNat u with insns := ctx.insns.insnSetOp u j 0 } := by
  unfold updateOp
  dsimp only
  rw [if_pos h]
  exact useListRemoveOne_withInsns _ _ _ _

/-- `ir_update_op` that adds an edge. -/
theorem updateOp_of_zero {j new : ℕ} (h : ctx.insns.insnOp u j = 0) (hnew : 0 < new) :
    updateOp ctx u j new =
      { (useListAdd ctx new u).2 with insns := ctx.insns.insnSetOp u j new } := by
  unfold updateOp
  dsimp only
  rw [h, if_neg (by omega), if_pos (by omega), Int.toNat_natCast, useListAdd_insns]

/-- A new instruction with one edge, and the use added to the list of its operand. -/
theorem Inverse.emit2 (V : Inverse ctx) (ht : ctx.insns.Tight) (d : ℕ) {op : IrOp} {op2 : ℤ}
    (hop2 : op2 ≤ 0) :
    Inverse (useListAdd { ctx with insns := ctx.insns.emit2 op d op2 } d ctx.insns.insnsCount).2 := by
  have hpos : ctx.insns.insnsCount ≠ 0 := by
    have := Reach.le ht
    omega
  have hturn := (V.sound.withInsns (ctx.insns.emit2 op d op2)).useListAdd d hpos
  refine ⟨hturn.sound, fun e u he => ?_⟩
  have hcount : ([(d : ℤ), op2].count (e : ℤ)) = if e = d then 1 else 0 := by
    rw [List.count_cons, List.count_singleton]
    have hne : ¬ op2 = (e : ℤ) := by omega
    by_cases hed : e = d
    · simp [hed, hed ▸ hne]
    · have hed' : ¬ (d : ℤ) = e := by omega
      simp [hed, hed', hne]
  rw [hturn.insns, Insns.edgeCount_emit2 ht, hcount, ← V.count e u he]
  by_cases hed : e = d
  · rw [hed, hturn.uses_self, List.count_append, List.count_singleton, if_pos rfl]
    by_cases hu : u = ctx.insns.insnsCount
    · rw [if_pos hu, if_pos (by simp [hu])]
      rfl
    · rw [if_neg hu, if_neg (by simpa using Ne.symm hu)]
      rfl
  · rw [hturn.uses_of_ne e hed, if_neg hed, ite_self]
    rfl

end Edges

section Replace

/-- `ir_replace` by another instruction, with the list of the replaced one cleared. -/
theorem replace_lists {ctx : Ctx} (S : Sound ctx) {ref newRef : ℕ} (hpos : 0 < newRef) (hne : newRef ≠ ref)
    (href : ∀ x, ctx.insns.edgeCount ref x = (ctx.uses ref).count x) :
    ∃ ctx', Uses.replace ctx ref newRef = some ctx' ∧ Sound ctx' ∧
      Substituted ref newRef ctx.insns ctx'.insns ∧
      ctx'.uses newRef = ctx.uses newRef ++ ctx.uses ref ∧
      (∀ d, d ≠ newRef → ctx'.uses d = ctx.uses d) ∧
      ∀ d x, ctx'.insns.edgeCount d x =
        if d = ref then 0
        else ctx.insns.edgeCount d x + if d = newRef then (ctx.uses ref).count x else 0 := by
  obtain ⟨ctx', hloop, hspec⟩ := replaceLoop_lists hne (ctx.useLists ref).count ctx 0 S
    (Nat.zero_add _).symm href
  refine ⟨ctx', ?_, hspec⟩
  unfold Uses.replace
  dsimp only
  rw [if_neg (by omega)]
  rwa [Nat.zero_add] at hloop

end Replace

end IrJit.Uses
