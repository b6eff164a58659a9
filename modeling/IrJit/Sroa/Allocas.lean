import IrJit.Sroa.Accept

/-!
# Sroa.Allocas — the nodes for the parts

The first part keeps the old `ALLOCA`; for every other part a new one is put before it on the control chain.
While the chain is cut, the use lists are the inverse of the edges but for the control edge of the old node.
-/

namespace IrJit.Sroa.Ctx

open Uses (Insns)

/-- `c'` has more instructions and constants than `c`; those of `c` are as they were. -/
structure Grown (c c' : Ctx) : Prop where
  tight : c.insns.Tight → c'.insns.Tight
  count_le : c.insns.insnsCount ≤ c'.insns.insnsCount
  heads : c.insns.Tight → ∀ u < c.insns.insnsCount, u ∈ c'.insns.heads ↔ u ∈ c.insns.heads
  op : ∀ u < c.insns.insnsCount, c'.op u = c.op u
  inputsCount : ∀ u < c.insns.insnsCount, c'.insns.inputsCount u = c.insns.inputsCount u
  word : ∀ x < 4 * c.insns.insnsCount, c'.insns.word x = c.insns.word x
  consts_le : c.constsCount ≤ c'.constsCount
  val : ∀ k, -(c.constsCount : ℤ) < k → c'.val k = c.val k
  type : ∀ k, -(c.constsCount : ℤ) < k → k < c.insns.insnsCount → c'.type k = c.type k

/-- An `ALLOCA` of `s` bytes. -/
structure Part (c : Ctx) (ref s : ℕ) : Prop where
  mem : ref ∈ c.insns.heads
  op : c.op ref = .alloca
  inputsCount : c.insns.inputsCount ref = 2
  const : c.insnOp ref 2 < 0 ∧ -(c.constsCount : ℤ) < c.insnOp ref 2
  size : (c.val (c.insnOp ref 2)).toNat = s

variable {c c' c'' : Ctx} {var : ℕ}

theorem Grown.refl (c : Ctx) : Grown c c :=
  ⟨fun h => h, le_refl _, fun _ _ _ => Iff.rfl, fun _ _ => rfl, fun _ _ => rfl, fun _ _ => rfl, le_refl _,
    fun _ _ => rfl, fun _ _ _ => rfl⟩

theorem Grown.trans (h : Grown c c') (h' : Grown c' c'') : Grown c c'' where
  tight ht := h'.tight (h.tight ht)
  count_le := h.count_le.trans h'.count_le
  heads ht u hu := (h'.heads (h.tight ht) u (lt_of_lt_of_le hu h.count_le)).trans (h.heads ht u hu)
  op u hu := (h'.op u (lt_of_lt_of_le hu h.count_le)).trans (h.op u hu)
  inputsCount u hu := (h'.inputsCount u (lt_of_lt_of_le hu h.count_le)).trans (h.inputsCount u hu)
  word x hx := (h'.word x (by have := h.count_le; omega)).trans (h.word x hx)
  consts_le := h.consts_le.trans h'.consts_le
  val k hk := (h'.val k (by have := h.consts_le; omega)).trans (h.val k hk)
  type k hk hlt := (h'.type k (by have := h.consts_le; omega) (by have := h.count_le; omega)).trans
    (h.type k hk hlt)

/-- The operands of the first slot of an old instruction. -/
theorem Grown.insnOp (h : Grown c c') {u j : ℕ} (hu : u < c.insns.insnsCount) (hj : j ≤ 3) :
    c'.insnOp u j = c.insnOp u j :=
  h.word (4 * u + j) (by omega)

theorem Part.grown (hp : c.Part var s) (ht : c.insns.Tight) (h : Grown c c') : c'.Part var s := by
  have hlt := (Insns.mem_heads.mp hp.mem).2
  have hop2 := h.insnOp hlt (show 2 ≤ 3 by omega)
  have hle := h.consts_le
  refine ⟨(h.heads ht var hlt).mpr hp.mem, (h.op var hlt).trans hp.op,
    (h.inputsCount var hlt).trans hp.inputsCount, ?_, ?_⟩
  · rw [hop2]
    have := hp.const
    omega
  · rw [hop2, h.val _ hp.const.2]
    exact hp.size

theorem constSizeT_spec (c : Ctx) (hc : 1 ≤ c.constsCount) {n : ℕ} (hn : n < 2 ^ 64) :
    (c.constSizeT n).2.uses = c.uses ∧ Grown c (c.constSizeT n).2 ∧ (c.constSizeT n).1 < 0 ∧
      -((c.constSizeT n).2.constsCount : ℤ) < (c.constSizeT n).1 ∧
      ((c.constSizeT n).2.val (c.constSizeT n).1).toNat = n := by
  unfold constSizeT
  split
  · rename_i i hfind
    have hmem := List.mem_range'_1.mp (List.mem_of_find?_eq_some hfind)
    have hval := List.find?_some hfind
    simp only [decide_eq_true_eq] at hval
    refine ⟨rfl, Grown.refl c, by simp only; omega, by simp only; omega, ?_⟩
    simp only [hval.2, BitVec.toNat_ofNat]
    exact Nat.mod_eq_of_lt hn
  · refine ⟨rfl, ⟨fun h => h, le_refl _, fun _ _ _ => Iff.rfl, fun _ _ => rfl, fun _ _ => rfl, fun _ _ => rfl,
      Nat.le_succ _, fun k hk => ?_, fun k hk _ => ?_⟩, by simp only; omega, by simp only; push_cast; omega, ?_⟩
    · exact Function.update_of_ne (by omega) _ _
    · exact Function.update_of_ne (by omega) _ _
    · simp only [Function.update_self, BitVec.toNat_ofNat]
      exact Nat.mod_eq_of_lt hn

/-- The use lists with the control chain cut before `var`. -/
def cut (c : Ctx) (var : ℕ) : Uses.Ctx := { c.uses with insns := c.uses.insns.insnSetOp var 1 0 }

theorem emit2_insnSetOp {I : Insns} {op : IrOp} {op1 op2 val : ℤ} {j : ℕ} (hvar : var < I.insnsCount)
    (hj : j ≤ 3) :
    (I.emit2 op op1 op2).insnSetOp var j val = (I.insnSetOp var j val).emit2 op op1 op2 := by
  unfold Insns.emit2 Insns.insnSetOp
  congr 1
  dsimp only
  rw [Function.update_comm (a := 4 * I.insnsCount + 3) (by omega),
    Function.update_comm (a := 4 * I.insnsCount + 2) (by omega),
    Function.update_comm (a := 4 * I.insnsCount + 1) (by omega)]

theorem tight_insnSetOp {I : Insns} {j : ℕ} {val : ℤ} : (I.insnSetOp var j val).Tight ↔ I.Tight := Iff.rfl

theorem nextEntry_spec {sizes : ℕ → ℕ} {fuel i o : ℕ} (hle : i ≤ o) (hzero : ∀ k, i ≤ k → k < o → sizes k = 0)
    (hne : sizes o ≠ 0) (hfuel : o < i + fuel) : nextEntry sizes fuel i = some o := by
  induction fuel generalizing i with
  | zero => omega
  | succ fuel ih =>
    rw [nextEntry]
    rcases hle.lt_or_eq with hlt | rfl
    · rw [if_pos (hzero i (le_refl i) hlt)]
      exact ih hlt (fun k hk hk' => hzero k (by omega) hk') (by omega)
    · rw [if_neg hne]

/-- The entries of `sizes` above `i` are those of the list. -/
structure Remaining (sizes : ℕ → ℕ) (size i : ℕ) (rem : List ℕ) : Prop where
  sorted : rem.Pairwise (· < ·)
  mem : ∀ k, k ∈ rem ↔ (i < k ∧ k < size) ∧ sizes k ≠ 0

theorem Remaining.next {sizes : ℕ → ℕ} {size i o : ℕ} {rem : List ℕ}
    (h : Remaining sizes size i (o :: rem)) : nextEntry sizes (size + 1) (i + 1) = some o := by
  obtain ⟨⟨hlt, hsize⟩, hne⟩ := (h.mem o).mp List.mem_cons_self
  refine nextEntry_spec hlt (fun k hk hk' => ?_) hne (by omega)
  by_contra hk0
  have hmem := (h.mem k).mpr ⟨⟨by omega, by omega⟩, hk0⟩
  rcases List.mem_cons.mp hmem with rfl | hmem
  · omega
  · have := (List.pairwise_cons.mp h.sorted).1 k hmem
    omega

theorem Remaining.tail {sizes : ℕ → ℕ} {size i o v : ℕ} {rem : List ℕ}
    (h : Remaining sizes size i (o :: rem)) : Remaining (Function.update sizes o v) size o rem := by
  obtain ⟨hfirst, hsorted⟩ := List.pairwise_cons.mp h.sorted
  obtain ⟨⟨hlt, hsize⟩, _⟩ := (h.mem o).mp List.mem_cons_self
  refine ⟨hsorted, fun k => ⟨fun hk => ?_, fun ⟨⟨hlo, hhi⟩, hne⟩ => ?_⟩⟩
  · have hk' := (h.mem k).mp (List.mem_cons_of_mem o hk)
    have hko := hfirst k hk
    exact ⟨⟨hko, hk'.1.2⟩, by rw [Function.update_of_ne (by omega)]; exact hk'.2⟩
  · rw [Function.update_of_ne (by omega)] at hne
    have := (h.mem k).mpr ⟨⟨by omega, hhi⟩, hne⟩
    exact (List.mem_cons.mp this).resolve_left (by omega)

/-- One new `ALLOCA` at the end of the cut chain. -/
def addAlloca (c : Ctx) (prev n : ℕ) : Ctx :=
  { (c.constSizeT n).2 with
    uses := (Uses.useListAdd { (c.constSizeT n).2.uses with
        insns := (c.constSizeT n).2.uses.insns.emit2 .alloca prev (c.constSizeT n).1 } prev
      (c.constSizeT n).2.uses.insns.insnsCount).2
    type := Function.update (c.constSizeT n).2.type (c.constSizeT n).2.uses.insns.insnsCount .addr }

theorem addAlloca_insns (c : Ctx) (prev n : ℕ) :
    (c.addAlloca prev n).insns = (c.constSizeT n).2.insns.emit2 .alloca prev (c.constSizeT n).1 := by
  unfold Ctx.insns addAlloca
  rw [Uses.useListAdd_withInsns]

theorem grown_emit (c : Ctx) (prev : ℕ) (k : ℤ) {uses : Uses.Ctx}
    (huses : uses.insns = c.insns.emit2 .alloca prev k) :
    Grown c { c with uses := uses, type := Function.update c.type c.insns.insnsCount .addr } where
  tight h := by
    show uses.insns.Tight
    rw [huses]
    exact h.emit2
  count_le := by
    show _ ≤ uses.insns.insnsCount
    rw [huses]
    exact Nat.le_succ _
  heads h u hu := by
    show u ∈ uses.insns.heads ↔ _
    rw [huses, Insns.mem_heads_emit2 h]
    exact ⟨fun hmem => hmem.resolve_right (by omega), Or.inl⟩
  op u hu := by
    show uses.insns.op u = _
    rw [huses]
    exact Function.update_of_ne (by omega) _ _
  inputsCount u hu := by
    show uses.insns.inputsCount u = _
    rw [huses]
    exact Function.update_of_ne (by omega) _ _
  word x hx := by
    show uses.insns.word x = _
    rw [huses]
    show Function.update _ _ _ x = _
    rw [Function.update_of_ne (by omega), Function.update_of_ne (by omega), Function.update_of_ne (by omega)]
  consts_le := le_refl _
  val _ _ := rfl
  type k hk hlt := Function.update_of_ne (by omega) _ _

/-- The new node is there, and the lists are the inverse of the edges but for the cut. -/
theorem addAlloca_spec (hV : Uses.Inverse (c.cut var)) (ht : c.insns.Tight) (hvar : var < c.insns.insnsCount)
    (hc : 1 ≤ c.constsCount) (prev : ℕ) {n : ℕ} (hn : n < 2 ^ 64) :
    Grown c (c.addAlloca prev n) ∧ Uses.Inverse ((c.addAlloca prev n).cut var) ∧
      (c.addAlloca prev n).insns.insnsCount = c.insns.insnsCount + 1 ∧
      (∀ d, d ≠ prev → (c.addAlloca prev n).uses.uses d = c.uses.uses d) ∧
      (c.addAlloca prev n).Part c.insns.insnsCount n := by
  obtain ⟨huses, hgrown, hk0, hk1, hval⟩ := constSizeT_spec c hc hn
  have hinsns := addAlloca_insns c prev n
  generalize hkc : c.constSizeT n = kc at *
  obtain ⟨k, c₁⟩ := kc
  simp only at huses hgrown hk0 hk1 hval hinsns
  have hdef : c.addAlloca prev n = { c₁ with
      uses := (Uses.useListAdd { c₁.uses with insns := c₁.uses.insns.emit2 .alloca prev k } prev
        c₁.uses.insns.insnsCount).2
      type := Function.update c₁.type c₁.uses.insns.insnsCount .addr } := by
    unfold addAlloca
    rw [hkc]
  have hcount : c₁.insns.insnsCount = c.insns.insnsCount := by rw [Ctx.insns, huses]
  have ht₁ : c₁.insns.Tight := hgrown.tight ht
  refine ⟨?_, ?_, ?_, ?_, ?_⟩
  · rw [hdef]
    refine hgrown.trans (grown_emit c₁ prev k ?_)
    rw [Uses.useListAdd_withInsns]
  · have hcut : (c.addAlloca prev n).cut var =
        (Uses.useListAdd { c.cut var with insns := (c.cut var).insns.emit2 .alloca prev k } prev
          (c.cut var).insns.insnsCount).2 := by
      have hold := Uses.useListAdd_withInsns c.uses (c.uses.insns.emit2 .alloca prev k) prev
        c.uses.insns.insnsCount
      have hnew := Uses.useListAdd_withInsns c.uses ((c.uses.insns.insnSetOp var 1 0).emit2 .alloca prev k) prev
        c.uses.insns.insnsCount
      rw [hdef, huses]
      refine Eq.trans ?_ hnew.symm
      unfold cut
      dsimp only
      rw [hold]
      dsimp only
      rw [emit2_insnSetOp hvar (by omega)]
    rw [hcut]
    exact hV.emit2 (tight_insnSetOp.mpr ht) prev hk0.le
  · rw [hinsns]
    show c₁.insns.insnsCount + 1 = _
    rw [hcount]
  · intro d hd
    have hne : c₁.uses.insns.insnsCount ≠ 0 := Nat.pos_iff_ne_zero.mp (Uses.Reach.le ht₁)
    have hsound := hV.sound.withInsns (c₁.uses.insns.emit2 .alloca prev k)
    rw [hdef, huses] at *
    exact (hsound.useListAdd prev hne).uses_of_ne d hd
  · have hop : ((c.addAlloca prev n).insns.op c.insns.insnsCount) = .alloca := by
      rw [hinsns, ← hcount]
      exact Function.update_self _ _ _
    have hop2 : (c.addAlloca prev n).insnOp c.insns.insnsCount 2 = k := by
      show (c.addAlloca prev n).insns.word _ = _
      rw [hinsns, ← hcount]
      show Function.update _ _ _ _ = _
      rw [Function.update_of_ne (by omega), Function.update_self]
    refine ⟨?_, hop, ?_, ?_, ?_⟩
    · rw [hinsns, Insns.mem_heads_emit2 ht₁]
      exact Or.inr hcount.symm
    · rw [hinsns, ← hcount]
      exact Function.update_self _ _ _
    · rw [hop2, hdef]
      exact ⟨hk0, hk1⟩
    · rw [hop2, hdef]
      exact hval

theorem newAllocas_succ (size n : ℕ) (c : Ctx) (sizes : ℕ → ℕ) (i j prev : ℕ) :
    newAllocas size (n + 1) c sizes i j prev = (nextEntry sizes (size + 1) (i + 1)).bind fun i =>
      newAllocas size n (c.addAlloca prev (sizes i)) (Function.update sizes i (j % 256)) i (j + 1)
        (c.constSizeT (sizes i)).2.insns.insnsCount := rfl

/-- The loop makes one node for every entry that remains, and leaves its index in the table. -/
theorem newAllocas_spec {size : ℕ} (rem : List ℕ) :
    ∀ (c : Ctx) (sizes : ℕ → ℕ) (i j prev : ℕ), Remaining sizes size i rem → Uses.Inverse (c.cut var) →
      c.insns.Tight → var < c.insns.insnsCount → 1 ≤ c.constsCount → (∀ o ∈ rem, sizes o < 2 ^ 64) →
      j + rem.length ≤ 256 →
      ∃ c' sizes' prev', newAllocas size rem.length c sizes i j prev = some (c', sizes', prev') ∧
        Grown c c' ∧ Uses.Inverse (c'.cut var) ∧ (prev' = prev ∨ c.insns.insnsCount ≤ prev') ∧
        c'.insns.insnsCount = c.insns.insnsCount + rem.length ∧
        (∀ d, d < c.insns.insnsCount → d ≠ prev → c'.uses.uses d = c.uses.uses d) ∧
        (∀ o, o ∉ rem → sizes' o = sizes o) ∧
        ∀ m o, rem[m]? = some o →
          sizes' o = j + m ∧ c'.Part (c.insns.insnsCount + m) (sizes o) := by
  induction rem with
  | nil =>
    intro c sizes i j prev _ hV _ _ _ _ _
    exact ⟨c, sizes, prev, rfl, Grown.refl c, hV, Or.inl rfl, rfl, fun _ _ _ => rfl, fun _ _ => rfl, by simp⟩
  | cons o rem ih =>
    intro c sizes i j prev hrem hV ht hvar hc hsizes hj
    obtain ⟨hgrown, hV₁, hcount₁, huses₁, hpart⟩ :=
      addAlloca_spec hV ht hvar hc prev (hsizes o List.mem_cons_self)
    obtain ⟨hfirst, _⟩ := List.pairwise_cons.mp hrem.sorted
    have hnotin : o ∉ rem := fun h => (hfirst o h).ne rfl
    have hsizes' : ∀ k ∈ rem, Function.update sizes o (j % 256) k < 2 ^ 64 := by
      intro k hk
      have hne : k ≠ o := fun e => hnotin (e ▸ hk)
      rw [Function.update_of_ne hne]
      exact hsizes k (List.mem_cons_of_mem o hk)
    rw [List.length_cons] at hj
    have hsame : (c.constSizeT (sizes o)).2.insns.insnsCount = c.insns.insnsCount := by
      rw [Ctx.insns, (constSizeT_spec c hc (hsizes o List.mem_cons_self)).1]
    obtain ⟨c', sizes', prev', hloop, hgrown', hV', hprev', hcount', huses', hkeep, hparts⟩ :=
      ih (c.addAlloca prev (sizes o)) (Function.update sizes o (j % 256)) o (j + 1) c.insns.insnsCount
        hrem.tail hV₁ (hgrown.tight ht) (by omega) (hc.trans hgrown.consts_le) hsizes' (by omega)
    refine ⟨c', sizes', prev', ?_, hgrown.trans hgrown', hV', by omega, ?_, ?_, ?_, ?_⟩
    · rw [List.length_cons, newAllocas_succ, hrem.next, Option.bind_some, hsame]
      exact hloop
    · rw [hcount', hcount₁, List.length_cons]
      omega
    · intro d hd hne
      rw [huses' d (by omega) (by omega), huses₁ d hne]
    · intro k hk
      rw [List.mem_cons, not_or] at hk
      rw [hkeep k hk.2, Function.update_of_ne hk.1]
    · intro m k hm
      rcases m with _ | m
      · simp only [List.getElem?_cons_zero, Option.some.injEq] at hm
        subst hm
        rw [hkeep o hnotin, Function.update_self]
        exact ⟨Nat.mod_eq_of_lt (by omega), hpart.grown (hgrown.tight ht) hgrown'⟩
      · rw [List.getElem?_cons_succ] at hm
        obtain ⟨hindex, hpart'⟩ := hparts m k hm
        have hne : k ≠ o := fun e => hnotin (e ▸ List.mem_of_getElem? hm)
        rw [Function.update_of_ne hne] at hpart'
        refine ⟨by omega, ?_⟩
        rwa [hcount₁, show c.insns.insnsCount + 1 + m = c.insns.insnsCount + (m + 1) by omega] at hpart'

/-- The node of the part at an offset. -/
def target (var firstNew : ℕ) (sizes : ℕ → ℕ) (offset : ℕ) : ℕ :=
  if sizes offset = 0 then var else firstNew + sizes offset - 1

/-- What the first half leaves: a node for every part, with nothing else changed. -/
structure Prepared (c c₂ : Ctx) (L : Layout) (var : ℕ) (sizes : ℕ → ℕ) : Prop where
  inverse : Uses.Inverse c₂.uses
  tight : c₂.insns.Tight
  count_le : c.insns.insnsCount ≤ c₂.insns.insnsCount
  heads : ∀ u < c.insns.insnsCount, u ∈ c₂.insns.heads ↔ u ∈ c.insns.heads
  op : ∀ u < c.insns.insnsCount, c₂.op u = c.op u
  inputsCount : ∀ u < c.insns.insnsCount, c₂.insns.inputsCount u = c.insns.inputsCount u
  insnOp : ∀ u < c.insns.insnsCount, u ≠ var → ∀ j ≤ 3, c₂.insnOp u j = c.insnOp u j
  val : ∀ k, -(c.constsCount : ℤ) < k → c₂.val k = c.val k
  type : ∀ k, -(c.constsCount : ℤ) < k → k < c.insns.insnsCount → c₂.type k = c.type k
  part : ∀ o ∈ L.offsets, c₂.Part (target var c.insns.insnsCount sizes o) (L.sizes o)
  old_or_new : ∀ o ∈ L.offsets, target var c.insns.insnsCount sizes o = var ∨
    c.insns.insnsCount ≤ target var c.insns.insnsCount sizes o
  inj : ∀ o ∈ L.offsets, ∀ o' ∈ L.offsets,
    target var c.insns.insnsCount sizes o = target var c.insns.insnsCount sizes o' → o = o'
  zero : 0 ∈ L.offsets → target var c.insns.insnsCount sizes 0 = var
  other : ∀ o < L.size, o ∉ L.offsets → target var c.insns.insnsCount sizes o = var
  new_op : ∀ u ∈ c₂.insns.heads, c.insns.insnsCount ≤ u → c₂.op u = .alloca
  uses : ∀ d < c.insns.insnsCount, (d : ℤ) ≠ c.insnOp var 1 → c₂.uses.uses d = c.uses.uses d

/-- Setting a constant operand to another constant changes no edge. -/
theorem inverse_setConst {ctx : Uses.Ctx} (V : Uses.Inverse ctx) {u j : ℕ} {k : ℤ}
    (hu : u ∈ ctx.insns.heads) (h1 : 1 ≤ j) (hj : j ≤ ctx.insns.inputsCount u)
    (hold : ctx.insns.insnOp u j ≤ 0) (hk : k ≤ 0) :
    Uses.Inverse { ctx with insns := ctx.insns.insnSetOp u j k } := by
  refine ⟨V.sound.withInsns _, fun d v hd => ?_⟩
  have hedge := Insns.edgeCount_insnSetOp hu h1 hj k d v
  rw [if_neg (by omega), if_neg (by omega)] at hedge
  show (ctx.uses d).count v = (ctx.insns.insnSetOp u j k).edgeCount d v
  rw [V.count d v hd]
  omega

/-- Cutting the control chain before `var`. -/
theorem inverse_cut (V : Uses.Inverse c.uses) (hvar : var ∈ c.insns.heads)
    (hinputs : c.insns.inputsCount var = 2) (hprev : 0 < c.insnOp var 1) :
    Uses.Inverse
      (cut { c with uses := Uses.useListRemoveOne c.uses (c.insnOp var 1).toNat var } var) := by
  have h : Uses.Inverse (Uses.updateOp c.uses var 1 0) :=
    V.updateOp hvar (le_refl 1) (show 1 ≤ c.insns.inputsCount var by omega)
  rw [Uses.updateOp_zero hprev] at h
  unfold cut
  dsimp only
  rw [Uses.useListRemoveOne_insns]
  exact h

/-- Joining the chain again. -/
theorem inverse_join (V : Uses.Inverse (c.cut var)) (hvar : var ∈ c.insns.heads)
    (hinputs : c.insns.inputsCount var = 2) {prev : ℕ} (hprev : 0 < prev) :
    Uses.Inverse (({ c with uses := (Uses.useListAdd c.uses prev var).2 } : Ctx).setOp var 1 prev).uses := by
  have hzero : (c.cut var).insns.insnOp var 1 = 0 := Function.update_self _ _ _
  have h : Uses.Inverse (Uses.updateOp (c.cut var) var 1 prev) :=
    V.updateOp hvar (le_refl 1) (show 1 ≤ c.insns.inputsCount var by omega)
  have hadd : (Uses.useListAdd (c.cut var) prev var).2 =
      { (Uses.useListAdd c.uses prev var).2 with insns := c.uses.insns.insnSetOp var 1 0 } :=
    Uses.useListAdd_withInsns _ _ _ _
  rw [Uses.updateOp_of_zero hzero hprev, hadd] at h
  have hset : (c.cut var).insns.insnSetOp var 1 prev =
      (Uses.useListAdd c.uses prev var).2.insns.insnSetOp var 1 prev := by
    rw [Uses.useListAdd_insns]
    unfold cut Insns.insnSetOp
    dsimp only
    rw [Function.update_idem]
  rw [hset] at h
  exact h

theorem sorted_offsets (L : Layout) : L.offsets.Pairwise (· < ·) :=
  List.Pairwise.filter _ List.pairwise_lt_range

/-- The old node with the size of the first part. -/
theorem setSize_spec {next n : ℕ} (hwf : c.Wf var next) (hn : n < 2 ^ 64) :
    Uses.Inverse ((c.constSizeT n).2.setOp var 2 (c.constSizeT n).1).uses ∧
      ((c.constSizeT n).2.setOp var 2 (c.constSizeT n).1).Part var n := by
  have hc : 1 ≤ c.constsCount := by
    have := hwf.consts var hwf.var_mem 2 (by omega) (by omega)
    have := hwf.var_size
    omega
  obtain ⟨huses, _, hk0, hk1, hval⟩ := constSizeT_spec c hc hn
  have hinputs : (c.constSizeT n).2.uses.insns.inputsCount var = 2 := by
    rw [huses]
    exact hwf.var_inputs
  have hmem : var ∈ (c.constSizeT n).2.uses.insns.heads := by
    rw [huses]
    exact hwf.var_mem
  have hop2 : ((c.constSizeT n).2.setOp var 2 (c.constSizeT n).1).insnOp var 2 = (c.constSizeT n).1 :=
    Function.update_self _ _ _
  refine ⟨?_, ⟨hmem, ?_, hinputs, ?_, ?_⟩⟩
  · refine inverse_setConst ?_ hmem (by omega) (by omega) ?_ hk0.le
    · rw [huses]
      exact hwf.inverse
    · rw [huses]
      exact hwf.var_size.le
  · show (c.constSizeT n).2.uses.insns.op var = _
    rw [huses]
    exact hwf.var_op
  · rw [hop2]
    exact ⟨hk0, hk1⟩
  · rw [hop2]
    exact hval

/-- `c₂` differs from `c₃` in its use lists and the control input of `var`. -/
structure Retied (c₃ c₂ : Ctx) (var : ℕ) : Prop where
  op : c₂.insns.op = c₃.insns.op
  inputsCount : c₂.insns.inputsCount = c₃.insns.inputsCount
  insnsCount : c₂.insns.insnsCount = c₃.insns.insnsCount
  word : ∀ x, x ≠ 4 * var + 1 → c₂.insns.word x = c₃.insns.word x
  val : c₂.val = c₃.val
  type : c₂.type = c₃.type
  constsCount : c₂.constsCount = c₃.constsCount

theorem Retied.heads {c₂ c₃ : Ctx} (h : Retied c₃ c₂ var) : c₂.insns.heads = c₃.insns.heads := by
  unfold Insns.heads
  rw [h.inputsCount, h.insnsCount]

theorem Part.retied {c₂ c₃ : Ctx} (hp : c₃.Part ref s) (h : Retied c₃ c₂ var) : c₂.Part ref s := by
  have hop2 : c₂.insnOp ref 2 = c₃.insnOp ref 2 := h.word _ (by omega)
  refine ⟨h.heads ▸ hp.mem, (congrFun h.op ref).trans hp.op, (congrFun h.inputsCount ref).trans hp.inputsCount,
    ?_, ?_⟩
  · rw [hop2, h.constsCount]
    exact hp.const
  · rw [hop2, h.val]
    exact hp.size

/-- The old node for the first part and new nodes for the others are what is asked for. -/
theorem prepared_of {c₁ c₂ c₃ : Ctx} {L : Layout} {sizes : ℕ → ℕ} {o : ℕ} {rem : List ℕ}
    (hV : Uses.Inverse c₂.uses) (hgrown : Grown c₁ c₃) (ht : c.insns.Tight) (hvar : var < c.insns.insnsCount)
    (hinsns : c₁.insns = c.insns.insnSetOp var 2 (c₁.insnOp var 2)) (hconsts : c.constsCount ≤ c₁.constsCount)
    (hval : ∀ k, -(c.constsCount : ℤ) < k → c₁.val k = c.val k)
    (htype : ∀ k, -(c.constsCount : ℤ) < k → k < c.insns.insnsCount → c₁.type k = c.type k)
    (hret : Retied c₃ c₂ var) (hoffs : L.offsets = o :: rem)
    (hpart : c₁.Part var (L.sizes o)) (hold : sizes o = 0)
    (hnew : ∀ m k, rem[m]? = some k → sizes k = 1 + m ∧ c₃.Part (c.insns.insnsCount + m) (L.sizes k))
    (hother : ∀ k, k ∉ L.offsets → sizes k = L.sizes k)
    (hlen : c₃.insns.insnsCount = c.insns.insnsCount + rem.length)
    (huses : ∀ d < c.insns.insnsCount, (d : ℤ) ≠ c.insnOp var 1 → c₂.uses.uses d = c.uses.uses d) :
    Prepared c c₂ L var sizes := by
  have ht₁ : c₁.insns.Tight := by
    rw [hinsns]
    exact ht
  have hcount : c₁.insns.insnsCount = c.insns.insnsCount := by rw [hinsns]; rfl
  have hheads : c₁.insns.heads = c.insns.heads := by rw [hinsns]; rfl
  have hfirst : ∀ k ∈ rem, o < k := (List.pairwise_cons.mp (hoffs ▸ sorted_offsets L)).1
  have htarget : target var c.insns.insnsCount sizes o = var := if_pos hold
  have htargets : ∀ m k, rem[m]? = some k →
      target var c.insns.insnsCount sizes k = c.insns.insnsCount + m := by
    intro m k hk
    unfold target
    rw [(hnew m k hk).1, if_neg (by omega)]
    omega
  -- the nodes of two parts
  have hcases : ∀ k ∈ L.offsets, k = o ∨ ∃ m : ℕ, rem[m]? = some k := by
    intro k hk
    rw [hoffs] at hk
    rcases List.mem_cons.mp hk with rfl | hk
    · exact Or.inl rfl
    · exact Or.inr (List.getElem?_of_mem hk)
  refine ⟨hV, ?_, ?_, ?_, ?_, ?_, ?_, ?_, ?_, ?_, ?_, ?_, ?_, ?_, ?_, huses⟩
  · unfold Insns.Tight
    rw [hret.inputsCount, hret.insnsCount]
    exact hgrown.tight ht₁
  · rw [hret.insnsCount, ← hcount]
    exact hgrown.count_le
  · intro u hu
    rw [hret.heads, hgrown.heads ht₁ u (by omega), hheads]
  · intro u hu
    refine (congrFun hret.op u).trans ((hgrown.op u (by omega)).trans ?_)
    show c₁.insns.op u = _
    rw [hinsns]
    rfl
  · intro u hu
    rw [hret.inputsCount, hgrown.inputsCount u (by omega), hinsns]
    rfl
  · intro u hu hne j hj
    refine (hret.word _ (by omega)).trans ((hgrown.word _ (by omega)).trans ?_)
    rw [hinsns]
    exact Function.update_of_ne (by omega) _ _
  · intro k hk
    rw [hret.val, hgrown.val k (by omega), hval k hk]
  · intro k hk hlt
    rw [hret.type, hgrown.type k (by omega) (by rw [hcount]; exact hlt), htype k hk hlt]
  · intro k hk
    rcases hcases k hk with rfl | ⟨m, hm⟩
    · rw [htarget]
      exact (hpart.grown ht₁ hgrown).retied hret
    · rw [htargets m k hm]
      exact (hnew m k hm).2.retied hret
  · intro k hk
    rcases hcases k hk with rfl | ⟨m, hm⟩
    · exact Or.inl htarget
    · rw [htargets m k hm]
      exact Or.inr (by omega)
  · intro k hk k' hk' heq
    rcases hcases k hk with rfl | ⟨m, hm⟩ <;> rcases hcases k' hk' with rfl | ⟨m', hm'⟩
    · rfl
    · rw [htarget, htargets m' k' hm'] at heq
      omega
    · rw [htarget, htargets m k hm] at heq
      omega
    · rw [htargets m k hm, htargets m' k' hm'] at heq
      have : m = m' := by omega
      subst this
      rw [hm] at hm'
      exact Option.some.inj hm'
  · intro h0
    rcases hcases 0 h0 with rfl | ⟨m, hm⟩
    · exact htarget
    · have := hfirst 0 (List.mem_of_getElem? hm)
      omega
  · intro k hk hnot
    refine if_pos ((hother k hnot).trans ?_)
    by_contra hne
    exact hnot (Layout.mem_offsets.mpr ⟨hk, hne⟩)
  · intro u hu hle
    rw [hret.heads] at hu
    have hlt := (Insns.mem_heads.mp hu).2
    have hm : u - c.insns.insnsCount < rem.length := by omega
    have hp := (hnew _ _ (List.getElem?_eq_getElem hm)).2.retied hret
    rw [show c.insns.insnsCount + (u - c.insns.insnsCount) = u by omega] at hp
    exact hp.op

/-- The first half returns, and leaves a node for every part. -/
theorem allocateParts_spec {next : ℕ} (hwf : c.Wf var next) {L : Layout} {acc : ℕ → ℕ → Prop}
    (hfits : L.Fits acc) (hcount : 0 < L.count) (hsize : L.size ≤ 256) :
    ∃ c₂ sizes, c.allocateParts L var = some (c₂, sizes) ∧ Prepared c c₂ L var sizes := by
  have hlen := hfits.count (by omega)
  have hsizes : ∀ o ∈ L.offsets, L.sizes o < 2 ^ 64 := by
    intro o ho
    have := (hfits.entry o _ (hfits.access (by omega) o ho)).1
    omega
  have hlen256 : L.offsets.length ≤ 256 := by
    have : L.offsets.length ≤ (List.range L.size).length := List.length_filter_le _ _
    rw [List.length_range] at this
    omega
  have hsorted := sorted_offsets L
  have hmem : ∀ o, o ∈ L.offsets ↔ o < L.size ∧ L.sizes o ≠ 0 := fun o => Layout.mem_offsets
  have hvar := (Insns.mem_heads.mp hwf.var_mem).2
  rcases hoffs : L.offsets with _ | ⟨o, rem⟩
  · rw [hoffs] at hlen
    simp only [List.length_nil] at hlen
    omega
  rw [hoffs] at hlen hsizes hlen256 hsorted hmem
  obtain ⟨hfirst, hsortedRem⟩ := List.pairwise_cons.mp hsorted
  obtain ⟨hoL, hone⟩ := (hmem o).mp List.mem_cons_self
  have hnext : nextEntry L.sizes (L.size + 1) 0 = some o := by
    refine nextEntry_spec (Nat.zero_le o) (fun k _ hk => ?_) hone (by omega)
    by_contra hk0
    rcases List.mem_cons.mp ((hmem k).mpr ⟨by omega, hk0⟩) with rfl | hkm
    · omega
    · have := hfirst k hkm
      omega
  have hn := hsizes o List.mem_cons_self
  obtain ⟨hV₁, hpart₁⟩ := setSize_spec hwf hn
  have hc : 1 ≤ c.constsCount := by
    have := hwf.consts var hwf.var_mem 2 (by omega) (by omega)
    have := hwf.var_size
    omega
  obtain ⟨huses, hgrown₀, hk0, hk1, _⟩ := constSizeT_spec c hc hn
  generalize hkc : c.constSizeT (L.sizes o) = kc at *
  obtain ⟨k, c₀⟩ := kc
  dsimp only at huses hgrown₀ hk0 hk1 hV₁ hpart₁
  have hinsns : (c₀.setOp var 2 k).insns = c.insns.insnSetOp var 2 ((c₀.setOp var 2 k).insnOp var 2) := by
    have hop2 : (c₀.setOp var 2 k).insnOp var 2 = k := Function.update_self _ _ _
    rw [hop2]
    show c₀.uses.insns.insnSetOp var 2 k = _
    rw [huses]
  have hop1 : (c₀.setOp var 2 k).insnOp var 1 = c.insnOp var 1 := by
    refine (Function.update_of_ne (by omega) _ _).trans ?_
    rw [huses]
    rfl
  have hparts : c.allocateParts L var =
      if L.count > 1 then
        (newAllocas L.size (L.count - 1)
          { c₀.setOp var 2 k with
            uses := Uses.useListRemoveOne (c₀.setOp var 2 k).uses ((c₀.setOp var 2 k).insnOp var 1).toNat var }
          (Function.update L.sizes o 0) o 1 ((c₀.setOp var 2 k).insnOp var 1).toNat).bind fun r =>
          some (({ r.1 with uses := (Uses.useListAdd r.1.uses r.2.2 var).2 } : Ctx).setOp var 1 r.2.2, r.2.1)
      else some (c₀.setOp var 2 k, Function.update L.sizes o 0) := by
    unfold allocateParts
    rw [hnext]
    simp only [Option.bind_eq_bind, Option.bind_some, hkc]
  rw [hparts]
  by_cases hmany : L.count > 1
  · rw [if_pos hmany]
    have hlenRem : L.count - 1 = rem.length := by
      rw [List.length_cons] at hlen
      omega
    have hrem : Remaining (Function.update L.sizes o 0) L.size o rem := by
      refine ⟨hsortedRem, fun x => ⟨fun hx => ?_, fun ⟨⟨hlo, hhi⟩, hne⟩ => ?_⟩⟩
      · have hox := hfirst x hx
        rw [Function.update_of_ne (by omega)]
        have := (hmem x).mp (List.mem_cons_of_mem o hx)
        exact ⟨⟨hox, this.1⟩, this.2⟩
      · rw [Function.update_of_ne (by omega)] at hne
        exact (List.mem_cons.mp ((hmem x).mpr ⟨hhi, hne⟩)).resolve_left (by omega)
    have hprev := hwf.var_control.1
    have hcutV := inverse_cut hV₁ hpart₁.mem hpart₁.inputsCount (by rw [hop1]; exact hprev)
    have hsizes₁ : ∀ x ∈ rem, Function.update L.sizes o 0 x < 2 ^ 64 := by
      intro x hx
      have hox := hfirst x hx
      rw [Function.update_of_ne (by omega)]
      exact hsizes x (List.mem_cons_of_mem o hx)
    set c₁ : Ctx := { c₀.setOp var 2 k with
      uses := Uses.useListRemoveOne (c₀.setOp var 2 k).uses ((c₀.setOp var 2 k).insnOp var 1).toNat var } with hc₁
    have hinsns₁ : c₁.insns = (c₀.setOp var 2 k).insns := Uses.useListRemoveOne_insns _ _ _
    have hcount₁ : c₁.insns.insnsCount = c.insns.insnsCount := by
      rw [hinsns₁, hinsns]
      rfl
    have ht₁ : c₁.insns.Tight := by
      rw [hinsns₁, hinsns]
      exact hwf.tight
    obtain ⟨c₃, sizes₃, prev₃, hloop, hgrown, hV₃, hprev₃, hcount₃, huses₃, hkeep, hnew⟩ :=
      newAllocas_spec rem c₁ (Function.update L.sizes o 0) o 1 ((c₀.setOp var 2 k).insnOp var 1).toNat hrem
        hcutV ht₁ (by omega) (hc.trans hgrown₀.consts_le) hsizes₁ (by rw [List.length_cons] at hlen256; omega)
    have hpart₁' : c₁.Part var (L.sizes o) := by
      have hret : Retied (c₀.setOp var 2 k) c₁ var :=
        ⟨by rw [hinsns₁], by rw [hinsns₁], by rw [hinsns₁], fun _ _ => by rw [hinsns₁], rfl, rfl, rfl⟩
      exact hpart₁.retied hret
    have hpart₃ := hpart₁'.grown ht₁ hgrown
    rw [hlenRem, hloop, Option.bind_some]
    dsimp only
    rw [hop1] at hprev₃ huses₃
    refine ⟨_, _, rfl, prepared_of (inverse_join hV₃ hpart₃.mem hpart₃.inputsCount (by omega)) hgrown hwf.tight
      hvar ?_ hgrown₀.consts_le hgrown₀.val hgrown₀.type ?_ hoffs hpart₁' ?_ ?_ ?_ ?_ ?_⟩
    · rw [hinsns₁, hinsns]
      congr 1
      show (c₀.setOp var 2 k).insns.insnOp var 2 = c₁.insns.insnOp var 2
      rw [hinsns₁]
    · have hadd : (Uses.useListAdd c₃.uses prev₃ var).2.insns = c₃.uses.insns := Uses.useListAdd_insns _ _ _
      refine ⟨?_, ?_, ?_, fun x hx => ?_, rfl, rfl, rfl⟩
      · show (Uses.useListAdd c₃.uses prev₃ var).2.insns.op = _
        rw [hadd]
      · show (Uses.useListAdd c₃.uses prev₃ var).2.insns.inputsCount = _
        rw [hadd]
      · show (Uses.useListAdd c₃.uses prev₃ var).2.insns.insnsCount = _
        rw [hadd]
      · refine (Function.update_of_ne hx _ _).trans ?_
        rw [hadd]
    · rw [hkeep o (fun h => (hfirst o h).ne rfl), Function.update_self]
    · intro m x hx
      obtain ⟨hindex, hpart⟩ := hnew m x hx
      have hox := hfirst x (List.mem_of_getElem? hx)
      rw [Function.update_of_ne (by omega), hcount₁] at hpart
      exact ⟨hindex, hpart⟩
    · intro x hx
      rw [hoffs, List.mem_cons, not_or] at hx
      rw [hkeep x hx.2, Function.update_of_ne hx.1]
    · rw [hcount₃, hcount₁]
    · intro d hd hne
      have hadd := (hV₃.sound.withInsns c₃.uses.insns).useListAdd prev₃
        (Nat.pos_iff_ne_zero.mp (Insns.heads_pos hwf.var_mem))
      have hrem := hV₁.sound.useListRemoveOne ((c₀.setOp var 2 k).insnOp var 1).toNat var
      refine (hadd.uses_of_ne d (by omega)).trans ((huses₃ d (by omega) (by omega)).trans ?_)
      refine (hrem.uses_of_ne d (by omega)).trans ?_
      show c₀.uses.uses d = _
      rw [huses]
  · rw [if_neg hmany]
    have hnil : rem = [] := by
      rw [List.length_cons] at hlen
      exact List.length_eq_zero_iff.mp (by omega)
    refine ⟨_, _, rfl, prepared_of hV₁ (Grown.refl _) hwf.tight hvar hinsns hgrown₀.consts_le hgrown₀.val
      hgrown₀.type ⟨rfl, rfl, rfl, fun _ _ => rfl, rfl, rfl, rfl⟩ hoffs hpart₁ (Function.update_self _ _ _) ?_ ?_ ?_ ?_⟩
    · rw [hnil]
      simp
    · intro x hx
      rw [hoffs, List.mem_cons, not_or] at hx
      exact Function.update_of_ne hx.1 _ _
    · rw [hinsns, hnil]
      rfl
    · intro d _ _
      show c₀.uses.uses d = _
      rw [huses]

end IrJit.Sroa.Ctx
