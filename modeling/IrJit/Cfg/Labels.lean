import IrJit.Cfg.LayoutSpec

/-!
# Cfg.Labels — the labels in the text of the C back end (`ir_emit_func`)

The text of a block starts with a label, if it gets one, and names labels by `goto` and by the `&&` of the
`LABEL` constants it prints.  A `goto` names the first non-empty block on its way; `&&` names the block that
starts with the constant, be it empty or not.
-/

namespace IrJit.Cfg

/-- The text of a block: its label, the `goto`s with the edges they stand for, and the `LABEL` constants. -/
structure BlockText where
  block : ℕ
  label : Bool
  gotos : List (ℕ × ℕ)
  constants : List ℤ

namespace Blocks

variable (c : Blocks)

/-- `ir_resolve_label_syms`: the number that ends up in `val.u32_hi` of the constant `k`. -/
def resolveLabelSym (k : ℤ) : ℕ :=
  (List.range' 1 c.blocksCount).foldl
    (fun hi b => if c.startOp b = .beginOp ∧ c.startOp2 b ≠ 0 ∧ c.startOp2 b = k then b else hi) 0

/-- The `goto`s of a `SWITCH`, one for each case. -/
def switchGotos (fuel : ℕ) : List ℕ → Option (List (ℕ × ℕ))
  | [] => some []
  | y :: ys => do
    let t ← c.skipEmptyBlocks fuel y
    let rest ← switchGotos fuel ys
    some ((y, t) :: rest)

/-- The `goto`s at the end of a block; `IGOTO` and `IJMP` are `goto *`. -/
def gotos (fuel b next : ℕ) : Option (List (ℕ × ℕ)) :=
  match c.endOp b with
  | .endOp | .loopEnd => do
    let target ← c.skipEmptyBlocks fuel (c.successor b)
    some (if target ≠ next then [(c.successor b, target)] else [])
  | .ifOp => do
    let (trueBlock, falseBlock) ← c.trueFalseBlocks fuel b
    some <|
      if trueBlock = next then [((c.ifSuccessors b).2, falseBlock)]
      else if falseBlock = next then [((c.ifSuccessors b).1, trueBlock)]
      else [((c.ifSuccessors b).1, trueBlock), ((c.ifSuccessors b).2, falseBlock)]
  | .switch => c.switchGotos fuel (c.graph.successors b)
  | _ => some []

section Emission

/- The `LABEL` constants that the text of a block prints. -/
variable (constants : ℕ → List ℤ) (schedule : Option (List ℕ)) (fuel : ℕ)

/-- The loop over the blocks, from the position `p` on; `prev` is the block emitted before. -/
def blockTexts : ℕ → ℕ → List ℕ → Option (List BlockText)
  | _, _, [] => some []
  | p, prev, b :: rest =>
    if c.emptyBlock b then blockTexts (p + 1) prev rest
    else do
      let gotos ← c.gotos fuel b (c.nextBlock schedule p)
      let texts ← blockTexts (p + 1) b rest
      some (⟨b, c.labelled .c prev b, gotos, constants b⟩ :: texts)

/-- The text of a function. -/
def emitFunc : Option (List BlockText) := c.blockTexts constants schedule fuel 1 0 (c.order schedule)

end Emission

/-- The label of block `n` is defined in the text, and only once. -/
def DefinedOnce (text : List BlockText) (n : ℕ) : Prop :=
  (text.filter fun t => t.block = n && t.label).length = 1

/-- Every label that the text names is defined in it once: a `goto` names the first non-empty block of its edge,
and `&&` the block that starts with the constant. -/
def LabelsComplete (text : List BlockText) : Prop :=
  ∀ t ∈ text,
    (∀ e ∈ t.gotos, e.1 ∈ c.exits .c t.block ∧ c.FirstNonEmpty e.1 e.2 ∧ DefinedOnce text e.2) ∧
    ∀ k ∈ t.constants, c.startOp (c.resolveLabelSym k) = .beginOp ∧ c.startOp2 (c.resolveLabelSym k) = k ∧
      DefinedOnce text (c.resolveLabelSym k)

/-- Block `b` is the last one that starts with the constant `k`. -/
def LabelBlock (k : ℤ) (b : ℕ) : Prop :=
  (1 ≤ b ∧ b ≤ c.blocksCount) ∧ (c.startOp b = .beginOp ∧ c.startOp2 b = k) ∧
    ∀ b', b < b' → b' ≤ c.blocksCount → ¬(c.startOp b' = .beginOp ∧ c.startOp2 b' = k)

variable {c : Blocks} {constants : ℕ → List ℤ} {schedule : Option (List ℕ)} {fuel b n p prev t y : ℕ} {k : ℤ}
  {l pre rest : List ℕ} {text : List BlockText}

/-! ## The constants -/

/-- The last element with a property wins. -/
theorem foldl_last {P : ℕ → Prop} [DecidablePred P] (l : List ℕ) (d : ℕ) :
    (l.foldl (fun hi b => if P b then b else hi) d = d ∧ ∀ b ∈ l, ¬P b) ∨
      ∃ pre b rest, l = pre ++ b :: rest ∧ P b ∧ (∀ b' ∈ rest, ¬P b') ∧
        l.foldl (fun hi b => if P b then b else hi) d = b := by
  induction l generalizing d with
  | nil => exact .inl ⟨rfl, by simp⟩
  | cons a l ih =>
    rw [List.foldl_cons]
    rcases ih (if P a then a else d) with ⟨heq, hnone⟩ | ⟨pre, b, rest, rfl, hb, hrest, heq⟩
    · by_cases ha : P a
      · rw [if_pos ha] at heq ⊢
        exact .inr ⟨[], a, l, rfl, ha, hnone, heq⟩
      · rw [if_neg ha] at heq ⊢
        exact .inl ⟨heq, by simpa [ha] using hnone⟩
    · exact .inr ⟨a :: pre, b, rest, rfl, hb, hrest, heq⟩

theorem LabelBlock.unique {b' : ℕ} (h : c.LabelBlock k b) (h' : c.LabelBlock k b') : b = b' := by
  rcases Nat.lt_trichotomy b b' with hlt | heq | hgt
  · exact absurd h'.2.1 (h.2.2 b' hlt h'.1.2)
  · exact heq
  · exact absurd h.2.1 (h'.2.2 b hgt h.1.2)

/-- The constant gets the last block that starts with it, if there is one. -/
theorem resolveLabelSym_spec (hk : k ≠ 0) :
    (c.resolveLabelSym k = 0 ∧ ∀ b, ¬c.LabelBlock k b) ∨ c.LabelBlock k (c.resolveLabelSym k) := by
  unfold resolveLabelSym
  rcases foldl_last (P := fun b => c.startOp b = .beginOp ∧ c.startOp2 b ≠ 0 ∧ c.startOp2 b = k)
    (List.range' 1 c.blocksCount) 0 with ⟨heq, hnone⟩ | ⟨pre, b, rest, hl, hb, hrest, heq⟩
  · refine .inl ⟨heq, fun b h => hnone b ?_ ⟨h.2.1.1, by rw [h.2.1.2]; exact hk, h.2.1.2⟩⟩
    rw [List.mem_range'_1]
    have := h.1
    omega
  · rw [heq]
    have hmem : b ∈ List.range' 1 c.blocksCount := by
      rw [hl]
      exact List.mem_append_right pre List.mem_cons_self
    rw [List.mem_range'_1] at hmem
    refine .inr ⟨by omega, ⟨hb.1, hb.2.2⟩, fun b' hlt hle hb' => ?_⟩
    -- the blocks in front of `b` are the smaller ones
    have hsorted : (pre ++ b :: rest).Pairwise (· < ·) := by
      rw [← hl]
      exact List.pairwise_lt_range'
    have hmem' : b' ∈ pre ++ b :: rest := by
      rw [← hl, List.mem_range'_1]
      omega
    rcases List.mem_append.mp hmem' with hpre | hmem'
    · have := (List.pairwise_append.mp hsorted).2.2 b' hpre b List.mem_cons_self
      omega
    · rcases List.mem_cons.mp hmem' with rfl | hrest'
      · exact absurd hlt (lt_irrefl _)
      · exact hrest b' hrest' ⟨hb'.1, by rw [hb'.2]; exact hk, hb'.2⟩

theorem resolveLabelSym_eq (hk : k ≠ 0) (h : c.LabelBlock k b) : c.resolveLabelSym k = b := by
  rcases resolveLabelSym_spec (c := c) hk with ⟨-, hnone⟩ | hlast
  · exact absurd h (hnone b)
  · exact hlast.unique h

/-! ## The `goto`s -/

theorem switchGotos_spec {ys : List ℕ} {gs : List (ℕ × ℕ)} (h : c.switchGotos fuel ys = some gs)
    (hmem : (y, t) ∈ gs) : y ∈ ys ∧ c.FirstNonEmpty y t := by
  induction ys generalizing gs with
  | nil =>
    rw [switchGotos, Option.some.injEq] at h
    rw [← h] at hmem
    exact absurd hmem List.not_mem_nil
  | cons a ys ih =>
    simp only [switchGotos, Option.bind_eq_bind, Option.bind_eq_some_iff, Option.some.injEq] at h
    obtain ⟨t', ht', tail, htail, rfl⟩ := h
    rcases List.mem_cons.mp hmem with heq | hmem
    · obtain ⟨rfl, rfl⟩ := Prod.mk.inj heq
      exact ⟨List.mem_cons_self, skipEmptyBlocks_first ht'⟩
    · obtain ⟨hys, hfirst⟩ := ih htail hmem
      exact ⟨List.mem_cons_of_mem a hys, hfirst⟩

/-- A `goto` names the first non-empty block on its way.  When this is the next block, too, another way falls
through to it. -/
theorem gotos_spec (S : c.Shape .c) (hb : 1 ≤ b ∧ b ≤ c.blocksCount) {next : ℕ} {gs : List (ℕ × ℕ)}
    (h : c.gotos fuel b next = some gs) (hmem : (y, t) ∈ gs) :
    y ∈ c.exits .c b ∧ c.FirstNonEmpty y t ∧
      (c.FallsThrough b → t = next → ∃ y' ∈ c.exits .c b, y' ≠ y ∧ c.FirstNonEmpty y' t) := by
  unfold gotos at h
  cases hop : c.endOp b with
  | ifOp =>
    have hexits : c.exits .c b = [(c.ifSuccessors b).1, (c.ifSuccessors b).2] := by
      rw [exits, hop]
    simp only [hop, trueFalseBlocks, Option.bind_eq_bind, Option.bind_eq_some_iff, Option.some.injEq] at h
    obtain ⟨⟨trueBlock, falseBlock⟩, ⟨t', ht', f', hf', heq⟩, rfl⟩ := h
    obtain ⟨rfl, rfl⟩ := Prod.mk.inj heq
    have htrue := skipEmptyBlocks_first ht'
    have hfalse := skipEmptyBlocks_first hf'
    have hne := (S.ifSuccessors hb hop).2.2
    rw [hexits]
    split_ifs at hmem with hnext hnext'
    · obtain ⟨rfl, rfl⟩ := Prod.mk.inj (List.mem_singleton.mp hmem)
      refine ⟨by simp, hfalse, fun _ ht => ⟨_, List.mem_cons_self, hne, ?_⟩⟩
      rw [ht, ← hnext]
      exact htrue
    · obtain ⟨rfl, rfl⟩ := Prod.mk.inj (List.mem_singleton.mp hmem)
      exact ⟨by simp, htrue, fun _ ht => absurd ht hnext⟩
    · rcases List.mem_cons.mp hmem with heq | hmem
      · obtain ⟨rfl, rfl⟩ := Prod.mk.inj heq
        exact ⟨by simp, htrue, fun _ ht => absurd ht hnext⟩
      · obtain ⟨rfl, rfl⟩ := Prod.mk.inj (List.mem_singleton.mp hmem)
        exact ⟨by simp, hfalse, fun _ ht => absurd ht hnext'⟩
  | switch =>
    simp only [hop] at h
    obtain ⟨hys, hfirst⟩ := switchGotos_spec h hmem
    exact ⟨by rw [exits, hop]; exact hys, hfirst, fun hfall => by simp [FallsThrough, hop] at hfall⟩
  | endOp | loopEnd =>
    simp only [hop, Option.bind_eq_bind, Option.bind_eq_some_iff, Option.some.injEq] at h
    obtain ⟨t', ht', rfl⟩ := h
    split_ifs at hmem with hnext
    · obtain ⟨rfl, rfl⟩ := Prod.mk.inj (List.mem_singleton.mp hmem)
      exact ⟨by rw [exits, hop]; exact List.mem_singleton_self _, skipEmptyBlocks_first ht',
        fun _ ht => absurd ht hnext⟩
    · exact absurd hmem List.not_mem_nil
  | _ =>
    simp only [hop, Option.some.injEq] at h
    rw [← h] at hmem
    exact absurd hmem List.not_mem_nil

/-! ## The blocks of the text -/

theorem blockTexts_cons (he : c.emptyBlock b = false)
    (h : c.blockTexts constants schedule fuel p prev (b :: rest) = some text) :
    ∃ gs tail, c.gotos fuel b (c.nextBlock schedule p) = some gs ∧
      c.blockTexts constants schedule fuel (p + 1) b rest = some tail ∧
      text = ⟨b, c.labelled .c prev b, gs, constants b⟩ :: tail := by
  rw [blockTexts, if_neg (by simp [he])] at h
  simp only [Option.bind_eq_bind, Option.bind_eq_some_iff, Option.some.injEq] at h
  obtain ⟨gs, hgs, tail, htail, rfl⟩ := h
  exact ⟨gs, tail, hgs, htail, rfl⟩

theorem blockTexts_empty (he : c.emptyBlock b = true) :
    c.blockTexts constants schedule fuel p prev (b :: rest)
      = c.blockTexts constants schedule fuel (p + 1) prev rest := by
  rw [blockTexts, if_pos he]

/-- The text has one entry for each block that is not empty. -/
theorem blockTexts_blocks (h : c.blockTexts constants schedule fuel p prev l = some text) :
    text.map (·.block) = l.filter fun b => !c.emptyBlock b := by
  induction l generalizing p prev text with
  | nil =>
    rw [blockTexts, Option.some.injEq] at h
    rw [← h]
    rfl
  | cons b rest ih =>
    cases he : c.emptyBlock b with
    | true =>
      rw [blockTexts_empty he] at h
      rw [ih h, List.filter_cons_of_neg (by simp [he])]
    | false =>
      obtain ⟨gs, tail, -, htail, rfl⟩ := blockTexts_cons he h
      rw [List.map_cons, ih htail, List.filter_cons_of_pos (by simp [he])]

/-- What the entry of a block consists of. -/
theorem blockTexts_mem {bt : BlockText} (h : c.blockTexts constants schedule fuel p prev l = some text)
    (hmem : bt ∈ text) : ∃ pre rest, l = pre ++ bt.block :: rest ∧ c.emptyBlock bt.block = false ∧
      bt.label = c.labelled .c (c.lastEmitted prev pre) bt.block ∧ bt.constants = constants bt.block ∧
      c.gotos fuel bt.block (c.nextBlock schedule (p + pre.length)) = some bt.gotos := by
  induction l generalizing p prev text with
  | nil =>
    rw [blockTexts, Option.some.injEq] at h
    rw [← h] at hmem
    exact absurd hmem List.not_mem_nil
  | cons b rest ih =>
    cases he : c.emptyBlock b with
    | true =>
      rw [blockTexts_empty he] at h
      obtain ⟨pre, rest', rfl, hne, hlabel, hconstants, hgotos⟩ := ih h hmem
      refine ⟨b :: pre, rest', rfl, hne, ?_, hconstants, ?_⟩
      · rw [hlabel, lastEmitted, lastEmitted, List.foldl_cons, if_pos he]
      · rw [← hgotos, List.length_cons, Nat.add_assoc, Nat.add_comm 1]
    | false =>
      obtain ⟨gs, tail, hgs, htail, rfl⟩ := blockTexts_cons he h
      rcases List.mem_cons.mp hmem with rfl | hmem
      · exact ⟨[], rest, rfl, he, rfl, rfl, hgs⟩
      · obtain ⟨pre, rest', rfl, hne, hlabel, hconstants, hgotos⟩ := ih htail hmem
        refine ⟨b :: pre, rest', rfl, hne, ?_, hconstants, ?_⟩
        · rw [hlabel, lastEmitted, lastEmitted, List.foldl_cons, if_neg (by simp [he])]
        · rw [← hgotos, List.length_cons, Nat.add_assoc, Nat.add_comm 1]

theorem definedOnce_iff (hnd : (text.map (·.block)).Nodup) :
    DefinedOnce text n ↔ ∃ bt ∈ text, bt.block = n ∧ bt.label = true := by
  unfold DefinedOnce
  constructor
  · intro h
    obtain ⟨bt, hbt⟩ := List.length_pos_iff_exists_mem.mp (h ▸ Nat.one_pos)
    rw [List.mem_filter, Bool.and_eq_true, decide_eq_true_iff] at hbt
    exact ⟨bt, hbt⟩
  · rintro ⟨bt, hmem, rfl, hlabel⟩
    obtain ⟨pre, rest, rfl⟩ := List.append_of_mem hmem
    rw [List.map_append, List.map_cons, List.nodup_middle, List.nodup_cons, List.mem_append, not_or] at hnd
    have hnone : ∀ {l : List BlockText}, bt.block ∉ l.map (·.block) →
        (l.filter fun t => t.block = bt.block && t.label) = [] := by
      intro l hl
      rw [List.filter_eq_nil_iff]
      intro t ht h
      rw [Bool.and_eq_true, decide_eq_true_iff] at h
      exact hl (List.mem_map.mpr ⟨t, ht, h.1⟩)
    rw [List.filter_append, List.filter_cons_of_pos (by simp [hlabel]), hnone hnd.1.1, hnone hnd.1.2]
    rfl

section Function

variable (M : c.Marked) (S : c.Shape .c) (hperm : (c.order schedule).Perm (List.range' 1 c.blocksCount))
  (htext : c.emitFunc constants schedule fuel = some text)
include hperm htext

theorem text_nodup : (text.map (·.block)).Nodup := by
  rw [blockTexts_blocks htext]
  exact (hperm.nodup_iff.mpr List.nodup_range').filter _

/-- The blocks with an entry. -/
theorem mem_text_iff : (∃ bt ∈ text, bt.block = n) ↔ (1 ≤ n ∧ n ≤ c.blocksCount) ∧ c.emptyBlock n = false := by
  have hmem : n ∈ text.map (·.block) ↔ n ∈ c.order schedule ∧ c.emptyBlock n = false := by
    rw [blockTexts_blocks htext, List.mem_filter, Bool.not_eq_true']
  rw [List.mem_map, hperm.mem_iff, List.mem_range'_1] at hmem
  rw [hmem]
  constructor
  · rintro ⟨h, he⟩
    exact ⟨by omega, he⟩
  · rintro ⟨h, he⟩
    exact ⟨by omega, he⟩

/-- The label of a block is defined when every place for it in the order calls for one. -/
theorem defined_of_labelled (hn : 1 ≤ n ∧ n ≤ c.blocksCount) (he : c.emptyBlock n = false)
    (hl : ∀ pre rest, c.order schedule = pre ++ n :: rest → c.labelled .c (c.lastEmitted 0 pre) n = true) :
    DefinedOnce text n := by
  obtain ⟨bt, hmem, rfl⟩ := (mem_text_iff hperm htext).mpr ⟨hn, he⟩
  obtain ⟨pre, rest, horder, -, hlabel, -⟩ := blockTexts_mem htext hmem
  rw [definedOnce_iff (text_nodup hperm htext)]
  exact ⟨bt, hmem, rfl, by rw [hlabel, hl pre rest horder]⟩

include M S

/-- Every `goto` names a label that is defined. -/
theorem gotos_defined {bt : BlockText} (hmem : bt ∈ text) {e : ℕ × ℕ} (he : e ∈ bt.gotos) :
    e.1 ∈ c.exits .c bt.block ∧ c.FirstNonEmpty e.1 e.2 ∧ DefinedOnce text e.2 := by
  obtain ⟨y, t⟩ := e
  have hb := ((mem_text_iff hperm htext).mp ⟨bt, hmem, rfl⟩).1
  obtain ⟨pre, rest, horder, -, -, -, hgotos⟩ := blockTexts_mem htext hmem
  obtain ⟨hy, hfirst, hjump⟩ := gotos_spec S hb hgotos he
  refine ⟨hy, hfirst, ?_⟩
  have hyb := S.exits_mem hb hy
  have hrange := hfirst.range M (c.graph.pred_range y _ ((c.graph.mem_successors _ y).mp hyb)).2
  have hnext : c.nextBlock schedule (1 + pre.length) = c.firstKept rest := by
    rw [nextBlock_eq, horder, Nat.add_comm, ← List.drop_drop, List.drop_left]
    rfl
  rw [hnext] at hjump
  have hnd : (pre ++ bt.block :: rest).Nodup := by
    rw [← horder, hperm.nodup_iff]
    exact List.nodup_range'
  rw [List.nodup_middle, List.nodup_cons, List.mem_append, not_or] at hnd
  refine defined_of_labelled hperm htext hrange hfirst.nonEmpty fun pre' rest' horder' => ?_
  refine target_labelled M S hy hyb hfirst (fun pre₂ rest₂ horder₂ hfall ht => ?_) horder'
  rw [horder, List.append_cons_inj_of_notMem hnd.1.1 hnd.1.2] at horder₂
  rw [← horder₂.2.2] at ht
  exact hjump hfall ht

/-- The labels are complete exactly when each printed constant belongs to a block that is not empty. -/
theorem labelsComplete_iff (hk : ∀ b, ∀ k ∈ constants b, k ≠ 0) :
    c.LabelsComplete text ↔ ∀ b, 1 ≤ b → b ≤ c.blocksCount → c.emptyBlock b = false → ∀ k ∈ constants b,
      ∃ b', c.LabelBlock k b' ∧ c.emptyBlock b' = false := by
  constructor
  · intro h b h1 hn he k hmem
    obtain ⟨bt, hbt, rfl⟩ := (mem_text_iff hperm htext).mpr ⟨⟨h1, hn⟩, he⟩
    obtain ⟨-, -, -, -, -, hconstants, -⟩ := blockTexts_mem htext hbt
    rw [← hconstants] at hmem
    obtain ⟨-, -, hdefined⟩ := (h bt hbt).2 k hmem
    rw [definedOnce_iff (text_nodup hperm htext)] at hdefined
    obtain ⟨bt', hbt', hblock, -⟩ := hdefined
    obtain ⟨hrange, hne⟩ := (mem_text_iff hperm htext).mp ⟨bt', hbt', hblock⟩
    refine ⟨c.resolveLabelSym k, ?_, hne⟩
    rw [hconstants] at hmem
    rcases resolveLabelSym_spec (c := c) (hk _ k hmem) with ⟨h0, -⟩ | hlast
    · rw [h0] at hrange
      exact absurd hrange.1 (Nat.not_succ_le_zero 0)
    · exact hlast
  · intro h bt hbt
    refine ⟨fun e he => gotos_defined M S hperm htext hbt he, fun k hmem => ?_⟩
    obtain ⟨-, -, -, -, -, hconstants, -⟩ := blockTexts_mem htext hbt
    obtain ⟨⟨h1, hn⟩, he⟩ := (mem_text_iff hperm htext).mp ⟨bt, hbt, rfl⟩
    rw [hconstants] at hmem
    obtain ⟨b', hlast, he'⟩ := h bt.block h1 hn he k hmem
    rw [resolveLabelSym_eq (hk _ k hmem) hlast]
    obtain ⟨hrange, ⟨hop, hop2⟩, -⟩ := hlast
    refine ⟨hop, hop2, defined_of_labelled hperm htext hrange he' fun pre rest _ => ?_⟩
    have hne : c.startOp2 b' ≠ 0 := by
      rw [hop2]
      exact hk _ k hmem
    simp [labelled, hop, hne]

end Function

/-- The text of a function names only labels it defines exactly when each `LABEL` constant that it prints is the
start of a block that is not empty. -/
theorem labels_exact (c : Blocks) (onlyEnd dessaMoves : ℕ → Bool) (constants : ℕ → List ℤ)
    (schedule : Option (List ℕ)) (fuel : ℕ) (text : List BlockText) (S : c.Shape .c)
    (hperm : ∀ l, schedule = some l → l.Perm (List.range' 1 c.blocksCount))
    (hk : ∀ b, ∀ k ∈ constants b, k ≠ 0)
    (htext : (c.mark .c onlyEnd dessaMoves).emitFunc constants schedule fuel = some text) :
    (c.mark .c onlyEnd dessaMoves).LabelsComplete text ↔
      ∀ b, 1 ≤ b → b ≤ c.blocksCount → (c.mark .c onlyEnd dessaMoves).emptyBlock b = false →
        ∀ k ∈ constants b, ∃ b', c.LabelBlock k b' ∧ (c.mark .c onlyEnd dessaMoves).emptyBlock b' = false := by
  have horder : ((c.mark .c onlyEnd dessaMoves).order schedule).Perm (List.range' 1 c.blocksCount) := by
    cases schedule with
    | none => exact List.Perm.refl _
    | some l => exact hperm l rfl
  exact labelsComplete_iff (c.mark_marked .c onlyEnd dessaMoves) (S.mark .c onlyEnd dessaMoves) horder htext hk

/-! ### An empty block with its address taken -/

/-- Block `1` goes to block `2` or `3` by an address, and both end with an `END` to block `4`. -/
def igotoGraph : Graph where
  blocksCount := 4
  predecessors b := if b = 2 ∨ b = 3 then [1] else if b = 4 then [2, 3] else []
  successors b := if b = 1 then [2, 3] else if b = 2 ∨ b = 3 then [4] else []
  isEntry _ := false
  pred_range b p h := by
    split_ifs at h
    all_goals
      simp at h
      try omega
  mem_successors p b := by
    split_ifs
    all_goals
      simp
      try omega
  entry_pred b h := by cases h

/-- Its blocks: `2` starts with the constant `-3` and `3` with the constant `-4`. -/
def igotoBlocks : Blocks where
  graph := igotoGraph
  isStart b := b == 1
  isEmpty _ := false
  isLoopHeader _ := false
  prevEmptyEntry _ := false
  loopDepth _ := 0
  startOp b := if b = 1 then .start else if b = 4 then .merge else .beginOp
  startOp2 b := if b = 2 then -3 else if b = 3 then -4 else 0
  startOp3 _ := 0
  endOp b := if b = 1 then .igoto else if b = 4 then .ret else .endOp
  entries := []
  mergeEmptyEntries := false
  irreducibleCfg := false
  unreachableStops := []
  debugGraph := false

theorem igotoBlocks_shape : igotoBlocks.Shape .c where
  no_entry _ _ := rfl
  end_successors b h1 hn h := by
    have hn : b ≤ 4 := hn
    have hb : b = 2 ∨ b = 3 := by
      simp only [igotoBlocks] at h
      split_ifs at h with hb1 hb4
      · simp at h
      · simp at h
      · omega
    simp only [igotoBlocks, igotoGraph]
    rw [if_neg (by omega), if_pos hb]
    exact List.cons_ne_nil _ _
  if_successors b _ _ h := by
    simp only [igotoBlocks] at h
    split_ifs at h
  switch_successors b h := by
    simp only [igotoBlocks] at h
    split_ifs at h
  goto_successors b h y hy := by
    have hb : b = 1 := by
      simp only [igotoBlocks] at h
      split_ifs at h with hb1 hb4
      · exact hb1
      · simp at h
      · simp at h
    subst hb
    simp only [igotoBlocks, igotoGraph, if_pos, List.mem_cons, List.not_mem_nil, or_false] at hy
    rcases hy with rfl | rfl
    · exact ⟨rfl, by decide⟩
    · exact ⟨rfl, by decide⟩

/-- The blocks as the C back end marks them when block `2` has no instruction but its start and its end. -/
def igotoMarked : Blocks := igotoBlocks.mark .c (fun b => b == 2) (fun _ => false)

/-- The text when block `1` prints both constants: block `2` is left out. -/
def igotoText : List BlockText :=
  [⟨1, false, [], [-3, -4]⟩, ⟨3, true, [], []⟩, ⟨4, true, [], []⟩]

/-- The labels of this text are complete exactly when both constants belong to blocks that are not empty. -/
theorem igoto_labels_exact : igotoMarked.LabelsComplete igotoText ↔
    ∀ b, 1 ≤ b → b ≤ 4 → igotoMarked.emptyBlock b = false → ∀ k ∈ if b = 1 then [-3, -4] else [],
      ∃ b', igotoBlocks.LabelBlock k b' ∧ igotoMarked.emptyBlock b' = false :=
  labels_exact igotoBlocks (fun b => b == 2) (fun _ => false) (fun b => if b = 1 then [-3, -4] else []) none 2
    igotoText igotoBlocks_shape (fun _ h => by cases h)
    (fun b k hk => by
      split_ifs at hk
      · simp only [List.mem_cons, List.not_mem_nil, or_false] at hk
        omega
      · exact absurd hk List.not_mem_nil)
    rfl

/-- Block `1` takes the addresses `&&bb2` and `&&bb3`; there is no label `bb2`. -/
theorem igoto_label_undefined : igotoBlocks.Shape .c ∧
    igotoMarked.emitFunc (fun b => if b = 1 then [-3, -4] else []) none 2 = some igotoText ∧
    ¬igotoMarked.LabelsComplete igotoText := by
  refine ⟨igotoBlocks_shape, rfl, fun h => ?_⟩
  obtain ⟨-, -, hdefined⟩ := (h ⟨1, false, [], [-3, -4]⟩ List.mem_cons_self).2 (-3) List.mem_cons_self
  unfold DefinedOnce at hdefined
  exact absurd hdefined (by decide)

end Blocks

end IrJit.Cfg
