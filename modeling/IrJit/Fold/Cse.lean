import IrJit.Fold.Meaning

/-!
# Fold.Cse — the local common subexpression elimination of `ir_fold` (`ir.c`, 872–902 and 1029–1096)

The instructions that left the engine through the CSE are chained, one chain for each opcode.  An
instruction has the distance to the one before it in 16 bits; where that does not fit, the chain is cut.
-/

namespace IrJit.Fold.Cse

/-- The part of `ir_ctx` that the search uses: `prev_insn_offset` of every instruction,
`prev_insn_chain` and `fold_cse_limit`. -/
structure State where
  ctx : Ctx
  offset : ℤ → ℕ
  chain : IrOp → ℤ
  limit : ℤ

/-- The instruction is the one that is asked for. -/
def Same (i : Insn) (q : Question) : Prop :=
  i.op = q.op ∧ i.type = q.type ∧ i.op1 = q.op1 ∧ i.op2 = q.op2 ∧ i.op3 = q.op3

instance (i : Insn) (q : Question) : Decidable (Same i q) := inferInstanceAs (Decidable (_ ∧ _))

/-- The loop of `_ir_fold_cse`. -/
def cseWalk (s : State) (q : Question) (limit : ℤ) : ℕ → ℤ → ℤ
  | 0, _ => 0
  | n + 1, ref =>
    if ref ≥ limit then
      if Same (s.ctx.insn ref) q then ref
      else if s.offset ref = 0 then 0
      else cseWalk s q limit n (ref - s.offset ref)
    else 0

/-- `fold_cse_limit` and the operands: the instruction comes after all of them. -/
def cseLimit (s : State) (q : Question) : ℤ := max (max (max s.limit q.op1) q.op2) q.op3

/-- `_ir_fold_cse`. -/
def foldCse (s : State) (q : Question) : ℤ :=
  if s.chain q.op ≠ 0 then cseWalk s q (cseLimit s q) ((s.chain q.op).toNat + 1) (s.chain q.op) else 0

/-- `ir_emit`, with the inputs of the instruction in the field of the distance. -/
def emit (s : State) (q : Question) (inputs : ℕ) : State :=
  { s with
    ctx := { s.ctx with insns := s.ctx.insns ++
      [{ op := q.op, type := q.type, op1 := q.op1, op2 := q.op2, op3 := q.op3 }] }
    offset := Function.update s.offset s.ctx.insns.length inputs }

/-- The end of `ir_folding` where the CSE has found nothing: the instruction enters its chain. -/
def emitChained (s : State) (q : Question) : State :=
  let ref : ℤ := s.ctx.insns.length
  let prev := s.chain q.op
  let s' := emit s q 0
  { s' with
    offset := Function.update s'.offset ref
      (if prev = 0 ∨ ref - prev > 0xffff then 0 else (ref - prev).toNat)
    chain := Function.update s.chain q.op ref }

/-- How a call ended. -/
inductive Path
  | const | copy | emit | found | chained
  deriving DecidableEq

/-- `ir_fold` without use lists: the state after the call, the reference it returns and how it ended. -/
def irFold (F : FloatOps) (n : ℕ) (s : State) (q : Question) : Option (State × ℤ × Path) :=
  match folding F n s.ctx q with
  | some (c, q', .const v) => some ({ s with ctx := (c.const v q'.type).1 }, (c.const v q'.type).2, .const)
  | some (c, _, .copy r) => some ({ s with ctx := c }, r, .copy)
  | some (c, q', .emit k) => some (emit { s with ctx := c } q' k, c.insns.length, .emit)
  | some (c, q', .next) =>
    if foldCse { s with ctx := c } q' ≠ 0 then some ({ s with ctx := c }, foldCse { s with ctx := c } q', .found)
    else some (emitChained { s with ctx := c } q', c.insns.length, .chained)
  | _ => none

/-- A caller may ask: the graph is well-formed, there are no use lists, and the operands exist. -/
structure Asks (s : State) (q : Question) : Prop where
  wellFormed : s.ctx.WellFormed
  noUses : s.ctx.useLists = none
  valid : q.valid s.ctx

/-- The states after a sequence of calls, with the instructions that were emitted through the CSE,
the newest first. -/
inductive Reached (F : FloatOps) (s₀ : State) : State → List ℤ → Prop
  | start : Reached F s₀ s₀ []
  | fold {s s' : State} {l : List ℤ} {n : ℕ} {q : Question} {r : ℤ} {p : Path} : Reached F s₀ s l →
    Asks s q → irFold F n s q = some (s', r, p) → Reached F s₀ s' (if p = .chained then r :: l else l)

/-! ## Chains -/

/-- The distances along a chain. -/
def Linked (offset : ℤ → ℕ) : List ℤ → Prop
  | [] => True
  | [a] => offset a = 0
  | a :: b :: l => offset a = (if a - b > 0xffff then 0 else (a - b).toNat) ∧ Linked offset (b :: l)

/-- The newest instruction of a chain. -/
def newest (l : List ℤ) : ℤ := l.headD 0

section Linked

variable {offset offset' : ℤ → ℕ} {l : List ℤ} {a b : ℤ}

theorem Linked.tail (h : Linked offset (a :: l)) : Linked offset l := by
  cases l with
  | nil => trivial
  | cons b l => exact h.2

theorem Linked.congr (h : Linked offset l) (heq : ∀ r ∈ l, offset' r = offset r) : Linked offset' l := by
  induction l with
  | nil => trivial
  | cons a l ih =>
    cases l with
    | nil => exact (heq a (by simp)).trans h
    | cons b l => exact ⟨(heq a (by simp)).trans h.1, ih h.2 fun r hr => heq r (by simp [hr])⟩

/-- Instructions of a chain are positive references, the newest is the highest. -/
structure Falling (l : List ℤ) : Prop where
  pos : ∀ r ∈ l, 0 < r
  sorted : l.Pairwise (· > ·)

theorem Falling.tail (h : Falling (a :: l)) : Falling l :=
  ⟨fun r hr => h.pos r (by simp [hr]), (List.pairwise_cons.1 h.sorted).2⟩

theorem Falling.filter (h : Falling l) (p : ℤ → Bool) : Falling (l.filter p) :=
  ⟨fun r hr => h.pos r (List.mem_filter.1 hr).1, h.sorted.filter p⟩

theorem newest_ne_zero (h : Falling (a :: l)) : newest (a :: l) ≠ 0 := by
  have := h.pos a (by simp)
  show a ≠ 0
  omega

end Linked

/-! ## The search -/

section Search

variable {s : State} {q : Question} {limit : ℤ} {l : List ℤ} {a : ℤ}

/-- What is found is in the chain, not below the limit, and what is asked for. -/
theorem cseWalk_sound (n : ℕ) : ∀ {a l}, Linked s.offset (a :: l) → Falling (a :: l) →
    cseWalk s q limit n a ≠ 0 → cseWalk s q limit n a ∈ a :: l ∧ limit ≤ cseWalk s q limit n a ∧
      Same (s.ctx.insn (cseWalk s q limit n a)) q := by
  induction n with
  | zero => exact fun _ _ h => absurd rfl h
  | succ n ih =>
    intro a l hl hf
    rw [cseWalk]
    split_ifs with hlimit hsame hoff
    · exact fun _ => ⟨by simp, hlimit, hsame⟩
    · exact fun h => absurd rfl h
    · cases l with
      | nil => exact absurd hl hoff
      | cons b l =>
        have hgt : a > b := (List.pairwise_cons.1 hf.sorted).1 b (by simp)
        have hoff' := hl.1
        split_ifs at hoff' with hfar
        · exact absurd hoff' hoff
        have hnext : a - (s.offset a : ℤ) = b := by omega
        rw [hnext]
        intro h
        obtain ⟨hmem, hle, hsame⟩ := ih hl.tail hf.tail h
        exact ⟨List.mem_cons_of_mem _ hmem, hle, hsame⟩
    · exact fun h => absurd rfl h

/-- Consecutive instructions of a chain are close enough. -/
def Close (l : List ℤ) : Prop := l.IsChain fun a b => a - b ≤ 0xffff

/-- Along a chain of close instructions everything from the limit on is found. -/
theorem cseWalk_complete (n : ℕ) : ∀ {a l r}, Linked s.offset (a :: l) → Falling (a :: l) →
    Close (a :: l) → a.toNat < n → r ∈ a :: l → limit ≤ r → Same (s.ctx.insn r) q →
      cseWalk s q limit n a ≠ 0 := by
  induction n with
  | zero => exact fun _ _ _ h => absurd h (Nat.not_lt_zero _)
  | succ n ih =>
    intro a l r hl hf hc hn hr hlimit hsame
    have hpos := hf.pos a (by simp)
    have hge : a ≥ r := by
      rcases List.mem_cons.1 hr with rfl | hr
      · exact le_refl _
      · exact ((List.pairwise_cons.1 hf.sorted).1 r hr).le
    rw [cseWalk, if_pos (hlimit.trans hge)]
    by_cases ha : Same (s.ctx.insn a) q
    · rw [if_pos ha]
      omega
    rw [if_neg ha]
    have hr' : r ∈ l := by
      rcases List.mem_cons.1 hr with rfl | hr
      · exact absurd hsame ha
      · exact hr
    cases l with
    | nil => cases hr'
    | cons b l =>
      have hgt : a > b := (List.pairwise_cons.1 hf.sorted).1 b (by simp)
      have hbpos := hf.pos b (by simp)
      have hclose : a - b ≤ 0xffff := (List.isChain_cons_cons.1 hc).1
      have hoff := hl.1
      rw [if_neg (by omega)] at hoff
      have hnext : a - (s.offset a : ℤ) = b := by omega
      rw [if_neg (by omega), hnext]
      exact ih hl.tail hf.tail (List.isChain_cons_cons.1 hc).2 (by omega) hr' hlimit hsame

end Search

/-! ## Runs -/

section Invariant

variable {F : FloatOps} {s s' : State} {q q' : Question} {c c' : Ctx} {l : List ℤ} {rep : Reply} {W : ℤ → ℕ}

/-- The instructions of one opcode. -/
def ofOp (c : Ctx) (o : IrOp) (l : List ℤ) : List ℤ := l.filter fun r => (c.insn r).op = o

/-- The chains have the instructions that were emitted through them. -/
structure Invariant (s : State) (l : List ℤ) : Prop where
  falling : Falling l
  bound : ∀ r ∈ l, r < s.ctx.insns.length
  chain : ∀ o, s.chain o = newest (ofOp s.ctx o l)
  linked : ∀ o, Linked s.offset (ofOp s.ctx o l)
  before : ∀ r ∈ l, (s.ctx.insn r).op1 < r ∧ (s.ctx.insn r).op2 < r ∧ (s.ctx.insn r).op3 < r

theorem Invariant.valid (h : Invariant s l) {r : ℤ} (hr : r ∈ l) : s.ctx.valid r := by
  have hpos := h.falling.pos r hr
  exact ⟨by omega, h.bound r hr⟩

theorem ofOp_congr (o : IrOp) (h : ∀ r ∈ l, c'.insn r = c.insn r) : ofOp c' o l = ofOp c o l :=
  List.filter_congr fun r hr => by rw [h r hr]

/-- More constants and instructions outside the chains. -/
theorem Invariant.grow (h : Invariant s l) (hg : Grown s.ctx c) : Invariant { s with ctx := c } l := by
  have hinsn : ∀ r ∈ l, c.insn r = s.ctx.insn r := fun r hr => hg.insn (h.valid hr)
  refine ⟨h.falling, fun r hr => ?_, fun o => ?_, fun o => ?_, fun r hr => ?_⟩
  · obtain ⟨l', hl'⟩ := hg.insns
    have hb := h.bound r hr
    show r < c.insns.length
    rw [← hl', List.length_append]
    push_cast
    omega
  · show s.chain o = newest (ofOp c o l)
    rw [ofOp_congr o hinsn]
    exact h.chain o
  · show Linked s.offset (ofOp c o l)
    rw [ofOp_congr o hinsn]
    exact h.linked o
  · show (c.insn r).op1 < r ∧ (c.insn r).op2 < r ∧ (c.insn r).op3 < r
    rw [hinsn r hr]
    exact h.before r hr

/-- The field of an instruction outside the chains. -/
theorem Invariant.setOffset (h : Invariant s l) {r : ℤ} (hr : r ∉ l) (k : ℕ) :
    Invariant { s with offset := Function.update s.offset r k } l := by
  refine ⟨h.falling, h.bound, h.chain, fun o => ?_, h.before⟩
  refine (h.linked o).congr fun x hx => Function.update_of_ne ?_ _ _
  rintro rfl
  exact hr (List.mem_filter.1 hx).1

theorem grown_append (c : Ctx) (i : Insn) : Grown c { c with insns := c.insns ++ [i] } :=
  ⟨List.prefix_append _ _, List.prefix_rfl, rfl⟩

theorem Invariant.not_mem (h : Invariant s l) : (s.ctx.insns.length : ℤ) ∉ l :=
  fun hr => lt_irrefl _ (h.bound _ hr)

theorem Invariant.emit (h : Invariant s l) (q : Question) (k : ℕ) : Invariant (emit s q k) l :=
  (h.grow (grown_append s.ctx _)).setOffset h.not_mem k

/-- The instruction that is appended. -/
theorem insn_append (c : Ctx) (i : Insn) : Ctx.insn { c with insns := c.insns ++ [i] } c.insns.length = i := by
  rw [insn_of_nonneg (by omega)]
  show (c.insns ++ [i]).getD (c.insns.length : ℤ).toNat default = i
  rw [Int.toNat_natCast, List.getD_append_right _ _ _ _ le_rfl]
  simp

theorem Invariant.emitChained (h : Invariant s l) (hv : q.valid s.ctx) (hpos : 0 < s.ctx.insns.length) :
    Invariant (emitChained s q) (s.ctx.insns.length :: l) := by
  have hemit := h.emit q 0
  have hbound := hemit.bound
  have hnew : (Cse.emit s q 0).ctx.insn s.ctx.insns.length =
      { op := q.op, type := q.type, op1 := q.op1, op2 := q.op2, op3 := q.op3 } := insn_append _ _
  have hlength : (Cse.emit s q 0).ctx.insns.length = s.ctx.insns.length + 1 := by
    unfold Cse.emit
    simp
  -- the chains of the other opcodes stay, the one of the question gets longer
  have hofOp : ∀ o, ofOp (Cse.emit s q 0).ctx o (s.ctx.insns.length :: l) =
      if q.op = o then (s.ctx.insns.length : ℤ) :: ofOp (Cse.emit s q 0).ctx o l
      else ofOp (Cse.emit s q 0).ctx o l := by
    intro o
    unfold ofOp
    rw [List.filter_cons, hnew]
    simp
  refine ⟨⟨?_, ?_⟩, ?_, fun o => ?_, fun o => ?_, ?_⟩
  · intro r hr
    rcases List.mem_cons.1 hr with rfl | hr
    · exact_mod_cast hpos
    · exact h.falling.pos r hr
  · exact List.pairwise_cons.2 ⟨h.bound, h.falling.sorted⟩
  · intro r hr
    show r < (Cse.emit s q 0).ctx.insns.length
    rw [hlength]
    rcases List.mem_cons.1 hr with rfl | hr
    · push_cast
      omega
    · have := h.bound r hr
      push_cast
      omega
  · show Function.update s.chain q.op (s.ctx.insns.length : ℤ) o =
      newest (ofOp (Cse.emit s q 0).ctx o (s.ctx.insns.length :: l))
    rw [hofOp o]
    split_ifs with ho
    · rw [← ho, Function.update_self]
      rfl
    · rw [Function.update_of_ne (fun h => ho h.symm)]
      exact hemit.chain o
  · show Linked (Function.update (Cse.emit s q 0).offset s.ctx.insns.length
      (if s.chain q.op = 0 ∨ (s.ctx.insns.length : ℤ) - s.chain q.op > 0xffff then 0
        else ((s.ctx.insns.length : ℤ) - s.chain q.op).toNat)) (ofOp (Cse.emit s q 0).ctx o (s.ctx.insns.length :: l))
    have hold : ∀ k, Linked (Function.update (Cse.emit s q 0).offset s.ctx.insns.length k)
        (ofOp (Cse.emit s q 0).ctx o l) := fun k => (hemit.setOffset h.not_mem k).linked o
    have hchain : s.chain o = newest (ofOp (Cse.emit s q 0).ctx o l) := hemit.chain o
    have hfalling := hemit.falling.filter fun r => ((Cse.emit s q 0).ctx.insn r).op = o
    rw [hofOp o]
    by_cases ho : q.op = o
    · subst ho
      rw [if_pos rfl, hchain]
      change Falling (ofOp (Cse.emit s q 0).ctx q.op l) at hfalling
      generalize ofOp (Cse.emit s q 0).ctx q.op l = m at hold hfalling
      cases m with
      | nil => exact Function.update_self ..
      | cons b m =>
        have hne := newest_ne_zero hfalling
        refine ⟨?_, hold _⟩
        rw [Function.update_self]
        simp only [hne, false_or]
        rfl
    · rw [if_neg ho]
      exact hold _
  · intro r hr
    show ((Cse.emit s q 0).ctx.insn r).op1 < r ∧ ((Cse.emit s q 0).ctx.insn r).op2 < r ∧
      ((Cse.emit s q 0).ctx.insn r).op3 < r
    rcases List.mem_cons.1 hr with rfl | hr
    · rw [hnew]
      exact ⟨hv.1.2, hv.2.1.2, hv.2.2.2⟩
    · exact hemit.before r hr

theorem folding_valid {n : ℕ} : ∀ {c q W}, Weighed c W → q.valid c → c.useLists = none →
    folding F n c q = some (c', q', rep) → q'.valid c' := by
  induction n with
  | zero => exact fun _ _ _ h => nomatch h
  | succ n ih =>
    intro c q W hW hv hu hrun
    by_cases hd : ∃ c₁ q₁, dispatch F c q = .restart c₁ q₁
    · obtain ⟨c₁, q₁, hd⟩ := hd
      obtain ⟨W', hext, hv', -⟩ := descends_dispatch hW hv hd
      have hu' : c₁.useLists = none := hext.useLists.trans hu
      rw [folding_succ_of_restart hd hu'] at hrun
      exact ih hext.weighed hv' hu' hrun
    · rw [folding_succ_of_answer fun c₁ q₁ h => hd ⟨c₁, q₁, h⟩] at hrun
      cases hrun
      exact hv

theorem Invariant.start (h : ∀ o, s.chain o = 0) : Invariant s [] :=
  ⟨⟨by simp, List.Pairwise.nil⟩, by simp, h, fun _ => trivial, by simp⟩

/-- A call keeps the chains. -/
theorem Invariant.fold (h : Invariant s l) (ha : Asks s q) {n : ℕ} {r : ℤ} {p : Path}
    (hrun : irFold F n s q = some (s', r, p)) : Invariant s' (if p = .chained then r :: l else l) := by
  obtain ⟨W, hW⟩ := exists_weighed ha.wellFormed
  unfold irFold at hrun
  cases hf : folding F n s.ctx q with
  | none =>
    rw [hf] at hrun
    cases hrun
  | some out =>
    obtain ⟨c, q', rep⟩ := out
    have hgrow := h.grow (folding_grown hf)
    have hv := folding_valid hW ha.valid ha.noUses hf
    rw [hf] at hrun
    cases rep with
    | const v =>
      cases hrun
      exact hgrow.grow (grown_const c v q'.type)
    | copy r =>
      cases hrun
      exact hgrow
    | emit k =>
      cases hrun
      exact hgrow.emit q' k
    | next =>
      dsimp only at hrun
      split_ifs at hrun with hfound
      · cases hrun
        exact hgrow
      · cases hrun
        have hpos : 0 < c.insns.length :=
          lt_of_lt_of_le ha.wellFormed.nonempty (folding_grown hf).insns.length_le
        exact hgrow.emitChained hv hpos
    | restart c₁ q₁ => cases hrun
    | undefined => cases hrun

/-- A sequence of calls keeps the chains. -/
theorem invariant_of_reached {s₀ : State} (h0 : ∀ o, s₀.chain o = 0) (h : Reached F s₀ s l) : Invariant s l := by
  induction h with
  | start => exact Invariant.start h0
  | fold _ ha hrun ih => exact ih.fold ha hrun

/-! ## What is found -/

/-- The question is looked for in the chain of its opcode. -/
theorem foldCse_eq (h : Invariant s l) : foldCse s q = match ofOp s.ctx q.op l with
    | [] => 0
    | a :: _ => cseWalk s q (cseLimit s q) (a.toNat + 1) a := by
  have hfalling := h.falling.filter fun r => (s.ctx.insn r).op = q.op
  change Falling (ofOp s.ctx q.op l) at hfalling
  unfold foldCse
  rw [h.chain]
  generalize ofOp s.ctx q.op l = m at hfalling
  cases m with
  | nil => exact if_neg (not_not_intro rfl)
  | cons a m => exact if_pos (newest_ne_zero hfalling)

theorem foldCse_sound (h : Invariant s l) (hne : foldCse s q ≠ 0) :
    foldCse s q ∈ l ∧ s.limit ≤ foldCse s q ∧ Same (s.ctx.insn (foldCse s q)) q := by
  have hlinked := h.linked q.op
  have hfalling := h.falling.filter fun r => (s.ctx.insn r).op = q.op
  change Falling (ofOp s.ctx q.op l) at hfalling
  have hmem : ∀ r ∈ ofOp s.ctx q.op l, r ∈ l := fun r hr => (List.mem_filter.1 hr).1
  rw [foldCse_eq h] at hne ⊢
  generalize ofOp s.ctx q.op l = m at hlinked hfalling hne hmem
  cases m with
  | nil => exact absurd rfl hne
  | cons a m =>
    obtain ⟨hin, hle, hsame⟩ := cseWalk_sound _ hlinked hfalling hne
    refine ⟨hmem _ hin, le_trans ?_ hle, hsame⟩
    unfold cseLimit
    omega

theorem foldCse_complete (h : Invariant s l) {r : ℤ} (hr : r ∈ l) (hlimit : s.limit ≤ r)
    (hsame : Same (s.ctx.insn r) q) (hclose : Close (ofOp s.ctx q.op l)) : foldCse s q ≠ 0 := by
  obtain ⟨h1, h2, h3⟩ := h.before r hr
  have hin : r ∈ ofOp s.ctx q.op l := List.mem_filter.2 ⟨hr, by simpa using hsame.1⟩
  have hle : cseLimit s q ≤ r := by
    unfold cseLimit
    rw [← hsame.2.2.1, ← hsame.2.2.2.1, ← hsame.2.2.2.2]
    omega
  have hlinked := h.linked q.op
  have hfalling := h.falling.filter fun r => (s.ctx.insn r).op = q.op
  change Falling (ofOp s.ctx q.op l) at hfalling
  rw [foldCse_eq h]
  generalize ofOp s.ctx q.op l = m at hlinked hfalling hin hclose
  cases m with
  | nil => cases hin
  | cons a m => exact cseWalk_complete _ hlinked hfalling hclose (Nat.lt_succ_self _) hin hle hsame

end Invariant

/-- **After any sequence of calls a reference that the CSE returns is an earlier instruction, not below
the limit, with the opcode, the type and the operands that are asked for; if there is such an instruction
among those emitted through the CSE, and those of its opcode lie close enough together, the call returns
one and emits nothing.** -/
theorem cse_sound_complete {F : FloatOps} {s₀ s : State} {l : List ℤ} (h0 : ∀ o, s₀.chain o = 0)
    (h : Reached F s₀ s l) {q q' : Question} {n : ℕ} {c : Ctx}
    (hrun : folding F n s.ctx q = some (c, q', .next)) :
    (∀ s' r, irFold F n s q = some (s', r, .found) →
      s'.ctx = c ∧ 0 < r ∧ r < c.insns.length ∧ s.limit ≤ r ∧ Same (c.insn r) q') ∧
    ∀ r ∈ l, s.limit ≤ r → Same (c.insn r) q' → Close (ofOp c q'.op l) →
      ∃ r', irFold F n s q = some ({ s with ctx := c }, r', .found) := by
  have hinv := (invariant_of_reached h0 h).grow (folding_grown hrun)
  have hcall : irFold F n s q = if foldCse { s with ctx := c } q' ≠ 0 then
      some ({ s with ctx := c }, foldCse { s with ctx := c } q', .found)
    else some (emitChained { s with ctx := c } q', c.insns.length, .chained) := by
    unfold irFold
    rw [hrun]
  rw [hcall]
  constructor
  · intro s' r hr
    split_ifs at hr with hne
    · cases hr
      obtain ⟨hmem, hle, hsame⟩ := foldCse_sound hinv hne
      exact ⟨rfl, hinv.falling.pos _ hmem, hinv.bound _ hmem, hle, hsame⟩
    · cases hr
  · intro r hr hlimit hsame hclose
    exact ⟨_, if_pos (foldCse_complete hinv hr hlimit hsame hclose)⟩

/-- The context of the sum, with no chains. -/
def sumState : State := ⟨sumCtx, fun _ => 0, fun _ => 0, 1⟩

/-- The sum and the parameter. -/
def xorQuestion : Question := ⟨.xor, .i32, 3, 2, 0⟩

theorem xorQuestion_asks : Asks sumState xorQuestion := ⟨sumCtx_wellFormed, rfl, by decide⟩

theorem xorQuestion_reached : Reached noFloats sumState (emitChained sumState xorQuestion) [4] :=
  Reached.fold (n := 1) (r := 4) (p := .chained) .start xorQuestion_asks rfl

/-- Asked for again, the instruction is found. -/
theorem cse_sound_complete_xor : ∃ r', irFold noFloats 1 (emitChained sumState xorQuestion) xorQuestion =
    some (emitChained sumState xorQuestion, r', .found) := by
  have hrun : folding noFloats 1 (emitChained sumState xorQuestion).ctx xorQuestion =
      some ((emitChained sumState xorQuestion).ctx, xorQuestion, .next) := rfl
  have hchain : ofOp (emitChained sumState xorQuestion).ctx xorQuestion.op [4] = [4] := by decide
  refine (cse_sound_complete (fun _ => rfl) xorQuestion_reached hrun).2 4 (by simp) (by decide) (by decide) ?_
  rw [hchain]
  exact List.IsChain.singleton 4

end IrJit.Fold.Cse
