import IrJit.Sroa.Split

/-!
# Sroa.Accept — what an accepted aggregate looks like

When `ir_mem2ssa_may_split_alloca` accepts an object, the table has every access to it: the loads and stores
through the `ALLOCA` itself, and those through the additions of constants to it.
-/

namespace IrJit.Sroa

open Uses (Insns)

namespace Ctx

/-- What the split relies on: use lists that are the inverse of the edges, an `ALLOCA` of constant size with
`next` after it on the control chain, and instructions of the shape that their opcodes have. -/
structure Wf (ctx : Ctx) (var next : ℕ) : Prop where
  inverse : Uses.Inverse ctx.uses
  tight : ctx.insns.Tight
  var_mem : var ∈ ctx.insns.heads
  var_op : ctx.op var = .alloca
  var_inputs : ctx.insns.inputsCount var = 2
  var_size : ctx.insnOp var 2 < 0
  var_control : 0 < ctx.insnOp var 1 ∧ ctx.insnOp var 1 ≠ var
  next_mem : next ∈ ctx.insns.heads
  next_op : ctx.op next ≠ .add
  next_control : 1 ≤ ctx.insns.inputsCount next ∧ ctx.insnOp next 1 = var
  load_inputs : ∀ u ∈ ctx.insns.heads, ctx.op u = .load → ctx.insns.inputsCount u = 2
  store_inputs : ∀ u ∈ ctx.insns.heads, ctx.op u = .store → ctx.insns.inputsCount u = 3
  add_inputs : ∀ u ∈ ctx.insns.heads, ctx.op u = .add → ctx.insns.inputsCount u = 2
  access_size : ∀ u ∈ ctx.insns.heads, ctx.op u = .load ∨ ctx.op u = .store → 0 < ctx.accessSize u
  consts : ∀ u ∈ ctx.insns.heads, ∀ j, 1 ≤ j → j ≤ 3 → -(ctx.constsCount : ℤ) < ctx.insnOp u j

/-- `a` is a constant offset into the object `var`. -/
structure Offset (ctx : Ctx) (var a : ℕ) : Prop where
  mem : a ∈ ctx.insns.heads
  op : ctx.op a = .add
  base : ctx.insnOp a 1 = var
  const : ctx.insnOp a 2 < 0

/-- The offset itself. -/
def offsetOf (ctx : Ctx) (a : ℕ) : ℕ := (ctx.val (ctx.insnOp a 2)).toNat

/-- `u` loads or stores at offset `o` of the object `var`. -/
structure Access (ctx : Ctx) (var u o : ℕ) : Prop where
  mem : u ∈ ctx.insns.heads
  op : ctx.op u = .load ∨ ctx.op u = .store
  addr : (ctx.insnOp u 2 = var ∧ o = 0) ∨
    ∃ a, ctx.Offset var a ∧ ctx.insnOp u 2 = a ∧ o = ctx.offsetOf a

/-- A load or a store that was accepted: through `var`, at `offset`. -/
def Accepted (ctx : Ctx) (acc : ℕ → ℕ → Prop) (var use offset : ℕ) : Prop :=
  (ctx.op use = .load ∨ ctx.op use = .store) ∧ ctx.insnOp use 2 = var ∧ acc offset (ctx.accessSize use)

/-- A use of the object of `size` bytes that was accepted. -/
def AcceptedUse (ctx : Ctx) (acc : ℕ → ℕ → Prop) (size var use : ℕ) : Prop :=
  ctx.Accepted acc var use 0 ∨
    (ctx.op use = .add ∧ ctx.insnOp use 1 = var ∧ ctx.insnOp use 2 < 0 ∧ ctx.offsetOf use < size ∧
      ∀ u ∈ ctx.uses.uses use, ctx.Accepted acc use u (ctx.offsetOf use))

variable {ctx : Ctx} {acc : ℕ → ℕ → Prop} {size var next use offset : ℕ} {L L' : Layout}

theorem accessSize_le (ctx : Ctx) (use : ℕ) : ctx.accessSize use ≤ 8 := by
  unfold accessSize
  split_ifs <;> exact IrType.size_le _

theorem Accepted.mono {acc' : ℕ → ℕ → Prop} (h : ctx.Accepted acc var use offset)
    (hacc : ∀ o s, acc o s → acc' o s) : ctx.Accepted acc' var use offset :=
  ⟨h.1, h.2.1, hacc _ _ h.2.2⟩

theorem addAccess_spec (h : L.Fits acc)
    (hsize : ctx.op use = .load ∨ ctx.op use = .store → 0 < ctx.accessSize use)
    (hadd : ctx.addAccess L var use offset = some L') :
    ∃ acc', L'.Fits acc' ∧ L'.size = L.size ∧ (∀ o s, acc o s → acc' o s) ∧
      ctx.Accepted acc' var use offset := by
  have hop : ctx.op use = .load ∨ ctx.op use = .store := by
    unfold addAccess at hadd
    split_ifs at hadd with hload h2 hstore
    · exact Or.inl hload
    · exact Or.inr hstore
  have hvar : ctx.insnOp use 2 = var ∧ addSplitVar L offset (ctx.accessSize use) = some L' := by
    unfold addAccess at hadd
    split_ifs at hadd with hload h2 hstore h3
    · exact ⟨not_ne_iff.mp h2, hadd⟩
    · exact ⟨not_ne_iff.mp (not_or.mp h3).1, hadd⟩
  obtain ⟨hsz, _, hfits⟩ := h.add ⟨hsize hop, ctx.accessSize_le use⟩ hvar.2
  exact ⟨_, hfits, hsz, fun o s ho => Or.inl ho, hop, hvar.1, Or.inr ⟨rfl, rfl⟩⟩

theorem mayPromote_spec {list : List ℕ} (h : L.Fits acc)
    (hsize : ∀ use ∈ list, ctx.op use = .load ∨ ctx.op use = .store → 0 < ctx.accessSize use)
    (hpromote : ctx.mayPromote var offset L list = some L') :
    ∃ acc', L'.Fits acc' ∧ L'.size = L.size ∧ (∀ o s, acc o s → acc' o s) ∧
      ∀ use ∈ list, ctx.Accepted acc' var use offset := by
  induction list generalizing L acc with
  | nil =>
    simp only [mayPromote, Option.some.injEq] at hpromote
    subst hpromote
    exact ⟨acc, h, rfl, fun _ _ ho => ho, by simp⟩
  | cons use rest ih =>
    simp only [mayPromote, Option.bind_eq_bind, Option.bind_eq_some_iff] at hpromote
    obtain ⟨L₁, hadd, hrest⟩ := hpromote
    obtain ⟨acc₁, hfits₁, hsz₁, hsub₁, hacc₁⟩ := addAccess_spec h (hsize use List.mem_cons_self) hadd
    obtain ⟨acc₂, hfits₂, hsz₂, hsub₂, hacc₂⟩ :=
      ih hfits₁ (fun u hu => hsize u (List.mem_cons_of_mem _ hu)) hrest
    refine ⟨acc₂, hfits₂, hsz₂.trans hsz₁, fun o s ho => hsub₂ o s (hsub₁ o s ho), ?_⟩
    intro u hu
    rcases List.mem_cons.mp hu with rfl | hu
    · exact hacc₁.mono hsub₂
    · exact hacc₂ u hu

/-- Every use but one occurrence of `next` was accepted. -/
theorem maySplitLoop_spec (hwf : ctx.Wf var next) {skip : ℕ} {list : List ℕ} (h : L.Fits acc)
    (hlist : ∀ use ∈ list, use ∈ ctx.insns.heads)
    (hloop : ctx.maySplitLoop var skip L list = some L') :
    ∃ acc', L'.Fits acc' ∧ L'.size = L.size ∧ (∀ o s, acc o s → acc' o s) ∧
      ∀ use ∈ list.erase skip, ctx.AcceptedUse acc' L.size var use := by
  induction list generalizing L acc skip with
  | nil =>
    simp only [maySplitLoop, Option.some.injEq] at hloop
    subst hloop
    exact ⟨acc, h, rfl, fun _ _ ho => ho, by simp⟩
  | cons use rest ih =>
    have hlist' : ∀ use ∈ rest, use ∈ ctx.insns.heads := fun u hu => hlist u (List.mem_cons_of_mem _ hu)
    have hzero : 0 ∉ rest := fun h0 => (Insns.heads_pos (hlist' 0 h0)).ne rfl
    have huse := hlist use List.mem_cons_self
    rw [maySplitLoop] at hloop
    by_cases hskip : use = skip
    · rw [if_pos hskip] at hloop
      obtain ⟨acc', hfits, hsz, hsub, huses⟩ := ih h hlist' hloop
      refine ⟨acc', hfits, hsz, hsub, ?_⟩
      rw [← hskip, List.erase_cons_head]
      rwa [List.erase_of_not_mem hzero] at huses
    rw [if_neg hskip] at hloop
    have herase : (use :: rest).erase skip = use :: rest.erase skip :=
      List.erase_cons_tail (by simpa using hskip)
    rw [herase]
    by_cases hop : ctx.op use = .load ∨ ctx.op use = .store
    · rw [if_pos hop] at hloop
      simp only [Option.bind_eq_bind, Option.bind_eq_some_iff] at hloop
      obtain ⟨L₁, hadd, hrest⟩ := hloop
      obtain ⟨acc₁, hfits₁, hsz₁, hsub₁, hacc₁⟩ := addAccess_spec h (hwf.access_size use huse) hadd
      obtain ⟨acc₂, hfits₂, hsz₂, hsub₂, hacc₂⟩ := ih hfits₁ hlist' hrest
      rw [hsz₁] at hacc₂
      refine ⟨acc₂, hfits₂, hsz₂.trans hsz₁, fun o s ho => hsub₂ o s (hsub₁ o s ho), ?_⟩
      intro u hu
      rcases List.mem_cons.mp hu with rfl | hu
      · exact Or.inl (hacc₁.mono hsub₂)
      · exact hacc₂ u hu
    rw [if_neg hop] at hloop
    by_cases hoff : ctx.isOffset var use L.size = true
    · rw [if_pos hoff] at hloop
      simp only [Option.bind_eq_bind, Option.bind_eq_some_iff] at hloop
      obtain ⟨L₁, hpromote, hrest⟩ := hloop
      have hsize : ∀ u ∈ ctx.uses.uses use, ctx.op u = .load ∨ ctx.op u = .store → 0 < ctx.accessSize u :=
        fun u hu => hwf.access_size u (hwf.inverse.mem_heads (Insns.heads_pos huse) hu)
      obtain ⟨acc₁, hfits₁, hsz₁, hsub₁, hacc₁⟩ := mayPromote_spec h hsize hpromote
      obtain ⟨acc₂, hfits₂, hsz₂, hsub₂, hacc₂⟩ := ih hfits₁ hlist' hrest
      rw [hsz₁] at hacc₂
      refine ⟨acc₂, hfits₂, hsz₂.trans hsz₁, fun o s ho => hsub₂ o s (hsub₁ o s ho), ?_⟩
      intro u hu
      rcases List.mem_cons.mp hu with rfl | hu
      · simp only [isOffset, Bool.and_eq_true, decide_eq_true_eq] at hoff
        obtain ⟨⟨⟨⟨hadd, hbase⟩, hconst⟩, _⟩, hlt⟩ := hoff
        exact Or.inr ⟨hadd, hbase, hconst, hlt, fun v hv => (hacc₁ v hv).mono hsub₂⟩
      · exact hacc₂ u hu
    · rw [if_neg hoff] at hloop
      simp at hloop

/-- What is accepted: a table that fits, and every use but one occurrence of `next`. -/
theorem maySplitAlloca_spec (hwf : ctx.Wf var next) {sizes : ℕ → ℕ}
    (h : ctx.maySplitAlloca size sizes var next = some L) :
    ∃ acc, L.Fits acc ∧ L.size = size ∧ 0 < L.count ∧
      ∀ use ∈ (ctx.uses.uses var).erase next, ctx.AcceptedUse acc size var use := by
  simp only [maySplitAlloca, Option.bind_eq_bind, Option.bind_eq_some_iff] at h
  obtain ⟨L₁, hloop, hcount⟩ := h
  split_ifs at hcount with hpos
  simp only [Option.some.injEq] at hcount
  subst hcount
  have hvar := Insns.heads_pos hwf.var_mem
  obtain ⟨acc, hfits, hsz, _, huses⟩ := maySplitLoop_spec hwf (Layout.fits_empty size sizes)
    (fun use huse => hwf.inverse.mem_heads hvar huse) hloop
  exact ⟨acc, hfits, hsz, hpos, huses⟩

/-- A direct operand is a use, and `next` is one besides its control edge. -/
theorem Access.mem_erase (hwf : ctx.Wf var next) {u : ℕ} (hu : u ∈ ctx.insns.heads)
    (hop : ctx.op u = .load ∨ ctx.op u = .store) (haddr : ctx.insnOp u 2 = var) :
    u ∈ (ctx.uses.uses var).erase next := by
  have hvar := Insns.heads_pos hwf.var_mem
  have hinputs : 2 ≤ ctx.insns.inputsCount u := by
    rcases hop with h | h
    · rw [hwf.load_inputs u hu h]
    · rw [hwf.store_inputs u hu h]
      omega
  by_cases hnext : u = next
  · subst hnext
    rw [← List.count_pos_iff, List.count_erase_self, hwf.inverse.count var u hvar]
    have htwo : 2 ≤ ctx.uses.insns.edgeCount var u :=
      Insns.two_le_edgeCount hu hinputs hwf.next_control.2 haddr
    omega
  · rw [List.mem_erase_of_ne hnext]
    exact hwf.inverse.mem_uses hvar hu (by omega) hinputs haddr

/-- The table has every access. -/
theorem Access.fits (hwf : ctx.Wf var next) {u o : ℕ} (h : ctx.Access var u o)
    (huses : ∀ use ∈ (ctx.uses.uses var).erase next, ctx.AcceptedUse acc size var use) :
    acc o (ctx.accessSize u) := by
  have hvar := Insns.heads_pos hwf.var_mem
  obtain ⟨hu, hop, ⟨haddr, rfl⟩ | ⟨a, ha, haddr, rfl⟩⟩ := h
  · rcases huses u (Access.mem_erase hwf hu hop haddr) with ⟨_, _, hacc⟩ | ⟨hadd, _⟩
    · exact hacc
    · rw [hadd] at hop
      simp at hop
  · have hinputs := hwf.add_inputs a ha.mem ha.op
    have hmem : a ∈ ctx.uses.uses var :=
      hwf.inverse.mem_uses hvar ha.mem (le_refl 1) (show 1 ≤ ctx.insns.inputsCount a by omega) ha.base
    have hne : a ≠ next := by
      rintro rfl
      exact hwf.next_op ha.op
    rcases huses a ((List.mem_erase_of_ne hne).mpr hmem) with ⟨hopa, _⟩ | ⟨_, _, _, _, hall⟩
    · rw [ha.op] at hopa
      simp at hopa
    · have hinputs : 2 ≤ ctx.insns.inputsCount u := by
        rcases hop with h | h
        · rw [hwf.load_inputs u hu h]
        · rw [hwf.store_inputs u hu h]
          omega
      have hmem := hwf.inverse.mem_uses (Insns.heads_pos ha.mem) hu (by omega) hinputs haddr
      exact (hall u hmem).2.2

end Ctx

end IrJit.Sroa
