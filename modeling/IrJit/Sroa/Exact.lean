import IrJit.Sroa.Compact

/-!
# Sroa.Exact — scalar replacement of aggregates is exact

When an object is accepted, its accesses lie inside it and do not overlap, and after the split each has the
node of its own part.
-/

namespace IrJit.Sroa.Ctx

open Uses (Insns)

variable {c c₂ : Ctx} {var next : ℕ} {L : Layout} {sizes : ℕ → ℕ} {acc : ℕ → ℕ → Prop}

/-- The additions of constants to `var` are those of the old context. -/
theorem Prepared.offset (hwf : c.Wf var next) (P : Prepared c c₂ L var sizes) {a : ℕ} :
    c₂.Offset var a ↔ c.Offset var a := by
  constructor
  · intro h
    have hlt : a < c.insns.insnsCount := by
      by_contra hge
      have := P.new_op a h.mem (by omega)
      rw [h.op] at this
      simp at this
    have hop := (P.op a hlt).symm.trans h.op
    have hne : a ≠ var := by
      rintro rfl
      rw [hwf.var_op] at hop
      simp at hop
    refine ⟨(P.heads a hlt).mp h.mem, hop, ?_, ?_⟩
    · rw [← P.insnOp a hlt hne 1 (by omega)]
      exact h.base
    · rw [← P.insnOp a hlt hne 2 (by omega)]
      exact h.const
  · intro h
    have hlt := (Insns.mem_heads.mp h.mem).2
    have hne : a ≠ var := by
      rintro rfl
      have := h.op
      rw [hwf.var_op] at this
      simp at this
    refine ⟨(P.heads a hlt).mpr h.mem, (P.op a hlt).trans h.op, ?_, ?_⟩
    · rw [P.insnOp a hlt hne 1 (by omega)]
      exact h.base
    · rw [P.insnOp a hlt hne 2 (by omega)]
      exact h.const

theorem Prepared.offsetOf (hwf : c.Wf var next) (P : Prepared c c₂ L var sizes) {a : ℕ} (h : c.Offset var a) :
    c₂.offsetOf a = c.offsetOf a := by
  have hlt := (Insns.mem_heads.mp h.mem).2
  have hne : a ≠ var := by
    rintro rfl
    have := h.op
    rw [hwf.var_op] at this
    simp at this
  unfold Ctx.offsetOf
  rw [P.insnOp a hlt hne 2 (by omega), P.val _ (hwf.consts a h.mem 2 (by omega) (by omega))]

/-- An addition of a constant is among the accepted uses. -/
theorem Offset.accepted (hwf : c.Wf var next) {size a : ℕ} (h : c.Offset var a)
    (huses : ∀ use ∈ (c.uses.uses var).erase next, c.AcceptedUse acc size var use) :
    c.offsetOf a < size ∧ ∀ u ∈ c.uses.uses a, c.Accepted acc a u (c.offsetOf a) := by
  have hmem : a ∈ c.uses.uses var := hwf.inverse.mem_uses (Insns.heads_pos hwf.var_mem) h.mem (le_refl 1)
    (by rw [hwf.add_inputs a h.mem h.op]; omega) h.base
  have hne : a ≠ next := by
    rintro rfl
    exact hwf.next_op h.op
  rcases huses a ((List.mem_erase_of_ne hne).mpr hmem) with ⟨hop, _⟩ | ⟨_, _, _, hlt, hall⟩
  · exact absurd hop h.not_access
  · exact ⟨hlt, hall⟩

/-- The second half can start. -/
theorem Prepared.ready (hwf : c.Wf var next) (P : Prepared c c₂ L var sizes)
    (huses : ∀ use ∈ (c.uses.uses var).erase next, c.AcceptedUse acc L.size var use) :
    Ready c₂ var next (target var c.insns.insnsCount sizes) := by
  have hvar := (Insns.mem_heads.mp hwf.var_mem).2
  have hnext := (Insns.mem_heads.mp hwf.next_mem).2
  have hvar0 := Insns.heads_pos hwf.var_mem
  have hop : ∀ u ∈ c.insns.heads, c₂.op u = c.op u := fun u hu => P.op u (Insns.mem_heads.mp hu).2
  have husesVar : c₂.uses.uses var = c.uses.uses var :=
    P.uses var hvar fun e => hwf.var_control.2 e.symm
  have hpart : ∀ a, c₂.Offset var a → c₂.op (target var c.insns.insnsCount sizes (c₂.offsetOf a)) = .alloca ∧
      target var c.insns.insnsCount sizes (c₂.offsetOf a) ∈ c₂.insns.heads := by
    intro a ha
    have ha' := (P.offset hwf).mp ha
    rw [P.offsetOf hwf ha']
    by_cases hmem : c.offsetOf a ∈ L.offsets
    · exact ⟨(P.part _ hmem).op, (P.part _ hmem).mem⟩
    · rw [P.other _ (ha'.accepted hwf huses).1 hmem]
      exact ⟨(hop var hwf.var_mem).trans hwf.var_op, (P.heads var hvar).mpr hwf.var_mem⟩
  refine ⟨P.inverse, P.tight, (P.heads var hvar).mpr hwf.var_mem, (hop var hwf.var_mem).trans hwf.var_op, ?_, ?_,
    ?_, ?_, fun a ha => (hpart a ha).2, fun a ha => (hpart a ha).1⟩
  · rw [P.op next hnext]
    exact hwf.next_op
  · intro u hu
    rw [husesVar] at hu
    have hmem := hwf.inverse.mem_heads hvar0 (List.mem_of_mem_erase hu)
    rcases huses u hu with ⟨hacc, _⟩ | ⟨hadd, hbase, hconst, _⟩
    · rw [hop u hmem]
      exact Or.inl hacc
    · exact Or.inr ((P.offset hwf).mpr ⟨hmem, hadd, hbase, hconst⟩)
  · intro a ha
    have ha' := (P.offset hwf).mp ha
    rw [P.inputsCount a (Insns.mem_heads.mp ha'.mem).2, hwf.add_inputs a ha'.mem ha'.op]
  · intro a ha u hu
    have ha' := (P.offset hwf).mp ha
    have hall := (ha'.accepted hwf huses).2
    have ha0 := Insns.heads_pos ha'.mem
    -- the addition is not the control input of the old node
    have hprev : (a : ℤ) ≠ c.insnOp var 1 := by
      intro e
      have hmem := hwf.inverse.mem_uses ha0 hwf.var_mem (le_refl 1)
        (show 1 ≤ c.insns.inputsCount var by rw [hwf.var_inputs]; omega) e.symm
      have := (hall var hmem).1
      rw [hwf.var_op] at this
      simp at this
    rw [P.uses a (Insns.mem_heads.mp ha'.mem).2 hprev] at hu
    rw [hop u (hwf.inverse.mem_heads ha0 hu)]
    exact (hall u hu).1

/-- When an object of at most 256 bytes is accepted, its accesses lie inside it, two of them are equal or
disjoint, and the split returns: every access has the `ALLOCA` of its part, of exactly the accessed size, two
accesses have the same one when they had the same offset and only then, and the use lists are the inverse of
the edges. -/
theorem splitAlloca_exact {ctx : Ctx} {size : ℕ} (hwf : ctx.Wf var next) (hsize : size ≤ 256)
    (hsplit : ctx.maySplitAlloca size sizes var next = some L) :
    (∀ u o, ctx.Access var u o → o + ctx.accessSize u ≤ size) ∧
    (∀ u o u' o', ctx.Access var u o → ctx.Access var u' o' →
      (o = o' ∧ ctx.accessSize u = ctx.accessSize u') ∨ o + ctx.accessSize u ≤ o' ∨
        o' + ctx.accessSize u' ≤ o) ∧
    ∃ fuel₀, ∀ fuel, fuel₀ ≤ fuel → ∃ ctx', ctx.splitAlloca fuel L var next = some ctx' ∧
      Uses.Inverse ctx'.uses ∧
      (∀ u o, ctx.Access var u o → ctx'.op u = ctx.op u ∧ ∃ ref : ℕ, ctx'.insnOp u 2 = ref ∧
        (ref = var ∨ ctx.insns.insnsCount ≤ ref) ∧ ctx'.Part ref (ctx.accessSize u)) ∧
      ∀ u o u' o', ctx.Access var u o → ctx.Access var u' o' →
        (ctx'.insnOp u 2 = ctx'.insnOp u' 2 ↔ o = o') := by
  obtain ⟨acc, hfits, hLsize, hcount, huses⟩ := maySplitAlloca_spec hwf hsplit
  have hentry : ∀ u o, ctx.Access var u o → acc o (ctx.accessSize u) := fun u o h => h.fits hwf huses
  obtain ⟨c₂, sizes₂, hparts, P⟩ := allocateParts_spec hwf hfits hcount (by omega)
  rw [← hLsize] at huses
  have R := P.ready hwf huses
  have hstart := R.compacting
  refine ⟨?_, ?_, ((c₂.uses.uses var).map c₂.work).sum + 1, fun fuel hfuel => ?_⟩
  · intro u o h
    have := (hfits.entry o _ (hentry u o h)).2.1
    omega
  · intro u o u' o' h h'
    exact hfits.equal_or_apart (hentry u o h) (hentry u' o' h')
  obtain ⟨c₃, skip, kept, stale, hloop, hend⟩ :=
    compactUses_spec R fuel c₂ next [] [] (c₂.uses.uses var) hstart (by omega)
  have hop : ∀ u o, ctx.Access var u o → c₃.op u = ctx.op u ∧ c₃.insnOp u 2 =
      target var ctx.insns.insnsCount sizes₂ o ∧ o ∈ L.offsets ∧ L.sizes o = ctx.accessSize u := by
    intro u o h
    have hlt := (Insns.mem_heads.mp h.mem).2
    obtain ⟨⟨hpos, _⟩, hin, _, hsz⟩ := hfits.entry o _ (hentry u o h)
    have hoff : o ∈ L.offsets := Layout.mem_offsets.mpr ⟨by omega, by omega⟩
    have hne : u ≠ var := by
      rintro rfl
      have := h.op
      rw [hwf.var_op] at this
      simp at this
    have hadd : c₂.op u ≠ .add := by
      rw [P.op u hlt]
      intro hadd
      have := h.op
      rw [hadd] at this
      simp at this
    have hinputs : 2 ≤ c₂.insns.inputsCount u := by
      rw [P.inputsCount u hlt]
      rcases h.op with hop | hop
      · rw [hwf.load_inputs u h.mem hop]
      · rw [hwf.store_inputs u h.mem hop]
        omega
    have hmem : u ∈ c₂.insns.heads := (P.heads u hlt).mpr h.mem
    obtain ⟨hdirect, hoffset⟩ := hend.addr R hmem hadd hinputs
    rw [P.insnOp u hlt hne 2 (by omega)] at hdirect hoffset
    refine ⟨(hend.other u hmem hadd).1.trans (P.op u hlt), ?_, hoff, hsz⟩
    rcases h.addr with ⟨haddr, rfl⟩ | ⟨a, ha, haddr, rfl⟩
    · rw [hdirect haddr, P.zero hoff]
    · rw [hoffset a ((P.offset hwf).mpr ha) haddr, P.offsetOf hwf ha]
  refine ⟨c₃.cutUses var kept.length, ?_, hend.cutUses, ?_, ?_⟩
  · unfold splitAlloca
    dsimp only
    rw [hparts]
    simp only [Option.bind_eq_bind, Option.bind_some]
    rw [show compactUses var ctx.uses.insns.insnsCount sizes₂ fuel c₂ next 0 0 = some (c₃, kept.length) from hloop]
    rfl
  · intro u o h
    obtain ⟨hu, haddr, hoff, hsz⟩ := hop u o h
    have hpart := hend.part (P.part o hoff)
    rw [hsz] at hpart
    exact ⟨hu, _, haddr, P.old_or_new o hoff, hpart.mem, hpart.op, hpart.inputsCount, hpart.const, hpart.size⟩
  · intro u o u' o' h h'
    obtain ⟨_, haddr, hoff, _⟩ := hop u o h
    obtain ⟨_, haddr', hoff', _⟩ := hop u' o' h'
    show c₃.insnOp u 2 = c₃.insnOp u' 2 ↔ _
    rw [haddr, haddr']
    constructor
    · intro e
      exact P.inj o hoff o' hoff' (Int.ofNat_inj.mp e)
    · rintro rfl
      rfl

/-- `v = alloca(16); a = v + 8; store(v, 7); x = load(a); return`. -/
def pairInsns : Insns where
  op := fun i => [.nop, .start, .alloca, .add, .store, .load, .ret].getD i .nop
  inputsCount := fun i => [0, 0, 2, 2, 3, 2, 2].getD i 0
  word := fun w => [0, 0, 0, 0, 0, 0, 0, 0, 0, 1, -4, 0, 0, 2, -5, 0, 0, 2, 2, -6, 0, 4, 3, 0, 0, 5, 0, 0].getD w 0
  insnsCount := 7

def pairCtx : Ctx where
  uses := (Uses.buildDefUseLists pairInsns (fun _ => 0) (fun _ => 0)).getD ⟨pairInsns, fun _ => ⟨0, 0⟩, fun _ => 0, 0⟩
  type := fun k => if k < 0 then .u64 else if k = 5 then .i64 else .addr
  val := fun k => if k = -4 then 16 else if k = -5 then 8 else 7
  constsCount := 7

theorem pairCtx_wf : pairCtx.Wf 2 4 := by
  have hrange : pairInsns.InRange := by
    unfold Insns.InRange
    decide
  obtain ⟨uses, hbuild, hsound, hcount⟩ := Uses.build_spec hrange (fun _ => 0) (fun _ => 0)
  have huses : pairCtx.uses = uses := by
    unfold pairCtx
    rw [hbuild, Option.getD_some]
  refine ⟨huses ▸ ⟨hsound, hcount⟩, ?_, by decide, by decide, by decide, by decide, by decide, by decide, by decide,
    by decide, by decide, by decide, by decide, by decide, ?_⟩
  · have hlast : 7 ∈ Uses.headsFrom pairCtx.insns.inputsCount 8 8 1 := by decide
    exact ((Uses.mem_headsFrom (by omega)).mp hlast).1
  · intro u hu j h1 h3
    have hall : ∀ v ∈ pairCtx.insns.heads, ∀ i ∈ [1, 2, 3], -(pairCtx.constsCount : ℤ) < pairCtx.insnOp v i := by
      decide
    exact hall u hu j (by simp; omega)

/-- The two accesses of `pairCtx` get an `ALLOCA` of eight bytes each. -/
theorem pairCtx_split : ∃ L, pairCtx.maySplitAlloca 16 (fun _ => 0) 2 4 = some L ∧
    ∃ fuel₀, ∀ fuel, fuel₀ ≤ fuel → ∃ ctx', pairCtx.splitAlloca fuel L 2 4 = some ctx' ∧
      Uses.Inverse ctx'.uses ∧ ctx'.insnOp 4 2 ≠ ctx'.insnOp 5 2 := by
  have hsome : (pairCtx.maySplitAlloca 16 (fun _ => 0) 2 4).isSome := by decide
  obtain ⟨L, hL⟩ := Option.isSome_iff_exists.mp hsome
  have hstore : pairCtx.Access 2 4 0 := ⟨by decide, by decide, Or.inl (by decide)⟩
  have hload : pairCtx.Access 2 5 8 :=
    ⟨by decide, by decide, Or.inr ⟨3, ⟨by decide, by decide, by decide, by decide⟩, by decide, by decide⟩⟩
  obtain ⟨_, _, fuel₀, h⟩ := splitAlloca_exact pairCtx_wf (by decide) hL
  refine ⟨L, hL, fuel₀, fun fuel hfuel => ?_⟩
  obtain ⟨ctx', hsplit, hinverse, _, hiff⟩ := h fuel hfuel
  refine ⟨ctx', hsplit, hinverse, fun e => ?_⟩
  have := (hiff 4 0 5 8 hstore hload).mp e
  omega

end IrJit.Sroa.Ctx
