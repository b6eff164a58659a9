import IrJit.X86.SwitchTable

/-!
# X86.SwitchExact — when `ir_emit_switch` jumps to the right block

Three things go wrong.  The difference `max - min` is computed in 64 signed bits, so a span of `2^63` and more
looks negative and small; the displacement `-min * 8` of the position-independent jump is cut to 32 bits; and an
unsigned constant of 32 bits is taken for an immediate, which the compare extends by its sign.
-/

namespace IrJit.X86.Switch

variable {sw : SwitchInsn} {site : Site}

/-- Distance from the lower bound, of an operand between the bounds. -/
theorem toNat_sub_min_le {x : Word} (h1 : value sw.type sw.min ≤ value sw.type x)
    (h2 : value sw.type x ≤ value sw.type sw.max) : (x - sw.min).toNat ≤ (sw.max - sw.min).toNat := by
  have hx := toNat_sub_of_le h1
  have hm := toNat_sub_of_le (h1.trans h2)
  omega

/-- …and only of these. -/
theorem between_of_toNat_sub_le (hm : value sw.type sw.min ≤ value sw.type sw.max) {x : Word}
    (h : (x - sw.min).toNat ≤ (sw.max - sw.min).toNat) :
    value sw.type sw.min ≤ value sw.type x ∧ value sw.type x ≤ value sw.type sw.max := by
  have hmax := toNat_sub_of_le hm
  have hb := value_sub_lt sw.type sw.max x
  by_cases hlt : value sw.type x < value sw.type sw.min
  · have hx := toNat_sub_of_lt hlt
    omega
  · have hx := toNat_sub_of_le (not_lt.mp hlt)
    omega

theorem min_le_max (hut : sw.useTable = true) : value sw.type sw.min ≤ value sw.type sw.max :=
  (min_spec hut).2 _ (max_spec hut).1

/-- The span that the code computes, when it does not wrap. -/
theorem span_nonneg_iff (hut : sw.useTable = true) :
    0 ≤ (sw.max - sw.min).toInt ↔ value sw.type sw.max - value sw.type sw.min < 2 ^ 63 := by
  have hnat := toNat_sub_of_le (min_le_max hut)
  rw [← hnat, BitVec.toInt_eq_toNat_cond]
  have := (sw.max - sw.min).isLt
  split_ifs <;> omega

theorem toInt_span (h : 0 ≤ (sw.max - sw.min).toInt) : (sw.max - sw.min).toInt = (sw.max - sw.min).toNat := by
  rw [BitVec.toInt_eq_toNat_cond] at h ⊢
  have := (sw.max - sw.min).isLt
  split_ifs at h ⊢ <;> omega

/-- The index of a constant is its distance from the lower bound. -/
theorem index_eq (hut : sw.useTable = true) (h : 0 ≤ (sw.max - sw.min).toInt) {v : Word} (hv : IsCase sw v) :
    sw.index v = (v - sw.min).toNat ∧ (v - sw.min).toNat ≤ (sw.max - sw.min).toNat := by
  have hle := toNat_sub_min_le ((min_spec hut).2 v hv) ((max_spec hut).2 v hv)
  have hspan := toInt_span h
  refine ⟨?_, hle⟩
  unfold SwitchInsn.index
  rw [BitVec.toInt_eq_toNat_cond]
  rw [hspan] at h
  have hlt := span_lt hut
  split_ifs
  · rfl
  · omega

theorem length_labels_eq (h : 0 ≤ (sw.max - sw.min).toInt) : sw.labels.length = (sw.max - sw.min).toNat + 1 := by
  rw [length_labels, toInt_span h]
  omega

/-- The entries between the cases. -/
theorem labels_miss (hut : sw.useTable = true) (h : 0 ≤ (sw.max - sw.min).toInt) {x : Word} (hx : (x - sw.min).toNat ≤ (sw.max - sw.min).toNat)
    (hno : ∀ t ∈ sw.successors, ¬ t.insn.Hits sw.type x) : sw.labels.getD (x - sw.min).toNat none = sw.defaultBlock := by
  unfold SwitchInsn.labels
  rw [getD_foldl_miss]
  · rw [List.getD_eq_getElem?_getD, List.getElem?_replicate, if_pos, Option.getD_some]
    rw [toInt_span h]
    omega
  · intro t ht v hv hi
    obtain ⟨hi', -⟩ := index_eq hut h ⟨t, ht, hv⟩
    have hnat : (x - sw.min).toNat = (v - sw.min).toNat := by omega
    have heq := BitVec.eq_of_toNat_eq hnat
    rw [BitVec.sub_left_inj] at heq
    refine hno t ht ?_
    rw [hv]
    exact heq

section Table

variable (ok : SwitchOk sw site) (hut : sw.useTable = true)
include ok hut

/-- The entry of a case. -/
theorem labels_hit (h : 0 ≤ (sw.max - sw.min).toInt) {t : Successor} {v : Word} (ht : t ∈ sw.successors)
    (hv : t.insn = .caseVal v) : sw.labels.getD (v - sw.min).toNat none = some t.block := by
  obtain ⟨hi, hle⟩ := index_eq hut h ⟨t, ht, hv⟩
  refine getD_foldl_hit sw.successors _ ?_ ht hv hi ?_
  · rw [List.length_replicate, toInt_span h]
    omega
  · intro t' ht' v' hv' hi'
    obtain ⟨hi'', -⟩ := index_eq hut h ⟨t', ht', hv'⟩
    have hvv : v' = v := by
      have hnat : (v' - sw.min).toNat = (v - sw.min).toNat := by omega
      have := BitVec.eq_of_toNat_eq hnat
      rwa [BitVec.sub_left_inj] at this
    have heq := ok.apart t' ht' t ht v (by rw [hv', hvv]; rfl) (by rw [hv]; rfl)
    rw [heq]

/-- **The jump table** does its work. -/
theorem TableFits.right (F : TableFits sw site) : SwitchRight sw site := by
  have hd0 := (span_nonneg_iff hut).mpr F.span
  have hd1 := span_lt hut
  have hlen := length_labels_eq hd0
  have hspan := toInt_span hd0
  have hcode : sw.emitSwitch site = sw.emitTable site := if_pos hut
  have hdisp : jumpDisp sw site = -sw.min * 8 := by
    unfold jumpDisp
    split_ifs with hlow
    · rfl
    · exact signExtend_setWidth_iff.mpr (F.disp (by simpa using hlow))
  -- a jump through the table is at the distance of the operand
  have hmem : ∀ x : Word, x * 8 + jumpDisp sw site = BitVec.ofNat 64 (8 * (x - sw.min).toNat) := by
    intro x
    rw [hdisp, BitVec.ofNat_mul, BitVec.ofNat_toNat, BitVec.setWidth_eq, ← BitVec.add_mul, ← BitVec.sub_eq_add_neg,
      BitVec.mul_comm]
    rfl
  have hrun := fun s => exec_emitTable ok hd0 hd1 s
  have hle : ∀ s, (sw.defaultBlock = none ∨ (extend sw.type s - sw.min).toNat ≤ (sw.max - sw.min).toNat) →
      (extend sw.type s - sw.min).toNat ≤ (sw.max - sw.min).toNat := by
    rintro s (h | h)
    · obtain ⟨h1, h2⟩ := F.covers h _ (extend_extend ok.type s)
      exact toNat_sub_min_le h1 h2
    · exact h
  refine ⟨fun s => ⟨?_, ?_⟩, fun _ => ?_, fun _ => ?_, ?_⟩
  · intro t ht hhit
    have hv : t.insn = .caseVal (extend sw.type s.op2) := by
      cases hi : t.insn with
      | caseVal v =>
        rw [hi] at hhit
        exact congrArg _ (Eq.symm hhit)
      | caseRange v v2 => exact absurd hi (not_range (useTable_iff.mp hut).1 ht v v2)
      | caseDefault =>
        rw [hi] at hhit
        exact absurd hhit id
    obtain ⟨-, hin⟩ := index_eq hut hd0 ⟨t, ht, hv⟩
    rw [hcode]
    rcases hrun s with ⟨d, -, hout, -⟩ | ⟨-, hexec⟩
    · omega
    · rw [hexec, hmem]
      change entryAt site.table sw.labels _ = _
      rw [entryAt_index _ _ (by omega)]
      exact labels_hit ok hut hd0 ht hv
  · intro hno t ht hd
    have hdef := ok.defaultBlock ht hd
    rw [hcode]
    rcases hrun s with ⟨d, hd', -, hexec⟩ | ⟨hin, hexec⟩
    · rw [hexec, ← hdef, hd']
      rfl
    · have hin' := hle s.op2 hin
      rw [hexec, hmem]
      change entryAt site.table sw.labels _ = _
      rw [entryAt_index _ _ (by omega), labels_miss hut hd0 hin' hno, hdef]
  · have hnat := toNat_sub_of_le (min_le_max hut)
    rw [hlen]
    omega
  · intro t ht v hv
    obtain ⟨hi, hin⟩ := index_eq hut hd0 ⟨t, ht, hv⟩
    omega
  · intro s addr hexec
    rw [hcode] at hexec
    rcases hrun s with ⟨d, -, -, h⟩ | ⟨hin, h⟩
    · rw [h] at hexec
      cases hexec
    · rw [h] at hexec
      injection hexec with hexec
      have hin' := hle s.op2 hin
      exact ⟨(extend sw.type s.op2 - sw.min).toNat, by omega, by rw [← hexec, hmem]⟩

/-- **The jump table** asks for as much. -/
theorem SwitchRight.tableFits (R : SwitchRight sw site) : TableFits sw site := by
  have hle := min_le_max hut
  have hcode : sw.emitSwitch site = sw.emitTable site := if_pos hut
  have hnat := toNat_sub_of_le hle
  have hd0 : 0 ≤ (sw.max - sw.min).toInt := by
    have h := R.entries hut
    rw [length_labels] at h
    omega
  have hd1 := span_lt hut
  have hspan := toInt_span hd0
  have hlen := length_labels_eq hd0
  have hconst : ∀ v, IsCase sw v → extend sw.type v = v := by
    rintro v ⟨t, ht, hv⟩
    have := ok.const t ht
    rwa [hv] at this
  -- an operand between the bounds, or without a default, is jumped on through an entry
  have hentry : ∀ x, extend sw.type x = x →
      (sw.defaultBlock = none ∨ (x - sw.min).toNat ≤ (sw.max - sw.min).toNat) →
      ∃ i ≤ (sw.max - sw.min).toNat, x * 8 + jumpDisp sw site = BitVec.ofNat 64 (8 * i) := by
    intro x hx hin
    rcases exec_emitTable ok hd0 hd1 ⟨x, 0, ⟨false, false, false⟩⟩ with ⟨d, hd, hout, -⟩ | ⟨-, hexec⟩
    · rcases hin with h | h
      · rw [h] at hd
        cases hd
      · dsimp only at hout
        rw [hx] at hout
        omega
    · rw [hx] at hexec
      obtain ⟨i, hi, haddr⟩ := R.inside _ _ (by rw [hcode]; exact hexec)
      exact ⟨i, by omega, by rwa [BitVec.add_right_inj] at haddr⟩
  -- at the bounds this leaves one displacement
  have hdisp : jumpDisp sw site = -sw.min * 8 := by
    obtain ⟨i, hi, h1⟩ := hentry sw.min (hconst _ (min_spec hut).1) (Or.inr (by simp))
    obtain ⟨j, hj, h2⟩ := hentry sw.max (hconst _ (max_spec hut).1) (Or.inr (le_refl _))
    have hsum : sw.max * 8 + jumpDisp sw site = (sw.max - sw.min) * 8 + (sw.min * 8 + jumpDisp sw site) := by
      rw [← BitVec.add_assoc, ← BitVec.add_mul, BitVec.sub_add_cancel]
    rw [hsum, h1] at h2
    have h3 := congrArg BitVec.toNat h2
    rw [BitVec.toNat_add, BitVec.toNat_mul, BitVec.toNat_ofNat, BitVec.toNat_ofNat] at h3
    have h8 : (8 : Word).toNat = 8 := rfl
    rw [h8] at h3
    have hzero : i = 0 := by omega
    rw [hzero] at h1
    have hneg : jumpDisp sw site = -(sw.min * 8) := by
      rw [← BitVec.add_right_inj (sw.min * 8), h1, BitVec.add_right_neg]
    rw [hneg, BitVec.neg_mul]
  refine ⟨(span_nonneg_iff hut).mp hd0, ?_, ?_⟩
  · intro hlow
    unfold jumpDisp at hdisp
    rw [if_neg (by simp [hlow])] at hdisp
    exact signExtend_setWidth_iff.mp hdisp
  · intro hdef x hx
    have hmul : ∀ y : Word, y * 8 + jumpDisp sw site = (y - sw.min) * 8 := by
      intro y
      rw [hdisp, ← BitVec.add_mul, ← BitVec.sub_eq_add_neg]
    have h8 : (8 : Word).toNat = 8 := rfl
    refine between_of_toNat_sub_le hle ?_
    by_cases hsize : sw.type.size = 8
    · -- the operand behind the upper bound is outside
      exfalso
      obtain ⟨i, hi, h⟩ := hentry (sw.max + 1) (extend_eight hsize _) (Or.inl hdef)
      rw [hmul] at h
      have hsub : sw.max + 1 - sw.min = (sw.max - sw.min) + 1 := by
        rw [BitVec.sub_eq_add_neg, BitVec.sub_eq_add_neg, BitVec.add_assoc, BitVec.add_assoc, BitVec.add_comm 1]
      have hn := congrArg BitVec.toNat h
      rw [hsub, BitVec.toNat_mul, BitVec.toNat_add, BitVec.toNat_ofNat, h8] at hn
      have h1 : (1 : Word).toNat = 1 := rfl
      rw [h1] at hn
      omega
    · obtain ⟨i, hi, h⟩ := hentry x hx (Or.inl hdef)
      rw [hmul] at h
      have hn := congrArg BitVec.toNat h
      rw [BitVec.toNat_mul, BitVec.toNat_ofNat, h8] at hn
      -- narrow operands are near to the lower bound
      have hnarrow : ∀ y, extend sw.type y = y → -2 ^ 31 ≤ value sw.type y ∧ value sw.type y < 2 ^ 32 := by
        intro y hy
        have hval := value_extend ok.type y
        rw [hy] at hval
        rw [hval]
        have hw : 8 * sw.type.size ≤ 32 := by
          rcases width_cases ok.type with h' | h' | h' | h' <;> omega
        have hpow : 2 ^ (8 * sw.type.size) ≤ 2 ^ 32 := Nat.pow_le_pow_right (by omega) hw
        have hlt := (y.setWidth (8 * sw.type.size)).isLt
        split_ifs
        · have h1 := @BitVec.toInt_lt _ (y.setWidth (8 * sw.type.size))
          have h2 := BitVec.le_toInt (y.setWidth (8 * sw.type.size))
          have hpn : 2 ^ (8 * sw.type.size - 1) ≤ 2 ^ 31 := Nat.pow_le_pow_right (by omega) (by omega)
          have hp : (2 : ℤ) ^ (8 * sw.type.size - 1) ≤ 2 ^ 31 := by exact_mod_cast hpn
          omega
        · omega
      have hx' := hnarrow x hx
      have hm' := hnarrow sw.min (hconst _ (min_spec hut).1)
      by_cases hlt : value sw.type x < value sw.type sw.min
      · have hsub := toNat_sub_of_lt hlt
        omega
      · have hsub := toNat_sub_of_le (not_lt.mp hlt)
        omega

end Table

/-- What the form chosen for a SWITCH can do. -/
def SwitchFits (sw : SwitchInsn) (site : Site) : Prop :=
  if sw.useTable then TableFits sw site else SequenceFits sw

/-- The compare sequence never leaves through memory. -/
theorem exec_emitSequence_ne_mem (ok : SwitchOk sw site) (s : SwState) (addr : Word) :
    exec site.table false sw.emitSequence s ≠ .mem addr := by
  by_cases hex : ∃ t ∈ sw.successors, Enters sw s t
  · obtain ⟨before, t, after, hl, henter, hno⟩ := exists_first sw.successors hex
    rw [exec_emitSequence_hit ok.type hl hno henter]
    simp
  · push Not at hex
    obtain ⟨s', hexec, -⟩ := exec_cases_miss ok.type site.table sw.emitDefault sw.successors s hex
    unfold SwitchInsn.emitSequence
    rw [hexec]
    unfold SwitchInsn.emitDefault
    cases sw.defaultBlock <;> simp [exec]

/-- **`ir_emit_switch` does what a SWITCH owes exactly when its constants fit.** -/
theorem emitSwitch_exact (ok : SwitchOk sw site) : SwitchRight sw site ↔ SwitchFits sw site := by
  unfold SwitchFits
  split_ifs with hut
  · exact ⟨fun R => R.tableFits ok hut, fun F => F.right ok hut⟩
  · have hcode : sw.emitSwitch site = sw.emitSequence := if_neg hut
    rw [← sequence_exact ok]
    constructor
    · intro R s
      have := R.lands s
      rwa [hcode] at this
    · intro h
      refine ⟨fun s => by rw [hcode]; exact h s, fun h' => absurd h' hut, fun h' => absurd h' hut, ?_⟩
      intro s addr hexec
      rw [hcode] at hexec
      exact absurd hexec (exec_emitSequence_ne_mem ok s addr)

/-- Three cases and a default. -/
def threeCases (type : IrType) (a b c : Word) : SwitchInsn :=
  ⟨type, [⟨.caseVal a, 2⟩, ⟨.caseVal b, 3⟩, ⟨.caseVal c, 4⟩, ⟨.caseDefault, 5⟩]⟩

theorem threeCases_ok {type : IrType} {a b c : Word} (ht : IsOperandType type) (ha : extend type a = a)
    (hb : extend type b = b) (hc : extend type c = c) (hab : a ≠ b) (hac : a ≠ c) (hbc : b ≠ c) (table : Word) :
    SwitchOk (threeCases type a b c) ⟨none, table⟩ where
  type := ht
  const := by simp [threeCases, CaseInsn.IsConst, ha, hb, hc]
  apart := by
    simp only [threeCases, List.mem_cons, List.not_mem_nil, or_false]
    rintro t (rfl | rfl | rfl | rfl) t' (rfl | rfl | rfl | rfl) x h h' <;>
      simp_all [CaseInsn.Hits]
  oneDefault := by
    simp only [threeCases, List.mem_cons, List.not_mem_nil, or_false]
    rintro t (rfl | rfl | rfl | rfl) t' (rfl | rfl | rfl | rfl) h h' <;> simp_all
  blocks := by simp [threeCases]
  inBuffer := by simp

/-- A table of three entries. -/
theorem threeCases_right : SwitchRight (threeCases .i32 1 2 3) ⟨none, 0⟩ := by
  have ok : SwitchOk (threeCases .i32 1 2 3) ⟨none, 0⟩ :=
    threeCases_ok ⟨rfl, by decide⟩ (by decide) (by decide) (by decide) (by decide) (by decide) (by decide) 0
  refine (emitSwitch_exact ok).mpr ?_
  have hut : (threeCases .i32 1 2 3).useTable = true := by decide
  unfold SwitchFits
  rw [if_pos hut]
  exact ⟨by decide, fun _ => by decide, fun h => absurd h (by decide)⟩

/-- Unsigned cases at both ends of 64 bits: the span looks like `-1`, and the table has no entry. -/
theorem threeCases_wrapped : SwitchOk (threeCases .u64 0 1 0xffffffffffffffff) ⟨none, 0⟩ ∧
    ¬ SwitchRight (threeCases .u64 0 1 0xffffffffffffffff) ⟨none, 0⟩ := by
  refine ⟨threeCases_ok ⟨rfl, by decide⟩ (by decide) (by decide) (by decide) (by decide) (by decide) (by decide) 0,
    fun R => ?_⟩
  have hentries := R.entries (by decide)
  rw [length_labels] at hentries
  revert hentries
  decide

end IrJit.X86.Switch
