import IrJit.Patch.Code
import Mathlib.Data.List.Count
import Mathlib.Data.List.Perm.Lattice

/-!
# Patch.Exact — exactly the right branches are patched

The scan keeps an invariant about the instructions behind the current one (`Inv`).  What `ir_patch` leaves behind is
right (`Retargeted`) exactly when no branch to another address is taken for one to `fromAddr`.
-/

namespace IrJit.Patch

open Fields

variable {a : Area} {fromAddr toAddr p dest t : BitVec 64} {ins : BitVec 32} {kind : BranchKind} {s s' : State} {i k : ℕ}
  {slots : List (BitVec 64)} {r : Result}

/-! ## Targets -/

theorem addr_aligned (a : Area) (k : ℕ) : (a.addr k).toNat % 4 = 0 := by
  have h := a.aligned
  rw [Area.addr, BitVec.toNat_add, BitVec.toNat_ofNat]
  omega

/-- A branch leads to a word. -/
theorem target_aligned (hp : p.toNat % 4 = 0) (h : target p ins = some t) : t.toNat % 4 = 0 := by
  obtain ⟨kind, _, rfl⟩ := Option.map_eq_some_iff.mp h
  rw [BitVec.toNat_add, toNat_shiftLeft_two]
  omega

/-- The distance in words leads to `dest` when it is a word. -/
theorem landing (hp : p.toNat % 4 = 0) (hdest : dest.toNat % 4 = 0) : p + delta p dest <<< 2 = dest := by
  have hdiff : (dest - p).toNat % 4 = 0 := by
    have := p.isLt
    rw [BitVec.toNat_sub]
    omega
  rw [delta, (sshiftRight_shiftLeft _).mpr hdiff, BitVec.add_comm, BitVec.sub_add_cancel]

/-- A branch that leads to `fromAddr` is taken for one. -/
theorem taken_of_target (h : target p ins = some fromAddr) : ∃ kind, Taken p fromAddr ins kind := by
  obtain ⟨kind, hk, hsum⟩ := Option.map_eq_some_iff.mp h
  refine ⟨kind, hk, ?_⟩
  have hwidth : kind.width ≤ 32 := by cases kind <;> decide
  have hdiff : fromAddr - p = (displacement kind ins).signExtend 64 <<< 2 := by
    rw [← hsum, BitVec.add_comm, BitVec.add_sub_cancel]
  have hbounds := toInt_signExtend_bounds hwidth (displacement kind ins)
  rw [delta, hdiff, shiftLeft_sshiftRight _ (by omega) (by omega)]
  ext j hj
  have hcompared : kind.compared ≤ kind.width := by cases kind <;> decide
  rw [BitVec.getElem_extractLsb', BitVec.getElem_setWidth, BitVec.getLsbD_signExtend, if_pos (by omega),
    decide_eq_true (by omega : j < 64), displacement, BitVec.getLsbD_extractLsb', decide_eq_true (by omega : j < kind.width)]
  rfl

/-- A new displacement does not change what kind of branch an instruction is. -/
theorem branchKind_redirect (hk : branchKind ins = some kind) : branchKind (redirect p dest ins kind) = some kind := by
  have hsame : ∀ m : BitVec 32, m &&& fieldMask 32 kind.lo kind.width = 0#32 →
      redirect p dest ins kind &&& m = ins &&& m := by
    intro m hm
    exact insertField_and (by cases kind <;> decide) hm _ _
  have h1 := hsame 0xfc000000 (by cases kind <;> decide)
  rw [← hk]
  unfold branchKind
  rw [h1]
  by_cases hb : ins &&& 0xfc000000 = 0x14000000
  · rw [if_pos hb, if_pos hb]
  · have hne : kind ≠ .imm26 := by
      rintro rfl
      unfold branchKind at hk
      rw [if_neg hb] at hk
      split_ifs at hk <;> cases hk
    rw [hsame 0xff000000 (by cases kind <;> first | decide | exact absurd rfl hne),
      hsame 0x7e000000 (by cases kind <;> first | decide | exact absurd rfl hne)]

/-- A branch led to a word that is in its range leads there. -/
theorem target_redirect (hk : branchKind ins = some kind) (hreach : InReach p dest kind) (hp : p.toNat % 4 = 0)
    (hdest : dest.toNat % 4 = 0) : target p (redirect p dest ins kind) = some dest := by
  have hfield : displacement kind (redirect p dest ins kind) = (delta p dest).setWidth kind.width :=
    extract_insertField (by cases kind <;> decide) _ _
  have hextend := signExtend_setWidth (by cases kind <;> decide) (by cases kind <;> decide) (delta p dest) hreach.1 hreach.2
  rw [target, branchKind_redirect hk, Option.map_some, hfield, hextend, landing hp hdest]

/-! ## The scan -/

/-- What holds of the instructions from `i` on when they have been scanned. -/
structure Inv (a : Area) (fromAddr toAddr : BitVec 64) (i : ℕ) (s : State) : Prop where
  changed : ∀ k, k ∈ s.changed ↔ i ≤ k ∧ k < a.count ∧ ∃ kind, Taken (a.addr k) fromAddr (a.words k) kind
  nodup : s.changed.Nodup
  same : ∀ k, k ∉ s.changed → s.words k = a.words k
  /-- A branch leads to `toAddr`, or to a `B` behind it that was patched before. -/
  patched : ∀ k ∈ s.changed, ∃ kind dest, branchKind (a.words k) = some kind ∧ InReach (a.addr k) dest kind ∧
    s.words k = redirect (a.addr k) dest (a.words k) kind ∧
    (dest = toAddr ∨ kind ≠ .imm26 ∧ ∃ j ∈ s.changed, k < j ∧ branchKind (a.words j) = some .imm26 ∧ dest = a.addr j)
  veneer : s.veneer ≠ 0 → ∃ j ∈ s.changed, branchKind (a.words j) = some .imm26 ∧ s.veneer = a.addr j
  ret : s.ret = BitVec.ofNat 32 s.changed.length

theorem Inv.init : Inv a fromAddr toAddr a.count { words := a.words, ret := 0, veneer := 0, changed := [] } where
  changed k := by simp; omega
  nodup := List.nodup_nil
  same _ _ := rfl
  patched k h := absurd h List.not_mem_nil
  veneer h := absurd rfl h
  ret := rfl

theorem Inv.step (I : Inv a fromAddr toAddr (k + 1) s) (hk : k < a.count)
    (h : patchInsn a fromAddr toAddr k s = some s') : Inv a fromAddr toAddr k s' := by
  have hnew : k ∉ s.changed := fun hmem => absurd ((I.changed k).mp hmem).1 (by omega)
  have hword := I.same k hnew
  rcases patchInsn_cases h with ⟨hno, rfl⟩ | ⟨kind, dest, htaken, hreach, hdest, rfl⟩
  · rw [hword] at hno
    refine { I with changed := fun j => ?_ }
    rw [I.changed j]
    constructor
    · rintro ⟨h1, h2⟩
      exact ⟨by omega, h2⟩
    · rintro ⟨h1, h2, kind, ht⟩
      rcases Nat.lt_or_eq_of_le h1 with hlt | rfl
      · exact ⟨hlt, h2, kind, ht⟩
      · exact absurd ht (hno kind)
  · rw [hword] at htaken
    constructor
    · intro j
      simp only [State.store, List.mem_cons, I.changed j]
      constructor
      · rintro (rfl | ⟨h1, h2⟩)
        · exact ⟨le_rfl, hk, kind, htaken⟩
        · exact ⟨by omega, h2⟩
      · rintro ⟨h1, h2⟩
        rcases Nat.lt_or_eq_of_le h1 with hlt | rfl
        · exact Or.inr ⟨hlt, h2⟩
        · exact Or.inl rfl
    · exact List.nodup_cons.mpr ⟨hnew, I.nodup⟩
    · intro j hj
      simp only [State.store, List.mem_cons, not_or] at hj ⊢
      rw [Function.update_of_ne hj.1]
      exact I.same j hj.2
    · intro j hj
      rcases List.mem_cons.mp hj with rfl | hj
      · refine ⟨kind, dest, htaken.1, hreach, ?_, hdest.imp_right ?_⟩
        · simp only [State.store, Function.update_self, hword]
        · rintro ⟨hkind, hv, rfl⟩
          obtain ⟨m, hm, hb, heq⟩ := I.veneer hv
          exact ⟨hkind, m, List.mem_cons_of_mem _ hm, ((I.changed m).mp hm).1, hb, heq⟩
      · obtain ⟨kind', dest', h1, h2, h3, h4⟩ := I.patched j hj
        have hne : j ≠ k := fun he => hnew (he ▸ hj)
        refine ⟨kind', dest', h1, h2, ?_, h4.imp_right ?_⟩
        · simp only [State.store, Function.update_of_ne hne]
          exact h3
        · rintro ⟨hkind, m, hm, hrest⟩
          exact ⟨hkind, m, List.mem_cons_of_mem _ hm, hrest⟩
    · intro hv
      simp only at hv ⊢
      by_cases hb : kind = .imm26 ∧ s.veneer = 0
      · rw [if_pos hb]
        exact ⟨k, List.mem_cons_self, by rw [htaken.1, hb.1], rfl⟩
      · rw [if_neg hb] at hv ⊢
        obtain ⟨m, hm, hrest⟩ := I.veneer hv
        exact ⟨m, List.mem_cons_of_mem _ hm, hrest⟩
    · simp only [State.store, List.length_cons, I.ret, BitVec.ofNat_add]
      rfl

theorem Inv.run (hi : i ≤ a.count) (I : Inv a fromAddr toAddr i s) (h : patchFrom a fromAddr toAddr i s = some s') :
    Inv a fromAddr toAddr 0 s' := by
  induction i generalizing s with
  | zero =>
    rw [patchFrom, Option.some.injEq] at h
    rwa [← h]
  | succ i ih =>
    obtain ⟨s₁, h₁, h₂⟩ := Option.bind_eq_some_iff.mp h
    exact ih (by omega) (I.step (by omega) h₁) h₂

/-! ## The jump table -/

theorem patchSlots_eq (slots : List (BitVec 64)) : patchSlots fromAddr toAddr slots
    = (slots.map fun slot => if slot = fromAddr then toAddr else slot, BitVec.ofNat 32 (slots.count fromAddr)) := by
  induction slots with
  | nil => rfl
  | cons slot slots ih =>
    rw [patchSlots, ih, List.map_cons, List.count_cons]
    by_cases h : slot = fromAddr
    · simp only [h, if_true, beq_self_eq_true, BitVec.ofNat_add]
      rfl
    · simp [h]

/-! ## The whole area -/

/-- The branches and slots that lead to `fromAddr`, and no others, lead to `toAddr`, and are counted. -/
structure Retargeted (a : Area) (fromAddr toAddr : BitVec 64) (slots : List (BitVec 64)) (r : Result) : Prop where
  changed : ∀ k, k ∈ r.changed ↔ k < a.count ∧ target (a.addr k) (a.words k) = some fromAddr
  nodup : r.changed.Nodup
  same : ∀ k, k ∉ r.changed → r.words k = a.words k
  /-- The other bits of a branch stay. -/
  bits : ∀ k ∈ r.changed, ∃ kind, branchKind (a.words k) = some kind ∧
    r.words k &&& ~~~fieldMask 32 kind.lo kind.width = a.words k &&& ~~~fieldMask 32 kind.lo kind.width
  /-- A branch leads to `toAddr` directly, or through a `B` behind it that was patched before. -/
  leads : ∀ k ∈ r.changed, target (a.addr k) (r.words k) = some toAddr ∨
    ∃ j ∈ r.changed, k < j ∧ branchKind (r.words j) = some .imm26 ∧ target (a.addr j) (r.words j) = some toAddr ∧
      target (a.addr k) (r.words k) = some (a.addr j)
  table : r.slots = slots.map fun slot => if slot = fromAddr then toAddr else slot
  count : r.ret.toInt = r.changed.length + slots.count fromAddr

/-- The branches that are taken for branches to `fromAddr` are such branches. -/
def Unconfused (a : Area) (fromAddr : BitVec 64) : Prop :=
  ∀ k < a.count, ∀ kind, Taken (a.addr k) fromAddr (a.words k) kind → target (a.addr k) (a.words k) = some fromAddr

/-- The number of branches that lead to `fromAddr`. -/
def branchesTo (a : Area) (fromAddr : BitVec 64) : ℕ :=
  (List.range a.count).countP fun k => target (a.addr k) (a.words k) = some fromAddr

theorem Inv.bits (I : Inv a fromAddr toAddr i s) (hk : k ∈ s.changed) : ∃ kind, branchKind (a.words k) = some kind ∧
    s.words k &&& ~~~fieldMask 32 kind.lo kind.width = a.words k &&& ~~~fieldMask 32 kind.lo kind.width := by
  obtain ⟨kind, dest, hkind, _, hword, _⟩ := I.patched k hk
  refine ⟨kind, hkind, ?_⟩
  rw [hword]
  exact insertField_and (by cases kind <;> decide) (by cases kind <;> decide) _ _

/-- A patched branch leads to `toAddr`, or to a patched `B` that leads there. -/
theorem Inv.leads (I : Inv a fromAddr toAddr i s) (hto : toAddr.toNat % 4 = 0) (hk : k ∈ s.changed) :
    target (a.addr k) (s.words k) = some toAddr ∨
      ∃ j ∈ s.changed, k < j ∧ branchKind (s.words j) = some .imm26 ∧ target (a.addr j) (s.words j) = some toAddr ∧
        target (a.addr k) (s.words k) = some (a.addr j) := by
  obtain ⟨kind, dest, hkind, hreach, hword, hdest⟩ := I.patched k hk
  rcases hdest with rfl | ⟨_, j, hj, hlt, hb, rfl⟩
  · rw [hword]
    exact Or.inl (target_redirect hkind hreach (addr_aligned a k) hto)
  · obtain ⟨kind', dest', hkind', hreach', hword', hdest'⟩ := I.patched j hj
    rw [hb, Option.some.injEq] at hkind'
    subst hkind'
    obtain rfl : dest' = toAddr := hdest'.resolve_right fun h => h.1 rfl
    refine Or.inr ⟨j, hj, hlt, ?_, ?_, ?_⟩
    · rw [hword']
      exact branchKind_redirect hb
    · rw [hword']
      exact target_redirect hb hreach' (addr_aligned a j) hto
    · rw [hword]
      exact target_redirect hkind hreach (addr_aligned a k) (addr_aligned a j)

/-- The instructions stored to, when they are the branches to `fromAddr`. -/
theorem length_changed {changed : List ℕ} (hnodup : changed.Nodup)
    (h : ∀ k, k ∈ changed ↔ k < a.count ∧ target (a.addr k) (a.words k) = some fromAddr) :
    changed.length = branchesTo a fromAddr := by
  rw [branchesTo, List.countP_eq_length_filter]
  refine ((List.perm_ext_iff_of_nodup hnodup (List.nodup_range.filter _)).mpr fun k => ?_).length_eq
  rw [h, List.mem_filter, List.mem_range, decide_eq_true_eq]

theorem toInt_ofNat_iff (n : ℕ) : (BitVec.ofNat 32 n).toInt = n ↔ n < 2 ^ 31 := by
  rw [BitVec.toInt_eq_toNat_cond, BitVec.toNat_ofNat]
  split_ifs <;> omega

/-- **`ir_patch` retargets exactly the right branches**, provided that no other branch is taken for one of them, the
new address is a word and the counter has room. -/
theorem ir_patch_retargets (a : Area) (fromAddr toAddr : BitVec 64) (slots : List (BitVec 64)) (r : Result)
    (h : irPatch a fromAddr toAddr slots = some r) :
    Retargeted a fromAddr toAddr slots r ↔ Unconfused a fromAddr ∧
      (toAddr.toNat % 4 = 0 ∨ branchesTo a fromAddr = 0) ∧ branchesTo a fromAddr + slots.count fromAddr < 2 ^ 31 := by
  obtain ⟨s, hs, hr⟩ := Option.bind_eq_some_iff.mp h
  have I := Inv.init.run le_rfl hs
  rw [patchSlots_eq, Option.some.injEq] at hr
  subst hr
  have hret : BitVec.ofNat 32 (slots.count fromAddr) + s.ret = BitVec.ofNat 32 (s.changed.length + slots.count fromAddr) := by
    rw [I.ret, BitVec.ofNat_add, BitVec.add_comm]
  constructor
  · intro R
    have hlength := length_changed R.nodup R.changed
    have hcount := R.count
    simp only [hret, hlength] at hcount
    refine ⟨fun k hk kind ht => ?_, ?_, (toInt_ofNat_iff _).mp (by push_cast at hcount ⊢; exact hcount)⟩
    · exact ((R.changed k).mp ((I.changed k).mpr ⟨Nat.zero_le k, hk, kind, ht⟩)).2
    · rw [or_iff_not_imp_right, ← hlength]
      intro hne
      obtain ⟨k, hk⟩ := List.exists_mem_of_length_pos (Nat.pos_of_ne_zero hne)
      -- some branch leads to `toAddr`, so it is a word
      rcases R.leads k hk with ht | ⟨j, _, _, _, ht, _⟩
      · exact target_aligned (addr_aligned a k) ht
      · exact target_aligned (addr_aligned a j) ht
  · rintro ⟨hclear, haligned, hroom⟩
    have hchanged : ∀ k, k ∈ s.changed ↔ k < a.count ∧ target (a.addr k) (a.words k) = some fromAddr := by
      intro k
      rw [I.changed k]
      constructor
      · rintro ⟨_, hk, kind, ht⟩
        exact ⟨hk, hclear k hk kind ht⟩
      · rintro ⟨hk, ht⟩
        exact ⟨Nat.zero_le k, hk, taken_of_target ht⟩
    have hlength := length_changed I.nodup hchanged
    refine ⟨hchanged, I.nodup, I.same, fun k hk => I.bits hk, fun k hk => ?_, rfl, ?_⟩
    · rcases haligned with hto | hzero
      · exact I.leads hto hk
      · rw [← hlength, List.length_eq_zero_iff] at hzero
        simp only [hzero, List.not_mem_nil] at hk
    · simp only [hret, hlength]
      rw [(toInt_ofNat_iff _).mpr hroom]
      push_cast
      rfl

/-! ## A branch that is taken for another -/

/-- `B .+8` at the address `4096`. -/
def branchToTwo : Area := ⟨4096, 1, fun _ => 0x14000002, by decide⟩

/-- The branch is led from `4104` to `4112`. -/
theorem branchToTwo_retargeted : ∃ r, irPatch branchToTwo 4104 4112 [4104] = some r ∧
    Retargeted branchToTwo 4104 4112 [4104] r := by
  refine ⟨_, rfl, (ir_patch_retargets branchToTwo 4104 4112 [4104] _ rfl).mpr ⟨fun k hk kind _ => ?_, ?_, ?_⟩⟩
  · obtain rfl : k = 0 := Nat.lt_one_iff.mp hk
    decide
  · exact Or.inl (by decide)
  · decide

/-- `B` over 128 MiB backwards, at the address `2 ^ 32`. -/
def farBranch : Area := ⟨0x100000000, 1, fun _ => 0x16000000, by decide⟩

/-- The branch leads to `0xf8000000`, but is patched as a branch to `0x100000000`. -/
theorem farBranch_patched : ∃ r, irPatch farBranch 0x100000000 0x100000008 [] = some r ∧
    ¬ Retargeted farBranch 0x100000000 0x100000008 [] r := by
  refine ⟨_, rfl, fun R => ?_⟩
  have hmem := (R.changed 0).mp List.mem_cons_self
  exact absurd hmem.2 (by decide)

end IrJit.Patch
