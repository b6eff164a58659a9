import Mathlib.Data.List.Nodup
import IrJit.X86.SwitchSpec

/-!
# X86.SwitchSequence — where the compare sequence of a SWITCH goes

`SwitchOk` is what the IR promises of a SWITCH, `Lands` what the code owes to an operand.
-/

namespace IrJit.X86.Switch

/-- The constants of a case are of the type. -/
def CaseInsn.IsConst (type : IrType) : CaseInsn → Prop
  | .caseVal v => extend type v = v
  | .caseRange v v2 => extend type v = v ∧ extend type v2 = v2 ∧ value type v ≤ value type v2
  | .caseDefault => True

/-- A well-formed SWITCH, in code that is written into the buffer. -/
structure SwitchOk (sw : SwitchInsn) (site : Site) : Prop where
  type : IsOperandType sw.type
  const : ∀ t ∈ sw.successors, t.insn.IsConst sw.type
  apart : ∀ t ∈ sw.successors, ∀ t' ∈ sw.successors, ∀ x, t.insn.Hits sw.type x → t'.insn.Hits sw.type x → t = t'
  oneDefault : ∀ t ∈ sw.successors, ∀ t' ∈ sw.successors, t.insn = .caseDefault → t'.insn = .caseDefault → t = t'
  blocks : (sw.successors.map Successor.block).Nodup
  inBuffer : ∀ b, site.codeBuffer = some b → b.start.toInt ≤ site.table.toInt ∧ site.table.toInt ≤ b.stop.toInt

/-- The entry of the table at an address. -/
def entryAt (table : Word) (labels : List (Option ℕ)) (addr : Word) : Option ℕ :=
  if (addr - table).toNat % 8 = 0 then labels.getD ((addr - table).toNat / 8) none else none

/-- The block that is entered. -/
def Jump.target (table : Word) (labels : List (Option ℕ)) : Jump → Option ℕ
  | .block b => some b
  | .mem addr => entryAt table labels addr
  | .fallThrough => none

/-- The operand `x` goes to the block of its case, or else to the default block. -/
structure Lands (sw : SwitchInsn) (site : Site) (x : Word) (j : Jump) : Prop where
  case : ∀ t ∈ sw.successors, t.insn.Hits sw.type x → j.target site.table sw.labels = some t.block
  default : (∀ t ∈ sw.successors, ¬ t.insn.Hits sw.type x) → ∀ t ∈ sw.successors, t.insn = .caseDefault →
    j.target site.table sw.labels = some t.block

section

variable {sw : SwitchInsn} {site : Site} {table : Word} {s : SwState}

theorem defaultBlock_foldl (l : List Successor) (d : Option ℕ) :
    l.foldl (fun d s => if s.insn = .caseDefault then some s.block else d) d = d ∧ (∀ t ∈ l, t.insn ≠ .caseDefault) ∨
      ∃ t ∈ l, t.insn = .caseDefault ∧
        l.foldl (fun d s => if s.insn = .caseDefault then some s.block else d) d = some t.block := by
  induction l generalizing d with
  | nil => exact Or.inl ⟨rfl, by simp⟩
  | cons t l ih =>
    rw [List.foldl_cons]
    by_cases ht : t.insn = .caseDefault
    · rw [if_pos ht]
      right
      rcases ih (some t.block) with ⟨h, -⟩ | ⟨t', ht', h⟩
      · exact ⟨t, List.mem_cons_self, ht, h⟩
      · exact ⟨t', List.mem_cons_of_mem t ht', h⟩
    · rw [if_neg ht]
      rcases ih d with ⟨h, hno⟩ | ⟨t', ht', h⟩
      · refine Or.inl ⟨h, fun t' ht' => ?_⟩
        rcases List.mem_cons.mp ht' with rfl | ht'
        · exact ht
        · exact hno t' ht'
      · exact Or.inr ⟨t', List.mem_cons_of_mem t ht', h⟩

theorem defaultBlock_eq_none : sw.defaultBlock = none ↔ ∀ t ∈ sw.successors, t.insn ≠ .caseDefault := by
  unfold SwitchInsn.defaultBlock
  rcases defaultBlock_foldl sw.successors none with ⟨h, hno⟩ | ⟨t, ht, hd, h⟩
  · exact ⟨fun _ => hno, fun _ => h⟩
  · refine ⟨fun h' => ?_, fun h' => absurd hd (h' t ht)⟩
    rw [h] at h'
    cases h'

/-- There is one default block. -/
theorem SwitchOk.defaultBlock (ok : SwitchOk sw site) {t : Successor} (ht : t ∈ sw.successors)
    (hd : t.insn = .caseDefault) : sw.defaultBlock = some t.block := by
  unfold SwitchInsn.defaultBlock
  rcases defaultBlock_foldl sw.successors none with ⟨-, hno⟩ | ⟨t', ht', hd', h⟩
  · exact absurd hd (hno t ht)
  · rw [h, ok.oneDefault t ht t' ht' hd hd']

theorem SwitchOk.eq_of_block (ok : SwitchOk sw site) {t t' : Successor} (ht : t ∈ sw.successors)
    (ht' : t' ∈ sw.successors) (h : t.block = t'.block) : t = t' :=
  List.inj_on_of_nodup_map ok.blocks ht ht' h

/-! ### The run of the sequence -/

/-- The successor is entered by its code. -/
def Enters (sw : SwitchInsn) (s : SwState) (t : Successor) : Prop :=
  (t.insn.seen sw.type).Hits sw.type (extend sw.type s.op2)

theorem exec_cases_miss (ht : IsOperandType sw.type) (table : Word) (rest : List Instr) (l : List Successor) :
    ∀ s : SwState, (∀ t ∈ l, ¬ Enters sw s t) →
      ∃ s', exec table false (l.flatMap sw.emitCase ++ rest) s = exec table false rest s' ∧ s'.op2 = s.op2 := by
  induction l with
  | nil => exact fun s _ => ⟨s, rfl, rfl⟩
  | cons t l ih =>
    intro s h
    rw [List.flatMap_cons, List.append_assoc]
    obtain ⟨s₁, hexec, hop⟩ := (exec_emitCase sw ht table t (l.flatMap sw.emitCase ++ rest) s).2
      (h t List.mem_cons_self)
    obtain ⟨s₂, hexec₂, hop₂⟩ := ih s₁ (fun t' ht' => by
      unfold Enters
      rw [hop]
      exact h t' (List.mem_cons_of_mem t ht'))
    exact ⟨s₂, hexec.trans hexec₂, hop₂.trans hop⟩

/-- The first successor that is entered. -/
theorem exec_emitSequence_hit (ht : IsOperandType sw.type) {before after : List Successor} {t : Successor}
    (hl : sw.successors = before ++ t :: after) (hbefore : ∀ t' ∈ before, ¬ Enters sw s t') (h : Enters sw s t) :
    exec table false sw.emitSequence s = .block t.block := by
  unfold SwitchInsn.emitSequence
  rw [hl, List.flatMap_append, List.append_assoc, List.flatMap_cons, List.append_assoc]
  obtain ⟨s', hexec, hop⟩ := exec_cases_miss ht table (sw.emitCase t ++ (after.flatMap sw.emitCase ++
    sw.emitDefault)) before s hbefore
  rw [hexec]
  refine (exec_emitCase sw ht table t _ s').1 ?_
  rw [hop]
  exact h

theorem exec_emitSequence_miss (ht : IsOperandType sw.type) (h : ∀ t ∈ sw.successors, ¬ Enters sw s t) {d : ℕ}
    (hd : sw.defaultBlock = some d) : exec table false sw.emitSequence s = .block d := by
  unfold SwitchInsn.emitSequence SwitchInsn.emitDefault
  rw [hd]
  obtain ⟨s', hexec, -⟩ := exec_cases_miss ht table [.jmp d] sw.successors s h
  rw [hexec]
  rfl

/-- The first successor with a property. -/
theorem exists_first {P : Successor → Prop} (l : List Successor) (h : ∃ t ∈ l, P t) :
    ∃ before t after, l = before ++ t :: after ∧ P t ∧ ∀ t' ∈ before, ¬ P t' := by
  induction l with
  | nil =>
    obtain ⟨t, ht, -⟩ := h
    cases ht
  | cons t l ih =>
    by_cases hP : P t
    · exact ⟨[], t, l, rfl, hP, by simp⟩
    · obtain ⟨t', ht', hP'⟩ := h
      rcases List.mem_cons.mp ht' with rfl | ht'
      · exact absurd hP' hP
      · obtain ⟨before, t₀, after, rfl, h₀, hno⟩ := ih ⟨t', ht', hP'⟩
        refine ⟨t :: before, t₀, after, rfl, h₀, fun u hu => ?_⟩
        rcases List.mem_cons.mp hu with rfl | hu
        · exact hP
        · exact hno u hu

/-! ### The condition -/

/-- No constant is seen as another one, but for upper bounds of ranges behind which nothing is left. -/
def SequenceFits (sw : SwitchInsn) : Prop :=
  ∀ before t after, sw.successors = before ++ t :: after →
    match t.insn with
    | .caseVal v => ¬ IsWide sw.type v
    | .caseRange v v2 => ¬ IsWide sw.type v ∧ (IsWide sw.type v2 →
        ∀ x, value sw.type v2 < value sw.type x → value sw.type x ≤ value sw.type (seen sw.type v2) →
          (∃ t' ∈ before, t'.insn.Hits sw.type x) ∨
            (sw.defaultBlock = none ∧ ∀ t' ∈ sw.successors, ¬ t'.insn.Hits sw.type x))
    | .caseDefault => True

theorem value_seen_wide {type : IrType} {v : Word} (h : IsWide type v) :
    value type (seen type v) = value type v + (2 ^ 64 - 2 ^ 32) := by
  have hs := h.2.1
  have hseen := seen_wide h
  unfold value
  simp only [hs, Bool.false_eq_true, if_false]
  omega

/-- What is in a case is also in what is seen of it. -/
theorem SequenceFits.hits_seen (F : SequenceFits sw) (ok : SwitchOk sw site) {t : Successor}
    (ht : t ∈ sw.successors) {x : Word} (h : t.insn.Hits sw.type x) : (t.insn.seen sw.type).Hits sw.type x := by
  obtain ⟨before, after, hl⟩ := List.append_of_mem ht
  have hF := F before t after hl
  have hc := ok.const t ht
  obtain ⟨insn, block⟩ := t
  cases insn with
  | caseDefault => exact h
  | caseVal v =>
    change x = seen sw.type v
    rw [seen_eq ok.type hc hF]
    exact h
  | caseRange v v2 =>
    obtain ⟨h1, h2⟩ := h
    obtain ⟨hc1, hc2, -⟩ := hc
    refine ⟨?_, ?_⟩
    · rwa [seen_eq ok.type hc1 hF.1]
    · by_cases hw : IsWide sw.type v2
      · rw [value_seen_wide hw]
        omega
      · rwa [seen_eq ok.type hc2 hw]

theorem SequenceFits.lands (F : SequenceFits sw) (ok : SwitchOk sw site) (s : SwState) :
    Lands sw site (extend sw.type s.op2) (exec site.table false sw.emitSequence s) := by
  by_cases hex : ∃ t ∈ sw.successors, Enters sw s t
  · obtain ⟨before, t, after, hl, henter, hno⟩ := exists_first sw.successors hex
    have ht : t ∈ sw.successors := by
      rw [hl]
      simp
    have hmem : ∀ t' ∈ before, t' ∈ sw.successors := by
      intro t' ht'
      rw [hl]
      simp [ht']
    rw [exec_emitSequence_hit ok.type hl hno henter]
    -- what was entered was hit, or nothing is owed
    have hhit : t.insn.Hits sw.type (extend sw.type s.op2) ∨
        (sw.defaultBlock = none ∧ ∀ t' ∈ sw.successors, ¬ t'.insn.Hits sw.type (extend sw.type s.op2)) := by
      have hF := F before t after hl
      have hc := ok.const t ht
      unfold Enters at henter
      obtain ⟨insn, block⟩ := t
      cases insn with
      | caseDefault => exact Or.inl henter
      | caseVal v =>
        left
        change extend sw.type s.op2 = seen sw.type v at henter
        rwa [seen_eq ok.type hc hF] at henter
      | caseRange v v2 =>
        obtain ⟨h1, h2⟩ := henter
        obtain ⟨hc1, hc2, -⟩ := hc
        rw [seen_eq ok.type hc1 hF.1] at h1
        by_cases hw : IsWide sw.type v2
        · by_cases hle : value sw.type (extend sw.type s.op2) ≤ value sw.type v2
          · exact Or.inl ⟨h1, hle⟩
          · rcases hF.2 hw _ (not_le.mp hle) h2 with ⟨t', ht', h'⟩ | h
            · exact absurd (F.hits_seen ok (hmem t' ht') h') (hno t' ht')
            · exact Or.inr h
        · rw [seen_eq ok.type hc2 hw] at h2
          exact Or.inl ⟨h1, h2⟩
    rcases hhit with hhit | ⟨hnone, hmiss⟩
    · refine ⟨fun t' ht' h' => ?_, fun h => absurd hhit (h t ht)⟩
      rw [ok.apart t' ht' t ht _ h' hhit]
      rfl
    · exact ⟨fun t' ht' h' => absurd h' (hmiss t' ht'),
        fun _ t' ht' hd => absurd hd (defaultBlock_eq_none.mp hnone t' ht')⟩
  · push Not at hex
    refine ⟨fun t ht h => absurd (F.hits_seen ok ht h) (hex t ht), fun _ t ht hd => ?_⟩
    rw [exec_emitSequence_miss ok.type hex (ok.defaultBlock ht hd)]
    rfl

/-- A successor whose block the sequence ends in is the first one entered, or the default. -/
theorem SwitchOk.of_target (ok : SwitchOk sw site) {before after : List Successor} {t : Successor}
    (hl : sw.successors = before ++ t :: after)
    (h : (exec site.table false sw.emitSequence s).target site.table sw.labels = some t.block) :
    t.insn = .caseDefault ∨ (Enters sw s t ∧ ∀ t' ∈ before, ¬ Enters sw s t') := by
  have ht : t ∈ sw.successors := by
    rw [hl]
    simp
  by_cases hex : ∃ t ∈ sw.successors, Enters sw s t
  · obtain ⟨before', t', after', hl', henter, hno⟩ := exists_first sw.successors hex
    rw [exec_emitSequence_hit ok.type hl' hno henter] at h
    have heq : t' = t := ok.eq_of_block (by rw [hl']; simp) ht (Option.some.inj h)
    subst heq
    have hnodup : sw.successors.Nodup := List.Nodup.of_map _ ok.blocks
    rw [hl, List.nodup_middle, List.nodup_cons, List.mem_append, not_or] at hnodup
    rw [hl] at hl'
    obtain ⟨hb, -, -⟩ := (List.append_cons_inj_of_notMem hnodup.1.1 hnodup.1.2).mp hl'
    exact Or.inr ⟨henter, hb ▸ hno⟩
  · push Not at hex
    left
    cases hd : sw.defaultBlock with
    | none =>
      obtain ⟨s', hexec, -⟩ := exec_cases_miss ok.type site.table [] sw.successors s hex
      unfold SwitchInsn.emitSequence SwitchInsn.emitDefault at h
      rw [hd] at h
      dsimp only at h
      rw [hexec] at h
      cases h
    | some d =>
      rw [exec_emitSequence_miss ok.type hex hd] at h
      have hsome : sw.defaultBlock ≠ none := by simp [hd]
      rw [Ne, defaultBlock_eq_none] at hsome
      push Not at hsome
      obtain ⟨t', ht', hd'⟩ := hsome
      have hb := ok.defaultBlock ht' hd'
      rw [hd] at hb
      have heq : t' = t := ok.eq_of_block ht' ht ((Option.some.inj hb).symm.trans (Option.some.inj h))
      rwa [heq] at hd'

/-- **The compare sequence** lands everywhere exactly when the constants fit. -/
theorem sequence_exact (ok : SwitchOk sw site) :
    (∀ s, Lands sw site (extend sw.type s.op2) (exec site.table false sw.emitSequence s)) ↔ SequenceFits sw := by
  refine ⟨fun h => ?_, fun F s => F.lands ok s⟩
  intro before t after hl
  have ht : t ∈ sw.successors := by
    rw [hl]
    simp
  have hc := ok.const t ht
  -- a constant of the type, tried as the operand
  have hland : ∀ x, extend sw.type x = x → Lands sw site x
      (exec site.table false sw.emitSequence ⟨x, 0, ⟨false, false, false⟩⟩) := by
    intro x hx
    have := h ⟨x, 0, ⟨false, false, false⟩⟩
    rwa [hx] at this
  have henters : ∀ x, Enters sw ⟨x, 0, ⟨false, false, false⟩⟩ t ↔
      (t.insn.seen sw.type).Hits sw.type (extend sw.type x) := fun x => Iff.rfl
  obtain ⟨insn, block⟩ := t
  cases insn with
  | caseDefault => trivial
  | caseVal v =>
    intro hw
    change extend sw.type v = v at hc
    have htarget := (hland v hc).case _ ht rfl
    rcases ok.of_target hl htarget with hd | ⟨he, -⟩
    · cases hd
    · rw [henters, hc] at he
      change v = seen sw.type v at he
      have hnat := seen_wide hw
      rw [← he] at hnat
      omega
  | caseRange v v2 =>
    obtain ⟨hc1, hc2, hle⟩ := hc
    refine ⟨fun hw => ?_, fun hw x hlt hseen => ?_⟩
    · have htarget := (hland v hc1).case _ ht ⟨le_refl _, hle⟩
      rcases ok.of_target hl htarget with hd | ⟨he, -⟩
      · cases hd
      · rw [henters, hc1] at he
        have hval := he.1
        rw [value_seen_wide hw] at hval
        omega
    · -- behind the range the code still enters it
      have hx : extend sw.type x = x := extend_eight hw.1 x
      by_contra hcon
      push Not at hcon
      obtain ⟨hno, hrest⟩ := hcon
      have hnotin : ¬ CaseInsn.Hits sw.type x (.caseRange v v2) := fun hh => absurd hh.2 (not_le.mpr hlt)
      have hv : ¬ IsWide sw.type v := by
        intro hwv
        have htarget := (hland v hc1).case _ ht ⟨le_refl _, hle⟩
        rcases ok.of_target hl htarget with hd | ⟨he, -⟩
        · cases hd
        · rw [henters, hc1] at he
          have hval := he.1
          rw [value_seen_wide hwv] at hval
          omega
      have henter : Enters sw ⟨x, 0, ⟨false, false, false⟩⟩ ⟨.caseRange v v2, block⟩ := by
        rw [henters, hx]
        refine ⟨?_, hseen⟩
        rw [seen_eq ok.type hc1 hv]
        omega
      -- where the operand belongs comes later, or is the default
      have hwrong : ∀ t' ∈ sw.successors, (t' ∈ before → ¬ Enters sw ⟨x, 0, ⟨false, false, false⟩⟩ t') →
          t' ≠ ⟨.caseRange v v2, block⟩ →
          (exec site.table false sw.emitSequence ⟨x, 0, ⟨false, false, false⟩⟩).target site.table sw.labels ≠
            some t'.block := by
        intro t' ht' hn hne htarget
        by_cases hex : ∃ u ∈ before, Enters sw ⟨x, 0, ⟨false, false, false⟩⟩ u
        · obtain ⟨b₁, u, b₂, hb, hu, hfirst⟩ := exists_first before hex
          have hl' : sw.successors = b₁ ++ u :: (b₂ ++ ⟨.caseRange v v2, block⟩ :: after) := by
            rw [hl, hb, List.append_assoc, List.cons_append]
          rw [exec_emitSequence_hit ok.type hl' hfirst hu] at htarget
          have heq : u = t' := ok.eq_of_block (by rw [hl']; simp) ht' (Option.some.inj htarget)
          subst heq
          exact hn (by rw [hb]; simp) hu
        · push Not at hex
          rw [exec_emitSequence_hit ok.type hl hex henter] at htarget
          exact hne (ok.eq_of_block ht' ht (Option.some.inj htarget).symm)
      by_cases hany : ∃ t' ∈ sw.successors, t'.insn.Hits sw.type x
      · obtain ⟨t', ht', hhit⟩ := hany
        refine hwrong t' ht' (fun hb => absurd hhit (hno t' hb)) ?_ ((hland x hx).case t' ht' hhit)
        rintro rfl
        exact hnotin hhit
      · push Not at hany
        cases hd : sw.defaultBlock with
        | none =>
          obtain ⟨t', ht', hhit⟩ := hrest hd
          exact hany t' ht' hhit
        | some d =>
          have hsome : sw.defaultBlock ≠ none := by simp [hd]
          rw [Ne, defaultBlock_eq_none] at hsome
          push Not at hsome
          obtain ⟨t', ht', hd'⟩ := hsome
          refine hwrong t' ht' (fun _ he => ?_) ?_ ((hland x hx).default hany t' ht' hd')
          · unfold Enters at he
            rw [hd'] at he
            exact he
          · rintro rfl
            cases hd'

end

end IrJit.X86.Switch
