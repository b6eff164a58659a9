import IrJit.Ra.LiveRangesSpec

/-!
# Ra.Liveness — exact live sets and safe live ranges

`LivenessOk` says of the result of `ir_compute_live_ranges` that a register is on the list of a block
exactly when it is live at the end of the block, and that its interval holds every position on every
path from the definition to a use.

`livenessOk_iff`: this is so exactly when the function has neither of two patterns.

* `ListedUsesLive`: a use list holds control successors too, and a fused one leads on to its own
  users.  A static ALLOCA after a CALL is fused: the uses of the address make the result of the
  CALL live.
-/

namespace IrJit.Ra

variable (P : Prog)

/-- The position from which the register of `i` holds its value: a PHI sets it before its block. -/
def Prog.firstPos (i : ℕ) : ℕ := if P.isPhi i then P.startOf (P.cfgMap i) else P.defPosOf i

/-- The value of `i` is read at `pos` in block `c`.  An instruction that is skipped reads it at its
place. -/
def UsedAt (i c pos : ℕ) : Prop :=
  ∃ u ∈ (P.block c).body, P.isPhi u = false ∧ P.isFused u = false ∧
    ((P.isSkipped u = false ∧ ∃ r ∈ P.reads u, r.vreg = P.vregs i ∧ r.pos = pos) ∨
      (P.isSkipped u = true ∧ P.UsedBy i u ∧ pos = usePos u))

/-- `q` is a position of block `b`. -/
def InBlock (b q : ℕ) : Prop := P.startOf b ≤ q ∧ q < P.endOf b

/-- `q` is on a path from the definition of `i` to position `pos` of block `c`. -/
def OnWay (i c pos q : ℕ) : Prop :=
  ∃ b, InBlock P b q ∧ Relation.ReflTransGen (P.Step i) (P.cfgMap i) b ∧
    ((b = c ∧ q < pos) ∨ Relation.TransGen (P.Step i) b c) ∧ (b = P.cfgMap i → P.firstPos i ≤ q)

/-- `q` is on a path from the definition of `i` to the end of block `c`. -/
def OnWayOut (i c q : ℕ) : Prop :=
  ∃ b, InBlock P b q ∧ Relation.ReflTransGen (P.Step i) (P.cfgMap i) b ∧
    Relation.ReflTransGen (P.Step i) b c ∧ (b = P.cfgMap i → P.firstPos i ≤ q)

/-- The intervals hold every position from the definition to each use. -/
def RangesSafe (st : RangeState) : Prop :=
  ∀ i, P.vregs i ≠ 0 →
    (∀ c pos, UsedAt P i c pos → ∀ q, OnWay P i c pos q → Covers (st.ivals (P.vregs i)) q) ∧
    ∀ c, P.UsedAtEnd i c → ∀ q, OnWayOut P i c q → Covers (st.ivals (P.vregs i)) q

/-- **The result of `ir_compute_live_ranges` is exact for blocks and safe for instructions.** -/
def LivenessOk : Prop :=
  ∃ sets st, computeLiveRanges P = some (sets, st) ∧
    (∀ i, P.vregs i ≠ 0 → ∀ b, P.vregs i ∈ sets.outs b ↔ P.LiveOut i b) ∧ RangesSafe P st

/-- Where an instruction is the last one of its block to read a register that does not leave the
block, the operand that is met first reads it as late as the others. -/
def FirstReadLatest : Prop :=
  ∀ i, P.vregs i ≠ 0 → ∀ b u, P.Emitted b u → P.isPhi u = false →
    Relation.ReflTransGen (P.Step i) (P.cfgMap i) b → ¬ P.LiveOut i b →
    (∀ u', u < u' → P.Emitted b u' → P.isPhi u' = false → ¬ P.UsedBy i u') →
    ∀ r₀ rest, (P.reads u).filter (fun r => r.vreg = P.vregs i) = r₀ :: rest →
      ∀ r ∈ rest, r.pos ≤ r₀.upto

section

variable {P} (W : Wf P)

include W

/-! ### Positions -/

theorem endOf_le_startOf {b c : ℕ} (hb : P.InRange b) (hc : P.InRange c) (hlt : b < c) :
    P.endOf b ≤ P.startOf c := by
  have h := W.block_lt b c hb hc hlt
  simp only [Prog.endOf, Prog.startOf, endPos, loadPos]
  omega

/-- Blocks have no positions in common. -/
theorem inBlock_unique {b c q : ℕ} (hb : P.InRange b) (hc : P.InRange c) (h : InBlock P b q)
    (h' : InBlock P c q) : b = c := by
  rcases Nat.lt_trichotomy b c with hlt | heq | hgt
  · have hle := endOf_le_startOf W hb hc hlt
    have h1 := h.2
    have h2 := h'.1
    omega
  · exact heq
  · have hle := endOf_le_startOf W hc hb hgt
    have h1 := h.1
    have h2 := h'.2
    omega

omit W in
theorem defPosOf_bounds (i : ℕ) : loadPos i ≤ P.defPosOf i ∧ P.defPosOf i ≤ savePos i := by
  simp only [Prog.defPosOf, loadPos, usePos, defPos, savePos]
  split_ifs <;> omega

/-- The definition is in its block. -/
theorem firstPos_inBlock {i : ℕ} (hv : P.vregs i ≠ 0) : InBlock P (P.cfgMap i) (P.firstPos i) := by
  obtain ⟨hr, hlo, hhi, -, -⟩ := W.body_mem _ i (W.vreg_body i hv)
  have hb := defPosOf_bounds (P := P) i
  unfold Prog.firstPos InBlock
  simp only [Prog.startOf, Prog.endOf, loadPos, savePos, endPos] at *
  split_ifs <;> omega

/-- The range in a block stays in the block. -/
theorem stopIn_bounds {sets : LiveSets} {v b e : ℕ} (hb : P.InRange b) (h : stopIn P sets v b = some e) :
    P.startOf b ≤ e ∧ e ≤ P.endOf b := by
  unfold stopIn at h
  split_ifs at h with hout
  · injection h with h
    exact ⟨h ▸ startOf_le_endOf W hb, h ▸ Nat.le_refl _⟩
  · obtain ⟨r, hr, rfl⟩ := Option.map_eq_some_iff.mp h
    have hp := readsIn_pos W (List.mem_of_mem_head? hr)
    omega

/-! ### What the intervals hold -/

omit W in
/-- From the definition on, an interval holds the positions of the ranges in the blocks. -/
theorem covers_of_inRanges {sets : LiveSets} {i : ℕ} {rs₀ rs : List Range} (h : IntervalOf P sets i rs₀ rs)
    {b e q : ℕ} (hb : P.InRange b) (hdb : P.cfgMap i ≤ b) (hstop : stopIn P sets (P.vregs i) b = some e)
    (hlo : P.startOf b ≤ q) (hhi : q < e) (hfirst : P.isPhi i = false → P.defPosOf i ≤ q) :
    Covers rs q := by
  have hq : Covers rs₀ q := (h.covers q).mpr ⟨b, ⟨hb, hdb⟩, e, hstop, hlo, hhi⟩
  cases hphi : P.isPhi i with
  | true => exact (h.phi hphi q).mpr hq
  | false =>
    have hdef := h.define hphi
    cases hrs : rs₀ with
    | nil =>
      rw [hrs] at hq
      exact absurd hq (covers_nil q)
    | cons p rest =>
      rw [hrs] at hq hdef
      simp only [fixLiveRange, Option.some.injEq] at hdef
      rw [← hdef, covers_cons]
      rcases covers_cons.mp hq with hq | hq
      · exact Or.inl ⟨hfirst hphi, hq.2⟩
      · exact Or.inr hq

/-- After the range of a block nothing more of the block is held. -/
theorem not_covers_after {sets : LiveSets} {i : ℕ} {rs₀ rs : List Range} (h : IntervalOf P sets i rs₀ rs)
    {b e q : ℕ} (hb : P.InRange b) (hdb : P.cfgMap i ≤ b) (hstop : stopIn P sets (P.vregs i) b = some e)
    (hse : P.startOf b < e) (hlo : e ≤ q) (hhi : q < P.endOf b) : ¬ Covers rs q := by
  have hno : ¬ Covers rs₀ q := by
    intro hc
    obtain ⟨c, ⟨hcr, -⟩, e', he', h1, h2⟩ := (h.covers q).mp hc
    have hin : InBlock P c q := ⟨h1, lt_of_lt_of_le h2 (stopIn_bounds W hcr he').2⟩
    have hcb := inBlock_unique W hcr hb hin ⟨by omega, hhi⟩
    subst hcb
    rw [hstop] at he'
    injection he' with he'
    omega
  cases hphi : P.isPhi i with
  | true => exact fun hc => hno ((h.phi hphi q).mp hc)
  | false =>
    have hdef := h.define hphi
    have hasc := h.asc
    -- the start of the block is held before the definition is met, so no range starts later than that
    have hstart : Covers rs₀ (P.startOf b) :=
      (h.covers _).mpr ⟨b, ⟨hb, hdb⟩, e, hstop, Nat.le_refl _, hse⟩
    cases hrs : rs₀ with
    | nil =>
      rw [hrs] at hstart
      exact absurd hstart (covers_nil _)
    | cons p rest =>
      rw [hrs] at hdef hno hasc hstart
      simp only [fixLiveRange, Option.some.injEq] at hdef
      obtain ⟨r, hr, hr1, -⟩ := hstart
      have hp := hasc.head_le r hr
      rw [← hdef, covers_cons]
      rintro (hq | hq)
      · exact hno (covers_cons.mpr (Or.inl ⟨by omega, hq.2⟩))
      · exact hno (covers_cons.mpr (Or.inr hq))

/-! ### The first read of a block -/

/-- The first read of register `v` that is met in a block is one of its last reader. -/
theorem readsIn_head {v b : ℕ} {r₀ : Read} {l : List Read} (h : readsIn P v b = r₀ :: l) :
    ∃ u₀, P.Emitted b u₀ ∧ P.isPhi u₀ = false ∧
      (∃ rest, (P.reads u₀).filter (fun r => r.vreg = v) = r₀ :: rest) ∧
      ∀ u, P.Emitted b u → P.isPhi u = false → (∃ r ∈ P.reads u, r.vreg = v) → u ≤ u₀ := by
  -- the body backwards is descending
  have hdesc : ∀ us : List ℕ, us.Pairwise (fun x y => y < x) → (∀ u ∈ us, u ∈ (P.block b).body) →
      us.flatMap (readsOf P v) = r₀ :: l →
      ∃ u₀ ∈ us, P.isSkipped u₀ = false ∧ P.isPhi u₀ = false ∧
        (∃ rest, (P.reads u₀).filter (fun r => r.vreg = v) = r₀ :: rest) ∧
        ∀ u ∈ us, readsOf P v u ≠ [] → u ≤ u₀ := by
    intro us
    induction us with
    | nil => exact fun _ _ he => absurd he (by simp)
    | cons u us ih =>
      intro hp hbody he
      obtain ⟨hlt, hp'⟩ := List.pairwise_cons.mp hp
      rw [List.flatMap_cons] at he
      cases hu : readsOf P v u with
      | nil =>
        rw [hu, List.nil_append] at he
        obtain ⟨u₀, h1, h2, h3, h4, h5⟩ := ih hp' (fun w hw => hbody w (List.mem_cons_of_mem u hw)) he
        refine ⟨u₀, List.mem_cons_of_mem u h1, h2, h3, h4, fun w hw hne => ?_⟩
        rcases List.mem_cons.mp hw with rfl | hw
        · exact absurd hu hne
        · exact h5 w hw hne
      | cons r rest =>
        rw [hu, List.cons_append] at he
        injection he with he _
        subst he
        have hun := hu
        unfold readsOf at hun
        split_ifs at hun with hs
        simp only [Bool.or_eq_true, not_or, Bool.not_eq_true] at hs
        refine ⟨u, List.mem_cons_self, hs.1, hs.2, ⟨rest, hun⟩, fun w hw _ => ?_⟩
        rcases List.mem_cons.mp hw with rfl | hw
        · exact Nat.le_refl _
        · exact (hlt w hw).le
  have hsorted : (P.block b).body.reverse.Pairwise fun x y => y < x :=
    List.pairwise_reverse.mpr (W.body_sorted b)
  obtain ⟨u₀, h1, h2, h3, h4, h5⟩ := hdesc _ hsorted (fun u hu => List.mem_reverse.mp hu) h
  refine ⟨u₀, ⟨List.mem_reverse.mp h1, h2⟩, h3, h4, fun u hu hphi ⟨r, hr, hrv⟩ => ?_⟩
  refine h5 u (List.mem_reverse.mpr hu.1) fun hnil => ?_
  unfold readsOf at hnil
  rw [hu.2, hphi] at hnil
  simp only [Bool.or_self, Bool.false_eq_true, if_false, List.filter_eq_nil_iff] at hnil
  exact hnil r hr (by simpa using hrv)

omit W in
theorem notFused_of_emitted {b u : ℕ} (hu : P.Emitted b u) : P.isFused u = false := by
  by_contra hf
  have hs := isSkipped_of_isFused (P := P) (u := u) (by simpa using hf)
  rw [hu.2] at hs
  exact absurd hs (by simp)

theorem usedIn_of_usedAt {i c pos : ℕ} (hv : P.vregs i ≠ 0) (h : UsedAt P i c pos) : P.UsedIn i c := by
  obtain ⟨u, hu, hphi, hf, ⟨hs, r, hr, hrv, -⟩ | ⟨-, huse, -⟩⟩ := h
  · exact ⟨u, hu, hphi, hf, (W.mem_reads ⟨hu, hs⟩ hv).mp ⟨r, hr, hrv⟩⟩
  · exact ⟨u, hu, hphi, hf, huse⟩

/-- In a block that a register does not leave, its range goes up to the last use. -/
theorem pos_le_stopIn (hF : FirstReadLatest P) {sets : LiveSets} {i c pos : ℕ} (hv : P.vregs i ≠ 0)
    (hex : P.vregs i ∈ sets.outs c ↔ P.LiveOut i c) (hout : P.vregs i ∉ sets.outs c)
    (hreach : Relation.ReflTransGen (P.Step i) (P.cfgMap i) c) (h : UsedAt P i c pos) :
    ∃ e, stopIn P sets (P.vregs i) c = some e ∧ pos ≤ e := by
  -- some emitted instruction at or after the use reads the register
  obtain ⟨u, hu, hphi, hf, huse⟩ := h
  obtain ⟨u', hle, hu', hphi', huse'⟩ : ∃ u', u ≤ u' ∧ P.Emitted c u' ∧ P.isPhi u' = false ∧
      P.UsedBy i u' := by
    rcases huse with ⟨hs, r, hr, hrv, -⟩ | ⟨hs, hub, -⟩
    · exact ⟨u, Nat.le_refl u, ⟨hu, hs⟩, hphi, (W.mem_reads ⟨hu, hs⟩ hv).mp ⟨r, hr, hrv⟩⟩
    · obtain ⟨u', hlt, h1, h2, h3⟩ := W.skipped_reads c u hu hs hf i hv hub
      exact ⟨u', hlt.le, h1, h2, h3⟩
  have hsome := stopIn_isSome W sets hv hu' hphi' huse'
  unfold stopIn at hsome ⊢
  rw [if_neg hout] at hsome ⊢
  cases hr : readsIn P (P.vregs i) c with
  | nil =>
    rw [hr] at hsome
    exact absurd rfl hsome
  | cons r₀ l =>
    obtain ⟨u₀, hu₀, hphi₀, ⟨rest, hfil⟩, hmax⟩ := readsIn_head W hr
    have hr₀ : r₀ ∈ P.reads u₀ := by
      have hmem : r₀ ∈ (P.reads u₀).filter fun r => r.vreg = P.vregs i := by
        rw [hfil]
        exact List.mem_cons_self
      exact (List.mem_filter.mp hmem).1
    have hp₀ := W.reads_pos hu₀ hr₀
    have huu₀ : u' ≤ u₀ := hmax u' hu' hphi' ((W.mem_reads hu' hv).mpr huse')
    refine ⟨r₀.upto, rfl, ?_⟩
    rcases huse with ⟨hs, r, hrd, hrv, rfl⟩ | ⟨hs, -, rfl⟩
    · have hp := W.reads_pos ⟨hu, hs⟩ hrd
      by_cases heq : u = u₀
      · subst heq
        have hmem : r ∈ (P.reads u).filter fun r => r.vreg = P.vregs i :=
          List.mem_filter.mpr ⟨hrd, by simpa using hrv⟩
        rw [hfil] at hmem
        rcases List.mem_cons.mp hmem with rfl | hmem
        · exact hp.2.2.1
        · refine hF i hv c u hu₀ hphi₀ hreach (fun hl => hout (hex.mpr hl)) ?_ r₀ rest hfil r hmem
          intro w hw hwe hwp hwu
          have hle' := hmax w hwe hwp ((W.mem_reads hwe hv).mpr hwu)
          omega
      · simp only [loadPos, usePos] at hp hp₀
        omega
    · have hne : u ≠ u₀ := by
        rintro rfl
        rw [hu₀.2] at hs
        exact absurd hs (by simp)
      simp only [loadPos, usePos] at hp₀ ⊢
      omega

/-- The intervals are safe, given exact live sets, exactly when first reads are latest. -/
theorem rangesSafe_iff {sets : LiveSets} {st : RangeState} (hsets : SetsOk P sets)
    (hint : ∀ i, P.vregs i ≠ 0 → ∃ rs₀, IntervalOf P sets i rs₀ (st.ivals (P.vregs i)))
    (hex : ∀ i, P.vregs i ≠ 0 → ∀ b, P.vregs i ∈ sets.outs b ↔ P.LiveOut i b) :
    RangesSafe P st ↔ FirstReadLatest P := by
  constructor
  · intro hsafe i hv b u hu hphi hreach hnl hlast r₀ rest hfil r hrr
    by_contra hlt
    obtain ⟨rs₀, hI⟩ := hint i hv
    have hmem₀ : r₀ ∈ (P.reads u).filter fun r => r.vreg = P.vregs i := by
      rw [hfil]
      exact List.mem_cons_self
    have hmem : r ∈ (P.reads u).filter fun r => r.vreg = P.vregs i := by
      rw [hfil]
      exact List.mem_cons_of_mem r₀ hrr
    obtain ⟨hr₀, hrv₀⟩ := List.mem_filter.mp hmem₀
    obtain ⟨hr, hrv⟩ := List.mem_filter.mp hmem
    have hub : P.UsedBy i u := (W.mem_reads hu hv).mp ⟨r₀, hr₀, by simpa using hrv₀⟩
    obtain ⟨hiu, hdom⟩ := W.usedBy_after hu.1 hphi hv hub
    obtain ⟨hbr, hstart, -⟩ := W.body_mem b u hu.1
    have hdb := W.dom_le hbr hdom
    have hp₀ := W.reads_pos hu hr₀
    have hp := W.reads_pos hu hr
    -- `u` is the last reader of the block, so its first read makes the range
    have hstop : stopIn P sets (P.vregs i) b = some r₀.upto := by
      unfold stopIn
      rw [if_neg fun hout => hnl ((hex i hv b).mp hout)]
      have hin : r₀ ∈ readsIn P (P.vregs i) b := mem_readsIn.mpr ⟨u, hu, hphi, hr₀, by simpa using hrv₀⟩
      cases hl : readsIn P (P.vregs i) b with
      | nil =>
        rw [hl] at hin
        exact absurd hin (by simp)
      | cons r₁ l =>
        obtain ⟨u₁, hu₁, hphi₁, ⟨rest₁, hfil₁⟩, hmax⟩ := readsIn_head W hl
        have hle := hmax u hu hphi ⟨r₀, hr₀, by simpa using hrv₀⟩
        have hr₁ : ∃ r ∈ P.reads u₁, r.vreg = P.vregs i := by
          have hm : r₁ ∈ (P.reads u₁).filter fun r => r.vreg = P.vregs i := by
            rw [hfil₁]
            exact List.mem_cons_self
          obtain ⟨h1, h2⟩ := List.mem_filter.mp hm
          exact ⟨r₁, h1, by simpa using h2⟩
        have heq : u₁ = u := by
          by_contra hne
          exact hlast u₁ (by omega) hu₁ hphi₁ ((W.mem_reads hu₁ hv).mp hr₁)
        rw [heq, hfil] at hfil₁
        injection hfil₁ with hfil₁ _
        simp [hfil₁]
    have hin : InBlock P b r₀.upto := by
      have hr₁ := hp₀.2.2.2
      refine ⟨?_, hr₁⟩
      simp only [Prog.startOf, loadPos] at *
      omega
    refine not_covers_after W hI hbr hdb hstop ?_ (Nat.le_refl _) hin.2
      ((hsafe i hv).1 b r.pos ⟨u, hu.1, hphi, notFused_of_emitted hu, Or.inl ⟨hu.2, r, hr, by simpa using hrv, rfl⟩⟩
        r₀.upto ⟨b, hin, hreach, Or.inl ⟨rfl, by omega⟩, fun _ => ?_⟩)
    · simp only [Prog.startOf, loadPos] at *
      omega
    · have hd := defPosOf_bounds (P := P) i
      have hs := hin.1
      unfold Prog.firstPos
      split_ifs
      · rename_i hbd _
        rw [← hbd]
        exact hs
      · simp only [loadPos, savePos] at hd hp₀
        omega
  · intro hF i hv
    obtain ⟨rs₀, hI⟩ := hint i hv
    -- from the definition on
    have hfirst : ∀ {b q : ℕ}, P.InRange b → P.cfgMap i ≤ b → P.startOf b ≤ q →
        (b = P.cfgMap i → P.firstPos i ≤ q) → P.isPhi i = false → P.defPosOf i ≤ q := by
      intro b q hb hdb hq hbd hphi
      have hfp : P.firstPos i = P.defPosOf i := by simp [Prog.firstPos, hphi]
      by_cases heq : b = P.cfgMap i
      · rw [← hfp]
        exact hbd heq
      · have hdr := (W.body_mem _ i (W.vreg_body i hv)).1
        have hle := endOf_le_startOf W hdr hb (by omega)
        have hin := (firstPos_inBlock W hv).2
        omega
    -- blocks that the register leaves are held as a whole
    have hwhole : ∀ {b q : ℕ}, P.LiveOut i b → InBlock P b q → (b = P.cfgMap i → P.firstPos i ≤ q) →
        Covers (st.ivals (P.vregs i)) q := by
      intro b q hlive hq hbd
      have hout := (hex i hv b).mpr hlive
      obtain ⟨hbr, hdb⟩ := W.def_le hv ((hsets.iff i hv b).mp hout)
      refine covers_of_inRanges hI hbr hdb (e := P.endOf b) ?_ hq.1 hq.2 (hfirst hbr hdb hq.1 hbd)
      unfold stopIn
      rw [if_pos hout]
    refine ⟨fun c pos huse q hway => ?_, fun c hend q hway => ?_⟩
    · obtain ⟨b, hq, hreach, hcase, hbd⟩ := hway
      have hin := usedIn_of_usedAt W hv huse
      rcases hcase with ⟨rfl, hqp⟩ | hpath
      · by_cases hout : P.vregs i ∈ sets.outs b
        · exact hwhole ((hex i hv b).mp hout) hq hbd
        · obtain ⟨e, hstop, hpe⟩ := pos_le_stopIn W hF hv (hex i hv b) hout hreach huse
          obtain ⟨hbr, hdom⟩ := W.listed_dom hv (W.usedIn_listed hv hin)
          have hdb := W.dom_le hbr hdom
          exact covers_of_inRanges hI hbr hdb hstop hq.1 (by omega) (hfirst hbr hdb hq.1 hbd)
      · exact hwhole (Or.inr ⟨c, hpath, hin⟩) hq hbd
    · obtain ⟨b, hq, -, hpath, hbd⟩ := hway
      exact hwhole (Or.inl ⟨c, hpath, hend⟩) hq hbd

end

/-! ### A CALL followed by a static ALLOCA -/

/-- `x = CALL f; p = ALLOCA 16; IF x`, then `STORE p, c; RETURN` or `RETURN`.  The ALLOCA is fused and
skipped, the CALL has register 1. -/
def callAlloca : Prog where
  insnsCount := 10
  insn := fun r => [⟨.nop, []⟩, ⟨.start, []⟩, ⟨.call, [1, -3]⟩, ⟨.alloca, [2, -4]⟩, ⟨.ifOp, [3, 2]⟩,
    ⟨.ifTrue, [4]⟩, ⟨.store, [5, 3, -5]⟩, ⟨.ret, [6]⟩, ⟨.ifFalse, [4]⟩, ⟨.ret, [8]⟩].getD r ⟨.nop, []⟩
  useLists := fun r => [[], [2], [3, 4], [4, 6], [5, 8], [6], [7], [], [9], []].getD r []
  cfgMap := fun r => [0, 1, 1, 1, 1, 2, 2, 2, 3, 3].getD r 0
  vregs := fun r => if r = 2 then 1 else 0
  rules := some fun r => if r = 3 then ⟨true, true, true⟩ else ⟨false, false, false⟩
  blocksCount := 3
  block := fun b => [⟨0, 0, [], [], none⟩, ⟨1, 4, [2, 3, 4], [], none⟩, ⟨5, 7, [6, 7], [1], none⟩,
    ⟨8, 9, [9], [1], none⟩].getD b ⟨0, 0, [], [], none⟩
  constraints := fun _ => ⟨none, false, false, false, []⟩

theorem callAlloca_block {b : ℕ} (h : 4 ≤ b) : callAlloca.block b = ⟨0, 0, [], [], none⟩ := by
  simp only [callAlloca, List.getD_eq_getElem?_getD]
  rw [List.getElem?_eq_none (by simpa using h)]
  rfl

theorem callAlloca_body {b u : ℕ} (h : u ∈ (callAlloca.block b).body) :
    (b, u) ∈ [(1, 2), (1, 3), (1, 4), (2, 6), (2, 7), (3, 9)] := by
  by_cases hb : b < 4
  · interval_cases b <;> simp_all [callAlloca]
  · rw [callAlloca_block (by omega)] at h
    exact absurd h (by simp)

theorem Prog.dom_self (P : Prog) (a : ℕ) : P.Dom a a := by
  rintro ⟨ha, hpath⟩
  rcases Relation.ReflTransGen.cases_tail hpath with h | ⟨y, -, -, hne⟩
  · exact ha h
  · exact hne rfl

theorem Prog.dom_first (P : Prog) (b : ℕ) : P.Dom 1 b := fun h => h.1 rfl

end IrJit.Ra
