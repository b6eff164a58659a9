import IrJit.Ra.LiveRanges
import IrJit.Ra.LiveSetsSpec
import IrJit.Ra.Reads

/-!
# Ra.LiveRangesSpec — the intervals of the virtual registers

In each block a register gets at most one range, from the start of the block to `stopIn`: the end
of the block if it is live there, else the position of the first read on the way back.
-/

namespace IrJit.Ra

section

variable {P : Prog}

/-! ### The events of one register -/

/-- The reads of register `v` at `u`. -/
def readsOf (P : Prog) (v u : ℕ) : List Read :=
  if P.isSkipped u || P.isPhi u then [] else (P.reads u).filter fun r => r.vreg = v

/-- The reads of register `v` in a block, in the order in which they are met. -/
def readsIn (P : Prog) (v b : ℕ) : List Read := (P.block b).body.reverse.flatMap (readsOf P v)

/-- How far the range of register `v` in block `b` goes, if there is one. -/
def stopIn (P : Prog) (sets : LiveSets) (v b : ℕ) : Option ℕ :=
  if v ∈ sets.outs b then some (P.endOf b) else (readsIn P v b).head?.map Read.upto

theorem filter_map_read (v : ℕ) (rs : List Read) :
    (rs.map Event.read).filter (fun ev => ev.vreg = v) = (rs.filter fun r => r.vreg = v).map .read := by
  rw [List.filter_map]
  rfl

theorem filter_refEvents (W : Wf P) {b u i : ℕ} (hu : u ∈ (P.block b).body) (hne : u ≠ i) :
    (P.refEvents u).filter (fun ev => ev.vreg = P.vregs i) = (readsOf P (P.vregs i) u).map .read := by
  unfold Prog.refEvents readsOf
  cases hs : P.isSkipped u with
  | true => simp
  | false =>
    by_cases hvu : P.vregs u = 0
    · have hphi : P.isPhi u = false := by
        by_contra hp
        exact (W.phi_emitted b u hu (by simpa using hp)).2 hvu
      simp [hvu, hphi, filter_map_read]
    · have hne' : P.vregs u ≠ P.vregs i := fun he => hne (W.vreg_inj u i hvu he)
      cases hphi : P.isPhi u with
      | true => simp [hvu, hne', Event.vreg]
      | false =>
        have hdef : ¬ (Event.define (P.vregs u) (P.defPosOf u)).vreg = P.vregs i := hne'
        simp [hvu, hdef, filter_map_read]

/-- An instruction does not read its own result. -/
theorem readsOf_eq_nil (W : Wf P) {b u i : ℕ} (hu : u ∈ (P.block b).body) (hv : P.vregs i ≠ 0)
    (hno : ¬ (i < u ∧ P.Dom (P.cfgMap i) b)) : readsOf P (P.vregs i) u = [] := by
  unfold readsOf
  cases hs : P.isSkipped u with
  | true => simp
  | false =>
    cases hphi : P.isPhi u with
    | true => simp
    | false =>
      simp only [Bool.or_self, Bool.false_eq_true, if_false, List.filter_eq_nil_iff, decide_eq_true_eq]
      intro r hr hri
      exact hno (W.usedBy_after hu hphi hv ((W.mem_reads ⟨hu, hs⟩ hv).mp ⟨r, hr, hri⟩))

/-- The event of the definition. -/
def defEvent (P : Prog) (i : ℕ) : Event :=
  if P.isPhi i then .phi (P.vregs i) i else .define (P.vregs i) (P.defPosOf i)

theorem filter_refEvents_self (W : Wf P) {i : ℕ} (hv : P.vregs i ≠ 0) :
    (P.refEvents i).filter (fun ev => ev.vreg = P.vregs i) = [defEvent P i] := by
  have hb := W.vreg_body i hv
  have hs : P.isSkipped i = false := by
    by_contra hne
    exact hv (W.skipped_vreg i (by simpa using hne))
  have hno := readsOf_eq_nil W hb hv (u := i) (fun h => absurd h.1 (by omega))
  unfold Prog.refEvents defEvent
  cases hphi : P.isPhi i with
  | true => simp [hs, hv, Event.vreg]
  | false =>
    simp only [readsOf, hs, hphi, Bool.or_self, Bool.false_eq_true, if_false] at hno
    have hdef : (Event.define (P.vregs i) (P.defPosOf i)).vreg = P.vregs i := rfl
    simp [hs, hv, hdef, filter_map_read, hno]

/-- The END of a block has no events. -/
theorem flatMap_blockRefs (W : Wf P) (b : ℕ) :
    (P.blockRefs b).flatMap P.refEvents = (P.block b).body.reverse.flatMap P.refEvents := by
  unfold Prog.blockRefs
  split
  · rename_i heq
    rw [heq]
  · rename_i u us heq
    rw [heq]
    split_ifs with hend
    · have hu : u ∈ (P.block b).body := by
        rw [← List.mem_reverse, heq]
        exact List.mem_cons_self
      obtain ⟨hv, hops⟩ := W.end_ops b u hu hend
      have hnil : P.refEvents u = [] := by
        simp [Prog.refEvents, hv, Prog.reads, Prog.snapshotReads, hops]
      simp [hnil]
    · rfl

/-- The events of register `v` in block `b`. -/
def eventsIn (P : Prog) (sets : LiveSets) (v b : ℕ) : List (ℕ × Event) :=
  ((P.blockEvents sets b).filter fun ev => ev.vreg = v).map fun ev => (b, ev)

theorem filter_allEvents (sets : LiveSets) (v : ℕ) :
    (P.allEvents sets).filter (fun be => be.2.vreg = v) =
      (List.range' 1 P.blocksCount).reverse.flatMap (eventsIn P sets v) := by
  unfold Prog.allEvents eventsIn
  rw [List.filter_flatMap]
  congr 1
  funext b
  rw [List.filter_map]
  rfl

/-- The part of a block that is met before the definition. -/
def scanEvents (P : Prog) (sets : LiveSets) (v b : ℕ) : List (ℕ × Event) :=
  (((sets.outs b).filter (· = v)).map fun v => (b, Event.liveOut v)) ++
    (readsIn P v b).map fun r => (b, Event.read r)

theorem filter_liveOut (v : ℕ) (l : List ℕ) :
    (l.map Event.liveOut).filter (fun ev => ev.vreg = v) = (l.filter (· = v)).map .liveOut := by
  rw [List.filter_map]
  rfl

theorem eventsIn_of_ne (W : Wf P) (sets : LiveSets) {i b : ℕ} (hv : P.vregs i ≠ 0)
    (hb : b ≠ P.cfgMap i) : eventsIn P sets (P.vregs i) b = scanEvents P sets (P.vregs i) b := by
  have hrefs : ((P.block b).body.reverse.flatMap P.refEvents).filter (fun ev => ev.vreg = P.vregs i) =
      (readsIn P (P.vregs i) b).map .read := by
    rw [List.filter_flatMap, readsIn, List.map_flatMap]
    refine List.flatMap_congr fun u hu => ?_
    have hu' := List.mem_reverse.mp hu
    refine filter_refEvents W hu' fun he => hb ?_
    rw [← he]
    exact (W.body_mem b u hu').2.2.2.2.symm
  unfold eventsIn Prog.blockEvents scanEvents
  rw [flatMap_blockRefs W, List.filter_append, hrefs, filter_liveOut, List.map_append, List.map_map,
    List.map_map]
  rfl

/-- In the block of the definition all reads are met before it. -/
theorem eventsIn_def (W : Wf P) (sets : LiveSets) {i : ℕ} (hv : P.vregs i ≠ 0) :
    eventsIn P sets (P.vregs i) (P.cfgMap i) =
      scanEvents P sets (P.vregs i) (P.cfgMap i) ++ [(P.cfgMap i, defEvent P i)] := by
  set b := P.cfgMap i
  have hi : i ∈ (P.block b).body := W.vreg_body i hv
  obtain ⟨pre, post, hbody⟩ := List.append_of_mem hi
  have hsorted := W.body_sorted b
  rw [hbody] at hsorted
  have hpre : ∀ u ∈ pre, u < i := fun u hu =>
    (List.pairwise_append.mp hsorted).2.2 u hu i List.mem_cons_self
  have hpost : ∀ u ∈ post, i < u := fun u hu =>
    (List.pairwise_cons.mp (List.pairwise_append.mp hsorted).2.1).1 u hu
  have hrev : (P.block b).body.reverse = post.reverse ++ i :: pre.reverse := by simp [hbody]
  have hmem : ∀ u, u ∈ pre ∨ u ∈ post → u ∈ (P.block b).body := fun u hu => by
    rw [hbody]
    simp only [List.mem_append, List.mem_cons]
    tauto
  have hself : readsOf P (P.vregs i) i = [] := readsOf_eq_nil W hi hv fun h => absurd h.1 (by omega)
  have hpre0 : pre.reverse.flatMap (readsOf P (P.vregs i)) = [] := by
    rw [List.flatMap_eq_nil_iff]
    intro u hu
    have hu' := List.mem_reverse.mp hu
    exact readsOf_eq_nil W (hmem u (Or.inl hu')) hv fun h => absurd h.1 (by have := hpre u hu'; omega)
  have hreads : readsIn P (P.vregs i) b = post.reverse.flatMap (readsOf P (P.vregs i)) := by
    rw [readsIn, hrev]
    simp [hself, hpre0]
  have hpart : ∀ l : List ℕ, (∀ u ∈ l, u ∈ (P.block b).body ∧ u ≠ i) →
      (l.flatMap P.refEvents).filter (fun ev => ev.vreg = P.vregs i) =
        (l.flatMap (readsOf P (P.vregs i))).map .read := by
    intro l hl
    rw [List.filter_flatMap, List.map_flatMap]
    exact List.flatMap_congr fun u hu => filter_refEvents W (hl u hu).1 (hl u hu).2
  have hrefs : ((P.block b).body.reverse.flatMap P.refEvents).filter (fun ev => ev.vreg = P.vregs i) =
      (readsIn P (P.vregs i) b).map .read ++ [defEvent P i] := by
    rw [hrev, List.flatMap_append, List.flatMap_cons, List.filter_append, List.filter_append,
      filter_refEvents_self W hv, hpart post.reverse, hpart pre.reverse, hpre0, hreads]
    · simp
    · intro u hu
      have hu' := List.mem_reverse.mp hu
      exact ⟨hmem u (Or.inl hu'), by have := hpre u hu'; omega⟩
    · intro u hu
      have hu' := List.mem_reverse.mp hu
      exact ⟨hmem u (Or.inr hu'), by have := hpost u hu'; omega⟩
  unfold eventsIn Prog.blockEvents scanEvents
  rw [flatMap_blockRefs W, List.filter_append, hrefs, filter_liveOut, ← List.append_assoc,
    List.map_append, List.map_append, List.map_map, List.map_map]
  rfl

/-! ### One block -/

/-- The effect of a block on the ranges of a register: `[startOf b, e)` is added if `stop` is
`some e`. -/
structure Scanned (P : Prog) (b : ℕ) (stop : Option ℕ) (rs rs' : List Range) : Prop where
  asc : Asc rs'
  covers : ∀ q, Covers rs' q ↔ (∃ e, stop = some e ∧ P.startOf b ≤ q ∧ q < e) ∨ Covers rs q
  lower : ∀ m, m ≤ P.startOf b → (∀ r ∈ rs, m ≤ r.1) → ∀ r ∈ rs', m ≤ r.1
  empty : rs' = [] → rs = [] ∧ stop = none

theorem startOf_le_endOf (W : Wf P) {b : ℕ} (hb : P.InRange b) : P.startOf b ≤ P.endOf b := by
  have h := W.block_le b hb
  simp only [Prog.startOf, Prog.endOf, loadPos, endPos]
  omega

theorem Scanned.none {b : ℕ} {rs : List Range} (h : Asc rs) : Scanned P b none rs rs :=
  ⟨h, fun q => by simp, fun _ _ h => h, fun he => ⟨he, rfl⟩⟩

theorem Scanned.of_add {b e : ℕ} {rs : List Range} (hle : P.startOf b ≤ e) (h : Asc rs) :
    Scanned P b (some e) rs (addLiveRange (P.startOf b) e rs) := by
  obtain ⟨h1, h2, h3⟩ := addLiveRange_spec hle rs h
  exact ⟨h1, fun q => by rw [h2 q]; simp, h3, fun he => absurd he (addLiveRange_ne_nil _ _ _)⟩

theorem runVreg_reads (b : ℕ) (l : List Read) (rs : List Range) (live : ℕ) :
    runVreg P (l.map fun r => (b, Event.read r)) (rs, live) =
      some (if live = b then (rs, live) else
        match l with
        | [] => (rs, live)
        | r :: _ => (addLiveRange (P.startOf b) r.upto rs, b)) := by
  have hlive : ∀ (l : List Read) (rs : List Range),
      runVreg P (l.map fun r => (b, Event.read r)) (rs, b) = some (rs, b) := by
    intro l
    induction l with
    | nil => exact fun rs => rfl
    | cons r l ih =>
      intro rs
      simp only [runVreg, List.map_cons, List.foldlM_cons, Prog.stepEvent, if_true]
      exact ih rs
  by_cases hb : live = b
  · subst hb
    rw [if_pos rfl]
    exact hlive l rs
  · rw [if_neg hb]
    cases l with
    | nil => rfl
    | cons r l =>
      simp only [runVreg, List.map_cons, List.foldlM_cons, Prog.stepEvent, if_neg hb]
      exact hlive l _

theorem runVreg_liveOuts (W : Wf P) {b : ℕ} (hb : P.InRange b) : ∀ (l : List ℕ) (rs : List Range) (live : ℕ),
    l ≠ [] → Asc rs →
    ∃ rs', runVreg P (l.map fun v => (b, Event.liveOut v)) (rs, live) = some (rs', b) ∧
      Scanned P b (some (P.endOf b)) rs rs' := by
  have hle := startOf_le_endOf W hb
  intro l
  induction l with
  | nil => exact fun _ _ h => absurd rfl h
  | cons v l ih =>
    intro rs live _ hasc
    obtain ⟨h1, h2, h3⟩ := addPrevLiveRange_spec hle hasc
    have hone : Scanned P b (some (P.endOf b)) rs (addPrevLiveRange (P.startOf b) (P.endOf b) rs) :=
      ⟨h1, fun q => by rw [h2 q]; simp, h3, fun he => absurd he (addPrevLiveRange_ne_nil _ _ _)⟩
    by_cases hl : l = []
    · subst hl
      exact ⟨_, rfl, hone⟩
    · -- the register once more on the list: the same positions again
      obtain ⟨rs', hrun, hs⟩ := ih (addPrevLiveRange (P.startOf b) (P.endOf b) rs) b hl h1
      refine ⟨rs', ?_, hs.asc, fun q => ?_, fun m hm hall => hs.lower m hm (h3 m hm hall), fun he => ?_⟩
      · simp only [runVreg, List.map_cons, List.foldlM_cons, Prog.stepEvent]
        exact hrun
      · rw [hs.covers q, hone.covers q, or_self_left]
      · exact absurd (hs.empty he).1 (addPrevLiveRange_ne_nil _ _ _)

theorem mem_readsIn {v b : ℕ} {r : Read} : r ∈ readsIn P v b ↔
    ∃ u, P.Emitted b u ∧ P.isPhi u = false ∧ r ∈ P.reads u ∧ r.vreg = v := by
  unfold readsIn
  rw [List.mem_flatMap]
  constructor
  · rintro ⟨u, hu, hr⟩
    unfold readsOf at hr
    split_ifs at hr with hs
    · exact absurd hr (by simp)
    · simp only [Bool.or_eq_true, not_or, Bool.not_eq_true] at hs
      obtain ⟨hr, hrv⟩ := List.mem_filter.mp hr
      exact ⟨u, ⟨List.mem_reverse.mp hu, hs.1⟩, hs.2, hr, by simpa using hrv⟩
  · rintro ⟨u, ⟨hu, hs⟩, hphi, hr, hrv⟩
    refine ⟨u, List.mem_reverse.mpr hu, ?_⟩
    unfold readsOf
    rw [hs, hphi]
    exact List.mem_filter.mpr ⟨hr, by simpa using hrv⟩

theorem readsIn_pos (W : Wf P) {v b : ℕ} {r : Read} (h : r ∈ readsIn P v b) :
    P.startOf b ≤ r.pos ∧ r.pos ≤ r.upto ∧ r.upto < P.endOf b := by
  obtain ⟨u, hu, -, hr, -⟩ := mem_readsIn.mp h
  have hp := W.reads_pos hu hr
  have hstart := (W.body_mem b u hu.1).2.1
  refine ⟨?_, hp.2.2.1, hp.2.2.2⟩
  have hlo := hp.1
  simp only [Prog.startOf, loadPos] at *
  omega

/-- **The events of one block** before the definition. -/
theorem scanBlock_spec (W : Wf P) (sets : LiveSets) {v b : ℕ} (hb : P.InRange b) {rs : List Range}
    {live : ℕ} (hasc : Asc rs) (hlive : live ≠ b) :
    ∃ rs' live', runVreg P (scanEvents P sets v b) (rs, live) = some (rs', live') ∧
      (live' = live ∨ live' = b) ∧ Scanned P b (stopIn P sets v b) rs rs' := by
  unfold scanEvents stopIn
  by_cases hout : v ∈ sets.outs b
  · have hne : (sets.outs b).filter (· = v) ≠ [] := by
      rw [Ne, List.filter_eq_nil_iff]
      intro h
      exact absurd (h v hout) (by simp)
    obtain ⟨rs', h1, h2⟩ := runVreg_liveOuts W hb _ rs live hne hasc
    refine ⟨rs', b, ?_, Or.inr rfl, ?_⟩
    · rw [runVreg_append, h1, Option.bind_some, runVreg_reads, if_pos rfl]
    · rw [if_pos hout]
      exact h2
  · have hnil : (sets.outs b).filter (· = v) = [] := by
      rw [List.filter_eq_nil_iff]
      intro w hw
      simp only [decide_eq_true_eq]
      rintro rfl
      exact hout hw
    rw [hnil, List.map_nil, List.nil_append, runVreg_reads, if_neg hlive, if_neg hout]
    cases hr : readsIn P v b with
    | nil => exact ⟨rs, live, rfl, Or.inl rfl, Scanned.none hasc⟩
    | cons r l =>
      have hmem : r ∈ readsIn P v b := by
        rw [hr]
        exact List.mem_cons_self
      have hp := readsIn_pos W hmem
      exact ⟨_, b, rfl, Or.inr rfl, Scanned.of_add (by omega) hasc⟩

/-! ### All blocks -/

/-- A position of the range of register `v` in one of the blocks `bs`. -/
def InRanges (P : Prog) (sets : LiveSets) (v : ℕ) (bs : ℕ → Prop) (q : ℕ) : Prop :=
  ∃ b, bs b ∧ ∃ e, stopIn P sets v b = some e ∧ P.startOf b ≤ q ∧ q < e

theorem scanBlocks_spec (W : Wf P) (sets : LiveSets) {v : ℕ} : ∀ (bs : List ℕ) (rs : List Range) (live : ℕ),
    bs.Nodup → (∀ b ∈ bs, P.InRange b) → Asc rs → live ∉ bs →
    ∃ rs' live', runVreg P (bs.flatMap (scanEvents P sets v)) (rs, live) = some (rs', live') ∧
      (live' = live ∨ live' ∈ bs) ∧ Asc rs' ∧
      (∀ q, Covers rs' q ↔ InRanges P sets v (· ∈ bs) q ∨ Covers rs q) ∧
      (rs' = [] → rs = [] ∧ ∀ b ∈ bs, stopIn P sets v b = none) := by
  intro bs
  induction bs with
  | nil =>
    intro rs live _ _ hasc _
    exact ⟨rs, live, rfl, Or.inl rfl, hasc, fun q => by simp [InRanges], fun he => ⟨he, by simp⟩⟩
  | cons b bs ih =>
    intro rs live hnd hr hasc hlive
    obtain ⟨hb, hnd'⟩ := List.nodup_cons.mp hnd
    obtain ⟨hlb, hlbs⟩ : live ≠ b ∧ live ∉ bs := by simpa using hlive
    obtain ⟨rs₁, l₁, h1, h2, h3⟩ := scanBlock_spec (v := v) W sets (hr b List.mem_cons_self) hasc hlb
    have hl₁ : l₁ ∉ bs := by
      rcases h2 with rfl | rfl
      · exact hlbs
      · exact hb
    obtain ⟨rs', l', g1, g2, g3, g4, g5⟩ := ih rs₁ l₁ hnd' (fun c hc => hr c (List.mem_cons_of_mem b hc))
      h3.asc hl₁
    refine ⟨rs', l', ?_, ?_, g3, fun q => ?_, fun he => ?_⟩
    · rw [List.flatMap_cons, runVreg_append, h1, Option.bind_some, g1]
    · rcases g2 with rfl | g2
      · rcases h2 with rfl | rfl
        · exact Or.inl rfl
        · exact Or.inr List.mem_cons_self
      · exact Or.inr (List.mem_cons_of_mem b g2)
    · rw [g4 q, h3.covers q]
      constructor
      · rintro (⟨c, hc, hq⟩ | hq | hq)
        · exact Or.inl ⟨c, List.mem_cons_of_mem b hc, hq⟩
        · exact Or.inl ⟨b, List.mem_cons_self, hq⟩
        · exact Or.inr hq
      · rintro (⟨c, hc, hq⟩ | hq)
        · rcases List.mem_cons.mp hc with rfl | hc
          · exact Or.inr (Or.inl hq)
          · exact Or.inl ⟨c, hc, hq⟩
        · exact Or.inr (Or.inr hq)
    · obtain ⟨he1, he2⟩ := g5 he
      obtain ⟨he3, he4⟩ := h3.empty he1
      exact ⟨he3, List.forall_mem_cons.mpr ⟨he4, he2⟩⟩

/-- The live sets that the ranges are built from. -/
structure SetsOk (P : Prog) (sets : LiveSets) : Prop where
  iff : ∀ i, P.vregs i ≠ 0 → ∀ b, P.vregs i ∈ sets.outs b ↔ P.LiveOutBy i (P.ListedUse i) b
  vreg : ∀ b, ∀ v ∈ sets.outs b, ∃ i, P.vregs i = v ∧ v ≠ 0

/-- Nothing happens to a register in the blocks before its definition. -/
theorem eventsIn_before (W : Wf P) {sets : LiveSets} (hsets : SetsOk P sets) {i b : ℕ}
    (hv : P.vregs i ≠ 0) (hb : P.InRange b) (hlt : b < P.cfgMap i) :
    eventsIn P sets (P.vregs i) b = [] := by
  rw [eventsIn_of_ne W sets hv (by omega)]
  unfold scanEvents
  have hout : P.vregs i ∉ sets.outs b := fun h => by
    have hle := (W.def_le hv ((hsets.iff i hv b).mp h)).2
    omega
  have hnil : (sets.outs b).filter (· = P.vregs i) = [] := by
    rw [List.filter_eq_nil_iff]
    intro w hw
    simp only [decide_eq_true_eq]
    rintro rfl
    exact hout hw
  have hreads : readsIn P (P.vregs i) b = [] := by
    unfold readsIn
    rw [List.flatMap_eq_nil_iff]
    intro u hu
    refine readsOf_eq_nil W (List.mem_reverse.mp hu) hv fun h => ?_
    have hle := W.dom_le hb h.2
    omega
  rw [hnil, hreads]
  rfl

theorem range_split {n d : ℕ} (h1 : 1 ≤ d) (hn : d ≤ n) :
    (List.range' 1 n).reverse = (List.range' (d + 1) (n - d)).reverse ++ [d] ++
      (List.range' 1 (d - 1)).reverse := by
  have hs : List.range' 1 n = List.range' 1 (d - 1) ++ ([d] ++ List.range' (d + 1) (n - d)) := by
    have h2 : [d] ++ List.range' (d + 1) (n - d) = List.range' d (n - d + 1) := by
      rw [List.range'_succ]
      rfl
    rw [h2]
    have h3 := @List.range'_append 1 (d - 1) (n - d + 1) 1
    rw [show 1 + 1 * (d - 1) = d by omega, show d - 1 + (n - d + 1) = n by omega] at h3
    exact h3.symm
  rw [hs]
  simp

/-- The ranges of a register before the definition is met, and the state at the end. -/
structure IntervalOf (P : Prog) (sets : LiveSets) (i : ℕ) (rs₀ rs : List Range) : Prop where
  asc : Asc rs₀
  covers : ∀ q, Covers rs₀ q ↔ InRanges P sets (P.vregs i) (fun b => P.InRange b ∧ P.cfgMap i ≤ b) q
  phi : P.isPhi i = true → ∀ q, Covers rs q ↔ Covers rs₀ q
  define : P.isPhi i = false → fixLiveRange (P.defPosOf i) rs₀ = some rs

/-- A register that is used has a range. -/
theorem stopIn_isSome (W : Wf P) (sets : LiveSets) {i b u : ℕ} (hv : P.vregs i ≠ 0)
    (hu : P.Emitted b u) (hphi : P.isPhi u = false) (huse : P.UsedBy i u) :
    stopIn P sets (P.vregs i) b ≠ none := by
  obtain ⟨r, hr, hrv⟩ := (W.mem_reads hu hv).mpr huse
  have hmem : r ∈ readsIn P (P.vregs i) b := mem_readsIn.mpr ⟨u, hu, hphi, hr, hrv⟩
  unfold stopIn
  split_ifs
  · simp
  · cases hl : readsIn P (P.vregs i) b with
    | nil =>
      rw [hl] at hmem
      exact absurd hmem (by simp)
    | cons r' l => simp

/-- **The interval of a register.** -/
theorem interval_spec (W : Wf P) {sets : LiveSets} (hsets : SetsOk P sets) {i : ℕ} (hv : P.vregs i ≠ 0) :
    ∃ rs live rs₀, runVreg P ((P.allEvents sets).filter fun be => be.2.vreg = P.vregs i) ([], 0) =
      some (rs, live) ∧ IntervalOf P sets i rs₀ rs := by
  set d := P.cfgMap i with hd
  obtain ⟨hdr, -⟩ := W.body_mem d i (W.vreg_body i hv)
  have hafter : ∀ b, b ∈ (List.range' (d + 1) (P.blocksCount - d)).reverse ↔ P.InRange b ∧ d < b := by
    intro b
    rw [List.mem_reverse, List.mem_range'_1]
    have h1 := hdr.1
    have h2 := hdr.2
    unfold Prog.InRange
    omega
  have hbefore : ∀ b, b ∈ (List.range' 1 (d - 1)).reverse → P.InRange b ∧ b < d := by
    intro b hb
    rw [List.mem_reverse, List.mem_range'_1] at hb
    have h2 := hdr.2
    unfold Prog.InRange
    omega
  -- the blocks after that of the definition
  have hA : (List.range' (d + 1) (P.blocksCount - d)).reverse.flatMap (eventsIn P sets (P.vregs i)) =
      (List.range' (d + 1) (P.blocksCount - d)).reverse.flatMap (scanEvents P sets (P.vregs i)) :=
    List.flatMap_congr fun b hb => eventsIn_of_ne W sets hv (by have h := ((hafter b).mp hb).2; omega)
  have hC : (List.range' 1 (d - 1)).reverse.flatMap (eventsIn P sets (P.vregs i)) = [] :=
    List.flatMap_eq_nil_iff.mpr fun b hb =>
      eventsIn_before W hsets hv (hbefore b hb).1 (hbefore b hb).2
  obtain ⟨rs₁, l₁, h1, h2, h3, h4, h5⟩ := scanBlocks_spec W sets (v := P.vregs i)
    (List.range' (d + 1) (P.blocksCount - d)).reverse [] 0 (List.nodup_reverse.mpr List.nodup_range')
    (fun b hb => ((hafter b).mp hb).1) Asc.nil
    (fun h => absurd ((hafter 0).mp h).2 (by omega))
  have hl₁ : l₁ ≠ d := by
    rcases h2 with rfl | h2
    · have h1 := hdr.1
      omega
    · have h := ((hafter _).mp h2).2
      omega
  obtain ⟨rs₀, l₀, g1, -, g3⟩ := scanBlock_spec W sets (v := P.vregs i) hdr h3 hl₁
  have hcov : ∀ q, Covers rs₀ q ↔ InRanges P sets (P.vregs i) (fun b => P.InRange b ∧ d ≤ b) q := by
    intro q
    rw [g3.covers q, h4 q]
    constructor
    · rintro (hq | ⟨b, hb, hq⟩ | hq)
      · exact ⟨d, ⟨hdr, Nat.le_refl d⟩, hq⟩
      · have hb' := (hafter b).mp hb
        exact ⟨b, ⟨hb'.1, by omega⟩, hq⟩
      · exact absurd hq (covers_nil q)
    · rintro ⟨b, ⟨hbr, hbd⟩, hq⟩
      by_cases hbd' : b = d
      · subst hbd'
        exact Or.inl hq
      · exact Or.inr (Or.inl ⟨b, (hafter b).mpr ⟨hbr, by omega⟩, hq⟩)
  -- the definition
  have hdef : ∃ rs, P.stepEvent d (defEvent P i) (rs₀, l₀) = some (rs, l₀) ∧ IntervalOf P sets i rs₀ rs := by
    unfold defEvent
    cases hphi : P.isPhi i with
    | true =>
      refine ⟨_, rfl, g3.asc, hcov, fun _ q => ?_, fun h => absurd h (by simp [hphi])⟩
      by_cases hnil : rs₀ = []
      · rw [if_pos hnil, hnil]
        refine iff_of_false ?_ (covers_nil q)
        simp only [addLiveRange, covers_cons, defPos, usePos]
        rintro (hq | hq)
        · omega
        · exact covers_nil q hq
      · rw [if_neg hnil]
    | false =>
      have hne : rs₀ ≠ [] := by
        intro hnil
        obtain ⟨hn1, hn2⟩ := g3.empty hnil
        obtain ⟨b, u, hu, hup, huse⟩ := W.has_use i hv hphi
        have hdom := (W.usedBy_after hu.1 hup hv huse).2
        have hbr := (W.body_mem b u hu.1).1
        have hle := W.dom_le hbr hdom
        have hsome := stopIn_isSome W sets hv hu hup huse
        by_cases hbd : b = d
        · subst hbd
          exact hsome hn2
        · exact hsome ((h5 hn1).2 b ((hafter b).mpr ⟨hbr, by omega⟩))
      obtain ⟨p, rest, hcons⟩ := List.exists_cons_of_ne_nil hne
      refine ⟨(P.defPosOf i, p.2) :: rest, ?_, g3.asc, hcov, fun h => absurd h (by simp [hphi]), fun _ => ?_⟩
      · simp [Prog.stepEvent, hcons, fixLiveRange]
      · simp [hcons, fixLiveRange]
  obtain ⟨rs, hstep, hint⟩ := hdef
  refine ⟨rs, l₀, rs₀, ?_, hint⟩
  rw [filter_allEvents, range_split hdr.1 hdr.2, List.flatMap_append, List.flatMap_append, hA, hC,
    List.append_nil, runVreg_append, h1, Option.bind_some, List.flatMap_singleton, eventsIn_def W sets hv,
    runVreg_append, g1, Option.bind_some]
  simp only [runVreg, List.foldlM_cons, List.foldlM_nil]
  rw [hstep]
  rfl

/-- A register without a definition: its events do not fail. -/
theorem runVreg_isSome : ∀ (evs : List (ℕ × Event)) (x : List Range × ℕ),
    (∀ be ∈ evs, ∀ v pos, be.2 ≠ .define v pos) → ∃ y, runVreg P evs x = some y := by
  intro evs
  induction evs with
  | nil => exact fun x _ => ⟨x, rfl⟩
  | cons be evs ih =>
    intro x hno
    have hstep : ∃ y, P.stepEvent be.1 be.2 x = some y := by
      obtain ⟨rs, live⟩ := x
      cases hev : be.2 with
      | liveOut v => exact ⟨_, rfl⟩
      | read r =>
        simp only [Prog.stepEvent]
        split_ifs
        · exact ⟨_, rfl⟩
        · exact ⟨_, rfl⟩
      | define v pos => exact absurd hev (hno be List.mem_cons_self v pos)
      | phi v ref => exact ⟨_, rfl⟩
    obtain ⟨y, hy⟩ := hstep
    obtain ⟨z, hz⟩ := ih y fun e he => hno e (List.mem_cons_of_mem be he)
    refine ⟨z, ?_⟩
    simp only [runVreg, List.foldlM_cons, hy]
    exact hz

/-- A definition is that of an instruction with the register. -/
theorem define_vreg {sets : LiveSets} {be : ℕ × Event} (h : be ∈ P.allEvents sets) {v pos : ℕ}
    (hbe : be.2 = .define v pos) : ∃ i, P.vregs i = v ∧ v ≠ 0 := by
  obtain ⟨b, -, h⟩ := List.mem_flatMap.mp h
  obtain ⟨ev, hev, rfl⟩ := List.mem_map.mp h
  simp only at hbe
  subst hbe
  rcases List.mem_append.mp hev with h | h
  · obtain ⟨w, -, hw⟩ := List.mem_map.mp h
    exact absurd hw (by simp)
  · obtain ⟨u, -, hu⟩ := List.mem_flatMap.mp h
    have hread : ∀ l : List Read, Event.define v pos ∉ l.map Event.read := by
      intro l hl
      obtain ⟨r, -, hr⟩ := List.mem_map.mp hl
      exact absurd hr (by simp)
    unfold Prog.refEvents at hu
    split_ifs at hu with h1 h2 h3
    · exact absurd hu (by simp)
    · exact absurd hu (by simp)
    · rcases List.mem_cons.mp hu with he | he
      · injection he with he _
        exact ⟨u, he.symm, he ▸ h2⟩
      · exact absurd he (hread _)
    · exact absurd hu (hread _)

/-- **`ir_compute_live_ranges`** ends with an interval for each register. -/
theorem computeLiveRanges_spec (W : Wf P) :
    ∃ sets st, computeLiveSets P = some sets ∧ computeLiveRanges P = some (sets, st) ∧ SetsOk P sets ∧
      ∀ i, P.vregs i ≠ 0 → ∃ rs₀, IntervalOf P sets i rs₀ (st.ivals (P.vregs i)) := by
  obtain ⟨sets, h1, h2, h3⟩ := computeLiveSets_spec W
  have hsets : SetsOk P sets := ⟨h2, h3⟩
  obtain ⟨st, h4, h5⟩ := foldlM_applyEvent (P := P) (P.allEvents sets) ⟨fun _ => [], fun _ => 0⟩ fun v => by
    by_cases hv : ∃ i, P.vregs i = v ∧ v ≠ 0
    · obtain ⟨i, rfl, hne⟩ := hv
      obtain ⟨rs, live, -, hrun, -⟩ := interval_spec W hsets hne
      exact ⟨_, hrun⟩
    · refine runVreg_isSome _ _ fun be hbe w pos hdef => hv ?_
      obtain ⟨hmem, hvreg⟩ := List.mem_filter.mp hbe
      obtain ⟨i, hi, hne⟩ := define_vreg hmem hdef
      rw [hdef] at hvreg
      have hwv : w = v := of_decide_eq_true hvreg
      exact ⟨i, hi.trans hwv, hwv ▸ hne⟩
  refine ⟨sets, st, h1, ?_, hsets, fun i hv => ?_⟩
  · unfold computeLiveRanges
    rw [h1]
    simp only [h4, Option.map_some]
  · obtain ⟨rs, live, rs₀, hrun, hint⟩ := interval_spec W hsets hv
    have h := h5 (P.vregs i)
    rw [hrun] at h
    injection h with h
    injection h with hrs _
    exact ⟨rs₀, hrs ▸ hint⟩

end

end IrJit.Ra
