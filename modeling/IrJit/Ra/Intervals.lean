import Mathlib
import IrJit.Ra.LiveRange

/-!
# Ra.Intervals — intervals compared, joined and split (`ir_ra.c`, 1643–1730 and 2563–2656)

An interval with nonempty ranges is its set of positions (`Interval.ext`), so that the order of joins does not matter
(`vregsJoin_unique`), and a split that is joined again leaves no trace (`splitIntervalAt_join`).
-/

namespace IrJit.Ra

/-- `ir_ivals_overlap`. -/
def ivalsOverlap : List Range → List Range → ℕ
  | a :: as, b :: bs =>
    if b.1 < a.2 then
      if a.1 < b.2 then max a.1 b.1 else ivalsOverlap (a :: as) bs
    else ivalsOverlap as (b :: bs)
  | _, _ => 0
termination_by as bs => as.length + bs.length

/-- `ir_ivals_inside`. -/
def ivalsInside (parent : List Range) : List Range → Bool
  | [] => true
  | c :: child =>
    match parent.dropWhile fun p => p.2 < c.1 with
    | [] => false
    | p :: parent => if p.1 > c.1 ∨ p.2 < c.2 then false else ivalsInside (p :: parent) child

/-- The ranges of `r1` after `ir_vregs_join`. -/
def vregsJoin (r1 r2 : List Range) : List Range := r2.foldl (fun rs r => addLiveRange r.1 r.2 rs) r1

/-- The ranges in front of `pos`, and those behind; nothing when `IR_ASSERT(p)` fails. -/
def splitRanges (pos : ℕ) : List Range → Option (List Range × List Range)
  | [] => none
  | p :: rest =>
    if pos ≥ p.2 then (splitRanges pos rest).map fun (ival, child) => (p :: ival, child)
    else if pos ≤ p.1 then some ([], p :: rest)
    else some ([(p.1, pos)], (pos, p.2) :: rest)

/-- `ir_split_interval_at`: the ranges that are left, and those of the child. -/
def splitIntervalAt (pos : ℕ) : List Range → Option (List Range × List Range)
  | [] => none
  | p :: rest => if pos > p.1 then splitRanges pos (p :: rest) else none

/-- Ranges with gaps between them, none of them empty. -/
structure Interval (rs : List Range) : Prop extends Asc rs where
  lt : ∀ r ∈ rs, r.1 < r.2

/-- Two intervals that touch. -/
def outer : List Range := [(2, 6), (8, 12)]

def inner : List Range := [(6, 8)]

theorem interval_outer : Interval outer := ⟨⟨by decide, by decide⟩, by decide⟩

theorem interval_inner : Interval inner := ⟨⟨by decide, by decide⟩, by decide⟩

variable {p : Range} {rs ss a b : List Range} {q pos : ℕ}

/-! ## Positions -/

theorem Interval.tail (h : Interval (p :: rs)) : Interval rs :=
  ⟨h.toAsc.tail, fun r hr => h.lt r (List.mem_cons_of_mem p hr)⟩

theorem Interval.cons (h : Interval rs) (hp : p.1 < p.2) (hlt : ∀ r ∈ rs, p.2 < r.1) : Interval (p :: rs) :=
  ⟨h.toAsc.cons hp.le hlt, List.forall_mem_cons.2 ⟨hp, h.lt⟩⟩

theorem Asc.lt_of_covers (h : Asc (p :: rs)) (hq : Covers rs q) : p.2 < q := by
  obtain ⟨r, hr, hle, -⟩ := hq
  exact (h.lt_of_mem r hr).trans_le hle

theorem Asc.le_of_covers (h : Asc (p :: rs)) (hq : Covers (p :: rs) q) : p.1 ≤ q := by
  obtain ⟨r, hr, hle, -⟩ := hq
  exact (h.head_le r hr).trans hle

theorem Asc.not_covers_end (h : Asc (p :: rs)) : ¬Covers (p :: rs) p.2 := by
  rintro hq
  rcases covers_cons.1 hq with hq | hq
  · exact lt_irrefl _ hq.2
  · exact lt_irrefl _ (h.lt_of_covers hq)

theorem Interval.covers_start (h : Interval (p :: rs)) : Covers (p :: rs) p.1 :=
  covers_cons.2 (Or.inl ⟨le_rfl, h.lt p List.mem_cons_self⟩)

/-- The end of the first range. -/
theorem Interval.end_le {s : Range} (h : Interval (p :: rs)) (hstart : p.1 = s.1)
    (hpos : ∀ q, Covers (s :: ss) q → Covers (p :: rs) q) : s.2 ≤ p.2 := by
  by_contra hlt
  have hp := h.lt p List.mem_cons_self
  exact h.not_covers_end (hpos _ (covers_cons.2 (Or.inl ⟨by omega, by omega⟩)))

/-- An interval is its set of positions. -/
theorem Interval.ext (h : Interval rs) (h' : Interval ss) (hpos : ∀ q, Covers rs q ↔ Covers ss q) : rs = ss := by
  induction rs generalizing ss with
  | nil =>
    cases ss with
    | nil => rfl
    | cons s ss => exact absurd ((hpos _).2 h'.covers_start) (covers_nil _)
  | cons p rs ih =>
    cases ss with
    | nil => exact absurd ((hpos _).1 h.covers_start) (covers_nil _)
    | cons s ss =>
      have hstart : p.1 = s.1 :=
        le_antisymm (h.le_of_covers ((hpos _).2 h'.covers_start)) (h'.le_of_covers ((hpos _).1 h.covers_start))
      have hend : p.2 = s.2 :=
        le_antisymm (h'.end_le hstart.symm fun q => (hpos q).1) (h.end_le hstart fun q => (hpos q).2)
      have hrest : ∀ q, Covers rs q ↔ Covers ss q := by
        intro q
        have hq := hpos q
        rw [covers_cons, covers_cons, hstart, hend] at hq
        constructor
        · intro hmem
          have := h.lt_of_covers hmem
          exact (hq.1 (Or.inr hmem)).resolve_left (by omega)
        · intro hmem
          have := h'.lt_of_covers hmem
          exact (hq.2 (Or.inr hmem)).resolve_left (by omega)
      rw [Prod.ext hstart hend, ih h.tail h'.tail hrest]

/-! ## Comparison -/

/-- `pos` is the first common position, or 0 when there is none. -/
def FirstCommon (a b : List Range) (pos : ℕ) : Prop :=
  (∃ q, Covers a q ∧ Covers b q) ∧ IsLeast {q | Covers a q ∧ Covers b q} pos ∨
    (¬∃ q, Covers a q ∧ Covers b q) ∧ pos = 0

theorem firstCommon_ivalsOverlap (ha : Interval a) (hb : Interval b) : FirstCommon a b (ivalsOverlap a b) := by
  unfold FirstCommon
  fun_induction ivalsOverlap a b with
  | case1 p as s bs hs hp =>
    left
    have h1 := ha.lt p List.mem_cons_self
    have h2 := hb.lt s List.mem_cons_self
    have hmem : Covers (p :: as) (max p.1 s.1) ∧ Covers (s :: bs) (max p.1 s.1) :=
      ⟨covers_cons.2 (Or.inl ⟨le_max_left _ _, by omega⟩), covers_cons.2 (Or.inl ⟨le_max_right _ _, by omega⟩)⟩
    exact ⟨⟨_, hmem⟩, hmem, fun q hq => max_le (ha.le_of_covers hq.1) (hb.le_of_covers hq.2)⟩
  | case2 p as s bs hs hp ih =>
    -- the first range of `b` is in front of `a`
    have hsame : ∀ q, Covers (p :: as) q ∧ Covers (s :: bs) q ↔ Covers (p :: as) q ∧ Covers bs q := by
      intro q
      refine and_congr_right fun hq => ?_
      have := ha.le_of_covers hq
      rw [covers_cons]
      exact or_iff_right (by omega)
    simp only [hsame]
    exact ih ha hb.tail
  | case3 p as s bs hs ih =>
    have hsame : ∀ q, Covers (p :: as) q ∧ Covers (s :: bs) q ↔ Covers as q ∧ Covers (s :: bs) q := by
      intro q
      refine and_congr_left fun hq => ?_
      have := hb.le_of_covers hq
      rw [covers_cons]
      exact or_iff_right (by omega)
    simp only [hsame]
    exact ih ha.tail hb
  | case4 a b hnil =>
    right
    refine ⟨?_, rfl⟩
    rintro ⟨q, ha', hb'⟩
    cases a with
    | nil => exact covers_nil q ha'
    | cons p as =>
      cases b with
      | nil => exact covers_nil q hb'
      | cons s bs => exact hnil p as s bs rfl rfl

/-- `ir_ivals_overlap` returns it. -/
theorem ivalsOverlap_first (ha : Interval a) (hb : Interval b) : FirstCommon a b pos ↔ pos = ivalsOverlap a b := by
  have h := firstCommon_ivalsOverlap ha hb
  refine ⟨fun hpos => ?_, fun hpos => hpos ▸ h⟩
  rcases h with ⟨hmeet, h⟩ | ⟨hno, h⟩
  · exact (hpos.resolve_right fun hn => hn.1 hmeet).2.unique h
  · exact (hpos.resolve_left fun hn => hno hn.1).2.trans h.symm

theorem ivalsOverlap_first_touching : FirstCommon outer inner 0 ↔ 0 = ivalsOverlap outer inner :=
  ivalsOverlap_first interval_outer interval_inner

theorem covers_dropWhile {x : ℕ} (hq : x ≤ q) : Covers (a.dropWhile fun p => p.2 < x) q ↔ Covers a q := by
  induction a with
  | nil => rfl
  | cons p a ih =>
    rw [List.dropWhile_cons]
    split_ifs with hp
    · rw [decide_eq_true_iff] at hp
      rw [ih, covers_cons]
      exact (or_iff_right (by omega)).symm
    · rfl

/-- `ir_ivals_inside` tells whether every position of the child is one of the parent. -/
theorem ivalsInside_iff (ha : Interval a) (hb : Interval b) :
    ivalsInside a b = true ↔ ∀ q, Covers b q → Covers a q := by
  induction b generalizing a with
  | nil => exact iff_of_true rfl fun q hq => absurd hq (covers_nil q)
  | cons c child ih =>
    have hsub := List.dropWhile_sublist (fun p : Range => decide (p.2 < c.1)) (l := a)
    have hdrop : Interval (a.dropWhile fun p => p.2 < c.1) :=
      ⟨⟨ha.gaps.sublist hsub, fun r hr => ha.le r (hsub.subset hr)⟩, fun r hr => ha.lt r (hsub.subset hr)⟩
    have hsame : (∀ q, Covers (c :: child) q → Covers a q) ↔
        ∀ q, Covers (c :: child) q → Covers (a.dropWhile fun p => p.2 < c.1) q :=
      forall₂_congr fun q hq => (covers_dropWhile (hb.le_of_covers hq)).symm
    have hfirst := List.head?_dropWhile_not (fun p : Range => decide (p.2 < c.1)) a
    rw [hsame, ivalsInside]
    cases hd : a.dropWhile fun p => p.2 < c.1 with
    | nil => exact iff_of_false (by simp) fun hall => covers_nil _ (hall _ hb.covers_start)
    | cons p rest =>
      rw [hd] at hdrop hfirst
      have hp : ¬p.2 < c.1 := by simpa using hfirst
      dsimp only
      split_ifs with hout
      · refine iff_of_false not_false fun hall => ?_
        rcases hout with hstart | hend
        · exact absurd (hdrop.le_of_covers (hall _ hb.covers_start)) (by omega)
        · exact hdrop.not_covers_end (hall _ (covers_cons.2 (Or.inl ⟨by omega, hend⟩)))
      · rw [ih hdrop hb.tail]
        refine ⟨fun hall q hq => ?_, fun hall q hq => hall q (covers_cons.2 (Or.inr hq))⟩
        rcases covers_cons.1 hq with hq | hq
        · exact covers_cons.2 (Or.inl ⟨by omega, by omega⟩)
        · exact hall q hq

theorem ivalsInside_iff_touching : ivalsInside outer inner = true ↔ ∀ q, Covers inner q → Covers outer q :=
  ivalsInside_iff interval_outer interval_inner

/-! ## Joining and splitting -/

theorem absorb_lt {x y : ℕ} (hxy : x < y) (h : ∀ r ∈ rs, r.1 < r.2) : ∀ r ∈ absorb x y rs, r.1 < r.2 := by
  induction rs generalizing y with
  | nil => exact List.forall_mem_singleton.2 hxy
  | cons p rs ih =>
    unfold absorb
    split_ifs
    · exact ih (by omega) fun r hr => h r (List.mem_cons_of_mem p hr)
    · exact List.forall_mem_cons.2 ⟨hxy, h⟩

theorem Interval.addLiveRange {x y : ℕ} (h : Interval rs) (hxy : x < y) : Interval (addLiveRange x y rs) := by
  refine ⟨(addLiveRange_spec hxy.le rs h.toAsc).1, ?_⟩
  induction rs with
  | nil => exact List.forall_mem_singleton.2 hxy
  | cons p rs ih =>
    obtain ⟨hp, hrest⟩ := List.forall_mem_cons.1 h.lt
    unfold Ra.addLiveRange
    split_ifs
    · exact absorb_lt (by omega) hrest
    · exact List.forall_mem_cons.2 ⟨by dsimp only; omega, hrest⟩
    · exact List.forall_mem_cons.2 ⟨hp, ih h.tail⟩
    · exact List.forall_mem_cons.2 ⟨hxy, h.lt⟩

theorem vregsJoin_spec (ha : Interval a) (hb : ∀ r ∈ b, r.1 < r.2) :
    Interval (vregsJoin a b) ∧ ∀ q, Covers (vregsJoin a b) q ↔ Covers a q ∨ Covers b q := by
  induction b generalizing a with
  | nil => exact ⟨ha, fun q => (or_iff_left (covers_nil q)).symm⟩
  | cons r b ih =>
    obtain ⟨hr, hb⟩ := List.forall_mem_cons.1 hb
    obtain ⟨hjoin, hpos⟩ := ih (ha.addLiveRange hr) hb
    refine ⟨hjoin, fun q => (hpos q).trans ?_⟩
    rw [(addLiveRange_spec hr.le a ha.toAsc).2.1 q, covers_cons]
    tauto

/-- `ir_vregs_join` makes the one interval with the positions of both, so that it is commutative and associative. -/
theorem vregsJoin_unique (ha : Interval a) (hb : Interval b) :
    (Interval rs ∧ ∀ q, Covers rs q ↔ Covers a q ∨ Covers b q) ↔ rs = vregsJoin a b := by
  obtain ⟨hjoin, hpos⟩ := vregsJoin_spec ha hb.lt
  constructor
  · rintro ⟨h, hrs⟩
    exact h.ext hjoin fun q => (hrs q).trans (hpos q).symm
  · rintro rfl
    exact ⟨hjoin, hpos⟩

theorem vregsJoin_unique_touching : (Interval [(2, 12)] ∧ ∀ q, Covers [(2, 12)] q ↔ Covers outer q ∨ Covers inner q) ↔
    [(2, 12)] = vregsJoin outer inner :=
  vregsJoin_unique interval_outer interval_inner

/-- The positions before `pos` stay, the others go to the child. -/
structure IsSplit (pos : ℕ) (rs ival child : List Range) : Prop where
  left : Interval ival
  right : Interval child
  before : ∀ q, Covers ival q ↔ Covers rs q ∧ q < pos
  after : ∀ q, Covers child q ↔ Covers rs q ∧ pos ≤ q

theorem splitRanges_some (h : Interval rs) (hafter : ∃ q, pos ≤ q ∧ Covers rs q) :
    ∃ ival child, splitRanges pos rs = some (ival, child) ∧ IsSplit pos rs ival child := by
  induction rs with
  | nil =>
    obtain ⟨q, -, hq⟩ := hafter
    exact absurd hq (covers_nil q)
  | cons p rest ih =>
    have hp := h.lt p List.mem_cons_self
    rw [splitRanges]
    split_ifs with hend hstart
    · obtain ⟨q, hle, hq⟩ := hafter
      have hq := (covers_cons.1 hq).resolve_left (by omega)
      obtain ⟨ival, child, hsplit, hi, hc, hival, hchild⟩ := ih h.tail ⟨q, hle, hq⟩
      refine ⟨p :: ival, child, by rw [hsplit]; rfl, hi.cons hp fun r hr => ?_, hc, fun q => ?_, fun q => ?_⟩
      · exact h.lt_of_covers ((hival r.1).1 ⟨r, hr, le_rfl, hi.lt r hr⟩).1
      · rw [covers_cons, covers_cons, hival, or_and_right]
        exact or_congr_left (and_iff_left_of_imp fun hq => by omega).symm
      · rw [hchild, covers_cons]
        refine and_congr_left fun hle => ?_
        exact (or_iff_right (by omega)).symm
    · refine ⟨[], p :: rest, rfl, ⟨Asc.nil, by simp⟩, h, fun q => ?_, fun q => ?_⟩
      · refine iff_of_false (covers_nil q) fun hq => ?_
        have := h.le_of_covers hq.1
        omega
      · exact (and_iff_left_of_imp fun hq => hstart.trans (h.le_of_covers hq)).symm
    · refine ⟨[(p.1, pos)], (pos, p.2) :: rest, rfl, ⟨Asc.nil.cons (by dsimp only; omega) (by simp), by simp; omega⟩,
        h.tail.cons (by dsimp only; omega) h.lt_of_mem, fun q => ?_, fun q => ?_⟩
      · rw [covers_cons, covers_cons, or_iff_left (covers_nil q)]
        constructor
        · rintro ⟨hle, hlt⟩
          exact ⟨Or.inl ⟨hle, by omega⟩, hlt⟩
        · rintro ⟨hq | hq, hlt⟩
          · exact ⟨hq.1, hlt⟩
          · have := h.lt_of_covers hq
            omega
      · rw [covers_cons, covers_cons]
        constructor
        · rintro (hq | hq)
          · exact ⟨Or.inl ⟨by omega, hq.2⟩, hq.1⟩
          · have := h.lt_of_covers hq
            exact ⟨Or.inr hq, by omega⟩
        · rintro ⟨hq | hq, hle⟩
          · exact Or.inl ⟨hle, hq.2⟩
          · exact Or.inr hq

/-- `ir_split_interval_at` divides an interval, and joining the child again undoes it. -/
theorem splitIntervalAt_join (h : Interval rs) (hbefore : ∃ q < pos, Covers rs q)
    (hafter : ∃ q, pos ≤ q ∧ Covers rs q) :
    ∃ ival child, splitIntervalAt pos rs = some (ival, child) ∧ IsSplit pos rs ival child ∧
      ivalsOverlap ival child = 0 ∧ vregsJoin ival child = rs := by
  obtain ⟨ival, child, hsplit, S⟩ := splitRanges_some h hafter
  refine ⟨ival, child, ?_, S, ?_, ?_⟩
  · cases rs with
    | nil => cases hsplit
    | cons p rest =>
      obtain ⟨q, hlt, hq⟩ := hbefore
      exact (if_pos ((h.le_of_covers hq).trans_lt hlt)).trans hsplit
  · rcases firstCommon_ivalsOverlap S.left S.right with ⟨⟨q, hq, hq'⟩, -⟩ | ⟨-, hzero⟩
    · exact absurd ((S.before q).1 hq).2 (not_lt.2 ((S.after q).1 hq').2)
    · exact hzero
  · obtain ⟨hjoin, hpos⟩ := vregsJoin_spec S.left S.right.lt
    refine hjoin.ext h fun q => ?_
    rw [hpos, S.before, S.after, ← and_or_left]
    exact and_iff_left (lt_or_ge q pos)

theorem splitIntervalAt_join_outer : ∃ ival child, splitIntervalAt 7 outer = some (ival, child) ∧
    IsSplit 7 outer ival child ∧ ivalsOverlap ival child = 0 ∧ vregsJoin ival child = outer :=
  splitIntervalAt_join interval_outer ⟨2, by decide, interval_outer.covers_start⟩
    ⟨8, by decide, (8, 12), by decide, by decide⟩

end IrJit.Ra
