import Mathlib.Logic.Relation
import IrJit.Dessa.Axles

/-!
# Dessa.Correct — when the emitted moves are the parallel assignment

`Wf` is what `ir_dessa_parallel_copy` is given: distinct destinations, registers of the right class,
temporary registers that are no sources.  The three tables are consistent then (`prob_of_wf`).

The moves are the parallel assignment (`parallelAssign_of_sound`) when four things hold (`Sound`).
They are about the copies only; the copies feed one another (`Feeds`), and a destination is held
back (`HeldBack`) when everything it finally leads to is a temporary register.

* `same_src`: the copies of one source have one register class and size.  A later copy is read
  from the destination of an earlier one.
* `cycle`: so do the copies of a cycle that is held back, unless it has two elements one of which
  is a register.  The root is saved with the type of one copy and restored with that of another.
* `const`: a constant that is held back is written to a location below those it leads to.
  The search for cycles uses it as an index otherwise.
* `mem`: a destination in memory that is held back outside of a cycle does not need its temporary
  register, if that register is a destination itself: it is set by then.
-/

namespace IrJit.Dessa

/-! ### The tables -/

section

variable {α : Type*}

/-- A table filled by a loop holds the value of an entry, or what it held before. -/
theorem foldl_update_cases (key : Copy → ℕ) (val : Copy → α) (copies : List Copy) (f : ℕ → α) (x : ℕ) :
    (∃ c ∈ copies, key c = x ∧
      copies.foldl (fun f c => Function.update f (key c) (val c)) f x = val c) ∨
    ((∀ c ∈ copies, key c ≠ x) ∧
      copies.foldl (fun f c => Function.update f (key c) (val c)) f x = f x) := by
  induction copies generalizing f with
  | nil => exact Or.inr ⟨by simp, rfl⟩
  | cons c cs ih =>
    rcases ih (Function.update f (key c) (val c)) with ⟨c', hc', hk, hv⟩ | ⟨hno, hv⟩
    · exact Or.inl ⟨c', List.mem_cons_of_mem c hc', hk, hv⟩
    · by_cases hx : key c = x
      · refine Or.inl ⟨c, List.mem_cons_self, hx, hv.trans ?_⟩
        rw [← hx, Function.update_self]
      · refine Or.inr ⟨?_, hv.trans (Function.update_of_ne (Ne.symm hx) _ _)⟩
        intro c' hc'
        rcases List.mem_cons.mp hc' with rfl | h
        · exact hx
        · exact hno c' h

theorem eq_of_dst_eq {copies : List Copy} (hnd : (copies.map Copy.dst).Nodup) {c c' : Copy}
    (hc : c ∈ copies) (hc' : c' ∈ copies) (h : c.dst = c'.dst) : c = c' :=
  List.inj_on_of_nodup_map hnd hc hc' h

theorem foldl_update_dst (val : Copy → α) {copies : List Copy} (hnd : (copies.map Copy.dst).Nodup)
    (f : ℕ → α) {c : Copy} (hc : c ∈ copies) :
    copies.foldl (fun f c => Function.update f c.dst (val c)) f c.dst = val c := by
  rcases foldl_update_cases Copy.dst val copies f c.dst with ⟨c', hc', hk, hv⟩ | ⟨hno, -⟩
  · rw [hv, eq_of_dst_eq hnd hc' hc hk]
  · exact absurd rfl (hno c hc)

end

theorem predOf_nonneg {copies : List Copy} {x : ℕ} (h : 0 ≤ predOf copies x) :
    ∃ c ∈ copies, c.dst = x ∧ predOf copies x = c.src := by
  rcases foldl_update_cases Copy.dst Copy.src copies (fun _ => -1) x with h' | ⟨-, hv⟩
  · exact h'
  · unfold predOf at h
    omega

theorem mem_foldl_insert (copies : List Copy) (s : Finset ℕ) (x : ℕ) :
    x ∈ copies.foldl (fun s c => insert c.dst s) s ↔ x ∈ s ∨ ∃ c ∈ copies, c.dst = x := by
  induction copies generalizing s with
  | nil => simp
  | cons c cs ih =>
    simp only [List.foldl_cons, ih, Finset.mem_insert, List.mem_cons, exists_eq_or_imp]
    tauto

theorem mem_dstsOf {copies : List Copy} {x : ℕ} : x ∈ dstsOf copies ↔ ∃ c ∈ copies, c.dst = x := by
  simp [dstsOf, mem_foldl_insert]

theorem mem_foldl_src (copies : List Copy) (s : Finset ℕ) (x : ℕ) :
    x ∈ copies.foldl (fun s c => if c.src < 0 then s else insert c.src.toNat s) s ↔
      x ∈ s ∨ ∃ c ∈ copies, c.src = x := by
  induction copies generalizing s with
  | nil => simp
  | cons c cs ih =>
    simp only [List.foldl_cons, ih, List.mem_cons, exists_eq_or_imp]
    split_ifs with h
    · have hne : c.src ≠ x := by omega
      simp [hne]
    · have heq : x = c.src.toNat ↔ c.src = x := by omega
      rw [Finset.mem_insert, heq]
      tauto

theorem mem_srcsOf {copies : List Copy} {x : ℕ} : x ∈ srcsOf copies ↔ ∃ c ∈ copies, c.src = x := by
  simp [srcsOf, mem_foldl_src]

/-- A source starts at its own place. -/
theorem locOf_self {copies : List Copy} {x : ℕ} (hx : x ∈ srcsOf copies) : locOf copies x = x := by
  have hgen : ∀ (copies : List Copy) (f : ℕ → ℕ), (f x = x ∨ ∃ c ∈ copies, c.src = x) →
      copies.foldl (fun f c => if c.src < 0 then f else Function.update f c.src.toNat c.src.toNat) f x
        = x := by
    intro copies
    induction copies with
    | nil => simp
    | cons c cs ih =>
      intro f hf
      refine ih _ ?_
      simp only
      by_cases hc : c.src = x
      · left
        rw [if_neg (by omega), show c.src.toNat = x by omega, Function.update_self]
      · rcases hf with h | ⟨c', hc', hs⟩
        · left
          split_ifs with hneg
          · exact h
          · rwa [Function.update_of_ne (by omega)]
        · rcases List.mem_cons.mp hc' with rfl | h
          · exact absurd hs hc
          · exact Or.inr ⟨c', h, hs⟩
  exact hgen copies _ (Or.inr (mem_srcsOf.mp hx))

/-! ### The input -/

/-- What `ir_dessa_parallel_copy` is given. -/
structure Wf (ctx : Ctx) (copies : List Copy) (memSlotsCount : ℕ) (tmp tmpFp : Option ℕ) : Prop where
  nodup : (copies.map Copy.dst).Nodup
  src_ne : ∀ c ∈ copies, c.src ≠ c.dst
  dst_lt : ∀ c ∈ copies, c.dst < regNum + memSlotsCount
  src_lt : ∀ c ∈ copies, c.src < regNum + memSlotsCount
  dst_class : ∀ c ∈ copies, ClassOk c.type c.dst
  src_class : ∀ c ∈ copies, 0 ≤ c.src → ClassOk c.type c.src.toNat
  local_int : ∀ c ∈ copies, isLocalAddr ctx c.src → c.type.isInt = true
  /-- a temporary register of the class of every copy -/
  tmp_some : ∀ c ∈ copies, (tmpFor c.type tmp tmpFp).isSome
  tmp_class : ∀ t, tmp = some t → isGpReg t = true
  tmpFp_class : ∀ t, tmpFp = some t → isFpReg t = true
  tmp_not_src : ∀ t : ℕ, tmp = some t ∨ tmpFp = some t → ∀ c ∈ copies, c.src ≠ t

/-- The parallel assignment: there is code, it runs, and gives every destination the value that its
source had before the first instruction. -/
def ParallelAssign (ctx : Ctx) (copies : List Copy) (memSlotsCount : ℕ) (tmp tmpFp : Option ℕ) : Prop :=
  ∃ code, dessaParallelCopy ctx copies memSlotsCount tmp tmpFp = some code ∧
    ∀ σ, ∃ σ', exec ctx code σ = some σ' ∧
      ∀ c ∈ copies, Agree c.type.size (σ'.get c.dst) (srcVal ctx σ c.src)

/-- A copy goes from `x` to `y`. -/
def Feeds (copies : List Copy) (x y : ℕ) : Prop := ∃ c ∈ copies, c.src = x ∧ c.dst = y

/-- Every final destination that `x` leads to is a temporary register. -/
def HeldBack (copies : List Copy) (tmp tmpFp : Option ℕ) (x : ℕ) : Prop :=
  ∀ z, Relation.ReflTransGen (Feeds copies) x z → (∀ c ∈ copies, c.src ≠ z) →
    tmp = some z ∨ tmpFp = some z

/-- The condition under which the moves are the parallel assignment. -/
structure Sound (ctx : Ctx) (copies : List Copy) (tmp tmpFp : Option ℕ) : Prop where
  same_src : ∀ c ∈ copies, ∀ c' ∈ copies, 0 ≤ c.src → c.src = c'.src → c.type.kind = c'.type.kind
  cycle : ∀ c ∈ copies, ∀ c' ∈ copies, c'.src = c.dst →
    Relation.TransGen (Feeds copies) c.dst c.dst → HeldBack copies tmp tmpFp c.dst →
    c.type.kind = c'.type.kind ∨ (c.src = c'.dst ∧ (c.dst < regNum ∨ c'.dst < regNum))
  const : ∀ c ∈ copies, c.src < 0 → HeldBack copies tmp tmpFp c.dst →
    ∀ c' ∈ copies, ∀ y : ℕ, c'.src = y → Relation.TransGen (Feeds copies) c.dst y → c.dst < y
  mem : ∀ c ∈ copies, regNum ≤ c.dst → HeldBack copies tmp tmpFp c.dst →
    ¬ Relation.TransGen (Feeds copies) c.dst c.dst →
    ∀ t, tmpFor c.type tmp tmpFp = some t → (∃ c' ∈ copies, c'.dst = t) →
    (c.src < 0 ∧ -c.src < ctx.constsCount ∧ storesImm ctx c.type c.src = true) ∨
    (0 ≤ c.src ∧ c.src < regNum ∧ ∀ c' ∈ copies, c'.src = c.src → c' ≠ c → c'.dst < regNum)

section

variable {ctx : Ctx} {copies : List Copy} {memSlotsCount : ℕ} {tmp tmpFp : Option ℕ}

theorem Wf.pred_eq (W : Wf ctx copies memSlotsCount tmp tmpFp) {c : Copy} (hc : c ∈ copies) :
    predOf copies c.dst = c.src :=
  foldl_update_dst Copy.src W.nodup _ hc

theorem Wf.types_eq (W : Wf ctx copies memSlotsCount tmp tmpFp) {c : Copy} (hc : c ∈ copies) :
    typesOf copies c.dst = c.type :=
  foldl_update_dst Copy.type W.nodup _ hc

theorem Wf.tmp_ok (W : Wf ctx copies memSlotsCount tmp tmpFp) {c : Copy} (hc : c ∈ copies) :
    ∃ r, tmpFor c.type tmp tmpFp = some r ∧ r < regNum ∧ ClassOk c.type r ∧ r ∉ srcsOf copies := by
  obtain ⟨r, hr⟩ := Option.isSome_iff_exists.mp (W.tmp_some c hc)
  refine ⟨r, hr, ?_⟩
  unfold tmpFor at hr
  cases ht : c.type.isInt with
  | true =>
    rw [ht, if_pos rfl] at hr
    have hgp := W.tmp_class r hr
    refine ⟨?_, fun _ => by rwa [ht, if_pos rfl], fun hs => ?_⟩
    · simp only [isGpReg, decide_eq_true_eq] at hgp
      unfold regNum
      omega
    · obtain ⟨c', hc', hs⟩ := mem_srcsOf.mp hs
      exact W.tmp_not_src r (Or.inl hr) c' hc' hs
  | false =>
    rw [ht] at hr
    have hfp := W.tmpFp_class r hr
    refine ⟨?_, fun _ => by rw [ht]; exact hfp, fun hs => ?_⟩
    · simp only [isFpReg, Bool.and_eq_true, decide_eq_true_eq] at hfp
      exact hfp.2
    · obtain ⟨c', hc', hs⟩ := mem_srcsOf.mp hs
      exact W.tmp_not_src r (Or.inr hr) c' hc' hs

/-- The tables of well-formed copies. -/
theorem prob_of_wf (W : Wf ctx copies memSlotsCount tmp tmpFp) (H : Sound ctx copies tmp tmpFp) :
    Prob (envOf ctx copies memSlotsCount tmp tmpFp) (dstsOf copies) (srcsOf copies) := by
  -- every fact about a destination is one about its copy
  have hdst : ∀ {Q : ℕ → Prop}, (∀ c ∈ copies, Q c.dst) → ∀ d ∈ dstsOf copies, Q d := by
    intro Q hQ d hd
    obtain ⟨c, hc, rfl⟩ := mem_dstsOf.mp hd
    exact hQ c hc
  refine ⟨?_, hdst ?_, hdst ?_, ?_, hdst ?_, ?_, hdst ?_, hdst ?_, hdst ?_, hdst ?_, hdst ?_⟩
  · intro x hx
    obtain ⟨c, hc, hd, -⟩ := predOf_nonneg hx
    exact mem_dstsOf.mpr ⟨c, hc, hd⟩
  · intro c hc
    show predOf copies c.dst ≠ _
    rw [W.pred_eq hc]
    exact W.src_ne c hc
  · intro c hc s hs
    exact mem_srcsOf.mpr ⟨c, hc, (W.pred_eq hc).symm.trans hs⟩
  · intro s hs
    obtain ⟨c, hc, h⟩ := mem_srcsOf.mp hs
    exact ⟨c.dst, mem_dstsOf.mpr ⟨c, hc, rfl⟩, (W.pred_eq hc).trans h⟩
  · intro c hc
    exact Nat.lt_succ_of_lt (W.dst_lt c hc)
  · intro s hs
    obtain ⟨c, hc, h⟩ := mem_srcsOf.mp hs
    have hlt := W.src_lt c hc
    show s < regNum + memSlotsCount + 1
    omega
  · intro c hc
    show ClassOk (typesOf copies c.dst) c.dst
    rw [W.types_eq hc]
    exact W.dst_class c hc
  · intro c hc s hs
    have hcs : c.src = s := (W.pred_eq hc).symm.trans hs
    show ClassOk (typesOf copies c.dst) s
    rw [W.types_eq hc]
    have h := W.src_class c hc (by omega)
    rwa [show c.src.toNat = s by omega] at h
  · intro c hc hla
    show (typesOf copies c.dst).isInt = true
    rw [W.types_eq hc]
    exact W.local_int c hc ((W.pred_eq hc) ▸ hla)
  · intro c hc
    show ∃ r, tmpFor (typesOf copies c.dst) tmp tmpFp = some r ∧ r < regNum ∧
      ClassOk (typesOf copies c.dst) r ∧ r ∉ srcsOf copies
    rw [W.types_eq hc]
    exact W.tmp_ok hc
  · intro c hc d' hd'
    obtain ⟨c', hc', rfl⟩ := mem_dstsOf.mp hd'
    show 0 ≤ predOf copies c.dst → predOf copies c.dst = predOf copies c'.dst →
      (typesOf copies c.dst).kind = (typesOf copies c'.dst).kind
    rw [W.pred_eq hc, W.pred_eq hc', W.types_eq hc, W.types_eq hc']
    exact H.same_src c hc c' hc'

/-! ### Walks and chains of copies -/

theorem feeds_parent {x : ℕ} (h : 0 ≤ predOf copies x) : Feeds copies (parent (predOf copies) x) x := by
  obtain ⟨c, hc, hd, hs⟩ := predOf_nonneg h
  exact ⟨c, hc, by rw [cast_parent h, hs], hd⟩

theorem Wf.pred_of_feeds (W : Wf ctx copies memSlotsCount tmp tmpFp) {x y : ℕ} (h : Feeds copies x y) :
    predOf copies y = x := by
  obtain ⟨c, hc, hs, rfl⟩ := h
  rw [W.pred_eq hc, hs]

/-- Following `pred` goes up a chain of copies. -/
theorem chain_of_walk {y n : ℕ} (hn : 0 < n)
    (hpos : ∀ i < n, 0 ≤ predOf copies ((parent (predOf copies))^[i] y)) :
    Relation.TransGen (Feeds copies) ((parent (predOf copies))^[n] y) y := by
  induction n with
  | zero => omega
  | succ n ih =>
    have hstep := feeds_parent (hpos n (Nat.lt_succ_self n))
    rw [iterate_parent_succ] at hstep
    rcases Nat.eq_zero_or_pos n with rfl | h0
    · exact Relation.TransGen.single hstep
    · exact Relation.TransGen.head hstep (ih h0 fun i hi => hpos i (by omega))

theorem Wf.walk_of_chain (W : Wf ctx copies memSlotsCount tmp tmpFp) {x y : ℕ}
    (h : Relation.TransGen (Feeds copies) x y) :
    ∃ n, 0 < n ∧ (parent (predOf copies))^[n] y = x ∧
      ∀ i < n, 0 ≤ predOf copies ((parent (predOf copies))^[i] y) := by
  induction h using Relation.TransGen.head_induction_on with
  | single hf =>
    have hp := W.pred_of_feeds hf
    refine ⟨1, Nat.one_pos, parent_eq hp, fun i hi => ?_⟩
    obtain rfl : i = 0 := by omega
    show 0 ≤ predOf copies y
    omega
  | head hf _ ih =>
    obtain ⟨n, hn, he, hpos⟩ := ih
    have hp := W.pred_of_feeds hf
    refine ⟨n + 1, Nat.succ_pos n, ?_, fun i hi => ?_⟩
    · rw [← iterate_parent_succ, he, parent_eq hp]
    · rcases Nat.lt_succ_iff_lt_or_eq.mp hi with h | rfl
      · exact hpos i h
      · rw [he]
        omega

theorem chain_of_onCycle {x : ℕ} (h : OnCycle (predOf copies) x) :
    Relation.TransGen (Feeds copies) x x := by
  obtain ⟨h0, n, hn, hx⟩ := h
  have hc := chain_of_walk hn (y := x) fun i _ => h0 i
  rwa [hx] at hc

theorem Wf.onCycle_of_chain (W : Wf ctx copies memSlotsCount tmp tmpFp) {x : ℕ}
    (h : Relation.TransGen (Feeds copies) x x) : OnCycle (predOf copies) x := by
  obtain ⟨n, hn, hx, hpos⟩ := W.walk_of_chain h
  refine ⟨fun m => ?_, n, hn, hx⟩
  rw [iterate_mod hx]
  exact hpos _ (Nat.mod_lt _ hn)

/-! ### The three phases -/

/-- What the first phase leaves pending is held back. -/
theorem heldBack_of_stuck (W : Wf ctx copies memSlotsCount tmp tmpFp) {σ₀ : State} {st : PcState}
    (hR : Reached (envOf ctx copies memSlotsCount tmp tmpFp) (dstsOf copies) (srcsOf copies) σ₀ st)
    (hstuck : Stuck (tmp.toFinset ∪ tmpFp.toFinset) (srcsOf copies) st)
    (hdis : ∀ t ∈ tmp.toFinset ∪ tmpFp.toFinset, t ∉ srcsOf copies) {x : ℕ} (hx : x ∈ st.todo) :
    HeldBack copies tmp tmpFp x := by
  intro z hz hleaf
  have hpend : z ∈ st.todo := by
    clear hleaf
    induction hz with
    | refl => exact hx
    | @tail a b _ hf ih =>
      have hp := W.pred_of_feeds hf
      obtain ⟨c, hc, hs, rfl⟩ := hf
      exact hR.kids_pending hstuck hdis ih (mem_srcsOf.mpr ⟨c, hc, hs⟩) (mem_dstsOf.mpr ⟨c, hc, rfl⟩) hp
  rcases hstuck z hpend with h | ⟨hS, -⟩
  · simpa [Finset.mem_union, Option.mem_toFinset] using h
  · obtain ⟨c, hc, hs⟩ := mem_srcsOf.mp hS
    exact absurd hs (hleaf c hc)

/-- The constants that the search for cycles may meet. -/
theorem Sound.noConstWalk (W : Wf ctx copies memSlotsCount tmp tmpFp) (H : Sound ctx copies tmp tmpFp)
    {T : Finset ℕ} (hT : T ⊆ dstsOf copies) (hheld : ∀ x ∈ T, HeldBack copies tmp tmpFp x) :
    NoConstWalk (envOf ctx copies memSlotsCount tmp tmpFp) (srcsOf copies) T := by
  intro x hx hneg y hy _ n hn hxy hpos
  obtain ⟨c, hc, rfl⟩ := mem_dstsOf.mp (hT hx)
  obtain ⟨c', hc', hs⟩ := mem_srcsOf.mp hy
  have hsrc : c.src < 0 := by
    have h : predOf copies c.dst < 0 := hneg
    rwa [W.pred_eq hc] at h
  have hchain := chain_of_walk hn hpos
  exact H.const c hc hsrc (hheld _ hx) c' hc' y hs (hxy ▸ hchain)

theorem Sound.cycleKinds (W : Wf ctx copies memSlotsCount tmp tmpFp) (H : Sound ctx copies tmp tmpFp)
    {T : Finset ℕ} (hT : T ⊆ dstsOf copies) (hheld : ∀ x ∈ T, HeldBack copies tmp tmpFp x) :
    CycleKinds (envOf ctx copies memSlotsCount tmp tmpFp) T := by
  intro x hx y hy hon _ hp
  obtain ⟨c, hc, rfl⟩ := mem_dstsOf.mp (hT hx)
  obtain ⟨c', hc', rfl⟩ := mem_dstsOf.mp (hT hy)
  show (typesOf copies c.dst).kind = (typesOf copies c'.dst).kind ∨ predOf copies c.dst = c'.dst ∧ _
  rw [W.types_eq hc, W.types_eq hc', W.pred_eq hc]
  exact H.cycle c hc c' hc' ((W.pred_eq hc').symm.trans hp) (chain_of_onCycle hon) (hheld _ hx)

/-- In the last phase no move goes through a temporary register that is set already. -/
theorem Sound.clobber_free (W : Wf ctx copies memSlotsCount tmp tmpFp) (H : Sound ctx copies tmp tmpFp)
    {σ₀ : State} {st : PcState}
    (hR : Reached (envOf ctx copies memSlotsCount tmp tmpFp) (dstsOf copies) (srcsOf copies) σ₀ st)
    {d x : ℕ} (hd : d ∈ st.todo) (hheld : HeldBack copies tmp tmpFp d)
    (hcyc : ¬ OnCycle (predOf copies) d)
    (hx : clobberOf ctx (typesOf copies d) d (readAt st.loc (predOf copies d)) tmp tmpFp = some x) :
    x ∉ dstsOf copies := by
  intro hxD
  obtain ⟨c, hc, rfl⟩ := mem_dstsOf.mp (hR.sub hd)
  rw [W.types_eq hc, W.pred_eq hc] at hx
  unfold clobberOf at hx
  split_ifs at hx with hneed
  have hmem : regNum ≤ c.dst := by
    simp only [needsTmp, Bool.and_eq_true, Bool.not_eq_true', decide_eq_false_iff_not, not_lt] at hneed
    exact hneed.1
  rcases H.mem c hc hmem hheld (fun h => hcyc (W.onCycle_of_chain h)) x hx (mem_dstsOf.mp hxD) with
    ⟨hneg, hcc, himm⟩ | ⟨h0, hreg, hother⟩
  · simp [needsTmp, readAt, hneg, hcc, himm] at hneed
  · -- the place of the source is a register
    obtain ⟨s, hs⟩ := Int.eq_ofNat_of_zero_le h0
    have hplace : st.loc s < regNum := by
      rcases hR.loc s (mem_srcsOf.mpr ⟨c, hc, hs⟩) with ⟨hl, -⟩ | ⟨hlD, hlT, hp⟩
      · rw [hl]
        omega
      · obtain ⟨c', hc', hd'⟩ := mem_dstsOf.mp hlD
        have hp' : predOf copies (st.loc s) = s := hp
        rw [← hd', W.pred_eq hc'] at hp'
        rw [← hd'] at hlT ⊢
        refine hother c' hc' (hp'.trans hs.symm) fun he => ?_
        exact hlT (he ▸ hd)
    rw [hs, readAt_nat] at hneed
    simp [needsTmp, natCast_not_neg, hplace] at hneed

/-- A single copy is one move. -/
theorem parallelAssign_single (c : Copy) (W : Wf ctx [c] memSlotsCount tmp tmpFp) :
    ParallelAssign ctx [c] memSlotsCount tmp tmpFp := by
  have hc : c ∈ [c] := List.mem_singleton.mpr rfl
  obtain ⟨r, h1, h2, h3, -⟩ := W.tmp_ok hc
  obtain ⟨code, hcode, hex⟩ := emitDessaMove_spec ctx c.type c.dst c.src tmp tmpFp (W.dst_class c hc)
    (W.src_class c hc) (W.local_int c hc) fun _ => ⟨r, h1, h2, h3⟩
  refine ⟨code, hcode, fun σ => ?_⟩
  obtain ⟨σ', h, hm⟩ := hex σ
  refine ⟨σ', h, fun c' hc' => ?_⟩
  rw [List.mem_singleton.mp hc']
  exact hm.val

/-- The algorithm on one initial state: it produces code, and the code does every copy. -/
theorem dessaParallelCopy_run (W : Wf ctx copies memSlotsCount tmp tmpFp)
    (H : Sound ctx copies tmp tmpFp) (hlen : ∀ c, copies ≠ [c]) (σ₀ : State) :
    ∃ code, dessaParallelCopy ctx copies memSlotsCount tmp tmpFp = some code ∧
      ∃ σ', exec ctx code σ₀ = some σ' ∧
        ∀ c ∈ copies, Agree c.type.size (σ'.get c.dst) (srcVal ctx σ₀ c.src) := by
  set e := envOf ctx copies memSlotsCount tmp tmpFp with he
  set D := dstsOf copies
  set S := srcsOf copies
  set tmps := tmp.toFinset ∪ tmpFp.toFinset with htmps
  have P : Prob e D S := prob_of_wf W H
  have hmemT : ∀ {t}, t ∈ tmps ↔ tmp = some t ∨ tmpFp = some t := fun {t} => by
    simp [htmps, Finset.mem_union, Option.mem_toFinset]
  have hdis : ∀ t ∈ tmps, t ∉ S := fun t ht hS => by
    obtain ⟨c, hc, hs⟩ := mem_srcsOf.mp hS
    exact W.tmp_not_src t (hmemT.mp ht) c hc hs
  have hclobT : ∀ {t : IrType} {d : ℕ} {src : ℤ} {x : ℕ},
      clobberOf ctx t d src tmp tmpFp = some x → x ∈ tmps := fun {t d src x} hx => by
    unfold clobberOf tmpFor at hx
    split_ifs at hx
    · exact hmemT.mpr (Or.inl hx)
    · exact hmemT.mpr (Or.inr hx)
  have hcardD : D.card < e.len + 1 := by
    have hsub : D ⊆ Finset.range e.len := fun x hx => Finset.mem_range.mpr (P.dst_lt x hx)
    have hle := Finset.card_le_card hsub
    rw [Finset.card_range] at hle
    omega
  -- the first phase
  have hinit : Reached e D S σ₀ ⟨D, locOf copies, []⟩ := by
    refine ⟨σ₀, rfl, subset_rfl, fun d hd hd' => absurd hd hd', fun d hd s hs => ?_, fun s hs => ?_⟩
    · show Agree _ (σ₀.get (locOf copies s)) _
      rw [locOf_self (P.src_mem d hd s hs)]
      exact Agree.refl _ _
    · exact Or.inl ⟨locOf_self hs, fun d hd _ => hd⟩
  obtain ⟨st₁, hrun₁, hR₁, -, hkept₁, hstuck₁⟩ := resolveBlades_spec P σ₀ tmps D
    (fun st _ _ hblk d _ _ x hx => ⟨hdis x (hclobT hx), hblk x (hclobT hx)⟩)
    (e.len + 1) ((D \ S) \ tmps) ⟨D, locOf copies, []⟩ hcardD hinit subset_rfl (fun _ _ h => h)
    (fun x hx => by
      simp only [Finset.mem_sdiff] at hx
      exact ⟨hx.1.1, hx.2, fun h => absurd h hx.1.2⟩)
    (fun d hd => by
      by_cases hS : d ∈ S
      · exact Or.inr (Or.inr ⟨hS, locOf_self hS⟩)
      by_cases ht : d ∈ tmps
      · exact Or.inr (Or.inl ht)
      · exact Or.inl (Finset.mem_sdiff.mpr ⟨Finset.mem_sdiff.mpr ⟨hd, hS⟩, ht⟩))
  have hheld : ∀ x ∈ st₁.todo, HeldBack copies tmp tmpFp x := fun x hx =>
    heldBack_of_stuck W hR₁ hstuck₁ hdis hx
  -- the cycles
  have hA : AxleInv e D S tmps st₁.todo (st₁.todo ∩ S) st₁ :=
    { sub := subset_rfl, stuck := hstuck₁, kept := hkept₁, ready_src := Finset.inter_subset_right,
      origin := Finset.inter_subset_left,
      pending := fun x hx hon => Finset.mem_inter.mpr ⟨hx, P.cycle_src hon⟩,
      whole := fun x _ hall => (Finset.mem_inter.mp (hall 0)).1 }
  have hcard₁ : (st₁.todo ∩ S).card < e.len + 1 :=
    lt_of_le_of_lt (Finset.card_le_card (Finset.inter_subset_left.trans hR₁.sub)) hcardD
  obtain ⟨st₂, hrun₂, hR₂, hA₂⟩ := resolveAxles_spec P hdis (fun t ht => hmemT.mpr ht) hR₁.sub
    (H.cycleKinds W hR₁.sub hheld) (H.noConstWalk W hR₁.sub hheld) _ _ st₁ hcard₁ hR₁ hA
  have hcyc : ∀ x ∈ st₂.todo, ¬ OnCycle e.pred x := fun x hx hon =>
    absurd (hA₂.pending x hx hon) (Finset.notMem_empty x)
  -- the last phase
  obtain ⟨st₃, hrun₃, hR₃, hsub₃, -, hstuck₃⟩ := resolveBlades_spec P σ₀ ∅ st₂.todo
    (fun st hR hsub _ d hd _ x hx => ⟨hdis x (hclobT hx), fun hxD => absurd hxD
      (H.clobber_free W hR hd (hheld d (hA₂.sub (hsub hd))) (hcyc d (hsub hd)) hx)⟩)
    (e.len + 1) (st₂.todo \ S) st₂ (lt_of_le_of_lt (Finset.card_le_card hR₂.sub) hcardD) hR₂
    subset_rfl (fun _ h => absurd h (Finset.notMem_empty _))
    (fun x hx => by
      obtain ⟨h1, h2⟩ := Finset.mem_sdiff.mp hx
      exact ⟨h1, Finset.notMem_empty x, fun h => absurd h h2⟩)
    (fun d hd => by
      by_cases hS : d ∈ S
      · refine Or.inr (Or.inr ⟨hS, ?_⟩)
        exact ((hA₂.stuck d hd).resolve_left fun h => hdis d h hS).2
      · exact Or.inl (Finset.mem_sdiff.mpr ⟨hd, hS⟩))
  have hnone : st₃.todo = ∅ := by
    by_contra hne
    obtain ⟨x, hx⟩ := Finset.nonempty_of_ne_empty hne
    refine hcyc x (hsub₃ hx) (OnCycle.of_child_closed (B := st₃.todo) (fun z hz => ?_) x hx)
    have hzS : z ∈ S := ((hstuck₃ z hz).resolve_left (Finset.notMem_empty z)).1
    obtain ⟨d, hd, hp⟩ := P.mem_src z hzS
    exact ⟨d, hR₃.kids_pending hstuck₃ (fun t h => absurd h (Finset.notMem_empty t)) hz hzS hd hp, hp⟩
  obtain ⟨σ', hex, hinv⟩ := hR₃.inv
  refine ⟨st₃.code, ?_, σ', hex, fun c hc => ?_⟩
  · unfold dessaParallelCopy
    split
    · rename_i c
      exact absurd rfl (hlen c)
    · simp only [← he]
      rw [hrun₁, Option.bind_eq_bind, Option.bind_some, hrun₂, Option.bind_some, hrun₃, Option.bind_some]
  · have hd : c.dst ∈ D := mem_dstsOf.mpr ⟨c, hc, rfl⟩
    have h := hinv.done c.dst hd (by simp [hnone])
    have ht : e.types c.dst = c.type := W.types_eq hc
    have hp : e.pred c.dst = c.src := W.pred_eq hc
    rwa [ht, hp] at h

end

/-! ### Two inputs -/

/-- Copies of integers, with a general temporary register. -/
theorem wf_of_int {ctx : Ctx} {copies : List Copy} {memSlotsCount t : ℕ} (ht : isGpReg t = true)
    (hnd : (copies.map Copy.dst).Nodup)
    (hc : ∀ c ∈ copies, c.type.isInt = true ∧ c.src ≠ c.dst ∧ c.src ≠ t ∧
      c.dst < regNum + memSlotsCount ∧ c.src < regNum + memSlotsCount ∧
      (c.dst < regNum → isGpReg c.dst = true) ∧
      (0 ≤ c.src → c.src.toNat < regNum → isGpReg c.src.toNat = true)) :
    Wf ctx copies memSlotsCount (some t) none where
  nodup := hnd
  src_ne := fun c h => (hc c h).2.1
  dst_lt := fun c h => (hc c h).2.2.2.1
  src_lt := fun c h => (hc c h).2.2.2.2.1
  dst_class := fun c h hl => by
    rw [(hc c h).1, if_pos rfl]
    exact (hc c h).2.2.2.2.2.1 hl
  src_class := fun c h h0 hl => by
    rw [(hc c h).1, if_pos rfl]
    exact (hc c h).2.2.2.2.2.2 h0 hl
  local_int := fun c h _ => (hc c h).1
  tmp_some := fun c h => by simp [tmpFor, (hc c h).1]
  tmp_class := by
    rintro r ⟨⟩
    exact ht
  tmpFp_class := by
    rintro r ⟨⟩
  tmp_not_src := by
    rintro r (⟨⟨⟩⟩ | ⟨⟨⟩⟩) c h
    exact (hc c h).2.2.1

/-- A context with the constant `5`. -/
def ctxFive : Ctx := ⟨2, fun _ => 5, fun _ => false, fun _ => 0⟩

/-- A cycle that ends in the temporary register 8, a register stored, a constant stored. -/
def swapAndStore : List Copy :=
  [⟨.u64, 0, 1⟩, ⟨.u64, 1, 0⟩, ⟨.u64, 8, 1⟩, ⟨.u32, 32, 2⟩, ⟨.u64, 33, -1⟩]

/-- A cycle of three registers, one copy of eight bytes and two of one. -/
def mixedCycle : List Copy := [⟨.u64, 1, 0⟩, ⟨.u8, 2, 1⟩, ⟨.u8, 0, 2⟩]

end IrJit.Dessa
