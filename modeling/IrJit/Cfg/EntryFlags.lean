import IrJit.Cfg.LoopsSpec

/-!
# Cfg.EntryFlags — `IR_BB_LOOP_WITH_ENTRY`

The flag of a block goes to the header of its loop and, when the loops around that are known, to the next
header; it goes no further, since the loop over the enclosing headers starts from the same header again.
`Acts` are the blocks that pass it on: an `ENTRY`, or a header that has got the flag before its turn.

On reducible graphs a header comes before the blocks of its loop, so only an `ENTRY` passes the flag on, and
the flags are right exactly when every loop with an `ENTRY` has one that is in at most one of its inner
loops (`withEntry_iff`).
-/

namespace IrJit.Cfg

open DepthFirst Dominance DomTable NaturalLoops

/-- `x` is the header `h` or a block of its loop, at any level below it. -/
def Loops.Inside (s : Loops) (h x : ℕ) : Prop :=
  Relation.ReflTransGen (fun a b => s.loopHeader a = b ∧ b ≠ 0) x h

/-- A header carries the flag if and only if some block of its loop is an `ENTRY`. -/
def Loops.EntryFlags (s : Loops) (c : Graph) : Prop :=
  ∀ h, s.isHeader h = true →
    (s.withEntry h = true ↔ ∃ e, c.Block e ∧ c.isEntry e = true ∧ s.Inside h e)

/-- The flag of `z` goes to `h`, when the blocks are taken in the order of `l`. -/
def Loops.Passes (s : Loops) (l : List ℕ) (z h : ℕ) : Prop :=
  s.loopHeader z ≠ 0 ∧ (s.loopHeader z = h ∨
    (s.isHeader z = true ∨ Before l (s.loopHeader z) z) ∧ s.loopHeader (s.loopHeader z) = h)

/-- The blocks that pass the flag on. -/
inductive Acts (c : Graph) (s : Loops) (l : List ℕ) : ℕ → Prop
  | entry {y : ℕ} : y ∈ l → c.isEntry y = true → Acts c s l y
  | flagged {z y : ℕ} : Acts c s l z → s.Passes l z y → Before l z y → Acts c s l y

/-! ## What is known when the last loop starts -/

/-- Headers are headers of depth 1, and there are no flags. -/
structure Shaped (s : Loops) : Prop where
  depth : ∀ x, s.loopDepth x = if s.isHeader x then 1 else 0
  clear : ∀ x, s.withEntry x = false
  header : ∀ x, s.loopHeader x ≠ 0 → s.isHeader (s.loopHeader x) = true
  pos : ∀ h, s.isHeader h = true → h ≠ 0

section Shape

variable {c : Graph} {t : DomTree} {k : Clock} {fuel f b hdr : ℕ} {l : List ℕ} {s s' : Loops}

theorem shaped_empty : Shaped Loops.empty :=
  ⟨fun _ => rfl, fun _ => rfl, fun _ h => absurd rfl h, fun _ h => absurd h Bool.false_ne_true⟩

/-- A new header, and blocks that get it as theirs. -/
theorem Shaped.mark {H : ℕ → ℕ} {irr : ℕ → Bool} {has : Bool} (h : Shaped s) (hb : b ≠ 0)
    (hH : ∀ x, H x = s.loopHeader x ∨ H x = b) :
    Shaped { (s.mark b) with loopHeader := H, irreducible := irr, hasLoops := has } := by
  refine ⟨fun x => ?_, h.clear, fun x hx => ?_, fun x hx => ?_⟩
  · show Function.update s.loopDepth b 1 x = if Function.update s.isHeader b true x then 1 else 0
    by_cases hxb : x = b
    · rw [hxb, Function.update_self, Function.update_self, if_pos rfl]
    · rw [Function.update_of_ne hxb, Function.update_of_ne hxb, h.depth]
  · show Function.update s.isHeader b true (H x) = true
    rcases hH x with heq | heq
    · by_cases hxb : H x = b
      · rw [hxb, Function.update_self]
      · rw [Function.update_of_ne hxb, heq]
        exact h.header x (heq ▸ hx)
    · rw [heq, Function.update_self]
  · by_cases hxb : x = b
    · exact hxb ▸ hb
    · have hx' : Function.update s.isHeader b true x = true := hx
      rw [Function.update_of_ne hxb] at hx'
      exact h.pos x hx'

/-- Members get the header that is collected for. -/
theorem collect_table {header T : ℕ → ℕ} {w : Work} (hT : collect fuel c hdr f header w = some T) (x : ℕ) :
    T x = header x ∨ T x = hdr := by
  induction f generalizing header w with
  | zero => cases hT
  | succ f ih =>
    obtain ⟨list, visited⟩ := w
    cases list with
    | nil =>
      obtain rfl := Option.some.inj hT
      exact Or.inl rfl
    | cons b list =>
      rw [collect] at hT
      by_cases hb : b = hdr
      · rw [if_pos hb] at hT
        exact ih hT
      · rw [if_neg hb, Option.bind_eq_some_iff] at hT
        obtain ⟨w', -, hT⟩ := hT
        rcases ih hT with h | h
        · rw [h]
          by_cases h0 : header b = 0
          · rw [if_pos h0]
            by_cases hxb : x = b
            · exact Or.inr (by rw [hxb, Function.update_self])
            · exact Or.inl (Function.update_of_ne hxb _ _)
          · rw [if_neg h0]
            exact Or.inl rfl
        · exact Or.inr h

/-- What the walk for an irreducible loop leaves alone. -/
structure Collected (hdr : ℕ) (s s' : Loops) : Prop where
  loopHeader : ∀ x, s'.loopHeader x = s.loopHeader x ∨ s'.loopHeader x = hdr
  loopDepth : s'.loopDepth = s.loopDepth
  isHeader : s'.isHeader = s.isHeader
  withEntry : s'.withEntry = s.withEntry
  hasLoops : s'.hasLoops = s.hasLoops

theorem collectIrreducible_collected {w : Work} (hs : collectIrreducible fuel c k hdr f s w = some s') :
    Collected hdr s s' := by
  induction f generalizing s w with
  | zero => cases hs
  | succ f ih =>
    obtain ⟨list, visited⟩ := w
    cases list with
    | nil =>
      obtain rfl := Option.some.inj hs
      exact ⟨fun _ => Or.inl rfl, rfl, rfl, rfl, rfl⟩
    | cons b list =>
      rw [collectIrreducible, Option.bind_eq_some_iff] at hs
      obtain ⟨r, -, hs⟩ := hs
      have hrec := ih hs
      have hmember : Collected hdr s
          (if s.loopHeader b = 0 then { s with loopHeader := Function.update s.loopHeader b hdr } else s) := by
        by_cases h0 : s.loopHeader b = 0
        · rw [if_pos h0]
          refine ⟨fun x => ?_, rfl, rfl, rfl, rfl⟩
          by_cases hxb : x = b
          · exact Or.inr (by rw [hxb]; exact Function.update_self ..)
          · exact Or.inl (Function.update_of_ne hxb _ _)
        · rw [if_neg h0]
          exact ⟨fun _ => Or.inl rfl, rfl, rfl, rfl, rfl⟩
      have hflag : ∀ (r : Bool) (s₁ s₂ : Loops), Collected hdr
          (if r then { s₁ with irreducible := Function.update s₁.irreducible b true } else s₁) s₂ →
          Collected hdr s₁ s₂ := by
        intro r s₁ s₂ h
        cases r with
        | true => exact ⟨h.loopHeader, h.loopDepth, h.isHeader, h.withEntry, h.hasLoops⟩
        | false => exact h
      have hrest := hflag _ _ _ hrec
      refine ⟨fun x => ?_, hrest.loopDepth.trans hmember.loopDepth, hrest.isHeader.trans hmember.isHeader,
        hrest.withEntry.trans hmember.withEntry, hrest.hasLoops.trans hmember.hasLoops⟩
      rcases hrest.loopHeader x with h | h
      · rw [h]
        exact hmember.loopHeader x
      · exact Or.inr h

theorem collectIrreducibleLoops_shaped (hl : ∀ x ∈ l, x ≠ 0) (h : Shaped s)
    (hs : collectIrreducibleLoops fuel c k l s = some s') : Shaped s' ∧ s'.hasLoops = s.hasLoops := by
  induction l generalizing s with
  | nil =>
    obtain rfl := Option.some.inj hs
    exact ⟨h, rfl⟩
  | cons hdr l ih =>
    have hl' : ∀ x ∈ l, x ≠ 0 := fun x hx => hl x (List.mem_cons_of_mem hdr hx)
    rw [collectIrreducibleLoops] at hs
    by_cases h0 : s.loopDepth hdr = 0
    · rw [if_pos h0] at hs
      dsimp only at hs
      rw [Option.bind_eq_some_iff] at hs
      obtain ⟨s₁, hs₁, hs⟩ := hs
      have hc := collectIrreducible_collected hs₁
      have heq : s₁ = { (s.mark hdr) with
          loopHeader := s₁.loopHeader, irreducible := s₁.irreducible, hasLoops := s₁.hasLoops } := by
        obtain ⟨H, D, I, irr, W, has⟩ := s₁
        obtain ⟨-, rfl, rfl, rfl, -⟩ := hc
        rfl
      have hshape : Shaped s₁ := heq ▸ h.mark (hl hdr List.mem_cons_self) hc.loopHeader
      obtain ⟨hs', hhas⟩ := ih hl' hshape hs
      exact ⟨hs', hhas.trans hc.hasLoops⟩
    · rw [if_neg h0] at hs
      exact ih hl' h hs

theorem mem_insertByTime {x : ℕ} (l : List ℕ) : x ∈ insertByTime k b l ↔ x = b ∨ x ∈ l := by
  induction l with
  | nil => exact List.mem_cons
  | cons a l ih =>
    rw [insertByTime]
    split_ifs
    · rw [List.mem_cons, ih, List.mem_cons]
      tauto
    · exact List.mem_cons

theorem mem_sorted {x : ℕ} (l : List ℕ) : x ∈ l.foldr (insertByTime k) [] ↔ x ∈ l := by
  induction l with
  | nil => exact Iff.rfl
  | cons a l ih => rw [List.foldr_cons, mem_insertByTime, ih, List.mem_cons]

/-- What the walk over the blocks keeps on any graph. -/
structure Walked (d : Discovery) : Prop where
  shaped : Shaped d.loops
  delayed : ∀ x ∈ d.delayed, x ≠ 0
  hasLoops : (∃ h, d.loops.isHeader h = true) ∨ d.delayed ≠ [] → d.loops.hasLoops = true

theorem settle_walked {d d' : Discovery} (h : Walked d) (hd : settle fuel c t k b d = some d') : Walked d' := by
  unfold settle at hd
  by_cases hlt : t.domDepth b < d.depth
  · rw [if_pos hlt, Option.map_eq_some_iff] at hd
    obtain ⟨loops, hloops, rfl⟩ := hd
    have hshape := collectIrreducibleLoops_shaped (fun x hx => h.delayed x ((mem_sorted _).1 hx)) h.shaped hloops
    refine ⟨hshape.1, fun x hx => absurd hx List.not_mem_nil, fun hex => ?_⟩
    have hhead : ∃ g, loops.isHeader g = true := hex.resolve_right fun hne => hne rfl
    rw [hshape.2]
    by_cases hnil : d.delayed = []
    · rw [hnil] at hloops
      obtain rfl := Option.some.inj hloops
      exact h.hasLoops (Or.inl hhead)
    · exact h.hasLoops (Or.inr hnil)
  · rw [if_neg hlt] at hd
    obtain rfl := Option.some.inj hd
    exact h

theorem discoverBlock_walked {d d' : Discovery} (hb : b ≠ 0) (h : Walked d)
    (hd : discoverBlock fuel c t k b d = some d') : Walked d' := by
  rw [discoverBlock, Option.bind_eq_some_iff] at hd
  obtain ⟨d₁, hd₁, hd⟩ := hd
  have h₁ := settle_walked h hd₁
  by_cases hlen : (c.predecessors b).length > 1
  · rw [if_pos hlen, Option.bind_eq_some_iff] at hd
    obtain ⟨e, -, hd⟩ := hd
    cases e with
    | irreducible =>
      obtain rfl := Option.some.inj hd
      refine ⟨⟨h₁.shaped.depth, h₁.shaped.clear, h₁.shaped.header, h₁.shaped.pos⟩, fun x hx => ?_,
        fun _ => rfl⟩
      rcases List.mem_append.1 hx with hx | hx
      · exact h₁.delayed x hx
      · exact List.mem_singleton.1 hx ▸ hb
    | loop w =>
      dsimp only at hd
      by_cases hnil : w.list = []
      · rw [if_pos hnil] at hd
        obtain rfl := Option.some.inj hd
        exact h₁
      · rw [if_neg hnil, Option.map_eq_some_iff] at hd
        obtain ⟨T, hT, rfl⟩ := hd
        exact ⟨h₁.shaped.mark hb (collect_table hT), h₁.delayed, fun _ => rfl⟩
  · rw [if_neg hlen] at hd
    obtain rfl := Option.some.inj hd
    exact h₁

theorem discover_walked {d d' : Discovery} (hl : ∀ x ∈ l, x ≠ 0) (h : Walked d)
    (hd : discover fuel c t k l d = some d') : Walked d' := by
  induction l generalizing d' with
  | nil =>
    obtain rfl := Option.some.inj hd
    exact h
  | cons b l ih =>
    rw [discover, Option.bind_eq_some_iff] at hd
    obtain ⟨d₁, hd₁, hd⟩ := hd
    exact discoverBlock_walked (hl b List.mem_cons_self)
      (ih (fun x hx => hl x (List.mem_cons_of_mem b hx)) hd₁) hd

theorem walked_start : Walked ⟨Loops.empty, 0, []⟩ where
  shaped := shaped_empty
  delayed x hx := absurd hx List.not_mem_nil
  hasLoops h := by
    rcases h with ⟨g, hg⟩ | h
    · exact absurd hg Bool.false_ne_true
    · exact absurd rfl h

end Shape

/-! ## The last loop -/

section Flags

variable {c : Graph} {s₀ s : Loops} {sorted P l : List ℕ} {a b y z h : ℕ}

theorem mem_of_before (hab : Before l a b) : a ∈ l ∧ b ∈ l :=
  ⟨hab.subset List.mem_cons_self, hab.subset (by simp)⟩

/-- The blocks before the one whose turn it is. -/
theorem before_iff (hnd : (P ++ b :: l).Nodup) : Before (P ++ b :: l) z b ↔ z ∈ P := by
  constructor
  · intro hz
    obtain ⟨hP, hbl, hdisj⟩ := List.nodup_append.1 hnd
    have hbP : b ∉ P := fun hb => hdisj b hb b List.mem_cons_self rfl
    obtain ⟨l₁, l₂, heq, h₁, h₂⟩ := List.sublist_append_iff.1 hz
    cases l₁ with
    | nil =>
      have h₂' : [z, b].Sublist (b :: l) := by
        rw [List.nil_append] at heq
        exact heq ▸ h₂
      have hb : b ∈ l := by
        rcases List.sublist_cons_iff.1 h₂' with hsub | ⟨r, hr, hsub⟩
        · exact hsub.subset (by simp)
        · rw [List.cons.injEq] at hr
          exact hsub.subset (by rw [← hr.2]; exact List.mem_singleton_self b)
      exact absurd hb (List.nodup_cons.1 hbl).1
    | cons x l₁ =>
      rw [List.cons_append, List.cons.injEq] at heq
      exact h₁.subset (by rw [heq.1]; exact List.mem_cons_self)
  · intro hz
    exact before_append hz List.mem_cons_self

theorem Acts.mem (hz : Acts c s l z) : z ∈ l := by
  cases hz with
  | entry hmem _ => exact hmem
  | flagged _ _ hbefore => exact (mem_of_before hbefore).2

/-- What the last loop keeps: the blocks of `P` have passed their flags on. -/
structure FlagInv (c : Graph) (s₀ : Loops) (sorted P : List ℕ) (s : Loops) : Prop where
  loopHeader : s.loopHeader = s₀.loopHeader
  isHeader : s.isHeader = s₀.isHeader
  depth : ∀ x, s₀.isHeader x = true →
    1 ≤ s.loopDepth x ∧ (1 < s.loopDepth x ↔ x ∈ P ∧ s₀.loopHeader x ≠ 0)
  flags : ∀ h, h ≠ 0 → (s.withEntry h = true ↔ ∃ z ∈ P, Acts c s₀ sorted z ∧ s₀.Passes sorted z h)

theorem propagated_withEntry (s : Loops) (c : Graph) (b : ℕ) : (s.propagated c b).withEntry =
    if s.loopHeader b > 0 ∧ (c.isEntry b || s.withEntry b) = true then
      if s.loopDepth (s.loopHeader b) + (if s.isHeader b then 1 else 0) > 1 then
        Function.update (Function.update s.withEntry (s.loopHeader b) true)
          (s.loopHeader (s.loopHeader b)) true
      else Function.update s.withEntry (s.loopHeader b) true
    else s.withEntry := by
  unfold Loops.propagated
  by_cases hb : s.loopHeader b > 0
  · rw [if_pos hb]
    by_cases he : (c.isEntry b || s.withEntry b) = true
    · have hboth : s.loopHeader b > 0 ∧ (c.isEntry b || s.withEntry b) = true := ⟨hb, he⟩
      rw [if_pos hboth]
      exact if_pos he
    · have hnot : ¬(s.loopHeader b > 0 ∧ (c.isEntry b || s.withEntry b) = true) := fun h => he h.2
      rw [if_neg hnot]
      exact if_neg he
  · have hnot : ¬(s.loopHeader b > 0 ∧ (c.isEntry b || s.withEntry b) = true) := fun h => hb h.1
    rw [if_neg hb, if_neg hnot]

theorem update_true_iff {f : ℕ → Bool} : Function.update f a true h = true ↔ f h = true ∨ a = h := by
  by_cases hah : h = a
  · rw [hah, Function.update_self]
    exact iff_of_true rfl (Or.inr rfl)
  · rw [Function.update_of_ne hah, or_iff_left fun heq => hah heq.symm]

theorem FlagInv.step (hshape : Shaped s₀) (hnd : (P ++ b :: l).Nodup) (hsorted : P ++ b :: l = sorted)
    (hb : b ≠ 0) (hi : FlagInv c s₀ sorted P s) : FlagInv c s₀ sorted (P ++ [b]) (s.propagated c b) := by
  have hbefore : ∀ z, Before sorted z b ↔ z ∈ P := fun z => hsorted ▸ before_iff hnd
  have hbP : b ∉ P := fun hmem => (List.nodup_append.1 hnd).2.2 b hmem b List.mem_cons_self rfl
  have hbs : b ∈ sorted := by
    rw [← hsorted]
    exact List.mem_append_right P List.mem_cons_self
  have hacts : (c.isEntry b || s.withEntry b) = true ↔ Acts c s₀ sorted b := by
    rw [Bool.or_eq_true, hi.flags b hb]
    constructor
    · rintro (he | ⟨z, hz, hact, hpass⟩)
      · exact Acts.entry hbs he
      · exact Acts.flagged hact hpass ((hbefore z).2 hz)
    · intro hact
      cases hact with
      | entry _ he => exact Or.inl he
      | flagged hact hpass hzb => exact Or.inr ⟨_, (hbefore _).1 hzb, hact, hpass⟩
  refine ⟨propagated_loopHeader.trans hi.loopHeader, propagated_isHeader.trans hi.isHeader, fun x hx => ?_,
    fun h hh => ?_⟩
  · rw [propagated_loopDepth, hi.loopHeader, hi.isHeader]
    obtain ⟨h1, hiff⟩ := hi.depth x hx
    by_cases hxb : x = b
    · subst hxb
      by_cases h0 : s₀.loopHeader x > 0
      · have := (hi.depth _ (hshape.header x (by omega))).1
        rw [if_pos h0, Function.update_self, if_pos hx]
        refine ⟨by omega, iff_of_true (by omega) ⟨by simp, by omega⟩⟩
      · rw [if_neg h0]
        refine ⟨h1, hiff.trans (iff_of_false (fun h => hbP h.1) fun h => h.2 (by omega))⟩
    · have hval : (if s₀.loopHeader b > 0 then Function.update s.loopDepth b
          (s.loopDepth (s₀.loopHeader b) + if s₀.isHeader b then 1 else 0) else s.loopDepth) x =
          s.loopDepth x := by
        by_cases h0 : s₀.loopHeader b > 0
        · rw [if_pos h0, Function.update_of_ne hxb]
        · rw [if_neg h0]
      rw [hval]
      refine ⟨h1, hiff.trans (and_congr_left fun _ => ?_)⟩
      rw [List.mem_append, List.mem_singleton, or_iff_left hxb]
  · have hnew : (∃ z ∈ P ++ [b], Acts c s₀ sorted z ∧ s₀.Passes sorted z h) ↔
        s.withEntry h = true ∨ Acts c s₀ sorted b ∧ s₀.Passes sorted b h := by
      rw [hi.flags h hh]
      constructor
      · rintro ⟨z, hz, hrest⟩
        rcases List.mem_append.1 hz with hz | hz
        · exact Or.inl ⟨z, hz, hrest⟩
        · exact Or.inr (List.mem_singleton.1 hz ▸ hrest)
      · rintro (⟨z, hz, hrest⟩ | hrest)
        · exact ⟨z, List.mem_append_left [b] hz, hrest⟩
        · exact ⟨b, by simp, hrest⟩
    rw [hnew, propagated_withEntry, hi.loopHeader, hi.isHeader]
    by_cases h0 : s₀.loopHeader b > 0
    · by_cases hact : Acts c s₀ sorted b
      · rw [if_pos ⟨h0, hacts.2 hact⟩]
        obtain ⟨h1, hiff⟩ := hi.depth _ (hshape.header b (by omega))
        have hdeep : s.loopDepth (s₀.loopHeader b) + (if s₀.isHeader b then 1 else 0) > 1 ↔
            s₀.isHeader b = true ∨ s₀.loopHeader b ∈ P ∧ s₀.loopHeader (s₀.loopHeader b) ≠ 0 := by
          rw [← hiff]
          cases hhead : s₀.isHeader b with
          | true => exact iff_of_true (by rw [if_pos rfl]; omega) (Or.inl rfl)
          | false => rw [if_neg Bool.false_ne_true, or_iff_right Bool.false_ne_true, Nat.add_zero, gt_iff_lt]
        have hpasses : s₀.Passes sorted b h ↔ s₀.loopHeader b = h ∨
            (s.loopDepth (s₀.loopHeader b) + (if s₀.isHeader b then 1 else 0) > 1 ∧
              s₀.loopHeader (s₀.loopHeader b) = h) := by
          unfold Loops.Passes
          rw [hbefore, hdeep, and_iff_right (show s₀.loopHeader b ≠ 0 by omega)]
          refine or_congr_right (and_congr_left fun heq => or_congr_right ?_)
          exact (and_iff_left (heq ▸ hh)).symm
        rw [hpasses, and_iff_right hact]
        by_cases hd : s.loopDepth (s₀.loopHeader b) + (if s₀.isHeader b then 1 else 0) > 1
        · rw [if_pos hd, update_true_iff, update_true_iff, and_iff_right hd, or_assoc]
        · rw [if_neg hd, update_true_iff, or_iff_left (b := _ ∧ _) fun h => hd h.1]
      · rw [if_neg fun h => hact (hacts.1 h.2), or_iff_left fun h => hact h.1]
    · rw [if_neg fun h => h0 h.1, or_iff_left fun h => h.2.1 (by omega)]

/-- The flags at the end. -/
theorem propagate_flags (hshape : Shaped s₀) (hnd : sorted.Nodup) (hpos : ∀ x ∈ sorted, x ≠ 0) :
    FlagInv c s₀ sorted sorted (sorted.foldl (fun s b => s.propagated c b) s₀) := by
  have hgen : ∀ (l P : List ℕ) (s : Loops), P ++ l = sorted → FlagInv c s₀ sorted P s →
      FlagInv c s₀ sorted sorted (l.foldl (fun s b => s.propagated c b) s) := by
    intro l
    induction l with
    | nil =>
      intro P s heq hi
      rw [List.append_nil] at heq
      exact heq ▸ hi
    | cons b l ih =>
      intro P s heq hi
      have hb : b ≠ 0 := hpos b (by rw [← heq]; simp)
      exact ih (P ++ [b]) _ (by rw [← heq]; simp) (hi.step hshape (heq ▸ hnd) heq hb)
  refine hgen sorted [] s₀ rfl ⟨rfl, rfl, fun x hx => ?_, fun h _ => ?_⟩
  · rw [hshape.depth, if_pos hx]
    exact ⟨le_rfl, iff_of_false (lt_irrefl 1) fun h => absurd h.1 List.not_mem_nil⟩
  · rw [hshape.clear]
    exact iff_of_false Bool.false_ne_true fun ⟨z, hz, _⟩ => absurd hz List.not_mem_nil

/-- What passes a flag on has an `ENTRY` in it. -/
theorem Acts.inside (hblock : ∀ x ∈ l, c.Block x) (hz : Acts c s l z) :
    ∃ e, c.Block e ∧ c.isEntry e = true ∧ s.Inside z e := by
  induction hz with
  | entry hmem he => exact ⟨_, hblock _ hmem, he, Relation.ReflTransGen.refl⟩
  | @flagged z y _ hpass hbefore ih =>
    obtain ⟨e, hb, he, hin⟩ := ih
    refine ⟨e, hb, he, ?_⟩
    obtain ⟨h0, heq | ⟨-, heq⟩⟩ := hpass
    · exact hin.tail ⟨heq, heq ▸ h0⟩
    · have hy := (hblock y (mem_of_before hbefore).2).1
      exact (hin.tail ⟨rfl, h0⟩).tail ⟨heq, by omega⟩

theorem Loops.Passes.inside (hz : s.Passes l z h) (hh : h ≠ 0) : s.Inside h z := by
  obtain ⟨h0, heq | ⟨-, heq⟩⟩ := hz
  · exact Relation.ReflTransGen.single ⟨heq, hh⟩
  · exact (Relation.ReflTransGen.single ⟨rfl, h0⟩).tail ⟨heq, hh⟩

/-- Every loop with an `ENTRY` has a block that passes its flag to the header. -/
def Loops.Served (s : Loops) (c : Graph) (l : List ℕ) : Prop :=
  ∀ h, s.isHeader h = true → (∃ e, c.Block e ∧ c.isEntry e = true ∧ s.Inside h e) →
    ∃ z, Acts c s l z ∧ s.Passes l z h

theorem entryFlags_iff (hshape : Shaped s₀) (hnd : sorted.Nodup) (hmem : ∀ x ∈ sorted, c.Block x) :
    (sorted.foldl (fun s b => s.propagated c b) s₀).EntryFlags c ↔ s₀.Served c sorted := by
  have hpos : ∀ x ∈ sorted, x ≠ 0 := fun x hx => by
    have := (hmem x hx).1
    omega
  have hi := propagate_flags (c := c) hshape hnd hpos
  have hflag : ∀ h, s₀.isHeader h = true →
      ((sorted.foldl (fun s b => s.propagated c b) s₀).withEntry h = true ↔
        ∃ z, Acts c s₀ sorted z ∧ s₀.Passes sorted z h) := by
    intro h hh
    rw [hi.flags h (hshape.pos h hh)]
    constructor
    · rintro ⟨z, -, hz⟩
      exact ⟨z, hz⟩
    · rintro ⟨z, hact, hpass⟩
      exact ⟨z, hact.mem, hact, hpass⟩
  have hsound : ∀ h, s₀.isHeader h = true → (∃ z, Acts c s₀ sorted z ∧ s₀.Passes sorted z h) →
      ∃ e, c.Block e ∧ c.isEntry e = true ∧ s₀.Inside h e := by
    rintro h hh ⟨z, hact, hpass⟩
    obtain ⟨e, hb, he, hin⟩ := hact.inside hmem
    exact ⟨e, hb, he, hin.trans (hpass.inside (hshape.pos h hh))⟩
  unfold Loops.EntryFlags Loops.Served Loops.Inside
  rw [hi.isHeader, hi.loopHeader]
  refine forall₂_congr fun h hh => ?_
  rw [hflag h hh]
  exact ⟨fun hiff => hiff.2, fun hserved => ⟨hsound h hh, hserved⟩⟩

end Flags

/-! ## Reducible graphs -/

section Reducible

variable {c : Graph} {t : DomTree} {s s₀ : Loops} {sorted l : List ℕ} {a b h x z : ℕ}

theorem before_total (ha : a ∈ l) (hb : b ∈ l) (hne : a ≠ b) : Before l a b ∨ Before l b a := by
  obtain ⟨P, Q, rfl⟩ := List.append_of_mem ha
  rcases List.mem_append.1 hb with hb | hb
  · exact Or.inr (before_append hb List.mem_cons_self)
  · left
    have hbQ := (List.mem_cons.1 hb).resolve_left (Ne.symm hne)
    rw [List.append_cons]
    exact before_append (by simp) hbQ

/-- The order of the blocks goes down the tree. -/
theorem before_of_depth_lt (hpair : l.Pairwise fun x y => t.domDepth x ≤ t.domDepth y) (ha : a ∈ l) (hb : b ∈ l)
    (hlt : t.domDepth a < t.domDepth b) : Before l a b := by
  have hne : a ≠ b := fun heq => by
    rw [heq] at hlt
    omega
  refine (before_total ha hb hne).resolve_right fun hba => ?_
  have hle := List.rel_of_pairwise_cons (hpair.sublist hba) (List.mem_singleton_self a)
  omega

/-- Some `ENTRY` of every loop with an `ENTRY` is in at most one of the loops inside it. -/
def Graph.EntriesNear (c : Graph) : Prop :=
  ∀ h e, c.isEntry e = true → c.InLoop h e → ∃ e', c.isEntry e' = true ∧ c.InLoop h e' ∧
    ∀ g g', c.InLoop h g → c.InLoop g e' → g ≠ h → c.InLoop h g' → c.InLoop g' e' → g' ≠ h → g = g'

variable (hr : c.Reachable) (ht : t.Correct c)
  (hinner : ∀ x, Innermost c (fun _ => True) x (s.loopHeader x))

include hinner

theorem header_spec (hx : s.loopHeader x ≠ 0) :
    c.InLoop (s.loopHeader x) x ∧ s.loopHeader x ≠ x ∧
      ∀ g, c.InLoop g x → g ≠ x → c.InLoop g (s.loopHeader x) := by
  rcases hinner x with ⟨-, ⟨-, hin, hne⟩, hall⟩ | ⟨hzero, -⟩
  · exact ⟨hin, hne, fun g => hall g trivial⟩
  · exact absurd hzero hx

theorem header_ne_zero (hx : c.InLoop h x) (hne : h ≠ x) : s.loopHeader x ≠ 0 := by
  rcases hinner x with ⟨hx', -, -⟩ | ⟨-, hall⟩
  · exact hx'
  · exact absurd (hall h trivial hx) hne

include hr ht

/-- Following `loop_header` from a block meets the headers of the loops around it. -/
theorem inside_iff (hh : c.IsHead h) : s.Inside h x ↔ c.InLoop h x := by
  constructor
  · intro hin
    induction hin using Relation.ReflTransGen.head_induction_on with
    | refl => exact hh.inLoop
    | @head a b hstep _ ih =>
      obtain ⟨rfl, h0⟩ := hstep
      exact ih.trans hr (header_spec hinner h0).1
  · intro hin
    induction hm : t.domDepth x using Nat.strong_induction_on generalizing x with
    | _ m ih =>
      by_cases hx : h = x
      · rw [hx]
        exact Relation.ReflTransGen.refl
      · have h0 := header_ne_zero hinner hin hx
        obtain ⟨hv, hvx, hall⟩ := header_spec hinner h0
        have hlt := depth_lt_of_dom ht hr hv.block hv.dom hvx
        exact (ih _ (hm ▸ hlt) (hall h hin hx) rfl).head ⟨rfl, h0⟩

variable (hhead : ∀ h, s.isHeader h = true ↔ c.IsHead h) (hmem : ∀ x, x ∈ l ↔ c.Block x)
  (hpair : l.Pairwise fun x y => t.domDepth x ≤ t.domDepth y)

include hmem hpair

/-- The flag goes up by one or two headers. -/
theorem passes_iff : s.Passes l z h ↔
    s.loopHeader z ≠ 0 ∧ (s.loopHeader z = h ∨ s.loopHeader (s.loopHeader z) = h) := by
  refine and_congr_right fun h0 => or_congr_right ?_
  obtain ⟨hv, hne, -⟩ := header_spec hinner h0
  have hbefore : Before l (s.loopHeader z) z :=
    before_of_depth_lt hpair ((hmem _).2 hv.header_block) ((hmem z).2 hv.block)
      (depth_lt_of_dom ht hr hv.block hv.dom hne)
  exact and_iff_right (Or.inr hbefore)

/-- Headers come before their blocks, so that only an `ENTRY` passes a flag on. -/
theorem acts_iff : Acts c s l z ↔ z ∈ l ∧ c.isEntry z = true := by
  constructor
  · intro hz
    cases hz with
    | entry hz he => exact ⟨hz, he⟩
    | @flagged y _ _ hpass hbefore =>
      exfalso
      have hle := List.rel_of_pairwise_cons (hpair.sublist hbefore) (List.mem_singleton_self z)
      have hzb := (hmem z).1 (mem_of_before hbefore).2
      obtain ⟨h0, hup⟩ := (passes_iff hr ht hinner hmem hpair).1 hpass
      obtain ⟨hv, hne, -⟩ := header_spec hinner h0
      have hlt := depth_lt_of_dom ht hr hv.block hv.dom hne
      rcases hup with heq | heq
      · rw [heq] at hlt
        omega
      · have h0' : s.loopHeader (s.loopHeader y) ≠ 0 := by
          have := hzb.1
          omega
        obtain ⟨hv', hne', -⟩ := header_spec hinner h0'
        have hlt' := depth_lt_of_dom ht hr hv'.block hv'.dom hne'
        rw [heq] at hlt'
        omega
  · rintro ⟨hz, he⟩
    exact Acts.entry hz he

include hhead

/-- The condition on the loops of the graph. -/
theorem served_iff (hstart : c.predecessors 1 = []) : s.Served c l ↔ c.EntriesNear := by
  have hentry : ∀ e g, c.isEntry e = true → c.InLoop g e → g ≠ e := by
    intro e g he hg heq
    have hlen := two_predecessors hr hstart (heq ▸ hg.isHead)
    have hone := c.entry_pred e he
    omega
  constructor
  · intro hserved h e he hin
    have hhd := hin.isHead
    have hh0 : h ≠ 0 := by
      have := hin.header_block.1
      omega
    obtain ⟨z, hact, hpass⟩ := hserved h ((hhead h).2 hhd)
      ⟨e, hin.block, he, (inside_iff hr ht hinner hhd).2 hin⟩
    obtain ⟨-, hez⟩ := (acts_iff hr ht hinner hmem hpair).1 hact
    obtain ⟨h0, hup⟩ := (passes_iff hr ht hinner hmem hpair).1 hpass
    obtain ⟨hv, hvz, hall⟩ := header_spec hinner h0
    have hvh : s.loopHeader z = h ∨ (c.InLoop h (s.loopHeader z) ∧ s.loopHeader z ≠ h ∧
        ∀ g, c.InLoop g (s.loopHeader z) → g ≠ s.loopHeader z → c.InLoop g h) := by
      rcases hup with heq | heq
      · exact Or.inl heq
      · obtain ⟨hv', hne', hall'⟩ := header_spec hinner (show s.loopHeader (s.loopHeader z) ≠ 0 by omega)
        rw [heq] at hv' hne' hall'
        exact Or.inr ⟨hv', hne'.symm, hall'⟩
    -- a loop of `z` strictly inside that of `h` is the innermost one
    have honly : ∀ g, c.InLoop h g → c.InLoop g z → g ≠ h → g = s.loopHeader z := by
      intro g hhg hgz hgh
      have hgv := hall g hgz (hentry z g hez hgz)
      by_contra hne
      rcases hvh with heq | ⟨-, -, hall'⟩
      · rw [heq] at hgv
        exact hgh (hgv.antisymm hr hhg)
      · exact hgh ((hall' g hgv hne).antisymm hr hhg)
    refine ⟨z, hez, ?_, fun g g' hhg hgz hgh hhg' hgz' hgh' =>
      (honly g hhg hgz hgh).trans (honly g' hhg' hgz' hgh').symm⟩
    rcases hvh with heq | ⟨hin', -⟩
    · exact heq ▸ hv
    · exact hin'.trans hr hv
  · intro hnear h hh hex
    obtain ⟨e, hb, he, hin⟩ := hex
    have hhd := (hhead h).1 hh
    obtain ⟨z, hez, hhz, honly⟩ := hnear h e he ((inside_iff hr ht hinner hhd).1 hin)
    have hh0 : h ≠ 0 := by
      have := hhz.header_block.1
      omega
    have h0 := header_ne_zero hinner hhz (hentry z h hez hhz)
    obtain ⟨hv, hvz, hall⟩ := header_spec hinner h0
    have hhv := hall h hhz (hentry z h hez hhz)
    refine ⟨z, (acts_iff hr ht hinner hmem hpair).2 ⟨(hmem z).2 hhz.block, hez⟩,
      (passes_iff hr ht hinner hmem hpair).2 ⟨h0, ?_⟩⟩
    by_contra hno
    rw [not_or] at hno
    have h0' := header_ne_zero hinner hhv (Ne.symm hno.1)
    obtain ⟨hv', hne', hall'⟩ := header_spec hinner h0'
    have heq := honly _ _ hhv hv hno.1 (hall' h hhv (Ne.symm hno.1)) (hv'.trans hr hv) hno.2
    exact hne' heq.symm

end Reducible

/-! ## `ir_find_loops` -/

section Find

variable {c : Graph} {t : DomTree} {fuel : ℕ} {s s₀ : Loops} {sorted : List ℕ}

/-- The loops and the order of the blocks before the last loop of `ir_find_loops`. -/
def discovered (fuel : ℕ) (c : Graph) (t : DomTree) : Option (Loops × List ℕ) :=
  if t.noLoops then some (Loops.empty, [])
  else do
    let k ← times fuel c
    let sorted ← sortBlocks fuel t fuel [1]
    let d ← discover fuel c t k sorted ⟨Loops.empty, 0, []⟩
    some (d.loops, sorted)

/-- The last loop of `ir_find_loops` runs from there. -/
theorem findLoops_eq (hf : 2 ≤ fuel) : findLoops fuel c t = (discovered fuel c t).map fun d =>
    if d.1.hasLoops then d.2.foldl (fun s b => s.propagated c b) d.1 else d.1 := by
  unfold findLoops discovered
  by_cases hno : t.noLoops = true
  · rw [if_pos hno, if_pos hno]
    rfl
  · rw [if_neg hno, if_neg hno]
    cases times fuel c with
    | none => rfl
    | some k =>
      cases sortBlocks fuel t fuel [1] with
      | none => rfl
      | some sorted =>
        simp only [Option.bind_eq_bind, Option.bind_some]
        cases discover fuel c t k sorted ⟨Loops.empty, 0, []⟩ with
        | none => rfl
        | some d =>
          simp only [Option.bind_some, Option.map_some, propagate_eq hf]
          split_ifs <;> rfl

/-- A state without headers has all its flags right. -/
theorem entryFlags_of_no_header (hno : ∀ h, s.isHeader h ≠ true) (l : List ℕ) :
    s.EntryFlags c ↔ s.Served c l :=
  iff_of_true (fun h hh => absurd hh (hno h)) fun h hh => absurd hh (hno h)

/-- The state before the last loop, on any graph. -/
theorem discovered_spec (hr : c.Reachable) (hf : c.steps < fuel) (hbuilt : t.Built c)
    (hd : discovered fuel c t = some (s₀, sorted)) :
    Shaped s₀ ∧ ((∃ h, s₀.isHeader h = true) → s₀.hasLoops = true) ∧ sorted.Nodup ∧
      ∀ x ∈ sorted, c.Block x := by
  have hfn : c.blocksCount < fuel := by
    unfold Graph.steps at hf
    omega
  unfold discovered at hd
  by_cases hno : t.noLoops = true
  · rw [if_pos hno, Option.some.injEq, Prod.mk.injEq] at hd
    obtain ⟨rfl, rfl⟩ := hd
    exact ⟨shaped_empty, fun ⟨h, hh⟩ => absurd hh Bool.false_ne_true, List.nodup_nil,
      fun x hx => absurd hx List.not_mem_nil⟩
  · have h2 := hbuilt.two_le (Bool.eq_false_iff.2 hno)
    obtain ⟨l, hl, hnd, hmem, -⟩ := sortBlocks_spec hbuilt.toCorrect hr (by omega) hfn
    rw [if_neg hno, hl] at hd
    simp only [Option.bind_eq_bind, Option.bind_some, Option.bind_eq_some_iff, Option.some.injEq,
      Prod.mk.injEq] at hd
    obtain ⟨k, -, d, hd, rfl, rfl⟩ := hd
    have hpos : ∀ x ∈ l, x ≠ 0 := fun x hx => by
      have := ((hmem x).1 hx).1
      omega
    have hwalked := discover_walked hpos walked_start hd
    exact ⟨hwalked.shaped, fun hex => hwalked.hasLoops (Or.inl hex), hnd, fun x hx => (hmem x).1 hx⟩

/-- On a reducible graph the walk over the blocks ends. -/
theorem discovered_reducible (hr : c.Reachable) (hstart : c.predecessors 1 = []) (hf : c.steps < fuel)
    (hbuilt : t.Built c) (hno : t.noLoops = false) (hred : c.Reducible fuel) :
    ∃ s₀ sorted, discovered fuel c t = some (s₀, sorted) ∧ (∀ x, x ∈ sorted ↔ c.Block x) ∧
      (sorted.Pairwise fun x y => t.domDepth x ≤ t.domDepth y) ∧ Found c sorted s₀ := by
  obtain ⟨k, l, s, hk, hsort, hdisc, ⟨-, hmem, hpair⟩, hfound⟩ :=
    discover_all hr hstart hf hbuilt hno hred
  refine ⟨s, l, ?_, hmem, hpair, hfound⟩
  unfold discovered
  rw [hno, if_neg Bool.false_ne_true, hk, hsort]
  simp only [Option.bind_eq_bind, Option.bind_some, hdisc]

theorem two_le_fuel (hf : c.steps < fuel) : 2 ≤ fuel := by
  have hsteps : 4 * c.blocksCount + 2 ≤ c.steps := by
    unfold Graph.steps
    omega
  omega

/-- The flags, said with what is known before the last loop. -/
theorem entryFlags_discovered (hr : c.Reachable) (hf : c.steps < fuel) (hbuilt : t.Built c)
    (hs : findLoops fuel c t = some s) : ∃ s₀ sorted, discovered fuel c t = some (s₀, sorted) ∧
      s.isHeader = s₀.isHeader ∧ s.loopHeader = s₀.loopHeader ∧ (s.EntryFlags c ↔ s₀.Served c sorted) := by
  rw [findLoops_eq (two_le_fuel hf), Option.map_eq_some_iff] at hs
  obtain ⟨⟨s₀, sorted⟩, hd, hval⟩ := hs
  obtain ⟨hshape, hloops, hnd, hblock⟩ := discovered_spec hr hf hbuilt hd
  refine ⟨s₀, sorted, hd, ?_⟩
  by_cases hhas : s₀.hasLoops = true
  · have heq : sorted.foldl (fun s b => s.propagated c b) s₀ = s := by
      rw [← hval]
      exact (if_pos hhas).symm
    obtain ⟨hh, hi⟩ := foldl_fields (c := c) sorted s₀
    rw [← heq]
    exact ⟨hi, hh, entryFlags_iff hshape hnd hblock⟩
  · have heq : s₀ = s := by
      rw [← hval]
      exact (if_neg hhas).symm
    rw [← heq]
    exact ⟨rfl, rfl, entryFlags_of_no_header (fun h hh => hhas (hloops ⟨h, hh⟩)) sorted⟩

/-- On reducible graphs the flags are about natural loops. -/
theorem entryFlags_reducible (hr : c.Reachable) (hstart : c.predecessors 1 = []) (hf : c.steps < fuel)
    (hbuilt : t.Built c) (hs : findLoops fuel c t = some s) (hred : c.Reducible fuel) :
    (s.EntryFlags c ↔ ∀ h, c.IsHead h →
        (s.withEntry h = true ↔ ∃ e, c.isEntry e = true ∧ c.InLoop h e)) ∧
      (s.EntryFlags c ↔ c.EntriesNear) := by
  obtain ⟨s₀, sorted, hd, hhd, hlh, hiff⟩ := entryFlags_discovered hr hf hbuilt hs
  by_cases hno : t.noLoops = true
  · have hhead := not_isHead_of_forward hr hstart (hbuilt.forward hno)
    have hempty : s₀ = Loops.empty := by
      unfold discovered at hd
      rw [if_pos hno, Option.some.injEq, Prod.mk.injEq] at hd
      exact hd.1.symm
    have hflags : s.EntryFlags c := fun h hh => by
      rw [hhd, hempty] at hh
      exact absurd hh Bool.false_ne_true
    exact ⟨iff_of_true hflags fun h hh => absurd hh (hhead h),
      iff_of_true hflags fun h e _ hin => absurd hin.isHead (hhead h)⟩
  · obtain ⟨s₁, l, hd₁, hmem, hpair, hfound⟩ :=
      discovered_reducible hr hstart hf hbuilt (Bool.eq_false_iff.2 hno) hred
    obtain ⟨rfl, rfl⟩ := Prod.mk.inj (Option.some.inj (hd.symm.trans hd₁))
    have hinner := hfound.inner hmem
    have hhead := hfound.isHead_iff hmem
    refine ⟨?_, hiff.trans (served_iff hr hbuilt.toCorrect hinner hhead hmem hpair hstart)⟩
    unfold Loops.EntryFlags
    rw [hhd]
    refine forall_congr' fun h => ?_
    rw [hhead h]
    refine forall_congr' fun hh => iff_congr Iff.rfl (exists_congr fun e => ?_)
    have hin : s.Inside h e ↔ c.InLoop h e := by
      have hin₀ := inside_iff (x := e) hr hbuilt.toCorrect hinner hh
      unfold Loops.Inside at hin₀ ⊢
      rw [hlh]
      exact hin₀
    rw [hin]
    constructor
    · rintro ⟨-, he, hin⟩
      exact ⟨he, hin⟩
    · rintro ⟨he, hin⟩
      exact ⟨hin.block, he, hin⟩

/-- `IR_BB_LOOP_WITH_ENTRY` is right for all headers if and only if every loop with an `ENTRY` has a block
that passes its flag to the header.  On reducible graphs, where the loops are the natural loops, that is to
say that some `ENTRY` of every loop with an `ENTRY` is in at most one of the loops inside it. -/
theorem withEntry_iff (c : Graph) (t : DomTree) (fuel : ℕ) (s : Loops) (hr : c.Reachable)
    (hstart : c.predecessors 1 = []) (hf : c.steps < fuel) (ht : buildDominators fuel c = some (.tree t))
    (hs : findLoops fuel c t = some s) :
    (∃ s₀ sorted, discovered fuel c t = some (s₀, sorted) ∧ (s.EntryFlags c ↔ s₀.Served c sorted)) ∧
      (c.Reducible fuel → ((∀ h, c.IsHead h →
        (s.withEntry h = true ↔ ∃ e, c.isEntry e = true ∧ c.InLoop h e)) ↔ c.EntriesNear)) := by
  have hbuilt := built_of_eq hr hf ht
  obtain ⟨s₀, sorted, hd, -, -, hiff⟩ := entryFlags_discovered hr hf hbuilt hs
  refine ⟨⟨s₀, sorted, hd, hiff⟩, fun hred => ?_⟩
  obtain ⟨hnatural, hnear⟩ := entryFlags_reducible hr hstart hf hbuilt hs hred
  exact hnatural.symm.trans hnear

/-- The loops of the nest are found. -/
theorem nest_run : ∃ t s, buildDominators 80 nest = some (.tree t) ∧ findLoops 80 nest t = some s := by
  obtain ⟨t, ht⟩ : ∃ t, buildDominators 80 nest = some (.tree t) := ⟨_, rfl⟩
  have hbuilt := built_of_eq nest_reachable (by decide) ht
  refine ⟨t, ?_⟩
  rw [findLoops_eq (by decide)]
  by_cases hno : t.noLoops = true
  · have hd : discovered 80 nest t = some (Loops.empty, []) := if_pos hno
    exact ⟨_, ht, by rw [hd, Option.map_some]⟩
  · obtain ⟨s₀, sorted, hd, -⟩ :=
      discovered_reducible nest_reachable rfl (by decide) hbuilt (Bool.eq_false_iff.2 hno) nest_reducible
    exact ⟨_, ht, by rw [hd, Option.map_some]⟩

theorem withEntry_iff_nest : ∃ t s, buildDominators 80 nest = some (.tree t) ∧
    findLoops 80 nest t = some s ∧
    (∃ s₀ sorted, discovered 80 nest t = some (s₀, sorted) ∧ (s.EntryFlags nest ↔ s₀.Served nest sorted)) ∧
      (nest.Reducible 80 → ((∀ h, nest.IsHead h →
        (s.withEntry h = true ↔ ∃ e, nest.isEntry e = true ∧ nest.InLoop h e)) ↔ nest.EntriesNear)) := by
  obtain ⟨t, s, ht, hs⟩ := nest_run
  exact ⟨t, s, ht, hs, withEntry_iff nest t 80 s nest_reachable rfl (by decide) ht hs⟩

/-- Block 5 is in the loops of blocks 3 and 4, both inside that of block 2. -/
theorem nest_not_near : ¬nest.EntriesNear := by
  have hback : ∀ p h, p ∈ nest.predecessors h → 1 ≤ h → h ≤ p →
      BackEdge (Edge nest.predecessors) 1 p h := fun p h hp h1 hle => ⟨hp, nest_dom h1 hle⟩
  have h62 := hback 6 2 (by decide) (by decide) (by decide)
  have h63 := hback 6 3 (by decide) (by decide) (by decide)
  have h54 := hback 5 4 (by decide) (by decide) (by decide)
  have hedge : (4 : ℕ) ∈ nest.predecessors 5 ∧ 5 ∈ nest.predecessors 6 := by decide
  have hpath : ∀ h, h < 4 →
      Relation.ReflTransGen (fun u v => Edge nest.predecessors u v ∧ v ≠ h) 4 6 := fun h hh =>
    (Relation.ReflTransGen.single ⟨hedge.1, by omega⟩).tail ⟨hedge.2, by omega⟩
  have h24 : nest.InLoop 2 4 := ⟨6, h62, Or.inr ⟨by decide, hpath 2 (by decide)⟩⟩
  have h23 : nest.InLoop 2 3 := h24.pred (by decide) (by decide : (3 : ℕ) ∈ nest.predecessors 4)
  have h34 : nest.InLoop 3 4 := ⟨6, h63, Or.inr ⟨by decide, hpath 3 (by decide)⟩⟩
  have h45 : nest.InLoop 4 5 := h54.inLoop
  intro hnear
  obtain ⟨e, he, -, honly⟩ := hnear 2 5 rfl (h24.trans nest_reachable h45)
  obtain rfl := eq_of_beq he
  have heq := honly 3 4 h23 (h34.trans nest_reachable h45) (by decide) h24 h45 (by decide)
  omega

/-- The outermost loop of the nest does not get the flag of the `ENTRY`. -/
theorem withEntry_not : ¬∀ (c : Graph) (t : DomTree) (fuel : ℕ) (s : Loops), c.Reachable →
    c.predecessors 1 = [] → c.steps < fuel → buildDominators fuel c = some (.tree t) →
    findLoops fuel c t = some s → s.EntryFlags c := by
  intro hall
  obtain ⟨t, s, ht, hs⟩ := nest_run
  have hbuilt := built_of_eq nest_reachable (by decide) ht
  have hflags := hall nest t 80 s nest_reachable rfl (by decide) ht hs
  exact nest_not_near
    ((entryFlags_reducible nest_reachable rfl (by decide) hbuilt hs nest_reducible).2.1 hflags)

end Find

end IrJit.Cfg
