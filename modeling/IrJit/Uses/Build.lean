import IrJit.Uses.Runs

/-!
# Uses.Build — `ir_build_def_use_lists`

The first pass collects the uses of every instruction, the newest first, in linked lists that are
laid out in one array of pairs; `Decodes` reads such a list back.  The second pass unrolls the
lists into `use_edges` from its end downwards, so that the list of `d` starts at the number of
edges to instructions below `d`.
-/

namespace IrJit.Uses

open Slice

/-! ## The walk over the instructions -/

section Heads

variable {inputs inputs' : ℕ → ℕ} {count : ℕ}

theorem headsFrom_bounds {fuel a i : ℕ} (h : i ∈ headsFrom inputs count fuel a) :
    a ≤ i ∧ i < count := by
  induction fuel generalizing a with
  | zero => simp [headsFrom] at h
  | succ fuel ih =>
    rw [headsFrom] at h
    split_ifs at h with ha
    · rcases List.mem_cons.mp h with rfl | h
      · exact ⟨le_rfl, ha⟩
      · obtain ⟨hle, hlt⟩ := ih h
        exact ⟨by omega, hlt⟩
    · simp at h

/-- An instruction starts after the last slot of every earlier one. -/
theorem headsFrom_apart {fuel a u v : ℕ} (hu : u ∈ headsFrom inputs count fuel a)
    (hv : v ∈ headsFrom inputs count fuel a) (h : u < v) : u + inputsToLen (inputs u) ≤ v := by
  induction fuel generalizing a with
  | zero => simp [headsFrom] at hu
  | succ fuel ih =>
    rw [headsFrom] at hu hv
    split_ifs at hu hv with ha
    · rcases List.mem_cons.mp hu with rfl | hu <;> rcases List.mem_cons.mp hv with rfl | hv
      · omega
      · exact (headsFrom_bounds hv).1
      · have := (headsFrom_bounds hu).1
        omega
      · exact ih hu hv
    · simp at hu

theorem headsFrom_nodup (inputs : ℕ → ℕ) (count fuel a : ℕ) :
    (headsFrom inputs count fuel a).Nodup := by
  induction fuel generalizing a with
  | zero => exact List.nodup_nil
  | succ fuel ih =>
    rw [headsFrom]
    split_ifs
    · refine List.nodup_cons.mpr ⟨fun h => ?_, ih _⟩
      have hle := (headsFrom_bounds h).1
      unfold inputsToLen at hle
      omega
    · exact List.nodup_nil

theorem headsFrom_congr {fuel a : ℕ}
    (h : ∀ i ∈ headsFrom inputs count fuel a, inputs' i = inputs i) :
    headsFrom inputs' count fuel a = headsFrom inputs count fuel a := by
  induction fuel generalizing a with
  | zero => rfl
  | succ fuel ih =>
    rw [headsFrom, headsFrom]
    rw [headsFrom] at h
    split_ifs at h ⊢
    · rw [h a List.mem_cons_self, ih fun i hi => h i (List.mem_cons_of_mem _ hi)]
    · rfl

theorem Insns.heads_pos {I : Insns} {u : ℕ} (h : u ∈ I.heads) : 0 < u := (headsFrom_bounds h).1

end Heads

/-! ## The first pass -/

/-- The uses of `d` among some edges `(def, use)`. -/
def usesOf (E : List (ℕ × ℕ)) (d : ℕ) : List ℕ := (E.filter fun e => e.1 = d).map Prod.snd

/-- `n` is the head of the linked list `l`, which lies below `top`. -/
def Decodes (linked : ℕ → ℤ) (top : ℕ) : ℤ → List ℕ → Prop
  | n, [] => n = 0
  | n, u :: l => 0 < u ∧ ((l = [] ∧ n = u) ∨
      (l ≠ [] ∧ ∃ k : ℕ, n = -((k + 1 : ℕ) : ℤ) ∧ k + 1 < top ∧ linked k = u ∧
        Decodes linked top (linked (k + 1)) l))

theorem Decodes.congr {linked linked' : ℕ → ℤ} {top top' : ℕ} {n : ℤ} {l : List ℕ}
    (h : Decodes linked top n l) (htop : top ≤ top') (hl : ∀ k, k < top → linked' k = linked k) :
    Decodes linked' top' n l := by
  induction l generalizing n with
  | nil => exact h
  | cons u l ih =>
    obtain ⟨hu, h | ⟨hne, k, hn, hk, hlu, hnext⟩⟩ := h
    · exact ⟨hu, .inl h⟩
    · refine ⟨hu, .inr ⟨hne, k, hn, by omega, ?_, ?_⟩⟩
      · rw [hl k (by omega), hlu]
      · rw [hl (k + 1) hk]
        exact ih hnext

theorem Decodes.eq_zero_iff {linked : ℕ → ℤ} {top : ℕ} {n : ℤ} {l : List ℕ}
    (h : Decodes linked top n l) : n = 0 ↔ l = [] := by
  cases l with
  | nil => simpa [Decodes] using h
  | cons u l =>
    obtain ⟨hu, ⟨-, hn⟩ | ⟨-, k, hn, -⟩⟩ := h
    · simp only [reduceCtorEq, iff_false]
      omega
    · simp only [reduceCtorEq, iff_false]
      omega

/-- `b` holds the edges `E`. -/
structure Built (b : Building) (E : List (ℕ × ℕ)) : Prop where
  edgesCount : b.edgesCount = E.length
  count : ∀ d, b.count d = (usesOf E d).length
  decodes : ∀ d, Decodes b.linkedLists b.top (b.refs d) (usesOf E d).reverse

theorem usesOf_append (E F : List (ℕ × ℕ)) (d : ℕ) : usesOf (E ++ F) d = usesOf E d ++ usesOf F d := by
  simp [usesOf]

theorem usesOf_singleton_self (d i : ℕ) : usesOf [(d, i)] d = [i] := by simp [usesOf]

theorem usesOf_singleton_of_ne {d d' : ℕ} (i : ℕ) (h : d' ≠ d) : usesOf [(d, i)] d' = [] := by
  simp [usesOf, h.symm]

/-- One more edge. -/
theorem Built.addEdge {b : Building} {E : List (ℕ × ℕ)} (B : Built b E) {i : ℕ} (hi : 0 < i)
    {operand : ℤ} (hop : operand > 0) :
    Built (b.addEdge i operand) (E ++ [(operand.toNat, i)]) := by
  unfold Building.addEdge
  simp only [if_pos hop]
  generalize operand.toNat = d
  have hlen : (E ++ [(d, i)]).length = E.length + 1 := by simp
  have hself : usesOf (E ++ [(d, i)]) d = usesOf E d ++ [i] := by
    rw [usesOf_append, usesOf_singleton_self]
  have hother : ∀ d', d' ≠ d → usesOf (E ++ [(d, i)]) d' = usesOf E d' := fun d' h => by
    rw [usesOf_append, usesOf_singleton_of_ne i h, List.append_nil]
  split_ifs with hrefs
  · -- the first use is stored in `refs` itself
    have hnil : usesOf E d = [] := by simpa using (B.decodes d).eq_zero_iff.mp hrefs
    refine ⟨by rw [hlen, ← B.edgesCount], fun d' => ?_, fun d' => ?_⟩
    · by_cases h : d' = d
      · subst h
        show Function.update b.count d' 1 d' = _
        rw [Function.update_self, hself, hnil]
        rfl
      · show Function.update b.count d 1 d' = _
        rw [Function.update_of_ne h, hother d' h, B.count d']
    · by_cases h : d' = d
      · subst h
        show Decodes b.linkedLists b.top (Function.update b.refs d' (i : ℤ) d') _
        rw [Function.update_self, hself, hnil]
        exact ⟨hi, .inl ⟨rfl, rfl⟩⟩
      · show Decodes b.linkedLists b.top (Function.update b.refs d (i : ℤ) d') _
        rw [Function.update_of_ne h, hother d' h]
        exact B.decodes d'
  · -- a further use goes in front of the linked list
    have hcons : usesOf E d ≠ [] := fun h =>
      hrefs ((B.decodes d).eq_zero_iff.mpr (by rw [h]; rfl))
    have hkeep : ∀ k, k < b.top →
        Function.update (Function.update b.linkedLists b.top (i : ℤ)) (b.top + 1) (b.refs d) k =
          b.linkedLists k := fun k hk => by
      rw [Function.update_of_ne (by omega), Function.update_of_ne (by omega)]
    have hold : ∀ d', Decodes
        (Function.update (Function.update b.linkedLists b.top (i : ℤ)) (b.top + 1) (b.refs d))
        (b.top + 2) (b.refs d') (usesOf E d').reverse := fun d' =>
      (B.decodes d').congr (by omega) hkeep
    refine ⟨by rw [hlen, ← B.edgesCount], fun d' => ?_, fun d' => ?_⟩
    · by_cases h : d' = d
      · subst h
        show Function.update b.count d' (b.count d' + 1) d' = _
        rw [Function.update_self, hself, List.length_append, B.count d']
        rfl
      · show Function.update b.count d _ d' = _
        rw [Function.update_of_ne h, hother d' h, B.count d']
    · by_cases h : d' = d
      · subst h
        show Decodes
          (Function.update (Function.update b.linkedLists b.top (i : ℤ)) (b.top + 1) (b.refs d'))
          (b.top + 2) (Function.update b.refs d' (-(b.top + 1 : ℕ) : ℤ) d') _
        rw [Function.update_self, hself, List.reverse_append]
        refine ⟨hi, .inr ⟨by simpa using hcons, b.top, rfl, by omega, ?_, ?_⟩⟩
        · rw [Function.update_of_ne (by omega), Function.update_self]
        · rw [Function.update_self]
          exact hold d'
      · show Decodes _ _ (Function.update b.refs d _ d') _
        rw [Function.update_of_ne h, hother d' h]
        exact hold d'

/-- The edges of instruction `i` to other instructions. -/
def edgesOf (I : Insns) (i : ℕ) : List (ℕ × ℕ) :=
  ((slice I.word (4 * i + 1) (builtInputs I i)).filter (0 < ·)).map fun d => (d.toNat, i)

theorem Built.addInsn {I : Insns} {b : Building} {E : List (ℕ × ℕ)} (B : Built b E) {i : ℕ}
    (hi : 0 < i) : Built (b.addInsn I i) (E ++ edgesOf I i) := by
  unfold Building.addInsn edgesOf
  generalize slice I.word (4 * i + 1) (builtInputs I i) = operands
  induction operands generalizing b E with
  | nil => simpa using B
  | cons operand operands ih =>
    rw [List.foldl_cons]
    by_cases hop : operand > 0
    · have h := ih (B.addEdge hi hop)
      rw [List.filter_cons_of_pos (by simpa using hop), List.map_cons, List.append_cons]
      exact h
    · have hskip : b.addEdge i operand = b := by rw [Building.addEdge, if_neg hop]
      rw [hskip, List.filter_cons_of_neg (by simpa using hop)]
      exact ih B

theorem Built.addInsns {I : Insns} (heads : List ℕ) (hpos : ∀ i ∈ heads, 0 < i) {b : Building}
    {E : List (ℕ × ℕ)} (B : Built b E) :
    Built (heads.foldl (Building.addInsn I) b) (E ++ heads.flatMap (edgesOf I)) := by
  induction heads generalizing b E with
  | nil => simpa using B
  | cons i heads ih =>
    have h := ih (fun j hj => hpos j (List.mem_cons_of_mem _ hj))
      (B.addInsn (I := I) (hpos i List.mem_cons_self))
    rwa [List.append_assoc, ← List.flatMap_cons] at h

/-! ## The second pass -/

/-- A linked list is unrolled right below the cells in use. -/
theorem flattenList_spec {linked : ℕ → ℤ} {top : ℕ} {n : ℤ} {l : List ℕ}
    (h : Decodes linked top n l) (hne : l ≠ []) (fuel edgesCount : ℕ) (hfuel : l.length ≤ fuel)
    (hroom : l.length ≤ edgesCount) (edges : ℕ → ℕ) :
    ∃ edges', flattenList linked fuel n edges edgesCount =
        some (edges', edgesCount - l.length) ∧
      slice edges' (edgesCount - l.length) l.length = l.reverse ∧
      ∀ i, edgesCount ≤ i → edges' i = edges i := by
  induction l generalizing n fuel edgesCount edges with
  | nil => exact absurd rfl hne
  | cons u l ih =>
    obtain ⟨fuel, rfl⟩ : ∃ m, fuel = m + 1 := ⟨fuel - 1, by simp at hfuel; omega⟩
    obtain ⟨edgesCount, rfl⟩ : ∃ m, edgesCount = m + 1 := ⟨edgesCount - 1, by simp at hroom; omega⟩
    obtain ⟨hu, ⟨rfl, rfl⟩ | ⟨hl, k, rfl, -, hlu, hnext⟩⟩ := h
    · refine ⟨Function.update edges edgesCount u, ?_, ?_, ?_⟩
      · rw [flattenList, if_neg (by omega)]
        rfl
      · simp [slice]
      · exact fun i hi => Function.update_of_ne (by omega) _ _
    · rw [List.length_cons] at hfuel hroom ⊢
      obtain ⟨edges', hrun, hslice, hout⟩ := ih hnext hl fuel edgesCount (by omega) (by omega)
        (Function.update edges edgesCount u)
      refine ⟨edges', ?_, ?_, ?_⟩
      · rw [flattenList, if_pos (by omega)]
        have hk : (- -((k + 1 : ℕ) : ℤ)).toNat = k + 1 := by omega
        simp only [hk, Nat.add_sub_cancel, hlu, Int.toNat_natCast]
        rw [hrun, Nat.add_sub_add_right]
      · rw [Nat.add_sub_add_right, slice_concat, hslice, List.reverse_cons,
          show edgesCount - l.length + l.length = edgesCount by omega, hout edgesCount le_rfl,
          Function.update_self]
      · intro i hi
        rw [hout i (by omega), Function.update_of_ne (by omega)]

/-- The number of edges to instructions below `d`. -/
def offset (E : List (ℕ × ℕ)) (d : ℕ) : ℕ := E.countP fun e => e.1 < d

theorem offset_succ (E : List (ℕ × ℕ)) (d : ℕ) :
    offset E (d + 1) = offset E d + (usesOf E d).length := by
  induction E with
  | nil => rfl
  | cons e E ih =>
    unfold offset usesOf at *
    simp only [List.countP_cons, List.filter_cons, decide_eq_true_eq, List.length_map] at *
    split_ifs <;> first | omega | (rw [List.length_cons]; omega)

theorem offset_mono (E : List (ℕ × ℕ)) {d d' : ℕ} (h : d ≤ d') : offset E d ≤ offset E d' := by
  refine List.countP_mono_left fun e _ he => ?_
  simp only [decide_eq_true_eq] at he ⊢
  omega

theorem offset_eq_length {E : List (ℕ × ℕ)} {d : ℕ} (h : ∀ e ∈ E, e.1 < d) :
    offset E d = E.length :=
  List.countP_eq_length.mpr fun e he => by simpa using h e he

/-- The second pass gives the list of every instruction up to `D` its place. -/
theorem flattenFrom_spec {b : Building} {E : List (ℕ × ℕ)} (B : Built b E) (D : ℕ)
    (refs : ℕ → ℤ) (hrefs : ∀ d, d ≤ D → refs d = b.refs d) (edges : ℕ → ℕ) :
    ∃ refs' edges',
      flattenFrom b.linkedLists b.count D refs edges (offset E (D + 1)) = some (refs', edges') ∧
      (∀ d, 0 < d → d ≤ D →
        refs' d = (if usesOf E d = [] then 0 else (offset E d : ℤ)) ∧
        slice edges' (offset E d) (usesOf E d).length = usesOf E d) ∧
      (∀ d, d = 0 ∨ D < d → refs' d = refs d) ∧ (∀ i, offset E (D + 1) ≤ i → edges' i = edges i) := by
  induction D generalizing refs edges with
  | zero => exact ⟨refs, edges, rfl, fun d h0 hd => by omega, fun _ _ => rfl, fun _ _ => rfl⟩
  | succ D ih =>
    have hD := hrefs (D + 1) le_rfl
    have hdec := B.decodes (D + 1)
    have hoff := offset_succ E (D + 1)
    rw [← hD] at hdec
    by_cases hnil : usesOf E (D + 1) = []
    · -- no uses: nothing to place
      have hzero : refs (D + 1) = 0 := hdec.eq_zero_iff.mpr (by rw [hnil]; rfl)
      have hsame : offset E (D + 1 + 1) = offset E (D + 1) := by rw [hoff, hnil]; rfl
      obtain ⟨refs', edges', hrun, hdone, hkeep, hout⟩ :=
        ih refs (fun d hd => hrefs d (by omega)) edges
      refine ⟨refs', edges', ?_, ?_, fun d hd => hkeep d (by omega), ?_⟩
      · rw [flattenFrom, if_neg (not_not.mpr hzero), hsame, hrun]
      · intro d h0 hd
        by_cases h : d = D + 1
        · subst h
          rw [hkeep _ (.inr (Nat.lt_succ_self D)), hzero, if_pos hnil, hnil]
          exact ⟨rfl, rfl⟩
        · exact hdone d h0 (by omega)
      · rw [hsame]
        exact hout
    · have hnz : refs (D + 1) ≠ 0 := fun h => hnil (by simpa using hdec.eq_zero_iff.mp h)
      have hlen : (usesOf E (D + 1)).reverse.length = (usesOf E (D + 1)).length :=
        List.length_reverse
      obtain ⟨edges₁, hlist, hslice, hout₁⟩ := flattenList_spec hdec (by simpa using hnil)
        (b.count (D + 1)) (offset E (D + 1 + 1)) (by rw [hlen, B.count]) (by rw [hlen]; omega) edges
      have hsub : offset E (D + 1 + 1) - (usesOf E (D + 1)).reverse.length = offset E (D + 1) := by
        rw [hlen]
        omega
      rw [hsub] at hlist
      rw [hsub, hlen, List.reverse_reverse] at hslice
      obtain ⟨refs', edges', hrun, hdone, hkeep, hout⟩ :=
        ih (Function.update refs (D + 1) (offset E (D + 1) : ℤ))
          (fun d hd => by rw [Function.update_of_ne (by omega)]; exact hrefs d (by omega)) edges₁
      refine ⟨refs', edges', ?_, ?_, ?_, ?_⟩
      · rw [flattenFrom, if_pos hnz, hlist]
        exact hrun
      · intro d h0 hd
        by_cases h : d = D + 1
        · subst h
          refine ⟨?_, ?_⟩
          · rw [hkeep _ (.inr (Nat.lt_succ_self D)), Function.update_self, if_neg hnil]
          · rw [slice_congr fun i hi _ => hout i hi]
            exact hslice
        · exact hdone d h0 (by omega)
      · intro d hd
        rw [hkeep d (by omega), Function.update_of_ne (by omega)]
      · intro i hi
        rw [hout i (by omega), hout₁ i hi]

/-! ## The lists built -/

/-- The number of input edges of instruction `u` that refer to `d`. -/
def Insns.edgeCount (I : Insns) (d u : ℕ) : ℕ :=
  if u ∈ I.heads then (I.inputs u).count (d : ℤ) else 0

theorem usesOf_edgesOf (I : Insns) (i : ℕ) {d : ℕ} (hd : 0 < d) :
    usesOf (edgesOf I i) d =
      List.replicate ((slice I.word (4 * i + 1) (builtInputs I i)).count (d : ℤ)) i := by
  unfold usesOf edgesOf
  induction slice I.word (4 * i + 1) (builtInputs I i) with
  | nil => rfl
  | cons x l ih =>
    by_cases hx : x = d
    · subst hx
      rw [List.filter_cons_of_pos (by simpa using hd), List.map_cons,
        List.filter_cons_of_pos (by simp), List.map_cons, ih, List.count_cons_self,
        List.replicate_succ]
    · rw [List.count_cons_of_ne hx, ← ih]
      by_cases hpos : 0 < x
      · have hne : x.toNat ≠ d := by omega
        rw [List.filter_cons_of_pos (by simpa using hpos), List.map_cons,
          List.filter_cons_of_neg (by simpa using hne)]
      · rw [List.filter_cons_of_neg (by simpa using hpos)]

theorem count_usesOf_flatMap (I : Insns) {heads : List ℕ} (hnodup : heads.Nodup) {d : ℕ}
    (hd : 0 < d) (u : ℕ) :
    (usesOf (heads.flatMap (edgesOf I)) d).count u =
      if u ∈ heads then (slice I.word (4 * u + 1) (builtInputs I u)).count (d : ℤ) else 0 := by
  induction heads with
  | nil => rfl
  | cons i heads ih =>
    obtain ⟨hi, hnodup⟩ := List.nodup_cons.mp hnodup
    rw [List.flatMap_cons, usesOf_append, List.count_append, ih hnodup, usesOf_edgesOf I i hd,
      List.count_replicate]
    by_cases hu : u = i
    · subst hu
      simp [hi]
    · have hne : ¬ i = u := fun h => hu h.symm
      simp [hu, hne]

/-- The operands of the instructions refer to instructions. -/
def Insns.InRange (I : Insns) : Prop :=
  ∀ i ∈ builtHeads I,
    ∀ x ∈ slice I.word (4 * i + 1) (builtInputs I i), x < I.insnsCount

theorem edge_lt {I : Insns} (hI : I.InRange) {e : ℕ × ℕ}
    (he : e ∈ (builtHeads I).flatMap (edgesOf I)) :
    0 < e.1 ∧ e.1 < I.insnsCount ∧ 0 < e.2 := by
  obtain ⟨i, hi, he⟩ := List.mem_flatMap.mp he
  obtain ⟨x, hx, rfl⟩ := List.mem_map.mp he
  obtain ⟨hx, hpos⟩ := List.mem_filter.mp hx
  have hlt := hI i hi x hx
  have hpos : 0 < x := by simpa using hpos
  exact ⟨by simp; omega, by simp; omega, (headsFrom_bounds hi).1⟩

theorem usesOf_eq_nil {E : List (ℕ × ℕ)} {d : ℕ} (h : ∀ e ∈ E, e.1 ≠ d) : usesOf E d = [] := by
  rw [usesOf, List.filter_eq_nil_iff.mpr fun e he => by simpa using h e he]
  rfl

/-- Runs at the offsets of the lists are sound. -/
theorem sound_of_offset {ctx : Ctx} {E : List (ℕ × ℕ)} {N : ℕ} (hlen : ctx.useEdgesCount = E.length)
    (hlt : ∀ e ∈ E, e.1 < N) (hpos : ∀ e ∈ E, 0 < e.2)
    (hnil : ∀ d, usesOf E d = [] → ctx.useLists d = ⟨0, 0⟩)
    (hrun : ∀ d, usesOf E d ≠ [] → ctx.useLists d = ⟨offset E d, (usesOf E d).length⟩)
    (huses : ∀ d, ctx.uses d = usesOf E d) : Sound ctx := by
  have hrange : ∀ d i, ctx.InRun d i → offset E d ≤ i ∧ i < offset E (d + 1) := by
    intro d i hi
    by_cases h : usesOf E d = []
    · rw [Ctx.InRun, hnil d h] at hi
      exact absurd hi.2 (Nat.not_lt_zero _)
    · rw [Ctx.InRun, hrun d h] at hi
      rw [offset_succ]
      exact hi
  refine ⟨?_, ?_, ?_⟩
  · intro d
    by_cases h : usesOf E d = []
    · rw [hnil d h]
      exact Nat.zero_le _
    · have hd : d + 1 ≤ N := by
        by_contra hge
        exact h (usesOf_eq_nil fun e he heq => by have := hlt e he; omega)
      rw [hrun d h, hlen, ← offset_eq_length hlt]
      show offset E d + (usesOf E d).length ≤ _
      rw [← offset_succ]
      exact offset_mono E hd
  · intro d i hi h0
    have hmem : 0 ∈ usesOf E d := by
      rw [← huses d]
      exact mem_slice.mpr ⟨i, hi.1, hi.2, h0⟩
    obtain ⟨e, he, he0⟩ := List.mem_map.mp hmem
    have := hpos e (List.mem_filter.mp he).1
    omega
  · intro d d' i hi hi'
    have h := hrange d i hi
    have h' := hrange d' i hi'
    by_contra hne
    rcases Nat.lt_or_gt_of_ne hne with hlt | hlt
    · have := offset_mono E (show d + 1 ≤ d' from hlt)
      omega
    · have := offset_mono E (show d' + 1 ≤ d from hlt)
      omega

/-- `ir_build_def_use_lists` returns, and its lists are sound and hold the edges. -/
theorem build_spec {I : Insns} (hI : I.InRange) (linked₀ : ℕ → ℤ) (edges₀ : ℕ → ℕ) :
    ∃ ctx, buildDefUseLists I linked₀ edges₀ = some ctx ∧ Sound ctx ∧
      ∀ d u, 0 < d → (ctx.uses d).count u = ctx.insns.edgeCount d u := by
  set E := (builtHeads I).flatMap (edgesOf I) with hE
  set b := (builtHeads I).foldl (Building.addInsn I) ⟨fun _ => 0, fun _ => 0, linked₀, 0, 0⟩ with hb
  have hlt : ∀ e ∈ E, e.1 < I.insnsCount := fun e he => (edge_lt hI he).2.1
  have hempty : Built ⟨fun _ => 0, fun _ => 0, linked₀, 0, 0⟩ [] :=
    ⟨rfl, fun _ => rfl, fun _ => rfl⟩
  have B : Built b E := hempty.addInsns (I := I) (builtHeads I) fun i hi => (headsFrom_bounds hi).1
  have hnone : ∀ d, d = 0 ∨ I.insnsCount - 1 < d → usesOf E d = [] := fun d hd =>
    usesOf_eq_nil fun e he heq => by
      have := edge_lt hI he
      omega
  have hroom : offset E (I.insnsCount - 1 + 1) = E.length :=
    offset_eq_length fun e he => by have := hlt e he; omega
  obtain ⟨refs, edges, hrun, hdone, hkeep, -⟩ :=
    flattenFrom_spec B (I.insnsCount - 1) _ (fun _ _ => rfl) edges₀
  rw [hroom, ← B.edgesCount] at hrun
  have hzero : ∀ d, usesOf E d = [] → (refs d).toNat = 0 := by
    intro d hd
    by_cases hin : d = 0 ∨ I.insnsCount - 1 < d
    · rw [hkeep d hin, (B.decodes d).eq_zero_iff.mpr (by rw [hd]; rfl)]
      rfl
    · rw [(hdone d (by omega) (by omega)).1, if_pos hd]
      rfl
  have hplace : ∀ d, usesOf E d ≠ [] → (refs d).toNat = offset E d ∧
      slice edges (offset E d) (usesOf E d).length = usesOf E d := by
    intro d hd
    have hin : ¬ (d = 0 ∨ I.insnsCount - 1 < d) := fun h => hd (hnone d h)
    obtain ⟨hr, hs⟩ := hdone d (by omega) (by omega)
    rw [hr, if_neg hd]
    exact ⟨Int.toNat_natCast _, hs⟩
  let ctx : Ctx := ⟨builtInsns I, fun d => ⟨(refs d).toNat, b.count d⟩, edges, b.edgesCount⟩
  have huses : ∀ d, ctx.uses d = usesOf E d := by
    intro d
    show slice edges (refs d).toNat (b.count d) = _
    rw [B.count d]
    by_cases hd : usesOf E d = []
    · rw [hd]
      rfl
    · obtain ⟨hr, hs⟩ := hplace d hd
      rw [hr, hs]
  refine ⟨ctx, ?_, ?_, ?_⟩
  · unfold buildDefUseLists
    dsimp only
    rw [← hb, hrun]
    rfl
  · refine sound_of_offset B.edgesCount hlt (fun e he => (edge_lt hI he).2.2) ?_ ?_ huses
    · intro d hd
      show UseList.mk (refs d).toNat (b.count d) = _
      rw [hzero d hd, B.count d, hd]
      rfl
    · intro d hd
      show UseList.mk (refs d).toNat (b.count d) = _
      rw [(hplace d hd).1, B.count d]
  · intro d u hd
    have hinputs : ∀ i ∈ builtHeads I, (builtInsns I).inputsCount i = builtInputs I i :=
      fun i hi => if_pos hi
    have hheads : (builtInsns I).heads = builtHeads I := headsFrom_congr hinputs
    have hnodup : (builtHeads I).Nodup := headsFrom_nodup _ _ _ _
    rw [huses, count_usesOf_flatMap I hnodup hd, Insns.edgeCount]
    show _ = if u ∈ (builtInsns I).heads then _ else 0
    rw [hheads]
    split_ifs with hu
    · show _ = (slice I.word (4 * u + 1) ((builtInsns I).inputsCount u)).count (d : ℤ)
      rw [hinputs u hu]
    · rfl

end IrJit.Uses
