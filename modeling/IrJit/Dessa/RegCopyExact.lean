import Mathlib.Data.List.Nodup
import IrJit.Dessa.RegCopyAxles

/-!
# Dessa.RegCopyExact — when `ir_parallel_copy` is a parallel assignment

Two things cut values: the type of a move is that of the last copy out of the same source (`LastWidest` fails),
and the register that breaks a cycle is put aside at the type of the copy into it (`RootFits` fails).  Neither
matters when no destination is a source, since then every copy is emitted as it stands.
-/

namespace IrJit.Dessa.Regs

/-! ### The copies -/

/-- What `ir_emit_arguments` promises of the copies, and of the temporaries. -/
structure CopiesOk (copies : List RegCopy) (tmpReg tmpFpReg : ℕ) : Prop where
  distinct : (copies.map RegCopy.dst).Nodup
  ne : ∀ c ∈ copies, c.src ≠ c.dst
  dst : ∀ c ∈ copies, InClass c.type c.dst
  src : ∀ c ∈ copies, InClass c.type c.src
  void : ∀ c ∈ copies, c.type ≠ .void
  tmpReg : isGpReg tmpReg = true ∧ ∀ c ∈ copies, c.dst ≠ tmpReg
  tmpFpReg : isFpReg tmpFpReg = true ∧ ∀ c ∈ copies, c.dst ≠ tmpFpReg

/-- The emitted code is a parallel assignment. -/
def IsParallel (loc pred : ℕ → ℕ) (types : ℕ → IrType) (copies : List RegCopy) (tmpReg tmpFpReg : ℕ) : Prop :=
  ∃ code, parallelCopy loc pred types copies (some tmpReg) (some tmpFpReg) = some code ∧
    ∀ σ₀, ∃ σ, execCopies code σ₀ = some σ ∧ ∀ c ∈ copies, Agree c.type.size (σ c.dst) (σ₀ c.src)

/-- The last copy out of a source. -/
def IsLast (l : List RegCopy) (last : RegCopy) : Prop :=
  ∃ before after, l = before ++ last :: after ∧ ∀ c ∈ after, c.src ≠ last.src

/-- No general register is copied at a type larger than that of the last copy out of it. -/
def LastWidest (copies : List RegCopy) : Prop :=
  ∀ last, IsLast copies last → ∀ c ∈ copies, c.src = last.src → c.type.isInt = true → c.type.size ≤ last.type.size

/-- Some copies go round in cycles, and nobody else reads their registers. -/
structure Rotates (copies : List RegCopy) (C : Set RegCopy) : Prop where
  mem : ∀ c ∈ C, c ∈ copies
  sources : RegCopy.src '' C = RegCopy.dst '' C
  once : ∀ c ∈ C, ∀ c' ∈ copies, c'.src = c.src → c' = c

/-- In a cycle of three or more general registers, the copy out of the smallest register is not of a larger type
than the copy into it. -/
def RootFits (copies : List RegCopy) : Prop :=
  ∀ C, Rotates copies C → ∀ first ∈ C, ∀ last ∈ C, last.src = first.dst → first.src ≠ last.dst →
    (∀ c ∈ C, first.dst ≤ c.dst) → first.type.isInt = true → last.type.size ≤ first.type.size

/-- The condition under which nothing is cut. -/
def Kept (copies : List RegCopy) : Prop :=
  (∀ c ∈ copies, ∀ c' ∈ copies, c.dst ≠ c'.src) ∨ (LastWidest copies ∧ RootFits copies)

theorem CopiesOk.eq_of_dst {copies : List RegCopy} {t f : ℕ} (H : CopiesOk copies t f) {c c' : RegCopy}
    (hc : c ∈ copies) (hc' : c' ∈ copies) (h : c.dst = c'.dst) : c = c' :=
  List.inj_on_of_nodup_map H.distinct hc hc' h

/-! ### Copies as they stand -/

/-- What `emitCopy` leaves in its destination. -/
theorem exec_emitCopy {type : IrType} {dst src : ℕ} (hd : InClass type dst) (hs : InClass type src) (σ : Regs) :
    ∃ v, (emitCopy type dst src).exec σ = some (Function.update σ dst v) ∧ Agree type.size v (σ src) := by
  unfold InClass at hd hs
  unfold emitCopy
  split_ifs at hd hs ⊢
  · exact ⟨writeGp type.size (σ dst) (σ src), by simp [CopyInstr.exec, hd, hs], agree_writeGp _ _ _⟩
  · exact ⟨σ src, by simp [CopyInstr.exec, hd, hs], Agree.refl _ _⟩

/-- Copies none of which reads a destination. -/
theorem exec_plain (copies : List RegCopy) : ∀ σ : Regs, (copies.map RegCopy.dst).Nodup →
    (∀ c ∈ copies, InClass c.type c.dst ∧ InClass c.type c.src) → (∀ c ∈ copies, ∀ c' ∈ copies, c.dst ≠ c'.src) →
    ∃ σ', execCopies (copies.map fun c => emitCopy c.type c.dst c.src) σ = some σ' ∧
      (∀ c ∈ copies, Agree c.type.size (σ' c.dst) (σ c.src)) ∧ ∀ x, (∀ c ∈ copies, x ≠ c.dst) → σ' x = σ x := by
  induction copies with
  | nil =>
    intro σ _ _ _
    exact ⟨σ, rfl, by simp, fun _ _ => rfl⟩
  | cons c l ih =>
    intro σ hnodup hclass hsep
    rw [List.map_cons, List.nodup_cons] at hnodup
    obtain ⟨hd, hs⟩ := hclass c List.mem_cons_self
    obtain ⟨v, hexec, hv⟩ := exec_emitCopy hd hs σ
    obtain ⟨σ', hrun, hdone, hframe⟩ := ih (Function.update σ c.dst v) hnodup.2
      (fun c' hc' => hclass c' (List.mem_cons_of_mem c hc'))
      (fun c' hc' c'' hc'' => hsep c' (List.mem_cons_of_mem c hc') c'' (List.mem_cons_of_mem c hc''))
    have hfirst : ∀ c' ∈ l, c.dst ≠ c'.dst := by
      intro c' hc' h
      exact hnodup.1 (h ▸ List.mem_map_of_mem hc')
    refine ⟨σ', ?_, ?_, ?_⟩
    · rw [List.map_cons, execCopies, hexec]
      exact hrun
    · intro c' hc'
      rcases List.mem_cons.mp hc' with rfl | hc'
      · rw [hframe _ hfirst, Function.update_self]
        exact hv
      · have h := hdone c' hc'
        rwa [Function.update_of_ne (hsep c List.mem_cons_self c' (List.mem_cons_of_mem c hc')).symm] at h
    · intro x hx
      rw [hframe x (fun c' hc' => hx c' (List.mem_cons_of_mem c hc')),
        Function.update_of_ne (hx c List.mem_cons_self)]

/-! ### The tables -/

theorem IsLast.mem {l : List RegCopy} {last : RegCopy} (h : IsLast l last) : last ∈ l := by
  obtain ⟨before, after, rfl, -⟩ := h
  simp

/-- What the first loop makes of the copies. -/
structure Listed (l : List RegCopy) (t : CopyTables) : Prop where
  todo : ∀ x, x ∈ t.todo ↔ ∃ c ∈ l, c.dst = x
  srcs : ∀ x, x ∈ t.srcs ↔ ∃ c ∈ l, c.src = x
  loc : ∀ c ∈ l, t.loc c.src = c.src
  pred : ∀ c ∈ l, t.pred c.dst = c.src
  types : ∀ c ∈ l, ∃ last, IsLast l last ∧ last.src = c.src ∧ t.types c.src = last.type

theorem Listed.add {l : List RegCopy} {t : CopyTables} {c : RegCopy} (L : Listed l t)
    (hnew : ∀ c' ∈ l, c'.dst ≠ c.dst) : Listed (l ++ [c]) (t.add c) := by
  refine ⟨?_, ?_, ?_, ?_, ?_⟩
  · intro x
    simp [CopyTables.add, L.todo, eq_comm, or_comm]
  · intro x
    simp [CopyTables.add, L.srcs, eq_comm, or_comm]
  · intro c' hc'
    change Function.update t.loc c.src c.src c'.src = c'.src
    by_cases h : c'.src = c.src
    · rw [h, Function.update_self]
    · rw [Function.update_of_ne h]
      rcases List.mem_append.mp hc' with hc' | hc'
      · exact L.loc c' hc'
      · exact absurd (by rw [List.mem_singleton.mp hc']) h
  · intro c' hc'
    change Function.update t.pred c.dst c.src c'.dst = c'.src
    rcases List.mem_append.mp hc' with hc' | hc'
    · rw [Function.update_of_ne (hnew c' hc')]
      exact L.pred c' hc'
    · rw [List.mem_singleton.mp hc', Function.update_self]
  · intro c' hc'
    change ∃ last, IsLast (l ++ [c]) last ∧ last.src = c'.src ∧ Function.update t.types c.src c.type c'.src = last.type
    by_cases h : c'.src = c.src
    · rw [h, Function.update_self]
      exact ⟨c, ⟨l, [], rfl, by simp⟩, rfl, rfl⟩
    · rw [Function.update_of_ne h]
      have hmem : c' ∈ l := by
        rcases List.mem_append.mp hc' with hc' | hc'
        · exact hc'
        · exact absurd (by rw [List.mem_singleton.mp hc']) h
      obtain ⟨last, ⟨before, after, hl, hafter⟩, hsrc, htype⟩ := L.types c' hmem
      refine ⟨last, ⟨before, after ++ [c], by simp [hl], fun d hd => ?_⟩, hsrc, htype⟩
      rcases List.mem_append.mp hd with hd | hd
      · exact hafter d hd
      · rw [List.mem_singleton.mp hd, hsrc]
        exact Ne.symm h

/-- The first loop, whatever the arrays held before. -/
theorem copyTables_spec (loc pred : ℕ → ℕ) (types : ℕ → IrType) (copies : List RegCopy)
    (h : (copies.map RegCopy.dst).Nodup) : Listed copies (copyTables loc pred types copies) := by
  induction copies using List.reverseRecOn with
  | nil => exact ⟨by simp [copyTables], by simp [copyTables], by simp, by simp, by simp⟩
  | append_singleton l c ih =>
    rw [List.map_append, List.nodup_append] at h
    unfold copyTables
    rw [List.foldl_append]
    refine (ih h.1).add fun c' hc' => ?_
    exact h.2.2 _ (List.mem_map_of_mem hc') _ (by simp)

/-! ### Both loops -/

section

variable {copies : List RegCopy} {tmpReg tmpFpReg : ℕ} {t : CopyTables}

theorem InClass.congr {t u : IrType} {r : ℕ} (h : InClass t r) (he : t.isInt = u.isInt) : InClass u r := by
  unfold InClass at h ⊢
  rwa [← he]

theorem CopiesOk.carried (H : CopiesOk copies tmpReg tmpFpReg) (L : Listed copies t) :
    Carried t.todo t.pred t.types := by
  have hlast : ∀ d ∈ t.todo, ∃ c ∈ copies, ∃ last ∈ copies, c.dst = d ∧ t.pred d = c.src ∧ last.src = c.src ∧
      t.types (t.pred d) = last.type := by
    intro d hd
    obtain ⟨c, hc, rfl⟩ := (L.todo d).mp hd
    obtain ⟨last, hlast, hsrc, htype⟩ := L.types c hc
    exact ⟨c, hc, last, hlast.mem, rfl, L.pred c hc, hsrc, by rw [L.pred c hc, htype]⟩
  refine ⟨?_, ?_, ?_, ?_⟩
  all_goals
    intro d hd
    obtain ⟨c, hc, last, hlm, rfl, hpred, hsrc, htype⟩ := hlast d hd
  · rw [hpred]
    exact H.ne c hc
  · rw [htype]
    refine (H.dst c hc).congr ((H.src c hc).isInt_eq ?_)
    rw [← hsrc]
    exact H.src last hlm
  · rw [htype, hpred, ← hsrc]
    exact H.src last hlm
  · rw [htype]
    exact H.void last hlm

/-- The invariant holds at first. -/
theorem CopiesOk.start (H : CopiesOk copies tmpReg tmpFpReg) (L : Listed copies t) (σ₀ : Regs) :
    CopyInv t.todo t.pred t.types σ₀ (fun s => carry (t.types s) (σ₀ s)) (t.todo \ t.srcs) ⟨t.todo, t.loc, []⟩ σ₀ := by
  have C := H.carried L
  have hloc : ∀ d ∈ t.todo, t.loc (t.pred d) = t.pred d := by
    intro d hd
    obtain ⟨c, hc, rfl⟩ := (L.todo d).mp hd
    rw [L.pred c hc, L.loc c hc]
  refine ⟨rfl, ?_, ?_, ?_, ?_, fun _ _ => rfl, fun h => h⟩
  · dsimp only
    rw [Finset.union_eq_left.mpr Finset.sdiff_subset]
    exact Copies.start (fun d _ => rfl) hloc
  · intro b hb d hd hp
    obtain ⟨c, hc, rfl⟩ := (L.todo d).mp hd
    rw [L.pred c hc] at hp
    exact absurd ((L.srcs b).mpr ⟨c, hc, hp⟩) (Finset.mem_sdiff.mp hb).2
  · intro b hb hn
    have hsrc : b ∈ t.srcs := by
      by_contra h
      exact hn (Finset.mem_sdiff.mpr ⟨hb, h⟩)
    obtain ⟨c, hc, rfl⟩ := (L.srcs b).mp hsrc
    exact ⟨c.dst, (L.todo _).mpr ⟨c, hc, rfl⟩, L.pred c hc, L.loc c hc⟩
  · intro d hd
    dsimp only
    rw [hloc d hd]
    exact C.src d hd

/-- The destinations that wait after the first loop. -/
structure Axles (copies : List RegCopy) (t : CopyTables) (T : Finset ℕ) : Prop where
  sub : T ⊆ t.todo
  read : ∀ x ∈ T, ∃ y ∈ T, t.pred y = x
  reader : ∀ d ∈ t.todo, t.pred d ∈ T → d ∈ T
  /-- the others hang on destinations that are no sources -/
  others : ∀ P : ℕ → Prop, (∀ c ∈ copies, (∀ c' ∈ copies, c.dst ≠ c'.src) → P c.dst) →
    (∀ c ∈ copies, P c.dst → P c.src) → ∀ c ∈ copies, c.dst ∉ T → P c.dst

/-- What the registers hold in the end. -/
structure Resolved (copies : List RegCopy) (t : CopyTables) (T : Finset ℕ) (σ₀ σ X : Regs) : Prop where
  value : ∀ c ∈ copies, σ c.dst = X c.src
  whole : ∀ s ∉ T, X s = carry (t.types s) (σ₀ s)
  fate : ∀ s ∈ T, Fate T t.pred t.types σ₀ s (X s)

theorem Listed.card_le (L : Listed copies t) : t.todo.card ≤ copies.length := by
  have heq : t.todo = (copies.map RegCopy.dst).toFinset := by
    ext x
    rw [L.todo, List.mem_toFinset, List.mem_map]
  calc t.todo.card = (copies.map RegCopy.dst).toFinset.card := by rw [heq]
    _ ≤ (copies.map RegCopy.dst).length := List.toFinset_card_le _
    _ = copies.length := List.length_map _

/-- **Both loops**, from any registers. -/
theorem loops_spec (H : CopiesOk copies tmpReg tmpFpReg) (L : Listed copies t) (σ₀ : Regs) :
    ∃ st₁ st₂ σ X, resolveBlades t.pred t.types (copies.length + 1) (t.todo \ t.srcs) ⟨t.todo, t.loc, []⟩ = some st₁ ∧
      resolveAxles t.pred t.types (some tmpReg) (some tmpFpReg) (copies.length + 1) st₁ = some st₂ ∧
      execCopies st₂.code σ₀ = some σ ∧ Axles copies t st₁.todo ∧ Resolved copies t st₁.todo σ₀ σ X := by
  have C := H.carried L
  have hmem : ∀ c ∈ copies, c.dst ∈ t.todo := fun c hc => (L.todo _).mpr ⟨c, hc, rfl⟩
  have hcard := L.card_le
  have hwait : t.todo ∪ (t.todo \ t.srcs) = t.todo := Finset.union_eq_left.mpr Finset.sdiff_subset
  obtain ⟨st₁, σ₁, hst₁, I₁, hsub, -⟩ := resolveBlades_spec C (copies.length + 1) _ _ _ (H.start L σ₀) (by
    dsimp only
    rw [hwait]
    omega)
  dsimp only at hsub
  rw [hwait] at hsub
  have hread := I₁.exists_reader
  have htmp : ∀ tmp, (∀ c ∈ copies, c.dst ≠ tmp) → tmp ∉ t.todo := by
    intro tmp h hm
    obtain ⟨c, hc, he⟩ := (L.todo tmp).mp hm
    exact h c hc he
  have haxle : AxleInv t.todo st₁.todo t.pred t.types σ₀ (fun s => carry (t.types s) (σ₀ s)) st₁ σ₁ :=
    ⟨I₁, Finset.Subset.refl _, fun _ _ => rfl, fun s hs hn => absurd hs hn⟩
  have hcard₁ := Finset.card_le_card hsub
  obtain ⟨st₂, σ, X, hst₂, I₂, hempty⟩ := resolveAxles_spec C hread H.tmpReg.1 (htmp _ H.tmpReg.2) H.tmpFpReg.1
    (htmp _ H.tmpFpReg.2) (copies.length + 1) st₁ σ₁ _ haxle (by omega)
  refine ⟨st₁, st₂, σ, X, hst₁, hst₂, I₂.inv.run, ⟨hsub, hread, fun d hd => I₁.reader_mem hd, ?_⟩, ⟨?_, ?_, ?_⟩⟩
  · intro P hinit hstep c hc hn
    refine resolveBlades_removed (D := t.todo) (P := P) ?_ _ _ _ st₁ (Finset.Subset.refl _) Finset.sdiff_subset ?_ hst₁
      c.dst (hmem c hc) hn
    · intro x hx hp
      obtain ⟨c, hc, rfl⟩ := (L.todo x).mp hx
      rw [L.pred c hc]
      exact hstep c hc hp
    · intro x hx
      obtain ⟨h1, h2⟩ := Finset.mem_sdiff.mp hx
      obtain ⟨c, hc, rfl⟩ := (L.todo x).mp h1
      exact hinit c hc fun c' hc' he => h2 ((L.srcs _).mpr ⟨c', hc', he.symm⟩)
  · intro c hc
    have hdone := I₂.inv.copies.done c.dst (hmem c hc) (by simp [hempty])
    rwa [L.pred c hc] at hdone
  · exact fun s hs => I₂.fixed s (Or.inl hs)
  · exact fun s hs => I₂.fate s hs (by simp [hempty])

/-- **The function**, when some destination is a source. -/
theorem resolve_spec (H : CopiesOk copies tmpReg tmpFpReg) (loc pred : ℕ → ℕ) (types : ℕ → IrType)
    (hread : ∃ c ∈ copies, ∃ c' ∈ copies, c.dst = c'.src) :
    ∃ T code, parallelCopy loc pred types copies (some tmpReg) (some tmpFpReg) = some code ∧
      Axles copies (copyTables loc pred types copies) T ∧
      ∀ σ₀, ∃ σ X, execCopies code σ₀ = some σ ∧ Resolved copies (copyTables loc pred types copies) T σ₀ σ X := by
  have L := copyTables_spec loc pred types copies H.distinct
  obtain ⟨c, hc, c', hc', he⟩ := hread
  have hready : (copyTables loc pred types copies).todo \ (copyTables loc pred types copies).srcs ≠
      (copyTables loc pred types copies).todo := by
    intro h
    have hd : c.dst ∈ (copyTables loc pred types copies).todo := (L.todo _).mpr ⟨c, hc, rfl⟩
    rw [← h] at hd
    exact (Finset.mem_sdiff.mp hd).2 ((L.srcs _).mpr ⟨c', hc', he.symm⟩)
  obtain ⟨st₁, st₂, σ, X, h₁, h₂, -, hT, -⟩ := loops_spec H L (fun _ => 0)
  refine ⟨st₁.todo, st₂.code, ?_, hT, fun σ₀ => ?_⟩
  · unfold parallelCopy
    split
    · rename_i c₀
      rw [List.mem_singleton.mp hc, List.mem_singleton.mp hc'] at he
      exact absurd he.symm (H.ne c₀ List.mem_cons_self)
    · dsimp only
      rw [if_neg hready, h₁, Option.bind_eq_bind, Option.bind_some, h₂]
      rfl
  · obtain ⟨st₁', st₂', σ, X, h₁', h₂', hrun, -, hR⟩ := loops_spec H L σ₀
    obtain rfl : st₁' = st₁ := Option.some.inj (h₁'.symm.trans h₁)
    obtain rfl : st₂' = st₂ := Option.some.inj (h₂'.symm.trans h₂)
    exact ⟨σ, X, hrun, hR⟩

/-! ### The condition -/

/-- A source that still waits has one reader. -/
theorem Axles.unique {T : Finset ℕ} (A : Axles copies t T) (H : CopiesOk copies tmpReg tmpFpReg) (L : Listed copies t)
    {c c' : RegCopy} (hc : c ∈ copies) (hc' : c' ∈ copies) (hT : c.src ∈ T) (h : c'.src = c.src) : c' = c := by
  have hmem : ∀ b ∈ copies, b.src = c.src → b.dst ∈ T := by
    intro b hb hs
    refine A.reader b.dst ((L.todo _).mpr ⟨b, hb, rfl⟩) ?_
    rwa [L.pred b hb, hs]
  refine H.eq_of_dst hc' hc (Copies.pred_inj_of_stuck A.read (hmem c' hc' h) (hmem c hc rfl) ?_)
  rw [L.pred c' hc', L.pred c hc, h]

theorem Axles.type {T : Finset ℕ} (A : Axles copies t T) (H : CopiesOk copies tmpReg tmpFpReg) (L : Listed copies t)
    {c : RegCopy} (hc : c ∈ copies) (hT : c.src ∈ T) : t.types c.src = c.type := by
  obtain ⟨last, hlast, hsrc, htype⟩ := L.types c hc
  rw [htype, A.unique H L hc hlast.mem hT hsrc]

/-- The cycle of a root. -/
theorem Axles.rotates {T : Finset ℕ} (A : Axles copies t T) (H : CopiesOk copies tmpReg tmpFpReg) (L : Listed copies t)
    {s : ℕ} (hs : s ∈ T) : Rotates copies {c | c ∈ copies ∧ ∃ n, c.dst = t.pred^[n] s} := by
  have hT := iterate_mem (Copies.pred_mem_of_stuck A.read) hs
  have hsrc : ∀ c ∈ copies, ∀ n, c.dst = t.pred^[n] s → c.src = t.pred^[n + 1] s := by
    intro c hc n h
    rw [Function.iterate_succ_apply', ← h, L.pred c hc]
  refine ⟨fun c hc => hc.1, ?_, ?_⟩
  · ext x
    constructor
    · rintro ⟨c, ⟨hc, n, hn⟩, rfl⟩
      have hnext := hsrc c hc n hn
      obtain ⟨b, hb, hbd⟩ := (L.todo c.src).mp (A.sub (hnext ▸ hT (n + 1)))
      exact ⟨b, ⟨hb, n + 1, by rw [hbd, hnext]⟩, hbd⟩
    · rintro ⟨c, ⟨hc, n, hn⟩, rfl⟩
      obtain ⟨y, hy, hyc⟩ := A.read c.dst (hn ▸ hT n)
      obtain ⟨b, hb, rfl⟩ := (L.todo y).mp (A.sub hy)
      obtain ⟨k, hk⟩ := orbit_back A.read hy 1
      refine ⟨b, ⟨hb, k + n, ?_⟩, by rw [← L.pred b hb, hyc]⟩
      rw [Function.iterate_add_apply, ← hn, ← hyc]
      exact hk.symm
  · rintro c ⟨hc, n, hn⟩ c' hc' he
    exact A.unique H L hc hc' (hsrc c hc n hn ▸ hT (n + 1)) he

/-- The move out of a root is not larger than the move into it. -/
theorem RootFits.root {T : Finset ℕ} (F : RootFits copies) (A : Axles copies t T) (H : CopiesOk copies tmpReg tmpFpReg)
    (L : Listed copies t) {c : RegCopy} (hc : c ∈ copies) (hR : Root T t.pred t.types c.src) :
    c.type.size ≤ (t.types (t.pred c.src)).size := by
  obtain ⟨hT, hint, hlong, hmin⟩ := hR
  obtain ⟨first, hfirst, hfd⟩ := (L.todo c.src).mp (A.sub hT)
  have hpred : t.pred c.src = first.src := by rw [← hfd, L.pred first hfirst]
  have hfT : first.src ∈ T := hpred ▸ Copies.pred_mem_of_stuck A.read _ hT
  rw [hpred] at hint ⊢
  rw [A.type H L hfirst hfT] at hint ⊢
  have hcd : c.dst ∈ T := A.reader _ ((L.todo _).mpr ⟨c, hc, rfl⟩) (by rwa [L.pred c hc])
  obtain ⟨k, hk⟩ := orbit_back A.read hcd 1
  rw [Function.iterate_one, L.pred c hc] at hk
  refine F _ (A.rotates H L hT) first ⟨hfirst, 0, hfd⟩ c ⟨hc, k, hk.symm⟩ hfd.symm ?_ ?_ hint
  · intro h
    refine hlong ?_
    rw [hpred, h, L.pred c hc]
  · rintro b ⟨-, n, hn⟩
    rw [hfd, hn]
    exact hmin n

/-- **Nothing is cut** under the condition. -/
theorem Kept.isParallel (K : Kept copies) (H : CopiesOk copies tmpReg tmpFpReg) (loc pred : ℕ → ℕ)
    (types : ℕ → IrType) : IsParallel loc pred types copies tmpReg tmpFpReg := by
  have L := copyTables_spec loc pred types copies H.distinct
  by_cases hsep : ∀ c ∈ copies, ∀ c' ∈ copies, c.dst ≠ c'.src
  · refine ⟨copies.map fun c => emitCopy c.type c.dst c.src, ?_, fun σ₀ => ?_⟩
    · unfold parallelCopy
      split
      · rfl
      · dsimp only
        rw [if_pos]
        refine Finset.sdiff_eq_self_of_disjoint (Finset.disjoint_left.mpr fun x hx hs => ?_)
        obtain ⟨c, hc, rfl⟩ := (L.todo x).mp hx
        obtain ⟨c', hc', he⟩ := (L.srcs _).mp hs
        exact hsep c hc c' hc' he.symm
    · obtain ⟨σ, hrun, hdone, -⟩ := exec_plain copies σ₀ H.distinct (fun c hc => ⟨H.dst c hc, H.src c hc⟩) hsep
      exact ⟨σ, hrun, hdone⟩
  · obtain ⟨hwidest, hfits⟩ := K.resolve_left hsep
    push Not at hsep
    obtain ⟨T, code, hcode, A, hrun⟩ := resolve_spec H loc pred types hsep
    refine ⟨code, hcode, fun σ₀ => ?_⟩
    obtain ⟨σ, X, hexec, R⟩ := hrun σ₀
    refine ⟨σ, hexec, fun c hc => ?_⟩
    rw [R.value c hc]
    by_cases hT : c.src ∈ T
    · have htype := A.type H L hc hT
      have hfate := R.fate c.src hT
      by_cases hroot : Root T (copyTables loc pred types copies).pred (copyTables loc pred types copies).types c.src
      · obtain ⟨old, hX, -⟩ := hfate.root hroot
        rw [hX, htype]
        exact (agree_carry _ _).trans ((agree_writeGp _ old _).mono (hfits.root A H L hc hroot))
      · have hserved := hfate.served hroot
        rwa [htype] at hserved
    · obtain ⟨last, hlast, hsrc, htype⟩ := L.types c hc
      rw [R.whole _ hT, htype]
      by_cases hint : c.type.isInt = true
      · exact (agree_carry _ _).mono (hwidest last hlast c hc hsrc.symm hint)
      · have hlint : last.type.isInt = c.type.isInt := by
          refine (H.src last hlast.mem).isInt_eq (r := last.src) ?_
          rw [hsrc]
          exact H.src c hc
        unfold carry
        rw [hlint, if_neg hint]
        exact Agree.refl _ _

/-! ### What is cut -/

/-- The lowest bit above `n` bytes. -/
def bitAbove (n : ℕ) : Word := BitVec.ofNat 64 (2 ^ (8 * n))

theorem agree_bitAbove {n : ℕ} (h : n ≤ 8) : Agree n (bitAbove n) 0 := by
  unfold Agree bitAbove
  apply BitVec.eq_of_toNat_eq
  have hdvd : 2 ^ (8 * n) ∣ 2 ^ 64 := Nat.pow_dvd_pow 2 (by omega)
  rw [BitVec.toNat_setWidth, BitVec.toNat_setWidth, BitVec.toNat_ofNat, Nat.mod_mod_of_dvd _ hdvd]
  simp

theorem not_agree_bitAbove {n m : ℕ} (h : n < m) (hm : m ≤ 8) : ¬ Agree m 0 (bitAbove n) := by
  unfold Agree bitAbove
  intro he
  have hnat := congrArg BitVec.toNat he
  have hlt : 2 ^ (8 * n) < 2 ^ (8 * m) := Nat.pow_lt_pow_right (by omega) (by omega)
  have hlt64 : 2 ^ (8 * n) < 2 ^ 64 := Nat.pow_lt_pow_right (by omega) (by omega)
  rw [BitVec.toNat_setWidth, BitVec.toNat_setWidth, BitVec.toNat_ofNat, Nat.mod_eq_of_lt hlt64,
    Nat.mod_eq_of_lt hlt] at hnat
  have hpos : 0 < 2 ^ (8 * n) := Nat.two_pow_pos _
  simp at hnat
  omega

theorem writeGp_congr {n : ℕ} {v w : Word} (h : Agree n v w) (old : Word) : writeGp n old v = writeGp n old w := by
  unfold Agree at h
  unfold writeGp mergeLow
  split_ifs with h4
  · subst h4
    rw [show (32 : ℕ) = 8 * 4 from rfl, h]
  · rw [h]

theorem IsLast.unique {l : List RegCopy} {last last' : RegCopy} (h : IsLast l last) (h' : IsLast l last')
    (hs : last.src = last'.src) : last = last' := by
  obtain ⟨before, after, rfl, hafter⟩ := h
  obtain ⟨before', after', heq, hafter'⟩ := h'
  rcases List.append_eq_append_iff.mp heq with ⟨as, -, h⟩ | ⟨as, -, h⟩
  · cases as with
    | nil => exact (List.cons.inj h).1
    | cons a as =>
      rw [List.cons_append] at h
      exact absurd hs.symm (hafter last' (by simp [(List.cons.inj h).2]))
  · cases as with
    | nil => exact (List.cons.inj h).1.symm
    | cons a as =>
      rw [List.cons_append] at h
      exact absurd hs (hafter' last (by simp [(List.cons.inj h).2]))

/-- A wide copy before a narrow one of the same source loses its upper bytes. -/
theorem IsParallel.lastWidest {loc pred : ℕ → ℕ} {types : ℕ → IrType}
    (h : IsParallel loc pred types copies tmpReg tmpFpReg) (H : CopiesOk copies tmpReg tmpFpReg)
    (hread : ∃ c ∈ copies, ∃ c' ∈ copies, c.dst = c'.src) : LastWidest copies := by
  intro last hlast c hc hsrc hint
  by_contra hlt
  have L := copyTables_spec loc pred types copies H.distinct
  obtain ⟨T, code, hcode, A, hrun⟩ := resolve_spec H loc pred types hread
  obtain ⟨code', hcode', hpar⟩ := h
  obtain rfl : code' = code := Option.some.inj (hcode'.symm.trans hcode)
  -- a source with two readers does not wait for a cycle
  have hT : last.src ∉ T := by
    intro hT
    have hcl : c = last := A.unique H L hlast.mem hc hT hsrc
    exact hlt (by rw [hcl])
  have htype : (copyTables loc pred types copies).types last.src = last.type := by
    obtain ⟨last', hlast', hsrc', htype⟩ := L.types last hlast.mem
    rw [htype, hlast'.unique hlast hsrc']
  have hlint : last.type.isInt = true := by
    have hclass := H.src c hc
    rw [hsrc] at hclass
    rw [(H.src last hlast.mem).isInt_eq hclass, hint]
  let σ₀ : Regs := Function.update (fun _ => 0) last.src (bitAbove last.type.size)
  obtain ⟨σ, X, hexec, R⟩ := hrun σ₀
  obtain ⟨σ', hexec', hagree⟩ := hpar σ₀
  obtain rfl : σ' = σ := Option.some.inj (hexec'.symm.trans hexec)
  have hσ₀ : σ₀ last.src = bitAbove last.type.size := Function.update_self _ _ _
  have hvalue : σ' c.dst = 0 := by
    rw [R.value c hc, hsrc, R.whole _ hT, htype, hσ₀,
      carry_congr (H.void last hlast.mem) hlint (agree_bitAbove last.type.size_le), carry_zero]
  have hbad := hagree c hc
  rw [hvalue, hsrc, hσ₀] at hbad
  exact not_agree_bitAbove (by omega) c.type.size_le hbad

/-- The copies of a cycle are not touched by the first loop. -/
theorem Rotates.mem_axles {C : Set RegCopy} {T : Finset ℕ} (hC : Rotates copies C) (A : Axles copies t T) :
    ∀ c ∈ C, c.dst ∈ T := by
  have hreader : ∀ b ∈ C, ∃ b' ∈ C, b'.src = b.dst := by
    intro b hb
    have hmem : b.dst ∈ RegCopy.src '' C := hC.sources ▸ ⟨b, hb, rfl⟩
    exact hmem
  intro c hc
  by_contra hn
  refine A.others (fun x => ∀ b ∈ C, b.dst ≠ x) ?_ ?_ c (hC.mem c hc) hn c hc rfl
  · intro c hc hfree b hb he
    obtain ⟨b', hb', hs⟩ := hreader b hb
    exact hfree b' (hC.mem b' hb') (by rw [hs, he])
  · intro c hc hP b hb he
    obtain ⟨b', hb', hs⟩ := hreader b hb
    obtain rfl : c = b' := hC.once b' hb' c hc (by rw [hs, he])
    exact hP c hb' rfl

/-- The register of a cycle that is put aside at a narrow type loses its upper bytes. -/
theorem IsParallel.rootFits {loc pred : ℕ → ℕ} {types : ℕ → IrType}
    (h : IsParallel loc pred types copies tmpReg tmpFpReg) (H : CopiesOk copies tmpReg tmpFpReg) : RootFits copies := by
  intro C hC first hfirst last hlast hls hlong hmin hint
  by_contra hlt
  have hfm := hC.mem first hfirst
  have hlm := hC.mem last hlast
  have L := copyTables_spec loc pred types copies H.distinct
  obtain ⟨T, code, hcode, A, hrun⟩ := resolve_spec H loc pred types ⟨first, hfm, last, hlm, hls.symm⟩
  obtain ⟨code', hcode', hpar⟩ := h
  obtain rfl : code' = code := Option.some.inj (hcode'.symm.trans hcode)
  have hCT := hC.mem_axles A
  have hnext : ∀ b ∈ C, ∃ b' ∈ C, b'.dst = b.src := by
    intro b hb
    have hmem : b.src ∈ RegCopy.dst '' C := hC.sources ▸ ⟨b, hb, rfl⟩
    exact hmem
  have hfpred := L.pred first hfm
  have hfT : first.src ∈ T := hfpred ▸ Copies.pred_mem_of_stuck A.read _ (hCT first hfirst)
  have horbit : ∀ n, ∃ b ∈ C, b.dst = (copyTables loc pred types copies).pred^[n] first.dst := by
    intro n
    induction n with
    | zero => exact ⟨first, hfirst, rfl⟩
    | succ n ih =>
      obtain ⟨b, hb, hbd⟩ := ih
      obtain ⟨b', hb', hbs⟩ := hnext b hb
      exact ⟨b', hb', by rw [Function.iterate_succ_apply', ← hbd, hbs, L.pred b (hC.mem b hb)]⟩
  have hroot : Root T (copyTables loc pred types copies).pred (copyTables loc pred types copies).types first.dst := by
    refine ⟨hCT first hfirst, ?_, ?_, ?_⟩
    · rw [hfpred, A.type H L hfm hfT, hint]
    · rw [hfpred]
      obtain ⟨b, hb, hbd⟩ := hnext first hfirst
      rw [← hbd, L.pred b (hC.mem b hb), ← hls]
      intro he
      exact hlong (by rw [← hbd, hC.once last hlast b (hC.mem b hb) he])
    · intro n
      obtain ⟨b, hb, hbd⟩ := horbit n
      rw [← hbd]
      exact hmin b hb
  let σ₀ : Regs := Function.update (fun _ => 0) first.dst (bitAbove first.type.size)
  obtain ⟨σ, X, hexec, R⟩ := hrun σ₀
  obtain ⟨σ', hexec', hagree⟩ := hpar σ₀
  obtain rfl : σ' = σ := Option.some.inj (hexec'.symm.trans hexec)
  have hσ₀ : σ₀ first.dst = bitAbove first.type.size := Function.update_self _ _ _
  obtain ⟨old, hX, hold⟩ := (R.fate first.dst (hCT first hfirst)).root hroot
  have hold0 : old = 0 := hold fun y hy => Function.update_of_ne hy _ _
  have hvalue : σ' last.dst = 0 := by
    rw [R.value last hlm, hls, hX, hold0, hσ₀, hfpred, A.type H L hfm hfT,
      writeGp_congr (agree_bitAbove first.type.size_le), writeGp_zero, carry_zero]
  have hbad := hagree last hlm
  rw [hvalue, hls, hσ₀] at hbad
  exact not_agree_bitAbove (by omega) last.type.size_le hbad

end

/-! ### The theorem -/

/-- **`ir_parallel_copy` is a parallel assignment exactly when nothing is cut.** -/
theorem parallelCopy_exact {copies : List RegCopy} {tmpReg tmpFpReg : ℕ} (H : CopiesOk copies tmpReg tmpFpReg)
    (loc pred : ℕ → ℕ) (types : ℕ → IrType) :
    IsParallel loc pred types copies tmpReg tmpFpReg ↔ Kept copies := by
  refine ⟨fun h => ?_, fun K => K.isParallel H loc pred types⟩
  by_cases hsep : ∀ c ∈ copies, ∀ c' ∈ copies, c.dst ≠ c'.src
  · exact Or.inl hsep
  · push Not at hsep
    exact Or.inr ⟨h.lastWidest H hsep, h.rootFits H⟩

/-- Copies of one type are never cut. -/
theorem Kept.of_type {copies : List RegCopy} {t : IrType} (h : ∀ c ∈ copies, c.type = t) : Kept copies := by
  refine Or.inr ⟨fun last hlast c hc _ _ => ?_, fun C hC first hfirst last hlast _ _ _ _ => ?_⟩
  · rw [h c hc, h last hlast.mem]
  · rw [h first (hC.mem first hfirst), h last (hC.mem last hlast)]

/-- The arguments of `h(b, c, a)` in `g(int a, long b, long c)`: `rdi`, `rsi` and `rdx` go round, and the fourth
argument comes from the temporary `rax`. -/
def rotatedArgs (type : IrType) : List RegCopy := [⟨.i64, 6, 7⟩, ⟨.i64, 2, 6⟩, ⟨type, 7, 2⟩, ⟨.i64, 0, 1⟩]

theorem rotatedArgs_ok {type : IrType} (hint : type.isInt = true) (hvoid : type ≠ .void) :
    CopiesOk (rotatedArgs type) 0 16 where
  distinct := by simp [rotatedArgs]
  ne := by simp [rotatedArgs]
  dst := by
    have h64 : IrType.i64.isInt = true := rfl
    simp [rotatedArgs, InClass, isGpReg, hint, h64]
  src := by
    have h64 : IrType.i64.isInt = true := rfl
    simp [rotatedArgs, InClass, isGpReg, hint, h64]
  void := by simp [rotatedArgs, hvoid]
  tmpReg := by simp [rotatedArgs, isGpReg]
  tmpFpReg := by simp [rotatedArgs, isFpReg, regNum]

/-- With a third argument of 64 bits nothing is cut. -/
theorem rotatedArgs_isParallel :
    IsParallel (fun _ => 0) (fun _ => 0) (fun _ => .void) (rotatedArgs .i64) 0 16 :=
  (parallelCopy_exact (rotatedArgs_ok rfl (by decide)) _ _ _).mpr (Kept.of_type (t := .i64) (by decide))

/-- With one of 32 bits the second argument loses its upper half on the way through the temporary. -/
theorem rotatedArgs_cut : CopiesOk (rotatedArgs .i32) 0 16 ∧
    ¬ IsParallel (fun _ => 0) (fun _ => 0) (fun _ => .void) (rotatedArgs .i32) 0 16 := by
  have H : CopiesOk (rotatedArgs .i32) 0 16 := rotatedArgs_ok rfl (by decide)
  refine ⟨H, fun h => ?_⟩
  have hC : Rotates (rotatedArgs .i32) {c | c = ⟨.i64, 6, 7⟩ ∨ c = ⟨.i64, 2, 6⟩ ∨ c = ⟨.i32, 7, 2⟩} := by
    refine ⟨?_, ?_, ?_⟩
    · rintro c (rfl | rfl | rfl) <;> simp [rotatedArgs]
    · ext x
      simp
      omega
    · rintro c (rfl | rfl | rfl) <;> simp [rotatedArgs]
  have hfits := h.rootFits H _ hC ⟨.i32, 7, 2⟩ (by simp) ⟨.i64, 2, 6⟩ (by simp) rfl (by simp)
    (by rintro c (rfl | rfl | rfl) <;> simp) rfl
  simp [IrType.size] at hfits

end IrJit.Dessa.Regs
