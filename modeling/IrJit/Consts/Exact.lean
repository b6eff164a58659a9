import IrJit.Consts.Interner

/-!
# Consts.Exact — when interning is exact

`ir_const_hash_rehash` chains every constant, also those that `ir_unique_const_addr` keeps out of
the chains.  From then on the search of `ir_const_ex` can find such a constant.  `Exact` says what
the references of a sequence of calls should be, and `exact_iff_runOk` that they are so exactly
when no call looks up a pair whose newest linked constant is a unique one.
-/

namespace IrJit.Consts

/-- `ref` is a right answer to a call with key `key`. -/
def Holds (ctx : Ctx) (ref : ℤ) : Key → Prop
  | .null => ref = irNull
  | .bool b => ref = if b then irTrue else irFalse
  | .word optx val => (ctx.irBase ref).optx = optx ∧ (ctx.irBase ref).val = val

/-- Call number `i` of a sequence has the request `q` and the answer `r`. -/
def Answered {α : Type} (calls : List Call) (answers : List α) (i : ℕ) (q : Request) (r : α) :
    Prop :=
  (calls.map Call.request)[i]? = some q ∧ answers[i]? = some r

/-- The references that a sequence of calls returned are exact: each has what was asked for, two
are equal exactly when the keys are, and a unique constant is returned once. -/
structure Exact (calls : List Call) (refs : List ℤ) (ctx : Ctx) : Prop where
  stored : ∀ i k r, Answered calls refs i (.intern k) r → Holds ctx r k
  same : ∀ i j k l r s, Answered calls refs i (.intern k) r → Answered calls refs j (.intern l) s →
    (r = s ↔ k = l)
  unique : ∀ i j addr q r s, Answered calls refs i (.fresh addr) r → Answered calls refs j q s →
    i ≠ j → r ≠ s

theorem answered_cons {α : Type} {c : Call} {calls : List Call} {a : α} {answers : List α} {i : ℕ}
    {q : Request} {r : α} (h : Answered (c :: calls) (a :: answers) i q r) :
    (i = 0 ∧ c.request = q ∧ a = r) ∨ ∃ j, i = j + 1 ∧ Answered calls answers j q r := by
  obtain ⟨hq, hr⟩ := h
  cases i with
  | zero => exact .inl ⟨rfl, by simpa using hq, by simpa using hr⟩
  | succ j => exact .inr ⟨j, rfl, by simpa using hq, by simpa using hr⟩

theorem Answered.succ {α : Type} {c : Call} {calls : List Call} {a : α} {answers : List α} {i : ℕ}
    {q : Request} {r : α} (h : Answered calls answers i q r) :
    Answered (c :: calls) (a :: answers) (i + 1) q r := by
  simpa [Answered] using h

theorem answered_refs {calls : List Call} {ns : List ℕ} {i : ℕ} {q : Request} {r : ℤ}
    (h : Answered calls (refs ns) i q r) : ∃ n : ℕ, r = -(n : ℤ) ∧ Answered calls ns i q n := by
  obtain ⟨hq, hr⟩ := h
  rw [refs, List.getElem?_map] at hr
  obtain ⟨n, hn, rfl⟩ := Option.map_eq_some_iff.mp hr
  exact ⟨n, rfl, hq, hn⟩

theorem Answered.refs {calls : List Call} {ns : List ℕ} {i n : ℕ} {q : Request}
    (h : Answered calls ns i q n) : Answered calls (refs ns) i q (-(n : ℤ)) := by
  refine ⟨h.1, ?_⟩
  rw [Consts.refs, List.getElem?_map, h.2]
  rfl

namespace Interner

/-- A unique constant that is linked and holds the pair asked for is hidden by a newer constant
that is not unique. -/
def StepOk (T : Interner) (c : Call) : Prop :=
  ∀ optx val, c.request = .intern (.word optx val) →
    ∀ u ∈ T.linked, T.unique u = true → T.stored u = (optx, val) →
      ∃ n, u < n ∧ n < T.count ∧ T.unique n = false ∧ T.stored n = (optx, val)

/-- Every call of a sequence is made in a state where it is `StepOk`. -/
def RunOk (T : Interner) : List Call → Prop
  | [] => True
  | c :: calls => T.StepOk c ∧ (T.step c).2.RunOk calls

/-- Where no unique constant is linked, every call is `StepOk`. -/
theorem stepOk_of_linked {T : Interner} (h : ∀ u ∈ T.linked, T.unique u = false) (c : Call) :
    T.StepOk c := by
  intro optx val _ u hu huniq
  rw [h u hu] at huniq
  exact absurd huniq Bool.false_ne_true

/-- What every reachable interner satisfies. -/
structure Wf (T : Interner) : Prop where
  four_le : 4 ≤ T.count
  desc : T.linked.Pairwise (· > ·)
  bounds : ∀ n ∈ T.linked, 4 ≤ n ∧ n < T.count
  unique_bounds : ∀ n, T.unique n = true → 4 ≤ n ∧ n < T.count
  linked : ∀ n, 4 ≤ n → n < T.count → T.unique n = false → n ∈ T.linked
  distinct : ∀ m n, 4 ≤ m → m < T.count → 4 ≤ n → n < T.count → T.unique m = false →
    T.unique n = false → T.stored m = T.stored n → m = n

theorem wf_init : init.Wf where
  four_le := le_rfl
  desc := List.Pairwise.nil
  bounds := by simp [init]
  unique_bounds := by simp [init]
  linked := fun n h4 hlt => absurd hlt (not_lt.mpr h4)
  distinct := fun m _ h4 hlt => absurd hlt (not_lt.mpr h4)

variable {T : Interner}

/-- The constant found is the newest one linked. -/
theorem Wf.find_some (W : T.Wf) {key : BitVec 32 × BitVec 64} {n : ℕ} (h : T.find key = some n) :
    n ∈ T.linked ∧ T.stored n = key ∧ ∀ m ∈ T.linked, T.stored m = key → m ≤ n := by
  obtain ⟨hn, before, after, hl, hbefore⟩ := List.find?_eq_some_iff_append.mp h
  refine ⟨List.mem_of_find?_eq_some h, by simpa using hn, ?_⟩
  intro m hm hkey
  rw [hl] at hm
  rcases List.mem_append.mp hm with hm | hm
  · have := hbefore m hm
    simp [hkey] at this
  rcases List.mem_cons.mp hm with rfl | hm
  · exact le_rfl
  · have hdesc := W.desc
    rw [hl] at hdesc
    exact (List.rel_of_pairwise_cons (List.pairwise_append.mp hdesc).2.1 hm).le

theorem find_none {key : BitVec 32 × BitVec 64} (h : T.find key = none) {n : ℕ}
    (hn : n ∈ T.linked) : T.stored n ≠ key := by
  have := List.find?_eq_none.mp h n hn
  simpa using this

theorem Wf.rehash (W : T.Wf) : T.rehash.Wf where
  four_le := W.four_le
  desc := by
    show (List.range' 4 (T.count - 4)).reverse.Pairwise (· > ·)
    rw [List.pairwise_reverse]
    exact List.pairwise_lt_range'
  bounds := by
    intro n hn
    have hn : n ∈ (List.range' 4 (T.count - 4)).reverse := hn
    have h4 := W.four_le
    rw [List.mem_reverse, List.mem_range'_1] at hn
    show 4 ≤ n ∧ n < T.count
    omega
  unique_bounds := W.unique_bounds
  linked := by
    intro n h4 hlt _
    have hlt : n < T.count := hlt
    show n ∈ (List.range' 4 (T.count - 4)).reverse
    rw [List.mem_reverse, List.mem_range'_1]
    omega
  distinct := W.distinct

theorem Wf.link (W : T.Wf) {key : BitVec 32 × BitVec 64}
    (hkey : ∀ n, 4 ≤ n → n < T.count → T.unique n = false → T.stored n ≠ key) :
    (T.link key).Wf := by
  have hlt : ∀ {n}, n < (T.link key).count → n ≠ T.count → n < T.count := by
    intro n hn hne
    have hn : n < T.count + 1 := hn
    omega
  have hstored : ∀ {n}, n ≠ T.count → (T.link key).stored n = T.stored n := fun h =>
    Function.update_of_ne h _ _
  have hself : (T.link key).stored T.count = key := Function.update_self _ _ _
  refine ⟨Nat.le_succ_of_le W.four_le, ?_, ?_, ?_, ?_, ?_⟩
  · exact List.pairwise_cons.mpr ⟨fun n hn => (W.bounds n hn).2, W.desc⟩
  · intro n hn
    rcases List.mem_cons.mp hn with rfl | hn
    · exact ⟨W.four_le, Nat.lt_succ_self _⟩
    · exact ⟨(W.bounds n hn).1, Nat.lt_succ_of_lt (W.bounds n hn).2⟩
  · exact fun n hn => ⟨(W.unique_bounds n hn).1, Nat.lt_succ_of_lt (W.unique_bounds n hn).2⟩
  · intro n h4 hn hu
    by_cases h : n = T.count
    · exact h ▸ List.mem_cons_self
    · exact List.mem_cons_of_mem _ (W.linked n h4 (hlt hn h) hu)
  · intro m n hm hmc hn hnc hum hun heq
    by_cases h : m = T.count <;> by_cases h' : n = T.count
    · rw [h, h']
    · subst h
      rw [hself, hstored h'] at heq
      exact absurd heq.symm (hkey n hn (hlt hnc h') hun)
    · subst h'
      rw [hself, hstored h] at heq
      exact absurd heq (hkey m hm (hlt hmc h) hum)
    · rw [hstored h, hstored h'] at heq
      exact W.distinct m n hm (hlt hmc h) hn (hlt hnc h') hum hun heq

theorem Wf.fresh (W : T.Wf) (addr : BitVec 64) : (T.fresh addr).Wf := by
  have hlt : ∀ {n}, n < (T.fresh addr).count → n ≠ T.count → n < T.count := by
    intro n hn hne
    have hn : n < T.count + 1 := hn
    omega
  have hstored : ∀ {n}, n ≠ T.count → (T.fresh addr).stored n = T.stored n := fun h =>
    Function.update_of_ne h _ _
  have hunique : ∀ {n}, n ≠ T.count → (T.fresh addr).unique n = T.unique n := fun h =>
    Function.update_of_ne h _ _
  have hne : ∀ {n}, (T.fresh addr).unique n = false → n ≠ T.count := by
    rintro _ hu rfl
    simp [Interner.fresh] at hu
  refine ⟨Nat.le_succ_of_le W.four_le, W.desc, ?_, ?_, ?_, ?_⟩
  · exact fun n hn => ⟨(W.bounds n hn).1, Nat.lt_succ_of_lt (W.bounds n hn).2⟩
  · intro n hn
    by_cases h : n = T.count
    · exact h ▸ ⟨W.four_le, Nat.lt_succ_self _⟩
    · rw [hunique h] at hn
      exact ⟨(W.unique_bounds n hn).1, Nat.lt_succ_of_lt (W.unique_bounds n hn).2⟩
  · intro n h4 hn hu
    have h := hne hu
    rw [hunique h] at hu
    exact W.linked n h4 (hlt hn h) hu
  · intro m n hm hmc hn hnc hum hun heq
    have h := hne hum
    have h' := hne hun
    rw [hstored h, hstored h'] at heq
    rw [hunique h] at hum
    rw [hunique h'] at hun
    exact W.distinct m n hm (hlt hmc h) hn (hlt hnc h') hum hun heq

/-- What a call does, on the interner: it returns a constant every context has, finds the newest
linked constant with its pair, or makes a constant, linked or unique. -/
theorem step_cases (T : Interner) (c : Call) :
    (c.request = .intern .null ∧ T.step c = (1, T)) ∨
    (∃ b, c.request = .intern (.bool b) ∧ T.step c = (if b then 3 else 2, T)) ∨
    (∃ optx val n, c.request = .intern (.word optx val) ∧ T.find (optx, val) = some n ∧
      T.step c = (n, T)) ∨
    (∃ optx val, c.request = .intern (.word optx val) ∧ T.find (optx, val) = none ∧
      T.step c = (T.count, T.append (optx, val))) ∨
    (∃ addr, c.request = .fresh addr ∧ T.step c = (T.count, T.fresh addr)) := by
  unfold step
  rcases c.request with (_ | b | ⟨optx, val⟩) | addr
  · exact .inl ⟨rfl, rfl⟩
  · exact .inr (.inl ⟨b, rfl, rfl⟩)
  · cases hfind : T.find (optx, val) with
    | some n => exact .inr (.inr (.inl ⟨optx, val, n, rfl, hfind, by simp [intern, hfind]⟩))
    | none =>
      exact .inr (.inr (.inr (.inl ⟨optx, val, rfl, hfind, by simp [intern, hfind]⟩)))
  · exact .inr (.inr (.inr (.inr ⟨addr, rfl, rfl⟩)))

theorem append_count (T : Interner) (key : BitVec 32 × BitVec 64) :
    (T.append key).count = T.count + 1 := by
  unfold append
  split_ifs <;> rfl

theorem append_stored (T : Interner) (key : BitVec 32 × BitVec 64) :
    (T.append key).stored = Function.update T.stored T.count key := by
  unfold append
  split_ifs <;> rfl

theorem append_unique (T : Interner) (key : BitVec 32 × BitVec 64) :
    (T.append key).unique = T.unique := by
  unfold append
  split_ifs <;> rfl

/-- A pair that is not found is held by no constant but unique ones. -/
theorem Wf.append (W : T.Wf) {key : BitVec 32 × BitVec 64} (h : T.find key = none) :
    (T.append key).Wf := by
  have hkey : ∀ n, 4 ≤ n → n < T.count → T.unique n = false → T.stored n ≠ key :=
    fun n h4 hn hu => find_none h (W.linked n h4 hn hu)
  unfold Interner.append
  split_ifs
  · exact W.rehash.link hkey
  · exact W.link hkey

theorem Wf.step (W : T.Wf) (c : Call) : (T.step c).2.Wf := by
  obtain ⟨-, h⟩ | ⟨b, -, h⟩ | ⟨optx, val, n, -, -, h⟩ | ⟨optx, val, -, hfind, h⟩ | ⟨addr, -, h⟩ :=
    T.step_cases c
  all_goals rw [h]
  · exact W
  · exact W
  · exact W
  · exact W.append hfind
  · exact W.fresh addr

/-- `T'` has the constants of `T`, and maybe more. -/
structure Extends (T T' : Interner) : Prop where
  count_le : T.count ≤ T'.count
  stored : ∀ n, n < T.count → T'.stored n = T.stored n
  unique : ∀ n, n < T.count → T'.unique n = T.unique n

theorem Extends.refl (T : Interner) : T.Extends T := ⟨le_rfl, fun _ _ => rfl, fun _ _ => rfl⟩

theorem Extends.trans {T' T'' : Interner} (h : T.Extends T') (h' : T'.Extends T'') :
    T.Extends T'' where
  count_le := h.count_le.trans h'.count_le
  stored := fun n hn => (h'.stored n (hn.trans_le h.count_le)).trans (h.stored n hn)
  unique := fun n hn => (h'.unique n (hn.trans_le h.count_le)).trans (h.unique n hn)

theorem extends_step (T : Interner) (c : Call) : T.Extends (T.step c).2 := by
  obtain ⟨-, h⟩ | ⟨b, -, h⟩ | ⟨optx, val, n, -, -, h⟩ | ⟨optx, val, -, -, h⟩ | ⟨addr, -, h⟩ :=
    T.step_cases c
  all_goals rw [h]
  · exact .refl T
  · exact .refl T
  · exact .refl T
  · refine ⟨?_, fun n hn => ?_, fun n _ => ?_⟩
    · rw [append_count]
      exact Nat.le_succ _
    · rw [append_stored, Function.update_of_ne hn.ne]
    · rw [append_unique]
  · exact ⟨Nat.le_succ _, fun n hn => Function.update_of_ne hn.ne _ _,
      fun n hn => Function.update_of_ne hn.ne _ _⟩

theorem extends_run (T : Interner) (calls : List Call) : T.Extends (T.run calls).2 := by
  induction calls generalizing T with
  | nil => exact .refl T
  | cons c calls ih => exact (T.extends_step c).trans (ih (T.step c).2)

theorem Wf.run (W : T.Wf) (calls : List Call) : (T.run calls).2.Wf := by
  induction calls generalizing T with
  | nil => exact W
  | cons c calls ih => exact ih (W.step c)

/-! ## The answers of a run -/

/-- `n` is a constant that answers the request. -/
def Answer (T : Interner) (n : ℕ) : Request → Prop
  | .intern .null => n = 1
  | .intern (.bool b) => n = if b then 3 else 2
  | .intern (.word optx val) => 4 ≤ n ∧ n < T.count ∧ T.stored n = (optx, val)
  | .fresh _ => 4 ≤ n ∧ n < T.count ∧ T.unique n = true

theorem Extends.answer {T' : Interner} (h : T.Extends T') {n : ℕ} {q : Request}
    (ha : T.Answer n q) : T'.Answer n q := by
  rcases q with (_ | b | ⟨optx, val⟩) | addr
  · exact ha
  · exact ha
  · exact ⟨ha.1, ha.2.1.trans_le h.count_le, (h.stored n ha.2.1).trans ha.2.2⟩
  · exact ⟨ha.1, ha.2.1.trans_le h.count_le, (h.unique n ha.2.1).trans ha.2.2⟩

theorem Wf.step_answer (W : T.Wf) (c : Call) : (T.step c).2.Answer (T.step c).1 c.request := by
  obtain ⟨hq, h⟩ | ⟨b, hq, h⟩ | ⟨optx, val, n, hq, hfind, h⟩ | ⟨optx, val, hq, -, h⟩ |
    ⟨addr, hq, h⟩ := T.step_cases c
  all_goals rw [h, hq]
  · rfl
  · rfl
  · obtain ⟨hmem, hkey, -⟩ := W.find_some hfind
    exact ⟨(W.bounds n hmem).1, (W.bounds n hmem).2, hkey⟩
  · refine ⟨W.four_le, ?_, ?_⟩
    · rw [append_count]
      exact Nat.lt_succ_self _
    · rw [append_stored, Function.update_self]
  · exact ⟨W.four_le, Nat.lt_succ_self _, Function.update_self _ _ _⟩

/-- The answer of a `StepOk` lookup is not a unique constant: a unique one would be the newest
linked constant with the pair. -/
theorem Wf.step_clean (W : T.Wf) {c : Call} (hok : T.StepOk c) {optx : BitVec 32} {val : BitVec 64}
    (hq : c.request = .intern (.word optx val)) : (T.step c).2.unique (T.step c).1 = false := by
  obtain ⟨hq', -⟩ | ⟨b, hq', -⟩ | ⟨optx', val', n, hq', hfind, h⟩ | ⟨optx', val', hq', -, h⟩ |
    ⟨addr, hq', -⟩ := T.step_cases c
  all_goals rw [hq] at hq'; cases hq'
  · rw [h]
    show T.unique n = false
    obtain ⟨hmem, hkey, hmax⟩ := W.find_some hfind
    by_contra hu
    obtain ⟨m, hnm, hm, hum, hmkey⟩ := hok optx val hq n hmem (by simpa using hu) hkey
    have h4 : 4 ≤ m := (W.bounds n hmem).1.trans hnm.le
    exact absurd (hmax m (W.linked m h4 hm hum) hmkey) (not_le.mpr hnm)
  · rw [h]
    show (T.append (optx, val)).unique T.count = false
    rw [append_unique]
    by_contra hu
    exact lt_irrefl _ (W.unique_bounds T.count (by simpa using hu)).2

/-- Every answer of a run is still one in its last state. -/
theorem Wf.run_answer (W : T.Wf) {calls : List Call} {i n : ℕ} {q : Request}
    (h : Answered calls (T.run calls).1 i q n) : (T.run calls).2.Answer n q := by
  induction calls generalizing T i with
  | nil => simp [Answered] at h
  | cons c calls ih =>
    rcases answered_cons h with ⟨-, rfl, rfl⟩ | ⟨j, -, h⟩
    · exact ((T.step c).2.extends_run calls).answer (W.step_answer c)
    · exact ih (W.step c) h

/-- No lookup of a `RunOk` run returns a unique constant. -/
theorem Wf.run_clean (W : T.Wf) {calls : List Call} (hok : T.RunOk calls) {i n : ℕ}
    {optx : BitVec 32} {val : BitVec 64}
    (h : Answered calls (T.run calls).1 i (.intern (.word optx val)) n) :
    (T.run calls).2.unique n = false := by
  induction calls generalizing T i with
  | nil => simp [Answered] at h
  | cons c calls ih =>
    rcases answered_cons h with ⟨-, hq, rfl⟩ | ⟨j, -, h⟩
    · have ha : (T.step c).2.Answer (T.step c).1 (.intern (.word optx val)) :=
        hq ▸ W.step_answer c
      have hext := (T.step c).2.extends_run calls
      exact (hext.unique _ ha.2.1).trans (W.step_clean hok.1 hq)
    · exact ih (W.step c) hok.2 h

theorem length_run (T : Interner) (calls : List Call) : (T.run calls).1.length = calls.length := by
  induction calls generalizing T with
  | nil => rfl
  | cons c calls ih => exact congrArg (· + 1) (ih (T.step c).2)

theorem step_fresh {c : Call} {addr : BitVec 64} (h : c.request = .fresh addr) :
    T.step c = (T.count, T.fresh addr) := by
  unfold step
  rw [h]

/-- A unique constant is made after every constant that is there. -/
theorem count_le_of_fresh {calls : List Call} {i n : ℕ} {addr : BitVec 64}
    (h : Answered calls (T.run calls).1 i (.fresh addr) n) : T.count ≤ n := by
  induction calls generalizing T i with
  | nil => simp [Answered] at h
  | cons c calls ih =>
    rcases answered_cons h with ⟨-, hq, rfl⟩ | ⟨j, -, h⟩
    · show T.count ≤ (T.step c).1
      rw [step_fresh hq]
    · exact (T.extends_step c).count_le.trans (ih h)

/-- Two calls of `ir_unique_const_addr` make two constants. -/
theorem fresh_inj {calls : List Call} {i j n : ℕ} {addr addr' : BitVec 64}
    (hi : Answered calls (T.run calls).1 i (.fresh addr) n)
    (hj : Answered calls (T.run calls).1 j (.fresh addr') n) : i = j := by
  -- a later call answers with a constant that is not there yet after the earlier one
  have hlater : ∀ {c : Call} {calls : List Call} {T : Interner} {j : ℕ} {a b : BitVec 64},
      c.request = .fresh a → ¬ Answered calls ((T.step c).2.run calls).1 j (.fresh b)
        (T.step c).1 := by
    intro c calls T j a b hq h
    have hle := count_le_of_fresh h
    rw [step_fresh hq] at hle
    exact absurd hle (Nat.not_succ_le_self _)
  induction calls generalizing T i j with
  | nil => simp [Answered] at hi
  | cons c calls ih =>
    rcases answered_cons hi with ⟨rfl, hq, rfl⟩ | ⟨i', rfl, hi'⟩ <;>
      rcases answered_cons hj with ⟨rfl, hq', hn⟩ | ⟨j', rfl, hj'⟩
    · rfl
    · exact absurd hj' (hlater hq)
    · subst hn
      exact absurd hi' (hlater hq')
    · rw [ih hi' hj']

/-- A constant that is unique after a call was so before, or the call made it. -/
theorem unique_step {c : Call} {n : ℕ} (h : (T.step c).2.unique n = true) :
    T.unique n = true ∨ ∃ addr, c.request = .fresh addr ∧ (T.step c).1 = n := by
  obtain ⟨-, h'⟩ | ⟨b, -, h'⟩ | ⟨optx, val, m, -, -, h'⟩ | ⟨optx, val, -, -, h'⟩ |
    ⟨addr, hq, h'⟩ := T.step_cases c
  all_goals rw [h'] at h
  · exact .inl h
  · exact .inl h
  · exact .inl h
  · exact .inl (by rwa [append_unique] at h)
  · by_cases hn : n = T.count
    · exact .inr ⟨addr, hq, by rw [h', hn]⟩
    · exact .inl ((Function.update_of_ne hn _ _).symm.trans h)

/-- A lookup that is not `StepOk` returns a unique constant. -/
theorem Wf.reuses (W : T.Wf) {c : Call} (h : ¬ T.StepOk c) :
    ∃ k, c.request = .intern k ∧ T.unique (T.step c).1 = true := by
  unfold StepOk at h
  push Not at h
  obtain ⟨optx, val, hq, u, hu, huniq, hkey, hnone⟩ := h
  refine ⟨_, hq, ?_⟩
  obtain ⟨hq', -⟩ | ⟨b, hq', -⟩ | ⟨optx', val', n, hq', hfind, h⟩ | ⟨optx', val', hq', hfind, -⟩ |
    ⟨addr, hq', -⟩ := T.step_cases c
  all_goals rw [hq] at hq'; cases hq'
  · rw [h]
    show T.unique n = true
    obtain ⟨hmem, hn, hmax⟩ := W.find_some hfind
    rcases (hmax u hu hkey).lt_or_eq with hlt | rfl
    · by_contra hnu
      exact hnone n hlt (W.bounds n hmem).2 (by simpa using hnu) hn
    · exact huniq
  · exact absurd hkey (find_none hfind hu)

/-- In a run that is not `RunOk` some lookup returns a unique constant. -/
theorem Wf.exists_reused (W : T.Wf) {calls : List Call} (h : ¬ T.RunOk calls) :
    ∃ j k n, Answered calls (T.run calls).1 j (.intern k) n ∧
      (T.unique n = true ∨ ∃ i addr, Answered calls (T.run calls).1 i (.fresh addr) n) := by
  induction calls generalizing T with
  | nil => exact absurd trivial h
  | cons c calls ih =>
    by_cases hc : T.StepOk c
    · have hrest : ¬ (T.step c).2.RunOk calls := fun hr => h ⟨hc, hr⟩
      obtain ⟨j, k, n, hj, hn⟩ := ih (W.step c) hrest
      refine ⟨j + 1, k, n, hj.succ, ?_⟩
      rcases hn with hu | ⟨i, addr, hi⟩
      · rcases unique_step hu with hu | ⟨addr, hq, rfl⟩
        · exact .inl hu
        · exact .inr ⟨0, addr, by simpa using hq, rfl⟩
      · exact .inr ⟨i + 1, addr, hi.succ⟩
    · obtain ⟨k, hq, hu⟩ := W.reuses hc
      exact ⟨0, k, (T.step c).1, ⟨by simpa using hq, rfl⟩, .inl hu⟩

end Interner

/-! ## Exactness -/

section Exact

variable {T : Interner} {ctx : Ctx} {calls : List Call}

theorem holds_of_answer (R : Rep ctx T) {n : ℕ} {k : Key} (h : T.Answer n (.intern k)) :
    Holds ctx (-n) k := by
  rcases k with _ | b | ⟨optx, val⟩
  · rw [show n = 1 from h]
    rfl
  · rw [show n = if b then 3 else 2 from h]
    cases b <;> rfl
  · obtain ⟨h4, hlt, hkey⟩ := h
    exact ⟨by rw [R.optx_eq (by omega) hlt, hkey], by rw [R.val_eq (by omega) hlt, hkey]⟩

/-- Two answers that are not unique constants are equal exactly when the keys are. -/
theorem answer_eq_iff (W : T.Wf) {m n : ℕ} {k l : Key} (hm : T.Answer m (.intern k))
    (hn : T.Answer n (.intern l)) (hum : ∀ optx val, k = .word optx val → T.unique m = false)
    (hun : ∀ optx val, l = .word optx val → T.unique n = false) : m = n ↔ k = l := by
  rcases k with _ | b | ⟨optx, val⟩ <;> rcases l with _ | b' | ⟨optx', val'⟩ <;>
    simp only [Interner.Answer] at hm hn
  case word.word =>
    obtain ⟨hm4, hmc, hmk⟩ := hm
    obtain ⟨hn4, hnc, hnk⟩ := hn
    constructor
    · rintro rfl
      rw [hmk] at hnk
      cases hnk
      rfl
    · rintro h
      cases h
      exact W.distinct m n hm4 hmc hn4 hnc (hum _ _ rfl) (hun _ _ rfl) (hmk.trans hnk.symm)
  case null.null => simp [hm, hn]
  case bool.bool => cases b <;> cases b' <;> simp [hm, hn]
  case null.bool => cases b' <;> simp [hm, hn]
  case bool.null => cases b <;> simp [hm, hn]
  case null.word => simp only [reduceCtorEq, iff_false]; omega
  case word.null => simp only [reduceCtorEq, iff_false]; omega
  case bool.word => cases b <;> simp only [reduceCtorEq, iff_false] <;> simp at hm <;> omega
  case word.bool => cases b' <;> simp only [reduceCtorEq, iff_false] <;> simp at hn <;> omega

/-- In a `RunOk` run the answers are exact. -/
theorem exact_of_runOk (W : T.Wf) (R : Rep ctx (T.run calls).2) (hok : T.RunOk calls) :
    Exact calls (refs (T.run calls).1) ctx where
  stored := by
    intro i k r h
    obtain ⟨n, rfl, hn⟩ := answered_refs h
    exact holds_of_answer R (W.run_answer hn)
  same := by
    intro i j k l r s hi hj
    obtain ⟨m, rfl, hm⟩ := answered_refs hi
    obtain ⟨n, rfl, hn⟩ := answered_refs hj
    have hiff := answer_eq_iff (W.run calls) (W.run_answer hm) (W.run_answer hn)
      (fun optx val hk => W.run_clean hok (hk ▸ hm)) (fun optx val hl => W.run_clean hok (hl ▸ hn))
    rw [← hiff]
    omega
  unique := by
    intro i j addr q r s hi hj hij heq
    obtain ⟨m, rfl, hm⟩ := answered_refs hi
    obtain ⟨n, rfl, hn⟩ := answered_refs hj
    obtain rfl : m = n := by omega
    obtain ⟨h4, -, huniq⟩ := W.run_answer hm
    have ha := W.run_answer hn
    rcases q with (_ | b | ⟨optx, val⟩) | addr'
    · have : m = 1 := ha
      omega
    · have : m = if b then 3 else 2 := ha
      split_ifs at this <;> omega
    · rw [W.run_clean hok hn] at huniq
      exact Bool.false_ne_true huniq
    · exact hij (Interner.fresh_inj hm hn)

/-- For every context that `ir_init` makes, every sequence of calls returns, and its references are
exact exactly when each call is made in a state where a linked unique constant that holds its pair
is hidden by a newer constant. -/
theorem exact_iff_runOk (garbage : ℕ → Cell) {constsLimit : ℕ} (insnsLimit : ℕ)
    (h : 4 ≤ constsLimit) (calls : List Call) :
    ∃ refs ctx, run (init garbage constsLimit insnsLimit) calls = some (refs, ctx) ∧
      refs.length = calls.length ∧ (Exact calls refs ctx ↔ Interner.init.RunOk calls) := by
  have W := Interner.wf_init
  obtain ⟨ctx, hrun, R⟩ := (rep_init garbage insnsLimit h).run calls
  refine ⟨_, ctx, hrun, ?_, ?_, exact_of_runOk W R⟩
  · rw [refs, List.length_map, Interner.length_run]
  · intro hex
    by_contra hbad
    obtain ⟨j, k, n, hj, hu | ⟨i, addr, hi⟩⟩ := W.exists_reused hbad
    · exact absurd hu (by simp [Interner.init])
    · have hij : i ≠ j := by
        rintro rfl
        have := hi.1.symm.trans hj.1
        simp at this
      exact hex.unique i j addr _ _ _ hi.refs hj.refs hij rfl

/-- Without a rehash a unique constant stays out of the chains. -/
def uniqueThenAddr : List Call := [.addr 4096, .uniqueAddr 4096, .i32 7, .addr 4096]

theorem uniqueThenAddr_exact :
    ∃ refs ctx, run (init (fun _ => ⟨0, 0, 0⟩) 256 1024) uniqueThenAddr = some (refs, ctx) ∧
      Exact uniqueThenAddr refs ctx := by
  obtain ⟨refs, ctx, hrun, -, hiff⟩ :=
    exact_iff_runOk (fun _ => ⟨0, 0, 0⟩) 1024 (show 4 ≤ 256 by decide) uniqueThenAddr
  refine ⟨refs, ctx, hrun, hiff.mpr ⟨?_, ?_, ?_, ?_, trivial⟩⟩
  all_goals
    apply Interner.stepOk_of_linked
    decide

/-- A unique constant and sixty others, the last of which rehashes; then the address of the unique
constant is looked up. -/
def rehashThenAddr : List Call :=
  .uniqueAddr 4096 :: ((List.range 60).map fun i => .i32 (BitVec.ofNat 32 i)) ++ [.addr 4096]

theorem rehashThenAddr_not_exact :
    ∃ refs ctx, run (init (fun _ => ⟨0, 0, 0⟩) 256 1024) rehashThenAddr = some (refs, ctx) ∧
      ¬ Exact rehashThenAddr refs ctx := by
  obtain ⟨ctx, hrun, -⟩ := (rep_init (fun _ => ⟨0, 0, 0⟩) 1024 (show 4 ≤ 256 by decide)).run
    rehashThenAddr
  refine ⟨_, ctx, hrun, fun hex => ?_⟩
  have hfirst : Answered rehashThenAddr (Interner.init.run rehashThenAddr).1 0 (.fresh 4096) 4 :=
    ⟨by decide, by decide +kernel⟩
  have hlast : Answered rehashThenAddr (Interner.init.run rehashThenAddr).1 61
      (.intern (.word (irOpt IrType.addr.ctorIdx .addr) 4096)) 4 :=
    ⟨by decide, by decide +kernel⟩
  exact hex.unique 0 61 _ _ _ _ hfirst.refs hlast.refs (by decide) rfl

end Exact

end IrJit.Consts
