import Mathlib.Logic.Relation
import Mathlib.Tactic.Common
import Mathlib.Algebra.Order.Group.Nat

/-!
# Lib.ParentTree — trees on `1 .. n` kept as a table of smaller parents

`Anc par a b` says that following the parents from `b` reaches `a`; the walk stops at the root `1`.
In a table where every parent is smaller than its child the ancestors of a vertex form a chain, the
meet of two vertices is found by moving the larger one up, and an entry of the table is only read
by the vertices above it.
-/

namespace IrJit.ParentTree

/-- One step towards the root. -/
def Up (par : ℕ → ℕ) (b a : ℕ) : Prop := 2 ≤ b ∧ par b = a

/-- `a` is `b` or an ancestor of `b`. -/
def Anc (par : ℕ → ℕ) (a b : ℕ) : Prop := Relation.ReflTransGen (Up par) b a

/-- Parents are smaller than their children, and at least the root. -/
def Decreasing (par : ℕ → ℕ) (n : ℕ) : Prop := ∀ b, 2 ≤ b → b ≤ n → 1 ≤ par b ∧ par b < b

/-- `m` is the deepest common ancestor of the vertices of `l`. -/
def IsMeet (par : ℕ → ℕ) (l : List ℕ) (m : ℕ) : Prop := ∀ x, Anc par x m ↔ ∀ p ∈ l, Anc par x p

/-- `v` is the first ancestor of `p` that is smaller than `b`. -/
def FirstBelow (par : ℕ → ℕ) (b p v : ℕ) : Prop :=
  v < b ∧ Anc par v p ∧ ∀ x, x < b → Anc par x p → Anc par x v

section Anc

variable {par par' : ℕ → ℕ} {a b c n p v x : ℕ}

theorem anc_refl (par : ℕ → ℕ) (a : ℕ) : Anc par a a := Relation.ReflTransGen.refl

theorem Anc.trans (hab : Anc par a b) (hbc : Anc par b c) : Anc par a c :=
  Relation.ReflTransGen.trans hbc hab

theorem anc_parent (hb : 2 ≤ b) : Anc par (par b) b := Relation.ReflTransGen.single ⟨hb, rfl⟩

theorem Anc.up (h : Anc par a (par b)) (hb : 2 ≤ b) : Anc par a b := h.trans (anc_parent hb)

theorem anc_iff : Anc par a b ↔ a = b ∨ 2 ≤ b ∧ Anc par a (par b) := by
  constructor
  · intro h
    rcases Relation.ReflTransGen.cases_head h with h | ⟨c, ⟨hb, rfl⟩, hc⟩
    · exact Or.inl h.symm
    · exact Or.inr ⟨hb, hc⟩
  · rintro (rfl | ⟨hb, h⟩)
    · exact anc_refl par a
    · exact h.up hb

theorem Anc.strict (h : Anc par a b) (hne : a ≠ b) : 2 ≤ b ∧ Anc par a (par b) :=
  (anc_iff.mp h).resolve_left hne

theorem anc_one : Anc par a 1 ↔ a = 1 := by
  rw [anc_iff]
  omega

theorem Anc.bounds (hd : Decreasing par n) (h : Anc par a b) (h1 : 1 ≤ b) (hn : b ≤ n) :
    1 ≤ a ∧ a ≤ b := by
  induction b using Nat.strong_induction_on with
  | _ b ih =>
    rcases anc_iff.mp h with rfl | ⟨hb, h⟩
    · exact ⟨h1, le_refl a⟩
    · obtain ⟨hp1, hp⟩ := hd b hb hn
      obtain ⟨ha, hle⟩ := ih (par b) hp h hp1 (by omega)
      exact ⟨ha, by omega⟩

/-- The ancestors of `b` only depend on the entries up to `b`. -/
theorem Anc.congr (hd : Decreasing par n) (h : Anc par a b) (h1 : 1 ≤ b) (hn : b ≤ n)
    (hp : ∀ x, 2 ≤ x → x ≤ b → par' x = par x) : Anc par' a b := by
  induction b using Nat.strong_induction_on with
  | _ b ih =>
    rcases anc_iff.mp h with rfl | ⟨hb, h⟩
    · exact anc_refl par' a
    · obtain ⟨hp1, hlt⟩ := hd b hb hn
      have hup := ih (par b) hlt h hp1 (by omega) fun x hx hxb => hp x hx (by omega)
      rw [← hp b hb (le_refl b)] at hup
      exact hup.up hb

/-- A table whose parents are ancestors in another table has fewer ancestors. -/
theorem Anc.mono (hd' : Decreasing par' n)
    (hle : ∀ x, 2 ≤ x → x ≤ n → Anc par (par' x) (par x)) (h : Anc par' a b) (h1 : 1 ≤ b)
    (hn : b ≤ n) : Anc par a b := by
  induction b using Nat.strong_induction_on with
  | _ b ih =>
    rcases anc_iff.mp h with rfl | ⟨hb, h⟩
    · exact anc_refl par a
    · obtain ⟨hp1, hlt⟩ := hd' b hb hn
      have hup := ih (par' b) hlt h hp1 (by omega)
      exact (hup.trans (hle b hb hn)).up hb

theorem exists_firstBelow (hd : Decreasing par n) (hb : 2 ≤ b) (h1 : 1 ≤ p) (hn : p ≤ n) :
    ∃ v, FirstBelow par b p v := by
  induction p using Nat.strong_induction_on with
  | _ p ih =>
    by_cases hpb : p < b
    · exact ⟨p, hpb, anc_refl par p, fun _ _ h => h⟩
    · obtain ⟨hp1, hlt⟩ := hd p (by omega) hn
      obtain ⟨v, hvb, hv, hmax⟩ := ih (par p) hlt hp1 (by omega)
      refine ⟨v, hvb, hv.up (by omega), fun x hx h => hmax x hx ?_⟩
      exact (h.strict (by omega)).2

end Anc

section Meet

variable {par : ℕ → ℕ} {a b n m : ℕ} {l : List ℕ}

/-- `while (a != b) { while (b > a) b = par[b]; while (a > b) a = par[a]; }`: the larger one moves
up until both are the same; `none` when the fuel runs out. -/
def intersect (par : ℕ → ℕ) : ℕ → ℕ → ℕ → Option ℕ
  | 0, _, _ => none
  | fuel + 1, a, b =>
    if a = b then some a
    else if a < b then intersect par fuel a (par b)
    else intersect par fuel (par a) b

theorem intersect_spec (hd : Decreasing par n) {fuel : ℕ} (ha1 : 1 ≤ a) (han : a ≤ n) (hb1 : 1 ≤ b)
    (hbn : b ≤ n) (hf : a + b < fuel) :
    ∃ m, intersect par fuel a b = some m ∧ 1 ≤ m ∧ m ≤ a ∧
      ∀ x, Anc par x m ↔ Anc par x a ∧ Anc par x b := by
  induction fuel generalizing a b with
  | zero => omega
  | succ fuel ih =>
    rw [intersect]
    rcases Nat.lt_trichotomy a b with hlt | rfl | hlt
    · obtain ⟨hp1, hp⟩ := hd b (by omega) hbn
      obtain ⟨m, hm, hm1, hma, hmeet⟩ := ih ha1 han hp1 (by omega) (by omega)
      rw [if_neg (by omega), if_pos hlt]
      refine ⟨m, hm, hm1, hma, fun x => (hmeet x).trans ?_⟩
      constructor
      · rintro ⟨hxa, hxb⟩
        exact ⟨hxa, hxb.up (by omega)⟩
      · rintro ⟨hxa, hxb⟩
        have hle := (hxa.bounds hd ha1 han).2
        exact ⟨hxa, (hxb.strict (by omega)).2⟩
    · rw [if_pos rfl]
      exact ⟨a, rfl, ha1, le_refl a, fun x => by rw [and_self]⟩
    · obtain ⟨hp1, hp⟩ := hd a (by omega) han
      obtain ⟨m, hm, hm1, hma, hmeet⟩ := ih hp1 (by omega) hb1 hbn (by omega)
      rw [if_neg (by omega), if_neg (by omega)]
      refine ⟨m, hm, hm1, by omega, fun x => (hmeet x).trans ?_⟩
      constructor
      · rintro ⟨hxa, hxb⟩
        exact ⟨hxa.up (by omega), hxb⟩
      · rintro ⟨hxa, hxb⟩
        have hle := (hxb.bounds hd hb1 hbn).2
        exact ⟨(hxa.strict (by omega)).2, hxb⟩

theorem IsMeet.anc (h : IsMeet par l m) {p : ℕ} (hp : p ∈ l) : Anc par m p :=
  (h m).mp (anc_refl par m) p hp

/-- A meet is an ancestor of what it was taken from, so it stays in their bounds. -/
theorem IsMeet.bounds (h : IsMeet par l m) (hd : Decreasing par n) {p : ℕ} (hp : p ∈ l)
    (h1 : 1 ≤ p) (hn : p ≤ n) : 1 ≤ m ∧ m ≤ p :=
  (h.anc hp).bounds hd h1 hn

end Meet

end IrJit.ParentTree
