import Mathlib.Algebra.Order.Ring.Int
import Mathlib.Data.Finset.Card
import Mathlib.Logic.Function.Iterate
import Mathlib.Data.Nat.Find

/-!
# Lib.Orbit — following a partial predecessor function

A predecessor `p x` is a number, or negative when there is none.  `parent p` is the same as a total
function, `OnCycle p x` says that following `p` from `x` never ends and comes back to `x`.
-/

namespace IrJit

/-- The predecessor as a total function (junk where there is none). -/
def parent (p : ℕ → ℤ) (x : ℕ) : ℕ := (p x).toNat

/-- Following `p` from `x` meets no end and returns to `x`. -/
def OnCycle (p : ℕ → ℤ) (x : ℕ) : Prop :=
  (∀ n, 0 ≤ p ((parent p)^[n] x)) ∧ ∃ n, 0 < n ∧ (parent p)^[n] x = x

section

variable {p : ℕ → ℤ} {x y : ℕ}

theorem cast_parent (h : 0 ≤ p x) : ((parent p x : ℕ) : ℤ) = p x := Int.toNat_of_nonneg h

theorem parent_eq (h : p x = y) : parent p x = y := by
  unfold parent
  omega

theorem iterate_parent_succ (p : ℕ → ℤ) (n x : ℕ) :
    parent p ((parent p)^[n] x) = (parent p)^[n + 1] x :=
  (Function.iterate_succ_apply' (parent p) n x).symm

theorem iterate_mul_period {f : ℕ → ℕ} {x n : ℕ} (h : f^[n] x = x) (m : ℕ) : f^[m * n] x = x := by
  induction m with
  | zero => simp
  | succ m ih => rw [Nat.succ_mul, Function.iterate_add_apply, h, ih]

theorem OnCycle.pred_nonneg (h : OnCycle p x) : 0 ≤ p x := h.1 0

theorem OnCycle.iterate (h : OnCycle p x) (m : ℕ) : OnCycle p ((parent p)^[m] x) := by
  obtain ⟨h0, n, hn, hx⟩ := h
  refine ⟨fun k => ?_, n, hn, ?_⟩
  · rw [← Function.iterate_add_apply]
    exact h0 _
  · rw [← Function.iterate_add_apply, Nat.add_comm, Function.iterate_add_apply, hx]

/-- Coming back to `x` from any point of its cycle. -/
theorem OnCycle.back (h : OnCycle p x) (m : ℕ) : ∃ k, (parent p)^[k] ((parent p)^[m] x) = x := by
  obtain ⟨-, n, hn, hx⟩ := h
  refine ⟨m * n - m, ?_⟩
  have hle : m ≤ m * n := Nat.le_mul_of_pos_right m hn
  rw [← Function.iterate_add_apply, Nat.sub_add_cancel hle]
  exact iterate_mul_period hx m

/-- What leads into a cycle and is on a cycle, is on that cycle. -/
theorem OnCycle.same {y : ℕ} (h : OnCycle p x) {m : ℕ} (hm : (parent p)^[m] x = y) :
    ∃ k, (parent p)^[k] y = x := by
  subst hm
  exact h.back m

/-- The point of the cycle that leads to `x`. -/
theorem OnCycle.exists_child (h : OnCycle p x) : ∃ m, p ((parent p)^[m] x) = x := by
  obtain ⟨h0, n, hn, hx⟩ := h
  refine ⟨n - 1, ?_⟩
  rw [← cast_parent (h0 (n - 1)), iterate_parent_succ, Nat.sub_add_cancel hn, hx]

/-- A property that goes from every point of the cycle to its child on the cycle holds on all of
it. -/
theorem OnCycle.forall_of_child {Q : ℕ → Prop} (h : OnCycle p x) (hx : Q x)
    (hQ : ∀ z y : ℕ, OnCycle p y → p y = z → Q z → Q y) (m : ℕ) : Q ((parent p)^[m] x) := by
  -- downwards from a multiple of the period
  obtain ⟨n, hn, hret⟩ := h.2
  have hdown : ∀ j i, i + j = m * n → Q ((parent p)^[i] x) := by
    intro j
    induction j with
    | zero =>
      intro i hi
      rw [show i = m * n by omega, iterate_mul_period hret m]
      exact hx
    | succ j ih =>
      intro i hi
      refine hQ _ _ (h.iterate i) ?_ (ih (i + 1) (by omega))
      rw [← iterate_parent_succ, cast_parent (h.1 i)]
  have hle : m ≤ m * n := Nat.le_mul_of_pos_right m hn
  exact hdown (m * n - m) m (by omega)

/-- The length of the cycle of `x`: the first return. -/
theorem OnCycle.period (h : OnCycle p x) :
    ∃ k, 0 < k ∧ (parent p)^[k] x = x ∧ ∀ i, 0 < i → i < k → (parent p)^[i] x ≠ x := by
  obtain ⟨-, n, hn, hx⟩ := h
  have hex : ∃ n, 0 < n ∧ (parent p)^[n] x = x := ⟨n, hn, hx⟩
  classical
  refine ⟨Nat.find hex, (Nat.find_spec hex).1, (Nat.find_spec hex).2, fun i hi hlt hc => ?_⟩
  exact Nat.find_min hex hlt ⟨hi, hc⟩

/-- Every point of the orbit occurs within one period. -/
theorem iterate_mod {f : ℕ → ℕ} {x k : ℕ} (hx : f^[k] x = x) (n : ℕ) : f^[n] x = f^[n % k] x := by
  have hmul : f^[(n / k) * k] x = x := iterate_mul_period hx (n / k)
  calc f^[n] x = f^[n % k + (n / k) * k] x := by rw [Nat.mul_comm, Nat.mod_add_div]
    _ = f^[n % k] x := by rw [Function.iterate_add_apply, hmul]

/-- The points of one period are distinct. -/
theorem iterate_ne_of_lt {f : ℕ → ℕ} {x k : ℕ} (hx : f^[k] x = x)
    (hmin : ∀ i, 0 < i → i < k → f^[i] x ≠ x) {i j : ℕ} (hij : i < j) (hjk : j < k) :
    f^[i] x ≠ f^[j] x := by
  intro heq
  refine hmin (k - j + i) (by omega) (by omega) ?_
  rw [Function.iterate_add_apply, heq, ← Function.iterate_add_apply, Nat.sub_add_cancel hjk.le, hx]

/-- **Child-closed finite sets are unions of cycles.** -/
theorem OnCycle.of_child_closed {B : Finset ℕ} (hB : ∀ x ∈ B, ∃ y ∈ B, p y = x) :
    ∀ x ∈ B, OnCycle p x := by
  -- `p` maps `B` onto `B`, hence into `B` and injectively
  have hsub : B.image (fun x : ℕ => (x : ℤ)) ⊆ B.image p := by
    intro z hz
    obtain ⟨x, hx, rfl⟩ := Finset.mem_image.mp hz
    obtain ⟨y, hy, hp⟩ := hB x hx
    exact Finset.mem_image.mpr ⟨y, hy, hp⟩
  have hcast : (B.image (fun x : ℕ => (x : ℤ))).card = B.card :=
    Finset.card_image_of_injective B (fun a b h => by simpa using h)
  have himg : B.image p = B.image (fun x : ℕ => (x : ℤ)) :=
    (Finset.eq_of_subset_of_card_le hsub (hcast ▸ Finset.card_image_le)).symm
  have hmaps : ∀ x ∈ B, ∃ y ∈ B, p x = (y : ℕ) := by
    intro x hx
    have hmem : p x ∈ B.image (fun x : ℕ => (x : ℤ)) := himg ▸ Finset.mem_image_of_mem p hx
    obtain ⟨y, hy, he⟩ := Finset.mem_image.mp hmem
    exact ⟨y, hy, he.symm⟩
  have hinj : Set.InjOn p B := Finset.card_image_iff.mp (by rw [himg, hcast])
  have hiter : ∀ x ∈ B, ∀ n, (parent p)^[n] x ∈ B := by
    intro x hx n
    induction n with
    | zero => exact hx
    | succ n ih =>
      obtain ⟨y, hy, he⟩ := hmaps _ ih
      rw [← iterate_parent_succ, parent_eq he]
      exact hy
  have hcancel : ∀ x ∈ B, ∀ y ∈ B, parent p x = parent p y → x = y := by
    intro x hx y hy h
    obtain ⟨x', -, hx'⟩ := hmaps x hx
    obtain ⟨y', -, hy'⟩ := hmaps y hy
    rw [parent_eq hx', parent_eq hy'] at h
    exact hinj hx hy (by rw [hx', hy', h])
  have hiterCancel : ∀ n, ∀ x ∈ B, ∀ y ∈ B, (parent p)^[n] x = (parent p)^[n] y → x = y := by
    intro n
    induction n with
    | zero => exact fun x _ y _ h => h
    | succ n ih =>
      intro x hx y hy h
      refine ih x hx y hy (hcancel _ (hiter x hx n) _ (hiter y hy n) ?_)
      rw [iterate_parent_succ, iterate_parent_succ, h]
  intro x hx
  refine ⟨fun n => ?_, ?_⟩
  · obtain ⟨y, -, he⟩ := hmaps _ (hiter x hx n)
    rw [he]
    exact Int.natCast_nonneg y
  · -- two of the iterates agree, and the common steps cancel
    obtain ⟨i, -, j, -, hij, heq⟩ := Finset.exists_ne_map_eq_of_card_lt_of_maps_to
      (s := Finset.range (B.card + 1)) (t := B) (f := fun n => (parent p)^[n] x)
      (by simp) (fun n _ => hiter x hx n)
    wlog hlt : i < j generalizing i j
    · exact this j i hij.symm heq.symm (lt_of_le_of_ne (not_lt.mp hlt) hij.symm)
    refine ⟨j - i, by omega, ?_⟩
    refine (hiterCancel i _ (hiter x hx _) x hx ?_)
    rw [← Function.iterate_add_apply, Nat.add_sub_cancel' hlt.le]
    exact heq.symm

end

end IrJit
