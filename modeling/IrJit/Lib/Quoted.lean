import Mathlib.Computability.Language
import Mathlib.Tactic.Common

/-!
# Lib.Quoted — tokens between quotes

A token is a quote, a body and a quote; in the body an escape takes the next symbol with it, and no other symbol
is a quote.  `scan` reads a body from left to right.
-/

namespace IrJit.Quoted

variable {α : Type*}

/-- `[^q e] | e .` -/
def units (q e : α) : Language α :=
  {x | (∃ c, c ≠ q ∧ c ≠ e ∧ x = [c]) ∨ ∃ c, x = [e, c]}

/-- `([^q e] | e .)*` -/
def body (q e : α) : Language α := KStar.kstar (units q e)

/-- `q ([^q e] | e .)* q` -/
def token (q e : α) : Language α := {[q]} * body q e * {[q]}

section

variable {q e c : α} {b b' t t' rest rest' : List α}

theorem nil_mem_body : [] ∈ body q e := Language.nil_mem_kstar _

theorem append_mem_body {u : List α} (hu : u ∈ units q e) (hb : b ∈ body q e) : u ++ b ∈ body q e := by
  obtain ⟨L, rfl, hL⟩ := Language.mem_kstar.mp hb
  refine Language.mem_kstar.mpr ⟨u :: L, rfl, fun y hy => ?_⟩
  rcases List.mem_cons.mp hy with rfl | hy
  · exact hu
  · exact hL y hy

theorem cons_mem_body (hq : c ≠ q) (he : c ≠ e) (hb : b ∈ body q e) : c :: b ∈ body q e :=
  append_mem_body (u := [c]) (Or.inl ⟨c, hq, he, rfl⟩) hb

theorem escape_mem_body (hb : b ∈ body q e) : e :: c :: b ∈ body q e :=
  append_mem_body (u := [e, c]) (Or.inr ⟨c, rfl⟩) hb

/-- Induction over a body, symbol by symbol and escape by escape. -/
theorem body_induction {motive : List α → Prop} (nil : motive [])
    (plain : ∀ c b, c ≠ q → c ≠ e → b ∈ body q e → motive b → motive (c :: b))
    (escape : ∀ c b, b ∈ body q e → motive b → motive (e :: c :: b)) (hb : b ∈ body q e) : motive b := by
  obtain ⟨L, rfl, hL⟩ := Language.mem_kstar.mp hb
  clear hb
  induction L with
  | nil => exact nil
  | cons u L ih =>
    have hrest : ∀ y ∈ L, y ∈ units q e := fun y hy => hL y (List.mem_cons_of_mem u hy)
    have htail : L.flatten ∈ body q e := Language.mem_kstar.mpr ⟨L, rfl, hrest⟩
    rw [List.flatten_cons]
    rcases hL u List.mem_cons_self with ⟨c, hq, he, rfl⟩ | ⟨c, rfl⟩
    · exact plain c _ hq he htail (ih hrest)
    · exact escape c _ htail (ih hrest)

theorem mem_token : t ∈ token q e ↔ ∃ b ∈ body q e, t = q :: (b ++ [q]) := by
  constructor
  · intro h
    obtain ⟨x, hx, z, hz, rfl⟩ := Language.mem_mul.mp h
    obtain ⟨y, hy, b, hb, rfl⟩ := Language.mem_mul.mp hx
    rw [Set.mem_singleton_iff.mp hy, Set.mem_singleton_iff.mp hz]
    exact ⟨b, hb, rfl⟩
  · rintro ⟨b, hb, rfl⟩
    exact Language.mem_mul.mpr ⟨q :: b, Language.mem_mul.mpr ⟨[q], rfl, b, hb, rfl⟩, [q], rfl, rfl⟩

end

/-! ## The scanner -/

variable [DecidableEq α]

/-- From behind the opening quote: the body, and what follows the closing quote. -/
def scan (q e : α) : List α → Option (List α × List α)
  | [] => none
  | c :: rest =>
    if c = e then
      match rest with
      | [] => none
      | d :: rest => (scan q e rest).map fun (b, after) => (c :: d :: b, after)
    else if c = q then some ([], rest)
    else (scan q e rest).map fun (b, after) => (c :: b, after)

variable {q e : α} {b t t' l rest rest' : List α}

theorem scan_cons_ne {c : α} (h : c ≠ e) : scan q e (c :: l)
    = if c = q then some ([], l) else (scan q e l).map fun (b, after) => (c :: b, after) := by
  cases l with
  | nil => simp [scan, h]
  | cons d l => simp [scan, h]

theorem scan_escape {c : α} : scan q e (e :: c :: l) = (scan q e l).map fun (b, after) => (e :: c :: b, after) := by
  simp [scan]

theorem scan_body (hqe : q ≠ e) (hb : b ∈ body q e) : scan q e (b ++ q :: rest) = some (b, rest) := by
  refine body_induction (motive := fun b => scan q e (b ++ q :: rest) = some (b, rest)) ?_ ?_ ?_ hb
  · rw [List.nil_append, scan_cons_ne hqe, if_pos rfl]
  · intro c b hq he _ ih
    rw [List.cons_append, scan_cons_ne he, if_neg hq, ih, Option.map_some]
  · intro c b _ ih
    rw [List.cons_append, List.cons_append, scan_escape, ih, Option.map_some]

/-- Two tokens that begin the same text are the same. -/
theorem token_unique (hqe : q ≠ e) (ht : t ∈ token q e) (ht' : t' ∈ token q e) (h : t ++ rest = t' ++ rest') :
    t = t' := by
  obtain ⟨b, hb, rfl⟩ := mem_token.mp ht
  obtain ⟨b', hb', rfl⟩ := mem_token.mp ht'
  simp only [List.cons_append, List.append_assoc, List.cons.injEq, true_and, List.nil_append] at h
  have hscan : scan q e (b ++ q :: rest) = some (b, rest) := scan_body hqe hb
  rw [h, scan_body hqe hb', Option.some.injEq, Prod.mk.injEq] at hscan
  rw [hscan.1]

end IrJit.Quoted
