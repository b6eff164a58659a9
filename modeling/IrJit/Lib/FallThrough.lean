import Mathlib.Data.List.Basic

/-!
# Lib.FallThrough — leaving a block of linear code

Linear code is a list of labels, bodies and jumps.  A body ends with conditional jumps, each taken along one of
the ways out, and perhaps a jump.  Where no jump is taken, control falls into what stands behind.
-/

namespace IrJit.FallThrough

variable {α : Type} [DecidableEq α]

/-- What linear code consists of.  `jcc e t` jumps to `t` when control leaves along `e`. -/
inductive Item (α : Type)
  | label (a : α)
  | entry (a : α)
  | body (a : α)
  | jcc (e t : α)
  | jmp (t : α)
  deriving DecidableEq

/-- Falling through from here, control comes to `t` and passes nothing but labels and bodies without code. -/
def passesTo (silent : α → Bool) (t : α) : List (Item α) → Bool
  | .label a :: rest => a == t || passesTo silent t rest
  | .body a :: rest => a == t || (silent a && passesTo silent t rest)
  | _ => false

/-- Leaving along `e` at this point of the code, control comes to `t`: it jumps to the label or falls through. -/
def leavesTo (silent : α → Bool) (code : List (Item α)) (e t : α) : List (Item α) → Bool
  | .jcc e' a :: rest => if e' = e then a == t && code.contains (.label t) else leavesTo silent code e t rest
  | .jmp a :: _ => a == t && code.contains (.label t)
  | rest => passesTo silent t rest

/-- What stands behind the body of `a`. -/
def afterBody (a : α) : List (Item α) → List (Item α)
  | [] => []
  | i :: rest => if i = .body a then rest else afterBody a rest

variable {silent : α → Bool} {code rest : List (Item α)} {a e t : α}

/-- The code starts with a label, an entry or a body: a jump belongs to what stands before. -/
def Starts : List (Item α) → Prop
  | .jcc _ _ :: _ | .jmp _ :: _ => False
  | _ => True

@[simp] theorem passesTo_nil : passesTo silent t [] = false := rfl

@[simp] theorem passesTo_label : passesTo silent t (.label a :: rest) = (a == t || passesTo silent t rest) := rfl

@[simp] theorem passesTo_body :
    passesTo silent t (.body a :: rest) = (a == t || (silent a && passesTo silent t rest)) := rfl

@[simp] theorem passesTo_entry : passesTo silent t (.entry a :: rest) = false := rfl

@[simp] theorem passesTo_jmp : passesTo silent t (.jmp a :: rest) = false := rfl

@[simp] theorem leavesTo_jmp :
    leavesTo silent code e t (.jmp a :: rest) = (a == t && code.contains (.label t)) := rfl

@[simp] theorem leavesTo_jcc {e' : α} : leavesTo silent code e t (.jcc e' a :: rest) =
    if e' = e then a == t && code.contains (.label t) else leavesTo silent code e t rest := rfl

theorem leavesTo_starts (h : Starts rest) : leavesTo silent code e t rest = passesTo silent t rest := by
  match rest, h with
  | [], _ => rfl
  | .label _ :: _, _ => rfl
  | .entry _ :: _, _ => rfl
  | .body _ :: _, _ => rfl

/-- A table of conditional jumps is left through the jump of the way taken. -/
theorem leavesTo_table (f : α → α) {l : List α} (h : e ∈ l) :
    leavesTo silent code e t (l.map (fun a => .jcc a (f a)) ++ rest)
      = (f e == t && code.contains (.label t)) := by
  induction l with
  | nil => simp at h
  | cons a l ih =>
    rw [List.map_cons, List.cons_append, leavesTo_jcc]
    by_cases hae : a = e
    · rw [if_pos hae, hae]
    · rw [if_neg hae]
      refine ih ?_
      rcases List.mem_cons.mp h with rfl | h
      · exact absurd rfl hae
      · exact h

theorem afterBody_skip {pre : List (Item α)} (h : Item.body a ∉ pre) :
    afterBody a (pre ++ rest) = afterBody a rest := by
  induction pre with
  | nil => rfl
  | cons i pre ih =>
    rw [List.mem_cons, not_or] at h
    rw [List.cons_append, afterBody, if_neg (Ne.symm h.1), ih h.2]

theorem afterBody_append {pre : List (Item α)} (h : Item.body a ∉ pre) :
    afterBody a (pre ++ .body a :: rest) = rest := by
  rw [afterBody_skip h, afterBody, if_pos rfl]

end IrJit.FallThrough
