import IrJit.Sccp.Analyze

/-!
# Sccp.Exec — executions of an IR graph

Control moves from node to node; data is evaluated where it is needed.  An environment holds the
values of the pinned nodes: a PHI gets its value when its merge is entered, a load, call or
allocation when it is executed (any value: memory and callees are not modelled).  All other data is
a function of its operands.
-/

namespace IrJit.Sccp

structure Val where
  type : IrType
  bits : BitVec 64
  deriving DecidableEq

/-- The meaning of opcodes and symbols. -/
structure Interp where
  sym : Const → Val
  /-- the address of a symbol is not null -/
  sym_true : ∀ c, Const.valIsTrue (sym c).type (sym c).bits = true
  /-- foldable opcodes -/
  op : Opt → List Val → Val
  /-- parameters, variables and other data that is not folded -/
  leaf : ℕ → List Val → Val

def Interp.den (I : Interp) (c : Const) : Val := if c.op.isSymConst then I.sym c else ⟨c.type, c.val⟩

variable (G : Graph) (I : Interp)

/-- The function that a floating node computes. -/
def meaning (x : ℕ) (vs : List Val) : Val :=
  if G.isFoldable x then I.op (G.insn x).opt vs else I.leaf x vs

/-- A node that holds its value in the environment. -/
def Graph.isPinned (x : ℕ) : Bool := G.isPhi x || (G.opOf x).isMem

/-- The value of a reference. -/
inductive Eval (env : ℕ → Val) : ℤ → Val → Prop
  | const {a : ℤ} (h : a < 0) : Eval env a (I.den (G.const a))
  | pinned {x : ℕ} (h : G.isPinned x = true) : Eval env x (env x)
  | float {x : ℕ} {vs : List Val} (h : G.isFloating x = true) (hlen : vs.length = (G.dataIns x).length)
      (hvs : ∀ p ∈ (G.dataIns x).zip vs, Eval env p.1 p.2) : Eval env x (meaning G I x vs)

/-- `c'` is the case through which a SWITCH `c` leaves with value `v`. -/
def CaseTaken (c c' : ℕ) (v : Val) : Prop :=
  caseMatches G v.type v.bits c' = true ∨
    (G.opOf c' = .caseDefault ∧ ∀ u ∈ G.useLists c, caseMatches G v.type v.bits u = false)

/-- Control may go from `c` to its successor `c'`. -/
def Leaves (env : ℕ → Val) (c c' : ℕ) : Prop :=
  (G.opOf c = .ifOp → ∃ v, Eval G I env (G.operand c 2) v ∧
    G.opOf c' = if Const.valIsTrue v.type v.bits then .ifTrue else .ifFalse) ∧
  (G.opOf c = .switch → ∃ v, Eval G I env (G.operand c 2) v ∧ c' ∈ G.useLists c ∧ CaseTaken G c c' v)

/-- `p` is a PHI of merge `m`. -/
def Graph.PhiOf (p m : ℕ) : Prop := G.isPhi p = true ∧ (G.operand p 1).toNat = m

/-- `c'` comes after `c`: as input `k` of a merge, or as the control input. -/
def Graph.Edge (c k c' : ℕ) : Prop :=
  (G.isMerge c' = true ∧ (G.insn c').ops[k]? = some (c : ℤ)) ∨
    ((G.opOf c').isControl = true ∧ G.isMerge c' = false ∧ c' ≠ 1 ∧ G.operand c' 1 = c ∧ k = 0)

structure Config where
  ctrl : ℕ
  env : ℕ → Val

/-- The environment after entering `c'` through input `k`. -/
def EnvStep (k c' : ℕ) (env env' : ℕ → Val) : Prop :=
  (∀ p, G.PhiOf p c' → G.isMerge c' = true → G.useLists p ≠ [] →
    ∃ a, (G.insn p).ops[k + 1]? = some a ∧ Eval G I env a (env' p)) ∧
  ∀ x, ¬ (G.isMerge c' = true ∧ G.PhiOf x c') → ¬ (x = c' ∧ (G.opOf c').isMem = true) → env' x = env x

structure Step (s : Config) (k : ℕ) (s' : Config) : Prop where
  edge : G.Edge s.ctrl k s'.ctrl
  leaves : Leaves G I s.env s.ctrl s'.ctrl
  env : EnvStep G I k s'.ctrl s.env s'.env

/-- The configurations of executions; they start at START. -/
inductive Reach : Config → Prop
  | start (env : ℕ → Val) : Reach ⟨1, env⟩
  | step {s s' : Config} {k : ℕ} (h : Reach s) (hstep : Step G I s k s') : Reach s'

/-- `y` is an operand that is evaluated with the floating node `x`. -/
def Graph.Operand (x y : ℕ) : Prop := G.isFloating x = true ∧ (y : ℤ) ∈ G.dataIns x

/-- `x` is a data operand of the control node that is executed, or the operand of a PHI with uses. -/
def Graph.UsedBy (k c' x : ℕ) : Prop :=
  (G.isMerge c' = false ∧ G.isDeadLoad c' = false ∧ (x : ℤ) ∈ G.dataIns c') ∨
    (G.isMerge c' = true ∧ ∃ p, G.PhiOf p c' ∧ G.useLists p ≠ [] ∧ (G.insn p).ops[k + 1]? = some (x : ℤ))

/-- `y` is evaluated when control enters `c'` through input `k`. -/
def Graph.Needed (k c' y : ℕ) : Prop :=
  0 < y ∧ ∃ x : ℕ, G.UsedBy k c' x ∧ Relation.ReflTransGen G.Operand x y

/-- The value of `x` is what the lattice says. -/
def ValueOk (V : ℕ → Lat) (env : ℕ → Val) (x : ℕ) : Prop :=
  V x ≠ .top ∧ (∀ c, V x = .const c → ∀ v, Eval G I env x v → v = I.den c) ∧
    ∀ z, V x = .copy z → ∀ v, Eval G I env x v → Eval G I env (identity G V x) v

/-- **The result of the analysis holds in every execution.** -/
structure Sound (V : ℕ → Lat) : Prop where
  /-- a control node that is TOP is not executed -/
  executed : ∀ s, Reach G I s → V s.ctrl ≠ .top
  /-- what is evaluated is not TOP, and has the constant or the value of what it copies -/
  needed : ∀ s k s', Reach G I s → Step G I s k s' → ∀ y, G.Needed k s'.ctrl y → ValueOk G I V s.env y
  /-- so has a PHI when its merge is entered -/
  phi : ∀ s k s', Reach G I s → Step G I s k s' → G.isMerge s'.ctrl = true → ∀ p, G.PhiOf p s'.ctrl →
    G.useLists p ≠ [] → ValueOk G I V s'.env p
  /-- an IF or SWITCH leaves through the single output -/
  output : ∀ s k s' u, Reach G I s → Step G I s k s' → V s.ctrl = .out u → s'.ctrl = u
  /-- only feasible inputs of a merge are taken -/
  feasible : ∀ s k s', Reach G I s → Step G I s k s' → G.isMerge s'.ctrl = true →
    V s.ctrl ≠ .top ∧ (V s'.ctrl = .bottom ∧ unfeasible G V s'.ctrl = 0 ∨
      V s'.ctrl = .merge (unfeasible G V s'.ctrl))

/-! ### Folding preserves values -/

/-- The operands that an opcode reads, among three. -/
def Opt.refs (opt : Opt) (a b c : ℤ) : List ℤ := [a, b, c].take (dataCount opt.op)

/-- The values of the operands. -/
def EvalAll (env : ℕ → Val) (l : List ℤ) (vs : List Val) : Prop :=
  vs.length = l.length ∧ ∀ p ∈ l.zip vs, Eval G I env p.1 p.2

/-- `y` is an operand of the foldable node `x`. -/
def Graph.FoldOperand (x y : ℕ) : Prop := G.isFoldable x = true ∧ (y : ℤ) ∈ G.dataIns x

/-- The operands that the opcode of a question reads. -/
def Query.refs (q : Query) : List ℤ := q.opt.refs q.op1 q.op2 q.op3

/-- Their constants. -/
def Query.consts (q : Query) : List (Option Const) := [q.c1, q.c2, q.c3].take (dataCount q.opt.op)

/-- `r` is a constant, an operand of the question, or a part of one that is no constant. -/
def Query.Part (q : Query) (r : ℤ) : Prop :=
  r < 0 ∨ ∃ p ∈ q.refs.zip q.consts, r = p.1 ∨
    (p.2 = none ∧ 0 < p.1 ∧ 0 < r ∧ Relation.ReflTransGen G.FoldOperand p.1.toNat r.toNat)

/-- The constants of a question are the values of the operands. -/
def Query.Fits (q : Query) (env : ℕ → Val) : Prop :=
  ∀ p ∈ q.refs.zip q.consts, ∀ c, p.2 = some c → ∀ v, Eval G I env p.1 v → v = I.den c

/-- Every answer of `ir_folding` is made of parts of the question and preserves its value. -/
structure FoldSound (F : Folding) : Prop where
  const : ∀ q c, F q = .const c → ∀ env vs, q.Fits G I env → EvalAll G I env q.refs vs →
    I.op q.opt vs = I.den c
  copy : ∀ q r, F q = .copy r → q.Part G r ∧ ∀ env vs, q.Fits G I env → EvalAll G I env q.refs vs →
    Eval G I env r (I.op q.opt vs)
  restart : ∀ q opt a b c, F q = .restart opt a b c → (∀ r ∈ opt.refs a b c, q.Part G r) ∧
    ∀ env vs, q.Fits G I env → EvalAll G I env q.refs vs →
      ∃ vs', EvalAll G I env (opt.refs a b c) vs' ∧ I.op opt vs' = I.op q.opt vs

/-! ### Well-formed graphs -/

/-- The control node at which `y` gets its value: `y` itself if it is a control node. -/
def Graph.pin (y : ℕ) : ℕ := if (G.opOf y).isData then (G.operand y 1).toNat else y

/-- `x` is computed from `y`, which is tied to a control node. -/
def Graph.Root (x y : ℕ) : Prop :=
  Relation.ReflTransGen G.Operand x y ∧ (G.opOf y).hasControlInput = true

/-- All that `x` is computed from is on the path. -/
def Graph.Has (π : List ℕ) (x : ℕ) : Prop := ∀ y, G.Root x y → G.pin y ∈ π

/-- Control paths from START, the last node first. -/
inductive Graph.Path : List ℕ → Prop
  | start : Path [1]
  | step {p k c : ℕ} {π : List ℕ} (h : Path (p :: π)) (hedge : G.Edge p k c) : Path (c :: p :: π)

/-- A graph in SSA form with its use lists. -/
structure Wf (G : Graph) : Prop where
  start : G.opOf 1 = .start
  start_unique : ∀ x, G.opOf x = .start → x = 1
  range : ∀ x, G.opOf x ≠ .nop → 0 < x ∧ x < G.insnsCount
  /-- use lists are the inverse of the edges -/
  uses : ∀ x j : ℕ, 0 < x → (j ∈ G.useLists x ↔ G.opOf j ≠ .nop ∧ (x : ℤ) ∈ G.inputs j)
  inputs_range : ∀ x, ∀ a ∈ G.inputs x, 0 < a → G.opOf a.toNat ≠ .nop
  /-- the number of operands -/
  ops_len : ∀ x, (G.opOf x).hasVarInputs = false → 3 ≤ (G.insn x).ops.length
  control_in : ∀ x, (G.opOf x).isControl = true → x ≠ 1 → G.inputs x ≠ []
  merge_ops : ∀ m, G.isMerge m = true → ∀ a ∈ (G.insn m).ops, 0 < a ∧
    (G.opOf a.toNat).isControl = true ∧ (G.opOf a.toNat).isBbStart = false
  phi_merge : ∀ p, G.isPhi p = true → 0 < G.operand p 1 ∧ G.isMerge (G.operand p 1).toNat = true ∧
    (G.insn p).ops.length = (G.insn (G.operand p 1).toNat).ops.length + 1
  /-- data operands are data or the results of loads and calls -/
  data_ops : ∀ x, ∀ a ∈ G.dataIns x, 0 < a →
    (G.opOf a.toNat).isData = true ∨ (G.opOf a.toNat).isMem = true
  data_zero : ∀ x, (G.opOf x).isData = true → ∀ a ∈ G.dataIns x, a ≠ 0
  /-- the values of cases are constants -/
  start_ops : ∀ x, (G.opOf x).isBbStart = true → ∀ a ∈ G.dataIns x, a < 0
  pinned_in : ∀ x, (G.opOf x).cls = .pinned → 0 < G.operand x 1
  if_uses : ∀ i, G.opOf i = .ifOp → ∃ t f, (G.useLists i = [t, f] ∨ G.useLists i = [f, t]) ∧
    G.opOf t = .ifTrue ∧ G.opOf f = .ifFalse
  cond : ∀ i, G.opOf i = .ifOp ∨ G.opOf i = .switch → G.operand i 2 ≠ 0
  switch_cond : ∀ i, G.opOf i = .switch → G.operand i 2 < 0 →
    (G.const (G.operand i 2)).op.isSymConst = false
  switch_cases : ∀ i, G.opOf i = .switch → ∀ u ∈ G.useLists i,
    G.opOf u = .caseVal ∨ G.opOf u = .caseRange ∨ G.opOf u = .caseDefault
  /-- at most one case holds a value, and there is at most one default -/
  switch_uses : ∀ i, G.opOf i = .switch → ∀ u ∈ G.useLists i, ∀ u' ∈ G.useLists i,
    (∀ type v, caseMatches G type v u = true → caseMatches G type v u' = true → u = u') ∧
      (G.opOf u = .caseDefault → G.opOf u' = .caseDefault → u = u')
  /-- no floating node is computed from itself -/
  rank : ∃ r : ℕ → ℕ, ∀ x y, G.Operand x y → G.isFloating y = true → r y < r x
  /-- definitions dominate uses -/
  dom_use : ∀ p π c (x : ℕ), G.Path (p :: π) → G.Edge p 0 c → G.isMerge c = false → (x : ℤ) ∈ G.dataIns c →
    G.Has (p :: π) x
  dom_phi : ∀ p π m k φ (x : ℕ), G.Path (p :: π) → G.Edge p k m → G.isMerge m = true → G.PhiOf φ m →
    (G.insn φ).ops[k + 1]? = some (x : ℤ) → G.Has (p :: π) x

end IrJit.Sccp
