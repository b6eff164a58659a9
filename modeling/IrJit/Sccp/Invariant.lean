import IrJit.Lib.Chase
import IrJit.Sccp.Exec

/-!
# Sccp.Invariant — what holds of a node that is not queued

`NodeOk` is the equation of one node over the lattice: what processing the node establishes, and
what stays true until one of its inputs changes.

* `Base`: facts about every state, queued nodes included: copies form a forest, values are of the
  kind of their node, counted inputs only become fewer.
-/

namespace IrJit.Sccp

/-! ### Equations -/

/-- The reference of an instruction that is TOP. -/
def IsTop (V : ℕ → Lat) (a : ℤ) : Prop := 0 < a ∧ V a.toNat = .top

/-- Control may pass from `p` to `c` as far as the lattice knows. -/
def FeasibleEdge (V : ℕ → Lat) (p c : ℕ) : Prop := V p ≠ .top ∧ ∀ u, V p = .out u → u = c

variable (G : Graph)

/-- The number of unreachable inputs is the recorded one. -/
def MergeRec (V : ℕ → Lat) (m : ℕ) : Prop :=
  (unfeasible G V m = 0 ∧ V m = .bottom) ∨ (unfeasible G V m ≠ 0 ∧ V m = .merge (unfeasible G V m))

/-- Some node tied to control is below `x`: the node is processed without being asked for. -/
def Graph.Anchored (x : ℕ) : Prop := ∃ y, G.Root x y

/-- The output of an IF or SWITCH with a constant condition. -/
def outputOf (i : ℕ) (c : Const) : Option ℕ :=
  if G.opOf i = .ifOp then some (ifOutput G i c) else switchOutput G i c

/-- The output recorded for an IF or SWITCH. -/
def BranchOk (V : ℕ → Lat) (i : ℕ) : Prop :=
  V i = .bottom ∨ ∃ c u, condConst G V (G.operand i 2) = some c ∧ outputOf G i c = some u ∧ V i = .out u

/-- A control node with a reachable control input, other than a block start. -/
structure CtrlOk (V : ℕ → Lat) (vis : ℕ → Bool) (i : ℕ) : Prop where
  branch : G.opOf i = .ifOp ∨ G.opOf i = .switch →
    (IsTop V (G.operand i 2) → vis (G.operand i 2).toNat = true) ∧
      (¬ IsTop V (G.operand i 2) → BranchOk G V i)
  other : G.opOf i ≠ .ifOp → G.opOf i ≠ .switch → V i = .bottom ∧
    (G.isDeadLoad i = false → ∀ a ∈ G.dataIns i, IsTop V a → vis a.toNat = true)

/-- A question about `opt` with operands `refs` whose constants are given by `view`. -/
def Query.Asks (q : Query) (opt : Opt) (refs : List ℤ) (view : ℤ → Option Const) : Prop :=
  q.opt = opt ∧ q.refs = refs ∧ q.consts = refs.map view

/-- A run of the restart loop. -/
inductive FoldRun (F : Folding) (view : ℤ → Option Const) : Opt → List ℤ → FoldAns → Prop
  | done {q : Query} {opt : Opt} {refs : List ℤ} {ans : FoldAns} (hq : q.Asks opt refs view)
      (h : F q = ans) : FoldRun F view opt refs ans
  | again {q : Query} {opt opt' : Opt} {refs : List ℤ} {a b c : ℤ} {ans : FoldAns}
      (hq : q.Asks opt refs view) (h : F q = .restart opt' a b c)
      (hrun : FoldRun F view opt' (opt'.refs a b c) ans) : FoldRun F view opt refs ans

/-- The identities of the operands of `i`. -/
def foldRefs (V : ℕ → Lat) (i : ℕ) : List ℤ := (G.dataIns i).map (identityRef G V)

/-- The constants of the operands of `i`, and no others. -/
def directView (V : ℕ → Lat) (i : ℕ) (r : ℤ) : Option Const :=
  if r ∈ foldRefs G V i then constOf V r else none

/-- The value of `i` agrees with an answer of `ir_folding`. -/
def AnsOk (V : ℕ → Lat) (i : ℕ) : FoldAns → Prop
  | .const c => V i = .const c
  | .copy r => (r < 0 ∧ V i = .const (G.const r)) ∨
      (0 < r ∧ ((r ∈ foldRefs G V i ∧ ∃ c, V r.toNat = .const c ∧ V i = .const c) ∨
        ((V r.toNat = .bottom ∨ ∃ z, V r.toNat = .copy z) ∧ (∃ y, V i = .copy y) ∧
          identity G V i = identity G V r.toNat)))
  | _ => False

/-- The value of a foldable node is what its operands give. -/
def FoldOk (F : Folding) (V : ℕ → Lat) (i : ℕ) : Prop :=
  ∃ ans, FoldRun F (directView G V i) (G.insn i).opt (foldRefs G V i) ans ∧ AnsOk G V i ans

/-- The constant of an operand. -/
def HasConst (V : ℕ → Lat) (a : ℤ) (c : Const) : Prop :=
  (a < 0 ∧ G.const a = c) ∨ (0 < a ∧ V a.toNat = .const c)

/-- An operand of a PHI has the value of the PHI. -/
def Agrees (V : ℕ → Lat) (i : ℕ) (a : ℤ) : Prop :=
  (∃ c, V i = .const c ∧ HasConst G V a c) ∨
    (0 < a ∧ (∃ y, V i = .copy y) ∧ (V a.toNat = .bottom ∨ ∃ z, V a.toNat = .copy z) ∧
      identity G V a.toNat = identity G V i)

/-- The operands of the reachable inputs of a PHI that is not BOTTOM. -/
def PhiOk (V : ℕ → Lat) (vis : ℕ → Bool) (i : ℕ) : Prop :=
  V i ≠ .bottom → MergeRec G V (G.operand i 1).toNat → ∀ a ∈ feasibleIns G V i,
    a = i ∨ (IsTop V a ∧ vis a.toNat = true) ∨ Agrees G V i a

/-- The node was asked for, or an input was processed. -/
def Active (V : ℕ → Lat) (vis : ℕ → Bool) (i : ℕ) : Prop :=
  vis i = true ∨ ∃ a ∈ G.inputs i, 0 < a ∧ V a.toNat ≠ .top

/-- **The equation of a node.** -/
structure NodeOk (F : Folding) (V : ℕ → Lat) (vis : ℕ → Bool) (i : ℕ) : Prop where
  start : i = 1 → V i = .bottom
  bbStart : (G.opOf i).isBbStart = true → G.isMerge i = false → ∀ p : ℕ, G.operand i 1 = p → 0 < p →
    FeasibleEdge V p i → V i = .bottom
  merge : G.isMerge i = true → (∃ a ∈ (G.insn i).ops, V a.toNat ≠ .top) → MergeRec G V i
  control : (G.opOf i).isControl = true → (G.opOf i).isBbStart = false →
    V (G.operand i 1).toNat ≠ .top → CtrlOk G V vis i
  foldTop : G.isFoldable i = true → G.useLists i ≠ [] → V i = .top → Active G V vis i →
    (∃ a ∈ G.dataIns i, IsTop V a) ∧ ∀ a ∈ G.dataIns i, IsTop V a → vis a.toNat = true
  foldVal : G.isFoldable i = true → G.useLists i ≠ [] → V i ≠ .top → V i ≠ .bottom → FoldOk G F V i
  leaf : G.isFloating i = true → G.isFoldable i = false → G.useLists i ≠ [] →
    (Active G V vis i → V i = .bottom) ∧
      (V i = .bottom → ∀ a ∈ G.dataIns i, IsTop V a → vis a.toNat = true)
  phi : G.isPhi i = true → G.useLists i ≠ [] → PhiOk G V vis i

/-! ### Every state -/

/-- Copies form a forest whose roots are BOTTOM. -/
structure Forest (V : ℕ → Lat) : Prop where
  target : ∀ x y, V x = .copy y → V y = .bottom ∨ ∃ z, V y = .copy z
  down : ∃ d : ℕ → ℕ, ∀ x y, V x = .copy y → d y < d x
  nop : ∀ x, G.opOf x = .nop → V x = .top

/-- Values are of the kind of their node. -/
structure Kinds (V : ℕ → Lat) : Prop where
  const : ∀ x c, V x = .const c → G.hasValue x = true
  copy : ∀ x y, V x = .copy y → G.hasValue x = true
  out : ∀ x u, V x = .out u → (G.opOf x = .ifOp ∨ G.opOf x = .switch) ∧ ¬ IsTop V (G.operand x 2) ∧
    ∀ c, condConst G V (G.operand x 2) = some c → outputOf G x c = some u
  merge : ∀ x n, V x = .merge n → G.isMerge x = true
  /-- the recorded number of unreachable inputs is not too small -/
  counted : ∀ m, G.isMerge m = true → (∀ n, V m = .merge n → unfeasible G V m ≤ n) ∧
    (V m = .bottom → unfeasible G V m = 0)
  /-- the operands of a folded node were processed before -/
  folded : ∀ x, G.isFoldable x = true → V x ≠ .top → ∀ a ∈ G.dataIns x, 0 < a → V a.toNat ≠ .top
  reached : ∀ x, (G.opOf x).isControl = true → (G.opOf x).isBbStart = false → V x ≠ .top →
    V (G.operand x 1).toNat ≠ .top

structure Base (st : State) : Prop where
  forest : Forest G st.values
  kinds : Kinds G st.values
  ring : ∀ x y, st.values x = .copy y → x ∈ st.ring (identity G st.values x)
  ringReal : ∀ r, ∀ m ∈ st.ring r, G.opOf m ≠ .nop
  queued : ∀ j, st.queue j = true → G.opOf j ≠ .nop ∧ ((G.opOf j).isData = true → st.values j ≠ .bottom)

/-- The invariant of `ir_sccp_analyze`, with exceptions. -/
structure Inv (F : Folding) (except : ℕ → Prop) (st : State) : Prop where
  base : Base G st
  ok : ∀ j, G.opOf j ≠ .nop → st.queue j = false → ¬ except j → NodeOk G F st.values st.visited j

end IrJit.Sccp
