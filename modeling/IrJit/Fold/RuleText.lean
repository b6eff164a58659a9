import IrJit.Fold.HashSearch

/-!
# Fold.RuleText — the keys of the rules in `ir_fold.h` (`gen_ir_fold_hash.c`, 132–239 and 241–305)

A pointer into a line is the rest of the line from there on; `findOp` is the table of the names of opcodes.
Whatever table is printed, it leads `ir_folding` to no other rule (`tried_rules_fit`).
-/

namespace IrJit.FoldHash

section Parse

variable (findOp : List Char → Option (BitVec 7))

/-- A blank or a tabulator. -/
def isBlank (c : Char) : Bool := c = ' ' || c = '\t'

def isUpper (c : Char) : Bool := 'A' ≤ c && c ≤ 'Z'

/-- A character of a name behind the first. -/
def isNameChar (c : Char) : Bool := isUpper c || ('0' ≤ c && c ≤ '9') || c = '_'

def skipBlanks (p : List Char) : List Char := p.dropWhile isBlank

/-- The name at `p`, its opcode, and what follows; the length of a name is passed as a `uint8_t`. -/
def parseName : List Char → Option (BitVec 7 × List Char)
  | [] => none
  | c :: rest =>
    if isUpper c then
      let name := c :: rest.takeWhile isNameChar
      (findOp (name.take (name.length % 256))).map fun op => (op, rest.dropWhile isNameChar)
    else none

/-- An operand of a pattern: `_`, or a name. -/
def parseOperand : List Char → Option (BitVec 7 × List Char)
  | '_' :: q => some (0, q)
  | p => parseName findOp p

/-- The end of a pattern with two operands. -/
def parseEnd (mask : BitVec 32) (q : List Char) : Option (BitVec 32) :=
  match skipBlanks q with
  | ')' :: q =>
    match skipBlanks q with
    | ')' :: _ => some mask
    | _ => none
  | _ => none

/-- Behind the first operand. -/
def parseSecond (mask : BitVec 32) (q : List Char) : Option (BitVec 32) :=
  match skipBlanks q with
  | ')' :: _ => some mask -- "unused op2"
  | ',' :: p => (parseOperand findOp (skipBlanks p)).bind fun (op, q) => parseEnd (mask ||| op.setWidth 32 <<< 14) q
  | _ => none

/-- Behind the opcode. -/
def parseOperands (mask : BitVec 32) (q : List Char) : Option (BitVec 32) :=
  match skipBlanks q with
  | ')' :: _ => some mask -- "unused operands"
  | '(' :: p =>
    (parseOperand findOp (skipBlanks p)).bind fun (op, q) => parseSecond findOp (mask ||| op.setWidth 32 <<< 7) q
  | _ => none

/-- `parse_rule`. -/
def parseRule (buf : List Char) : BitVec 32 :=
  ((parseName findOp (skipBlanks (buf.drop 8))).bind fun (op, q) => parseOperands findOp (op.setWidth 32) q).getD 0

/-- The loop of `main` over the lines, behind the rules that it has read; nothing when it ends with an error. -/
def keysOf (rules : List (BitVec 32)) : List (List Char) → Option (List (BitVec 32))
  | [] => some rules
  | line :: lines =>
    if "IR_FOLD(".toList <+: line then
      if rules.length ≥ maxRules then none
      else if parseRule findOp line = 0 then none
      else keysOf (rules ++ [parseRule findOp line]) lines
    else keysOf rules lines

end Parse

section Keys

variable {findOp : List Char → Option (BitVec 7)} {rules keys : List (BitVec 32)}

theorem ruleKey_zero (op : BitVec 7) : ruleKey op 0 0 = op.setWidth 32 := by
  have h7 : (0 : BitVec 7).setWidth 32 <<< 7 = 0#32 := by decide
  have h14 : (0 : BitVec 7).setWidth 32 <<< 14 = 0#32 := by decide
  rw [ruleKey, h7, h14, BitVec.or_zero, BitVec.or_zero]

theorem ruleKey_or_first (op op1 : BitVec 7) :
    op.setWidth 32 ||| op1.setWidth 32 <<< 7 = ruleKey op op1 0 := by
  have h14 : (0 : BitVec 7).setWidth 32 <<< 14 = 0#32 := by decide
  rw [ruleKey, h14, BitVec.or_zero]

theorem parseEnd_eq {mask key : BitVec 32} {q : List Char} (h : parseEnd mask q = some key) : key = mask := by
  unfold parseEnd at h
  split at h
  · split at h
    · exact (Option.some.inj h).symm
    · exact absurd h (by simp)
  · exact absurd h (by simp)

theorem parseSecond_eq {op op1 : BitVec 7} {key : BitVec 32} {q : List Char}
    (h : parseSecond findOp (ruleKey op op1 0) q = some key) : ∃ op2, key = ruleKey op op1 op2 := by
  unfold parseSecond at h
  split at h
  · exact ⟨0, (Option.some.inj h).symm⟩
  · obtain ⟨⟨op2, q⟩, -, hend⟩ := Option.bind_eq_some_iff.1 h
    refine ⟨op2, (parseEnd_eq hend).trans ?_⟩
    rw [← ruleKey_or_first]
    rfl
  · exact absurd h (by simp)

theorem parseOperands_eq {op : BitVec 7} {key : BitVec 32} {q : List Char}
    (h : parseOperands findOp (op.setWidth 32) q = some key) : ∃ op1 op2, key = ruleKey op op1 op2 := by
  unfold parseOperands at h
  split at h
  · exact ⟨0, 0, (Option.some.inj h).symm.trans (ruleKey_zero op).symm⟩
  · obtain ⟨⟨op1, q⟩, -, hsecond⟩ := Option.bind_eq_some_iff.1 h
    dsimp only at hsecond
    rw [ruleKey_or_first] at hsecond
    exact ⟨op1, parseSecond_eq hsecond⟩
  · exact absurd h (by simp)

/-- A pattern has the key of its opcodes. -/
theorem parseRule_eq {buf : List Char} (h : parseRule findOp buf ≠ 0) :
    ∃ op op1 op2, parseRule findOp buf = ruleKey op op1 op2 := by
  unfold parseRule at h ⊢
  cases hparse : (parseName findOp (skipBlanks (buf.drop 8))).bind fun (op, q) =>
      parseOperands findOp (op.setWidth 32) q with
  | none =>
    rw [hparse] at h
    exact absurd rfl h
  | some key =>
    obtain ⟨⟨op, q⟩, -, hoperands⟩ := Option.bind_eq_some_iff.1 hparse
    exact ⟨op, parseOperands_eq hoperands⟩

/-- The keys that `main` reads are not zero and have 21 bits, and there are not too many. -/
theorem keysOf_checked {lines : List (List Char)} (h : keysOf findOp rules lines = some keys)
    (hlen : rules.length ≤ maxRules) (hrules : ∀ k ∈ rules, k ≠ 0 ∧ k.toNat < 2 ^ 21) :
    keys.length ≤ maxRules ∧ ∀ k ∈ keys, k ≠ 0 ∧ k.toNat < 2 ^ 21 := by
  induction lines generalizing rules with
  | nil =>
    obtain rfl := Option.some.inj h
    exact ⟨hlen, hrules⟩
  | cons line lines ih =>
    rw [keysOf] at h
    split_ifs at h with hrule hfull hzero
    · refine ih h ?_ fun k hk => ?_
      · rw [List.length_append, List.length_singleton]
        omega
      · rcases List.mem_append.1 hk with hk | hk
        · exact hrules k hk
        · obtain rfl := List.mem_singleton.1 hk
          obtain ⟨op, op1, op2, hkey⟩ := parseRule_eq hzero
          exact ⟨hzero, hkey ▸ ruleKey_lt op op1 op2⟩
    · exact ih h hlen hrules

/-- What `main` checks is what the search needs, if no two patterns are the same. -/
theorem keys_of_lines {lines : List (List Char)} (h : keysOf findOp [] lines = some keys) (hnodup : keys.Nodup) :
    Keys keys := by
  obtain ⟨hlen, hkeys⟩ := keysOf_checked h (Nat.zero_le _) fun k hk => absurd hk List.not_mem_nil
  exact ⟨hlen, fun k hk => (hkeys k hk).1, fun k hk => (hkeys k hk).2, hnodup⟩

end Keys

section Lookup

variable {findOp : List Char → Option (BitVec 7)} {keys : List (BitVec 32)} {H : Header}
  {S S' : TwoSlot.Slots (BitVec 32)} {op op1 op2 : BitVec 7} {leaves : ℕ → Bool}

/-- The pattern of rule `i` fits the opcodes. -/
def RuleFits (keys : List (BitVec 32)) (op op1 op2 : BitVec 7) (i : ℕ) : Prop :=
  ∃ keep1 keep2 : Bool, keys[i]? = some (ruleKey op (if keep1 then op1 else 0) (if keep2 then op2 else 0))

theorem ruleKey_ne_zero (hop : op ≠ 0) : ruleKey op op1 op2 ≠ 0 := by
  intro h
  refine hop (BitVec.eq_of_getLsbD_eq fun i hi => ?_)
  have hbit := getLsbD_ruleKey op op1 op2 i
  have h7 : ¬7 ≤ i := by omega
  have h14 : ¬14 ≤ i := by omega
  have h32 : i < 32 := by omega
  rw [h] at hbit
  simpa [h7, h14, h32] using hbit.symm

/-- One round of the loop of `ir_folding`. -/
theorem tried_step {any : BitVec 32} {rounds : ℕ} (K : Keys keys) (T : Succeeds (masksOf keys) H S S') (hop : op ≠ 0)
    (keep1 keep2 : Bool) (hmask : ∀ i < 32, any.getLsbD i =
      (decide (i < 7) || keep1 && decide (7 ≤ i ∧ i < 14) || keep2 && decide (14 ≤ i ∧ i < 21)))
    (hrest : any = 0x7f ∨ ∃ rules, tried H leaves (ruleKey op op1 op2) rounds (nextMask any) = some rules ∧
      ∀ i ∈ rules, RuleFits keys op op1 op2 i) :
    ∃ rules, tried H leaves (ruleKey op op1 op2) (rounds + 1) any = some rules ∧
      ∀ i ∈ rules, RuleFits keys op op1 op2 i := by
  obtain ⟨rule, hrule⟩ : ∃ rule, H.find (ruleKey op op1 op2 &&& any) = some rule := ⟨_, T.find_eq⟩
  have hfits : ∀ i ∈ rule.toList, RuleFits keys op op1 op2 i := by
    intro i hi
    rw [Option.mem_toList.1 hi, ruleKey_and op op1 op2 keep1 keep2 hmask] at hrule
    exact ⟨keep1, keep2, key_of_find K T (ruleKey_ne_zero hop) hrule⟩
  rw [tried, hrule]
  dsimp only [Option.bind_some]
  split_ifs with hleaves hlast
  · exact ⟨_, rfl, hfits⟩
  · exact ⟨_, rfl, hfits⟩
  · obtain ⟨rules, htried, hall⟩ := hrest.resolve_left hlast
    rw [htried]
    exact ⟨_, rfl, List.forall_mem_append.2 ⟨hfits, hall⟩⟩

/-- Whatever table is printed for a text with different patterns, `ir_folding` reads no entry outside of it and tries
no rule whose pattern does not fit. -/
theorem tried_rules_fit (stack : ℕ → BitVec 32) {lines : List (List Char)} (h : keysOf findOp [] lines = some keys)
    (hnodup : keys.Nodup) (hfind : findHash stack (masksOf keys) = some H) (hop : op ≠ 0) :
    ∃ rules, tried H leaves (foldingKey op op1 op2) 4 0x1fffff = some rules ∧
      ∀ i ∈ rules, RuleFits keys op op1 op2 i := by
  have K := keys_of_lines h hnodup
  obtain ⟨S, S', T⟩ := findHash_cases hfind
  rw [foldingKey_eq]
  refine tried_step K T hop true true (by decide) (Or.inr ?_)
  refine tried_step K T hop false true (by decide) (Or.inr ?_)
  refine tried_step K T hop true false (by decide) (Or.inr ?_)
  exact tried_step K T hop false false (by decide) (Or.inl rfl)

/-- One rule, and 6 for every name. -/
theorem tried_rules_fit_neg : ∃ rules, tried ⟨[0x306, 0], false, 0, 0, 1⟩ (fun _ => false) (foldingKey 6 6 0) 4 0x1fffff =
    some rules ∧ ∀ i ∈ rules, RuleFits [0x306] 6 6 0 i :=
  tried_rules_fit (fun _ => 0)
    (show keysOf (fun _ => some 6) [] ["IR_FOLD(NEG(NEG))".toList] = some [0x306] by decide)
    (by decide) (findHash_first (by decide) rfl) (by decide)

end Lookup

end IrJit.FoldHash
