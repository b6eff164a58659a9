import IrJit.Lib.Rings
import IrJit.Sccp.Frame

/-!
# Sccp.Copies — the lists of copies in `_values` (`ir_sccp.c`)

`_values` with its storage: `copy` is also `visited`, and the two halves of a constant are also `next` and
`prev`.  A value that is overwritten leaves its bits behind, and the next level reads them.
-/

namespace IrJit.Sccp

/-- `optx` of a value. -/
inductive Level
  | top
  | const (op : IrOp) (type : IrType)
  | copy
  | bottom
  deriving DecidableEq, Repr

/-- `_values` and the worklist. -/
structure Slots where
  level : ℕ → Level
  /-- `copy`, for TOP `visited` -/
  copy : ℕ → ℕ
  /-- `next`, for a constant the low half of `val` -/
  next : ℕ → ℕ
  /-- `prev`, for a constant the high half of `val` -/
  prev : ℕ → ℕ
  queue : ℕ → Bool

/-- `val` from its halves. -/
def loHi (lo hi : ℕ) : BitVec 64 := BitVec.ofNat 64 (lo + 2 ^ 32 * hi)

theorem loHi_halves (v : BitVec 64) : loHi (v.toNat % 2 ^ 32) (v.toNat / 2 ^ 32) = v := by
  rw [loHi, Nat.mod_add_div, BitVec.ofNat_toNat, BitVec.setWidth_eq]

namespace Slots

variable (G : Graph) (s : Slots)

/-- What a value says. -/
def lat (x : ℕ) : Lat :=
  match s.level x with
  | .top => .top
  | .const op type => .const ⟨op, type, loHi (s.next x) (s.prev x)⟩
  | .copy => .copy (s.copy x)
  | .bottom => .bottom

def setLevel (x : ℕ) (l : Level) : Slots := { s with level := Function.update s.level x l }

def setCopy (x y : ℕ) : Slots := { s with copy := Function.update s.copy x y }

def setNext (x y : ℕ) : Slots := { s with next := Function.update s.next x y }

def setPrev (x y : ℕ) : Slots := { s with prev := Function.update s.prev x y }

/-- `ir_bitqueue_add`. -/
def enqueue (l : List ℕ) : Slots := { s with queue := fun j => s.queue j || decide (j ∈ l) }

/-- `ir_sccp_add_uses`. -/
def addUses (x : ℕ) : Slots := s.enqueue ((G.useLists x).filter fun use => s.level use ≠ .bottom)

/-- `ir_sccp_add_input`. -/
def addInput (x : ℕ) : Slots := if s.copy x = 0 then (s.setCopy x 1).enqueue [x] else s

/-- `_values[prev].next = next; _values[next].prev = prev`. -/
def join (prev next : ℕ) : Slots := (s.setNext prev next).setPrev next prev

/-- The start of an empty list for `src`. -/
def initList (src : ℕ) : Slots :=
  if s.copy src = src then s else ((s.setCopy src src).setNext src src).setPrev src src

/-- The end of `ir_sccp_add_identity`: `dst` is inserted before `src`. -/
def insertBefore (src dst : ℕ) : Slots :=
  let prev := s.prev src
  (((s.setNext dst src).setPrev dst prev).setPrev src dst).setNext prev dst

/-- `ir_sccp_add_identity`. -/
def addIdentity (src dst : ℕ) : Slots :=
  let s₁ := (s.setLevel dst .copy).setCopy dst src
  if s₁.level src = .bottom then (s₁.initList src).insertBefore src dst
  else s₁.insertBefore (identity G s₁.lat src) dst

/-- A member of the class is met: it is queued, and its uses. -/
def visit (member : ℕ) : Slots :=
  (if s.level member ≠ .bottom then s.enqueue [member] else s).addUses G member

/-- The loop of `ir_sccp_split_partition` from `member`; the second list is given by head and tail. -/
def splitLoop (ref : ℕ) : ℕ → Slots → Option (ℕ × ℕ) → ℕ → Option (Slots × Option (ℕ × ℕ))
  | 0, s, chain, member => if member = ref then some (s, chain) else none
  | fuel + 1, s, chain, member =>
    if member = ref then some (s, chain)
    else
      let s₁ := s.visit G member
      let next := s₁.next member
      if identity G s₁.lat member = ref then
        let s₂ := s₁.join (s₁.prev member) next
        match chain with
        | none => splitLoop ref fuel s₂ (some (member, member)) next
        | some (head, tail) => splitLoop ref fuel (s₂.join tail member) (some (head, member)) next
      else splitLoop ref fuel s₁ chain next

/-- The end of `ir_sccp_split_partition`: `ref` is the start of the second list. -/
def close (ref : ℕ) : Option (ℕ × ℕ) → Slots
  | some (head, tail) => (((s.setNext ref head).setPrev ref tail).setNext tail ref).setPrev head ref
  | none => (s.setNext ref ref).setPrev ref ref

/-- `ir_sccp_split_partition`; `none` is a walk that does not come back. -/
def splitPartition (ref : ℕ) : Option Slots :=
  let s₁ := (s.setLevel ref .bottom).setCopy ref ref
  (splitLoop G ref G.insnsCount s₁ none (s₁.next ref)).map fun (s₂, chain) =>
    (s₂.join (s₂.prev ref) (s₂.next ref)).close ref chain

/-- `ir_sccp_make_bottom_ex`. -/
def makeBottomEx (ref : ℕ) : Option Slots :=
  if s.level ref = .copy then s.splitPartition G ref else some (s.setLevel ref .bottom)

/-- `ir_sccp_meet_const`. -/
def meetConst (ref : ℕ) (c : Const) : Option (Slots × Bool) :=
  if s.level ref = .top then
    some (((s.setLevel ref (.const c.op c.type)).setNext ref (c.val.toNat % 2 ^ 32)).setPrev ref
      (c.val.toNat / 2 ^ 32), true)
  else if s.level ref = .const c.op c.type ∧ loHi (s.next ref) (s.prev ref) = c.val then some (s, false)
  else (s.makeBottomEx G ref).map fun s' => (s', true)

/-- `ir_sccp_meet_copy`. -/
def meetCopy (ref val : ℕ) : Option (Slots × Bool) :=
  if s.level ref = .copy then
    if identity G s.lat ref = identity G s.lat val then some (s, false)
    else (s.splitPartition G ref).map fun s' => (s', true)
  else some (s.addIdentity G val ref, true)

end Slots

/-! ### Pointers and levels -/

namespace Slots

variable {G : Graph} {s s' : Slots}

theorem lat_bottom {x : ℕ} : s.lat x = .bottom ↔ s.level x = .bottom := by
  unfold lat
  split <;> rename_i h <;> simp [h]

theorem lat_copy {x y : ℕ} : s.lat x = .copy y ↔ s.level x = .copy ∧ s.copy x = y := by
  unfold lat
  split <;> rename_i h <;> simp [h]

theorem lat_top {x : ℕ} : s.lat x = .top ↔ s.level x = .top := by
  unfold lat
  split <;> rename_i h <;> simp [h]

/-- The next and previous ones are read of constants only. -/
theorem lat_congr {x : ℕ} (hl : s'.level x = s.level x) (hc : s'.copy x = s.copy x)
    (hp : (∃ op type, s.level x = .const op type) → s'.next x = s.next x ∧ s'.prev x = s.prev x) :
    s'.lat x = s.lat x := by
  unfold lat
  rw [hl, hc]
  split
  · rfl
  · rename_i op type h
    obtain ⟨hn, hp⟩ := hp ⟨op, type, h⟩
    rw [hn, hp]
  · rfl
  · rfl

theorem follow_lat (x : ℕ) : follow s.lat x = if s.level x = .copy then s.copy x else x := by
  by_cases h : s.level x = .copy
  · rw [if_pos h]
    exact follow_copy (lat_copy.mpr ⟨h, rfl⟩)
  · rw [if_neg h]
    exact follow_eq_self fun y hy => h (lat_copy.mp hy).1

/-- The pointers of the lists have no part in the identities. -/
theorem identity_congr (hl : s'.level = s.level) (hc : s'.copy = s.copy) :
    identity G s'.lat = identity G s.lat := by
  have hf : follow s'.lat = follow s.lat := by
    funext x
    rw [follow_lat, follow_lat, hl, hc]
  funext x
  unfold identity
  rw [hf]

theorem visit_level (m : ℕ) : (s.visit G m).level = s.level := by
  unfold visit
  split <;> rfl

theorem visit_copy (m : ℕ) : (s.visit G m).copy = s.copy := by
  unfold visit
  split <;> rfl

theorem visit_next (m : ℕ) : (s.visit G m).next = s.next := by
  unfold visit
  split <;> rfl

theorem visit_prev (m : ℕ) : (s.visit G m).prev = s.prev := by
  unfold visit
  split <;> rfl

theorem visit_queue (m j : ℕ) : (s.visit G m).queue j = true ↔
    s.queue j = true ∨ (s.level j ≠ .bottom ∧ (j = m ∨ j ∈ G.useLists m)) := by
  unfold visit
  split <;> rename_i hb <;> simp only [addUses, enqueue, Bool.or_eq_true, decide_eq_true_eq, List.mem_singleton,
    List.mem_filter, ne_eq]
  · constructor
    · rintro ((h | rfl) | ⟨hu, hj⟩)
      · exact Or.inl h
      · exact Or.inr ⟨hb, Or.inl rfl⟩
      · exact Or.inr ⟨hj, Or.inr hu⟩
    · rintro (h | ⟨hj, rfl | hu⟩)
      · exact Or.inl (Or.inl h)
      · exact Or.inl (Or.inr rfl)
      · exact Or.inr ⟨hu, hj⟩
  · constructor
    · rintro (h | ⟨hu, hj⟩)
      · exact Or.inl h
      · exact Or.inr ⟨hj, Or.inr hu⟩
    · rintro (h | ⟨hj, rfl | hu⟩)
      · exact Or.inl h
      · exact absurd hj hb
      · exact Or.inr ⟨hu, hj⟩

@[simp] theorem join_next (p n : ℕ) : (s.join p n).next = Function.update s.next p n := rfl

@[simp] theorem join_prev (p n : ℕ) : (s.join p n).prev = Function.update s.prev n p := rfl

/-- The members that were moved, from head to tail. -/
def Chain (next prev : ℕ → ℕ) : Option (ℕ × ℕ) → List ℕ → Prop
  | none, l => l = []
  | some (head, tail), l => ∃ body, l = body ++ [tail] ∧ Seg next prev head body tail

/-- What the walk over `l` leaves as it is, and what it queues. -/
structure Walked (G : Graph) (s s' : Slots) (l : List ℕ) : Prop where
  level : s'.level = s.level
  copy : s'.copy = s.copy
  queue : ∀ j, s'.queue j = true ↔ s.queue j = true ∨ (s.level j ≠ .bottom ∧ ∃ m ∈ l, j = m ∨ j ∈ G.useLists m)

/-- The members for which the copies lead to `ref`. -/
def moves (G : Graph) (s : Slots) (ref m : ℕ) : Bool := identity G s.lat m = ref

theorem Walked.cons {m : ℕ} {l : List ℕ} {s₁ s₂ : Slots} (hl : s₁.level = s.level) (hc : s₁.copy = s.copy)
    (hq : s₁.queue = (s.visit G m).queue) (h : Walked G s₁ s₂ l) : Walked G s s₂ (m :: l) where
  level := h.level.trans hl
  copy := h.copy.trans hc
  queue j := by
    rw [h.queue, hq, visit_queue, hl]
    constructor
    · rintro ((h | ⟨hj, h⟩) | ⟨hj, m', hm', h⟩)
      · exact Or.inl h
      · exact Or.inr ⟨hj, m, List.mem_cons_self, h⟩
      · exact Or.inr ⟨hj, m', List.mem_cons_of_mem m hm', h⟩
    · rintro (h | ⟨hj, m', hm', h⟩)
      · exact Or.inl (Or.inl h)
      · rcases List.mem_cons.mp hm' with rfl | hm'
        · exact Or.inl (Or.inr ⟨hj, h⟩)
        · exact Or.inr ⟨hj, m', hm', h⟩

/-- A member leaves the old list. -/
theorem unlink {ref m : ℕ} {kept rest : List ℕ} (R : Ring s.next s.prev (ref :: (kept ++ m :: rest)))
    (hnodup : (ref :: (kept ++ m :: rest)).Nodup) :
    Ring (s.join (s.prev m) (s.next m)).next (s.join (s.prev m) (s.next m)).prev (ref :: (kept ++ rest)) ∧
      s.prev m ∈ ref :: kept ∧ s.next m = rest.head?.getD ref := by
  have hprev : s.prev m ∈ ref :: kept := by
    have hrot := R.rotate (p := ref :: kept) (List.cons_ne_nil m rest)
    obtain ⟨l, y, hl⟩ : ∃ l y, ref :: kept = l ++ [y] :=
      ⟨_, _, (List.dropLast_append_getLast (List.cons_ne_nil ref kept)).symm⟩
    have hlast : m :: (rest ++ ref :: kept) = (m :: (rest ++ l)) ++ [y] := by rw [hl]; simp
    rw [(hrot.last hlast).2, hl]
    simp
  have hnext : s.next m = rest.head?.getD ref := by
    obtain ⟨_, _, rfl, _, hrest⟩ := (R.seg.split (p := ref :: kept))
    rcases rest with _ | ⟨y, rest⟩
    · exact hrest
    · exact hrest.1
  refine ⟨?_, hprev, hnext⟩
  refine R.remove (p := ref :: kept) hnodup (List.cons_ne_nil ref kept) (fun w _ hw => ?_) (fun w _ hw => ?_) ?_ ?_
  · exact Function.update_of_ne hw _ _
  · exact Function.update_of_ne hw _ _
  · exact Function.update_self ..
  · exact Function.update_self ..

/-- Changes outside of a chain do not matter to it. -/
theorem Chain.congr {next prev next' prev' : ℕ → ℕ} {chain : Option (ℕ × ℕ)} {l : List ℕ} (C : Chain next prev chain l)
    (hnodup : l.Nodup) (hnext : ∀ x ∈ l, next' x = next x) (hprev : ∀ x ∈ l, prev' x = prev x) :
    Chain next' prev' chain l := by
  rcases chain with _ | ⟨head, tail⟩
  · exact C
  · obtain ⟨body, rfl, hseg⟩ := C
    refine ⟨body, rfl, hseg.congr (fun x hx => hnext x (List.mem_append_left _ hx)) fun x hx => ?_⟩
    exact hprev _ (hseg.next_mem hnodup hx).1

/-- A member is added to the second list. -/
theorem Chain.push {head tail m : ℕ} {l : List ℕ} (C : Chain s.next s.prev (some (head, tail)) l)
    (hnodup : (l ++ [m]).Nodup) :
    Chain (s.join tail m).next (s.join tail m).prev (some (head, m)) (l ++ [m]) := by
  obtain ⟨body, rfl, hseg⟩ := C
  have hl := (List.nodup_append.mp hnodup)
  have htail : tail ∉ body := by
    have hb := (List.nodup_append.mp hl.1).2.2
    exact fun h => hb tail h tail (List.mem_singleton_self tail) rfl
  refine ⟨body ++ [tail], rfl, (hseg.congr (fun x hx => ?_) fun x hx => ?_).append ⟨rfl, ?_, ?_⟩⟩
  · refine Function.update_of_ne ?_ _ _
    rintro rfl
    exact htail hx
  · have hmem := (hseg.next_mem hl.1 hx).1
    exact Function.update_of_ne (hl.2.2 _ hmem m (List.mem_singleton_self m)) _ _
  · rw [join_next, join_prev, Function.update_self, Function.update_self]
  · exact Function.update_self ..

/-- **The walk of `ir_sccp_split_partition`** comes back to `ref`; the moved members are in the second list. -/
theorem splitLoop_spec (ref : ℕ) : ∀ (rest : List ℕ) (fuel : ℕ) (s : Slots) (chain : Option (ℕ × ℕ)) (kept moved : List ℕ),
    rest.length ≤ fuel → Ring s.next s.prev (ref :: (kept ++ rest)) → (ref :: (kept ++ rest) ++ moved).Nodup →
    Chain s.next s.prev chain moved →
    ∃ s' chain', splitLoop G ref fuel s chain (rest.head?.getD ref) = some (s', chain') ∧ Walked G s s' rest ∧
      Ring s'.next s'.prev (ref :: (kept ++ rest.filter fun m => ! moves G s ref m)) ∧
      Chain s'.next s'.prev chain' (moved ++ rest.filter (moves G s ref)) ∧
      ∀ x, x ∉ ref :: (kept ++ rest) ++ moved → s'.next x = s.next x ∧ s'.prev x = s.prev x
  | [], fuel, s, chain, kept, moved, _, R, _, C => by
    refine ⟨s, chain, ?_, ⟨rfl, rfl, by simp⟩, by simpa using R, by simpa using C, fun x _ => ⟨rfl, rfl⟩⟩
    cases fuel <;> simp [splitLoop]
  | m :: rest, 0, s, chain, kept, moved, hlen, _, _, _ => by simp at hlen
  | m :: rest, fuel + 1, s, chain, kept, moved, hlen, R, hnodup, C => by
    have hring := (List.nodup_append.mp hnodup).1
    have hne : m ≠ ref := by
      rintro rfl
      exact (List.nodup_cons.mp hring).1 (by simp)
    obtain ⟨R', hp, hn⟩ := unlink R hring
    have hlen' : rest.length ≤ fuel := by simpa using hlen
    have hid : identity G (s.visit G m).lat = identity G s.lat := identity_congr (visit_level m) (visit_copy m)
    have hp' : ∀ x, x ∉ ref :: (kept ++ m :: rest) → x ≠ s.prev m ∧ x ≠ s.next m := by
      intro x hx
      rw [hn]
      refine ⟨fun h => hx (h ▸ ?_), fun h => hx (h ▸ ?_)⟩
      · rcases List.mem_cons.mp hp with h | h <;> simp [h]
      · rcases rest with _ | ⟨y, rest⟩ <;> simp
    simp only [List.head?_cons, Option.getD_some, splitLoop, if_neg hne, hid, visit_next, visit_prev]
    by_cases hmv : identity G s.lat m = ref
    · rw [if_pos hmv]
      have hperm : (ref :: (kept ++ rest) ++ (moved ++ [m])).Nodup := by
        refine (List.Perm.nodup_iff ?_).mp hnodup
        simp only [List.cons_append, List.append_assoc]
        refine List.Perm.cons ref (List.Perm.append_left kept ?_)
        rw [← List.append_assoc rest moved [m]]
        exact (List.perm_append_singleton m (rest ++ moved)).symm
      obtain ⟨hold, hnew, hapart⟩ := List.nodup_append.mp hperm
      have hmoved : ∀ x ∈ moved ++ [m], x ≠ s.prev m ∧ (x ≠ m → x ≠ s.next m) := by
        intro x hx
        have hx' : ∀ y ∈ ref :: (kept ++ rest), x ≠ y := fun y hy => (hapart y hy x hx).symm
        refine ⟨hx' _ ?_, fun _ => hx' _ ?_⟩
        · rcases List.mem_cons.mp hp with h | h <;> simp [h]
        · rw [hn]
          rcases rest with _ | ⟨y, rest⟩ <;> simp
      -- the rest of the walk, with `m` in the second list
      have go : ∀ (s₃ : Slots) (c : ℕ × ℕ), s₃.level = s.level → s₃.copy = s.copy → s₃.queue = (s.visit G m).queue →
          Ring s₃.next s₃.prev (ref :: (kept ++ rest)) → Chain s₃.next s₃.prev (some c) (moved ++ [m]) →
          (∀ x, x ∉ ref :: (kept ++ m :: rest) ++ moved → s₃.next x = s.next x ∧ s₃.prev x = s.prev x) →
          ∃ s' chain', splitLoop G ref fuel s₃ (some c) (s.next m) = some (s', chain') ∧ Walked G s s' (m :: rest) ∧
            Ring s'.next s'.prev (ref :: (kept ++ (m :: rest).filter fun m => ! moves G s ref m)) ∧
            Chain s'.next s'.prev chain' (moved ++ (m :: rest).filter (moves G s ref)) ∧
            ∀ x, x ∉ ref :: (kept ++ m :: rest) ++ moved → s'.next x = s.next x ∧ s'.prev x = s.prev x := by
        intro s₃ c hl hc hq R₃ C₃ hf
        obtain ⟨s', chain', hrun, hw, hkept, hchain, hframe⟩ :=
          splitLoop_spec ref rest fuel s₃ (some c) kept (moved ++ [m]) hlen' R₃ hperm C₃
        have hmoves : moves G s₃ ref = moves G s ref := by
          funext x
          rw [moves, identity_congr hl hc, moves]
        rw [hmoves] at hkept hchain
        refine ⟨s', chain', hn ▸ hrun, hw.cons hl hc hq, ?_, ?_, fun x hx => ?_⟩
        · simpa [moves, hmv] using hkept
        · simpa [moves, hmv] using hchain
        · obtain ⟨h₁, h₂⟩ := hframe x fun h => hx (by
            simp only [List.mem_append, List.mem_cons, List.not_mem_nil] at h ⊢
            tauto)
          obtain ⟨h₃, h₄⟩ := hf x hx
          exact ⟨h₁.trans h₃, h₂.trans h₄⟩
      have hfar : ∀ x, x ∉ ref :: (kept ++ m :: rest) ++ moved → x ≠ s.prev m ∧ x ≠ s.next m :=
        fun x hx => hp' x fun h => hx (List.mem_append_left moved h)
      rcases chain with _ | ⟨head, tail⟩
      · obtain rfl : moved = [] := C
        refine go ((s.visit G m).join (s.prev m) (s.next m)) (m, m) (visit_level (G := G) m) (visit_copy (G := G) m) rfl ?_
          ⟨[], rfl, rfl⟩ fun x hx => ?_
        · rw [join_next, join_prev, visit_next, visit_prev]
          exact R'
        · rw [join_next, join_prev, visit_next, visit_prev]
          exact ⟨Function.update_of_ne (hfar x hx).1 _ _, Function.update_of_ne (hfar x hx).2 _ _⟩
      · have htail : tail ∈ moved := by
          obtain ⟨body, rfl, _⟩ := C
          simp
        have hm : m ∈ moved ++ [m] := by simp
        have hmem : ∀ x ∈ moved, x ∈ moved ++ [m] := fun x hx => List.mem_append_left [m] hx
        have hne' : ∀ x ∈ moved, x ≠ m := fun x hx h =>
          (List.nodup_append.mp hnew).2.2 x hx m (List.mem_singleton_self m) h
        have C₂ : Chain ((s.visit G m).join (s.prev m) (s.next m)).next ((s.visit G m).join (s.prev m) (s.next m)).prev
            (some (head, tail)) moved := by
          refine C.congr (List.nodup_append.mp hnew).1 (fun x hx => ?_) fun x hx => ?_
          · rw [join_next, visit_next]
            exact Function.update_of_ne (hmoved x (hmem x hx)).1 _ _
          · rw [join_prev, visit_prev]
            exact Function.update_of_ne ((hmoved x (hmem x hx)).2 (hne' x hx)) _ _
        refine go (((s.visit G m).join (s.prev m) (s.next m)).join tail m) (head, m) (visit_level (G := G) m) (visit_copy (G := G) m) rfl
          ?_ (C₂.push hnew) fun x hx => ?_
        · refine R'.congr (fun x hx => ?_) fun x hx => ?_
          · rw [join_next, join_next, join_next, visit_next, Function.update_of_ne]
            exact hapart x hx tail (hmem tail htail)
          · rw [join_prev, join_prev, join_prev, visit_prev, Function.update_of_ne]
            exact hapart x hx m hm
        · rw [join_next, join_prev, join_next, join_prev, visit_next, visit_prev]
          have hxt : x ≠ tail := fun h => hx (h ▸ List.mem_append_right _ htail)
          have hxm : x ≠ m := fun h => hx (h ▸ by simp)
          rw [Function.update_of_ne hxt, Function.update_of_ne hxm]
          exact ⟨Function.update_of_ne (hfar x hx).1 _ _, Function.update_of_ne (hfar x hx).2 _ _⟩
    · rw [if_neg hmv]
      have IH := splitLoop_spec ref rest fuel (s.visit G m) chain (kept ++ [m]) moved hlen'
      rw [visit_next, visit_prev, List.append_assoc, List.singleton_append] at IH
      obtain ⟨s', chain', hrun, hw, hkept, hchain, hframe⟩ := IH R hnodup C
      have hmoves : moves G (s.visit G m) ref = moves G s ref := by
        funext x
        rw [moves, hid, moves]
      rw [hmoves] at hkept hchain
      refine ⟨s', chain', hn ▸ hrun, hw.cons (visit_level m) (visit_copy m) rfl, ?_, ?_, fun x hx => ?_⟩
      · simpa [moves, hmv] using hkept
      · simpa [moves, hmv] using hchain
      · exact hframe x (by simpa using hx)

end Slots

/-! ### A class is split -/

namespace Slots

variable {G : Graph} {s : Slots} {ref : ℕ}

/-- `ref` is BOTTOM and the start of its own list. -/
def lowered (s : Slots) (ref : ℕ) : Slots := (s.setLevel ref .bottom).setCopy ref ref

/-- What `ir_sccp_split_partition` does to the values. -/
structure Split (G : Graph) (s s' : Slots) (ref : ℕ) (rest : List ℕ) : Prop where
  walked : Walked G (s.lowered ref) s' rest
  old : Ring s'.next s'.prev (rest.filter fun m => ! moves G (s.lowered ref) ref m)
  new : Ring s'.next s'.prev (ref :: rest.filter (moves G (s.lowered ref) ref))
  frame : ∀ x, x ∉ ref :: rest → s'.next x = s.next x ∧ s'.prev x = s.prev x

theorem closed {chain : Option (ℕ × ℕ)} {l : List ℕ} (C : Chain s.next s.prev chain l) (hnodup : (ref :: l).Nodup) :
    Ring (s.close ref chain).next (s.close ref chain).prev (ref :: l) ∧
      ∀ x, x ∉ ref :: l → (s.close ref chain).next x = s.next x ∧ (s.close ref chain).prev x = s.prev x := by
  obtain ⟨href, hl⟩ := List.nodup_cons.mp hnodup
  rcases chain with _ | ⟨head, tail⟩
  · obtain rfl : l = [] := C
    refine ⟨Ring.single (Function.update_self ..) (Function.update_self ..), fun x hx => ?_⟩
    have hne : x ≠ ref := by simpa using hx
    exact ⟨Function.update_of_ne hne _ _, Function.update_of_ne hne _ _⟩
  · obtain ⟨body, rfl, hseg⟩ := C
    have hhead : head ∈ body ++ [tail] := by
      rcases body with _ | ⟨y, body⟩
      · rw [show head = tail from hseg]
        simp
      · rw [show head = y from hseg.1]
        simp
    have htail : tail ∈ body ++ [tail] := by simp
    have hne : ∀ x ∈ body ++ [tail], x ≠ ref := fun x hx h => href (h ▸ hx)
    have hnext : (s.close ref (some (head, tail))).next =
        Function.update (Function.update s.next ref head) tail ref := rfl
    have hprev : (s.close ref (some (head, tail))).prev =
        Function.update (Function.update s.prev ref tail) head ref := rfl
    rw [hnext, hprev]
    refine ⟨Ring.close hseg hl (fun w hw => ?_) (fun w hw hwh => ?_) ?_ ?_ ?_ ?_, fun x hx => ?_⟩
    · have hwt : w ≠ tail := fun h =>
        (List.nodup_append.mp hl).2.2 w hw tail (List.mem_singleton_self tail) h
      rw [Function.update_of_ne hwt, Function.update_of_ne (hne w (List.mem_append_left _ hw))]
    · rw [Function.update_of_ne hwh, Function.update_of_ne (hne w hw)]
    · rw [Function.update_of_ne (hne tail htail).symm, Function.update_self]
    · exact Function.update_self ..
    · exact Function.update_self ..
    · rw [Function.update_of_ne (hne head hhead).symm, Function.update_self]
    · have hx' : ∀ y ∈ ref :: (body ++ [tail]), x ≠ y := fun y hy h => hx (h ▸ hy)
      have hxr := hx' ref List.mem_cons_self
      have hxt := hx' tail (List.mem_cons_of_mem _ htail)
      have hxh := hx' head (List.mem_cons_of_mem _ hhead)
      exact ⟨by rw [Function.update_of_ne hxt, Function.update_of_ne hxr],
        by rw [Function.update_of_ne hxh, Function.update_of_ne hxr]⟩

theorem close_level (chain : Option (ℕ × ℕ)) : (s.close ref chain).level = s.level := by
  rcases chain with _ | ⟨head, tail⟩ <;> rfl

theorem close_copy (chain : Option (ℕ × ℕ)) : (s.close ref chain).copy = s.copy := by
  rcases chain with _ | ⟨head, tail⟩ <;> rfl

theorem close_queue (chain : Option (ℕ × ℕ)) : (s.close ref chain).queue = s.queue := by
  rcases chain with _ | ⟨head, tail⟩ <;> rfl

/-- **`ir_sccp_split_partition`**: one list becomes two. -/
theorem splitPartition_spec {rest : List ℕ} (R : Ring s.next s.prev (ref :: rest)) (hnodup : (ref :: rest).Nodup)
    (hlen : rest.length ≤ G.insnsCount) (hkeep : rest.filter (fun m => ! moves G (s.lowered ref) ref m) ≠ []) :
    ∃ s', s.splitPartition G ref = some s' ∧ Split G s s' ref rest := by
  have hstart : s.next ref = rest.head?.getD ref := by
    have hseg := R.seg
    rcases rest with _ | ⟨y, rest⟩
    · exact hseg.2.2
    · exact hseg.2.2.1
  obtain ⟨s₂, chain, hrun, hw, hold, hchain, hframe⟩ := splitLoop_spec (G := G) ref rest G.insnsCount (s.lowered ref) none
    [] [] hlen R (by simpa using hnodup) rfl
  rw [List.nil_append] at hold hchain
  generalize hk : rest.filter (fun m => ! moves G (s.lowered ref) ref m) = kept at *
  generalize hm : rest.filter (moves G (s.lowered ref) ref) = moved at *
  have hperm : (ref :: (kept ++ moved)).Nodup := by
    refine (List.Perm.nodup_iff (List.Perm.cons ref ?_)).mp hnodup
    rw [← hk, ← hm]
    exact ((List.filter_append_perm (moves G (s.lowered ref) ref) rest).symm.trans List.perm_append_comm)
  obtain ⟨href, hparts⟩ := List.nodup_cons.mp hperm
  obtain ⟨hkn, hmn, hapart⟩ := List.nodup_append.mp hparts
  obtain ⟨l, y, hl⟩ : ∃ l y, kept = l ++ [y] := ⟨_, _, (List.dropLast_append_getLast hkeep).symm⟩
  have hsub : ∀ x ∈ kept, x ∈ rest := fun x hx => (List.mem_filter.mp (hk ▸ hx)).1
  have hsub' : ∀ x ∈ moved, x ∈ rest := fun x hx => (List.mem_filter.mp (hm ▸ hx)).1
  have hlast : s₂.prev ref = y := by
    rw [hl] at hold
    exact (hold.last (List.cons_append (a := ref)).symm).2
  have hfirst : s₂.next ref ∈ kept := by
    have hseg := hold.seg
    rcases kept with _ | ⟨k, kept⟩
    · exact absurd rfl hkeep
    · rw [show s₂.next ref = k from hseg.2.2.1]
      exact List.mem_cons_self
  have hymem : y ∈ kept := by rw [hl]; simp
  -- `ref` leaves the old list
  have hkept : Ring (s₂.join (s₂.prev ref) (s₂.next ref)).next (s₂.join (s₂.prev ref) (s₂.next ref)).prev kept := by
    have hyl : y ∉ l := by
      rw [hl] at hkn
      exact fun h => (List.nodup_append.mp hkn).2.2 y h y (List.mem_singleton_self y) rfl
    rw [hl] at hold ⊢
    rw [hlast]
    refine hold.tail (hl ▸ List.nodup_cons.mpr ⟨fun h => href (List.mem_append_left _ h), hkn⟩) (fun w hw => ?_)
      (fun w _ hw => ?_) ?_ ?_
    · refine Function.update_of_ne ?_ _ _
      rintro rfl
      exact hyl hw
    · exact Function.update_of_ne hw _ _
    · exact Function.update_self ..
    · exact Function.update_self ..
  have hkept_ne : ∀ x ∈ kept, x ∉ ref :: moved := by
    intro x hx h
    rcases List.mem_cons.mp h with rfl | h
    · exact href (List.mem_append_left _ hx)
    · exact hapart x hx x h rfl
  have hC : Chain (s₂.join (s₂.prev ref) (s₂.next ref)).next (s₂.join (s₂.prev ref) (s₂.next ref)).prev chain moved := by
    refine hchain.congr hmn (fun x hx => ?_) fun x hx => ?_
    · rw [hlast]
      exact Function.update_of_ne (hapart y hymem x hx).symm _ _
    · exact Function.update_of_ne (hapart _ hfirst x hx).symm _ _
  obtain ⟨hnew, hfar⟩ := closed hC (List.nodup_cons.mpr ⟨fun h => href (List.mem_append_right _ h), hmn⟩)
  refine ⟨(s₂.join (s₂.prev ref) (s₂.next ref)).close ref chain, ?_, ⟨?_, ?_, ?_⟩, ?_, hm ▸ hnew, fun x hx => ?_⟩
  · have hdef : s.splitPartition G ref = (splitLoop G ref G.insnsCount (s.lowered ref) none (s.next ref)).map
        fun (s₂, chain) => (s₂.join (s₂.prev ref) (s₂.next ref)).close ref chain := rfl
    rw [hdef, hstart, hrun]
    rfl
  · exact (close_level chain).trans hw.level
  · exact (close_copy chain).trans hw.copy
  · rw [close_queue]
    exact hw.queue
  · rw [hk]
    exact hkept.congr (fun x hx => (hfar x (hkept_ne x hx)).1) fun x hx => (hfar x (hkept_ne x hx)).2
  · have hx' : ∀ z ∈ rest, x ≠ z := fun z hz h => hx (h ▸ List.mem_cons_of_mem _ hz)
    obtain ⟨h₁, h₂⟩ := hfar x fun h => hx (by
      rcases List.mem_cons.mp h with rfl | h
      · exact List.mem_cons_self
      · exact List.mem_cons_of_mem _ (hsub' x h))
    obtain ⟨h₃, h₄⟩ := hframe x (by simpa using hx)
    refine ⟨h₁.trans (Eq.trans ?_ h₃), h₂.trans (Eq.trans ?_ h₄)⟩
    · rw [hlast]
      exact Function.update_of_ne (hx' y (hsub y hymem)) _ _
    · exact Function.update_of_ne (hx' _ (hsub _ hfirst)) _ _

end Slots

end IrJit.Sccp
