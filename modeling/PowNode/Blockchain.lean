/-
  The BLOCK-TREE STORE (`blockchain.rs`): the one shared data structure of the node.

  The four `HashMap`s become Mathlib `Finmap`s — finite, with EXTENSIONAL equality (two maps
  are equal iff every lookup agrees), which is what Rust's `HashMap: PartialEq` compares and
  what the order-independence and idempotence results state.  Every `unwrap` of the source is
  an `Option` bind, so `none` is exactly "the Rust code panics here"; the invariants of
  `PowNode.WellFormed` are what rule it out.

  `State`, the ICO balance table, is a type of its own that no method of `Blockchain` reads
  (`PowNode.State`); `Block::size` (block.rs) is an argument of `averageBlockSize`.
-/
import PowNode.Types
import Mathlib.Data.Multiset.Sort

namespace PowNode

/-- A lookup after an insert finds the new entry at its key, and the old lookup elsewhere. -/
theorem lookup_insert_eq_some {α β : Type} [DecidableEq α] {m : Finmap fun _ : α => β}
    {k x : α} {v w : β} :
    (m.insert k v).lookup x = some w ↔ (x = k ∧ v = w) ∨ (x ≠ k ∧ m.lookup x = some w) := by
  by_cases he : x = k
  · subst he; simp [Finmap.lookup_insert]
  · simp [Finmap.lookup_insert_of_ne _ he, he]

/-- A member of an entry read with `getD []` is a member of a present entry. -/
theorem exists_of_mem_getD {α β : Type} [DecidableEq α] {m : Finmap fun _ : α => List β} {p : α}
    {c : β} (h : c ∈ (m.lookup p).getD []) : ∃ cs, m.lookup p = some cs ∧ c ∈ cs := by
  cases hl : m.lookup p with
  | none => simp [hl] at h
  | some cs => exact ⟨cs, rfl, by simpa [hl] using h⟩

/-- `Blockchain`: the block-tree, its heights, the fork-choice tip, the network difficulty, the
    orphan buffer (keyed by the missing parent) and the observational origin table. -/
structure Blockchain (H : Type) where
  hashToBlock : Finmap (fun _ : H => Block H)
  hashToHeight : Finmap (fun _ : H => Nat)
  tip : H
  difficulty : H
  orphanBuffer : Finmap (fun _ : H => List (Block H))
  hashToOrigin : Finmap (fun _ : H => BlockOrigin)

namespace Blockchain

variable {H : Type} [LinearOrder H] (E : Env H)

/-- `Blockchain::new`: only the genesis block, at height 0, which is also the tip. -/
def new : Blockchain H where
  hashToBlock := (∅ : Finmap _).insert (E.hash E.genesis) E.genesis
  hashToHeight := (∅ : Finmap _).insert (E.hash E.genesis) 0
  tip := E.hash E.genesis
  difficulty := E.genesis.header.difficulty
  orphanBuffer := ∅
  hashToOrigin := ∅

/-- `Blockchain::insert`: store the block one above its parent, and move the tip to it iff it
    is STRICTLY higher than the current tip (first-seen wins ties).  Both heights are read
    with `unwrap`, the tip's after the new entry is written. -/
def insert (s : Blockchain H) (b : Block H) : Option (Blockchain H) := do
  let parentHeight ← s.hashToHeight.lookup b.header.parent
  let height := parentHeight + 1
  let s := { s with hashToBlock := s.hashToBlock.insert (E.hash b) b,
                    hashToHeight := s.hashToHeight.insert (E.hash b) height }
  let tipHeight ← s.hashToHeight.lookup s.tip
  pure (if height > tipHeight then { s with tip := E.hash b } else s)

/-- `Blockchain::get_block` (`unwrap` on a missing hash: `none`). -/
def getBlock (s : Blockchain H) (h : H) : Option (Block H) := s.hashToBlock.lookup h

/-- `Blockchain::contains_block`. -/
def containsBlock (s : Blockchain H) (h : H) : Bool := decide (h ∈ s.hashToBlock)

/-- `Blockchain::pow_validity_check`: the PoW inequality AND the declared target equals the
    network's. -/
def powValidityCheck (s : Blockchain H) (b : Block H) : Bool :=
  decide (E.hash b ≤ b.header.difficulty) && decide (b.header.difficulty = s.difficulty)

/-- `Blockchain::parent_check`. -/
def parentCheck (s : Blockchain H) (b : Block H) : Bool := s.containsBlock b.header.parent

/-- `Blockchain::add_to_orphan_buffer`: `entry(parent).or_insert(vec![]).push(block)` — an
    APPEND, with no check that the block is already buffered. -/
def addToOrphanBuffer (s : Blockchain H) (b : Block H) : Blockchain H :=
  let waiting := (s.orphanBuffer.lookup b.header.parent).getD [] ++ [b]
  { s with orphanBuffer := s.orphanBuffer.insert b.header.parent waiting }

/-- `Blockchain::block_count`. -/
def blockCount (s : Blockchain H) : Nat := s.hashToBlock.keys.card

/-- `Blockchain::average_block_size`; the `usize` division by a zero count panics. -/
def averageBlockSize (size : Block H → Nat) (s : Blockchain H) : Option Nat :=
  if s.blockCount = 0 then none
  else some ((s.hashToBlock.entries.map fun e => size e.2).sum / s.blockCount)

/-- `Blockchain::block_delays_ms`: the delays of the `Received` origins, ascending. -/
def blockDelaysMs (s : Blockchain H) : List Nat :=
  (s.hashToOrigin.entries.filterMap fun e =>
    match e.2 with
    | .mined => none
    | .received d => some d).sort (· ≤ ·)

/-- The `while` loop of `all_blocks_in_longest_chain`, for at most `fuel` more iterations:
    while `curr` is above height 0, step to its parent and push it.  `none` is an `unwrap`
    panic, or an iteration past the fuel. -/
def walkBack (s : Blockchain H) : Nat → H → List H → Option (List H)
  | 0, curr, acc => do
    let height ← s.hashToHeight.lookup curr
    if height > 0 then none else pure acc
  | fuel + 1, curr, acc => do
    let height ← s.hashToHeight.lookup curr
    if height > 0 then
      let b ← s.hashToBlock.lookup curr
      walkBack s fuel b.header.parent (acc ++ [b.header.parent])
    else pure acc

/-- `Blockchain::all_blocks_in_longest_chain`.  Every iteration but the last looks up a key of
    `hash_to_block`, so a walk that needs more than `block_count` iterations has revisited a
    hash and, being deterministic, never stops: `block_count` fuel loses no terminating run. -/
def allBlocksInLongestChain (s : Blockchain H) : Option (List H) :=
  (s.walkBack s.blockCount s.tip [s.tip]).map List.reverse

/-! ## Small lemmas, so that later proofs never unfold an operation -/

variable {E} {s s' : Blockchain H} {b : Block H} {h : H}

@[simp] theorem containsBlock_iff : s.containsBlock h = true ↔ h ∈ s.hashToBlock := by
  simp [containsBlock]

@[simp] theorem containsBlock_eq_false : s.containsBlock h = false ↔ h ∉ s.hashToBlock := by
  simp [containsBlock]

@[simp] theorem parentCheck_iff : s.parentCheck b = true ↔ b.header.parent ∈ s.hashToBlock :=
  containsBlock_iff

@[simp] theorem powValidityCheck_iff :
    s.powValidityCheck E b = true ↔ E.hash b ≤ b.header.difficulty ∧ b.header.difficulty = s.difficulty := by
  simp [powValidityCheck]

/-- The check reads the store only through its difficulty. -/
theorem powValidityCheck_congr (h : s'.difficulty = s.difficulty) :
    s'.powValidityCheck E b = s.powValidityCheck E b := by
  simp [powValidityCheck, h]

/-- The one inversion lemma of `insert`: it succeeds exactly when both heights are present,
    and then writes the two maps and moves the tip by the strict-height rule. -/
theorem insert_eq_some :
    s.insert E b = some s' ↔ ∃ n t, s.hashToHeight.lookup b.header.parent = some n ∧
      (s.hashToHeight.insert (E.hash b) (n + 1)).lookup s.tip = some t ∧
      s'.hashToBlock = s.hashToBlock.insert (E.hash b) b ∧
      s'.hashToHeight = s.hashToHeight.insert (E.hash b) (n + 1) ∧
      s'.tip = (if n + 1 > t then E.hash b else s.tip) ∧
      s'.difficulty = s.difficulty ∧ s'.orphanBuffer = s.orphanBuffer ∧
      s'.hashToOrigin = s.hashToOrigin := by
  simp only [insert, Option.bind_eq_bind, Option.bind_eq_some, Option.pure_def, Option.some.injEq]
  constructor
  · rintro ⟨n, hn, t, ht, rfl⟩
    exact ⟨n, t, hn, ht, by split <;> simp_all⟩
  · rintro ⟨n, t, hn, ht, hB, hH, hT, hD, hO, hR⟩
    refine ⟨n, hn, t, ht, ?_⟩
    cases s'
    split <;> simp_all

@[simp] theorem addToOrphanBuffer_hashToBlock : (s.addToOrphanBuffer b).hashToBlock = s.hashToBlock := rfl
@[simp] theorem addToOrphanBuffer_hashToHeight : (s.addToOrphanBuffer b).hashToHeight = s.hashToHeight := rfl
@[simp] theorem addToOrphanBuffer_tip : (s.addToOrphanBuffer b).tip = s.tip := rfl
@[simp] theorem addToOrphanBuffer_difficulty : (s.addToOrphanBuffer b).difficulty = s.difficulty := rfl
@[simp] theorem addToOrphanBuffer_hashToOrigin : (s.addToOrphanBuffer b).hashToOrigin = s.hashToOrigin := rfl

theorem addToOrphanBuffer_lookup (p : H) : (s.addToOrphanBuffer b).orphanBuffer.lookup p =
    if p = b.header.parent then some ((s.orphanBuffer.lookup p).getD [] ++ [b])
    else s.orphanBuffer.lookup p := by
  unfold addToOrphanBuffer
  split
  · subst_vars; simp
  · simp [Finmap.lookup_insert_of_ne _ ‹_›]

/-- One iteration of the walk's loop, from a key above height 0: step to the parent, push it. -/
theorem walkBack_succ_of_height {fuel k : Nat} {x : H} {acc : List H} {c : Block H}
    (hh : s.hashToHeight.lookup x = some (k + 1)) (hc : s.hashToBlock.lookup x = some c) :
    s.walkBack (fuel + 1) x acc = s.walkBack fuel c.header.parent (acc ++ [c.header.parent]) := by
  simp [walkBack, hh, hc]

/-- At height 0 the loop exits, whatever the fuel left. -/
theorem walkBack_of_height_zero {fuel : Nat} {x : H} {acc : List H}
    (hh : s.hashToHeight.lookup x = some 0) : s.walkBack fuel x acc = some acc := by
  cases fuel <;> simp [walkBack, hh]

/-- Above height 0 with no fuel left, the walk gives up. -/
theorem walkBack_zero_of_height {k : Nat} {x : H} {acc : List H}
    (hh : s.hashToHeight.lookup x = some (k + 1)) : s.walkBack 0 x acc = none := by
  simp [walkBack, hh]

/-- What waits under `p` after `add_to_orphan_buffer`: what waited there before, and the new
    block under its parent. -/
theorem mem_addToOrphanBuffer {p : H} {c : Block H} :
    c ∈ ((s.addToOrphanBuffer b).orphanBuffer.lookup p).getD [] ↔
      c ∈ (s.orphanBuffer.lookup p).getD [] ∨ (p = b.header.parent ∧ c = b) := by
  rw [addToOrphanBuffer_lookup]
  split <;> simp [*]

end Blockchain

end PowNode
