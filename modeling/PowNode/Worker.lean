/-
  The NETWORK WORKER (`network/worker.rs`): one decoded message in, the block-tree mutated under
  its lock, and the outbound effects out.

  The `Blocks` arm is the protocol's deliver phase.  For each block, in the sender's order, it
  FIRST records the origin — `entry(hash).or_insert(Received { delay_ms: now - timestamp })`,
  whose argument Rust evaluates before `or_insert` looks at the entry — and only then skips a
  stored block, drops a PoW failure, buffers an orphan, or promotes with `insert_recursively`.

  The subtraction is on `u128`, with operands the sending peer chooses.  `delayMs` is Rust's
  checked subtraction (a debug build panics on underflow), so a block stamped after `now`
  makes the whole handler `none` — while the block-tree mutex is held (`handleBlocks_panics`).
-/
import PowNode.InsertRecursively

namespace PowNode

/-- `now - block.header.timestamp` on `u128`: `none` where Rust panics with "attempt to
    subtract with overflow". -/
def delayMs (now timestamp : Nat) : Option Nat :=
  if timestamp ≤ now then some (now - timestamp) else none

theorem delayMs_eq_some {now timestamp d : Nat} :
    delayMs now timestamp = some d ↔ timestamp ≤ now ∧ d = now - timestamp := by
  unfold delayMs; split <;> simp [*, eq_comm]

namespace Blockchain

variable {H : Type} [LinearOrder H]

/-- `hash_to_origin.entry(hash).or_insert(origin)`: the first recorded origin wins. -/
def recordOrigin (s : Blockchain H) (h : H) (o : BlockOrigin) : Blockchain H :=
  if h ∈ s.hashToOrigin then s else { s with hashToOrigin := s.hashToOrigin.insert h o }

variable {s : Blockchain H} {h : H} {o : BlockOrigin}

@[simp] theorem recordOrigin_hashToBlock : (s.recordOrigin h o).hashToBlock = s.hashToBlock := by
  unfold recordOrigin; split <;> rfl
@[simp] theorem recordOrigin_hashToHeight : (s.recordOrigin h o).hashToHeight = s.hashToHeight := by
  unfold recordOrigin; split <;> rfl
@[simp] theorem recordOrigin_tip : (s.recordOrigin h o).tip = s.tip := by
  unfold recordOrigin; split <;> rfl
@[simp] theorem recordOrigin_difficulty : (s.recordOrigin h o).difficulty = s.difficulty := by
  unfold recordOrigin; split <;> rfl
@[simp] theorem recordOrigin_orphanBuffer : (s.recordOrigin h o).orphanBuffer = s.orphanBuffer := by
  unfold recordOrigin; split <;> rfl

/-- A recorded origin is never overwritten. -/
theorem recordOrigin_of_mem (hh : h ∈ s.hashToOrigin) : s.recordOrigin h o = s := if_pos hh

theorem mem_recordOrigin {x : H} : x ∈ (s.recordOrigin h o).hashToOrigin ↔ x = h ∨ x ∈ s.hashToOrigin := by
  unfold recordOrigin
  split
  · exact ⟨Or.inr, fun hx => hx.elim (fun he => he ▸ ‹_›) id⟩
  · exact Finmap.mem_insert

end Blockchain

variable {H : Type} [LinearOrder H] (E : Env H)

/-- One iteration of `for block in blocks` in the `Blocks` arm, on the block-tree and the two
    accumulators `relay_hashes` and `missing_hashes`. -/
def receiveBlock (now : Nat) : Blockchain H × List H × List H → Block H →
    Option (Blockchain H × List H × List H)
  | (s, relayHashes, missingHashes), b => do
    let delay ← delayMs now b.header.timestamp
    let s := s.recordOrigin (E.hash b) (.received delay)
    if s.containsBlock (E.hash b) then pure (s, relayHashes, missingHashes)
    else if !s.powValidityCheck E b then pure (s, relayHashes, missingHashes)
    else if !s.parentCheck b then
      pure (s.addToOrphanBuffer b, relayHashes, missingHashes ++ [b.header.parent])
    else do
      let (s, relayHashes) ← s.insertRecursively E b relayHashes
      pure (s, relayHashes, missingHashes)

/-- The `Blocks` arm of `worker_loop`: the loop, then `GetBlocks(missing_hashes)` to the sender
    and `NewBlockHashes(relay_hashes)` to everyone, each only when non-empty. -/
def handleBlocks (now : Nat) (s : Blockchain H) (blocks : List (Block H)) :
    Option (Blockchain H × List (Outbound H)) := do
  let (s, relayHashes, missingHashes) ← blocks.foldlM (receiveBlock E now) (s, [], [])
  pure (s, (if missingHashes.isEmpty then [] else [.write (.getBlocks missingHashes)]) ++
    (if relayHashes.isEmpty then [] else [.broadcast (.newBlockHashes relayHashes)]))

/-- `worker_loop`'s handling of one decoded message, `now` being the clock when it is read. -/
def handleMessage (now : Nat) (s : Blockchain H) :
    Message H → Option (Blockchain H × List (Outbound H))
  | .ping nonce => some (s, [.write (.pong (toString nonce))])
  | .pong _ => some (s, [])
  | .newBlockHashes hashes =>
    let missingHashes := hashes.filter fun h => !s.containsBlock h
    some (s, if missingHashes.isEmpty then [] else [.write (.getBlocks missingHashes)])
  | .getBlocks hashes => do
    let blocks ← (hashes.filter s.containsBlock).mapM s.getBlock
    pure (s, if blocks.isEmpty then [] else [.write (.blocks blocks)])
  | .blocks blocks => handleBlocks E now s blocks

/-! ## The deliver phase, one block at a time -/

variable {E}

/-- The inversion lemma of one iteration: the delay is computed, the origin recorded, and then
    exactly one of the four branches runs. -/
theorem receiveBlock_cases {now : Nat} {s s' : Blockchain H} {relay missing relay' missing' : List H}
    {b : Block H} (h : receiveBlock E now (s, relay, missing) b = some (s', relay', missing')) :
    ∃ d, delayMs now b.header.timestamp = some d ∧
      let t := s.recordOrigin (E.hash b) (.received d)
      (E.hash b ∈ s.hashToBlock ∧ s' = t ∧ relay' = relay ∧ missing' = missing) ∨
      (E.hash b ∉ s.hashToBlock ∧ s.powValidityCheck E b = false ∧ s' = t ∧ relay' = relay ∧
        missing' = missing) ∨
      (E.hash b ∉ s.hashToBlock ∧ s.powValidityCheck E b = true ∧
        b.header.parent ∉ s.hashToBlock ∧ s' = t.addToOrphanBuffer b ∧ relay' = relay ∧
        missing' = missing ++ [b.header.parent]) ∨
      (E.hash b ∉ s.hashToBlock ∧ s.powValidityCheck E b = true ∧
        b.header.parent ∈ s.hashToBlock ∧ t.insertRecursively E b relay = some (s', relay') ∧
        missing' = missing) := by
  simp only [receiveBlock, Option.bind_eq_bind, Option.bind_eq_some] at h
  obtain ⟨d, hd, h⟩ := h
  refine ⟨d, hd, ?_⟩
  have hpow : (s.recordOrigin (E.hash b) (.received d)).powValidityCheck E b = s.powValidityCheck E b := by
    simp [Blockchain.powValidityCheck]
  simp only [Blockchain.containsBlock, Blockchain.parentCheck, Blockchain.recordOrigin_hashToBlock,
    hpow] at h
  by_cases hc : E.hash b ∈ s.hashToBlock
  · simp only [hc, decide_True, if_true, Option.pure_def, Option.some.injEq, Prod.mk.injEq] at h
    exact Or.inl ⟨hc, h.1.symm, h.2.1.symm, h.2.2.symm⟩
  · simp only [hc, decide_False, Bool.false_eq_true, if_false] at h
    cases hp : s.powValidityCheck E b
    · simp only [hp, Bool.not_false, if_true, Option.pure_def, Option.some.injEq, Prod.mk.injEq] at h
      exact Or.inr (Or.inl ⟨hc, rfl, h.1.symm, h.2.1.symm, h.2.2.symm⟩)
    · simp only [hp, Bool.not_true, Bool.false_eq_true, if_false] at h
      by_cases hq : b.header.parent ∈ s.hashToBlock
      · simp only [hq, decide_True, Bool.not_true, Bool.false_eq_true, if_false,
          Option.bind_eq_some, Option.some.injEq] at h
        obtain ⟨⟨s'', r''⟩, h₁, h₂⟩ := h
        simp only [Prod.mk.injEq] at h₂
        obtain ⟨rfl, rfl, rfl⟩ := h₂
        exact Or.inr (Or.inr (Or.inr ⟨hc, rfl, hq, h₁, rfl⟩))
      · simp only [hq, decide_False, Bool.not_false, if_true, Option.pure_def, Option.some.injEq,
          Prod.mk.injEq] at h
        exact Or.inr (Or.inr (Or.inl ⟨hc, rfl, hq, h.1.symm, h.2.1.symm, h.2.2.symm⟩))

/-- **One delivered block, by cases.**  What the iteration leaves has a property if the store
    with the origin recorded has it after a skip (the block stored, or failing the check), after
    buffering an orphan, and after any call of `insert_recursively` on a block whose parent is
    stored. -/
theorem receiveBlock_elim (P : Blockchain H → List H → List H → Prop) {now : Nat}
    {s s' : Blockchain H} {relay missing relay' missing' : List H} {b : Block H}
    (h : receiveBlock E now (s, relay, missing) b = some (s', relay', missing'))
    (hskip : ∀ d, (E.hash b ∈ s.hashToBlock ∨ s.powValidityCheck E b = false) →
      P (s.recordOrigin (E.hash b) (.received d)) relay missing)
    (horphan : ∀ d, E.hash b ∉ s.hashToBlock → s.powValidityCheck E b = true →
      b.header.parent ∉ s.hashToBlock →
      P ((s.recordOrigin (E.hash b) (.received d)).addToOrphanBuffer b) relay
        (missing ++ [b.header.parent]))
    (hpromote : ∀ d n r, E.hash b ∉ s.hashToBlock → s.powValidityCheck E b = true →
      b.header.parent ∈ s.hashToBlock →
      Blockchain.insertRecursivelyAux E n (s.recordOrigin (E.hash b) (.received d)) b relay =
        some r → P r.1 r.2 missing) :
    P s' relay' missing' := by
  obtain ⟨d, -, hc⟩ := receiveBlock_cases h
  rcases hc with ⟨hs, rfl, rfl, rfl⟩ | ⟨-, hp, rfl, rfl, rfl⟩ | ⟨hs, hp, hq, rfl, rfl, rfl⟩ |
    ⟨hs, hp, hq, hins, rfl⟩
  · exact hskip d (Or.inl hs)
  · exact hskip d (Or.inr hp)
  · exact horphan d hs hp hq
  · exact hpromote d _ (s', relay') hs hp hq hins

/-- The inversion lemma of the `Blocks` arm: the loop ran to its end, and the effects are the
    two replies built from its accumulators. -/
theorem handleBlocks_spec {now : Nat} {s s' : Blockchain H} {blocks : List (Block H)}
    {out : List (Outbound H)} (h : handleBlocks E now s blocks = some (s', out)) :
    ∃ relay missing, blocks.foldlM (receiveBlock E now) (s, [], []) = some (s', relay, missing) ∧
      out = (if missing.isEmpty then [] else [.write (.getBlocks missing)]) ++
        (if relay.isEmpty then [] else [.broadcast (.newBlockHashes relay)]) := by
  simp only [handleBlocks, Option.bind_eq_bind, Option.bind_eq_some, Option.pure_def,
    Option.some.injEq, Prod.mk.injEq] at h
  obtain ⟨⟨t, relay, missing⟩, hfold, rfl, rfl⟩ := h
  exact ⟨relay, missing, hfold, rfl⟩

omit [LinearOrder H] in
/-- What the `Blocks` arm announces is its `relay_hashes`. -/
theorem announced_handleBlocks {relay missing : List H} :
    announced ((if missing.isEmpty then [] else [.write (.getBlocks missing)]) ++
      (if relay.isEmpty then [] else [.broadcast (.newBlockHashes relay)]) : List (Outbound H)) =
      relay := by
  cases missing <;> cases relay <;> simp [announced]

/-- Every arm but `Blocks` leaves the block-tree as it was. -/
theorem handleMessage_cases {now : Nat} {s s' : Blockchain H} {msg : Message H}
    {out : List (Outbound H)} (h : handleMessage E now s msg = some (s', out)) :
    (s' = s ∧ announced out = []) ∨ ∃ blocks, msg = .blocks blocks ∧ handleBlocks E now s blocks = some (s', out) := by
  cases msg with
  | blocks blocks => exact Or.inr ⟨blocks, rfl, h⟩
  | ping _ | pong _ =>
    simp only [handleMessage, Option.some.injEq, Prod.mk.injEq] at h
    obtain ⟨rfl, rfl⟩ := h; exact Or.inl ⟨rfl, rfl⟩
  | newBlockHashes hashes =>
    simp only [handleMessage, Option.some.injEq, Prod.mk.injEq] at h
    obtain ⟨rfl, rfl⟩ := h; exact Or.inl ⟨rfl, by split <;> rfl⟩
  | getBlocks hashes =>
    simp only [handleMessage, Option.bind_eq_bind, Option.bind_eq_some, Option.pure_def,
      Option.some.injEq, Prod.mk.injEq] at h
    obtain ⟨_, -, rfl, rfl⟩ := h; exact Or.inl ⟨rfl, by split <;> rfl⟩

/-! ## The delay subtraction -/

/-- A block stamped after `now` stops the iteration that meets it. -/
theorem receiveBlock_future {now : Nat} {b : Block H} (hb : now < b.header.timestamp)
    (acc : Blockchain H × List H × List H) : receiveBlock E now acc b = none := by
  obtain ⟨s, relay, missing⟩ := acc
  simp [receiveBlock, delayMs, Nat.not_le.mpr hb]

/-- **A block from the future panics the handler.**  If any block of the message is stamped
    after the receiver's clock, the `u128` subtraction `now - block.header.timestamp`
    underflows and the `Blocks` arm does not return — from every state, with the block-tree
    lock held, whatever the other blocks are and wherever that block stands in the message. -/
theorem handleBlocks_panics (now : Nat) (s : Blockchain H) (blocks : List (Block H))
    (h : ∃ b ∈ blocks, now < b.header.timestamp) : handleBlocks E now s blocks = none := by
  suffices ∀ acc, blocks.foldlM (receiveBlock E now) acc = none by simp [handleBlocks, this]
  induction blocks with
  | nil => simp at h
  | cons b l ih =>
    intro acc
    simp only [List.foldlM, Option.bind_eq_bind]
    by_cases hb : now < b.header.timestamp
    · rw [receiveBlock_future hb]; rfl
    · rcases receiveBlock E now acc b with _ | acc'
      · rfl
      · exact ih (by simpa [hb] using h) acc'

/-- The failing input: a block stamped 1 ms after the receiver's clock, delivered to a fresh
    node. -/
theorem handleBlocks_panics_one_ms_ahead :
    (∃ b ∈ [(⟨⟨0, 0, 0, 1, 0⟩, ⟨[]⟩⟩ : Block Int)], 0 < b.header.timestamp) ∧
      handleBlocks (sampleEnv true) 0 (Blockchain.new (sampleEnv true))
        [⟨⟨0, 0, 0, 1, 0⟩, ⟨[]⟩⟩] = none :=
  ⟨⟨_, List.mem_singleton_self _, Nat.one_pos⟩,
    handleBlocks_panics _ _ _ ⟨_, List.mem_singleton_self _, Nat.one_pos⟩⟩

end PowNode
