/-
  REDELIVERY (spec P4, §4.3 scenario 4).  Gossip delivers blocks again and again; what does a
  second `Blocks(B)` do after a first one?

  After the first arm, every block of `B` has its origin recorded, was stamped no later than
  that arm's clock, and is in one of three classes: stored, failing the PoW check, or waiting
  under a parent that is still not stored (`Delivered` — the last class is kept to the arm's
  end by promotion: had the parent been stored, its entry would have been drained).  So the
  second arm inserts nothing: the two maps, the tip and the origins stay, nothing is announced.
  But `add_to_orphan_buffer` APPENDS with no membership test (spec §3: "appends the block to the
  list keyed by its parent hash"), so every block of `B` still waiting is buffered once more.
-/
import PowNode.Frame
import PowNode.Orphans

namespace PowNode

variable {H : Type} [LinearOrder H] {E : Env H}

variable (E) in
/-- The spec's orphan (§7), as the `Blocks` arm tests it: not stored, passes the PoW check, and
    its parent is not stored. -/
def Blockchain.isOrphan (s : Blockchain H) (b : Block H) : Bool :=
  !s.containsBlock (E.hash b) && s.powValidityCheck E b && !s.parentCheck b

/-! ## One delivered block -/

/-- Origins after one delivered block: its own is recorded, and no other is touched. -/
theorem receiveBlock_hashToOrigin {now : Nat} {t t' : Blockchain H} {b : Block H}
    {relay missing relay' missing' : List H}
    (h : receiveBlock E now (t, relay, missing) b = some (t', relay', missing')) (x : H) :
    x ∈ t'.hashToOrigin ↔ x = E.hash b ∨ x ∈ t.hashToOrigin :=
  receiveBlock_elim (fun u _ _ => x ∈ u.hashToOrigin ↔ x = E.hash b ∨ x ∈ t.hashToOrigin) h
    (fun _ _ => Blockchain.mem_recordOrigin) (fun _ _ _ _ => Blockchain.mem_recordOrigin)
    (fun _ _ _ _ _ _ hins => by
      simp only [(Blockchain.insertRecursivelyAux_extends hins).origin, Blockchain.mem_recordOrigin])

variable (E) in
/-- What a block is in `t`, once an arm with clock `now` has delivered it: its origin is
    recorded, its stamp was not in the future, and it is placed. -/
def Delivered (now : Nat) (t : Blockchain H) (b : Block H) : Prop :=
  E.hash b ∈ t.hashToOrigin ∧ b.header.timestamp ≤ now ∧ Placed E t b

/-- Delivering a block makes it `Delivered`. -/
theorem receiveBlock_delivered {now : Nat} {t t' : Blockchain H} {b : Block H}
    {relay missing relay' missing' : List H}
    (h : receiveBlock E now (t, relay, missing) b = some (t', relay', missing')) :
    Delivered E now t' b := by
  refine ⟨(receiveBlock_hashToOrigin h _).mpr (Or.inl rfl), ?_, receiveBlock_placed h⟩
  obtain ⟨d, hd, -⟩ := receiveBlock_cases h
  exact (delayMs_eq_some.mp hd).1

/-- Every later block of the same arm keeps it so. -/
theorem Delivered.receiveBlock {now now' : Nat} {t t' : Blockchain H} {b c : Block H}
    {relay missing relay' missing' : List H} (hd : Delivered E now t b)
    (h : PowNode.receiveBlock E now' (t, relay, missing) c = some (t', relay', missing')) :
    Delivered E now t' b :=
  ⟨(receiveBlock_hashToOrigin h _).mpr (Or.inr hd.1), hd.2.1, hd.2.2.receiveBlock h⟩

/-- After a `Blocks` arm, every block it was given is `Delivered`. -/
theorem handleBlocks_delivered {now : Nat} {s s₁ : Blockchain H} {blocks : List (Block H)}
    {out : List (Outbound H)} (h : handleBlocks E now s blocks = some (s₁, out)) :
    ∀ b ∈ blocks, Delivered E now s₁ b := by
  obtain ⟨relay, missing, hfold, -⟩ := handleBlocks_spec h
  exact foldlM_post (fun b acc => Delivered E now acc.1 b)
    (fun ⟨_, _, _⟩ _ ⟨_, _, _⟩ _ h' => receiveBlock_delivered h')
    (fun ⟨_, _, _⟩ _ _ ⟨_, _, _⟩ _ hd h' => hd.receiveBlock h') hfold

/-! ## The second delivery -/

/-- A `Delivered` block, delivered again to a store with the same key set, difficulty and
    origins, is buffered once more if it is an orphan and skipped otherwise. -/
theorem receiveBlock_again {now now' : Nat} (hnow : now ≤ now') {s t : Blockchain H}
    {b : Block H} {relay missing : List H} (hd : Delivered E now s b)
    (hB : t.hashToBlock = s.hashToBlock) (hD : t.difficulty = s.difficulty)
    (hR : t.hashToOrigin = s.hashToOrigin) :
    receiveBlock E now' (t, relay, missing) b = some (if s.isOrphan E b then
      (t.addToOrphanBuffer b, relay, missing ++ [b.header.parent]) else (t, relay, missing)) := by
  obtain ⟨ho, hts, hcl⟩ := hd
  have hc : t.powValidityCheck E b = s.powValidityCheck E b := Blockchain.powValidityCheck_congr hD
  simp only [receiveBlock, delayMs, if_pos (hts.trans hnow), Option.bind_eq_bind, Option.some_bind,
    Blockchain.recordOrigin_of_mem (hR ▸ ho), Blockchain.isOrphan, Blockchain.containsBlock,
    Blockchain.parentCheck, hB, hc]
  rcases hcl with hs | hf | ⟨-, hq⟩
  · simp [hs]
  · simp [hf]
  · by_cases hs : E.hash b ∈ s.hashToBlock
    · simp [hs]
    · by_cases hf : s.powValidityCheck E b = true <;> simp [hs, hq, hf]

/-- The second arm's loop: no insert, and the orphans of the list buffered again, in order. -/
theorem foldlM_receiveBlock_again {now now' : Nat} (hnow : now ≤ now') {s : Blockchain H} :
    ∀ (l : List (Block H)) (t : Blockchain H) (missing : List H), (∀ b ∈ l, Delivered E now s b) →
      t.hashToBlock = s.hashToBlock → t.difficulty = s.difficulty →
      t.hashToOrigin = s.hashToOrigin →
      l.foldlM (receiveBlock E now') (t, [], missing) =
        some ((l.filter (s.isOrphan E)).foldl Blockchain.addToOrphanBuffer t, [],
          missing ++ (l.filter (s.isOrphan E)).map (·.header.parent))
  | [], _, _, _, _, _, _ => by simp
  | b :: l, t, missing, hl, hB, hD, hR => by
    rw [List.foldlM_cons, receiveBlock_again hnow (hl b (List.mem_cons_self _ _)) hB hD hR,
      Option.bind_eq_bind]
    have hl' := fun c hc => hl c (List.mem_cons_of_mem b hc)
    by_cases ho : s.isOrphan E b
    · rw [if_pos ho, Option.some_bind, foldlM_receiveBlock_again hnow l _ _ hl' (by simpa using hB)
        (by simpa using hD) (by simpa using hR)]
      simp [List.filter_cons, ho]
    · rw [if_neg ho, Option.some_bind, foldlM_receiveBlock_again hnow l _ _ hl' hB hD hR]
      simp [List.filter_cons, ho]

/-- Buffering touches nothing but the buffer. -/
theorem foldl_addToOrphanBuffer : ∀ (l : List (Block H)) (t : Blockchain H),
    (l.foldl Blockchain.addToOrphanBuffer t).hashToBlock = t.hashToBlock ∧
    (l.foldl Blockchain.addToOrphanBuffer t).hashToHeight = t.hashToHeight ∧
    (l.foldl Blockchain.addToOrphanBuffer t).tip = t.tip ∧
    (l.foldl Blockchain.addToOrphanBuffer t).hashToOrigin = t.hashToOrigin
  | [], _ => ⟨rfl, rfl, rfl, rfl⟩
  | b :: l, t => by simpa using foldl_addToOrphanBuffer l (t.addToOrphanBuffer b)

/-- **Redelivery.**  From any store, if a `Blocks(B)` arm returns, a second `Blocks(B)` with a
    clock no earlier returns too: it leaves the two maps, the tip and the origins as the first
    left them and announces nothing, and it appends to the buffer, once more and in order,
    every block of `B` that is still an orphan. -/
theorem handleBlocks_redelivery {now now' : Nat} (hnow : now ≤ now') {s s₁ : Blockchain H}
    {blocks : List (Block H)} {out₁ : List (Outbound H)}
    (h : handleBlocks E now s blocks = some (s₁, out₁)) :
    ∃ s₂ out₂, handleBlocks E now' s₁ blocks = some (s₂, out₂) ∧
      s₂.hashToBlock = s₁.hashToBlock ∧ s₂.hashToHeight = s₁.hashToHeight ∧ s₂.tip = s₁.tip ∧
      s₂.hashToOrigin = s₁.hashToOrigin ∧
      s₂.orphanBuffer =
        ((blocks.filter (s₁.isOrphan E)).foldl Blockchain.addToOrphanBuffer s₁).orphanBuffer ∧
      announced out₂ = [] := by
  have hfold := foldlM_receiveBlock_again hnow blocks s₁ [] (handleBlocks_delivered h) rfl rfl rfl
  have hf := foldl_addToOrphanBuffer (blocks.filter (s₁.isOrphan E)) s₁
  exact ⟨_, _, by rw [handleBlocks, hfold]; rfl, hf.1, hf.2.1, hf.2.2.1, hf.2.2.2, rfl,
    announced_handleBlocks⟩

/-- A block whose parent no node has. -/
def strayBlock : Block Int := ⟨⟨5, 0, 0, 0, 0⟩, ⟨[]⟩⟩

/-- The hypotheses hold for a stray block delivered to a fresh node, then again. -/
theorem redelivery_of_stray :
    ∃ s₁ o₁, handleBlocks (sampleEnv true) 0 (Blockchain.new (sampleEnv true)) [strayBlock] =
      some (s₁, o₁) ∧ ∃ s₂ out₂, handleBlocks (sampleEnv true) 0 s₁ [strayBlock] = some (s₂, out₂) ∧
        announced out₂ = [] := by
  obtain ⟨s₁, o₁, h₁⟩ : ∃ s₁ o₁, handleBlocks (sampleEnv true) 0
      (Blockchain.new (sampleEnv true)) [strayBlock] = some (s₁, o₁) := ⟨_, _, rfl⟩
  obtain ⟨s₂, out₂, h₂, -, -, -, -, -, hann⟩ := handleBlocks_redelivery (le_refl 0) h₁
  exact ⟨s₁, o₁, h₁, s₂, out₂, h₂, hann⟩

/-- **A redelivered orphan is buffered twice.**  From a fresh node, `Blocks([stray])` buffers the
    stray block under its parent; the same message again buffers it a second time. -/
theorem redelivered_orphan_buffered_twice :
    Reachable (sampleEnv true) (Blockchain.new (sampleEnv true)) ∧
    ∃ s₁ o₁ s₂ o₂,
      handleBlocks (sampleEnv true) 0 (Blockchain.new (sampleEnv true)) [strayBlock] =
        some (s₁, o₁) ∧
      handleBlocks (sampleEnv true) 0 s₁ [strayBlock] = some (s₂, o₂) ∧
      s₁.orphanBuffer.lookup 5 = some [strayBlock] ∧
      s₂.orphanBuffer.lookup 5 = some [strayBlock, strayBlock] :=
  ⟨Reachable.new, _, _, _, _, rfl, rfl, by decide, by decide⟩

end PowNode
