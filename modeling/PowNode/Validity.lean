/-
  The POW GATE (spec §3 invariant 4 and P6): everything in the store but genesis, and everything
  in the orphan buffer, has passed `pow_validity_check`, against a difficulty that never moves.

  The miner reads its target from the TIP BLOCK's header, not from `self.difficulty`: it agrees
  with the gate only because every stored block carries the network difficulty.  Nothing here
  assumes anything of the hash — every write keeps the invariant, overwriting or not.

  `Validated` carries two more facts every write keeps whatever the hash, for the later
  files: the two maps have one key set, and every buffered block waits under its own parent.
-/
import PowNode.Node

namespace PowNode

variable {H : Type} [LinearOrder H] {E : Env H}

/-- **The gate invariant.** -/
structure Validated (E : Env H) (s : Blockchain H) : Prop where
  keys : ∀ h, h ∈ s.hashToBlock ↔ h ∈ s.hashToHeight
  difficulty : s.difficulty = E.genesis.header.difficulty
  stored : ∀ h b, s.hashToBlock.lookup h = some b → b = E.genesis ∨ s.powValidityCheck E b = true
  buffered : ∀ p cs, s.orphanBuffer.lookup p = some cs → ∀ c ∈ cs,
    c.header.parent = p ∧ s.powValidityCheck E c = true

namespace Validated

variable {s s' : Blockchain H} {b : Block H}

/-- Under the gate, every store checks a block as a fresh node does. -/
theorem check_eq (hv : Validated E s) (b : Block H) :
    s.powValidityCheck E b = (Blockchain.new E).powValidityCheck E b :=
  Blockchain.powValidityCheck_congr hv.difficulty

theorem congr (hv : Validated E s) (hB : s'.hashToBlock = s.hashToBlock)
    (hH : s'.hashToHeight = s.hashToHeight) (hD : s'.difficulty = s.difficulty)
    (hO : s'.orphanBuffer = s.orphanBuffer) : Validated E s' := by
  obtain ⟨h₁, h₂, h₃, h₄⟩ := hv
  have hc := fun b => Blockchain.powValidityCheck_congr (E := E) (b := b) hD
  exact ⟨hB ▸ hH ▸ h₁, hD ▸ h₂, fun h c hh => by rw [hc]; exact h₃ h c (hB ▸ hh),
    fun p cs hp c hcs => by rw [hc]; exact h₄ p cs (hO ▸ hp) c hcs⟩

/-- Inserting a block that passes the check keeps the gate, whatever the block overwrites. -/
theorem insert (hv : Validated E s) (hb : s.powValidityCheck E b = true)
    (h : s.insert E b = some s') : Validated E s' := by
  obtain ⟨_, _, -, -, hB, hH, -, hD, hO, -⟩ := Blockchain.insert_eq_some.mp h
  have hc := fun b => Blockchain.powValidityCheck_congr (E := E) (b := b) hD
  refine ⟨fun h => by rw [hB, hH, Finmap.mem_insert, Finmap.mem_insert, hv.keys],
    hD ▸ hv.difficulty, fun h c hh => ?_, fun p cs hp c hcs => ?_⟩
  · rw [hc]; rw [hB, lookup_insert_eq_some] at hh
    rcases hh with ⟨-, rfl⟩ | ⟨-, hh⟩
    · exact Or.inr hb
    · exact hv.stored h c hh
  · rw [hc]; exact hv.buffered p cs (hO ▸ hp) c hcs

/-- Taking an entry out of the orphan buffer keeps the gate. -/
theorem erase (hv : Validated E s) (p : H) :
    Validated E { s with orphanBuffer := s.orphanBuffer.erase p } := by
  refine ⟨hv.keys, hv.difficulty, hv.stored, fun q cs hq => ?_⟩
  by_cases he : q = p
  · subst he; simp at hq
  · rw [Finmap.lookup_erase_ne he] at hq; exact hv.buffered q cs hq

/-- Buffering a block that passes the check keeps the gate: it waits under its parent. -/
theorem addToOrphanBuffer (hv : Validated E s) (hb : s.powValidityCheck E b = true) :
    Validated E (s.addToOrphanBuffer b) := by
  refine ⟨hv.keys, hv.difficulty, hv.stored, fun p cs hp c hc => ?_⟩
  have hc : c ∈ ((s.addToOrphanBuffer b).orphanBuffer.lookup p).getD [] := by rw [hp]; exact hc
  rcases Blockchain.mem_addToOrphanBuffer.mp hc with hc | ⟨rfl, rfl⟩
  · obtain ⟨cs', hcs', hc⟩ := exists_of_mem_getD hc
    exact hv.buffered _ cs' hcs' c hc
  · exact ⟨rfl, hb⟩

/-- The local step of `insert_recursively`: a checked block is inserted, and the children it
    takes out of the buffer were checked when buffered. -/
theorem insert_erase (hv : Validated E s) (hb : s.powValidityCheck E b = true)
    (h : s.insert E b = some s') :
    Validated E s' ∧ ∀ cs, s'.orphanBuffer.lookup (E.hash b) = some cs →
      (∀ c ∈ cs, (Blockchain.new E).powValidityCheck E c = true) ∧
      Validated E { s' with orphanBuffer := s'.orphanBuffer.erase (E.hash b) } :=
  have hv₁ := hv.insert hb h
  ⟨hv₁, fun cs hcs => ⟨fun c hc => (hv₁.check_eq c).symm.trans (hv₁.buffered _ cs hcs c hc).2,
    hv₁.erase _⟩⟩

/-- Through `insert_recursively`. -/
theorem insertRecursivelyAux (hv : Validated E s) (hb : s.powValidityCheck E b = true)
    {n : Nat} {out : List H} {r : Blockchain H × List H}
    (h : Blockchain.insertRecursivelyAux E n s b out = some r) : Validated E r.1 :=
  Blockchain.insertRecursivelyAux_inv (fun t _ => Validated E t)
    (fun c => (Blockchain.new E).powValidityCheck E c = true)
    (fun _ _ c _ hv' hc _ hs₁ =>
      have h₁ := hv'.insert_erase ((hv'.check_eq c).trans hc) hs₁
      ⟨fun _ => h₁.1, h₁.2⟩)
    n s b out r hv ((hv.check_eq b).symm.trans hb) h

/-- Through one delivered block: it is recorded, then skipped, buffered or promoted. -/
theorem receiveBlock (hv : Validated E s) {now : Nat} {relay missing relay' missing' : List H}
    (h : PowNode.receiveBlock E now (s, relay, missing) b = some (s', relay', missing')) :
    Validated E s' := by
  have ht : ∀ d, Validated E (s.recordOrigin (E.hash b) (.received d)) := fun _ =>
    hv.congr (by simp) (by simp) (by simp) (by simp)
  have hc : ∀ d, (s.recordOrigin (E.hash b) (.received d)).powValidityCheck E b =
      s.powValidityCheck E b := fun _ => Blockchain.powValidityCheck_congr (by simp)
  exact receiveBlock_elim (fun t _ _ => Validated E t) h (fun d _ => ht d)
    (fun d _ hp _ => (ht d).addToOrphanBuffer ((hc d).trans hp))
    (fun d _ _ _ hp _ hins => (ht d).insertRecursivelyAux ((hc d).trans hp) hins)

/-- A candidate carries the network difficulty: it copies the tip block's, and every stored
    block carries it. -/
theorem candidate_difficulty (hv : Validated E s) {pool rest : List SignedTransaction}
    {nonce : UInt32} {timestamp : Nat} (hc : candidate E s pool nonce timestamp = some (b, rest)) :
    b.header.difficulty = s.difficulty := by
  obtain ⟨tb, htb, -, hd, -⟩ := candidate_spec hc
  rcases hv.stored _ tb htb with rfl | hp
  · rw [hd, hv.difficulty]
  · rw [hd]; exact ((Blockchain.powValidityCheck_iff.mp hp).2)

/-- **The miner's test is the gate.**  On a candidate, `hash <= tip block's difficulty` holds
    exactly when `pow_validity_check` does. -/
theorem candidate_check (hv : Validated E s) {pool rest : List SignedTransaction}
    {nonce : UInt32} {timestamp : Nat} (hc : candidate E s pool nonce timestamp = some (b, rest)) :
    E.hash b ≤ b.header.difficulty ↔ s.powValidityCheck E b = true := by
  simp [hv.candidate_difficulty hc]

/-- Through a mining attempt: a mined block passes the gate. -/
theorem mine (hv : Validated E s) {pool pool' : List SignedTransaction} {nonce : UInt32}
    {timestamp : Nat} {out : List (Outbound H)}
    (h : PowNode.mine E s pool nonce timestamp = some (s', pool', out)) : Validated E s' := by
  obtain ⟨b, rest, hc, ⟨hle, s₁, hs₁, rfl, -⟩ | ⟨-, rfl, -⟩⟩ := mine_spec h
  · exact (hv.insert ((hv.candidate_check hc).mp hle) hs₁).congr rfl rfl rfl rfl
  · exact hv

theorem new : Validated E (Blockchain.new E) := by
  refine ⟨fun h => by simp [Blockchain.new, Finmap.not_mem_empty], rfl, fun h c hc => Or.inl ?_, fun p cs hp => by
    simp [Blockchain.new] at hp⟩
  by_cases he : h = E.hash E.genesis
  · subst he; simpa [Blockchain.new] using hc.symm
  · simp [Blockchain.new, Finmap.lookup_insert_of_ne _ he] at hc

end Validated

/-- Every reachable state passes the gate — with no assumption on the hash. -/
theorem Reachable.validated {s : Blockchain H} (hs : Reachable E s) : Validated E s := by
  obtain ⟨evs, out, h⟩ := hs
  exact run_inv (fun t _ => Validated E t) (fun _ _ _ _ _ _ _ _ _ hv h' => hv.receiveBlock h')
    (fun _ _ _ _ _ _ _ _ hv h' => hv.mine h') [] Validated.new h

/-- **The PoW gate.**  In every reachable state the difficulty is the genesis one, and every
    stored block carries it; every stored block but genesis, and every buffered block, passes
    `pow_validity_check`; and on every candidate the miner's test agrees with the check — of
    this node and of every reachable peer started from the same genesis. -/
theorem reachable_pow_gate {s : Blockchain H} (hs : Reachable E s) :
    s.difficulty = E.genesis.header.difficulty ∧
    (∀ h b, s.hashToBlock.lookup h = some b → b.header.difficulty = s.difficulty) ∧
    (∀ h b, s.hashToBlock.lookup h = some b → b ≠ E.genesis → s.powValidityCheck E b = true) ∧
    (∀ p cs, s.orphanBuffer.lookup p = some cs → ∀ c ∈ cs, s.powValidityCheck E c = true) ∧
    ∀ pool nonce timestamp b rest, candidate E s pool nonce timestamp = some (b, rest) →
      (E.hash b ≤ b.header.difficulty ↔ s.powValidityCheck E b = true) ∧
      ∀ t, Reachable E t → t.powValidityCheck E b = s.powValidityCheck E b := by
  have hv := hs.validated
  refine ⟨hv.difficulty, fun h b hb => ?_, fun h b hb hg => (hv.stored h b hb).resolve_left hg,
    fun p cs hp c hc => (hv.buffered p cs hp c hc).2,
    fun _ _ _ _ _ hc => ⟨hv.candidate_check hc, fun t ht => ?_⟩⟩
  · rcases hv.stored h b hb with rfl | hp
    · exact hv.difficulty.symm
    · exact (Blockchain.powValidityCheck_iff.mp hp).2
  · rw [ht.validated.check_eq, hv.check_eq]

/-- The hypothesis holds after the sample fork: the waiting `nephew` passes the check, and the
    node's next candidate is judged alike by every reachable peer. -/
theorem pow_gate_after_fork :
    ∃ s out, run (sampleEnv true) (Blockchain.new (sampleEnv true)) forkRun = some (s, out) ∧
      s.orphanBuffer.lookup ((sampleEnv true).hash sibling) = some [nephew] ∧
      s.powValidityCheck (sampleEnv true) nephew = true ∧
      ∀ b rest, candidate (sampleEnv true) s [] 0 3 = some (b, rest) →
        ((sampleEnv true).hash b ≤ b.header.difficulty ↔
          s.powValidityCheck (sampleEnv true) b = true) ∧
        ∀ t, Reachable (sampleEnv true) t →
          t.powValidityCheck (sampleEnv true) b = s.powValidityCheck (sampleEnv true) b := by
  obtain ⟨s, out, h, hbuf⟩ : ∃ s out,
      run (sampleEnv true) (Blockchain.new (sampleEnv true)) forkRun = some (s, out) ∧
      s.orphanBuffer.lookup ((sampleEnv true).hash sibling) = some [nephew] :=
    ⟨_, _, rfl, by decide⟩
  have hG := reachable_pow_gate (E := sampleEnv true) ⟨_, _, h⟩
  exact ⟨s, out, h, hbuf, hG.2.2.2.1 _ _ hbuf nephew (List.mem_singleton_self _),
    fun b rest hc => hG.2.2.2.2 [] 0 3 b rest hc⟩

end PowNode
