/-
  The MINER (`miner.rs`): one attempt per loop iteration, under the block-tree lock and then the
  mempool lock.

  An attempt pops up to 10 transactions, substitutes `Default::default()` when it got none (the
  Merkle tree needs a leaf), builds a candidate on the tip with the TIP BLOCK's difficulty, and
  either inserts and announces it (hash ≤ difficulty) or pushes "the transactions back".  Those
  transactions are the block's, so on an empty mempool the filler — which was never popped — is
  pushed into the mempool (`mine_empty_mempool`).

  The mempool (mempool.rs is not among the sources) is its content as a `List`, with the
  collaborator's `pop` and `insert` from `Env`; the spec's contract for them is `PoolContract`.
-/
import PowNode.Worker

namespace PowNode

variable {H : Type} [LinearOrder H] (E : Env H)

/-- The selection loop `while let Some(tx) = mempool.pop() { push; if len >= 10 { break } }`,
    with at most `fuel` iterations left: from `10` and `[]` the `break` always comes first. -/
def selectTransactions : Nat → List SignedTransaction → List SignedTransaction →
    List SignedTransaction × List SignedTransaction
  | 0, transactions, pool => (transactions, pool)
  | fuel + 1, transactions, pool =>
    match E.pop pool with
    | none => (transactions, pool)
    | some (tx, pool) =>
      let transactions := transactions ++ [tx]
      if transactions.length ≥ 10 then (transactions, pool)
      else selectTransactions fuel transactions pool

/-- The candidate block of an attempt, and the mempool left once its transactions are popped. -/
def candidate (s : Blockchain H) (pool : List SignedTransaction) (nonce : UInt32)
    (timestamp : Nat) : Option (Block H × List SignedTransaction) := do
  let parent := s.tip
  let difficulty := (← s.getBlock parent).header.difficulty
  let (transactions, pool) := selectTransactions E 10 [] pool
  let transactions := if transactions.isEmpty then [default] else transactions
  pure (⟨⟨parent, nonce, difficulty, timestamp, E.merkleRoot transactions⟩, ⟨transactions⟩⟩, pool)

/-- One attempt of `miner_loop`: insert, record `Mined` and broadcast `NewBlockHashes([hash])`
    when `block.hash() <= difficulty`; otherwise push every transaction of the block back. -/
def mine (s : Blockchain H) (pool : List SignedTransaction) (nonce : UInt32) (timestamp : Nat) :
    Option (Blockchain H × List SignedTransaction × List (Outbound H)) := do
  let (block, pool) ← candidate E s pool nonce timestamp
  if E.hash block ≤ block.header.difficulty then do
    let s ← s.insert E block
    pure ({ s with hashToOrigin := s.hashToOrigin.insert (E.hash block) .mined }, pool,
      [.broadcast (.newBlockHashes [E.hash block])])
  else pure (s, block.content.transactions.foldl (fun pool tx => E.push tx pool) pool, [])

/-- Modelled from the spec: the mempool collaborator's contract, "`pop()` removes and returns an
    arbitrary pending transaction, or nothing; `insert(tx)` adds a transaction", on contents
    read as multisets. -/
structure PoolContract : Prop where
  pop_none : ∀ pool, E.pop pool = none ↔ pool = []
  pop_some : ∀ pool tx rest, E.pop pool = some (tx, rest) →
    (pool : Multiset SignedTransaction) = tx ::ₘ rest
  push : ∀ tx pool, (E.push tx pool : Multiset SignedTransaction) = tx ::ₘ pool

/-- The sample environment's stack meets the contract. -/
theorem sampleEnv_poolContract (mines : Bool) : PoolContract (sampleEnv mines) where
  pop_none pool := by cases pool <;> simp [sampleEnv]
  pop_some pool tx rest h := by
    cases pool with
    | nil => simp [sampleEnv] at h
    | cons t l => simp only [sampleEnv, Option.some.injEq, Prod.mk.injEq] at h; simp [h.1, h.2]
  push _ _ := rfl

variable {E}

/-! ## What an attempt does -/

/-- The inversion lemma of `candidate`: it read the tip block, and built on it. -/
theorem candidate_spec {s : Blockchain H} {pool rest : List SignedTransaction} {nonce : UInt32}
    {timestamp : Nat} {b : Block H} (h : candidate E s pool nonce timestamp = some (b, rest)) :
    ∃ tipBlock, s.hashToBlock.lookup s.tip = some tipBlock ∧ b.header.parent = s.tip ∧
      b.header.difficulty = tipBlock.header.difficulty ∧
      b.content.transactions = (if (selectTransactions E 10 [] pool).1.isEmpty then [default]
        else (selectTransactions E 10 [] pool).1) ∧
      rest = (selectTransactions E 10 [] pool).2 := by
  simp only [candidate, Blockchain.getBlock, Option.bind_eq_bind, Option.bind_eq_some,
    Option.pure_def, Option.some.injEq] at h
  obtain ⟨tb, htb, h⟩ := h
  cases h
  exact ⟨tb, htb, rfl, rfl, rfl, rfl⟩

/-- The inversion lemma of `mine`: a candidate was built, and it was either inserted and
    announced, or its transactions were pushed back. -/
theorem mine_spec {s s' : Blockchain H} {pool pool' : List SignedTransaction} {nonce : UInt32}
    {timestamp : Nat} {out : List (Outbound H)}
    (h : mine E s pool nonce timestamp = some (s', pool', out)) : ∃ b rest,
      candidate E s pool nonce timestamp = some (b, rest) ∧
      ((E.hash b ≤ b.header.difficulty ∧ ∃ s₁, s.insert E b = some s₁ ∧
          s' = { s₁ with hashToOrigin := s₁.hashToOrigin.insert (E.hash b) .mined } ∧
          pool' = rest ∧ out = [.broadcast (.newBlockHashes [E.hash b])]) ∨
        (¬ E.hash b ≤ b.header.difficulty ∧ s' = s ∧
          pool' = b.content.transactions.foldl (fun pool tx => E.push tx pool) rest ∧
          out = [])) := by
  simp only [mine, Option.bind_eq_bind, Option.bind_eq_some] at h
  obtain ⟨⟨b, rest⟩, hc, h⟩ := h
  refine ⟨b, rest, hc, ?_⟩
  split at h
  · simp only [Option.bind_eq_some, Option.pure_def, Option.some.injEq, Prod.mk.injEq] at h
    obtain ⟨s₁, hs₁, h⟩ := h
    exact Or.inl ⟨‹_›, s₁, hs₁, h.1.symm, h.2.1.symm, h.2.2.symm⟩
  · simp only [Option.pure_def, Option.some.injEq, Prod.mk.injEq] at h
    exact Or.inr ⟨‹_›, h.1.symm, h.2.1.symm, h.2.2.symm⟩

/-! ## The mempool across an attempt -/

omit [LinearOrder H] in
/-- **Selection.**  From `10 - k` iterations after `k` pops, the loop ends holding the first
    `min (k + #pool) 10` popped transactions, and what it popped is what left the pool. -/
theorem selectTransactions_spec (hc : PoolContract E) :
    ∀ fuel (txs pool : List SignedTransaction), txs.length + fuel = 10 →
      ((selectTransactions E fuel txs pool).1 : Multiset SignedTransaction) +
          (selectTransactions E fuel txs pool).2 = txs + pool ∧
        (selectTransactions E fuel txs pool).1.length = min (txs.length + pool.length) 10 := by
  intro fuel
  induction fuel with
  | zero => intro txs pool h; simp [selectTransactions]; omega
  | succ fuel ih =>
    intro txs pool h
    simp only [selectTransactions]
    rcases hp : E.pop pool with _ | ⟨tx, rest⟩
    · simp [(hc.pop_none pool).mp hp]; omega
    · have hpool := hc.pop_some pool tx rest hp
      have hlen : pool.length = rest.length + 1 := by
        simpa using congrArg Multiset.card hpool
      have hsum : (↑(txs ++ [tx]) : Multiset SignedTransaction) + rest = txs + pool := by
        rw [hpool, ← Multiset.coe_add, Multiset.coe_singleton, add_assoc, Multiset.singleton_add]
      simp only
      split
      · exact ⟨hsum, by simp at *; omega⟩
      · obtain ⟨h₁, h₂⟩ := ih (txs ++ [tx]) rest (by simp; omega)
        exact ⟨h₁.trans hsum, by rw [h₂]; simp; omega⟩

omit [LinearOrder H] in
/-- Pushing a list back adds it, as a multiset. -/
theorem foldl_push (hc : PoolContract E) :
    ∀ (l pool : List SignedTransaction),
      ((l.foldl (fun pool tx => E.push tx pool) pool : List SignedTransaction) :
        Multiset SignedTransaction) = pool + l
  | [], _ => by simp
  | tx :: l, pool => by
    rw [List.foldl_cons, foldl_push hc l, hc.push, Multiset.cons_add, ← Multiset.cons_coe,
      Multiset.add_cons]

/-- **The mempool across one attempt.**  The attempt pops `T`, the first `min (#M) 10`
    transactions of the mempool `M`.  A mined block carries `T` — or the filler alone when `T`
    is empty — and leaves `M - T`.  A missed attempt pushes the block's transactions back, so it
    leaves `M` plus, when `M` was empty, the filler `Default::default()`, which `M` never held. -/
theorem mine_mempool (hc : PoolContract E) {s s' : Blockchain H}
    {pool pool' : List SignedTransaction} {nonce : UInt32} {timestamp : Nat}
    {out : List (Outbound H)} (h : mine E s pool nonce timestamp = some (s', pool', out)) :
    (selectTransactions E 10 [] pool).1.length = min pool.length 10 ∧
    ((selectTransactions E 10 [] pool).1 : Multiset SignedTransaction) ≤ pool ∧
    ((out = [] ∧ s' = s ∧ (pool' : Multiset SignedTransaction) =
        pool + (if (selectTransactions E 10 [] pool).1 = [] then {default} else 0)) ∨
      (∃ b, out = [.broadcast (.newBlockHashes [E.hash b])] ∧
        b.content.transactions = (if (selectTransactions E 10 [] pool).1 = [] then [default]
          else (selectTransactions E 10 [] pool).1) ∧
        (pool' : Multiset SignedTransaction) = pool - (selectTransactions E 10 [] pool).1)) := by
  obtain ⟨hsum, hlen⟩ := selectTransactions_spec hc 10 [] pool rfl
  simp only [List.length_nil, zero_add, Multiset.coe_nil] at hsum hlen
  obtain ⟨b, rest, hcand, hrun⟩ := mine_spec h
  obtain ⟨-, -, -, -, htxs, rfl⟩ := candidate_spec hcand
  have hT : ((selectTransactions E 10 [] pool).1 : Multiset SignedTransaction) ≤ pool :=
    hsum ▸ Multiset.le_add_right _ _
  have hrest : ((selectTransactions E 10 [] pool).2 : Multiset SignedTransaction) =
      pool - (selectTransactions E 10 [] pool).1 := by
    rw [← hsum, add_tsub_cancel_left]
  refine ⟨hlen, hT, ?_⟩
  simp only [List.isEmpty_iff] at htxs
  rcases hrun with ⟨-, -, -, -, rfl, rfl⟩ | ⟨-, rfl, rfl, rfl⟩
  · exact Or.inr ⟨b, rfl, htxs, hrest⟩
  · refine Or.inl ⟨rfl, rfl, ?_⟩
    rw [foldl_push hc, htxs, hrest]
    by_cases hnil : (selectTransactions E 10 [] pool).1 = []
    · simp [hnil]
    · rw [if_neg hnil, if_neg hnil, tsub_add_cancel_of_le hT, add_zero]

/-- The failing input: a fresh node's attempt on an empty mempool, under a hash that meets
    no target, ends with the filler in the mempool, which held nothing. -/
theorem mine_mempool_empty_miss :
    PoolContract (sampleEnv false) ∧
      mine (sampleEnv false) (Blockchain.new (sampleEnv false)) [] 0 0 =
        some (Blockchain.new (sampleEnv false), [default], []) ∧
      (([default] : List SignedTransaction) : Multiset SignedTransaction) =
        (([] : List SignedTransaction) : Multiset SignedTransaction) + {default} := by
  have hmine : mine (sampleEnv false) (Blockchain.new (sampleEnv false)) [] 0 0 =
      some (Blockchain.new (sampleEnv false), [default], []) := rfl
  refine ⟨sampleEnv_poolContract false, hmine, ?_⟩
  rcases (mine_mempool (sampleEnv_poolContract false) hmine).2.2 with ⟨-, -, h⟩ | ⟨b, hb, -⟩
  · exact h
  · simp at hb

end PowNode
