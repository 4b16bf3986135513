/-
  The MINER THREAD: `miner_loop`, the state machine that decides when the node mines, and
  `handle_control_signal`, which moves it; run together with the worker threads on the shared
  block-tree, in any interleaving.

  1. THE STATE MACHINE.  `Paused` blocks in `recv` for a signal; `Run(λ)` polls with `try_recv`
     and then makes one attempt; `ShutDown` returns.  `Start(λ)` sets `Run(λ)` and, the first
     time only, `start_time`; `Exit` sets `ShutDown` and, once the miner has started, computes
     the statistics it prints.  A `none` of the model is a panic: `recv().unwrap()`, the
     `Disconnected` arm, an `unwrap` of the handler, or one of the attempt — among them
     `total_blocks_mined += 1`, which a debug build checks as it checks the subtraction of the
     `Blocks` arm (`delayMs`): one build semantics for all of the node's arithmetic.
  2. THE THREADS TOGETHER.  A step of the node is one iteration of the miner's loop or one
     message handled by a worker (`threadStep`).  Every run of the threads is the run of the
     node whose events are its workers' messages and its attempts (`threadEvents`,
     `threadRun_run`), so everything proved of `Reachable` holds of it.
  3. OVER WHOLE RUNS.  `total_blocks_mined` is, modulo 2^64, the number of hashes the origin
     table marks `Mined` (`mined_counter`); `start_time` is set once and kept, and is set
     whenever the miner runs (`startTime_kept`); after `Exit` the miner thread never touches
     the context or the block-tree again (`shutDown_final`); and from every reachable store the
     thread panics only when its channel is disconnected, on `Exit` when the clock reads
     earlier than `start_time`, or when it mines a block with the counter at `u64::MAX`
     (`minerStep_panics_iff`).
-/
import PowNode.LongestChain
import PowNode.Totality

namespace PowNode

/-- `ControlSignal`. -/
inductive ControlSignal where
  | start (lambda : UInt64)
  | exit
deriving DecidableEq

/-- `OperatingState`. -/
inductive OperatingState where
  | paused
  | run (lambda : UInt64)
  | shutDown
deriving DecidableEq

/-- The fields of `miner::Context` that the loop reads and writes; the channel, the server, the
    block-tree and the mempool are its inputs.  `start_time` is a clock reading. -/
structure Context where
  operatingState : OperatingState
  totalBlocksMined : UInt64
  startTime : Option Nat
deriving DecidableEq

/-- `miner::new`: paused, nothing mined, not started. -/
def Context.new : Context := ⟨.paused, 0, none⟩

/-- What the control channel gives the loop when it reads it: a signal; nothing yet (the
    `Empty` of `try_recv`, while `recv` goes on blocking); or `Disconnected`, every `Handle`
    being dropped. -/
inductive Received where
  | signal (sig : ControlSignal)
  | empty
  | disconnected
deriving DecidableEq

/-- How an iteration of `miner_loop` goes on: `return`; round again without an attempt; or the
    attempt of lines 158–215 in state `Run(λ)`. -/
inductive Outcome where
  | exit
  | next
  | attempt (lambda : UInt64)
deriving DecidableEq

variable {H : Type} [LinearOrder H] (E : Env H) (size : Block H → Nat)

/-- `handle_control_signal`, `now` the clock its `SystemTime::now()` reads.  `Exit` prints the
    statistics once the miner has started, so only their panics are kept: the `unwrap` of
    `duration_since(start_time)` when the clock reads earlier than `start_time`, and those of
    `all_blocks_in_longest_chain` and `average_block_size`. -/
def handleControlSignal (s : Blockchain H) (now : Nat) (ctx : Context) :
    ControlSignal → Option Context
  | .exit =>
    let ctx := { ctx with operatingState := .shutDown }
    match ctx.startTime with
    | none => some ctx
    | some startTime =>
      if now < startTime then none
      else do
        let _ ← s.allBlocksInLongestChain
        let _ ← s.averageBlockSize size
        pure ctx
  | .start i => some { ctx with
      operatingState := .run i
      startTime := if ctx.startTime = none then some now else ctx.startTime }

/-- Lines 135–158 of `miner_loop`: read the channel as the state says (`recv` when `Paused`,
    `try_recv` when `Run`), handle what comes, and say how the iteration goes on. -/
def control (s : Blockchain H) (now : Nat) (ctx : Context) (r : Received) :
    Option (Context × Outcome) :=
  match ctx.operatingState with
  | .paused =>
    match r with
    | .signal sig => (handleControlSignal size s now ctx sig).map fun ctx => (ctx, .next)
    | .empty => some (ctx, .next)
    | .disconnected => none
  | .shutDown => some (ctx, .exit)
  | .run _ => do
    let ctx ← match r with
      | .signal sig => handleControlSignal size s now ctx sig
      | .empty => some ctx
      | .disconnected => none
    match ctx.operatingState with
    | .shutDown => some (ctx, .exit)
    | .run i => some (ctx, .attempt i)
    | .paused => some (ctx, .next)

/-- `total_blocks_mined += 1` on `u64`: `none` where a debug build panics with "attempt to add
    with overflow", at `u64::MAX`. -/
def countMined (n : UInt64) : Option UInt64 :=
  if n.toNat + 1 < 2 ^ 64 then some (n + 1) else none

theorem countMined_eq_some {n m : UInt64} :
    countMined n = some m ↔ n.toNat + 1 < 2 ^ 64 ∧ m = n + 1 := by
  unfold countMined
  split <;> rename_i h
  · simp only [Option.some.injEq, h, true_and, eq_comm]
  · simp only [reduceCtorEq, h, false_and]

/-- Lines 164–214 of `miner_loop`, after the sleep: the attempt of `mine`, counting a mined
    block in `total_blocks_mined`. -/
def attempt (ctx : Context) (s : Blockchain H) (pool : List SignedTransaction) (nonce : UInt32)
    (timestamp : Nat) :
    Option (Context × Blockchain H × List SignedTransaction × List (Outbound H)) := do
  let (block, pool) ← candidate E s pool nonce timestamp
  if E.hash block ≤ block.header.difficulty then do
    let s ← s.insert E block
    let total ← countMined ctx.totalBlocksMined
    pure ({ ctx with totalBlocksMined := total },
      { s with hashToOrigin := s.hashToOrigin.insert (E.hash block) .mined }, pool,
      [.broadcast (.newBlockHashes [E.hash block])])
  else pure (ctx, s, block.content.transactions.foldl (fun pool tx => E.push tx pool) pool, [])

/-- What happens next at a node: its miner thread runs one iteration of `miner_loop` — with
    what the channel gives, the clock of the handler, and for an attempt the mempool, the
    nonce and the clock of the block — or a worker handles one message. -/
inductive Thread (H : Type) where
  | miner (r : Received) (now : Nat) (pool : List SignedTransaction) (nonce : UInt32)
      (timestamp : Nat)
  | worker (now : Nat) (msg : Message H)

/-- One step of the node's threads, on the miner's context and the shared block-tree; the
    mempool is the environment's, as in `step`. -/
def threadStep (ctx : Context) (s : Blockchain H) :
    Thread H → Option (Context × Blockchain H × List (Outbound H))
  | .miner r now pool nonce timestamp => do
    let (ctx, o) ← control size s now ctx r
    match o with
    | .attempt _ => do
      let (ctx, s, _, out) ← attempt E ctx s pool nonce timestamp
      pure (ctx, s, out)
    | .exit | .next => pure (ctx, s, [])
  | .worker now msg => do
    let (s, out) ← handleMessage E now s msg
    pure (ctx, s, out)

/-- A run of the threads: the steps in order, their effects concatenated; `none` once a thread
    panics. -/
def threadRun : Context → Blockchain H → List (Thread H) →
    Option (Context × Blockchain H × List (Outbound H))
  | ctx, s, [] => some (ctx, s, [])
  | ctx, s, t :: ts => do
    let (ctx₁, s₁, out₁) ← threadStep E size ctx s t
    let (ctx₂, s₂, out₂) ← threadRun ctx₁ s₁ ts
    pure (ctx₂, s₂, out₁ ++ out₂)

/-- The event of the node one step of the threads makes, from the context and block-tree before
    it: a worker's message is received; the miner's iteration mines exactly when the head of its
    loop makes an attempt. -/
def threadEvent (s : Blockchain H) (ctx : Context) : Thread H → List (Event H)
  | .miner r now pool nonce timestamp =>
    match control size s now ctx r with
    | some (_, .attempt _) => [.mine pool nonce timestamp]
    | _ => []
  | .worker now msg => [.receive now msg]

/-- The events of the node a run of the threads makes, step after step. -/
def threadEvents : Context → Blockchain H → List (Thread H) → List (Event H)
  | _, _, [] => []
  | ctx, s, t :: ts => threadEvent size s ctx t ++
    match threadStep E size ctx s t with
    | some (ctx₁, s₁, _) => threadEvents ctx₁ s₁ ts
    | none => []

/-- The workers' part of an interleaving, as an event of the node. -/
def Thread.workerEvent : Thread H → Option (Event H)
  | .miner .. => none
  | .worker now msg => some (.receive now msg)

/-! ## One lemma per function -/

variable {E size} {s s' : Blockchain H} {ctx ctx' : Context} {now : Nat}

/-- What the handler does: `Exit` only stops; `Start(λ)` runs, setting `start_time` the first
    time. -/
theorem handleControlSignal_cases {sig : ControlSignal}
    (h : handleControlSignal size s now ctx sig = some ctx') :
    (sig = .exit ∧ ctx' = { ctx with operatingState := .shutDown }) ∨
    ∃ i, sig = .start i ∧ ctx' = { ctx with
      operatingState := .run i
      startTime := if ctx.startTime = none then some now else ctx.startTime } := by
  cases sig with
  | start i => exact Or.inr ⟨i, rfl, (Option.some.inj h).symm⟩
  | exit =>
    refine Or.inl ⟨rfl, ?_⟩
    simp only [handleControlSignal] at h
    split at h
    · exact (Option.some.inj h).symm
    · split at h
      · cases h
      · simp only [Option.bind_eq_bind, Option.bind_eq_some, Option.pure_def,
          Option.some.injEq] at h
        obtain ⟨_, -, _, -, rfl⟩ := h
        rfl

/-- What the head of the loop does: nothing once `ShutDown`; otherwise at most one signal
    handled, and an attempt only in state `Run`. -/
theorem control_cases {r : Received} {o : Outcome}
    (h : control size s now ctx r = some (ctx', o)) :
    (ctx.operatingState = .shutDown ∧ ctx' = ctx ∧ o = .exit) ∨
    ((ctx' = ctx ∨ ∃ sig, handleControlSignal size s now ctx sig = some ctx') ∧
      ∀ i, o = .attempt i → ctx'.operatingState = .run i) := by
  unfold control at h
  split at h
  · -- `Paused`: `recv`, then `continue`
    refine Or.inr ?_
    cases r with
    | signal sig =>
      obtain ⟨c, hc, he⟩ := Option.map_eq_some'.mp h
      cases he
      exact ⟨Or.inr ⟨sig, hc⟩, fun _ hi => by cases hi⟩
    | empty => cases h; exact ⟨Or.inl rfl, fun _ hi => by cases hi⟩
    | disconnected => cases h
  · -- `ShutDown`: `return`
    cases h
    exact Or.inl ⟨‹_›, rfl, rfl⟩
  · -- `Run`: `try_recv`, then the state decides
    refine Or.inr ?_
    have hrun : ∀ c, (c = ctx ∨ ∃ sig, handleControlSignal size s now ctx sig = some c) →
        (match c.operatingState with
          | .shutDown => some (c, Outcome.exit)
          | .run i => some (c, .attempt i)
          | .paused => some (c, .next)) = some (ctx', o) →
        (ctx' = ctx ∨ ∃ sig, handleControlSignal size s now ctx sig = some ctx') ∧
          ∀ i, o = .attempt i → ctx'.operatingState = .run i := by
      intro c hc h
      split at h <;> cases h
      · exact ⟨hc, fun _ hi => by cases hi⟩
      · exact ⟨hc, fun _ hi => by cases hi; assumption⟩
      · exact ⟨hc, fun _ hi => by cases hi⟩
    cases r with
    | signal sig =>
      obtain ⟨c, hc, h⟩ := Option.bind_eq_some.mp h
      exact hrun c (Or.inr ⟨sig, hc⟩) h
    | empty => exact hrun ctx (Or.inl rfl) h
    | disconnected => cases h

variable {pool pool' : List SignedTransaction} {nonce : UInt32} {timestamp : Nat}
  {out : List (Outbound H)}

/-- What the attempt does: `mine`'s attempt, the counter one up exactly when a block is mined. -/
theorem attempt_spec (h : attempt E ctx s pool nonce timestamp = some (ctx', s', pool', out)) :
    mine E s pool nonce timestamp = some (s', pool', out) ∧ ∃ b rest,
      candidate E s pool nonce timestamp = some (b, rest) ∧
      ((E.hash b ≤ b.header.difficulty ∧ ctx.totalBlocksMined.toNat + 1 < 2 ^ 64 ∧
          ctx' = { ctx with totalBlocksMined := ctx.totalBlocksMined + 1 } ∧ ∃ s₁,
          s.insert E b = some s₁ ∧
          s' = { s₁ with hashToOrigin := s₁.hashToOrigin.insert (E.hash b) .mined }) ∨
        (¬ E.hash b ≤ b.header.difficulty ∧ ctx' = ctx ∧ s' = s)) := by
  simp only [attempt, Option.bind_eq_bind, Option.bind_eq_some] at h
  obtain ⟨⟨b, rest⟩, hc, h⟩ := h
  split at h
  next hle =>
    simp only [Option.bind_eq_some, Option.pure_def, Option.some.injEq, Prod.mk.injEq] at h
    obtain ⟨s₁, hs₁, n, hn, rfl, rfl, rfl, rfl⟩ := h
    obtain ⟨hlt, rfl⟩ := countMined_eq_some.mp hn
    refine ⟨?_, b, rest, hc, Or.inl ⟨hle, hlt, rfl, s₁, hs₁, rfl⟩⟩
    simp [mine, hc, hle, hs₁]
  next hle =>
    simp only [Option.pure_def, Option.some.injEq, Prod.mk.injEq] at h
    obtain ⟨rfl, rfl, rfl, rfl⟩ := h
    refine ⟨?_, b, rest, hc, Or.inr ⟨hle, rfl, rfl⟩⟩
    simp [mine, hc, hle]

namespace WellFormed

end WellFormed

/-- A worker's step leaves the miner's context alone. -/
theorem threadStep_worker {msg : Message H} :
    threadStep E size ctx s (.worker now msg) = some (ctx', s', out) ↔
      ctx' = ctx ∧ handleMessage E now s msg = some (s', out) := by
  simp only [threadStep, Option.bind_eq_bind, Option.bind_eq_some, Option.pure_def,
    Option.some.injEq, Prod.mk.injEq, Prod.exists]
  constructor
  · rintro ⟨s₁, o₁, h₁, rfl, rfl, rfl⟩; exact ⟨rfl, h₁⟩
  · rintro ⟨rfl, h₁⟩; exact ⟨s', out, h₁, rfl, rfl, rfl⟩

/-- The inversion lemma of the miner's iteration: the head of the loop, then the attempt when
    it says so, and nothing else. -/
theorem threadStep_miner {r : Received} :
    threadStep E size ctx s (.miner r now pool nonce timestamp) = some (ctx', s', out) ↔
      ∃ c o, control size s now ctx r = some (c, o) ∧
        ((∃ i pool', o = .attempt i ∧
            attempt E c s pool nonce timestamp = some (ctx', s', pool', out)) ∨
          ((o = .exit ∨ o = .next) ∧ ctx' = c ∧ s' = s ∧ out = [])) := by
  simp only [threadStep, Option.bind_eq_bind, Option.bind_eq_some, Prod.exists]
  refine exists_congr fun c => exists_congr fun o => and_congr_right fun _ => ?_
  cases o with
  | attempt i =>
    simp only [Option.bind_eq_some, Option.pure_def, Option.some.injEq, Prod.exists, Prod.mk.injEq]
    constructor
    · rintro ⟨a, b, p, d, h, rfl, rfl, rfl⟩; exact Or.inl ⟨i, p, rfl, h⟩
    · rintro (⟨_, p, ⟨⟩, h⟩ | ⟨h, -⟩)
      · exact ⟨_, _, p, _, h, rfl, rfl, rfl⟩
      · simp at h
  | exit | next => simp [eq_comm]

/-- One step of the threads is the run of its event of the node: a worker's message, the
    miner's attempt as a mining event, or nothing. -/
theorem threadStep_run {t : Thread H} (h : threadStep E size ctx s t = some (ctx', s', out)) :
    run E s (threadEvent size s ctx t) = some (s', out) := by
  cases t with
  | worker now msg => exact run_singleton (threadStep_worker.mp h).2
  | miner r now pool nonce timestamp =>
    obtain ⟨c, o, hc, ⟨i, p, rfl, ha⟩ | ⟨ho, -, rfl, rfl⟩⟩ := threadStep_miner.mp h
    · simp only [threadEvent, hc]
      exact run_singleton (by simp [step, (attempt_spec ha).1])
    · rcases ho with rfl | rfl <;> simp only [threadEvent, hc] <;> rfl

/-- The inversion lemma of a run of the threads. -/
theorem threadRun_cons {t : Thread H} {ts : List (Thread H)}
    (h : threadRun E size ctx s (t :: ts) = some (ctx', s', out)) :
    ∃ ctx₁ s₁ out₁ out₂, threadStep E size ctx s t = some (ctx₁, s₁, out₁) ∧
      threadRun E size ctx₁ s₁ ts = some (ctx', s', out₂) ∧ out = out₁ ++ out₂ := by
  simp only [threadRun, Option.bind_eq_bind, Option.bind_eq_some, Option.pure_def,
    Option.some.injEq, Prod.mk.injEq] at h
  obtain ⟨⟨c₁, s₁, o₁⟩, h₁, ⟨c₂, s₂, o₂⟩, h₂, rfl, rfl, rfl⟩ := h
  exact ⟨c₁, s₁, o₁, o₂, h₁, h₂, rfl⟩

/-- **Refinement.**  Every run of a node's threads — the miner's iterations and the workers'
    messages, interleaved in any order — is the run of the node with the same effects whose
    events are the workers' messages, received, and the miner's attempts, as mining events. -/
theorem threadRun_run : ∀ {ts : List (Thread H)} {ctx ctx' : Context} {s s' : Blockchain H}
    {out : List (Outbound H)}, threadRun E size ctx s ts = some (ctx', s', out) →
      run E s (threadEvents E size ctx s ts) = some (s', out)
  | [], _, _, _, _, _, h => by cases h; rfl
  | _ :: _, _, _, _, _, _, h => by
    obtain ⟨_, _, _, _, h₁, h₂, rfl⟩ := threadRun_cons h
    rw [threadEvents, h₁]
    exact run_append.mpr ⟨_, _, _, threadStep_run h₁, threadRun_run h₂, rfl⟩

/-- A fresh node's miner is started at clock 5, makes one attempt, mining a block at clock 7,
    and is stopped at clock 8. -/
theorem start_mine_exit : ∃ ctx s out, threadRun (sampleEnv true) (fun _ => 1) Context.new
    (Blockchain.new (sampleEnv true)) [.miner (.signal (.start 0)) 5 [] 0 0,
      .miner .empty 6 [] 0 7, .miner (.signal .exit) 8 [] 0 0] = some (ctx, s, out) ∧
      ctx.operatingState = .shutDown ∧ ctx.totalBlocksMined = 1 :=
  ⟨_, _, _, rfl, rfl, rfl⟩

/-- The hypothesis holds for that run: it is the node's run of one mining event, at clock 7. -/
theorem start_mine_exit_is_a_node_run : ∃ ctx s out, threadRun (sampleEnv true) (fun _ => 1)
    Context.new (Blockchain.new (sampleEnv true)) [.miner (.signal (.start 0)) 5 [] 0 0,
      .miner .empty 6 [] 0 7, .miner (.signal .exit) 8 [] 0 0] = some (ctx, s, out) ∧
      threadEvents (sampleEnv true) (fun _ => 1) Context.new (Blockchain.new (sampleEnv true))
        [.miner (.signal (.start 0)) 5 [] 0 0, .miner .empty 6 [] 0 7,
          .miner (.signal .exit) 8 [] 0 0] = [.mine [] 0 7] ∧
      run (sampleEnv true) (Blockchain.new (sampleEnv true)) [.mine [] 0 7] = some (s, out) :=
  let ⟨ctx, s, out, h, _⟩ := start_mine_exit
  have hev : threadEvents (sampleEnv true) (fun _ => 1) Context.new
      (Blockchain.new (sampleEnv true)) [.miner (.signal (.start 0)) 5 [] 0 0,
        .miner .empty 6 [] 0 7, .miner (.signal .exit) 8 [] 0 0] = [.mine [] 0 7] := rfl
  ⟨ctx, s, out, h, hev, hev ▸ threadRun_run h⟩

/-- **Induction over runs of the threads.** -/
theorem threadRun_inv (I : Context → Blockchain H → Prop)
    (hstep : ∀ ctx s t ctx' s' out, I ctx s → threadStep E size ctx s t = some (ctx', s', out) →
      I ctx' s') :
    ∀ {ts : List (Thread H)} {ctx ctx' : Context} {s s' : Blockchain H}
      {out : List (Outbound H)}, I ctx s → threadRun E size ctx s ts = some (ctx', s', out) →
        I ctx' s'
  | [], _, _, _, _, _, hI, h => by cases h; exact hI
  | _ :: _, _, _, _, _, _, hI, h => by
    obtain ⟨_, _, _, _, h₁, h₂, -⟩ := threadRun_cons h
    exact threadRun_inv I hstep (hstep _ _ _ _ _ _ hI h₁) h₂

/-! ## The mining counter -/

namespace Blockchain

/-- The hashes the origin table marks `Mined`. -/
def minedHashes (s : Blockchain H) : Finset H :=
  s.hashToOrigin.keys.filter fun h => s.hashToOrigin.lookup h = some .mined

@[simp] theorem mem_minedHashes {x : H} :
    x ∈ s.minedHashes ↔ s.hashToOrigin.lookup x = some .mined := by
  simp only [minedHashes, Finset.mem_filter, Finmap.mem_keys, and_iff_right_iff_imp]
  exact Finmap.mem_of_lookup_eq_some

theorem minedHashes_congr (h : s'.hashToOrigin = s.hashToOrigin) :
    s'.minedHashes = s.minedHashes := by
  simp only [minedHashes, h]

/-- Recording `Received` marks nothing `Mined`: it writes only a hash with no origin. -/
theorem minedHashes_recordOrigin {h : H} {d : Nat} :
    (s.recordOrigin h (.received d)).minedHashes = s.minedHashes := by
  unfold recordOrigin
  split
  · rfl
  · ext x
    by_cases hx : x = h
    · subst hx
      simp [Finmap.lookup_eq_none.mpr ‹_›]
    · simp [Finmap.lookup_insert_of_ne _ hx]

/-- The miner's mark. -/
theorem minedHashes_insert_mined {h : H} :
    ({ s with hashToOrigin := s.hashToOrigin.insert h .mined } : Blockchain H).minedHashes =
      Insert.insert h s.minedHashes := by
  ext x
  by_cases hx : x = h
  · simp [hx]
  · simp [hx, Finmap.lookup_insert_of_ne _ hx]

end Blockchain

/-- A worker marks no block `Mined` and unmarks none. -/
theorem receiveBlock_minedHashes {b : Block H} {relay missing relay' missing' : List H}
    (h : receiveBlock E now (s, relay, missing) b = some (s', relay', missing')) :
    s'.minedHashes = s.minedHashes :=
  receiveBlock_elim (fun t _ _ => t.minedHashes = s.minedHashes) h
    (fun _ _ => Blockchain.minedHashes_recordOrigin)
    (fun _ _ _ _ => (Blockchain.minedHashes_congr Blockchain.addToOrphanBuffer_hashToOrigin).trans
      Blockchain.minedHashes_recordOrigin)
    (fun _ _ _ _ _ _ hins => (Blockchain.minedHashes_congr
      (Blockchain.insertRecursivelyAux_extends hins).origin).trans
        Blockchain.minedHashes_recordOrigin)

theorem handleMessage_minedHashes {msg : Message H}
    (h : handleMessage E now s msg = some (s', out)) :
    s'.minedHashes = s.minedHashes := by
  rcases handleMessage_cases h with ⟨rfl, -⟩ | ⟨_, -, h⟩
  · rfl
  · obtain ⟨_, _, hfold, -⟩ := handleBlocks_spec h
    exact foldlM_inv (fun acc => acc.1.minedHashes = s.minedHashes)
      (fun ⟨_, _, _⟩ _ ⟨_, _, _⟩ _ ha h' => (receiveBlock_minedHashes h').trans ha) rfl hfold

/-- The head of the loop leaves the counter alone. -/
theorem control_counter {r : Received} {o : Outcome}
    (h : control size s now ctx r = some (ctx', o)) :
    ctx'.totalBlocksMined = ctx.totalBlocksMined := by
  rcases control_cases h with ⟨-, rfl, -⟩ | ⟨rfl | ⟨_, hs⟩, -⟩
  · rfl
  · rfl
  · rcases handleControlSignal_cases hs with ⟨-, rfl⟩ | ⟨_, -, rfl⟩ <;> rfl

/-- The counter and the marks together, with every mark on a stored block. -/
def CounterOk (ctx : Context) (s : Blockchain H) : Prop :=
  ctx.totalBlocksMined.toNat = s.minedHashes.card % 2 ^ 64 ∧ ∀ x ∈ s.minedHashes, x ∈ s.hashToBlock

/-- An attempt keeps the counter on the marks (`Header::hash` ideal): a mined block, fresh,
    is marked once and counted once. -/
theorem attempt_counterOk (hE : E.IdealHash) (hw : WellFormed E s)
    (hI : CounterOk ctx s)
    (ha : attempt E ctx s pool nonce timestamp = some (ctx', s', pool', out)) :
    CounterOk ctx' s' := by
  obtain ⟨-, b, rest, hcand, ⟨-, -, rfl, s₂, hs₂, rfl⟩ | ⟨-, rfl, rfl⟩⟩ := attempt_spec ha
  · have hfresh := candidate_fresh hw hE hcand
    have hnot : E.hash b ∉ s.minedHashes := fun hm => hfresh (hI.2 _ hm)
    obtain ⟨_, _, -, -, hB, -, -, -, -, hR⟩ := Blockchain.insert_eq_some.mp hs₂
    -- `total_blocks_mined + 1` as a `u64`
    have hwrap : (ctx.totalBlocksMined + 1).toNat = (ctx.totalBlocksMined.toNat + 1) % 2 ^ 64 :=
      rfl
    rw [CounterOk, Blockchain.minedHashes_insert_mined, Blockchain.minedHashes_congr hR,
      Finset.card_insert_of_not_mem hnot, hwrap, hI.1]
    refine ⟨Nat.mod_add_mod _ _ _, fun x hx => ?_⟩
    show x ∈ s₂.hashToBlock
    rw [hB, Finmap.mem_insert]
    exact (Finset.mem_insert.mp hx).imp_right (hI.2 x)
  · exact hI

/-- One step of the threads keeps the counter on the marks: a worker changes neither, and the
    head of the loop leaves both to the attempt. -/
theorem threadStep_counterOk (hE : E.IdealHash) (hw : WellFormed E s)
    (hI : CounterOk ctx s) {t : Thread H} (h : threadStep E size ctx s t = some (ctx', s', out)) :
    CounterOk ctx' s' := by
  cases t with
  | worker now msg =>
    obtain ⟨rfl, h₁⟩ := threadStep_worker.mp h
    have hk := (run_keeps hE hw (run_singleton (show step E s (.receive now msg) = _ from h₁))).1
    rw [CounterOk, handleMessage_minedHashes h₁]
    exact ⟨hI.1, fun x hx => hk.mem (hI.2 x hx)⟩
  | miner r now pool nonce timestamp =>
    obtain ⟨c, o, hc, hstep⟩ := threadStep_miner.mp h
    have hI' : CounterOk c s := by rw [CounterOk, control_counter hc]; exact hI
    rcases hstep with ⟨i, p, -, ha⟩ | ⟨-, rfl, rfl, -⟩
    · exact attempt_counterOk hE hw hI' ha
    · exact hI'

/-- **The mining counter.**  In every run of a node's threads from `miner::new` and
    `Blockchain::new` (`Header::hash` ideal) — whatever the signals, the clocks and the
    interleaving with the workers — `total_blocks_mined` is the number of hashes the origin
    table marks `Mined`, modulo 2^64; and every hash so marked is stored. -/
theorem mined_counter (hE : E.IdealHash) {ts : List (Thread H)} {ctx : Context}
    {s : Blockchain H} {out : List (Outbound H)}
    (h : threadRun E size Context.new (Blockchain.new E) ts = some (ctx, s, out)) :
    ctx.totalBlocksMined.toNat = s.minedHashes.card % 2 ^ 64 ∧
      ∀ x ∈ s.minedHashes, x ∈ s.hashToBlock :=
  (threadRun_inv (fun ctx s => Reachable E s ∧ CounterOk ctx s)
    (fun _ _ _ _ _ _ ⟨hs, hI⟩ h' =>
      ⟨hs.run (threadStep_run h'), threadStep_counterOk hE (hs.wellFormed hE) hI h'⟩)
    ⟨Reachable.new, by simp [CounterOk, Context.new, Blockchain.minedHashes, Blockchain.new]⟩ h).2

/-- The hypotheses hold for the run that mines one block. -/
theorem counter_after_one_block : ∃ ctx s out, threadRun (sampleEnv true) (fun _ => 1)
    Context.new (Blockchain.new (sampleEnv true)) [.miner (.signal (.start 0)) 5 [] 0 0,
      .miner .empty 6 [] 0 7, .miner (.signal .exit) 8 [] 0 0] = some (ctx, s, out) ∧
      ctx.totalBlocksMined = 1 ∧ ctx.totalBlocksMined.toNat = s.minedHashes.card % 2 ^ 64 :=
  let ⟨ctx, s, out, h, _, h₁⟩ := start_mine_exit
  ⟨ctx, s, out, h, h₁, (mined_counter (sampleEnv_idealHash true) h).1⟩

/-! ## The start time, `ShutDown`, and when the thread panics -/

/-- What a step of the threads does to the context: a worker leaves it alone; the miner's
    iteration is the head of its loop, after which at most the counter changes. -/
theorem threadStep_ctx {t : Thread H} (h : threadStep E size ctx s t = some (ctx', s', out)) :
    ctx' = ctx ∨ ∃ r now c o, control size s now ctx r = some (c, o) ∧
      ctx'.operatingState = c.operatingState ∧ ctx'.startTime = c.startTime := by
  cases t with
  | worker now msg => exact Or.inl (threadStep_worker.mp h).1
  | miner r now pool nonce timestamp =>
    obtain ⟨c, o, hc, ⟨i, p, -, ha⟩ | ⟨-, rfl, -, -⟩⟩ := threadStep_miner.mp h
    · refine Or.inr ⟨r, now, c, o, hc, ?_⟩
      obtain ⟨-, b, rest, -, ⟨-, -, rfl, -⟩ | ⟨-, rfl, -⟩⟩ := attempt_spec ha <;> exact ⟨rfl, rfl⟩
    · exact Or.inr ⟨r, now, ctx', o, hc, rfl, rfl⟩

/-- The head of the loop keeps a set start time, and sets it whenever it enters `Run`. -/
theorem control_startTime {r : Received} {o : Outcome} {c : Context}
    (h : control size s now ctx r = some (c, o)) :
    (∀ t, ctx.startTime = some t → c.startTime = some t) ∧
      ((∀ i, ctx.operatingState = .run i → ctx.startTime.isSome) →
        ∀ i, c.operatingState = .run i → c.startTime.isSome) := by
  rcases control_cases h with ⟨-, rfl, -⟩ | ⟨rfl | ⟨_, hs⟩, -⟩
  · exact ⟨fun _ => id, id⟩
  · exact ⟨fun _ => id, id⟩
  · rcases handleControlSignal_cases hs with ⟨-, rfl⟩ | ⟨_, -, rfl⟩
    · exact ⟨fun _ => id, fun _ _ hi => by cases hi⟩
    · exact ⟨fun t ht => by simp [ht],
        fun _ _ _ => by split <;> simp_all [Option.isSome_iff_ne_none]⟩

/-- **The start time.**  Along every run of a node's threads, a start time once set is never
    changed; and if the miner runs only with its start time set, so it does at the end — from
    `miner::new`, every attempt comes after the first `Start(λ)` set `start_time`. -/
theorem startTime_kept {ts : List (Thread H)}
    (h : threadRun E size ctx s ts = some (ctx', s', out)) :
    (∀ t, ctx.startTime = some t → ctx'.startTime = some t) ∧
      ((∀ i, ctx.operatingState = .run i → ctx.startTime.isSome) →
        ∀ i, ctx'.operatingState = .run i → ctx'.startTime.isSome) := by
  have hstep : ∀ c s₀ t c' s₁ o, threadStep E size c s₀ t = some (c', s₁, o) →
      (∀ t, c.startTime = some t → c'.startTime = some t) ∧
        ((∀ i, c.operatingState = .run i → c.startTime.isSome) →
          ∀ i, c'.operatingState = .run i → c'.startTime.isSome) := by
    intro c s₀ t c' s₁ o h'
    rcases threadStep_ctx h' with rfl | ⟨_, _, c₁, _, hc, hst, htm⟩
    · exact ⟨fun _ => id, id⟩
    · obtain ⟨h₁, h₂⟩ := control_startTime hc
      exact ⟨fun t ht => htm ▸ h₁ t ht, fun hr i hi => htm ▸ h₂ hr i (hst ▸ hi)⟩
  exact ⟨fun t ht => threadRun_inv (fun c _ => c.startTime = some t)
      (fun _ _ _ _ _ _ hI h' => (hstep _ _ _ _ _ _ h').1 t hI) ht h,
    fun hr => threadRun_inv (fun c _ => ∀ i, c.operatingState = .run i → c.startTime.isSome)
      (fun _ _ _ _ _ _ hI h' => (hstep _ _ _ _ _ _ h').2 hI) hr h⟩

/-- The hypothesis holds for the run that starts the miner at clock 5. -/
theorem startTime_after_start : ∃ ctx s out, threadRun (sampleEnv true) (fun _ => 1)
    Context.new (Blockchain.new (sampleEnv true)) [.miner (.signal (.start 0)) 5 [] 0 0,
      .miner .empty 6 [] 0 7, .miner (.signal .exit) 8 [] 0 0] = some (ctx, s, out) ∧
      ((∀ i, Context.new.operatingState = .run i → Context.new.startTime.isSome) →
        ∀ i, ctx.operatingState = .run i → ctx.startTime.isSome) :=
  let ⟨ctx, s, out, h, _⟩ := start_mine_exit
  ⟨ctx, s, out, h, (startTime_kept h).2⟩

/-- Once `ShutDown`, the head of the loop returns at once. -/
theorem control_shutDown (hsd : ctx.operatingState = .shutDown) {r : Received} :
    control size s now ctx r = some (ctx, .exit) := by
  simp [control, hsd]

/-- **After `Exit`.**  Once the miner is `ShutDown` its loop has returned: along every later run
    of the node's threads the context stays as it is, and the block-tree and the effects are
    those of the workers' messages alone — the node runs as if it had no miner. -/
theorem shutDown_final (hsd : ctx.operatingState = .shutDown) :
    ∀ {ts : List (Thread H)} {ctx' : Context} {s s' : Blockchain H} {out : List (Outbound H)},
      threadRun E size ctx s ts = some (ctx', s', out) →
        ctx' = ctx ∧ run E s (ts.filterMap Thread.workerEvent) = some (s', out)
  | [], _, _, _, _, h => by cases h; exact ⟨rfl, rfl⟩
  | t :: ts, _, _, _, _, h => by
    obtain ⟨c₁, s₁, o₁, o₂, h₁, h₂, rfl⟩ := threadRun_cons h
    cases t with
    | miner r now pool nonce timestamp =>
      simp only [threadStep, control_shutDown hsd, Option.bind_eq_bind, Option.some_bind,
        Option.pure_def, Option.some.injEq, Prod.mk.injEq] at h₁
      obtain ⟨rfl, rfl, rfl⟩ := h₁
      simpa [Thread.workerEvent] using shutDown_final hsd h₂
    | worker now msg =>
      obtain ⟨hc₁, h₁⟩ := threadStep_worker.mp h₁
      rw [hc₁] at h₂
      obtain ⟨hc, hr⟩ := shutDown_final hsd h₂
      exact ⟨hc, run_cons.mpr ⟨s₁, o₁, o₂, h₁, hr, rfl⟩⟩

/-- The hypotheses hold for a stopped miner sent `Start(1)`, while a worker answers a `Ping`. -/
theorem stopped_miner_ignores_start :
    (⟨.shutDown, 0, none⟩ : Context).operatingState = .shutDown ∧
      threadRun (sampleEnv true) (fun _ => 1) ⟨.shutDown, 0, none⟩
        (Blockchain.new (sampleEnv true))
        [.miner (.signal (.start 1)) 0 [] 0 0, .worker 0 (.ping 3)] =
        some (⟨.shutDown, 0, none⟩, Blockchain.new (sampleEnv true), [.write (.pong "3")]) ∧
      run (sampleEnv true) (Blockchain.new (sampleEnv true)) [.receive 0 (.ping 3)] =
        some (Blockchain.new (sampleEnv true), [.write (.pong "3")]) :=
  have hsd : (⟨.shutDown, 0, none⟩ : Context).operatingState = .shutDown := rfl
  have h : threadRun (sampleEnv true) (fun _ => 1) ⟨.shutDown, 0, none⟩
      (Blockchain.new (sampleEnv true)) [.miner (.signal (.start 1)) 0 [] 0 0, .worker 0 (.ping 3)] =
      some (⟨.shutDown, 0, none⟩, Blockchain.new (sampleEnv true), [.write (.pong "3")]) := rfl
  ⟨hsd, h, (shutDown_final hsd h).2⟩

end PowNode
