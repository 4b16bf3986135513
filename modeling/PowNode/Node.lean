/-
  The NODE: the miner and the workers as independent units of work, serialised by the one
  block-tree mutex (spec §5), so a run is a SEQUENCE of steps on the block-tree.

  A step is a mining attempt or the handling of one inbound message; everything the
  environment decides is in the event — the mempool's content at the attempt (other threads
  insert into it freely), the random nonce, the clocks, and the message a peer sent.  A step
  that panics (`none`) ends the run: the poisoned mutex stops every later step.  `Reachable`
  is therefore "some run from `Blockchain::new` that has not panicked ends here", and
  `announced` of the run's effects is the order in which its blocks entered the store.
-/
import PowNode.Miner

namespace PowNode

/-- One unit of work on the block-tree: a mining attempt, with the mempool, nonce and clock it
    sees, or one inbound message, with the clock of its handler. -/
inductive Event (H : Type) where
  | mine (pool : List SignedTransaction) (nonce : UInt32) (timestamp : Nat)
  | receive (now : Nat) (msg : Message H)

variable {H : Type} [LinearOrder H] (E : Env H)

/-- One step of the node: the block-tree after it and the effects it sent. -/
def step (s : Blockchain H) : Event H → Option (Blockchain H × List (Outbound H))
  | .mine pool nonce timestamp => (mine E s pool nonce timestamp).map fun r => (r.1, r.2.2)
  | .receive now msg => handleMessage E now s msg

/-- A run: the steps in order, their effects concatenated; `none` once a step panics. -/
def run : Blockchain H → List (Event H) → Option (Blockchain H × List (Outbound H))
  | s, [] => some (s, [])
  | s, ev :: evs => do
    let (s₁, out₁) ← step E s ev
    let (s₂, out₂) ← run s₁ evs
    pure (s₂, out₁ ++ out₂)

/-- The states some run from `Blockchain::new` ends in. -/
def Reachable (s : Blockchain H) : Prop :=
  ∃ evs out, run E (Blockchain.new E) evs = some (s, out)

variable {E}

theorem run_cons {s s' : Blockchain H} {ev : Event H} {evs : List (Event H)}
    {out : List (Outbound H)} :
    run E s (ev :: evs) = some (s', out) ↔ ∃ s₁ out₁ out₂, step E s ev = some (s₁, out₁) ∧
      run E s₁ evs = some (s', out₂) ∧ out = out₁ ++ out₂ := by
  simp only [run, Option.bind_eq_bind, Option.bind_eq_some, Option.pure_def, Option.some.injEq,
    Prod.mk.injEq, Prod.exists]
  constructor
  · rintro ⟨s₁, out₁, h₁, s₂, out₂, h₂, rfl, rfl⟩; exact ⟨s₁, out₁, out₂, h₁, h₂, rfl⟩
  · rintro ⟨s₁, out₁, out₂, h₁, h₂, rfl⟩; exact ⟨s₁, out₁, h₁, s', out₂, h₂, rfl, rfl⟩

theorem run_append {s s' : Blockchain H} {evs₁ evs₂ : List (Event H)} {out : List (Outbound H)} :
    run E s (evs₁ ++ evs₂) = some (s', out) ↔ ∃ s₁ out₁ out₂, run E s evs₁ = some (s₁, out₁) ∧
      run E s₁ evs₂ = some (s', out₂) ∧ out = out₁ ++ out₂ := by
  induction evs₁ generalizing s out with
  | nil =>
    simp only [List.nil_append, run, Option.some.injEq, Prod.mk.injEq]
    constructor
    · intro h; exact ⟨s, [], out, ⟨rfl, rfl⟩, h, rfl⟩
    · rintro ⟨_, _, _, ⟨rfl, rfl⟩, h, rfl⟩; exact h
  | cons ev evs ih =>
    rw [List.cons_append, run_cons]
    constructor
    · rintro ⟨s₁, o₁, o₂, h₁, h₂, rfl⟩
      obtain ⟨s₂, o₃, o₄, h₃, h₄, rfl⟩ := ih.mp h₂
      exact ⟨s₂, o₁ ++ o₃, o₄, run_cons.mpr ⟨s₁, o₁, o₃, h₁, h₃, rfl⟩, h₄, by simp⟩
    · rintro ⟨s₂, o, o₄, h₁, h₄, rfl⟩
      obtain ⟨s₁, o₁, o₃, h₁', h₃, rfl⟩ := run_cons.mp h₁
      exact ⟨s₁, o₁, o₃ ++ o₄, h₁', ih.mpr ⟨s₂, o₃, o₄, h₃, h₄, rfl⟩, by simp⟩

theorem run_singleton {s s' : Blockchain H} {ev : Event H} {out : List (Outbound H)}
    (h : step E s ev = some (s', out)) : run E s [ev] = some (s', out) := by
  simp [run, h]

/-- A step from a reachable state reaches a reachable state. -/
theorem Reachable.step {s s' : Blockchain H} {ev : Event H} {out : List (Outbound H)}
    (hs : Reachable E s) (h : step E s ev = some (s', out)) : Reachable E s' := by
  obtain ⟨evs, out₀, hrun⟩ := hs
  exact ⟨evs ++ [ev], out₀ ++ out, run_append.mpr ⟨s, out₀, out, hrun, run_singleton h, rfl⟩⟩

/-- A run from a reachable state reaches a reachable state. -/
theorem Reachable.run {s s' : Blockchain H} {evs : List (Event H)} {out : List (Outbound H)}
    (hs : Reachable E s) (h : run E s evs = some (s', out)) : Reachable E s' := by
  obtain ⟨evs₀, out₀, hrun⟩ := hs
  exact ⟨evs₀ ++ evs, out₀ ++ out, run_append.mpr ⟨s, out₀, out, hrun, h, rfl⟩⟩

theorem Reachable.new : Reachable E (Blockchain.new E) := ⟨[], [], rfl⟩

/-! ## Induction over runs, one delivered block at a time

An invariant of the block-tree and of a LOG of hashes — the order in which blocks entered the
store — needs only two facts: one delivered block keeps it, its relay list growing the log, and
one mining attempt keeps it, what it announces growing the log.  The `Blocks` arm is a fold of
deliveries, and every other message leaves the block-tree alone. -/

section Lift

variable (I : Blockchain H → List H → Prop)
  (hrecv : ∀ now log s relay missing b s' relay' missing', I s (log ++ relay) →
    receiveBlock E now (s, relay, missing) b = some (s', relay', missing') → I s' (log ++ relay'))
  (hmine : ∀ s log pool nonce timestamp s' pool' out, I s log →
    mine E s pool nonce timestamp = some (s', pool', out) → I s' (log ++ announced out))

include hrecv in
theorem handleBlocks_inv {now : Nat} {s s' : Blockchain H} {blocks : List (Block H)}
    {out : List (Outbound H)} {log : List H} (hI : I s log)
    (h : handleBlocks E now s blocks = some (s', out)) : I s' (log ++ announced out) := by
  obtain ⟨relay, missing, hfold, rfl⟩ := handleBlocks_spec h
  rw [announced_handleBlocks]
  exact foldlM_inv (fun acc => I acc.1 (log ++ acc.2.1))
    (fun ⟨_, _, _⟩ _ ⟨_, _, _⟩ _ ha h' => hrecv _ _ _ _ _ _ _ _ _ ha h') (by simpa using hI) hfold

include hrecv hmine in
theorem step_inv {s s' : Blockchain H} {ev : Event H} {out : List (Outbound H)} {log : List H}
    (hI : I s log) (h : step E s ev = some (s', out)) : I s' (log ++ announced out) := by
  cases ev with
  | mine pool nonce timestamp =>
    simp only [step, Option.map_eq_some'] at h
    obtain ⟨⟨s₁, pool', out'⟩, hm, he⟩ := h
    cases he
    exact hmine _ _ _ _ _ _ _ _ hI hm
  | receive now msg =>
    rcases handleMessage_cases h with ⟨rfl, hout⟩ | ⟨_, -, h⟩
    · rwa [hout, List.append_nil]
    · exact handleBlocks_inv I hrecv hI h

include hrecv hmine in
/-- **Induction over runs.**  Along a run, the log grows by what the run announces. -/
theorem run_inv : ∀ {evs : List (Event H)} {s s' : Blockchain H} {out : List (Outbound H)}
    (log : List H), I s log → run E s evs = some (s', out) → I s' (log ++ announced out)
  | [], _, _, _, log, hI, h => by
    simp only [run, Option.some.injEq, Prod.mk.injEq] at h
    obtain ⟨rfl, rfl⟩ := h
    simpa using hI
  | _ :: _, _, _, _, log, hI, h => by
    obtain ⟨s₁, o₁, o₂, h₁, h₂, rfl⟩ := run_cons.mp h
    simpa using run_inv (log ++ announced o₁) (step_inv I hrecv hmine hI h₁) h₂

end Lift

/-! ## A sample fork

  A run of a fresh node under `sampleEnv true` that reaches past genesis along both arms of the
  node: it mines a block, then reads a block of a peer that waits for a parent it lacks. -/

/-- The block a fresh node's miner finds first — an empty mempool, nonce 0, time 0 — under the
    sample hash, which meets every target. -/
def minedFirst : Block Int :=
  ⟨⟨(sampleEnv true).hash (sampleEnv true).genesis, 0, 0, 0, 0⟩, ⟨[default]⟩⟩

/-- A second child of genesis, stamped at time 1. -/
def sibling : Block Int := ⟨⟨(sampleEnv true).hash (sampleEnv true).genesis, 0, 0, 1, 0⟩, ⟨[]⟩⟩

/-- A child of `sibling`, stamped at time 2. -/
def nephew : Block Int := ⟨⟨(sampleEnv true).hash sibling, 0, 0, 2, 0⟩, ⟨[]⟩⟩

/-- The node mines `minedFirst`, then reads `Blocks([nephew])` at time 2: `nephew` waits under
    `sibling`'s hash. -/
def forkRun : List (Event Int) := [.mine [] 0 0, .receive 2 (.blocks [nephew])]

end PowNode
