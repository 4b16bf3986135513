/-
  The TREE INVARIANT (spec §3, invariants 1–3), and why no `unwrap` of the store panics.

  `WellFormed` says the two maps have one key set, every key names the block stored under it,
  genesis is the only height-0 key, every other block sits one above its stored parent, and the
  tip is a stored key of maximal height.  The last clause is not optional: the miner inserts
  WITHOUT a `contains` check, and its candidate is fresh only because it extends the tip —
  one above every stored height — and is not genesis, whose parent is the all-zero hash no
  header hashes to.  The ideal `Header::hash` turns "no stored header is its header" into "no
  stored key is its hash".

  Structure:
  1. `WellFormed.insert` — inserting a block that is not stored keeps the invariant (the one
     real case); every other write leaves the three fields it reads alone (`WellFormed.congr`).
  2. Through `insert_recursively` (`insertRecursivelyAux_inv`), one delivered block, the
     `Blocks` arm, every message, a mining attempt (`candidate_fresh`), and so every run.
  3. The `unwrap`s: `insert` of a block whose parent is stored, `get_block(tip)`, the division
     of `average_block_size`, and the walk of `all_blocks_in_longest_chain`, which needs
     `block_count > height(tip)` — every height up to the tip's is a stored key's.
-/
import PowNode.Node

namespace PowNode

variable {H : Type} [LinearOrder H] {E : Env H}

/-- **The tree invariant.** -/
structure WellFormed (E : Env H) (s : Blockchain H) : Prop where
  keys : ∀ h, h ∈ s.hashToBlock ↔ h ∈ s.hashToHeight
  hash_eq : ∀ h b, s.hashToBlock.lookup h = some b → E.hash b = h
  genesis : s.hashToHeight.lookup (E.hash E.genesis) = some 0
  height_zero : ∀ h, s.hashToHeight.lookup h = some 0 → h = E.hash E.genesis
  parent : ∀ h b, s.hashToBlock.lookup h = some b → h ≠ E.hash E.genesis →
    ∃ n, s.hashToHeight.lookup b.header.parent = some n ∧ s.hashToHeight.lookup h = some (n + 1)
  tip : ∃ n, s.hashToHeight.lookup s.tip = some n ∧
    ∀ h m, s.hashToHeight.lookup h = some m → m ≤ n

namespace WellFormed

variable {s s' : Blockchain H}

/-- The invariant reads only the two maps and the tip. -/
theorem congr (hw : WellFormed E s) (hB : s'.hashToBlock = s.hashToBlock)
    (hH : s'.hashToHeight = s.hashToHeight) (hT : s'.tip = s.tip) : WellFormed E s' := by
  obtain ⟨h₁, h₂, h₃, h₄, h₅, h₆⟩ := hw
  exact ⟨hB ▸ hH ▸ h₁, hB ▸ h₂, hH ▸ h₃, hH ▸ h₄, hB ▸ hH ▸ h₅, hT ▸ hH ▸ h₆⟩

theorem height_of_mem (hw : WellFormed E s) {h : H} (hh : h ∈ s.hashToBlock) :
    ∃ n, s.hashToHeight.lookup h = some n :=
  Finmap.mem_iff.mp ((hw.keys h).mp hh)

theorem genesis_mem (hw : WellFormed E s) : E.hash E.genesis ∈ s.hashToBlock :=
  (hw.keys _).mpr (Finmap.mem_of_lookup_eq_some hw.genesis)

theorem tip_mem (hw : WellFormed E s) : s.tip ∈ s.hashToBlock := by
  obtain ⟨n, hn, -⟩ := hw.tip
  exact (hw.keys _).mpr (Finmap.mem_of_lookup_eq_some hn)

/-- **The one real case.**  Inserting a block that is not stored keeps the invariant: the new
    key is above its stored parent, and the tip moves to it exactly when it is the new maximum. -/
theorem insert (hw : WellFormed E s) {b : Block H} (hb : E.hash b ∉ s.hashToBlock)
    (hs' : s.insert E b = some s') : WellFormed E s' := by
  obtain ⟨n, t, hn, ht, hB, hH, hT, -⟩ := Blockchain.insert_eq_some.mp hs'
  have hne : ∀ h, h ∈ s.hashToHeight → h ≠ E.hash b :=
    fun h hh he => hb ((hw.keys _).mpr (he ▸ hh))
  -- every old height stays
  have hold : ∀ h m, s.hashToHeight.lookup h = some m → s'.hashToHeight.lookup h = some m :=
    fun h m hm => by rw [hH, Finmap.lookup_insert_of_ne _ (hne h (Finmap.mem_of_lookup_eq_some hm)), hm]
  obtain ⟨tn, htn, hmax⟩ := hw.tip
  rw [Finmap.lookup_insert_of_ne _ (hne _ (Finmap.mem_of_lookup_eq_some htn)), htn,
    Option.some.injEq] at ht
  subst ht
  refine ⟨fun h => ?_, fun h c hc => ?_, hold _ _ hw.genesis, fun h hh => ?_, fun h c hc hg => ?_, ?_⟩
  · rw [hB, hH, Finmap.mem_insert, Finmap.mem_insert, hw.keys]
  · rw [hB, lookup_insert_eq_some] at hc
    rcases hc with ⟨rfl, rfl⟩ | ⟨-, hc⟩
    · rfl
    · exact hw.hash_eq h c hc
  · rw [hH, lookup_insert_eq_some] at hh
    rcases hh with ⟨-, hh⟩ | ⟨-, hh⟩
    · omega
    · exact hw.height_zero h hh
  · rw [hB, lookup_insert_eq_some] at hc
    rcases hc with ⟨rfl, rfl⟩ | ⟨-, hc⟩
    · exact ⟨n, hold _ _ hn, by rw [hH, Finmap.lookup_insert]⟩
    · obtain ⟨m, hm, hh⟩ := hw.parent h c hc hg
      exact ⟨m, hold _ _ hm, hold _ _ hh⟩
  · -- the new height is `n + 1`; every other is at most the old maximum
    have hle : ∀ h m, s'.hashToHeight.lookup h = some m → m = n + 1 ∨ m ≤ tn := fun h m hm => by
      rw [hH, lookup_insert_eq_some] at hm
      exact hm.imp (fun h => h.2.symm) fun h => hmax _ _ h.2
    rw [hT]
    by_cases hgt : n + 1 > tn
    · rw [if_pos hgt]
      exact ⟨n + 1, by rw [hH, Finmap.lookup_insert], fun h m hm => by
        rcases hle h m hm with rfl | hm <;> omega⟩
    · rw [if_neg hgt]
      exact ⟨tn, hold _ _ htn, fun h m hm => by rcases hle h m hm with rfl | hm <;> omega⟩

/-- Through `insert_recursively`: every call inserts only a block that is not stored. -/
theorem insertRecursivelyAux (hw : WellFormed E s) {n : Nat} {b : Block H} {out : List H}
    {r : Blockchain H × List H} (h : Blockchain.insertRecursivelyAux E n s b out = some r) :
    WellFormed E r.1 :=
  Blockchain.insertRecursivelyAux_inv (fun t _ => WellFormed E t) (fun _ => True)
    (fun _ _ _ _ hw' _ hc hs₁ => ⟨fun _ => hw'.insert hc hs₁,
      fun _ _ => ⟨fun _ _ => trivial, (hw'.insert hc hs₁).congr rfl rfl rfl⟩⟩)
    n s b out r hw trivial h

/-- Through one delivered block. -/
theorem receiveBlock (hw : WellFormed E s) {now : Nat} {b : Block H}
    {relay missing relay' missing' : List H}
    (h : PowNode.receiveBlock E now (s, relay, missing) b = some (s', relay', missing')) :
    WellFormed E s' :=
  receiveBlock_elim (fun t _ _ => WellFormed E t) h
    (fun _ _ => hw.congr (by simp) (by simp) (by simp))
    (fun _ _ _ _ => hw.congr (by simp) (by simp) (by simp))
    (fun _ _ _ _ _ _ hins => (hw.congr (by simp) (by simp) (by simp)).insertRecursivelyAux hins)

end WellFormed

/-- **A candidate is fresh.**  It extends the tip, so it would sit one above the highest stored
    block; and it is not genesis, whose parent is the all-zero hash, while the tip is a stored
    hash and no header hashes to zero.  A block stored under its hash would have its header. -/
theorem candidate_fresh {s : Blockchain H} (hw : WellFormed E s) (hE : E.IdealHash)
    {pool rest : List SignedTransaction} {nonce : UInt32} {timestamp : Nat} {b : Block H}
    (hc : candidate E s pool nonce timestamp = some (b, rest)) : E.hash b ∉ s.hashToBlock := by
  obtain ⟨-, -, hpar, -⟩ := candidate_spec hc
  intro hmem
  obtain ⟨c, hcl⟩ := Finmap.mem_iff.mp hmem
  by_cases hg : E.hash b = E.hash E.genesis
  · -- case genesis: the tip would be genesis' parent, the all-zero hash
    obtain ⟨t, ht⟩ := Finmap.mem_iff.mp hw.tip_mem
    have hzero : s.tip = E.zero := by rw [← hpar, hE.header_eq hg]; rfl
    exact hE.ne_zero t.header (hzero ▸ hw.hash_eq _ t ht)
  · -- case above genesis: one above its parent, the tip, higher than every stored block
    obtain ⟨n, hn, hh⟩ := hw.parent _ c hcl hg
    obtain ⟨tn, htn, hmax⟩ := hw.tip
    rw [hE.header_eq (hw.hash_eq _ c hcl), hpar, htn, Option.some.injEq] at hn
    have := hmax _ _ hh
    omega

namespace WellFormed

variable {s s' : Blockchain H}

/-- Through a mining attempt: the candidate is fresh, so its insert is the one real case. -/
theorem mine (hw : WellFormed E s) (hE : E.IdealHash)
    {pool pool' : List SignedTransaction} {nonce : UInt32} {timestamp : Nat}
    {out : List (Outbound H)} (h : PowNode.mine E s pool nonce timestamp = some (s', pool', out)) :
    WellFormed E s' := by
  obtain ⟨b, rest, hc, ⟨-, s₁, hs₁, rfl, -⟩ | ⟨-, rfl, -⟩⟩ := mine_spec h
  · exact (hw.insert (candidate_fresh hw hE hc) hs₁).congr rfl rfl rfl
  · exact hw

theorem new : WellFormed E (Blockchain.new E) := by
  refine ⟨fun h => by simp [Blockchain.new, Finmap.not_mem_empty], fun h b hb => ?_,
    by simp [Blockchain.new], fun h hh => ?_, fun h b hb hg => ?_,
    ⟨0, by simp [Blockchain.new], fun h m hm => ?_⟩⟩
  all_goals
    by_cases he : h = E.hash E.genesis
    · subst he; simp_all [Blockchain.new]
    · simp_all [Blockchain.new, Finmap.lookup_insert_of_ne]

end WellFormed

/-! ## No `unwrap` of the store panics -/

namespace WellFormed

variable {s : Blockchain H}

/-- `insert` returns once the parent is stored: both heights it unwraps are present. -/
theorem insert_isSome (hw : WellFormed E s) {b : Block H} (hp : b.header.parent ∈ s.hashToBlock) :
    ∃ s', s.insert E b = some s' := by
  obtain ⟨n, hn⟩ := hw.height_of_mem hp
  obtain ⟨t, ht⟩ : ∃ t, (s.hashToHeight.insert (E.hash b) (n + 1)).lookup s.tip = some t := by
    by_cases he : s.tip = E.hash b
    · exact ⟨n + 1, by rw [he, Finmap.lookup_insert]⟩
    · obtain ⟨t, ht, -⟩ := hw.tip
      exact ⟨t, by rw [Finmap.lookup_insert_of_ne _ he, ht]⟩
  simp [Blockchain.insert, hn, ht]

/-- A key above height 0 is not genesis. -/
theorem ne_genesis (hw : WellFormed E s) {h : H} {k : Nat}
    (hh : s.hashToHeight.lookup h = some (k + 1)) : h ≠ E.hash E.genesis := fun he => by
  rw [he, hw.genesis] at hh; cases hh

/-- A key at height `k + 1` names a stored block whose parent is at height `k`. -/
theorem parent_height (hw : WellFormed E s) {h : H} {k : Nat}
    (hh : s.hashToHeight.lookup h = some (k + 1)) :
    ∃ c, s.hashToBlock.lookup h = some c ∧ s.hashToHeight.lookup c.header.parent = some k := by
  obtain ⟨c, hc⟩ := Finmap.mem_iff.mp ((hw.keys h).mpr (Finmap.mem_of_lookup_eq_some hh))
  obtain ⟨n, hn, hh'⟩ := hw.parent h c hc (hw.ne_genesis hh)
  rw [hh, Option.some.injEq, Nat.add_right_cancel_iff] at hh'
  exact ⟨c, hc, hh' ▸ hn⟩

/-- Below every stored height, every height is a stored key's: walk down the parents. -/
theorem exists_height (hw : WellFormed E s) :
    ∀ k h, s.hashToHeight.lookup h = some k → ∀ j ≤ k,
      ∃ h', h' ∈ s.hashToBlock ∧ s.hashToHeight.lookup h' = some j := by
  intro k
  induction k with
  | zero =>
    intro h hh j hj
    exact ⟨h, (hw.keys h).mpr (Finmap.mem_of_lookup_eq_some hh), by rw [hh, Nat.le_zero.mp hj]⟩
  | succ k ih =>
    intro h hh j hj
    rcases Nat.lt_or_eq_of_le hj with hj | rfl
    · obtain ⟨c, -, hn⟩ := hw.parent_height hh
      exact ih _ hn j (by omega)
    · exact ⟨h, (hw.keys h).mpr (Finmap.mem_of_lookup_eq_some hh), hh⟩

/-- The store holds more blocks than the tip's height: one at each height below it. -/
theorem tip_height_lt_blockCount (hw : WellFormed E s) :
    ∃ n, s.hashToHeight.lookup s.tip = some n ∧ n < s.blockCount := by
  obtain ⟨n, hn, -⟩ := hw.tip
  refine ⟨n, hn, ?_⟩
  have hsub : Finset.range (n + 1) ⊆
      s.hashToBlock.keys.image fun h => (s.hashToHeight.lookup h).getD 0 := by
    intro j hj
    obtain ⟨h', hm, hh⟩ := hw.exists_height n s.tip hn j (by simpa [Nat.lt_succ_iff] using hj)
    exact Finset.mem_image.mpr ⟨h', Finmap.mem_keys.mpr hm, by simp [hh]⟩
  have := (Finset.card_le_card hsub).trans Finset.card_image_le
  simp only [Finset.card_range] at this
  exact this

end WellFormed

/-- Every reachable state is well formed. -/
theorem Reachable.wellFormed {s : Blockchain H} (hs : Reachable E s)
    (hE : E.IdealHash) : WellFormed E s := by
  obtain ⟨evs, out, h⟩ := hs
  exact run_inv (fun t _ => WellFormed E t) (fun _ _ _ _ _ _ _ _ _ hw h' => hw.receiveBlock h')
    (fun _ _ _ _ _ _ _ _ hw h' => hw.mine hE h') [] WellFormed.new h

end PowNode
