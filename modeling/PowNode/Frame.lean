/-
  The STORE FRAME (spec §3 lifecycle: "once in the store, blocks are immutable and never
  evicted"), and what it buys the request phase of the gossip protocol.

  Every step keeps every stored entry, its height and the difficulty.  For the worker this is
  the `contains` check in front of every insert; the miner inserts WITHOUT one, and its write
  overwrites nothing only because its candidate is fresh (`candidate_fresh`, from the tree
  invariant and the ideal hash).  So a hash, once stored — in particular once announced, since
  both announcing paths insert first — is answered by `GetBlocks` with the same block in every
  later state.
-/
import PowNode.WellFormed

namespace PowNode

variable {H : Type} [LinearOrder H] {E : Env H}

/-- **The store frame** from `s` to `t`: stored entries and their heights stay, and so does
    the difficulty. -/
structure Keeps (s t : Blockchain H) : Prop where
  block : ∀ h b, s.hashToBlock.lookup h = some b → t.hashToBlock.lookup h = some b
  height : ∀ h, h ∈ s.hashToBlock → t.hashToHeight.lookup h = s.hashToHeight.lookup h
  difficulty : t.difficulty = s.difficulty

namespace Keeps

variable {s t u : Blockchain H}

theorem refl (s : Blockchain H) : Keeps s s := ⟨fun _ _ h => h, fun _ _ => rfl, rfl⟩

theorem of_eq (hB : t.hashToBlock = s.hashToBlock) (hH : t.hashToHeight = s.hashToHeight)
    (hD : t.difficulty = s.difficulty) : Keeps s t :=
  ⟨fun _ _ h => hB ▸ h, fun _ _ => by rw [hH], hD⟩

theorem mem (hk : Keeps s t) {h : H} (hh : h ∈ s.hashToBlock) : h ∈ t.hashToBlock := by
  obtain ⟨c, hc⟩ := Finmap.mem_iff.mp hh
  exact Finmap.mem_of_lookup_eq_some (hk.block h c hc)

theorem trans (hx : Keeps s t) (hy : Keeps t u) : Keeps s u :=
  ⟨fun h c hh => hy.block h c (hx.block h c hh),
    fun h hh => (hy.height h (hx.mem hh)).trans (hx.height h hh), hy.difficulty.trans hx.difficulty⟩

theorem of_extends (hx : Blockchain.Extends s t) : Keeps s t := ⟨hx.block, hx.height, hx.difficulty⟩

/-- Inserting a block that is not stored overwrites nothing. -/
theorem insert {b : Block H} (hc : E.hash b ∉ s.hashToBlock) (h : s.insert E b = some t) :
    Keeps s t := by
  obtain ⟨_, _, -, -, hB, hH, -, hD, -⟩ := Blockchain.insert_eq_some.mp h
  have hne : ∀ x, x ∈ s.hashToBlock → x ≠ E.hash b := fun x hx he => hc (he ▸ hx)
  refine ⟨fun x c hx => ?_, fun x hx => ?_, hD⟩
  · rw [hB, Finmap.lookup_insert_of_ne _ (hne x (Finmap.mem_of_lookup_eq_some hx))]; exact hx
  · rw [hH, Finmap.lookup_insert_of_ne _ (hne x hx)]

/-- One delivered block keeps the frame: recording, buffering and promotion only add. -/
theorem receiveBlock {now : Nat} {b : Block H} {relay missing relay' missing' : List H}
    (h : PowNode.receiveBlock E now (s, relay, missing) b = some (t, relay', missing')) :
    Keeps s t :=
  receiveBlock_elim (fun t _ _ => Keeps s t) h (fun _ _ => of_eq (by simp) (by simp) (by simp))
    (fun _ _ _ _ => of_eq (by simp) (by simp) (by simp))
    (fun _ _ _ _ _ _ hins => (of_eq (by simp) (by simp) (by simp)).trans
      (of_extends (Blockchain.insertRecursivelyAux_extends hins)))

/-- A mining attempt keeps the frame: its candidate is fresh. -/
theorem mine (hw : WellFormed E s) (hE : E.IdealHash)
    {pool pool' : List SignedTransaction} {nonce : UInt32} {timestamp : Nat}
    {out : List (Outbound H)} (h : PowNode.mine E s pool nonce timestamp = some (t, pool', out)) :
    Keeps s t := by
  obtain ⟨b, rest, hc, ⟨-, s₁, hs₁, rfl, -⟩ | ⟨-, rfl, -⟩⟩ := mine_spec h
  · exact (insert (candidate_fresh hw hE hc) hs₁).trans (of_eq rfl rfl rfl)
  · exact refl _

end Keeps

/-! ## What is announced is stored -/

/-- Every hash `insert_recursively` pushes, it has stored; and it only adds to the store. -/
theorem insertRecursivelyAux_logged {n : Nat} {s : Blockchain H} {b : Block H}
    {out log : List H} {r : Blockchain H × List H} (hl : ∀ x ∈ log ++ out, x ∈ s.hashToBlock)
    (h : Blockchain.insertRecursivelyAux E n s b out = some r) :
    ∀ x ∈ log ++ r.2, x ∈ r.1.hashToBlock :=
  Blockchain.insertRecursivelyAux_inv (fun t o => ∀ x ∈ log ++ o, x ∈ t.hashToBlock) (fun _ => True)
    (fun t o c t₁ hl' _ _ hs₁ =>
      have hm : ∀ x ∈ log ++ (o ++ [E.hash c]), x ∈ t₁.hashToBlock := by
        obtain ⟨_, _, -, -, hB, -⟩ := Blockchain.insert_eq_some.mp hs₁
        intro x hx
        rw [← List.append_assoc, List.mem_append, List.mem_singleton] at hx
        rw [hB, Finmap.mem_insert]
        exact hx.elim (fun hx => Or.inr (hl' x hx)) Or.inl
      ⟨fun _ => hm, fun _ _ => ⟨fun _ _ => trivial, hm⟩⟩)
    n s b out r hl trivial h

theorem receiveBlock_logged {now : Nat} {s t : Blockchain H} {b : Block H}
    {relay missing relay' missing' log : List H} (hl : ∀ x ∈ log ++ relay, x ∈ s.hashToBlock)
    (h : receiveBlock E now (s, relay, missing) b = some (t, relay', missing')) :
    ∀ x ∈ log ++ relay', x ∈ t.hashToBlock :=
  receiveBlock_elim (fun t r _ => ∀ x ∈ log ++ r, x ∈ t.hashToBlock) h
    (fun _ _ => by simpa using hl) (fun _ _ _ _ => by simpa using hl)
    (fun _ _ _ _ _ _ hins => insertRecursivelyAux_logged (by simpa using hl) hins)

theorem mine_logged {s t : Blockchain H} {pool pool' : List SignedTransaction} {nonce : UInt32}
    {timestamp : Nat} {out : List (Outbound H)} {log : List H}
    (hl : ∀ x ∈ log, x ∈ s.hashToBlock)
    (h : mine E s pool nonce timestamp = some (t, pool', out)) :
    ∀ x ∈ log ++ announced out, x ∈ t.hashToBlock := by
  obtain ⟨b, rest, -, ⟨-, s₁, hs₁, rfl, -, rfl⟩ | ⟨-, rfl, -, rfl⟩⟩ := mine_spec h
  · obtain ⟨_, _, -, -, hB, -⟩ := Blockchain.insert_eq_some.mp hs₁
    intro x hx
    simp only [announced, List.filterMap_cons, List.filterMap_nil, List.mem_append,
      List.mem_singleton, List.mem_cons, List.not_mem_nil, or_false] at hx
    show x ∈ s₁.hashToBlock
    rw [hB, Finmap.mem_insert]
    exact hx.elim (fun hx => Or.inr (hl x hx)) Or.inl
  · simpa using hl

/-- Along a run from a well-formed state: the frame holds, and every announced hash is stored
    at the end. -/
theorem run_keeps (hE : E.IdealHash) {s t : Blockchain H} (hw : WellFormed E s)
    {evs : List (Event H)} {out : List (Outbound H)} (h : run E s evs = some (t, out)) :
    Keeps s t ∧ ∀ x ∈ announced out, x ∈ t.hashToBlock := by
  have := run_inv (fun u log => WellFormed E u ∧ Keeps s u ∧ ∀ x ∈ log, x ∈ u.hashToBlock)
    (fun _ _ _ _ _ _ _ _ _ ⟨hw, hk, hl⟩ h' =>
      ⟨hw.receiveBlock h', hk.trans (Keeps.receiveBlock h'), receiveBlock_logged hl h'⟩)
    (fun _ _ _ _ _ _ _ _ ⟨hw, hk, hl⟩ h' =>
      ⟨hw.mine hE h', hk.trans (Keeps.mine hw hE h'), mine_logged hl h'⟩)
    [] ⟨hw, Keeps.refl s, fun _ h => absurd h (List.not_mem_nil _)⟩ h
  exact ⟨this.2.1, by simpa using this.2.2⟩

/-- `GetBlocks([h])` on a stored hash answers with its block. -/
theorem handleMessage_getBlocks {now : Nat} {t : Blockchain H} {x : H} {b : Block H}
    (h : t.hashToBlock.lookup x = some b) :
    handleMessage E now t (.getBlocks [x]) = some (t, [.write (.blocks [b])]) := by
  simp [handleMessage, Blockchain.getBlock, h, Finmap.mem_of_lookup_eq_some h, List.mapM,
    List.mapM.loop]

end PowNode
