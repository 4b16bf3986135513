/-
  ORPHAN PROMOTION (spec §3 invariants 4–5, P5).  A block whose parent is unknown waits in
  `orphan_buffer` under that parent's hash; `insert_recursively` takes the entry of every hash
  it inserts and promotes what waited there, recursively.

  Two facts hold in EVERY reachable state: a buffered block waits under its own parent and
  passed the PoW check (`Validated.buffered`).  And across every `Blocks` arm no buffered block
  is dropped unless stored, and every hash the arm newly stores has its entry emptied
  (`Promoted`) — so everything that waited for it, and transitively for its promoted children,
  is stored when the arm returns; that includes the blocks of the same message that came
  before their parent and were buffered on the way (`handleBlocks_promotes_delivered`).

  The miner is the exception.  It inserts its block with a plain `insert`, which never looks at
  the orphan buffer.  A peer that already extended the very block the miner is about to find
  (the same header: parent, nonce, timestamp, Merkle root) leaves that child waiting under a hash
  that is now stored; nothing but a redelivery will ever promote it (`mined_parent_strands_child`).
  The stronger invariant of the spec — no buffer key stored, no buffered block stored
  (`Settled`) — is therefore kept by every `Blocks` arm, and by a mining step only when its
  block's hash is not a buffer key.
-/
import PowNode.Validity
import PowNode.Frame

namespace PowNode

variable {H : Type} [LinearOrder H] {E : Env H}

/-! ## Promotion across a `Blocks` arm -/

variable (E) in
/-- **Promotion**, from the store `s` a `Blocks` arm started on to `t`: the store only grows, a
    block buffered in `s` is still buffered under the same hash or is stored, and a hash newly
    stored has no entry left. -/
structure Promoted (s t : Blockchain H) : Prop where
  mono : ∀ h, h ∈ s.hashToBlock → h ∈ t.hashToBlock
  kept : ∀ p c, c ∈ (s.orphanBuffer.lookup p).getD [] →
    c ∈ (t.orphanBuffer.lookup p).getD [] ∨ E.hash c ∈ t.hashToBlock
  cleared : ∀ p, p ∈ t.hashToBlock → p ∉ s.hashToBlock → t.orphanBuffer.lookup p = none

namespace Promoted

variable {s t t' : Blockchain H}

theorem start (s : Blockchain H) : Promoted E s s :=
  ⟨fun _ h => h, fun _ _ h => Or.inl h, fun _ h h' => absurd h h'⟩

theorem congr (hp : Promoted E s t) (hB : t'.hashToBlock = t.hashToBlock)
    (hO : t'.orphanBuffer = t.orphanBuffer) : Promoted E s t' :=
  ⟨hB ▸ hp.mono, hB ▸ hO ▸ hp.kept, hB ▸ hO ▸ hp.cleared⟩

/-- Buffering a block under a parent that is not stored only appends. -/
theorem addToOrphanBuffer (hp : Promoted E s t) {b : Block H}
    (hb : b.header.parent ∉ t.hashToBlock) : Promoted E s (t.addToOrphanBuffer b) := by
  refine ⟨hp.mono, fun p c hc => ?_, fun p h h' => ?_⟩
  · rw [Blockchain.addToOrphanBuffer_hashToBlock]
    exact (hp.kept p c hc).imp_left fun hc => Blockchain.mem_addToOrphanBuffer.mpr (Or.inl hc)
  · have hne : p ≠ b.header.parent := fun he => hb (he ▸ h)
    rw [Blockchain.addToOrphanBuffer_lookup, if_neg hne]
    exact hp.cleared p h h'

/-- A call of `insert_recursively` keeps promotion: what it newly stores it drains. -/
theorem extend (hp : Promoted E s t) (hx : Blockchain.Extends t t')
    (hd : Blockchain.Drained E t t') : Promoted E s t' := by
  refine ⟨fun h hh => hx.mem (hp.mono h hh), fun p c hc => ?_, fun p h h' => ?_⟩
  · rcases hp.kept p c hc with hc | hc
    · by_cases hn : p ∈ t'.hashToBlock ∧ p ∉ t.hashToBlock
      · exact Or.inr (hd p hn.1 hn.2 c hc)
      · left
        rwa [hx.orphan p fun h => not_not.mp fun h' => hn ⟨h, h'⟩]
    · exact Or.inr (hx.mem hc)
  · by_cases ht : p ∈ t.hashToBlock
    · rw [hx.orphan p fun _ => ht, hp.cleared p ht h']
    · exact hx.cleared p h ht

theorem receiveBlock (hp : Promoted E s t) {now : Nat} {b : Block H}
    {relay missing relay' missing' : List H}
    (h : PowNode.receiveBlock E now (t, relay, missing) b = some (t', relay', missing')) :
    Promoted E s t' :=
  receiveBlock_elim (fun u _ _ => Promoted E s u) h (fun _ _ => hp.congr (by simp) (by simp))
    (fun _ _ _ hq => (hp.congr (by simp) (by simp)).addToOrphanBuffer (by simpa using hq))
    (fun _ _ _ _ _ _ hins => (hp.congr (by simp) (by simp)).extend
      (Blockchain.insertRecursivelyAux_extends hins)
      (Blockchain.insertRecursivelyAux_drained _ _ _ _ _ hins))

end Promoted

/-- A block waiting under a parent that is not stored still waits so, or is stored. -/
theorem Promoted.waiting {s t : Blockchain H} (hp : Promoted E s t) {b : Block H}
    (hw : b ∈ (s.orphanBuffer.lookup b.header.parent).getD [])
    (hq : b.header.parent ∉ s.hashToBlock) :
    (b ∈ (t.orphanBuffer.lookup b.header.parent).getD [] ∧ b.header.parent ∉ t.hashToBlock) ∨
      E.hash b ∈ t.hashToBlock := by
  refine (hp.kept _ b hw).imp_left fun hw' => ⟨hw', fun hq' => ?_⟩
  simp [hp.cleared _ hq' hq] at hw'

variable (E) in
/-- Where a delivered block is, for the rest of its arm and after: stored, failing the check,
    or waiting under its parent, which is not stored. -/
def Placed (t : Blockchain H) (b : Block H) : Prop :=
  E.hash b ∈ t.hashToBlock ∨ t.powValidityCheck E b = false ∨
    (b ∈ (t.orphanBuffer.lookup b.header.parent).getD [] ∧ b.header.parent ∉ t.hashToBlock)

/-- Delivering a block places it. -/
theorem receiveBlock_placed {now : Nat} {t t' : Blockchain H} {b : Block H}
    {relay missing relay' missing' : List H}
    (h : receiveBlock E now (t, relay, missing) b = some (t', relay', missing')) :
    Placed E t' b :=
  receiveBlock_elim (fun u _ _ => Placed E u b) h
    (fun _ hs => hs.elim (fun hc => Or.inl (by simpa using hc)) fun hp =>
      Or.inr (Or.inl (by rw [Blockchain.powValidityCheck_congr (s := t) (by simp)]; exact hp)))
    (fun _ _ _ hq => Or.inr (Or.inr ⟨Blockchain.mem_addToOrphanBuffer.mpr (Or.inr ⟨rfl, rfl⟩),
      by simpa using hq⟩))
    (fun _ _ _ _ _ _ hins => Or.inl (Blockchain.insertRecursivelyAux_mem hins))

/-- Every later delivered block keeps a block placed: the store only grows, the difficulty
    stays, and a waiting block whose parent gets stored is promoted. -/
theorem Placed.receiveBlock {now : Nat} {t t' : Blockchain H} {b c : Block H}
    {relay missing relay' missing' : List H} (hd : Placed E t b)
    (h : PowNode.receiveBlock E now (t, relay, missing) c = some (t', relay', missing')) :
    Placed E t' b := by
  have hk := Keeps.receiveBlock h
  rcases hd with hs | hf | ⟨hw, hq⟩
  · exact Or.inl (hk.mem hs)
  · exact Or.inr (Or.inl (by rw [Blockchain.powValidityCheck_congr hk.difficulty]; exact hf))
  · exact (((Promoted.start t).receiveBlock h).waiting hw hq).elim (fun hw => Or.inr (Or.inr hw))
      Or.inl

/-- **P5 across a `Blocks` arm**, from any store: every hash the arm newly stores is left with
    no entry, and every block that waited under it at the start is stored. -/
theorem handleBlocks_promoted {now : Nat} {s s' : Blockchain H} {blocks : List (Block H)}
    {out : List (Outbound H)} (h : handleBlocks E now s blocks = some (s', out)) :
    Promoted E s s' := by
  obtain ⟨relay, missing, hfold, -⟩ := handleBlocks_spec h
  exact foldlM_inv (fun acc => Promoted E s acc.1)
    (fun ⟨_, _, _⟩ _ ⟨_, _, _⟩ _ ha h' => ha.receiveBlock h') (Promoted.start s) hfold

/-- Every block a `Blocks` arm delivers ends placed. -/
theorem handleBlocks_placed {now : Nat} {s s' : Blockchain H} {blocks : List (Block H)}
    {out : List (Outbound H)} (h : handleBlocks E now s blocks = some (s', out)) :
    ∀ b ∈ blocks, Placed E s' b := by
  obtain ⟨relay, missing, hfold, -⟩ := handleBlocks_spec h
  exact foldlM_post (fun b acc => Placed E acc.1 b)
    (fun ⟨_, _, _⟩ _ ⟨_, _, _⟩ _ h' => receiveBlock_placed h')
    (fun ⟨_, _, _⟩ _ _ ⟨_, _, _⟩ _ hd h' => hd.receiveBlock h') hfold

/-- **P5 within one `Blocks` arm.**  A block of the message that passes the check, and whose
    parent the arm newly stores, ends stored — whether it came before its parent and waited, or
    after it. -/
theorem handleBlocks_promotes_delivered {now : Nat} {s s' : Blockchain H}
    {blocks : List (Block H)} {out : List (Outbound H)}
    (h : handleBlocks E now s blocks = some (s', out)) {c : Block H} (hc : c ∈ blocks)
    (hck : s.powValidityCheck E c = true) (hp : c.header.parent ∈ s'.hashToBlock) :
    E.hash c ∈ s'.hashToBlock := by
  have hk : Keeps s s' := by
    obtain ⟨relay, missing, hfold, -⟩ := handleBlocks_spec h
    exact foldlM_inv (fun acc => Keeps s acc.1)
      (fun ⟨_, _, _⟩ _ ⟨_, _, _⟩ _ hk h' => hk.trans (Keeps.receiveBlock h')) (Keeps.refl s) hfold
  rcases handleBlocks_placed h c hc with hst | hf | ⟨-, hq⟩
  · exact hst
  · rw [Blockchain.powValidityCheck_congr hk.difficulty, hck] at hf; cases hf
  · exact absurd hp hq

/-! ## The spec's invariant, and who keeps it -/

variable (E) in
/-- **Settled** (spec §3 invariants 4–5): no buffer key is stored, and no buffered block is. -/
structure Settled (s : Blockchain H) : Prop where
  keys : ∀ p, p ∈ s.orphanBuffer → p ∉ s.hashToBlock
  children : ∀ p cs, s.orphanBuffer.lookup p = some cs → ∀ c ∈ cs, E.hash c ∉ s.hashToBlock

namespace Settled

variable {s s₁ t : Blockchain H} {b : Block H}

theorem congr (hs : Settled E s) (hB : t.hashToBlock = s.hashToBlock)
    (hO : t.orphanBuffer = s.orphanBuffer) : Settled E t :=
  ⟨hB ▸ hO ▸ hs.keys, hB ▸ hO ▸ hs.children⟩

/-- **The one real case.**  After an insert, `Settled` holds of every buffer that keeps only
    entries of `s` away from the new hash.  The new block itself was not buffered: a buffered
    copy would have its header, so wait under its parent, which the insert found stored. -/
theorem of_insert (hE : E.IdealHash) (hv : Validated E s) (hs : Settled E s)
    (hins : s.insert E b = some s₁) (hB : t.hashToBlock = s₁.hashToBlock)
    (hO : ∀ p cs, t.orphanBuffer.lookup p = some cs →
      p ≠ E.hash b ∧ s.orphanBuffer.lookup p = some cs) : Settled E t := by
  obtain ⟨_, _, hn, -, hB₁, -⟩ := Blockchain.insert_eq_some.mp hins
  have hpar : b.header.parent ∈ s.hashToBlock := (hv.keys _).mpr (Finmap.mem_of_lookup_eq_some hn)
  have hmem : ∀ x, x ∈ t.hashToBlock ↔ x = E.hash b ∨ x ∈ s.hashToBlock := fun x => by
    rw [hB, hB₁, Finmap.mem_insert]
  refine ⟨fun p hp => ?_, fun p cs hp c hc => ?_⟩
  · obtain ⟨cs, hcs⟩ := Finmap.mem_iff.mp hp
    obtain ⟨hne, hcs⟩ := hO p cs hcs
    rw [hmem]; rintro (he | hst)
    · exact hne he
    · exact hs.keys p (Finmap.mem_of_lookup_eq_some hcs) hst
  · obtain ⟨-, hcs⟩ := hO p cs hp
    rw [hmem]; rintro (he | hst)
    · -- a buffered block of the new hash has its header, so waits under a stored parent
      refine hs.keys p (Finmap.mem_of_lookup_eq_some hcs) ?_
      rwa [← (hv.buffered p cs hcs c hc).1, hE.header_eq he]
    · exact hs.children p cs hcs c hc hst

/-- Buffering a block that is not stored, under a parent that is not stored. -/
theorem addToOrphanBuffer (hs : Settled E s) (hb : E.hash b ∉ s.hashToBlock)
    (hp : b.header.parent ∉ s.hashToBlock) : Settled E (s.addToOrphanBuffer b) := by
  refine ⟨fun p h => ?_, fun p cs h c hc => ?_⟩
  · rw [← Finmap.lookup_isSome, Blockchain.addToOrphanBuffer_lookup] at h
    rw [Blockchain.addToOrphanBuffer_hashToBlock]
    split at h
    · subst_vars; exact hp
    · exact hs.keys p (Finmap.lookup_isSome.mp h)
  · have hc : c ∈ ((s.addToOrphanBuffer b).orphanBuffer.lookup p).getD [] := by rw [h]; exact hc
    rw [Blockchain.addToOrphanBuffer_hashToBlock]
    rcases Blockchain.mem_addToOrphanBuffer.mp hc with hc | ⟨-, rfl⟩
    · obtain ⟨cs', hcs', hc⟩ := exists_of_mem_getD hc
      exact hs.children p cs' hcs' c hc
    · exact hb

/-- The local step of `insert_recursively`: insert, then take out the entry of the new hash. -/
theorem insert_erase (hE : E.IdealHash) (hv : Validated E s) (hs : Settled E s)
    (hins : s.insert E b = some s₁) :
    (s₁.orphanBuffer.lookup (E.hash b) = none → Settled E s₁) ∧
      Settled E { s₁ with orphanBuffer := s₁.orphanBuffer.erase (E.hash b) } := by
  obtain ⟨_, _, -, -, -, -, -, -, hO, -⟩ := Blockchain.insert_eq_some.mp hins
  refine ⟨fun hnone => hs.of_insert hE hv hins rfl fun p cs hp => ⟨fun he => ?_, hO ▸ hp⟩,
    hs.of_insert hE hv hins rfl fun p cs hp => ?_⟩
  · rw [he, hnone] at hp; cases hp
  · by_cases he : p = E.hash b
    · rw [he] at hp; simp at hp
    · rw [Finmap.lookup_erase_ne he] at hp; exact ⟨he, hO ▸ hp⟩

/-- Through `insert_recursively`. -/
theorem insertRecursivelyAux (hE : E.IdealHash) (hv : Validated E s)
    (hs : Settled E s) (hb : s.powValidityCheck E b = true) {n : Nat} {out : List H}
    {r : Blockchain H × List H} (h : Blockchain.insertRecursivelyAux E n s b out = some r) :
    Settled E r.1 :=
  (Blockchain.insertRecursivelyAux_inv (fun t _ => Validated E t ∧ Settled E t)
    (fun c => (Blockchain.new E).powValidityCheck E c = true)
    (fun _ _ c _ ⟨hv', hs'⟩ hc _ hins =>
      have h₁ := hv'.insert_erase ((hv'.check_eq c).trans hc) hins
      have h₂ := hs'.insert_erase hE hv' hins
      ⟨fun hn => ⟨h₁.1, h₂.1 hn⟩, fun cs hcs => ⟨(h₁.2 cs hcs).1, (h₁.2 cs hcs).2, h₂.2⟩⟩)
    n s b out r ⟨hv, hs⟩ ((hv.check_eq b).symm.trans hb) h).2

theorem receiveBlock (hE : E.IdealHash) (hv : Validated E s) (hs : Settled E s)
    {now : Nat} {relay missing relay' missing' : List H}
    (h : PowNode.receiveBlock E now (s, relay, missing) b = some (t, relay', missing')) :
    Settled E t := by
  have hvt : ∀ d, Validated E (s.recordOrigin (E.hash b) (.received d)) := fun _ =>
    hv.congr (by simp) (by simp) (by simp) (by simp)
  have hc : ∀ d, (s.recordOrigin (E.hash b) (.received d)).powValidityCheck E b =
      s.powValidityCheck E b := fun _ => Blockchain.powValidityCheck_congr (by simp)
  exact receiveBlock_elim (fun u _ _ => Settled E u) h (fun _ _ => hs.congr (by simp) (by simp))
    (fun _ hb _ hq => (hs.congr (by simp) (by simp)).addToOrphanBuffer (by simpa using hb)
      (by simpa using hq))
    (fun d _ _ _ hp _ hins => (hs.congr (by simp) (by simp)).insertRecursivelyAux hE (hvt d)
      ((hc d).trans hp) hins)

/-- A mining attempt keeps `Settled` when its block's hash — what it announces — is not a
    buffer key: it leaves the buffer alone. -/
theorem mine (hE : E.IdealHash) (hv : Validated E s) (hs : Settled E s)
    {pool pool' : List SignedTransaction} {nonce : UInt32} {timestamp : Nat}
    {out : List (Outbound H)} (h : PowNode.mine E s pool nonce timestamp = some (t, pool', out))
    (hfresh : ∀ p ∈ announced out, p ∉ s.orphanBuffer) : Settled E t := by
  obtain ⟨b, rest, -, ⟨-, s₁, hs₁, rfl, -, rfl⟩ | ⟨-, rfl, -⟩⟩ := mine_spec h
  · obtain ⟨_, _, -, -, -, -, -, -, hO, -⟩ := Blockchain.insert_eq_some.mp hs₁
    refine hs.of_insert hE hv hs₁ rfl fun p cs hp => ⟨fun he => ?_, hO ▸ hp⟩
    exact hfresh p (by simp [announced, he]) (Finmap.mem_of_lookup_eq_some (hO ▸ hp))
  · exact hs

theorem handleBlocks (hE : E.IdealHash) (hv : Validated E s) (hs : Settled E s)
    {now : Nat} {blocks : List (Block H)} {out : List (Outbound H)}
    (h : PowNode.handleBlocks E now s blocks = some (t, out)) : Settled E t := by
  obtain ⟨relay, missing, hfold, -⟩ := handleBlocks_spec h
  exact (foldlM_inv (fun acc => Validated E acc.1 ∧ Settled E acc.1)
    (fun ⟨_, _, _⟩ _ ⟨_, _, _⟩ _ ⟨hv', hs'⟩ h' =>
      ⟨hv'.receiveBlock h', hs'.receiveBlock hE hv' h'⟩) ⟨hv, hs⟩ hfold).2

end Settled

/-- A mining attempt never touches the orphan buffer. -/
theorem mine_orphanBuffer {s t : Blockchain H} {pool pool' : List SignedTransaction}
    {nonce : UInt32} {timestamp : Nat} {out : List (Outbound H)}
    (h : mine E s pool nonce timestamp = some (t, pool', out)) : t.orphanBuffer = s.orphanBuffer := by
  obtain ⟨b, rest, -, ⟨-, s₁, hs₁, rfl, -⟩ | ⟨-, rfl, -⟩⟩ := mine_spec h
  · exact (Blockchain.insert_eq_some.mp hs₁).choose_spec.choose_spec.2.2.2.2.2.2.1
  · rfl

/-! ## A promoted block is itself -/

/-- A block whose parent is the hash of a block the store lacks is not stored: a stored block of
    its hash would have its header, hence that parent, which a well-formed store stores — or be
    genesis, whose parent no header hashes to. -/
theorem WellFormed.hash_not_mem (hE : E.IdealHash) {s : Blockchain H} (hw : WellFormed E s)
    {b c : Block H} (hp : b.header.parent = E.hash c) (hc : E.hash c ∉ s.hashToBlock) :
    E.hash b ∉ s.hashToBlock := by
  intro hm
  obtain ⟨d, hd⟩ := Finmap.mem_iff.mp hm
  by_cases hg : E.hash b = E.hash E.genesis
  · -- case genesis: `b` has genesis' header, so `c` hashes to its all-zero parent
    have hz : E.hash c = E.zero := by rw [← hp, hE.header_eq hg]; rfl
    exact hE.ne_zero c.header hz
  · obtain ⟨n, hn, -⟩ := hw.parent _ d hd hg
    rw [hE.header_eq (hw.hash_eq _ d hd), hp] at hn
    exact hc ((hw.keys _).mpr (Finmap.mem_of_lookup_eq_some hn))

variable (E) in
/-- Inside a call of `insert_recursively` on `c`, for a block `b`: the gate holds, `c` is
    stored, and `b`'s key is free or names `b` itself. -/
structure OwnKey (c b : Block H) (u : Blockchain H) : Prop where
  validated : Validated E u
  stored : E.hash c ∈ u.hashToBlock
  own : E.hash b ∈ u.hashToBlock → u.hashToBlock.lookup (E.hash b) = some b

/-- The local step of the calls after `c`'s insert.  Inserting a block `d` that waited with `b`
    under `c`'s hash, or waits under another hash, keeps `b`'s key: a block of `b`'s hash has
    `b`'s header, so it waited under `c`'s hash, so it is `b`.  The children `d`'s insert takes
    out wait under `d`'s hash, which is not `c`'s: `c`'s is stored, `d`'s was not. -/
theorem OwnKey.insert_erase (hE : E.IdealHash) {cs : List (Block H)} {c b d : Block H}
    {u u₁ : Blockchain H} (hone : ∀ b' ∈ cs, E.hash b' = E.hash b → b' = b)
    (hpar : b.header.parent = E.hash c) (hk : OwnKey E c b u)
    (hd : (Blockchain.new E).powValidityCheck E d = true)
    (hdP : d ∈ cs ∨ d.header.parent ≠ E.hash c) (hdu : E.hash d ∉ u.hashToBlock)
    (hins : u.insert E d = some u₁) :
    OwnKey E c b u₁ ∧ ∀ cs₂, u₁.orphanBuffer.lookup (E.hash d) = some cs₂ →
      (∀ y ∈ cs₂, (Blockchain.new E).powValidityCheck E y = true ∧
        (y ∈ cs ∨ y.header.parent ≠ E.hash c)) ∧
      OwnKey E c b { u₁ with orphanBuffer := u₁.orphanBuffer.erase (E.hash d) } := by
  have hvd := hk.validated.insert_erase ((hk.validated.check_eq d).trans hd) hins
  obtain ⟨_, _, -, -, hBd, -⟩ := Blockchain.insert_eq_some.mp hins
  have hst : E.hash c ∈ u₁.hashToBlock := by rw [hBd, Finmap.mem_insert]; exact Or.inr hk.stored
  have hown : E.hash b ∈ u₁.hashToBlock → u₁.hashToBlock.lookup (E.hash b) = some b := by
    intro hm
    by_cases hdb : E.hash d = E.hash b
    · -- a block of `b`'s hash has `b`'s parent: it waited with `b`, so it is `b`
      have hd' : d ∈ cs := hdP.resolve_right fun hne => hne (by rw [hE.header_eq hdb, hpar])
      rw [hBd, ← hdb, Finmap.lookup_insert, hone d hd' hdb]
    · rw [hBd, Finmap.lookup_insert_of_ne _ (Ne.symm hdb)]
      exact hk.own (by simpa [hBd, Finmap.mem_insert, Ne.symm hdb] using hm)
  refine ⟨⟨hvd.1, hst, hown⟩, fun cs₂ hcs₂ => ⟨fun y hy => ⟨(hvd.2 cs₂ hcs₂).1 y hy, Or.inr ?_⟩,
    ⟨(hvd.2 cs₂ hcs₂).2, hst, hown⟩⟩⟩
  rw [(hvd.1.buffered _ cs₂ hcs₂ y hy).1]
  exact fun he => hdu (he ▸ hk.stored)

/-- **A promoted block is itself.**  A call of `insert_recursively` on a block `c` not stored
    takes out the entry of `c`'s hash; a block `b` of that entry ends stored as `b` itself, when
    no other block of the entry shares its hash.  Every other block the call inserts waited
    under the hash of a block inserted after `c`, so has another parent than `b`, hence another
    header. -/
theorem insertRecursivelyAux_promoted (hE : E.IdealHash) {s : Blockchain H}
    (hw : WellFormed E s) (hv : Validated E s) {n : Nat} {c b : Block H} {out : List H}
    {r : Blockchain H × List H} (h : Blockchain.insertRecursivelyAux E n s c out = some r)
    (hc : E.hash c ∉ s.hashToBlock) (hck : s.powValidityCheck E c = true) {cs : List (Block H)}
    (hcs : s.orphanBuffer.lookup (E.hash c) = some cs) (hb : b ∈ cs)
    (hone : ∀ b' ∈ cs, E.hash b' = E.hash b → b' = b) :
    r.1.hashToBlock.lookup (E.hash b) = some b := by
  have hpar : b.header.parent = E.hash c := (hv.buffered _ cs hcs b hb).1
  have hstored : E.hash b ∈ r.1.hashToBlock :=
    Blockchain.insertRecursivelyAux_drained _ _ _ _ _ h _ (Blockchain.insertRecursivelyAux_mem h)
      hc b (by simp [hcs, hb])
  cases n with
  | zero => simp [Blockchain.insertRecursivelyAux] at h
  | succ n =>
  rcases Blockchain.insertRecursivelyAux_succ.mp h with
    ⟨hc', -⟩ | ⟨-, s₁, hs₁, ⟨hn, -⟩ | ⟨cs', hcs', hfold⟩⟩
  · exact absurd hc' hc
  · obtain ⟨_, _, -, -, -, -, -, -, hO, -⟩ := Blockchain.insert_eq_some.mp hs₁
    rw [hO, hcs] at hn; cases hn
  obtain ⟨_, _, hcp, -, hB, -, -, -, hO, -⟩ := Blockchain.insert_eq_some.mp hs₁
  obtain rfl : cs = cs' := Option.some.inj (hcs.symm.trans (hO ▸ hcs'))
  -- after `c`'s insert, `b`'s key is free: `b` is not `c`, whose parent is stored, nor stored
  have hbc : E.hash b ≠ E.hash c := fun he => hc (by
    rw [← hpar, hE.header_eq he]
    exact (hv.keys _).mpr (Finmap.mem_of_lookup_eq_some hcp))
  have hb₀ : E.hash b ∉ s.hashToBlock := hw.hash_not_mem hE hpar hc
  have hstart : OwnKey E c b { s₁ with orphanBuffer := s₁.orphanBuffer.erase (E.hash c) } :=
    ⟨((hv.insert_erase hck hs₁).2 cs hcs').2, by simp [hB], fun hm => by
      simp only [hB, Finmap.mem_insert] at hm
      exact absurd (hm.resolve_left hbc) hb₀⟩
  -- and every later call keeps it free or naming `b`
  exact (foldlM_inv (fun acc => OwnKey E c b acc.1)
    (fun acc x acc' hx hk h' => Blockchain.insertRecursivelyAux_inv (fun u _ => OwnKey E c b u)
      (fun d => (Blockchain.new E).powValidityCheck E d = true ∧
        (d ∈ cs ∨ d.header.parent ≠ E.hash c))
      (fun _ _ _ _ hk ⟨hd, hdP⟩ hdu hins =>
        have h₁ := hk.insert_erase hE hone hpar hd hdP hdu hins
        ⟨fun _ => h₁.1, h₁.2⟩)
      n acc.1 x acc.2 acc' hk
      ⟨(hv.check_eq x).symm.trans (hv.buffered _ cs hcs x hx).2, Or.inl hx⟩ h')
    hstart hfold).own hstored

/-- **Orphan promotion, as the code does it.**  In every reachable state a buffered block waits
    under its own parent and passed the PoW check.  A `Blocks` arm empties the entry of every
    hash it newly stores and stores every block that waited for it — at the arm's start, or
    delivered in the same message and passing the check, before or after its parent; and
    transitively, since a promoted block is newly stored too.  It drops no other buffered block
    and keeps `Settled` (`Header::hash` ideal).  A mining step leaves the buffer as it was, even
    under the hash it stores, and keeps `Settled` when that hash is not a buffer key. -/
theorem reachable_orphan_promotion (hE : E.IdealHash) {s : Blockchain H}
    (hs : Reachable E s) :
    (∀ p cs, s.orphanBuffer.lookup p = some cs → ∀ c ∈ cs,
      c.header.parent = p ∧ s.powValidityCheck E c = true) ∧
    (∀ now blocks s' out, handleBlocks E now s blocks = some (s', out) →
      (∀ p, p ∈ s'.hashToBlock → p ∉ s.hashToBlock → s'.orphanBuffer.lookup p = none ∧
        ∀ c, c.header.parent = p →
          c ∈ (s.orphanBuffer.lookup p).getD [] ∨ (c ∈ blocks ∧ s.powValidityCheck E c = true) →
          E.hash c ∈ s'.hashToBlock) ∧
      (∀ p c, c ∈ (s.orphanBuffer.lookup p).getD [] →
        c ∈ (s'.orphanBuffer.lookup p).getD [] ∨ E.hash c ∈ s'.hashToBlock) ∧
      (Settled E s → Settled E s')) ∧
    ∀ pool nonce timestamp s' pool' out, mine E s pool nonce timestamp = some (s', pool', out) →
      s'.orphanBuffer = s.orphanBuffer ∧
      (Settled E s → (∀ p ∈ announced out, p ∉ s.orphanBuffer) → Settled E s') := by
  have hv := hs.validated
  refine ⟨hv.buffered, fun _ _ _ _ h => ?_, fun _ _ _ _ _ _ h =>
    ⟨mine_orphanBuffer h, fun hst hfresh => hst.mine hE hv h hfresh⟩⟩
  have hp := handleBlocks_promoted h
  refine ⟨fun p h₁ h₂ => ⟨hp.cleared p h₁ h₂, ?_⟩, hp.kept, fun hst => hst.handleBlocks hE hv h⟩
  rintro c rfl (hc | ⟨hc, hck⟩)
  · -- waited at the start: not waiting any more, so stored
    simpa [hp.cleared _ h₁ h₂] using hp.kept _ c hc
  · exact handleBlocks_promotes_delivered h hc hck h₁

/-- A peer's child of `minedFirst`, delivered before the miner finds it. -/
def earlyChild : Block Int := ⟨⟨(sampleEnv true).hash minedFirst, 0, 0, 0, 0⟩, ⟨[]⟩⟩

/-- **The miner strands a waiting child.**  A peer's child of the block the miner is about to
    find arrives first and waits.  Delivered with its parent in one message, or followed by a
    message with the parent, it is promoted; but the mining step that finds the parent stores
    that hash with a plain `insert` and leaves the child waiting under it, unstored. -/
theorem mined_parent_strands_child :
    (∃ s₀ o₀, handleBlocks (sampleEnv true) 0 (Blockchain.new (sampleEnv true))
        [earlyChild, minedFirst] = some (s₀, o₀) ∧ (sampleEnv true).hash earlyChild ∈ s₀.hashToBlock) ∧
    ∃ s₁ o₁, run (sampleEnv true) (Blockchain.new (sampleEnv true))
        [.receive 0 (.blocks [earlyChild])] = some (s₁, o₁) ∧
      s₁.orphanBuffer.lookup ((sampleEnv true).hash minedFirst) = some [earlyChild] ∧
      (∃ s' out, handleBlocks (sampleEnv true) 0 s₁ [minedFirst] = some (s', out) ∧
        (sampleEnv true).hash earlyChild ∈ s'.hashToBlock) ∧
      ∃ s' pool' out, mine (sampleEnv true) s₁ [] 0 0 = some (s', pool', out) ∧
        (sampleEnv true).hash minedFirst ∈ s'.hashToBlock ∧
        s'.orphanBuffer.lookup ((sampleEnv true).hash minedFirst) = some [earlyChild] ∧
        (sampleEnv true).hash earlyChild ∉ s'.hashToBlock := by
  obtain ⟨s₀, o₀, h₀, hm₀, hn₀⟩ : ∃ s₀ o₀, handleBlocks (sampleEnv true) 0
      (Blockchain.new (sampleEnv true)) [earlyChild, minedFirst] = some (s₀, o₀) ∧
      (sampleEnv true).hash minedFirst ∈ s₀.hashToBlock ∧
      (sampleEnv true).hash minedFirst ∉ (Blockchain.new (sampleEnv true)).hashToBlock :=
    ⟨_, _, rfl, by decide, by decide⟩
  obtain ⟨s₁, o₁, h₁, hb₁, hn₁, ⟨s₂, o₂, h₂, hm₂⟩, s₃, p₃, o₃, h₃, hm₃, hc₃⟩ : ∃ s₁ o₁,
      run (sampleEnv true) (Blockchain.new (sampleEnv true)) [.receive 0 (.blocks [earlyChild])] =
        some (s₁, o₁) ∧
      s₁.orphanBuffer.lookup ((sampleEnv true).hash minedFirst) = some [earlyChild] ∧
      (sampleEnv true).hash minedFirst ∉ s₁.hashToBlock ∧
      (∃ s₂ o₂, handleBlocks (sampleEnv true) 0 s₁ [minedFirst] = some (s₂, o₂) ∧
        (sampleEnv true).hash minedFirst ∈ s₂.hashToBlock) ∧
      ∃ s₃ p₃ o₃, mine (sampleEnv true) s₁ [] 0 0 = some (s₃, p₃, o₃) ∧
        (sampleEnv true).hash minedFirst ∈ s₃.hashToBlock ∧
        (sampleEnv true).hash earlyChild ∉ s₃.hashToBlock :=
    ⟨_, _, rfl, by decide, by decide, ⟨_, _, rfl, by decide⟩, _, _, _, rfl, by decide, by decide⟩
  have hT₀ := reachable_orphan_promotion (sampleEnv_idealHash true) (Reachable.new (E := sampleEnv true))
  have hT := reachable_orphan_promotion (sampleEnv_idealHash true) ⟨_, _, h₁⟩
  refine ⟨⟨s₀, o₀, h₀, ((hT₀.2.1 _ _ _ _ h₀).1 _ hm₀ hn₀).2 earlyChild rfl
      (Or.inr ⟨by simp, by decide⟩)⟩, s₁, o₁, h₁, hb₁,
    ⟨s₂, o₂, h₂, ((hT.2.1 _ _ _ _ h₂).1 _ hm₂ hn₁).2 earlyChild rfl (Or.inl (by simp [hb₁]))⟩,
    s₃, p₃, o₃, h₃, hm₃, by rw [(hT.2.2 _ _ _ _ _ _ h₃).1, hb₁], hc₃⟩

end PowNode
