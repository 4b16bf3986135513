/-
  RELAY ORDER (spec §4.3 scenario 3): what the `Blocks` arm broadcasts in `NewBlockHashes`.

  `relay_hashes` is the out-list every `insert_recursively` of the arm appends to, once per
  block it INSERTS — after the `contains` check, so never twice, and right after the insert,
  whose parent height `unwrap` means the parent was already stored: by the message's start,
  or by an earlier insert of the same arm, which pushed it earlier.  So the relay list is the
  arm's new keys, each once, every parent before its child.  Only the two maps' one key set
  is needed of the starting state (`Validated.keys`), so no assumption on the hash either.
-/
import PowNode.Validity

namespace PowNode

variable {H : Type} [LinearOrder H] {E : Env H}

/-- The relay list of a `Blocks` arm so far, from the store `s` it started on to `t`: exactly
    the new keys, each once, each listed after a new parent. -/
structure RelayLog (s t : Blockchain H) (relay : List H) : Prop where
  keys : ∀ h, h ∈ t.hashToBlock ↔ h ∈ s.hashToBlock ∨ h ∈ relay
  heights : ∀ h, h ∈ t.hashToHeight ↔ h ∈ s.hashToHeight ∨ h ∈ relay
  nodup : relay.Nodup
  fresh : ∀ h ∈ relay, h ∉ s.hashToBlock
  parent : ∀ h ∈ relay, ∀ c, t.hashToBlock.lookup h = some c →
    c.header.parent ∈ s.hashToBlock ∨ ∃ l₁ l₂, relay = l₁ ++ h :: l₂ ∧ c.header.parent ∈ l₁

namespace RelayLog

variable {s t t' : Blockchain H} {relay : List H}

theorem start (s : Blockchain H) : RelayLog s s [] :=
  ⟨fun _ => by simp, fun _ => by simp, List.nodup_nil, fun _ h => absurd h (List.not_mem_nil _),
    fun _ h => absurd h (List.not_mem_nil _)⟩

theorem congr (hl : RelayLog s t relay) (hB : t'.hashToBlock = t.hashToBlock)
    (hH : t'.hashToHeight = t.hashToHeight) : RelayLog s t' relay :=
  ⟨hB ▸ hl.keys, hH ▸ hl.heights, hl.nodup, hl.fresh, hB ▸ hl.parent⟩

/-- **The step.**  Inserting a block that is not stored appends its hash, after its parent. -/
theorem insert (hs : ∀ h, h ∈ s.hashToBlock ↔ h ∈ s.hashToHeight) (hl : RelayLog s t relay)
    {b : Block H} (hc : E.hash b ∉ t.hashToBlock) (hins : t.insert E b = some t') :
    RelayLog s t' (relay ++ [E.hash b]) := by
  obtain ⟨n, _, hn, -, hB, hH, -⟩ := Blockchain.insert_eq_some.mp hins
  have hpar : b.header.parent ∈ s.hashToBlock ∨ b.header.parent ∈ relay :=
    ((hl.heights _).mp (Finmap.mem_of_lookup_eq_some hn)).imp_left (hs _).mpr
  have hnew : E.hash b ∉ relay := fun h => hc ((hl.keys _).mpr (Or.inr h))
  refine ⟨fun h => ?_, fun h => ?_, ?_, fun h hh => ?_, fun h hh c hh' => ?_⟩
  · rw [hB, Finmap.mem_insert, hl.keys, List.mem_append, List.mem_singleton, or_comm, or_assoc]
  · rw [hH, Finmap.mem_insert, hl.heights, List.mem_append, List.mem_singleton, or_comm, or_assoc]
  · exact List.nodup_append.mpr ⟨hl.nodup, List.nodup_singleton _,
      fun x hx hx' => hnew (List.mem_singleton.mp hx' ▸ hx)⟩
  · rcases List.mem_append.mp hh with hh | hh
    · exact hl.fresh h hh
    · rw [List.mem_singleton.mp hh]; exact fun h => hc ((hl.keys _).mpr (Or.inl h))
  · rw [hB, lookup_insert_eq_some] at hh'
    rcases hh' with ⟨rfl, rfl⟩ | ⟨he, hh'⟩
    · exact hpar.imp_right fun hp => ⟨relay, [], rfl, hp⟩
    · have hh : h ∈ relay := by simpa [he] using hh
      exact (hl.parent h hh c hh').imp_right fun ⟨l₁, l₂, hr, hp⟩ =>
        ⟨l₁, l₂ ++ [E.hash b], by rw [hr]; simp, hp⟩

/-- Through `insert_recursively`. -/
theorem insertRecursivelyAux (hs : ∀ h, h ∈ s.hashToBlock ↔ h ∈ s.hashToHeight)
    (hl : RelayLog s t relay) {n : Nat} {b : Block H} {r : Blockchain H × List H}
    (h : Blockchain.insertRecursivelyAux E n t b relay = some r) : RelayLog s r.1 r.2 :=
  Blockchain.insertRecursivelyAux_inv (fun u o => RelayLog s u o) (fun _ => True)
    (fun _ _ _ _ hl' _ hc hins => have h₁ := hl'.insert hs hc hins
      ⟨fun _ => h₁, fun _ _ => ⟨fun _ _ => trivial, h₁.congr rfl rfl⟩⟩)
    n t b relay r hl trivial h

/-- Through one delivered block. -/
theorem receiveBlock (hs : ∀ h, h ∈ s.hashToBlock ↔ h ∈ s.hashToHeight)
    (hl : RelayLog s t relay) {now : Nat} {b : Block H} {missing relay' missing' : List H}
    (h : PowNode.receiveBlock E now (t, relay, missing) b = some (t', relay', missing')) :
    RelayLog s t' relay' :=
  receiveBlock_elim (fun u r _ => RelayLog s u r) h (fun _ _ => hl.congr (by simp) (by simp))
    (fun _ _ _ _ => hl.congr (by simp) (by simp))
    (fun _ _ _ _ _ _ hins => (hl.congr (by simp) (by simp)).insertRecursivelyAux hs hins)

end RelayLog

/-- **Relay order.**  From every reachable state, the `Blocks` arm broadcasts each hash it
    newly stored exactly once and no other, and a newly stored block whose parent is also new
    comes after it. -/
theorem handleBlocks_relay {s s' : Blockchain H} (hs : Reachable E s) {now : Nat}
    {blocks : List (Block H)} {out : List (Outbound H)}
    (h : handleBlocks E now s blocks = some (s', out)) :
    (announced out).Nodup ∧
    (∀ x, x ∈ announced out ↔ x ∈ s'.hashToBlock ∧ x ∉ s.hashToBlock) ∧
    ∀ x ∈ announced out, ∀ c, s'.hashToBlock.lookup x = some c →
      c.header.parent ∈ announced out →
        ∃ l₁ l₂, announced out = l₁ ++ x :: l₂ ∧ c.header.parent ∈ l₁ := by
  obtain ⟨relay, missing, hfold, rfl⟩ := handleBlocks_spec h
  rw [announced_handleBlocks]
  have hl : RelayLog s s' relay := foldlM_inv (fun acc => RelayLog s acc.1 acc.2.1)
    (fun ⟨_, _, _⟩ _ ⟨_, _, _⟩ _ ha h' => ha.receiveBlock hs.validated.keys h')
    (RelayLog.start s) hfold
  refine ⟨hl.nodup, fun x => ⟨fun hx => ⟨(hl.keys x).mpr (Or.inr hx), hl.fresh x hx⟩,
    fun ⟨h₁, h₂⟩ => ((hl.keys x).mp h₁).resolve_left h₂⟩, fun x hx c hc hp => ?_⟩
  exact (hl.parent x hx c hc).resolve_left (hl.fresh _ hp)

/-- The hypotheses hold for `Blocks([sibling])` after the sample fork: the arm stores `sibling`
    and promotes the waiting `nephew`, and relays the two hashes once each, parent first. -/
theorem relay_after_fork :
    ∃ s o s' out, run (sampleEnv true) (Blockchain.new (sampleEnv true)) forkRun = some (s, o) ∧
      handleBlocks (sampleEnv true) 3 s [sibling] = some (s', out) ∧
      (announced out).Nodup ∧ (sampleEnv true).hash sibling ∈ announced out ∧
      ∃ l₁ l₂, announced out = l₁ ++ (sampleEnv true).hash nephew :: l₂ ∧
        (sampleEnv true).hash sibling ∈ l₁ := by
  obtain ⟨s, o, s', out, h, h', hsib, hnep, hlook⟩ : ∃ s o s' out,
      run (sampleEnv true) (Blockchain.new (sampleEnv true)) forkRun = some (s, o) ∧
      handleBlocks (sampleEnv true) 3 s [sibling] = some (s', out) ∧
      (sampleEnv true).hash sibling ∈ s'.hashToBlock ∧ (sampleEnv true).hash nephew ∈ s'.hashToBlock ∧
      s'.hashToBlock.lookup ((sampleEnv true).hash nephew) = some nephew :=
    ⟨_, _, _, _, rfl, rfl, by decide, by decide, by decide⟩
  obtain ⟨hnd, hnew, horder⟩ := handleBlocks_relay ⟨_, _, h⟩ h'
  have hfresh : ∀ x, x ∈ s'.hashToBlock → x ∉ s.hashToBlock → x ∈ announced out :=
    fun x h₁ h₂ => (hnew x).mpr ⟨h₁, h₂⟩
  have hsib' := hfresh _ hsib (by rw [(Prod.mk.inj (Option.some.inj h)).1.symm]; decide)
  have hnep' := hfresh _ hnep (by rw [(Prod.mk.inj (Option.some.inj h)).1.symm]; decide)
  exact ⟨s, o, s', out, h, h', hnd, hsib', horder _ hnep' nephew hlook hsib'⟩

end PowNode
