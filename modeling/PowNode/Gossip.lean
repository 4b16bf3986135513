/-
  THE GOSSIP ROUND TRIP: how one announced block reaches a peer that lacks it, and from there
  every node along a path of peers.

  The miner broadcasts `NewBlockHashes([h])` after its insert.  A peer that lacks `h` answers
  `GetBlocks([h])` (the `NewBlockHashes` arm); the announcer answers `Blocks([b])` (the
  `GetBlocks` arm); and the peer's `Blocks` arm, reading `b`, stores it and relays `h` to all
  its own peers when it stores `b`'s parent, or buffers `b` as an orphan and asks the same
  announcer for the parent.

  1. ONE LEG AT A TIME.  Each leg is one network step at the packet the leg before put LAST in
     flight (`deliver_announcement`, `deliver_request`, `deliver_reply`); the first two change
     no block-tree.
  2. ONE BLOCK.  On a well-formed, validated store the `Blocks` arm on `[b]` returns, and
     either stores and relays `b` — alone, when nothing waited for it — or buffers it and asks
     for its parent (`handleBlocks_one`).
  3. THE ROUND TRIP (`announcement_fetched`).  From every reachable network state
     (`Header::hash` ideal), the three deliveries after an announcement of a block stamped no
     later than the clock fetch it: the peer then stores that very block and announces it on
     to each of its peers, or it waits under its parent with a request for the parent in flight
     to the announcer; no other node changes.
  4. FLOODING (`block_floods`).  The relayed announcement is again `NewBlockHashes([h])` when
     nothing waited for the block (`hop`), so round trips chain: along every path of peers that
     lack the block and store its parent, some schedule of three deliveries per node leaves
     each of them storing it.  Stored blocks stay (`netRun_keeps`), so the nodes reached first
     keep it while the flood moves on.
  5. ORPHAN RECOVERY (`orphan_recovered`).  The other branch of the round trip closes too: the
     request for an orphan's parent, answered by a node that stores it, stores the parent at
     the requester, and the same `Blocks` arm promotes the orphan.
-/
import PowNode.Network
import PowNode.Relay
import PowNode.Orphans

namespace PowNode

variable {H : Type} [LinearOrder H] {n : Nat} {E : Env H} {peers : Fin n → List (Fin n)}

/-! ## The three legs -/

/-- A delivery whose handler returns: the reader takes the new block-tree, the packet leaves,
    and the reader's effects join the packets in flight. -/
theorem netStep_deliver {N : Network n H} {k now : Nat} {p : Packet n H} {s : Blockchain H}
    {out : List (Outbound H)} (hp : N.inflight[k]? = some p)
    (hs : handleMessage E now (N.nodes p.dst) p.msg = some (s, out)) :
    netStep E peers N (.deliver k now) = some ⟨Function.update N.nodes p.dst s,
      N.inflight.eraseIdx k ++ packets peers p.dst (some p.src) out⟩ := by
  simp [netStep, hp, step, hs]

omit [LinearOrder H] in
/-- Taking out the packet put last in flight leaves the others. -/
theorem eraseIdx_concat_length {α : Type} (rest : List α) (q : α) :
    (rest ++ [q]).eraseIdx rest.length = rest := by
  simp [List.eraseIdx_append_of_length_le le_rfl]

/-- **The request.**  A node that lacks an announced hash asks the announcer for it. -/
theorem deliver_announcement {N : Network n H} {k now : Nat} {i j : Fin n} {h : H}
    (hk : N.inflight[k]? = some ⟨i, j, .newBlockHashes [h]⟩) (hj : h ∉ (N.nodes j).hashToBlock) :
    netStep E peers N (.deliver k now) =
      some ⟨N.nodes, N.inflight.eraseIdx k ++ [⟨j, i, .getBlocks [h]⟩]⟩ := by
  simp [netStep, hk, step, handleMessage, Blockchain.containsBlock, hj, packets, route,
    Function.update_eq_self]

/-- **The reply.**  A node asked for one hash it stores sends back its block. -/
theorem deliver_request {N : Network n H} {k now : Nat} {i j : Fin n} {h : H} {b : Block H}
    (hk : N.inflight[k]? = some ⟨j, i, .getBlocks [h]⟩)
    (hb : (N.nodes i).hashToBlock.lookup h = some b) :
    netStep E peers N (.deliver k now) =
      some ⟨N.nodes, N.inflight.eraseIdx k ++ [⟨i, j, .blocks [b]⟩]⟩ := by
  rw [netStep_deliver hk (handleMessage_getBlocks hb)]
  simp [packets, route, Function.update_eq_self]

/-- **The reply read.**  The `Blocks` arm runs at the requester. -/
theorem deliver_reply {N : Network n H} {now : Nat} {rest : List (Packet n H)} {i j : Fin n}
    {b : Block H} {s : Blockchain H} {out : List (Outbound H)}
    (hN : N.inflight = rest ++ [⟨i, j, .blocks [b]⟩])
    (hs : handleBlocks E now (N.nodes j) [b] = some (s, out)) :
    netStep E peers N (.deliver rest.length now) =
      some ⟨Function.update N.nodes j s, rest ++ packets peers j (some i) out⟩ := by
  rw [netStep_deliver (p := ⟨i, j, .blocks [b]⟩) (by rw [hN, List.getElem?_concat_length]) hs, hN,
    eraseIdx_concat_length]

/-! ## One block read -/

/-- **One block, read by a node that lacks it** (`Header::hash` ideal; from a well-formed,
    validated store, the block passing the check and stamped no later than the clock): if its
    parent is stored, the block is stored and relayed — alone, when nothing waited for it; if
    not, it waits under its parent, and the parent is asked for. -/
theorem handleBlocks_one (hE : E.IdealHash) {t : Blockchain H} {b : Block H}
    {now : Nat} (hw : WellFormed E t) (hv : Validated E t) (hb : E.hash b ∉ t.hashToBlock)
    (hpow : t.powValidityCheck E b = true) (hnow : b.header.timestamp ≤ now) :
    ∃ s relay missing, handleBlocks E now t [b] = some (s,
        (if missing.isEmpty then [] else [.write (.getBlocks missing)]) ++
          (if relay.isEmpty then [] else [.broadcast (.newBlockHashes relay)])) ∧
      (b.header.parent ∈ t.hashToBlock →
        s.hashToBlock.lookup (E.hash b) = some b ∧ E.hash b ∈ relay ∧
        (t.orphanBuffer.lookup (E.hash b) = none → relay = [E.hash b]) ∧
        ∀ cs, t.orphanBuffer.lookup (E.hash b) = some cs → ∀ x ∈ cs,
          (∀ x' ∈ cs, E.hash x' = E.hash x → x' = x) → s.hashToBlock.lookup (E.hash x) = some x) ∧
      (b.header.parent ∉ t.hashToBlock →
        b ∈ (s.orphanBuffer.lookup b.header.parent).getD [] ∧ missing = [b.header.parent]) := by
  obtain ⟨⟨s, relay, missing⟩, hr⟩ :=
    receiveBlock_isSome hw (fun p cs hp c hc => (hv.buffered p cs hp c hc).1) hnow [] []
  have hl : RelayLog t s relay := (RelayLog.start t).receiveBlock hv.keys hr
  refine ⟨s, relay, missing, by simp [handleBlocks, hr], ?_⟩
  obtain ⟨d, -, hc⟩ := receiveBlock_cases hr
  rcases hc with ⟨hc, -⟩ | ⟨-, hc, -⟩ | ⟨-, -, hq, rfl, rfl, rfl⟩ | ⟨-, -, hq, hins, rfl⟩
  · exact absurd hc hb
  · rw [hpow] at hc; cases hc
  · -- the orphan waits under its parent
    exact ⟨fun h => absurd h hq,
      fun _ => ⟨Blockchain.mem_addToOrphanBuffer.mpr (Or.inr ⟨rfl, rfl⟩), rfl⟩⟩
  · -- the block is inserted under its own hash, and relayed as new
    have hlook : s.hashToBlock.lookup (E.hash b) = some b :=
      Blockchain.insertRecursivelyAux_lookup hins (by simpa using hb)
    have hmem : E.hash b ∈ s.hashToBlock := Finmap.mem_of_lookup_eq_some hlook
    -- with nothing waiting under it, the call stops after its own insert
    have hone : t.orphanBuffer.lookup (E.hash b) = none → relay = [E.hash b] := fun hn => by
      rcases Blockchain.insertRecursivelyAux_succ.mp hins with
        ⟨hc, -⟩ | ⟨-, s₁, hs₁, ⟨-, hr₁⟩ | ⟨cs, hcs, -⟩⟩
      · exact absurd (by simpa using hc) hb
      · exact (Prod.mk.inj hr₁).2
      · obtain ⟨_, _, -, -, -, -, -, -, hO, -⟩ := Blockchain.insert_eq_some.mp hs₁
        simp [hO, hn] at hcs
    -- and what waited for it is stored as itself
    have hprom : ∀ cs, t.orphanBuffer.lookup (E.hash b) = some cs → ∀ x ∈ cs,
        (∀ x' ∈ cs, E.hash x' = E.hash x → x' = x) → s.hashToBlock.lookup (E.hash x) = some x :=
      fun cs hcs x hx hx' => insertRecursivelyAux_promoted hE (hw.congr (by simp) (by simp) (by simp))
        (hv.congr (by simp) (by simp) (by simp) (by simp)) hins (by simpa using hb)
        (by simpa using hpow) (by simpa using hcs) hx hx'
    exact ⟨fun _ => ⟨hlook, ((hl.keys _).mp hmem).resolve_left hb, hone, hprom⟩,
      fun h => absurd hq h⟩

/-! ## The round trip -/

/-- A block one node stores and another lacks passes the other's check: it is not genesis,
    which every node stores, so it passed the first node's check, which is every node's. -/
theorem powValidityCheck_of_stored (hE : E.IdealHash) {N : Network n H}
    (hN : NetReachable E peers N) {i j : Fin n} {b : Block H}
    (hb : (N.nodes i).hashToBlock.lookup (E.hash b) = some b)
    (hj : E.hash b ∉ (N.nodes j).hashToBlock) : (N.nodes j).powValidityCheck E b = true := by
  have hr := (hN.inv hE).1
  rw [(hr j).validated.check_eq, ← (hr i).validated.check_eq]
  exact ((hr i).validated.stored _ _ hb).resolve_left
    fun he => hj (he ▸ ((hr j).wellFormed hE).genesis_mem)

/-- The last two legs in a row: a request for one hash, answered by a node that stores it, and
    the reply read by the requester's `Blocks` arm. -/
theorem netRun_request_reply {N : Network n H} {k now : Nat} {i j : Fin n} {h : H} {b : Block H}
    {s : Blockchain H} {out : List (Outbound H)}
    (hk : N.inflight[k]? = some ⟨j, i, .getBlocks [h]⟩)
    (hb : (N.nodes i).hashToBlock.lookup h = some b)
    (hs : handleBlocks E now (N.nodes j) [b] = some (s, out)) :
    netRun E peers N [.deliver k now, .deliver (N.inflight.length - 1) now] =
      some ⟨Function.update N.nodes j s, N.inflight.eraseIdx k ++ packets peers j (some i) out⟩ := by
  have hlen := List.length_eraseIdx_of_lt (List.getElem?_eq_some_iff.mp hk).1
  have h₂ : netStep E peers ⟨N.nodes, N.inflight.eraseIdx k ++ [⟨i, j, .blocks [b]⟩]⟩
      (.deliver (N.inflight.length - 1) now) =
        some ⟨Function.update N.nodes j s, N.inflight.eraseIdx k ++ packets peers j (some i) out⟩ := by
    rw [← hlen]; exact deliver_reply rfl hs
  simp only [netRun, deliver_request hk hb, h₂, Option.bind_eq_bind, Option.some_bind]

/-- The three legs in a row: announcement, request, reply — the reply read by the `Blocks` arm. -/
theorem netRun_round_trip {N : Network n H} {k now : Nat} {i j : Fin n} {b : Block H}
    {s : Blockchain H} {out : List (Outbound H)}
    (hk : N.inflight[k]? = some ⟨i, j, .newBlockHashes [E.hash b]⟩)
    (hb : (N.nodes i).hashToBlock.lookup (E.hash b) = some b)
    (hj : E.hash b ∉ (N.nodes j).hashToBlock)
    (hs : handleBlocks E now (N.nodes j) [b] = some (s, out)) :
    netRun E peers N [.deliver k now, .deliver (N.inflight.length - 1) now,
        .deliver (N.inflight.length - 1) now] =
      some ⟨Function.update N.nodes j s, N.inflight.eraseIdx k ++ packets peers j (some i) out⟩ := by
  have hlen := List.length_eraseIdx_of_lt (List.getElem?_eq_some_iff.mp hk).1
  -- the request is the packet the announcement put last in flight
  have h₂₃ : netRun E peers ⟨N.nodes, N.inflight.eraseIdx k ++ [⟨j, i, .getBlocks [E.hash b]⟩]⟩
      [.deliver _ now, .deliver _ now] = _ :=
    netRun_request_reply (List.getElem?_concat_length _ _) hb hs
  simp only [List.length_append, List.length_singleton, Nat.add_sub_cancel, eraseIdx_concat_length]
    at h₂₃
  rw [hlen] at h₂₃
  simp only [netRun, deliver_announcement hk hj, Option.bind_eq_bind, Option.some_bind] at h₂₃ ⊢
  exact h₂₃

/-- The relay of the `Blocks` arm goes to every peer. -/
theorem relay_sent {j i m : Fin n} {relay missing : List H} (hrel : relay ≠ []) (hm : m ∈ peers j) :
    ⟨j, m, .newBlockHashes relay⟩ ∈ packets peers j (some i)
      ((if missing.isEmpty then [] else [.write (.getBlocks missing)]) ++
        (if relay.isEmpty then [] else [.broadcast (.newBlockHashes relay)])) :=
  mem_packets.mpr (Or.inr ⟨_, m, by simp [hrel], hm, rfl⟩)

/-- **An announced block is fetched** (`Header::hash` ideal).  From every reachable network
    state, when node `j` lacks a block that node `i` stores and announces to it, the three
    deliveries — the announcement, then `j`'s request, then `i`'s reply, each the packet the one
    before put last in flight — return; afterwards `j` stores that very block and announces it
    to each of its peers when it stored the block's parent, and otherwise keeps it waiting under
    the parent with a request for the parent in flight to `i`.  No other node changes. -/
theorem announcement_fetched (hE : E.IdealHash) {N : Network n H}
    (hN : NetReachable E peers N) {k now : Nat} {i j : Fin n} {b : Block H}
    (hk : N.inflight[k]? = some ⟨i, j, .newBlockHashes [E.hash b]⟩)
    (hb : (N.nodes i).hashToBlock.lookup (E.hash b) = some b)
    (hj : E.hash b ∉ (N.nodes j).hashToBlock) (hnow : b.header.timestamp ≤ now) :
    ∃ N', netRun E peers N [.deliver k now, .deliver (N.inflight.length - 1) now,
        .deliver (N.inflight.length - 1) now] = some N' ∧
      (∀ m, m ≠ j → N'.nodes m = N.nodes m) ∧
      (b.header.parent ∈ (N.nodes j).hashToBlock →
        (N'.nodes j).hashToBlock.lookup (E.hash b) = some b ∧
        ∃ relay, E.hash b ∈ relay ∧ ∀ m ∈ peers j, ⟨j, m, .newBlockHashes relay⟩ ∈ N'.inflight) ∧
      (b.header.parent ∉ (N.nodes j).hashToBlock →
        b ∈ ((N'.nodes j).orphanBuffer.lookup b.header.parent).getD [] ∧
        ⟨j, i, .getBlocks [b.header.parent]⟩ ∈ N'.inflight) := by
  have hr := (hN.inv hE).1
  obtain ⟨s, relay, missing, hs, hin, hout⟩ := handleBlocks_one hE ((hr j).wellFormed hE)
    (hr j).validated hj (powValidityCheck_of_stored hE hN hb hj) hnow
  refine ⟨_, netRun_round_trip hk hb hj hs, fun m hm => Function.update_noteq hm _ _,
    fun hq => ?_, fun hq => ?_⟩
  · -- stored, and announced on to every peer
    obtain ⟨hlook, hrel, -⟩ := hin hq
    exact ⟨by simpa using hlook, relay, hrel,
      fun m hm => List.mem_append_right _ (relay_sent (List.ne_nil_of_mem hrel) hm)⟩
  · -- buffered, and its parent asked of the announcer
    obtain ⟨hbuf, rfl⟩ := hout hq
    exact ⟨by simpa using hbuf,
      List.mem_append_right _ (mem_packets.mpr (Or.inl ⟨_, i, by simp, rfl, rfl⟩))⟩

/-- The hypotheses hold in the two-node network for the announcement of node 0's first block,
    read at clock 0: node 1 then stores the block. -/
theorem first_block_fetched : ∃ (N : Network 2 Int) (b : Block Int),
    NetReachable (sampleEnv true) (fun i : Fin 2 => [1 - i]) N ∧
    N.inflight[0]? = some ⟨0, 1, .newBlockHashes [(sampleEnv true).hash b]⟩ ∧
    (N.nodes 0).hashToBlock.lookup ((sampleEnv true).hash b) = some b ∧
    (sampleEnv true).hash b ∉ (N.nodes 1).hashToBlock ∧ b.header.timestamp ≤ 0 ∧
    ∃ N', netRun (sampleEnv true) (fun i : Fin 2 => [1 - i]) N
        [.deliver 0 0, .deliver 0 0, .deliver 0 0] = some N' ∧
      (N'.nodes 1).hashToBlock.lookup ((sampleEnv true).hash b) = some b := by
  obtain ⟨N, b, h, hlen, hk, hb, hj, hts, hq⟩ : ∃ (N : Network 2 Int) (b : Block Int),
      netRun (sampleEnv true) (fun i : Fin 2 => [1 - i]) (Network.fresh (sampleEnv true) 2)
        [.mine 0 [] 0 0] = some N ∧ N.inflight.length = 1 ∧
      N.inflight[0]? = some ⟨0, 1, .newBlockHashes [(sampleEnv true).hash b]⟩ ∧
      (N.nodes 0).hashToBlock.lookup ((sampleEnv true).hash b) = some b ∧
      (sampleEnv true).hash b ∉ (N.nodes 1).hashToBlock ∧ b.header.timestamp ≤ 0 ∧
      b.header.parent ∈ (N.nodes 1).hashToBlock :=
    ⟨_, ⟨⟨(sampleEnv true).hash (sampleEnv true).genesis, 0, 0, 0, 0⟩, ⟨[default]⟩⟩, rfl, rfl, rfl,
      rfl, by decide, le_rfl, by decide⟩
  obtain ⟨N', hrun, -, hin, -⟩ :=
    announcement_fetched (sampleEnv_idealHash true) ⟨_, h⟩ hk hb hj hts
  rw [hlen] at hrun
  exact ⟨N, b, ⟨_, h⟩, hk, hb, hj, hts, N', hrun, (hin hq).1⟩

/-! ## Flooding -/

/-- **One hop.**  At a peer that lacks the announced block, stores its parent and has nothing
    waiting under it, the round trip stores the block and announces it, alone, to each of the
    peer's peers. -/
theorem hop (hE : E.IdealHash) {N : Network n H} (hN : NetReachable E peers N)
    {k now : Nat} {i j : Fin n} {b : Block H}
    (hk : N.inflight[k]? = some ⟨i, j, .newBlockHashes [E.hash b]⟩)
    (hb : (N.nodes i).hashToBlock.lookup (E.hash b) = some b)
    (hj : E.hash b ∉ (N.nodes j).hashToBlock) (hpar : b.header.parent ∈ (N.nodes j).hashToBlock)
    (hnone : (N.nodes j).orphanBuffer.lookup (E.hash b) = none) (hnow : b.header.timestamp ≤ now) :
    ∃ N', netRun E peers N [.deliver k now, .deliver (N.inflight.length - 1) now,
        .deliver (N.inflight.length - 1) now] = some N' ∧
      (∀ m, m ≠ j → N'.nodes m = N.nodes m) ∧
      (N'.nodes j).hashToBlock.lookup (E.hash b) = some b ∧
      ∀ m ∈ peers j, ⟨j, m, .newBlockHashes [E.hash b]⟩ ∈ N'.inflight := by
  have hr := (hN.inv hE).1
  obtain ⟨s, relay, missing, hs, hin, -⟩ := handleBlocks_one hE ((hr j).wellFormed hE)
    (hr j).validated hj (powValidityCheck_of_stored hE hN hb hj) hnow
  obtain ⟨hlook, -, hone, -⟩ := hin hpar
  obtain rfl := hone hnone
  exact ⟨_, netRun_round_trip hk hb hj hs, fun m hm => Function.update_noteq hm _ _,
    by simpa using hlook,
    fun m hm => List.mem_append_right _ (relay_sent (List.cons_ne_nil _ _) hm)⟩

/-- **A block floods along a path of peers** (`Header::hash` ideal).  From every reachable
    network state in which node `i` stores a block and its announcement to `j` is in flight,
    along every path `j, …` of distinct nodes, each a peer of the one before, whose nodes lack
    the block, store its parent and have nothing waiting under it, some schedule of three
    deliveries per node, each read at one clock `now` no earlier than the block's stamp, leaves
    every node of the path storing that very block. -/
theorem block_floods (hE : E.IdealHash) {now : Nat} {b : Block H}
    (hnow : b.header.timestamp ≤ now) :
    ∀ {rest : List (Fin n)} {N : Network n H} {k : Nat} {i j : Fin n},
      NetReachable E peers N → N.inflight[k]? = some ⟨i, j, .newBlockHashes [E.hash b]⟩ →
      (N.nodes i).hashToBlock.lookup (E.hash b) = some b →
      List.Chain (fun a c => c ∈ peers a) j rest → (j :: rest).Nodup →
      (∀ m ∈ j :: rest, E.hash b ∉ (N.nodes m).hashToBlock ∧
        b.header.parent ∈ (N.nodes m).hashToBlock ∧
        (N.nodes m).orphanBuffer.lookup (E.hash b) = none) →
      ∃ evs N', evs.length = 3 * (rest.length + 1) ∧ (∀ ev ∈ evs, ∃ k, ev = .deliver k now) ∧
        netRun E peers N evs = some N' ∧
        ∀ m ∈ j :: rest, (N'.nodes m).hashToBlock.lookup (E.hash b) = some b
  | [], N, k, _, j, hN, hk, hb, _, _, hpath => by
    obtain ⟨hj, hpar, hnone⟩ := hpath j (List.mem_singleton_self j)
    obtain ⟨N', hrun, -, hlook, -⟩ := hop hE hN hk hb hj hpar hnone hnow
    exact ⟨[.deliver k now, .deliver (N.inflight.length - 1) now,
      .deliver (N.inflight.length - 1) now], N', rfl, by simp, hrun,
      fun m hm => by rw [List.mem_singleton.mp hm]; exact hlook⟩
  | j' :: _, N, k, _, j, hN, hk, hb, hc, hnd, hpath => by
    -- the first hop, to `j`, which then announces the block to `j'`
    obtain ⟨hj, hpar, hnone⟩ := hpath j (List.mem_cons_self _ _)
    obtain ⟨N₁, hrun₁, hsame, hlook, hsent⟩ := hop hE hN hk hb hj hpar hnone hnow
    obtain ⟨hj', hc'⟩ := List.chain_cons.mp hc
    obtain ⟨k', hk'⟩ := List.mem_iff_getElem?.mp (hsent j' hj')
    obtain ⟨hnj, hnd'⟩ := List.nodup_cons.mp hnd
    have hN₁ := hN.run hrun₁
    -- the rest of the path, untouched by the first hop
    obtain ⟨evs, N', hlen, hdel, hrun, hall⟩ := block_floods hE hnow hN₁ hk' hlook hc' hnd'
      fun m hm => by
        rw [hsame m fun he => hnj (he ▸ hm)]
        exact hpath m (List.mem_cons_of_mem _ hm)
    refine ⟨[.deliver k now, .deliver (N.inflight.length - 1) now,
      .deliver (N.inflight.length - 1) now] ++ evs, N', by simp [hlen]; omega,
      by simpa using hdel,
      by rw [netRun_append, hrun₁]; exact hrun, fun m hm => ?_⟩
    rcases List.mem_cons.mp hm with rfl | hm
    · exact (netRun_keeps hE (hN₁.inv hE).1 hrun m).block _ _ hlook
    · exact hall m hm

/-- The hypotheses hold on the line of three nodes 0 — 1 — 2 for the announcement of node 0's
    first block, read at clock 0: nodes 1 and 2 then both store the block. -/
theorem first_block_floods_line : ∃ (N : Network 3 Int) (b : Block Int),
    NetReachable (sampleEnv true) (fun i : Fin 3 => if i = 1 then [0, 2] else [1]) N ∧
    N.inflight[0]? = some ⟨0, 1, .newBlockHashes [(sampleEnv true).hash b]⟩ ∧
    (N.nodes 0).hashToBlock.lookup ((sampleEnv true).hash b) = some b ∧
    List.Chain (fun a c => c ∈ (fun i : Fin 3 => if i = 1 then [0, 2] else [1]) a) 1 [2] ∧
    [(1 : Fin 3), 2].Nodup ∧
    (∀ m ∈ [(1 : Fin 3), 2], (sampleEnv true).hash b ∉ (N.nodes m).hashToBlock ∧
      b.header.parent ∈ (N.nodes m).hashToBlock ∧
      (N.nodes m).orphanBuffer.lookup ((sampleEnv true).hash b) = none) ∧
    ∃ evs N', evs.length = 6 ∧ (∀ ev ∈ evs, ∃ k, ev = .deliver k 0) ∧
      netRun (sampleEnv true) (fun i : Fin 3 => if i = 1 then [0, 2] else [1]) N evs = some N' ∧
      ∀ m ∈ [(1 : Fin 3), 2], (N'.nodes m).hashToBlock.lookup ((sampleEnv true).hash b) = some b := by
  obtain ⟨N, b, h, hts, hk, hb, hc, hnd, hpath⟩ : ∃ (N : Network 3 Int) (b : Block Int),
      netRun (sampleEnv true) (fun i : Fin 3 => if i = 1 then [0, 2] else [1])
        (Network.fresh (sampleEnv true) 3) [.mine 0 [] 0 0] = some N ∧ b.header.timestamp ≤ 0 ∧
      N.inflight[0]? = some ⟨0, 1, .newBlockHashes [(sampleEnv true).hash b]⟩ ∧
      (N.nodes 0).hashToBlock.lookup ((sampleEnv true).hash b) = some b ∧
      List.Chain (fun a c => c ∈ (fun i : Fin 3 => if i = 1 then [0, 2] else [1]) a) 1 [2] ∧
      [(1 : Fin 3), 2].Nodup ∧
      (∀ m ∈ [(1 : Fin 3), 2], (sampleEnv true).hash b ∉ (N.nodes m).hashToBlock ∧
        b.header.parent ∈ (N.nodes m).hashToBlock ∧
        (N.nodes m).orphanBuffer.lookup ((sampleEnv true).hash b) = none) :=
    ⟨_, ⟨⟨(sampleEnv true).hash (sampleEnv true).genesis, 0, 0, 0, 0⟩, ⟨[default]⟩⟩, rfl, le_rfl,
      rfl, rfl, List.chain_singleton.mpr (by decide), by decide, by decide⟩
  obtain ⟨evs, N', hlen, hdel, hrun, hall⟩ :=
    block_floods (sampleEnv_idealHash true) hts ⟨_, h⟩ hk hb hc hnd hpath
  exact ⟨N, b, ⟨_, h⟩, hk, hb, hc, hnd, hpath, evs, N', hlen, hdel, hrun, hall⟩

/-! ## Orphan recovery -/

/-- **A buffered orphan is recovered** (`Header::hash` ideal).  From every reachable network
    state, when a block waits at node `j` under a parent `j` lacks, and `j`'s request for that
    parent is in flight to a node `i` that stores it, the two deliveries — the request, then
    `i`'s reply, the packet the first put last in flight — return when the parent is stamped no
    later than the clock and its own parent is stored at `j`; afterwards `j` stores the parent
    and the orphan, each under its hash, when no other block waiting with the orphan shares its
    hash (of two such blocks, one header, the first waiting is stored).  No other node
    changes. -/
theorem orphan_recovered (hE : E.IdealHash) {N : Network n H}
    (hN : NetReachable E peers N) {k now : Nat} {i j : Fin n} {b c : Block H}
    (hk : N.inflight[k]? = some ⟨j, i, .getBlocks [b.header.parent]⟩)
    (hc : (N.nodes i).hashToBlock.lookup b.header.parent = some c)
    (hwait : b ∈ ((N.nodes j).orphanBuffer.lookup b.header.parent).getD [])
    (hone : ∀ b' ∈ ((N.nodes j).orphanBuffer.lookup b.header.parent).getD [],
      E.hash b' = E.hash b → b' = b)
    (hj : b.header.parent ∉ (N.nodes j).hashToBlock)
    (hpar : c.header.parent ∈ (N.nodes j).hashToBlock) (hnow : c.header.timestamp ≤ now) :
    ∃ N', netRun E peers N [.deliver k now, .deliver (N.inflight.length - 1) now] = some N' ∧
      (∀ m, m ≠ j → N'.nodes m = N.nodes m) ∧
      (N'.nodes j).hashToBlock.lookup b.header.parent = some c ∧
      (N'.nodes j).hashToBlock.lookup (E.hash b) = some b := by
  have hr := (hN.inv hE).1
  -- the parent is stored under its own hash at `i`
  have hpc : E.hash c = b.header.parent := ((hr i).wellFormed hE).hash_eq _ _ hc
  have hk' : N.inflight[k]? = some ⟨j, i, .getBlocks [E.hash c]⟩ := by rw [hpc]; exact hk
  have hc' : (N.nodes i).hashToBlock.lookup (E.hash c) = some c := by rw [hpc]; exact hc
  have hj' : E.hash c ∉ (N.nodes j).hashToBlock := by rw [hpc]; exact hj
  obtain ⟨s, relay, missing, hs, hin, -⟩ := handleBlocks_one hE ((hr j).wellFormed hE)
    (hr j).validated hj' (powValidityCheck_of_stored hE hN hc' hj') hnow
  have hrun : netRun E peers N [.deliver k now, .deliver (N.inflight.length - 1) now] = _ :=
    netRun_request_reply hk' hc' hs
  obtain ⟨hlook, -, -, hprom⟩ := hin hpar
  -- the orphan waited under the hash just stored, so the same arm stored it, as itself
  obtain ⟨cs, hcs, hbc⟩ := exists_of_mem_getD hwait
  rw [← hpc] at hcs hone
  have hbs := hprom cs hcs b hbc fun b' hb' => hone b' (by simp [hcs, hb'])
  rw [hpc] at hlook
  exact ⟨_, hrun, fun m hm => Function.update_noteq hm _ _, by simpa using hlook,
    by simpa using hbs⟩

/-- The hypotheses hold in the two-node network where node 0 mines two blocks, the first
    announcement is lost, and node 1 fetches the second, an orphan: its request for the parent
    is then in flight, and answering it stores both blocks at node 1. -/
theorem lost_announcement_recovered : ∃ (N : Network 2 Int) (b c : Block Int),
    NetReachable (sampleEnv true) (fun i : Fin 2 => [1 - i]) N ∧
    N.inflight[0]? = some ⟨1, 0, .getBlocks [b.header.parent]⟩ ∧
    (N.nodes 0).hashToBlock.lookup b.header.parent = some c ∧
    b ∈ ((N.nodes 1).orphanBuffer.lookup b.header.parent).getD [] ∧
    (∀ b' ∈ ((N.nodes 1).orphanBuffer.lookup b.header.parent).getD [],
      (sampleEnv true).hash b' = (sampleEnv true).hash b → b' = b) ∧
    b.header.parent ∉ (N.nodes 1).hashToBlock ∧ c.header.parent ∈ (N.nodes 1).hashToBlock ∧
    c.header.timestamp ≤ 0 ∧
    ∃ N', netRun (sampleEnv true) (fun i : Fin 2 => [1 - i]) N [.deliver 0 0, .deliver 0 0] =
        some N' ∧ (N'.nodes 1).hashToBlock.lookup ((sampleEnv true).hash b) = some b := by
  obtain ⟨N, b, c, h, hlen, hk, hc, hwait, hone, hj, hpar, hts⟩ :
      ∃ (N : Network 2 Int) (b c : Block Int),
      netRun (sampleEnv true) (fun i : Fin 2 => [1 - i]) (Network.fresh (sampleEnv true) 2)
        [.mine 0 [] 0 0, .mine 0 [] 0 0, .drop 0, .deliver 0 0, .deliver 0 0, .deliver 0 0] =
        some N ∧ N.inflight.length = 1 ∧
      N.inflight[0]? = some ⟨1, 0, .getBlocks [b.header.parent]⟩ ∧
      (N.nodes 0).hashToBlock.lookup b.header.parent = some c ∧
      b ∈ ((N.nodes 1).orphanBuffer.lookup b.header.parent).getD [] ∧
      (∀ b' ∈ ((N.nodes 1).orphanBuffer.lookup b.header.parent).getD [],
        (sampleEnv true).hash b' = (sampleEnv true).hash b → b' = b) ∧
      b.header.parent ∉ (N.nodes 1).hashToBlock ∧ c.header.parent ∈ (N.nodes 1).hashToBlock ∧
      c.header.timestamp ≤ 0 :=
    ⟨_, ⟨⟨(sampleEnv true).hash
        ⟨⟨(sampleEnv true).hash (sampleEnv true).genesis, 0, 0, 0, 0⟩, ⟨[default]⟩⟩, 0, 0, 0, 0⟩,
        ⟨[default]⟩⟩, ⟨⟨(sampleEnv true).hash (sampleEnv true).genesis, 0, 0, 0, 0⟩, ⟨[default]⟩⟩,
      rfl, rfl, rfl, rfl, by decide, by decide, by decide, by decide, le_rfl⟩
  obtain ⟨N', hrun, -, -, hb⟩ := orphan_recovered (sampleEnv_idealHash true) ⟨_, h⟩ hk hc
    hwait hone hj hpar hts
  rw [hlen] at hrun
  exact ⟨N, b, c, ⟨_, h⟩, hk, hc, hwait, hone, hj, hpar, hts, N', hrun, hb⟩

end PowNode
