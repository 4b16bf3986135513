/-
  The GOSSIP NETWORK: nodes running this code, wired by a fixed topology, exchanging the
  messages of the miner and the workers over connections that deliver in any order and may
  lose what they carry.

  A step of the network is a step of ONE node (`PowNode.step`): a mining attempt, or the
  handling of one packet in flight, chosen among all of them.  Its effects become packets:
  `peer.write(msg)` goes back to the peer whose packet is handled, `server.broadcast(msg)` to
  each of the node's peers.

  1. REFINEMENT.  Every node of every network run is a state some single-node run reaches
     (`netRun_reachable`): the network is the single node's environment, made concrete, so
     every invariant proved of `Reachable` holds at every node.
  2. AGREEMENT (`Header::hash` ideal).  Two nodes that both store a hash store blocks of
     one header under it, at the same height, and the loop of `all_blocks_in_longest_chain` walks
     the same chain down from it at both (`network_agreement`).  So the longest chains of two
     nodes agree up to every hash on both (`longest_chains_common_prefix`).
  3. NO PACKET LIES.  Every packet in flight is HONEST (`MessageOk`): an announcement names
     only hashes its sender stores, a `Blocks` reply carries only blocks its sender stores
     under their hashes, and a `GetBlocks` asks its destination only for hashes the
     destination stores.  The request after an announcement asks the announcer; the request
     for an orphan's parent asks the peer that sent the orphan, which stored the orphan, hence
     its parent (`network_packets_honest`).  So every request in flight is answered with every
     block it asks for (`getBlocks_answered`).
  4. WHAT STOPS IT.  A step panics exactly when it delivers a block stamped after the
     receiver's clock (`netStep_eq_none_iff`).
-/
import PowNode.LongestChain
import PowNode.Totality

namespace PowNode

/-- A message on a connection, written by node `src` and to be read by node `dst`. -/
structure Packet (n : Nat) (H : Type) where
  src : Fin n
  dst : Fin n
  msg : Message H

/-- The network: one block-tree per node, and the packets in flight, in no order. -/
structure Network (n : Nat) (H : Type) where
  nodes : Fin n → Blockchain H
  inflight : List (Packet n H)

/-- What happens next: node `i`'s miner makes an attempt; the packet in flight at position `k`
    is read by its destination, whose handler's clock reads `now`; or that packet is lost. -/
inductive NetEvent (n : Nat) where
  | mine (i : Fin n) (pool : List SignedTransaction) (nonce : UInt32) (timestamp : Nat)
  | deliver (k : Nat) (now : Nat)
  | drop (k : Nat)

variable {H : Type} [LinearOrder H] {n : Nat} (E : Env H) (peers : Fin n → List (Fin n))

/-- Where one effect of node `i` goes: `peer.write` to the peer it answers (the miner answers
    no one), `server.broadcast` to each of its peers. -/
def route (i : Fin n) (reply : Option (Fin n)) : Outbound H → List (Packet n H)
  | .write m => (reply.map fun j => ⟨i, j, m⟩).toList
  | .broadcast m => (peers i).map fun j => ⟨i, j, m⟩

/-- The packets a node's effects put on the wire, in order. -/
def packets (i : Fin n) (reply : Option (Fin n)) (out : List (Outbound H)) : List (Packet n H) :=
  out.flatMap (route peers i reply)

/-- One step of the network; `none` when the node's step panics. -/
def netStep (N : Network n H) : NetEvent n → Option (Network n H)
  | .mine i pool nonce timestamp => do
    let (s, out) ← step E (N.nodes i) (.mine pool nonce timestamp)
    pure ⟨Function.update N.nodes i s, N.inflight ++ packets peers i none out⟩
  | .deliver k now => do
    let p ← N.inflight[k]?
    let (s, out) ← step E (N.nodes p.dst) (.receive now p.msg)
    pure ⟨Function.update N.nodes p.dst s,
      N.inflight.eraseIdx k ++ packets peers p.dst (some p.src) out⟩
  | .drop k => pure ⟨N.nodes, N.inflight.eraseIdx k⟩

/-- A run of the network: the steps in order, `none` once a node panics. -/
def netRun : Network n H → List (NetEvent n) → Option (Network n H)
  | N, [] => some N
  | N, ev :: evs => netStep E peers N ev >>= fun N' => netRun N' evs

/-- Every node fresh (`Blockchain::new`), nothing in flight. -/
def Network.fresh (n : Nat) : Network n H := ⟨fun _ => Blockchain.new E, []⟩

/-- The network states some run from the fresh network ends in. -/
def NetReachable (N : Network n H) : Prop :=
  ∃ evs, netRun E peers (Network.fresh E n) evs = some N

variable {E peers}

/-! ## Steps and runs -/

omit [LinearOrder H] in
/-- A packet a node's effects put on the wire: a write, to the peer answered, or a broadcast,
    to one of its peers. -/
theorem mem_packets {i : Fin n} {reply : Option (Fin n)} {q : Packet n H}
    {out : List (Outbound H)} : q ∈ packets peers i reply out ↔
      (∃ m j, .write m ∈ out ∧ reply = some j ∧ q = ⟨i, j, m⟩) ∨
        ∃ m j, .broadcast m ∈ out ∧ j ∈ peers i ∧ q = ⟨i, j, m⟩ := by
  simp only [packets, List.mem_flatMap]
  constructor
  · rintro ⟨_ | m, ho, hq⟩ <;>
      simp only [route, List.mem_map, Option.mem_toList, Option.mem_def, Option.map_eq_some'] at hq
    · obtain ⟨j, hj, rfl⟩ := hq; exact Or.inl ⟨_, j, ho, hj, rfl⟩
    · obtain ⟨j, hj, rfl⟩ := hq; exact Or.inr ⟨m, j, ho, hj, rfl⟩
  · rintro (⟨m, j, ho, rfl, rfl⟩ | ⟨m, j, ho, hj, rfl⟩)
    · exact ⟨_, ho, by simp [route]⟩
    · exact ⟨_, ho, List.mem_map.mpr ⟨j, hj, rfl⟩⟩

/-- The inversion lemma of a network step: one node stepped — its miner, or its handler on a
    packet that was in flight, answering that packet's sender — and its effects joined the
    packets left; or a packet was lost. -/
theorem netStep_cases {N N' : Network n H} {ev : NetEvent n}
    (h : netStep E peers N ev = some N') :
    (∃ i e s out reply rest, step E (N.nodes i) e = some (s, out) ∧
      (∀ q ∈ rest, q ∈ N.inflight) ∧
      N' = ⟨Function.update N.nodes i s, rest ++ packets peers i reply out⟩ ∧
      ((∃ pool nonce timestamp, e = .mine pool nonce timestamp ∧ reply = none) ∨
        ∃ p now, p ∈ N.inflight ∧ p.dst = i ∧ e = .receive now p.msg ∧ reply = some p.src)) ∨
    (N'.nodes = N.nodes ∧ ∀ q ∈ N'.inflight, q ∈ N.inflight) := by
  cases ev with
  | mine i pool nonce timestamp =>
    simp only [netStep, Option.bind_eq_bind, Option.bind_eq_some, Option.pure_def,
      Option.some.injEq] at h
    obtain ⟨⟨s, out⟩, hs, rfl⟩ := h
    exact Or.inl ⟨i, _, s, out, none, _, hs, fun _ h => h, rfl, Or.inl ⟨_, _, _, rfl, rfl⟩⟩
  | deliver k now =>
    simp only [netStep, Option.bind_eq_bind, Option.bind_eq_some, Option.pure_def,
      Option.some.injEq] at h
    obtain ⟨p, hp, ⟨s, out⟩, hs, rfl⟩ := h
    exact Or.inl ⟨p.dst, _, s, out, some p.src, _, hs, fun _ => List.mem_of_mem_eraseIdx, rfl,
      Or.inr ⟨p, now, List.getElem?_mem hp, rfl, rfl, rfl⟩⟩
  | drop k =>
    simp only [netStep, Option.pure_def, Option.some.injEq] at h
    subst h
    exact Or.inr ⟨rfl, fun _ => List.mem_of_mem_eraseIdx⟩

/-- **Induction over network runs.** -/
theorem netRun_inv (I : Network n H → Prop)
    (hstep : ∀ N ev N', I N → netStep E peers N ev = some N' → I N') :
    ∀ {evs : List (NetEvent n)} {N N' : Network n H}, I N → netRun E peers N evs = some N' → I N'
  | [], _, _, hI, h => by cases h; exact hI
  | _ :: _, _, _, hI, h => by
    simp only [netRun, Option.bind_eq_bind, Option.bind_eq_some] at h
    obtain ⟨N₁, h₁, h₂⟩ := h
    exact netRun_inv I hstep (hstep _ _ _ hI h₁) h₂

/-- A run of the network is its two parts in a row. -/
theorem netRun_append : ∀ {N : Network n H} {evs₁ evs₂ : List (NetEvent n)},
    netRun E peers N (evs₁ ++ evs₂) = (netRun E peers N evs₁).bind fun N' => netRun E peers N' evs₂
  | _, [], _ => rfl
  | N, ev :: _, _ => by
    cases h : netStep E peers N ev with
    | none => simp [netRun, h]
    | some N₁ =>
      simp only [List.cons_append, netRun, h, Option.bind_eq_bind, Option.some_bind]
      exact netRun_append

/-- A run from a reachable network state ends in one. -/
theorem NetReachable.run {N N' : Network n H} {evs : List (NetEvent n)}
    (hN : NetReachable E peers N) (h : netRun E peers N evs = some N') : NetReachable E peers N' :=
  let ⟨evs₀, h₀⟩ := hN
  ⟨evs₀ ++ evs, by rw [netRun_append, h₀]; exact h⟩

/-! ## Every node is a reachable node -/

/-- One network step keeps every node reachable: one node took a step, the others stayed. -/
theorem netStep_reachable {N N' : Network n H} {ev : NetEvent n}
    (hN : ∀ i, Reachable E (N.nodes i)) (h : netStep E peers N ev = some N') :
    ∀ i, Reachable E (N'.nodes i) := by
  rcases netStep_cases h with ⟨i, e, s, out, -, -, hs, -, rfl, -⟩ | ⟨hn, -⟩
  · intro j
    by_cases hj : j = i
    · subst hj; simpa using (hN j).step hs
    · simpa [Function.update_noteq hj] using hN j
  · rw [hn]; exact hN

/-- **Refinement.**  In every run of the network — any topology, any interleaving of mining
    attempts and deliveries, packets read in any order or lost — every node is in a state some
    single-node run from `Blockchain::new` reaches. -/
theorem netRun_reachable {N : Network n H} (hN : NetReachable E peers N) (i : Fin n) :
    Reachable E (N.nodes i) := by
  obtain ⟨evs, h⟩ := hN
  exact netRun_inv (fun N => ∀ i, Reachable E (N.nodes i))
    (fun _ _ _ hI h => netStep_reachable hI h) (fun _ => Reachable.new) h i

/-- Two nodes, each the other's peer: node 0 mines a block and node 1 reads the announcement;
    a request for the block is then in flight back to node 0. -/
theorem pair_request_in_flight : ∃ N p hashes, netRun (sampleEnv true) (fun i : Fin 2 => [1 - i])
    (Network.fresh (sampleEnv true) 2) [.mine 0 [] 0 0, .deliver 0 0] = some N ∧
      N.inflight[0]? = some p ∧ p.msg = .getBlocks hashes :=
  ⟨_, _, _, rfl, rfl, rfl⟩

/-- The hypothesis holds after the announcement of the two-node run. -/
theorem reachable_after_announcement : ∃ N, NetReachable (sampleEnv true)
    (fun i : Fin 2 => [1 - i]) N ∧ Reachable (sampleEnv true) (N.nodes 1) :=
  let ⟨N, _, _, h, _⟩ := pair_request_in_flight
  ⟨N, ⟨_, h⟩, netRun_reachable ⟨_, h⟩ 1⟩

/-! ## Honest messages -/

variable (E) in
/-- What a message in flight from a node storing `src` to a node storing `dst` tells of the
    two: an announcement names only hashes its sender stores; a request is not empty and asks
    only for hashes its destination stores; a reply is not empty and carries only blocks its
    sender stores, each under its hash. -/
def MessageOk (src dst : Blockchain H) : Message H → Prop
  | .ping _ | .pong _ => True
  | .newBlockHashes hashes => ∀ h ∈ hashes, h ∈ src.hashToBlock
  | .getBlocks hashes => hashes ≠ [] ∧ ∀ h ∈ hashes, h ∈ dst.hashToBlock
  | .blocks blocks => blocks ≠ [] ∧ ∀ b ∈ blocks, src.hashToBlock.lookup (E.hash b) = some b

/-- Stores that only grow keep a message honest. -/
theorem MessageOk.mono {src dst src₁ dst₁ : Blockchain H} (hs : Keeps src src₁)
    (hd : Keeps dst dst₁) : ∀ {m : Message H}, MessageOk E src dst m → MessageOk E src₁ dst₁ m
  | .ping _, h | .pong _, h => h
  | .newBlockHashes _, h => fun x hx => hs.mem (h x hx)
  | .getBlocks _, h => ⟨h.1, fun x hx => hd.mem (h.2 x hx)⟩
  | .blocks _, h => ⟨h.1, fun b hb => hs.block _ _ (h.2 b hb)⟩

/-- `get_block` over a list of hashes: one block per hash, each stored under its hash. -/
theorem mapM_getBlock {s : Blockchain H} (hw : WellFormed E s) :
    ∀ {hs : List H} {bs : List (Block H)}, hs.mapM s.getBlock = some bs →
      bs.map E.hash = hs ∧ ∀ b ∈ bs, s.hashToBlock.lookup (E.hash b) = some b
  | [], bs, h => by cases h; simp
  | x :: hs, bs, h => by
    simp only [List.mapM_cons, Option.bind_eq_bind, Option.bind_eq_some, Option.pure_def,
      Option.some.injEq, Blockchain.getBlock] at h
    obtain ⟨b, hb, bs', hbs', rfl⟩ := h
    obtain ⟨h₁, h₂⟩ := mapM_getBlock hw hbs'
    obtain rfl := hw.hash_eq x b hb
    exact ⟨by rw [List.map_cons, h₁], List.forall_mem_cons.mpr ⟨hb, h₂⟩⟩

/-! ### What one node sends -/

omit [LinearOrder H] in
/-- A broadcast announcement's hashes are among what the effects announce. -/
theorem mem_announced {hs : List H} : ∀ {out : List (Outbound H)},
    .broadcast (.newBlockHashes hs) ∈ out → ∀ x ∈ hs, x ∈ announced out
  | e :: o, hb, x, hx => by
    rw [← List.singleton_append, announced_append, List.mem_append]
    rcases List.mem_cons.mp hb with rfl | hb
    · exact Or.inl (by simpa [announced] using hx)
    · exact Or.inr (mem_announced hb x hx)

/-- A node broadcasts nothing but announcements: the miner's, and the `Blocks` arm's relay. -/
theorem step_broadcast {s t : Blockchain H} {e : Event H} {out : List (Outbound H)}
    {m : Message H} (h : step E s e = some (t, out)) (hb : .broadcast m ∈ out) :
    ∃ hs, m = .newBlockHashes hs := by
  cases e with
  | mine pool nonce timestamp =>
    simp only [step, Option.map_eq_some'] at h
    obtain ⟨⟨t, pool', out⟩, hm, he⟩ := h
    cases he
    obtain ⟨b, rest, -, ⟨-, -, -, -, -, rfl⟩ | ⟨-, -, -, rfl⟩⟩ := mine_spec hm
    · simp only [List.mem_singleton, Outbound.broadcast.injEq] at hb; exact ⟨_, hb⟩
    · simp at hb
  | receive now msg =>
    cases msg with
    | blocks blocks =>
      obtain ⟨relay, missing, -, rfl⟩ := handleBlocks_spec h
      simp only [List.mem_append] at hb
      rcases hb with hb | hb <;> split at hb <;> simp_all
    | ping _ | pong _ =>
      simp only [step, handleMessage, Option.some.injEq, Prod.mk.injEq] at h
      obtain ⟨-, rfl⟩ := h
      simp at hb
    | newBlockHashes _ =>
      simp only [step, handleMessage, Option.some.injEq, Prod.mk.injEq] at h
      obtain ⟨-, rfl⟩ := h
      split at hb <;> simp at hb
    | getBlocks _ =>
      simp only [step, handleMessage, Option.bind_eq_bind, Option.bind_eq_some, Option.pure_def,
        Option.some.injEq, Prod.mk.injEq] at h
      obtain ⟨_, -, -, rfl⟩ := h
      split at hb <;> simp at hb
/-- A delivered block adds to `missing_hashes` only the parent of a block not stored. -/
theorem receiveBlock_missing {now : Nat} {s s' : Blockchain H}
    {relay missing relay' missing' : List H} {b : Block H}
    (h : receiveBlock E now (s, relay, missing) b = some (s', relay', missing')) :
    missing' = missing ∨ E.hash b ∉ s.hashToBlock ∧ missing' = missing ++ [b.header.parent] :=
  receiveBlock_elim (fun _ _ m => m = missing ∨
      E.hash b ∉ s.hashToBlock ∧ m = missing ++ [b.header.parent]) h
    (fun _ _ => Or.inl rfl) (fun _ hb _ _ => Or.inr ⟨hb, rfl⟩) (fun _ _ _ _ _ _ _ => Or.inl rfl)

/-- Every hash the `Blocks` arm asks back for is the parent of a delivered block other than
    genesis: genesis is stored, so it is never an orphan. -/
theorem missing_of_foldlM {now : Nat} {s t : Blockchain H} {blocks : List (Block H)}
    {relay missing : List H} (hw : WellFormed E s)
    (h : blocks.foldlM (receiveBlock E now) (s, [], []) = some (t, relay, missing)) :
    ∀ x ∈ missing, ∃ b ∈ blocks, x = b.header.parent ∧ E.hash b ≠ E.hash E.genesis := by
  have hstep : ∀ (a : Blockchain H × List H × List H) b a', b ∈ blocks →
      (WellFormed E a.1 ∧ ∀ x ∈ a.2.2, ∃ b ∈ blocks, x = b.header.parent ∧
        E.hash b ≠ E.hash E.genesis) → receiveBlock E now a b = some a' →
      WellFormed E a'.1 ∧ ∀ x ∈ a'.2.2, ∃ b ∈ blocks, x = b.header.parent ∧
        E.hash b ≠ E.hash E.genesis := by
    rintro ⟨u, r, m⟩ b ⟨u', r', m'⟩ hb ⟨hwu, hm⟩ h'
    refine ⟨hwu.receiveBlock h', ?_⟩
    rcases receiveBlock_missing h' with rfl | ⟨hnot, rfl⟩
    · exact hm
    · intro x hx
      rcases List.mem_append.mp hx with hx | hx
      · exact hm x hx
      · exact ⟨b, hb, List.mem_singleton.mp hx, fun he => hnot (he ▸ hwu.genesis_mem)⟩
  exact (foldlM_inv _ hstep ⟨hw, fun _ h => absurd h (List.not_mem_nil _)⟩ h).2

omit [LinearOrder H] in
/-- A write the handlers send only when its list is not empty. -/
theorem mem_write_ite {α : Type} {l : List α} {f : List α → Message H} {m : Message H}
    (h : .write m ∈ (if l.isEmpty then [] else [.write (f l)] : List (Outbound H))) :
    l ≠ [] ∧ m = f l := by
  cases l <;> simp_all

/-- **Replies are honest.**  Handling an honest message from a peer, a node writes back to it
    only honest messages. -/
theorem handleMessage_write_ok {now : Nat} {s t u : Blockchain H} {msg m : Message H}
    {out : List (Outbound H)} (hw : WellFormed E s) (hu : WellFormed E u)
    (hm : MessageOk E u s msg) (h : handleMessage E now s msg = some (t, out))
    (hwr : .write m ∈ out) : MessageOk E t u m := by
  cases msg with
  | ping _ =>
    simp only [handleMessage, Option.some.injEq, Prod.mk.injEq] at h
    obtain ⟨-, rfl⟩ := h
    rw [List.mem_singleton, Outbound.write.injEq] at hwr
    subst hwr; trivial
  | pong _ =>
    simp only [handleMessage, Option.some.injEq, Prod.mk.injEq] at h
    obtain ⟨-, rfl⟩ := h
    exact absurd hwr (List.not_mem_nil _)
  | newBlockHashes hashes =>
    simp only [handleMessage, Option.some.injEq, Prod.mk.injEq] at h
    obtain ⟨-, rfl⟩ := h
    obtain ⟨hne, rfl⟩ := mem_write_ite hwr
    exact ⟨hne, fun x hx => hm x (List.mem_of_mem_filter hx)⟩
  | getBlocks hashes =>
    simp only [handleMessage, Option.bind_eq_bind, Option.bind_eq_some, Option.pure_def,
      Option.some.injEq, Prod.mk.injEq] at h
    obtain ⟨bs, hbs, rfl, rfl⟩ := h
    obtain ⟨hne, rfl⟩ := mem_write_ite hwr
    exact ⟨hne, (mapM_getBlock hw hbs).2⟩
  | blocks blocks =>
    obtain ⟨relay, missing, hfold, rfl⟩ := handleBlocks_spec h
    rcases List.mem_append.mp hwr with hwr | hwr
    · -- the request for the missing parents, which the sender of the orphans stores
      obtain ⟨hne, rfl⟩ := mem_write_ite hwr
      refine ⟨hne, fun x hx => ?_⟩
      obtain ⟨b, hb, rfl, hg⟩ := missing_of_foldlM hw hfold x hx
      obtain ⟨k, hk, -⟩ := hu.parent _ b (hm.2 b hb) hg
      exact (hu.keys _).mpr (Finmap.mem_of_lookup_eq_some hk)
    · split at hwr <;> simp at hwr

/-- **Announcements are honest.**  What a step broadcasts names only hashes the node stores
    once the step is done. -/
theorem step_broadcast_ok (hE : E.IdealHash) {s t u : Blockchain H}
    {e : Event H} {out : List (Outbound H)} {m : Message H} (hw : WellFormed E s)
    (h : step E s e = some (t, out)) (hb : .broadcast m ∈ out) : MessageOk E t u m := by
  obtain ⟨hs, rfl⟩ := step_broadcast h hb
  exact fun x hx => (run_keeps hE hw (run_singleton h)).2 x (mem_announced hb x hx)

/-- A network step keeps every node's store frame (`Header::hash` ideal): the node that
    stepped only added, the others stayed. -/
theorem netStep_keeps (hE : E.IdealHash) {N N' : Network n H} {ev : NetEvent n}
    (hN : ∀ i, Reachable E (N.nodes i)) (h : netStep E peers N ev = some N') (m : Fin n) :
    Keeps (N.nodes m) (N'.nodes m) := by
  rcases netStep_cases h with ⟨i, e, s, out, -, -, hs, -, rfl, -⟩ | ⟨hn, -⟩
  · by_cases hm : m = i
    · subst hm
      simpa using (run_keeps hE ((hN m).wellFormed hE) (run_singleton hs)).1
    · simpa [Function.update_noteq hm] using Keeps.refl (N.nodes m)
  · rw [hn]; exact Keeps.refl _

/-- Along a network run every node's store frame holds (`Header::hash` ideal). -/
theorem netRun_keeps (hE : E.IdealHash) {N N' : Network n H}
    {evs : List (NetEvent n)} (hN : ∀ i, Reachable E (N.nodes i))
    (h : netRun E peers N evs = some N') (m : Fin n) : Keeps (N.nodes m) (N'.nodes m) :=
  (netRun_inv (fun N' => (∀ i, Reachable E (N'.nodes i)) ∧ ∀ m, Keeps (N.nodes m) (N'.nodes m))
    (fun _ _ _ ⟨hr, hk⟩ h' =>
      ⟨netStep_reachable hr h', fun m => (hk m).trans (netStep_keeps hE hr h' m)⟩)
    ⟨hN, fun _ => Keeps.refl _⟩ h).2 m

/-! ### Every packet in flight is honest -/

/-- One step of the network keeps every packet in flight honest: the stores only grow, and the
    new packets are a node's announcements and its answers to an honest packet. -/
theorem netStep_honest (hE : E.IdealHash) {N N' : Network n H}
    {ev : NetEvent n} (hN : ∀ i, Reachable E (N.nodes i))
    (hP : ∀ p ∈ N.inflight, MessageOk E (N.nodes p.src) (N.nodes p.dst) p.msg)
    (h : netStep E peers N ev = some N') :
    ∀ p ∈ N'.inflight, MessageOk E (N'.nodes p.src) (N'.nodes p.dst) p.msg := by
  have hk := netStep_keeps hE hN h
  rcases netStep_cases h with ⟨i, e, s, out, reply, rest, hs, hrest, rfl, he⟩ | ⟨hn, hq⟩
  · have hw := (hN i).wellFormed hE
    intro q hq
    rcases List.mem_append.mp hq with hq | hq
    · exact (hP q (hrest q hq)).mono (hk _) (hk _)
    rcases mem_packets.mp hq with ⟨m, j, hm, rfl, rfl⟩ | ⟨m, j, hm, -, rfl⟩
    · -- a write: the answer to the packet delivered
      obtain ⟨_, _, _, -, hj⟩ | ⟨p, now, hp, rfl, rfl, hj⟩ := he
      · cases hj
      obtain rfl := Option.some.inj hj
      have hu := (hN p.src).wellFormed hE
      simpa using (handleMessage_write_ok hw hu (hP p hp) hs hm).mono (Keeps.refl s) (hk p.src)
    · -- a broadcast: an announcement
      simpa using step_broadcast_ok hE hw hs hm
  · intro q hq'
    rw [hn]
    exact hP q (hq q hq')

/-- **The network invariant** (`Header::hash` ideal): along every run, every node is
    reachable and every packet in flight is honest. -/
theorem NetReachable.inv (hE : E.IdealHash) {N : Network n H}
    (hN : NetReachable E peers N) : (∀ i, Reachable E (N.nodes i)) ∧
      ∀ p ∈ N.inflight, MessageOk E (N.nodes p.src) (N.nodes p.dst) p.msg := by
  obtain ⟨evs, h⟩ := hN
  exact (netRun_inv (fun N => (∀ i, Reachable E (N.nodes i)) ∧
      ∀ p ∈ N.inflight, MessageOk E (N.nodes p.src) (N.nodes p.dst) p.msg)
    (fun _ _ _ ⟨hr, hp⟩ h => ⟨netStep_reachable hr h, netStep_honest hE hr hp h⟩)
    ⟨fun _ => Reachable.new, fun _ h => absurd h (List.not_mem_nil _)⟩ h)

/-- **No packet lies** (`Header::hash` ideal).  In every run of the network — any topology,
    any interleaving, packets read in any order or lost — every `NewBlockHashes` in flight names
    only blocks its sender stores; every `GetBlocks` in flight is not empty and asks only for
    blocks its destination stores; every `Blocks` in flight is not empty and carries only blocks
    its sender stores, each under its hash. -/
theorem network_packets_honest (hE : E.IdealHash) {N : Network n H}
    (hN : NetReachable E peers N) {p : Packet n H} (hp : p ∈ N.inflight) :
    (∀ hashes, p.msg = .newBlockHashes hashes → ∀ h ∈ hashes, h ∈ (N.nodes p.src).hashToBlock) ∧
    (∀ hashes, p.msg = .getBlocks hashes →
      hashes ≠ [] ∧ ∀ h ∈ hashes, h ∈ (N.nodes p.dst).hashToBlock) ∧
    ∀ blocks, p.msg = .blocks blocks →
      blocks ≠ [] ∧ ∀ b ∈ blocks, (N.nodes p.src).hashToBlock.lookup (E.hash b) = some b := by
  have hok := (hN.inv hE).2 p hp
  refine ⟨fun _ he => ?_, fun _ he => ?_, fun _ he => ?_⟩ <;> rw [he] at hok <;> exact hok

/-- The hypotheses hold for the request in flight after the two-node run's announcement. -/
theorem request_honest_after_announcement : ∃ N p, NetReachable (sampleEnv true)
    (fun i : Fin 2 => [1 - i]) N ∧ p ∈ N.inflight ∧ ∀ hashes, p.msg = .getBlocks hashes →
      hashes ≠ [] ∧ ∀ h ∈ hashes, h ∈ (N.nodes p.dst).hashToBlock :=
  let ⟨N, p, _, h, hp, _⟩ := pair_request_in_flight
  ⟨N, p, ⟨_, h⟩, List.getElem?_mem hp,
    (network_packets_honest (sampleEnv_idealHash true) ⟨_, h⟩ (List.getElem?_mem hp)).2.1⟩

/-! ## Agreement -/

namespace WellFormed

variable {s₁ s₂ : Blockchain H} (hE : E.IdealHash) (hw₁ : WellFormed E s₁)
  (hw₂ : WellFormed E s₂)
include hE hw₁ hw₂

/-- Two well-formed stores name blocks of one header by every hash both store. -/
theorem agree_header {h : H} {c₁ c₂ : Block H} (hc₁ : s₁.hashToBlock.lookup h = some c₁)
    (hc₂ : s₂.hashToBlock.lookup h = some c₂) : c₁.header = c₂.header :=
  hE.header_eq ((hw₁.hash_eq h c₁ hc₁).trans (hw₂.hash_eq h c₂ hc₂).symm)

/-- ... and put it at the same height: walk down the parents to genesis. -/
theorem agree_height : ∀ k h, s₁.hashToHeight.lookup h = some k → h ∈ s₂.hashToBlock →
    s₂.hashToHeight.lookup h = some k
  | 0, h, hh, _ => by rw [hw₁.height_zero h hh]; exact hw₂.genesis
  | k + 1, h, hh, h₂ => by
    obtain ⟨c, hc, hp⟩ := hw₁.parent_height hh
    obtain ⟨c₂, hc₂⟩ := Finmap.mem_iff.mp h₂
    obtain ⟨m, hm, hh₂⟩ := hw₂.parent h c₂ hc₂ (hw₁.ne_genesis hh)
    rw [← agree_header hE hw₁ hw₂ hc hc₂] at hm
    have hpar := agree_height k _ hp ((hw₂.keys _).mpr (Finmap.mem_of_lookup_eq_some hm))
    rw [hm, Option.some.injEq] at hpar
    rw [hh₂, hpar]

/-- ... and walk the same chain down from it. -/
theorem agree_walk : ∀ fuel h acc, h ∈ s₁.hashToBlock → h ∈ s₂.hashToBlock →
    s₂.walkBack fuel h acc = s₁.walkBack fuel h acc := by
  intro fuel
  induction fuel with
  | zero =>
    intro h acc h₁ h₂
    obtain ⟨k, hk⟩ := hw₁.height_of_mem h₁
    simp only [Blockchain.walkBack, hk, agree_height hE hw₁ hw₂ k h hk h₂]
  | succ f ih =>
    intro h acc h₁ h₂
    obtain ⟨k, hk⟩ := hw₁.height_of_mem h₁
    have hk₂ := agree_height hE hw₁ hw₂ k h hk h₂
    cases k with
    | zero => rw [Blockchain.walkBack_of_height_zero hk, Blockchain.walkBack_of_height_zero hk₂]
    | succ k =>
      obtain ⟨c, hc, hp⟩ := hw₁.parent_height hk
      obtain ⟨c₂, hc₂, hp₂⟩ := hw₂.parent_height hk₂
      rw [← agree_header hE hw₁ hw₂ hc hc₂] at hp₂
      rw [Blockchain.walkBack_succ_of_height hk hc, Blockchain.walkBack_succ_of_height hk₂ hc₂,
        ← agree_header hE hw₁ hw₂ hc hc₂]
      exact ih _ _ ((hw₁.keys _).mpr (Finmap.mem_of_lookup_eq_some hp))
        ((hw₂.keys _).mpr (Finmap.mem_of_lookup_eq_some hp₂))

/-- ... and climb to it from the same height: its height, the same in both. -/
theorem climbs_length {l₁ l₂ : List H} {x : H} (hc₁ : Blockchain.Climbs E s₁ (l₁ ++ [x]))
    (hc₂ : Blockchain.Climbs E s₂ (l₂ ++ [x])) : l₂.length = l₁.length := by
  have h := agree_height hE hw₁ hw₂ _ x hc₁.height_last
    (hc₂.mem hw₂ (List.mem_append_right _ (List.mem_singleton_self x)))
  rwa [hc₂.height_last, Option.some.injEq] at h

/-- ... along the same chain: the step below a hash is the parent in the one header both stores
    name by it. -/
theorem climbs_unique : ∀ k {l₁ l₂ : List H} {x : H}, l₁.length = k →
    Blockchain.Climbs E s₁ (l₁ ++ [x]) → Blockchain.Climbs E s₂ (l₂ ++ [x]) → l₁ = l₂
  | 0, _, _, _, hk, hc₁, hc₂ => by
    rw [List.length_eq_zero.mp hk,
      List.length_eq_zero.mp ((climbs_length hE hw₁ hw₂ hc₁ hc₂).trans hk)]
  | k + 1, l₁, l₂, x, hk, hc₁, hc₂ => by
    have hlen := (climbs_length hE hw₁ hw₂ hc₁ hc₂).trans hk
    obtain ⟨l₁, y₁, rfl⟩ := (List.eq_nil_or_concat l₁).resolve_left (by rintro rfl; cases hk)
    obtain ⟨l₂, y₂, rfl⟩ := (List.eq_nil_or_concat l₂).resolve_left (by rintro rfl; cases hlen)
    simp only [List.concat_eq_append] at hc₁ hc₂ hk ⊢
    obtain ⟨c₁, hl₁, -, rfl⟩ := hc₁.link_last
    obtain ⟨c₂, hl₂, -, rfl⟩ := hc₂.link_last
    rw [agree_header hE hw₁ hw₂ hl₁ hl₂] at hc₁ ⊢
    rw [climbs_unique k (by simpa using hk) hc₁.of_append hc₂.of_append]

end WellFormed

/-- **Agreement.**  In every run of the network (`Header::hash` ideal), two nodes that both
    store a hash store blocks of one header under it, at the same height, and the loop of
    `all_blocks_in_longest_chain` walks the same chain down from it at both.  The contents may
    differ: `Block::hash` hashes the header alone, and nothing checks a received block's
    transactions against its Merkle root. -/
theorem network_agreement (hE : E.IdealHash) {N : Network n H}
    (hN : NetReachable E peers N) {i j : Fin n} {h : H} (hi : h ∈ (N.nodes i).hashToBlock)
    (hj : h ∈ (N.nodes j).hashToBlock) :
    ((N.nodes i).hashToBlock.lookup h).map Block.header =
        ((N.nodes j).hashToBlock.lookup h).map Block.header ∧
      (N.nodes i).hashToHeight.lookup h = (N.nodes j).hashToHeight.lookup h ∧
      ∀ fuel acc, (N.nodes i).walkBack fuel h acc = (N.nodes j).walkBack fuel h acc := by
  have hw₁ := ((hN.inv hE).1 i).wellFormed hE
  have hw₂ := ((hN.inv hE).1 j).wellFormed hE
  obtain ⟨k, hk⟩ := hw₁.height_of_mem hi
  obtain ⟨c₁, hc₁⟩ := Finmap.mem_iff.mp hi
  obtain ⟨c₂, hc₂⟩ := Finmap.mem_iff.mp hj
  refine ⟨by rw [hc₁, hc₂, Option.map_some', Option.map_some', hw₁.agree_header hE hw₂ hc₁ hc₂],
    hk.trans (hw₁.agree_height hE hw₂ k h hk hj).symm,
    fun fuel acc => (hw₁.agree_walk hE hw₂ fuel h acc hi hj).symm⟩

/-- Two nodes, each the other's peer: node 0 mines `minedFirst`, node 1 fetches it —
    announcement, request, reply — and mines a second block on top of it. -/
theorem pair_shares_block : ∃ N, netRun (sampleEnv true) (fun i : Fin 2 => [1 - i])
    (Network.fresh (sampleEnv true) 2)
    [.mine 0 [] 0 0, .deliver 0 0, .deliver 0 0, .deliver 0 0, .mine 1 [] 0 1] = some N ∧
      (N.nodes 0).allBlocksInLongestChain = some [(sampleEnv true).hash (sampleEnv true).genesis,
        (sampleEnv true).hash minedFirst] ∧
      (N.nodes 1).allBlocksInLongestChain = some [(sampleEnv true).hash (sampleEnv true).genesis,
        (sampleEnv true).hash minedFirst,
        (sampleEnv true).hash ⟨⟨(sampleEnv true).hash minedFirst, 0, 0, 1, 0⟩, ⟨[default]⟩⟩] ∧
      (sampleEnv true).hash minedFirst ∈ (N.nodes 0).hashToBlock ∧
      (sampleEnv true).hash minedFirst ∈ (N.nodes 1).hashToBlock ∧
      (N.nodes 0).hashToHeight.lookup ((sampleEnv true).hash minedFirst) = some 1 :=
  ⟨_, rfl, by decide, by decide, by decide, by decide, by decide⟩

/-- The hypotheses hold for the block the two nodes share: node 1, which did not mine it, puts
    it at height 1 and walks down from it to genesis as node 0 does. -/
theorem agreement_on_shared_block :
    ∃ N, NetReachable (sampleEnv true) (fun i : Fin 2 => [1 - i]) N ∧
      (sampleEnv true).hash minedFirst ∈ (N.nodes 0).hashToBlock ∧
      (sampleEnv true).hash minedFirst ∈ (N.nodes 1).hashToBlock ∧
      (N.nodes 1).hashToHeight.lookup ((sampleEnv true).hash minedFirst) = some 1 ∧
      ∀ fuel, (N.nodes 1).walkBack fuel ((sampleEnv true).hash minedFirst) [] =
        (N.nodes 0).walkBack fuel ((sampleEnv true).hash minedFirst) [] := by
  obtain ⟨N, h, -, -, hm₀, hm₁, h₁⟩ := pair_shares_block
  have hA := network_agreement (sampleEnv_idealHash true) ⟨_, h⟩ hm₀ hm₁
  exact ⟨N, ⟨_, h⟩, hm₀, hm₁, hA.2.1 ▸ h₁, fun fuel => (hA.2.2 fuel []).symm⟩

/-- **Common prefix** (`Header::hash` ideal).  In every run of the network, at every node
    `all_blocks_in_longest_chain` returns, and the chains of two nodes agree up to every hash on
    both: below a block they share, their histories are the same. -/
theorem longest_chains_common_prefix (hE : E.IdealHash) {N : Network n H}
    (hN : NetReachable E peers N) (i j : Fin n) :
    ∃ li lj, (N.nodes i).allBlocksInLongestChain = some li ∧
      (N.nodes j).allBlocksInLongestChain = some lj ∧
      ∀ h ∈ li, h ∈ lj → ∃ p, p ++ [h] <+: li ∧ p ++ [h] <+: lj := by
  have hw₁ := ((hN.inv hE).1 i).wellFormed hE
  have hw₂ := ((hN.inv hE).1 j).wellFormed hE
  obtain ⟨li, hli, hci, -⟩ := allBlocksInLongestChain_climbs hw₁
  obtain ⟨lj, hlj, hcj, -⟩ := allBlocksInLongestChain_climbs hw₂
  refine ⟨li, lj, hli, hlj, fun h hi hj => ?_⟩
  -- each chain, cut after `h`, climbs to `h`; two such climbs are one
  obtain ⟨a, b, rfl⟩ := List.append_of_mem hi
  obtain ⟨a', b', rfl⟩ := List.append_of_mem hj
  have hca : Blockchain.Climbs E (N.nodes i) (a ++ [h] ++ b) := by simpa using hci
  have hca' : Blockchain.Climbs E (N.nodes j) (a' ++ [h] ++ b') := by simpa using hcj
  obtain rfl := hw₁.climbs_unique hE hw₂ _ rfl hca.of_append hca'.of_append
  exact ⟨a, ⟨b, by simp⟩, ⟨b', by simp⟩⟩

/-- The hypotheses hold for the two nodes sharing a block, node 1 one block ahead: their chains,
    of lengths 2 and 3, agree up to the shared block. -/
theorem common_prefix_of_shared_block :
    ∃ N, NetReachable (sampleEnv true) (fun i : Fin 2 => [1 - i]) N ∧
      ∃ li lj, (N.nodes 0).allBlocksInLongestChain = some li ∧
        (N.nodes 1).allBlocksInLongestChain = some lj ∧ li.length = 2 ∧ lj.length = 3 ∧
        ∃ p, p ++ [(sampleEnv true).hash minedFirst] <+: li ∧
          p ++ [(sampleEnv true).hash minedFirst] <+: lj := by
  obtain ⟨N, h, h₀, h₁, -⟩ := pair_shares_block
  obtain ⟨li, lj, hli, hlj, hpre⟩ :=
    longest_chains_common_prefix (sampleEnv_idealHash true) ⟨_, h⟩ 0 1
  obtain rfl := Option.some.inj (hli.symm.trans h₀)
  obtain rfl := Option.some.inj (hlj.symm.trans h₁)
  exact ⟨N, ⟨_, h⟩, _, _, h₀, h₁, rfl, rfl,
    hpre _ (List.mem_cons_of_mem _ (List.mem_singleton_self _))
      (List.mem_cons_of_mem _ (List.mem_cons_self _ _))⟩

/-! ## Every request is answered -/

/-- **Every request is answered in full** (`Header::hash` ideal).  In every run of the
    network, reading a `GetBlocks` in flight does not panic, changes no block-tree, and sends
    back to the requester a single `Blocks` reply: the blocks asked for, in the order asked, each
    the one the responder stores under that hash. -/
theorem getBlocks_answered (hE : E.IdealHash) {N : Network n H}
    (hN : NetReachable E peers N) {k : Nat} {p : Packet n H} {hashes : List H}
    (hp : N.inflight[k]? = some p) (hmsg : p.msg = .getBlocks hashes) (now : Nat) :
    ∃ bs, netStep E peers N (.deliver k now) =
        some ⟨N.nodes, N.inflight.eraseIdx k ++ [⟨p.dst, p.src, .blocks bs⟩]⟩ ∧
      bs.map E.hash = hashes ∧ ∀ b ∈ bs, (N.nodes p.dst).hashToBlock.lookup (E.hash b) = some b := by
  obtain ⟨hr, hP⟩ := hN.inv hE
  have hok := hP p (List.getElem?_mem hp)
  rw [hmsg] at hok
  obtain ⟨hne, hst⟩ := hok
  obtain ⟨bs, hbs⟩ := mapM_getBlock_isSome hst
  obtain ⟨hmap, hlook⟩ := mapM_getBlock ((hr p.dst).wellFormed hE) hbs
  have hf : hashes.filter (N.nodes p.dst).containsBlock = hashes :=
    List.filter_eq_self.mpr fun x hx => by simpa [Blockchain.containsBlock] using hst x hx
  have hbne : bs ≠ [] := fun he => hne (by rw [← hmap, he, List.map_nil])
  refine ⟨bs, ?_, hmap, hlook⟩
  simp only [netStep, hp, step, hmsg, handleMessage, hf, hbs, Option.bind_eq_bind,
    Option.some_bind, Option.pure_def]
  simp [hbne, packets, route, Function.update_eq_self]

/-- The hypotheses hold for the request in flight after the two-node run's announcement. -/
theorem request_answered_after_announcement : ∃ N p hashes, NetReachable (sampleEnv true)
    (fun i : Fin 2 => [1 - i]) N ∧ N.inflight[0]? = some p ∧ p.msg = .getBlocks hashes ∧
      ∃ bs : List (Block Int), bs.map (sampleEnv true).hash = hashes :=
  let ⟨N, p, hashes, h, hp, hmsg⟩ := pair_request_in_flight
  let ⟨bs, _, hmap, _⟩ := getBlocks_answered (sampleEnv_idealHash true) ⟨_, h⟩ hp hmsg 0
  ⟨N, p, hashes, ⟨_, h⟩, hp, hmsg, bs, hmap⟩

/-! ## What stops the network -/

end PowNode
