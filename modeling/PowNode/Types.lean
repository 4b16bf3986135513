/-
  The DATA MODEL of the proof-of-work node: blocks, transactions, messages, and the external
  collaborators the core consumes (spec §3 and §6).

  Only `transaction.rs` of the data-model files is among the sources; `block.rs`, `address.rs`,
  `crypto/hash.rs`, `crypto/merkle.rs`, `mempool.rs` and `network/message.rs` are not.  What
  the core reads of them is modelled from the spec, under that heading in each docstring:

  * `H256` is a type parameter `H` with a total order (`[LinearOrder H]`): the core only
    compares hashes for equality, keys maps by them and tests `hash ≤ difficulty`.
  * `Block::hash` is `Header::hash` of the block's header (spec §3: "`block.hash()` :=
    `header.hash()`").  `Header::hash`, the Merkle root, the all-zero hash and the genesis
    difficulty are fields of `Env`, as are the mempool's `pop` and `insert` (the spec's
    collaborator contract, §6).
  * What the node trusts SHA-256 for is `Env.IdealHash`: no two headers share a hash, and no
    header hashes to the all-zero `H256` that genesis names as its parent.  The contents are
    not hashed, so two blocks of one header are one hash: a result that needs the block itself
    fixed by its hash says so in a hypothesis of its own.  `H` is kept abstract because no
    function from headers — their timestamps are unbounded — into a finite type is injective.
  * Timestamps are `u128` milliseconds, kept as `Nat`: the only arithmetic on them is the one
    subtraction of the `Blocks` handler, whose underflow is modelled there.
-/
import Mathlib.Data.Finmap
import Mathlib.Order.Basic
import Mathlib.Logic.Equiv.List

namespace PowNode

/-! ## Transactions (`transaction.rs`) -/

/-- Modelled from the spec: `H160` (address.rs is not among the sources), a 20-byte
    identifier. -/
abbrev H160 := BitVec 160

/-- `RawTransaction`: an account-based transfer.  `Default` is the all-zero transaction. -/
structure RawTransaction where
  fromAddr : H160
  toAddr : H160
  value : UInt64
  nonce : UInt32
deriving DecidableEq, Inhabited

/-- `SignedTransaction`: the raw part, the signer's public key and the signature bytes.
    `Default::default()` — the miner's filler transaction — is `default` here. -/
structure SignedTransaction where
  raw : RawTransaction
  pubKey : List UInt8
  signature : List UInt8
deriving DecidableEq, Inhabited

/-! ## Blocks -/

/-- Modelled from the spec: `Header` (block.rs is not among the sources), §3 "Block header". -/
structure Header (H : Type) where
  parent : H
  nonce : UInt32
  difficulty : H
  timestamp : Nat
  merkleRoot : H
deriving DecidableEq

/-- Modelled from the spec: `Content`, the ordered transactions of a block. -/
structure Content where
  transactions : List SignedTransaction
deriving DecidableEq

/-- Modelled from the spec: `Block`, header plus content. -/
structure Block (H : Type) where
  header : Header H
  content : Content
deriving DecidableEq

/-! ## Messages and their effects -/

/-- Modelled from the spec: `Message` (network/message.rs is not among the sources), the table
    of §4.3. -/
inductive Message (H : Type) where
  | ping (nonce : Nat)
  | pong (nonce : String)
  | newBlockHashes (hashes : List H)
  | getBlocks (hashes : List H)
  | blocks (blocks : List (Block H))
deriving DecidableEq

/-- What a handler sends: `peer.write(msg)` to the sending peer, or `server.broadcast(msg)` to
    every peer.  Both only enqueue (§5), so a handler's effects are this list, in order. -/
inductive Outbound (H : Type) where
  | write (msg : Message H)
  | broadcast (msg : Message H)
deriving DecidableEq

/-- The hashes a list of effects announces: the payloads of its broadcast `NewBlockHashes`. -/
def announced {H : Type} : List (Outbound H) → List H
  | [] => []
  | .broadcast (.newBlockHashes hs) :: out => hs ++ announced out
  | _ :: out => announced out

@[simp] theorem announced_nil {H : Type} : announced ([] : List (Outbound H)) = [] := rfl

@[simp] theorem announced_append {H : Type} (o₁ o₂ : List (Outbound H)) :
    announced (o₁ ++ o₂) = announced o₁ ++ announced o₂ := by
  induction o₁ with
  | nil => rfl
  | cons e o ih =>
    match e with
    | .broadcast (.newBlockHashes hs) => simp [announced, ih]
    | .broadcast (.ping _) | .broadcast (.pong _) | .broadcast (.getBlocks _)
    | .broadcast (.blocks _) | .write _ => simp [announced, ih]

/-- `BlockOrigin`: mined here, or received with the observed delay (purely observational). -/
inductive BlockOrigin where
  | mined
  | received (delayMs : Nat)
deriving DecidableEq

/-! ## The external collaborators -/

/-- What the core consumes from the modules that are not among the sources (spec §6).  The
    mempool's content is a `List`; its contract ("pop removes and returns an arbitrary pending
    transaction, or nothing; insert adds one") is a hypothesis of the results that need it. -/
structure Env (H : Type) where
  /-- `Header::hash`. -/
  headerHash : Header H → H
  /-- `MerkleTree::new(&transactions).root()`. -/
  merkleRoot : List SignedTransaction → H
  /-- The all-zero `H256`. -/
  zero : H
  /-- The difficulty constant of `Block::genesis`. -/
  genesisDifficulty : H
  /-- `Mempool::pop`. -/
  pop : List SignedTransaction → Option (SignedTransaction × List SignedTransaction)
  /-- `Mempool::insert`. -/
  push : SignedTransaction → List SignedTransaction → List SignedTransaction

variable {H : Type}

/-- `Block::hash`: the hash of the header alone (spec §3), the block's identity. -/
def Env.hash (E : Env H) (b : Block H) : H := E.headerHash b.header

/-- What the node trusts `Header::hash` (SHA-256) for: no two headers collide, and none hashes
    to the all-zero `H256`, which stands for "no parent". -/
structure Env.IdealHash (E : Env H) : Prop where
  injective : Function.Injective E.headerHash
  ne_zero : ∀ h, E.headerHash h ≠ E.zero

/-- Two blocks of one hash have one header. -/
theorem Env.IdealHash.header_eq {E : Env H} (hE : E.IdealHash) {b c : Block H}
    (h : E.hash b = E.hash c) : b.header = c.header :=
  hE.injective h

/-- Modelled from the spec: `Block::genesis` (block.rs is not among the sources) — "zero
    parent, a fixed difficulty constant ..., empty ... content, height 0". -/
def Env.genesis (E : Env H) : Block H :=
  ⟨⟨E.zero, 0, E.genesisDifficulty, 0, E.zero⟩, ⟨[]⟩⟩

/-! ## A concrete instantiation

  A collision-free `Header::hash` needs an unbounded hash type.  Over `H = Int` an injective
  code of the header does it, and it never codes to 0, the all-zero hash; it is negated because
  a code is at least each number it codes, the difficulty among them, so that
  `hash ≤ difficulty` can hold.  `sampleEnv` is the environment the concrete runs of the node
  are computed in. -/

/-- The fields of a header over `Int` hashes, as numbers. -/
def Header.fields (h : Header Int) : Int × Nat × Int × Nat × Int :=
  (h.parent, h.nonce.toNat, h.difficulty, h.timestamp, h.merkleRoot)

theorem Header.fields_injective : Function.Injective Header.fields := by
  rintro ⟨p, n, d, t, m⟩ ⟨p', n', d', t', m'⟩ h
  simp only [fields, Prod.mk.injEq] at h
  obtain ⟨rfl, h₂, rfl, rfl, rfl⟩ := h
  rw [UInt32.toNat.inj h₂]

/-- The node's collaborators over `Int` hashes: an injective header hash, a constant Merkle
    root, a stack for the mempool, and genesis difficulty 0.  The code is taken negative when
    `mines` (every block then meets the target) and positive otherwise (none does). -/
def sampleEnv (mines : Bool) : Env Int where
  headerHash h :=
    if mines then -1 - (Encodable.encode h.fields : Int) else 1 + (Encodable.encode h.fields : Int)
  merkleRoot _ := 0
  zero := 0
  genesisDifficulty := 0
  pop
    | [] => none
    | t :: l => some (t, l)
  push := List.cons

theorem sampleEnv_idealHash (mines : Bool) : (sampleEnv mines).IdealHash := by
  refine ⟨fun a b h => ?_, fun h => ?_⟩
  · cases mines <;>
      simp only [sampleEnv, Bool.false_eq_true, if_false, if_true, add_right_inj, sub_right_inj,
        Int.natCast_inj] at h <;>
      exact Header.fields_injective (Encodable.encode_injective h)
  · cases mines <;> simp only [sampleEnv, Bool.false_eq_true, if_false, if_true] <;> omega

end PowNode
