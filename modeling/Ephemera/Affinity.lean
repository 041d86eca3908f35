import Std.Data.ExtTreeMap
import Ephemera.Hash.SipHash

/-! # Affinity

An affinity says which node holds the authoritative copy of a key and which nodes back it up. The
cache works with any affinity; `Lawful` is what it expects of one. `Partitioning` is the affinity
that spreads keys by their hash over partitions and deals the partitions out to the nodes in turn.
-/

namespace Ephemera

open Std

universe u

/-- What a node is to a key. -/
inductive Role where
  | primary
  | backup
  /-- Not an owner: the node may only hold a near copy. -/
  | none
  deriving DecidableEq, Repr

/-- Which nodes own which keys. Nodes are numbered from zero. -/
structure Affinity (κ : Type u) where
  /-- The number of nodes that the keys are laid out over. -/
  nodes : Nat
  /-- The node with the authoritative copy of a key. -/
  primary : κ → Nat
  /-- The nodes with further copies of a key. -/
  backups : κ → List Nat

namespace Affinity

variable {κ : Type u}

/-- What a cluster relies on: every owner is one of its nodes, and no primary backs itself up. -/
structure Lawful (a : Affinity κ) : Prop where
  primary_lt : ∀ key, a.primary key < a.nodes
  backups_lt : ∀ key, ∀ node ∈ a.backups key, node < a.nodes
  primary_not_mem_backups : ∀ key, a.primary key ∉ a.backups key

/-- What `node` is to `key`. -/
def role (a : Affinity κ) (node : Nat) (key : κ) : Role :=
  if a.primary key = node then .primary
  else if node ∈ a.backups key then .backup
  else .none

/-- Whether `node` holds `key` as its primary or as a backup. -/
def isOwner (a : Affinity κ) (node : Nat) (key : κ) : Bool :=
  a.role node key != .none

theorem role_eq_primary_iff (a : Affinity κ) (node : Nat) (key : κ) :
    a.role node key = .primary ↔ a.primary key = node := by
  unfold role
  split
  · simp_all
  · split <;> simp_all

theorem isOwner_iff (a : Affinity κ) (node : Nat) (key : κ) :
    a.isOwner node key = true ↔ a.primary key = node ∨ node ∈ a.backups key := by
  unfold isOwner role
  split
  · simp_all
  · split <;> simp_all

/-- The affinity given by the owners of some keys, the primary first, and the owners of all
others. -/
def ofTable [Ord κ] [TransOrd κ] (nodes : Nat) (table : ExtTreeMap κ (List Nat))
    (others : List Nat) : Affinity κ where
  nodes
  primary key := (table.getD key others).headD 0
  backups key := (table.getD key others).tail

end Affinity

/-- Keys spread over partitions, and partitions dealt out to nodes in turn: a partition belongs to
the node of its number modulo the number of nodes, and is backed up on the nodes that follow. -/
structure Partitioning where
  partitions : Nat
  nodes : Nat
  backups : Nat
  deriving DecidableEq, Repr

namespace Partitioning

/-- At least one partition and one node, and no more backups than there are other nodes. -/
def new (partitions nodes backups : Nat) : Partitioning where
  partitions := max partitions 1
  nodes := max nodes 1
  backups := min backups (max nodes 1 - 1)

/-- The partition of a key with the given hash. -/
def partition (p : Partitioning) (hash : UInt64) : Nat :=
  hash.toNat % p.partitions

/-- The owner of a key with the given hash. -/
def primary (p : Partitioning) (hash : UInt64) : Nat :=
  p.partition hash % p.nodes

/-- The nodes that follow the owner, as many as there are backups. -/
def backupNodes (p : Partitioning) (hash : UInt64) : List Nat :=
  (List.range p.backups).map fun offset => (p.primary hash + (offset + 1)) % p.nodes

/-- The affinity on keys with a hash. -/
def affinity {κ : Type u} (p : Partitioning) (hash : κ → UInt64) : Affinity κ where
  nodes := p.nodes
  primary key := p.primary (hash key)
  backups key := p.backupNodes (hash key)

end Partitioning

/-- The hash by which bytes are spread over partitions: SipHash-1-3 under the key zero. -/
def partitionHash (bytes : List UInt8) : UInt64 :=
  SipHash.hash 1 3 0 0 bytes

/-- The bytes by which a text is hashed: its own, and a last one that no text contains. -/
def hashBytes (text : String) : List UInt8 :=
  text.toUTF8.toList ++ [0xff]

/-- The little-endian bytes of a number, `count` of them. -/
def littleEndian (count : Nat) (n : UInt64) : List UInt8 :=
  (List.range count).map fun i => (n >>> UInt64.ofNat (8 * i)).toUInt8

end Ephemera
