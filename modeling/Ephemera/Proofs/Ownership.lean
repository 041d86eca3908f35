import Mathlib.Data.List.Rotate
import Ephemera.Http.Server
import Ephemera.Proofs.Quiescence

/-! # The owners of keys

Partitions are dealt out to the nodes in turn, and a key is backed up on the nodes that follow its
primary. Seen from the primary the nodes form a ring, on which every node has one place; the primary
and the backups have the first places. So each node has one role for a key, whatever numbers of
partitions, nodes and backups are asked for, and the layout is one that a cluster can rely on.

The numbers of a layout have no end here, and a difference or a remainder always has a value. `layOut`
finds the owners with numbers that end, and reports a step that has no value among them.
-/

namespace Ephemera

universe u v w

/-! ## Roles -/

namespace Affinity

variable {κ : Type u} {a : Affinity κ} {node : Nat} {key : κ}

theorem role_eq_none_iff : a.role node key = .none ↔ node ≠ a.primary key ∧ node ∉ a.backups key := by
  unfold role
  split
  · simp_all
  next hprimary => split <;> simp_all [Ne.symm hprimary]

theorem isOwner_iff_role :
    a.isOwner node key = true ↔ a.role node key = .primary ∨ a.role node key = .backup := by
  unfold isOwner
  cases a.role node key <;> decide

namespace Lawful

/-- No primary backs itself up, so every node that is listed as a backup is one. -/
theorem role_eq_backup_iff (h : a.Lawful) : a.role node key = .backup ↔ node ∈ a.backups key := by
  unfold role
  split
  next hprimary => simp [← hprimary, h.primary_not_mem_backups key]
  · split <;> simp_all

theorem existsUnique_primary (h : a.Lawful) (key : κ) :
    ∃! node, node < a.nodes ∧ a.role node key = .primary := by
  refine ⟨a.primary key, ⟨h.primary_lt key, (a.role_eq_primary_iff _ key).2 rfl⟩, ?_⟩
  rintro node ⟨-, hrole⟩
  exact ((a.role_eq_primary_iff node key).1 hrole).symm

end Lawful

end Affinity

/-! ## The ring of nodes -/

namespace Partitioning

variable {p : Partitioning} {node : Nat}

/-- There are partitions and nodes to lay keys out over, and more nodes than backups. -/
structure Sized (p : Partitioning) : Prop where
  partitions_pos : 0 < p.partitions
  nodes_pos : 0 < p.nodes
  backups_lt : p.backups < p.nodes

theorem sized_new (partitions nodes backups : Nat) : (new partitions nodes backups).Sized where
  partitions_pos := Nat.le_max_right partitions 1
  nodes_pos := Nat.le_max_right nodes 1
  backups_lt := by
    have hothers : (new partitions nodes backups).backups ≤ max nodes 1 - 1 := Nat.min_le_right _ _
    have hnodes : 1 ≤ max nodes 1 := Nat.le_max_right nodes 1
    exact Nat.lt_of_le_of_lt hothers (Nat.sub_one_lt_of_le hnodes le_rfl)

/-- The nodes in turn, from the primary of a key with the given hash on. -/
def ring (p : Partitioning) (hash : UInt64) : List Nat :=
  (List.range p.nodes).rotate (p.primary hash)

theorem length_ring (p : Partitioning) (hash : UInt64) : (p.ring hash).length = p.nodes := by
  simp [ring]

theorem nodup_ring (p : Partitioning) (hash : UInt64) : (p.ring hash).Nodup :=
  List.nodup_rotate.2 List.nodup_range

theorem mem_ring_iff {hash : UInt64} : node ∈ p.ring hash ↔ node < p.nodes := by
  simp [ring]

theorem getElem_ring (p : Partitioning) (hash : UInt64) (place : Nat)
    (h : place < (p.ring hash).length) :
    (p.ring hash)[place] = (p.primary hash + place) % p.nodes := by
  simp [ring, List.getElem_rotate, Nat.add_comm]

theorem length_backupNodes (p : Partitioning) (hash : UInt64) :
    (p.backupNodes hash).length = p.backups := by
  simp [backupNodes]

namespace Sized

theorem primary_lt (h : p.Sized) (hash : UInt64) : p.primary hash < p.nodes :=
  Nat.mod_lt _ h.nodes_pos

/-- The owners of a key have the first places of the ring. -/
theorem owners_eq (h : p.Sized) (hash : UInt64) :
    p.primary hash :: p.backupNodes hash = (p.ring hash).take (p.backups + 1) := by
  have hplaces : min (p.backups + 1) p.nodes = p.backups + 1 := Nat.min_eq_left h.backups_lt
  apply List.ext_getElem
  · rw [List.length_cons, length_backupNodes, List.length_take, length_ring, hplaces]
  · intro place hplace _
    rw [List.getElem_take, getElem_ring]
    cases place with
    | zero => exact (Nat.mod_eq_of_lt (h.primary_lt hash)).symm
    | succ offset => simp [backupNodes]

/-- As the backups are fewer than the nodes, going on from the primary does not come back to it. -/
theorem nodup_owners (h : p.Sized) (hash : UInt64) :
    (p.primary hash :: p.backupNodes hash).Nodup := by
  rw [h.owners_eq]
  exact (p.nodup_ring hash).sublist (List.take_sublist _ _)

theorem owner_lt (h : p.Sized) {hash : UInt64} (hnode : node ∈ p.primary hash :: p.backupNodes hash) :
    node < p.nodes := by
  rw [h.owners_eq] at hnode
  exact mem_ring_iff.1 (List.mem_of_mem_take hnode)

theorem lawful (h : p.Sized) {κ : Type u} (hash : κ → UInt64) : (p.affinity hash).Lawful where
  primary_lt key := h.primary_lt (hash key)
  backups_lt _ _ hnode := h.owner_lt (List.mem_cons_of_mem _ hnode)
  primary_not_mem_backups key := (List.nodup_cons.1 (h.nodup_owners (hash key))).1

theorem nodup_backups (h : p.Sized) {κ : Type u} (hash : κ → UInt64) (key : κ) :
    ((p.affinity hash).backups key).Nodup :=
  (List.nodup_cons.1 (h.nodup_owners (hash key))).2

end Sized

end Partitioning

/-! ## Numbers that end -/

/-- Why a step of a computation has no value. -/
inductive Fault where
  /-- A remainder by zero. -/
  | divisionByZero
  /-- A difference below zero. -/
  | underflow
  /-- A sum above the largest number. -/
  | overflow
  deriving DecidableEq, Repr

namespace Checked

/-- The sum, unless it is above `largest`. -/
def add (largest a b : Nat) : Except Fault Nat :=
  if largest < a + b then .error .overflow else .ok (a + b)

/-- The difference, unless it is below zero. -/
def sub (a b : Nat) : Except Fault Nat :=
  if a < b then .error .underflow else .ok (a - b)

/-- The remainder, unless it is one by zero. -/
def mod (a b : Nat) : Except Fault Nat :=
  if b = 0 then .error .divisionByZero else .ok (a % b)

theorem sub_of_le {a b : Nat} (h : b ≤ a) : sub a b = .ok (a - b) :=
  if_neg (Nat.not_lt.2 h)

theorem mod_of_pos {a b : Nat} (h : 0 < b) : mod a b = .ok (a % b) :=
  if_neg (Nat.ne_of_gt h)

/-- Steps that all stop for one reason, if they stop, come to all values or to that reason. -/
theorem mapM_eq {α : Type u} {β : Type v} {ε : Type w} {f : α → Except ε β} {g : α → β}
    {stops : α → Prop} [DecidablePred stops] {e : ε}
    (h : ∀ a, f a = if stops a then .error e else .ok (g a)) (xs : List α) :
    xs.mapM f = if ∃ a ∈ xs, stops a then .error e else .ok (xs.map g) := by
  induction xs with
  | nil => simp [pure, Except.pure]
  | cons a xs ih =>
      rw [List.mapM_cons, h, ih]
      by_cases hhead : stops a
      · simp [hhead, bind, Except.bind]
      · by_cases htail : ∃ b ∈ xs, stops b
        · simp [hhead, htail, bind, Except.bind]
        · simp [hhead, htail, bind, Except.bind, pure, Except.pure]

end Checked

namespace Partitioning

variable {p : Partitioning}

/-- `new`, step by step. -/
def sizeUp (partitions nodes backups : Nat) : Except Fault Partitioning := do
  let others ← Checked.sub (max nodes 1) 1
  return { partitions := max partitions 1, nodes := max nodes 1, backups := min backups others }

/-- `primary`, step by step. -/
def findPrimary (p : Partitioning) (hash : UInt64) : Except Fault Nat := do
  let partition ← Checked.mod hash.toNat p.partitions
  Checked.mod partition p.nodes

/-- The node so many places after the primary. -/
def findAfter (p : Partitioning) (largest primary places : Nat) : Except Fault Nat := do
  let place ← Checked.add largest primary places
  Checked.mod place p.nodes

/-- `backupNodes`, step by step, from the primary on. -/
def findBackups (p : Partitioning) (largest primary : Nat) : Except Fault (List Nat) :=
  (List.range p.backups).mapM fun offset => p.findAfter largest primary (offset + 1)

/-- The primary and the backups of a key with the given hash, with numbers up to `largest`. -/
def layOut (largest partitions nodes backups : Nat) (hash : UInt64) :
    Except Fault (Nat × List Nat) := do
  let p ← sizeUp partitions nodes backups
  let primary ← p.findPrimary hash
  let backups ← p.findBackups largest primary
  return (primary, backups)

theorem sizeUp_eq (partitions nodes backups : Nat) :
    sizeUp partitions nodes backups = .ok (new partitions nodes backups) := by
  unfold sizeUp
  rw [Checked.sub_of_le (Nat.le_max_right nodes 1)]
  rfl

theorem Sized.findPrimary_eq (h : p.Sized) (hash : UInt64) :
    p.findPrimary hash = .ok (p.primary hash) := by
  unfold findPrimary
  rw [Checked.mod_of_pos h.partitions_pos]
  exact Checked.mod_of_pos h.nodes_pos

theorem Sized.findAfter_eq (h : p.Sized) (largest primary places : Nat) :
    p.findAfter largest primary places =
      if largest < primary + places then .error .overflow else .ok ((primary + places) % p.nodes) := by
  unfold findAfter Checked.add
  split
  · rfl
  · exact Checked.mod_of_pos h.nodes_pos

/-- The last backup is the furthest from the primary: if any sum is too large, that one is. -/
theorem Sized.findBackups_eq (h : p.Sized) (largest : Nat) (hash : UInt64) :
    p.findBackups largest (p.primary hash) =
      if p.backups ≠ 0 ∧ largest < p.primary hash + p.backups then .error .overflow
      else .ok (p.backupNodes hash) := by
  have hfurthest : (∃ offset ∈ List.range p.backups, largest < p.primary hash + (offset + 1)) ↔
      p.backups ≠ 0 ∧ largest < p.primary hash + p.backups := by
    constructor
    · rintro ⟨offset, hoffset, hlarge⟩
      have hlt := List.mem_range.1 hoffset
      omega
    · rintro ⟨hsome, hlarge⟩
      refine ⟨p.backups - 1, List.mem_range.2 (by omega), ?_⟩
      rwa [Nat.sub_add_cancel (Nat.pos_of_ne_zero hsome)]
  unfold findBackups
  rw [Checked.mapM_eq fun offset => h.findAfter_eq largest (p.primary hash) (offset + 1)]
  simp only [hfurthest, backupNodes]

/-- The only step that may have no value is the sum that leads to the last backup. -/
theorem layOut_eq (largest partitions nodes backups : Nat) (hash : UInt64) :
    layOut largest partitions nodes backups hash =
      let p := new partitions nodes backups
      if p.backups ≠ 0 ∧ largest < p.primary hash + p.backups then .error .overflow
      else .ok (p.primary hash, p.backupNodes hash) := by
  have hsized := sized_new partitions nodes backups
  unfold layOut
  rw [sizeUp_eq]
  generalize new partitions nodes backups = p at hsized ⊢
  simp only [bind, Except.bind, hsized.findPrimary_eq, hsized.findBackups_eq]
  by_cases hlarge : p.backups ≠ 0 ∧ largest < p.primary hash + p.backups
  · simp only [if_pos hlarge]
  · simp only [if_neg hlarge]
    rfl

example : layOut 6 4 5 3 11 = .ok (3, [4, 0, 1]) ∧ layOut 5 4 5 3 11 = .error .overflow := by decide

/-- Whatever numbers of partitions, nodes and backups are asked for, zero included, and whatever the
keys hash to, there is at least one node, and the primary and the backups of a key are among the nodes.
The backups are distinct, the primary is none of them, and there are as many as asked for, or one on
every other node. Exactly one of the nodes has the role of the primary; those listed as backups have
that role, all others have none, and the owners are the nodes with one of the two roles. Numbers up to
`largest` give the same owners: no remainder by zero is taken, no difference is below zero, and a sum is
above `largest` exactly if there are backups and their number, added to the primary, is. -/
theorem owners_laid_out {κ : Type u} (partitions nodes backups largest : Nat) (hash : κ → UInt64)
    (key : κ) :
    let a := (new partitions nodes backups).affinity hash
    a.nodes = max nodes 1 ∧
      a.primary key < a.nodes ∧ (∀ node ∈ a.backups key, node < a.nodes) ∧
      (a.backups key).Nodup ∧ a.primary key ∉ a.backups key ∧
      (a.backups key).length = min backups (a.nodes - 1) ∧
      (∃! node, node < a.nodes ∧ a.role node key = .primary) ∧
      (∀ node, (a.role node key = .primary ↔ node = a.primary key) ∧
        (a.role node key = .backup ↔ node ∈ a.backups key) ∧
        (a.role node key = .none ↔ node ≠ a.primary key ∧ node ∉ a.backups key) ∧
        (a.isOwner node key = true ↔ a.role node key = .primary ∨ a.role node key = .backup)) ∧
      layOut largest partitions nodes backups (hash key) =
        if (a.backups key).length ≠ 0 ∧ largest < a.primary key + (a.backups key).length then
          .error .overflow
        else .ok (a.primary key, a.backups key) := by
  intro a
  have hsized := sized_new partitions nodes backups
  have hlawful : a.Lawful := hsized.lawful hash
  have hlength : (a.backups key).length = (new partitions nodes backups).backups :=
    length_backupNodes _ (hash key)
  refine ⟨rfl, hlawful.primary_lt key, hlawful.backups_lt key, hsized.nodup_backups hash key,
    hlawful.primary_not_mem_backups key, hlength, hlawful.existsUnique_primary key, fun node => ?_, ?_⟩
  · exact ⟨(a.role_eq_primary_iff node key).trans eq_comm, hlawful.role_eq_backup_iff,
      Affinity.role_eq_none_iff, Affinity.isOwner_iff_role⟩
  · rw [layOut_eq, hlength]
    rfl

end Partitioning

/-- The affinity of a server is one that its cluster relies on, whatever the settings say. -/
theorem Settings.lawful_of_start {s : Settings} {now : Millis} {session : Session String String}
    (h : s.start now = .ok session) :
    session.cluster.affinity.Lawful ∧ ∀ key, (session.cluster.affinity.backups key).Nodup := by
  have hsized := Partitioning.sized_new s.partitions s.nodes s.backups
  unfold Settings.start at h
  split at h
  · cases h
  · simp only [Session.start] at h
    split at h
    · cases h
    next hcluster =>
      cases h
      obtain ⟨-, rfl⟩ := Cluster.start_ok hcluster
      exact ⟨hsized.lawful _, hsized.nodup_backups _⟩

end Ephemera
