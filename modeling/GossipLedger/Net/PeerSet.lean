import GossipLedger.Net.AddressText
import GossipLedger.Picker

/-!
# Peer sets

The peers that a node knows, in the order in which they were added.

## Main definitions

* `PeerSet` — different addresses in order, with `add`, `addAll`, `remove`.
* `PeerSet.pick` — a pick among the peers that are not excluded.
-/

namespace GossipLedger

/-- The peers that a node knows, in the order in which they were added. -/
structure PeerSet where
  toList : List PeerAddress
  /-- No peer is listed twice. -/
  nodup : toList.Nodup
  deriving DecidableEq

namespace PeerSet

@[ext] theorem ext {s t : PeerSet} (h : s.toList = t.toList) : s = t := by
  cases s; cases t; cases h; rfl

/-- No peers. -/
def empty : PeerSet := ⟨[], .nil⟩

instance : Inhabited PeerSet := ⟨empty⟩

instance : Membership PeerAddress PeerSet := ⟨fun s p => p ∈ s.toList⟩

instance (p : PeerAddress) (s : PeerSet) : Decidable (p ∈ s) :=
  inferInstanceAs (Decidable (p ∈ s.toList))

/-- The number of peers. -/
def size (s : PeerSet) : Nat := s.toList.length

/-- The set with a peer added at the end, unless it is known already. -/
def add (s : PeerSet) (p : PeerAddress) : PeerSet :=
  if h : p ∈ s then s
  else ⟨s.toList ++ [p], List.nodup_append.2 ⟨s.nodup, by simp, by
    intro a ha b hb hab
    rw [List.mem_singleton] at hb
    subst hab hb
    exact h ha⟩⟩

/-- The set with several peers added, one after the other. -/
def addAll (s : PeerSet) (ps : List PeerAddress) : PeerSet := ps.foldl add s

/-- The set of some peers. -/
def ofList (ps : List PeerAddress) : PeerSet := empty.addAll ps

/-- The set without a peer. -/
def remove (s : PeerSet) (p : PeerAddress) : PeerSet :=
  ⟨s.toList.filter (· ≠ p), s.nodup.filter _⟩

/-- The addresses with a comma between any two. -/
def text (s : PeerSet) : String := ",".intercalate (s.toList.map PeerAddress.text)

@[simp] theorem mem_add {s : PeerSet} {p q : PeerAddress} : q ∈ s.add p ↔ q ∈ s ∨ q = p := by
  change q ∈ (s.add p).toList ↔ q ∈ s.toList ∨ q = p
  rw [add]
  split
  next h => exact ⟨.inl, fun h' => h'.elim id fun e => e ▸ h⟩
  next => simp

@[simp] theorem mem_remove {s : PeerSet} {p q : PeerAddress} : q ∈ s.remove p ↔ q ∈ s ∧ q ≠ p := by
  change q ∈ (s.remove p).toList ↔ q ∈ s.toList ∧ q ≠ p
  simp [remove]

/-- Adding several peers makes the set larger by the number of those that were
new. -/
def addedBy (s : PeerSet) (ps : List PeerAddress) : Nat := (s.addAll ps).size - s.size

end PeerSet

/-- A pick among the known peers that are not excluded. -/
def PeerSet.pick (s : PeerSet) (picker : Picker PeerAddress) (excluded : List PeerAddress) :
    Option PeerAddress :=
  picker.pick (s.toList.filter (· ∉ excluded))

end GossipLedger
