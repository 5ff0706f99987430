import PhasedGrid.Decimal.Numeral

/-!
Names of snapshots: who started one, and the count of that initiator.
-/

namespace PhasedGrid.Snapshot

set_option autoImplicit false

structure Version where
  initiator : String
  sequence : Nat
  deriving DecidableEq, Repr

namespace Version

/-- The version that stands for "no snapshot in progress". -/
def sentinel : Version := ⟨"default", 0⟩

def isSentinel (v : Version) : Bool := v = sentinel

/-- Versions are ordered by initiator, then by sequence. -/
protected def Lt (a b : Version) : Prop :=
  a.initiator < b.initiator ∨ (a.initiator = b.initiator ∧ a.sequence < b.sequence)

instance : LT Version := ⟨Version.Lt⟩

instance (a b : Version) : Decidable (a < b) :=
  inferInstanceAs (Decidable (a.initiator < b.initiator ∨
    (a.initiator = b.initiator ∧ a.sequence < b.sequence)))

/-- Whether `a` replaces `b`: the same initiator counted on. -/
def supersedes (a b : Version) : Bool := a.initiator = b.initiator && b.sequence < a.sequence

def text (v : Version) : String :=
  "(" ++ v.initiator ++ ", " ++ Decimal.natText v.sequence ++ ")"

end Version

end PhasedGrid.Snapshot
