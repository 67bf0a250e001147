/-! # Fingerprints

Numbers by which a table files items. Equal items have equal fingerprints, because a fingerprint is a
function; different items may share one, so a search still compares. -/

namespace RelationalLP

/-- Items with a fingerprint. Any function does; searches are short when different items seldom share
a number. -/
class Fingerprint (α : Type) where
  /-- The fingerprint of an item. -/
  of : α → Nat

namespace Fingerprint

/-- The fingerprint of a sequence from the one of its beginning and the one of its next item. -/
def mix (h x : Nat) : Nat := (h * 1000003 + x) % 2147483647

instance : Fingerprint Nat := ⟨id⟩

instance : Fingerprint Int := ⟨fun z => 2 * z.natAbs + if z < 0 then 1 else 0⟩

instance : Fingerprint String := ⟨fun s => s.toList.foldl (fun h c => mix h c.toNat) 0⟩

instance {α β : Type} [Fingerprint α] [Fingerprint β] : Fingerprint (α × β) :=
  ⟨fun (a, b) => mix (of a) (of b)⟩

instance {α : Type} [Fingerprint α] : Fingerprint (List α) :=
  ⟨fun xs => xs.foldl (fun h x => mix h (of x)) 1⟩

end Fingerprint

end RelationalLP
