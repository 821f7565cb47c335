import FirmwareTransparency.Hash.Sha256

/-!
# Hashes in a Merkle tree

A leaf is hashed behind a zero byte and an inner node behind a one byte, so that no leaf can be
passed off as a node. Main statements: `leafPreimage_ne_nodePreimage` says that the strings hashed
for a leaf and for a node never agree, and `nodePreimage_injective` that a node's string determines
both children.
-/

set_option autoImplicit false

namespace FirmwareTransparency.Merkle

/-- The string that is hashed for a leaf. -/
def leafPreimage (data : Bytes) : Bytes := 0 :: data

/-- The string that is hashed for an inner node. -/
def nodePreimage (left right : Digest) : Bytes := 1 :: (left.toBytes ++ right.toBytes)

/-- The hash of a leaf. -/
def leafHash (data : Bytes) : Digest := sha256 (leafPreimage data)

/-- The hash of an inner node over its two children. -/
def nodeHash (left right : Digest) : Digest := sha256 (nodePreimage left right)

/-- The hash of the tree without leaves. -/
def emptyHash : Digest := sha256 []

/-- The string that is hashed for a leaf tells its data. -/
theorem leafPreimage_injective {a b : Bytes} (h : leafPreimage a = leafPreimage b) : a = b := by
  simpa [leafPreimage] using h

/-- The string that is hashed for a node tells both children. -/
theorem nodePreimage_injective {a b c d : Digest} (h : nodePreimage a b = nodePreimage c d) :
    a = c ∧ b = d := by
  have hparts := List.append_inj (List.cons.inj h).2 (by rw [a.length_eq, c.length_eq])
  exact ⟨FixedBytes.ext hparts.1, FixedBytes.ext hparts.2⟩

/-- No string is hashed for a leaf and for a node: their first bytes differ. -/
theorem leafPreimage_ne_nodePreimage (data : Bytes) (left right : Digest) :
    leafPreimage data ≠ nodePreimage left right := by
  intro h
  exact absurd (List.cons.inj h).1 (by decide)

end FirmwareTransparency.Merkle
