import OpinitBots.Merkle.Types
import Mathlib.Data.Nat.Bitwise

/-! What the engine computes, stated without the engine: the complete binary tree over a
sequence of leaves, its recursively defined root, padding by the last leaf, and the
folding of a proof path. -/
namespace OpinitBots.Merkle

section

variable (nodeGeneratorFn : NodeGeneratorFn)

/-- The node at height `h` and local index `j` of the tree whose leaves are `leaf`. -/
def nodeAt (leaf : Nat → Bytes) : Nat → Nat → Bytes
  | 0, j => leaf j
  | h + 1, j => nodeGeneratorFn (nodeAt leaf h (2 * j)) (nodeAt leaf h (2 * j + 1))

/-- The Merkle root of `2^h` leaves, recursively: parent of the roots of the two halves. -/
def merkleRoot : Nat → List Bytes → Bytes
  | 0, l => l.headD []
  | h + 1, l =>
    nodeGeneratorFn (merkleRoot h (l.take (2 ^ h))) (merkleRoot h (l.drop (2 ^ h)))

/-- The leaves `fillLeaves` produces: the last leaf repeated up to `2^h` leaves. -/
def padLeaves (leaves : List Bytes) (h : Nat) : List Bytes :=
  leaves ++ List.replicate (2 ^ h - leaves.length) (leaves.getLastD [])

def leafOf (leaves : List Bytes) (i : Nat) : Bytes := leaves.getD i []

theorem nodeAt_congr {leaf leaf' : Nat → Bytes} :
    ∀ (h j : Nat), (∀ i < 2 ^ h, leaf (j * 2 ^ h + i) = leaf' (j * 2 ^ h + i)) →
      nodeAt nodeGeneratorFn leaf h j = nodeAt nodeGeneratorFn leaf' h j
  | 0, j, same => by simpa using same 0 (by decide)
  | h + 1, j, same => by
    have left : ∀ i < 2 ^ h, leaf (2 * j * 2 ^ h + i) = leaf' (2 * j * 2 ^ h + i) :=
      fun i hi => by
        have e : 2 * j * 2 ^ h = j * 2 ^ (h + 1) := by rw [Nat.pow_succ]; ring
        rw [e]
        exact same i (by rw [Nat.pow_succ]; omega)
    have right : ∀ i < 2 ^ h,
        leaf ((2 * j + 1) * 2 ^ h + i) = leaf' ((2 * j + 1) * 2 ^ h + i) := fun i hi => by
      have e : (2 * j + 1) * 2 ^ h + i = j * 2 ^ (h + 1) + (2 ^ h + i) := by
        rw [Nat.pow_succ]; ring
      rw [e]
      exact same _ (by rw [Nat.pow_succ]; omega)
    simp only [nodeAt, nodeAt_congr h _ left, nodeAt_congr h _ right]

theorem merkleRoot_block (l : List Bytes) :
    ∀ (h j : Nat), (j + 1) * 2 ^ h ≤ l.length →
      merkleRoot nodeGeneratorFn h ((l.drop (j * 2 ^ h)).take (2 ^ h)) =
        nodeAt nodeGeneratorFn (leafOf l) h j
  | 0, j, _ => by
    simp [merkleRoot, nodeAt, leafOf, List.head?_take, List.head?_drop]
  | h + 1, j, fits => by
    have upper : (2 * j + 1 + 1) * 2 ^ h = (j + 1) * 2 ^ (h + 1) := by rw [Nat.pow_succ]; ring
    have lower : j * 2 ^ (h + 1) = 2 * j * 2 ^ h := by rw [Nat.pow_succ]; ring
    have mid : j * 2 ^ (h + 1) + 2 ^ h = (2 * j + 1) * 2 ^ h := by rw [Nat.pow_succ]; ring
    have half : 2 ^ (h + 1) = 2 ^ h + 2 ^ h := by rw [Nat.pow_succ]; omega
    have right := merkleRoot_block l h (2 * j + 1) (upper ▸ fits)
    have left := merkleRoot_block l h (2 * j)
      (Nat.le_trans (Nat.mul_le_mul_right _ (by omega)) (upper ▸ fits))
    have takeHalf : ((l.drop (j * 2 ^ (h + 1))).take (2 ^ (h + 1))).take (2 ^ h) =
        (l.drop (2 * j * 2 ^ h)).take (2 ^ h) := by
      rw [List.take_take, Nat.min_eq_left (Nat.pow_le_pow_right (by decide) (Nat.le_succ h)), lower]
    have dropHalf : ((l.drop (j * 2 ^ (h + 1))).take (2 ^ (h + 1))).drop (2 ^ h) =
        (l.drop ((2 * j + 1) * 2 ^ h)).take (2 ^ h) := by
      rw [List.drop_take, List.drop_drop, mid, half, Nat.add_sub_cancel]
    rw [merkleRoot, takeHalf, dropHalf, left, right]
    rfl

theorem merkleRoot_eq_nodeAt {l : List Bytes} {h : Nat} (full : l.length = 2 ^ h) :
    merkleRoot nodeGeneratorFn h l = nodeAt nodeGeneratorFn (leafOf l) h 0 := by
  have block := merkleRoot_block nodeGeneratorFn l h 0 (by omega)
  rwa [Nat.zero_mul, List.drop_zero, ← full, List.take_length] at block

theorem padLeaves_length {leaves : List Bytes} {h : Nat} (fits : leaves.length ≤ 2 ^ h) :
    (padLeaves leaves h).length = 2 ^ h := by
  simp only [padLeaves, List.length_append, List.length_replicate]
  omega

theorem leafOf_padLeaves {leaves : List Bytes} {i : Nat} (h : Nat) (real : i < leaves.length) :
    leafOf (padLeaves leaves h) i = leafOf leaves i := by
  simp [leafOf, padLeaves, List.getElem?_append_left real]

theorem xor_one_eq (j : Nat) : j ^^^ 1 = 2 * (j / 2) + (j + 1) % 2 := by
  have split := Nat.div_add_mod (j ^^^ 1) 2
  rw [Nat.xor_div_two, Nat.xor_mod_two_eq] at split
  simp only [Nat.reduceDiv, Nat.xor_zero] at split
  omega

theorem nodeAt_sibling (comm : ∀ a b, nodeGeneratorFn a b = nodeGeneratorFn b a)
    (leaf : Nat → Bytes) (h j : Nat) :
    nodeGeneratorFn (nodeAt nodeGeneratorFn leaf h j) (nodeAt nodeGeneratorFn leaf h (j ^^^ 1)) =
      nodeAt nodeGeneratorFn leaf (h + 1) (j / 2) := by
  rw [xor_one_eq]
  obtain ⟨k, rfl | rfl⟩ : ∃ k, j = 2 * k ∨ j = 2 * k + 1 := ⟨j / 2, by omega⟩
  · rw [show 2 * (2 * k / 2) + (2 * k + 1) % 2 = 2 * k + 1 by omega,
      show 2 * k / 2 = k by omega]
    rfl
  · rw [show 2 * ((2 * k + 1) / 2) + (2 * k + 1 + 1) % 2 = 2 * k by omega,
      show (2 * k + 1) / 2 = k by omega, comm]
    rfl

/-- The siblings of the path from node `(h, j)` over `k` levels, bottom-up. -/
def proofPath (leaf : Nat → Bytes) : Nat → Nat → Nat → List Bytes
  | 0, _, _ => []
  | k + 1, h, j => nodeAt nodeGeneratorFn leaf h (j ^^^ 1) :: proofPath leaf k (h + 1) (j / 2)

@[simp] theorem proofPath_length (leaf : Nat → Bytes) :
    ∀ k h j, (proofPath nodeGeneratorFn leaf k h j).length = k
  | 0, _, _ => rfl
  | k + 1, h, j => by simp [proofPath, proofPath_length leaf k]

theorem foldl_proofPath (comm : ∀ a b, nodeGeneratorFn a b = nodeGeneratorFn b a)
    (leaf : Nat → Bytes) : ∀ k h j,
      (proofPath nodeGeneratorFn leaf k h j).foldl nodeGeneratorFn (nodeAt nodeGeneratorFn leaf h j) =
        nodeAt nodeGeneratorFn leaf (h + k) (j / 2 ^ k)
  | 0, h, j => by simp [proofPath]
  | k + 1, h, j => by
    rw [proofPath, List.foldl_cons, nodeAt_sibling nodeGeneratorFn comm, foldl_proofPath comm leaf k,
      Nat.div_div_eq_div_mul, ← Nat.pow_succ', Nat.add_right_comm, Nat.add_assoc]

end

/-- Two digests in byte order, concatenated: a commutative pairing, the shape of the
sorted-pair hash the bots pass as their node generator. -/
def sortedConcat (a b : Bytes) : Bytes := if compareBytes a b = .gt then b ++ a else a ++ b

theorem sortedConcat_comm (a b : Bytes) : sortedConcat a b = sortedConcat b a := by
  unfold sortedConcat
  rw [← compareBytes_swap a b]
  cases h : compareBytes a b
  · rfl
  · rw [compareBytes_eq_iff.mp h, ite_self, ite_self]
  · rfl

end OpinitBots.Merkle
