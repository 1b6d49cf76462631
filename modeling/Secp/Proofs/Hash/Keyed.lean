import Secp.Hash.Hmac
import Secp.Proofs.Hash.Buffer

/-!
# Keyed digests by way of buffers

Here a keyed digest is taken the way a machine takes it, in two digests with a buffer each. The
key, or its digest if it is longer than a block, is copied to the front of a block of zeros. That
block is mixed into two blocks of constant bytes, which the two digests take in at the beginning.
Then the inner one takes in the message piece by piece, and in the end the outer one takes in the
digest of the inner one.

Whatever the key and the pieces are, this is the published keyed digest, over the digest of whole
messages. It is refused only where that is, when a message that is to be digested is too long.
-/

namespace Secp.Hmac

open Limbs (Fault)
open Sha256 (copyInto copyInto_front length_of_copyInto)

-- Powers of numbers are core's, whichever others are in scope.
attribute [local instance(2000)] instPowNat

/-- The key, or its digest if it is longer than a block, and zeros behind it up to a block. -/
def publishedBlock {M : Type → Type} [Monad M] (digest : Bytes → M Bytes) (key : Bytes) :
    M Bytes :=
  (fun short ↦ short ++ List.replicate (64 - short.length) 0) <$>
    if 64 < key.length then digest key else pure key

/-- The keyed digest as it is published, over any digest: an outer digest of an inner one, each of
the key's block under a mask of its own and of what follows. -/
def published {M : Type → Type} [Monad M] (digest : Bytes → M Bytes) (key message : Bytes) :
    M Bytes := do
  let block ← publishedBlock digest key
  let inner ← digest (block.map (0x36 ^^^ ·) ++ message)
  digest (block.map (0x5c ^^^ ·) ++ inner)

/-- A keyed digest under way, in two digests with a buffer each. -/
structure Buffered where
  inner : Sha256.Buffered
  outer : Sha256.Buffered
  deriving DecidableEq, Repr

namespace Buffered

/-- Copy a key to the front of a block of zeros, or its digest if the key is longer than a block. -/
def keyBlock (key : Bytes) : Except Fault Bytes := do
  let block := List.replicate 64 0
  if 64 < key.length then
    let short ← Sha256.Buffered.digest [key]
    copyInto block 0 32 short
  else copyInto block 0 key.length key

/-- A keyed digest that has taken in nothing. -/
def start (key : Bytes) : Except Fault Buffered := do
  let block ← keyBlock key
  let inner ← Sha256.Buffered.start.update (List.zipWith (· ^^^ ·) (List.replicate 64 0x36) block)
  let outer ← Sha256.Buffered.start.update (List.zipWith (· ^^^ ·) (List.replicate 64 0x5c) block)
  .ok ⟨inner, outer⟩

/-- Take in more of the message. -/
def update (h : Buffered) (data : Bytes) : Except Fault Buffered := do
  let inner ← h.inner.update data
  .ok { h with inner := inner }

/-- The keyed digest of what has been taken in. -/
def finish (h : Buffered) : Except Fault Bytes := do
  let inner ← h.inner.finish
  let outer ← h.outer.update inner
  outer.finish

/-- The keyed digest of a message that is taken in piece by piece. -/
def digest (key : Bytes) (pieces : List Bytes) : Except Fault Bytes := do
  let h ← start key
  let h ← pieces.foldlM update h
  h.finish

/-- The block of a key is the published one, over digests in buffers. -/
theorem keyBlock_eq (key : Bytes) :
    keyBlock key = publishedBlock (fun message ↦ Sha256.Buffered.digest [message]) key := by
  unfold keyBlock publishedBlock
  dsimp only
  split
  · next hlong =>
    rw [Sha256.Buffered.digest_eq]
    split
    · have hlength : (Sha256.digest [key].flatten).length = 32 := rfl
      have hcopy := copyInto_front (hlength.trans_le (by decide : 32 ≤ 64))
      rwa [hlength] at hcopy
    · rfl
  · next hshort => exact copyInto_front (Nat.le_of_not_lt hshort)

/-- A key's block has 64 bytes. -/
theorem length_of_keyBlock {key block : Bytes} (h : keyBlock key = .ok block) :
    block.length = 64 := by
  unfold keyBlock at h
  dsimp only at h
  split at h
  · cases hshort : Sha256.Buffered.digest [key] with
    | error fault =>
      rw [hshort] at h
      exact nomatch h
    | ok short =>
      rw [hshort, ok_bind] at h
      exact length_of_copyInto h
  · exact length_of_copyInto h

/-- The pieces of a message go to the inner digest. -/
theorem foldlM_update (h : Buffered) (pieces : List Bytes) :
    pieces.foldlM update h =
      (pieces.foldlM Sha256.Buffered.update h.inner).map fun inner ↦ { h with inner := inner } := by
  induction pieces generalizing h with
  | nil => rfl
  | cons piece pieces ih =>
    rw [List.foldlM_cons, List.foldlM_cons, update]
    cases h.inner.update piece with
    | error fault => rfl
    | ok inner => exact ih _

/-- Mixing a constant byte into the bytes of a block. -/
theorem zipWith_replicate (mask : UInt8) {block : Bytes} (hblock : block.length = 64) :
    List.zipWith (· ^^^ ·) (List.replicate 64 mask) block = block.map (mask ^^^ ·) := by
  rw [← hblock, ← List.map_const', List.zipWith_map_left, List.zipWith_self]

/-- A block is taken in without a fault. -/
theorem exists_update_block {block : Bytes} (hblock : block.length = 64) :
    ∃ b, Sha256.Buffered.start.update block = .ok b := by
  have hfits : Sha256.Buffered.start.total + block.length < 2 ^ 64 := by
    rw [hblock]
    decide
  obtain ⟨b, hb, -⟩ := Sha256.Buffered.holds_start.exists_update hfits
  exact ⟨b, hb⟩

/-- A keyed digest in buffers is the published one, over digests in buffers. -/
theorem digest_eq_published (key : Bytes) (pieces : List Bytes) :
    digest key pieces =
      published (fun message ↦ Sha256.Buffered.digest [message]) key pieces.flatten := by
  unfold digest start published
  rw [keyBlock_eq]
  cases hshort : publishedBlock (fun message ↦ Sha256.Buffered.digest [message]) key with
  | error fault => rfl
  | ok block =>
    have hblock := length_of_keyBlock ((keyBlock_eq key).trans hshort)
    have hmasked (mask : UInt8) : (block.map (mask ^^^ ·)).length = 64 := by
      rw [List.length_map, hblock]
    obtain ⟨inner, hinner⟩ := exists_update_block (hmasked 0x36)
    obtain ⟨outer, houter⟩ := exists_update_block (hmasked 0x5c)
    -- with its block taken in, either digest goes on as that of the block and what follows
    have hnested (digest : Bytes) : Sha256.Buffered.digest [block.map (0x5c ^^^ ·) ++ digest] =
        outer.update digest >>= Sha256.Buffered.finish := by
      have hwhole := Sha256.Buffered.digest_append houter [digest]
      rw [List.flatten_singleton, List.foldlM_cons] at hwhole
      rw [hwhole]
      cases outer.update digest <;> rfl
    simp only [ok_bind, zipWith_replicate _ hblock, hinner, houter, foldlM_update,
      Sha256.Buffered.digest_append hinner, hnested]
    cases pieces.foldlM Sha256.Buffered.update inner with
    | error fault => rfl
    | ok b => rfl

/-- A keyed digest whose messages are not too long is that of whole messages. -/
theorem digest_eq_ok {key : Bytes} {pieces : List Bytes} (hkey : key.length < 2 ^ 61)
    (hpieces : pieces.flatten.length + 64 < 2 ^ 61) :
    digest key pieces = .ok (nested key pieces.flatten) := by
  have hshort : publishedBlock (fun message ↦ Sha256.Buffered.digest [message]) key =
      .ok (Hmac.keyBlock key) := by
    unfold publishedBlock Hmac.keyBlock
    dsimp only
    split
    · rw [Sha256.Buffered.digest_singleton hkey]
      rfl
    · rfl
  have hblock := length_of_keyBlock ((keyBlock_eq key).trans hshort)
  have hinner : ((Hmac.keyBlock key).map (0x36 ^^^ ·) ++ pieces.flatten).length < 2 ^ 61 := by
    rw [List.length_append, List.length_map, hblock, Nat.add_comm]
    exact hpieces
  have houter : ((Hmac.keyBlock key).map (0x5c ^^^ ·) ++
      Sha256.digest ((Hmac.keyBlock key).map (0x36 ^^^ ·) ++ pieces.flatten)).length < 2 ^ 61 := by
    rw [List.length_append, List.length_map, hblock]
    exact (by decide : 64 + 32 < 2 ^ 61)
  rw [digest_eq_published, published, hshort, ok_bind, Sha256.Buffered.digest_singleton hinner,
    ok_bind, Sha256.Buffered.digest_singleton houter]
  rfl

end Buffered

/-- The keyed digest of what has been taken in piece by piece is the published one. -/
theorem finish_eq_published (key : Bytes) (pieces : List Bytes) :
    (pieces.foldl update (start key)).finish =
      published (M := Id) Sha256.digest key pieces.flatten := by
  rw [finish_foldl_update]
  unfold nested keyBlock published publishedBlock
  rfl

/-- Whatever the key and the pieces of a message are, the keyed digest in buffers and the one on
lists are the published one, each over its digest of whole messages. The first is given where
neither the key nor the message behind a block is too long for a digest. -/
theorem keyed_digests_nested (key : Bytes) (pieces : List Bytes) :
    Buffered.digest key pieces =
        published (fun message ↦ Sha256.Buffered.digest [message]) key pieces.flatten ∧
      (pieces.foldl update (start key)).finish =
        published (M := Id) Sha256.digest key pieces.flatten ∧
      (key.length < 2 ^ 61 → pieces.flatten.length + 64 < 2 ^ 61 →
        Buffered.digest key pieces =
          .ok (published (M := Id) Sha256.digest key pieces.flatten)) := by
  refine ⟨Buffered.digest_eq_published key pieces, finish_eq_published key pieces, ?_⟩
  intro hkey hpieces
  rw [Buffered.digest_eq_ok hkey hpieces, ← finish_foldl_update, finish_eq_published]

/-- A key longer than a block, of the published test vectors, and its message in three pieces of
which one is empty. -/
theorem keyed_digests_nested_long_key :
    let key : Bytes := List.replicate 131 0xaa
    let message := "Test Using Larger Than Block-Size Key - Hash Key First".toList.map
      fun c ↦ UInt8.ofNat c.toNat
    let pieces := [message.take 5, [], message.drop 5]
    64 < key.length ∧ key.length < 2 ^ 61 ∧ pieces.flatten.length + 64 < 2 ^ 61 ∧
      Buffered.digest key pieces = .ok (Bytes.bigEndian 32
        0x60e431591ee0b67f0d8a26aacbf5b77f8e0bc6213728c5140546040f0ee37f54) := by
  intro key message pieces
  have hkey : key.length < 2 ^ 61 := by decide +kernel
  have hpieces : pieces.flatten.length + 64 < 2 ^ 61 := by decide +kernel
  have hdigest : nested key pieces.flatten = Bytes.bigEndian 32
      0x60e431591ee0b67f0d8a26aacbf5b77f8e0bc6213728c5140546040f0ee37f54 := by decide +kernel
  refine ⟨by decide +kernel, hkey, hpieces, ?_⟩
  rw [← hdigest]
  exact (keyed_digests_nested key pieces).2.2 hkey hpieces

end Secp.Hmac
