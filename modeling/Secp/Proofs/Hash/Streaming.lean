import Secp.Hash.Drbg

/-!
# Digests of data that come in parts

A digest depends on the bytes that it takes in, not on how they are cut: whole blocks are compressed
as soon as they are complete, and what waits stands before what comes next. It is the compression of
the padded message. A keyed digest is thus two digests, one within the other, of the key's blocks
and the message.
-/

namespace Secp

namespace Sha256

/-- What follows other data is compressed behind what the other data leave. -/
theorem compressAll_append (s : Chain) (a b : Bytes) :
    compressAll s (a ++ b) = compressAll (compressAll s a).1 ((compressAll s a).2 ++ b) := by
  fun_induction compressAll s a with
  | case1 s a hblock ih =>
    rw [← ih, compressAll, dif_pos (by rw [List.length_append]; omega),
      List.take_append_of_le_length hblock, List.drop_append_of_le_length hblock]
  | case2 s a hrest => rfl

/-- What waits is shorter than a block, and whole blocks come before it. -/
theorem length_compressAll (s : Chain) (a : Bytes) :
    (compressAll s a).2.length = a.length % 64 := by
  fun_induction compressAll s a with
  | case1 s a hblock ih =>
    rw [ih, List.length_drop]
    omega
  | case2 s a hrest =>
    dsimp only
    omega

/-- Taking in two byte strings is taking in both at once. -/
theorem update_update (d : Sha256) (a b : Bytes) :
    (d.update a).update b = d.update (a ++ b) := by
  unfold update
  dsimp only
  rw [← compressAll_append, List.append_assoc, List.length_append, Nat.add_assoc]

/-- Taking in byte strings in turn is taking in all of them at once. -/
theorem foldl_update (d : Sha256) (a : Bytes) (parts : List Bytes) :
    parts.foldl update (d.update a) = d.update (a ++ parts.flatten) := by
  induction parts generalizing a with
  | nil => rw [List.foldl_nil, List.flatten_nil, List.append_nil]
  | cons part parts ih =>
    rw [List.foldl_cons, update_update, ih, List.flatten_cons, List.append_assoc]

/-- A message with a one bit, the fewest zeros and its length in bits behind it, so that it fills
whole blocks. -/
def pad (data : Bytes) : Bytes :=
  data ++ [0x80] ++ List.replicate ((119 - data.length % 64) % 64) 0 ++
    Bytes.bigEndian 8 (8 * data.length)

/-- The digest is the compression of the padded message. -/
theorem digest_eq (data : Bytes) :
    digest data = (compressAll Chain.initial (pad data)).1.toBytes := by
  have hwaiting := length_compressAll Chain.initial data
  have hzeros : (if data.length % 64 + 9 ≤ 64 then 64 - (data.length % 64 + 9)
      else 128 - (data.length % 64 + 9)) = (119 - data.length % 64) % 64 := by
    split <;> omega
  unfold digest finish update start pad
  dsimp only
  rw [List.nil_append, hwaiting, hzeros, Nat.zero_add, List.append_assoc, List.append_assoc,
    List.append_assoc, List.append_assoc, compressAll_append _ data]

end Sha256

namespace Hmac

/-- A digest of the key's outer block and of a digest of the key's inner block and the message. -/
def nested (key data : Bytes) : Bytes :=
  Sha256.digest ((keyBlock key).map (0x5c ^^^ ·) ++
    Sha256.digest ((keyBlock key).map (0x36 ^^^ ·) ++ data))

/-- Parts of a message go to the inner digest. -/
theorem foldl_update (h : Hmac) (parts : List Bytes) :
    parts.foldl update h = ⟨parts.foldl Sha256.update h.inner, h.outer⟩ := by
  induction parts generalizing h with
  | nil => rfl
  | cons part parts ih => rw [List.foldl_cons, ih, List.foldl_cons, update]

/-- However a message is cut, its keyed digest is the nested digest of the whole. -/
theorem finish_foldl_update (key : Bytes) (parts : List Bytes) :
    (parts.foldl update (start key)).finish = nested key parts.flatten := by
  rw [foldl_update, finish, start]
  dsimp only
  rw [Sha256.foldl_update, Sha256.update_update]
  rfl

/-- A keyed digest has 32 bytes. -/
@[simp] theorem length_nested (key data : Bytes) : (nested key data).length = 32 := rfl

end Hmac

end Secp
